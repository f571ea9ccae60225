import FastK.Lib.Transitions
import FastK.Transport
/-!
# The client's end of a session

The calls of any number of threads on one session object, its IO thread, the two pipes and the worker process
(`clients/python/src/fastk_client/_session.py`), as steps that interleave in any order.  A call takes the serial lock,
numbers its request, leaves an exchange in the queue and waits for it; the IO thread writes the frame of the exchange
and reads the frame that answers it; `close`, which a call runs too when it fails, stops the worker, empties the queue
and waits for the IO thread.  Timeouts, failures of the pipes and the end of the worker may come at any time, an
interrupt while a call waits for the serial lock, makes its request or waits for the answer.  The session starts after
the greeting.
-/
namespace FastK

open Framing

/-- Why a call of `request` raises. -/
inductive Refusal where
  /-- `SessionTimeout(before_dispatch=True)`. -/
  | timeoutBeforeDispatch
  /-- `SessionTimeout()`. -/
  | timeout
  /-- `SessionBroken("session is closed or failed; create a new Client")`. -/
  | sessionClosed
  /-- `SessionBroken("session closed before dispatch")`. -/
  | closedBeforeDispatch
  /-- `ValueError("session request exceeds the 1GiB frame limit")`. -/
  | frameLimit
  /-- `queue.Full`. -/
  | queueFull
  /-- `SessionProtocolError`. -/
  | protocol
  /-- An exception of the thread itself. -/
  | interrupted
  deriving DecidableEq, Repr

/-- The refusals that say that the request did not reach the worker. -/
def Refusal.beforeDispatch : Refusal → Bool
  | .timeoutBeforeDispatch | .sessionClosed | .closedBeforeDispatch | .frameLimit | .queueFull => true
  | .timeout | .protocol | .interrupted => false

/-- How a call ends. -/
inductive Outcome (V : Type) where
  | closed
  | raised (request : Option (Request V)) (why : Refusal)
  | returned (request : Request V) (response : List Nat)
  deriving DecidableEq, Repr

/-- The steps of `close`, under its lock from the second one on. -/
inductive CloseStep where
  | locking
  | marking
  | stopping
  | killing
  | draining
  | waking
  | joining
  deriving DecidableEq, Repr

/-- Where a call stands. -/
inductive CallPoint (V : Type) where
  | entering (args : List Text) (payload : Option V)
  | checking (args : List Text) (payload : Option V)
  | enqueueing (request : Request V)
  | waiting (request : Request V) (exchange : Nat)
  | closing (step : CloseStep) (outcome : Outcome V)
  | finished (outcome : Outcome V)
  deriving DecidableEq, Repr

/-- The error of an exchange. -/
inductive ExchangeError where
  | closedBeforeDispatch
  | failed
  deriving DecidableEq, Repr

/-- One request on its way; `sent` notes that the IO thread went about writing its frame. -/
structure Exchange (V : Type) where
  request : Request V
  done : Bool
  response : List Nat
  error : Option ExchangeError
  sent : Bool
  deriving DecidableEq, Repr

/-- Where the IO thread stands. -/
inductive IoPoint where
  | top
  | taking
  | took (exchange : Nat)
  | writing (exchange : Nat) (left : List Nat)
  | reading (exchange : Nat)
  | ended
  deriving DecidableEq, Repr

/-- The queue, the IO thread, the pipes and the worker.  `pending` is what the worker has not flushed; `log` notes the
requests it carried out with their responses, `none` for one that it died in. -/
structure Link (σ V : Type) where
  tasks : List (Option Nat)
  exchanges : List (Exchange V)
  io : IoPoint
  alive : Bool
  worker : Worker σ
  toWorker : List Nat
  pending : List Nat
  fromWorker : List Nat
  log : List (Request V × Option (List Nat))

/-- A session object with the calls on it; the locks hold the call that has them. -/
structure Session (σ V : Type) where
  calls : List (CallPoint V)
  serial : Option Nat
  cleanup : Option Nat
  closed : Bool
  stop : Bool
  failure : Bool
  sequence : Nat
  link : Link σ V

/-- What the client makes of its messages with the JSON library: the body of a request, and its look at a response. -/
structure ClientJson (V : Type) where
  body : Request V → List Nat
  accepts : Nat → List Nat → Bool
  body_ne_nil : ∀ r, body r ≠ []

inductive SessionStep (σ V : Type) where
  | request (args : List Text) (payload : Option V)
  | close
  | acquire (call : Nat)
  | giveUp (call : Nat)
  | check (call : Nat)
  | late (call : Nat)
  | enqueue (call : Nat)
  | wake (call : Nat)
  | expire (call : Nat)
  | interrupt (call : Nat)
  | closeStep (call : Nat)
  | giveUpJoin (call : Nat)
  | io (amount : Nat)
  | ioFail
  | work
  | workDies (store : σ)
  | flush (amount : Nat)
  | die
  deriving DecidableEq, Repr

variable {σ V : Type}

namespace Link

/-- The exchange is over, with an error. -/
def fail (l : Link σ V) (k : Nat) (e : ExchangeError) : Link σ V :=
  { l with exchanges := l.exchanges.modify k (fun x => { x with error := some e, done := true }) }

/-- The next step of the IO thread; where it writes, `amount` bytes go out. -/
def ioStep (client : ClientJson V) (stop : Bool) (amount : Nat) (l : Link σ V) : Option (Link σ V) :=
  match l.io with
  | .top => some { l with io := if stop then .ended else .taking }
  | .taking =>
    match l.tasks with
    | [] => none
    | none :: rest => some { l with tasks := rest, io := .ended }
    | some k :: rest => some { l with tasks := rest, io := .took k }
  | .took k =>
    if stop then some { l.fail k .closedBeforeDispatch with io := .ended }
    else
      match l.exchanges[k]? with
      | none => none
      | some x =>
        some { l with io := .writing k (sessionPrefix.frame (client.body x.request)),
                      exchanges := l.exchanges.modify k (fun x => { x with sent := true }) }
  | .writing k [] => some { l with io := .reading k }
  | .writing k (b :: left) =>
    if l.alive = true ∧ 0 < amount then
      some { l with io := .writing k ((b :: left).drop amount), toWorker := l.toWorker ++ (b :: left).take amount }
    else none
  | .reading k =>
    match sessionPrefix.next l.fromWorker with
    | .got body rest =>
      some { l with io := .top, fromWorker := rest,
                    exchanges := l.exchanges.modify k (fun x => { x with response := body, done := true }) }
    | _ => none
  | .ended => none

/-- A write or a read of the IO thread fails. -/
def ioFail (l : Link σ V) : Option (Link σ V) :=
  match l.io with
  | .writing k _ | .reading k => some { l.fail k .failed with io := .ended }
  | _ => none

section Worker

variable (wire : Wire V) (dispatch : σ → Request V → σ × Except BridgeError (List Nat))

/-- The worker takes the next frame and carries it out, or ends. -/
def work (l : Link σ V) : Option (Link σ V) :=
  if l.alive = true ∧ l.pending = [] then
    match sessionPrefix.next l.toWorker with
    | .got body rest =>
      match wire.request body with
      | none => some { l with alive := false, toWorker := rest }
      | some r =>
        if r.refused l.worker.lastId then some { l with alive := false, toWorker := rest }
        else
          match writeFrame (l.worker.run wire dispatch r).2 with
          | .error _ =>
            some { l with alive := false, toWorker := rest, worker := (l.worker.run wire dispatch r).1,
                          log := l.log ++ [(r, some (l.worker.run wire dispatch r).2)] }
          | .ok bytes =>
            some { l with pending := bytes, toWorker := rest, worker := (l.worker.run wire dispatch r).1,
                          log := l.log ++ [(r, some (l.worker.run wire dispatch r).2)] }
    | .badSize => some { l with alive := false }
    | _ => none
  else none

/-- The worker dies while it carries out the next frame, and leaves the stores as they are then. -/
def workDies (store : σ) (l : Link σ V) : Option (Link σ V) :=
  if l.alive = true ∧ l.pending = [] then
    match sessionPrefix.next l.toWorker with
    | .got body rest =>
      match wire.request body with
      | none => none
      | some r =>
        if r.refused l.worker.lastId then none
        else some { l with alive := false, toWorker := rest, worker := ⟨store, r.id⟩, log := l.log ++ [(r, none)] }
    | _ => none
  else none

end Worker

/-- A part of the response goes out. -/
def flush (amount : Nat) (l : Link σ V) : Option (Link σ V) :=
  if l.alive = true ∧ 0 < amount ∧ l.pending ≠ [] then
    some { l with pending := l.pending.drop amount, fromWorker := l.fromWorker ++ l.pending.take amount }
  else none

/-- The worker ends, and what it has not flushed is lost. -/
def die (l : Link σ V) : Link σ V := { l with alive := false, pending := [] }

/-- The task that waits in the queue is taken back. -/
def drain (l : Link σ V) : Link σ V :=
  match l.tasks with
  | [] => l
  | none :: rest => { l with tasks := rest }
  | some k :: rest => { l.fail k .closedBeforeDispatch with tasks := rest }

/-- The queue of one place takes the mark that ends the IO thread. -/
def wakeIo (l : Link σ V) : Link σ V := if l.tasks = [] then { l with tasks := [none] } else l

end Link

/-- A call that gives up waiting for the IO thread raises `SessionProtocolError`, whatever it was about to raise. -/
def Outcome.joinFailed : Outcome V → Outcome V
  | .closed => .raised none .protocol
  | .raised request _ => .raised request .protocol
  | .returned request _ => .raised (some request) .protocol

namespace Session

/-- A fresh session, after its greeting. -/
def start (store : σ) : Session σ V :=
  ⟨[], none, none, false, false, false, 0, ⟨[], [], .top, true, ⟨store, 0⟩, [], [], [], []⟩⟩

def goto (s : Session σ V) (call : Nat) (point : CallPoint V) : Session σ V :=
  { s with calls := s.calls.set call point }

/-- A call ends, and lets go of the serial lock. -/
def finish (s : Session σ V) (call : Nat) (outcome : Outcome V) : Session σ V :=
  { s with calls := s.calls.set call (.finished outcome), serial := if s.serial = some call then none else s.serial }

/-- The step of `close` that the call stands at. -/
def closeStep (call : Nat) (outcome : Outcome V) (s : Session σ V) : CloseStep → Option (Session σ V)
  | .locking =>
    if s.cleanup.isSome then none
    else if s.closed then some (s.finish call outcome)
    else some { s.goto call (.closing .marking outcome) with cleanup := some call }
  | .marking => some { s.goto call (.closing .stopping outcome) with closed := true }
  | .stopping => some { s.goto call (.closing .killing outcome) with stop := true }
  | .killing => some { s.goto call (.closing .draining outcome) with link := s.link.die }
  | .draining => some { s.goto call (.closing .waking outcome) with link := s.link.drain }
  | .waking => some { s.goto call (.closing .joining outcome) with link := s.link.wakeIo }
  | .joining => if s.link.io = .ended then some { s.finish call outcome with cleanup := none } else none

variable (client : ClientJson V) (wire : Wire V) (dispatch : σ → Request V → σ × Except BridgeError (List Nat))

/-- An interrupt finds a call where `interrupt` says.  None comes inside `close`, nor between two statements that have
nothing between them to wait for: once the serial lock is taken, the call is in its `try`; once the exchange is in the
queue, it is marked so. -/
def step (s : Session σ V) : SessionStep σ V → Option (Session σ V)
  | .request args payload => some { s with calls := s.calls ++ [.entering args payload] }
  | .close => some { s with calls := s.calls ++ [.closing .locking .closed] }
  | .acquire call =>
    match s.calls[call]? with
    | some (.entering args payload) =>
      if s.serial.isSome then none
      else some { s.goto call (.checking args payload) with serial := some call }
    | _ => none
  | .giveUp call =>
    match s.calls[call]? with
    | some (.entering _ _) => some (s.goto call (.finished (.raised none .timeoutBeforeDispatch)))
    | _ => none
  | .check call =>
    match s.calls[call]? with
    | some (.checking args payload) =>
      if s.closed || s.failure || !s.link.alive then
        some (s.goto call (.closing .locking (.raised none .sessionClosed)))
      else
        let request : Request V := ⟨s.sequence + 1, args, payload⟩
        if maxFrameBytes < (client.body request).length then
          some { s.finish call (.raised (some request) .frameLimit) with sequence := s.sequence + 1 }
        else some { s.goto call (.enqueueing request) with sequence := s.sequence + 1 }
    | _ => none
  | .late call =>
    match s.calls[call]? with
    | some (.enqueueing request) => some (s.finish call (.raised (some request) .timeoutBeforeDispatch))
    | _ => none
  | .enqueue call =>
    match s.calls[call]? with
    | some (.enqueueing request) =>
      if s.cleanup.isSome then none
      else if s.closed then some (s.finish call (.raised (some request) .closedBeforeDispatch))
      else if s.link.tasks ≠ [] then some (s.finish call (.raised (some request) .queueFull))
      else
        some { s.goto call (.waiting request s.link.exchanges.length) with
          link := { s.link with tasks := [some s.link.exchanges.length], exchanges := s.link.exchanges ++ [⟨request, false, [], none, false⟩] } }
    | _ => none
  | .wake call =>
    match s.calls[call]? with
    | some (.waiting request k) =>
      match s.link.exchanges[k]? with
      | none => none
      | some x =>
        if x.done = false then none
        else
          match x.error with
          | some .closedBeforeDispatch =>
              some (s.goto call (.closing .locking (.raised (some request) .closedBeforeDispatch)))
          | some .failed => some (s.goto call (.closing .locking (.raised (some request) .protocol)))
          | none =>
            if client.accepts request.id x.response then some (s.finish call (.returned request x.response))
            else some { s.goto call (.closing .locking (.raised (some request) .protocol)) with failure := true }
    | _ => none
  | .expire call =>
    match s.calls[call]? with
    | some (.waiting request k) =>
      if s.link.exchanges[k]?.any Exchange.done then none
      else some { s.goto call (.closing .locking (.raised (some request) .timeout)) with failure := true }
    | _ => none
  | .interrupt call =>
    match s.calls[call]? with
    | some (.entering _ _) | some (.checking _ _) => some (s.finish call (.raised none .interrupted))
    | some (.enqueueing request) => some (s.finish call (.raised (some request) .interrupted))
    | some (.waiting request _) =>
      if s.closed then some (s.finish call (.raised (some request) .interrupted))
      else some { s.goto call (.closing .locking (.raised (some request) .interrupted)) with failure := true }
    | _ => none
  | .closeStep call =>
    match s.calls[call]? with
    | some (.closing point outcome) => s.closeStep call outcome point
    | _ => none
  | .giveUpJoin call =>
    match s.calls[call]? with
    | some (.closing .joining outcome) => some { s.finish call outcome.joinFailed with cleanup := none }
    | _ => none
  | .io amount => (s.link.ioStep client s.stop amount).map (fun l =>
      { s with link := l, failure := s.failure || (s.stop && (match s.link.io with | .took _ => true | _ => false)) })
  | .ioFail => s.link.ioFail.map (fun l => { s with link := l, failure := true })
  | .work => (s.link.work wire dispatch).map (fun l => { s with link := l })
  | .workDies store => (s.link.workDies wire store).map (fun l => { s with link := l })
  | .flush amount => (s.link.flush amount).map (fun l => { s with link := l })
  | .die => some { s with link := s.link.die }

end Session
end FastK
