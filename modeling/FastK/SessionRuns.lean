import FastK.SessionSafety
/-!
# Runs of a session

What holds in every state that a session reaches, whatever its calls, its IO thread and its worker do and in whatever
order.  The worker carries out requests one at a time, in the order of their numbers and each at most once, and a call
that returns gives back the response to the request it made (`session_exchanges`).  A session that is closed never
leaves a call to wait for its timeout (`session_closes`).
-/
namespace FastK

open Framing Transitions

variable {σ V : Type} {client : ClientJson V} {wire : Wire V}
    {dispatch : σ → Request V → σ × Except BridgeError (List Nat)} {store : σ}

/-! ## What a step does to the calls -/

/-- The call that a step starts: a request for those arguments, or a `close`. -/
def SessionStep.asks : SessionStep σ V → Option (Option (List Text × Option V))
  | .request args payload => some (some (args, payload))
  | .close => some none
  | _ => none

/-- A call that was asked for that stands there. -/
def CallPoint.Asked (ask : Option (List Text × Option V)) : CallPoint V → Prop
  | .entering args payload | .checking args payload => ask = some (args, payload)
  | .enqueueing r | .waiting r _ => ask = some (r.args, r.payload)
  | .closing _ outcome | .finished outcome => ∀ r ∈ outcome.request, ask = some (r.args, r.payload)

/-- The steps that the IO thread makes. -/
def SessionStep.OfIo (a : SessionStep σ V) : Prop := (∃ amount, a = .io amount) ∨ a = .ioFail

/-- All that a step does to the calls, to the requests and to the IO thread. -/
structure Session.Stepped (s s' : Session σ V) (a : SessionStep σ V) : Prop where
  calls : (∃ ask new, a.asks = some ask ∧ s'.calls = s.calls ++ [new] ∧ new.Asked ask) ∨ a.asks = none ∧
    (s'.calls = s.calls ∨
    ∃ c old new, s.calls[c]? = some old ∧ s'.calls = s.calls.set c new ∧ ∀ ask, old.Asked ask → new.Asked ask)
  requests : s.link.exchanges.map Exchange.request <+: s'.link.exchanges.map Exchange.request
  io : a.OfIo ∨ s'.link.io = s.link.io

namespace Session

variable {s s' : Session σ V} {a : SessionStep σ V}

/-- A step that moves one call. -/
theorem Stepped.moves {c : Nat} {old new : CallPoint V} (ha : a.asks = none) (hold : s.calls[c]? = some old)
    (hcalls : s'.calls = s.calls.set c new) (hasked : ∀ ask, old.Asked ask → new.Asked ask)
    (hreq : s.link.exchanges.map Exchange.request <+: s'.link.exchanges.map Exchange.request)
    (hio : s'.link.io = s.link.io) : Stepped s s' a where
  calls := .inr ⟨ha, .inr ⟨c, old, new, hold, hcalls, hasked⟩⟩
  requests := hreq
  io := .inr hio

/-- A step that moves one call and leaves the link. -/
theorem Stepped.call {c : Nat} {old new : CallPoint V} (ha : a.asks = none) (hold : s.calls[c]? = some old)
    (hcalls : s'.calls = s.calls.set c new) (hlink : s'.link = s.link)
    (hasked : ∀ ask, old.Asked ask → new.Asked ask) : Stepped s s' a :=
  .moves ha hold hcalls hasked (hlink ▸ List.prefix_rfl) (hlink ▸ rfl)

/-- A step of the link. -/
theorem Stepped.link (ha : a.asks = none) (hcalls : s'.calls = s.calls)
    (hreq : s'.link.exchanges.map Exchange.request = s.link.exchanges.map Exchange.request)
    (hio : a.OfIo ∨ s'.link.io = s.link.io) : Stepped s s' a where
  calls := .inr ⟨ha, .inl hcalls⟩
  requests := hreq ▸ List.prefix_rfl
  io := hio

theorem requests_modify {xs : List (Exchange V)} {k : Nat} {f : Exchange V → Exchange V}
    (hf : ∀ x, (f x).request = x.request) :
    (xs.modify k f).map Exchange.request = xs.map Exchange.request := by
  apply List.ext_getElem?
  intro j
  rw [List.getElem?_map, List.getElem?_map, List.getElem?_modify]
  cases xs[j]? with
  | none => rfl
  | some x => by_cases hj : k = j <;> simp [hj, hf]

theorem requests_ioStep {l l' : Link σ V} {stop : Bool} {amount : Nat} (hs : l.ioStep client stop amount = some l') :
    l'.exchanges.map Exchange.request = l.exchanges.map Exchange.request := by
  unfold Link.ioStep at hs
  split at hs
  · rw [← Option.some.inj hs]
  · split at hs
    · cases hs
    · rw [← Option.some.inj hs]
    · rw [← Option.some.inj hs]
  · split at hs
    · rw [← Option.some.inj hs]
      exact requests_modify (fun _ => rfl)
    · split at hs
      · cases hs
      · rw [← Option.some.inj hs]
        exact requests_modify (fun _ => rfl)
  · rw [← Option.some.inj hs]
  · split at hs
    · rw [← Option.some.inj hs]
    · cases hs
  · split at hs
    · rw [← Option.some.inj hs]
      exact requests_modify (fun _ => rfl)
    · cases hs
  · cases hs

theorem requests_ioFail {l l' : Link σ V} (hs : l.ioFail = some l') :
    l'.exchanges.map Exchange.request = l.exchanges.map Exchange.request := by
  unfold Link.ioFail at hs
  split at hs
  · rw [← Option.some.inj hs]
    exact requests_modify (fun _ => rfl)
  · rw [← Option.some.inj hs]
    exact requests_modify (fun _ => rfl)
  · cases hs

theorem exchanges_work {l l' : Link σ V} (hs : l.work wire dispatch = some l') : l'.exchanges = l.exchanges := by
  unfold Link.work at hs
  split at hs
  · split at hs
    · split at hs
      · rw [← Option.some.inj hs]
      · split at hs
        · rw [← Option.some.inj hs]
        · split at hs <;> rw [← Option.some.inj hs]
    · rw [← Option.some.inj hs]
    · cases hs
  · cases hs

theorem exchanges_workDies {l l' : Link σ V} {after : σ} (hs : l.workDies wire after = some l') :
    l'.exchanges = l.exchanges := by
  unfold Link.workDies at hs
  split at hs
  · split at hs
    · split at hs
      · cases hs
      · split at hs
        · cases hs
        · rw [← Option.some.inj hs]
    · cases hs
  · cases hs

theorem exchanges_flush {l l' : Link σ V} {amount : Nat} (hs : l.flush amount = some l') :
    l'.exchanges = l.exchanges := by
  unfold Link.flush at hs
  split at hs
  · rw [← Option.some.inj hs]
  · cases hs

theorem requests_drain {l : Link σ V} : l.drain.exchanges.map Exchange.request = l.exchanges.map Exchange.request ∧
    l.drain.io = l.io := by
  unfold Link.drain
  split
  · exact ⟨rfl, rfl⟩
  · exact ⟨rfl, rfl⟩
  · exact ⟨requests_modify (fun _ => rfl), rfl⟩

theorem exchanges_wakeIo {l : Link σ V} : l.wakeIo.exchanges = l.exchanges ∧ l.wakeIo.io = l.io := by
  unfold Link.wakeIo
  split <;> exact ⟨rfl, rfl⟩

theorem stepped_closeStep {c : Nat} {point : CloseStep} {outcome : Outcome V}
    (hold : s.calls[c]? = some (.closing point outcome)) (hs : s.closeStep c outcome point = some s') :
    Stepped s s' (.closeStep c) := by
  unfold Session.closeStep at hs
  cases point with
  | locking =>
    simp only at hs
    split at hs
    · cases hs
    split at hs
    · exact Option.some.inj hs ▸ .call rfl hold rfl rfl (fun _ h => h)
    · exact Option.some.inj hs ▸ .call rfl hold rfl rfl (fun _ h => h)
  | marking => exact Option.some.inj hs ▸ .call rfl hold rfl rfl (fun _ h => h)
  | stopping => exact Option.some.inj hs ▸ .call rfl hold rfl rfl (fun _ h => h)
  | killing =>
    obtain rfl := Option.some.inj hs
    exact .moves rfl hold rfl (fun _ h => h) List.prefix_rfl rfl
  | draining =>
    obtain rfl := Option.some.inj hs
    have hsame := requests_drain (l := s.link)
    exact .moves rfl hold rfl (fun _ h => h) (hsame.1 ▸ List.prefix_rfl) hsame.2
  | waking =>
    obtain rfl := Option.some.inj hs
    have hsame := exchanges_wakeIo (l := s.link)
    exact .moves rfl hold rfl (fun _ h => h) (hsame.1 ▸ List.prefix_rfl) hsame.2
  | joining =>
    simp only at hs
    split at hs
    · exact Option.some.inj hs ▸ .call rfl hold rfl rfl (fun _ h => h)
    · cases hs

theorem stepped_acquire {call : Nat} (hs : s.step client wire dispatch (.acquire call) = some s') :
    Stepped s s' (.acquire call) := by
  simp only [Session.step] at hs
  split at hs
  · rename_i hold
    split at hs
    · cases hs
    exact Option.some.inj hs ▸ .call rfl hold rfl rfl (fun _ h => h)
  · cases hs

theorem stepped_giveUp {call : Nat} (hs : s.step client wire dispatch (.giveUp call) = some s') :
    Stepped s s' (.giveUp call) := by
  simp only [Session.step] at hs
  split at hs
  · rename_i hold
    exact Option.some.inj hs ▸ .call rfl hold rfl rfl (fun _ _ r hr => by cases hr)
  · cases hs

theorem stepped_check {call : Nat} (hs : s.step client wire dispatch (.check call) = some s') :
    Stepped s s' (.check call) := by
  simp only [Session.step] at hs
  split at hs
  · rename_i hold
    split at hs
    · exact Option.some.inj hs ▸ .call rfl hold rfl rfl (fun _ _ r hr => by cases hr)
    split at hs
    · exact Option.some.inj hs ▸ .call rfl hold rfl rfl (fun _ h r hr => by cases hr; exact h)
    · exact Option.some.inj hs ▸ .call rfl hold rfl rfl (fun _ h => h)
  · cases hs

theorem stepped_late {call : Nat} (hs : s.step client wire dispatch (.late call) = some s') :
    Stepped s s' (.late call) := by
  simp only [Session.step] at hs
  split at hs
  · rename_i hold
    exact Option.some.inj hs ▸ .call rfl hold rfl rfl (fun _ h r hr => by cases hr; exact h)
  · cases hs

theorem stepped_enqueue {call : Nat} (hs : s.step client wire dispatch (.enqueue call) = some s') :
    Stepped s s' (.enqueue call) := by
  simp only [Session.step] at hs
  split at hs
  · rename_i r hold
    have hover (why : Refusal) : Stepped s (s.finish call (.raised (some r) why)) (.enqueue call) :=
      .call rfl hold rfl rfl (fun _ h q hq => by cases hq; exact h)
    split at hs
    · cases hs
    split at hs
    · exact Option.some.inj hs ▸ hover .closedBeforeDispatch
    split at hs
    · exact Option.some.inj hs ▸ hover .queueFull
    · obtain rfl := Option.some.inj hs
      have hreq : s.link.exchanges.map Exchange.request <+: List.map Exchange.request (s.link.exchanges ++ [⟨r, false,
        [], none, false⟩]) := by
        rw [List.map_append]
        exact List.prefix_append _ _
      exact .moves rfl hold rfl (fun _ h => h) hreq rfl
  · cases hs

theorem stepped_wake {call : Nat} (hs : s.step client wire dispatch (.wake call) = some s') :
    Stepped s s' (.wake call) := by
  simp only [Session.step] at hs
  split at hs
  · rename_i r k hold
    have hclosing (why : Refusal) : Stepped s (s.goto call (.closing .locking (.raised (some r) why))) (.wake call) :=
      .call rfl hold rfl rfl (fun _ h q hq => by cases hq; exact h)
    split at hs
    · cases hs
    split at hs
    · cases hs
    split at hs
    · exact Option.some.inj hs ▸ hclosing .closedBeforeDispatch
    · exact Option.some.inj hs ▸ hclosing .protocol
    · split at hs
      · exact Option.some.inj hs ▸ .call rfl hold rfl rfl (fun _ h q hq => by cases hq; exact h)
      · exact Option.some.inj hs ▸ .call rfl hold rfl rfl (fun _ h q hq => by cases hq; exact h)
  · cases hs

theorem stepped_expire {call : Nat} (hs : s.step client wire dispatch (.expire call) = some s') :
    Stepped s s' (.expire call) := by
  simp only [Session.step] at hs
  split at hs
  · rename_i r k hold
    split at hs
    · cases hs
    exact Option.some.inj hs ▸ .call rfl hold rfl rfl (fun _ h q hq => by cases hq; exact h)
  · cases hs

theorem stepped_interrupt {call : Nat} (hs : s.step client wire dispatch (.interrupt call) = some s') :
    Stepped s s' (.interrupt call) := by
  simp only [Session.step] at hs
  split at hs
  · rename_i hold
    exact Option.some.inj hs ▸ .call rfl hold rfl rfl (fun _ _ r hr => by cases hr)
  · rename_i hold
    exact Option.some.inj hs ▸ .call rfl hold rfl rfl (fun _ _ r hr => by cases hr)
  · rename_i hold
    exact Option.some.inj hs ▸ .call rfl hold rfl rfl (fun _ h q hq => by cases hq; exact h)
  · rename_i hold
    split at hs
    · exact Option.some.inj hs ▸ .call rfl hold rfl rfl (fun _ h q hq => by cases hq; exact h)
    · exact Option.some.inj hs ▸ .call rfl hold rfl rfl (fun _ h q hq => by cases hq; exact h)
  · cases hs

theorem stepped_giveUpJoin {call : Nat} (hs : s.step client wire dispatch (.giveUpJoin call) = some s') :
    Stepped s s' (.giveUpJoin call) := by
  simp only [Session.step] at hs
  split at hs
  · rename_i outcome hold
    have hreq : outcome.joinFailed.request = outcome.request := by cases outcome <;> rfl
    exact Option.some.inj hs ▸ .call rfl hold rfl rfl (fun _ h r hr => h r (hreq ▸ hr))
  · cases hs

theorem stepped (hs : s.step client wire dispatch a = some s') : Stepped s s' a := by
  cases a with
  | request args payload =>
    obtain rfl := Option.some.inj hs
    exact ⟨.inl ⟨_, _, rfl, rfl, rfl⟩, List.prefix_rfl, .inr rfl⟩
  | close =>
    obtain rfl := Option.some.inj hs
    exact ⟨.inl ⟨_, _, rfl, rfl, fun r hr => by cases hr⟩, List.prefix_rfl, .inr rfl⟩
  | acquire call => exact stepped_acquire hs
  | giveUp call => exact stepped_giveUp hs
  | check call => exact stepped_check hs
  | late call => exact stepped_late hs
  | enqueue call => exact stepped_enqueue hs
  | wake call => exact stepped_wake hs
  | expire call => exact stepped_expire hs
  | interrupt call => exact stepped_interrupt hs
  | closeStep call =>
    simp only [Session.step] at hs
    split at hs
    · rename_i hold
      exact stepped_closeStep hold hs
    · cases hs
  | giveUpJoin call => exact stepped_giveUpJoin hs
  | io amount =>
    simp only [Session.step, Option.map_eq_some_iff] at hs
    obtain ⟨l, hl, rfl⟩ := hs
    exact .link rfl rfl (requests_ioStep hl) (.inl (.inl ⟨amount, rfl⟩))
  | ioFail =>
    simp only [Session.step, Option.map_eq_some_iff] at hs
    obtain ⟨l, hl, rfl⟩ := hs
    exact .link rfl rfl (requests_ioFail hl) (.inl (.inr rfl))
  | work =>
    simp only [Session.step, Option.map_eq_some_iff] at hs
    obtain ⟨l, hl, rfl⟩ := hs
    exact .link rfl rfl (congrArg _ (exchanges_work hl)) (.inr (Link.work_io hl).1)
  | workDies after =>
    simp only [Session.step, Option.map_eq_some_iff] at hs
    obtain ⟨l, hl, rfl⟩ := hs
    exact .link rfl rfl (congrArg _ (exchanges_workDies hl)) (.inr (Link.workDies_io hl).1)
  | flush amount =>
    simp only [Session.step, Option.map_eq_some_iff] at hs
    obtain ⟨l, hl, rfl⟩ := hs
    exact .link rfl rfl (congrArg _ (exchanges_flush hl)) (.inr (Link.flush_io hl).1)
  | die =>
    obtain rfl := Option.some.inj hs
    exact .link rfl rfl rfl (.inr rfl)

end Session

/-! ## Runs -/

/-- The calls that a run starts, in their order. -/
def asked (steps : List (SessionStep σ V)) : List (Option (List Text × Option V)) := steps.filterMap SessionStep.asks

/-- Each call is about what it was asked for. -/
def Traced (asks : List (Option (List Text × Option V))) (s : Session σ V) : Prop :=
  s.calls.length = asks.length ∧ ∀ (c : Nat) (point : CallPoint V) (ask : Option (List Text × Option V)),
    s.calls[c]? = some point → asks[c]? = some ask → point.Asked ask

theorem Traced.step {asks : List (Option (List Text × Option V))} {s s' : Session σ V} {a : SessionStep σ V}
    (h : Traced asks s) (hs : s.Stepped s' a) :
    Traced (asks ++ asked [a]) s' := by
  rcases hs.calls with ⟨ask, new, ha, hcalls, hnew⟩ | ⟨ha, hcalls⟩
  · simp only [asked, List.filterMap_cons, ha, List.filterMap_nil]
    refine ⟨by simp [hcalls, h.1], fun c point ask' hc hask => ?_⟩
    rw [hcalls] at hc
    by_cases hlt : c < s.calls.length
    · rw [List.getElem?_append_left hlt] at hc
      rw [List.getElem?_append_left (h.1 ▸ hlt)] at hask
      exact h.2 c point ask' hc hask
    · rw [List.getElem?_append_right (Nat.not_lt.1 hlt)] at hc
      rw [List.getElem?_append_right (h.1 ▸ Nat.not_lt.1 hlt)] at hask
      obtain rfl := List.mem_singleton.1 (List.mem_of_getElem? hask)
      rw [List.mem_singleton.1 (List.mem_of_getElem? hc)]
      exact hnew
  · simp only [asked, List.filterMap_cons, ha, List.filterMap_nil, List.append_nil]
    rcases hcalls with hcalls | ⟨c, old, new, hold, hcalls, hnew⟩
    · exact ⟨by rw [hcalls, h.1], fun c => by rw [hcalls]; exact h.2 c⟩
    · refine ⟨by rw [hcalls, List.length_set, h.1], fun d point ask hd hask => ?_⟩
      rw [hcalls, ControlOk.getElem?_set_call hold] at hd
      by_cases hdc : d = c
      · subst hdc
        rw [if_pos rfl] at hd
        exact Option.some.inj hd ▸ hnew ask (h.2 d old ask hold hask)
      · rw [if_neg hdc] at hd
        exact h.2 d point ask hd hask

/-- The requests of an earlier state are among those of a later one. -/
theorem Understood.before {s s' : Session σ V} (h : Understood client wire s')
    (hpre : s.link.exchanges.map Exchange.request <+: s'.link.exchanges.map Exchange.request) :
    Understood client wire s := by
  intro x hx
  obtain ⟨y, hy, hreq⟩ := List.mem_map.1 (hpre.subset (List.mem_map_of_mem hx))
  exact hreq ▸ h y hy

theorem requests_run : ∀ (steps : List (SessionStep σ V))
    {s t : Session σ V}, run (Session.step client wire dispatch) s steps = some t →
    s.link.exchanges.map Exchange.request <+: t.link.exchanges.map Exchange.request
  | [], s, t, hrun => Option.some.inj hrun ▸ List.prefix_rfl
  | a :: steps, s, t, hrun => by
    obtain ⟨next, hstep, hrest⟩ := run_cons hrun
    exact (Session.stepped hstep).requests.trans (requests_run steps hrest)

/-- **What a run keeps**: the invariant, and what each call was asked for. -/
theorem session_run : ∀ (steps : List (SessionStep σ V)) {asks : List (Option (List Text × Option V))}
    {s t : Session σ V},
    SessionOk client wire dispatch store s → Traced asks s →
      run (Session.step client wire dispatch) s steps = some t → Understood client wire t →
      SessionOk client wire dispatch store t ∧ Traced (asks ++ asked steps) t
  | [], asks, s, t, h, htraced, hrun, _ => by
    obtain rfl := Option.some.inj hrun
    exact ⟨h, by simpa [asked] using htraced⟩
  | a :: steps, asks, s, t, h, htraced, hrun, hread => by
    obtain ⟨next, hstep, hrest⟩ := run_cons hrun
    have hspec := Session.stepped hstep
    have hnext := h.step (hread.before (hspec.requests.trans (requests_run steps hrest))) hstep
    have hlater := session_run steps hnext (htraced.step hspec) hrest hread
    rwa [List.append_assoc, show asked [a] ++ asked steps = asked (a :: steps) from (List.filterMap_append ..).symm]
      at hlater

theorem session_reached {steps : List (SessionStep σ V)} {s : Session σ V}
    (hrun : run (Session.step client wire dispatch) (Session.start store) steps = some s)
    (hread : Understood client wire s) : SessionOk client wire dispatch store s ∧ Traced (asked steps) s := by
  have htraced : Traced [] (Session.start store : Session σ V) :=
    ⟨rfl, fun c point ask hc => by simp [Session.start] at hc⟩
  have h := session_run steps SessionOk.start htraced hrun hread
  rwa [List.nil_append] at h

/-! ## What the callers can rely on -/

/-- What a session did for the calls that a run started. -/
structure Exchanged (wire : Wire V) (dispatch : σ → Request V → σ × Except BridgeError (List Nat)) (store : σ)
    (steps : List (SessionStep σ V)) (s : Session σ V) : Prop where
  /-- The worker carried out requests under increasing ids, so none of them twice. -/
  once : (s.link.log.map (fun entry => entry.1.id)).Pairwise (· < ·)
  /-- It carried them out one after another, each on the stores that the ones before left. -/
  replied : s.link.Replied wire dispatch store
  /-- Every one of them is what some call asked for. -/
  asked : ∀ entry ∈ s.link.log, ∃ (c : Nat) (point : CallPoint V), s.calls[c]? = some point ∧
    point.request = some entry.1 ∧
    (FastK.asked steps)[c]? = some (some (entry.1.args, entry.1.payload))
  /-- No two calls have the same number. -/
  numbered : ∀ (c d : Nat) (point point' : CallPoint V) (r q : Request V), c ≠ d → s.calls[c]? = some point →
    s.calls[d]? = some point' →
    point.request = some r → point'.request = some q → r.id ≠ q.id
  /-- A call that returns made the request it was asked for, and gives the response of the worker to it. -/
  returned : ∀ (c : Nat) (r : Request V) (response : List Nat),
    s.calls[c]? = some (CallPoint.finished (.returned r response)) →
    (FastK.asked steps)[c]? = some (some (r.args, r.payload)) ∧ (r, some response) ∈ s.link.log
  /-- A call that raises an error from before the dispatch made no request that the worker carried out. -/
  refused : ∀ (c : Nat) (request : Option (Request V)) (why : Refusal),
    s.calls[c]? = some (CallPoint.finished (.raised request why)) → why.beforeDispatch = true →
    ∀ entry ∈ s.link.log, request ≠ some entry.1

/-- **Requests on a session, in any order of the steps of its calls, of its IO thread and of its worker**, with
timeouts and broken pipes anywhere and interrupts of calls that wait or make their requests: each is carried out at
most once, in the order of their numbers, and the answers go to those who asked. -/
theorem session_exchanges {steps : List (SessionStep σ V)} {s : Session σ V}
    (hrun : run (Session.step client wire dispatch) (Session.start store) steps = some s)
    (hread : Understood client wire s) :
    Exchanged wire dispatch store steps s := by
  obtain ⟨h, htraced⟩ := session_reached hrun hread
  have hask {c : Nat} {point : CallPoint V} {r : Request V} (hc : s.calls[c]? = some point)
    (hr : point.request = some r) :
      (asked steps)[c]? = some (some (r.args, r.payload)) := by
    have hlt : c < (asked steps).length := htraced.1 ▸ (List.getElem?_eq_some_iff.1 hc).1
    have hget : (asked steps)[c]? = some (asked steps)[c] := List.getElem?_eq_getElem hlt
    have hasked := htraced.2 c point _ hc hget
    rw [hget]
    congr 1
    cases point with
    | entering => cases hr
    | checking => cases hr
    | enqueueing q => exact Option.some.inj hr ▸ hasked
    | waiting q k => exact Option.some.inj hr ▸ hasked
    | closing step outcome => exact hasked r hr
    | finished outcome => exact hasked r hr
  exact {
    once := h.link.ids
    replied := h.link.replied
    asked := fun entry hentry => by
      obtain ⟨x, hx, hreq, _⟩ := h.link.logged entry hentry
      obtain ⟨c, point, hc, hr⟩ := h.control.asked x hx
      rw [hreq] at hr
      exact ⟨c, point, hc, hr, hask hc hr⟩
    numbered := h.control.distinct
    returned := fun c r response hc => ⟨hask hc rfl, h.control.calls c _ hc⟩
    refused := fun c request why hc hwhy entry hentry heq => by
      obtain ⟨x, hx, hreq, hsent⟩ := h.link.logged entry hentry
      have hok : (Outcome.raised request why).Ok s.link := h.control.calls c _ hc
      have hx' := hok.2 entry.1 heq hwhy x hx (by rw [hreq])
      rw [(h.link.unsent x hx hx'.1).1] at hsent
      cases hsent }

/-- How many steps the IO thread has before it, once it was told to stop. -/
def IoPoint.left : IoPoint → Nat
  | .ended => 0
  | .top | .taking | .took _ => 1
  | .reading _ => 2
  | .writing _ _ => 3

/-- A call of `close` is at its end, or over. -/
def Session.Ending (s : Session σ V) : Prop :=
  (s.closed = true ∧ s.cleanup = none) ∨ ∃ (c : Nat) (outcome : Outcome V),
    s.calls[c]? = some (CallPoint.closing .joining outcome)

theorem Link.ioStep_nearer {l l' : Link σ V} {amount : Nat} (hdead : l.alive = false) (hdrained : l.Drained)
    (hs : l.ioStep client true amount = some l') : l'.io.left < l.io.left := by
  unfold Link.ioStep at hs
  cases hio : l.io with
  | top =>
    simp only [hio] at hs
    exact Option.some.inj hs ▸ Nat.zero_lt_one
  | taking =>
    simp only [hio] at hs
    split at hs
    · cases hs
    · exact Option.some.inj hs ▸ Nat.zero_lt_one
    · rename_i k rest ht
      exact absurd (by rw [ht]; exact List.mem_cons_self) (hdrained k)
  | took k =>
    simp only [hio, if_true] at hs
    exact Option.some.inj hs ▸ Nat.zero_lt_one
  | writing k left =>
    cases left with
    | nil =>
      simp only [hio] at hs
      exact Option.some.inj hs ▸ Nat.lt_succ_self 2
    | cons b left => simp [hio, hdead] at hs
  | reading k =>
    simp only [hio] at hs
    split at hs
    · exact Option.some.inj hs ▸ Nat.lt_succ_self 1
    · cases hs
  | ended => simp [hio] at hs

theorem Link.ioFail_nearer {l l' : Link σ V} (hs : l.ioFail = some l') : l'.io.left < l.io.left := by
  have hended := (Link.ioFail_io hs).1
  unfold Link.ioFail at hs
  rw [hended]
  cases hio : l.io <;> simp [hio, IoPoint.left] at hs ⊢

theorem Session.Shut.io_nearer {s s' : Session σ V} {a : SessionStep σ V} (h : s.Shut)
    (hs : s.step client wire dispatch a = some s') (ha : a.OfIo) :
    s'.link.io.left < s.link.io.left := by
  rcases ha with ⟨amount, rfl⟩ | rfl
  · simp only [Session.step, Option.map_eq_some_iff] at hs
    obtain ⟨l, hl, rfl⟩ := hs
    rw [h.stop] at hl
    exact Link.ioStep_nearer h.dead h.drained hl
  · simp only [Session.step, Option.map_eq_some_iff] at hs
    obtain ⟨l, hl, rfl⟩ := hs
    exact Link.ioFail_nearer hl

/-- An IO thread that was told to stop is never stuck. -/
theorem Session.Shut.io_steps {s : Session σ V} (h : s.Shut) (hio : s.link.io ≠ .ended) :
    ∃ a, a.OfIo ∧ (s.step client wire dispatch a).isSome := by
  have hfails (k : Nat) (hk : (∃ left, s.link.io = .writing k left) ∨ s.link.io = .reading k) : ∃ a, a.OfIo ∧
    (s.step client wire dispatch a).isSome := by
    refine ⟨.ioFail, .inr rfl, ?_⟩
    simp only [Session.step, Option.isSome_map, Link.ioFail]
    rcases hk with ⟨left, hk⟩ | hk <;> rw [hk] <;> rfl
  cases hpoint : s.link.io with
  | top => exact ⟨.io 1, .inl ⟨1, rfl⟩, by simp only [Session.step, Option.isSome_map, Link.ioStep, hpoint]; rfl⟩
  | taking =>
    refine ⟨.io 1, .inl ⟨1, rfl⟩, ?_⟩
    simp only [Session.step, Option.isSome_map, Link.ioStep, hpoint]
    cases ht : s.link.tasks with
    | nil => exact absurd ht (h.awake hpoint)
    | cons task rest => cases task <;> rfl
  | took k => exact ⟨.io 1, .inl ⟨1, rfl⟩,
      by simp only [Session.step, Option.isSome_map, Link.ioStep, hpoint, h.stop, if_true]; rfl⟩
  | writing k left => exact hfails k (.inl ⟨left, hpoint⟩)
  | reading k => exact hfails k (.inr hpoint)
  | ended => exact absurd hpoint hio

/-- **A session that is closed keeps no call waiting.**  A call of `close` that waits for the IO thread, or is over,
has seen the worker end; the IO thread always has a step then, and after at most three of them it has ended, whatever
else goes on; and then every exchange is over, so the call that waits for it wakes up.  No call finds the queue full.
-/
theorem session_closes {steps : List (SessionStep σ V)} {s : Session σ V}
    (hrun : run (Session.step client wire dispatch) (Session.start store) steps = some s)
    (hread : Understood client wire s) :
    (∀ (c : Nat) (request : Option (Request V)), s.calls[c]? ≠ some (CallPoint.finished (.raised request .queueFull))) ∧
    (s.Ending → s.link.alive = false ∧ s.link.io.left ≤ 3 ∧
      (s.link.io = .ended → ∀ x ∈ s.link.exchanges, x.done = true) ∧
      (s.link.io ≠ .ended → ∃ a, a.OfIo ∧ (s.step client wire dispatch a).isSome) ∧
      ∀ a s', s.step client wire dispatch a = some s' → s'.link.io.left ≤ s.link.io.left ∧ (a.OfIo → s'.link.io.left < s.link.io.left)) := by
  obtain ⟨h, _⟩ := session_reached hrun hread
  refine ⟨fun c request hc => (h.control.calls c _ hc).1 rfl, fun hend => ?_⟩
  have hshut : s.Shut := by
    rcases hend with ⟨hc, hn⟩ | ⟨c, outcome, hc⟩
    · exact h.control.shut hc hn
    · exact h.control.shut_of_joining hc
  refine ⟨hshut.dead, by cases s.link.io <;> simp [IoPoint.left], fun hio x hx => ?_, hshut.io_steps, fun a s' hs => ?_⟩
  · obtain ⟨k, hk⟩ := List.mem_iff_getElem?.1 hx
    cases hd : x.done with
    | true => rfl
    | false => exact absurd ((h.link.held k x hk hd).queued (by simp [hio]) (by simp [hio]) (by simp [hio])) (hshut.drained k)
  · rcases (Session.stepped hs).io with ha | hsame
    · exact ⟨Nat.le_of_lt (hshut.io_nearer hs ha), fun _ => hshut.io_nearer hs ha⟩
    · exact ⟨Nat.le_of_eq (congrArg _ hsame), fun ha => hshut.io_nearer hs ha⟩

/-! ## Sessions of several calls -/

instance [DecidableEq V] (s : Session σ V) : Decidable (Understood client wire s) :=
  inferInstanceAs (Decidable (∀ x ∈ s.link.exchanges, wire.request (client.body x.request) = some x.request))

def sessionClient : ClientJson Unit where
  body r :=
    if r = sampleRequest then sampleMessage else if r = sampleSecond then sampleSecondMessage
    else utf8 "\x7b\x7d"
  accepts id response := decide (response = okEnvelope id (utf8 "\x7b\"initialized\":true\x7d"))
  body_ne_nil r := by
    split
    · decide +kernel
    · split <;> decide +kernel

/-- A request of one call, its way to the worker and back. -/
def exchangeSteps (call : Nat) : List (SessionStep (List Nat) Unit) :=
  [.acquire call, .check call, .enqueue call, .io 0, .io 0, .io 0, .io 60, .io 60, .io 0, .work, .flush 40, .flush 40,
    .io 0, .wake call]

/-- The steps of a `close` up to its wait for the IO thread. -/
def closeSteps (call : Nat) : List (SessionStep (List Nat) Unit) := List.replicate 6 (.closeStep call)

/-- Three calls at once: one is answered, one gives up before its turn, and the worker dies before the other hears the
answer. -/
def sessionSteps : List (SessionStep (List Nat) Unit) :=
  [.request sampleRequest.args none, .request sampleSecond.args none, .request sampleSecond.args none, .giveUp 2] ++
    exchangeSteps 0 ++
    [.acquire 1, .check 1, .enqueue 1, .io 0, .io 0, .io 0, .io 60, .io 60, .io 0, .work, .flush 7, .die, .ioFail,
      .wake 1] ++ closeSteps 1 ++
    [.closeStep 1]

def sessionCalls : List (CallPoint Unit) :=
  [.finished (.returned sampleRequest (okEnvelope 1 (utf8 "\x7b\"initialized\":true\x7d"))),
    .finished (.raised (some sampleSecond) .protocol), .finished (.raised none .timeoutBeforeDispatch)]

theorem session_exchanges_sample : ∃ s, run (Session.step sessionClient sampleWire sampleDispatch)
    (Session.start []) sessionSteps = some s ∧
    s.calls = sessionCalls ∧ s.link.log.map Prod.fst = [sampleRequest, sampleSecond] ∧
      Exchanged sampleWire sampleDispatch [] sessionSteps s := by
  have hrun : (run (Session.step sessionClient sampleWire sampleDispatch) (Session.start []) sessionSteps).any (fun s =>
      decide (Understood sessionClient sampleWire s ∧ s.calls = sessionCalls ∧
        s.link.log.map Prod.fst = [sampleRequest, sampleSecond])) = true := by
    decide +kernel
  obtain ⟨s, hs, hall⟩ := (Option.any_eq_true _ _).1 hrun
  obtain ⟨hread, hcalls, hlog⟩ := of_decide_eq_true hall
  exact ⟨s, hs, hcalls, hlog, session_exchanges hs hread⟩

/-- A `close` while the IO thread is in the middle of a frame of another call. -/
def cutShortSteps : List (SessionStep (List Nat) Unit) :=
  [.request sampleRequest.args none, .acquire 0, .check 0, .enqueue 0, .io 0, .io 0, .io 0, .io 60, .close] ++
    closeSteps 1

theorem session_closes_sample : ∃ s, run (Session.step sessionClient sampleWire sampleDispatch)
    (Session.start []) cutShortSteps = some s ∧
    s.calls = [.waiting sampleRequest 0, .closing .joining .closed] ∧ s.link.io.left = 3 ∧ s.link.alive = false ∧
    (∃ a, a.OfIo ∧ (s.step sessionClient sampleWire sampleDispatch a).isSome) ∧
    ∀ a s', s.step sessionClient sampleWire sampleDispatch a = some s' → a.OfIo → s'.link.io.left < 3 := by
  have hrun : (run (Session.step sessionClient sampleWire sampleDispatch) (Session.start []) cutShortSteps).any
    (fun s =>
      decide (Understood sessionClient sampleWire s ∧ s.calls = [.waiting sampleRequest 0,
        .closing .joining .closed] ∧ s.link.io.left = 3)) = true := by
    decide +kernel
  obtain ⟨s, hs, hall⟩ := (Option.any_eq_true _ _).1 hrun
  obtain ⟨hread, hcalls, hleft⟩ := of_decide_eq_true hall
  have hend : s.Ending := .inr ⟨1, .closed, by rw [hcalls]; rfl⟩
  obtain ⟨hdead, _, _, hsteps, hnearer⟩ := (session_closes hs hread).2 hend
  have hio : s.link.io ≠ .ended := fun he => by
    rw [he] at hleft
    cases hleft
  exact ⟨s, hs, hcalls, hleft, hdead, hsteps hio, fun a s' ha hof => hleft ▸ (hnearer a s' ha).2 hof⟩

end FastK
