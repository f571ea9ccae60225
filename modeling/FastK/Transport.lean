import FastK.Bytes
import FastK.Lib.Framing
/-!
# The worker's end of a session

The process that answers framed requests on its standard input with framed responses on its standard output
(`session_transport.rs`).  What the JSON library makes of the bytes (`Wire`) and what a command does to the stores
(`dispatch`) are parameters.  Whatever bytes arrive, the worker runs requests one at a time, under increasing ids, and
answers each with one frame, and how the stream goes on never changes what was done and answered before
(`serve_sequential`); of a stream that is cut it carries out just the requests that arrived as a whole (`serve_cut`).
-/
namespace FastK

open Framing

/-! ## Frames -/

def maxFrameBytes : Nat := 1024 * 1024 * 1024

/-- The prefix of a frame of the session: the length of the body as a little-endian `u64`. -/
def sessionPrefix : Prefix Nat where
  width := 8
  limit := maxFrameBytes
  encode n := leBytes 8 n
  size := ofLeBytes
  width_pos := by decide
  length_encode n := length_leBytes 8 n
  size_encode _ h := ofLeBytes_unsigned (Nat.lt_of_le_of_lt h (by decide))

/-- The next frame, with what the stream goes on with; `none` where the stream is over between two frames. -/
def readFrame (input : List Nat) : Result (Option (List Nat × List Nat)) :=
  match input with
  | [] => .ok none
  | _ :: _ =>
    if input.length < 8 then .error (.io "failed to fill whole buffer")
    else
      let size := ofLeBytes (input.take 8)
      if size = 0 ∨ maxFrameBytes < size then .error (.io "invalid session frame size")
      else
        let body := (input.drop 8).take size
        if body.length ≠ size then .error (.io "truncated session frame") else .ok (some (body, input.drop (8 + size)))

/-- The bytes of a frame. -/
def writeFrame (body : List Nat) : Result (List Nat) :=
  if body = [] ∨ maxFrameBytes < body.length then .error (.io "invalid session response size")
  else .ok (leBytes 8 body.length ++ body)

theorem writeFrame_ok {body bytes : List Nat} : writeFrame body = .ok bytes ↔ sessionPrefix.Fits body ∧
    bytes = sessionPrefix.frame body := by
  have hfits : sessionPrefix.Fits body ↔ ¬ (body = [] ∨ maxFrameBytes < body.length) := by
    rw [not_or, Nat.not_lt, ← Ne, ← List.length_pos_iff]
    exact Iff.rfl
  unfold writeFrame
  split
  · rename_i h
    refine ⟨fun he => ?_, fun he => absurd h (hfits.1 he.1)⟩
    cases he
  · rename_i h
    rw [Except.ok.injEq]
    exact ⟨fun he => ⟨hfits.2 h, he.symm⟩, fun he => he.2.symm⟩

/-- What `read_frame` returns for what the stream starts with. -/
theorem readFrame_eq (input : List Nat) : readFrame input = match sessionPrefix.next input with
    | .ended => .ok none
    | .got body rest => .ok (some (body, rest))
    | .badSize => .error (.io "invalid session frame size")
    | .cut =>
      .error (if input.length < 8 then .io "failed to fill whole buffer" else .io "truncated session frame") := by
  have hwidth : sessionPrefix.width = 8 := rfl
  have hlimit : sessionPrefix.limit = maxFrameBytes := rfl
  have hsize : sessionPrefix.size = ofLeBytes := rfl
  cases input with
  | nil => rfl
  | cons b rest =>
    unfold readFrame Prefix.next
    rw [hwidth, hlimit, hsize, if_neg (List.cons_ne_nil _ _)]
    by_cases hshort : (b :: rest).length < 8
    · simp only [if_pos hshort]
    · simp only [if_neg hshort]
      by_cases hbad : ofLeBytes ((b :: rest).take 8) = 0 ∨ maxFrameBytes < ofLeBytes ((b :: rest).take 8)
      · simp only [if_pos hbad]
      · simp only [if_neg hbad, List.length_take, List.length_drop]
        by_cases hcut : (b :: rest).length < 8 + ofLeBytes ((b :: rest).take 8)
        · rw [if_pos (by omega)]
          simp only [if_pos hcut]
        · rw [if_neg (by omega)]
          simp only [if_neg hcut]

/-! ## Requests and responses -/

structure Request (V : Type) where
  id : Nat
  args : List Text
  payload : Option V
  deriving DecidableEq, Repr

/-- The code and the text of an error, as a response carries them. -/
structure BridgeError where
  code : Text
  message : Text
  deriving DecidableEq, Repr

/-- The stable code of an error. -/
def FastKError.code : FastKError → Text
  | .io _ => "IO"
  | .sqlite _ => "SQLITE"
  | .invalidInput _ => "INVALID_INPUT"
  | .invalidData _ => "INVALID_DATA"
  | .notFound _ => "NOT_FOUND"

/-- What the JSON library of the worker writes and reads. -/
structure Wire (V : Type) where
  /-- The first message: the version of the protocol and the limit of a frame. -/
  hello : List Nat
  /-- A message read as a request. -/
  request : List Nat → Option (Request V)
  /-- The message of a failed request. -/
  failure : Nat → BridgeError → List Nat

/-- The message of a request that went well. -/
def okEnvelope (id : Nat) (result : List Nat) : List Nat :=
  utf8 (words ["\x7b\"id\":", showNat id, ",\"ok\":true,\"result\":"]) ++ result ++ utf8 ['}']

def reservedArgs : List Text := ["--help", "-h", "--session-stdio"]

/-- A request that ends the session: its id is not a new one, or it is no command. -/
def Request.refused {V : Type} (lastId : Nat) (r : Request V) : Bool :=
  decide (r.id ≤ lastId) || r.args.isEmpty || r.args.head?.any (fun arg => reservedArgs.any (fun reserved =>
    decide (reserved = arg)))

/-- Why a worker stopped. -/
inductive Stop where
  | inputEnded
  | unreadable
  | failed (e : FastKError)
  deriving DecidableEq, Repr

theorem Stop.failed_ne_inputEnded (e : FastKError) : Stop.failed e ≠ .inputEnded := by
  intro h
  cases h

/-- What the loop of the worker goes on with: the stores, and the last id. -/
structure Worker (σ : Type) where
  store : σ
  lastId : Nat

/-- What a session leaves: the worker, the bytes it wrote, the requests it ran and why it stopped. -/
structure Served (σ V : Type) where
  worker : Worker σ
  output : List Nat
  ran : List (Request V)
  stop : Stop

section Worker

variable {σ V : Type} (wire : Wire V) (dispatch : σ → Request V → σ × Except BridgeError (List Nat))

/-- The response of a request, from what its command returned. -/
def respond (r : Request V) : Except BridgeError (List Nat) → List Nat
  | .ok result => okEnvelope r.id result
  | .error e => wire.failure r.id e

/-- A request that the worker runs, with its response. -/
def Worker.run (w : Worker σ) (r : Request V) : Worker σ × List Nat :=
  (⟨(dispatch w.store r).1, r.id⟩, respond wire r (dispatch w.store r).2)

/-- The loop of the session, up to a number of requests. -/
def serveFrom : Nat → Worker σ → List Nat → Served σ V
  | 0, w, _ => ⟨w, [], [], .inputEnded⟩
  | n + 1, w, input =>
    match readFrame input with
    | .error e => ⟨w, [], [], .failed e⟩
    | .ok none => ⟨w, [], [], .inputEnded⟩
    | .ok (some (body, rest)) =>
      match wire.request body with
      | none => ⟨w, [], [], .unreadable⟩
      | some r =>
        if r.refused w.lastId then ⟨w, [], [], .failed (.invalidInput "invalid session request")⟩
        else
          match writeFrame (w.run wire dispatch r).2 with
          | .error e => ⟨(w.run wire dispatch r).1, [], [r], .failed e⟩
          | .ok bytes =>
            let later := serveFrom n (w.run wire dispatch r).1 rest
            ⟨later.worker, bytes ++ later.output, r :: later.ran, later.stop⟩

/-- A session over all the bytes of its input. -/
def serve (store : σ) (input : List Nat) : Served σ V :=
  match writeFrame wire.hello with
  | .error e => ⟨⟨store, 0⟩, [], [], .failed e⟩
  | .ok bytes =>
    let session := serveFrom wire dispatch (input.length + 1) ⟨store, 0⟩ input
    { session with output := bytes ++ session.output }

/-! ## What a session does -/

/-- The requests carried out one after another: the stores they leave, and their responses. -/
def carryOut : σ → List (Request V) → σ × List (List Nat)
  | store, [] => (store, [])
  | store, r :: rs => ((carryOut (dispatch store r).1 rs).1,
      respond wire r (dispatch store r).2 :: (carryOut (dispatch store r).1 rs).2)

variable {wire dispatch} {w : Worker σ} {n m : Nat} {input more : List Nat}

/-- The responses to the first of the requests are the first responses. -/
theorem carryOut_take (store : σ) (rs : List (Request V)) (k : Nat) :
    (carryOut wire dispatch store (rs.take k)).2 = (carryOut wire dispatch store rs).2.take k := by
  induction rs generalizing store k with
  | nil => simp [carryOut]
  | cons r rs ih =>
    cases k with
    | zero => rfl
    | succ k => simp [carryOut, ih]

theorem carryOut_concat (store : σ) (rs : List (Request V)) (r : Request V) : carryOut wire dispatch store (rs ++ [r]) =
    ((dispatch (carryOut wire dispatch store rs).1 r).1,
      (carryOut wire dispatch store rs).2 ++ [respond wire r (dispatch (carryOut wire dispatch store rs).1 r).2]) := by
  induction rs generalizing store with
  | nil => rfl
  | cons q rs ih => simp [carryOut, ih]

/-- A worker's session so far: which requests were carried out, under which ids, and what was written. -/
structure Sequential (wire : Wire V) (dispatch : σ → Request V → σ × Except BridgeError (List Nat)) (w : Worker σ)
    (out : Served σ V) : Prop where
  /-- The ids go up from the last one. -/
  ids : (w.lastId :: out.ran.map Request.id).Pairwise (· < ·)
  /-- None of the requests is one that the session refuses. -/
  commands : ∀ r ∈ out.ran, r.args ≠ [] ∧ ∀ arg ∈ r.args.head?, arg ∉ reservedArgs
  store : out.worker.store = (carryOut wire dispatch w.store out.ran).1
  /-- One response for each request, in their order; the last one is missing only where it is too long for a frame. -/
  output : ∃ answered, out.output = answered.flatMap sessionPrefix.frame ∧
    (∀ body ∈ answered, sessionPrefix.Fits body) ∧
    ((carryOut wire dispatch w.store out.ran).2 = answered ∨
      ∃ response e, (carryOut wire dispatch w.store out.ran).2 = answered ++ [response] ∧
        writeFrame response = .error e ∧ out.stop = .failed e)

theorem Sequential.nothing (why : Stop) : Sequential wire dispatch w ⟨w, [], [], why⟩ where
  ids := List.pairwise_singleton _ _
  commands := by simp
  store := rfl
  output := ⟨[], rfl, by simp, .inl rfl⟩

theorem reservedArgs_any {arg : Text} : reservedArgs.any (fun reserved => decide (reserved = arg)) = true ↔
    arg ∈ reservedArgs := by simp

theorem Request.refused_eq_false {lastId : Nat} {r : Request V} (h : ¬ r.refused lastId = true) :
    lastId < r.id ∧ r.args ≠ [] ∧ ∀ arg ∈ r.args.head?, arg ∉ reservedArgs := by
  unfold Request.refused at h
  simp only [Bool.or_eq_true, not_or, decide_eq_true_eq, Nat.not_le, List.isEmpty_iff, Option.any_eq_true,
    reservedArgs_any, not_exists, not_and] at h
  exact ⟨h.1.1, h.1.2, h.2⟩

theorem serveFrom_sequential : ∀ (n : Nat) (w : Worker σ)
    (input : List Nat), Sequential wire dispatch w (serveFrom wire dispatch n w input)
  | 0, _, _ => .nothing _
  | n + 1, w, input => by
    unfold serveFrom
    split
    · exact .nothing _
    · exact .nothing _
    split
    · exact .nothing _
    rename_i r _
    split
    · exact .nothing _
    rename_i hr
    obtain ⟨hid, hargs⟩ := Request.refused_eq_false hr
    split
    · rename_i e he
      exact {
        ids := by simpa using hid
        commands := by simpa using hargs
        store := rfl
        output := ⟨[], rfl, by simp, .inr ⟨_, e, rfl, he, rfl⟩⟩ }
    · rename_i bytes hbytes
      obtain ⟨hfits, rfl⟩ := writeFrame_ok.1 hbytes
      have hlater := serveFrom_sequential n (w.run wire dispatch r).1 ‹_›
      obtain ⟨answered, hout, hall, hrest⟩ := hlater.output
      exact {
        ids := by
          rw [List.map_cons, List.pairwise_cons]
          refine ⟨fun i hi => ?_, hlater.ids⟩
          rcases List.mem_cons.1 hi with rfl | hi
          · exact hid
          · exact Nat.lt_trans hid (List.rel_of_pairwise_cons hlater.ids hi)
        commands := fun q hq => by
          rcases List.mem_cons.1 hq with rfl | hq
          · exact hargs
          · exact hlater.commands q hq
        store := hlater.store
        output := by
          refine ⟨(w.run wire dispatch r).2 :: answered, by rw [List.flatMap_cons, ← hout], fun b hb => ?_, ?_⟩
          · rcases List.mem_cons.1 hb with rfl | hb
            · exact hfits
            · exact hall b hb
          · exact hrest.imp (congrArg (_ :: ·)) (fun ⟨response, e, hr, he⟩ => ⟨response, e, congrArg (_ :: ·) hr, he⟩) }

/-- What a longer stream, or more turns of the loop, add to a session: they change nothing of it. -/
theorem serveFrom_grows : ∀ {n m : Nat} (w : Worker σ) (input more : List Nat), n ≤ m →
    (serveFrom wire dispatch n w input).ran <+: (serveFrom wire dispatch m w (input ++ more)).ran ∧
      (serveFrom wire dispatch n w input).output <+: (serveFrom wire dispatch m w (input ++ more)).output
  | 0, _, _, _, _, _ => ⟨List.nil_prefix, List.nil_prefix⟩
  | n + 1, 0, _, _, _, h => absurd h (Nat.not_succ_le_zero n)
  | n + 1, m + 1, w, input, more, h => by
    cases hnext : sessionPrefix.next input with
    | got body rest =>
      have hmore := Prefix.next_append hnext more
      simp only [serveFrom, readFrame_eq, hnext, hmore]
      split
      · exact ⟨List.nil_prefix, List.nil_prefix⟩
      split
      · exact ⟨List.nil_prefix, List.nil_prefix⟩
      split
      · exact ⟨List.prefix_rfl, List.prefix_rfl⟩
      · have hlater := serveFrom_grows (w.run wire dispatch ‹_›).1 rest more (Nat.le_of_succ_le_succ h)
        exact ⟨(List.prefix_cons_inj _).2 hlater.1, (List.prefix_append_right_inj _).2 hlater.2⟩
    | _ =>
      simp only [serveFrom, readFrame_eq, hnext]
      exact ⟨List.nil_prefix, List.nil_prefix⟩

/-- Every turn of the loop takes bytes off the stream: with one turn more than there are bytes the session comes to
its end. -/
theorem serveFrom_enough : ∀ {n m : Nat} (w : Worker σ) (input : List Nat), input.length < n → n ≤ m →
    serveFrom wire dispatch m w input = serveFrom wire dispatch n w input
  | 0, _, _, _, h, _ => absurd h (Nat.not_lt_zero _)
  | n + 1, 0, _, _, _, h => absurd h (Nat.not_succ_le_zero n)
  | n + 1, m + 1, w, input, h, hm => by
    cases hnext : sessionPrefix.next input with
    | got body rest =>
      have hlen := Prefix.next_got_length hnext
      have hlater (w' : Worker σ) : serveFrom wire dispatch m w' rest = serveFrom wire dispatch n w' rest :=
        serveFrom_enough w' rest (by omega) (Nat.le_of_succ_le_succ hm)
      simp only [serveFrom, readFrame_eq, hnext, hlater]
    | _ => simp only [serveFrom, readFrame_eq, hnext]

/-- Messages that a worker can answer: frames of requests under increasing ids, whose responses are frames too. -/
structure Conversation (wire : Wire V) (dispatch : σ → Request V → σ × Except BridgeError (List Nat)) (w : Worker σ)
    (messages : List (List Nat × Request V)) : Prop where
  read : ∀ m ∈ messages, wire.request m.1 = some m.2
  fits : ∀ m ∈ messages, sessionPrefix.Fits m.1
  ids : (w.lastId :: messages.map (fun m => m.2.id)).Pairwise (· < ·)
  commands : ∀ m ∈ messages, m.2.args ≠ [] ∧ ∀ arg ∈ m.2.args.head?, arg ∉ reservedArgs
  answers : ∀ response ∈ (carryOut wire dispatch w.store (messages.map Prod.snd)).2, sessionPrefix.Fits response

variable {messages : List (List Nat × Request V)} {message : List Nat × Request V}

theorem Conversation.not_refused (h : Conversation wire dispatch w (message :: messages)) :
    message.2.refused w.lastId = false := by
  obtain ⟨hargs, hhead⟩ := h.commands message List.mem_cons_self
  have hid : w.lastId < message.2.id := List.rel_of_pairwise_cons h.ids List.mem_cons_self
  unfold Request.refused
  simp only [Bool.or_eq_false_iff, decide_eq_false_iff_not, Nat.not_le, List.isEmpty_eq_false_iff, Option.any_eq_false]
  exact ⟨⟨hid, hargs⟩, fun arg harg => Bool.eq_false_of_not_eq_true (fun hany =>
    hhead arg harg (reservedArgs_any.1 hany))⟩

theorem Conversation.later (h : Conversation wire dispatch w (message :: messages)) :
    Conversation wire dispatch (w.run wire dispatch message.2).1 messages where
  read m hm := h.read m (List.mem_cons_of_mem message hm)
  fits m hm := h.fits m (List.mem_cons_of_mem message hm)
  ids := (List.pairwise_cons.1 h.ids).2
  commands m hm := h.commands m (List.mem_cons_of_mem message hm)
  answers response hr := h.answers response (List.mem_cons_of_mem _ hr)

/-- **A request is carried out if and only if its frame has arrived as a whole.** -/
theorem Conversation.cut : ∀ {messages : List (List Nat × Request V)} {w : Worker σ} {input : List Nat}
    (n : Nat), Conversation wire dispatch w messages →
    input <+: messages.flatMap (fun m => sessionPrefix.frame m.1) → messages.length < n →
    ∃ k left, input = (messages.take k).flatMap (fun m => sessionPrefix.frame m.1) ++ left ∧
      (left = [] ∨ ∃ m ∈ messages[k]?, left <+: sessionPrefix.frame m.1 ∧ left ≠ sessionPrefix.frame m.1) ∧
      (serveFrom wire dispatch n w input).ran = (messages.take k).map Prod.snd ∧
      ((serveFrom wire dispatch n w input).stop = .inputEnded ↔ left = [])
  | _, _, _, 0, _, _, hn => absurd hn (Nat.not_lt_zero _)
  | [], w, input, n + 1, _, hpre, _ => by
    obtain rfl : input = [] := by simpa using hpre
    exact ⟨0, [], rfl, .inl rfl, rfl, fun _ => rfl, fun _ => rfl⟩
  | m :: messages, w, input, n + 1, h, hpre, hn => by
    rw [List.flatMap_cons] at hpre
    have hfits := h.fits m List.mem_cons_self
    by_cases hwhole : (sessionPrefix.frame m.1).length ≤ input.length
    · obtain ⟨tail, rfl⟩ : ∃ tail, input = sessionPrefix.frame m.1 ++ tail :=
        (List.prefix_of_prefix_length_le (List.prefix_append _ _) hpre hwhole).imp fun _ he => he.symm
      obtain ⟨k, left, htail, hleft, hran, hstop⟩ :=
        h.later.cut n ((List.prefix_append_right_inj _).1 hpre) (by simpa using hn)
      have hbytes : writeFrame (w.run wire dispatch m.2).2 = .ok (sessionPrefix.frame (w.run wire dispatch m.2).2) :=
        writeFrame_ok.2 ⟨h.answers _ List.mem_cons_self, rfl⟩
      have hturn : serveFrom wire dispatch (n + 1) w (sessionPrefix.frame m.1 ++ tail) =
          ⟨(serveFrom wire dispatch n (w.run wire dispatch m.2).1 tail).worker,
            sessionPrefix.frame (w.run wire dispatch m.2).2 ++
              (serveFrom wire dispatch n (w.run wire dispatch m.2).1 tail).output,
            m.2 :: (serveFrom wire dispatch n (w.run wire dispatch m.2).1 tail).ran,
            (serveFrom wire dispatch n (w.run wire dispatch m.2).1 tail).stop⟩ := by
        simp only [serveFrom, readFrame_eq, Prefix.next_frame hfits, h.read m List.mem_cons_self, h.not_refused,
          Bool.false_eq_true, if_false, hbytes]
      refine ⟨k + 1, left, by rw [htail]; simp, by simpa using hleft, ?_, ?_⟩
      · rw [hturn, List.take_succ_cons, List.map_cons, hran]
      · rw [hturn]
        exact hstop
    · have hinput : input <+: sessionPrefix.frame m.1 :=
        List.prefix_of_prefix_length_le hpre (List.prefix_append _ _) (by omega)
      have hne : input ≠ sessionPrefix.frame m.1 := fun he => hwhole (Nat.le_of_eq (congrArg List.length he.symm))
      refine ⟨0, input, rfl, .inr ⟨m, rfl, hinput, hne⟩, ?_⟩
      by_cases hnil : input = []
      · subst hnil
        exact ⟨rfl, fun _ => rfl, fun _ => rfl⟩
      · simp only [serveFrom, readFrame_eq, Prefix.next_cut hfits hinput hnil hne]
        exact ⟨rfl, iff_of_false (Stop.failed_ne_inputEnded _) hnil⟩

theorem serve_eq (hhello : sessionPrefix.Fits wire.hello) (store : σ) (input : List Nat) :
    serve wire dispatch store input =
    { serveFrom wire dispatch (input.length + 1) ⟨store, 0⟩ input with
      output := sessionPrefix.frame wire.hello ++ (serveFrom wire dispatch (input.length + 1)
        ⟨store, 0⟩ input).output } := by
  simp only [serve, writeFrame_ok.2 ⟨hhello, rfl⟩]

/-- **A session is a sequence of requests, carried out one at a time and answered in order**, whatever bytes come in:
under ids that go up, on the stores that the request before left, one frame for each, unless a response is too long
for a frame, which ends the session; and what comes in later takes back nothing of it. -/
theorem serve_sequential (hhello : sessionPrefix.Fits wire.hello) (store : σ) (input more : List Nat) :
    (∃ out, serve wire dispatch store input = { out with output := sessionPrefix.frame wire.hello ++ out.output } ∧
      Sequential wire dispatch ⟨store, 0⟩ out) ∧
    (serve wire dispatch store input).ran <+: (serve wire dispatch store (input ++ more)).ran ∧
    (serve wire dispatch store input).output <+: (serve wire dispatch store (input ++ more)).output := by
  have hlonger : input.length + 1 ≤ (input ++ more).length + 1 := by simp
  obtain ⟨hran, hout⟩ := @serveFrom_grows σ V wire dispatch _ _ ⟨store, 0⟩ input more hlonger
  refine ⟨⟨_, serve_eq hhello store input, serveFrom_sequential _ _ _⟩, ?_, ?_⟩
  · rw [serve_eq hhello, serve_eq hhello]
    exact hran
  · rw [serve_eq hhello, serve_eq hhello]
    exact (List.prefix_append_right_inj _).2 hout

/-- **A stream of requests that is cut anywhere**: the requests whose frames are there as a whole are carried out and
answered, in order, no other is, and the worker ends well just where the stream ends between two frames. -/
theorem serve_cut (hhello : sessionPrefix.Fits wire.hello) {store : σ}
    (h : Conversation wire dispatch ⟨store, 0⟩ messages)
    (hpre : input <+: messages.flatMap (fun m => sessionPrefix.frame m.1)) :
    ∃ k left, input = (messages.take k).flatMap (fun m => sessionPrefix.frame m.1) ++ left ∧
      (left = [] ∨ ∃ m ∈ messages[k]?, left <+: sessionPrefix.frame m.1 ∧ left ≠ sessionPrefix.frame m.1) ∧
      (serve wire dispatch store input).ran = (messages.take k).map Prod.snd ∧
      (serve wire dispatch store input).worker.store =
        (carryOut wire dispatch store ((messages.take k).map Prod.snd)).1 ∧
      (serve wire dispatch store input).output =
        sessionPrefix.frame wire.hello ++
          (carryOut wire dispatch store ((messages.take k).map Prod.snd)).2.flatMap sessionPrefix.frame ∧
      ((serve wire dispatch store input).stop = .inputEnded ↔ left = []) := by
  obtain ⟨k, left, hinput, hleft, hran, hstop⟩ := h.cut (input.length + messages.length + 1) hpre (by omega)
  have hturns := @serveFrom_enough σ V wire dispatch (input.length + 1) (input.length + messages.length + 1)
    ⟨store, 0⟩ input (by omega) (by omega)
  rw [hturns] at hran hstop
  have hs := @serveFrom_sequential σ V wire dispatch (input.length + 1) ⟨store, 0⟩ input
  obtain ⟨answered, hout, _, hall⟩ := hs.output
  have hstore := hs.store
  rw [hran] at hstore hall
  rw [serve_eq hhello]
  refine ⟨k, left, hinput, hleft, hran, hstore, ?_, hstop⟩
  rcases hall with hall | ⟨response, e, hresponses, he, _⟩
  · rw [hall, ← hout]
  · have hmem : response ∈ (carryOut wire dispatch store (messages.map Prod.snd)).2 := by
      rw [List.map_take, carryOut_take] at hresponses
      exact List.mem_of_mem_take (hresponses ▸ List.mem_append_right answered (List.mem_singleton_self response))
    rw [writeFrame_ok.2 ⟨h.answers response hmem, rfl⟩] at he
    cases he

end Worker

/-! ## A session of two requests -/

def sampleHello : List Nat :=
  utf8 "\x7b\"contract_version\":1,\"max_frame_bytes\":1073741824,\"session_protocol\":1\x7d"

def sampleRequest : Request Unit := ⟨1, ["init", "--root", "/data", "--error-format=json"], none⟩

def sampleMessage : List Nat :=
  utf8 "\x7b\"id\": 1, \"args\": [\"init\", \"--root\", \"/data\", \"--error-format=json\"], \"payload\":null\x7d"

def sampleSecond : Request Unit := ⟨2, ["init", "--root", "/more", "--error-format=json"], none⟩

def sampleSecondMessage : List Nat :=
  utf8 "\x7b\"id\": 2, \"args\": [\"init\", \"--root\", \"/more\", \"--error-format=json\"], \"payload\":null\x7d"

/-- The JSON library on the messages of the sample. -/
def sampleWire : Wire Unit where
  hello := sampleHello
  request bytes :=
    if bytes = sampleMessage then some sampleRequest
    else if bytes = sampleSecondMessage then some sampleSecond
    else none
  failure id e := utf8 (words ["\x7b\"error\":\x7b\"code\":\"", e.code, "\",\"message\":\"", e.message,
    "\"\x7d,\"id\":", showNat id, ",\"ok\":false\x7d"])

/-- Commands that note the requests they were run for. -/
def sampleDispatch (store : List Nat) (r : Request Unit) : List Nat × Except BridgeError (List Nat) :=
  (r.id :: store, .ok (utf8 "\x7b\"initialized\":true\x7d"))

def sampleMessages : List (List Nat × Request Unit) :=
  [(sampleMessage, sampleRequest), (sampleSecondMessage, sampleSecond)]

def sampleStream : List Nat := sampleMessages.flatMap (fun m => sessionPrefix.frame m.1)

theorem sampleHello_fits : sessionPrefix.Fits sampleWire.hello := by decide +kernel

/-- Two requests, and one more byte. -/
theorem serve_sequential_sample : (∃ out, serve sampleWire sampleDispatch [] sampleStream =
      { out with output := sessionPrefix.frame sampleHello ++ out.output } ∧
        Sequential sampleWire sampleDispatch ⟨[], 0⟩ out) ∧
    (serve sampleWire sampleDispatch [] sampleStream).ran <+:
      (serve sampleWire sampleDispatch [] (sampleStream ++ [0])).ran ∧
    (serve sampleWire sampleDispatch [] sampleStream).output <+:
      (serve sampleWire sampleDispatch [] (sampleStream ++ [0])).output :=
  serve_sequential sampleHello_fits [] _ _

theorem sampleConversation : Conversation sampleWire sampleDispatch ⟨[], 0⟩ sampleMessages where
  read := by decide +kernel
  fits := by decide +kernel
  ids := by decide
  commands := by decide +kernel
  answers := by decide +kernel

/-- Cut ten bytes into the second frame, the first request is carried out. -/
theorem serve_cut_sample : (serve sampleWire sampleDispatch [] (sampleStream.take 97)).ran = [sampleRequest] ∧
    ∃ k left, sampleStream.take 97 = (sampleMessages.take k).flatMap (fun m => sessionPrefix.frame m.1) ++ left ∧
      (left = [] ∨ ∃ m ∈ sampleMessages[k]?, left <+: sessionPrefix.frame m.1 ∧ left ≠ sessionPrefix.frame m.1) ∧
      (serve sampleWire sampleDispatch [] (sampleStream.take 97)).ran = (sampleMessages.take k).map Prod.snd ∧
      (serve sampleWire sampleDispatch [] (sampleStream.take 97)).worker.store =
        (carryOut sampleWire sampleDispatch [] ((sampleMessages.take k).map Prod.snd)).1 ∧
      (serve sampleWire sampleDispatch [] (sampleStream.take 97)).output = sessionPrefix.frame sampleHello ++
        (carryOut sampleWire sampleDispatch [] ((sampleMessages.take k).map Prod.snd)).2.flatMap sessionPrefix.frame ∧
      ((serve sampleWire sampleDispatch [] (sampleStream.take 97)).stop = .inputEnded ↔ left = []) := by
  have hran : (serve sampleWire sampleDispatch [] (sampleStream.take 97)).ran = [sampleRequest] := by decide +kernel
  exact ⟨hran, serve_cut sampleHello_fits sampleConversation (List.take_prefix _ _)⟩

end FastK
