import Mathlib.Control.Basic
import Mathlib.Data.List.Basic
/-!
# Writers and readers of token streams

A writer appends tokens to its output, a reader takes tokens off the front of its input; both may fail.  A writer and
a reader fit where the reader gives back, from the tokens that the writer put, the value they stand for (`Carries`).
Programs that fit are put together step by step (`Carries.bind`, `Carries.times`), so that the two sides of a format
are compared in one walk over both; and a writer put together from steps fails exactly where one of its steps does
(`Settled.bind`, `Settled.forEach`).
-/
namespace Codec

variable {τ ε α β : Type}

/-- A program that appends to its output. -/
abbrev Writer (τ ε : Type) := StateT (List τ) (Except ε)

/-- A program that takes tokens off its input. -/
abbrev Reader (τ ε : Type) := StateT (List τ) (Except ε)

/-- The tokens are appended. -/
def put (tokens : List τ) : Writer τ ε Unit := fun out => .ok ((), out ++ tokens)

/-- A check, or a conversion, that may fail. -/
def check (r : Except ε α) : StateT (List τ) (Except ε) α := fun s => r.map (fun a => (a, s))

/-- The writer of every element, one after another. -/
def forEach (w : α → Writer τ ε Unit) : List α → Writer τ ε Unit
  | [] => pure ()
  | a :: as => do
    w a
    forEach w as

/-- The next `n` tokens of the input. -/
def take (short : ε) (n : Nat) : Reader τ ε (List τ) := fun input =>
  if input.length < n then .error short else .ok (input.take n, input.drop n)

/-- The values that a reader gives, read `n` times. -/
def times (r : Reader τ ε α) : Nat → Reader τ ε (List α)
  | 0 => pure []
  | n + 1 => do
    let a ← r
    let as ← times r n
    return a :: as

/-! ## Readers -/

/-- From an input that starts with the tokens the reader takes just them, and gives the value. -/
def Reads (r : Reader τ ε α) (tokens : List τ) (a : α) : Prop := ∀ rest, r (tokens ++ rest) = .ok (a, rest)

section Readers

variable {r : Reader τ ε α} {f : α → Reader τ ε β} {tokens more : List τ} {a : α} {b : β}

theorem reads_pure (a : α) : Reads (pure a : Reader τ ε α) [] a := fun _ => rfl

theorem reads_check {x : Except ε α} (h : x = .ok a) : Reads (check x : Reader τ ε α) [] a := fun rest => by
  rw [h]
  rfl

theorem reads_take {short : ε} {n : Nat} (h : tokens.length = n) :
    Reads (take short n : Reader τ ε (List τ)) tokens tokens := by
  intro rest
  unfold take
  subst h
  rw [if_neg (by simp), List.take_left, List.drop_left]

theorem Reads.bind (hr : Reads r tokens a) (hf : Reads (f a) more b) : Reads (r >>= f) (tokens ++ more) b := by
  intro rest
  rw [List.append_assoc]
  show (r (tokens ++ (more ++ rest)) >>= fun p => f p.1 p.2) = _
  rw [hr]
  exact hf rest

/-- What follows a reader goes on with its value and the rest of the input. -/
theorem Reads.run_bind (hr : Reads r tokens a) (f : α → Reader τ ε β) (rest : List τ) :
    (r >>= f) (tokens ++ rest) = f a rest := by
  show (r (tokens ++ rest) >>= fun p => f p.1 p.2) = _
  rw [hr]
  rfl

theorem Reads.skip (hr : Reads r [] a) (hf : Reads (f a) more b) : Reads (r >>= f) more b := hr.bind hf

/-- A last step that looks at nothing more. -/
theorem Reads.andThen (hr : Reads r tokens a) (hf : Reads (f a) [] b) : Reads (r >>= f) tokens b := by
  have h := hr.bind hf
  rwa [List.append_nil] at h

/-- As many values are read as there are runs of tokens. -/
theorem Reads.times {enc : α → List τ} : ∀ {l : List α}, (∀ a ∈ l, Reads r (enc a) a) → Reads (times r l.length)
    (l.flatMap enc) l
  | [], _ => reads_pure []
  | a :: l, h => by
    have hrest := Reads.times (l := l) (fun b hb => h b (by simp [hb]))
    exact (h a (by simp)).bind (hrest.andThen (f := fun as => pure (a :: as)) (reads_pure _))

/-- A reader of nothing but the tokens. -/
theorem Reads.whole (hr : Reads r tokens a) : r tokens = .ok (a, []) := by
  have h := hr []
  rwa [List.append_nil] at h

end Readers

/-! ## Writers -/

/-- The writer appends the tokens. -/
def Writes (w : Writer τ ε Unit) (tokens : List τ) : Prop := ∀ out, w out = .ok ((), out ++ tokens)

/-- The writer fails, whatever was written before. -/
def Fails (w : Writer τ ε Unit) : Prop := ∀ out, ∃ e, w out = .error e

/-- The writer appends its tokens where the condition holds, and fails where it does not. -/
structure Settled (w : Writer τ ε Unit) (cond : Prop) : Prop where
  writes : cond → ∃ tokens, Writes w tokens
  fails : ¬ cond → Fails w

section Writers

variable {w w' : Writer τ ε Unit} {tokens more : List τ} {P Q : Prop}

theorem writes_put (tokens : List τ) : Writes (put tokens : Writer τ ε Unit) tokens := fun _ => rfl

theorem writes_pure : Writes (pure () : Writer τ ε Unit) [] := fun out => by
  rw [List.append_nil]
  rfl

theorem writes_check {x : Except ε Unit} (h : x = .ok ()) : Writes (check x : Writer τ ε Unit) [] := fun out => by
  rw [h, List.append_nil]
  rfl

theorem Writes.bind (hw : Writes w tokens) (hw' : Writes w' more) : Writes (w >>= fun _ => w') (tokens ++ more) := by
  intro out
  show (w out >>= fun p => w' p.2) = _
  rw [hw, ← List.append_assoc]
  exact hw' (out ++ tokens)

theorem settled_put (tokens : List τ) : Settled (put tokens : Writer τ ε Unit) True :=
  ⟨fun _ => ⟨tokens, writes_put tokens⟩, fun h => absurd trivial h⟩

theorem settled_pure : Settled (pure () : Writer τ ε Unit) True :=
  ⟨fun _ => ⟨[], writes_pure⟩, fun h => absurd trivial h⟩

theorem settled_check (x : Except ε Unit) : Settled (check x : Writer τ ε Unit) (x = .ok ()) := by
  refine ⟨fun h => ⟨[], writes_check h⟩, fun h out => ?_⟩
  cases x with
  | error e => exact ⟨e, rfl⟩
  | ok u => exact absurd rfl h

theorem Settled.of_iff (h : Settled w P) (hiff : P ↔ Q) : Settled w Q :=
  ⟨fun hq => h.writes (hiff.2 hq), fun hq => h.fails (fun hp => hq (hiff.1 hp))⟩

/-- **Two writers, one after the other, fail where one of them does.** -/
theorem Settled.bind (hw : Settled w P) (hw' : Settled w' Q) : Settled (w >>= fun _ => w') (P ∧ Q) := by
  constructor
  · rintro ⟨hp, hq⟩
    obtain ⟨tokens, h⟩ := hw.writes hp
    obtain ⟨more, h'⟩ := hw'.writes hq
    exact ⟨tokens ++ more, h.bind h'⟩
  · intro hn out
    show ∃ e, (w out >>= fun p => w' p.2) = .error e
    by_cases hp : P
    · obtain ⟨tokens, h⟩ := hw.writes hp
      rw [h out]
      exact hw'.fails (fun hq => hn ⟨hp, hq⟩) _
    · obtain ⟨e, he⟩ := hw.fails hp out
      rw [he]
      exact ⟨e, rfl⟩

theorem Settled.forEach {f : α → Writer τ ε Unit} {P : α → Prop} (h : ∀ a, Settled (f a) (P a)) : ∀ l : List α,
    Settled (forEach f l) (∀ a ∈ l, P a)
  | [] => settled_pure.of_iff (by simp)
  | a :: l => ((h a).bind (Settled.forEach h l)).of_iff List.forall_mem_cons.symm

end Writers

/-- Whatever the writer appends satisfies the condition, token by token. -/
def Emits (P : τ → Prop) (w : Writer τ ε Unit) : Prop := ∀ out r, w out = .ok r → ∃ tokens, r.2 = out ++ tokens ∧
    ∀ t ∈ tokens, P t

section Emitted

variable {P : τ → Prop} {w w' : Writer τ ε Unit}

theorem emits_put {tokens : List τ} (h : ∀ t ∈ tokens, P t) : Emits P (put tokens : Writer τ ε Unit) := by
  intro out r hr
  obtain rfl := Except.ok.inj hr
  exact ⟨tokens, rfl, h⟩

theorem emits_pure : Emits P (pure () : Writer τ ε Unit) := by
  intro out r hr
  obtain rfl := Except.ok.inj hr
  exact ⟨[], (List.append_nil _).symm, by simp⟩

theorem emits_check (x : Except ε Unit) : Emits P (check x : Writer τ ε Unit) := by
  intro out r hr
  cases x with
  | error e => cases hr
  | ok u =>
    obtain rfl := Except.ok.inj hr
    exact ⟨[], (List.append_nil _).symm, by simp⟩

theorem Emits.bind (hw : Emits P w) (hw' : Emits P w') : Emits P (w >>= fun _ => w') := by
  intro out r hr
  change (w out >>= fun p => w' p.2) = .ok r at hr
  cases hstep : w out with
  | error e =>
    rw [hstep] at hr
    cases hr
  | ok p =>
    rw [hstep] at hr
    obtain ⟨tokens, h1, h2⟩ := hw out p hstep
    obtain ⟨more, h3, h4⟩ := hw' p.2 r hr
    refine ⟨tokens ++ more, by rw [h3, h1, List.append_assoc], fun t ht => ?_⟩
    rcases List.mem_append.1 ht with ht | ht
    · exact h2 t ht
    · exact h4 t ht

theorem Emits.forEach {f : α → Writer τ ε Unit} (h : ∀ a, Emits P (f a)) : ∀ l : List α, Emits P (forEach f l)
  | [] => emits_pure
  | a :: l => (h a).bind (Emits.forEach h l)

end Emitted

/-- From tokens that satisfy a condition the reader gives a value that satisfies another, and leaves tokens that
satisfy the first. -/
def Yields (P : τ → Prop) (Q : α → Prop) (r : Reader τ ε α) : Prop :=
  ∀ input a rest, (∀ t ∈ input, P t) → r input = .ok (a, rest) → Q a ∧ ∀ t ∈ rest, P t

section Yielded

variable {P : τ → Prop} {Q : α → Prop} {Q' : β → Prop} {r : Reader τ ε α} {f : α → Reader τ ε β}

theorem yields_pure {a : α} (h : Q a) : Yields P Q (pure a : Reader τ ε α) := by
  intro input b rest hP hr
  obtain ⟨rfl, rfl⟩ := Prod.mk.inj (Except.ok.inj hr)
  exact ⟨h, hP⟩

theorem yields_check {x : Except ε α} (h : ∀ a, x = .ok a → Q a) : Yields P Q (check x : Reader τ ε α) := by
  intro input a rest hP hr
  cases x with
  | error e => cases hr
  | ok b =>
    obtain ⟨rfl, rfl⟩ := Prod.mk.inj (Except.ok.inj hr)
    exact ⟨h b rfl, hP⟩

theorem yields_take {short : ε} {n : Nat} :
    Yields P (fun tokens => tokens.length = n ∧ ∀ t ∈ tokens, P t) (take short n : Reader τ ε (List τ)) := by
  intro input tokens rest hP hr
  unfold take at hr
  by_cases hn : input.length < n
  · rw [if_pos hn] at hr
    cases hr
  · rw [if_neg hn] at hr
    obtain ⟨rfl, rfl⟩ := Prod.mk.inj (Except.ok.inj hr)
    refine ⟨⟨?_, fun t ht => hP t (List.mem_of_mem_take ht)⟩, fun t ht => hP t (List.mem_of_mem_drop ht)⟩
    rw [List.length_take]
    omega

theorem Yields.bind (hr : Yields P Q r) (hf : ∀ a, Q a → Yields P Q' (f a)) : Yields P Q' (r >>= f) := by
  intro input b rest hP h
  change (r input >>= fun p => f p.1 p.2) = .ok (b, rest) at h
  cases hstep : r input with
  | error e =>
    rw [hstep] at h
    cases h
  | ok p =>
    rw [hstep] at h
    obtain ⟨hQ, hrest⟩ := hr input p.1 p.2 hP hstep
    exact hf p.1 hQ p.2 b rest hrest h

theorem Yields.mono {Q'' : α → Prop} (hr : Yields P Q r) (h : ∀ a, Q a → Q'' a) : Yields P Q'' r :=
  fun input a rest hP hstep => ⟨h a (hr input a rest hP hstep).1, (hr input a rest hP hstep).2⟩

end Yielded

/-! ## Writers and readers that fit -/

/-- What the writer puts, the reader takes, and gives the value. -/
def Carries (w : Writer τ ε Unit) (r : Reader τ ε α) (a : α) : Prop := ∃ tokens, Writes w tokens ∧ Reads r tokens a

section Fit

variable {w w' : Writer τ ε Unit} {r : Reader τ ε α} {f : α → Reader τ ε β} {a : α} {b : β}

theorem carries_put {tokens : List τ} (h : Reads r tokens a) : Carries (put tokens) r a :=
  ⟨tokens, writes_put tokens, h⟩

theorem carries_pure (a : α) : Carries (pure () : Writer τ ε Unit) (pure a : Reader τ ε α) a :=
  ⟨[], writes_pure, reads_pure a⟩

/-- **Steps that fit, fit one after the other.** -/
theorem Carries.bind (h : Carries w r a) (h' : Carries w' (f a) b) : Carries (w >>= fun _ => w') (r >>= f) b := by
  obtain ⟨tokens, hw, hr⟩ := h
  obtain ⟨more, hw', hr'⟩ := h'
  exact ⟨tokens ++ more, hw.bind hw', hr.bind hr'⟩

/-- A check of what has been read. -/
theorem Carries.checked {x : Except ε α} (h : x = .ok a) (h' : Carries w (f a) b) : Carries w (check x >>= f) b := by
  obtain ⟨tokens, hw, hr⟩ := h'
  exact ⟨tokens, hw, (reads_check h).bind hr⟩

theorem Carries.andThen (h : Carries w r a) (hf : Reads (f a) [] b) : Carries w (r >>= f) b := by
  obtain ⟨tokens, hw, hr⟩ := h
  exact ⟨tokens, hw, hr.andThen hf⟩

/-- **A list, written element by element, is read back by reading as many elements.** -/
theorem Carries.times {put : α → Writer τ ε Unit} : ∀ {l : List α}, (∀ a ∈ l, Carries (put a) r a) →
    Carries (forEach put l) (times r l.length) l
  | [], _ => carries_pure []
  | a :: l, h => by
    have hrest := Carries.times (l := l) (fun b hb => h b (by simp [hb]))
    exact (h a (by simp)).bind (hrest.andThen (f := fun as => pure (a :: as)) (reads_pure _))

end Fit

end Codec
