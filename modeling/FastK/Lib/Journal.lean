import Mathlib.Data.List.Basic
/-!
# Journaled programs

A program over a store reads it and emits durable steps.  A run is the list of the emitted steps together with the
result; every later read sees the steps before it carried out (`bind`).  Stopping the program anywhere leaves the
store after a prefix of its steps (`Stopped`), and a stop inside a composition is a stop inside one of its parts
(`stopped_bind`).
-/
namespace Journal

/-- What one durable step does to a store. -/
class Store (σ : Type) (κ : outParam Type) where
  apply : κ → σ → σ

variable {σ κ ε α β : Type}

/-- The store after a list of steps. -/
def exec [Store σ κ] (steps : List κ) (s : σ) : σ := steps.foldl (fun s k => Store.apply k s) s

/-- A program: the steps it emits and its result, from the store it starts at. -/
def Prog (σ κ ε α : Type) := σ → List κ × Except ε α

namespace Prog

def trace (p : Prog σ κ ε α) (s : σ) : List κ := (p s).1

def result (p : Prog σ κ ε α) (s : σ) : Except ε α := (p s).2

/-- The store after the whole program. -/
def final [Store σ κ] (p : Prog σ κ ε α) (s : σ) : σ := exec (p.trace s) s

protected def pure (a : α) : Prog σ κ ε α := fun _ => ([], .ok a)

protected def bind [Store σ κ] (p : Prog σ κ ε α) (f : α → Prog σ κ ε β) : Prog σ κ ε β := fun s =>
  match p s with
  | (steps, .error e) => (steps, .error e)
  | (steps, .ok a) => (steps ++ (f a (exec steps s)).1, (f a (exec steps s)).2)

instance [Store σ κ] : Monad (Prog σ κ ε) where
  pure := Prog.pure
  bind := Prog.bind

def emit (k : κ) : Prog σ κ ε Unit := fun _ => ([k], .ok ())

def look : Prog σ κ ε σ := fun s => ([], .ok s)

def fail (e : ε) : Prog σ κ ε α := fun _ => ([], .error e)

/-- A pure computation that may fail. -/
def lift (r : Except ε α) : Prog σ κ ε α := fun _ => ([], r)

/-- The program with its error rewritten. -/
def mapError (g : ε → ε) (p : Prog σ κ ε α) : Prog σ κ ε α := fun s =>
  ((p s).1, match (p s).2 with | .error e => .error (g e) | .ok a => .ok a)

def forEach [Store σ κ] (f : α → Prog σ κ ε Unit) : List α → Prog σ κ ε Unit
  | [] => pure ()
  | x :: xs => do
    f x
    forEach f xs

end Prog

/-- The store when the program is stopped after some of its steps. -/
def Stopped [Store σ κ] (p : Prog σ κ ε α) (s t : σ) : Prop := ∃ steps, steps <+: p.trace s ∧ t = exec steps s

/-! ## Steps -/

section Steps

variable [Store σ κ]

@[simp] theorem exec_nil (s : σ) : exec ([] : List κ) s = s := rfl

@[simp] theorem exec_cons (k : κ) (ks : List κ) (s : σ) : exec (k :: ks) s = exec ks (Store.apply k s) := rfl

theorem exec_append (ks ls : List κ) (s : σ) : exec (ks ++ ls) s = exec ls (exec ks s) := List.foldl_append ..

/-- **What every step preserves, every list of steps preserves.** -/
theorem exec_induction {P : σ → Prop} : ∀ (ks : List κ) (s : σ), P s → (∀ k ∈ ks, ∀ t, P t → P (Store.apply k t)) →
    P (exec ks s)
  | [], _, h, _ => h
  | k :: ks, s, h, hk =>
    exec_induction ks _ (hk k (by simp) s h) (fun l hl t ht => hk l (by simp [hl]) t ht)

end Steps

/-! ## Runs of the program formers -/

namespace Prog

@[simp] theorem result_emit (k : κ) (s : σ) : (emit k : Prog σ κ ε Unit).result s = .ok () := rfl
@[simp] theorem trace_emit (k : κ) (s : σ) : (emit k : Prog σ κ ε Unit).trace s = [k] := rfl
@[simp] theorem result_look (s : σ) : (look : Prog σ κ ε σ).result s = .ok s := rfl
@[simp] theorem trace_look (s : σ) : (look : Prog σ κ ε σ).trace s = [] := rfl
@[simp] theorem result_fail (e : ε) (s : σ) : (fail e : Prog σ κ ε α).result s = .error e := rfl
@[simp] theorem trace_fail (e : ε) (s : σ) : (fail e : Prog σ κ ε α).trace s = [] := rfl
@[simp] theorem result_lift (r : Except ε α) (s : σ) : (lift r : Prog σ κ ε α).result s = r := rfl
@[simp] theorem trace_lift (r : Except ε α) (s : σ) : (lift r : Prog σ κ ε α).trace s = [] := rfl
@[simp] theorem result_mapError_eq_ok {g : ε → ε} {p : Prog σ κ ε α} {s : σ} {a : α} :
    (p.mapError g).result s = .ok a ↔ p.result s = .ok a := by
  show (match (p s).2 with | .error e => .error (g e) | .ok a => .ok a) = Except.ok a ↔ (p s).2 = .ok a
  cases (p s).2 <;> simp
@[simp] theorem trace_mapError (g : ε → ε) (p : Prog σ κ ε α) (s : σ) : (p.mapError g).trace s = p.trace s := rfl

variable [Store σ κ]

@[simp] theorem result_pure (a : α) (s : σ) : (pure a : Prog σ κ ε α).result s = .ok a := rfl
@[simp] theorem trace_pure (a : α) (s : σ) : (pure a : Prog σ κ ε α).trace s = [] := rfl

theorem bind_ok {p : Prog σ κ ε α} {s : σ} {a : α} (h : p.result s = .ok a) (f : α → Prog σ κ ε β) :
    (p >>= f) s = (p.trace s ++ (f a).trace (p.final s), (f a).result (p.final s)) := by
  show Prog.bind p f s = _
  have hp : p s = (p.trace s, .ok a) := Prod.ext rfl h
  unfold Prog.bind
  rw [hp]
  rfl

theorem bind_error {p : Prog σ κ ε α} {s : σ} {e : ε} (h : p.result s = .error e) (f : α → Prog σ κ ε β) :
    (p >>= f) s = (p.trace s, .error e) := by
  show Prog.bind p f s = _
  have hp : p s = (p.trace s, .error e) := Prod.ext rfl h
  unfold Prog.bind
  rw [hp]

theorem trace_bind_ok {p : Prog σ κ ε α} {s : σ} {a : α} (h : p.result s = .ok a) (f : α → Prog σ κ ε β) :
    (p >>= f).trace s = p.trace s ++ (f a).trace (p.final s) := congrArg Prod.fst (bind_ok h f)

theorem result_bind_ok {p : Prog σ κ ε α} {s : σ} {a : α} (h : p.result s = .ok a) (f : α → Prog σ κ ε β) :
    (p >>= f).result s = (f a).result (p.final s) := by
  show ((p >>= f) s).2 = _
  rw [bind_ok h]

theorem final_bind_ok {p : Prog σ κ ε α} {s : σ} {a : α} (h : p.result s = .ok a) (f : α → Prog σ κ ε β) :
    (p >>= f).final s = (f a).final (p.final s) := by
  unfold final
  rw [trace_bind_ok h, exec_append]
  rfl

theorem trace_bind_error {p : Prog σ κ ε α} {s : σ} {e : ε} (h : p.result s = .error e) (f : α → Prog σ κ ε β) :
    (p >>= f).trace s = p.trace s := congrArg Prod.fst (bind_error h f)

theorem result_bind_error {p : Prog σ κ ε α} {s : σ} {e : ε} (h : p.result s = .error e) (f : α → Prog σ κ ε β) :
    (p >>= f).result s = .error e := congrArg Prod.snd (bind_error h f)

theorem final_bind_error {p : Prog σ κ ε α} {s : σ} {e : ε} (h : p.result s = .error e) (f : α → Prog σ κ ε β) :
    (p >>= f).final s = p.final s := by
  unfold final
  rw [trace_bind_error h]

/-- **What holds after the first part, and after the second whenever it is reached, holds after the composition.** -/
theorem final_bind_of {P : σ → Prop} {p : Prog σ κ ε α} {f : α → Prog σ κ ε β} {s : σ} (hp : P (p.final s))
    (hf : ∀ a, p.result s = .ok a → P ((f a).final (p.final s))) : P ((p >>= f).final s) := by
  cases h : p.result s with
  | error e =>
    rw [final_bind_error h]
    exact hp
  | ok a =>
    rw [final_bind_ok h]
    exact hf a h

@[simp] theorem final_pure (a : α) (s : σ) : (pure a : Prog σ κ ε α).final s = s := rfl
@[simp] theorem final_emit (k : κ) (s : σ) : (emit k : Prog σ κ ε Unit).final s = Store.apply k s := rfl
@[simp] theorem final_look (s : σ) : (look : Prog σ κ ε σ).final s = s := rfl
@[simp] theorem final_lift (r : Except ε α) (s : σ) : (lift r : Prog σ κ ε α).final s = s := rfl
@[simp] theorem final_mapError (g : ε → ε) (p : Prog σ κ ε α) (s : σ) : (p.mapError g).final s = p.final s := rfl
@[simp] theorem final_fail (e : ε) (s : σ) : (fail e : Prog σ κ ε α).final s = s := rfl

/-- A last part that only answers leaves the store as the first part does. -/
theorem final_bind_pure {p : Prog σ κ ε α} (f : α → β) (s : σ) :
    (p >>= fun a => (pure (f a) : Prog σ κ ε β)).final s = p.final s := by
  cases h : p.result s with
  | error e => rw [final_bind_error h]
  | ok a =>
    rw [final_bind_ok h]
    rfl

/-- **A composition succeeds exactly when both parts do.** -/
theorem result_bind_eq_ok {p : Prog σ κ ε α} {f : α → Prog σ κ ε β} {s : σ} {b : β} :
    (p >>= f).result s = .ok b ↔ ∃ a, p.result s = .ok a ∧ (f a).result (p.final s) = .ok b := by
  cases h : p.result s with
  | error e => rw [result_bind_error h]; simp
  | ok a => rw [result_bind_ok h]; simp

/-- The store after a run. -/
theorem final_of_run {p : Prog σ κ ε α} {s : σ} {steps : List κ} {r : Except ε α} (h : p s = (steps, r)) :
    p.final s = exec steps s := by
  unfold final trace
  rw [h]

omit [Store σ κ] in
/-- What a run answers. -/
theorem result_of_run {p : Prog σ κ ε α} {s : σ} {steps : List κ} {r : Except ε α} (h : p s = (steps, r)) :
    p.result s = r := by
  unfold result
  rw [h]

omit [Store σ κ] in
/-- The steps of a run. -/
theorem trace_of_run {p : Prog σ κ ε α} {s : σ} {steps : List κ} {r : Except ε α} (h : p s = (steps, r)) :
    p.trace s = steps := by
  unfold trace
  rw [h]

/-- The run of a composition, from the run of its first part. -/
theorem bind_run {p : Prog σ κ ε α} {s : σ} {steps : List κ} {a : α} (h : p s = (steps, .ok a)) (f : α → Prog σ κ ε β) :
    (p >>= f) s = (steps ++ (f a (exec steps s)).1, (f a (exec steps s)).2) := by
  show Prog.bind p f s = _
  unfold Prog.bind
  rw [h]

theorem bind_run_error {p : Prog σ κ ε α} {s : σ} {steps : List κ} {e : ε} (h : p s = (steps, .error e))
    (f : α → Prog σ κ ε β) :
    (p >>= f) s = (steps, .error e) := by
  show Prog.bind p f s = _
  unfold Prog.bind
  rw [h]

theorem bind_congr {p q : Prog σ κ ε α} {s : σ} (h : p s = q s) (f : α → Prog σ κ ε β) : (p >>= f) s = (q >>= f) s := by
  show Prog.bind p f s = Prog.bind q f s
  unfold Prog.bind
  rw [h]

theorem bind_assoc {γ : Type} (p : Prog σ κ ε α) (f : α → Prog σ κ ε β) (g : β → Prog σ κ ε γ) :
    (p >>= f >>= g) = p >>= fun a => f a >>= g := by
  funext s
  cases hp : p.result s with
  | error e => rw [bind_error (result_bind_error hp f), trace_bind_error hp, bind_error hp]
  | ok a =>
    cases hf : (f a).result (p.final s) with
    | error e =>
      have hpf : (p >>= f).result s = .error e := (result_bind_ok hp f).trans hf
      rw [bind_error hpf, trace_bind_ok hp, bind_ok hp, trace_bind_error hf, result_bind_error hf]
    | ok b =>
      have hpf : (p >>= f).result s = .ok b := (result_bind_ok hp f).trans hf
      rw [bind_ok hpf, trace_bind_ok hp, final_bind_ok hp, bind_ok hp, trace_bind_ok hf, result_bind_ok hf,
        List.append_assoc]

theorem pure_run (a : α) (s : σ) : (pure a : Prog σ κ ε α) s = ([], .ok a) := rfl

theorem emit_bind (k : κ) (f : Unit → Prog σ κ ε β) (s : σ) :
    ((emit k : Prog σ κ ε Unit) >>= f) s = (k :: (f () (Store.apply k s)).1, (f () (Store.apply k s)).2) := rfl

/-- A loop whose rounds all succeed emits their steps one after another. -/
theorem forEach_run {f : α → Prog σ κ ε Unit} (steps : α → List κ) (h : ∀ x s, f x s = (steps x, .ok ())) :
    ∀ (xs : List α) (s : σ),
    forEach f xs s = (xs.flatMap steps, .ok ())
  | [], _ => rfl
  | x :: xs, s => by
    unfold forEach
    rw [bind_run (h x s), forEach_run steps h xs]
    rfl

/-- **What every round of a loop keeps, the loop keeps.** -/
theorem forEach_final_of {P : σ → Prop} {f : α → Prog σ κ ε Unit} : ∀ {xs : List α} {s : σ}, P s →
    (∀ x ∈ xs, ∀ t, P t → P ((f x).final t)) →
    P ((forEach f xs).final s)
  | [], _, hs, _ => hs
  | x :: _, s, hs, hf =>
    final_bind_of (hf x (by simp) s hs) (fun _ _ => forEach_final_of (hf x (by simp) s hs) (fun y hy =>
      hf y (by simp [hy])))

@[simp] theorem look_bind (f : σ → Prog σ κ ε β) (s : σ) : (look >>= f) s = f s s := rfl

@[simp] theorem lift_ok_bind (a : α) (f : α → Prog σ κ ε β) : (lift (.ok a) >>= f) = f a := rfl

@[simp] theorem lift_error_bind (e : ε) (f : α → Prog σ κ ε β) : ((lift (.error e) : Prog σ κ ε α) >>= f) = fail e :=
  rfl

end Prog

/-! ## Stops -/

/-- A prefix of two joined lists lies in the first, or is the first with a prefix of the second. -/
theorem prefix_append_cases : ∀ {ks as bs : List κ}, ks <+: as ++ bs → ks <+: as ∨ ∃ ls, ks = as ++ ls ∧ ls <+: bs
  | ks, [], bs, h => .inr ⟨ks, rfl, h⟩
  | [], a :: as, bs, _ => .inl List.nil_prefix
  | k :: ks, a :: as, bs, h => by
    rw [List.cons_append, List.cons_prefix_cons] at h
    obtain ⟨rfl, h⟩ := h
    rcases prefix_append_cases h with hp | ⟨ls, rfl, hl⟩
    · exact .inl (List.cons_prefix_cons.2 ⟨rfl, hp⟩)
    · exact .inr ⟨ls, rfl, hl⟩

variable [Store σ κ] {p : Prog σ κ ε α} {s t : σ}

theorem stopped_final (p : Prog σ κ ε α) (s : σ) : Stopped p s (p.final s) := ⟨p.trace s, List.prefix_rfl, rfl⟩

theorem stopped_of_trace_nil (h : p.trace s = []) (hs : Stopped p s t) : t = s := by
  obtain ⟨ks, hk, rfl⟩ := hs
  rw [h, List.prefix_nil] at hk
  rw [hk, exec_nil]

theorem stopped_emit {k : κ} (hs : Stopped (Prog.emit k : Prog σ κ ε Unit) s t) : t = s ∨ t = Store.apply k s := by
  obtain ⟨ks, hk, rfl⟩ := hs
  rw [Prog.trace_emit, List.prefix_cons_iff] at hk
  rcases hk with rfl | ⟨l, rfl, hl⟩
  · exact .inl rfl
  · rw [List.prefix_nil] at hl
    subst hl
    exact .inr rfl

/-- **A stop inside a composition is a stop inside its first part, or inside the second after the first is done.** -/
theorem stopped_bind {f : α → Prog σ κ ε β} (hs : Stopped (p >>= f) s t) :
    Stopped p s t ∨ ∃ a, p.result s = .ok a ∧ Stopped (f a) (p.final s) t := by
  obtain ⟨ks, hk, rfl⟩ := hs
  cases h : p.result s with
  | error e =>
    rw [Prog.trace_bind_error h] at hk
    exact .inl ⟨ks, hk, rfl⟩
  | ok a =>
    rw [Prog.trace_bind_ok h] at hk
    rcases prefix_append_cases hk with hp | ⟨l, rfl, hl⟩
    · exact .inl ⟨ks, hp, rfl⟩
    · exact .inr ⟨a, rfl, l, hl, exec_append _ _ _⟩

end Journal
