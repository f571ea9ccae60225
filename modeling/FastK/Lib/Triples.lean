import FastK.Lib.Journal
/-!
# Triples for programs that write

A program is guarded by an invariant of the store when from every store with the invariant it takes allowed steps
only, and what it answers has a property.  Where allowed steps keep the invariant it holds in every store the program
reaches, also in those where it is stopped (`Guarded.stopped`), so that the parts of a program can be looked at one by
one (`guarded_bind`).
-/
namespace Journal

variable {σ κ ε α β : Type} [Store σ κ]

/-! ## Allowed steps -/

/-- Every step is allowed in the store it is taken in. -/
def Allowed (K : σ → κ → Prop) : List κ → σ → Prop
  | [], _ => True
  | k :: ks, s => K s k ∧ Allowed K ks (Store.apply k s)

/-- Allowed steps keep the invariant. -/
def Keeps (I : σ → Prop) (K : σ → κ → Prop) : Prop := ∀ s k, I s → K s k → I (Store.apply k s)

section Steps

variable {I : σ → Prop} {K : σ → κ → Prop} {ks ls : List κ} {s : σ}

theorem allowed_append : ∀ (ks : List κ) {s : σ}, Allowed K (ks ++ ls) s ↔ Allowed K ks s ∧ Allowed K ls (exec ks s)
  | [], s => by simp [Allowed]
  | k :: ks, s => by
    rw [List.cons_append, Allowed, Allowed, allowed_append ks, and_assoc]
    rfl

theorem Allowed.upTo (h : Allowed K ls s) (hp : ks <+: ls) : Allowed K ks s := by
  obtain ⟨l, rfl⟩ := hp
  exact ((allowed_append _).1 h).1

theorem Keeps.exec (hI : Keeps I K) : ∀ {ks : List κ} {s : σ}, I s → Allowed K ks s → I (exec ks s)
  | [], _, hs, _ => hs
  | k :: _, s, hs, hk => Keeps.exec hI (s := Store.apply k s) (hI s k hs hk.1) hk.2

end Steps

/-! ## Programs -/

/-- The program takes allowed steps, and its answers have the property. -/
def Guarded (I : σ → Prop) (K : σ → κ → Prop) (Q : α → Prop) (p : Prog σ κ ε α) : Prop :=
  ∀ s, I s → Allowed K (p.trace s) s ∧ ∀ a, p.result s = .ok a → Q a

section Rules

variable {I : σ → Prop} {K : σ → κ → Prop} {Q : α → Prop} {R : β → Prop} {p : Prog σ κ ε α}
    {f : α → Prog σ κ ε β} {s t : σ}

theorem Guarded.weaken {Q' : α → Prop} (h : Guarded I K Q p) (hq : ∀ a, Q a → Q' a) : Guarded I K Q' p := fun s hs =>
  ⟨(h s hs).1, fun a ha => hq a ((h s hs).2 a ha)⟩

theorem guarded_lift {r : Except ε α} (h : ∀ a, r = .ok a → Q a) : Guarded I K Q (Prog.lift r : Prog σ κ ε α) :=
  fun _ _ => ⟨trivial, h⟩

theorem guarded_check (r : Except ε α) : Guarded I K (fun a => r = .ok a) (Prog.lift r : Prog σ κ ε α) :=
  guarded_lift (fun _ h => h)

theorem guarded_fail (e : ε) : Guarded I K Q (Prog.fail e : Prog σ κ ε α) :=
  fun _ _ => ⟨trivial, (fun _ ha => nomatch ha)⟩

theorem guarded_look : Guarded I K I (Prog.look : Prog σ κ ε σ) :=
  fun _ hs => ⟨trivial, fun _ ha => Except.ok.inj ha ▸ hs⟩

theorem guarded_emit {k : κ} (h : ∀ s, I s → K s k) : Guarded I K (fun _ => True)
    (Prog.emit k : Prog σ κ ε Unit) := fun s hs =>
  ⟨⟨h s hs, trivial⟩, fun _ _ => trivial⟩

theorem guarded_pure {a : α} (h : Q a) : Guarded I K Q (pure a : Prog σ κ ε α) :=
  fun _ _ => ⟨trivial, fun _ ha => Except.ok.inj ha ▸ h⟩

theorem guarded_mapError {g : ε → ε} (hp : Guarded I K Q p) : Guarded I K Q (p.mapError g) := fun s hs =>
  ⟨(hp s hs).1, fun a ha => (hp s hs).2 a (Prog.result_mapError_eq_ok.1 ha)⟩

theorem guarded_ite {c : Prop} [Decidable c] {q : Prog σ κ ε α} (hp : c → Guarded I K Q p)
    (hq : ¬ c → Guarded I K Q q) :
    Guarded I K Q (if c then p else q) := by
  by_cases hc : c
  · rw [if_pos hc]
    exact hp hc
  · rw [if_neg hc]
    exact hq hc

theorem Guarded.final (hI : Keeps I K) (h : Guarded I K Q p) (hs : I s) : I (p.final s) := hI.exec hs (h s hs).1

/-- **Wherever the program is stopped, the invariant holds.** -/
theorem Guarded.stopped (hI : Keeps I K) (h : Guarded I K Q p) (hs : I s) (hstop : Stopped p s t) : I t := by
  obtain ⟨ks, hks, rfl⟩ := hstop
  exact hI.exec hs ((h s hs).1.upTo hks)

/-- **One part after another.** -/
theorem guarded_bind (hI : Keeps I K) (hp : Guarded I K Q p) (hf : ∀ a, Q a → Guarded I K R (f a)) :
    Guarded I K R (p >>= f) := by
  intro s hs
  obtain ⟨hsteps, hans⟩ := hp s hs
  cases hr : p.result s with
  | error e =>
    rw [Prog.trace_bind_error hr]
    exact ⟨hsteps, fun b hb => by rw [Prog.result_bind_error hr] at hb; cases hb⟩
  | ok a =>
    obtain ⟨hsteps', hans'⟩ := hf a (hans a hr) _ (hp.final hI hs)
    rw [Prog.trace_bind_ok hr, Prog.result_bind_ok hr]
    exact ⟨(allowed_append _).2 ⟨hsteps, hsteps'⟩, hans'⟩

theorem guarded_forEach (hI : Keeps I K) {g : α → Prog σ κ ε Unit} :
    ∀ (as : List α), (∀ a ∈ as, Guarded I K (fun _ => True) (g a)) →
    Guarded I K (fun _ => True) (Prog.forEach g as)
  | [], _ => guarded_pure trivial
  | a :: as, h => guarded_bind hI (h a (by simp)) (fun _ _ => guarded_forEach hI as (fun b hb => h b (by simp [hb])))

end Rules

end Journal
