import Mathlib.Logic.Function.Basic
/-!
# Runs of a step function

A system that takes labelled steps: `step s a` is the state after the step labelled `a`, and `none` where the step
cannot be taken.  An invariant that every step keeps, taken where a condition on the state before it holds, is an
invariant of the runs whose steps all meet the condition (`run_keeps`).
-/
namespace Transitions

variable {σ α : Type}

/-- The state after the steps, taken one after another. -/
def run (step : σ → α → Option σ) : σ → List α → Option σ
  | s, [] => some s
  | s, a :: rest =>
    match step s a with
    | none => none
    | some next => run step next rest

/-- Every step of the run is taken in a state that meets the condition. -/
def Meets (step : σ → α → Option σ) (cond : σ → α → Prop) : σ → List α → Prop
  | _, [] => True
  | s, a :: rest => cond s a ∧ ∀ next, step s a = some next → Meets step cond next rest

instance Meets.decidable (step : σ → α → Option σ) (cond : σ → α → Prop) [∀ s a, Decidable (cond s a)] :
    ∀ s steps, Decidable (Meets step cond s steps)
  | _, [] => .isTrue trivial
  | s, a :: rest =>
    match h : step s a with
    | none => decidable_of_iff (cond s a) ⟨fun hc => ⟨hc, fun _ hn => nomatch h.symm.trans hn⟩, fun hc => hc.1⟩
    | some next =>
      have := Meets.decidable step cond next rest
      decidable_of_iff (cond s a ∧ Meets step cond next rest)
        ⟨fun hc => ⟨hc.1, fun _ hn => Option.some.inj (h.symm.trans hn) ▸ hc.2⟩, fun hc => ⟨hc.1, hc.2 next h⟩⟩

variable {step : σ → α → Option σ} {cond cond' : σ → α → Prop} {s t : σ}

theorem run_cons {a : α} {rest : List α} (h : run step s (a :: rest) = some t) :
    ∃ next, step s a = some next ∧ run step next rest = some t := by
  unfold run at h
  cases hs : step s a with
  | none => rw [hs] at h; cases h
  | some next =>
    rw [hs] at h
    exact ⟨next, rfl, h⟩

/-- **An invariant of the steps that meet the condition is an invariant of the runs that do.** -/
theorem run_keeps {inv : σ → Prop} (hstep : ∀ s a next, inv s → cond s a → step s a = some next → inv next) :
    ∀ (steps : List α) {s : σ}, inv s → Meets step cond s steps → run step s steps = some t → inv t
  | [], _, hs, _, h => Option.some.inj h ▸ hs
  | a :: rest, s, hs, hc, h => by
    obtain ⟨next, hnext, hrest⟩ := run_cons h
    exact run_keeps hstep rest (hstep s a next hs hc.1 hnext) (hc.2 next hnext) hrest

theorem Meets.of_forall (hall : ∀ s a, cond s a) : ∀ (steps : List α) (s : σ), Meets step cond s steps
  | [], _ => trivial
  | a :: rest, s => ⟨hall s a, fun next _ => Meets.of_forall hall rest next⟩

/-- An invariant of all the steps is one of all the runs. -/
theorem run_invariant {inv : σ → Prop} (hstep : ∀ s a next, inv s → step s a = some next → inv next)
    (steps : List α) {s : σ} (hs : inv s) (h : run step s steps = some t) : inv t :=
  run_keeps (fun s a next hi (_ : True) => hstep s a next hi) steps hs (Meets.of_forall (fun _ _ => trivial) steps s) h

end Transitions
