import Mathlib.Data.List.Basic
/-!
# Digests of token streams

A digest folds a step over its input.  Where the step tells states apart and tokens apart (`Telling`), so does the
fold tell two starts apart, and inputs of one length that differ in one place have different digests
(`Telling.foldl_ne`).
-/
namespace Digests

variable {σ τ : Type}

/-- A step between the states, by the tokens, that is injective in each. -/
structure Telling (state : σ → Prop) (token : τ → Prop) (step : σ → τ → σ) : Prop where
  closed : ∀ {s t}, state s → token t → state (step s t)
  state_inj : ∀ {s s' t}, state s → state s' → token t → step s t = step s' t → s = s'
  token_inj : ∀ {s t t'}, state s → token t → token t' → step s t = step s t' → t = t'

section Telling

variable {state : σ → Prop} {token : τ → Prop} {step : σ → τ → σ}

theorem Telling.foldl_closed (h : Telling state token step) : ∀ {l : List τ} {s : σ}, state s → (∀ t ∈ l, token t) →
    state (l.foldl step s)
  | [], _, hs, _ => hs
  | t :: l, _, hs, hl => h.foldl_closed (l := l) (h.closed hs (hl t (by simp))) (fun u hu => hl u (by simp [hu]))

/-- Different states stay different, whatever follows. -/
theorem Telling.foldl_inj (h : Telling state token step) : ∀ {l : List τ} {s s' : σ}, state s → state s' →
    (∀ t ∈ l, token t) →
    l.foldl step s = l.foldl step s' → s = s'
  | [], _, _, _, _, _, heq => heq
  | t :: l, s, s', hs, hs', hl, heq => by
    have ht := hl t (by simp)
    exact h.state_inj hs hs' ht (h.foldl_inj (l := l) (h.closed hs ht) (h.closed hs' ht)
      (fun u hu => hl u (by simp [hu])) heq)

/-- **Inputs that differ in one place have different digests.** -/
theorem Telling.foldl_ne (h : Telling state token step) {s : σ} {l r : List τ} {t t' : τ} (hs : state s)
    (hl : ∀ u ∈ l, token u) (hr : ∀ u ∈ r, token u) (ht : token t) (ht' : token t') (hne : t ≠ t') :
    (l ++ t :: r).foldl step s ≠ (l ++ t' :: r).foldl step s := by
  rw [List.foldl_append, List.foldl_append, List.foldl_cons, List.foldl_cons]
  have hmid := h.foldl_closed hs hl
  intro heq
  exact hne (h.token_inj hmid ht ht' (h.foldl_inj (h.closed hmid ht) (h.closed hmid ht') hr heq))

end Telling

/-- Lists that differ in exactly one place are equal around it. -/
theorem split_of_one_place {a b : List τ} {i : Nat} (hlen : a.length = b.length) (hi : a[i]? ≠ b[i]?)
    (hone : ∀ j, a[j]? ≠ b[j]? → j = i) : ∃ l r t t', a = l ++ t :: r ∧ b = l ++ t' :: r ∧ t ≠ t' := by
  have hia : i < a.length := by
    by_contra hge
    rw [List.getElem?_eq_none (by omega), List.getElem?_eq_none (by omega)] at hi
    exact hi rfl
  have hib : i < b.length := by omega
  have hsame : ∀ j, j ≠ i → a[j]? = b[j]? := fun j hj => by
    by_contra hne
    exact hj (hone j hne)
  have htake : b.take i = a.take i := by
    refine List.ext_getElem? (fun j => ?_)
    rw [List.getElem?_take, List.getElem?_take]
    split
    · exact (hsame j (by omega)).symm
    · rfl
  have hdrop : b.drop (i + 1) = a.drop (i + 1) := by
    refine List.ext_getElem? (fun j => ?_)
    rw [List.getElem?_drop, List.getElem?_drop]
    exact (hsame (i + 1 + j) (by omega)).symm
  have hacons : a = a.take i ++ a[i] :: a.drop (i + 1) := by
    rw [← List.drop_eq_getElem_cons, List.take_append_drop]
  have hbcons : b = a.take i ++ b[i] :: a.drop (i + 1) := by
    rw [← htake, ← hdrop, ← List.drop_eq_getElem_cons, List.take_append_drop]
  refine ⟨a.take i, a.drop (i + 1), a[i], b[i], hacons, hbcons, fun heq => hi ?_⟩
  rw [List.getElem?_eq_getElem hia, List.getElem?_eq_getElem hib, heq]

end Digests
