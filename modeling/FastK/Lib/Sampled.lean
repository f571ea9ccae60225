import FastK.Lib.Search
/-!
# Every `n`-th element, and the window an anchor opens

`stepBy n` keeps the elements at `0, n, 2n, …`.  On a list partitioned by `p` the samples that satisfy `p` are the
first `⌈c / n⌉`, where `c` is the partition point (`countP_stepBy`).  The window that begins at the last such sample
therefore contains the partition point of `p` itself (`window_brackets`).
-/
namespace Sampled

open Search

variable {α β : Type}

/-- `stepBy` with the number of elements still to skip. -/
def stepFrom (n : Nat) : Nat → List α → List α
  | _, [] => []
  | 0, x :: xs => x :: stepFrom n (n - 1) xs
  | k + 1, _ :: xs => stepFrom n k xs

/-- The elements at `0, n, 2n, …` (`Iterator::step_by`). -/
def stepBy (n : Nat) (xs : List α) : List α := stepFrom n 0 xs

theorem stepFrom_getElem? {n : Nat} (hn : 1 ≤ n) : ∀ (skip : Nat) (xs : List α) (k : Nat),
    (stepFrom n skip xs)[k]? = xs[skip + k * n]?
  | _, [], _ => by simp [stepFrom]
  | 0, x :: xs, 0 => by simp [stepFrom]
  | 0, x :: xs, k + 1 => by
    rw [stepFrom, List.getElem?_cons_succ, stepFrom_getElem? hn (n - 1) xs k]
    have : 0 + (k + 1) * n = (n - 1 + k * n) + 1 := by
      rw [Nat.succ_mul]; omega
    rw [this, List.getElem?_cons_succ]
  | s + 1, _ :: xs, k => by
    rw [stepFrom, stepFrom_getElem? hn s xs k]
    have : s + 1 + k * n = (s + k * n) + 1 := by omega
    rw [this, List.getElem?_cons_succ]

/-- **The `k`-th sample is the element at `k * n`.** -/
theorem stepBy_getElem? {n : Nat} (hn : 1 ≤ n) (xs : List α) (k : Nat) : (stepBy n xs)[k]? = xs[k * n]? := by
  rw [stepBy, stepFrom_getElem? hn, Nat.zero_add]

theorem stepFrom_sublist (n : Nat) : ∀ (skip : Nat) (xs : List α), (stepFrom n skip xs).Sublist xs
  | _, [] => by simp [stepFrom]
  | 0, x :: xs => (stepFrom_sublist n (n - 1) xs).cons_cons x
  | s + 1, x :: xs => (stepFrom_sublist n s xs).cons x

theorem stepBy_sublist (n : Nat) (xs : List α) : (stepBy n xs).Sublist xs := stepFrom_sublist n 0 xs

theorem stepBy_ne_nil {n : Nat} {xs : List α} (h : xs ≠ []) : stepBy n xs ≠ [] := by
  cases xs with
  | nil => exact absurd rfl h
  | cons x xs => simp [stepBy, stepFrom]

variable {p : α → Bool}

/-- **The samples that satisfy `p` number `⌈c / n⌉`**, `c` the partition point. -/
theorem countP_stepBy {n : Nat} (hn : 1 ≤ n) {xs : List α} (h : Partitioned p xs) :
    (stepBy n xs).countP p = (xs.countP p + n - 1) / n := by
  have hs : Partitioned p (stepBy n xs) := h.sublist (stepBy_sublist n xs)
  have key : ∀ k, k < (stepBy n xs).countP p ↔ k < (xs.countP p + n - 1) / n := by
    intro k
    have hkn : k < (xs.countP p + n - 1) / n ↔ k * n < xs.countP p := by
      rw [← Nat.succ_le_iff, Nat.le_div_iff_mul_le (by omega), Nat.succ_mul]
      omega
    rw [hkn]
    cases hx : (stepBy n xs)[k]? with
    | none =>
      have hlen := List.getElem?_eq_none_iff.1 hx
      rw [stepBy_getElem? hn, List.getElem?_eq_none_iff] at hx
      have h1 : (stepBy n xs).countP p ≤ (stepBy n xs).length := List.countP_le_length
      have h2 : xs.countP p ≤ xs.length := List.countP_le_length
      omega
    | some x =>
      rw [lt_countP_iff hs k x hx]
      rw [stepBy_getElem? hn] at hx
      rw [lt_countP_iff h _ x hx]
  have h1 := (key ((stepBy n xs).countP p)).not
  have h2 := (key ((xs.countP p + n - 1) / n)).not
  omega

/-- **The window that opens at the last sample satisfying `p` contains the partition point**: with `c` the partition
point and `a` the samples that satisfy `p`, it is above `(a - 1) * n` unless there is none, and at most `a * n`. -/
theorem window_brackets {n c a : Nat} (hn : 1 ≤ n) (ha : a = (c + n - 1) / n) :
    c ≤ a * n ∧ (c = 0 → a = 0) ∧ (1 ≤ c → (a - 1) * n < c ∧ 1 ≤ a) := by
  have h1 := Nat.div_add_mod (c + n - 1) n
  have h2 := Nat.mod_lt (c + n - 1) (show 0 < n by omega)
  rw [← ha, Nat.mul_comm] at h1
  have hle : c ≤ a * n := by omega
  refine ⟨hle, fun hc => ?_, fun hc => ?_⟩
  · rw [ha, hc]
    exact Nat.div_eq_of_lt (by omega)
  · have ha1 : 1 ≤ a := by
      rcases Nat.eq_zero_or_pos a with h0 | h0
      · rw [h0, Nat.zero_mul] at hle; omega
      · exact h0
    have hstep : (a - 1) * n + n = a * n := by
      rw [← Nat.succ_mul]
      congr 1
      omega
    exact ⟨by omega, ha1⟩

end Sampled
