import Mathlib.Data.List.Basic
import Mathlib.Data.List.TakeWhile
/-!
# Halving searches over a partitioned list

A list is partitioned by `p` when every element before one that satisfies `p` satisfies it too.  The partition point
is then `countP p`: the elements below it satisfy `p`, those from it on do not (`lt_countP_iff`).  `bisect` is the loop
that halves `[left, right)` down to one index; on a partitioned list it finds the partition point (`bisect_eq`).
`bisectM` is the same loop with a probe that may fail, and agrees with `bisect` wherever no probe fails.
-/
namespace Search

/-- Every element before one that satisfies `p` satisfies `p`. -/
def Partitioned {α : Type*} (p : α → Bool) (xs : List α) : Prop := xs.Pairwise (fun a b => p b = true → p a = true)

/-- The loop `while left < right`, with the distance as its fuel. -/
def bisectFrom (p : Nat → Bool) : Nat → Nat → Nat → Nat
  | 0, left, _ => left
  | fuel + 1, left, right =>
    if left < right then
      let mid := left + (right - left) / 2
      if p mid then bisectFrom p fuel (mid + 1) right else bisectFrom p fuel left mid
    else left

def bisect (p : Nat → Bool) (left right : Nat) : Nat := bisectFrom p (right - left) left right

/-- The same loop over a probe that may fail. -/
def bisectFromM {ε : Type*} (probe : Nat → Except ε Bool) : Nat → Nat → Nat → Except ε Nat
  | 0, left, _ => .ok left
  | fuel + 1, left, right =>
    if left < right then
      let mid := left + (right - left) / 2
      match probe mid with
      | .error e => .error e
      | .ok true => bisectFromM probe fuel (mid + 1) right
      | .ok false => bisectFromM probe fuel left mid
    else .ok left

def bisectM {ε : Type*} (probe : Nat → Except ε Bool) (left right : Nat) : Except ε Nat :=
  bisectFromM probe (right - left) left right

/-- The index a halving search over the elements of `xs` ends at (`slice::partition_point`). -/
def partitionPoint {α : Type*} (p : α → Bool) (xs : List α) : Nat :=
  bisect (fun i => (xs[i]?).any p) 0 xs.length

/-! ## The loop -/

/-- **Whatever the probe, the loop stays inside its bounds and brackets its result**: the index below it answered
`true`, the one at it `false`. -/
theorem bisectFrom_bounds (p : Nat → Bool) : ∀ (fuel left right : Nat), right - left ≤ fuel → left ≤ right →
    left ≤ bisectFrom p fuel left right ∧ bisectFrom p fuel left right ≤ right ∧
      (left < bisectFrom p fuel left right → p (bisectFrom p fuel left right - 1) = true) ∧
      (bisectFrom p fuel left right < right → p (bisectFrom p fuel left right) = false)
  | 0, left, right, hf, hle => by
    have : left = right := by omega
    subst this
    simp [bisectFrom]
  | fuel + 1, left, right, hf, hle => by
    unfold bisectFrom
    by_cases hlt : left < right
    · rw [if_pos hlt]
      simp only
      cases hp : p (left + (right - left) / 2) with
      | true =>
        simp only [if_true]
        obtain ⟨h1, h2, h3, h4⟩ := bisectFrom_bounds p fuel (left + (right - left) / 2 + 1) right (by omega) (by omega)
        refine ⟨by omega, h2, fun _ => ?_, h4⟩
        by_cases hmid : left + (right - left) / 2 + 1 < bisectFrom p fuel (left + (right - left) / 2 + 1) right
        · exact h3 hmid
        · have : bisectFrom p fuel (left + (right - left) / 2 + 1) right - 1 = left + (right - left) / 2 := by omega
          rw [this, hp]
      | false =>
        simp only [Bool.false_eq_true, if_false]
        obtain ⟨h1, h2, h3, h4⟩ := bisectFrom_bounds p fuel left (left + (right - left) / 2) (by omega) (by omega)
        refine ⟨h1, by omega, h3, fun _ => ?_⟩
        by_cases hmid : bisectFrom p fuel left (left + (right - left) / 2) < left + (right - left) / 2
        · exact h4 hmid
        · have : bisectFrom p fuel left (left + (right - left) / 2) = left + (right - left) / 2 := by omega
          rw [this, hp]
    · rw [if_neg hlt]
      exact ⟨le_refl _, hle, fun h => absurd h (lt_irrefl _), fun h => absurd h hlt⟩

theorem bisect_bounds (p : Nat → Bool) (left right : Nat) (h : left ≤ right) :
    left ≤ bisect p left right ∧ bisect p left right ≤ right ∧
      (left < bisect p left right → p (bisect p left right - 1) = true) ∧
      (bisect p left right < right → p (bisect p left right) = false) :=
  bisectFrom_bounds p (right - left) left right (le_refl _) h

/-- **The loop goes no further for a probe that answers `true` less often**, be the answers as they may: the two loops
look at the same index until one of them turns left of it and the other right. -/
theorem bisectFrom_mono {p q : Nat → Bool} (hpq : ∀ i, p i = true → q i = true) :
    ∀ (fuel left right : Nat), right - left ≤ fuel → left ≤ right →
    bisectFrom p fuel left right ≤ bisectFrom q fuel left right
  | 0, _, _, _, _ => le_refl _
  | fuel + 1, left, right, hf, hle => by
    unfold bisectFrom
    by_cases hlt : left < right
    · rw [if_pos hlt, if_pos hlt]
      simp only
      cases hp : p (left + (right - left) / 2) with
      | true =>
        rw [hpq _ hp]
        exact bisectFrom_mono hpq fuel _ _ (by omega) (by omega)
      | false =>
        cases hq : q (left + (right - left) / 2) with
        | false => exact bisectFrom_mono hpq fuel _ _ (by omega) (by omega)
        | true =>
          have hleft := bisectFrom_bounds p fuel left (left + (right - left) / 2) (by omega) (by omega)
          have hright := bisectFrom_bounds q fuel (left + (right - left) / 2 + 1) right (by omega) (by omega)
          simp only [Bool.false_eq_true, if_false, if_true]
          omega
    · rw [if_neg hlt, if_neg hlt]

theorem bisectFromM_eq {ε : Type*} (probe : Nat → Except ε Bool) (p : Nat → Bool) :
    ∀ (fuel left right : Nat), (∀ i, left ≤ i → i < right → probe i = .ok (p i)) →
      bisectFromM probe fuel left right = .ok (bisectFrom p fuel left right)
  | 0, _, _, _ => rfl
  | fuel + 1, left, right, h => by
    unfold bisectFromM bisectFrom
    by_cases hlt : left < right
    · rw [if_pos hlt, if_pos hlt]
      simp only
      rw [h (left + (right - left) / 2) (by omega) (by omega)]
      cases hp : p (left + (right - left) / 2) with
      | true => exact bisectFromM_eq probe p fuel _ _ (fun i h1 h2 => h i (by omega) h2)
      | false => exact bisectFromM_eq probe p fuel _ _ (fun i h1 h2 => h i h1 (by omega))
    · rw [if_neg hlt, if_neg hlt]

/-- **Where no probe fails the failing loop is the plain one.** -/
theorem bisectM_eq {ε : Type*} (probe : Nat → Except ε Bool) (p : Nat → Bool) (left right : Nat)
    (h : ∀ i, left ≤ i → i < right → probe i = .ok (p i)) : bisectM probe left right = .ok (bisect p left right) :=
  bisectFromM_eq probe p _ left right h

/-- The loop stops with an error only where a probe between its bounds does. -/
theorem probe_of_bisectFromM_error {ε : Type*} {probe : Nat → Except ε Bool} {e : ε} : ∀ {fuel left right : Nat},
    bisectFromM probe fuel left right = .error e → ∃ i, left ≤ i ∧ i < right ∧ probe i = .error e
  | 0, _, _, h => by cases h
  | fuel + 1, left, right, h => by
    unfold bisectFromM at h
    by_cases hlt : left < right
    · rw [if_pos hlt] at h
      simp only at h
      cases hp : probe (left + (right - left) / 2) with
      | error e' =>
        rw [hp] at h
        obtain rfl := Except.error.inj h
        exact ⟨_, by omega, by omega, hp⟩
      | ok b =>
        rw [hp] at h
        cases b with
        | true =>
          obtain ⟨i, h1, h2, hi⟩ := probe_of_bisectFromM_error h
          exact ⟨i, by omega, h2, hi⟩
        | false =>
          obtain ⟨i, h1, h2, hi⟩ := probe_of_bisectFromM_error h
          exact ⟨i, h1, by omega, hi⟩
    · rw [if_neg hlt] at h
      cases h

theorem probe_of_bisectM_error {ε : Type*} {probe : Nat → Except ε Bool} {e : ε} {left right : Nat}
    (h : bisectM probe left right = .error e) : ∃ i, left ≤ i ∧ i < right ∧ probe i = .error e :=
  probe_of_bisectFromM_error h

/-- The loop begins in the middle: an error there ends it, and it ends well only after an answer there. -/
theorem bisectM_middle {ε : Type*} {probe : Nat → Except ε Bool} {left right : Nat} (h : left < right) :
    (∀ e, probe (left + (right - left) / 2) = .error e → bisectM probe left right = .error e) ∧
      ∀ i, bisectM probe left right = .ok i → ∃ b, probe (left + (right - left) / 2) = .ok b := by
  obtain ⟨fuel, hfuel⟩ : ∃ fuel, right - left = fuel + 1 := ⟨right - left - 1, by omega⟩
  have hloop : bisectM probe left right = bisectFromM probe (fuel + 1) left right :=
    congrArg (fun n => bisectFromM probe n left right) hfuel
  rw [hloop]
  unfold bisectFromM
  rw [if_pos h]
  simp only
  cases hp : probe (left + (right - left) / 2) with
  | error e =>
    refine ⟨fun e' he => ?_, fun i hi => ?_⟩
    · exact he ▸ rfl
    · cases hi
  | ok b =>
    refine ⟨fun e he => ?_, fun i _ => ⟨b, rfl⟩⟩
    cases he

/-! ## The partition point -/

variable {α : Type*} {p : α → Bool}

theorem Partitioned.tail {x : α} {xs : List α} (h : Partitioned p (x :: xs)) : Partitioned p xs :=
  List.Pairwise.of_cons h

theorem Partitioned.sublist {xs ys : List α} (h : Partitioned p ys) (hs : xs.Sublist ys) : Partitioned p xs :=
  List.Pairwise.sublist hs h

/-- A list in order of a key is partitioned by every down-closed condition on the key. -/
theorem partitioned_of_sorted {β : Type*} [Preorder β] (key : α → β) {xs : List α}
    (hs : xs.Pairwise (fun a b => key a ≤ key b)) (hp : ∀ a b, key a ≤ key b → p b = true → p a = true) :
    Partitioned p xs :=
  hs.imp (fun {a b} hab => hp a b hab)

theorem countP_eq_zero_of_head {x : α} {xs : List α} (h : Partitioned p (x :: xs)) (hx : p x = false) :
    (x :: xs).countP p = 0 := by
  rw [List.countP_eq_zero]
  intro y hy hpy
  rcases List.mem_cons.1 hy with rfl | hy
  · rw [hx] at hpy; cases hpy
  · have := List.rel_of_pairwise_cons h hy hpy
    rw [hx] at this; cases this

/-- **The elements below the partition point are those that satisfy `p`.** -/
theorem lt_countP_iff : ∀ {xs : List α}, Partitioned p xs → ∀ (i : Nat) (x : α), xs[i]? = some x →
    (i < xs.countP p ↔ p x = true)
  | [], _, _, _, hx => by simp at hx
  | y :: ys, h, i, x, hx => by
    cases hy : p y with
    | false =>
      rw [countP_eq_zero_of_head h hy]
      refine ⟨fun hi => absurd hi (Nat.not_lt_zero _), fun hpx => ?_⟩
      cases i with
      | zero => simp at hx; subst hx; rw [hy] at hpx; cases hpx
      | succ i =>
        have hmem : x ∈ ys := List.mem_of_getElem? (by simpa using hx)
        have := List.rel_of_pairwise_cons h hmem hpx
        rw [hy] at this; cases this
    | true =>
      rw [List.countP_cons_of_pos hy]
      cases i with
      | zero => simp at hx; subst hx; simp [hy]
      | succ i =>
        rw [Nat.succ_lt_succ_iff]
        exact lt_countP_iff h.tail i x (by simpa using hx)

theorem take_countP : ∀ {xs : List α}, Partitioned p xs → xs.take (xs.countP p) = xs.filter p
  | [], _ => rfl
  | x :: xs, h => by
    cases hx : p x with
    | false =>
      have h0 := countP_eq_zero_of_head h hx
      rw [h0, List.take_zero]
      rw [List.countP_eq_length_filter, List.length_eq_zero_iff] at h0
      exact h0.symm
    | true => rw [List.countP_cons_of_pos hx, List.take_succ_cons, take_countP h.tail, List.filter_cons_of_pos hx]

theorem drop_countP : ∀ {xs : List α}, Partitioned p xs → xs.drop (xs.countP p) = xs.filter (fun x => !p x)
  | [], _ => rfl
  | x :: xs, h => by
    cases hx : p x with
    | false =>
      have h0 := countP_eq_zero_of_head h hx
      rw [h0, List.drop_zero]
      refine (List.filter_eq_self.2 (fun y hy => ?_)).symm
      have := (List.countP_eq_zero.1 h0) y hy
      simpa using this
    | true =>
      rw [List.countP_cons_of_pos hx, List.drop_succ_cons, drop_countP h.tail,
        List.filter_cons_of_neg (by simp [hx])]

/-- **The partition point of a window** is the list's own, cut to the window. -/
theorem countP_window : ∀ {xs : List α} (a n : Nat), Partitioned p xs →
    ((xs.drop a).take n).countP p = min (xs.countP p - a) n
  | [], _, _, _ => by simp
  | x :: xs, 0, 0, _ => by simp
  | x :: xs, 0, n + 1, h => by
    rw [List.drop_zero, List.take_succ_cons]
    cases hx : p x with
    | false =>
      have h0 := countP_eq_zero_of_head h hx
      have hsub : (x :: xs.take n).countP p = 0 :=
        Nat.eq_zero_of_le_zero (h0 ▸ ((List.take_sublist n xs).cons_cons x).countP_le)
      rw [h0, hsub]; simp
    | true =>
      rw [List.countP_cons_of_pos hx, List.countP_cons_of_pos hx]
      have := countP_window 0 n h.tail
      rw [List.drop_zero] at this
      rw [this]; omega
  | x :: xs, a + 1, n, h => by
    rw [List.drop_succ_cons, countP_window a n h.tail]
    cases hx : p x with
    | false =>
      have h0 := countP_eq_zero_of_head h hx
      rw [h0]
      rw [List.countP_cons_of_neg (by simp [hx])] at h0
      rw [h0]; simp
    | true => rw [List.countP_cons_of_pos hx]; omega

/-- The search stays inside the list, partitioned or not. -/
theorem partitionPoint_le_length (p : α → Bool) (xs : List α) : partitionPoint p xs ≤ xs.length :=
  (bisect_bounds _ 0 xs.length (Nat.zero_le _)).2.1

/-- **A search for what holds more often ends no earlier**, whether or not the list is partitioned. -/
theorem partitionPoint_mono {q : α → Bool} (hpq : ∀ x, p x = true → q x = true) (xs : List α) :
    partitionPoint p xs ≤ partitionPoint q xs := by
  refine bisectFrom_mono (fun i hi => ?_) _ 0 xs.length (le_refl _) (Nat.zero_le _)
  rw [Option.any_eq_true] at hi ⊢
  obtain ⟨x, hx, hp⟩ := hi
  exact ⟨x, hx, hpq x hp⟩

/-- **On a partitioned list the halving search finds the partition point.** -/
theorem bisect_eq {xs : List α} (h : Partitioned p xs) (q : Nat → Bool)
    (hq : ∀ i x, xs[i]? = some x → q i = p x) : bisect q 0 xs.length = xs.countP p := by
  obtain ⟨-, h2, h3, h4⟩ := bisect_bounds q 0 xs.length (Nat.zero_le _)
  generalize bisect q 0 xs.length = r at h2 h3 h4
  have hc : xs.countP p ≤ xs.length := List.countP_le_length
  by_contra hne
  rcases Nat.lt_or_gt_of_ne hne with hlt | hgt
  · have hr : r < xs.length := by omega
    have hx : xs[r]? = some xs[r] := List.getElem?_eq_getElem hr
    have hf := h4 hr
    rw [hq r _ hx] at hf
    have ht := (lt_countP_iff h r _ hx).1 hlt
    rw [hf] at ht; cases ht
  · have hr : r - 1 < xs.length := by omega
    have hx : xs[r - 1]? = some xs[r - 1] := List.getElem?_eq_getElem hr
    have ht := h3 (by omega)
    rw [hq (r - 1) _ hx] at ht
    have := (lt_countP_iff h (r - 1) _ hx).2 ht
    omega

theorem partitionPoint_eq {xs : List α} (h : Partitioned p xs) : partitionPoint p xs = xs.countP p :=
  bisect_eq h _ (fun i x hx => by simp [hx])

end Search
