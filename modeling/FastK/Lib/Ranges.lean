import FastK.Lib.Search
import FastK.Lib.Spans
/-!
# Index ranges and blocks of a list

`between xs a b` is the part of a list from `a` up to `b`.  Closed ranges that are merged where they touch cover what
they covered before and leave a gap to the next (`covers_merge`, `merge_gaps`), so reading them one after the other
visits no element twice and misses none they cover (`flatMap_between`).  `blocks n` cuts a list every `n` elements.
-/
namespace Ranges

open Search Spans

variable {α : Type}

/-! ## Parts of a list -/

/-- The elements from `a` up to `b`. -/
def between (xs : List α) (a b : Nat) : List α := (xs.drop a).take (b - a)

theorem between_between {xs : List α} {a b c d : Nat} (hb : d ≤ b - a) :
    between (between xs a b) c d = between xs (a + c) (a + d) := by
  unfold between
  rw [List.drop_take, List.take_take, List.drop_drop]
  congr 1
  omega

theorem between_all (xs : List α) : between xs 0 xs.length = xs := by
  unfold between
  rw [List.drop_zero, Nat.sub_zero, List.take_length]

theorem between_eq_nil {xs : List α} {a b : Nat} (h : b ≤ a) : between xs a b = [] := by
  unfold between
  rw [Nat.sub_eq_zero_of_le h, List.take_zero]

theorem length_between {xs : List α} {a b : Nat} (hb : b ≤ xs.length) : (between xs a b).length = b - a := by
  unfold between
  rw [List.length_take, List.length_drop]
  omega

theorem drop_eq_between_append {xs : List α} {a b : Nat} (h : a ≤ b) : xs.drop a = between xs a b ++ xs.drop b := by
  unfold between
  conv => lhs; rw [← List.take_append_drop (b - a) (xs.drop a)]
  rw [List.drop_drop]
  congr 2
  omega

theorem between_append {xs : List α} {a b c : Nat} (hab : a ≤ b) (hbc : b ≤ c) :
    between xs a b ++ between xs b c = between xs a c := by
  unfold between
  rw [show c - a = (b - a) + (c - b) by omega, List.take_add, List.drop_drop, show a + (b - a) = b by omega]

theorem mem_between {xs : List α} {a b : Nat} {x : α} (h : x ∈ between xs a b) :
    ∃ i, a ≤ i ∧ i < b ∧ xs[i]? = some x := by
  obtain ⟨i, hi⟩ := List.getElem?_of_mem h
  unfold between at hi
  rw [List.getElem?_take] at hi
  split at hi
  · rw [List.getElem?_drop] at hi
    exact ⟨a + i, by omega, by omega, hi⟩
  · cases hi

theorem getElem?_mem_between {xs : List α} {a b i : Nat} {x : α} (ha : a ≤ i) (hb : i < b) (h : xs[i]? = some x) :
    x ∈ between xs a b := by
  refine List.mem_of_getElem? (i := i - a) ?_
  unfold between
  rw [List.getElem?_take, if_pos (by omega), List.getElem?_drop, ← h]
  congr 1
  omega

/-- A part of a list cut at two partition points. -/
theorem between_countP {xs : List α} {p q : α → Bool} (hp : Partitioned p xs) (hq : Partitioned q xs) :
    between xs (xs.countP p) (xs.countP q) = xs.filter (fun x => !p x && q x) := by
  unfold between
  have hq' : Partitioned q (xs.drop (xs.countP p)) := hq.sublist (List.drop_sublist _ _)
  have hlen : xs.length - xs.countP p = (xs.drop (xs.countP p)).length := by rw [List.length_drop]
  have hc : (xs.drop (xs.countP p)).countP q = xs.countP q - xs.countP p := by
    have hw := countP_window (xs.countP p) (xs.length - xs.countP p) hq
    rw [hlen, List.take_length] at hw
    have : xs.countP q ≤ xs.length := List.countP_le_length
    rw [hw, ← hlen]
    omega
  rw [← hc, take_countP hq', drop_countP hp, List.filter_filter]
  exact List.filter_congr (fun x _ => Bool.and_comm _ _)

theorem between_zero_countP {xs : List α} {q : α → Bool} (hq : Partitioned q xs) :
    between xs 0 (xs.countP q) = xs.filter q := by
  unfold between
  rw [List.drop_zero, Nat.sub_zero, take_countP hq]

theorem between_countP_length {xs : List α} {p : α → Bool} (hp : Partitioned p xs) :
    between xs (xs.countP p) xs.length = xs.filter (fun x => !p x) := by
  unfold between
  rw [← drop_countP hp, List.take_of_length_le]
  rw [List.length_drop]

/-! ## Merging closed ranges -/

/-- The index lies in one of the closed ranges. -/
def Covers (rs : List (Nat × Nat)) (i : Nat) : Prop := ∃ r ∈ rs, r.1 ≤ i ∧ i ≤ r.2

/-- Joins the ranges that begin by the end of the current one; `cap` is where the end's successor saturates. -/
def mergeFrom (cap : Nat) : Nat × Nat → List (Nat × Nat) → List (Nat × Nat)
  | cur, [] => [cur]
  | cur, r :: rs =>
    if r.1 ≤ min (cur.2 + 1) cap then mergeFrom cap (cur.1, max cur.2 r.2) rs else cur :: mergeFrom cap r rs

def merge (cap : Nat) (rs : List (Nat × Nat)) : List (Nat × Nat) :=
  match sortByKey (fun r => (r.1 : Int)) rs with
  | [] => []
  | r :: rs => mergeFrom cap r rs

/-- The ranges are sorted by where they begin, not empty, and end by `cap`. -/
def Sorted (cap : Nat) (rs : List (Nat × Nat)) : Prop := rs.Pairwise (fun a b => a.1 ≤ b.1) ∧
    ∀ r ∈ rs, r.1 ≤ r.2 ∧ r.2 ≤ cap

theorem covers_cons {r : Nat × Nat} {rs : List (Nat × Nat)} {i : Nat} : Covers (r :: rs) i ↔ (r.1 ≤ i ∧ i ≤ r.2) ∨
    Covers rs i := by
  unfold Covers
  simp

theorem Sorted.join {cap : Nat} {cur r : Nat × Nat} {rs : List (Nat × Nat)} (h : Sorted cap (cur :: r :: rs)) :
    Sorted cap ((cur.1, max cur.2 r.2) :: rs) := by
  obtain ⟨hs, hp⟩ := h
  have h1 := hp cur (by simp)
  have h2 := hp r (by simp)
  refine ⟨List.pairwise_cons.2 ⟨fun x hx => List.rel_of_pairwise_cons hs (by simp [hx]), hs.of_cons.of_cons⟩, ?_⟩
  intro x hx
  rcases List.mem_cons.1 hx with rfl | hx
  · simp only
    omega
  · exact hp x (by simp [hx])

theorem Sorted.tail {cap : Nat} {r : Nat × Nat} {rs : List (Nat × Nat)} (h : Sorted cap (r :: rs)) : Sorted cap rs :=
  ⟨h.1.of_cons, fun x hx => h.2 x (by simp [hx])⟩

theorem covers_mergeFrom {cap i : Nat} : ∀ (cur : Nat × Nat) (rs : List (Nat × Nat)), Sorted cap (cur :: rs) →
    (Covers (mergeFrom cap cur rs) i ↔ Covers (cur :: rs) i)
  | cur, [], _ => by rfl
  | cur, r :: rs, h => by
    unfold mergeFrom
    have h1 := h.2 cur (by simp)
    have h2 := h.2 r (by simp)
    have h3 := List.rel_of_pairwise_cons h.1 (show r ∈ r :: rs by simp)
    split
    · have hjoin : cur.1 ≤ i ∧ i ≤ max cur.2 r.2 ↔ (cur.1 ≤ i ∧ i ≤ cur.2) ∨ (r.1 ≤ i ∧ i ≤ r.2) := by omega
      rw [covers_mergeFrom _ rs h.join, covers_cons, covers_cons, covers_cons, hjoin, or_assoc]
    · rw [covers_cons, covers_mergeFrom r rs h.tail, covers_cons (r := cur)]

theorem mergeFrom_starts {cap : Nat} : ∀ (cur : Nat × Nat) (rs : List (Nat × Nat)), Sorted cap (cur :: rs) →
    ∀ x ∈ mergeFrom cap cur rs, cur.1 ≤ x.1 ∧ x.1 ≤ x.2 ∧ x.2 ≤ cap
  | cur, [], h, x, hx => by
    rw [mergeFrom, List.mem_singleton] at hx
    subst hx
    exact ⟨le_refl _, h.2 x (by simp)⟩
  | cur, r :: rs, h, x, hx => by
    unfold mergeFrom at hx
    split at hx
    · exact mergeFrom_starts _ rs h.join x hx
    · rcases List.mem_cons.1 hx with rfl | hx
      · exact ⟨le_refl _, h.2 x (by simp)⟩
      · have h1 := mergeFrom_starts r rs h.tail x hx
        have h2 := List.rel_of_pairwise_cons h.1 (show r ∈ r :: rs by simp)
        exact ⟨by omega, h1.2⟩

/-- The sweep leaves a gap between a range and the next. -/
theorem mergeFrom_gaps {cap : Nat} : ∀ (cur : Nat × Nat) (rs : List (Nat × Nat)), Sorted cap (cur :: rs) →
    (mergeFrom cap cur rs).Pairwise (fun a b => a.2 + 1 < b.1)
  | cur, [], _ => List.pairwise_singleton _ _
  | cur, r :: rs, h => by
    unfold mergeFrom
    split
    · exact mergeFrom_gaps _ rs h.join
    · rename_i hgt
      refine List.pairwise_cons.2 ⟨fun x hx => ?_, mergeFrom_gaps r rs h.tail⟩
      have h1 := mergeFrom_starts r rs h.tail x hx
      -- the successor of the end saturates only where no range can begin after it
      have h2 := h.2 r (by simp)
      omega

section Merge

variable {cap : Nat} {rs : List (Nat × Nat)}

theorem sorted_sortByKey (h : ∀ r ∈ rs, r.1 ≤ r.2 ∧ r.2 ≤ cap) : Sorted cap (sortByKey (fun r => (r.1 : Int)) rs) :=
  ⟨(sortByKey_sorted _ rs).imp (fun hab => by omega), fun r hr => h r ((mem_sortByKey _).1 hr)⟩

/-- **Merging changes nothing of what the ranges cover.** -/
theorem covers_merge (h : ∀ r ∈ rs, r.1 ≤ r.2 ∧ r.2 ≤ cap) (i : Nat) : Covers (merge cap rs) i ↔ Covers rs i := by
  have hs := sorted_sortByKey h
  have hmem : Covers (sortByKey (fun r => (r.1 : Int)) rs) i ↔ Covers rs i := by
    unfold Covers
    simp
  rw [← hmem]
  unfold merge
  cases hq : sortByKey (fun r : Nat × Nat => (r.1 : Int)) rs with
  | nil => rfl
  | cons r rs =>
    rw [hq] at hs
    exact covers_mergeFrom r rs hs

/-- **Merged ranges follow one another, with a gap between any two.** -/
theorem merge_gaps (h : ∀ r ∈ rs, r.1 ≤ r.2 ∧ r.2 ≤ cap) :
    (merge cap rs).Pairwise (fun a b => a.2 + 1 < b.1) ∧ ∀ r ∈ merge cap rs, r.1 ≤ r.2 ∧ r.2 ≤ cap := by
  have hs := sorted_sortByKey h
  unfold merge
  cases hq : sortByKey (fun r : Nat × Nat => (r.1 : Int)) rs with
  | nil => exact ⟨List.Pairwise.nil, by simp⟩
  | cons r rs =>
    rw [hq] at hs
    exact ⟨mergeFrom_gaps r rs hs, fun x hx => (mergeFrom_starts r rs hs x hx).2⟩

/-- Merged ranges follow one another without overlap. -/
theorem merge_apart (h : ∀ r ∈ rs, r.1 ≤ r.2 ∧ r.2 ≤ cap) :
    (merge cap rs).Pairwise (fun a b => a.2 < b.1) ∧ ∀ r ∈ merge cap rs, r.1 ≤ r.2 ∧ r.2 ≤ cap :=
  ⟨(merge_gaps h).1.imp (fun hab => by omega), (merge_gaps h).2⟩

end Merge

/-- The indices of closed ranges, range by range. -/
def indices (rs : List (Nat × Nat)) : List Nat := rs.flatMap (fun r => List.range' r.1 (r.2 + 1 - r.1))

theorem mem_indices {rs : List (Nat × Nat)} {i : Nat} : i ∈ indices rs ↔ Covers rs i := by
  unfold indices Covers
  simp only [List.mem_flatMap, List.mem_range'_1]
  refine exists_congr (fun r => and_congr_right (fun _ => ?_))
  omega

/-- No index lies in two of the ranges that follow one another. -/
theorem indices_sorted : ∀ {rs : List (Nat × Nat)}, rs.Pairwise (fun a b => a.2 < b.1) → (indices rs).Pairwise (· < ·)
  | [], _ => List.Pairwise.nil
  | r :: rs, h => by
    have ih := indices_sorted h.of_cons
    unfold indices at ih ⊢
    rw [List.flatMap_cons, List.pairwise_append]
    refine ⟨List.pairwise_lt_range', ih, fun i hi j hj => ?_⟩
    obtain ⟨q, hq, hj⟩ := List.mem_flatMap.1 hj
    have hgap := List.rel_of_pairwise_cons h hq
    rw [List.mem_range'_1] at hi hj
    omega

/-- **Reading ranges that follow one another finds every wanted element they cover, once and in order.** -/
theorem flatMap_between {xs : List α} {p : α → Bool} : ∀ {rs : List (Nat × Nat)}
    (k : Nat), rs.Pairwise (fun a b => a.2 < b.1) →
    (∀ r ∈ rs, k ≤ r.1 ∧ r.1 ≤ r.2) → (∀ i x, k ≤ i → xs[i]? = some x → p x = true → Covers rs i) →
    (rs.flatMap (fun r => between xs r.1 (r.2 + 1))).filter p = (xs.drop k).filter p
  | [], k, _, _, hc => by
    symm
    rw [List.flatMap_nil, List.filter_nil, List.filter_eq_nil_iff]
    intro x hx hp
    obtain ⟨i, hi⟩ := List.getElem?_of_mem hx
    rw [List.getElem?_drop] at hi
    obtain ⟨r, hr, -⟩ := hc (k + i) x (by omega) hi hp
    cases hr
  | r :: rs, k, hs, hk, hc => by
    have hr := hk r (by simp)
    have hgap : (between xs k r.1).filter p = [] := by
      rw [List.filter_eq_nil_iff]
      intro x hx hp
      obtain ⟨i, h1, h2, hi⟩ := mem_between hx
      obtain ⟨q, hq, hq1, -⟩ := hc i x h1 hi hp
      rcases List.mem_cons.1 hq with rfl | hq
      · omega
      · have := List.rel_of_pairwise_cons hs hq
        omega
    have ih := @flatMap_between xs p rs (r.2 + 1) hs.of_cons
      (fun q hq => ⟨List.rel_of_pairwise_cons hs hq, (hk q (by simp [hq])).2⟩)
      (fun i x hi hx hp => by
        obtain ⟨q, hq, hq1, hq2⟩ := hc i x (by omega) hx hp
        rcases List.mem_cons.1 hq with rfl | hq
        · omega
        · exact ⟨q, hq, hq1, hq2⟩)
    rw [List.flatMap_cons, List.filter_append, ih, drop_eq_between_append hr.1, List.filter_append, hgap,
      List.nil_append, drop_eq_between_append (show r.1 ≤ r.2 + 1 by omega), List.filter_append]

/-- Ranges that follow one another below `n` are no more than the indices from `k` to `n`. -/
theorem length_le_of_apart {n : Nat} : ∀ {rs : List (Nat × Nat)} (k : Nat), rs.Pairwise (fun a b => a.2 < b.1) →
    (∀ r ∈ rs, k ≤ r.1 ∧ r.1 ≤ r.2 ∧ r.2 < n) → k + rs.length ≤ max k n
  | [], k, _, _ => by simp
  | r :: rs, k, hs, hr => by
    obtain ⟨h1, h2, h3⟩ := hr r (by simp)
    have ih := length_le_of_apart (r.2 + 1) hs.of_cons (fun q hq =>
      ⟨List.rel_of_pairwise_cons hs hq, (hr q (by simp [hq])).2⟩)
    rw [List.length_cons]
    omega

theorem length_mergeFrom_le {cap : Nat} : ∀ (cur : Nat × Nat)
    (rs : List (Nat × Nat)), (mergeFrom cap cur rs).length ≤ rs.length + 1
  | _, [] => le_refl _
  | cur, r :: rs => by
    unfold mergeFrom
    split
    · have := @length_mergeFrom_le cap (cur.1, max cur.2 r.2) rs
      rw [List.length_cons]
      omega
    · have := @length_mergeFrom_le cap r rs
      rw [List.length_cons, List.length_cons]
      omega

/-- Ranges without overlap are all kept exactly when none begins where another has just ended. -/
theorem length_mergeFrom_iff {cap : Nat} : ∀ (cur : Nat × Nat)
    (rs : List (Nat × Nat)), (cur :: rs).Pairwise (fun a b => a.2 < b.1) →
    (∀ r ∈ cur :: rs, r.1 ≤ r.2 ∧ r.2 ≤ cap) →
    ((mergeFrom cap cur rs).length = rs.length + 1 ↔ ∀ a ∈ cur :: rs, ∀ b ∈ cur :: rs, a.2 + 1 ≠ b.1)
  | cur, [], _, hp => by
    have := hp cur (by simp)
    simp only [mergeFrom, List.length_singleton, List.length_nil, List.mem_singleton, forall_eq, true_iff]
    omega
  | cur, r :: rs, hs, hp => by
    have h1 := hp cur (by simp)
    have h2 := hp r (by simp)
    have h3 := List.rel_of_pairwise_cons hs (show r ∈ r :: rs by simp)
    unfold mergeFrom
    split
    · have hlen := @length_mergeFrom_le cap (cur.1, max cur.2 r.2) rs
      refine iff_of_false (by rw [List.length_cons]; omega) (fun h => ?_)
      exact h cur (by simp) r (by simp) (by omega)
    · rename_i hgt
      rw [List.length_cons, List.length_cons, Nat.add_right_cancel_iff,
        length_mergeFrom_iff r rs hs.of_cons (fun q hq => hp q (List.mem_cons_of_mem _ hq))]
      constructor
      · intro h a ha b hb
        rcases List.mem_cons.1 ha with rfl | ha' <;> rcases List.mem_cons.1 hb with rfl | hb'
        · omega
        · rcases List.mem_cons.1 hb' with rfl | hb''
          · omega
          · have := List.rel_of_pairwise_cons hs.of_cons hb''
            omega
        · have := List.rel_of_pairwise_cons hs ha'
          have := hp a ha
          omega
        · exact h a ha' b hb'
      · exact fun h a ha b hb => h a (List.mem_cons_of_mem _ ha) b (List.mem_cons_of_mem _ hb)

theorem length_merge_le {cap : Nat} (rs : List (Nat × Nat)) : (merge cap rs).length ≤ rs.length := by
  rw [← length_sortByKey (fun r : Nat × Nat => (r.1 : Int)) rs]
  unfold merge
  cases sortByKey (fun r : Nat × Nat => (r.1 : Int)) rs with
  | nil => exact le_refl _
  | cons r rs => exact length_mergeFrom_le r rs

/-- **Merging keeps the number of ranges without overlap exactly when no two of them touch.** -/
theorem length_merge_iff {cap : Nat} {rs : List (Nat × Nat)} (hs : rs.Pairwise (fun a b => a.2 < b.1))
    (hp : ∀ r ∈ rs, r.1 ≤ r.2 ∧ r.2 ≤ cap) : (merge cap rs).length = rs.length ↔ ∀ a ∈ rs, ∀ b ∈ rs, a.2 + 1 ≠ b.1 := by
  have hsorted : rs.Pairwise (fun a b => (a.1 : Int) ≤ b.1) :=
    hs.imp_of_mem (fun ha _ hab => by
      have := hp _ ha
      omega)
  unfold merge
  have hself : sortByKey (fun r : Nat × Nat => (r.1 : Int)) rs = rs := sortByKey_of_sorted _ hsorted
  rw [hself]
  cases rs with
  | nil => simp
  | cons r rs => exact length_mergeFrom_iff r rs hs hp

/-- Reading ranges that follow one another reads no element twice. -/
theorem flatMap_between_sublist {xs : List α} : ∀ {rs : List (Nat × Nat)}
    (k : Nat), rs.Pairwise (fun a b => a.2 < b.1) →
    (∀ r ∈ rs, k ≤ r.1 ∧ r.1 ≤ r.2) → (rs.flatMap (fun r => between xs r.1 (r.2 + 1))).Sublist (xs.drop k)
  | [], _, _, _ => List.nil_sublist _
  | r :: rs, k, hs, hk => by
    have hr := hk r (by simp)
    have ih := @flatMap_between_sublist xs rs (r.2 + 1) hs.of_cons
      (fun q hq => ⟨List.rel_of_pairwise_cons hs hq, (hk q (by simp [hq])).2⟩)
    rw [List.flatMap_cons, drop_eq_between_append (show k ≤ r.2 + 1 by omega)]
    refine List.Sublist.append ?_ ih
    rw [← between_append hr.1 (show r.1 ≤ r.2 + 1 by omega)]
    exact List.sublist_append_right _ _

/-! ## Blocks -/

/-- `blocks` with the length of the list as fuel. -/
def blocksFrom (n : Nat) : Nat → List α → List (List α)
  | 0, _ => []
  | fuel + 1, xs => if xs.isEmpty then [] else xs.take n :: blocksFrom n fuel (xs.drop n)

/-- The list in pieces of `n`, the last one shorter (`slice::chunks`). -/
def blocks (n : Nat) (xs : List α) : List (List α) := blocksFrom n xs.length xs

theorem blocksFrom_getElem? {n : Nat} (hn : 1 ≤ n) : ∀ (fuel : Nat) (xs : List α) (k : Nat), xs.length ≤ fuel →
    (blocksFrom n fuel xs)[k]? = if k * n < xs.length then some (between xs (k * n) (k * n + n)) else none
  | 0, xs, k, h => by
    rw [blocksFrom, if_neg (by omega), List.getElem?_nil]
  | fuel + 1, xs, k, h => by
    unfold blocksFrom
    cases xs with
    | nil => simp
    | cons x xs =>
      rw [if_neg (by simp)]
      cases k with
      | zero => simp [between]
      | succ k =>
        have hlen : ((x :: xs).drop n).length ≤ fuel := by
          rw [List.length_drop]
          simp only [List.length_cons] at h ⊢
          omega
        rw [List.getElem?_cons_succ, blocksFrom_getElem? hn fuel _ k hlen]
        simp only [List.length_drop, Nat.succ_mul]
        unfold between
        rw [List.drop_drop]
        by_cases hk : k * n < (x :: xs).length - n
        · rw [if_pos hk, if_pos (by omega)]
          congr 2
          · omega
          · congr 1
            omega
        · rw [if_neg hk, if_neg (by omega)]

/-- **The `k`-th block is the part of the list from `k * n`.** -/
theorem blocks_getElem? {n : Nat} (hn : 1 ≤ n) (xs : List α) (k : Nat) :
    (blocks n xs)[k]? = if k * n < xs.length then some (between xs (k * n) (k * n + n)) else none :=
  blocksFrom_getElem? hn xs.length xs k (le_refl _)

/-- The block of an index. -/
theorem blocks_of_getElem? {n : Nat} (hn : 1 ≤ n) {xs : List α} {i : Nat} {x : α} (hx : xs[i]? = some x) :
    (blocks n xs)[i / n]? = some (between xs (i / n * n) (i / n * n + n)) ∧ x ∈ between xs (i / n * n)
    (i / n * n + n) := by
  have hi : i < xs.length := (List.getElem?_eq_some_iff.1 hx).1
  have hd := Nat.div_add_mod i n
  have hm := Nat.mod_lt i (show 0 < n by omega)
  rw [Nat.mul_comm] at hd
  exact ⟨by rw [blocks_getElem? hn, if_pos (by omega)], getElem?_mem_between (by omega) (by omega) hx⟩

theorem flatten_blocksFrom {n : Nat} (hn : 1 ≤ n) : ∀ (fuel : Nat) (xs : List α), xs.length ≤ fuel →
    (blocksFrom n fuel xs).flatten = xs
  | 0, xs, h => by
    rw [List.length_eq_zero_iff.1 (by omega : xs.length = 0)]
    rfl
  | fuel + 1, xs, h => by
    unfold blocksFrom
    cases xs with
    | nil => rfl
    | cons x xs =>
      have hlen : ((x :: xs).drop n).length ≤ fuel := by
        rw [List.length_drop]
        simp only [List.length_cons] at h ⊢
        omega
      rw [if_neg (by simp), List.flatten_cons, flatten_blocksFrom hn fuel _ hlen, List.take_append_drop]

/-- **The blocks put together again are the list.** -/
theorem flatten_blocks {n : Nat} (hn : 1 ≤ n) (xs : List α) : (blocks n xs).flatten = xs :=
  flatten_blocksFrom hn xs.length xs (le_refl _)

end Ranges
