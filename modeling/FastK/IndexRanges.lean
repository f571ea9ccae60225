import FastK.Query
/-!
# Index ranges

The ranges of positions that the indexes of a chunk answer a predicate with (`index/vix.rs`, `engine/store.rs`).  The
slices of a value index are in bounds, not empty and apart, hold every entry that satisfies the predicate, and no
other unless the predicate excludes values (`matching_slices_exact`).  Merged row ranges cover the rows they covered
before, and a read of them goes to each of these rows once, in order (`merge_row_ranges_exact`).
-/
namespace FastK

open Search Ranges

/-! ## Slices of a value index -/

section Slices

variable {entries : List ValueIndexEntry} {e : ValueIndexEntry} {i : Nat}

theorem sortedByValue_of_le (h : entries.Pairwise ValueIndexEntry.Le) : SortedByValue entries :=
  h.imp (fun {a b} hab => by
    unfold ValueIndexEntry.Le at hab
    omega)

theorem lt_vixLowerBound (h : SortedByValue entries) (hi : entries[i]? = some e) (v : Int) :
    i < vixLowerBound entries v ↔ e.value < v := by
  unfold vixLowerBound
  rw [partitionPoint_eq (partitioned_value_lt h v), lt_countP_iff (partitioned_value_lt h v) i e hi, decide_eq_true_iff]

theorem lt_vixUpperBound (h : SortedByValue entries) (hi : entries[i]? = some e) (v : Int) :
    i < vixUpperBound entries v ↔ e.value ≤ v := by
  unfold vixUpperBound
  rw [partitionPoint_eq (partitioned_value_le h v), lt_countP_iff (partitioned_value_le h v) i e hi, decide_eq_true_iff]

theorem vixLowerBound_le (h : SortedByValue entries) (v : Int) : vixLowerBound entries v ≤ entries.length := by
  unfold vixLowerBound
  rw [partitionPoint_eq (partitioned_value_lt h v)]
  exact List.countP_le_length

theorem vixUpperBound_le (h : SortedByValue entries) (v : Int) : vixUpperBound entries v ≤ entries.length := by
  unfold vixUpperBound
  rw [partitionPoint_eq (partitioned_value_le h v)]
  exact List.countP_le_length

/-- The entries of a value end before those of a greater one begin. -/
theorem vixUpperBound_le_vixLowerBound (h : SortedByValue entries) {v w : Int} (hvw : v < w) :
    vixUpperBound entries v ≤ vixLowerBound entries w := by
  unfold vixUpperBound vixLowerBound
  rw [partitionPoint_eq (partitioned_value_le h v), partitionPoint_eq (partitioned_value_lt h w)]
  refine List.countP_mono_left (fun e _ he => ?_)
  simp only [decide_eq_true_eq] at he ⊢
  omega

/-- Ranges of positions, none in two of them, that hold the entries whose value passes, and no others. -/
structure HoldsValues (entries : List ValueIndexEntry) (passes : Int → Prop) (rs : List (Nat × Nat)) : Prop where
  bounded : ∀ r ∈ rs, r.2 ≤ entries.length
  apart : rs.Pairwise (fun a b => a.2 ≤ b.1 ∨ b.2 ≤ a.1)
  exact : ∀ i e, entries[i]? = some e → ((∃ r ∈ rs, r.1 ≤ i ∧ i < r.2) ↔ passes e.value)

theorem holdsValues_singleton {passes : Int → Prop} {r : Nat × Nat} (hb : r.2 ≤ entries.length)
    (he : ∀ i e, entries[i]? = some e → (r.1 ≤ i ∧ i < r.2 ↔ passes e.value)) : HoldsValues entries passes [r] where
  bounded := by simpa using hb
  apart := List.pairwise_singleton _ _
  exact i e hi := by simpa using he i e hi

/-- The empty ranges hold nothing. -/
theorem HoldsValues.filter {passes : Int → Prop} {rs : List (Nat × Nat)} (h : HoldsValues entries passes rs) :
    HoldsValues entries passes (rs.filter (fun r => decide (r.1 < r.2))) where
  bounded r hr := h.bounded r (List.mem_filter.1 hr).1
  apart := h.apart.filter _
  exact i e hi := by
    rw [← h.exact i e hi]
    refine exists_congr (fun r => ?_)
    rw [List.mem_filter, decide_eq_true_iff]
    constructor
    · exact fun hr => ⟨hr.1.1, hr.2⟩
    · exact fun hr => ⟨⟨hr.1, by omega⟩, hr.2⟩

/-- The slices of distinct values, in order. -/
theorem holdsValues_values (h : SortedByValue entries) {values : List Int} (hs : values.Pairwise (· < ·)) :
    HoldsValues entries (· ∈ values)
    (values.map (fun value => (vixLowerBound entries value, vixUpperBound entries value))) where
  bounded r hr := by
    obtain ⟨v, -, rfl⟩ := List.mem_map.1 hr
    exact vixUpperBound_le h v
  apart := by
    rw [List.pairwise_map]
    exact hs.imp (fun hvw => .inl (vixUpperBound_le_vixLowerBound h hvw))
  exact i e hi := by
    have hslice : ∀ v, vixLowerBound entries v ≤ i ∧ i < vixUpperBound entries v ↔ e.value = v := by
      intro v
      have h1 := lt_vixLowerBound h hi v
      have h2 := lt_vixUpperBound h hi v
      omega
    constructor
    · rintro ⟨r, hr, hin⟩
      obtain ⟨v, hv, rfl⟩ := List.mem_map.1 hr
      rwa [(hslice v).1 hin]
    · exact fun hv => ⟨_, List.mem_map.2 ⟨e.value, hv, rfl⟩, (hslice e.value).2 rfl⟩

/-- What the slices of a predicate hold: the values that satisfy it, or all values if it excludes some. -/
def ScalarPredicateExpr.sliced : ScalarPredicateExpr → Int → Prop
  | .ne _, _ => True
  | .notInSet _, _ => True
  | p, v => p.matches v = true

theorem ScalarPredicateExpr.sliced_of_matches {p : ScalarPredicateExpr} {v : Int} (h : p.matches v = true) :
    p.sliced v := by
  cases p <;> first | exact h | exact trivial

theorem ScalarPredicateExpr.matches_of_sliced {p : ScalarPredicateExpr} {v : Int} (hne : ∀ target, p ≠ .ne target)
    (hnot : ∀ values, p ≠ .notInSet values) (h : p.sliced v) : p.matches v = true := by
  cases p with
  | ne target => exact absurd rfl (hne target)
  | notInSet values => exact absurd rfl (hnot values)
  | _ => exact h

/-- **A valid predicate is answered with the slices that hold its values.** -/
theorem matchingSlices_holds (hs : SortedByValue entries) {p : ScalarPredicateExpr} (hv : p.validate = .ok ()) :
    ∃ slices, matchingSlicesForExpr entries p = .ok slices ∧ (∀ r ∈ slices, r.1 < r.2) ∧
      HoldsValues entries p.sliced slices := by
  unfold matchingSlicesForExpr
  rw [hv]
  simp only
  by_cases hem : entries.isEmpty = true
  · rw [if_pos hem, List.isEmpty_iff.1 hem]
    exact ⟨[], rfl, fun r hr => absurd hr List.not_mem_nil, ⟨fun r hr => absurd hr List.not_mem_nil,
      List.Pairwise.nil, fun i e hi => by simp at hi⟩⟩
  rw [if_neg hem]
  refine ⟨_, rfl, fun r hr => of_decide_eq_true (List.mem_filter.1 hr).2, ?_⟩
  have hlen : ∀ {i e}, entries[i]? = some e → i < entries.length := fun hi => (List.getElem?_eq_some_iff.1 hi).1
  cases p with
  | eq value =>
    refine (holdsValues_singleton (vixUpperBound_le hs value) (fun i e hi => ?_)).filter
    have h1 := lt_vixLowerBound hs hi value
    have h2 := lt_vixUpperBound hs hi value
    simp only [ScalarPredicateExpr.sliced, ScalarPredicateExpr.matches, decide_eq_true_eq]
    omega
  | ne value => exact (holdsValues_singleton (le_refl _) (fun i e hi =>
      iff_of_true ⟨Nat.zero_le _, hlen hi⟩ trivial)).filter
  | notInSet values => exact (holdsValues_singleton (le_refl _) (fun i e hi =>
      iff_of_true ⟨Nat.zero_le _, hlen hi⟩ trivial)).filter
  | gt value =>
    refine (holdsValues_singleton (le_refl _) (fun i e hi => ?_)).filter
    have h1 := lt_vixUpperBound hs hi value
    have h2 := hlen hi
    simp only [ScalarPredicateExpr.sliced, ScalarPredicateExpr.matches, decide_eq_true_eq]
    omega
  | gte value =>
    refine (holdsValues_singleton (le_refl _) (fun i e hi => ?_)).filter
    have h1 := lt_vixLowerBound hs hi value
    have h2 := hlen hi
    simp only [ScalarPredicateExpr.sliced, ScalarPredicateExpr.matches, decide_eq_true_eq]
    omega
  | lt value =>
    refine (holdsValues_singleton (vixLowerBound_le hs value) (fun i e hi => ?_)).filter
    have h1 := lt_vixLowerBound hs hi value
    simp only [ScalarPredicateExpr.sliced, ScalarPredicateExpr.matches, decide_eq_true_eq]
    omega
  | lte value =>
    refine (holdsValues_singleton (vixUpperBound_le hs value) (fun i e hi => ?_)).filter
    have h1 := lt_vixUpperBound hs hi value
    simp only [ScalarPredicateExpr.sliced, ScalarPredicateExpr.matches, decide_eq_true_eq]
    omega
  | between min max inclusive =>
    cases inclusive with
    | true =>
      refine (holdsValues_singleton (vixUpperBound_le hs max) (fun i e hi => ?_)).filter
      have h1 := lt_vixLowerBound hs hi min
      have h2 := lt_vixUpperBound hs hi max
      simp only [ScalarPredicateExpr.sliced, ScalarPredicateExpr.matches, decide_eq_true_eq, if_true]
      omega
    | false =>
      -- with equal bounds the range is reversed, and holds nothing
      refine (holdsValues_singleton (vixLowerBound_le hs max) (fun i e hi => ?_)).filter
      have h1 := lt_vixUpperBound hs hi min
      have h2 := lt_vixLowerBound hs hi max
      simp only [ScalarPredicateExpr.sliced, ScalarPredicateExpr.matches, decide_eq_true_eq,
        Bool.false_eq_true, if_false]
      omega
  | inSet values =>
    have hsorted : (dedupAdjacent (values.insertionSort (· ≤ ·))).Pairwise (· < ·) :=
      dedupAdjacent_sorted (List.pairwise_insertionSort _ _)
    have hvalues := (holdsValues_values hs hsorted).filter.filter
    refine ⟨hvalues.bounded, hvalues.apart, fun i e hi => (hvalues.exact i e hi).trans ?_⟩
    simp only [mem_dedupAdjacent, List.mem_insertionSort, ScalarPredicateExpr.sliced, ScalarPredicateExpr.matches,
      List.contains_eq_mem, decide_eq_true_eq]

/-- **The slices of a value index.** -/
theorem matching_slices_exact (hs : entries.Pairwise ValueIndexEntry.Le) {p : ScalarPredicateExpr}
    (hv : p.validate = .ok ()) :
    ∃ slices, matchingSlicesForExpr entries p = .ok slices ∧
      (∀ r ∈ slices, r.1 < r.2 ∧ r.2 ≤ entries.length) ∧
      slices.Pairwise (fun a b => a.2 ≤ b.1 ∨ b.2 ≤ a.1) ∧
      (∀ i e, entries[i]? = some e → p.matches e.value = true → ∃ r ∈ slices, r.1 ≤ i ∧ i < r.2) ∧
      ((∀ target, p ≠ .ne target) → (∀ values, p ≠ .notInSet values) →
        ∀ r ∈ slices, ∀ i e, r.1 ≤ i → i < r.2 → entries[i]? = some e → p.matches e.value = true) := by
  obtain ⟨slices, hok, hne, hh⟩ := matchingSlices_holds (sortedByValue_of_le hs) hv
  refine ⟨slices, hok, fun r hr => ⟨hne r hr, hh.bounded r hr⟩, hh.apart, fun i e hi hm => ?_,
    fun h1 h2 r hr i e hlo hhi hi => ?_⟩
  · exact (hh.exact i e hi).2 (ScalarPredicateExpr.sliced_of_matches hm)
  · exact ScalarPredicateExpr.matches_of_sliced h1 h2 ((hh.exact i e hi).1 ⟨r, hr, hlo, hhi⟩)

/-- Two values, one of them twice in the set, over the ends of the 64-bit integers. -/
theorem matching_slices_exact_sample :
    [⟨i64Min, 5⟩, ⟨7, 1⟩, ⟨7, 2⟩, ⟨i64Max, 3⟩].Pairwise ValueIndexEntry.Le ∧
      ∃ slices, matchingSlicesForExpr [⟨i64Min, 5⟩, ⟨7, 1⟩, ⟨7, 2⟩, ⟨i64Max, 3⟩]
        (.inSet [i64Max, 7, 7]) = .ok slices ∧ ∀ r ∈ slices, r.1 < r.2 ∧ r.2 ≤ 4 := by
  have hs : [⟨i64Min, 5⟩, ⟨7, 1⟩, ⟨7, 2⟩, ⟨i64Max, 3⟩].Pairwise ValueIndexEntry.Le := by decide
  obtain ⟨slices, hok, hin, -⟩ := matching_slices_exact hs (p := .inSet [i64Max, 7, 7]) rfl
  exact ⟨hs, slices, hok, hin⟩

end Slices

/-! ## Merged row ranges -/

section Rows

variable {f : ChunkFile} {out res : List ScalarRecord}

/-- The record decoded from a row of the file. -/
def RecordAt (f : ChunkFile) (i : Nat) (r : ScalarRecord) : Prop := ∃ row, f.rows[i]? = some row ∧
    FixedRecord.decode row = some r

theorem decodeRow_eq_ok {row : Record} {r : ScalarRecord} (h : decodeRow row = .ok r) :
    FixedRecord.decode row = some r := by
  unfold decodeRow at h
  split at h
  · rename_i x hx
    rw [hx, Except.ok.inj h]
  · cases h

theorem collect_recordAt : ∀ (n a : Nat) {read : List ScalarRecord}, a + n ≤ f.rows.length →
    collect decodeRow ((f.rows.drop a).take n) = .ok read →
    List.Forall₂ (RecordAt f) (List.range' a n) read
  | 0, _, read, _, h => by
    rw [List.take_zero] at h
    obtain rfl := Except.ok.inj h
    exact .nil
  | n + 1, a, read, ha, h => by
    rw [List.drop_eq_getElem_cons (show a < f.rows.length by omega), List.take_succ_cons, collect] at h
    rw [List.range'_succ]
    cases hd : decodeRow (R := ScalarRecord) f.rows[a] with
    | error e =>
      rw [hd] at h
      cases h
    | ok r =>
      rw [hd] at h
      simp only at h
      cases hrest : collect (decodeRow (R := ScalarRecord)) ((f.rows.drop (a + 1)).take n) with
      | error e =>
        rw [hrest] at h
        cases h
      | ok rest =>
        rw [hrest] at h
        obtain rfl := Except.ok.inj h
        exact .cons ⟨f.rows[a], List.getElem?_eq_getElem _,
          decodeRow_eq_ok hd⟩ (collect_recordAt n (a + 1) (by omega) hrest)

/-- A span read goes to each of its rows once. -/
theorem appendRecordSpan_rows {t : SpanTexts} {start count : Nat} (h : appendRecordSpan t f start count out = .ok res) :
    ∃ read, res = out ++ read ∧ List.Forall₂ (RecordAt f) (List.range' start count) read := by
  unfold appendRecordSpan at h
  cases hr : readRecordSpan (R := ScalarRecord) t f start count with
  | error e =>
    rw [hr] at h
    cases h
  | ok read =>
    rw [hr] at h
    refine ⟨read, (Except.ok.inj h).symm, ?_⟩
    unfold readRecordSpan at hr
    split at hr
    · rename_i hz
      obtain rfl := Except.ok.inj hr
      rw [hz]
      exact .nil
    split at hr
    · cases hr
    split at hr
    · cases hr
    split at hr
    · cases hr
    unfold ChunkFile.readRows at hr
    split at hr
    · cases hr
    · exact collect_recordAt count start (by omega) hr

/-- **What a read of row ranges appends comes from their rows, range by range.** -/
theorem readRowRanges_rows : ∀ {rs : List (Nat × Nat)} {out : List ScalarRecord}, readRowRanges f rs out = .ok res →
    ∃ read, res = out ++ read ∧ List.Forall₂ (RecordAt f) (indices rs) read
  | [], out, h => ⟨[], by rw [List.append_nil, Except.ok.inj h], .nil⟩
  | r :: rs, out, h => by
    unfold readRowRanges at h
    split at h
    · cases h
    · rename_i hle
      cases hspan : appendRecordSpan scalarAppendTexts f r.1 (r.2 - r.1 + 1) out with
      | error e =>
        rw [hspan] at h
        cases h
      | ok out' =>
        rw [hspan] at h
        obtain ⟨read, rfl, hread⟩ := appendRecordSpan_rows hspan
        obtain ⟨rest, rfl, hrest⟩ := readRowRanges_rows h
        refine ⟨read ++ rest, List.append_assoc _ _ _, ?_⟩
        unfold indices at hrest ⊢
        rw [List.flatMap_cons, show r.2 + 1 - r.1 = r.2 - r.1 + 1 by omega]
        exact List.rel_append hread hrest

/-- **Merging row ranges**: the ranges are sorted with a gap between any two, and cover the rows that were covered
before; a read of them goes to each of these rows once, in order. -/
theorem merge_row_ranges_exact {ranges : List (Nat × Nat)} (h : ∀ r ∈ ranges, r.1 ≤ r.2 ∧ r.2 ≤ u32Max) :
    (mergeRowRanges ranges).Pairwise (fun a b => a.2 + 1 < b.1) ∧ (∀ r ∈ mergeRowRanges ranges, r.1 ≤ r.2 ∧
      r.2 ≤ u32Max) ∧
    (∀ i, Covers (mergeRowRanges ranges) i ↔ Covers ranges i) ∧
    ∃ rows : List Nat, rows.Pairwise (· < ·) ∧ (∀ i, i ∈ rows ↔ Covers ranges i) ∧
      ∀ (f : ChunkFile) read, readRowRanges f (mergeRowRanges ranges) [] = .ok read →
        List.Forall₂ (RecordAt f) rows read := by
  obtain ⟨hgaps, hin⟩ := merge_gaps h
  have hcovers := covers_merge h
  refine ⟨hgaps, hin, hcovers, indices (mergeRowRanges ranges), indices_sorted (hgaps.imp (fun hab => by omega)),
    fun i => mem_indices.trans (hcovers i), fun f read hread => ?_⟩
  obtain ⟨rest, rfl, hrest⟩ := readRowRanges_rows hread
  exact hrest

/-- Out of order, nested, adjacent, and up to the greatest row number. -/
theorem merge_row_ranges_exact_sample :
    (∀ i, Covers (mergeRowRanges [(9, 4294967295), (0, 3), (4294967290, 4294967295), (1, 2), (4, 6)]) i ↔
      Covers [(9, 4294967295), (0, 3), (4294967290, 4294967295), (1, 2), (4, 6)] i) ∧
    mergeRowRanges [(9, 4294967295), (0, 3), (4294967290, 4294967295), (1, 2), (4, 6)] = [(0, 6), (9, 4294967295)] := by
  have h : ∀ r ∈ [(9, 4294967295), (0, 3), (4294967290, 4294967295), (1, 2), (4, 6)], r.1 ≤ r.2 ∧
    r.2 ≤ u32Max := by decide
  exact ⟨(merge_row_ranges_exact h).2.2.1, by decide⟩

end Rows

end FastK
