import FastK.Reader
/-!
# Scalar predicates and their indexes

The predicates on scalar values (`feature/query.rs`) and the two sidecar indexes of a chunk: the zone map with the least
and greatest value of every block (`index/zmap.rs`) and the value index sorted by value (`index/vix.rs`).  Each prunes
soundly: a row that satisfies the predicate lies in a candidate block (`zoneMap_covers`), and the slices of the value
index hold every entry that satisfies it once (`matchingSlices_perm`).
-/
namespace FastK

open Search Spans Ranges

/-! ## Predicates -/

inductive ScalarPredicateExpr where
  | eq (target : Int)
  | ne (target : Int)
  | gt (target : Int)
  | gte (target : Int)
  | lt (target : Int)
  | lte (target : Int)
  | between (min max : Int) (inclusive : Bool)
  | inSet (values : List Int)
  | notInSet (values : List Int)
  deriving DecidableEq, Repr

namespace ScalarPredicateExpr

def «matches» : ScalarPredicateExpr → Int → Bool
  | eq target, value => decide (value = target)
  | ne target, value => decide (value ≠ target)
  | gt target, value => decide (target < value)
  | gte target, value => decide (target ≤ value)
  | lt target, value => decide (value < target)
  | lte target, value => decide (value ≤ target)
  | between min max true, value => decide (min ≤ value ∧ value ≤ max)
  | between min max false, value => decide (min < value ∧ value < max)
  | inSet values, value => values.contains value
  | notInSet values, value => !values.contains value

/-- Only bounds in the wrong order are refused. -/
def validate : ScalarPredicateExpr → Result Unit
  | between min max _ =>
    if max < min then
      .error (.invalidInput (words ["between predicate min ", showInt min, " must be <= max ", showInt max]))
    else .ok ()
  | _ => .ok ()

def isContinuousRangeLike : ScalarPredicateExpr → Bool
  | gt _ | gte _ | lt _ | lte _ | between _ _ _ => true
  | _ => false

def isDiscreteLookupLike : ScalarPredicateExpr → Bool
  | eq _ | inSet _ => true
  | _ => false

def isImpossible : ScalarPredicateExpr → Bool
  | inSet values => values.isEmpty
  | _ => false

/-- Some value between `minValue` and `maxValue` may satisfy the predicate. -/
def mayMatchValueRange (p : ScalarPredicateExpr) (minValue maxValue : Int) : Bool :=
  match p with
  | eq target => decide (minValue ≤ target ∧ target ≤ maxValue)
  | ne target => !decide (minValue = target ∧ maxValue = target)
  | gt target => decide (target < maxValue)
  | gte target => decide (target ≤ maxValue)
  | lt target => decide (minValue < target)
  | lte target => decide (minValue ≤ target)
  | between min max true => decide (min ≤ maxValue ∧ minValue ≤ max)
  | between min max false => decide (min < maxValue ∧ minValue < max)
  | inSet values => values.any (fun value => decide (minValue ≤ value ∧ value ≤ maxValue))
  | notInSet values => values.isEmpty || !(decide (minValue = maxValue) && values.contains minValue)

/-- **Pruning by least and greatest value loses nothing**: a value between them that satisfies the predicate keeps its
block. -/
theorem mayMatch_of_matches (p : ScalarPredicateExpr) {lo hi v : Int} (hlo : lo ≤ v) (hhi : v ≤ hi)
    (h : p.matches v = true) : p.mayMatchValueRange lo hi = true := by
  cases p with
  | eq target => simp only [«matches», mayMatchValueRange, decide_eq_true_eq] at h ⊢; omega
  | ne target =>
    simp only [«matches», mayMatchValueRange, decide_eq_true_eq, Bool.not_eq_true', decide_eq_false_iff_not] at h ⊢
    omega
  | gt target => simp only [«matches», mayMatchValueRange, decide_eq_true_eq] at h ⊢; omega
  | gte target => simp only [«matches», mayMatchValueRange, decide_eq_true_eq] at h ⊢; omega
  | lt target => simp only [«matches», mayMatchValueRange, decide_eq_true_eq] at h ⊢; omega
  | lte target => simp only [«matches», mayMatchValueRange, decide_eq_true_eq] at h ⊢; omega
  | between min max inclusive =>
    cases inclusive <;> simp only [«matches», mayMatchValueRange, decide_eq_true_eq] at h ⊢ <;> omega
  | inSet values =>
    simp only [«matches», List.contains_iff_mem] at h
    exact List.any_eq_true.2 ⟨v, h, by simpa using ⟨hlo, hhi⟩⟩
  | notInSet values =>
    simp only [«matches», Bool.not_eq_true', List.contains_eq_mem, decide_eq_false_iff_not] at h
    simp only [mayMatchValueRange, Bool.or_eq_true, Bool.not_eq_true', Bool.and_eq_false_iff, decide_eq_false_iff_not,
      List.contains_eq_mem]
    by_cases heq : lo = hi
    · have : lo = v := by omega
      exact .inr (.inr (this ▸ h))
    · exact .inr (.inl heq)

end ScalarPredicateExpr

/-! ## Zone maps -/

structure ZoneMapEntry where
  startRow : Nat
  endRow : Nat
  startTs : Int
  endTs : Int
  minValue : Int
  maxValue : Int
  deriving DecidableEq, Repr

def ZoneMapEntry.toLeBytes (e : ZoneMapEntry) : List Nat :=
  [(e.startRow : Int), e.endRow].flatMap (leBytes 4) ++ [e.startTs, e.endTs, e.minValue, e.maxValue].flatMap (leBytes 8)

/-- The summary of one block; row numbers are 32 bits wide. -/
def zoneMapEntryOf (blockSize : Nat) (block : List ScalarRecord) (blockIdx : Nat) : ZoneMapEntry where
  startRow := blockIdx * blockSize % 2 ^ 32
  endRow := blockIdx * blockSize % 2 ^ 32 + block.length % 2 ^ 32 - 1
  startTs := firstTs block
  endTs := lastTs block
  minValue := block.foldl (fun acc r => min acc r.value.val) i64Max
  maxValue := block.foldl (fun acc r => max acc r.value.val) i64Min

/-- `zmap::build_entries`. -/
def zmapBuildEntries (records : List ScalarRecord) (blockSize : Nat) : Result (List ZoneMapEntry) :=
  if blockSize = 0 then .error (.invalidInput "zone-map block_size must be greater than zero")
  else if records.isEmpty then .ok []
  else
    match ScalarRecord.validateStrictOrder records with
    | .error e => .error e
    | .ok () =>
      if u32Max < records.length then
        .error (.invalidInput "zone-map supports at most u32::MAX rows per record slice")
      else .ok ((blocks blockSize records).zipIdx.map (fun b => zoneMapEntryOf blockSize b.1 b.2))

/-- `zmap::candidate_row_ranges_for_expr`. -/
def candidateRowRangesForExpr (entries : List ZoneMapEntry) (predicate : ScalarPredicateExpr) (startTs endTs : Int) :
    Result (List (Nat × Nat)) :=
  match predicate.validate with
  | .error e => .error e
  | .ok () =>
    .ok ((entries.filter (fun e => !decide (e.endTs < startTs ∨ endTs < e.startTs) &&
      predicate.mayMatchValueRange e.minValue e.maxValue)).map (fun e => (e.startRow, e.endRow)))

theorem foldl_min_le {l : List ScalarRecord} : ∀ (acc : Int), l.foldl (fun acc r => min acc r.value.val) acc ≤ acc ∧
    ∀ r ∈ l, l.foldl (fun acc r => min acc r.value.val) acc ≤ r.value.val := by
  induction l with
  | nil => intro acc; exact ⟨le_refl _, by simp⟩
  | cons a l ih =>
    intro acc
    rw [List.foldl_cons]
    obtain ⟨h1, h2⟩ := ih (min acc a.value.val)
    refine ⟨le_trans h1 (min_le_left _ _), fun r hr => ?_⟩
    rcases List.mem_cons.1 hr with rfl | hr
    · exact le_trans h1 (min_le_right _ _)
    · exact h2 r hr

theorem le_foldl_max {l : List ScalarRecord} : ∀ (acc : Int), acc ≤ l.foldl (fun acc r => max acc r.value.val) acc ∧
    ∀ r ∈ l, r.value.val ≤ l.foldl (fun acc r => max acc r.value.val) acc := by
  induction l with
  | nil => intro acc; exact ⟨le_refl _, by simp⟩
  | cons a l ih =>
    intro acc
    rw [List.foldl_cons]
    obtain ⟨h1, h2⟩ := ih (max acc a.value.val)
    refine ⟨le_trans (le_max_left _ _) h1, fun r hr => ?_⟩
    rcases List.mem_cons.1 hr with rfl | hr
    · exact le_trans (le_max_right _ _) h1
    · exact h2 r hr

/-- What the entries of a zone map say about the rows they were built from. -/
structure ZoneMapOf (entries : List ZoneMapEntry) (rows : List ScalarRecord) : Prop where
  rowsIn : ∀ e ∈ entries, e.startRow ≤ e.endRow ∧ e.endRow < rows.length
  length_le : rows.length ≤ u32Max
  complete : ∀ i r, rows[i]? = some r → ∃ e ∈ entries, e.startRow ≤ i ∧ i ≤ e.endRow ∧ e.startTs ≤ r.ts ∧
    r.ts ≤ e.endTs ∧
    e.minValue ≤ r.value.val ∧ r.value.val ≤ e.maxValue

/-- The row numbers of the entry of block `j`: they fit 32 bits when the rows do. -/
theorem zoneMapEntryOf_rows {rows : List ScalarRecord} {blockSize j : Nat} (hb : 1 ≤ blockSize)
    (hu : rows.length < 2 ^ 32) (hj : j * blockSize < rows.length) :
    (zoneMapEntryOf blockSize (between rows (j * blockSize) (j * blockSize + blockSize)) j).startRow = j * blockSize ∧
    (zoneMapEntryOf blockSize (between rows (j * blockSize) (j * blockSize + blockSize)) j).endRow
      = min (j * blockSize + blockSize) rows.length - 1 := by
  have hl : (between rows (j * blockSize) (j * blockSize + blockSize)).length
      = min (j * blockSize + blockSize) rows.length - j * blockSize := by
    unfold between
    rw [List.length_take, List.length_drop]
    omega
  unfold zoneMapEntryOf
  simp only
  rw [hl, Nat.mod_eq_of_lt (by omega : j * blockSize < 2 ^ 32),
    Nat.mod_eq_of_lt (by omega : min (j * blockSize + blockSize) rows.length - j * blockSize < 2 ^ 32)]
  omega

/-- **A zone map summarises its rows**, whatever the block size. -/
theorem zoneMapOf_build {rows : List ScalarRecord} {blockSize : Nat} {entries : List ZoneMapEntry} (hne : rows ≠ [])
    (h : zmapBuildEntries rows blockSize = .ok entries) : ZoneMapOf entries rows := by
  unfold zmapBuildEntries at h
  by_cases hb : blockSize = 0
  · rw [if_pos hb] at h; cases h
  rw [if_neg hb, if_neg (by simpa using hne)] at h
  cases hv : ScalarRecord.validateStrictOrder rows with
  | error e => rw [hv] at h; cases h
  | ok u =>
    rw [hv] at h
    simp only at h
    by_cases hlen : u32Max < rows.length
    · rw [if_pos hlen] at h; cases h
    rw [if_neg hlen] at h
    obtain rfl := Except.ok.inj h
    have ho := (ScalarRecord.validateStrictOrder_ok.1 hv).2
    have hbs : 1 ≤ blockSize := by omega
    have hu : rows.length < 2 ^ 32 := by unfold u32Max at hlen; omega
    have hentry := fun j => @zoneMapEntryOf_rows rows _ j hbs hu
    refine ⟨fun e he => ?_, by omega, fun i r hr => ?_⟩
    · rw [List.mem_map] at he
      obtain ⟨⟨block, j⟩, hmem, rfl⟩ := he
      rw [List.mem_zipIdx_iff_getElem?, blocks_getElem? hbs] at hmem
      simp only at hmem
      split at hmem
      · rename_i hj
        obtain rfl := Option.some.inj hmem
        obtain ⟨h1, h2⟩ := hentry j hj
        rw [h1, h2]
        omega
      · cases hmem
    · obtain ⟨hblock, hin⟩ := blocks_of_getElem? hbs hr
      have hi := (List.getElem?_eq_some_iff.1 hr).1
      have hd := Nat.div_add_mod i blockSize
      have hm := Nat.mod_lt i (show 0 < blockSize by omega)
      rw [Nat.mul_comm] at hd
      obtain ⟨h1, h2⟩ := hentry (i / blockSize) (by omega)
      have hob : Ordered (between rows (i / blockSize * blockSize) (i / blockSize * blockSize + blockSize)) :=
        List.Pairwise.sublist ((List.take_sublist _ _).trans (List.drop_sublist _ _)) ho
      refine ⟨_, List.mem_map.2 ⟨(_, i / blockSize), List.mem_zipIdx_iff_getElem?.2 hblock, rfl⟩, ?_, ?_,
        firstTs_le hob hin, le_lastTs hob hin, (foldl_min_le _).2 r hin, (le_foldl_max _).2 r hin⟩
      · exact le_of_eq_of_le h1 (by omega)
      · exact le_of_le_of_eq (by omega) h2.symm

/-- **A row that satisfies the predicate in range lies in a candidate block.** -/
theorem zoneMap_covers {entries : List ZoneMapEntry} {rows : List ScalarRecord} (hz : ZoneMapOf entries rows)
    {p : ScalarPredicateExpr} {s e : Int} {ranges : List (Nat × Nat)}
    (hr : candidateRowRangesForExpr entries p s e = .ok ranges) :
    (∀ r ∈ ranges, r.1 ≤ r.2 ∧ r.2 < rows.length) ∧ ∀ i r, rows[i]? = some r → s ≤ r.ts → r.ts ≤ e →
      p.matches r.value.val = true → Covers ranges i := by
  unfold candidateRowRangesForExpr at hr
  cases hv : p.validate with
  | error err => rw [hv] at hr; cases hr
  | ok u =>
    rw [hv] at hr
    obtain rfl := Except.ok.inj hr
    refine ⟨fun r hr => ?_, fun i r hi h1 h2 hm => ?_⟩
    · obtain ⟨entry, hentry, rfl⟩ := List.mem_map.1 hr
      exact hz.rowsIn entry (List.mem_filter.1 hentry).1
    · obtain ⟨entry, hentry, ha, hb, hc, hd, hlo, hhi⟩ := hz.complete i r hi
      refine ⟨(entry.startRow, entry.endRow), List.mem_map.2 ⟨entry, List.mem_filter.2 ⟨hentry, ?_⟩, rfl⟩, ha, hb⟩
      rw [Bool.and_eq_true, p.mayMatch_of_matches hlo hhi hm]
      refine ⟨?_, rfl⟩
      simp only [Bool.not_eq_true', decide_eq_false_iff_not]
      omega

/-! ## Value indexes -/

structure ValueIndexEntry where
  value : Int
  ts : Int
  deriving DecidableEq, Repr

def ValueIndexEntry.toLeBytes (e : ValueIndexEntry) : List Nat := [e.value, e.ts].flatMap (leBytes 8)

/-- The order of the key `(value, ts)`. -/
def ValueIndexEntry.Le (a b : ValueIndexEntry) : Prop := a.value < b.value ∨ a.value = b.value ∧ a.ts ≤ b.ts

instance : DecidableRel ValueIndexEntry.Le := fun a b =>
  inferInstanceAs (Decidable (a.value < b.value ∨ a.value = b.value ∧ a.ts ≤ b.ts))

instance : IsTrans ValueIndexEntry ValueIndexEntry.Le := ⟨fun a b c h1 h2 => by unfold ValueIndexEntry.Le at *; omega⟩

instance : Std.Total ValueIndexEntry.Le := ⟨fun a b => by unfold ValueIndexEntry.Le; omega⟩

def valueIndexEntryOf (r : ScalarRecord) : ValueIndexEntry := ⟨r.value.val, r.ts⟩

/-- `vix::build_entries`. -/
def vixBuildEntries (records : List ScalarRecord) : List ValueIndexEntry :=
  (records.map valueIndexEntryOf).insertionSort ValueIndexEntry.Le

/-- `Vec::dedup`. -/
def dedupAdjacent : List Int → List Int
  | [] => []
  | [a] => [a]
  | a :: b :: rest => if a = b then dedupAdjacent (b :: rest) else a :: dedupAdjacent (b :: rest)

def vixLowerBound (entries : List ValueIndexEntry) (target : Int) : Nat :=
  partitionPoint (fun e => decide (e.value < target)) entries

def vixUpperBound (entries : List ValueIndexEntry) (target : Int) : Nat :=
  partitionPoint (fun e => decide (e.value ≤ target)) entries

/-- `vix::matching_slices_for_expr`: half-open slices, the empty ones dropped. -/
def matchingSlicesForExpr (entries : List ValueIndexEntry) (predicate : ScalarPredicateExpr) :
    Result (List (Nat × Nat)) :=
  match predicate.validate with
  | .error e => .error e
  | .ok () =>
    if entries.isEmpty then .ok []
    else
      let len := entries.length
      let ranges : List (Nat × Nat) :=
        match predicate with
        | .eq value => [(vixLowerBound entries value, vixUpperBound entries value)]
        | .inSet values => ((dedupAdjacent (values.insertionSort (· ≤ ·))).map
            (fun value => (vixLowerBound entries value, vixUpperBound entries value))).filter (fun r =>
              decide (r.1 < r.2))
        | .gt value => [(vixUpperBound entries value, len)]
        | .gte value => [(vixLowerBound entries value, len)]
        | .lt value => [(0, vixLowerBound entries value)]
        | .lte value => [(0, vixUpperBound entries value)]
        | .between min max inclusive =>
          [(if inclusive then vixLowerBound entries min else vixUpperBound entries min,
            if inclusive then vixUpperBound entries max else vixLowerBound entries max)]
        | .ne _ | .notInSet _ => [(0, len)]
      .ok (ranges.filter (fun r => decide (r.1 < r.2)))

theorem mem_dedupAdjacent {x : Int} : ∀ {l : List Int}, x ∈ dedupAdjacent l ↔ x ∈ l
  | [] => Iff.rfl
  | [a] => Iff.rfl
  | a :: b :: rest => by
    unfold dedupAdjacent
    have ih : x ∈ dedupAdjacent (b :: rest) ↔ x ∈ b :: rest := mem_dedupAdjacent
    split
    · rename_i hab
      rw [ih, hab]
      simp
    · rw [List.mem_cons, ih, List.mem_cons (a := x) (b := a)]

theorem dedupAdjacent_sorted : ∀ {l : List Int}, l.Pairwise (· ≤ ·) → (dedupAdjacent l).Pairwise (· < ·)
  | [], _ => List.Pairwise.nil
  | [a], _ => List.pairwise_singleton _ _
  | a :: b :: rest, h => by
    unfold dedupAdjacent
    have ih : (dedupAdjacent (b :: rest)).Pairwise (· < ·) := dedupAdjacent_sorted h.of_cons
    split
    · exact ih
    · rename_i hab
      refine List.pairwise_cons.2 ⟨fun x hx => ?_, ih⟩
      have h1 := List.rel_of_pairwise_cons h (show b ∈ b :: rest by simp)
      rcases List.mem_cons.1 (mem_dedupAdjacent.1 hx) with rfl | hx
      · omega
      · have := List.rel_of_pairwise_cons h.of_cons hx
        omega

/-- The entries are in order of their value. -/
def SortedByValue (entries : List ValueIndexEntry) : Prop := entries.Pairwise (fun a b => a.value ≤ b.value)

theorem vixBuildEntries_sorted (rows : List ScalarRecord) : SortedByValue (vixBuildEntries rows) :=
  (List.pairwise_insertionSort ValueIndexEntry.Le (rows.map valueIndexEntryOf)).imp (fun {a b} h => by
    unfold ValueIndexEntry.Le at h
    omega)

theorem vixBuildEntries_perm (rows : List ScalarRecord) : (vixBuildEntries rows).Perm (rows.map valueIndexEntryOf) :=
  List.perm_insertionSort _ _

section Slices

variable {entries : List ValueIndexEntry}

theorem partitioned_value_lt (h : SortedByValue entries) (t : Int) :
    Partitioned (fun e => decide (e.value < t)) entries :=
  partitioned_of_sorted ValueIndexEntry.value h (fun a b hab hb => by
    simp only [decide_eq_true_eq] at hb ⊢
    omega)

theorem partitioned_value_le (h : SortedByValue entries) (t : Int) :
    Partitioned (fun e => decide (e.value ≤ t)) entries :=
  partitioned_of_sorted ValueIndexEntry.value h (fun a b hab hb => by
    simp only [decide_eq_true_eq] at hb ⊢
    omega)

/-- Dropping empty slices drops nothing of what they hold. -/
theorem flatMap_filter_slices (entries : List ValueIndexEntry) : ∀ (rs : List (Nat × Nat)),
    (rs.filter (fun r => decide (r.1 < r.2))).flatMap (fun r => between entries r.1 r.2)
      = rs.flatMap (fun r => between entries r.1 r.2)
  | [] => rfl
  | r :: rs => by
    rw [List.flatMap_cons, ← flatMap_filter_slices entries rs]
    by_cases h : r.1 < r.2
    · rw [List.filter_cons_of_pos (by simpa using h), List.flatMap_cons]
    · rw [List.filter_cons_of_neg (by simpa using h), between_eq_nil (by omega), List.nil_append]

theorem between_vix_eq (h : SortedByValue entries) (v : Int) :
    between entries (vixLowerBound entries v) (vixUpperBound entries v) = entries.filter (fun e =>
      decide (e.value = v)) := by
  unfold vixLowerBound vixUpperBound
  rw [partitionPoint_eq (partitioned_value_lt h v), partitionPoint_eq (partitioned_value_le h v),
    between_countP (partitioned_value_lt h v) (partitioned_value_le h v)]
  refine List.filter_congr (fun e _ => ?_)
  rw [Bool.eq_iff_iff]
  simp only [Bool.and_eq_true, Bool.not_eq_true', decide_eq_true_eq, decide_eq_false_iff_not]
  omega

/-- The entries of distinct values, value by value. -/
theorem flatMap_values_perm (entries : List ValueIndexEntry) : ∀ (vs : List Int), vs.Nodup →
    (vs.flatMap (fun v => entries.filter (fun e => decide (e.value = v)))).Perm (entries.filter (fun e =>
      decide (e.value ∈ vs)))
  | [], _ => by simp
  | v :: vs, h => by
    obtain ⟨hv, hvs⟩ := List.nodup_cons.1 h
    rw [List.flatMap_cons]
    refine (List.Perm.append_left _ (flatMap_values_perm entries vs hvs)).trans ?_
    have hsplit := List.filter_append_perm (fun e : ValueIndexEntry => decide (e.value = v))
      (entries.filter (fun e => decide (e.value ∈ v :: vs)))
    rw [List.filter_filter, List.filter_filter] at hsplit
    refine (List.Perm.of_eq ?_).trans hsplit
    congr 1
    · refine List.filter_congr (fun e _ => ?_)
      rw [Bool.eq_iff_iff]
      simp only [Bool.and_eq_true, decide_eq_true_eq, List.mem_cons]
      tauto
    · refine List.filter_congr (fun e _ => ?_)
      rw [Bool.eq_iff_iff]
      simp only [Bool.and_eq_true, decide_eq_true_eq, Bool.not_eq_true', decide_eq_false_iff_not, List.mem_cons]
      constructor
      · exact fun hm => ⟨fun heq => hv (heq ▸ hm), .inr hm⟩
      · exact fun hm => hm.2.resolve_left hm.1

/-- One slice that holds every matching entry. -/
theorem slice_perm {p : ScalarPredicateExpr} {a b : Nat} {q : ValueIndexEntry → Bool}
    (hq : between entries a b = entries.filter q) (h : ∀ e, p.matches e.value = true → q e = true) :
    (([(a, b)].flatMap (fun r => between entries r.1 r.2)).filter (fun e => p.matches e.value)).Perm
      (entries.filter (fun e => p.matches e.value)) := by
  simp only [List.flatMap_singleton]
  rw [hq, List.filter_filter]
  refine List.Perm.of_eq (List.filter_congr (fun e _ => ?_))
  rw [Bool.eq_iff_iff, Bool.and_eq_true]
  exact ⟨fun hh => hh.1, fun hh => ⟨hh, h e hh⟩⟩

/-- **The slices of a value index hold every entry that satisfies the predicate, once.** -/
theorem matchingSlices_perm (hs : SortedByValue entries) {p : ScalarPredicateExpr} {slices : List (Nat × Nat)}
    (h : matchingSlicesForExpr entries p = .ok slices) :
    ((slices.flatMap (fun r => between entries r.1 r.2)).filter (fun e => p.matches e.value)).Perm
      (entries.filter (fun e => p.matches e.value)) := by
  unfold matchingSlicesForExpr at h
  cases hv : p.validate with
  | error err => rw [hv] at h; cases h
  | ok u =>
    rw [hv] at h
    simp only at h
    by_cases hem : entries.isEmpty = true
    · rw [if_pos hem] at h
      obtain rfl := Except.ok.inj h
      rw [List.isEmpty_iff.1 hem]
      rfl
    rw [if_neg hem] at h
    obtain rfl := Except.ok.inj h
    rw [flatMap_filter_slices]
    have hlt := fun t => partitioned_value_lt hs t
    have hle := fun t => partitioned_value_le hs t
    cases p with
    | eq value =>
      refine slice_perm (between_vix_eq hs value) (fun e he => ?_)
      simpa [ScalarPredicateExpr.matches] using he
    | ne value => exact slice_perm (q := fun _ => true) (by rw [between_all]; simp) (fun _ _ => rfl)
    | notInSet values => exact slice_perm (q := fun _ => true) (by rw [between_all]; simp) (fun _ _ => rfl)
    | gt value =>
      refine slice_perm (by rw [vixUpperBound, partitionPoint_eq (hle value), between_countP_length (hle value)])
        (fun e he => ?_)
      simpa [ScalarPredicateExpr.matches] using he
    | gte value =>
      refine slice_perm (by rw [vixLowerBound, partitionPoint_eq (hlt value), between_countP_length (hlt value)])
        (fun e he => ?_)
      simpa [ScalarPredicateExpr.matches] using he
    | lt value =>
      refine slice_perm (by rw [vixLowerBound, partitionPoint_eq (hlt value), between_zero_countP (hlt value)])
        (fun e he => ?_)
      simpa [ScalarPredicateExpr.matches] using he
    | lte value =>
      refine slice_perm (by rw [vixUpperBound, partitionPoint_eq (hle value), between_zero_countP (hle value)])
        (fun e he => ?_)
      simpa [ScalarPredicateExpr.matches] using he
    | between min max inclusive =>
      cases inclusive with
      | true =>
        refine slice_perm (a := vixLowerBound entries min) (b := vixUpperBound entries max)
          (by rw [vixLowerBound, vixUpperBound, partitionPoint_eq (hlt min), partitionPoint_eq (hle max),
            between_countP (hlt min) (hle max)]) (fun e he => ?_)
        simpa [ScalarPredicateExpr.matches] using he
      | false =>
        refine slice_perm (a := vixUpperBound entries min) (b := vixLowerBound entries max)
          (by rw [vixLowerBound, vixUpperBound, partitionPoint_eq (hle min), partitionPoint_eq (hlt max),
            between_countP (hle min) (hlt max)]) (fun e he => ?_)
        simpa [ScalarPredicateExpr.matches] using he
    | inSet values =>
      simp only
      rw [flatMap_filter_slices, List.flatMap_map]
      have hstep : (dedupAdjacent (values.insertionSort (· ≤ ·))).flatMap
          (fun v => between entries (vixLowerBound entries v) (vixUpperBound entries v))
          = (dedupAdjacent (values.insertionSort (· ≤ ·))).flatMap (fun v =>
            entries.filter (fun e => decide (e.value = v))) :=
        congrArg (fun f => List.flatMap f _) (funext (fun v => between_vix_eq hs v))
      rw [hstep]
      have hnd : (dedupAdjacent (values.insertionSort (· ≤ ·))).Nodup :=
        (dedupAdjacent_sorted (List.pairwise_insertionSort _ _)).imp (fun hab => ne_of_lt hab)
      refine ((flatMap_values_perm entries _ hnd).filter _).trans (List.Perm.of_eq ?_)
      rw [List.filter_filter]
      refine List.filter_congr (fun e _ => ?_)
      rw [Bool.eq_iff_iff]
      simp only [ScalarPredicateExpr.matches, Bool.and_eq_true, List.contains_eq_mem, decide_eq_true_eq,
        mem_dedupAdjacent, List.mem_insertionSort]
      exact and_self_iff

end Slices

end FastK
