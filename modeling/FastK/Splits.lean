import FastK.Batches
import Mathlib.Data.List.SplitBy
/-!
# The two splitters

A range append cuts its records by jumping to the start of the next month (`monthBatches`), a tick write by comparing
the key of each record with the one before (`splitFixedRecordsByPartition`).  Both give the same thing, a cut of the
records where their partition changes, and there is only one (`Cut.unique`).  They differ in what they refuse: the
first needs the month after each record's, which the last month of chrono's calendar lacks, and the second refuses the
empty list.
-/
namespace FastK

section Splits

variable {R : Type} [FixedRecord R] {u : PartitionUnit} {records : List R} {batches : List (Text × List R)}

/-- Batches of the records in order: none is empty, each holds records of the partition it names, neighbours name
different partitions, and so do any two. -/
structure Cut (u : PartitionUnit) (records : List R) (batches : List (Text × List R)) : Prop where
  nonempty : ∀ b ∈ batches, b.2 ≠ []
  joined : batches.flatMap Prod.snd = records
  keyed : ∀ b ∈ batches, ∀ r ∈ b.2, partitionKey (FixedRecord.ts r) u = .ok b.1
  adjacent : batches.IsChain (fun a b => a.1 ≠ b.1)
  distinct : (batches.map Prod.fst).Nodup

theorem Cut.of_pieces (hflat : batches.flatMap Prod.snd = records) (hpieces : ∀ b ∈ batches, Piece u b)
    (hpair : batches.Pairwise (fun a b => a.1 ≠ b.1)) : Cut u records batches where
  nonempty b hb := (hpieces b hb).1
  joined := hflat
  keyed b hb := (hpieces b hb).2
  adjacent := hpair.isChain
  distinct := List.pairwise_map.2 hpair

/-! ## There is only one cut -/

def samePartition (u : PartitionUnit) (a b : R) : Bool :=
  decide (partitionKey (FixedRecord.ts a) u = partitionKey (FixedRecord.ts b) u)

/-- The batches are the runs of records whose keys are equal. -/
theorem Cut.splitBy_eq (h : Cut u records batches) : records.splitBy (samePartition u) = batches.map Prod.snd := by
  rw [List.splitBy_eq_iff]
  refine ⟨?_, fun hnil => ?_, fun rows hrows => ?_, ?_⟩
  · rw [← h.joined, List.flatMap_def]
  · obtain ⟨b, hb, hnil⟩ := List.mem_map.1 hnil
    exact h.nonempty b hb hnil
  · obtain ⟨b, hb, rfl⟩ := List.mem_map.1 hrows
    refine (List.Pairwise.isChain (List.pairwise_of_forall_mem_list (fun x hx y hy => ?_)))
    exact decide_eq_true ((h.keyed b hb x hx).trans (h.keyed b hb y hy).symm)
  · rw [List.isChain_map]
    refine h.adjacent.imp_of_mem_imp (fun a b ha hb hne => ?_)
    refine ⟨h.nonempty a ha, h.nonempty b hb, decide_eq_false (fun heq => hne ?_)⟩
    rw [h.keyed a ha _ (List.getLast_mem _), h.keyed b hb _ (List.head_mem _)] at heq
    exact Except.ok.inj heq

/-- **The records determine the batches.** -/
theorem Cut.unique {batches' : List (Text × List R)} (h : Cut u records batches) (h' : Cut u records batches') :
    batches = batches' := by
  have hrows := h.splitBy_eq.symm.trans h'.splitBy_eq
  have hlen : batches.length = batches'.length := by simpa using congrArg List.length hrows
  refine List.ext_getElem hlen (fun i hi hi' => ?_)
  have hb := List.getElem_mem hi
  have hb' := List.getElem_mem hi'
  have hsnd : batches[i].2 = batches'[i].2 := by
    have := congrArg (fun l => l[i]?) hrows
    simpa [hi, hi'] using this
  obtain ⟨r, hr⟩ := List.exists_mem_of_ne_nil _ (h.nonempty _ hb)
  have hk := h.keyed _ hb r hr
  rw [h'.keyed _ hb' r (hsnd ▸ hr)] at hk
  exact Prod.ext (Except.ok.inj hk).symm hsnd

/-! ## Cutting at month starts -/

/-- Each round takes the first record at least, so more rounds than there are records make no difference. -/
theorem monthBatchesFrom_rounds : ∀ {n m : Nat} {records : List R}, Ordered records → records.length ≤ n →
    records.length ≤ m →
    monthBatchesFrom n records = monthBatchesFrom m records
  | 0, 0, _, _, _, _ => rfl
  | 0, _ + 1, [], _, _, _ => rfl
  | _ + 1, 0, [], _, _, _ => rfl
  | _ + 1, _ + 1, [], _, _, _ => rfl
  | 0, _, r :: rs, _, hn, _ => absurd hn (Nat.not_succ_le_zero _)
  | _, 0, r :: rs, _, _, hm => absurd hm (Nat.not_succ_le_zero _)
  | n + 1, m + 1, r :: rs, ho, hn, hm => by
    unfold monthBatchesFrom
    cases monthKey (FixedRecord.ts r) with
    | error e => rfl
    | ok month =>
      cases hs : nextMonthStart (FixedRecord.ts r) with
      | error e => rfl
      | ok stop =>
        simp only
        have hfirst : FixedRecord.ts r < stop := (nextMonthStart_spec hs _).2 (le_refl _)
        have hlt : ((r :: rs).drop (Search.partitionPoint
          (fun x => decide (FixedRecord.ts x < stop)) (r :: rs))).length < (r :: rs).length := by
          rw [(monthBatch_count stop ho).2, List.length_filter_lt_length_iff_exists]
          exact ⟨r, List.mem_cons_self, by simpa using hfirst⟩
        rw [monthBatchesFrom_rounds (ho.sublist (List.drop_sublist _ _)) (show _ ≤ n by omega) (show _ ≤ m by omega)]

/-- A record in the month of one that has a next month has it too. -/
theorem inCalendar_of_piece {a b stop : Int} {month : Text} (hs : nextMonthStart a = .ok stop)
    (ha : monthKey a = .ok month) (hb : partitionKey b .month = .ok month) : InCalendar b := by
  have hslot : Calendar.monthIndex (dayOfTs b) = Calendar.monthIndex (dayOfTs a) := slot_eq_of_key (u := .month) hb ha
  refine inCalendar_iff.2 ⟨(partitionKey_ok hb).1, ?_⟩
  rw [hslot]
  exact (inCalendar_iff.1 ⟨⟨month, ha⟩, stop, hs⟩).2

theorem inCalendar_of_monthBatchesFrom : ∀ {fuel : Nat} {records : List R}
    {out : List (Text × List R)}, records.length ≤ fuel →
    Ordered records → monthBatchesFrom fuel records = .ok out → ∀ r ∈ records, InCalendar (FixedRecord.ts r)
  | _, [], _, _, _, _ => fun r hr => absurd hr List.not_mem_nil
  | 0, r :: rs, _, hf, _, _ => absurd hf (Nat.not_succ_le_zero _)
  | fuel + 1, r :: rs, out, hf, ho, h => by
    have hspec := monthBatchesFrom_spec hf ho h
    unfold monthBatchesFrom at h
    cases hm : monthKey (FixedRecord.ts r) with
    | error e => rw [hm] at h; cases h
    | ok month =>
      cases hs : nextMonthStart (FixedRecord.ts r) with
      | error e => rw [hm, hs] at h; cases h
      | ok stop =>
        rw [hm, hs] at h
        simp only at h
        cases hrest : monthBatchesFrom fuel
            ((r :: rs).drop (Search.partitionPoint (fun x => decide (FixedRecord.ts x < stop)) (r :: rs))) with
        | error e => rw [hrest] at h; cases h
        | ok rest =>
          rw [hrest] at h
          obtain rfl := Except.ok.inj h
          have hfirst : FixedRecord.ts r < stop := (nextMonthStart_spec hs _).2 (le_refl _)
          have hlt : ((r :: rs).drop (Search.partitionPoint
            (fun x => decide (FixedRecord.ts x < stop)) (r :: rs))).length < (r :: rs).length := by
            rw [(monthBatch_count stop ho).2, List.length_filter_lt_length_iff_exists]
            exact ⟨r, List.mem_cons_self, by simpa using hfirst⟩
          have hlater := inCalendar_of_monthBatchesFrom (show _ ≤ fuel by omega)
            (ho.sublist (List.drop_sublist _ _)) hrest
          intro x hx
          rw [← List.take_append_drop (Search.partitionPoint (fun x => decide (FixedRecord.ts x < stop)) (r :: rs))
            (r :: rs)] at hx
          rcases List.mem_append.1 hx with hx | hx
          · exact inCalendar_of_piece hs hm ((hspec.2.1 _ List.mem_cons_self).2 x hx)
          · exact hlater x hx

/-- **The first splitter answers for the records whose months are all followed by another.** -/
theorem monthBatches_ok_iff (ho : Ordered records) : (∃ out, monthBatches records = .ok out) ↔
    ∀ r ∈ records, InCalendar (FixedRecord.ts r) := by
  refine ⟨fun ⟨out, h⟩ => ?_, monthBatches_ok ho⟩
  cases records with
  | nil => exact fun r hr => absurd hr List.not_mem_nil
  | cons r rs =>
    unfold monthBatches at h
    rw [if_neg (by simp), validateStrictOrder_eq_ok.2 ⟨List.cons_ne_nil _ _, ho⟩] at h
    exact inCalendar_of_monthBatchesFrom (le_refl _) ho h

theorem monthBatches_cut {out : List (Text × List R)} (h : monthBatches records = .ok out) :
    Cut .month records out := by
  obtain ⟨-, hflat, hpieces, hpair⟩ := monthBatches_spec h
  exact .of_pieces hflat hpieces hpair

/-! ## Cutting where the key changes -/

theorem splitFrom_ok_iff (hu : u.isTimeBased = true) : ∀ {records : List R} {key : Text} {batch : List R},
    (∃ out, splitFrom u key batch records = .ok out) ↔ ∀ r ∈ records, TsInRange (FixedRecord.ts r)
  | [], _, _ => iff_of_true ⟨_, rfl⟩ (fun r hr => absurd hr List.not_mem_nil)
  | r :: rs, key, batch => by
    unfold splitFrom
    rw [List.forall_mem_cons]
    by_cases hr : TsInRange (FixedRecord.ts r)
    · obtain ⟨next, hnext⟩ := partitionKey_of_inRange hr hu
      rw [hnext, and_iff_right hr]
      simp only
      split
      · have ih := @splitFrom_ok_iff hu rs next [r]
        rw [← ih]
        cases splitFrom u next [r] rs with
        | error e => exact iff_of_false (fun ⟨_, h⟩ => by cases h) (fun ⟨_, h⟩ => by cases h)
        | ok rest => exact iff_of_true ⟨_, rfl⟩ ⟨_, rfl⟩
      · exact splitFrom_ok_iff hu
    · refine iff_of_false (fun ⟨out, h⟩ => ?_) (fun h => hr h.1)
      cases hk : partitionKey (FixedRecord.ts r) u with
      | ok k => exact hr (partitionKey_ok hk).1
      | error e => rw [hk] at h; cases h

/-- **The second splitter answers for the records, one at least, whose timestamps chrono represents.** -/
theorem splitFixedRecordsByPartition_ok_iff (hu : u.isTimeBased = true) :
    (∃ out, splitFixedRecordsByPartition records u = .ok out) ↔ records ≠ [] ∧
      ∀ r ∈ records, TsInRange (FixedRecord.ts r) := by
  cases records with
  | nil => exact iff_of_false (fun ⟨_, h⟩ => by cases h) (fun h => h.1 rfl)
  | cons r rs =>
    unfold splitFixedRecordsByPartition
    rw [List.forall_mem_cons, and_iff_right (List.cons_ne_nil r rs)]
    simp only
    cases hk : partitionKey (FixedRecord.ts r) u with
    | ok key =>
      rw [and_iff_right (partitionKey_ok hk).1]
      exact splitFrom_ok_iff hu
    | error e =>
      refine iff_of_false (fun ⟨_, h⟩ => by cases h) (fun h => ?_)
      obtain ⟨key, hkey⟩ := partitionKey_of_inRange h.1 hu
      rw [hk] at hkey
      cases hkey

theorem splitFixedRecordsByPartition_cut {out : List (Text × List R)} (ho : Ordered records)
    (h : splitFixedRecordsByPartition records u = .ok out) :
    Cut u records out := by
  obtain ⟨hflat, hpieces, hpair⟩ := splitFixedRecordsByPartition_spec h ho
  exact .of_pieces hflat hpieces hpair

/-- **Both splitters cut the records where their partition changes**, the first in as many rounds as there are records
at most, and wherever the first answers for some records the second gives the same months. -/
theorem splitters_cut (records : List R) (ho : Ordered records) :
    (∀ rounds, records.length ≤ rounds → monthBatchesFrom rounds records = monthBatchesFrom records.length records) ∧
    ((∃ out, monthBatches records = .ok out) ↔ ∀ r ∈ records, InCalendar (FixedRecord.ts r)) ∧
    (∀ out, monthBatches records = .ok out → Cut .month records out) ∧
    (∀ unit : PartitionUnit, unit.isTimeBased = true →
      ((∃ out, splitFixedRecordsByPartition records unit = .ok out) ↔ records ≠ [] ∧ ∀ r ∈ records,
        TsInRange (FixedRecord.ts r)) ∧
      ∀ out, splitFixedRecordsByPartition records unit = .ok out → Cut unit records out) ∧
    (records ≠ [] → (∀ r ∈ records, InCalendar (FixedRecord.ts r)) →
      splitFixedRecordsByPartition records .month = monthBatches records) := by
  refine ⟨fun rounds h => monthBatchesFrom_rounds ho h (le_refl _), monthBatches_ok_iff ho, fun out => monthBatches_cut,
    fun unit hu => ⟨splitFixedRecordsByPartition_ok_iff hu, fun out => splitFixedRecordsByPartition_cut ho⟩,
      fun hne hin => ?_⟩
  obtain ⟨months, hmonths⟩ := (monthBatches_ok_iff ho).2 hin
  obtain ⟨parts, hparts⟩ := (splitFixedRecordsByPartition_ok_iff (u := .month) rfl).2 ⟨hne, fun r hr =>
    (inCalendar_iff.1 (hin r hr)).1⟩
  rw [hmonths, hparts, (splitFixedRecordsByPartition_cut ho hparts).unique (monthBatches_cut hmonths)]

/-- The last rows of 1969, the first of 1970 and one of its second month. -/
def yearEndRows : List KlineRecord := [-86400000, -60000, -1, 0, 2678400000].map sampleKline

theorem splitters_cut_sample :
    Ordered yearEndRows ∧ splitFixedRecordsByPartition yearEndRows .month = monthBatches yearEndRows ∧
    ∃ out, monthBatches yearEndRows = .ok out ∧ Cut .month yearEndRows out := by
  have ho : Ordered yearEndRows := ordered_klines.2 (by decide)
  have hin : ∀ r ∈ yearEndRows, InCalendar (FixedRecord.ts r) := by decide +kernel
  obtain ⟨-, hok, hcut, -, hsame⟩ := splitters_cut yearEndRows ho
  obtain ⟨out, hout⟩ := hok.2 hin
  exact ⟨ho, hsame (List.cons_ne_nil _ _) hin, out, hout, hcut out hout⟩

/-- A row of the last day of chrono's calendar. -/
def lastDayRows : List KlineRecord := [sampleKline (maxDay * msPerDay)]

/-- The last month has no next one, the day after it has no month, and no rows have no batch. -/
theorem splitters_differ :
    monthBatches lastDayRows = .error (.invalidInput "timestamp outside supported UTC month range") ∧
    splitFixedRecordsByPartition lastDayRows .month = .ok [(("262142-12" : Text), lastDayRows)] ∧
    (monthBatches [sampleKline ((maxDay + 1) * msPerDay)]).toOption = none ∧
    monthBatches ([] : List KlineRecord) = .ok [] ∧
    splitFixedRecordsByPartition ([] : List KlineRecord) .month =
      .error (.invalidInput "records must not be empty") := by
  decide +kernel

end Splits

end FastK
