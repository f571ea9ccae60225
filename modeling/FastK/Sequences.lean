import FastK.SeriesReader
/-!
# Sequence scans

`scan_fixed_sequence` reads the chunks of a range one after the other and compares the sequence number of every record
with the one before, which it carries from chunk to chunk.  The report is the fold of `observe_sequence` over the
records that the range read returns, apart from the count of chunks that had any (`scanFixedSequence_folds`), and it
lists every pair of neighbours by how their numbers compare (`ScanDescribes`).
-/
namespace FastK

/-! ## Reports -/

/-- A record type with a sequence number. -/
class SequencedRecord (R : Type) extends FixedRecord R where
  sequenceField : Text
  sequenceValue : R → Int

instance : SequencedRecord BboRecord where
  sequenceField := "sequence"
  sequenceValue := BboRecord.sequence

instance : SequencedRecord BookDeltaRecord where
  sequenceField := "sequence"
  sequenceValue := BookDeltaRecord.sequence

instance : SequencedRecord TradeRecord where
  sequenceField := "trade_id"
  sequenceValue := TradeRecord.tradeId

structure SequenceGap where
  previousSequence : Int
  expectedSequence : Int
  nextSequence : Int
  missingCount : Nat
  previousTs : Int
  nextTs : Int
  previousRecordOrdinal : Nat
  recordOrdinal : Nat
  deriving DecidableEq, Repr

structure SequenceDuplicate where
  sequence : Int
  firstTs : Int
  duplicateTs : Int
  firstRecordOrdinal : Nat
  duplicateRecordOrdinal : Nat
  deriving DecidableEq, Repr

structure SequenceViolation where
  previousSequence : Int
  nextSequence : Int
  previousTs : Int
  nextTs : Int
  previousRecordOrdinal : Nat
  recordOrdinal : Nat
  deriving DecidableEq, Repr

structure SequenceScanReport where
  symbol : Text
  category : Text
  name : Text
  recordType : RecordType
  sequenceField : Text
  startTs : Int
  endTs : Int
  scannedChunkCount : Nat
  scannedRecordCount : Nat
  firstSequence : Option Int
  lastSequence : Option Int
  gaps : List SequenceGap
  duplicates : List SequenceDuplicate
  violations : List SequenceViolation
  deriving DecidableEq, Repr

def SequenceScanReport.new (R : Type) [SequencedRecord R] (symbol category name : Text) (startTs endTs : Int) :
    SequenceScanReport where
  symbol := symbol
  category := category
  name := name
  recordType := FixedRecord.recordType R
  sequenceField := SequencedRecord.sequenceField R
  startTs := startTs
  endTs := endTs
  scannedChunkCount := 0
  scannedRecordCount := 0
  firstSequence := none
  lastSequence := none
  gaps := []
  duplicates := []
  violations := []

structure SequenceObservation where
  ts : Int
  sequence : Int
  ordinal : Nat
  deriving DecidableEq, Repr

/-- The difference of two numbers is taken in 128 bits and the gap cut to 64. -/
def observeSequence (report : SequenceScanReport) (previous : Option SequenceObservation)
    (current : SequenceObservation) :
    SequenceScanReport :=
  let seen := { report with
    scannedRecordCount := report.scannedRecordCount + 1
    firstSequence := report.firstSequence.or (some current.sequence)
    lastSequence := some current.sequence }
  match previous with
  | none => seen
  | some prev =>
    if current.sequence = prev.sequence then
      { seen with duplicates := seen.duplicates ++ [⟨current.sequence, prev.ts, current.ts, prev.ordinal,
        current.ordinal⟩] }
    else if current.sequence < prev.sequence then
      { seen with violations := seen.violations ++
          [⟨prev.sequence, current.sequence, prev.ts, current.ts, prev.ordinal, current.ordinal⟩] }
    else
      let delta := current.sequence - prev.sequence
      if 1 < delta then
        { seen with gaps := seen.gaps ++ [⟨prev.sequence, satSuccInt prev.sequence, current.sequence,
            ((delta - 1) % 2 ^ 64).toNat, prev.ts, current.ts, prev.ordinal, current.ordinal⟩] }
      else seen

/-! ## The scan -/

section Scan

variable {R : Type} [SequencedRecord R]

abbrev ScanState := SequenceScanReport × Option SequenceObservation

/-- One record: its number is compared with the one before, and it is the one before from then on. -/
def scanRecord (state : ScanState) (record : R) : ScanState :=
  let observation : SequenceObservation := ⟨FixedRecord.ts record, SequencedRecord.sequenceValue record,
    state.1.scannedRecordCount⟩
  (observeSequence state.1 state.2 observation, some observation)

def scanChunks (read : ChunkMeta → Result (List R)) : List ChunkMeta → ScanState → Result ScanState
  | [], state => .ok state
  | c :: cs, state =>
    match read c with
    | .error e => .error e
    | .ok records =>
      if records.isEmpty then scanChunks read cs state
      else scanChunks read cs
        (records.foldl scanRecord ({ state.1 with scannedChunkCount := state.1.scannedChunkCount + 1 }, state.2))

/-- The records of a chunk from `startTs` to `endTs`, read into a buffer of their own. -/
def chunkRange (R : Type) [FixedRecord R] (sd : SeriesDir) (startTs endTs : Int) (c : ChunkMeta) : Result (List R) :=
  withChunk sd (fixedValidateHeader R) c (fun f => fixedAppendRange f startTs endTs [])

/-- The series is one of records of the type. -/
def SeriesMeta.HoldsType (R : Type) [FixedRecord R] (m : SeriesMeta) : Prop :=
  m.recordType = FixedRecord.recordType R ∧ m.schemaId = FixedRecord.schemaId R ∧ m.recordSize = FixedRecord.byteSize R

instance (m : SeriesMeta) (R : Type) [FixedRecord R] : Decidable (m.HoldsType R) :=
  inferInstanceAs (Decidable (_ ∧ _ ∧ _))

def scanFixedSequence (R : Type) [SequencedRecord R] (sd : SeriesDir) (symbol category name : Text)
    (startTs endTs : Int) :
    Result SequenceScanReport :=
  if endTs < startTs then
    .error (.invalidInput (words ["sequence scan start_ts ", showInt startTs, " is after end_ts ", showInt endTs]))
  else withMeta sd (fun m =>
    if m.HoldsType R then
      (scanChunks (chunkRange R sd startTs endTs) (m.chunksIn (m.findChunksForRange startTs endTs))
        (.new R symbol category name startTs endTs, none)).map Prod.fst
    else .error (.invalidData (words ["series ", symbol, ":", category, ":", name,
      " does not match requested sequence record type"])))

end Scan

/-! ## What a report says -/

/-- The neighbours of a list. -/
def adjacent {α : Type} (l : List α) : List (α × α) := l.zip l.tail

theorem adjacent_concat {α : Type} (l : List α) (x : α) :
    adjacent (l ++ [x]) = adjacent l ++ (l.getLast?.map (·, x)).toList := by
  unfold adjacent
  induction l with
  | nil => rfl
  | cons a l ih =>
    cases l with
    | nil => rfl
    | cons b l =>
      have hstep : ((a :: b :: l) ++ [x]).zip ((a :: b :: l) ++ [x]).tail
          = (a, b) :: ((b :: l) ++ [x]).zip ((b :: l) ++ [x]).tail := rfl
      rw [hstep, ih, List.getLast?_cons_cons]
      rfl

section Described

variable {R : Type} [SequencedRecord R]

/-- The records as the scan sees them, each with its position. -/
def observations (records : List R) : List SequenceObservation :=
  records.zipIdx.map (fun p => ⟨FixedRecord.ts p.1, SequencedRecord.sequenceValue p.1, p.2⟩)

def duplicateOf (p : SequenceObservation × SequenceObservation) : SequenceDuplicate :=
  ⟨p.2.sequence, p.1.ts, p.2.ts, p.1.ordinal, p.2.ordinal⟩

def violationOf (p : SequenceObservation × SequenceObservation) : SequenceViolation :=
  ⟨p.1.sequence, p.2.sequence, p.1.ts, p.2.ts, p.1.ordinal, p.2.ordinal⟩

/-- All the numbers strictly between two others are missing. -/
def gapOf (p : SequenceObservation × SequenceObservation) : SequenceGap :=
  ⟨p.1.sequence, p.1.sequence + 1, p.2.sequence, (p.2.sequence - p.1.sequence - 1).toNat, p.1.ts, p.2.ts, p.1.ordinal,
    p.2.ordinal⟩

/-- The report lists every pair of neighbours by how their numbers compare, in order; the next number after the one
before is not reported. -/
structure ScanDescribes (records : List R) (report : SequenceScanReport) : Prop where
  count : report.scannedRecordCount = records.length
  first : report.firstSequence = records.head?.map SequencedRecord.sequenceValue
  last : report.lastSequence = records.getLast?.map SequencedRecord.sequenceValue
  duplicates : report.duplicates = ((adjacent (observations records)).filter (fun p =>
    decide (p.2.sequence = p.1.sequence))).map duplicateOf
  violations : report.violations = ((adjacent (observations records)).filter (fun p =>
    decide (p.2.sequence < p.1.sequence))).map violationOf
  gaps : report.gaps = ((adjacent (observations records)).filter (fun p =>
    decide (p.1.sequence + 1 < p.2.sequence))).map gapOf

end Described

section Observed

variable (report : SequenceScanReport) (previous : Option SequenceObservation) (current : SequenceObservation)

@[simp] theorem observeSequence_count :
    (observeSequence report previous current).scannedRecordCount = report.scannedRecordCount + 1 := by
  unfold observeSequence
  cases previous with
  | none => rfl
  | some prev => simp only; split_ifs <;> rfl

@[simp] theorem observeSequence_first :
    (observeSequence report previous current).firstSequence = report.firstSequence.or (some current.sequence) := by
  unfold observeSequence
  cases previous with
  | none => rfl
  | some prev => simp only; split_ifs <;> rfl

@[simp] theorem observeSequence_last :
    (observeSequence report previous current).lastSequence = some current.sequence := by
  unfold observeSequence
  cases previous with
  | none => rfl
  | some prev => simp only; split_ifs <;> rfl

/-- How many chunks were read is no matter of the records. -/
theorem observeSequence_chunks (n : Nat) : observeSequence { report with scannedChunkCount := n } previous current
    = { observeSequence report previous current with scannedChunkCount := n } := by
  unfold observeSequence
  cases previous with
  | none => rfl
  | some prev => simp only; split_ifs <;> rfl

theorem observeSequence_duplicates : (observeSequence report previous current).duplicates = report.duplicates ++
    (((previous.map (·, current)).toList).filter (fun p => decide (p.2.sequence = p.1.sequence))).map duplicateOf := by
  unfold observeSequence
  cases previous with
  | none => simp
  | some prev =>
    by_cases heq : current.sequence = prev.sequence
    · simp [heq, duplicateOf]
    · simp only [if_neg heq]
      split_ifs <;> simp [heq]

theorem observeSequence_violations : (observeSequence report previous current).violations = report.violations ++
    (((previous.map (·, current)).toList).filter (fun p => decide (p.2.sequence < p.1.sequence))).map violationOf := by
  unfold observeSequence
  cases previous with
  | none => simp
  | some prev =>
    by_cases heq : current.sequence = prev.sequence
    · simp [heq]
    · by_cases hlt : current.sequence < prev.sequence
      · simp [heq, hlt, violationOf]
      · simp only [if_neg heq, if_neg hlt]
        split_ifs <;> simp [hlt]

/-- **The gap between two 64-bit numbers is exact**: neither the number expected next nor the count of those missing
overflows. -/
theorem observeSequence_gaps (hc : i64Min ≤ current.sequence ∧ current.sequence ≤ i64Max)
    (hp : ∀ p ∈ previous, i64Min ≤ p.sequence ∧ p.sequence ≤ i64Max) :
    (observeSequence report previous current).gaps = report.gaps ++
      (((previous.map (·, current)).toList).filter (fun p => decide (p.1.sequence + 1 < p.2.sequence))).map gapOf := by
  unfold observeSequence
  cases previous with
  | none => simp
  | some prev =>
    have hprev := hp prev rfl
    by_cases hgap : prev.sequence + 1 < current.sequence
    · have hmissing : (current.sequence - prev.sequence - 1) % 2 ^ 64 = current.sequence - prev.sequence - 1 :=
        Int.emod_eq_of_lt (by omega) (by unfold i64Min i64Max at *; omega)
      have hnext : satSuccInt prev.sequence = prev.sequence + 1 := by
        unfold satSuccInt
        omega
      simp only [if_neg (show current.sequence ≠ prev.sequence by omega),
        if_neg (show ¬ current.sequence < prev.sequence by omega),
          if_pos (show 1 < current.sequence - prev.sequence by omega), hmissing, hnext]
      simp [hgap, gapOf]
    · by_cases heq : current.sequence = prev.sequence
      · simp [heq]
      · by_cases hlt : current.sequence < prev.sequence
        · simp [heq, hlt, hgap]
        · simp [heq, hlt, hgap, show ¬ 1 < current.sequence - prev.sequence by omega]

end Observed

section Folded

variable {R : Type} [SequencedRecord R]

theorem observations_concat (records : List R) (r : R) : observations (records ++ [r])
    = observations records ++ [⟨FixedRecord.ts r, SequencedRecord.sequenceValue r, records.length⟩] := by
  unfold observations
  rw [List.zipIdx_append, List.map_append, Nat.zero_add]
  rfl

theorem sequence_of_observation {records : List R} {o : SequenceObservation} (h : o ∈ observations records) :
    ∃ r ∈ records, o.sequence = SequencedRecord.sequenceValue r := by
  obtain ⟨p, hp, rfl⟩ := List.mem_map.1 h
  exact ⟨p.1, List.fst_mem_of_mem_zipIdx hp, rfl⟩

/-- One more record: the pair it makes with the one before is listed where it belongs. -/
theorem scanRecord_describes {records : List R} {state : ScanState} {r : R} (hd : ScanDescribes records state.1)
    (hp : state.2 = (observations records).getLast?)
    (hrs : ∀ x ∈ records ++ [r], i64Min ≤ SequencedRecord.sequenceValue x ∧ SequencedRecord.sequenceValue x ≤ i64Max) :
    ScanDescribes (records ++ [r]) (scanRecord state r).1 ∧
      (scanRecord state r).2 = (observations (records ++ [r])).getLast? := by
  obtain ⟨h1, h2, h3, h4, h5, h6⟩ := hd
  have hadj := adjacent_concat (observations records) ⟨FixedRecord.ts r, SequencedRecord.sequenceValue r,
    records.length⟩
  unfold scanRecord
  rw [h1, hp]
  refine ⟨⟨?_, ?_, ?_, ?_, ?_, ?_⟩, by rw [observations_concat, List.getLast?_concat]⟩
  · rw [observeSequence_count, h1, List.length_append, List.length_singleton]
  · rw [observeSequence_first, h2]
    cases records <;> rfl
  · rw [observeSequence_last, List.getLast?_concat]
    rfl
  · rw [observeSequence_duplicates, h4, observations_concat, hadj, List.filter_append, List.map_append]
  · rw [observeSequence_violations, h5, observations_concat, hadj, List.filter_append, List.map_append]
  · rw [observeSequence_gaps _ _ _ (hrs r (by simp)), h6, observations_concat, hadj, List.filter_append,
      List.map_append]
    intro p hlast
    obtain ⟨x, hx, hseq⟩ := sequence_of_observation (List.mem_of_getLast? hlast)
    rw [hseq]
    exact hrs x (by simp [hx])

theorem foldl_scanRecord_describes (symbol category name : Text) (startTs endTs : Int) (records : List R)
    (hrs : ∀ x ∈ records, i64Min ≤ SequencedRecord.sequenceValue x ∧ SequencedRecord.sequenceValue x ≤ i64Max) :
    ScanDescribes records (records.foldl scanRecord (.new R symbol category name startTs endTs, none)).1 ∧
      (records.foldl scanRecord (.new R symbol category name startTs endTs,
        none)).2 = (observations records).getLast? := by
  induction records using List.reverseRecOn with
  | nil => exact ⟨⟨rfl, rfl, rfl, rfl, rfl, rfl⟩, rfl⟩
  | append_singleton records r ih =>
    obtain ⟨hd, hp⟩ := ih (fun x hx => hrs x (by simp [hx]))
    rw [List.foldl_append, List.foldl_cons, List.foldl_nil]
    exact scanRecord_describes hd hp hrs

/-! ## Chunk by chunk -/

/-- The state with another count of chunks. -/
def ScanState.withChunks (n : Nat) (state : ScanState) : ScanState := ({ state.1 with scannedChunkCount := n }, state.2)

theorem ScanState.withChunks_withChunks (n k : Nat) (state : ScanState) :
    ScanState.withChunks n (ScanState.withChunks k state) = ScanState.withChunks n state := rfl

/-- The count of chunks is no matter of the records. -/
theorem foldl_withChunks (n : Nat) : ∀ (records : List R) (state : ScanState),
    records.foldl scanRecord (ScanState.withChunks n state) = ScanState.withChunks n (records.foldl scanRecord state)
  | [], _ => rfl
  | r :: rs, state => by
    have hstep : scanRecord (ScanState.withChunks n state) r = ScanState.withChunks n (scanRecord state r) :=
      Prod.ext (observeSequence_chunks _ _ _ n) rfl
    rw [List.foldl_cons, List.foldl_cons, hstep, foldl_withChunks n rs]

/-- **A scan folds over the records of all chunks**, and counts the chunks that had any. -/
theorem scanChunks_eq (read : ChunkMeta → Result (List R)) : ∀ (cs : List ChunkMeta) (state : ScanState),
    scanChunks read cs state = (collect read cs).map (fun parts =>
      ScanState.withChunks (state.1.scannedChunkCount + parts.countP (fun p => !p.isEmpty))
        (parts.flatten.foldl scanRecord state))
  | [], state => rfl
  | c :: cs, state => by
    unfold scanChunks collect
    cases read c with
    | error e => rfl
    | ok records =>
      simp only
      by_cases hnil : records.isEmpty = true
      · rw [if_pos hnil, scanChunks_eq read cs]
        obtain rfl := List.isEmpty_iff.1 hnil
        cases collect read cs <;> rfl
      · have hopen : ({ state.1 with scannedChunkCount := state.1.scannedChunkCount + 1 }, state.2)
            = ScanState.withChunks (state.1.scannedChunkCount + 1) state := rfl
        rw [if_neg hnil, hopen, foldl_withChunks, scanChunks_eq read cs]
        cases collect read cs with
        | error e => rfl
        | ok parts =>
          simp only [Except.map]
          rw [foldl_withChunks, ScanState.withChunks_withChunks, List.flatten_cons, List.foldl_append,
            List.countP_cons_of_pos (by simpa using hnil)]
          congr 2
          simp only [ScanState.withChunks]
          omega

/-! ## The scan and the range read -/

/-- What is appended to a buffer does not depend on what it holds. -/
theorem fixedAppendRange_append {R : Type} [FixedRecord R] (f : ChunkFile) (startTs endTs : Int) (out : List R) :
    fixedAppendRange f startTs endTs out = (fixedAppendRange f startTs endTs []).map (out ++ ·) := by
  unfold fixedAppendRange appendBetween appendRecordSpan
  split
  · simp [Except.map]
  · split
    · rfl
    · split
      · simp [Except.map]
      · split
        · rfl
        · split
          · simp [Except.map]
          · split <;> simp [Except.map]

theorem withChunk_map {α β : Type} (sd : SeriesDir) (validate : ChunkHeader → Result Unit) (c : ChunkMeta)
    (read : ChunkFile → Result α) (g : α → β) :
    withChunk sd validate c (fun f => (read f).map g) = (withChunk sd validate c read).map g := by
  unfold withChunk
  split
  · rfl
  · split <;> rfl

theorem appendChunks_collect {R : Type} {read : ChunkMeta → List R → Result (List R)}
    {part : ChunkMeta → Result (List R)} (h : ∀ c out, read c out = (part c).map (out ++ ·)) : ∀ (cs : List ChunkMeta)
    (out : List R),
    appendChunks read cs out = (collect part cs).map (fun parts => out ++ parts.flatten)
  | [], out => by simp [appendChunks, collect, Except.map]
  | c :: cs, out => by
    unfold appendChunks collect
    rw [h c out]
    cases part c with
    | error e => rfl
    | ok records =>
      simp only [Except.map]
      rw [appendChunks_collect h cs]
      cases collect part cs with
      | error e => rfl
      | ok parts => simp [Except.map]

/-- A range read returns the records of the chunks one after the other. -/
theorem getFixedRange_collect {sd : SeriesDir} {m : SeriesMeta} (hm : sd.loadSeriesMeta = .ok m) {startTs endTs : Int}
    (hse : startTs ≤ endTs) : getFixedRange R sd startTs endTs
      = (collect (chunkRange R sd startTs endTs) (m.chunksIn (m.findChunksForRange startTs endTs))).map
        List.flatten := by
  unfold getFixedRange withMeta
  rw [if_neg (by omega), hm]
  simp only
  have hpart : ∀ c out, withChunk sd (fixedValidateHeader R) c (fun f => fixedAppendRange f startTs endTs out)
      = (chunkRange R sd startTs endTs c).map (out ++ ·) := by
    intro c out
    unfold chunkRange
    rw [← withChunk_map]
    congr 1
    funext f
    exact fixedAppendRange_append f startTs endTs out
  rw [appendChunks_collect hpart]
  rfl

/-- **A scan reports the fold of `observe_sequence` over the records that the range read returns**, apart from the
count of the chunks that had any, and fails where the read fails; the report lists every pair of neighbours by how
their numbers compare, with the exact size of a gap, and no counter overflows. -/
theorem scanFixedSequence_folds {sd : SeriesDir} {m : SeriesMeta} (hm : sd.loadSeriesMeta = .ok m) (ht : m.HoldsType R)
    (symbol category name : Text) {startTs endTs : Int} (hse : startTs ≤ endTs) :
    (∀ e, getFixedRange R sd startTs endTs = .error e →
      scanFixedSequence R sd symbol category name startTs endTs = .error e) ∧
    ∀ records, getFixedRange R sd startTs endTs = .ok records →
      records.length * FixedRecord.byteSize R < u64Bound →
      (∀ r ∈ records, i64Min ≤ SequencedRecord.sequenceValue r ∧ SequencedRecord.sequenceValue r ≤ i64Max) →
      ∃ parts report, collect (chunkRange R sd startTs endTs)
        (m.chunksIn (m.findChunksForRange startTs endTs)) = .ok parts ∧
        parts.flatten = records ∧ scanFixedSequence R sd symbol category name startTs endTs = .ok report ∧
        report = { (records.foldl scanRecord (.new R symbol category name startTs endTs, none)).1 with
          scannedChunkCount := parts.countP (fun p => !p.isEmpty) } ∧
        ScanDescribes records report ∧ report.scannedRecordCount < u64Bound ∧
        ∀ g ∈ report.gaps, g.expectedSequence ≤ i64Max ∧ g.missingCount < u64Bound ∧
          (g.missingCount : Int) = g.nextSequence - g.previousSequence - 1 := by
  have hscan : scanFixedSequence R sd symbol category name startTs endTs
      = (collect (chunkRange R sd startTs endTs) (m.chunksIn (m.findChunksForRange startTs endTs))).map (fun parts =>
        { (parts.flatten.foldl scanRecord (.new R symbol category name startTs endTs, none)).1 with
          scannedChunkCount := parts.countP (fun p => !p.isEmpty) }) := by
    unfold scanFixedSequence withMeta
    rw [if_neg (by omega), hm]
    simp only
    rw [if_pos ht, scanChunks_eq]
    cases collect (chunkRange R sd startTs endTs) (m.chunksIn (m.findChunksForRange startTs endTs)) with
    | error e => rfl
    | ok parts => simp [Except.map, ScanState.withChunks, SequenceScanReport.new]
  rw [getFixedRange_collect hm hse, hscan]
  cases collect (chunkRange R sd startTs endTs) (m.chunksIn (m.findChunksForRange startTs endTs)) with
  | error e =>
    refine ⟨fun e' h => ?_, fun records h => ?_⟩
    · simpa [Except.map] using h
    · cases h
  | ok parts =>
    refine ⟨fun e h => ?_, fun records hread hfit hrs => ?_⟩
    · cases h
    obtain rfl : parts.flatten = records := by simpa [Except.map] using hread
    obtain ⟨hd, -⟩ := foldl_scanRecord_describes symbol category name startTs endTs parts.flatten hrs
    have hsize : 0 < FixedRecord.byteSize R := FixedRecord.byteSize_pos
    refine ⟨parts, _, rfl, rfl, rfl, rfl, ⟨hd.count, hd.first, hd.last, hd.duplicates, hd.violations, hd.gaps⟩, ?_, ?_⟩
    · simp only
      rw [hd.count]
      have := Nat.le_mul_of_pos_right parts.flatten.length hsize
      omega
    · intro g hg
      simp only at hg
      rw [hd.gaps] at hg
      obtain ⟨p, hp, rfl⟩ := List.mem_map.1 hg
      obtain ⟨hmem, hgap⟩ := List.mem_filter.1 hp
      have hgap := of_decide_eq_true hgap
      obtain ⟨ha, hb⟩ := List.of_mem_zip (show (p.1, p.2) ∈ _ from hmem)
      obtain ⟨x, hx, hxs⟩ := sequence_of_observation ha
      obtain ⟨y, hy, hys⟩ := sequence_of_observation (List.mem_of_mem_tail hb)
      have h1 := hrs x hx
      have h2 := hrs y hy
      rw [← hxs] at h1
      rw [← hys] at h2
      unfold gapOf u64Bound i64Min i64Max at *
      simp only
      omega

end Folded

/-! ### Four quotes in one chunk: a repeated number, a gap and a step back -/

def sampleBbo (ts sequence : Int) : BboRecord := ⟨ts, ts, 1, 1, 2, 1, sequence⟩

def sampleBbos : List BboRecord := [sampleBbo 0 5, sampleBbo 1000 5, sampleBbo 2000 9, sampleBbo 3000 8]

def sampleBboMeta (chunks : List ChunkMeta) : SeriesMeta :=
  { sampleMeta chunks with category := "bbo", name := "c", timeframeMs := 0, recordType := .bbo, recordSize := 56, schemaId := bboSchemaId }

def sampleBboFile : ChunkFile :=
  chunkFileOf (sampleBboMeta []) sampleBbos (sampleOptions 1 "chunks/1970-01.chunk") (anchors 2 sampleBbos)

def sampleBboChunk : ChunkMeta :=
  { chunkMetaOf sampleBboFile "1970-01" (sampleOptions 1 "chunks/1970-01.chunk") with chunkChecksum := 0 }

def sampleBboSeries : SeriesDir where
  manifest := .current (sampleBboMeta [sampleBboChunk])
  chunksDir := true
  files := [("1970-01.chunk", .chunk sampleBboFile)]

theorem scanFixedSequence_folds_sample :
    ∃ report, scanFixedSequence BboRecord sampleBboSeries "BTCUSDT" "bbo" "c" 0 3000 = .ok report ∧
    report.duplicates = [⟨5, 0, 1000, 0, 1⟩] ∧ report.gaps = [⟨5, 6, 9, 3, 1000, 2000, 1, 2⟩] ∧
    report.violations = [⟨9, 8, 2000, 3000, 2, 3⟩] := by
  obtain ⟨parts, report, -, -, hscan, -, hd, -, -⟩ := (scanFixedSequence_folds (R := BboRecord)
    (show sampleBboSeries.loadSeriesMeta = .ok (sampleBboMeta [sampleBboChunk]) by decide +kernel) (by decide) "BTCUSDT" "bbo" "c"
    (show (0 : Int) ≤ 3000 by decide)).2 sampleBbos (by decide +kernel) (by decide) (by decide)
  refine ⟨report, hscan, hd.duplicates.trans ?_, hd.gaps.trans ?_, hd.violations.trans ?_⟩ <;> decide

/-- The scan counts the chunk it read; `observe_sequence` does not. -/
theorem scan_counts_chunks : ∃ records report, getFixedRange BboRecord sampleBboSeries 0 3000 = .ok records ∧
    scanFixedSequence BboRecord sampleBboSeries "BTCUSDT" "bbo" "c" 0 3000 = .ok report ∧
    report ≠ (records.foldl scanRecord (.new BboRecord "BTCUSDT" "bbo" "c" 0 3000, none)).1 := by
  refine ⟨sampleBbos, { (sampleBbos.foldl scanRecord (.new BboRecord "BTCUSDT" "bbo" "c" 0 3000, none)).1
    with scannedChunkCount := 1 }, by decide +kernel, by decide +kernel, by decide⟩

end FastK
