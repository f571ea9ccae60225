import FastK.Lib.Ranges
import FastK.Chunk
/-!
# Reading a chunk

The readers of the three record families (`chunk/kline_reader.rs`, `chunk/scalar_reader.rs`, `chunk/fixed_reader.rs`).
They share their searches and span reads; they differ in the paths a range read may take.  On a file that holds rows in
strict order every path returns the rows in range (`klineAppendRange_ok`, `scalarAppendRange_ok`).  The fixed reader
looks for the lower bound in the window of the last anchor by the target, so where rows share the target's timestamp
it starts no earlier than that anchor (`fixedAppendRange_ok`).
-/
namespace FastK

open Search Sampled Ranges

/-- The texts a reader puts into its span errors. -/
structure SpanTexts where
  overflow : Text
  exceeds : Text
  bytes : Text

section Spans

variable {R : Type} [FixedRecord R]

/-- Decodes the rows as records of type `R`; on a file whose header has passed the type check none is refused. -/
def decodeRow (r : Record) : Result R :=
  match FixedRecord.decode r with
  | some x => .ok x
  | none => .error (.invalidData "invalid record bytes")

/-- Reads rows by position; past the last row there is nothing to fill the buffer with. -/
def ChunkFile.readRows (f : ChunkFile) (start count : Nat) : Result (List R) :=
  if f.rows.length < start + count then .error (.io "failed to fill whole buffer")
  else collect decodeRow ((f.rows.drop start).take count)

def readRecordSpan (t : SpanTexts) (f : ChunkFile) (start count : Nat) : Result (List R) :=
  if count = 0 then .ok []
  else if u64Bound ≤ start + count then .error (.invalidData t.overflow)
  else if f.header.count < start + count then
    .error (.invalidData (words [t.exceeds, " [", showNat start, "..", showNat (start + count),
      ") exceeds chunk row count ", showNat f.header.count]))
  else if u64Bound ≤ count * FixedRecord.byteSize R then .error (.invalidData t.bytes)
  else f.readRows start count

/-- `append_record_span`: the rows are read into the end of the output buffer. -/
def appendRecordSpan (t : SpanTexts) (f : ChunkFile) (start count : Nat) (out : List R) : Result (List R) :=
  match readRecordSpan t f start count with
  | .error e => .error e
  | .ok rows => .ok (out ++ rows)

def readTimestampAt (f : ChunkFile) (index : Nat) : Result Int :=
  match f.rows[index]? with
  | some r => .ok r.ts
  | none => .error (.io "failed to fill whole buffer")

def probeTs (f : ChunkFile) (p : Int → Bool) (index : Nat) : Result Bool :=
  match readTimestampAt f index with
  | .error e => .error e
  | .ok ts => .ok (p ts)

def lowerBound (f : ChunkFile) (targetTs : Int) : Result Nat :=
  bisectM (probeTs f (fun ts => decide (ts < targetTs))) 0 f.header.count

def upperBound (f : ChunkFile) (targetTs : Int) : Result Nat :=
  bisectM (probeTs f (fun ts => decide (ts ≤ targetTs))) 0 f.header.count

def lowerBoundInRecords (records : List R) (targetTs : Int) : Nat :=
  partitionPoint (fun r => decide (FixedRecord.ts r < targetTs)) records

def upperBoundInRecords (records : List R) (targetTs : Int) : Nat :=
  partitionPoint (fun r => decide (FixedRecord.ts r ≤ targetTs)) records

/-- `lower_bound_via_sparse` and `upper_bound_via_sparse`: the plain search without an index, else the search among the
rows of one sparse window. -/
def boundViaSparse (t : SpanTexts) (f : ChunkFile) (plain : ChunkFile → Int → Result Nat)
    (inRecords : List R → Int → Nat) (targetTs : Int) : Result Nat :=
  if f.sparseIndex = [] then plain f targetTs
  else
    match lookupWindow f.header.count f.sparseIndex targetTs with
    | .error e => .error e
    | .ok (startIdx, endIdx) =>
      match readRecordSpan t f startIdx (endIdx - startIdx) with
      | .error e => .error e
      | .ok records => .ok (startIdx + inRecords records targetTs)

variable (R)

def lowerBoundViaSparse (t : SpanTexts) (f : ChunkFile) (targetTs : Int) : Result Nat :=
  boundViaSparse t f lowerBound (lowerBoundInRecords (R := R)) targetTs

def upperBoundViaSparse (t : SpanTexts) (f : ChunkFile) (targetTs : Int) : Result Nat :=
  boundViaSparse t f upperBound (upperBoundInRecords (R := R)) targetTs

variable {R}

/-- The search for both ends and the copy between them, the tail of every range read. -/
def appendBetween (t : SpanTexts) (f : ChunkFile) (lower upper : Result Nat) (out : List R) : Result (List R) :=
  match lower with
  | .error e => .error e
  | .ok startIdx =>
    if f.header.count ≤ startIdx then .ok out
    else
      match upper with
      | .error e => .error e
      | .ok endExclusive =>
        if endExclusive ≤ startIdx then .ok out else appendRecordSpan t f startIdx (endExclusive - startIdx) out

/-- The range misses the chunk altogether. -/
def rangeMisses (h : ChunkHeader) (startTs endTs : Int) : Bool :=
  decide (endTs < startTs ∨ endTs < h.startTs ∨ h.endTs < startTs ∨ h.count = 0)

/-- `validate_header`, with the name of the schema in the message. -/
def validateHeader (R : Type) [FixedRecord R] (expected unexpected : Text) (h : ChunkHeader) : Result Unit :=
  if h.schemaId ≠ FixedRecord.schemaId R then
    .error (.invalidData (words [expected, showNat (FixedRecord.schemaId R), ", got ", showNat h.schemaId]))
  else if h.recordSize ≠ FixedRecord.byteSize R then .error (.invalidData (words [unexpected, showNat h.recordSize]))
  else .ok ()

end Spans

def shortRangeMaxRecords : Int := 2048

/-- `i64::saturating_add(1)`. -/
def satSuccInt (z : Int) : Int := min i64Max (z + 1)

def isShortRange (h : ChunkHeader) (startTs endTs : Int) : Bool :=
  if h.timeframeMs ≤ 0 then false
  else decide (satSuccInt ((satSub endTs startTs).tdiv h.timeframeMs) ≤ shortRangeMaxRecords)

/-- The specialization a read took. -/
inductive ReadPath where
  | fullScan
  | shortRange
  | rawSpan
  deriving DecidableEq, Repr

/-- `slice::copy_within`. -/
def copyWithin {α : Type} (xs : List α) (start stop dest : Nat) : List α :=
  xs.take dest ++ (xs.drop start).take (stop - start) ++ xs.drop (dest + (stop - start))

/-! ## The kline reader -/

def klineReadTexts : SpanTexts :=
  ⟨"requested record span overflows u64", "requested record span", "record span byte length overflow"⟩

def klineAppendTexts : SpanTexts :=
  ⟨"requested append span overflows u64", "requested append span", "append span byte length overflow"⟩

def klineValidateHeader : ChunkHeader → Result Unit :=
  validateHeader KlineRecord "expected kline schema " "unexpected kline record size: "

/-- `find_by_ts_in_file`, the same in the kline and the scalar reader. -/
def findByTsInFile {R : Type} [FixedRecord R] (t : SpanTexts) (f : ChunkFile) (ts : Int) : Result (Option R) :=
  if ts < f.header.startTs ∨ f.header.endTs < ts then .ok none
  else if f.sparseIndex = [] then
    match lowerBound f ts with
    | .error e => .error e
    | .ok idx =>
      if f.header.count ≤ idx then .ok none
      else
        match f.readRows (R := R) idx 1 with
        | .error e => .error e
        | .ok rows => .ok (rows.head?.filter (fun r => decide (FixedRecord.ts r = ts)))
  else
    match lookupWindow f.header.count f.sparseIndex ts with
    | .error e => .error e
    | .ok (startIdx, endIdx) =>
      match readRecordSpan t f startIdx (endIdx - startIdx) with
      | .error e => .error e
      | .ok records => .ok (records[lowerBoundInRecords records ts]?.filter (fun r => decide (FixedRecord.ts r = ts)))

/-- `append_range_in_file_with_metrics`: adjacent sparse windows are read in one go and cut in place. -/
def klineAppendRange (f : ChunkFile) (startTs endTs : Int) (out : List KlineRecord) :
    Result (ReadPath × List KlineRecord) :=
  if rangeMisses f.header startTs endTs then .ok (.shortRange, out)
  else if startTs ≤ f.header.startTs ∧ f.header.endTs ≤ endTs then
    (appendRecordSpan klineAppendTexts f 0 f.header.count out).map (fun o => (.fullScan, o))
  else if isShortRange f.header startTs endTs then
    let twoWindows := (appendBetween klineAppendTexts f (lowerBoundViaSparse KlineRecord klineReadTexts f startTs)
      (upperBoundViaSparse KlineRecord klineReadTexts f endTs) out).map (fun o => (ReadPath.shortRange, o))
    if f.sparseIndex = [] then twoWindows
    else
      match lookupWindow f.header.count f.sparseIndex startTs with
      | .error e => .error e
      | .ok first =>
        match lookupWindow f.header.count f.sparseIndex endTs with
        | .error e => .error e
        | .ok last =>
          if last.1 ≤ first.2 then
            if last.2 < first.1 then .error (.invalidData "sparse windows are out of order")
            else
              match appendRecordSpan klineAppendTexts f first.1 (last.2 - first.1) out with
              | .error e => .error e
              | .ok filled =>
                let rows := filled.drop out.length
                let start := lowerBoundInRecords rows startTs
                let stop := upperBoundInRecords rows endTs
                .ok (.shortRange,
                  (copyWithin filled (out.length + start) (out.length + stop) out.length).take
                    (out.length + stop - start))
          else twoWindows
  else
    (appendBetween klineAppendTexts f (lowerBound f startTs) (upperBound f endTs) out).map (fun o => (.fullScan, o))

/-! ## The scalar reader -/

def scalarReadTexts : SpanTexts := ⟨"scalar span end overflow", "scalar span", "scalar span byte length overflow"⟩

def scalarAppendTexts : SpanTexts :=
  ⟨"scalar append span overflow", "scalar append span", "scalar append span byte overflow"⟩

def scalarValidateHeader : ChunkHeader → Result Unit :=
  validateHeader ScalarRecord "expected scalar schema " "unexpected scalar record size: "

/-- `append_range_in_file_with_metrics`: one shared window is read once and sliced. -/
def scalarAppendRange (f : ChunkFile) (startTs endTs : Int) (out : List ScalarRecord) :
    Result (ReadPath × List ScalarRecord) :=
  if rangeMisses f.header startTs endTs then .ok (.shortRange, out)
  else if startTs ≤ f.header.startTs ∧ f.header.endTs ≤ endTs then
    (appendRecordSpan scalarAppendTexts f 0 f.header.count out).map (fun o => (.rawSpan, o))
  else if isShortRange f.header startTs endTs then
    let twoWindows := (appendBetween scalarAppendTexts f (lowerBoundViaSparse ScalarRecord scalarReadTexts f startTs)
      (upperBoundViaSparse ScalarRecord scalarReadTexts f endTs) out).map (fun o => (ReadPath.shortRange, o))
    if f.sparseIndex = [] then twoWindows
    else
      match lookupWindow f.header.count f.sparseIndex startTs with
      | .error e => .error e
      | .ok window =>
        match lookupWindow f.header.count f.sparseIndex endTs with
        | .error e => .error e
        | .ok other =>
          if window = other then
            match readRecordSpan scalarReadTexts f window.1 (window.2 - window.1) with
            | .error e => .error e
            | .ok rows =>
              let start := lowerBoundInRecords rows startTs
              let stop := upperBoundInRecords rows endTs
              .ok (.shortRange, out ++ (rows.drop start).take (stop - start))
          else twoWindows
  else
    (appendBetween scalarAppendTexts f (lowerBound f startTs) (upperBound f endTs) out).map (fun o => (.rawSpan, o))

/-! ## The fixed reader -/

def fixedReadTexts : SpanTexts := ⟨"fixed span end overflow", "fixed span", "fixed span byte length overflow"⟩

def fixedValidateHeader (R : Type) [FixedRecord R] : ChunkHeader → Result Unit :=
  validateHeader R "expected schema " "unexpected record size: "

/-- `append_range_in_file` of the fixed reader: one path, through the sparse windows. -/
def fixedAppendRange {R : Type} [FixedRecord R] (f : ChunkFile) (startTs endTs : Int) (out : List R) :
    Result (List R) :=
  if rangeMisses f.header startTs endTs then .ok out
  else appendBetween fixedReadTexts f (lowerBoundViaSparse R fixedReadTexts f startTs)
    (upperBoundViaSparse R fixedReadTexts f endTs) out

/-! ## What the readers return -/

/-- **Copying a part of what was appended to its front and cutting there keeps the part.** -/
theorem copyWithin_take {α : Type} {out xs : List α} {a b : Nat} (hab : a ≤ b) (hb : b ≤ xs.length) :
    (copyWithin (out ++ xs) (out.length + a) (out.length + b) out.length).take (out.length + b - a)
      = out ++ between xs a b := by
  unfold copyWithin between
  have h1 : (out ++ xs).take out.length = out := by simp
  have h2 : (out ++ xs).drop (out.length + a) = xs.drop a := by
    rw [← List.drop_drop, List.drop_left]
  rw [h1, h2, show out.length + b - (out.length + a) = b - a by omega]
  have hlen : (out ++ (xs.drop a).take (b - a)).length = out.length + b - a := by
    rw [List.length_append, List.length_take, List.length_drop]
    omega
  rw [List.take_append_of_le_length (by omega), ← hlen, List.take_length]

section Held

variable {R : Type} [FixedRecord R] {f : ChunkFile} {rows : List R}

/-- The rows with a timestamp from `s` to `e`. -/
def inRange (s e : Int) (rows : List R) : List R :=
  rows.filter (fun r => decide (s ≤ FixedRecord.ts r ∧ FixedRecord.ts r ≤ e))

/-- **Between the two bounds lie exactly the rows in range.** -/
theorem between_counts (ho : Ordered rows) (s e : Int) :
    between rows (lowerCount rows s) (upperCount rows e) = inRange s e rows := by
  unfold lowerCount upperCount inRange
  rw [between_countP (partitioned_lt ho s) (partitioned_le ho e)]
  refine List.filter_congr (fun r _ => ?_)
  rw [Bool.eq_iff_iff]
  simp only [Bool.and_eq_true, Bool.not_eq_true', decide_eq_true_eq, decide_eq_false_iff_not, not_lt]

theorem decodeRow_encode (r : R) : decodeRow (FixedRecord.encode r) = .ok r := by
  unfold decodeRow
  rw [FixedRecord.decode_encode]

theorem collect_decodeRow : ∀ (l : List R), collect decodeRow (l.map FixedRecord.encode) = .ok l
  | [] => rfl
  | r :: rs => by
    rw [List.map_cons, collect, decodeRow_encode, collect_decodeRow rs]

namespace Holds

theorem readRows_ok (h : Holds R f rows) {start count : Nat} (hc : start + count ≤ rows.length) :
    f.readRows start count = .ok (between rows start (start + count)) := by
  unfold ChunkFile.readRows between
  rw [h.rows_eq, List.length_map, if_neg (by omega), ← List.map_drop, ← List.map_take, collect_decodeRow]
  congr 2
  omega

theorem length_lt (h : Holds R f rows) : rows.length < u64Bound ∧ rows.length * FixedRecord.byteSize R < u64Bound := by
  have hb := h.bytes_lt
  have hle : rows.length ≤ rows.length * FixedRecord.byteSize R := Nat.le_mul_of_pos_right _ FixedRecord.byteSize_pos
  omega

theorem readRecordSpan_ok (h : Holds R f rows) (t : SpanTexts) {a b : Nat} (hab : a ≤ b) (hb : b ≤ rows.length) :
    readRecordSpan t f a (b - a) = .ok (between rows a b) := by
  obtain ⟨hl1, hl2⟩ := h.length_lt
  have hmul : (b - a) * FixedRecord.byteSize R ≤ rows.length * FixedRecord.byteSize R :=
    Nat.mul_le_mul_right _ (by omega)
  unfold readRecordSpan
  by_cases h0 : b - a = 0
  · rw [if_pos h0]
    unfold between
    rw [h0, List.take_zero]
  · rw [if_neg h0, h.count_eq, if_neg (by omega), if_neg (by omega), if_neg (by omega), h.readRows_ok (by omega)]
    congr 2
    omega

theorem appendRecordSpan_ok (h : Holds R f rows) (t : SpanTexts) {a b : Nat} (hab : a ≤ b) (hb : b ≤ rows.length)
    (out : List R) : appendRecordSpan t f a (b - a) out = .ok (out ++ between rows a b) := by
  unfold appendRecordSpan
  rw [h.readRecordSpan_ok t hab hb]

theorem probeTs_ok (h : Holds R f rows) (p : Int → Bool) {i : Nat} {r : R} (hi : rows[i]? = some r) :
    probeTs f p i = .ok (p (FixedRecord.ts r)) := by
  unfold probeTs readTimestampAt
  rw [h.rows_eq, List.getElem?_map, hi]
  simp only [Option.map_some, FixedRecord.ts_encode]

/-- A halving search over the file finds the partition point of its rows. -/
theorem bisectM_ok (h : Holds R f rows) (p : Int → Bool) (hp : Partitioned (fun r => p (FixedRecord.ts r)) rows) :
    bisectM (probeTs f p) 0 f.header.count = .ok (rows.countP (fun r => p (FixedRecord.ts r))) := by
  rw [h.count_eq, bisectM_eq (probeTs f p) (fun i => (rows[i]?).any (fun r => p (FixedRecord.ts r))) 0 rows.length,
    bisect_eq hp]
  · intro i x hx
    rw [hx]
    rfl
  · intro i _ hi
    have hx := List.getElem?_eq_getElem hi
    rw [h.probeTs_ok p hx, hx]
    rfl

theorem lowerBound_ok (h : Holds R f rows) (t : Int) : lowerBound f t = .ok (lowerCount rows t) :=
  h.bisectM_ok _ (partitioned_lt h.ordered t)

theorem upperBound_ok (h : Holds R f rows) (t : Int) : upperBound f t = .ok (upperCount rows t) :=
  h.bisectM_ok _ (partitioned_le h.ordered t)

end Holds

theorem lowerBoundInRecords_between (ho : Ordered rows) (a b : Nat) (t : Int) :
    lowerBoundInRecords (between rows a b) t = min (lowerCount rows t - a) (b - a) := by
  unfold lowerBoundInRecords between lowerCount
  rw [partitionPoint_eq ((partitioned_lt ho t).sublist ((List.take_sublist _ _).trans (List.drop_sublist _ _))),
    countP_window _ _ (partitioned_lt ho t)]

theorem upperBoundInRecords_between (ho : Ordered rows) (a b : Nat) (t : Int) :
    upperBoundInRecords (between rows a b) t = min (upperCount rows t - a) (b - a) := by
  unfold upperBoundInRecords between upperCount
  rw [partitionPoint_eq ((partitioned_le ho t).sublist ((List.take_sublist _ _).trans (List.drop_sublist _ _))),
    countP_window _ _ (partitioned_le ho t)]

/-- The lookup window of a file that samples its rows. -/
theorem Holds.lookupWindow_ok (h : Holds R f rows) {every : Nat} (he : 1 ≤ every)
    (hs : f.sparseIndex = anchors every rows) (t : Int) :
    lookupWindow f.header.count f.sparseIndex t = .ok (windowStart every rows t, windowStop every rows t) := by
  rw [h.count_eq, hs, lookupWindow_anchors he h.ordered h.ne_nil]

theorem windowStart_le_windowStop {every : Nat} (he : 1 ≤ every) (rows : List R) (t : Int) :
    windowStart every rows t ≤ windowStop every rows t := by
  obtain ⟨h1, h2, -⟩ := window_upperCount he rows t
  omega

theorem windowStop_le_length (every : Nat) (rows : List R) (t : Int) : windowStop every rows t ≤ rows.length :=
  min_le_right _ _

theorem Holds.sparseIndex_ne_nil (h : Holds R f rows) {every : Nat} (hs : f.sparseIndex = anchors every rows) :
    f.sparseIndex ≠ [] := by
  rw [hs]
  exact anchors_ne_nil h.ne_nil

/-- **Through the index the lower bound is never found before the window it is looked for in.** -/
theorem Holds.lowerBoundViaSparse_anchors (h : Holds R f rows) {every : Nat} (he : 1 ≤ every)
    (hs : f.sparseIndex = anchors every rows) (t : SpanTexts) (ts : Int) :
    lowerBoundViaSparse R t f ts = .ok (max (lowerCount rows ts) (windowStart every rows ts)) := by
  have h1 := windowStart_le_windowStop he rows ts
  have h2 := windowStop_le_length every rows ts
  obtain ⟨-, h3, -⟩ := window_upperCount he rows ts
  have h4 := lowerCount_le_upperCount rows ts
  unfold lowerBoundViaSparse boundViaSparse
  rw [if_neg (h.sparseIndex_ne_nil hs), h.lookupWindow_ok he hs]
  simp only
  rw [h.readRecordSpan_ok t h1 h2]
  simp only
  rw [lowerBoundInRecords_between h.ordered]
  congr 1
  omega

theorem Holds.upperBoundViaSparse_anchors (h : Holds R f rows) {every : Nat} (he : 1 ≤ every)
    (hs : f.sparseIndex = anchors every rows) (t : SpanTexts) (ts : Int) :
    upperBoundViaSparse R t f ts = .ok (upperCount rows ts) := by
  have h1 := windowStart_le_windowStop he rows ts
  have h2 := windowStop_le_length every rows ts
  obtain ⟨h3, h4, -⟩ := window_upperCount he rows ts
  unfold upperBoundViaSparse boundViaSparse
  rw [if_neg (h.sparseIndex_ne_nil hs), h.lookupWindow_ok he hs]
  simp only
  rw [h.readRecordSpan_ok t h1 h2]
  simp only
  rw [upperBoundInRecords_between h.ordered]
  congr 1
  omega

theorem Holds.upperBoundViaSparse_ok (h : Holds R f rows) (t : SpanTexts) (ts : Int) :
    upperBoundViaSparse R t f ts = .ok (upperCount rows ts) := by
  rcases h.sampled with h0 | ⟨every, he, hs⟩
  · unfold upperBoundViaSparse boundViaSparse
    rw [if_pos h0, h.upperBound_ok]
  · exact h.upperBoundViaSparse_anchors he hs t ts

/-- Where no two rows share a timestamp, the rows by `t` are at most one more than those before it. -/
theorem upperCount_le_succ (hs : rows.Pairwise (fun a b => FixedRecord.ts a < FixedRecord.ts b)) (t : Int) :
    upperCount rows t ≤ lowerCount rows t + 1 := by
  have ho : Ordered rows := hs.imp (fun hab => inOrder_of_lt hab)
  by_contra hgt
  have hlen := upperCount_le_length rows t
  have hlt : lowerCount rows t + 1 < rows.length := by omega
  have hlt' : lowerCount rows t < rows.length := by omega
  have h1 := (lt_countP_iff (partitioned_lt ho t) (lowerCount rows t) _ (List.getElem?_eq_getElem hlt')).not.1
    (lt_irrefl (lowerCount rows t))
  have h2 := (lt_countP_iff (partitioned_le ho t) (lowerCount rows t + 1) _ (List.getElem?_eq_getElem hlt)).1
    (show lowerCount rows t + 1 < upperCount rows t by omega)
  have h3 := List.pairwise_iff_getElem.1 hs (lowerCount rows t) (lowerCount rows t + 1) hlt' hlt (by omega)
  simp only [decide_eq_true_eq] at h1 h2
  omega

/-- **Where no two rows share a timestamp, the window holds the lower bound too.** -/
theorem windowStart_le_lowerCount {every : Nat} (he : 1 ≤ every)
    (hs : rows.Pairwise (fun a b => FixedRecord.ts a < FixedRecord.ts b)) (t : Int) :
    windowStart every rows t ≤ lowerCount rows t := by
  obtain ⟨h1, -, h2⟩ := window_upperCount he rows t
  have h3 := upperCount_le_succ hs t
  rcases Nat.eq_zero_or_pos (upperCount rows t) with h0 | hpos
  · omega
  · have := h2 hpos
    omega

theorem Holds.lowerBoundViaSparse_ok (h : Holds R f rows) (hst : FixedRecord.allowEqualTimestamps R = false)
    (t : SpanTexts) (ts : Int) : lowerBoundViaSparse R t f ts = .ok (lowerCount rows ts) := by
  rcases h.sampled with h0 | ⟨every, he, hs⟩
  · unfold lowerBoundViaSparse boundViaSparse
    rw [if_pos h0, h.lowerBound_ok]
  · rw [h.lowerBoundViaSparse_anchors he hs]
    congr 1
    exact max_eq_left (windowStart_le_lowerCount he ((ordered_iff_strict hst).1 h.ordered) ts)

theorem Holds.appendBetween_ok (h : Holds R f rows) (t : SpanTexts) {a b : Nat} {lower upper : Result Nat}
    (hl : lower = .ok a) (hu : upper = .ok b) (hb : b ≤ rows.length) (out : List R) :
    appendBetween t f lower upper out = .ok (out ++ between rows a b) := by
  unfold appendBetween
  rw [hl, hu]
  simp only
  by_cases h1 : f.header.count ≤ a
  · rw [if_pos h1]
    rw [h.count_eq] at h1
    rw [between_eq_nil (by omega), List.append_nil]
  · rw [if_neg h1]
    by_cases h2 : b ≤ a
    · rw [if_pos h2, between_eq_nil h2, List.append_nil]
    · rw [if_neg h2]
      exact h.appendRecordSpan_ok t (by omega) hb out

theorem inRange_eq_nil {s e : Int} (h : ∀ r ∈ rows, FixedRecord.ts r < s ∨ e < FixedRecord.ts r) :
    inRange s e rows = [] := by
  unfold inRange
  rw [List.filter_eq_nil_iff]
  intro r hr
  have := h r hr
  simp only [decide_eq_true_eq]
  omega

theorem inRange_eq_self {s e : Int} (h : ∀ r ∈ rows, s ≤ FixedRecord.ts r ∧ FixedRecord.ts r ≤ e) :
    inRange s e rows = rows := by
  unfold inRange
  rw [List.filter_eq_self]
  intro r hr
  exact decide_eq_true (h r hr)

theorem Holds.bounds (h : Holds R f rows) {r : R} (hr : r ∈ rows) :
    f.header.startTs ≤ FixedRecord.ts r ∧ FixedRecord.ts r ≤ f.header.endTs := by
  rw [h.startTs_eq, h.endTs_eq]
  exact ⟨firstTs_le h.ordered hr, le_lastTs h.ordered hr⟩

theorem Holds.inRange_of_misses (h : Holds R f rows) {s e : Int} (hm : rangeMisses f.header s e = true) :
    inRange s e rows = [] := by
  unfold rangeMisses at hm
  rw [decide_eq_true_eq] at hm
  have hlen : 0 < rows.length := List.length_pos_iff.2 h.ne_nil
  rw [h.count_eq] at hm
  refine inRange_eq_nil (fun r hr => ?_)
  have := h.bounds hr
  omega

theorem le_of_not_misses {header : ChunkHeader} {s e : Int} (hm : rangeMisses header s e = false) : s ≤ e := by
  unfold rangeMisses at hm
  rw [decide_eq_false_iff_not] at hm
  omega

theorem lowerCount_le_of_le (rows : List R) {s e : Int} (hse : s ≤ e) : lowerCount rows s ≤ upperCount rows e :=
  List.countP_mono_left (fun r _ hr => by
    simp only [decide_eq_true_eq] at hr ⊢
    omega)

theorem Holds.inRange_of_covers (h : Holds R f rows) {s e : Int} (hs : s ≤ f.header.startTs) (he : f.header.endTs ≤ e) :
    inRange s e rows = rows := by
  refine inRange_eq_self (fun r hr => ?_)
  have := h.bounds hr
  omega

theorem Holds.fullSpan_ok (h : Holds R f rows) (t : SpanTexts) (out : List R) :
    appendRecordSpan t f 0 f.header.count out = .ok (out ++ rows) := by
  have := h.appendRecordSpan_ok t (Nat.zero_le rows.length) le_rfl out
  rwa [between_all, Nat.sub_zero, ← h.count_eq] at this

/-- Both ways to search for the two ends of a range give the rows in range. -/
theorem Holds.appendBetween_inRange (h : Holds R f rows) (t : SpanTexts) {s e : Int} {lower upper : Result Nat}
    (hl : lower = .ok (lowerCount rows s)) (hu : upper = .ok (upperCount rows e)) (out : List R) :
    appendBetween t f lower upper out = .ok (out ++ inRange s e rows) := by
  rw [h.appendBetween_ok t hl hu (upperCount_le_length rows e), between_counts h.ordered]

end Held

/-- **A range read of a kline file appends the rows in range**, whichever path it takes. -/
theorem klineAppendRange_ok {f : ChunkFile} {rows : List KlineRecord} (h : Holds KlineRecord f rows) (s e : Int)
    (out : List KlineRecord) : ∃ path, klineAppendRange f s e out = .ok (path, out ++ inRange s e rows) := by
  have hstrict := (ordered_iff_strict rfl).1 h.ordered
  unfold klineAppendRange
  cases hm : rangeMisses f.header s e with
  | true => exact ⟨_, by rw [if_pos rfl, h.inRange_of_misses hm, List.append_nil]⟩
  | false =>
    rw [if_neg (by simp)]
    have hse := le_of_not_misses hm
    by_cases hcov : s ≤ f.header.startTs ∧ f.header.endTs ≤ e
    · rw [if_pos hcov, h.fullSpan_ok, h.inRange_of_covers hcov.1 hcov.2]
      exact ⟨_, rfl⟩
    · rw [if_neg hcov]
      have htwo := h.appendBetween_inRange klineAppendTexts (h.lowerBoundViaSparse_ok rfl klineReadTexts s)
        (h.upperBoundViaSparse_ok klineReadTexts e) out
      cases hshort : isShortRange f.header s e with
      | false =>
        rw [if_neg (by simp), h.appendBetween_inRange klineAppendTexts (h.lowerBound_ok s) (h.upperBound_ok e)]
        exact ⟨_, rfl⟩
      | true =>
        rw [if_pos rfl]
        simp only
        rw [htwo]
        rcases h.sampled with h0 | ⟨every, he, hs⟩
        · rw [if_pos h0]
          exact ⟨_, rfl⟩
        · rw [if_neg (h.sparseIndex_ne_nil hs), h.lookupWindow_ok he hs, h.lookupWindow_ok he hs]
          simp only
          by_cases hadj : windowStart every rows e ≤ windowStop every rows s
          · rw [if_pos hadj]
            -- one read from the first window to the end of the last, searched inside
            obtain ⟨hs1, hs2, -⟩ := window_upperCount he rows s
            obtain ⟨he1, he2, -⟩ := window_upperCount he rows e
            have hlow := windowStart_le_lowerCount he hstrict s
            have hmono := lowerCount_le_of_le rows hse
            have hlen := windowStop_le_length every rows e
            rw [if_neg (by omega), h.appendRecordSpan_ok klineAppendTexts (by omega) hlen]
            simp only
            rw [List.drop_left, lowerBoundInRecords_between h.ordered, upperBoundInRecords_between h.ordered]
            refine ⟨.shortRange, ?_⟩
            rw [copyWithin_take (by omega) (by rw [length_between hlen]; omega), between_between (by omega),
              ← between_counts h.ordered]
            congr 4 <;> omega
          · rw [if_neg hadj]
            exact ⟨_, rfl⟩

/-- **A range read of a scalar file appends the rows in range**, whichever path it takes. -/
theorem scalarAppendRange_ok {f : ChunkFile} {rows : List ScalarRecord} (h : Holds ScalarRecord f rows) (s e : Int)
    (out : List ScalarRecord) : ∃ path, scalarAppendRange f s e out = .ok (path, out ++ inRange s e rows) := by
  have hstrict := (ordered_iff_strict rfl).1 h.ordered
  unfold scalarAppendRange
  cases hm : rangeMisses f.header s e with
  | true => exact ⟨_, by rw [if_pos rfl, h.inRange_of_misses hm, List.append_nil]⟩
  | false =>
    rw [if_neg (by simp)]
    have hse := le_of_not_misses hm
    by_cases hcov : s ≤ f.header.startTs ∧ f.header.endTs ≤ e
    · rw [if_pos hcov, h.fullSpan_ok, h.inRange_of_covers hcov.1 hcov.2]
      exact ⟨_, rfl⟩
    · rw [if_neg hcov]
      have htwo := h.appendBetween_inRange scalarAppendTexts (h.lowerBoundViaSparse_ok rfl scalarReadTexts s)
        (h.upperBoundViaSparse_ok scalarReadTexts e) out
      cases hshort : isShortRange f.header s e with
      | false =>
        rw [if_neg (by simp), h.appendBetween_inRange scalarAppendTexts (h.lowerBound_ok s) (h.upperBound_ok e)]
        exact ⟨_, rfl⟩
      | true =>
        rw [if_pos rfl]
        simp only
        rw [htwo]
        rcases h.sampled with h0 | ⟨every, he, hs⟩
        · rw [if_pos h0]
          exact ⟨_, rfl⟩
        · rw [if_neg (h.sparseIndex_ne_nil hs), h.lookupWindow_ok he hs, h.lookupWindow_ok he hs]
          simp only
          by_cases hsame : (windowStart every rows s, windowStop every rows s) =
            (windowStart every rows e, windowStop every rows e)
          · rw [if_pos hsame]
            obtain ⟨hw1, hw2⟩ := Prod.mk.inj hsame
            obtain ⟨he1, he2, -⟩ := window_upperCount he rows e
            have hlow := windowStart_le_lowerCount he hstrict s
            have hmono := lowerCount_le_of_le rows hse
            have hle := windowStart_le_windowStop he rows s
            rw [h.readRecordSpan_ok scalarReadTexts hle (windowStop_le_length every rows s)]
            simp only
            rw [lowerBoundInRecords_between h.ordered, upperBoundInRecords_between h.ordered]
            refine ⟨.shortRange, ?_⟩
            rw [← between, between_between (by omega), ← between_counts h.ordered]
            congr 4 <;> omega
          · rw [if_neg hsame]
            exact ⟨_, rfl⟩

/-- **A range read of a fixed-record file begins at its lower bound or at the window it was looked for in**, whichever
is later. -/
theorem fixedAppendRange_ok {R : Type} [FixedRecord R] {f : ChunkFile} {rows : List R} (h : Holds R f rows)
    {every : Nat} (he : 1 ≤ every) (hs : f.sparseIndex = anchors every rows) {s e : Int}
    (hm : rangeMisses f.header s e = false) (out : List R) : fixedAppendRange f s e out
      = .ok (out ++ between rows (max (lowerCount rows s) (windowStart every rows s)) (upperCount rows e)) := by
  unfold fixedAppendRange
  rw [hm, if_neg (by simp)]
  exact h.appendBetween_ok fixedReadTexts (h.lowerBoundViaSparse_anchors he hs fixedReadTexts s)
    (h.upperBoundViaSparse_ok fixedReadTexts e) (upperCount_le_length rows e) out

/-- The row with a timestamp, if there is one. -/
def rowAt {R : Type} [FixedRecord R] (ts : Int) (rows : List R) : Option R :=
  rows.find? (fun r => decide (FixedRecord.ts r = ts))

section Lookup

variable {R : Type} [FixedRecord R] {f : ChunkFile} {rows : List R}

/-- In strict order the only row that can carry `ts` is the one at the lower bound. -/
theorem rowAt_eq (hs : rows.Pairwise (fun a b => FixedRecord.ts a < FixedRecord.ts b)) (ts : Int) :
    rowAt ts rows = rows[lowerCount rows ts]?.filter (fun r => decide (FixedRecord.ts r = ts)) := by
  induction rows with
  | nil => rfl
  | cons r rs ih =>
    have ih := ih hs.of_cons
    unfold rowAt lowerCount at *
    rcases lt_trichotomy (FixedRecord.ts r) ts with hlt | heq | hgt
    · rw [List.find?_cons_of_neg (by simp; omega), List.countP_cons_of_pos (by simpa using hlt),
        List.getElem?_cons_succ, ih]
    · rw [List.find?_cons_of_pos (by simpa using heq)]
      have h0 : (r :: rs).countP (fun r => decide (FixedRecord.ts r < ts)) = 0 := by
        rw [List.countP_eq_zero]
        intro x hx
        rcases List.mem_cons.1 hx with rfl | hx
        · simp only [decide_eq_true_eq]; omega
        · have := List.rel_of_pairwise_cons hs hx
          simp only [decide_eq_true_eq]; omega
      rw [h0, List.getElem?_cons_zero, Option.filter_some, if_pos (by simpa using heq)]
    · have hgt' : ∀ x ∈ r :: rs, ts < FixedRecord.ts x := by
        intro x hx
        rcases List.mem_cons.1 hx with rfl | hx
        · exact hgt
        · have := List.rel_of_pairwise_cons hs hx
          omega
      have h0 : (r :: rs).countP (fun r => decide (FixedRecord.ts r < ts)) = 0 := by
        rw [List.countP_eq_zero]
        intro x hx
        have := hgt' x hx
        simp only [decide_eq_true_eq]; omega
      rw [h0, List.getElem?_cons_zero, Option.filter_some, if_neg (by simp; omega), List.find?_eq_none]
      intro x hx
      have := hgt' x hx
      simp only [decide_eq_true_eq]; omega

/-- **A lookup in a file in strict order finds the row with the timestamp, if there is one.** -/
theorem findByTsInFile_ok (h : Holds R f rows) (hst : FixedRecord.allowEqualTimestamps R = false) (t : SpanTexts)
    (ts : Int) :
    findByTsInFile t f ts = .ok (rowAt ts rows) := by
  have hstrict := (ordered_iff_strict hst).1 h.ordered
  have hlen := upperCount_le_length rows ts
  have hlow := lowerCount_le_upperCount rows ts
  unfold findByTsInFile
  by_cases hout : ts < f.header.startTs ∨ f.header.endTs < ts
  · rw [if_pos hout]
    congr 1
    refine (List.find?_eq_none.2 (fun r hr => ?_)).symm
    have := h.bounds hr
    simp only [decide_eq_true_eq]
    omega
  · rw [if_neg hout, rowAt_eq hstrict]
    rcases h.sampled with h0 | ⟨every, he, hs⟩
    · rw [if_pos h0, h.lowerBound_ok]
      simp only
      rw [h.count_eq]
      by_cases hend : rows.length ≤ lowerCount rows ts
      · rw [if_pos hend, List.getElem?_eq_none hend]
        rfl
      · rw [if_neg hend, h.readRows_ok (by omega)]
        simp only
        congr 2
        unfold between
        rw [Nat.add_sub_cancel_left, List.head?_take, if_neg (by decide), List.head?_drop]
    · rw [if_neg (h.sparseIndex_ne_nil hs), h.lookupWindow_ok he hs]
      have h1 := windowStart_le_windowStop he rows ts
      have h2 := windowStop_le_length every rows ts
      obtain ⟨h3, h4, -⟩ := window_upperCount he rows ts
      have h5 := windowStart_le_lowerCount he hstrict ts
      simp only
      rw [h.readRecordSpan_ok t h1 h2]
      simp only
      rw [lowerBoundInRecords_between h.ordered]
      unfold between
      rw [List.getElem?_take, List.getElem?_drop]
      by_cases hin : lowerCount rows ts < windowStop every rows ts
      · rw [if_pos (by omega)]
        congr 3
        omega
      · -- the rows by `ts` end with the window, so the next window holds no row at `ts`
        rw [if_neg (by omega)]
        congr 1
        cases hx : rows[lowerCount rows ts]? with
        | none => rfl
        | some r =>
          have hnot := (lt_countP_iff (partitioned_le h.ordered ts) (lowerCount rows ts) r hx).not.1
            (show ¬ lowerCount rows ts < upperCount rows ts by omega)
          simp only [decide_eq_true_eq] at hnot
          rw [Option.filter_some, if_neg (by simp; omega)]
          rfl

end Lookup

end FastK
