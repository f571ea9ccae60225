import FastK.ChunkCodec
import FastK.Reader
/-!
# File offsets

The readers again, over the bytes of a file and the header and index that a layout holds.  The offset of a record,
`header_size + index * record_size`, is computed in 64 bits without a check in the searches, the point reads and the
span reads, and with one where a read is planned.  A read stops where an offset overflows (`Halt.overflow`), which is
not an error of the code.  The count of a header is unchecked, so a search begins at a record that the file does not
have, and its offset may overflow; once a search has read one record it cannot, since files are shorter than `2 ^ 63`
bytes (`search_allFit`).
-/
namespace FastK

open Search Codec

/-- How a read stops: an offset past the 64-bit integers, or an error of the code. -/
inductive Halt where
  | overflow
  | failed (e : FastKError)
  deriving DecidableEq, Repr

abbrev ReadM := Except Halt

def ReadM.lift {α : Type} : Result α → ReadM α
  | .error e => .error (.failed e)
  | .ok a => .ok a

structure CachedChunkLayout where
  header : ChunkHeader
  sparseIndex : List SparseIndexEntry

/-- A file, by its bytes; its length is a signed 64-bit integer. -/
structure RawFile where
  bytes : List Nat
  bounded : bytes.length < 2 ^ 63

/-- `header_size + index * record_size`. -/
def recordOffset (h : ChunkHeader) (index : Nat) : ReadM Nat :=
  if u64Bound ≤ h.headerSize + index * h.recordSize then .error .overflow else .ok (h.headerSize + index * h.recordSize)

/-- The same with `checked_mul` and `checked_add`. -/
def checkedOffset (h : ChunkHeader) (index : Nat) (overflow : Text) : ReadM Nat :=
  if u64Bound ≤ index * h.recordSize ∨ u64Bound ≤ index * h.recordSize + h.headerSize then
    .error (.failed (.invalidData overflow))
  else .ok (index * h.recordSize + h.headerSize)

namespace RawFile

/-! ## Reading -/

def readExact (file : RawFile) (offset len : Nat) : ReadM (List Nat) :=
  if file.bytes.length < offset + len then .error (.failed fileShort) else .ok ((file.bytes.drop offset).take len)

def readTimestampAt (file : RawFile) (h : ChunkHeader) (index : Nat) : ReadM Int := do
  let offset ← recordOffset h index
  let bytes ← file.readExact offset 8
  return ofLeBytesSigned bytes

def probe (file : RawFile) (h : ChunkHeader) (p : Int → Bool) (mid : Nat) : ReadM Bool := do
  let ts ← file.readTimestampAt h mid
  return p ts

def search (file : RawFile) (h : ChunkHeader) (p : Int → Bool) : ReadM Nat := bisectM (file.probe h p) 0 h.count

def lowerBound (file : RawFile) (h : ChunkHeader) (targetTs : Int) : ReadM Nat :=
  file.search h (fun ts => decide (ts < targetTs))

def upperBound (file : RawFile) (h : ChunkHeader) (targetTs : Int) : ReadM Nat :=
  file.search h (fun ts => decide (ts ≤ targetTs))

section Records

variable (R : Type) [FixedRecord R] [RecordCodec R]

def readRecordAt (file : RawFile) (h : ChunkHeader) (index : Nat) : ReadM R := do
  let offset ← recordOffset h index
  let bytes ← file.readExact offset (FixedRecord.byteSize R)
  .lift (RecordCodec.decodeLe bytes)

/-- The bytes cut into records. -/
def decodeRows (bytes : List Nat) (count : Nat) : Result (List R) :=
  collect RecordCodec.decodeLe ((List.range count).map (fun i =>
    (bytes.drop (i * FixedRecord.byteSize R)).take (FixedRecord.byteSize R)))

/-- What a span read checks before it computes its offset. -/
def checkSpan (t : SpanTexts) (h : ChunkHeader) (start count : Nat) : Result Unit :=
  if u64Bound ≤ start + count then .error (.invalidData t.overflow)
  else if h.count < start + count then
    .error (.invalidData (words [t.exceeds, " [", showNat start, "..", showNat (start + count),
      ") exceeds chunk row count ", showNat h.count]))
  else if u64Bound ≤ count * FixedRecord.byteSize R then .error (.invalidData t.bytes)
  else .ok ()

def readRecordSpan (t : SpanTexts) (file : RawFile) (h : ChunkHeader) (start count : Nat) : ReadM (List R) :=
  if count = 0 then .ok []
  else do
    ReadM.lift (checkSpan R t h start count)
    let offset ← recordOffset h start
    let bytes ← file.readExact offset (count * FixedRecord.byteSize R)
    .lift (decodeRows R bytes count)

/-- `lower_bound_via_sparse` and `upper_bound_via_sparse`. -/
def boundViaSparse (t : SpanTexts) (file : RawFile) (l : CachedChunkLayout) (plain : ChunkHeader → Int → ReadM Nat)
    (inRecords : List R → Int → Nat) (targetTs : Int) : ReadM Nat :=
  if l.sparseIndex = [] then plain l.header targetTs
  else do
    let window ← ReadM.lift (lookupWindow l.header.count l.sparseIndex targetTs)
    let records ← file.readRecordSpan R t l.header window.1 (window.2 - window.1)
    return window.1 + inRecords records targetTs

def lowerBoundViaSparse (t : SpanTexts) (file : RawFile) (l : CachedChunkLayout) (targetTs : Int) : ReadM Nat :=
  boundViaSparse R t file l file.lowerBound lowerBoundInRecords targetTs

def upperBoundViaSparse (t : SpanTexts) (file : RawFile) (l : CachedChunkLayout) (targetTs : Int) : ReadM Nat :=
  boundViaSparse R t file l file.upperBound upperBoundInRecords targetTs

variable {R}

/-- `append_record_span`. -/
def appendRecordSpan (t : SpanTexts) (file : RawFile) (h : ChunkHeader) (start count : Nat) (out : List R) :
    ReadM (List R) := do
  let rows ← file.readRecordSpan R t h start count
  return out ++ rows

/-- The search for both ends and the copy between them. -/
def appendBetween (t : SpanTexts) (file : RawFile) (h : ChunkHeader) (lower upper : ReadM Nat) (out : List R) :
    ReadM (List R) := do
  let startIdx ← lower
  if h.count ≤ startIdx then return out
  else
    let endExclusive ← upper
    if endExclusive ≤ startIdx then return out
    else file.appendRecordSpan t h startIdx (endExclusive - startIdx) out

variable (R)

/-- `find_by_ts_in_file`. -/
def findByTsInFile (t : SpanTexts) (file : RawFile) (l : CachedChunkLayout) (ts : Int) : ReadM (Option R) :=
  if ts < l.header.startTs ∨ l.header.endTs < ts then .ok none
  else if l.sparseIndex = [] then do
    let idx ← file.lowerBound l.header ts
    if l.header.count ≤ idx then return none
    else
      let record ← file.readRecordAt R l.header idx
      return if FixedRecord.ts record = ts then some record else none
  else do
    let window ← ReadM.lift (lookupWindow l.header.count l.sparseIndex ts)
    let records ← file.readRecordSpan R t l.header window.1 (window.2 - window.1)
    return records[lowerBoundInRecords records ts]?.filter (fun r => decide (FixedRecord.ts r = ts))

/-- `plan_range`. -/
def planRange (t : SpanTexts) (file : RawFile) (l : CachedChunkLayout) (start stop : Int) : ReadM (Nat × Nat) := do
  let first ← (if start ≤ l.header.startTs then .ok 0 else file.lowerBoundViaSparse R t l start : ReadM Nat)
  let last ← (if l.header.endTs ≤ stop then .ok l.header.count else file.upperBoundViaSparse R t l stop : ReadM Nat)
  let offset ← checkedOffset l.header first "record offset overflow"
  return (offset, last - first)

end Records

/-- `plan_tail`. -/
def planTail (h : ChunkHeader) (take : Nat) : ReadM (Nat × Nat) := do
  let rows := min take h.count
  let offset ← checkedOffset h (h.count - rows) "tail offset overflow"
  return (offset, rows)

/-! ## The kline and the scalar reader -/

def klineAppendRange (file : RawFile) (l : CachedChunkLayout) (startTs endTs : Int) (out : List KlineRecord) :
    ReadM (List KlineRecord) :=
  let twoWindows := file.appendBetween klineAppendTexts l.header
    (file.lowerBoundViaSparse KlineRecord klineReadTexts l startTs)
    (file.upperBoundViaSparse KlineRecord klineReadTexts l endTs) out
  if rangeMisses l.header startTs endTs then .ok out
  else if startTs ≤ l.header.startTs ∧ l.header.endTs ≤ endTs then
    file.appendRecordSpan klineAppendTexts l.header 0 l.header.count out
  else if isShortRange l.header startTs endTs then
    if l.sparseIndex = [] then twoWindows
    else do
      let first ← ReadM.lift (lookupWindow l.header.count l.sparseIndex startTs)
      let last ← ReadM.lift (lookupWindow l.header.count l.sparseIndex endTs)
      if last.1 ≤ first.2 then
        if last.2 < first.1 then .error (.failed (.invalidData "sparse windows are out of order"))
        else
          let filled ← file.appendRecordSpan klineAppendTexts l.header first.1 (last.2 - first.1) out
          let rows := filled.drop out.length
          let start := lowerBoundInRecords rows startTs
          let stop := upperBoundInRecords rows endTs
          return (copyWithin filled (out.length + start) (out.length + stop) out.length).take
            (out.length + stop - start)
      else twoWindows
  else file.appendBetween klineAppendTexts l.header (file.lowerBound l.header startTs)
    (file.upperBound l.header endTs) out

def scalarAppendRange (file : RawFile) (l : CachedChunkLayout) (startTs endTs : Int) (out : List ScalarRecord) :
    ReadM (List ScalarRecord) :=
  let twoWindows := file.appendBetween scalarAppendTexts l.header
    (file.lowerBoundViaSparse ScalarRecord scalarReadTexts l startTs)
    (file.upperBoundViaSparse ScalarRecord scalarReadTexts l endTs) out
  if rangeMisses l.header startTs endTs then .ok out
  else if startTs ≤ l.header.startTs ∧ l.header.endTs ≤ endTs then
    file.appendRecordSpan scalarAppendTexts l.header 0 l.header.count out
  else if isShortRange l.header startTs endTs then
    if l.sparseIndex = [] then twoWindows
    else do
      let window ← ReadM.lift (lookupWindow l.header.count l.sparseIndex startTs)
      let other ← ReadM.lift (lookupWindow l.header.count l.sparseIndex endTs)
      if window = other then
        let rows ← file.readRecordSpan ScalarRecord scalarReadTexts l.header window.1 (window.2 - window.1)
        let start := lowerBoundInRecords rows startTs
        let stop := upperBoundInRecords rows endTs
        return out ++ (rows.drop start).take (stop - start)
      else twoWindows
  else file.appendBetween scalarAppendTexts l.header (file.lowerBound l.header startTs)
    (file.upperBound l.header endTs) out

/-- `read_row_ranges_from_file`: the rows of ranges, both of whose ends are included. -/
def readRowRanges (file : RawFile) (h : ChunkHeader) : List (Nat × Nat) → List ScalarRecord → ReadM (List ScalarRecord)
  | [], out => .ok out
  | (start, stop) :: rest, out =>
    if stop < start then .error (.failed (.invalidData "scalar row span overflow"))
    else do
      let out' ← file.appendRecordSpan scalarAppendTexts h start (stop - start + 1) out
      file.readRowRanges h rest out'

/-! ## The fixed reader -/

section Fixed

variable {R : Type} [FixedRecord R] [RecordCodec R]

def fixedAppendRange (file : RawFile) (l : CachedChunkLayout) (startTs endTs : Int) (out : List R) : ReadM (List R) :=
  if rangeMisses l.header startTs endTs then .ok out
  else file.appendBetween fixedReadTexts l.header (file.lowerBoundViaSparse R fixedReadTexts l startTs)
    (file.upperBoundViaSparse R fixedReadTexts l endTs) out

variable (R)

/-- `read_tail_in_chunk`. -/
def fixedReadTail (file : RawFile) (h : ChunkHeader) (n : Nat) : ReadM (List R) :=
  if n = 0 then .ok []
  else file.readRecordSpan R fixedReadTexts h (h.count - n) (h.count - (h.count - n))

/-! ## The replay reader -/

/-- The loop of `read_batch_from_chunk`; the first argument is the room left. -/
def readBatch (file : RawFile) (h : ChunkHeader) (endTs : Option Int) : Nat → Nat → List R → ReadM (List R × Nat)
  | 0, index, out => .ok (out, index)
  | room + 1, index, out =>
    if h.count ≤ index then .ok (out, index)
    else do
      let record ← file.readRecordAt R h index
      if endTs.any (fun e => decide (e < FixedRecord.ts record)) then return (out, h.count)
      else file.readBatch h endTs room (index + 1) (out ++ [record])

/-- The batches a cursor reads from one chunk, each from where the one before ended. -/
def readBatches (file : RawFile) (h : ChunkHeader) (endTs : Option Int) : List Nat → Nat → ReadM (List (List R))
  | [], _ => .ok []
  | size :: sizes, index => do
    let batch ← file.readBatch R h endTs size index []
    let rest ← file.readBatches h endTs sizes batch.2
    return batch.1 :: rest

/-- What a cursor reads from a chunk: from the first record at or after a timestamp in the first chunk of a replay,
from the first record in the others. -/
def replayChunk (file : RawFile) (h : ChunkHeader) (seek : Option Int) (endTs : Option Int) (sizes : List Nat) :
    ReadM (List (List R)) := do
  let index ← match seek with
    | some ts => file.lowerBound h ts
    | none => .ok 0
  file.readBatches R h endTs sizes index

end Fixed

end RawFile

/-! ## Reads that no offset stops -/

/-- The read does not stop at an overflow: it ends, or with an error of the code. -/
def OffsetSafe {α : Type} (x : ReadM α) : Prop := x ≠ .error .overflow

section OffsetSafe

variable {α β : Type}

theorem sound_ok (a : α) : OffsetSafe (.ok a : ReadM α) := fun h => by cases h

theorem sound_failed (e : FastKError) : OffsetSafe (.error (.failed e) : ReadM α) := fun h => by cases h

theorem sound_lift (x : Result α) : OffsetSafe (ReadM.lift x) := by
  cases x with
  | error e => exact sound_failed e
  | ok a => exact sound_ok a

theorem sound_bind {x : ReadM α} {f : α → ReadM β} (hx : OffsetSafe x) (hf : ∀ a, x = .ok a → OffsetSafe (f a)) :
    OffsetSafe (x >>= f) := by
  cases x with
  | error e => exact fun h => hx (by cases h; rfl)
  | ok a => exact hf a rfl

theorem sound_of_bind {x : ReadM α} {f : α → ReadM β} (h : OffsetSafe (x >>= f)) : OffsetSafe x := by
  rintro rfl
  exact h rfl

theorem bind_ok {x : ReadM α} {f : α → ReadM β} {b : β} (h : x >>= f = .ok b) : ∃ a, x = .ok a ∧ f a = .ok b := by
  cases x with
  | error e => cases h
  | ok a => exact ⟨a, rfl, h⟩

end OffsetSafe

/-- The offset of the record is a 64-bit integer. -/
def OffsetFits (h : ChunkHeader) (index : Nat) : Prop := h.headerSize + index * h.recordSize < u64Bound

instance (h : ChunkHeader) (index : Nat) : Decidable (OffsetFits h index) := inferInstanceAs (Decidable (_ < _))

def AllFit (h : ChunkHeader) : Prop := ∀ index < h.count, OffsetFits h index

/-- The record a search begins at has an offset. -/
def MiddleFits (h : ChunkHeader) : Prop := h.count = 0 ∨ OffsetFits h (h.count / 2)

instance (h : ChunkHeader) : Decidable (MiddleFits h) := inferInstanceAs (Decidable (_ ∨ _))

/-- The last record has an offset. -/
def LastFits (h : ChunkHeader) : Prop := h.count = 0 ∨ OffsetFits h (h.count - 1)

instance (h : ChunkHeader) : Decidable (LastFits h) := inferInstanceAs (Decidable (_ ∨ _))

section OffsetFits

variable {h : ChunkHeader} {i j : Nat}

theorem OffsetFits.mono (hf : OffsetFits h j) (hij : i ≤ j) : OffsetFits h i :=
  lt_of_le_of_lt (Nat.add_le_add_left (Nat.mul_le_mul_right h.recordSize hij) h.headerSize) hf

theorem lastFits_iff : LastFits h ↔ AllFit h := by
  constructor
  · rintro (hc | hf) i hi
    · omega
    · exact hf.mono (by omega)
  · intro hall
    by_cases hc : h.count = 0
    · exact .inl hc
    · exact .inr (hall _ (by omega))

theorem AllFit.middleFits (hall : AllFit h) : MiddleFits h := by
  by_cases hc : h.count = 0
  · exact .inl hc
  · exact .inr (hall _ (by omega))

theorem sound_recordOffset : OffsetSafe (recordOffset h i) ↔ OffsetFits h i := by
  unfold recordOffset OffsetFits
  by_cases hlt : u64Bound ≤ h.headerSize + i * h.recordSize
  · rw [if_pos hlt]
    exact iff_of_false (fun hs => hs rfl) (not_lt.2 hlt)
  · rw [if_neg hlt]
    exact iff_of_true (sound_ok _) (not_le.1 hlt)

theorem recordOffset_eq {offset : Nat} (ho : recordOffset h i = .ok offset) :
    offset = h.headerSize + i * h.recordSize := by
  unfold recordOffset at ho
  by_cases hlt : u64Bound ≤ h.headerSize + i * h.recordSize
  · rw [if_pos hlt] at ho
    cases ho
  · rw [if_neg hlt] at ho
    exact (Except.ok.inj ho).symm

theorem sound_checkedOffset (overflow : Text) : OffsetSafe (checkedOffset h i overflow) := by
  unfold checkedOffset
  split
  · exact sound_failed _
  · exact sound_ok _

end OffsetFits

namespace RawFile

variable {file : RawFile} {h : ChunkHeader}

theorem sound_readExact {offset len : Nat} : OffsetSafe (file.readExact offset len) := by
  unfold readExact
  split
  · exact sound_failed _
  · exact sound_ok _

/-- What is read lies within the file. -/
theorem readExact_bound {offset len : Nat} {bytes : List Nat} (hr : file.readExact offset len = .ok bytes) :
    offset + len < 2 ^ 63 := by
  unfold readExact at hr
  by_cases hlt : file.bytes.length < offset + len
  · rw [if_pos hlt] at hr
    cases hr
  · have := file.bounded
    omega

theorem sound_readTimestampAt {i : Nat} : OffsetSafe (file.readTimestampAt h i) ↔ OffsetFits h i := by
  rw [← sound_recordOffset]
  constructor
  · intro hs ho
    refine hs ?_
    unfold readTimestampAt
    rw [ho]
    rfl
  · intro hs
    exact sound_bind hs (fun _ _ => sound_bind sound_readExact (fun _ _ => sound_ok _))

theorem readTimestampAt_bound {i : Nat} {ts : Int} (hr : file.readTimestampAt h i = .ok ts) :
    h.headerSize + i * h.recordSize + 8 < 2 ^ 63 := by
  obtain ⟨offset, ho, hr⟩ := bind_ok hr
  obtain ⟨bytes, hb, -⟩ := bind_ok hr
  rw [← recordOffset_eq ho]
  exact readExact_bound hb

/-- **A file that has the record in the middle has offsets for all**: its length is half of what an offset may be. -/
theorem allFit_of_middle {ts : Int} (hr : file.readTimestampAt h (h.count / 2) = .ok ts) : AllFit h := by
  intro i hi
  have hbound := readTimestampAt_bound hr
  have hle : i * h.recordSize ≤ 2 * (h.count / 2 * h.recordSize) := by
    rw [← Nat.mul_assoc]
    exact Nat.mul_le_mul_right _ (by omega)
  unfold OffsetFits u64Bound
  omega

variable {p : Int → Bool}

theorem search_allFit {i : Nat} (hs : file.search h p = .ok i) : AllFit h := by
  by_cases hc : h.count = 0
  · intro j hj
    omega
  · obtain ⟨b, hb⟩ := (bisectM_middle (show 0 < h.count by omega)).2 i hs
    obtain ⟨ts, hts, -⟩ := bind_ok hb
    rw [Nat.zero_add, Nat.sub_zero] at hts
    exact allFit_of_middle hts

/-- **A search is sound exactly when the record it begins at has an offset.** -/
theorem search_sound_iff : OffsetSafe (file.search h p) ↔ MiddleFits h := by
  constructor
  · intro hs
    by_contra hno
    obtain ⟨hc, hf⟩ := not_or.1 hno
    refine hs ((bisectM_middle (show 0 < h.count by omega)).1 _ ?_)
    rw [Nat.zero_add, Nat.sub_zero]
    have hover : file.readTimestampAt h (h.count / 2) = .error .overflow := by
      by_contra hne
      exact hf (sound_readTimestampAt.1 hne)
    unfold probe
    rw [hover]
    rfl
  · intro hm hover
    obtain ⟨i, -, hi, hprobe⟩ := probe_of_bisectM_error hover
    have hnot : ¬ OffsetFits h i := fun hf =>
      absurd hprobe (sound_bind (sound_readTimestampAt.2 hf) (fun _ _ => sound_ok _))
    have hmid := hm.resolve_left (by omega)
    cases hts : file.readTimestampAt h (h.count / 2) with
    | ok ts => exact hnot (allFit_of_middle hts i hi)
    | error e =>
      -- the search ends where it begins, with the error of that read
      have hfirst := (bisectM_middle (show 0 < h.count by omega)).1 e (show file.probe h p (0 + (h.count - 0) / 2)
        = .error e by
        unfold probe
        rw [Nat.zero_add, Nat.sub_zero, hts]
        rfl)
      have he : e = .overflow := Except.error.inj (hfirst.symm.trans hover)
      exact absurd (hts.trans (congrArg _ he)) (sound_readTimestampAt.2 hmid)

/-! ## Spans and point reads -/

section Records

variable {R : Type} [FixedRecord R] [RecordCodec R] {t : SpanTexts} {l : CachedChunkLayout} {out : List R}

omit [RecordCodec R] in
theorem checkSpan_ok {start count : Nat} (hc : checkSpan R t h start count = .ok ()) : start + count ≤ h.count := by
  unfold checkSpan at hc
  by_cases h1 : u64Bound ≤ start + count
  · rw [if_pos h1] at hc
    cases hc
  · rw [if_neg h1] at hc
    by_cases h2 : h.count < start + count
    · rw [if_pos h2] at hc
      cases hc
    · omega

/-- A span read is sound where its first record has an offset, or lies past the end. -/
theorem sound_span {start count : Nat} (hf : start < h.count → OffsetFits h start) :
    OffsetSafe (file.readRecordSpan R t h start count) := by
  unfold readRecordSpan
  by_cases hc : count = 0
  · rw [if_pos hc]
    exact sound_ok _
  · rw [if_neg hc]
    refine sound_bind (sound_lift _) (fun _ hu => ?_)
    cases hcheck : checkSpan R t h start count with
    | error e =>
      rw [hcheck] at hu
      cases hu
    | ok _ =>
      have hle := checkSpan_ok hcheck
      exact sound_bind (sound_recordOffset.2 (hf (by omega))) (fun _ _ => sound_bind sound_readExact (fun _ _ =>
        sound_lift _))

theorem sound_appendSpan {start count : Nat} (hf : start < h.count → OffsetFits h start) :
    OffsetSafe (file.appendRecordSpan t h start count out) :=
  sound_bind (sound_span hf) (fun _ _ => sound_ok _)

theorem sound_readRecordAt {i : Nat} (hf : OffsetFits h i) : OffsetSafe (file.readRecordAt R h i) :=
  sound_bind (sound_recordOffset.2 hf) (fun _ _ => sound_bind sound_readExact (fun _ _ => sound_lift _))

/-- A record that is read is followed by an offset. -/
theorem readRecordAt_next {i : Nat} {r : R} (hsize : h.recordSize = FixedRecord.byteSize R)
    (hr : file.readRecordAt R h i = .ok r) :
    OffsetFits h (i + 1) := by
  obtain ⟨offset, ho, hr⟩ := bind_ok hr
  obtain ⟨bytes, hb, -⟩ := bind_ok hr
  have hbound := readExact_bound hb
  rw [recordOffset_eq ho, ← hsize] at hbound
  unfold OffsetFits u64Bound
  rw [Nat.succ_mul]
  omega

/-- A search that may be followed by reads of the records it names. -/
structure Guarded (h : ChunkHeader) (x : ReadM Nat) : Prop where
  sound : OffsetSafe x
  fits : ∀ i, x = .ok i → AllFit h

theorem guarded_search {p : Int → Bool} (hm : MiddleFits h) : Guarded h (file.search h p) :=
  ⟨search_sound_iff.2 hm, fun _ => search_allFit⟩

/-- A layout without an index whose searches are sound, or one whose records all have offsets. -/
def Ready (l : CachedChunkLayout) : Prop := l.sparseIndex = [] ∧ MiddleFits l.header ∨ AllFit l.header

theorem Ready.middleFits (hr : Ready l) : MiddleFits l.header := by
  rcases hr with ⟨-, hm⟩ | hall
  · exact hm
  · exact hall.middleFits

theorem Ready.allFit (hr : Ready l) (hs : l.sparseIndex ≠ []) : AllFit l.header := hr.resolve_left (fun h => hs h.1)

theorem Ready.guarded_bound (hr : Ready l) {plain : ChunkHeader → Int → ReadM Nat} {inRecords : List R → Int → Nat}
    {targetTs : Int} (hplain : Guarded l.header (plain l.header targetTs)) :
    Guarded l.header (boundViaSparse R t file l plain inRecords targetTs) := by
  unfold boundViaSparse
  by_cases hs : l.sparseIndex = []
  · rw [if_pos hs]
    exact hplain
  · rw [if_neg hs]
    have hall := hr.allFit hs
    refine ⟨sound_bind (sound_lift _) (fun _ _ => ?_), fun _ _ => hall⟩
    exact sound_bind (sound_span (fun hlt => hall _ hlt)) (fun _ _ => sound_ok _)

theorem Ready.guarded_lower (hr : Ready l) {targetTs : Int} :
    Guarded l.header (file.lowerBoundViaSparse R t l targetTs) :=
  hr.guarded_bound (guarded_search hr.middleFits)

theorem Ready.guarded_upper (hr : Ready l) {targetTs : Int} :
    Guarded l.header (file.upperBoundViaSparse R t l targetTs) :=
  hr.guarded_bound (guarded_search hr.middleFits)

theorem sound_appendBetween {lower upper : ReadM Nat} (hl : Guarded h lower) (hu : Guarded h upper) :
    OffsetSafe (file.appendBetween t h lower upper out) := by
  refine sound_bind hl.sound (fun i hi => ?_)
  by_cases hc : h.count ≤ i
  · rw [if_pos hc]
    exact sound_ok _
  · rw [if_neg hc]
    refine sound_bind hu.sound (fun j _ => ?_)
    by_cases hij : j ≤ i
    · rw [if_pos hij]
      exact sound_ok _
    · rw [if_neg hij]
      exact sound_appendSpan (fun hlt => hl.fits i hi i hlt)

theorem Ready.sound_find (hr : Ready l) {ts : Int} : OffsetSafe (file.findByTsInFile R t l ts) := by
  unfold findByTsInFile
  by_cases hout : ts < l.header.startTs ∨ l.header.endTs < ts
  · rw [if_pos hout]
    exact sound_ok _
  · rw [if_neg hout]
    by_cases hs : l.sparseIndex = []
    · rw [if_pos hs]
      have hg : Guarded l.header (file.lowerBound l.header ts) := guarded_search hr.middleFits
      refine sound_bind hg.sound (fun i hi => ?_)
      by_cases hc : l.header.count ≤ i
      · rw [if_pos hc]
        exact sound_ok _
      · rw [if_neg hc]
        exact sound_bind (sound_readRecordAt (hg.fits i hi i (not_le.1 hc))) (fun _ _ => sound_ok _)
    · rw [if_neg hs]
      have hall := hr.allFit hs
      exact sound_bind (sound_lift _) (fun _ _ => sound_bind (sound_span (fun hlt => hall _ hlt)) (fun _ _ =>
        sound_ok _))

theorem Ready.sound_planRange (hr : Ready l) {start stop : Int} : OffsetSafe (file.planRange R t l start stop) := by
  unfold planRange
  refine sound_bind ?_ (fun _ _ => sound_bind ?_ (fun _ _ => sound_bind (sound_checkedOffset _) (fun _ _ =>
    sound_ok _)))
  · split
    · exact sound_ok _
    · exact hr.guarded_lower.sound
  · split
    · exact sound_ok _
    · exact hr.guarded_upper.sound

end Records

theorem sound_planTail {take : Nat} : OffsetSafe (planTail h take) := sound_bind (sound_checkedOffset _)
    (fun _ _ => sound_ok _)

/-! ## The readers -/

section Appends

variable {l : CachedChunkLayout} {startTs endTs : Int}

theorem Ready.sound_klineAppendRange (hr : Ready l) (hstart : OffsetFits l.header 0) {out : List KlineRecord} :
    OffsetSafe (file.klineAppendRange l startTs endTs out) := by
  have htwo : OffsetSafe (file.appendBetween klineAppendTexts l.header
    (file.lowerBoundViaSparse KlineRecord klineReadTexts l startTs)
      (file.upperBoundViaSparse KlineRecord klineReadTexts l endTs) out)
        := sound_appendBetween hr.guarded_lower hr.guarded_upper
  unfold klineAppendRange
  simp only
  by_cases hmiss : rangeMisses l.header startTs endTs = true
  · rw [if_pos hmiss]
    exact sound_ok _
  rw [if_neg hmiss]
  by_cases hfull : startTs ≤ l.header.startTs ∧ l.header.endTs ≤ endTs
  · rw [if_pos hfull]
    exact sound_appendSpan (fun _ => hstart)
  rw [if_neg hfull]
  by_cases hshort : isShortRange l.header startTs endTs = true
  · rw [if_pos hshort]
    by_cases hs : l.sparseIndex = []
    · rw [if_pos hs]
      exact htwo
    · rw [if_neg hs]
      refine sound_bind (sound_lift _) (fun first _ => sound_bind (sound_lift _) (fun last _ => ?_))
      by_cases hadj : last.1 ≤ first.2
      · rw [if_pos hadj]
        by_cases hback : last.2 < first.1
        · rw [if_pos hback]
          exact sound_failed _
        · rw [if_neg hback]
          exact sound_bind (sound_appendSpan (fun hlt => hr.allFit hs _ hlt)) (fun _ _ => sound_ok _)
      · rw [if_neg hadj]
        exact htwo
  · rw [if_neg hshort]
    exact sound_appendBetween (guarded_search hr.middleFits) (guarded_search hr.middleFits)

theorem Ready.sound_scalarAppendRange (hr : Ready l) (hstart : OffsetFits l.header 0) {out : List ScalarRecord} :
    OffsetSafe (file.scalarAppendRange l startTs endTs out) := by
  have htwo : OffsetSafe (file.appendBetween scalarAppendTexts l.header
    (file.lowerBoundViaSparse ScalarRecord scalarReadTexts l startTs)
      (file.upperBoundViaSparse ScalarRecord scalarReadTexts l endTs) out)
        := sound_appendBetween hr.guarded_lower hr.guarded_upper
  unfold scalarAppendRange
  simp only
  by_cases hmiss : rangeMisses l.header startTs endTs = true
  · rw [if_pos hmiss]
    exact sound_ok _
  rw [if_neg hmiss]
  by_cases hfull : startTs ≤ l.header.startTs ∧ l.header.endTs ≤ endTs
  · rw [if_pos hfull]
    exact sound_appendSpan (fun _ => hstart)
  rw [if_neg hfull]
  by_cases hshort : isShortRange l.header startTs endTs = true
  · rw [if_pos hshort]
    by_cases hs : l.sparseIndex = []
    · rw [if_pos hs]
      exact htwo
    · rw [if_neg hs]
      refine sound_bind (sound_lift _) (fun window _ => sound_bind (sound_lift _) (fun other _ => ?_))
      by_cases hsame : window = other
      · rw [if_pos hsame]
        exact sound_bind (sound_span (fun hlt => hr.allFit hs _ hlt)) (fun _ _ => sound_ok _)
      · rw [if_neg hsame]
        exact htwo
  · rw [if_neg hshort]
    exact sound_appendBetween (guarded_search hr.middleFits) (guarded_search hr.middleFits)

/-- Rows named by 32-bit numbers always have offsets. -/
theorem sound_readRowRanges (hfit : ∀ row, row < 2 ^ 32 → OffsetFits h row) : ∀ {ranges : List (Nat × Nat)}
    {out : List ScalarRecord},
    (∀ r ∈ ranges, r.1 < 2 ^ 32) → OffsetSafe (file.readRowRanges h ranges out)
  | [], _, _ => sound_ok _
  | (start, stop) :: rest, out, hranges => by
    unfold readRowRanges
    by_cases hback : stop < start
    · rw [if_pos hback]
      exact sound_failed _
    · rw [if_neg hback]
      rw [List.forall_mem_cons] at hranges
      exact sound_bind (sound_appendSpan (fun _ => hfit start hranges.1)) (fun _ _ =>
        sound_readRowRanges hfit hranges.2)

variable {R : Type} [FixedRecord R] [RecordCodec R]

theorem Ready.sound_fixedAppendRange (hr : Ready l) {out : List R} :
    OffsetSafe (file.fixedAppendRange l startTs endTs out) := by
  unfold fixedAppendRange
  split
  · exact sound_ok _
  · exact sound_appendBetween hr.guarded_lower hr.guarded_upper

theorem sound_fixedReadTail (hall : AllFit h) {n : Nat} : OffsetSafe (file.fixedReadTail R h n) := by
  unfold fixedReadTail
  split
  · exact sound_ok _
  · exact sound_span (fun hlt => hall _ hlt)

end Appends

/-! ## Replays -/

section Replays

variable {R : Type} [FixedRecord R] [RecordCodec R] {endTs : Option Int}

/-- A cursor stands at a record that has an offset, or past the last one. -/
def Reachable (h : ChunkHeader) (index : Nat) : Prop := index < h.count → OffsetFits h index

theorem readBatch_sound (hsize : h.recordSize = FixedRecord.byteSize R) : ∀ {room index : Nat}
    {out : List R}, Reachable h index →
    OffsetSafe (file.readBatch R h endTs room index out) ∧ ∀ r, file.readBatch R h endTs room index out = .ok r →
      Reachable h r.2
  | 0, index, out, hi => ⟨sound_ok _, fun r hr => by
      obtain rfl := Except.ok.inj hr
      exact hi⟩
  | room + 1, index, out, hi => by
    unfold readBatch
    by_cases hend : h.count ≤ index
    · rw [if_pos hend]
      refine ⟨sound_ok _, fun r hr => ?_⟩
      obtain rfl := Except.ok.inj hr
      exact hi
    · rw [if_neg hend]
      have hnext : ∀ record, file.readRecordAt R h index = .ok record →
          OffsetSafe (if endTs.any (fun e => decide (e < FixedRecord.ts record)) then (.ok
            (out, h.count) : ReadM (List R × Nat))
            else file.readBatch R h endTs room (index + 1) (out ++ [record])) ∧
          ∀ r, (if endTs.any (fun e => decide (e < FixedRecord.ts record)) then (.ok
            (out, h.count) : ReadM (List R × Nat))
            else file.readBatch R h endTs room (index + 1) (out ++ [record])) = .ok r → Reachable h r.2 := by
        intro record hrec
        split
        · refine ⟨sound_ok _, fun r hr => ?_⟩
          obtain rfl := Except.ok.inj hr
          exact fun hlt => absurd hlt (Nat.lt_irrefl _)
        · exact readBatch_sound hsize (fun _ => readRecordAt_next hsize hrec)
      refine ⟨sound_bind (sound_readRecordAt (hi (not_le.1 hend))) (fun record hrec => (hnext record hrec).1),
        fun r hr => ?_⟩
      obtain ⟨record, hrec, hr⟩ := bind_ok hr
      exact (hnext record hrec).2 r hr

theorem sound_readBatches (hsize : h.recordSize = FixedRecord.byteSize R) : ∀ {sizes : List Nat}
    {index : Nat}, Reachable h index →
    OffsetSafe (file.readBatches R h endTs sizes index)
  | [], _, _ => sound_ok _
  | size :: sizes, index, hi => by
    have hbatch := @readBatch_sound file h R _ _ endTs hsize size index [] hi
    exact sound_bind hbatch.1 (fun batch hb => sound_bind (sound_readBatches hsize (hbatch.2 batch hb)) (fun _ _ =>
      sound_ok _))

theorem sound_replayChunk (hsize : h.recordSize = FixedRecord.byteSize R) (hstart : OffsetFits h 0)
    (hm : MiddleFits h) {seek : Option Int} {sizes : List Nat} :
    OffsetSafe (file.replayChunk R h seek endTs sizes) := by
  cases seek with
  | none => exact sound_bind (sound_ok 0) (fun i hi => sound_readBatches hsize (Except.ok.inj hi ▸ fun _ => hstart))
  | some ts =>
    have hg : Guarded h (file.lowerBound h ts) := guarded_search hm
    exact sound_bind hg.sound (fun i hi => sound_readBatches hsize (fun hlt => hg.fits i hi i hlt))

end Replays

/-! ## What a sound reader says of the header -/

section Necessity

variable {R : Type} [FixedRecord R] [RecordCodec R] {t : SpanTexts} {l : CachedChunkLayout}

theorem fits_of_span {start count : Nat} (hc : count ≠ 0) (hcheck : checkSpan R t h start count = .ok ())
    (hs : OffsetSafe (file.readRecordSpan R t h start count)) : OffsetFits h start := by
  unfold readRecordSpan at hs
  rw [if_neg hc, hcheck] at hs
  exact sound_recordOffset.1 (sound_of_bind hs)

omit [RecordCodec R] in
/-- The span of the last record passes the checks. -/
theorem checkSpan_last (hpos : 0 < h.count) (hlt : h.count < u64Bound) (hsize : FixedRecord.byteSize R < u64Bound) :
    checkSpan R t h (h.count - 1) 1 = .ok () := by
  unfold checkSpan
  rw [if_neg (by omega), if_neg (by omega), if_neg (by omega)]

/-- A search for the first timestamp begins in the middle. -/
theorem middleFits_of_find (hs : l.sparseIndex = []) (horder : 0 < l.header.count → l.header.startTs ≤ l.header.endTs)
    (hfind : OffsetSafe (file.findByTsInFile R t l l.header.startTs)) : MiddleFits l.header := by
  by_cases hc : l.header.count = 0
  · exact .inl hc
  · unfold findByTsInFile at hfind
    have := horder (by omega)
    rw [if_neg (by omega), if_pos hs] at hfind
    exact search_sound_iff.1 (sound_of_bind hfind)

/-- An index may name the last record only. -/
theorem lookupWindow_last {count n : Nat} {ts : Int} (hpos : 0 < count) (hn : 0 < n) :
    lookupWindow count (List.replicate n ⟨ts, count - 1⟩) ts = .ok (count - 1, count) := by
  have hall : ∀ e ∈ List.replicate n (⟨ts, count - 1⟩ : SparseIndexEntry),
    (fun e : SparseIndexEntry => decide (e.ts ≤ ts)) e = true := by
    intro e he
    rw [List.eq_of_mem_replicate he]
    exact decide_eq_true (le_refl ts)
  have hpoint : partitionPoint
    (fun e => decide (e.ts ≤ ts)) (List.replicate n (⟨ts, count - 1⟩ : SparseIndexEntry)) = n := by
    rw [partitionPoint_eq (List.pairwise_of_forall_mem_list (fun a ha b _ _ => hall a ha)),
      List.countP_eq_length.2 hall, List.length_replicate]
  unfold lookupWindow
  rw [if_neg (not_or.2 ⟨by omega, by simp; omega⟩), hpoint]
  have hlast : (List.replicate n (⟨ts, count - 1⟩ : SparseIndexEntry))[n - 1]? = some ⟨ts, count - 1⟩ := by
    rw [List.getElem?_replicate, if_pos (by omega)]
  have hend : (List.replicate n (⟨ts, count - 1⟩ : SparseIndexEntry))[n - 1 + 1]? = none := by
    rw [List.getElem?_replicate, if_neg (by omega)]
  simp only [hlast, hend, Option.elim]
  rw [if_neg (by omega)]

theorem lastFits_of_find {n : Nat} (hn : 0 < n) (horder : 0 < h.count → h.startTs ≤ h.endTs) (hlt : h.count < u64Bound)
    (hsize : FixedRecord.byteSize R < u64Bound)
    (hfind : OffsetSafe (file.findByTsInFile R t ⟨h, List.replicate n ⟨h.startTs, h.count - 1⟩⟩ h.startTs)) :
    LastFits h := by
  by_cases hc : h.count = 0
  · exact .inl hc
  · have hpos : 0 < h.count := by omega
    have := horder hpos
    unfold findByTsInFile at hfind
    rw [if_neg (by simp only; omega), if_neg (by simp; omega), lookupWindow_last hpos hn] at hfind
    have hspan : OffsetSafe (file.readRecordSpan R t h (h.count - 1) (h.count - (h.count - 1))) := sound_of_bind hfind
    rw [show h.count - (h.count - 1) = 1 by omega] at hspan
    exact .inr (fits_of_span (by decide) (checkSpan_last hpos hlt hsize) hspan)

theorem lastFits_of_tail (hlt : h.count < u64Bound) (hsize : FixedRecord.byteSize R < u64Bound)
    (htail : OffsetSafe (file.fixedReadTail R h 1)) :
    LastFits h := by
  by_cases hc : h.count = 0
  · exact .inl hc
  · unfold fixedReadTail at htail
    rw [if_neg (by decide), show h.count - (h.count - 1) = 1 by omega] at htail
    exact .inr (fits_of_span (by decide) (checkSpan_last (by omega) hlt hsize) htail)

end Necessity

/-! ## The readers of a chunk -/

structure KlineSound (file : RawFile) (l : CachedChunkLayout) : Prop where
  find : ∀ ts, OffsetSafe (file.findByTsInFile KlineRecord klineReadTexts l ts)
  appendRange : ∀ startTs endTs out, OffsetSafe (file.klineAppendRange l startTs endTs out)
  planRange : ∀ start stop, OffsetSafe (file.planRange KlineRecord klineReadTexts l start stop)
  planTail : ∀ take, OffsetSafe (RawFile.planTail l.header take)

structure ScalarSound (file : RawFile) (l : CachedChunkLayout) : Prop where
  find : ∀ ts, OffsetSafe (file.findByTsInFile ScalarRecord scalarReadTexts l ts)
  appendRange : ∀ startTs endTs out, OffsetSafe (file.scalarAppendRange l startTs endTs out)
  planRange : ∀ start stop, OffsetSafe (file.planRange ScalarRecord scalarReadTexts l start stop)
  rowRanges : ∀ ranges out, (∀ r ∈ ranges, r.1 < 2 ^ 32) → OffsetSafe (file.readRowRanges l.header ranges out)

structure FixedSound (R : Type) [FixedRecord R] [RecordCodec R] (file : RawFile) (l : CachedChunkLayout) : Prop where
  appendRange : ∀ startTs endTs (out : List R), OffsetSafe (file.fixedAppendRange l startTs endTs out)
  readTail : ∀ n, OffsetSafe (file.fixedReadTail R l.header n)

def ReplaySound (R : Type) [FixedRecord R] [RecordCodec R] (file : RawFile) (h : ChunkHeader) : Prop :=
  ∀ seek endTs sizes, OffsetSafe (file.replayChunk R h seek endTs sizes)

end RawFile

/-! ## Accepted headers -/

/-- What `read_from` lets through. -/
structure ChunkHeader.Accepted (h : ChunkHeader) : Prop where
  valid : h.validate = .ok ()
  count_lt : h.count < u64Bound
  recordSize_lt : h.recordSize < 2 ^ 32

namespace ChunkHeader

theorem yields_readWords {version headerSize : Nat} :
    Yields (· < 256) (fun h : ChunkHeader => h.count < u64Bound ∧ h.recordSize < 2 ^ 32)
    (readWords version headerSize) := by
  have hword : Yields (· < 256) (fun _ => True) readWord := yields_unsigned.mono (fun _ _ => trivial)
  have hsigned : Yields (· < 256) (fun _ => True) readSignedWord := yields_signed
  have hcount : ∀ {f : Nat → Reader Nat FastKError ChunkHeader}, (∀ count, count < u64Bound →
    Yields (· < 256) (fun h => h.count < u64Bound ∧ h.recordSize < 2 ^ 32) (f count)) →
      Yields (· < 256) (fun h => h.count < u64Bound ∧ h.recordSize < 2 ^ 32) (readWord >>= f) :=
    fun hf => yields_unsigned.bind (fun count hc => hf count (lt_of_lt_of_eq hc (by decide)))
  unfold readWords
  by_cases hv : chunkVersionV2 ≤ version
  · simp only [if_pos hv]
    refine hword.bind (fun _ _ =>
      hword.bind (fun _ _ => hword.bind (fun _ _ => hword.bind (fun _ _ => hword.bind (fun _ _ => ?_)))))
    refine hsigned.bind (fun _ _ => hsigned.bind (fun _ _ => hsigned.bind (fun _ _ => hcount (fun count hlt => ?_))))
    exact hword.bind (fun _ _ => hword.bind (fun _ _ =>
      hword.bind (fun _ _ => hword.bind (fun _ _ => yields_pure ⟨hlt, Nat.mod_lt _ (by decide)⟩))))
  · simp only [if_neg hv, pure_bind]
    refine hword.bind (fun _ _ => hword.bind (fun _ _ => hword.bind (fun _ _ => ?_)))
    refine hsigned.bind (fun _ _ => hsigned.bind (fun _ _ => hsigned.bind (fun _ _ => hcount (fun count hlt => ?_))))
    exact hword.bind (fun _ _ => yields_pure ⟨hlt, Nat.mod_lt _ (by decide)⟩)

theorem fromLeBytes_accepted {bytes : List Nat} {h : ChunkHeader} (hb : ∀ b ∈ bytes, b < 256)
    (hr : fromLeBytes bytes = .ok h) : h.Accepted := by
  unfold fromLeBytes at hr
  split at hr
  · cases hr
  · cases hwords : readWords (ofLeBytes ((bytes.drop 8).take 8) % 2 ^ 32)
      (ofLeBytes ((bytes.drop 16).take 8) % 2 ^ 32) (bytes.drop 24) with
    | error e =>
      rw [hwords] at hr
      cases hr
    | ok p =>
      rw [hwords] at hr
      simp only at hr
      split at hr
      · cases hr
      · cases hv : p.1.validate with
        | error e =>
          rw [hv] at hr
          cases hr
        | ok u =>
          rw [hv] at hr
          obtain rfl := Except.ok.inj hr
          have hbounds := (yields_readWords _ _ _ (fun t ht => hb t (List.mem_of_mem_drop ht)) hwords).1
          exact ⟨hv, hbounds.1, hbounds.2⟩

theorem readFrom_accepted {bytes rest : List Nat} {h : ChunkHeader} (hb : ∀ b ∈ bytes, b < 256)
    (hr : readFrom bytes = .ok (h, rest)) :
    h.Accepted := by
  have hy : Yields (· < 256) Accepted readFrom := by
    have hany : ∀ {α : Type} {x : Result α}, Yields (· < 256) (fun _ => True) (check x : Reader Nat FastKError α) :=
      yields_check (fun _ _ => trivial)
    unfold readFrom
    refine yields_take.bind (fun start hstart => hany.bind (fun _ _ => ?_))
    refine hany.bind (fun _ _ => hany.bind (fun _ _ => yields_take.bind (fun more hmore => ?_)))
    refine yields_check (fun h hh => fromLeBytes_accepted (fun b hb => ?_) hh)
    rcases List.mem_append.1 hb with hb | hb
    · exact hstart.2 b hb
    · exact hmore.2 b hb
  exact (hy bytes h rest hb hr).1

theorem Accepted.headerSize_le {h : ChunkHeader} (ha : h.Accepted) : h.headerSize ≤ 128 := by
  have hv := ha.valid
  unfold validate at hv
  split at hv
  · cases hv
  · split at hv
    · cases hv
    · rename_i h1 h2
      unfold chunkVersionV1 chunkVersionV2 byteSizeV1 byteSizeV2 at *
      omega

namespace Accepted

variable {h : ChunkHeader}

theorem startTs_le (ha : h.Accepted) (hc : 0 < h.count) : h.startTs ≤ h.endTs := startTs_le_endTs ha.valid hc

theorem fits_row (ha : h.Accepted) {row : Nat} (hrow : row < 2 ^ 32) : OffsetFits h row := by
  have hmul : row * h.recordSize ≤ (2 ^ 32 - 1) * (2 ^ 32 - 1) :=
    Nat.mul_le_mul (Nat.le_sub_one_of_lt hrow) (Nat.le_sub_one_of_lt ha.recordSize_lt)
  have := ha.headerSize_le
  unfold OffsetFits u64Bound
  omega

theorem fits_first (ha : h.Accepted) : OffsetFits h 0 := ha.fits_row (by decide)

end Accepted

end ChunkHeader

theorem validateHeader_recordSize {R : Type} [FixedRecord R] {expected unexpected : Text} {h : ChunkHeader}
    (hv : validateHeader R expected unexpected h = .ok ()) : h.recordSize = FixedRecord.byteSize R := by
  unfold validateHeader at hv
  split at hv
  · cases hv
  · split at hv
    · cases hv
    · rename_i hsize
      exact not_not.1 hsize

namespace RawFile

variable {file : RawFile} {h : ChunkHeader} {l : CachedChunkLayout}

theorem Ready.klineSound (hr : Ready l) (ha : l.header.Accepted) : KlineSound file l where
  find _ := hr.sound_find
  appendRange _ _ _ := hr.sound_klineAppendRange ha.fits_first
  planRange _ _ := hr.sound_planRange
  planTail _ := sound_planTail

theorem Ready.scalarSound (hr : Ready l) (ha : l.header.Accepted) : ScalarSound file l where
  find _ := hr.sound_find
  appendRange _ _ _ := hr.sound_scalarAppendRange ha.fits_first
  planRange _ _ := hr.sound_planRange
  rowRanges _ _ hranges := sound_readRowRanges (fun _ => ha.fits_row) hranges

theorem klineSound_iff (ha : h.Accepted) : KlineSound file ⟨h, []⟩ ↔ MiddleFits h :=
  ⟨fun hs => @middleFits_of_find file KlineRecord _ _ klineReadTexts ⟨h, []⟩ rfl ha.startTs_le (hs.find h.startTs),
    fun hm => Ready.klineSound (.inl ⟨rfl, hm⟩) ha⟩

theorem scalarSound_iff (ha : h.Accepted) : ScalarSound file ⟨h, []⟩ ↔ MiddleFits h :=
  ⟨fun hs => @middleFits_of_find file ScalarRecord _ _ scalarReadTexts ⟨h, []⟩ rfl ha.startTs_le (hs.find h.startTs),
    fun hm => Ready.scalarSound (.inl ⟨rfl, hm⟩) ha⟩

/-- With an index, whose anchors may name any record, every record needs an offset. -/
theorem klineSound_indexed_iff (ha : h.Accepted) {n : Nat} (hn : 0 < n) :
    (∀ sparseIndex : List SparseIndexEntry, sparseIndex.length = n → ∀ file : RawFile,
      KlineSound file ⟨h, sparseIndex⟩) ↔ LastFits h := by
  constructor
  · intro hall
    have hs := hall (List.replicate n ⟨h.startTs, h.count - 1⟩) List.length_replicate ⟨[], by decide⟩
    exact lastFits_of_find hn ha.startTs_le ha.count_lt (by decide) (hs.find h.startTs)
  · exact fun hlast _ _ _ => Ready.klineSound (.inr (lastFits_iff.1 hlast)) ha

theorem scalarSound_indexed_iff (ha : h.Accepted) {n : Nat} (hn : 0 < n) :
    (∀ sparseIndex : List SparseIndexEntry, sparseIndex.length = n → ∀ file : RawFile,
      ScalarSound file ⟨h, sparseIndex⟩) ↔ LastFits h := by
  constructor
  · intro hall
    have hs := hall (List.replicate n ⟨h.startTs, h.count - 1⟩) List.length_replicate ⟨[], by decide⟩
    exact lastFits_of_find hn ha.startTs_le ha.count_lt (by decide) (hs.find h.startTs)
  · exact fun hlast _ _ _ => Ready.scalarSound (.inr (lastFits_iff.1 hlast)) ha

section Fixed

variable {R : Type} [FixedRecord R] [RecordCodec R]

theorem fixedSound_iff (ha : h.Accepted) (hsize : h.recordSize = FixedRecord.byteSize R)
    {sparseIndex : List SparseIndexEntry} :
    FixedSound R file ⟨h, sparseIndex⟩ ↔ LastFits h := by
  constructor
  · intro hs
    exact lastFits_of_tail ha.count_lt (hsize ▸ lt_trans ha.recordSize_lt (by decide)) (hs.readTail 1)
  · intro hlast
    have hall := lastFits_iff.1 hlast
    exact ⟨fun _ _ _ => Ready.sound_fixedAppendRange (.inr hall), fun _ => sound_fixedReadTail hall⟩

theorem replaySound_iff (ha : h.Accepted) (hsize : h.recordSize = FixedRecord.byteSize R) :
    ReplaySound R file h ↔ MiddleFits h := by
  constructor
  · intro hs
    exact search_sound_iff.1 (sound_of_bind (hs (some h.startTs) none []))
  · exact fun hm _ _ _ => sound_replayChunk hsize ha.fits_first hm

end Fixed

/-- **Which headers the readers compute offsets for without an overflow.**  Without a sparse index the kline, the
scalar and the replay reader do exactly where the record in the middle has an offset, whatever else the file holds;
the fixed reader, whose tail reads go to the last record at once, and the kline and the scalar reader with an index,
do exactly where the last record has one. -/
theorem offsets_sound_iff (bytes rest : List Nat) (h : ChunkHeader) (hb : ∀ b ∈ bytes, b < 256)
    (hread : ChunkHeader.readFrom bytes = .ok (h, rest)) :
    (klineValidateHeader h = .ok () → (∀ file : RawFile, KlineSound file ⟨h, []⟩ ↔ MiddleFits h) ∧
      ∀ n, 0 < n → ((∀ sparseIndex : List SparseIndexEntry, sparseIndex.length = n → ∀ file : RawFile,
        KlineSound file ⟨h, sparseIndex⟩) ↔
        LastFits h)) ∧
    (scalarValidateHeader h = .ok () → (∀ file : RawFile, ScalarSound file ⟨h, []⟩ ↔ MiddleFits h) ∧
      ∀ n, 0 < n → ((∀ sparseIndex : List SparseIndexEntry, sparseIndex.length = n → ∀ file : RawFile,
        ScalarSound file ⟨h, sparseIndex⟩) ↔
        LastFits h)) ∧
    ∀ (R : Type) [FixedRecord R] [RecordCodec R], fixedValidateHeader R h = .ok () →
      (∀ sparseIndex (file : RawFile), FixedSound R file ⟨h, sparseIndex⟩ ↔ LastFits h) ∧
      ∀ file : RawFile, ReplaySound R file h ↔ MiddleFits h := by
  have ha := ChunkHeader.readFrom_accepted hb hread
  refine ⟨fun _ => ⟨fun _ => klineSound_iff ha, fun n hn => klineSound_indexed_iff ha hn⟩,
    fun _ => ⟨fun _ => scalarSound_iff ha, fun n hn => scalarSound_indexed_iff ha hn⟩, fun R _ _ hv => ?_⟩
  have hsize := validateHeader_recordSize hv
  exact ⟨fun _ _ => fixedSound_iff ha hsize, fun _ => replaySound_iff ha hsize⟩

end RawFile

/-- A header of klines that claims the count. -/
def countedHeader (count : Nat) : ChunkHeader where
  version := chunkVersionV2
  headerSize := byteSizeV2
  recordSize := 48
  schemaId := klineSchemaId
  seriesId := 7
  chunkId := 1
  generation := 1
  timeframeMs := 60000
  startTs := 0
  endTs := 60000
  count := count
  flags := 0
  indexOffset := 0
  indexLen := 0
  sparseIndexEvery := 0

/-- A file of a header alone. -/
def headerFile (count : Nat) : RawFile where
  bytes := (countedHeader count).toLeBytes
  bounded := by
    have hlen : (countedHeader count).toLeBytes.length ≤ byteSizeV2 := List.length_take_le _ _
    exact lt_of_le_of_lt hlen (by decide)

namespace RawFile

/-- A file of two klines. -/
def klineFile : RawFile where
  bytes := (countedHeader 2).toLeBytes ++ [⟨0, 1, 2, 0, 1, 10⟩,
    ⟨60000, 1, 3, 1, 2, 20⟩].flatMap (fun r : KlineRecord => (FixedRecord.encode r).encodeLe)
  bounded := by decide +kernel

theorem offsets_sound_sample : KlineSound klineFile ⟨countedHeader 2, []⟩ ∧ KlineSound klineFile
      ⟨countedHeader 2, [⟨0, 0⟩, ⟨60000, 1⟩]⟩ ∧
    FixedSound KlineRecord klineFile ⟨countedHeader 2, []⟩ ∧ ReplaySound KlineRecord klineFile (countedHeader 2) := by
  have hread : ChunkHeader.readFrom klineFile.bytes = .ok (countedHeader 2, klineFile.bytes.drop byteSizeV2) := by
    decide +kernel
  obtain ⟨hkline, -, hfixed⟩ := offsets_sound_iff klineFile.bytes _ (countedHeader 2) (by decide +kernel) hread
  obtain ⟨hplain, hindexed⟩ := hkline (by decide)
  obtain ⟨htail, hreplay⟩ := hfixed KlineRecord (by decide)
  exact ⟨(hplain _).2 (by decide), (hindexed 2 (by decide)).2 (by decide) _ rfl _, (htail _ _).2 (by decide),
    (hreplay _).2 (by decide)⟩

/-- A count of `2 ^ 63` is accepted, and the first read of a search and of a replay overflows, and of a tail of
trades. -/
theorem offsets_overflow : ChunkHeader.readFrom (countedHeader (2 ^ 63)).toLeBytes = .ok (countedHeader (2 ^ 63), []) ∧
    klineValidateHeader (countedHeader (2 ^ 63)) = .ok () ∧
    (headerFile (2 ^ 63)).findByTsInFile KlineRecord klineReadTexts ⟨countedHeader (2 ^ 63), []⟩ 0 = .error .overflow ∧
    (headerFile (2 ^ 63)).replayChunk KlineRecord (countedHeader (2 ^ 63)) (some 0) none [1] = .error .overflow ∧
    fixedValidateHeader TradeRecord { countedHeader (2 ^ 63) with schemaId := tradeSchemaId } = .ok () ∧
    (headerFile (2 ^ 63)).fixedReadTail TradeRecord { countedHeader (2 ^ 63) with schemaId := tradeSchemaId } 1 =
      .error .overflow := by
  decide +kernel

end RawFile

end FastK
