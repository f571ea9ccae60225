import FastK.Offsets
/-!
# Cutting rows in any order

The range reads once more, with the slice operations that panic out of bounds and the output buffer they work on.  The
kline reader appends adjacent windows to the buffer and cuts them in place; the scalar reader slices one window.  Both
cut between the ends of two searches, which come in order whether or not the rows are (`lowerBoundInRecords_le`), so
no operation is out of bounds and the rows that earlier chunks have left in the buffer stay (`cuts_in_bounds`).
-/
namespace FastK

open Search Ranges

/-! ## Slice operations -/

section Operations

variable {α : Type}

/-- `a - b` of two `usize`. -/
def usizeSub (a b : Nat) : Option Nat := if a < b then none else some (a - b)

/-- `&xs[start..stop]`; `none` is a panic. -/
def sliceRange (xs : List α) (start stop : Nat) : Option (List α) :=
  if stop < start ∨ xs.length < stop then none else some ((xs.drop start).take (stop - start))

/-- `slice::copy_within`, with its bounds. -/
def copyWithinBounds (xs : List α) (start stop dest : Nat) : Option (List α) :=
  if stop < start ∨ xs.length < stop ∨ xs.length - (stop - start) < dest then none
  else some (copyWithin xs start stop dest)

theorem usizeSub_eq {a b : Nat} (h : b ≤ a) : usizeSub a b = some (a - b) := by
  unfold usizeSub
  rw [if_neg (by omega)]

theorem sliceRange_eq {xs : List α} {start stop : Nat} (h : start ≤ stop) (hlen : stop ≤ xs.length) :
    sliceRange xs start stop = some (between xs start stop) := by
  unfold sliceRange
  rw [if_neg (by omega)]
  rfl

theorem copyWithinBounds_eq {xs : List α} {start stop dest : Nat} (h : start ≤ stop) (hlen : stop ≤ xs.length)
    (hdest : dest ≤ start) :
    copyWithinBounds xs start stop dest = some (copyWithin xs start stop dest) := by
  unfold copyWithinBounds
  rw [if_neg (by omega)]

end Operations

/-! ## The readers -/

section Buffer

variable {R : Type} [FixedRecord R] [RecordCodec R]

/-- `&out[initial_len..]`, the two searches in it, `copy_within` and `truncate`. -/
def cutInPlace (initialLen : Nat) (startTs endTs : Int) (out : List R) : Option (List R) := do
  let rows ← sliceRange out initialLen out.length
  let start := lowerBoundInRecords rows startTs
  let stop := upperBoundInRecords rows endTs
  let moved ← copyWithinBounds out (initialLen + start) (initialLen + stop) initialLen
  let len ← usizeSub (initialLen + stop) start
  return moved.take len

namespace RawFile

/-- `append_record_span`, with the buffer: a read that fails truncates it to what it held. -/
def spanInto (t : SpanTexts) (file : RawFile) (h : ChunkHeader) (start count : Nat) (out : List R) :
    ReadM Unit × List R :=
  match file.readRecordSpan R t h start count with
  | .error e => (.error e, out)
  | .ok rows => (.ok (), out ++ rows)

def betweenInto (t : SpanTexts) (file : RawFile) (h : ChunkHeader) (lower upper : ReadM Nat) (out : List R) :
    ReadM Unit × List R :=
  match lower with
  | .error e => (.error e, out)
  | .ok startIdx =>
    if h.count ≤ startIdx then (.ok (), out)
    else
      match upper with
      | .error e => (.error e, out)
      | .ok endExclusive =>
        if endExclusive ≤ startIdx then (.ok (), out)
        else file.spanInto t h startIdx (endExclusive - startIdx) out

/-- `append_range_in_file_with_metrics` of the kline reader: its answer and the buffer, or `none` for a panic. -/
def klineRangeInto (file : RawFile) (l : CachedChunkLayout) (startTs endTs : Int) (out : List KlineRecord) :
    Option (ReadM Unit × List KlineRecord) :=
  let twoWindows := file.betweenInto klineAppendTexts l.header
    (file.lowerBoundViaSparse KlineRecord klineReadTexts l startTs)
    (file.upperBoundViaSparse KlineRecord klineReadTexts l endTs) out
  if rangeMisses l.header startTs endTs then some (.ok (), out)
  else if startTs ≤ l.header.startTs ∧ l.header.endTs ≤ endTs then
    some (file.spanInto klineAppendTexts l.header 0 l.header.count out)
  else if isShortRange l.header startTs endTs then
    if l.sparseIndex = [] then some twoWindows
    else
      match lookupWindow l.header.count l.sparseIndex startTs with
      | .error e => some (.error (.failed e), out)
      | .ok first =>
        match lookupWindow l.header.count l.sparseIndex endTs with
        | .error e => some (.error (.failed e), out)
        | .ok last =>
          if last.1 ≤ first.2 then
            if last.2 < first.1 then some (.error (.failed (.invalidData "sparse windows are out of order")), out)
            else
              match file.spanInto klineAppendTexts l.header first.1 (last.2 - first.1) out with
              | (.error e, filled) => some (.error e, filled)
              | (.ok (), filled) => (cutInPlace out.length startTs endTs filled).map (fun cut => (.ok (), cut))
          else some twoWindows
  else some (file.betweenInto klineAppendTexts l.header (file.lowerBound l.header startTs)
    (file.upperBound l.header endTs) out)

/-- `append_range_in_file_with_metrics` of the scalar reader. -/
def scalarRangeInto (file : RawFile) (l : CachedChunkLayout) (startTs endTs : Int) (out : List ScalarRecord) :
    Option (ReadM Unit × List ScalarRecord) :=
  let twoWindows := file.betweenInto scalarAppendTexts l.header
    (file.lowerBoundViaSparse ScalarRecord scalarReadTexts l startTs)
    (file.upperBoundViaSparse ScalarRecord scalarReadTexts l endTs) out
  if rangeMisses l.header startTs endTs then some (.ok (), out)
  else if startTs ≤ l.header.startTs ∧ l.header.endTs ≤ endTs then
    some (file.spanInto scalarAppendTexts l.header 0 l.header.count out)
  else if isShortRange l.header startTs endTs then
    if l.sparseIndex = [] then some twoWindows
    else
      match lookupWindow l.header.count l.sparseIndex startTs with
      | .error e => some (.error (.failed e), out)
      | .ok window =>
        match lookupWindow l.header.count l.sparseIndex endTs with
        | .error e => some (.error (.failed e), out)
        | .ok other =>
          if window = other then
            match file.readRecordSpan ScalarRecord scalarReadTexts l.header window.1 (window.2 - window.1) with
            | .error e => some (.error e, out)
            | .ok rows =>
              (sliceRange rows (lowerBoundInRecords rows startTs) (upperBoundInRecords rows endTs)).map (fun slice =>
                (.ok (), out ++ slice))
          else some twoWindows
  else some (file.betweenInto scalarAppendTexts l.header (file.lowerBound l.header startTs)
    (file.upperBound l.header endTs) out)

end RawFile

/-! ## The two ends -/

omit [RecordCodec R] in
/-- **The first row sought is at or before the end of the rows sought**, in rows in any order. -/
theorem lowerBoundInRecords_le {s e : Int} (hse : s ≤ e) (rows : List R) :
    lowerBoundInRecords rows s ≤ upperBoundInRecords rows e := by
  refine partitionPoint_mono (fun r hr => ?_) rows
  simp only [decide_eq_true_eq] at hr ⊢
  omega

omit [RecordCodec R] in
theorem upperBoundInRecords_le_length (rows : List R) (e : Int) : upperBoundInRecords rows e ≤ rows.length :=
  partitionPoint_le_length _ rows

omit [RecordCodec R] in
/-- **The cut is in bounds and keeps what was before the rows.** -/
theorem cutInPlace_eq {s e : Int} (hse : s ≤ e) (out rows : List R) :
    cutInPlace out.length s e (out ++ rows) = some (out ++ between rows (lowerBoundInRecords rows s)
      (upperBoundInRecords rows e)) := by
  have hle := lowerBoundInRecords_le hse rows
  have hlen := upperBoundInRecords_le_length rows e
  have htail : sliceRange (out ++ rows) out.length (out ++ rows).length = some rows := by
    rw [sliceRange_eq (by simp) (le_refl _)]
    unfold between
    rw [List.drop_left, List.length_append, Nat.add_sub_cancel_left, List.take_length]
  have hmove : copyWithinBounds (out ++ rows) (out.length + lowerBoundInRecords rows s)
    (out.length + upperBoundInRecords rows e) out.length
      = some (copyWithin (out ++ rows) (out.length + lowerBoundInRecords rows s)
        (out.length + upperBoundInRecords rows e) out.length) :=
    copyWithinBounds_eq (by omega) (by rw [List.length_append]; omega) (by omega)
  unfold cutInPlace
  rw [htail, Option.bind_eq_bind, Option.bind_some]
  simp only
  rw [hmove, Option.bind_eq_bind, Option.bind_some, usizeSub_eq (by omega), Option.bind_some, copyWithin_take hle hlen]
  rfl

/-! ## The buffer -/

/-- A read that panics nowhere, leaves what the buffer held, appends nothing where it fails, and answers as the plain
read does. -/
def KeepsBuffer (out : List R) (plain : ReadM (List R)) (into : Option (ReadM Unit × List R)) : Prop :=
  ∃ answer read, into = some (answer, out ++ read) ∧ answer.map (fun _ => out ++ read) = plain ∧
    ∀ e, answer = .error e → read = []

variable {out : List R} {file : RawFile} {h : ChunkHeader}

omit [FixedRecord R] [RecordCodec R] in
theorem keepsBuffer_failed (out : List R) (e : Halt) : KeepsBuffer out (.error e) (some (.error e, out)) :=
  ⟨.error e, [], by rw [List.append_nil], rfl, fun _ _ => rfl⟩

omit [FixedRecord R] [RecordCodec R] in
theorem keepsBuffer_ok (out read : List R) : KeepsBuffer out (.ok (out ++ read)) (some (.ok (), out ++ read)) :=
  ⟨.ok (), read, rfl, rfl, fun e he => by cases he⟩

omit [FixedRecord R] [RecordCodec R] in
theorem keepsBuffer_same (out : List R) : KeepsBuffer out (.ok out) (some (.ok (), out)) := by
  have hsame := keepsBuffer_ok out []
  rwa [List.append_nil] at hsame

theorem spanInto_keeps (t : SpanTexts) (start count : Nat) :
    KeepsBuffer out (file.appendRecordSpan t h start count out) (some (file.spanInto t h start count out)) := by
  unfold RawFile.appendRecordSpan RawFile.spanInto
  cases file.readRecordSpan R t h start count with
  | error e => exact keepsBuffer_failed out e
  | ok rows => exact keepsBuffer_ok out rows

theorem betweenInto_keeps (t : SpanTexts) (lower upper : ReadM Nat) :
    KeepsBuffer out (file.appendBetween t h lower upper out) (some (file.betweenInto t h lower upper out)) := by
  unfold RawFile.appendBetween RawFile.betweenInto
  cases lower with
  | error e => exact keepsBuffer_failed out e
  | ok startIdx =>
    show KeepsBuffer out (if h.count ≤ startIdx then _ else _) (some (if h.count ≤ startIdx then _ else _))
    by_cases hcount : h.count ≤ startIdx
    · rw [if_pos hcount, if_pos hcount]
      exact keepsBuffer_same out
    · rw [if_neg hcount, if_neg hcount]
      cases upper with
      | error e => exact keepsBuffer_failed out e
      | ok endExclusive =>
        show KeepsBuffer out (if endExclusive ≤ startIdx then _ else _)
          (some (if endExclusive ≤ startIdx then _ else _))
        by_cases hend : endExclusive ≤ startIdx
        · rw [if_pos hend, if_pos hend]
          exact keepsBuffer_same out
        · rw [if_neg hend, if_neg hend]
          exact spanInto_keeps t startIdx (endExclusive - startIdx)

end Buffer

theorem le_of_not_rangeMisses {h : ChunkHeader} {s e : Int} (hr : ¬ rangeMisses h s e = true) : s ≤ e := by
  unfold rangeMisses at hr
  rw [decide_eq_true_iff] at hr
  omega

theorem klineRangeInto_keeps (file : RawFile) (l : CachedChunkLayout) (s e : Int) (out : List KlineRecord) :
    KeepsBuffer out (file.klineAppendRange l s e out) (file.klineRangeInto l s e out) := by
  unfold RawFile.klineAppendRange RawFile.klineRangeInto
  simp only
  by_cases hmiss : rangeMisses l.header s e = true
  · rw [if_pos hmiss, if_pos hmiss]
    exact keepsBuffer_same out
  have hse := le_of_not_rangeMisses hmiss
  rw [if_neg hmiss, if_neg hmiss]
  by_cases hall : s ≤ l.header.startTs ∧ l.header.endTs ≤ e
  · rw [if_pos hall, if_pos hall]
    exact spanInto_keeps _ _ _
  rw [if_neg hall, if_neg hall]
  by_cases hshort : isShortRange l.header s e = true
  · rw [if_pos hshort, if_pos hshort]
    by_cases hindex : l.sparseIndex = []
    · rw [if_pos hindex, if_pos hindex]
      exact betweenInto_keeps _ _ _
    rw [if_neg hindex, if_neg hindex]
    cases lookupWindow l.header.count l.sparseIndex s with
    | error err => exact keepsBuffer_failed out _
    | ok first =>
      cases lookupWindow l.header.count l.sparseIndex e with
      | error err => exact keepsBuffer_failed out _
      | ok last =>
        show KeepsBuffer out (if last.1 ≤ first.2 then _ else _) (if last.1 ≤ first.2 then _ else _)
        by_cases hadj : last.1 ≤ first.2
        · rw [if_pos hadj, if_pos hadj]
          by_cases horder : last.2 < first.1
          · rw [if_pos horder, if_pos horder]
            exact keepsBuffer_failed out _
          · rw [if_neg horder, if_neg horder]
            unfold RawFile.appendRecordSpan RawFile.spanInto
            cases file.readRecordSpan KlineRecord klineAppendTexts l.header first.1 (last.2 - first.1) with
            | error err => exact keepsBuffer_failed out err
            | ok rows =>
              show KeepsBuffer out (.ok
                ((copyWithin (out ++ rows) (out.length + lowerBoundInRecords ((out ++ rows).drop out.length) s)
                  (out.length + upperBoundInRecords ((out ++ rows).drop out.length) e) out.length).take
                  (out.length + upperBoundInRecords ((out ++ rows).drop out.length) e - lowerBoundInRecords
                    ((out ++ rows).drop out.length) s)))
                ((cutInPlace out.length s e (out ++ rows)).map _)
              rw [List.drop_left, copyWithin_take (lowerBoundInRecords_le hse rows)
                (upperBoundInRecords_le_length rows e), cutInPlace_eq hse]
              exact keepsBuffer_ok out _
        · rw [if_neg hadj, if_neg hadj]
          exact betweenInto_keeps _ _ _
  · rw [if_neg hshort, if_neg hshort]
    exact betweenInto_keeps _ _ _

theorem scalarRangeInto_keeps (file : RawFile) (l : CachedChunkLayout) (s e : Int) (out : List ScalarRecord) :
    KeepsBuffer out (file.scalarAppendRange l s e out) (file.scalarRangeInto l s e out) := by
  unfold RawFile.scalarAppendRange RawFile.scalarRangeInto
  simp only
  by_cases hmiss : rangeMisses l.header s e = true
  · rw [if_pos hmiss, if_pos hmiss]
    exact keepsBuffer_same out
  have hse := le_of_not_rangeMisses hmiss
  rw [if_neg hmiss, if_neg hmiss]
  by_cases hall : s ≤ l.header.startTs ∧ l.header.endTs ≤ e
  · rw [if_pos hall, if_pos hall]
    exact spanInto_keeps _ _ _
  rw [if_neg hall, if_neg hall]
  by_cases hshort : isShortRange l.header s e = true
  · rw [if_pos hshort, if_pos hshort]
    by_cases hindex : l.sparseIndex = []
    · rw [if_pos hindex, if_pos hindex]
      exact betweenInto_keeps _ _ _
    rw [if_neg hindex, if_neg hindex]
    cases lookupWindow l.header.count l.sparseIndex s with
    | error err => exact keepsBuffer_failed out _
    | ok window =>
      cases lookupWindow l.header.count l.sparseIndex e with
      | error err => exact keepsBuffer_failed out _
      | ok other =>
        show KeepsBuffer out (if window = other then _ else _) (if window = other then _ else _)
        by_cases hsame : window = other
        · rw [if_pos hsame, if_pos hsame]
          cases file.readRecordSpan ScalarRecord scalarReadTexts l.header window.1 (window.2 - window.1) with
          | error err => exact keepsBuffer_failed out err
          | ok rows =>
            simp only
            rw [sliceRange_eq (lowerBoundInRecords_le hse rows) (upperBoundInRecords_le_length rows e)]
            exact keepsBuffer_ok out _
        · rw [if_neg hsame, if_neg hsame]
          exact betweenInto_keeps _ _ _
  · rw [if_neg hshort, if_neg hshort]
    exact betweenInto_keeps _ _ _

/-- **No cut is out of bounds**: in rows in any order the two ends are, and come in order; so the range reads panic in
no slice operation and leave the rows of earlier chunks in the buffer, whatever the file holds. -/
theorem cuts_in_bounds :
    (∀ (R : Type) [FixedRecord R] (rows : List R) (s e : Int), s ≤ e →
      lowerBoundInRecords rows s ≤ upperBoundInRecords rows e ∧ upperBoundInRecords rows e ≤ rows.length) ∧
    (∀ (file : RawFile) (l : CachedChunkLayout) (s e : Int) (out : List KlineRecord),
      KeepsBuffer out (file.klineAppendRange l s e out) (file.klineRangeInto l s e out)) ∧
    ∀ (file : RawFile) (l : CachedChunkLayout) (s e : Int) (out : List ScalarRecord),
      KeepsBuffer out (file.scalarAppendRange l s e out) (file.scalarRangeInto l s e out) :=
  ⟨fun _ _ rows _ e hse => ⟨lowerBoundInRecords_le hse rows, upperBoundInRecords_le_length rows e⟩,
    klineRangeInto_keeps, scalarRangeInto_keeps⟩

/-- Rows in no order. -/
def sampleDamagedRows : List KlineRecord := [5, 1, 9, 2, 2, 7].map (fun ts => ⟨ts, 1, 2, 0, 1, 10⟩)

theorem cuts_in_bounds_sample : lowerBoundInRecords sampleDamagedRows 2 ≤ upperBoundInRecords sampleDamagedRows 8 ∧
    upperBoundInRecords sampleDamagedRows 8 ≤ sampleDamagedRows.length :=
  cuts_in_bounds.1 KlineRecord sampleDamagedRows 2 8 (by decide)

end FastK
