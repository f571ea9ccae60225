import Mathlib.Data.List.DropRight
import FastK.SeriesReader
/-!
# The latest rows

`get_kline_latest_n` (`engine/store.rs`) plans the tails of the chunks from the last one backwards until it has `n`
rows, and reads them in order; `get_fixed_latest_n` reads each tail at once.  Both return the last rows of the series
(`getKlineLatestNPrepared_eq`, `getFixedLatestN_eq`).
-/
namespace FastK

open Ranges

/-- `plan_tail`: the last rows of a chunk. -/
def planTail (f : ChunkFile) (take : Nat) : Result ReadSpan :=
  let rows := min take f.header.count
  let first := f.header.count - rows
  if u64Bound ≤ first * f.header.recordSize ∨ u64Bound ≤ first * f.header.recordSize + f.header.headerSize then
    .error (.invalidData "tail offset overflow")
  else .ok ⟨f, first * f.header.recordSize + f.header.headerSize, rows⟩

/-- The loop over the chunks, which are given last to first, with the rows still wanted. -/
def tailSpans (sd : SeriesDir) : List ChunkMeta → Nat → Result (List ReadSpan)
  | [], _ => .ok []
  | c :: cs, remaining =>
    if remaining = 0 then .ok []
    else
      match withChunk sd klineValidateHeader c (fun f => planTail f (min remaining c.count)) with
      | .error e => .error e
      | .ok span =>
        match tailSpans sd cs (remaining - min remaining c.count) with
        | .error e => .error e
        | .ok spans => .ok (span :: spans)

def getKlineLatestNPrepared (threads : Nat) (sd : SeriesDir) (m : SeriesMeta) (n : Nat) : Result (List KlineRecord) :=
  if n = 0 then .ok []
  else
    match tailSpans sd m.chunks.reverse n with
    | .error e => .error e
    | .ok spans => readSpans threads spans.reverse (FixedRecord.byteSize KlineRecord) (readPlanned KlineRecord)

def getKlineLatestN (threads : Nat) (sd : SeriesDir) (n : Nat) : Result (List KlineRecord) :=
  if n = 0 then .ok [] else withMeta sd (fun m => getKlineLatestNPrepared threads sd m n)

/-! ## Tails -/

theorem rtake_append {α : Type} (as bs : List α) (n : Nat) :
    (as ++ bs).rtake n = as.rtake (n - min n bs.length) ++ bs.rtake (min n bs.length) := by
  unfold List.rtake
  rw [List.length_append, List.drop_append]
  rcases le_total n bs.length with h | h
  · rw [min_eq_left h, List.drop_eq_nil_of_le (show as.length ≤ as.length + bs.length - n by omega),
      List.drop_eq_nil_of_le (show as.length ≤ as.length - (n - n) by omega)]
    congr 2
    omega
  · rw [min_eq_right h]
    congr 2 <;> omega

/-- The plan of a tail is the span of the last rows. -/
theorem planTail_ok {f : ChunkFile} {rows : List KlineRecord} (h : Holds KlineRecord f rows) {take : Nat}
    (ht : take ≤ rows.length) :
    ∃ span, planTail f take = .ok span ∧ SpanOf span rows (rows.length - take) ∧ span.rows = take := by
  have hbytes := h.bytes_lt
  have hmul : (rows.length - take) * FixedRecord.byteSize KlineRecord ≤ rows.length *
    FixedRecord.byteSize KlineRecord :=
    Nat.mul_le_mul_right _ (Nat.sub_le _ _)
  unfold planTail
  simp only
  rw [h.count_eq, h.recordSize_eq, min_eq_left ht, if_neg (by omega)]
  exact ⟨_, rfl, ⟨h, rfl, by simp only; omega⟩, rfl⟩

/-- **The tails of the chunks hold the last rows.** -/
theorem tailSpans_ok {sd : SeriesDir} {m : SeriesMeta} {rowsOf : ChunkMeta → List KlineRecord}
    (h : Stored KlineRecord sd m rowsOf) :
    ∀ {cs : List ChunkMeta} (n : Nat), (∀ c ∈ cs, c ∈ m.chunks) → ∃ spans, tailSpans sd cs n = .ok spans ∧
      (∀ span ∈ spans, ∃ (rows : List KlineRecord) (first : Nat), SpanOf span rows first) ∧
      spans.reverse.flatMap (spanRows KlineRecord) = (cs.reverse.flatMap rowsOf).rtake n ∧
      (spans.map ReadSpan.rows).sum = min n (cs.reverse.flatMap rowsOf).length
  | [], n, _ => ⟨[], rfl, by simp, by simp [List.rtake], by simp⟩
  | c :: cs, n, hcs => by
    unfold tailSpans
    by_cases hn : n = 0
    · rw [if_pos hn, hn]
      exact ⟨[], rfl, by simp, by simp [List.rtake], by simp⟩
    · have hc := hcs c List.mem_cons_self
      have hcount := h.count_eq hc
      obtain ⟨f, hf, hw⟩ := h.withChunk_ok klineValidateHeader hc (fun f hf => hf.validateHeader_ok _ _) (fun f =>
        planTail f (min n c.count))
      obtain ⟨span, hplan, hspan, hrows⟩ :=
        planTail_ok hf (show min n c.count ≤ (rowsOf c).length by rw [hcount]; exact min_le_right _ _)
      obtain ⟨spans, hspans, hall, hflat, hsum⟩ :=
        tailSpans_ok h (n - min n c.count) (fun e he => hcs e (List.mem_cons_of_mem _ he))
      rw [if_neg hn, hw, hplan]
      simp only
      rw [hspans]
      refine ⟨_, rfl, ?_, ?_, ?_⟩
      · intro x hx
        rcases List.mem_cons.1 hx with rfl | hx
        · exact ⟨_, _, hspan⟩
        · exact hall x hx
      · have hlast : spanRows KlineRecord span = (rowsOf c).rtake (min n c.count) := by
          rw [spanRows_eq hspan, hrows]
          unfold between List.rtake
          rw [List.take_of_length_le (by rw [List.length_drop]; omega)]
        rw [List.reverse_cons, List.flatMap_append, hflat, List.reverse_cons, List.flatMap_append,
          List.flatMap_singleton, List.flatMap_singleton, rtake_append, hlast, hcount]
      · rw [List.map_cons, List.sum_cons, hsum, hrows, List.reverse_cons, List.flatMap_append, List.flatMap_singleton,
          List.length_append, hcount]
        omega

/-- **The latest rows are the last rows of the series**, whatever the chunks and the workers. -/
theorem getKlineLatestNPrepared_eq {sd : SeriesDir} {m : SeriesMeta} {rowsOf : ChunkMeta → List KlineRecord}
    (h : Stored KlineRecord sd m rowsOf)
    (hfit : (m.chunks.flatMap rowsOf).length * FixedRecord.byteSize KlineRecord < u64Bound) (threads n : Nat) :
    getKlineLatestNPrepared threads sd m n = .ok ((m.chunks.flatMap rowsOf).rtake n) := by
  unfold getKlineLatestNPrepared
  by_cases hn : n = 0
  · rw [if_pos hn, hn]
    simp [List.rtake]
  · rw [if_neg hn]
    obtain ⟨spans, hspans, hall, hflat, hsum⟩ := tailSpans_ok h n (fun c (hc : c ∈ m.chunks.reverse) =>
      List.mem_reverse.1 hc)
    rw [List.reverse_reverse] at hflat hsum
    rw [hspans]
    simp only
    rw [readSpans_ok threads (fun span hspan => hall span (List.mem_reverse.1 hspan)), hflat]
    rw [List.map_reverse, List.sum_reverse, hsum]
    exact lt_of_le_of_lt (Nat.mul_le_mul_right _ (min_le_right _ _)) hfit

theorem getKlineLatestN_eq {sd : SeriesDir} {m : SeriesMeta} {rowsOf : ChunkMeta → List KlineRecord}
    (h : Stored KlineRecord sd m rowsOf)
    (hfit : (m.chunks.flatMap rowsOf).length * FixedRecord.byteSize KlineRecord < u64Bound) (threads n : Nat) :
    getKlineLatestN threads sd n = .ok ((m.chunks.flatMap rowsOf).rtake n) := by
  unfold getKlineLatestN
  by_cases hn : n = 0
  · rw [if_pos hn, hn]
    simp [List.rtake]
  · rw [if_neg hn, withMeta_ok h, getKlineLatestNPrepared_eq h hfit threads n]

/-! ## Ticks -/

/-- `read_tail_in_chunk`. -/
def readTailInChunk (R : Type) [FixedRecord R] (sd : SeriesDir) (c : ChunkMeta) (n : Nat) : Result (List R) :=
  if n = 0 then .ok []
  else withChunk sd (fixedValidateHeader R) c (fun f =>
    readRecordSpan fixedReadTexts f (f.header.count - n) (f.header.count - (f.header.count - n)))

/-- The loop over the chunks, which are given last to first, with the rows still wanted. -/
def tailParts (R : Type) [FixedRecord R] (sd : SeriesDir) : List ChunkMeta → Nat → Result (List (List R))
  | [], _ => .ok []
  | c :: cs, remaining =>
    if remaining = 0 then .ok []
    else
      match readTailInChunk R sd c (min remaining c.count) with
      | .error e => .error e
      | .ok part =>
        match tailParts R sd cs (remaining - min remaining c.count) with
        | .error e => .error e
        | .ok parts => .ok (part :: parts)

def getFixedLatestN (R : Type) [FixedRecord R] (sd : SeriesDir) (n : Nat) : Result (List R) :=
  if n = 0 then .ok []
  else withMeta sd (fun m => (tailParts R sd m.chunks.reverse n).map (fun parts => parts.reverse.flatten))

section Fixed

variable {R : Type} [FixedRecord R] {sd : SeriesDir} {m : SeriesMeta} {rowsOf : ChunkMeta → List R}

theorem readTailInChunk_ok (h : Stored R sd m rowsOf) {c : ChunkMeta} (hc : c ∈ m.chunks) (n : Nat) :
    readTailInChunk R sd c n = .ok ((rowsOf c).rtake n) := by
  have hcount := h.count_eq hc
  unfold readTailInChunk
  by_cases h0 : n = 0
  · rw [if_pos h0, h0]
    simp [List.rtake]
  · obtain ⟨f, hf, hw⟩ := h.withChunk_ok (fixedValidateHeader R) hc (fun f hf => hf.validateHeader_ok _ _)
      (fun f => readRecordSpan (R := R) fixedReadTexts f (f.header.count - n) (f.header.count - (f.header.count - n)))
    rw [if_neg h0, hw, hf.count_eq, hf.readRecordSpan_ok fixedReadTexts (Nat.sub_le _ _) (le_refl _)]
    unfold between List.rtake
    rw [List.take_of_length_le (by rw [List.length_drop])]

/-- **The tails, joined in order, are the last rows.** -/
theorem tailParts_ok (h : Stored R sd m rowsOf) : ∀ {cs : List ChunkMeta} (n : Nat), (∀ c ∈ cs, c ∈ m.chunks) →
    ∃ parts, tailParts R sd cs n = .ok parts ∧ parts.reverse.flatten = (cs.reverse.flatMap rowsOf).rtake n
  | [], n, _ => ⟨[], rfl, by simp [List.rtake]⟩
  | c :: cs, n, hcs => by
    unfold tailParts
    by_cases hn : n = 0
    · rw [if_pos hn, hn]
      exact ⟨[], rfl, by simp [List.rtake]⟩
    · have hc := hcs c List.mem_cons_self
      obtain ⟨parts, hparts, hflat⟩ :=
        tailParts_ok h (n - min n c.count) (fun e he => hcs e (List.mem_cons_of_mem _ he))
      rw [if_neg hn, readTailInChunk_ok h hc]
      simp only
      rw [hparts]
      refine ⟨_, rfl, ?_⟩
      rw [List.reverse_cons, List.flatten_append, hflat, List.flatten_singleton, List.reverse_cons,
        List.flatMap_append, List.flatMap_singleton, rtake_append, h.count_eq hc]

/-- **The latest ticks are the last rows of the series.** -/
theorem getFixedLatestN_eq (h : Stored R sd m rowsOf) (n : Nat) :
    getFixedLatestN R sd n = .ok ((m.chunks.flatMap rowsOf).rtake n) := by
  unfold getFixedLatestN
  by_cases hn : n = 0
  · rw [if_pos hn, hn]
    simp [List.rtake]
  · obtain ⟨parts, hparts, hflat⟩ := tailParts_ok h n (fun c (hc : c ∈ m.chunks.reverse) => List.mem_reverse.1 hc)
    rw [List.reverse_reverse] at hflat
    rw [if_neg hn, withMeta_ok h, hparts]
    exact congrArg Except.ok hflat

end Fixed

end FastK
