import Mathlib.Algebra.Order.BigOperators.Group.List
import FastK.SeriesDir
/-!
# Reading a series

The range and point reads of kline, scalar and fixed-record series (`engine/store.rs`, `engine/parallel.rs`): the chunks
that meet the range are read one after the other, or planned as byte spans that any number of workers fill.  `Stored`
says that the directory holds rows chunk by chunk; on it every read is a filter of the stored rows
(`getKlineRange_eq`, `getScalarRange_eq`, `getKlineAt_eq`, `getScalarAt_eq`).
-/
namespace FastK

open Search Spans Ranges

/-! ## Planned reads -/

/-- A byte range of a chunk file. -/
structure ReadSpan where
  file : ChunkFile
  offset : Nat
  rows : Nat
  deriving DecidableEq, Repr

def parallelMinBytes : Nat := 4 * 1024 * 1024
def taskBytes : Nat := 1024 * 1024
def minWorkerBytes : Nat := parallelMinBytes

def usizeMax : Nat := 2 ^ 64 - 1

/-- The rows a range asks for, by the timeframe of the series. -/
def estimateRows (timeframeMs startTs endTs : Int) : Nat := (satSuccInt ((satSub endTs startTs).tdiv timeframeMs)).toNat

def shouldPlanRead (m : SeriesMeta) (chunks : List ChunkMeta) (startTs endTs : Int) : Bool :=
  let rows := chunks.foldl (fun sum c => min (sum + c.count) usizeMax) 0
  let estimate := if 0 < m.timeframeMs then min (estimateRows m.timeframeMs startTs endTs) rows else rows
  decide (parallelMinBytes ≤ min (estimate * m.recordSize) usizeMax)

section Planned

variable (R : Type) [FixedRecord R]

/-- `plan_range` of the kline and the scalar reader. -/
def planRange (t : SpanTexts) (f : ChunkFile) (start stop : Int) : Result ReadSpan :=
  match (if start ≤ f.header.startTs then .ok 0 else lowerBoundViaSparse R t f start) with
  | .error e => .error e
  | .ok first =>
    match (if f.header.endTs ≤ stop then .ok f.header.count else upperBoundViaSparse R t f stop) with
    | .error e => .error e
    | .ok last =>
      if u64Bound ≤ first * f.header.recordSize ∨ u64Bound ≤ first * f.header.recordSize + f.header.headerSize then
        .error (.invalidData "record offset overflow")
      else .ok ⟨f, first * f.header.recordSize + f.header.headerSize, last - first⟩

/-- `read_planned`: the rows at a byte offset.  An offset between two rows would decode neither. -/
def readPlanned (span : ReadSpan) : Result (List R) :=
  if u64Bound ≤ span.rows * FixedRecord.byteSize R then .error (.invalidData "read byte length overflow")
  else if span.offset < span.file.header.headerSize ∨
      (span.offset - span.file.header.headerSize) % FixedRecord.byteSize R ≠ 0 then
    .error (.invalidData "invalid record bytes")
  else span.file.readRows ((span.offset - span.file.header.headerSize) / FixedRecord.byteSize R) span.rows

/-- Cuts a span into tasks of at most `taskRows` rows; the rows still to cut are the fuel. -/
def spanTasks (recordSize taskRows : Nat) (span : ReadSpan) : Nat → Nat → Result (List ReadSpan)
  | 0, _ => .ok []
  | fuel + 1, start =>
    if start < span.rows then
      let count := min (span.rows - start) taskRows
      if u64Bound ≤ span.offset + start * recordSize then .error (.invalidData "read task offset overflow")
      else
        match spanTasks recordSize taskRows span fuel (start + count) with
        | .error e => .error e
        | .ok tasks => .ok (⟨span.file, span.offset + start * recordSize, count⟩ :: tasks)
    else .ok []

variable {R}

/-- Every part is filled in its own place: the result is the parts in order. -/
def fillAll (fill : ReadSpan → Result (List R)) (spans : List ReadSpan) : Result (List R) :=
  (collect fill spans).map List.flatten

/-- `read_spans`, with the number of read threads (one creates no pool). -/
def readSpans (threads : Nat) (spans : List ReadSpan) (recordSize : Nat) (fill : ReadSpan → Result (List R)) :
    Result (List R) :=
  let rows := (spans.map ReadSpan.rows).sum
  if u64Bound ≤ rows then .error (.invalidData "read result size overflow")
  else if u64Bound ≤ rows * recordSize then .error (.invalidData "read result byte length overflow")
  else
    let bytes := rows * recordSize
    let workers := if 1 < threads ∧ parallelMinBytes ≤ bytes then min (max (bytes / minWorkerBytes) 1) threads else 1
    if workers = 1 then fillAll fill spans
    else
      match collect (fun span => spanTasks recordSize (max (taskBytes / recordSize) 1) span span.rows 0) spans with
      | .error e => .error e
      | .ok tasks =>
        if 1 < workers ∧ 1 < tasks.flatten.length then
          (collect (fillAll fill) (blocks ((tasks.flatten.length + workers - 1) / workers) tasks.flatten)).map
            List.flatten
        else fillAll fill tasks.flatten

end Planned

/-! ## Series reads -/

/-- Reads chunk after chunk into one buffer. -/
def appendChunks {R : Type} (read : ChunkMeta → List R → Result (List R)) : List ChunkMeta → List R → Result (List R)
  | [], out => .ok out
  | c :: cs, out =>
    match read c out with
    | .error e => .error e
    | .ok out' => appendChunks read cs out'

/-- Opens the file of a chunk and checks its header before reading from it. -/
def withChunk {α : Type} (sd : SeriesDir) (validate : ChunkHeader → Result Unit) (c : ChunkMeta)
    (read : ChunkFile → Result α) :
    Result α :=
  match sd.openChunk c.relativePath with
  | .error e => .error e
  | .ok f =>
    match validate f.header with
    | .error e => .error e
    | .ok () => read f

def shortRangeRows (timeframeMs startTs endTs : Int) : Nat :=
  if timeframeMs ≤ 0 then shortRangeMaxRecords.toNat
  else (max 0 (min (satSuccInt ((satSub endTs startTs).tdiv timeframeMs)) shortRangeMaxRecords)).toNat

/-- The capacity reserved for a kline range; only its overflow is observable. -/
def rangeCapacity (m : SeriesMeta) (startTs endTs : Int) : List ChunkMeta → Nat → Result Nat
  | [], sum => .ok sum
  | c :: cs, sum =>
    let count := if startTs ≤ c.startTs ∧ c.endTs ≤ endTs then c.count
      else min c.count (shortRangeRows m.timeframeMs startTs endTs)
    if u64Bound ≤ sum + count then .error (.invalidData "range capacity overflow")
    else rangeCapacity m startTs endTs cs (sum + count)

def getKlineRangePrepared (threads : Nat) (sd : SeriesDir) (m : SeriesMeta) (startTs endTs : Int) :
    Result (List KlineRecord) :=
  let chunks := m.chunksIn (m.findChunksForRange startTs endTs)
  if endTs < startTs then .ok []
  else if chunks = [] then .ok []
  else
    match rangeCapacity m startTs endTs chunks 0 with
    | .error e => .error e
    | .ok _ =>
      if shouldPlanRead m chunks startTs endTs then
        match collect (fun c => withChunk sd klineValidateHeader c (fun f => planRange KlineRecord klineReadTexts f startTs endTs)) chunks with
        | .error e => .error e
        | .ok spans => readSpans threads spans (FixedRecord.byteSize KlineRecord) (readPlanned KlineRecord)
      else
        appendChunks (fun c out => withChunk sd klineValidateHeader c
          (fun f => (klineAppendRange f startTs endTs out).map Prod.snd)) chunks []

def getScalarRangePrepared (threads : Nat) (sd : SeriesDir) (m : SeriesMeta) (startTs endTs : Int) :
    Result (List ScalarRecord) :=
  let chunks := m.chunksIn (m.findChunksForRange startTs endTs)
  if endTs < startTs then .ok []
  else if chunks = [] then .ok []
  else if shouldPlanRead m chunks startTs endTs then
    match collect (fun c => withChunk sd scalarValidateHeader c (fun f => planRange ScalarRecord scalarReadTexts f startTs endTs)) chunks with
    | .error e => .error e
    | .ok spans => readSpans threads spans (FixedRecord.byteSize ScalarRecord) (readPlanned ScalarRecord)
  else
    appendChunks (fun c out => withChunk sd scalarValidateHeader c
      (fun f => (scalarAppendRange f startTs endTs out).map Prod.snd)) chunks []

/-- `get_kline_at_prepared` and `get_scalar_at_prepared`. -/
def getAtPrepared {R : Type} [FixedRecord R] (t : SpanTexts) (validate : ChunkHeader → Result Unit) (sd : SeriesDir)
    (m : SeriesMeta) (ts : Int) : Result (Option R) :=
  match m.findChunkForTs ts with
  | none => .ok none
  | some index =>
    match m.chunks[index]? with
    | none => .ok none
    | some c => withChunk sd validate c (fun f => findByTsInFile t f ts)

/-- The manifest of the series, then the read. -/
def withMeta {α : Type} (sd : SeriesDir) (read : SeriesMeta → Result α) : Result α :=
  match sd.loadSeriesMeta with
  | .error e => .error e
  | .ok m => read m

def getKlineRange (threads : Nat) (sd : SeriesDir) (startTs endTs : Int) : Result (List KlineRecord) :=
  if endTs < startTs then .ok [] else withMeta sd (fun m => getKlineRangePrepared threads sd m startTs endTs)

def getScalarRange (threads : Nat) (sd : SeriesDir) (startTs endTs : Int) : Result (List ScalarRecord) :=
  if endTs < startTs then .ok [] else withMeta sd (fun m => getScalarRangePrepared threads sd m startTs endTs)

def getKlineAt (sd : SeriesDir) (ts : Int) : Result (Option KlineRecord) :=
  withMeta sd (fun m => getAtPrepared klineReadTexts klineValidateHeader sd m ts)

def getScalarAt (sd : SeriesDir) (ts : Int) : Result (Option ScalarRecord) :=
  withMeta sd (fun m => getAtPrepared scalarReadTexts scalarValidateHeader sd m ts)

def getFixedRange (R : Type) [FixedRecord R] (sd : SeriesDir) (startTs endTs : Int) : Result (List R) :=
  if endTs < startTs then .ok []
  else withMeta sd (fun m => appendChunks (fun c out => withChunk sd (fixedValidateHeader R) c
    (fun f => fixedAppendRange f startTs endTs out)) (m.chunksIn (m.findChunksForRange startTs endTs)) [])

/-! ## Planned spans -/

theorem fillAll_ok {R : Type} {fill : ReadSpan → Result (List R)} {val : ReadSpan → List R} {spans : List ReadSpan}
    (h : ∀ span ∈ spans, fill span = .ok (val span)) : fillAll fill spans = .ok (spans.flatMap val) := by
  unfold fillAll
  rw [collect_ok val h]
  rfl

section Spans

variable {R : Type} [FixedRecord R] {f : ChunkFile} {rows : List R}

/-- A span of a file that holds rows: it begins at row `first` and stays inside. -/
structure SpanOf (span : ReadSpan) (rows : List R) (first : Nat) : Prop where
  holds : Holds R span.file rows
  offset_eq : span.offset = first * FixedRecord.byteSize R + span.file.header.headerSize
  rows_le : first + span.rows ≤ rows.length

theorem readPlanned_ok {span : ReadSpan} {first : Nat} (h : SpanOf span rows first) :
    readPlanned R span = .ok (between rows first (first + span.rows)) := by
  have hpos : 0 < FixedRecord.byteSize R := FixedRecord.byteSize_pos
  obtain ⟨-, hb⟩ := h.holds.length_lt
  have hmul : span.rows * FixedRecord.byteSize R ≤ rows.length * FixedRecord.byteSize R :=
    Nat.mul_le_mul_right _ (by have := h.rows_le; omega)
  unfold readPlanned
  rw [if_neg (by omega), h.offset_eq, Nat.add_sub_cancel, Nat.mul_mod_left, Nat.mul_div_cancel _ hpos,
    if_neg (by omega), h.holds.readRows_ok h.rows_le]

theorem upperCount_eq_length {t : Int} (h : ∀ r ∈ rows, FixedRecord.ts r ≤ t) : upperCount rows t = rows.length := by
  unfold upperCount
  rw [List.countP_eq_length]
  exact fun r hr => decide_eq_true (h r hr)

theorem lowerCount_eq_zero {t : Int} (h : ∀ r ∈ rows, t ≤ FixedRecord.ts r) : lowerCount rows t = 0 := by
  unfold lowerCount
  rw [List.countP_eq_zero]
  intro r hr
  have := h r hr
  simp only [decide_eq_true_eq]
  omega

/-- **A plan of a range is the span of the rows in range.** -/
theorem planRange_ok (h : Holds R f rows) (hst : FixedRecord.allowEqualTimestamps R = false) (t : SpanTexts) {s e : Int}
    (hse : s ≤ e) : ∃ span, planRange R t f s e = .ok span ∧ span.file = f ∧
      SpanOf span rows (lowerCount rows s) ∧ lowerCount rows s + span.rows = upperCount rows e := by
  have hle := lowerCount_le_of_le rows hse
  have hlen := upperCount_le_length rows e
  have hfirst : (if s ≤ f.header.startTs then .ok 0 else lowerBoundViaSparse R t f s) = .ok (lowerCount rows s) := by
    split
    · rename_i hs
      rw [lowerCount_eq_zero (fun r hr => le_trans hs (h.bounds hr).1)]
    · exact h.lowerBoundViaSparse_ok hst t s
  have hlast : (if f.header.endTs ≤ e then .ok f.header.count else upperBoundViaSparse R t f e)
      = .ok (upperCount rows e) := by
    split
    · rename_i he
      rw [upperCount_eq_length (fun r hr => le_trans (h.bounds hr).2 he), h.count_eq]
    · exact h.upperBoundViaSparse_ok t e
  have hbytes := h.bytes_lt
  have hmul : lowerCount rows s * FixedRecord.byteSize R ≤ rows.length * FixedRecord.byteSize R :=
    Nat.mul_le_mul_right _ (by omega)
  unfold planRange
  rw [hfirst]
  simp only
  rw [hlast]
  simp only
  rw [h.recordSize_eq, if_neg (by omega)]
  exact ⟨_, rfl, rfl, ⟨h, rfl, by simp only; omega⟩, by simp only; omega⟩

/-- What a span reads. -/
def spanRows (R : Type) [FixedRecord R] (span : ReadSpan) : List R := ((readPlanned R span).toOption).getD []

theorem spanRows_eq {span : ReadSpan} {first : Nat} (h : SpanOf span rows first) :
    spanRows R span = between rows first (first + span.rows) := by
  unfold spanRows
  rw [readPlanned_ok h]
  rfl

theorem readPlanned_eq_spanRows {span : ReadSpan} {first : Nat} (h : SpanOf span rows first) :
    readPlanned R span = .ok (spanRows R span) := by
  rw [readPlanned_ok h, spanRows_eq h]

/-- **The tasks of a span read its rows from `start` on**, each task inside the file. -/
theorem spanTasks_ok {span : ReadSpan} {first taskRows : Nat} (h : SpanOf span rows first) (ht : 1 ≤ taskRows) :
    ∀ (fuel start : Nat), span.rows - start ≤ fuel → start ≤ span.rows →
      ∃ tasks, spanTasks (FixedRecord.byteSize R) taskRows span fuel start = .ok tasks ∧
        (∀ task ∈ tasks, readPlanned R task = .ok (spanRows R task)) ∧
        tasks.flatMap (spanRows R) = between rows (first + start) (first + span.rows)
  | 0, start, hf, hs => by
    refine ⟨[], rfl, by simp, ?_⟩
    rw [between_eq_nil (by omega)]
    rfl
  | fuel + 1, start, hf, hs => by
    unfold spanTasks
    by_cases hlt : start < span.rows
    · rw [if_pos hlt]
      simp only
      have hbytes := h.holds.bytes_lt
      have hoff : span.offset + start * FixedRecord.byteSize R
          = (first + start) * FixedRecord.byteSize R + span.file.header.headerSize := by
        rw [h.offset_eq, Nat.add_mul]
        omega
      have hmul : (first + start) * FixedRecord.byteSize R ≤ rows.length * FixedRecord.byteSize R :=
        Nat.mul_le_mul_right _ (by have := h.rows_le; omega)
      rw [hoff, if_neg (by omega)]
      obtain ⟨tasks, htasks, hread, hflat⟩ :=
        spanTasks_ok h ht fuel (start + min (span.rows - start) taskRows) (by omega)
        (by omega)
      rw [htasks]
      have htask : SpanOf (R := R) ⟨span.file, (first + start) * FixedRecord.byteSize R + span.file.header.headerSize,
          min (span.rows - start) taskRows⟩ rows (first + start) :=
        ⟨h.holds, rfl, by have := h.rows_le; simp only; omega⟩
      refine ⟨_, rfl, ?_, ?_⟩
      · intro task hmem
        rcases List.mem_cons.1 hmem with rfl | hmem
        · exact readPlanned_eq_spanRows htask
        · exact hread task hmem
      · rw [List.flatMap_cons, hflat, spanRows_eq htask]
        simp only
        rw [← Nat.add_assoc, between_append (by omega) (by omega)]
    · rw [if_neg hlt]
      refine ⟨[], rfl, by simp, ?_⟩
      rw [between_eq_nil (by omega)]
      rfl

/-- **However many workers fill the spans, the result is what the spans read, in order.** -/
theorem readSpans_ok (threads : Nat) {spans : List ReadSpan} (hs : ∀ span ∈ spans, ∃ (rows : List R) (first : Nat),
      SpanOf span rows first)
    (hfit : (spans.map ReadSpan.rows).sum * FixedRecord.byteSize R < u64Bound) :
    readSpans threads spans (FixedRecord.byteSize R) (readPlanned R) = .ok (spans.flatMap (spanRows R)) := by
  have hle : (spans.map ReadSpan.rows).sum ≤ (spans.map ReadSpan.rows).sum * FixedRecord.byteSize R :=
    Nat.le_mul_of_pos_right _ FixedRecord.byteSize_pos
  have hread : ∀ span ∈ spans, readPlanned R span = .ok (spanRows R span) := by
    intro span hspan
    obtain ⟨rows, first, h⟩ := hs span hspan
    exact readPlanned_eq_spanRows h
  unfold readSpans
  simp only
  rw [if_neg (by omega), if_neg (by omega)]
  generalize (if 1 < threads ∧ parallelMinBytes ≤ (spans.map ReadSpan.rows).sum * FixedRecord.byteSize R
    then min (max ((spans.map ReadSpan.rows).sum * FixedRecord.byteSize R / minWorkerBytes) 1) threads else 1) = workers
  by_cases hw : workers = 1
  · rw [if_pos hw, fillAll_ok hread]
  · rw [if_neg hw]
    have htr : 1 ≤ max (taskBytes / FixedRecord.byteSize R) 1 := le_max_right _ _
    generalize max (taskBytes / FixedRecord.byteSize R) 1 = taskRows at htr
    -- the tasks of one span, and that together they read what it reads
    let tasksOf := fun span : ReadSpan =>
      ((spanTasks (FixedRecord.byteSize R) taskRows span span.rows 0).toOption).getD []
    have hspan : ∀ span ∈ spans, spanTasks (FixedRecord.byteSize R) taskRows span span.rows 0 = .ok (tasksOf span) ∧
        (∀ task ∈ tasksOf span, readPlanned R task = .ok (spanRows R task)) ∧
        (tasksOf span).flatMap (spanRows R) = spanRows R span := by
      intro span hmem
      obtain ⟨rows, first, h⟩ := hs span hmem
      obtain ⟨tasks, h1, h2, h3⟩ := spanTasks_ok h htr span.rows 0 (by omega) (by omega)
      have heq : tasksOf span = tasks := by
        show ((spanTasks (FixedRecord.byteSize R) taskRows span span.rows 0).toOption).getD [] = tasks
        rw [h1]
        rfl
      rw [heq, spanRows_eq h]
      exact ⟨h1, h2, h3⟩
    rw [collect_ok tasksOf (fun span hmem => (hspan span hmem).1)]
    simp only
    have htasks : ∀ task ∈ (spans.map tasksOf).flatten, readPlanned R task = .ok (spanRows R task) := by
      intro task hmem
      obtain ⟨l, hl, hmem⟩ := List.mem_flatten.1 hmem
      obtain ⟨span, hspan', rfl⟩ := List.mem_map.1 hl
      exact (hspan span hspan').2.1 task hmem
    have hflat : (spans.map tasksOf).flatten.flatMap (spanRows R) = spans.flatMap (spanRows R) := by
      rw [← List.flatMap_def, List.flatMap_assoc]
      exact List.flatMap_congr (fun span hmem => (hspan span hmem).2.2)
    split
    · rename_i hpar
      have hgroup : 1 ≤ ((spans.map tasksOf).flatten.length + workers - 1) / workers := by
        rw [Nat.le_div_iff_mul_le (by omega)]
        omega
      rw [collect_ok (fun group => group.flatMap (spanRows R))]
      · show Except.ok _ = _
        rw [← List.flatMap_def, ← List.flatMap_assoc, List.flatMap_id', flatten_blocks hgroup, hflat]
      · intro group hg
        refine fillAll_ok (fun task ht => htasks task ?_)
        rw [← flatten_blocks hgroup (spans.map tasksOf).flatten]
        exact List.mem_flatten.2 ⟨group, hg, ht⟩
    · rw [fillAll_ok htasks, hflat]

end Spans

/-! ## Stored series -/

/-- The directory stores the rows of each chunk of its manifest in the chunk's file, and the manifest describes them. -/
structure Stored (R : Type) [FixedRecord R] (sd : SeriesDir) (m : SeriesMeta) (rowsOf : ChunkMeta → List R) : Prop where
  manifest_eq : sd.manifest = .current m
  valid : m.validate = .ok ()
  held : ∀ c ∈ m.chunks, ∃ f, sd.lookup c.relativePath = some (.chunk f) ∧ Holds R f (rowsOf c) ∧
    c.startTs = f.header.startTs ∧ c.endTs = f.header.endTs ∧ c.count = f.header.count

section Stored

variable {R : Type} [FixedRecord R] {sd : SeriesDir} {m : SeriesMeta} {rowsOf : ChunkMeta → List R}

namespace Stored

theorem chain (h : Stored R sd m rowsOf) : SpanChain m.chunks ∧ SpansProper m.chunks := by
  refine SeriesMeta.chain_of_validate h.valid (fun c hc => ?_)
  obtain ⟨f, -, hf, -, -, hcount⟩ := h.held c hc
  rw [hcount, hf.count_eq]
  exact List.length_pos_iff.2 hf.ne_nil

theorem bounds (h : Stored R sd m rowsOf) {c : ChunkMeta} (hc : c ∈ m.chunks) {r : R} (hr : r ∈ rowsOf c) :
    c.startTs ≤ FixedRecord.ts r ∧ FixedRecord.ts r ≤ c.endTs := by
  obtain ⟨f, -, hf, hs, he, -⟩ := h.held c hc
  rw [hs, he]
  exact hf.bounds hr

theorem count_eq (h : Stored R sd m rowsOf) {c : ChunkMeta} (hc : c ∈ m.chunks) : c.count = (rowsOf c).length := by
  obtain ⟨f, -, hf, -, -, hcount⟩ := h.held c hc
  rw [hcount, hf.count_eq]

/-- **The stored rows are in order across the chunks.** -/
theorem ordered (h : Stored R sd m rowsOf) : Ordered (m.chunks.flatMap rowsOf) := by
  refine Chain.flatMap_sorted rowsOf FixedRecord.ts (InOrder R) (fun x y hxy => inOrder_of_lt hxy) h.chain.1 ?_ ?_
  · intro c hc
    obtain ⟨f, -, hf, -⟩ := h.held c hc
    exact hf.ordered
  · exact fun c hc r hr => h.bounds hc hr

theorem inRange_outside (h : Stored R sd m rowsOf) {s e : Int} {c : ChunkMeta} (hc : c ∈ m.chunks)
    (hout : c.endTs < s ∨ e < c.startTs) : inRange s e (rowsOf c) = [] := by
  refine inRange_eq_nil (fun r hr => ?_)
  have := h.bounds hc hr
  omega

/-- The chunks a lookup selects hold every row in range. -/
theorem flatMap_inRange (h : Stored R sd m rowsOf) {s e : Int} (hse : s ≤ e) :
    (m.chunksIn (m.findChunksForRange s e)).flatMap (fun c =>
      inRange s e (rowsOf c)) = inRange s e (m.chunks.flatMap rowsOf) := by
  rw [SeriesMeta.flatMap_findChunksForRange h.chain.1 h.chain.2 hse _ (fun c hc hout => h.inRange_outside hc hout)]
  unfold inRange
  rw [List.filter_flatMap]

theorem inRange_self (h : Stored R sd m rowsOf) {c : ChunkMeta} (hc : c ∈ m.chunks) :
    inRange c.startTs c.endTs (rowsOf c) = rowsOf c := by
  unfold inRange
  refine List.filter_eq_self.2 (fun r hr => ?_)
  simpa using h.bounds hc hr

/-- The rows in the span of a chunk are its own. -/
theorem inRange_chunk (h : Stored R sd m rowsOf) {c : ChunkMeta} (hc : c ∈ m.chunks) :
    inRange c.startTs c.endTs (m.chunks.flatMap rowsOf) = rowsOf c := by
  obtain ⟨as, bs, heq⟩ := List.append_of_mem hc
  have hchain := h.chain.1
  have hprop := h.chain.2
  have hout : ∀ e ∈ as ++ bs, inRange c.startTs c.endTs (rowsOf e) = [] := by
    intro e he
    rw [heq] at hchain
    have hmem : e ∈ m.chunks := by
      rw [heq]
      rcases List.mem_append.1 he with he | he
      · exact List.mem_append_left _ he
      · exact List.mem_append_right _ (List.mem_cons_of_mem _ he)
    refine h.inRange_outside hmem ?_
    rcases List.mem_append.1 he with he | he
    · exact .inl ((List.pairwise_append.1 hchain).2.2 e he c (by simp))
    · exact .inr (List.rel_of_pairwise_cons (List.pairwise_append.1 hchain).2.1 he)
  have hnil : ∀ l : List ChunkMeta, (∀ e ∈ l, inRange c.startTs c.endTs (rowsOf e) = []) →
      l.flatMap (fun e => inRange c.startTs c.endTs (rowsOf e)) = [] := fun l hl => by
    rw [List.flatMap_eq_nil_iff]
    exact hl
  rw [show inRange c.startTs c.endTs (m.chunks.flatMap rowsOf) = m.chunks.flatMap
    (fun e => inRange c.startTs c.endTs (rowsOf e)) by
    unfold inRange
    rw [List.filter_flatMap]]
  rw [heq, List.flatMap_append, List.flatMap_cons, h.inRange_self hc,
    hnil as (fun e he => hout e (List.mem_append_left _ he)), hnil bs
      (fun e he => hout e (List.mem_append_right _ he)), List.nil_append, List.append_nil]

theorem withChunk_ok {α : Type} (h : Stored R sd m rowsOf) (validate : ChunkHeader → Result Unit) {c : ChunkMeta}
    (hc : c ∈ m.chunks) (hv : ∀ f, Holds R f (rowsOf c) → validate f.header = .ok ()) (read : ChunkFile → Result α) :
    ∃ f, Holds R f (rowsOf c) ∧ withChunk sd validate c read = read f := by
  obtain ⟨f, hl, hf, -⟩ := h.held c hc
  refine ⟨f, hf, ?_⟩
  unfold withChunk
  rw [SeriesDir.openChunk_ok hl hf.header_ok]
  simp only
  rw [hv f hf]

end Stored

theorem appendChunks_ok {R : Type} {read : ChunkMeta → List R → Result (List R)} {g : ChunkMeta → List R} :
    ∀ {cs : List ChunkMeta}
    (out : List R), (∀ c ∈ cs, ∀ out, read c out = .ok (out ++ g c)) →
      appendChunks read cs out = .ok (out ++ cs.flatMap g)
  | [], out, _ => by simp [appendChunks]
  | c :: cs, out, h => by
    unfold appendChunks
    rw [h c (by simp) out]
    simp only
    rw [appendChunks_ok (out ++ g c) (fun c hc => h c (by simp [hc])), List.flatMap_cons, List.append_assoc]

theorem Holds.validateHeader_ok {f : ChunkFile} {rows : List R} (h : Holds R f rows) (expected unexpected : Text) :
    validateHeader R expected unexpected f.header = .ok () := by
  unfold validateHeader
  rw [if_neg (not_not.2 h.schemaId_eq), if_neg (not_not.2 h.recordSize_eq)]

/-- **The planned read of a range returns the rows in range**, with any number of workers. -/
theorem plannedRead_ok (h : Stored R sd m rowsOf) (hst : FixedRecord.allowEqualTimestamps R = false) (t : SpanTexts)
    (expected unexpected : Text) (threads : Nat) {s e : Int} (hse : s ≤ e)
    (hfit : (inRange s e (m.chunks.flatMap rowsOf)).length * FixedRecord.byteSize R < u64Bound) :
    ∃ spans, collect (fun c => withChunk sd (validateHeader R expected unexpected) c (fun f => planRange R t f s e))
        (m.chunksIn (m.findChunksForRange s e)) = .ok spans ∧
      readSpans threads spans (FixedRecord.byteSize R)
        (readPlanned R) = .ok (inRange s e (m.chunks.flatMap rowsOf)) := by
  have hplan : ∀ c ∈ m.chunksIn (m.findChunksForRange s e), ∃ span,
      withChunk sd (validateHeader R expected unexpected) c (fun f => planRange R t f s e) = .ok span ∧
        (∃ (rows : List R) (first : Nat), SpanOf span rows first) ∧ spanRows R span = inRange s e (rowsOf c) ∧
        span.rows = (inRange s e (rowsOf c)).length := by
    intro c hc
    obtain ⟨f, hf, hw⟩ := h.withChunk_ok (validateHeader R expected unexpected) (SeriesMeta.chunksIn_subset hc)
      (fun f hf => hf.validateHeader_ok expected unexpected) (fun f => planRange R t f s e)
    obtain ⟨span, h1, -, h2, h3⟩ := planRange_ok hf hst t hse
    have hrows : spanRows R span = inRange s e (rowsOf c) := by
      rw [spanRows_eq h2, h3, between_counts hf.ordered]
    refine ⟨span, by rw [hw, h1], ⟨_, _, h2⟩, hrows, ?_⟩
    rw [← hrows, spanRows_eq h2, length_between h2.rows_le]
    omega
  obtain ⟨spans, hspans, hall⟩ := collect_forall₂ hplan
  refine ⟨spans, hspans, ?_⟩
  have hflat : spans.flatMap (spanRows R) = inRange s e (m.chunks.flatMap rowsOf) := by
    rw [← h.flatMap_inRange hse]
    exact (forall₂_flatMap (hall.imp (fun _ _ hp => hp.2.1))).symm
  have hsum : (spans.map ReadSpan.rows).sum = (inRange s e (m.chunks.flatMap rowsOf)).length := by
    rw [← hflat, List.length_flatMap]
    congr 1
    refine List.map_congr_left (fun span hspan => ?_)
    obtain ⟨c, -, -, hrows, hlen⟩ := exists_of_mem_forall₂ hall hspan
    rw [hrows, hlen]
  rw [readSpans_ok threads, hflat]
  · intro span hspan
    obtain ⟨c, -, hspan, -⟩ := exists_of_mem_forall₂ hall hspan
    exact hspan
  · rw [hsum]
    exact hfit

/-- **A point read returns the stored row with the timestamp, if there is one.** -/
theorem getAtPrepared_ok (h : Stored R sd m rowsOf) (hst : FixedRecord.allowEqualTimestamps R = false) (t : SpanTexts)
    (expected unexpected : Text) (ts : Int) :
    getAtPrepared t (validateHeader R expected unexpected) sd m ts = .ok (rowAt ts (m.chunks.flatMap rowsOf)) := by
  have hnone : ∀ c ∈ m.chunks, ¬ (c.startTs ≤ ts ∧ ts ≤ c.endTs) → ∀ r ∈ rowsOf c, FixedRecord.ts r ≠ ts := by
    intro c hc hcov r hr heq
    have := h.bounds hc hr
    exact hcov (by omega)
  unfold getAtPrepared
  rcases SeriesMeta.findChunkForTs_spec h.chain.1 h.chain.2 ts with ⟨i, c, hi, hc, hcov⟩ | ⟨hi, hall⟩
  · rw [hi]
    simp only
    rw [hc]
    simp only
    have hmem := List.mem_of_getElem? hc
    obtain ⟨f, hf, hw⟩ := h.withChunk_ok (validateHeader R expected unexpected) hmem
      (fun f hf => hf.validateHeader_ok expected unexpected) (fun f => findByTsInFile (R := R) t f ts)
    rw [hw, findByTsInFile_ok hf hst]
    congr 1
    -- no other chunk reaches `ts`, so the first hit is in this one
    obtain ⟨pre, post, hsplit, hlen⟩ : ∃ pre post, m.chunks = pre ++ c :: post ∧ pre.length = i := by
      obtain ⟨hlt, hget⟩ := List.getElem?_eq_some_iff.1 hc
      refine ⟨m.chunks.take i, m.chunks.drop (i + 1), ?_, by rw [List.length_take]; omega⟩
      rw [← hget, List.cons_getElem_drop_succ, List.take_append_drop]
    have hchain := h.chain.1
    rw [hsplit] at hchain
    obtain ⟨-, h2, h3⟩ := List.pairwise_append.1 hchain
    unfold rowAt
    rw [hsplit, List.flatMap_append, List.flatMap_cons, List.find?_append, List.find?_append]
    have hpre : (pre.flatMap rowsOf).find? (fun r => decide (FixedRecord.ts r = ts)) = none := by
      rw [List.find?_eq_none]
      intro r hr
      obtain ⟨d, hd, hr⟩ := List.mem_flatMap.1 hr
      have hdc := h3 d hd c (by simp)
      have hb := h.bounds (hsplit ▸ List.mem_append_left _ hd) hr
      simp only [decide_eq_true_eq]
      omega
    have hpost : (post.flatMap rowsOf).find? (fun r => decide (FixedRecord.ts r = ts)) = none := by
      rw [List.find?_eq_none]
      intro r hr
      obtain ⟨d, hd, hr⟩ := List.mem_flatMap.1 hr
      have hcd := List.rel_of_pairwise_cons h2 hd
      have hb := h.bounds (hsplit ▸ List.mem_append_right _ (List.mem_cons_of_mem _ hd)) hr
      simp only [decide_eq_true_eq]
      omega
    rw [hpre, hpost]
    simp
  · rw [hi]
    simp only
    congr 1
    symm
    unfold rowAt
    rw [List.find?_eq_none]
    intro r hr
    obtain ⟨c, hc, hr⟩ := List.mem_flatMap.1 hr
    have := hnone c hc (hall c hc) r hr
    simpa using this

end Stored

section Ranges

variable {R : Type} [FixedRecord R] {sd : SeriesDir} {m : SeriesMeta}

theorem withMeta_ok {α : Type} {rowsOf : ChunkMeta → List R} (h : Stored R sd m rowsOf) (read : SeriesMeta → Result α) :
    withMeta sd read = read m := by
  unfold withMeta
  rw [SeriesDir.loadSeriesMeta_ok h.manifest_eq h.valid]

theorem rangeCapacity_ok (s e : Int) : ∀ (cs : List ChunkMeta)
    (sum : Nat), sum + (cs.map ChunkMeta.count).sum < u64Bound →
    ∃ n, rangeCapacity m s e cs sum = .ok n
  | [], sum, _ => ⟨sum, rfl⟩
  | c :: cs, sum, h => by
    unfold rangeCapacity
    simp only
    rw [List.map_cons, List.sum_cons] at h
    have hle : (if s ≤ c.startTs ∧ c.endTs ≤ e then c.count else min c.count (shortRangeRows m.timeframeMs s e)) ≤
      c.count := by
      split
      · exact le_refl _
      · exact min_le_left _ _
    generalize (if s ≤ c.startTs ∧ c.endTs ≤ e then c.count else min c.count (shortRangeRows m.timeframeMs s e)) = n
      at hle
    rw [if_neg (by omega)]
    exact rangeCapacity_ok s e cs (sum + n) (by omega)

theorem Stored.sum_counts {rowsOf : ChunkMeta → List R} (h : Stored R sd m rowsOf) (s e : Int) :
    ((m.chunksIn (m.findChunksForRange s e)).map ChunkMeta.count).sum ≤ (m.chunks.flatMap rowsOf).length := by
  rw [List.length_flatMap]
  have heq : m.chunks.map (fun c => (rowsOf c).length) = m.chunks.map ChunkMeta.count :=
    List.map_congr_left (fun c hc => (h.count_eq hc).symm)
  rw [heq]
  refine List.Sublist.sum_le_sum (List.Sublist.map _ ?_) (fun _ _ => Nat.zero_le _)
  exact (List.take_sublist _ _).trans (List.drop_sublist _ _)

theorem flatMap_nil_of_chunks {rowsOf : ChunkMeta → List R} (h : Stored R sd m rowsOf) {s e : Int} (hse : s ≤ e)
    (hnil : m.chunksIn (m.findChunksForRange s e) = []) : inRange s e (m.chunks.flatMap rowsOf) = [] := by
  rw [← h.flatMap_inRange hse, hnil]
  rfl

theorem inRange_fits (s e : Int) {rows : List R} (h : rows.length * FixedRecord.byteSize R < u64Bound) :
    (inRange s e rows).length * FixedRecord.byteSize R < u64Bound :=
  lt_of_le_of_lt (Nat.mul_le_mul_right _ (List.length_filter_le _ _)) h

theorem inRange_of_lt {s e : Int} (h : e < s) (rows : List R) : inRange s e rows = [] :=
  inRange_eq_nil (fun r _ => by omega)

end Ranges

/-- **A kline range read is a filter of the stored rows**, however the manifest, the timeframe and the workers choose
its path. -/
theorem getKlineRange_eq {sd : SeriesDir} {m : SeriesMeta} {rowsOf : ChunkMeta → List KlineRecord}
    (h : Stored KlineRecord sd m rowsOf)
    (hfit : (m.chunks.flatMap rowsOf).length * FixedRecord.byteSize KlineRecord < u64Bound) (threads : Nat)
    (s e : Int) :
    getKlineRange threads sd s e = .ok (inRange s e (m.chunks.flatMap rowsOf)) := by
  unfold getKlineRange
  by_cases hlt : e < s
  · rw [if_pos hlt, inRange_of_lt hlt]
  have hse : s ≤ e := by omega
  rw [if_neg hlt, withMeta_ok h]
  unfold getKlineRangePrepared
  simp only
  rw [if_neg hlt]
  by_cases hnil : m.chunksIn (m.findChunksForRange s e) = []
  · rw [if_pos hnil, flatMap_nil_of_chunks h hse hnil]
  rw [if_neg hnil]
  obtain ⟨n, hn⟩ := rangeCapacity_ok (m := m) s e (m.chunksIn (m.findChunksForRange s e)) 0 (by
    have h1 := h.sum_counts s e
    have h2 : (m.chunks.flatMap rowsOf).length ≤ (m.chunks.flatMap rowsOf).length * FixedRecord.byteSize KlineRecord :=
      Nat.le_mul_of_pos_right _ FixedRecord.byteSize_pos
    omega)
  rw [hn]
  simp only
  cases shouldPlanRead m (m.chunksIn (m.findChunksForRange s e)) s e with
  | true =>
    obtain ⟨spans, h1, h2⟩ :=
      plannedRead_ok h rfl klineReadTexts "expected kline schema " "unexpected kline record size: " threads hse
      (inRange_fits s e hfit)
    unfold klineValidateHeader
    rw [if_pos rfl, h1]
    exact h2
  | false =>
    rw [if_neg (by simp), appendChunks_ok (g := fun c => inRange s e (rowsOf c)), List.nil_append,
      h.flatMap_inRange hse]
    intro c hc out
    obtain ⟨f, hf, hw⟩ := h.withChunk_ok klineValidateHeader (SeriesMeta.chunksIn_subset hc)
      (fun f hf => hf.validateHeader_ok _ _) (fun f => (klineAppendRange f s e out).map Prod.snd)
    obtain ⟨path, hpath⟩ := klineAppendRange_ok hf s e out
    rw [hw, hpath]
    rfl

theorem getScalarRangePrepared_eq {sd : SeriesDir} {m : SeriesMeta} {rowsOf : ChunkMeta → List ScalarRecord}
    (h : Stored ScalarRecord sd m rowsOf) (threads : Nat) (s e : Int)
    (hfit : (inRange s e (m.chunks.flatMap rowsOf)).length * FixedRecord.byteSize ScalarRecord < u64Bound) :
    getScalarRangePrepared threads sd m s e = .ok (inRange s e (m.chunks.flatMap rowsOf)) := by
  unfold getScalarRangePrepared
  simp only
  by_cases hlt : e < s
  · rw [if_pos hlt, inRange_of_lt hlt]
  have hse : s ≤ e := by omega
  rw [if_neg hlt]
  by_cases hnil : m.chunksIn (m.findChunksForRange s e) = []
  · rw [if_pos hnil, flatMap_nil_of_chunks h hse hnil]
  rw [if_neg hnil]
  cases shouldPlanRead m (m.chunksIn (m.findChunksForRange s e)) s e with
  | true =>
    obtain ⟨spans, h1, h2⟩ :=
      plannedRead_ok h rfl scalarReadTexts "expected scalar schema " "unexpected scalar record size: "
      threads hse hfit
    unfold scalarValidateHeader
    rw [if_pos rfl, h1]
    exact h2
  | false =>
    rw [if_neg (by simp), appendChunks_ok (g := fun c => inRange s e (rowsOf c)), List.nil_append,
      h.flatMap_inRange hse]
    intro c hc out
    obtain ⟨f, hf, hw⟩ := h.withChunk_ok scalarValidateHeader (SeriesMeta.chunksIn_subset hc)
      (fun f hf => hf.validateHeader_ok _ _) (fun f => (scalarAppendRange f s e out).map Prod.snd)
    obtain ⟨path, hpath⟩ := scalarAppendRange_ok hf s e out
    rw [hw, hpath]
    rfl

/-- **A scalar range read is a filter of the stored rows.** -/
theorem getScalarRange_eq {sd : SeriesDir} {m : SeriesMeta} {rowsOf : ChunkMeta → List ScalarRecord}
    (h : Stored ScalarRecord sd m rowsOf) (threads : Nat) (s e : Int)
    (hfit : (inRange s e (m.chunks.flatMap rowsOf)).length * FixedRecord.byteSize ScalarRecord < u64Bound) :
    getScalarRange threads sd s e = .ok (inRange s e (m.chunks.flatMap rowsOf)) := by
  unfold getScalarRange
  by_cases hlt : e < s
  · rw [if_pos hlt, inRange_of_lt hlt]
  · rw [if_neg hlt, withMeta_ok h, getScalarRangePrepared_eq h threads s e hfit]

/-- **Kline and scalar reads refine the filter of the stored rows.**  Whatever the files (of version 2 with any
sampling, or of version 1 without an index), the timeframe, the range and the number of read threads, a range read
returns the rows in range in increasing order, and a point read the row with the timestamp. -/
theorem reads_refine_stored :
    (∀ (sd : SeriesDir) (m : SeriesMeta) (rowsOf : ChunkMeta → List KlineRecord), Stored KlineRecord sd m rowsOf →
      (m.chunks.flatMap rowsOf).length * FixedRecord.byteSize KlineRecord < u64Bound → ∀ (threads : Nat) (s e ts : Int),
        getKlineRange threads sd s e = .ok (inRange s e (m.chunks.flatMap rowsOf)) ∧
        (inRange s e (m.chunks.flatMap rowsOf)).Pairwise (fun a b => a.ts < b.ts) ∧
        getKlineAt sd ts = .ok (rowAt ts (m.chunks.flatMap rowsOf))) ∧
    (∀ (sd : SeriesDir) (m : SeriesMeta) (rowsOf : ChunkMeta → List ScalarRecord), Stored ScalarRecord sd m rowsOf →
      (m.chunks.flatMap rowsOf).length * FixedRecord.byteSize ScalarRecord < u64Bound → ∀ (threads : Nat)
        (s e ts : Int),
        getScalarRange threads sd s e = .ok (inRange s e (m.chunks.flatMap rowsOf)) ∧
        (inRange s e (m.chunks.flatMap rowsOf)).Pairwise (fun a b => a.ts < b.ts) ∧
        getScalarAt sd ts = .ok (rowAt ts (m.chunks.flatMap rowsOf))) := by
  refine ⟨fun sd m rowsOf h hfit threads s e ts => ⟨getKlineRange_eq h hfit threads s e, ?_, ?_⟩,
    fun sd m rowsOf h hfit threads s e ts => ⟨getScalarRange_eq h threads s e (inRange_fits s e hfit), ?_, ?_⟩⟩
  · exact (ordered_klines.1 h.ordered).sublist List.filter_sublist
  · unfold getKlineAt klineValidateHeader
    rw [withMeta_ok h, getAtPrepared_ok h rfl]
  · exact (ordered_scalars.1 h.ordered).sublist List.filter_sublist
  · unfold getScalarAt scalarValidateHeader
    rw [withMeta_ok h, getAtPrepared_ok h rfl]

/-! ### A series of two chunks, the first of version 1 -/

def sampleKline (ts : Int) : KlineRecord := ⟨ts, 1, 2, 0, 1, 10⟩

def sampleOldRows : List KlineRecord := [sampleKline 0, sampleKline 60000]

def sampleNewRows : List KlineRecord := [sampleKline 2678400000, sampleKline 2678460000, sampleKline 2678520000]

def sampleMeta (chunks : List ChunkMeta) : SeriesMeta where
  symbol := "BTCUSDT"
  category := klineCategory
  name := "1m"
  timeframeMs := 60000
  recordType := .kline
  recordSize := 48
  schemaId := klineSchemaId
  priceScale := 100
  volumeScale := 100
  chunkUnit := "month"
  seriesId := 7
  manifestSeq := 1
  createdAt := 0
  updatedAt := 0
  flags := 0
  activeChunkId := none
  chunks := chunks

def sampleOptions (id : Nat) (relativePath : Text) : WriteChunkOptions := ⟨id, 1, .sealed, relativePath, 2⟩

def sampleOldFile : ChunkFile := chunkFileV1 7 60000 sampleOldRows

def sampleNewFile : ChunkFile := chunkFileOf (sampleMeta []) sampleNewRows (sampleOptions 2 "chunks/1970-02.chunk")
    (anchors 2 sampleNewRows)

def sampleOldChunk : ChunkMeta :=
  { chunkMetaOf sampleOldFile "1970-01" (sampleOptions 1 "chunks/1970-01.chunk") with chunkChecksum := 0 }

def sampleNewChunk : ChunkMeta :=
  { chunkMetaOf sampleNewFile "1970-02" (sampleOptions 2 "chunks/1970-02.chunk") with chunkChecksum := 0 }

def sampleSeries : SeriesDir where
  manifest := .current (sampleMeta [sampleOldChunk, sampleNewChunk])
  chunksDir := true
  files := [("1970-01.chunk", .chunk sampleOldFile), ("1970-02.chunk", .chunk sampleNewFile)]

def sampleRowsOf (c : ChunkMeta) : List KlineRecord := if c.chunkId = 1 then sampleOldRows else sampleNewRows

theorem sampleSeries_stored :
    Stored KlineRecord sampleSeries (sampleMeta [sampleOldChunk, sampleNewChunk]) sampleRowsOf := by
  refine ⟨rfl, by decide, fun c hc => ?_⟩
  rcases List.mem_cons.1 hc with rfl | hc
  · exact ⟨sampleOldFile, rfl, holds_chunkFileV1 7 60000 (ordered_klines.2 (by decide)) (by decide) (by decide),
      rfl, rfl, rfl⟩
  · obtain rfl := List.mem_singleton.1 hc
    exact ⟨sampleNewFile, rfl, holds_chunkFileOf (sampleMeta []) (sampleOptions 2 "chunks/1970-02.chunk")
      (ordered_klines.2 (by decide)) (by decide) (by decide), rfl, rfl, rfl⟩

/-- A range across both chunks of the series, and a timestamp of the second. -/
theorem reads_refine_stored_sample :
    getKlineRange 4 sampleSeries 60000 2678460000 = .ok [sampleKline 60000, sampleKline 2678400000,
      sampleKline 2678460000] ∧
      getKlineAt sampleSeries 2678520000 = .ok (some (sampleKline 2678520000)) := by
  have h := reads_refine_stored.1 sampleSeries _ sampleRowsOf sampleSeries_stored
    (by decide) 4 60000 2678460000 2678520000
  exact ⟨h.1.trans (by decide), h.2.2.trans (by decide)⟩

end FastK
