import FastK.Query
/-!
# Updating a manifest

The two edits of a chunk list (`storage/manifest.rs`), the manifests new series begin with (`engine/catalog.rs`), and
when a month is due for a merge (`engine/compaction.rs`).
-/
namespace FastK

open Spans

def maxGeneration (chunks : List ChunkMeta) : Nat := (chunks.map ChunkMeta.generation).foldl max 0

/-- The generation after the greatest of the chunks; it stays at `u32::MAX`. -/
def nextGeneration (chunks : List ChunkMeta) : Nat := satSucc (maxGeneration chunks)

def nextChunkId (m : SeriesMeta) : Nat := (m.chunks.map ChunkMeta.chunkId).foldl max 0 + 1

/-- The id of the last active chunk. -/
def lastActive (chunks : List ChunkMeta) : Option Nat :=
  (chunks.reverse.find? (fun c => decide (c.state = .active))).map ChunkMeta.chunkId

/-- Replaces the first chunk with the same id. -/
def replaceById (c : ChunkMeta) : List ChunkMeta → List ChunkMeta
  | [] => []
  | d :: ds => if d.chunkId = c.chunkId then c :: ds else d :: replaceById c ds

/-- A manifest with a new list of chunks, counted and dated as a change. -/
def SeriesMeta.withChunks (m : SeriesMeta) (now : Int) (chunks : List ChunkMeta) : SeriesMeta :=
  { m with chunks := sortByKey ChunkMeta.startTs chunks, manifestSeq := satAdd m.manifestSeq 1, updatedAt := now }

def checked (m : SeriesMeta) : Result SeriesMeta :=
  match m.validate with
  | .error e => .error e
  | .ok () => .ok m

def upsertChunkMeta (now : Int) (m : SeriesMeta) (c : ChunkMeta) : Result SeriesMeta :=
  checked (m.withChunks now
    (if m.chunks.any (fun d => decide (d.chunkId = c.chunkId)) then replaceById c m.chunks else m.chunks ++ [c]))

/-- The manifest with the chunks of a month replaced by one, and the chunks removed. -/
def replaceMonthChunks (now : Int) (m : SeriesMeta) (monthKey : Text) (replacement : ChunkMeta) :
    Result (SeriesMeta × List ChunkMeta) :=
  let next := m.withChunks now (m.chunks.filter (fun c => decide (c.monthKey ≠ monthKey)) ++ [replacement])
  match checked { next with activeChunkId := lastActive next.chunks } with
  | .error e => .error e
  | .ok m' => .ok (m', m.chunksForPartition monthKey)

/-! ## New series -/

/-- FNV-1a over the UTF-8 bytes of `symbol:category:name`. -/
def seriesIdFor (symbol category name : Text) : Nat :=
  checksum64 ((words [symbol, ":", category, ":", name]).flatMap (fun c => (String.utf8EncodeChar c).map UInt8.toNat))

def buildMeta (now : Int) (symbol category name : Text) (timeframeMs : Int) (recordType : RecordType)
    (recordSize schemaId : Nat) (priceScale volumeScale : Int) (chunkUnit : Text) : SeriesMeta where
  symbol := symbol
  category := category
  name := name
  timeframeMs := timeframeMs
  recordType := recordType
  recordSize := recordSize
  schemaId := schemaId
  priceScale := priceScale
  volumeScale := volumeScale
  chunkUnit := chunkUnit
  seriesId := seriesIdFor symbol category name
  manifestSeq := 1
  createdAt := now
  updatedAt := now
  flags := 0
  activeChunkId := none
  chunks := []

def buildKlineMeta (now : Int) (symbol timeframe : Text) (timeframeMs priceScale volumeScale : Int) : SeriesMeta :=
  buildMeta now symbol klineCategory timeframe timeframeMs .kline (FixedRecord.byteSize KlineRecord)
    klineSchemaId priceScale
    volumeScale PartitionUnit.month.asStr

def buildScalarMeta (now : Int) (key : ScalarSeriesKey) (timeframeMs : Int) : SeriesMeta :=
  buildMeta now key.symbol key.category key.name timeframeMs .scalar (FixedRecord.byteSize ScalarRecord)
    scalarSchemaId 1 1
    PartitionUnit.month.asStr

def buildFixedMeta (R : Type) [FixedRecord R] (now : Int) (symbol category name : Text) (timeframeMs : Int)
    (unit : PartitionUnit) :
    SeriesMeta :=
  buildMeta now symbol category name timeframeMs (FixedRecord.recordType R) (FixedRecord.byteSize R)
    (FixedRecord.schemaId R) 1 1
    unit.asStr

/-! ## Compaction -/

structure CompactionPolicy where
  deltaChunkThreshold : Nat
  deltaTotalBytesThreshold : Nat
  appendCountThreshold : Nat
  autoMerge : Bool
  deriving DecidableEq, Repr

def CompactionPolicy.default : CompactionPolicy := ⟨4, 4 * 1024 * 1024, 4, false⟩

structure CompactionDecision where
  monthKey : Text
  totalChunks : Nat
  deltaChunkCount : Nat
  deltaTotalBytes : Nat
  appendCount : Nat
  shouldMerge : Bool
  reasons : List Text
  deriving DecidableEq, Repr

def CompactionPolicy.evaluateMonth (p : CompactionPolicy) (m : SeriesMeta) (monthKey : Text) :
    Option CompactionDecision :=
  let monthChunks := m.chunksForPartition monthKey
  if monthChunks.isEmpty then none
  else
    let readable := sortByKey ChunkMeta.startTs (monthChunks.filter (fun c => c.state.isReadable))
    let deltaChunkCount := readable.length - 1
    let deltaTotalBytes := (readable.tail.map (fun c => min (c.count * m.recordSize) (u64Bound - 1))).sum
    let reasons :=
      (if p.deltaChunkThreshold ≤ deltaChunkCount then
        [words ["delta chunk count ", showNat deltaChunkCount, " reached threshold ",
          showNat p.deltaChunkThreshold]] else []) ++
      (if p.deltaTotalBytesThreshold ≤ deltaTotalBytes then
        [words ["delta bytes ", showNat deltaTotalBytes, " reached threshold ",
          showNat p.deltaTotalBytesThreshold]] else []) ++
      (if p.appendCountThreshold ≤ deltaChunkCount then
        [words ["append count ", showNat deltaChunkCount, " reached threshold ",
          showNat p.appendCountThreshold]] else [])
    some ⟨monthKey, monthChunks.length, deltaChunkCount, deltaTotalBytes, deltaChunkCount, !reasons.isEmpty, reasons⟩

def canTransition : ChunkState → ChunkState → Bool
  | .active, .merging | .active, .sealed | .active, .replaced => true
  | .sealed, .merging | .sealed, .replaced => true
  | .merging, .active | .merging, .sealed | .merging, .replaced => true
  | _, _ => false

def mergeOutputState (chunks : List ChunkMeta) : ChunkState :=
  if chunks.any (fun c => decide (c.state = .active)) then .active else .sealed

/-! ## What the edits keep -/

theorem checked_eq_ok {m m' : SeriesMeta} : checked m = .ok m' ↔ m.validate = .ok () ∧ m' = m := by
  unfold checked
  cases hv : m.validate with
  | error e => simp
  | ok u => simp [eq_comm]

theorem le_foldl_max_nat : ∀ (l : List Nat) (acc : Nat), acc ≤ l.foldl max acc ∧ ∀ x ∈ l, x ≤ l.foldl max acc
  | [], acc => ⟨le_refl _, by simp⟩
  | y :: ys, acc => by
    obtain ⟨h1, h2⟩ := le_foldl_max_nat ys (max acc y)
    rw [List.foldl_cons]
    refine ⟨le_trans (le_max_left _ _) h1, fun x hx => ?_⟩
    rcases List.mem_cons.1 hx with rfl | hx
    · exact le_trans (le_max_right _ _) h1
    · exact h2 x hx

theorem foldl_max_mem : ∀ (l : List Nat) (acc : Nat), l.foldl max acc = acc ∨ l.foldl max acc ∈ l
  | [], acc => .inl rfl
  | y :: ys, acc => by
    rw [List.foldl_cons]
    rcases foldl_max_mem ys (max acc y) with h | h
    · rw [h]
      rcases le_total acc y with hle | hle
      · exact .inr (by rw [max_eq_right hle]; simp)
      · exact .inl (max_eq_left hle)
    · exact .inr (List.mem_cons_of_mem _ h)

theorem le_maxGeneration {cs : List ChunkMeta} {c : ChunkMeta} (h : c ∈ cs) : c.generation ≤ maxGeneration cs :=
  (le_foldl_max_nat _ 0).2 _ (List.mem_map_of_mem h)

theorem chunkId_lt_next {m : SeriesMeta} {c : ChunkMeta} (h : c ∈ m.chunks) : c.chunkId < nextChunkId m :=
  Nat.lt_succ_of_le ((le_foldl_max_nat _ 0).2 _ (List.mem_map_of_mem h))

theorem nextGeneration_le (cs : List ChunkMeta) : nextGeneration cs ≤ u32Max := min_le_right _ _

/-- Below saturation the next generation is above every generation of the chunks. -/
theorem lt_nextGeneration {cs : List ChunkMeta} {c : ChunkMeta} (h : c ∈ cs) (hs : maxGeneration cs < u32Max) :
    c.generation < nextGeneration cs := by
  have := le_maxGeneration h
  unfold nextGeneration satSucc
  omega

/-- A chunk with a new id is added to the list. -/
theorem upsert_new {now : Int} {m : SeriesMeta} {c : ChunkMeta} (h : ∀ d ∈ m.chunks, d.chunkId ≠ c.chunkId) :
    upsertChunkMeta now m c = checked (m.withChunks now (m.chunks ++ [c])) := by
  unfold upsertChunkMeta
  rw [if_neg]
  intro hany
  obtain ⟨d, hd, heq⟩ := List.any_eq_true.1 hany
  exact h d hd (by simpa using heq)

theorem validate_congr {m m' : SeriesMeta} (h1 : m'.symbol = m.symbol) (h2 : m'.category = m.category)
    (h3 : m'.name = m.name) (h4 : m'.recordSize = m.recordSize) (h5 : m'.chunkUnit = m.chunkUnit) :
    m'.HeadValid ↔ m.HeadValid := by
  unfold SeriesMeta.HeadValid
  rw [h1, h2, h3, h4, h5]

end FastK
