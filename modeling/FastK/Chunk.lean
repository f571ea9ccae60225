import FastK.Lib.Sampled
import FastK.Records
import FastK.Path
/-!
# Chunk files

A chunk file is a header, the rows, and every `sparse_index_every`-th row's timestamp (`chunk/header.rs`,
`chunk/sparse_index.rs`, the writers).  `Holds` says that a file stores given rows: it is what the writers produce
(`holds_chunkFileOf`) and what the readers rely on.
-/
namespace FastK

open Search Sampled

def u32Max : Nat := 2 ^ 32 - 1
def u64Bound : Nat := 2 ^ 64

/-- `u32::saturating_add(1)`. -/
def satSucc (n : Nat) : Nat := min (n + 1) u32Max

/-- `u64::saturating_add`. -/
def satAdd (a b : Nat) : Nat := min (a + b) (u64Bound - 1)

/-! ## Header -/

structure ChunkHeader where
  version : Nat
  headerSize : Nat
  recordSize : Nat
  schemaId : Nat
  seriesId : Nat
  chunkId : Nat
  generation : Nat
  timeframeMs : Int
  startTs : Int
  endTs : Int
  count : Nat
  flags : Nat
  indexOffset : Nat
  indexLen : Nat
  sparseIndexEvery : Nat
  deriving DecidableEq, Repr

def chunkVersionV1 : Nat := 1
def chunkVersionV2 : Nat := 2
def byteSizeV1 : Nat := 88
def byteSizeV2 : Nat := 128
def chunkFlagHasSparseIndex : Nat := 1

/-- The flag bit of the sparse index. -/
def ChunkHeader.hasSparseIndex (h : ChunkHeader) : Bool := h.flags % 2 == 1

def ChunkHeader.validate (h : ChunkHeader) : Result Unit :=
  if h.version = chunkVersionV1 ∧ h.headerSize ≠ byteSizeV1 ∨
      h.version = chunkVersionV2 ∧ h.headerSize ≠ byteSizeV2 then
    .error (.invalidData (words ["unexpected header size: ", showNat h.headerSize]))
  else if h.version ≠ chunkVersionV1 ∧ h.version ≠ chunkVersionV2 then
    .error (.invalidData (words ["unsupported chunk version: ", showNat h.version]))
  else if 0 < h.count ∧ h.endTs < h.startTs then
    .error (.invalidData (words ["chunk start_ts ", showInt h.startTs, " is after end_ts ", showInt h.endTs]))
  else if chunkVersionV2 ≤ h.version ∧ h.hasSparseIndex = true ∧ h.sparseIndexEvery = 0 then
    .error (.invalidData "chunk declares sparse index but sparse_index_every=0")
  else .ok ()

theorem ChunkHeader.validate_v2 {h : ChunkHeader} (hv : h.version = chunkVersionV2) (hs : h.headerSize = byteSizeV2)
    (ht : h.startTs ≤ h.endTs) (he : h.sparseIndexEvery ≠ 0) : h.validate = .ok () := by
  unfold ChunkHeader.validate
  rw [hv, hs, if_neg (by decide), if_neg (by decide), if_neg (by omega), if_neg (by tauto)]

theorem ChunkHeader.startTs_le_endTs {h : ChunkHeader} (hv : h.validate = .ok ()) (hc : 0 < h.count) :
    h.startTs ≤ h.endTs := by
  unfold ChunkHeader.validate at hv
  by_contra hlt
  have hbad : 0 < h.count ∧ h.endTs < h.startTs := ⟨hc, by omega⟩
  split at hv
  · cases hv
  · split at hv
    · cases hv
    · cases hv

/-- The magic bytes `FASTK001`. -/
def chunkMagic : List Nat := [70, 65, 83, 84, 75, 48, 48, 49]

def ChunkHeader.toLeBytes (h : ChunkHeader) : List Nat :=
  (chunkMagic ++ [(h.version : Int), h.headerSize, h.recordSize, h.schemaId, h.seriesId, h.chunkId, h.generation,
    h.timeframeMs, h.startTs, h.endTs, h.count, h.flags, h.indexOffset, h.indexLen, h.sparseIndexEvery].flatMap
      (leBytes 8)).take h.headerSize

/-! ## Sparse index -/

structure SparseIndexEntry where
  ts : Int
  recordIdx : Nat
  deriving DecidableEq, Repr

def defaultSparseIndexEvery : Nat := 128

/-- Every `every`-th row's timestamp and index. -/
def anchors {R : Type} [FixedRecord R] (every : Nat) (records : List R) : List SparseIndexEntry :=
  (stepBy every records.zipIdx).map (fun p => ⟨FixedRecord.ts p.1, p.2⟩)

def sampleValidated {R : Type} [FixedRecord R] (records : List R) (every : Nat) : Result (List SparseIndexEntry) :=
  if every = 0 then .error (.invalidInput "sparse index frequency must be greater than zero")
  else .ok (anchors every records)

/-- The rows between two anchors that a lookup of `ts` has to search. -/
def lookupWindow (count : Nat) (entries : List SparseIndexEntry) (ts : Int) : Result (Nat × Nat) :=
  if count = 0 ∨ entries = [] then .ok (0, count)
  else
    let index := partitionPoint (fun e => decide (e.ts ≤ ts)) entries - 1
    let start := (entries[index]?).elim 0 SparseIndexEntry.recordIdx
    let stop := (entries[index + 1]?).elim count SparseIndexEntry.recordIdx
    if stop < start ∨ count < stop then .error (.invalidData "sparse window exceeds chunk bounds")
    else .ok (start, stop)

/-! ## Files -/

structure ChunkFile where
  header : ChunkHeader
  rows : List Record
  index : List SparseIndexEntry
  deriving DecidableEq, Repr

def ChunkFile.bytes (f : ChunkFile) : List Nat :=
  f.header.toLeBytes ++ f.rows.flatMap Record.encodeLe ++ f.index.flatMap (fun e =>
    leBytes 8 e.ts ++ leBytes 8 e.recordIdx)

/-- FNV-1a over the bytes (`fs::checksum64`). -/
def checksum64 (bytes : List Nat) : Nat :=
  bytes.foldl (fun digest byte => (digest ^^^ byte) * 0x100000001b3 % u64Bound) 0xcbf29ce484222325

/-- The sparse index a reader loads: none before version 2, without the flag, or of length 0. -/
def ChunkFile.sparseIndex (f : ChunkFile) : List SparseIndexEntry :=
  if f.header.version < chunkVersionV2 ∨ f.header.hasSparseIndex = false ∨ f.header.indexLen = 0 then [] else f.index

/-! ## Writing -/

/-- What a writer is told about the chunk it writes. -/
structure WriteChunkOptions where
  chunkId : Nat
  generation : Nat
  state : ChunkState
  relativePath : Text
  sparseIndexEvery : Nat
  deriving DecidableEq, Repr

section Writers

variable {R : Type} [FixedRecord R]

def firstTs (records : List R) : Int := (records.head?).elim 0 FixedRecord.ts
def lastTs (records : List R) : Int := (records.getLast?).elim 0 FixedRecord.ts

/-- The sampling distance a writer uses. -/
def WriteChunkOptions.every (o : WriteChunkOptions) : Nat := max o.sparseIndexEvery 1

/-- The file of checked records. -/
def chunkFileOf (m : SeriesMeta) (records : List R) (o : WriteChunkOptions) (index : List SparseIndexEntry) :
    ChunkFile where
  header := {
    version := chunkVersionV2, headerSize := byteSizeV2, recordSize := FixedRecord.byteSize R,
    schemaId := FixedRecord.schemaId R, seriesId := m.seriesId, chunkId := o.chunkId, generation := o.generation,
    timeframeMs := m.timeframeMs, startTs := firstTs records, endTs := lastTs records, count := records.length,
    flags := chunkFlagHasSparseIndex, indexOffset := byteSizeV2 + records.length * FixedRecord.byteSize R,
    indexLen := index.length, sparseIndexEvery := o.every }
  rows := records.map FixedRecord.encode
  index := index

/-- A file of version 1: the shorter header knows no chunk id and no generation, and there is no index. -/
def chunkFileV1 (seriesId : Nat) (timeframeMs : Int) (records : List R) : ChunkFile where
  header := {
    version := chunkVersionV1, headerSize := byteSizeV1, recordSize := FixedRecord.byteSize R,
    schemaId := FixedRecord.schemaId R, seriesId := seriesId, chunkId := 0, generation := 0, timeframeMs := timeframeMs,
    startTs := firstTs records, endTs := lastTs records, count := records.length, flags := 0, indexOffset := byteSizeV1,
    indexLen := 0, sparseIndexEvery := 0 }
  rows := records.map FixedRecord.encode
  index := []

/-- The manifest entry of a file. -/
def chunkMetaOf (f : ChunkFile) (partitionKey : Text) (o : WriteChunkOptions) : ChunkMeta where
  chunkId := o.chunkId
  monthKey := partitionKey
  startTs := f.header.startTs
  endTs := f.header.endTs
  count := f.header.count
  state := o.state
  layoutVersion := f.header.version
  headerLen := f.header.headerSize
  sparseIndexEvery := o.every
  sparseIndexOffset := f.header.indexOffset
  sparseIndexLen := f.header.indexLen % 2 ^ 32
  chunkChecksum := checksum64 f.bytes
  generation := o.generation
  relativePath := o.relativePath
  sidecars := []

/-- The common end of the three writers: index, header and manifest entry of checked records. -/
def assembleChunk (overflow : Text) (m : SeriesMeta) (records : List R) (partitionKey : Text) (o : WriteChunkOptions) :
    Result (ChunkFile × ChunkMeta) :=
  match sampleValidated records o.every with
  | .error e => .error e
  | .ok index =>
    if u64Bound ≤ records.length * FixedRecord.byteSize R then .error (.invalidInput overflow)
    -- the buffer of the file is a `Vec`: reserving more than `isize::MAX` bytes panics
    else if 2 ^ 63 ≤ byteSizeV2 + records.length * FixedRecord.byteSize R + 16 * index.length then
      .error (.io "capacity overflow")
    else .ok (chunkFileOf m records o index, chunkMetaOf (chunkFileOf m records o index) partitionKey o)

/-- The months of the first and of the last record agree. -/
def singleMonth (records : List R) : Result Text :=
  match monthKey (firstTs records) with
  | .error e => .error e
  | .ok key =>
    match monthKey (lastTs records) with
    | .error e => .error e
    | .ok lastKey => if lastKey ≠ key then .error (.invalidInput "records span multiple UTC months") else .ok key

/-- Every record of the list has the partition key of the first. -/
def singlePartition (unit : PartitionUnit) (key : Text) : List R → Result Unit
  | [] => .ok ()
  | r :: rs =>
    match partitionKey (FixedRecord.ts r) unit with
    | .error e => .error e
    | .ok recordPartition =>
      if recordPartition ≠ key then
        .error (.invalidInput (words ["records span multiple partitions: ", key, " vs ", recordPartition]))
      else singlePartition unit key rs

end Writers

/-- `kline_writer::write_chunk`, up to the publication of the file. -/
def klineChunk (m : SeriesMeta) (records : List KlineRecord) (o : WriteChunkOptions) : Result (ChunkFile × ChunkMeta) :=
  match KlineRecord.validateStrictOrder records with
  | .error e => .error e
  | .ok () =>
    match singleMonth records with
    | .error e => .error e
    | .ok key =>
      if Text.isBlank o.relativePath then .error (.invalidInput "chunk relative_path must not be empty")
      else assembleChunk "kline chunk byte length overflow" m records key o

/-- `scalar_writer::write_chunk`, up to the publication of the file. -/
def scalarChunk (m : SeriesMeta) (records : List ScalarRecord) (o : WriteChunkOptions) :
    Result (ChunkFile × ChunkMeta) :=
  match ScalarRecord.validateStrictOrder records with
  | .error e => .error e
  | .ok () =>
    match singleMonth records with
    | .error e => .error e
    | .ok key => assembleChunk "scalar chunk byte length overflow" m records key o

/-- `fixed_writer::write_chunk`, up to the publication of the file: the only writer that compares the types. -/
def fixedChunk {R : Type} [FixedRecord R] (m : SeriesMeta) (records : List R) (unit : PartitionUnit)
    (o : WriteChunkOptions) :
    Result (ChunkFile × ChunkMeta) :=
  match validateStrictOrder R records with
  | .error e => .error e
  | .ok () =>
    if m.recordType ≠ FixedRecord.recordType R then
      .error (.invalidData (words ["series record type ", m.recordType.debug, " does not match writer ",
        (FixedRecord.recordType R).debug]))
    else if m.schemaId ≠ FixedRecord.schemaId R then
      .error (.invalidData (words ["series schema_id ", showNat m.schemaId, " does not match writer ",
        showNat (FixedRecord.schemaId R)]))
    else if m.recordSize ≠ FixedRecord.byteSize R then
      .error (.invalidData (words ["series record_size ", showNat m.recordSize, " does not match writer ",
        showNat (FixedRecord.byteSize R)]))
    else if Text.isBlank o.relativePath then .error (.invalidInput "chunk relative_path must not be empty")
    else
      match partitionKey (firstTs records) unit with
      | .error e => .error e
      | .ok key =>
        match singlePartition unit key records.tail with
        | .error e => .error e
        | .ok () => assembleChunk "fixed chunk byte length overflow" m records key o

/-! ## A file holds rows -/

/-- The file stores the rows of type `R`, in order, under a header that describes them; its sparse index, where it has
one, samples them. -/
structure Holds (R : Type) [FixedRecord R] (f : ChunkFile) (rows : List R) : Prop where
  rows_eq : f.rows = rows.map FixedRecord.encode
  ne_nil : rows ≠ []
  ordered : Ordered rows
  count_eq : f.header.count = rows.length
  startTs_eq : f.header.startTs = firstTs rows
  endTs_eq : f.header.endTs = lastTs rows
  schemaId_eq : f.header.schemaId = FixedRecord.schemaId R
  recordSize_eq : f.header.recordSize = FixedRecord.byteSize R
  header_ok : f.header.validate = .ok ()
  bytes_lt : f.header.headerSize + rows.length * FixedRecord.byteSize R < u64Bound
  sampled : f.sparseIndex = [] ∨ ∃ every, 1 ≤ every ∧ f.sparseIndex = anchors every rows

section Holds

variable {R : Type} [FixedRecord R] {rows : List R}

theorem Ordered.le {l : List R} (h : Ordered l) : l.Pairwise (fun a b => FixedRecord.ts a ≤ FixedRecord.ts b) :=
  h.imp (fun hab => hab.le)

theorem firstTs_cons (r : R) (rs : List R) : firstTs (r :: rs) = FixedRecord.ts r := rfl

theorem firstTs_le (ho : Ordered rows) {r : R} (hr : r ∈ rows) : firstTs rows ≤ FixedRecord.ts r := by
  cases rows with
  | nil => cases hr
  | cons a as =>
    rcases List.mem_cons.1 hr with rfl | hr
    · exact le_refl _
    · exact List.rel_of_pairwise_cons ho.le hr

theorem lastTs_append_singleton (l : List R) (r : R) : lastTs (l ++ [r]) = FixedRecord.ts r := by
  simp [lastTs]

theorem le_lastTs (ho : Ordered rows) {r : R} (hr : r ∈ rows) : FixedRecord.ts r ≤ lastTs rows := by
  rcases List.eq_nil_or_concat rows with rfl | ⟨l, b, rfl⟩
  · cases hr
  · rw [List.concat_eq_append] at hr ho ⊢
    rw [lastTs_append_singleton]
    rcases List.mem_append.1 hr with hr | hr
    · exact (List.pairwise_append.1 ho.le).2.2 r hr b (by simp)
    · rw [List.mem_singleton.1 hr]

theorem exists_firstTs (h : rows ≠ []) : ∃ r ∈ rows, FixedRecord.ts r = firstTs rows := by
  cases rows with
  | nil => exact absurd rfl h
  | cons a as => exact ⟨a, by simp, rfl⟩

theorem exists_lastTs (h : rows ≠ []) : ∃ r ∈ rows, FixedRecord.ts r = lastTs rows := by
  rcases List.eq_nil_or_concat rows with rfl | ⟨l, b, rfl⟩
  · exact absurd rfl h
  · rw [List.concat_eq_append]
    exact ⟨b, by simp, (lastTs_append_singleton l b).symm⟩

theorem firstTs_le_lastTs (ho : Ordered rows) (h : rows ≠ []) : firstTs rows ≤ lastTs rows := by
  obtain ⟨r, hr, he⟩ := exists_firstTs h
  rw [← he]
  exact le_lastTs ho hr

theorem sampleValidated_ok {every : Nat} (h : 1 ≤ every) : sampleValidated rows every = .ok (anchors every rows) := by
  unfold sampleValidated
  rw [if_neg (by omega)]

theorem anchors_ne_nil {every : Nat} (h : rows ≠ []) : anchors every rows ≠ [] := by
  unfold anchors
  rw [ne_eq, List.map_eq_nil_iff]
  refine stepBy_ne_nil (fun hz => h ?_)
  have := congrArg List.length hz
  simpa using this

theorem WriteChunkOptions.every_pos (o : WriteChunkOptions) : 1 ≤ o.every := le_max_right _ _

theorem assembleChunk_eq_ok {overflow : Text} {m : SeriesMeta} {key : Text} {o : WriteChunkOptions}
    {p : ChunkFile × ChunkMeta} (h : assembleChunk overflow m rows key o = .ok p) :
    p = (chunkFileOf m rows o (anchors o.every rows), chunkMetaOf (chunkFileOf m rows o (anchors o.every rows)) key o) ∧
      byteSizeV2 + rows.length * FixedRecord.byteSize R < 2 ^ 63 := by
  unfold assembleChunk at h
  rw [sampleValidated_ok o.every_pos] at h
  simp only at h
  split at h
  · cases h
  · split at h
    · cases h
    · exact ⟨(Except.ok.inj h).symm, by omega⟩

theorem anchors_length_le (every : Nat) (rows : List R) : (anchors every rows).length ≤ rows.length := by
  unfold anchors
  rw [List.length_map]
  refine le_trans (stepBy_sublist every rows.zipIdx).length_le ?_
  rw [List.length_zipIdx]

/-- Nothing that fits into memory is too long for a writer. -/
theorem assembleChunk_fits (hsize : FixedRecord.byteSize R ≤ 64) (hlen : rows.length < 2 ^ 56) (overflow : Text)
    (m : SeriesMeta) (key : Text) (o : WriteChunkOptions) : ∃ p, assembleChunk overflow m rows key o = .ok p := by
  have hmul : rows.length * FixedRecord.byteSize R ≤ rows.length * 64 := Nat.mul_le_mul_left _ hsize
  have hidx := anchors_length_le o.every rows
  unfold assembleChunk
  rw [sampleValidated_ok o.every_pos]
  simp only
  rw [if_neg (by unfold u64Bound; omega), if_neg (by unfold byteSizeV2; omega)]
  exact ⟨_, rfl⟩

theorem sparseIndex_chunkFileOf (m : SeriesMeta) (o : WriteChunkOptions) (hne : rows ≠ []) :
    (chunkFileOf m rows o (anchors o.every rows)).sparseIndex = anchors o.every rows := by
  unfold ChunkFile.sparseIndex
  rw [if_neg]
  · rfl
  · rintro (hlt | hfl | hlen)
    · exact absurd (show 2 < 2 from hlt) (by decide)
    · exact absurd (show (1 % 2 == 1) = false from hfl) (by decide)
    · exact anchors_ne_nil hne (List.length_eq_zero_iff.1 hlen)

/-- **What a writer lays out holds the records it was given.** -/
theorem holds_chunkFileOf (m : SeriesMeta) (o : WriteChunkOptions) (ho : Ordered rows) (hne : rows ≠ [])
    (hlen : byteSizeV2 + rows.length * FixedRecord.byteSize R < u64Bound) :
    Holds R (chunkFileOf m rows o (anchors o.every rows)) rows := by
  have hord := firstTs_le_lastTs ho hne
  refine ⟨rfl, hne, ho, rfl, rfl, rfl, rfl, rfl, ?_, hlen, .inr ⟨_, o.every_pos, ?_⟩⟩
  · exact ChunkHeader.validate_v2 rfl rfl hord (Nat.one_le_iff_ne_zero.1 o.every_pos)
  · exact sparseIndex_chunkFileOf m o hne

theorem holds_chunkFileV1 (seriesId : Nat) (timeframeMs : Int) (ho : Ordered rows) (hne : rows ≠ [])
    (hlen : byteSizeV1 + rows.length * FixedRecord.byteSize R < u64Bound) :
    Holds R (chunkFileV1 seriesId timeframeMs rows) rows := by
  have hord := firstTs_le_lastTs ho hne
  refine ⟨rfl, hne, ho, rfl, rfl, rfl, rfl, rfl, ?_, hlen, .inl (if_pos (.inl Nat.one_lt_two))⟩
  unfold ChunkHeader.validate
  have h3 : ¬ (0 < (chunkFileV1 seriesId timeframeMs rows).header.count ∧
      (chunkFileV1 seriesId timeframeMs rows).header.endTs < (chunkFileV1 seriesId timeframeMs rows).header.startTs)
        := by
    rintro ⟨-, hlt⟩
    exact absurd hord (not_le.2 hlt)
  rw [if_neg (by simp [chunkFileV1, chunkVersionV1, chunkVersionV2, byteSizeV1]),
    if_neg (by simp [chunkFileV1, chunkVersionV1]), if_neg h3, if_neg (by simp [chunkFileV1, chunkVersionV1,
      chunkVersionV2])]

/-! ## What the writers accept -/

/-- The records passed the order check, and the writer assembled their file and its entry. -/
structure Assembled (m : SeriesMeta) (rows : List R) (o : WriteChunkOptions) (key : Text)
    (p : ChunkFile × ChunkMeta) : Prop where
  ne_nil : rows ≠ []
  ordered : Ordered rows
  assembled : ∃ overflow, assembleChunk overflow m rows key o = .ok p

theorem Assembled.eq {m : SeriesMeta} {o : WriteChunkOptions} {key : Text} {f : ChunkFile} {c : ChunkMeta}
    (h : Assembled m rows o key (f, c)) :
    f = chunkFileOf m rows o (anchors o.every rows) ∧ c = chunkMetaOf f key o ∧
      byteSizeV2 + rows.length * FixedRecord.byteSize R < 2 ^ 63 := by
  obtain ⟨overflow, ha⟩ := h.assembled
  obtain ⟨heq, hlen⟩ := assembleChunk_eq_ok ha
  obtain ⟨rfl, rfl⟩ := Prod.mk.inj heq
  exact ⟨rfl, rfl, hlen⟩

theorem klineChunk_assembled {m : SeriesMeta} {rows : List KlineRecord} {o : WriteChunkOptions}
    {p : ChunkFile × ChunkMeta} (h : klineChunk m rows o = .ok p) : ∃ key, singleMonth rows = .ok key ∧
      Assembled m rows o key p := by
  unfold klineChunk at h
  cases hord : KlineRecord.validateStrictOrder rows with
  | error e => rw [hord] at h; cases h
  | ok _ =>
    obtain ⟨hne, ho⟩ := KlineRecord.validateStrictOrder_ok.1 hord
    cases hs : singleMonth rows with
    | error e => rw [hord, hs] at h; cases h
    | ok key =>
      rw [hord, hs] at h
      simp only at h
      split at h
      · cases h
      · exact ⟨key, rfl, hne, ho, _, h⟩

theorem scalarChunk_assembled {m : SeriesMeta} {rows : List ScalarRecord} {o : WriteChunkOptions}
    {p : ChunkFile × ChunkMeta} (h : scalarChunk m rows o = .ok p) : ∃ key, singleMonth rows = .ok key ∧
      Assembled m rows o key p := by
  unfold scalarChunk at h
  cases hord : ScalarRecord.validateStrictOrder rows with
  | error e => rw [hord] at h; cases h
  | ok _ =>
    obtain ⟨hne, ho⟩ := ScalarRecord.validateStrictOrder_ok.1 hord
    cases hs : singleMonth rows with
    | error e => rw [hord, hs] at h; cases h
    | ok key =>
      rw [hord, hs] at h
      exact ⟨key, rfl, hne, ho, _, h⟩

theorem fixedChunk_assembled {m : SeriesMeta} {unit : PartitionUnit} {o : WriteChunkOptions} {p : ChunkFile × ChunkMeta}
    (h : fixedChunk m rows unit o = .ok p) :
    ∃ key, partitionKey (firstTs rows) unit = .ok key ∧ singlePartition unit key rows.tail = .ok () ∧
      Assembled m rows o key p := by
  unfold fixedChunk at h
  cases hord : validateStrictOrder R rows with
  | error e => rw [hord] at h; cases h
  | ok _ =>
    obtain ⟨hne, ho⟩ := validateStrictOrder_eq_ok.1 hord
    rw [hord] at h
    simp only at h
    split at h
    · cases h
    · split at h
      · cases h
      · split at h
        · cases h
        · split at h
          · cases h
          · cases hk : partitionKey (firstTs rows) unit with
            | error e => rw [hk] at h; cases h
            | ok key =>
              cases hs : singlePartition unit key rows.tail with
              | error e =>
                rw [hk] at h
                simp only [hs] at h
                cases h
              | ok _ =>
                rw [hk] at h
                simp only [hs] at h
                exact ⟨key, rfl, hs, hne, ho, _, h⟩

/-! ## The window of a lookup -/

/-- The rows before `t`. -/
def lowerCount (rows : List R) (t : Int) : Nat := rows.countP (fun r => decide (FixedRecord.ts r < t))

/-- The rows not after `t`. -/
def upperCount (rows : List R) (t : Int) : Nat := rows.countP (fun r => decide (FixedRecord.ts r ≤ t))

theorem partitioned_lt (ho : Ordered rows) (t : Int) : Partitioned (fun r => decide (FixedRecord.ts r < t)) rows :=
  partitioned_of_sorted FixedRecord.ts ho.le (fun a b hab h => by
    simp only [decide_eq_true_eq] at h ⊢
    omega)

theorem partitioned_le (ho : Ordered rows) (t : Int) : Partitioned (fun r => decide (FixedRecord.ts r ≤ t)) rows :=
  partitioned_of_sorted FixedRecord.ts ho.le (fun a b hab h => by
    simp only [decide_eq_true_eq] at h ⊢
    omega)

theorem lowerCount_le_upperCount (rows : List R) (t : Int) : lowerCount rows t ≤ upperCount rows t :=
  List.countP_mono_left (fun r _ h => by
    simp only [decide_eq_true_eq] at h ⊢
    omega)

theorem upperCount_le_length (rows : List R) (t : Int) : upperCount rows t ≤ rows.length := List.countP_le_length

theorem zipIdx_partitioned_le (ho : Ordered rows) (t : Int) :
    Partitioned (fun p : R × Nat => decide (FixedRecord.ts p.1 ≤ t)) rows.zipIdx := by
  have h := partitioned_le ho t
  unfold Partitioned at h ⊢
  rw [show rows = rows.zipIdx.map Prod.fst by simp, List.pairwise_map] at h
  exact h

theorem anchors_countP {every : Nat} (he : 1 ≤ every) (ho : Ordered rows) (t : Int) :
    (anchors every rows).countP (fun e => decide (e.ts ≤ t)) = (upperCount rows t + every - 1) / every := by
  unfold anchors
  rw [List.countP_map]
  have hcount : rows.zipIdx.countP (fun p => decide (FixedRecord.ts p.1 ≤ t)) = upperCount rows t := by
    unfold upperCount
    conv => rhs; rw [show rows = rows.zipIdx.map Prod.fst by simp]
    rw [List.countP_map]
    rfl
  rw [← hcount, ← countP_stepBy he (zipIdx_partitioned_le ho t)]
  rfl

theorem anchors_partitioned {every : Nat} (ho : Ordered rows) (t : Int) :
    Partitioned (fun e : SparseIndexEntry => decide (e.ts ≤ t)) (anchors every rows) := by
  unfold Partitioned anchors
  rw [List.pairwise_map]
  exact (zipIdx_partitioned_le ho t).sublist (stepBy_sublist every rows.zipIdx)

theorem anchors_getElem? {every : Nat} (he : 1 ≤ every) (k : Nat) :
    (anchors every rows)[k]? = (rows[k * every]?).map (fun r => ⟨FixedRecord.ts r, k * every⟩) := by
  unfold anchors
  rw [List.getElem?_map, stepBy_getElem? he, List.getElem?_zipIdx]
  cases rows[k * every]? <;> simp

/-- Where the window of the last anchor by `t` begins. -/
def windowStart (every : Nat) (rows : List R) (t : Int) : Nat := ((upperCount rows t + every - 1) / every - 1) * every

/-- Where that window ends. -/
def windowStop (every : Nat) (rows : List R) (t : Int) : Nat := min (windowStart every rows t + every) rows.length

/-- **The window holds the upper bound**: it begins before the rows not after `t` end, or at row 0, and ends no earlier
than they do. -/
theorem window_upperCount {every : Nat} (he : 1 ≤ every) (rows : List R) (t : Int) :
    windowStart every rows t ≤ upperCount rows t ∧ upperCount rows t ≤ windowStop every rows t ∧
      (1 ≤ upperCount rows t → windowStart every rows t < upperCount rows t) := by
  obtain ⟨hb1, hb0, hb2⟩ := window_brackets he (rfl : (upperCount rows t + every - 1) / every = _)
  have hup := upperCount_le_length rows t
  unfold windowStop windowStart
  generalize (upperCount rows t + every - 1) / every = a at *
  rcases Nat.eq_zero_or_pos (upperCount rows t) with h0 | hpos
  · rw [hb0 h0]
    simp [h0]
  · obtain ⟨h1, h2⟩ := hb2 hpos
    have hstep : (a - 1) * every + every = a * every := by
      rw [← Nat.succ_mul]
      congr 1
      omega
    refine ⟨by omega, ?_, fun _ => h1⟩
    rw [hstep]
    exact le_min hb1 hup

theorem windowStart_lt_length {every : Nat} (he : 1 ≤ every) (hne : rows ≠ []) (t : Int) :
    windowStart every rows t < rows.length := by
  have hlen : 0 < rows.length := List.length_pos_iff.2 hne
  obtain ⟨h1, -, h3⟩ := window_upperCount he rows t
  have hup := upperCount_le_length rows t
  rcases Nat.eq_zero_or_pos (upperCount rows t) with h0 | hpos
  · omega
  · have := h3 hpos
    omega

/-- **The lookup answers with the window of the last anchor by `t`.** -/
theorem lookupWindow_anchors {every : Nat} (he : 1 ≤ every) (ho : Ordered rows) (hne : rows ≠ []) (t : Int) :
    lookupWindow rows.length (anchors every rows) t = .ok (windowStart every rows t, windowStop every rows t) := by
  have hlen : 0 < rows.length := List.length_pos_iff.2 hne
  have hstart := windowStart_lt_length he hne t
  have hcond : ¬ (rows.length = 0 ∨ anchors every rows = []) := by
    rintro (h | h)
    · omega
    · exact anchors_ne_nil hne h
  unfold lookupWindow
  rw [if_neg hcond, partitionPoint_eq (anchors_partitioned ho t), anchors_countP he ho t]
  simp only
  rw [anchors_getElem? he, anchors_getElem? he, Nat.succ_mul]
  unfold windowStop
  unfold windowStart at hstart ⊢
  generalize ((upperCount rows t + every - 1) / every - 1) * every = a at hstart ⊢
  have h1 : ((rows[a]?).map (fun r => (⟨FixedRecord.ts r, a⟩ : SparseIndexEntry))).elim 0 SparseIndexEntry.recordIdx =
    a := by
    rw [List.getElem?_eq_getElem hstart]
    rfl
  have h2 : ((rows[a + every]?).map (fun r => (⟨FixedRecord.ts r, a + every⟩ : SparseIndexEntry))).elim rows.length
      SparseIndexEntry.recordIdx = min (a + every) rows.length := by
    rcases Nat.lt_or_ge (a + every) rows.length with hlt | hge
    · rw [List.getElem?_eq_getElem hlt, min_eq_left (le_of_lt hlt)]
      rfl
    · rw [List.getElem?_eq_none hge, min_eq_right hge]
      rfl
  rw [h1, h2, if_neg (by omega)]

end Holds

end FastK
