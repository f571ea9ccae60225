import FastK.Store
/-!
# Registering and writing

The operations that change a store (`engine/store.rs`, `engine/store_writes.rs`), as the steps they take.  Each holds
the marker armed from its first write to its last; the manifest that a call has loaded stays cached until the call
ends, under the text `symbol:category:name`.
-/
namespace FastK

open Journal

/-! ## Checks -/

def validateConfiguration (timeframeMs priceScale volumeScale : Int) : Result Unit :=
  if timeframeMs ≤ 0 ∨ priceScale ≤ 0 ∨ volumeScale ≤ 0 then
    .error (.invalidInput "timeframe and scales must be positive")
  else .ok ()

def validateExistingSeries (existing : SeriesMeta) (timeframeMs priceScale volumeScale : Int) : Result Unit :=
  if existing.timeframeMs ≠ timeframeMs ∨ existing.priceScale ≠ priceScale ∨ existing.volumeScale ≠ volumeScale then
    .error (.invalidInput (words ["series already exists with different configuration: timeframe_ms=",
      showInt existing.timeframeMs, ", price_scale=", showInt existing.priceScale, ", volume_scale=",
        showInt existing.volumeScale]))
  else .ok ()

/-- `validate_month_records`, with the order check of the record type. -/
def validateMonthRecords {R : Type} [FixedRecord R] (records : List R) : Result Unit :=
  match validateStrictOrder R records with
  | .error e => .error e
  | .ok () => (singleMonth records).map (fun _ => ())

def nonEmpty {R : Type} (records : List R) : Result Unit :=
  if records.isEmpty then .error (.invalidInput "records must not be empty") else .ok ()

/-- The end of the last readable chunk. -/
def readableEnd (chunks : List ChunkMeta) : Option Int :=
  ((chunks.filter (fun c => c.state.isReadable)).map ChunkMeta.endTs).max?

/-- The records cut into their UTC months; every round takes at least one record, so their number bounds the rounds. -/
def monthBatchesFrom {R : Type} [FixedRecord R] : Nat → List R → Result (List (Text × List R))
  | 0, _ => .ok []
  | _, [] => .ok []
  | fuel + 1, r :: rs =>
    match monthKey (FixedRecord.ts r) with
    | .error e => .error e
    | .ok month =>
      match nextMonthStart (FixedRecord.ts r) with
      | .error e => .error e
      | .ok stop =>
        let count := Search.partitionPoint (fun r => decide (FixedRecord.ts r < stop)) (r :: rs)
        match monthBatchesFrom fuel ((r :: rs).drop count) with
        | .error e => .error e
        | .ok rest => .ok ((month, (r :: rs).take count) :: rest)

def monthBatches {R : Type} [FixedRecord R] (records : List R) : Result (List (Text × List R)) :=
  if records.isEmpty then .ok []
  else
    match validateStrictOrder R records with
    | .error e => .error e
    | .ok () => monthBatchesFrom records.length records

def preflightOverlap {R : Type} [FixedRecord R] (existing : Option SeriesMeta) (command : Text) :
    List (Text × List R) → Result Unit
  | [] => .ok ()
  | (month, rows) :: rest =>
    match existing.bind (fun m => readableEnd (m.chunksForPartition month)) with
    | none => preflightOverlap existing command rest
    | some stop =>
      if firstTs rows ≤ stop then
        .error (.invalidInput (words [command, " would overlap existing month coverage for ", month, ": ",
          showInt (firstTs rows), " <= ", showInt stop]))
      else preflightOverlap existing command rest

def showTexts (ts : List Text) : Text :=
  words ["[", words ((ts.map (fun t => words ["\"", t, "\""])).intersperse ", "), "]"]

def monthlyWriteError (completed : List Text) (error : FastKError) : FastKError :=
  .invalidData (words ["monthly write failed; completed_months=", showTexts completed,
    "; failed month may require recovery: ", error.display])

/-! ## Manifests in a call -/

def seriesCacheKey (symbol category name : Text) : Text := words [symbol, ":", category, ":", name]

def klineSeriesDir (symbol timeframe : Text) : Dir := seriesDir symbol klineCategory timeframe

def ScalarSeriesKey.dir (key : ScalarSeriesKey) : Dir := seriesDir key.symbol key.category key.name

/-- The manifest cached since the call began, else the one on disk. -/
def metaFor (cached : Option SeriesMeta) (sd : SeriesDir) : Result SeriesMeta :=
  match cached with
  | some m => .ok m
  | none => sd.loadSeriesMeta

def loadMeta (cached : Option SeriesMeta) (d : Dir) : Op SeriesMeta := do
  let s ← Prog.look
  Prog.lift (metaFor cached (s.dirs d))

/-- A manifest that is not there is no error. -/
def existingMeta : Result SeriesMeta → Result (Option SeriesMeta)
  | .ok m => .ok (some m)
  | .error (.notFound _) => .ok none
  | .error e => .error e

theorem existingMeta_eq_ok {r : Result SeriesMeta} {o : Option SeriesMeta} (h : existingMeta r = .ok o)
    {m' : SeriesMeta} (ho : o = some m') : r = .ok m' := by
  subst ho
  unfold existingMeta at h
  split at h
  · exact congrArg Except.ok (Option.some.inj (Except.ok.inj h))
  · cases h
  · cases h

def loadExisting (cached : Option SeriesMeta) (d : Dir) : Op (Option SeriesMeta) := do
  let s ← Prog.look
  Prog.lift (existingMeta (metaFor cached (s.dirs d)))

/-- What is cached under a call's key once `saved` has been cached under its own. -/
def refreshed (callKey : Text) (loaded saved : SeriesMeta) : SeriesMeta :=
  if seriesCacheKey saved.symbol saved.category saved.name = callKey then saved else loaded

/-! ## Registering -/

def initLocked (env : Env) : Op Unit := do
  Prog.emit .makeSeriesRoot
  let _ ← startupRecoverLocked env
  pure ()

/-- The end of every registration: the directory, then the manifest. -/
def createSeries (env : Env) (d : Dir) (m : SeriesMeta) : Op SeriesMeta := do
  Prog.emit .arm
  Prog.emit (.makeChunksDir d)
  saveSeriesMeta env d m
  Prog.emit .disarm
  pure m

def registerKlineSeriesLocked (env : Env) (symbol timeframe : Text) (timeframeMs priceScale volumeScale : Int) : Op SeriesMeta := do
  let s ← Prog.look
  if (s.dirs (klineSeriesDir symbol timeframe)).manifest.isPresent then do
    let existing ← loadMeta none (klineSeriesDir symbol timeframe)
    Prog.lift (validateExistingSeries existing timeframeMs priceScale volumeScale)
    pure existing
  else createSeries env (klineSeriesDir symbol timeframe) (buildKlineMeta env.now symbol timeframe timeframeMs priceScale volumeScale)

def registerKlineSeries (env : Env) (symbol timeframe : Text) (timeframeMs priceScale volumeScale : Int) : Op Unit := do
  Prog.lift (validateConfiguration timeframeMs priceScale volumeScale)
  beginMutation env
  let _ ← registerKlineSeriesLocked env symbol timeframe timeframeMs priceScale volumeScale
  pure ()

def scalarTimeframeError (m : SeriesMeta) : FastKError :=
  .invalidInput (words ["scalar series already exists with timeframe_ms=", showInt m.timeframeMs])

def registerScalarSeriesLocked (env : Env) (key : ScalarSeriesKey) (timeframeMs : Int) : Op SeriesMeta := do
  let s ← Prog.look
  if (s.dirs key.dir).manifest.isPresent then do
    let existing ← loadMeta none key.dir
    if existing.timeframeMs ≠ timeframeMs then Prog.fail (scalarTimeframeError existing) else pure existing
  else createSeries env key.dir (buildScalarMeta env.now key timeframeMs)

def registerScalarSeries (env : Env) (key : ScalarSeriesKey) (timeframeMs : Int) : Op Unit :=
  if timeframeMs ≤ 0 then Prog.fail (.invalidInput "timeframe_ms must be positive")
  else do
    beginMutation env
    let _ ← registerScalarSeriesLocked env key timeframeMs
    pure ()

/-- The tick record types. -/
inductive FixedKind where
  | trade
  | bbo
  | bookDelta
  deriving DecidableEq, Repr

def FixedKind.recordType : FixedKind → RecordType
  | .trade => .trade
  | .bbo => .bbo
  | .bookDelta => .bookDelta

def FixedKind.category : FixedKind → Text
  | .trade => tradeCategory
  | .bbo => bboCategory
  | .bookDelta => bookDeltaCategory

abbrev FixedKind.Row (k : FixedKind) : Type := k.recordType.Row

def FixedKind.dir (k : FixedKind) (symbol channel : Text) : Dir := seriesDir symbol k.category channel

/-- The manifest has the record type, schema and row size of the rows. -/
def Matches (R : Type) [FixedRecord R] (m : SeriesMeta) : Prop :=
  m.recordType = FixedRecord.recordType R ∧ m.schemaId = FixedRecord.schemaId R ∧ m.recordSize = FixedRecord.byteSize R

instance (R : Type) [FixedRecord R] (m : SeriesMeta) : Decidable (Matches R m) :=
  inferInstanceAs (Decidable (_ ∧ _ ∧ _))

def checkExistingFixed (k : FixedKind) (symbol channel : Text) (timeframeMs : Int) (unit : PartitionUnit)
    (existing : SeriesMeta) :
    Result Unit :=
  if existing.timeframeMs ≠ timeframeMs then
    .error (.invalidInput (words ["series already exists with timeframe_ms=", showInt existing.timeframeMs]))
  else if ¬ Matches k.Row existing then
    .error (.invalidData (words ["existing series ", symbol, ":", k.category, ":", channel,
      " does not match requested fixed record type"]))
  else if existing.chunkUnit ≠ unit.asStr then
    .error (.invalidInput (words ["series already exists with chunk_unit=", existing.chunkUnit]))
  else .ok ()

/-- `register_fixed_series`, for the three tick types. -/
def registerFixedSeries (env : Env) (k : FixedKind) (symbol channel : Text) (timeframeMs : Int)
    (unit : PartitionUnit) : Op Unit :=
  if unit.isTimeBased = false then
    Prog.fail (.invalidInput (words ["partition unit ", unit.asStr, " is declared but not implemented yet"]))
  else do
    beginMutation env
    let s ← Prog.look
    if (s.dirs (k.dir symbol channel)).manifest.isPresent then do
      let existing ← loadMeta none (k.dir symbol channel)
      Prog.lift (checkExistingFixed k symbol channel timeframeMs unit existing)
    else do
      let _ ← createSeries env (k.dir symbol channel) (buildFixedMeta k.Row env.now symbol k.category channel
        timeframeMs unit)
      pure ()

/-! ## Merging a month -/

def checkTransitions : List ChunkMeta → Result Unit
  | [] => .ok ()
  | c :: cs =>
    if canTransition c.state .merging then checkTransitions cs
    else .error (.invalidData (words ["chunk ", c.relativePath, " cannot transition from ", c.state.debug, " to ",
      ChunkState.merging.debug]))

/-- The rows of the chunks, one after the other. -/
def readKlineChunks (sd : SeriesDir) (chunks : List ChunkMeta) : Result (List KlineRecord) :=
  appendChunks (fun c out => withChunk sd klineValidateHeader c (fun f =>
    (klineAppendRange f c.startTs c.endTs out).map Prod.snd)) chunks []

def markMerging (key : Text) (m : SeriesMeta) : SeriesMeta :=
  { m with chunks := m.chunks.map (fun c => if c.monthKey = key then { c with state := .merging } else c) }

/-- The options of a chunk that replaces the chunks of a partition. -/
def replaceOptions (m : SeriesMeta) (sources : List ChunkMeta) (key : Text) (state : ChunkState) :
    Text × WriteChunkOptions :=
  let name := partitionMergedChunkFileName key (nextGeneration sources)
  (name, ⟨nextChunkId m, nextGeneration sources, state, chunkRelativePath name, defaultSparseIndexEvery⟩)

def removeFiles (env : Env) (d : Dir) (relativePaths : List Text) : Op Unit :=
  Prog.forEach (removeFile env d) relativePaths

/-- `merge_kline_month_locked`; the manifest it ends with. -/
def mergeKlineMonthLocked (env : Env) (symbol timeframe key : Text) (m : SeriesMeta) : Op SeriesMeta := do
  let d := klineSeriesDir symbol timeframe
  let sources := m.chunksForPartition key
  if sources.length ≤ 1 then pure m
  else do
    let s ← Prog.look
    let rows ← Prog.lift (readKlineChunks (s.dirs d) sources)
    Prog.lift (KlineRecord.validateStrictOrder rows)
    Prog.lift (checkTransitions sources)
    saveSeriesMeta env (klineSeriesDir m.symbol m.name) (markMerging key m)
    let (name, o) := replaceOptions m sources key (mergeOutputState sources)
    let (f, c) ← Prog.lift (klineChunk (markMerging key m) rows o)
    atomicWriteNew env d name (.chunk f)
    let (m', removed) ← Prog.lift (replaceMonthChunks env.now (markMerging key m) key c)
    saveSeriesMeta env (klineSeriesDir m'.symbol m'.name) m'
    removeFiles env d (removed.map ChunkMeta.relativePath)
    pure m'

def mergeKlineMonth (env : Env) (symbol timeframe key : Text) : Op Unit := do
  beginMutation env
  Prog.emit .arm
  let m ← loadMeta none (klineSeriesDir symbol timeframe)
  let _ ← mergeKlineMonthLocked env symbol timeframe key m
  Prog.emit .disarm

/-! ## Writing klines -/

/-- Where a chunk added to a partition goes: a first chunk is sealed, under the name given for it, a later one is an
active delta after the last. -/
def appendOptions (overlap : Text) (m : SeriesMeta) (key : Text) (firstName : Result Text) (first : Int) :
    Result (Text × WriteChunkOptions) :=
  let existing := m.chunksForPartition key
  match existing.getLast? with
  | none =>
    firstName.map fun name =>
      (name, ⟨nextChunkId m, nextGeneration existing, .sealed, chunkRelativePath name, defaultSparseIndexEvery⟩)
  | some last =>
    if first ≤ last.endTs then .error (.invalidInput (words [overlap, showInt first, " <= ", showInt last.endTs]))
    else
      let name := partitionDeltaChunkFileName key (nextGeneration existing)
      .ok (name, ⟨nextChunkId m, nextGeneration existing, .active, chunkRelativePath name, defaultSparseIndexEvery⟩)

/-- The manifest points to the chunk when it is active. -/
def activate (c : ChunkMeta) (m : SeriesMeta) : SeriesMeta :=
  if c.state = .active then { m with activeChunkId := some c.chunkId } else m

def mergeDue (policy : CompactionPolicy) (m : SeriesMeta) (key : Text) : Bool :=
  match policy.evaluateMonth m key with
  | some decision => policy.autoMerge && decision.shouldMerge
  | none => false

/-- `put_kline_chunk_locked`; the manifest that is cached for the call afterwards. -/
def putKlineChunkLocked (env : Env) (policy : CompactionPolicy) (symbol timeframe : Text) (records : List KlineRecord)
    (cached : Option SeriesMeta) : Op SeriesMeta := do
  let d := klineSeriesDir symbol timeframe
  let m ← loadMeta cached d
  Prog.lift (nonEmpty records)
  let key ← Prog.lift (monthKey (firstTs records))
  let (name, o) ← Prog.lift
    (appendOptions "append overlaps existing month chunk: " m key (monthChunkFileName (firstTs records))
      (firstTs records))
  Prog.emit .arm
  let (f, c) ← Prog.lift (klineChunk m records o)
  atomicWriteNew env d name (.chunk f)
  let m' ← Prog.lift (upsertChunkMeta env.now m c)
  let m' := activate c m'
  saveSeriesMeta env (klineSeriesDir m'.symbol m'.name) m'
  let m' ← if mergeDue policy m' key then mergeKlineMonthLocked env symbol timeframe key m' else pure m'
  Prog.emit .disarm
  pure (refreshed (seriesCacheKey symbol klineCategory timeframe) m m')

def putKlineChunk (env : Env) (policy : CompactionPolicy) (symbol timeframe : Text) (records : List KlineRecord) :
    Op Unit := do
  Prog.lift (validateMonthRecords records)
  beginMutation env
  let _ ← putKlineChunkLocked env policy symbol timeframe records none
  pure ()

/-! ## Writing scalars -/

/-- `build_scalar_sidecars`. -/
def buildScalarSidecars (env : Env) (d : Dir) (name : Text) (c : ChunkMeta) (records : List ScalarRecord)
    (blockSize : Nat) : Op (List SidecarMeta) := do
  let zmap ← Prog.lift (zmapBuildEntries records (max blockSize 1))
  atomicWriteReplace env d (sidecarRelativePath name zmapKind) (.zmap zmap)
  atomicWriteReplace env d (sidecarRelativePath name vixKind) (.vix (vixBuildEntries records))
  pure [
    ⟨zmapKind, sidecarRelativePath c.relativePath zmapKind, c.generation, checksum64 (FileBody.zmap zmap).bytes,
      max blockSize 1 % 2 ^ 32, zmap.length⟩,
    ⟨vixKind, sidecarRelativePath c.relativePath vixKind, c.generation,
      checksum64 (FileBody.vix (vixBuildEntries records)).bytes, 0, (vixBuildEntries records).length⟩]

/-- The paths `remove_sidecars_for_chunks` removes. -/
def chunkPaths (c : ChunkMeta) : List Text := c.relativePath :: c.sidecars.map SidecarMeta.relativePath

/-- Where a scalar chunk goes: the first of its month under the name given for it, a replacement under its generation.
-/
def scalarOptions (m : SeriesMeta) (key : Text) (firstName : Result Text) : Result (Text × WriteChunkOptions) :=
  if (m.chunksForPartition key).isEmpty then
    firstName.map fun name =>
      (name, ⟨nextChunkId m, nextGeneration [], .sealed, chunkRelativePath name, defaultSparseIndexEvery⟩)
  else .ok (replaceOptions m (m.chunksForPartition key) key .sealed)

/-- The manifest with the new chunk in place of the month's, and the chunks removed. -/
def commitScalar (now : Int) (m : SeriesMeta) (key : Text) (c : ChunkMeta) : Result (SeriesMeta × List ChunkMeta) :=
  if (m.chunksForPartition key).isEmpty then (upsertChunkMeta now m c).map (fun m' => (m', []))
  else replaceMonthChunks now m key c

/-- The manifest a scalar write starts from: that of the series, or a new one. -/
def scalarManifest (now : Int) (key : ScalarSeriesKey) (timeframeMs : Int) (cached : Option SeriesMeta)
    (sd : SeriesDir) : Result SeriesMeta :=
  if sd.manifest.isPresent then
    match metaFor cached sd with
    | .error e => .error e
    | .ok m => if m.timeframeMs ≠ timeframeMs then .error (scalarTimeframeError m) else .ok m
  else .ok (buildScalarMeta now key timeframeMs)

/-- `put_scalar_chunk_locked`; the manifest that is cached for the call afterwards. -/
def putScalarChunkLocked (env : Env) (key : ScalarSeriesKey) (timeframeMs : Int) (records : List ScalarRecord)
    (zmapBlockSize : Nat) (cached : Option SeriesMeta) : Op SeriesMeta := do
  let s ← Prog.look
  let m ← Prog.lift (scalarManifest env.now key timeframeMs cached (s.dirs key.dir))
  Prog.lift (nonEmpty records)
  let month ← Prog.lift (monthKey (firstTs records))
  let (name, o) ← Prog.lift (scalarOptions m month (monthChunkFileName (firstTs records)))
  Prog.emit .arm
  let (f, c) ← Prog.lift (scalarChunk m records o)
  atomicWriteNew env key.dir name (.chunk f)
  let sidecars ← buildScalarSidecars env key.dir name c records zmapBlockSize
  let (m', removed) ← Prog.lift (commitScalar env.now m month { c with sidecars := sidecars })
  saveSeriesMeta env (seriesDir m'.symbol m'.category m'.name) m'
  removeFiles env key.dir (removed.flatMap chunkPaths)
  Prog.emit .disarm
  pure (refreshed (seriesCacheKey key.symbol key.category key.name) m m')

def checkScalarWrite (timeframeMs : Int) (blockSize : Nat) : Result Unit :=
  if timeframeMs ≤ 0 ∨ blockSize = 0 then
    .error (.invalidInput "timeframe and zone-map block size must be positive")
  else .ok ()

def putScalarChunk (env : Env) (key : ScalarSeriesKey) (timeframeMs : Int) (records : List ScalarRecord)
    (zmapBlockSize : Nat) : Op Unit := do
  Prog.lift (checkScalarWrite timeframeMs zmapBlockSize)
  Prog.lift (validateMonthRecords records)
  beginMutation env
  let _ ← putScalarChunkLocked env key timeframeMs records zmapBlockSize none
  pure ()

/-- The rows of a month that an append puts before its own. -/
def monthRows (threads : Nat) (sd : SeriesDir) (m : SeriesMeta) (month : Text) : Result (List ScalarRecord) :=
  (collect (fun c => getScalarRangePrepared threads sd m c.startTs c.endTs)
    ((m.chunksForPartition month).filter (fun c => c.state.isReadable))).map List.flatten

/-- The month's rows with the new ones, which must come after them. -/
def combineRows (threads : Nat) (sd : SeriesDir) (existing : Option SeriesMeta) (timeframeMs : Int) (month : Text)
    (records : List ScalarRecord) : Result (List ScalarRecord) :=
  match existing with
  | none => .ok records
  | some m =>
    if m.timeframeMs ≠ timeframeMs then .error (.invalidInput "scalar timeframe does not match existing series")
    else
      match monthRows threads sd m month with
      | .error e => .error e
      | .ok rows =>
        if rows.getLast?.any (fun last => decide (firstTs records ≤ last.ts)) then
          .error (.invalidInput "scalar append overlaps existing month")
        else .ok (rows ++ records)

def appendScalarChunkLocked (env : Env) (key : ScalarSeriesKey) (timeframeMs : Int) (records : List ScalarRecord)
    (blockSize : Nat) (cached : Option SeriesMeta) : Op SeriesMeta := do
  let month ← Prog.lift (monthKey (firstTs records))
  let existing ← loadExisting cached key.dir
  let s ← Prog.look
  let combined ← Prog.lift (combineRows env.threads (s.dirs key.dir) existing timeframeMs month records)
  putScalarChunkLocked env key timeframeMs combined blockSize existing

def appendScalarChunk (env : Env) (key : ScalarSeriesKey) (timeframeMs : Int) (records : List ScalarRecord)
    (blockSize : Nat) : Op Unit := do
  Prog.lift (checkScalarWrite timeframeMs blockSize)
  Prog.lift (validateMonthRecords records)
  beginMutation env
  let _ ← appendScalarChunkLocked env key timeframeMs records blockSize none
  pure ()

/-! ## Appending ranges -/

structure RangeWriteSummary where
  timeframeMs : Int
  registered : Bool
  requestedRecordCount : Nat
  writtenRecordCount : Nat
  monthBatchesWritten : Nat
  deriving DecidableEq, Repr

/-- The loop over the months: what one month leaves cached, the next one starts from. -/
def writeMonths {R : Type} (write : List R → Option SeriesMeta → Op SeriesMeta) : Option SeriesMeta → List Text →
    List (Text × List R) →
    Op (List Text)
  | _, completed, [] => pure completed
  | cached, completed, (month, rows) :: rest => do
    let m ← (write rows cached).mapError (monthlyWriteError completed)
    writeMonths write (some m) (completed ++ [month]) rest

/-- The directory `series` is made, and the store recovered, before its first series. -/
def ensureSeriesRoot (env : Env) : Op Unit := do
  let s ← Prog.look
  if s.seriesRoot then pure () else initLocked env

def appendKlineRange (env : Env) (policy : CompactionPolicy) (symbol timeframe : Text) (records : List KlineRecord)
    (timeframeMs priceScale volumeScale : Int) : Op RangeWriteSummary := do
  Prog.lift (validateConfiguration timeframeMs priceScale volumeScale)
  let months ← Prog.lift (monthBatches records)
  beginMutation env
  let existing ← loadExisting none (klineSeriesDir symbol timeframe)
  Prog.lift (existing.elim (.ok ()) (fun m => validateExistingSeries m timeframeMs priceScale volumeScale))
  Prog.lift (preflightOverlap existing "write-kline-range" months)
  ensureSeriesRoot env
  let m ← match existing with
    | some m => pure m
    | none => registerKlineSeriesLocked env symbol timeframe timeframeMs priceScale volumeScale
  let completed ← writeMonths (putKlineChunkLocked env policy symbol timeframe) (some m) [] months
  pure ⟨timeframeMs, existing.isNone, records.length, records.length, completed.length⟩

def scalarScopeSeparator : Text := "@@"

/-- The timeframe of an append: given, that of the series, or that of the kline series the name is scoped to. -/
def rangeTimeframe (s : Store) (key : ScalarSeriesKey) (existing : Option SeriesMeta) (timeframeMs : Option Int) :
    Result Int :=
  match existing, timeframeMs with
  | some m, some value =>
      if m.timeframeMs ≠ value then .error (.invalidInput "scalar timeframe does not match existing series")
      else .ok m.timeframeMs
  | some m, none => .ok m.timeframeMs
  | none, some value => .ok value
  | none, none =>
    match Text.splitOnce scalarScopeSeparator key.name with
    | none => .error (.invalidInput "timeframe_ms required for unscoped scalar series")
    | some (timeframe, _) => ((s.dirs (klineSeriesDir key.symbol timeframe)).loadSeriesMeta).map SeriesMeta.timeframeMs

def defaultScalarZmapBlockSize : Nat := 256

def appendScalarRange (env : Env) (key : ScalarSeriesKey) (records : List ScalarRecord) (timeframeMs : Option Int) :
    Op RangeWriteSummary := do
  Prog.lift (if timeframeMs.any (fun value => decide (value ≤ 0)) then
      .error (.invalidInput "timeframe_ms must be positive")
    else .ok ())
  let months ← Prog.lift (monthBatches records)
  beginMutation env
  let existing ← loadExisting none key.dir
  let s ← Prog.look
  let timeframeMs ← Prog.lift (rangeTimeframe s key existing timeframeMs)
  Prog.lift (preflightOverlap existing "write-scalar-range" months)
  ensureSeriesRoot env
  let m ← match existing with
    | some m => pure m
    | none => registerScalarSeriesLocked env key timeframeMs
  let completed ← writeMonths (fun rows cached =>
    appendScalarChunkLocked env key timeframeMs rows defaultScalarZmapBlockSize cached)
    (some m) [] months
  pure ⟨timeframeMs, existing.isNone, records.length, records.length, completed.length⟩

/-! ## Writing ticks -/

/-- The loop that cuts records where their partition changes. -/
def splitFrom {R : Type} [FixedRecord R] (unit : PartitionUnit) (key : Text) (batch : List R) :
    List R → Result (List (Text × List R))
  | [] => .ok [(key, batch)]
  | r :: rs =>
    match partitionKey (FixedRecord.ts r) unit with
    | .error e => .error e
    | .ok next =>
      if next ≠ key then
        match splitFrom unit next [r] rs with
        | .error e => .error e
        | .ok rest => .ok ((key, batch) :: rest)
      else splitFrom unit key (batch ++ [r]) rs

def splitFixedRecordsByPartition {R : Type} [FixedRecord R] (records : List R) (unit : PartitionUnit) :
    Result (List (Text × List R)) :=
  match records with
  | [] => .error (.invalidInput "records must not be empty")
  | r :: rs =>
    match partitionKey (FixedRecord.ts r) unit with
    | .error e => .error e
    | .ok key => splitFrom unit key [r] rs

/-- Every batch comes after what its partition holds. -/
def checkBatches {R : Type} [FixedRecord R] (m : SeriesMeta) : List (Text × List R) → Result Unit
  | [] => .ok ()
  | (key, rows) :: rest =>
    if (readableEnd (m.chunksForPartition key)).any (fun stop => decide (firstTs rows ≤ stop)) then
      .error (.invalidInput "append overlaps existing partition chunk")
    else checkBatches m rest

/-- `append_fixed_partition_locked` over the batches; the manifest is saved after the last. -/
def appendFixedPartitions {R : Type} [FixedRecord R] (env : Env) (d : Dir) (unit : PartitionUnit) :
    SeriesMeta → List (Text × List R) →
    Op SeriesMeta
  | m, [] => pure m
  | m, (key, rows) :: rest => do
    let (name, o) ← Prog.lift
      (appendOptions "append overlaps existing partition chunk: " m key (.ok (partitionChunkFileName key))
        (firstTs rows))
    let (f, c) ← Prog.lift (fixedChunk m rows unit o)
    atomicWriteNew env d name (.chunk f)
    let m' ← Prog.lift (upsertChunkMeta env.now m c)
    appendFixedPartitions env d unit (activate c m') rest

/-- The checks of `put_fixed_chunk` on the loaded manifest: type, unit and batches. -/
def fixedBatches (k : FixedKind) (symbol channel : Text) (m : SeriesMeta) (records : List k.Row) :
    Result (PartitionUnit × List (Text × List k.Row)) :=
  if ¬ Matches k.Row m then
    .error (.invalidData (words ["series ", symbol, ":", k.category, ":", channel,
      " does not match requested fixed record type"]))
  else
    match PartitionUnit.fromStr m.chunkUnit with
    | .error e => .error e
    | .ok unit =>
      if unit.isTimeBased = false then
        .error (.invalidInput (words ["partition unit ", m.chunkUnit, " is not implemented for fixed record writes"]))
      else
        match splitFixedRecordsByPartition records unit with
        | .error e => .error e
        | .ok batches => (checkBatches m batches).map (fun _ => (unit, batches))

/-- `put_fixed_chunk`, for the three tick types. -/
def putFixedChunk (env : Env) (k : FixedKind) (symbol channel : Text) (records : List k.Row) : Op Unit := do
  Prog.lift (validateStrictOrder k.Row records)
  beginMutation env
  let m ← loadMeta none (k.dir symbol channel)
  let (unit, batches) ← Prog.lift (fixedBatches k symbol channel m records)
  Prog.emit .arm
  Prog.emit (.makeChunksDir (k.dir symbol channel))
  let m' ← appendFixedPartitions env (k.dir symbol channel) unit m batches
  saveSeriesMeta env (seriesDir m'.symbol m'.category m'.name) m'
  Prog.emit .disarm

/-! ## Calls -/

/-- A call of the store's writing interface. -/
inductive Call where
  | init
  | startupRecover
  | registerKline (symbol timeframe : Text) (timeframeMs priceScale volumeScale : Int)
  | registerScalar (key : ScalarSeriesKey) (timeframeMs : Int)
  | registerFixed (k : FixedKind) (symbol channel : Text) (timeframeMs : Int) (unit : PartitionUnit)
  | putKline (policy : CompactionPolicy) (symbol timeframe : Text) (records : List KlineRecord)
  | mergeKline (symbol timeframe key : Text)
  | putScalar (key : ScalarSeriesKey) (timeframeMs : Int) (records : List ScalarRecord) (zmapBlockSize : Nat)
  | appendScalar (key : ScalarSeriesKey) (timeframeMs : Int) (records : List ScalarRecord) (blockSize : Nat)
  | appendKlineRange (policy : CompactionPolicy) (symbol timeframe : Text) (records : List KlineRecord)
      (timeframeMs priceScale volumeScale : Int)
  | appendScalarRange (key : ScalarSeriesKey) (records : List ScalarRecord) (timeframeMs : Option Int)
  | putFixed (k : FixedKind) (symbol channel : Text) (records : List k.Row)

def Call.run (env : Env) : Call → Op Unit
  | .init => do
    beginMutation env
    initLocked env
  | .startupRecover => do
    let _ ← startupRecoverLocked env
    pure ()
  | .registerKline symbol timeframe timeframeMs priceScale volumeScale =>
    registerKlineSeries env symbol timeframe timeframeMs priceScale volumeScale
  | .registerScalar key timeframeMs => registerScalarSeries env key timeframeMs
  | .registerFixed k symbol channel timeframeMs unit => registerFixedSeries env k symbol channel timeframeMs unit
  | .putKline policy symbol timeframe records => putKlineChunk env policy symbol timeframe records
  | .mergeKline symbol timeframe key => mergeKlineMonth env symbol timeframe key
  | .putScalar key timeframeMs records zmapBlockSize => putScalarChunk env key timeframeMs records zmapBlockSize
  | .appendScalar key timeframeMs records blockSize => appendScalarChunk env key timeframeMs records blockSize
  | .appendKlineRange policy symbol timeframe records timeframeMs priceScale volumeScale => do
    let _ ← FastK.appendKlineRange env policy symbol timeframe records timeframeMs priceScale volumeScale
    pure ()
  | .appendScalarRange key records timeframeMs => do
    let _ ← FastK.appendScalarRange env key records timeframeMs
    pure ()
  | .putFixed k symbol channel records => putFixedChunk env k symbol channel records

end FastK
