import FastK.Discovery
import FastK.Legacy
/-!
# Sealed snapshots

`seal_snapshot` and `verify_snapshot` (`snapshot.rs`).  A root is sealed once: the write lock is taken, the store is
recovered and scrubbed, every active chunk becomes sealed, and the inventory of the files below `series/` is written
beside it.  From then on the write lock refuses (`storage/lock.rs`).
-/
namespace FastK

open Journal

/-! ## Recovery of stores with manifests of the first format -/

/-- What a read-only load answers to a manifest of the first format. -/
def legacyRefused : FastKError := .invalidInput "legacy JSON manifest requires explicit writable migration"

/-- The manifest file holds JSON. -/
def ManifestFile.isLegacy (f : ManifestFile) : Bool := decide (f = .corrupt legacyRefused)

section Legacy

-- what the JSON of a directory holds, where there is one
variable (env : Env) (legacy : Dir → LegacySeriesMeta)

/-- A load that may write migrates JSON and saves the manifest; where it cannot, the load fails and the file stays. -/
def migrateOnLoad (d : Dir) : Op Unit := do
  let s ← Prog.look
  if (s.dirs d).manifest.isLegacy then
    match migrateLegacyJson env.now (legacy d) with
    | .error _ => pure ()
    | .ok m => saveSeriesMeta env d m
  else pure ()

/-- `recover_series_dir` loads the manifest of a directory in which it has found chunk files. -/
def migrateScanned (d : Dir) : Op Unit := do
  let s ← Prog.look
  match scanChunkFiles env.order (s.dirs d) with
  | .ok (_ :: _) => migrateOnLoad env legacy d
  | _ => pure ()

def recoverDirsMigrating : List Dir → RecoveryReport → Op RecoveryReport
  | [], report => pure report
  | d :: ds, report => do
    migrateScanned env legacy d
    let s ← Prog.look
    let (saves, result) := recoverSeriesDir env.now (s.root ++ "series".toList :: d) env.order ⟨false⟩ (s.dirs d) report
    publishManifests env d saves
    let report ← Prog.lift result
    recoverDirsMigrating ds report

/-- `startup_recover_locked`. -/
def startupRecoverMigrating : Op RecoveryReport := do
  let s ← Prog.look
  let report := { RecoveryReport.start ⟨false⟩ with removedTempFiles := s.temps.length, removedTempPaths := s.temps }
  Prog.emit .removeTemps
  if s.seriesRoot then do
    let report ← recoverDirsMigrating env legacy (discoverSeriesDirs env [] s) report
    Prog.emit .disarm
    pure report
  else do
    Prog.emit .disarm
    pure report

end Legacy

/-! ## Scrubbing -/

/-- The report on one series, without its diagnostics. -/
structure ScrubSeriesReport where
  validation : ManifestValidation
  checkedChunkCount : Nat
  checkedSidecarCount : Nat
  overlapResolutions : List OverlapResolution
  deriving DecidableEq, Repr

def scrubSeriesDir (order : DirOrder) (options : ValidationOptions) (d : Dir) (sd : SeriesDir) :
    Result ScrubSeriesReport :=
  match validateSeriesDir order options d sd with
  | .error e => .error e
  | .ok validation =>
    match scanChunkFiles order sd with
    | .error e => .error e
    | .ok chunks =>
      .ok ⟨validation, chunks.length, (chunks.map (fun c => c.sidecars.length)).sum,
        (overlapGroups chunks).map chooseSurvivingChunkForOverlap⟩

/-- `scrub_store`. -/
def scrubStore (env : Env) (ways : List Dir) (options : ValidationOptions) (s : Store) :
    Result (List ScrubSeriesReport) :=
  collect (fun d => scrubSeriesDir env.order options d (s.dirs d)) (discoverSeriesDirs env ways s)

/-! ## Sealing the series -/

/-- The chunks with the active ones sealed, and whether there were any; a chunk in transition is refused. -/
def sealChunks : List ChunkMeta → Result (List ChunkMeta × Bool)
  | [] => .ok ([], false)
  | c :: cs =>
    match c.state with
    | .active => (sealChunks cs).map (fun r => ({ c with state := .sealed } :: r.1, true))
    | .sealed => (sealChunks cs).map (fun r => (c :: r.1, r.2))
    | _ => .error (.invalidData "resolve transitional chunks before sealing")

def sealSeries (env : Env) (d : Dir) : Op Unit := do
  let s ← Prog.look
  let m ← Prog.lift (s.dirs d).loadSeriesMeta
  let (chunks, changed) ← Prog.lift (sealChunks m.chunks)
  if changed then
    saveSeriesMeta env d { m with chunks := chunks, activeChunkId := none, manifestSeq := satAdd m.manifestSeq 1, updatedAt := env.now }
  else pure ()

/-- `seal_snapshot` from the lock to the inventory; `ways` are the directories that the store has made on the way to
others. -/
def sealLocked (env : Env) (legacy : Dir → LegacySeriesMeta) (ways : List Dir) : Op Unit := do
  let _ ← startupRecoverMigrating env legacy
  let s ← Prog.look
  let reports ← Prog.lift (scrubStore env ways ⟨true, true⟩ s)
  if reports.isEmpty || reports.any (fun r => !r.validation.isClean) then
    Prog.fail (.invalidData "snapshot requires a non-empty, clean store; scrub/repair it first")
  else Prog.forEach (sealSeries env) (discoverSeriesDirs env ways s)

/-! ## The inventory -/

structure SnapshotFile where
  path : Text
  bytes : Nat
  sha256 : Text
  deriving DecidableEq, Repr

structure SnapshotManifest where
  formatVersion : Nat
  digest : Text
  files : List SnapshotFile
  deriving DecidableEq, Repr

/-- The digests of the `sha2` crate: of the bytes of a file, and of the JSON of an inventory. -/
structure Sha256 where
  ofBytes : List Nat → Text
  ofFiles : List SnapshotFile → Text

section Inventory

-- the bytes of the manifest files that are not of the current format
variable (raw : Dir → List Nat) (sha : Sha256)

def ManifestFile.fileBytes (d : Dir) : ManifestFile → List Nat
  | .current m => (encodeManifest m).toOption.getD []
  | _ => raw d

/-- A path below the root, with `/` between its components. -/
def snapshotPath (components : List Text) : Text := words (components.intersperse "/")

/-- A temporary file lies beside the file it is to become. -/
def tempPath (temp : Text) : List Text := if manifestFile.isPrefixOf temp then [temp] else [chunksDir, temp]

/-- The files of a series directory with their bytes; a temporary file has none of its own that matter. -/
def filesOf (s : Store) (d : Dir) : List (Text × List Nat) :=
  (if (s.dirs d).manifest.isPresent then
      [(snapshotPath ("series".toList :: d ++ [manifestFile]), (s.dirs d).manifest.fileBytes raw d)]
    else []) ++
    (s.dirs d).files.map (fun p => (snapshotPath ("series".toList :: d ++ [chunksDir, p.1]), p.2.bytes)) ++
    (s.temps.filter (fun t => decide (t.1 = d))).map (fun t =>
      (snapshotPath ("series".toList :: d ++ tempPath t.2), []))

/-- `collect_files`: every file below `series/`, by path. -/
def collectFiles (s : Store) : Result (List SnapshotFile) :=
  if s.seriesRoot then
    .ok ((((s.known.filter (fun d => !leavesSeries d)).flatMap (filesOf raw s)).map
      (fun p => (⟨p.1, p.2.length, sha.ofBytes p.2⟩ : SnapshotFile))).insertionSort (fun a b =>
        Text.le a.path b.path = true))
  else .error (.io "No such file or directory (os error 2)")

end Inventory

/-! ## The root -/

/-- What a call checks before it takes the lock. -/
def Call.check : Call → Result Unit
  | .init => .ok ()
  | .startupRecover => .ok ()
  | .registerKline _ _ timeframeMs priceScale volumeScale => validateConfiguration timeframeMs priceScale volumeScale
  | .registerScalar _ timeframeMs =>
      if timeframeMs ≤ 0 then .error (.invalidInput "timeframe_ms must be positive") else .ok ()
  | .registerFixed _ _ _ _ unit =>
    if unit.isTimeBased = false then
      .error (.invalidInput (words ["partition unit ", unit.asStr, " is declared but not implemented yet"]))
    else .ok ()
  | .putKline _ _ _ records => validateMonthRecords records
  | .mergeKline _ _ _ => .ok ()
  | .putScalar _ timeframeMs records zmapBlockSize =>
    match checkScalarWrite timeframeMs zmapBlockSize with
    | .error e => .error e
    | .ok () => validateMonthRecords records
  | .appendScalar _ timeframeMs records blockSize =>
    match checkScalarWrite timeframeMs blockSize with
    | .error e => .error e
    | .ok () => validateMonthRecords records
  | .appendKlineRange _ _ _ records timeframeMs priceScale volumeScale =>
    match validateConfiguration timeframeMs priceScale volumeScale with
    | .error e => .error e
    | .ok () => (monthBatches records).map (fun _ => ())
  | .appendScalarRange _ records timeframeMs =>
    if timeframeMs.any (fun value => decide (value ≤ 0)) then .error (.invalidInput "timeframe_ms must be positive")
    else (monthBatches records).map (fun _ => ())
  | .putFixed k _ _ records => validateStrictOrder k.Row records

/-- A root: the store below it, the directories made on the way to others, the lock file, and the snapshot file with
what it decodes to. -/
structure Root where
  store : Store
  ways : List Dir
  lockFile : Bool
  snapshot : Option (Result SnapshotManifest)

namespace Root

def empty (root : Dir) : Root := ⟨Store.empty root, [], false, none⟩

/-- `StoreWriteLock::acquire`, with no other holder: the lock file is made, and a sealed root refuses. -/
def acquireWrite (r : Root) : Root × Result Unit :=
  ({ r with lockFile := true },
    if r.snapshot.isSome then .error (.invalidInput "sealed snapshot is read-only; create a new version") else .ok ())

/-- `StoreReadLock::acquire`, with no writer. -/
def acquireRead (r : Root) : Result Unit :=
  if r.lockFile = false ∧ r.store.seriesRoot = true then
    .error (.invalidInput "legacy store has no persistent lock; initialize it once with a writable handle")
  else .ok ()

/-- A call of the store's writing interface: its checks, the write lock, and the call; `made` are the directories it
makes on the way to others. -/
def call (env : Env) (c : Call) (made : List Dir) (r : Root) : Root × Result Unit :=
  match c.check with
  | .error e => (r, .error e)
  | .ok () =>
    match r.acquireWrite with
    | (r, .error e) => (r, .error e)
    | (r, .ok ()) => ({ r with store := (c.run env).final r.store, ways := r.ways ++ made }, (c.run env).result r.store)

section Snapshots

variable (raw : Dir → List Nat) (sha : Sha256)

def verifySnapshot (r : Root) (expectedDigest : Option Text) : Result SnapshotManifest :=
  match r.acquireRead with
  | .error e => .error e
  | .ok () =>
    if r.store.pending then .error (.invalidData "snapshot has pending recovery")
    else
      match r.snapshot with
      | none => .error (.io "No such file or directory (os error 2)")
      | some (.error e) => .error e
      | some (.ok snapshot) =>
        if snapshot.formatVersion ≠ 1 ∨ sha.ofFiles snapshot.files ≠ snapshot.digest ∨
            expectedDigest.any (fun e => decide (e ≠ snapshot.digest)) then
          .error (.invalidData "snapshot digest or file inventory mismatch")
        else
          match collectFiles raw sha r.store with
          | .error e => .error e
          | .ok files =>
            if files ≠ snapshot.files then .error (.invalidData "snapshot digest or file inventory mismatch")
            else .ok snapshot

/-- `seal_snapshot`. -/
def sealSnapshot (env : Env) (legacy : Dir → LegacySeriesMeta) (r : Root) : Root × Result SnapshotManifest :=
  if r.snapshot.isSome then (r, r.verifySnapshot raw sha none)
  else
    match r.acquireWrite with
    | (r, .error e) => (r, .error e)
    | (r, .ok ()) =>
      let (steps, result) := sealLocked env legacy r.ways r.store
      let r := { r with store := exec steps r.store }
      match result with
      | .error e => (r, .error e)
      | .ok () =>
        match collectFiles raw sha r.store with
        | .error e => (r, .error e)
        | .ok files =>
          let snapshot : SnapshotManifest := ⟨1, sha.ofFiles files, files⟩
          ({ r with snapshot := some (.ok snapshot) }, .ok snapshot)

end Snapshots

end Root

end FastK
