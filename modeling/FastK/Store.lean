import FastK.Lib.Journal
import FastK.Lib.Walk
import FastK.Recovery
/-!
# The store

The directories of a store, the durable steps its operations take, and recovery of the whole store
(`storage/fs.rs`, `storage/recovery.rs`).  A file is written beside its destination and renamed over it; the steps are
these two.  An operation stopped anywhere, by a crash or a failing I/O call, leaves the store after a prefix of its
steps.
-/
namespace FastK

open Journal

/-- The files below the root: the recovery marker, the directory `series`, the directories made below it, and what
each of them holds.  Temporary files are kept apart: recovery removes them before it looks at anything else.  The
directory of one series and a file of another never have one path here, as they never do for names that go down. -/
structure Store where
  root : Dir
  pending : Bool
  seriesRoot : Bool
  known : List Dir
  temps : List (Dir × Text)
  dirs : Dir → SeriesDir

namespace Store

def empty (root : Dir) : Store := ⟨root, false, false, [], [], fun _ => .empty⟩

/-- The store with one directory changed. -/
def modify (s : Store) (d : Dir) (f : SeriesDir → SeriesDir) : Store :=
  { s with
    seriesRoot := true
    known := if d ∈ s.known then s.known else s.known ++ [d]
    dirs := fun e => if e = d then f (s.dirs e) else s.dirs e }

@[simp] theorem modify_dirs_self (s : Store) (d : Dir) (f : SeriesDir → SeriesDir) :
    (s.modify d f).dirs d = f (s.dirs d) := if_pos rfl

theorem modify_dirs_ne (s : Store) {d e : Dir} (f : SeriesDir → SeriesDir) (h : e ≠ d) :
    (s.modify d f).dirs e = s.dirs e := if_neg h

@[simp] theorem modify_pending (s : Store) (d : Dir) (f : SeriesDir → SeriesDir) : (s.modify d f).pending = s.pending :=
  rfl
@[simp] theorem modify_root (s : Store) (d : Dir) (f : SeriesDir → SeriesDir) : (s.modify d f).root = s.root := rfl

theorem mem_known_modify (s : Store) (d : Dir) (f : SeriesDir → SeriesDir) {e : Dir} : e ∈ (s.modify d f).known ↔
    e = d ∨ e ∈ s.known := by
  show e ∈ (if d ∈ s.known then s.known else s.known ++ [d]) ↔ _
  split
  · rename_i h
    constructor
    · exact .inr
    · rintro (rfl | he)
      · exact h
      · exact he
  · simp [or_comm]

end Store

/-! ## Steps -/

inductive IoStep where
  | arm
  | disarm
  | makeSeriesRoot
  | makeChunksDir (d : Dir)
  | stage (d : Dir) (temp : Text)
  | publish (d : Dir) (name temp : Text) (body : FileBody)
  | publishManifest (d : Dir) (temp : Text) (m : SeriesMeta)
  | removeFile (d : Dir) (relativePath : Text)
  | removeTemps

/-- A file put at its place, over one of the same name. -/
def SeriesDir.put (sd : SeriesDir) (name : Text) (body : FileBody) : SeriesDir :=
  { sd with chunksDir := true, files := sd.files.filter (fun p => decide (p.1 ≠ name)) ++ [(name, body)] }

def SeriesDir.remove (sd : SeriesDir) (relativePath : Text) : SeriesDir :=
  { sd with files := sd.files.filter (fun p => decide (chunkRelativePath p.1 ≠ relativePath)) }

def IoStep.apply : IoStep → Store → Store
  | .arm, s => { s with pending := true }
  | .disarm, s => { s with pending := false }
  | .makeSeriesRoot, s => { s with seriesRoot := true }
  | .makeChunksDir d, s => s.modify d (fun sd => { sd with chunksDir := true })
  | .stage d temp, s => { s with temps := s.temps ++ [(d, temp)] }
  | .publish d name temp body, s => { s.modify d (fun sd => sd.put name body) with temps := s.temps.erase (d, temp) }
  | .publishManifest d temp m, s =>
      { s.modify d (fun sd => { sd with manifest := .current m }) with temps := s.temps.erase (d, temp) }
  | .removeFile d relativePath, s =>
      { s with dirs := fun e => if e = d then (s.dirs e).remove relativePath else s.dirs e }
  | .removeTemps, s => { s with temps := [] }

instance : Journal.Store Store IoStep := ⟨IoStep.apply⟩

abbrev Op (α : Type) := Prog Store IoStep FastKError α

/-! ## File writes -/

/-- What the operating system answers during one call: the clock, the listing orders, which best-effort removals fail,
and the workers of the read pool. -/
structure Env where
  now : Int
  nanos : Nat
  order : DirOrder
  dirOrder : { f : List Dir → List Dir // ∀ l, (f l).Perm l }
  removeFails : Dir → Text → Bool
  threads : Nat

def Env.plain (now : Int) : Env := ⟨now, 0, .asListed, ⟨fun l => l, fun l => List.Perm.refl l⟩, fun _ _ => false, 1⟩

/-- `temp_path_for`. -/
def tempNameFor (env : Env) (name : Text) : Text := words [name, ".", showNat env.nanos, ".tmp"]

def showDir (d : Dir) : Text := words (d.map (fun c => '/' :: c))

/-- The error of `atomic_write_new` at a file that is there. -/
def destinationExists (s : Store) (d : Dir) (name : Text) : FastKError :=
  .invalidInput (words ["destination already exists: ", showDir (s.root ++ "series".toList :: d ++ [chunksDir, name])])

/-- `atomic_write_new` of a file below `chunks/`. -/
def atomicWriteNew (env : Env) (d : Dir) (name : Text) (body : FileBody) : Op Unit := do
  Prog.emit (.makeChunksDir d)
  let s ← Prog.look
  if (s.dirs d).hasFile name then Prog.fail (destinationExists s d name)
  else do
    Prog.emit (.stage d (tempNameFor env name))
    Prog.emit (.publish d name (tempNameFor env name) body)

/-- `atomic_write_replace` of a file below `chunks/`. -/
def atomicWriteReplace (env : Env) (d : Dir) (name : Text) (body : FileBody) : Op Unit := do
  Prog.emit (.makeChunksDir d)
  Prog.emit (.stage d (tempNameFor env name))
  Prog.emit (.publish d name (tempNameFor env name) body)

def manifestFile : Text := "series.meta"

/-- `save_series_meta`: the manifest is checked, then replaced. -/
def saveSeriesMeta (env : Env) (d : Dir) (m : SeriesMeta) : Op Unit := do
  Prog.lift m.validate
  Prog.emit (.stage d (tempNameFor env manifestFile))
  Prog.emit (.publishManifest d (tempNameFor env manifestFile) m)

/-- `let _ = fs::remove_file(..)`. -/
def removeFile (env : Env) (d : Dir) (relativePath : Text) : Op Unit :=
  if env.removeFails d relativePath then pure () else Prog.emit (.removeFile d relativePath)

/-! ## Recovery of the store -/

/-- Directories below `series/`, each standing for those above it as well: those the store knows, and `ways` made
beside them. -/
def Store.made (s : Store) (ways : List Dir) : List Dir := (s.known ++ ways).filter (fun d => !leavesSeries d)

/-- `has_chunks || has_manifest`. -/
def Store.looksLikeSeries (s : Store) (ways : List Dir) (d : Dir) : Bool :=
  (s.dirs d).chunksDir || (s.dirs d).manifest.isPresent || (s.made ways).any (fun e => (d ++ [chunksDir]).isPrefixOf e)

/-- `discover_series_dirs`: `collect_series_dirs` from `series/` on.  Names that go down make no directories but those
above their own, and need no `ways`. -/
def discoverSeriesDirs (env : Env) (ways : List Dir) (s : Store) : List Dir :=
  if s.seriesRoot then
    Walk.collect env.dirOrder.1 (s.made ways) (s.looksLikeSeries ways)
      (((s.made ways).map List.length).foldr max 0 + 1) []
  else []

/-- A directory out of `series/`, or below another series directory, which the walk does not enter. -/
def Store.hidden (s : Store) (d : Dir) : Bool :=
  leavesSeries d || (List.range d.length).any (fun n => s.looksLikeSeries [] (d.take n))

def publishManifests (env : Env) (d : Dir) (saves : List SeriesMeta) : Op Unit :=
  Prog.forEach (fun m => do
    Prog.emit (.stage d (tempNameFor env manifestFile))
    Prog.emit (.publishManifest d (tempNameFor env manifestFile) m)) saves

/-- The loop of `startup_recover_locked` over the directories found. -/
def recoverDirs (env : Env) : List Dir → RecoveryReport → Op RecoveryReport
  | [], report => pure report
  | d :: ds, report => do
    let s ← Prog.look
    let (saves, result) := recoverSeriesDir env.now (s.root ++ "series".toList :: d) env.order ⟨false⟩ (s.dirs d) report
    publishManifests env d saves
    let report ← Prog.lift result
    recoverDirs env ds report

def startupRecoverLocked (env : Env) : Op RecoveryReport := do
  let s ← Prog.look
  let report := { RecoveryReport.start ⟨false⟩ with removedTempFiles := s.temps.length, removedTempPaths := s.temps }
  Prog.emit .removeTemps
  if s.seriesRoot then do
    let report ← recoverDirs env (discoverSeriesDirs env [] s) report
    Prog.emit .disarm
    pure report
  else do
    Prog.emit .disarm
    pure report

/-- `begin_mutation`: a store with a pending marker is recovered first. -/
def beginMutation (env : Env) : Op Unit := do
  let s ← Prog.look
  if s.pending then do
    let _ ← startupRecoverLocked env
    pure ()
  else pure ()

end FastK
