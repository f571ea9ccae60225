import FastK.Index
/-!
# The directory of a series

What the files of one series directory hold: the manifest `series.meta`, and below `chunks/` the chunk files, their
sidecars and the temporary files a stopped write leaves.  A file is found by its path relative to the series directory;
bytes that are no chunk or sidecar are kept as they are.
-/
namespace FastK

inductive FileBody where
  | chunk (f : ChunkFile)
  | zmap (entries : List ZoneMapEntry)
  | vix (entries : List ValueIndexEntry)
  | raw (bytes : List Nat)
  deriving DecidableEq, Repr

def FileBody.bytes : FileBody → List Nat
  | .chunk f => f.bytes
  | .zmap entries => entries.flatMap ZoneMapEntry.toLeBytes
  | .vix entries => entries.flatMap ValueIndexEntry.toLeBytes
  | .raw bytes => bytes

/-- The manifest file: absent, undecodable, or the encoding of a manifest. -/
inductive ManifestFile where
  | missing
  | corrupt (error : FastKError)
  | current (m : SeriesMeta)
  deriving DecidableEq, Repr

def ManifestFile.isPresent : ManifestFile → Bool
  | .missing => false
  | _ => true

structure SeriesDir where
  manifest : ManifestFile
  chunksDir : Bool
  files : List (Text × FileBody)
  deriving DecidableEq, Repr

namespace SeriesDir

def empty : SeriesDir := ⟨.missing, false, []⟩

/-- The file at a path relative to the series directory. -/
def lookup (sd : SeriesDir) (relativePath : Text) : Option FileBody :=
  (sd.files.find? (fun p => decide (chunkRelativePath p.1 = relativePath))).map Prod.snd

/-- `Path::exists` of a file below `chunks/`. -/
def hasFile (sd : SeriesDir) (name : Text) : Bool := sd.files.any (fun p => decide (p.1 = name))

/-- Opens a chunk and reads its header (`ChunkRuntime::get_layout`, `ChunkHeader::read_from`). -/
def openChunk (sd : SeriesDir) (relativePath : Text) : Result ChunkFile :=
  match sd.lookup relativePath with
  | none => .error (.io "No such file or directory (os error 2)")
  | some (.chunk f) =>
    match f.header.validate with
    | .error e => .error e
    | .ok () => .ok f
  | some _ => .error (.invalidData "invalid chunk magic")

/-- Reads a sidecar and compares its checksum, where the manifest has one (`read_entries_checked`). -/
def readSidecar (sd : SeriesDir) (relativePath : Text) (checksum : Nat) : Result FileBody :=
  match sd.lookup relativePath with
  | none => .error (.io "No such file or directory (os error 2)")
  | some body =>
    if checksum ≠ 0 ∧ checksum64 body.bytes ≠ checksum then
      .error (.invalidData (words ["sidecar checksum mismatch: ", relativePath]))
    else .ok body

/-- `load_series_meta`: the manifest, once it has passed its check. -/
def loadSeriesMeta (sd : SeriesDir) : Result SeriesMeta :=
  match sd.manifest with
  | .missing => .error (.notFound "series meta not found: series.meta")
  | .corrupt e => .error e
  | .current m =>
    match m.validate with
    | .error e => .error e
    | .ok () => .ok m

theorem loadSeriesMeta_ok {sd : SeriesDir} {m : SeriesMeta} (hm : sd.manifest = .current m) (hv : m.validate = .ok ()) :
    sd.loadSeriesMeta = .ok m := by
  unfold loadSeriesMeta
  rw [hm]
  simp only
  rw [hv]

theorem loadSeriesMeta_eq_ok {sd : SeriesDir} {m : SeriesMeta} (h : sd.loadSeriesMeta = .ok m) :
    sd.manifest = .current m ∧ m.validate = .ok () := by
  unfold loadSeriesMeta at h
  cases hm : sd.manifest with
  | missing => rw [hm] at h; cases h
  | corrupt e => rw [hm] at h; cases h
  | current m' =>
    rw [hm] at h
    simp only at h
    cases hv : m'.validate with
    | error e => rw [hv] at h; cases h
    | ok u =>
      rw [hv] at h
      obtain rfl := Except.ok.inj h
      exact ⟨rfl, hv⟩

theorem openChunk_ok {sd : SeriesDir} {rel : Text} {f : ChunkFile} (hl : sd.lookup rel = some (.chunk f))
    (hv : f.header.validate = .ok ()) : sd.openChunk rel = .ok f := by
  unfold openChunk
  rw [hl]
  simp only
  rw [hv]

end SeriesDir

end FastK
