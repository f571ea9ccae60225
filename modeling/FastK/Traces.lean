import FastK.Edits
/-!
# The steps of the operations

Each part of an operation as the list of steps it takes, and what the steps do to a directory.  Steps that make
directories, stage temporary files or set the marker are calm: no file and no manifest changes (`exec_calm`).  Recovery
of a store in which every directory recovers publishes the manifests the directories save (`startupRecover_run`).
-/
namespace FastK

open Journal

/-! ## Directories under steps -/

/-- What a step does to the directory `d`. -/
def IoStep.onDir (d : Dir) : IoStep → SeriesDir → SeriesDir
  | .makeChunksDir e, sd => if d = e then { sd with chunksDir := true } else sd
  | .publish e name _ body, sd => if d = e then sd.put name body else sd
  | .publishManifest e _ m, sd => if d = e then { sd with manifest := .current m } else sd
  | .removeFile e relativePath, sd => if d = e then sd.remove relativePath else sd
  | _, sd => sd

theorem apply_dirs (k : IoStep) (s : Store) (d : Dir) : (Journal.Store.apply k s).dirs d = k.onDir d (s.dirs d) := by
  cases k <;> rfl

theorem apply_root (k : IoStep) (s : Store) : (Journal.Store.apply k s).root = s.root := by cases k <;> rfl

/-- The same manifest and files; the directory `chunks` may have been made. -/
structure SameContent (sd sd' : SeriesDir) : Prop where
  manifest : sd'.manifest = sd.manifest
  files : sd'.files = sd.files
  chunksDir : sd.chunksDir = true → sd'.chunksDir = true

namespace SameContent

variable {sd sd' sd'' : SeriesDir}

theorem refl (sd : SeriesDir) : SameContent sd sd := ⟨rfl, rfl, fun h => h⟩

theorem trans (h : SameContent sd sd') (h' : SameContent sd' sd'') : SameContent sd sd'' :=
  ⟨h'.manifest.trans h.manifest, h'.files.trans h.files, fun hd => h'.chunksDir (h.chunksDir hd)⟩

theorem hasChunk (h : SameContent sd sd') {name : Text} {f : ChunkFile} : HasChunk sd' name f ↔ HasChunk sd name f :=
  hasChunk_congr h.files

theorem hasFile (h : SameContent sd sd') (name : Text) : sd'.hasFile name = sd.hasFile name := by
  unfold SeriesDir.hasFile
  rw [h.files]

theorem lookup (h : SameContent sd sd') (rel : Text) : sd'.lookup rel = sd.lookup rel := by
  unfold SeriesDir.lookup
  rw [h.files]

theorem rowsIn (h : SameContent sd sd') (t : RecordType) (c : ChunkMeta) :
    FastK.rowsIn t sd' c = FastK.rowsIn t sd c := by
  unfold FastK.rowsIn
  rw [h.lookup]

theorem seriesRows (h : SameContent sd sd') (t : RecordType) : FastK.seriesRows t sd' = FastK.seriesRows t sd := by
  unfold FastK.seriesRows
  rw [h.manifest]
  cases sd.manifest with
  | missing => rfl
  | corrupt e => rfl
  | current m => exact List.flatMap_congr (fun c _ => h.rowsIn t c)

theorem wellFiled (h : SameContent sd sd') (hw : WellFiled sd) : WellFiled sd' := hw.congr h.files h.chunksDir

theorem tracked (h : SameContent sd sd') {t : RecordType} {u : PartitionUnit} {c : ChunkMeta}
    (hc : Tracked sd t u c) : Tracked sd' t u c :=
  hc.mono (fun _ _ hg _ => h.hasChunk.2 hg)

theorem filesOk (h : SameContent sd sd') {t : RecordType} {u : PartitionUnit} (hf : FilesOk sd t u) : FilesOk sd' t u :=
  ⟨h.wellFiled hf.filed, fun n g hg => hf.file n g (h.hasChunk.1 hg)⟩

theorem fits (h : SameContent sd sd') {d : Dir} {m : SeriesMeta} (hf : Fits d sd m) : Fits d sd' m :=
  ⟨hf.valid, hf.head, h.filesOk hf.files, fun c hc => h.tracked (hf.tracked c hc)⟩

theorem seriesOk (h : SameContent sd sd') {d : Dir} {m : SeriesMeta} (hs : SeriesOk d sd m) : SeriesOk d sd' m :=
  ⟨h.fits hs.toFits, h.manifest.trans hs.manifest_eq⟩

theorem exact_iff (h : SameContent sd sd') {m : SeriesMeta} : Exact sd' m ↔ Exact sd m := by
  unfold Exact
  simp only [h.hasChunk]

end SameContent

/-! ## Calm steps -/

/-- The step changes no manifest and no file. -/
def IoStep.calm : IoStep → Bool
  | .publish .. | .publishManifest .. | .removeFile .. => false
  | _ => true

theorem apply_calm {k : IoStep} (hk : k.calm = true) (s : Store) (d : Dir) : SameContent (s.dirs d)
    ((Journal.Store.apply k s).dirs d) := by
  rw [apply_dirs]
  cases k with
  | publish => cases hk
  | publishManifest => cases hk
  | removeFile => cases hk
  | makeChunksDir e =>
    show SameContent (s.dirs d) (if d = e then { s.dirs d with chunksDir := true } else s.dirs d)
    split
    · exact ⟨rfl, rfl, fun _ => rfl⟩
    · exact .refl _
  | arm => exact .refl _
  | disarm => exact .refl _
  | makeSeriesRoot => exact .refl _
  | stage => exact .refl _
  | removeTemps => exact .refl _

theorem exec_calm {ks : List IoStep} (hk : ∀ k ∈ ks, k.calm = true) (s : Store) (d : Dir) : SameContent (s.dirs d)
    ((exec ks s).dirs d) :=
  exec_induction (P := fun t => SameContent (s.dirs d) (t.dirs d)) ks s (.refl _) (fun k hks t ht =>
    ht.trans (apply_calm (hk k hks) t d))

/-- The step leaves the other directories alone. -/
def IoStep.on (d : Dir) : IoStep → Bool
  | .publish e .. | .publishManifest e .. | .removeFile e _ => decide (e = d)
  | _ => true

theorem apply_other {k : IoStep} {d e : Dir} (hk : k.on d = true) (he : e ≠ d) (s : Store) :
    SameContent (s.dirs e) ((Journal.Store.apply k s).dirs e) := by
  cases hc : k.calm with
  | true => exact apply_calm hc s e
  | false =>
    rw [apply_dirs]
    cases k with
    | publish d' =>
      obtain rfl : d' = d := by simpa [IoStep.on] using hk
      rw [IoStep.onDir, if_neg he]
      exact .refl _
    | publishManifest d' =>
      obtain rfl : d' = d := by simpa [IoStep.on] using hk
      rw [IoStep.onDir, if_neg he]
      exact .refl _
    | removeFile d' =>
      obtain rfl : d' = d := by simpa [IoStep.on] using hk
      rw [IoStep.onDir, if_neg he]
      exact .refl _
    | _ => cases hc

theorem exec_other {ks : List IoStep} {d e : Dir} (hk : ∀ k ∈ ks, k.on d = true) (he : e ≠ d) (s : Store) :
    SameContent (s.dirs e) ((exec ks s).dirs e) :=
  exec_induction (P := fun t => SameContent (s.dirs e) (t.dirs e)) ks s (.refl _) (fun k hks t ht =>
    ht.trans (apply_other (hk k hks) he t))

/-! ## The pieces of an operation -/

section Pieces

variable (env : Env) (d : Dir)

def writeSteps (name : Text) (body : FileBody) : List IoStep :=
  [.makeChunksDir d, .stage d (tempNameFor env name), .publish d name (tempNameFor env name) body]

def saveSteps (m : SeriesMeta) : List IoStep :=
  [.stage d (tempNameFor env manifestFile), .publishManifest d (tempNameFor env manifestFile) m]

def removeSteps (relativePaths : List Text) : List IoStep :=
  (relativePaths.filter (fun p => !env.removeFails d p)).map (IoStep.removeFile d)

variable {env d}

theorem atomicWriteNew_run {name : Text} {body : FileBody} {s : Store} (h : (s.dirs d).hasFile name = false) :
    atomicWriteNew env d name body s = (writeSteps env d name body, .ok ()) := by
  have hafter : ((Journal.Store.apply (IoStep.makeChunksDir d) s).dirs d).hasFile name = false := by
    rw [(apply_calm rfl s d).hasFile]
    exact h
  unfold atomicWriteNew
  rw [Prog.emit_bind, Prog.look_bind, if_neg (by rw [hafter]; simp), Prog.emit_bind]
  rfl

theorem atomicWriteNew_exists {name : Text} {body : FileBody} {s : Store} (h : (s.dirs d).hasFile name = true) :
    atomicWriteNew env d name body s = ([.makeChunksDir d], .error (destinationExists s d name)) := by
  have hafter : ((Journal.Store.apply (IoStep.makeChunksDir d) s).dirs d).hasFile name = true := by
    rw [(apply_calm rfl s d).hasFile]
    exact h
  unfold atomicWriteNew
  rw [Prog.emit_bind, Prog.look_bind, if_pos hafter]
  rfl

theorem atomicWriteReplace_run (name : Text) (body : FileBody) (s : Store) :
    atomicWriteReplace env d name body s = (writeSteps env d name body, .ok ()) := rfl

theorem saveSeriesMeta_run {m : SeriesMeta} (hv : m.validate = .ok ()) (s : Store) :
    saveSeriesMeta env d m s = (saveSteps env d m, .ok ()) := by
  unfold saveSeriesMeta
  rw [hv]
  rfl

theorem saveSeriesMeta_error {m : SeriesMeta} {e : FastKError} (hv : m.validate = .error e) (s : Store) :
    saveSeriesMeta env d m s = ([], .error e) := by
  unfold saveSeriesMeta
  rw [hv]
  rfl

theorem removeFile_run (path : Text) (s : Store) :
    removeFile env d path s = (if env.removeFails d path then [] else [.removeFile d path], .ok ()) := by
  unfold removeFile
  split <;> rfl

theorem removeFiles_run (paths : List Text) (s : Store) :
    removeFiles env d paths s = (removeSteps env d paths, .ok ()) := by
  unfold removeFiles
  rw [Prog.forEach_run _ removeFile_run]
  refine congrArg (fun l => (l, Except.ok ())) ?_
  induction paths with
  | nil => rfl
  | cons p ps ih =>
    unfold removeSteps at ih ⊢
    rw [List.flatMap_cons, ih]
    cases hp : env.removeFails d p with
    | true => rw [List.filter_cons_of_neg (by simp [hp])]; rfl
    | false => rw [List.filter_cons_of_pos (by simp [hp])]; rfl

theorem createSeries_run {m : SeriesMeta} (hv : m.validate = .ok ()) (s : Store) :
    createSeries env d m s = (.arm :: .makeChunksDir d :: (saveSteps env d m ++ [.disarm]), .ok m) := by
  unfold createSeries
  rw [Prog.emit_bind, Prog.emit_bind, Prog.bind_run (saveSeriesMeta_run hv _)]
  rfl

theorem createSeries_error {m : SeriesMeta} {e : FastKError} (hv : m.validate = .error e) (s : Store) :
    createSeries env d m s = ([.arm, .makeChunksDir d], .error e) := by
  unfold createSeries
  rw [Prog.emit_bind, Prog.emit_bind, Prog.bind_run_error (saveSeriesMeta_error hv _)]

theorem writeSteps_on (name : Text) (body : FileBody) : ∀ k ∈ writeSteps env d name body, k.on d = true := by
  simp [writeSteps, IoStep.on]

theorem saveSteps_on (m : SeriesMeta) : ∀ k ∈ saveSteps env d m, k.on d = true := by
  simp [saveSteps, IoStep.on]

theorem removeSteps_on (paths : List Text) : ∀ k ∈ removeSteps env d paths, k.on d = true := by
  intro k hk
  obtain ⟨p, -, rfl⟩ := List.mem_map.1 hk
  simp [IoStep.on]

end Pieces

end FastK
