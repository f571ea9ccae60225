import FastK.Appends
import FastK.Bytes
import FastK.Interrupted
import FastK.Rerun
import FastK.Temps
/-!
# Validation

`validate_series_dir` (`storage/recovery.rs`) compares a manifest with the files beside it: every entry with the chunk
file of its path, every sidecar entry with its file, and every file with the entries.  In the states that healthy
calls reach it finds nothing anywhere (`healthy_runs_validate`); a range append under other names than those of its
series leaves a chunk file behind that it reports.
-/
namespace FastK

open Journal Spans

/-! ## Reports -/

structure ValidationOptions where
  verbose : Bool
  revalidateChecksums : Bool
  deriving DecidableEq, Repr

structure ManifestValidation where
  seriesDir : Dir
  manifestExists : Bool
  missingChunks : List Text
  missingSidecars : List Text
  checksumMismatches : List Text
  chunkMetadataMismatches : List Text
  sidecarConsistencyIssues : List Text
  untrackedChunks : List Text
  untrackedSidecars : List Text
  overlapGroups : List (List Text)
  deriving DecidableEq, Repr

def ManifestValidation.isClean (v : ManifestValidation) : Bool :=
  v.manifestExists && v.missingChunks.isEmpty && v.missingSidecars.isEmpty && v.checksumMismatches.isEmpty &&
    v.chunkMetadataMismatches.isEmpty && v.sidecarConsistencyIssues.isEmpty && v.untrackedChunks.isEmpty &&
    v.untrackedSidecars.isEmpty && v.overlapGroups.isEmpty

/-- The report that finds nothing. -/
def ManifestValidation.nothing (d : Dir) (manifestExists : Bool) : ManifestValidation :=
  ⟨d, manifestExists, [], [], [], [], [], [], [], []⟩

def overlapGroupsAsStrings (chunks : List ChunkMeta) : List (List Text) :=
  (overlapGroups chunks).map (fun group => (group.map ChunkMeta.relativePath).insertionSort (fun a b =>
    Text.le a b = true))

/-- `read_entries` of a sidecar, as far as the number of its entries goes. -/
def readEntries (sd : SeriesDir) (relativePath : Text) (entrySize : Nat) : Option Nat :=
  match sd.lookup relativePath with
  | none => none
  | some body => if body.bytes.length % entrySize = 0 then some (body.bytes.length / entrySize) else none

/-- The issues with what a sidecar holds. -/
def validateSidecarContent (sd : SeriesDir) (expected actual : SidecarMeta) : List Text :=
  if actual.kind = zmapKind then
    match readEntries sd actual.relativePath 40 with
    | none => [actual.relativePath]
    | some n =>
      (if expected.recordCount ≠ 0 ∧ expected.recordCount ≠ n then [actual.relativePath] else []) ++
        if expected.blockSize ≠ 0 ∧ actual.blockSize ≠ 0 ∧ expected.blockSize ≠ actual.blockSize then
          [actual.relativePath]
        else []
  else if actual.kind = vixKind then
    match readEntries sd actual.relativePath 16 with
    | none => [actual.relativePath]
    | some n => if expected.recordCount ≠ 0 ∧ expected.recordCount ≠ n then [actual.relativePath] else []
  else [actual.relativePath]

/-- The fields of an entry that are compared with those of the scanned file. -/
def ChunkMeta.scannedFields (c : ChunkMeta) : List Int :=
  [c.chunkId, c.generation, c.count, c.startTs, c.endTs, c.layoutVersion, c.headerLen, c.sparseIndexEvery,
    c.sparseIndexOffset, c.sparseIndexLen]

def checksumMismatchesOf (options : ValidationOptions) (expected actual : Nat) (relativePath : Text) : List Text :=
  if options.revalidateChecksums = true ∧ expected ≠ 0 ∧ expected ≠ actual then [relativePath] else []

/-- `validate_series_dir`. -/
def validateSeriesDir (order : DirOrder) (options : ValidationOptions) (d : Dir) (sd : SeriesDir) :
    Result ManifestValidation :=
  match scanChunkFiles order sd with
  | .error e => .error e
  | .ok fsChunks =>
    let fsSidecars := if sd.chunksDir = false then [] else scanSidecarFiles (order.1 sd.files)
    if sd.manifest.isPresent = false then
      .ok { ManifestValidation.nothing d false with
        untrackedChunks := fsChunks.map ChunkMeta.relativePath
        untrackedSidecars := fsSidecars.map SidecarMeta.relativePath
        overlapGroups := overlapGroupsAsStrings fsChunks }
    else
      match sd.loadSeriesMeta with
      | .error e => .error e
      | .ok m =>
        let chunkAt := fun path => fsChunks.find? (fun c => decide (c.relativePath = path))
        let sidecarAt := fun path => fsSidecars.find? (fun s => decide (s.relativePath = path))
        let sidecars := m.chunks.flatMap ChunkMeta.sidecars
        .ok {
          seriesDir := d
          manifestExists := true
          missingChunks := (m.chunks.map ChunkMeta.relativePath).filter (fun path => (chunkAt path).isNone)
          missingSidecars := (sidecars.map SidecarMeta.relativePath).filter (fun path => (sidecarAt path).isNone)
          checksumMismatches := m.chunks.flatMap (fun c =>
            ((chunkAt c.relativePath).toList.flatMap (fun a =>
              checksumMismatchesOf options c.chunkChecksum a.chunkChecksum c.relativePath)) ++
              c.sidecars.flatMap (fun s => (sidecarAt s.relativePath).toList.flatMap (fun a =>
                checksumMismatchesOf options s.checksum a.checksum s.relativePath)))
          chunkMetadataMismatches := m.chunks.flatMap (fun c => (chunkAt c.relativePath).toList.flatMap (fun a =>
            if c.scannedFields = a.scannedFields then [] else [c.relativePath]))
          sidecarConsistencyIssues := sidecars.flatMap (fun s => (sidecarAt s.relativePath).toList.flatMap (fun a =>
            (if s.kind ≠ a.kind ∨ s.generation ≠ 0 ∧ a.generation ≠ 0 ∧ s.generation ≠ a.generation then
              [s.relativePath]
            else []) ++ validateSidecarContent sd s a))
          untrackedChunks := ((fsChunks.map ChunkMeta.relativePath).filter (fun path =>
            !(m.chunks.map ChunkMeta.relativePath).contains path)).insertionSort
            (fun a b => Text.le a b = true)
          untrackedSidecars := ((fsSidecars.map SidecarMeta.relativePath).filter (fun path =>
            !(sidecars.map SidecarMeta.relativePath).contains path)).insertionSort
            (fun a b => Text.le a b = true)
          overlapGroups := overlapGroupsAsStrings m.chunks }

/-! ## A series in order -/

section Series

variable {C : Nat} {d : Dir} {sd : SeriesDir} {m : SeriesMeta} {order : DirOrder} {fsChunks : List ChunkMeta}

/-- A scan of well-filed complete chunks, with the entries in full. -/
theorem FilesOk.scanned {t : RecordType} {u : PartitionUnit} (h : FilesOk sd t u) (order : DirOrder) :
    ∃ cs, scanChunkFiles order sd = .ok cs ∧
    (∀ a ∈ cs, ∃ name f key sidecars, HasChunk sd name f ∧ a = scannedChunk name f key sidecars) ∧
    ∀ name f, HasChunk sd name f → ∃ a ∈ cs, a.relativePath = chunkRelativePath name := by
  obtain ⟨cs, hcs, hscans⟩ := h.scans order
  refine ⟨cs, hcs, fun a ha => ?_, fun name f hf => ?_⟩
  · obtain ⟨p, hp, hn, f, key, sidecars, hb, -, -, rfl⟩ := mem_scan hcs ha
    exact ⟨p.1, f, key, sidecars, ⟨by rw [← hb]; exact hp, hn⟩, rfl⟩
  · obtain ⟨a, ha, hs⟩ := hscans.complete name f hf
    exact ⟨a, ha, hs.entry.path⟩

/-- **Every entry finds its file, with the same fields and checksum.** -/
theorem GoodSeries.chunk_found (h : GoodSeries C d sd m)
    (hsound : ∀ a ∈ fsChunks, ∃ name f key sidecars, HasChunk sd name f ∧ a = scannedChunk name f key sidecars)
    (hcomplete : ∀ name f, HasChunk sd name f → ∃ a ∈ fsChunks, a.relativePath = chunkRelativePath name)
    {c : ChunkMeta} (hc : c ∈ m.chunks) :
    ∃ a, fsChunks.find? (fun a => decide (a.relativePath = c.relativePath)) = some a ∧
      a.scannedFields = c.scannedFields ∧
      a.chunkChecksum = c.chunkChecksum := by
  obtain ⟨name, f, hf, hpath, hst⟩ := h.described.stamped c hc
  obtain ⟨b, hb, hbpath⟩ := hcomplete name f hf
  cases hfind : fsChunks.find? (fun a => decide (a.relativePath = c.relativePath)) with
  | none => exact absurd (hbpath.trans hpath.symm) (by simpa using List.find?_eq_none.1 hfind b hb)
  | some a =>
    have heq : a.relativePath = c.relativePath := by simpa using List.find?_some hfind
    obtain ⟨n, g, key, sidecars, hg, rfl⟩ := hsound a (List.mem_of_find?_eq_some hfind)
    obtain rfl : n = name := chunkRelativePath_inj (heq.trans hpath)
    obtain rfl := h.fits.filed.hasChunk_inj hf hg
    refine ⟨_, rfl, ?_, ?_⟩ <;> rw [hst.scanned] <;> rfl

/-- No file is there whose path no entry has. -/
theorem GoodSeries.chunks_tracked (h : GoodSeries C d sd m)
    (hsound : ∀ a ∈ fsChunks, ∃ name f key sidecars, HasChunk sd name f ∧ a = scannedChunk name f key sidecars)
    {a : ChunkMeta} (ha : a ∈ fsChunks) :
    a.relativePath ∈ m.chunks.map ChunkMeta.relativePath := by
  obtain ⟨name, f, key, sidecars, hf, rfl⟩ := hsound a ha
  obtain ⟨c, hc, hpath⟩ := h.exact name f hf
  exact List.mem_map.2 ⟨c, hc, hpath⟩

/-! ### Sidecars -/

theorem length_zmap (zmap : List ZoneMapEntry) : (FileBody.zmap zmap).bytes.length = 40 * zmap.length :=
  length_flatMap_of_const (fun e => by simp [ZoneMapEntry.toLeBytes, length_leBytes]) zmap

theorem length_vix (vix : List ValueIndexEntry) : (FileBody.vix vix).bytes.length = 16 * vix.length :=
  length_flatMap_of_const (fun e => by simp [ValueIndexEntry.toLeBytes, length_leBytes]) vix

/-- The sidecar entry and what a scan makes of its file agree. -/
structure SidecarAgrees (sd : SeriesDir) (s a : SidecarMeta) : Prop where
  kind : a.kind = s.kind
  generation : a.generation = 0
  checksum : a.checksum = s.checksum
  content : validateSidecarContent sd s a = []

theorem readEntries_of {entrySize n : Nat} {rel : Text} {body : FileBody} (hl : sd.lookup rel = some body)
    (he : 0 < entrySize) (hlen : body.bytes.length = entrySize * n) : readEntries sd rel entrySize = some n := by
  unfold readEntries
  rw [hl]
  simp only
  rw [hlen, if_pos (Nat.mul_mod_right _ _), Nat.mul_div_cancel_left _ he]

/-- The file at a path, when no two files share a name. -/
theorem WellFiled.lookup_of_mem (h : WellFiled sd) {p : Text × FileBody} (hp : p ∈ sd.files) :
    sd.lookup (chunkRelativePath p.1) = some p.2 := by
  unfold SeriesDir.lookup
  cases hfind : sd.files.find? (fun q => decide (chunkRelativePath q.1 = chunkRelativePath p.1)) with
  | none => exact absurd (decide_eq_true rfl) (List.find?_eq_none.1 hfind p hp)
  | some q =>
    have hname : q.1 = p.1 := chunkRelativePath_inj (by simpa using List.find?_some hfind)
    obtain rfl : q = p := List.inj_on_of_nodup_map h.nodup (List.mem_of_find?_eq_some hfind) hp hname
    rfl

theorem sidecarAgrees_zmap (h : WellFiled sd) {name : Text} {c : ChunkMeta} {blockSize : Nat} {zmap : List ZoneMapEntry}
    (hp : (sidecarRelativePath name zmapKind, FileBody.zmap zmap) ∈ sd.files) :
    SidecarAgrees sd ⟨zmapKind, sidecarRelativePath c.relativePath zmapKind, c.generation,
      checksum64 (FileBody.zmap zmap).bytes, blockSize, zmap.length⟩
      (sidecarMetaOf (sidecarRelativePath name zmapKind) (.zmap zmap)) := by
  have hkind : (sidecarMetaOf (sidecarRelativePath name zmapKind) (.zmap zmap)).kind = zmapKind :=
    Text.afterLast_append (by decide) name
  refine ⟨hkind, rfl, rfl, ?_⟩
  unfold validateSidecarContent
  rw [if_pos hkind]
  have hread := readEntries_of (n := zmap.length) (h.lookup_of_mem hp) (by decide : 0 < 40) (length_zmap zmap)
  rw [show (sidecarMetaOf (sidecarRelativePath name zmapKind) (.zmap zmap)).relativePath = chunkRelativePath
    (sidecarRelativePath name zmapKind) from rfl, hread]
  simp [sidecarMetaOf]

theorem sidecarAgrees_vix (h : WellFiled sd) {name : Text} {c : ChunkMeta} {vix : List ValueIndexEntry}
    (hp : (sidecarRelativePath name vixKind, FileBody.vix vix) ∈ sd.files) :
    SidecarAgrees sd ⟨vixKind, sidecarRelativePath c.relativePath vixKind, c.generation,
      checksum64 (FileBody.vix vix).bytes, 0, vix.length⟩
      (sidecarMetaOf (sidecarRelativePath name vixKind) (.vix vix)) := by
  have hkind : (sidecarMetaOf (sidecarRelativePath name vixKind) (.vix vix)).kind = vixKind :=
    Text.afterLast_append (by decide) name
  refine ⟨hkind, rfl, rfl, ?_⟩
  have hread := readEntries_of (n := vix.length) (h.lookup_of_mem hp) (by decide : 0 < 16) (length_vix vix)
  unfold validateSidecarContent
  rw [if_neg (show ¬ (sidecarMetaOf (sidecarRelativePath name vixKind) (.vix vix)).kind = zmapKind from fun hz => by
    have := hkind.symm.trans hz
    revert this
    decide), if_pos hkind]
  rw [show (sidecarMetaOf (sidecarRelativePath name vixKind) (.vix vix)).relativePath = chunkRelativePath
    (sidecarRelativePath name vixKind) from rfl, hread]
  simp

/-- The file of a sidecar is found by its path. -/
theorem WellFiled.find_sidecar (h : WellFiled sd) (order : DirOrder) {p : Text × FileBody} (hp : p ∈ sd.files)
    (hn : isSidecarName p.1 = true) {rel : Text} (hrel : rel = chunkRelativePath p.1) :
    (scanSidecarFiles (order.1 sd.files)).find? (fun s =>
      decide (s.relativePath = rel)) = some (sidecarMetaOf p.1 p.2) := by
  subst hrel
  have hmem : ∀ q, q ∈ (order.1 sd.files).filter (fun q => isSidecarName q.1) ↔ q ∈ sd.files ∧
    isSidecarName q.1 = true := fun q => by
    rw [List.mem_filter, (order.2 sd.files).mem_iff]
  cases hfind : (scanSidecarFiles (order.1 sd.files)).find?
    (fun s => decide (s.relativePath = chunkRelativePath p.1)) with
  | none => exact absurd (decide_eq_true rfl) (List.find?_eq_none.1 hfind _ (List.mem_map_of_mem ((hmem p).2 ⟨hp, hn⟩)))
  | some a =>
    obtain ⟨q, hq, rfl⟩ := List.mem_map.1 (List.mem_of_find?_eq_some hfind)
    have hrel : (sidecarMetaOf q.1 q.2).relativePath = chunkRelativePath p.1 := by simpa using List.find?_some hfind
    have hname : q.1 = p.1 := chunkRelativePath_inj hrel
    obtain rfl : q = p := List.inj_on_of_nodup_map h.nodup ((hmem q).1 hq).1 hp hname
    rfl

/-- **Every sidecar entry finds its file, and the two agree.** -/
theorem GoodSeries.sidecar_found (h : GoodSeries C d sd m) (order : DirOrder) {c : ChunkMeta} (hc : c ∈ m.chunks)
    {s : SidecarMeta} (hs : s ∈ c.sidecars) :
    ∃ a, (scanSidecarFiles (order.1 sd.files)).find? (fun a => decide (a.relativePath = s.relativePath)) = some a ∧
      SidecarAgrees sd s a := by
  by_cases ht : m.recordType = .scalar
  · obtain ⟨name, blockSize, zmap, vix, hpath, hentries, hfiles⟩ := h.described.indexed ht c hc
    obtain ⟨n, f, hf, hn, -⟩ := h.described.stamped c hc
    obtain rfl : n = name := chunkRelativePath_inj (hn.symm.trans hpath)
    have hrel : ∀ ext, sidecarRelativePath c.relativePath ext = chunkRelativePath (sidecarRelativePath n ext) :=
      fun ext => by
      rw [hpath, sidecarRelativePath_chunk]
    rw [hentries] at hs
    rcases List.mem_cons.1 hs with rfl | hs
    · have hp := hfiles (sidecarRelativePath n zmapKind, .zmap zmap) List.mem_cons_self
      exact ⟨_, h.fits.filed.find_sidecar order hp (isSidecarName_of hf.2 (isChunkName_zmap n)) (hrel zmapKind),
        sidecarAgrees_zmap h.fits.filed hp⟩
    · obtain rfl := List.mem_singleton.1 hs
      have hp := hfiles (sidecarRelativePath n vixKind, .vix vix) (List.mem_cons_of_mem _ List.mem_cons_self)
      exact ⟨_, h.fits.filed.find_sidecar order hp (isSidecarName_of hf.2 (isChunkName_vix n)) (hrel vixKind),
        sidecarAgrees_vix h.fits.filed hp⟩
  · rw [(h.described.plain ht).2 c hc] at hs
    cases hs

/-- No sidecar is there that no entry names. -/
theorem GoodSeries.sidecars_tracked (h : GoodSeries C d sd m) (order : DirOrder) {a : SidecarMeta}
    (ha : a ∈ scanSidecarFiles (order.1 sd.files)) :
    a.relativePath ∈ (m.chunks.flatMap ChunkMeta.sidecars).map SidecarMeta.relativePath := by
  obtain ⟨p, hp, rfl⟩ := List.mem_map.1 ha
  obtain ⟨hmem, hn⟩ := List.mem_filter.1 hp
  have hfile := (order.2 sd.files).mem_iff.1 hmem
  by_cases ht : m.recordType = .scalar
  · obtain ⟨c, hc, hpath⟩ := h.described.covered ht p hfile hn
    obtain ⟨s, hs, hrel⟩ := List.mem_map.1 hpath
    exact List.mem_map.2 ⟨s, List.mem_flatMap.2 ⟨c, hc, hs⟩, hrel⟩
  · have := (h.described.plain ht).1 p hfile
    rw [hn] at this
    cases this

/-! ### The report -/

theorem overlapGroupsFrom_nil : ∀ {cs : List ChunkMeta} {c : ChunkMeta}, (c :: cs).Pairwise
      (fun a b => a.endTs < b.startTs) →
    overlapGroupsFrom [c] c.endTs cs = []
  | [], _, _ => rfl
  | b :: cs, c, h => by
    have hlt : ¬ b.startTs ≤ c.endTs := not_le.2 (List.rel_of_pairwise_cons h List.mem_cons_self)
    unfold overlapGroupsFrom
    rw [if_neg (by simp), if_neg hlt, overlapGroupsFrom_nil (List.Pairwise.of_cons h)]
    rfl

/-- Chunks one after another have no overlaps. -/
theorem overlapGroups_nil {cs : List ChunkMeta} (h : SpanChain cs) (hp : SpansProper cs) : overlapGroups cs = [] := by
  have hsorted : cs.Pairwise (fun a b => a.startTs ≤ b.startTs) := h.imp_of_mem (fun {a b} ha _ hab => by
    have := hp a ha
    omega)
  unfold overlapGroups
  rw [sortByKey_of_sorted _ hsorted]
  cases cs with
  | nil => rfl
  | cons c cs =>
    unfold overlapGroupsFrom
    exact overlapGroupsFrom_nil h

theorem checksumMismatchesOf_same (options : ValidationOptions) (checksum : Nat) (rel : Text) :
    checksumMismatchesOf options checksum checksum rel = [] :=
  if_neg (fun h => h.2.2 rfl)

/-- **Validation finds nothing in a series in order.** -/
theorem GoodSeries.validates (h : GoodSeries C d sd m) (hm : sd.manifest = .current m) (order : DirOrder)
    (options : ValidationOptions) :
    validateSeriesDir order options d sd = .ok (.nothing d true) := by
  obtain ⟨fsChunks, hscan, hsound, hcomplete⟩ := h.fits.files.scanned order
  have hlisted : (if sd.chunksDir = false then [] else scanSidecarFiles (order.1 sd.files)) = scanSidecarFiles
    (order.1 sd.files) := by
    by_cases hdir : sd.chunksDir = false
    · have hnil : sd.files = [] := by
        by_contra hne
        rw [h.fits.filed.dir hne] at hdir
        cases hdir
      rw [if_pos hdir, show order.1 sd.files = [] from List.Perm.eq_nil (hnil ▸ order.2 sd.files)]
      rfl
    · rw [if_neg hdir]
  have hchunk := fun c hc => h.chunk_found hsound hcomplete (c := c) hc
  have hside := fun c hc s hs => h.sidecar_found order (c := c) hc (s := s) hs
  unfold validateSeriesDir
  rw [hscan]
  simp only
  rw [hlisted, if_neg (by rw [hm]; simp [ManifestFile.isPresent]), SeriesDir.loadSeriesMeta_ok hm h.fits.valid]
  refine congrArg Except.ok ?_
  unfold ManifestValidation.nothing
  refine ManifestValidation.mk.injEq .. ▸ ⟨rfl, rfl, ?_, ?_, ?_, ?_, ?_, ?_, ?_, ?_⟩
  · rw [List.filter_eq_nil_iff]
    intro path hpath
    obtain ⟨c, hc, rfl⟩ := List.mem_map.1 hpath
    obtain ⟨a, ha, -, -⟩ := hchunk c hc
    simp [ha]
  · rw [List.filter_eq_nil_iff]
    intro path hpath
    obtain ⟨s, hs, rfl⟩ := List.mem_map.1 hpath
    obtain ⟨c, hc, hsc⟩ := List.mem_flatMap.1 hs
    obtain ⟨a, ha, -⟩ := hside c hc s hsc
    simp [ha]
  · rw [List.flatMap_eq_nil_iff]
    intro c hc
    obtain ⟨a, ha, -, hsum⟩ := hchunk c hc
    simp only [ha]
    refine List.append_eq_nil_iff.2 ⟨by simp [hsum, checksumMismatchesOf_same],
      List.flatMap_eq_nil_iff.2 (fun s hs => ?_)⟩
    obtain ⟨b, hb, hagree⟩ := hside c hc s hs
    simp [hb, hagree.checksum, checksumMismatchesOf_same]
  · rw [List.flatMap_eq_nil_iff]
    intro c hc
    obtain ⟨a, ha, hfields, -⟩ := hchunk c hc
    simp [ha, hfields]
  · rw [List.flatMap_eq_nil_iff]
    intro s hs
    obtain ⟨c, hc, hsc⟩ := List.mem_flatMap.1 hs
    obtain ⟨a, ha, hagree⟩ := hside c hc s hsc
    simp [ha, hagree.kind, hagree.generation, hagree.content]
  · have hnil : (fsChunks.map ChunkMeta.relativePath).filter (fun path =>
      !(m.chunks.map ChunkMeta.relativePath).contains path) = [] := by
      rw [List.filter_eq_nil_iff]
      intro path hpath
      obtain ⟨a, ha, rfl⟩ := List.mem_map.1 hpath
      rw [List.contains_iff_mem.2 (h.chunks_tracked hsound ha)]
      exact Bool.false_ne_true
    rw [hnil]
    rfl
  · have hnil : ((scanSidecarFiles (order.1 sd.files)).map SidecarMeta.relativePath).filter
        (fun path => !((m.chunks.flatMap ChunkMeta.sidecars).map SidecarMeta.relativePath).contains path) = [] := by
      rw [List.filter_eq_nil_iff]
      intro path hpath
      obtain ⟨a, ha, rfl⟩ := List.mem_map.1 hpath
      rw [List.contains_iff_mem.2 (h.sidecars_tracked order ha)]
      exact Bool.false_ne_true
    rw [hnil]
    rfl
  · unfold overlapGroupsAsStrings
    rw [overlapGroups_nil h.fits.chain.1 h.fits.chain.2]
    rfl

end Series

/-! ## Healthy runs -/

theorem Run.noTemps {root : Dir} {Ok : Env → Call → Store → Prop} {n : Nat} {s : Store} (h : Run root Ok n s) :
    s.NoTemps := by
  induction h with
  | start => rfl
  | call env c _ _ ih => exact c.run_cleansUp env _ ih

theorem validateSeriesDir_empty {sd : SeriesDir} (hm : sd.manifest = .missing) (hf : sd.files = []) (order : DirOrder)
    (options : ValidationOptions) (d : Dir) : validateSeriesDir order options d sd = .ok (.nothing d false) := by
  have hnil : order.1 sd.files = [] := List.Perm.eq_nil (hf ▸ order.2 sd.files)
  have hscan : scanChunkFiles order sd = .ok [] := by
    unfold scanChunkFiles
    split
    · rfl
    · simp only
      rw [hnil]
      rfl
  unfold validateSeriesDir
  rw [hscan]
  simp only
  rw [if_pos (by rw [hm]; rfl), hnil]
  split <;> rfl

/-- **Validation finds nothing in any directory of a store that healthy calls under names that go down have built**:
every series is clean. -/
theorem healthy_runs_validate {root : Dir} {n : Nat} {s : Store} (h : Run root HealthyPlain n s) (order : DirOrder)
    (options : ValidationOptions) (d : Dir) :
    ∃ v, validateSeriesDir order options d (s.seen d) = .ok v ∧ v = .nothing d (s.dirs d).manifest.isPresent ∧
      v.isClean = (s.dirs d).manifest.isPresent := by
  obtain ⟨C, hg⟩ := h.unplain.healthy
  rw [h.noTemps.seen d]
  refine ⟨_, ?_, rfl, by cases (s.dirs d).manifest.isPresent <;> rfl⟩
  cases hg.dir d with
  | empty hm hf =>
    rw [hm]
    exact validateSeriesDir_empty hm hf order options d
  | series hm hs =>
    rw [hm]
    exact hs.validates hm order options

theorem healthy_runs_validate_sample : ∃ v,
    validateSeriesDir .asListed ⟨true, true⟩ (klineSeriesDir "X" "1m")
    (sampleJanuary.seen (klineSeriesDir "X" "1m")) = .ok v ∧
      v = .nothing (klineSeriesDir "X" "1m") (sampleJanuary.dirs (klineSeriesDir "X" "1m")).manifest.isPresent ∧
      v.isClean = (sampleJanuary.dirs (klineSeriesDir "X" "1m")).manifest.isPresent :=
  healthy_runs_validate sampleJanuary_run .asListed ⟨true, true⟩ (klineSeriesDir "X" "1m")

/-- The calls of `range_append_loses_month`. -/
def sampleLostMonthCalls : List Call :=
  [.registerScalar ⟨"S", "x/y", "z"⟩ 60000, .appendScalarRange sampleAlias sampleTwoMonths none]

def sampleLostMonth : Store := runCalls (Env.plain 5) sampleLostMonthCalls (Store.empty [])

/-- An append under other names that answers leaves a series whose first month is reported as untracked. -/
theorem range_append_unclean : ¬ ∀ root n s, Run root (fun env c s => env.Faultless ∧ c.Typed s ∧ c.Fits) n s →
    n < 2 ^ 31 →
    ∀ (order : DirOrder) (options : ValidationOptions) (d : Dir), (s.dirs d).manifest.isPresent = true →
      ∃ v, validateSeriesDir order options d (s.seen d) = .ok v ∧ v.isClean = true := by
  intro h
  have htyped : (Call.appendScalarRange sampleAlias sampleTwoMonths none).Typed sampleScalarStore := by
    show OfType .scalar (sampleScalarStore.dirs sampleAlias.dir)
    decide +kernel
  have hok : CallsOk (Env.plain 5) (fun env c s => env.Faultless ∧ c.Typed s ∧
    c.Fits) sampleLostMonthCalls (Store.empty []) :=
    ⟨⟨plain_faultless 5, trivial, trivial⟩, ⟨plain_faultless 5, htyped, trivial⟩, trivial⟩
  have hpresent : (sampleLostMonth.dirs sampleAlias.dir).manifest.isPresent = true := by decide +kernel
  obtain ⟨v, hv, hclean⟩ := h [] 2 sampleLostMonth (Run.start.calls hok) (by decide) .asListed
    ⟨false, true⟩ sampleAlias.dir hpresent
  have hreport : ((validateSeriesDir .asListed
    ⟨false, true⟩ sampleAlias.dir (sampleLostMonth.seen sampleAlias.dir)).toOption.map
      ManifestValidation.isClean) = some false := by decide +kernel
  rw [hv] at hreport
  exact absurd (hclean.symm.trans (Option.some.inj hreport)) (by decide)

end FastK
