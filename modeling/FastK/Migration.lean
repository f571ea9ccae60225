import FastK.Inspection
import FastK.Validation
/-!
# Series of the first format

A manifest of the first format describes chunk files of version 1, whose headers know no id, no generation and no
sparse index. The migration (`migrate_legacy_json`, `storage/manifest.rs`) gives the entries an id, generation 1 and
the index interval of new chunks; the scan of a directory reads 0 for all three from the headers.  What is read of a
migrated series is what it was (`migrated_reads`); but validation reports every chunk, and a rebuild refuses the
intervals it reads (`migrates_healthy_iff`).
-/
namespace FastK

open Journal

/-! ## Rebuilding every manifest -/

/-- The loop body of `rebuild_all_manifests_from_fs`: a directory without chunk files is left as it is. -/
def rebuildSeries (env : Env) (d : Dir) : Op Bool := do
  let s ← Prog.look
  let chunks ← Prog.lift (scanChunkFiles env.order (s.dirs d))
  if chunks.isEmpty then pure false
  else do
    let m ← Prog.lift (rebuildManifest env.now (s.root ++ "series".toList :: d) env.order (s.dirs d))
    saveSeriesMeta env d m
    pure true

/-! ## Files of version 1 -/

/-- The directory holds a file of version 1 for every chunk of the JSON, with rows in the range and of the number it
says. -/
structure MatchesV1 (legacy : LegacySeriesMeta) (sd : SeriesDir) (rowsOf : LegacyChunkMeta → List KlineRecord) :
    Prop where
  files : sd.files.Perm
    (legacy.chunks.map (fun c =>
      (c.fileName, FileBody.chunk (chunkFileV1 legacy.seriesId legacy.timeframeMs (rowsOf c)))))
  names : (legacy.chunks.map LegacyChunkMeta.fileName).Nodup
  chunkNames : ∀ c ∈ legacy.chunks, isChunkName c.fileName = true
  chunksDir : legacy.chunks ≠ [] → sd.chunksDir = true
  rows : ∀ c ∈ legacy.chunks, rowsOf c ≠ [] ∧ Ordered (rowsOf c)
  described : ∀ c ∈ legacy.chunks, c.startTs = firstTs (rowsOf c) ∧ c.endTs = lastTs (rowsOf c) ∧
    c.count = (rowsOf c).length
  fits : byteSizeV1 + (legacy.chunks.flatMap rowsOf).length * FixedRecord.byteSize KlineRecord < u64Bound

/-- The directory with the migrated manifest saved. -/
def SeriesDir.migrated (sd : SeriesDir) (m : SeriesMeta) : SeriesDir := { sd with manifest := .current m }

section Migrated

variable {legacy : LegacySeriesMeta} {sd : SeriesDir} {rowsOf : LegacyChunkMeta → List KlineRecord} {now : Int}
    {m : SeriesMeta}

theorem migrateLegacyJson_eq_ok (h : migrateLegacyJson now legacy = .ok m) :
    m.validate = .ok () ∧ m.recordType = .kline ∧
      List.Forall₂ (fun l c => ∃ i, migrateChunk i l = .ok c) legacy.chunks m.chunks := by
  unfold migrateLegacyJson at h
  cases hc : collect (fun p => migrateChunk p.2 p.1) legacy.chunks.zipIdx with
  | error e =>
    rw [hc] at h
    cases h
  | ok chunks =>
    rw [hc] at h
    obtain ⟨hv, rfl⟩ := checked_eq_ok.1 h
    refine ⟨hv, rfl, ?_⟩
    have hall := (collect_eq_ok hc).imp (S := fun p c => ∃ i, migrateChunk i p.1 = .ok c) (fun p c hpc => ⟨p.2, hpc⟩)
    have := (List.forall₂_map_left_iff (R := fun l c => ∃ i, migrateChunk i l = .ok c) (f := Prod.fst)).2 hall
    rwa [List.zipIdx_map_fst] at this

/-- What a migrated entry says of its file, and what it makes up. -/
structure MigratedFrom (l : LegacyChunkMeta) (c : ChunkMeta) : Prop where
  path : c.relativePath = chunkRelativePath l.fileName
  startTs : c.startTs = l.startTs
  endTs : c.endTs = l.endTs
  count : c.count = l.count
  generation : c.generation = 1

theorem migrateChunk_eq_ok {i : Nat} {l : LegacyChunkMeta} {c : ChunkMeta} (h : migrateChunk i l = .ok c) :
    MigratedFrom l c := by
  unfold migrateChunk at h
  split at h
  · cases h
  · rw [← Except.ok.inj h]
    exact ⟨rfl, rfl, rfl, rfl, rfl⟩

theorem migrated_entries (h : migrateLegacyJson now legacy = .ok m) :
    List.Forall₂ MigratedFrom legacy.chunks m.chunks :=
  (migrateLegacyJson_eq_ok h).2.2.imp (fun _ _ ⟨_, hc⟩ => migrateChunk_eq_ok hc)

theorem MatchesV1.mem_files (hm : MatchesV1 legacy sd rowsOf) {p : Text × FileBody} :
    p ∈ sd.files ↔ ∃ l ∈ legacy.chunks, (l.fileName,
      FileBody.chunk (chunkFileV1 legacy.seriesId legacy.timeframeMs (rowsOf l))) = p := by
  rw [hm.files.mem_iff, List.mem_map]

theorem MatchesV1.wellFiled (hm : MatchesV1 legacy sd rowsOf) : WellFiled sd where
  nodup := by
    have := (hm.files.map Prod.fst).nodup_iff.2 (by rw [List.map_map]; exact hm.names)
    exact this
  chunk p hp _ := by
    obtain ⟨l, -, rfl⟩ := hm.mem_files.1 hp
    exact ⟨_, rfl⟩
  sidecar p hp hn := by
    obtain ⟨l, hl, rfl⟩ := hm.mem_files.1 hp
    unfold isSidecarName at hn
    rw [hm.chunkNames l hl] at hn
    cases hn
  dir hne := by
    obtain ⟨p, hp⟩ := List.exists_mem_of_ne_nil _ hne
    obtain ⟨l, hl, -⟩ := hm.mem_files.1 hp
    exact hm.chunksDir (List.ne_nil_of_mem hl)

theorem MatchesV1.hasChunk (hm : MatchesV1 legacy sd rowsOf) {l : LegacyChunkMeta} (hl : l ∈ legacy.chunks) :
    HasChunk sd l.fileName (chunkFileV1 legacy.seriesId legacy.timeframeMs (rowsOf l)) :=
  ⟨hm.mem_files.2 ⟨l, hl, rfl⟩, hm.chunkNames l hl⟩

theorem MatchesV1.holds (hm : MatchesV1 legacy sd rowsOf) {l : LegacyChunkMeta} (hl : l ∈ legacy.chunks) :
    Holds KlineRecord (chunkFileV1 legacy.seriesId legacy.timeframeMs (rowsOf l)) (rowsOf l) := by
  obtain ⟨hne, ho⟩ := hm.rows l hl
  refine holds_chunkFileV1 legacy.seriesId legacy.timeframeMs ho hne ?_
  have hle : (rowsOf l).length ≤ (legacy.chunks.flatMap rowsOf).length := by
    rw [List.length_flatMap]
    exact List.le_sum_of_mem (List.mem_map_of_mem hl)
  have hmul := Nat.mul_le_mul_right (FixedRecord.byteSize KlineRecord) hle
  have := hm.fits
  omega

/-- A file of version 1 as it is scanned. -/
theorem MatchesV1.scanned (hm : MatchesV1 legacy sd rowsOf) {order : DirOrder} {cs : List ChunkMeta}
    (hcs : scanChunkFiles order sd = .ok cs) {a : ChunkMeta} (ha : a ∈ cs) :
    a.generation = 0 ∧ a.sparseIndexEvery = 0 := by
  obtain ⟨p, hp, -, f, key, sidecars, hb, -, -, rfl⟩ := mem_scan hcs ha
  obtain ⟨l, -, rfl⟩ := hm.mem_files.1 hp
  obtain rfl := FileBody.chunk.inj hb
  exact ⟨rfl, rfl⟩

/-! ## Reads -/

/-- **What is read of a migrated series are the rows of its files.** -/
theorem migrated_reads (h : migrateLegacyJson now legacy = .ok m) (hm : MatchesV1 legacy sd rowsOf) (threads : Nat) :
    KlineReads threads (sd.migrated m) m (legacy.chunks.flatMap rowsOf) := by
  obtain ⟨hv, -, -⟩ := migrateLegacyJson_eq_ok h
  have hw : WellFiled (sd.migrated m) := ⟨hm.wellFiled.nodup, hm.wellFiled.chunk, hm.wellFiled.sidecar,
    hm.wellFiled.dir⟩
  have hentries := migrated_entries h
  obtain ⟨rowsAt, hrow⟩ : ∃ rowsAt : ChunkMeta → List KlineRecord, ∀ l ∈ legacy.chunks, ∀ c, MigratedFrom l c →
    rowsAt c = rowsOf l :=
    ⟨rowsIn .kline (sd.migrated m), fun l hl c hc => rowsIn_eq (t := .kline) hw (hm.hasChunk hl) hc.path (hm.holds hl)⟩
  have hstored : Stored KlineRecord (sd.migrated m) m rowsAt := by
    refine ⟨rfl, hv, fun c hc => ?_⟩
    obtain ⟨l, hl, hlc⟩ := exists_of_mem_forall₂ hentries hc
    obtain ⟨h1, h2, h3⟩ := hm.described l hl
    refine ⟨chunkFileV1 legacy.seriesId legacy.timeframeMs (rowsOf l), ?_, ?_, hlc.startTs.trans h1,
      hlc.endTs.trans h2, hlc.count.trans h3⟩
    · rw [hlc.path]
      exact hw.lookup (hm.hasChunk hl)
    · rw [hrow l hl c hlc]
      exact hm.holds hl
  have hrows : m.chunks.flatMap rowsAt = legacy.chunks.flatMap rowsOf := by
    have hpair : List.Forall₂ (fun l c => l ∈ legacy.chunks ∧ MigratedFrom l c) legacy.chunks m.chunks :=
      (List.forall₂_and_left _ _).2 ⟨fun _ hl => hl, hentries⟩
    exact (forall₂_flatMap (hpair.imp (fun l c h => hrow l h.1 c h.2))).symm
  have hfit := hm.fits
  have := hstored.klineReads (by rw [hrows]; omega) threads
  rwa [hrows] at this

/-! ## Validation and rebuilding -/

/-- **A migrated chunk is reported**: the report is clean only where there are no chunks. -/
theorem migrated_unclean (h : migrateLegacyJson now legacy = .ok m) (hm : MatchesV1 legacy sd rowsOf)
    {order : DirOrder} {options : ValidationOptions} {d : Dir} {v : ManifestValidation}
    (hv : validateSeriesDir order options d (sd.migrated m) = .ok v) (hclean : v.isClean = true) :
    legacy.chunks = [] := by
  by_contra hne
  have hm' : MatchesV1 legacy (sd.migrated m) rowsOf := ⟨hm.files, hm.names, hm.chunkNames, hm.chunksDir, hm.rows,
    hm.described, hm.fits⟩
  have hload : (sd.migrated m).loadSeriesMeta = .ok m := SeriesDir.loadSeriesMeta_ok rfl (migrateLegacyJson_eq_ok h).1
  have hchunks : m.chunks ≠ [] :=
    fun hnil => hne (List.eq_nil_of_length_eq_zero (by rw [(migrated_entries h).length_eq, hnil]; rfl))
  obtain ⟨c, hc⟩ := List.exists_mem_of_ne_nil _ hchunks
  obtain ⟨l, -, hlc⟩ := exists_of_mem_forall₂ (migrated_entries h) hc
  unfold validateSeriesDir at hv
  cases hcs : scanChunkFiles order (sd.migrated m) with
  | error e =>
    rw [hcs] at hv
    cases hv
  | ok cs =>
    rw [hcs] at hv
    simp only at hv
    rw [if_neg (by simp [SeriesDir.migrated, ManifestFile.isPresent]), hload] at hv
    simp only at hv
    rw [← Except.ok.inj hv] at hclean
    unfold ManifestValidation.isClean at hclean
    simp only [Bool.and_eq_true, List.isEmpty_iff] at hclean
    obtain ⟨⟨⟨⟨⟨⟨⟨⟨-, hmissing⟩, -⟩, -⟩, hfields⟩, -⟩, -⟩, -⟩, -⟩ := hclean
    cases hfind : cs.find? (fun a => decide (a.relativePath = c.relativePath)) with
    | none =>
      have := List.filter_eq_nil_iff.1 hmissing c.relativePath (List.mem_map_of_mem hc)
      rw [hfind] at this
      exact this rfl
    | some a =>
      have hgen : a.generation = 0 := (hm'.scanned hcs (List.mem_of_find?_eq_some hfind)).1
      have hdiff : c.scannedFields ≠ a.scannedFields := by
        intro heq
        have hsecond := congrArg (fun fields : List Int => fields[1]?) heq
        simp only [ChunkMeta.scannedFields] at hsecond
        rw [hlc.generation, hgen] at hsecond
        simp at hsecond
      have := List.flatMap_eq_nil_iff.1 hfields c hc
      rw [hfind] at this
      simp [hdiff] at this

/-- A rebuild refuses the files of version 1: the only one that succeeds leaves a directory without chunk files as it
is. -/
theorem migrated_rebuild_fails (hm : MatchesV1 legacy sd rowsOf) {env : Env} {d : Dir} {s : Store}
    (hs : s.dirs d = sd.migrated m) {b : Bool} (hrun : (rebuildSeries env d).result s = .ok b) : b = false := by
  have hm' : MatchesV1 legacy (sd.migrated m) rowsOf := ⟨hm.files, hm.names, hm.chunkNames, hm.chunksDir, hm.rows,
    hm.described, hm.fits⟩
  unfold rebuildSeries at hrun
  obtain ⟨t, ht, hrun⟩ := Prog.result_bind_eq_ok.1 hrun
  obtain rfl := Except.ok.inj ht
  obtain ⟨cs, hcs, hrun⟩ := Prog.result_bind_eq_ok.1 hrun
  have hcs' : scanChunkFiles env.order (sd.migrated m) = .ok cs := hs ▸ hcs
  by_cases hempty : cs.isEmpty = true
  · rw [if_pos hempty] at hrun
    exact (Except.ok.inj hrun).symm
  · rw [if_neg hempty] at hrun
    obtain ⟨m', hre, -⟩ := Prog.result_bind_eq_ok.1 hrun
    obtain ⟨hvalid, hmem, hne⟩ := rebuildManifest_eq_ok (hs ▸ hcs' : scanChunkFiles env.order (s.dirs d) = .ok cs) hre
    obtain ⟨c, hc⟩ := List.exists_mem_of_ne_nil _ hne
    have hevery : c.sparseIndexEvery = 0 := (hm'.scanned hcs' (hmem c hc)).2
    exact absurd hevery (ChunkMeta.validate_eq_ok.1 (SeriesMeta.chunk_validate_of_validate hvalid c hc)).2.2

end Migrated

/-! ## Where migration leaves a healthy series -/

/-- The series at the directory validates clean, its reads answer with the rows, and it can be rebuilt and answers the
same. -/
structure MigratesHealthy (env : Env) (d : Dir) (s : Store) (m : SeriesMeta) (rows : List KlineRecord) : Prop where
  clean : ∀ order options, ∃ v, validateSeriesDir order options d (s.dirs d) = .ok v ∧ v.isClean = true
  reads : ∀ threads, KlineReads threads (s.dirs d) m rows
  rebuilds : ∃ b, (rebuildSeries env d).result s = .ok b
  rebuilt : ∃ m', (((rebuildSeries env d).final s).dirs d).manifest = .current m' ∧
    ∀ threads, KlineReads threads (((rebuildSeries env d).final s).dirs d) m' rows

theorem scan_no_files {sd : SeriesDir} (hf : sd.files = []) (order : DirOrder) : scanChunkFiles order sd = .ok [] := by
  have hempty : order.1 sd.files = [] := by
    rw [hf]
    exact List.perm_nil.1 (order.2 [])
  unfold scanChunkFiles
  by_cases hdir : sd.chunksDir = false
  · rw [if_pos hdir]
  · rw [if_neg hdir, hempty]
    rfl

theorem validate_no_files {sd : SeriesDir} {m : SeriesMeta} (hf : sd.files = []) (hm : sd.manifest = .current m)
    (hv : m.validate = .ok ()) (hc : m.chunks = []) (order : DirOrder) (options : ValidationOptions) (d : Dir) :
    validateSeriesDir order options d sd = .ok (ManifestValidation.nothing d true) := by
  have hempty : order.1 sd.files = [] := by
    rw [hf]
    exact List.perm_nil.1 (order.2 [])
  unfold validateSeriesDir
  rw [scan_no_files hf order]
  simp only
  rw [if_neg (by rw [hm]; exact Bool.noConfusion), SeriesDir.loadSeriesMeta_ok hm hv]
  simp only
  rw [hc, hempty]
  cases sd.chunksDir <;> rfl

theorem rebuildSeries_no_files {env : Env} {d : Dir} {s : Store} (hf : (s.dirs d).files = []) :
    rebuildSeries env d s = ([], .ok false) := by
  have hscan := scan_no_files hf env.order
  unfold rebuildSeries
  show Prog.bind Prog.look _ s = _
  unfold Prog.bind Prog.look
  simp only [exec, List.foldl_nil, List.nil_append]
  show Prog.bind (Prog.lift _) _ s = _
  unfold Prog.bind Prog.lift
  rw [hscan]
  rfl

/-- **A series of the first format comes out healthy exactly if it has no chunks.** -/
theorem migrates_healthy_iff {now : Int} {legacy : LegacySeriesMeta} {m : SeriesMeta} {sd : SeriesDir}
    {rowsOf : LegacyChunkMeta → List KlineRecord} (hmig : migrateLegacyJson now legacy = .ok m)
    (hmatch : MatchesV1 legacy sd rowsOf) {s : Store} {d : Dir} (hs : s.dirs d = sd.migrated m) (env : Env) :
    MigratesHealthy env d s m (legacy.chunks.flatMap rowsOf) ↔ legacy.chunks = [] := by
  constructor
  · intro h
    obtain ⟨v, hv, hclean⟩ := h.clean .asListed ⟨false, false⟩
    rw [hs] at hv
    exact migrated_unclean hmig hmatch hv hclean
  · intro hnil
    have hvalid := (migrateLegacyJson_eq_ok hmig).1
    have hfiles : (s.dirs d).files = [] := by
      rw [hs]
      have := hmatch.files
      rw [hnil] at this
      exact List.perm_nil.1 this
    have hchunks : m.chunks = [] := by
      have := migrated_entries hmig
      rw [hnil] at this
      exact List.forall₂_nil_left_iff.1 this
    have hmanifest : (s.dirs d).manifest = .current m := by rw [hs]; rfl
    have hreads : ∀ threads, KlineReads threads (s.dirs d) m (legacy.chunks.flatMap rowsOf) := by
      rw [hs]
      exact migrated_reads hmig hmatch
    have hrebuild : rebuildSeries env d s = ([], .ok false) := rebuildSeries_no_files hfiles
    refine ⟨fun order options => ⟨_, validate_no_files hfiles hmanifest hvalid hchunks order options d, rfl⟩, hreads,
      ⟨false, ?_⟩, m, ?_⟩
    · exact congrArg Prod.snd hrebuild
    · have hfinal : (rebuildSeries env d).final s = s := Prog.final_of_run hrebuild
      rw [hfinal]
      exact ⟨hmanifest, hreads⟩

/-! ### A series of one old chunk -/

def sampleLegacyChunk : LegacyChunkMeta := ⟨"1970-01.chunk", 0, 60000, 2⟩

def sampleLegacyV1 : LegacySeriesMeta := { sampleLegacy with symbol := "BTCUSDT", chunks := [sampleLegacyChunk] }

def sampleDirV1 : SeriesDir := { sampleSeries with files := [("1970-01.chunk", .chunk sampleOldFile)] }

/-- The store of the series, with the manifest that migration has saved. -/
def sampleStoreV1 (m : SeriesMeta) : Store :=
  (Store.empty []).modify (seriesDir "BTCUSDT" klineCategory "1m") (fun _ => sampleDirV1.migrated m)

theorem sampleDirV1_matches : MatchesV1 sampleLegacyV1 sampleDirV1 (fun _ => sampleOldRows) where
  files := List.Perm.refl _
  names := by decide
  chunkNames := by decide
  chunksDir _ := rfl
  rows _ _ := ⟨by decide, ordered_klines.2 (by decide)⟩
  described := by decide
  fits := by decide

theorem sampleLegacyV1_migrates : ∃ m, migrateLegacyJson 0 sampleLegacyV1 = .ok m := by
  have hok : (migrateLegacyJson 0 sampleLegacyV1).isOk = true := by decide +kernel
  cases h : migrateLegacyJson 0 sampleLegacyV1 with
  | ok m => exact ⟨m, rfl⟩
  | error e =>
    rw [h] at hok
    cases hok

theorem migrates_healthy_sample : ∃ m, migrateLegacyJson 0 sampleLegacyV1 = .ok m ∧
    ¬ MigratesHealthy (Env.plain 0) (seriesDir "BTCUSDT" klineCategory "1m") (sampleStoreV1 m) m sampleOldRows := by
  obtain ⟨m, hm⟩ := sampleLegacyV1_migrates
  have h := migrates_healthy_iff hm sampleDirV1_matches (Store.modify_dirs_self _ _ _ : (sampleStoreV1 m).dirs _ = _)
    (Env.plain 0)
  exact ⟨m, hm, fun healthy => absurd (h.1 healthy) (by decide)⟩

/-- One chunk of version 1, alone in its series: validation reports it once its manifest is migrated. -/
theorem migrated_chunk_unhealthy :
    ¬ ∀ (now : Int) (legacy : LegacySeriesMeta) (m : SeriesMeta) (sd : SeriesDir)
    (rowsOf : LegacyChunkMeta → List KlineRecord),
      migrateLegacyJson now legacy = .ok m → MatchesV1 legacy sd rowsOf → legacy.chunks.Pairwise
        (fun a b => a.endTs < b.startTs) →
      ∀ (s : Store) (d : Dir), s.dirs d = sd.migrated m →
        ∀ env, MigratesHealthy env d s m (legacy.chunks.flatMap rowsOf) := by
  intro h
  obtain ⟨m, hm⟩ := sampleLegacyV1_migrates
  have healthy := h 0 sampleLegacyV1 m sampleDirV1 _ hm sampleDirV1_matches (by decide) (sampleStoreV1 m) _
    (Store.modify_dirs_self _ _ _) (Env.plain 0)
  obtain ⟨v, hv, hclean⟩ := healthy.clean .asListed ⟨false, false⟩
  have hat : (sampleStoreV1 m).dirs (seriesDir "BTCUSDT" klineCategory "1m") = sampleDirV1.migrated m :=
    Store.modify_dirs_self _ _ _
  rw [hat] at hv
  exact absurd (migrated_unclean hm sampleDirV1_matches hv hclean) (by decide)

end FastK
