import FastK.Content
/-!
# Recovery of what a series directory holds

A directory whose files are all described by the manifest is left alone (`recover_quiet`).  One untracked chunk file
is adopted when it is newer than what it meets and spans it (`recover_orphan`); a directory with chunks and no
manifest gets one back when it held scalars (`recover_rebuild`).  Monthly series stay in order whatever is adopted
(`SeriesOk.recovered`).
-/
namespace FastK

open Spans Versioned

/-! ## Scans -/

/-- The entry is what a scan makes of the file. -/
structure ScanOf (y : ChunkMeta) (name : Text) (f : ChunkFile) : Prop where
  entry : EntryOf y name f
  key : monthKey f.header.startTs = .ok y.monthKey
  readable : Readable y
  state : y.state = decodeChunkState name

/-- The entries a scan of the directory gives. -/
structure Scans (sd : SeriesDir) (cs : List ChunkMeta) : Prop where
  sound : ∀ y ∈ cs, ∃ name f, HasChunk sd name f ∧ ScanOf y name f
  complete : ∀ name f, HasChunk sd name f → ∃ y ∈ cs, ScanOf y name f
  once : (cs.map ChunkMeta.relativePath).Nodup

theorem ScannedAs.scanOf {p : Text × FileBody} {y : ChunkMeta} {f : ChunkFile} (h : ScannedAs p y)
    (hb : p.2 = .chunk f) : ScanOf y p.1 f := by
  have hr := h.readable
  obtain ⟨f', key, sidecars, hb', hf, hk, hside, rfl⟩ := h
  obtain rfl : f' = f := FileBody.chunk.inj (hb'.symm.trans hb)
  exact ⟨⟨rfl, rfl, rfl, rfl, Nat.mod_eq_of_lt hf.generation_lt, rfl, hside⟩, hk, hr, rfl⟩

theorem FilesOk.scans {sd : SeriesDir} {t : RecordType} {u : PartitionUnit} (h : FilesOk sd t u) (order : DirOrder) :
    ∃ cs, scanChunkFiles order sd = .ok cs ∧ Scans sd cs := by
  by_cases hnil : sd.files = []
  · refine ⟨[], ?_, ⟨by simp, fun name f hf => ?_, by simp⟩⟩
    · unfold scanChunkFiles
      split
      · rfl
      · have : order.1 sd.files = [] := List.Perm.eq_nil (hnil ▸ order.2 sd.files)
        simp only
        rw [this]
        rfl
    · have := hf.1
      rw [hnil] at this
      cases this
  · have hscan : Scannable sd := by
      refine ⟨h.filed.dir hnil, fun p hp hn => ?_, h.filed.sidecar⟩
      obtain ⟨f, hb⟩ := h.filed.chunk p hp hn
      have hhas : HasChunk sd p.1 f := ⟨by rw [← hb]; exact hp, hn⟩
      obtain ⟨key, rows, ho⟩ := h.file p.1 f hhas
      exact ⟨f, hb, ho.complete⟩
    obtain ⟨cs, hcs, hsound, hcomplete, hperm⟩ := scanChunkFiles_ok hscan order
    refine ⟨cs, hcs, ?_, ?_, ?_⟩
    · intro y hy
      obtain ⟨p, hp, hn, hs⟩ := hsound y hy
      obtain ⟨f, hb⟩ := h.filed.chunk p hp hn
      exact ⟨p.1, f, ⟨by rw [← hb]; exact hp, hn⟩, hs.scanOf hb⟩
    · intro name f hf
      obtain ⟨y, hy, hs⟩ := hcomplete _ hf.1 hf.2
      exact ⟨y, hy, hs.scanOf rfl⟩
    · refine hperm.nodup_iff.2 ?_
      rw [show (fun p : Text × FileBody => chunkRelativePath p.1) = chunkRelativePath ∘ Prod.fst from rfl,
        ← List.map_map]
      exact (h.filed.nodup.sublist (List.Sublist.map _ List.filter_sublist)).map (fun _ _ => chunkRelativePath_inj)

/-- Entries of one file are the same for the fold. -/
theorem EntryOf.describes {y c : ChunkMeta} {name : Text} {f : ChunkFile} (hy : EntryOf y name f)
    (hc : EntryOf c name f) :
    Describes ChunkMeta.startTs ChunkMeta.endTs ChunkMeta.generation ChunkMeta.relativePath y c :=
  ⟨hy.path.trans hc.path.symm, hy.generation.trans hc.generation.symm, hy.startTs.trans hc.startTs.symm,
    hy.endTs.trans hc.endTs.symm⟩

theorem Scans.nil_iff {sd : SeriesDir} {cs : List ChunkMeta} (h : Scans sd cs) :
    cs = [] ↔ ∀ name f, ¬ HasChunk sd name f := by
  constructor
  · rintro rfl name f hf
    obtain ⟨y, hy, -⟩ := h.complete name f hf
    cases hy
  · intro hno
    rw [List.eq_nil_iff_forall_not_mem]
    intro y hy
    obtain ⟨name, f, hf, -⟩ := h.sound y hy
    exact hno name f hf

theorem Scans.readable {sd : SeriesDir} {cs : List ChunkMeta} (h : Scans sd cs) : ∀ c ∈ cs, Readable c := by
  intro c hc
  obtain ⟨name, f, -, hs⟩ := h.sound c hc
  exact hs.readable

/-! ## Recovery with a manifest -/

/-- The entries after recovery: those of the manifest, settled, with the files folded in. -/
theorem SeriesOk.recover {d : Dir} {sd : SeriesDir} {m : SeriesMeta} (h : SeriesOk d sd m) (now : Int) (path : Dir)
    (order : DirOrder) (report : RecoveryReport) :
    ∃ cs saves report', Scans sd cs ∧ recoverSeriesDir now path order ⟨false⟩ sd report = (saves, .ok report') ∧
      (saves = [] ∧ recoveredChunks m cs = m.chunks ∨ saves = [recoveredMeta now m (recoveredChunks m cs)]) := by
  obtain ⟨cs, hcs, hscan⟩ := h.files.scans order
  have hload := SeriesDir.loadSeriesMeta_ok h.manifest_eq h.valid
  by_cases hnil : cs = []
  · have hchunks : m.chunks = [] := by
      rw [List.eq_nil_iff_forall_not_mem]
      intro c hc
      obtain ⟨name, f, rows, hf, -⟩ := h.tracked c hc
      exact (hscan.nil_iff.1 hnil) name f hf
    refine ⟨cs, [], report, hscan, ?_, .inl ⟨rfl, ?_⟩⟩
    · unfold recoverSeriesDir
      rw [hcs]
      simp [hnil]
    · rw [hnil, recoveredChunks, hchunks]
      rfl
  · obtain ⟨saves, report', hrec, hs⟩ := recoverFrom_ok now path report h.valid h.count_pos hscan.readable
    exact ⟨cs, saves, report', hscan, by rw [recoverSeriesDir_of_manifest hcs hnil hload, hrec], hs⟩

/-- The report says nothing was adopted, rebuilt or removed beyond what another says. -/
def RecoveryReport.SameActions (r r' : RecoveryReport) : Prop :=
  r' = { r with overlapResolutions := r'.overlapResolutions }

theorem RecoveryReport.SameActions.trans {a b c : RecoveryReport} (h1 : a.SameActions b) (h2 : b.SameActions c) :
    a.SameActions c := by
  unfold SameActions at *
  rw [h2, h1]

theorem adoptCandidate_passed (path : Dir) (st : Adoption) {x : ChunkMeta} (h : ¬ ChunkAdopts st.chunks x) :
    (adoptCandidate path st x).chunks = st.chunks ∧ (adoptCandidate path st x).changed = st.changed ∧
      st.report.SameActions (adoptCandidate path st x).report := by
  obtain ⟨hchunks, hchanged⟩ := adoptCandidate_refines path st x
  refine ⟨by rw [hchunks, adoptChunk, adopt_of_not h], by rw [hchanged]; simp [h], ?_⟩
  have hsame : (adoptCandidate path st x).changed = st.changed := by rw [hchanged]; simp [h]
  unfold adoptCandidate at hchunks ⊢
  rw [adoptChunk, adopt_of_not h] at hchunks
  split
  · rfl
  · rename_i hname
    rw [if_neg hname] at hchunks
    simp only at hchunks ⊢
    split
    · rename_i hemp
      rw [if_pos hemp] at hchunks
      have := congrArg List.length hchunks
      simp at this
    · rename_i hemp
      rw [if_neg hemp] at hchunks
      split
      · rfl
      · rename_i hold
        rw [if_neg hold] at hchunks
        split
        · rename_i hwin
          rw [if_pos hwin] at hchunks
          exfalso
          have hx : x ∈ st.chunks := by
            rw [← hchunks]
            simp
          refine hname ?_
          rw [List.any_eq_true]
          exact ⟨x, hx, by simp⟩
        · rfl

/-- Candidates that are all passed over leave everything as it is. -/
theorem foldl_adoptCandidate_passed (path : Dir) : ∀ (xs : List ChunkMeta)
    (st : Adoption), (∀ x ∈ xs, ¬ ChunkAdopts st.chunks x) →
    (xs.foldl (adoptCandidate path) st).changed = st.changed ∧
      st.report.SameActions (xs.foldl (adoptCandidate path) st).report
  | [], st, _ => ⟨rfl, rfl⟩
  | x :: xs, st, h => by
    obtain ⟨h1, h2, h3⟩ := adoptCandidate_passed path st (h x List.mem_cons_self)
    obtain ⟨h4, h5⟩ := foldl_adoptCandidate_passed path xs (adoptCandidate path st x) (fun y hy => by
      rw [h1]
      exact h y (List.mem_cons_of_mem _ hy))
    rw [List.foldl_cons]
    exact ⟨h4.trans h2, h3.trans h5⟩

/-- Where nothing is merging and no candidate is adopted, nothing is saved. -/
theorem recoverFrom_unchanged (now : Int) (path : Dir) (report : RecoveryReport) {candidates : List ChunkMeta}
    {m : SeriesMeta} (ha : SpansApart m.chunks) (hm : ∀ c ∈ m.chunks, c.state ≠ .merging)
    (hno : ∀ x ∈ candidates, ¬ ChunkAdopts m.chunks x) :
    ∃ report', recoverFrom now path ⟨false⟩ candidates m report = ([], .ok report') ∧ report.SameActions report' := by
  have hnorm : normalizeDanglingMergingStates m = (m, false) := by
    rw [normalize_of_apart ha]
    have h1 : m.chunks.map (settle m.activeChunkId) = m.chunks :=
      (List.map_congr_left (fun c hc => settle_of_not_merging (hm c hc))).trans (List.map_id _)
    have h2 : m.chunks.any (fun c => decide (c.state = .merging)) = false := by
      rw [List.any_eq_false]
      intro c hc
      simpa using hm c hc
    rw [h1, h2]
  obtain ⟨hchanged, hreport⟩ := foldl_adoptCandidate_passed path candidates ⟨m.chunks, false, report⟩ hno
  unfold recoverFrom adoptAll
  simp only [hnorm, hchanged]
  exact ⟨_, rfl, hreport⟩

/-- No scanned file is adopted. -/
def NothingToAdopt (sd : SeriesDir) (m : SeriesMeta) : Prop := ∀ y name f, HasChunk sd name f → ScanOf y name f →
    ¬ ChunkAdopts m.chunks y

theorem Exact.nothingToAdopt {sd : SeriesDir} {m : SeriesMeta} (hex : Exact sd m) : NothingToAdopt sd m := by
  intro y name f hf hs hadopts
  obtain ⟨c, hc, hp⟩ := hex name f hf
  exact (hadopts c hc).1 (hp.trans hs.entry.path.symm)

/-- **A directory without anything to adopt or to settle is left as it is.** -/
theorem recover_quiet {d : Dir} {sd : SeriesDir} {m : SeriesMeta} (h : SeriesOk d sd m) (hno : NothingToAdopt sd m)
    (hm : ∀ c ∈ m.chunks, c.state ≠ .merging) (now : Int) (path : Dir) (order : DirOrder) (report : RecoveryReport) :
    ∃ report', recoverSeriesDir now path order ⟨false⟩ sd report = ([], .ok report') := by
  obtain ⟨cs, hcs, hscan⟩ := h.files.scans order
  by_cases hnil : cs = []
  · refine ⟨report, ?_⟩
    unfold recoverSeriesDir
    rw [hcs]
    simp [hnil]
  · rw [recoverSeriesDir_of_manifest hcs hnil (SeriesDir.loadSeriesMeta_ok h.manifest_eq h.valid)]
    obtain ⟨report', hrec, -⟩ := recoverFrom_unchanged now path report h.chain.1.apart hm (fun y hy => by
      obtain ⟨name, f, hf, hs⟩ := hscan.sound y hy
      exact hno y name f hf hs)
    exact ⟨report', hrec⟩

theorem recover_empty {sd : SeriesDir} (hf : sd.files = []) (now : Int) (path : Dir) (order : DirOrder)
    (report : RecoveryReport) :
    recoverSeriesDir now path order ⟨false⟩ sd report = ([], .ok report) := by
  have hfiles : FilesOk sd .scalar .month :=
    ⟨wellFiled_nil hf, fun name f h => by have := h.1; rw [hf] at this; cases this⟩
  obtain ⟨cs, hcs, hscan⟩ := hfiles.scans order
  have hnil : cs = [] := hscan.nil_iff.2 (fun name f h => by have := h.1; rw [hf] at this; cases this)
  unfold recoverSeriesDir
  rw [hcs]
  simp [hnil]

/-! ## What the recovered manifest describes -/

/-- The directory once recovery has saved its manifests. -/
def recoveredDir (sd : SeriesDir) (m : SeriesMeta) (saves : List SeriesMeta) : SeriesDir :=
  { sd with manifest := .current (lastSaved m saves) }

theorem HeadOk.sameHead {d : Dir} {m m' : SeriesMeta} (h : HeadOk d m) (hs : m.SameHead m') : HeadOk d m' := by
  rw [hs]
  exact ⟨h.homed, h.schemaId, h.recordSize, h.category, h.monthly⟩

theorem SeriesMeta.SameHead.trans {a b c : SeriesMeta} (h : a.SameHead b) (h' : b.SameHead c) : a.SameHead c := by
  rw [SeriesMeta.SameHead] at h h' ⊢
  rw [h', h]

theorem SeriesMeta.SameHead.recordType {m m' : SeriesMeta} (h : m.SameHead m') :
    m'.recordType = m.recordType := by rw [h]

theorem SeriesMeta.SameHead.unit {m m' : SeriesMeta} (h : m.SameHead m') : m'.unit = m.unit := by rw [h]; rfl

theorem mem_foldl_adopt {c : ChunkMeta} : ∀ {xs l : List ChunkMeta}, c ∈ xs.foldl adoptChunk l → c ∈ l ∨ c ∈ xs
  | [], _, h => .inl h
  | x :: xs, l, h => by
    rcases @mem_foldl_adopt c xs _ h with h | h
    · rcases mem_adopt h with h | rfl
      · exact .inl h
      · exact .inr (by simp)
    · exact .inr (by simp [h])

/-- An entry after recovery is one from before, settled, or describes a file. -/
theorem mem_recoveredChunks {m : SeriesMeta} {cs : List ChunkMeta} {c : ChunkMeta} (h : c ∈ recoveredChunks m cs) :
    (∃ e ∈ m.chunks, c = settle m.activeChunkId e) ∨ c ∈ cs := by
  rcases mem_foldl_adopt h with h | h
  · obtain ⟨e, he, rfl⟩ := List.mem_map.1 h
    exact .inl ⟨e, he, rfl⟩
  · exact .inr h

theorem Tracked.same {sd : SeriesDir} {t : RecordType} {u : PartitionUnit} {c d : ChunkMeta} (h : Tracked sd t u c)
    (hs : SameChunk c d) :
    Tracked sd t u d := by
  obtain ⟨name, f, rows, hf, ho, he⟩ := h
  refine ⟨name, f, rows, hf, ?_, he.same hs⟩
  rw [hs.monthKey]
  exact ho

theorem ScanOf.tracked {sd : SeriesDir} {t : RecordType} {y : ChunkMeta} {name : Text} {f : ChunkFile}
    (hs : ScanOf y name f) (h : FilesOk sd t .month) (hf : HasChunk sd name f) : Tracked sd t .month y := by
  obtain ⟨key, rows, ho⟩ := h.file name f hf
  have hkey : y.monthKey = key := Except.ok.inj (hs.key.symm.trans ho.keyed_startTs)
  exact ⟨name, f, rows, hf, by rw [hkey]; exact ho, hs.entry⟩

/-- **A monthly series is in order after recovery, whatever was adopted.** -/
theorem SeriesOk.recovered {d : Dir} {sd : SeriesDir} {m : SeriesMeta} (h : SeriesOk d sd m)
    (hu : m.unit = .month) {now : Int} {cs : List ChunkMeta} (hscan : Scans sd cs) {saves : List SeriesMeta}
    (hs : saves = [] ∧ recoveredChunks m cs = m.chunks ∨ saves = [recoveredMeta now m (recoveredChunks m cs)]) :
    SeriesOk d (recoveredDir sd m saves) (lastSaved m saves) := by
  obtain ⟨hvalid, hhead, hchunks⟩ := lastSaved_spec h.valid h.count_pos hscan.readable hs
  refine ⟨⟨hvalid, h.head.sameHead hhead, ?_, ?_⟩, rfl⟩
  · rw [hhead.recordType, hhead.unit]
    exact ⟨h.filed.congr rfl (fun hd => hd), h.files.file⟩
  · intro c hc
    rw [hhead.recordType, hhead.unit]
    rw [hchunks, mem_sortByKey] at hc
    have hfiles : FilesOk (recoveredDir sd m saves) m.recordType .month :=
      hu ▸ ⟨h.filed.congr rfl (fun hd => hd), h.files.file⟩
    rcases mem_recoveredChunks hc with ⟨e, he, rfl⟩ | hcs
    · exact (h.tracked e he).same (sameChunk_settle _ e)
    · obtain ⟨name, f, hf, hsc⟩ := hscan.sound c hcs
      rw [hu]
      exact hsc.tracked hfiles hf

/-! ## Rows after recovery -/

/-- Entries of one file. -/
def SameFile (a b : ChunkMeta) : Prop := b.startTs = a.startTs ∧ b.relativePath = a.relativePath

theorem SameChunk.sameFile {c d : ChunkMeta} (h : SameChunk c d) : SameFile c d := ⟨h.startTs, h.relativePath⟩

theorem flatMap_sorted_congr (t : RecordType) (sd : SeriesDir) {l l' : List ChunkMeta}
    (h : List.Forall₂ SameFile l l') :
    (sortByKey ChunkMeta.startTs l).flatMap (rowsIn t sd) = (sortByKey ChunkMeta.startTs l').flatMap (rowsIn t sd) :=
  forall₂_flatMap ((sortByKey_forall₂ ChunkMeta.startTs (fun _ _ hr => hr.1) h).imp (fun _ _ hr =>
    rowsIn_congr t sd hr.2))

theorem forall₂_settle (active : Option Nat) (l : List ChunkMeta) :
    List.Forall₂ SameFile l (l.map (settle active)) := by
  rw [List.forall₂_map_right_iff, List.forall₂_same]
  exact fun c _ => (sameChunk_settle active c).sameFile

theorem seriesRows_recoveredDir {t : RecordType} {sd : SeriesDir} {m : SeriesMeta} {saves : List SeriesMeta} :
    seriesRows t (recoveredDir sd m saves) = (lastSaved m saves).chunks.flatMap (rowsIn t sd) := rfl

/-- The rows of a valid manifest do not change when its entries are settled. -/
theorem SeriesOk.settled_rows {d : Dir} {sd : SeriesDir} {m : SeriesMeta} (h : SeriesOk d sd m) (t : RecordType) :
    (sortByKey ChunkMeta.startTs (m.chunks.map (settle m.activeChunkId))).flatMap (rowsIn t sd) = seriesRows t sd := by
  obtain ⟨hchain, hprop⟩ := h.chain
  rw [← flatMap_sorted_congr t sd (forall₂_settle m.activeChunkId m.chunks), sortByKey_chain hchain hprop,
    seriesRows_eq h.manifest_eq]

/-- Settling changes nothing an adoption looks at. -/
theorem adopts_settled {active : Option Nat} {l : List ChunkMeta} {x : ChunkMeta} :
    ChunkAdopts (l.map (settle active)) x ↔ ChunkAdopts l x := by
  unfold ChunkAdopts Adopts
  rw [List.forall_mem_map]
  refine forall₂_congr (fun c _ => ?_)
  have hs := sameChunk_settle active c
  unfold Meets Supersedes
  rw [hs.relativePath, hs.generation, hs.startTs, hs.endTs]

theorem meets_settle {active : Option Nat} {c x : ChunkMeta} : SpansMeet (settle active c) x ↔ SpansMeet c x := by
  have hs := sameChunk_settle active c
  unfold SpansMeet Meets
  rw [hs.startTs, hs.endTs]

/-- Where there is nothing to adopt, recovery settles the entries. -/
theorem recoveredChunks_quiet {sd : SeriesDir} {m : SeriesMeta} (hno : NothingToAdopt sd m) {cs : List ChunkMeta}
    (hscan : Scans sd cs) :
    recoveredChunks m cs = m.chunks.map (settle m.activeChunkId) := by
  apply foldl_adopt_of_not
  intro y hy
  obtain ⟨name, f, hf, hsc⟩ := hscan.sound y hy
  exact fun hadopts => hno y name f hf hsc (adopts_settled.1 hadopts)

/-- **Recovery that adopts nothing keeps the rows.** -/
theorem recover_keeps_rows {d : Dir} {sd : SeriesDir} {m : SeriesMeta} (h : SeriesOk d sd m)
    (hno : NothingToAdopt sd m) {now : Int} {cs : List ChunkMeta} (hscan : Scans sd cs) {saves : List SeriesMeta}
    (hs : saves = [] ∧ recoveredChunks m cs = m.chunks ∨ saves = [recoveredMeta now m (recoveredChunks m cs)])
    (t : RecordType) :
    seriesRows t (recoveredDir sd m saves) = seriesRows t sd := by
  rw [seriesRows_recoveredDir, (lastSaved_spec h.valid h.count_pos hscan.readable hs).2.2,
    recoveredChunks_quiet hno hscan, h.settled_rows]

/-- **One untracked file is all that can be adopted.**  `c` is the entry the interrupted write would have made. -/
theorem recoveredChunks_orphan {d : Dir} {sd : SeriesDir} {m : SeriesMeta} (h : SeriesOk d sd m) {name : Text}
    {f : ChunkFile} {c : ChunkMeta} (hf : HasChunk sd name f) (hc : EntryOf c name f)
    (hex : ∀ n g, HasChunk sd n g → n ≠ name → ∃ e ∈ m.chunks, e.relativePath = chunkRelativePath n)
    {cs : List ChunkMeta} (hscan : Scans sd cs) :
    ∃ y, ScanOf y name f ∧ Describes ChunkMeta.startTs ChunkMeta.endTs ChunkMeta.generation ChunkMeta.relativePath y c ∧
      recoveredChunks m cs = adoptChunk (m.chunks.map (settle m.activeChunkId)) y := by
  have hprop := (consistent_settled h.valid h.count_pos).proper
  -- every candidate describes the untracked file or a tracked chunk
  have hcand : ∀ y ∈ cs, Describes ChunkMeta.startTs ChunkMeta.endTs ChunkMeta.generation ChunkMeta.relativePath y c ∨
      ∃ a ∈ m.chunks.map (settle m.activeChunkId),
        Describes ChunkMeta.startTs ChunkMeta.endTs ChunkMeta.generation ChunkMeta.relativePath y a := by
    intro y hy
    obtain ⟨n, g, hg, hsc⟩ := hscan.sound y hy
    by_cases hn : n = name
    · subst hn
      obtain rfl := h.filed.hasChunk_inj hf hg
      exact .inl (hsc.entry.describes hc)
    · obtain ⟨e, he, hp⟩ := hex n g hg hn
      obtain ⟨n', g', rows, hg', -, hent⟩ := h.tracked e he
      obtain rfl : n = n' := chunkRelativePath_inj (hp.symm.trans hent.path)
      obtain rfl := h.filed.hasChunk_inj hg hg'
      exact .inr ⟨_, List.mem_map_of_mem he, hsc.entry.describes (hent.same (sameChunk_settle _ e))⟩
  obtain ⟨y0, hy0, hsc0⟩ := hscan.complete name f hf
  obtain ⟨y, hy, hyc, hfold⟩ := foldl_adopt_one hprop hcand ⟨y0, hy0, hsc0.entry.describes hc⟩
  refine ⟨y, ?_, hyc, hfold⟩
  obtain ⟨n, g, hg, hsc⟩ := hscan.sound y hy
  obtain rfl : n = name := chunkRelativePath_inj (hsc.entry.path.symm.trans (hyc.1.trans hc.path))
  obtain rfl := h.filed.hasChunk_inj hf hg
  exact hsc

/-- **The rows once an untracked file has been looked at.** -/
theorem recover_orphan {d : Dir} {sd : SeriesDir} {m : SeriesMeta} (h : SeriesOk d sd m) {name : Text} {f : ChunkFile}
    {c : ChunkMeta} (hf : HasChunk sd name f) (hc : EntryOf c name f)
    (hex : ∀ n g, HasChunk sd n g → n ≠ name → ∃ e ∈ m.chunks, e.relativePath = chunkRelativePath n) {now : Int}
    {cs : List ChunkMeta} (hscan : Scans sd cs) {saves : List SeriesMeta}
    (hs : saves = [] ∧ recoveredChunks m cs = m.chunks ∨ saves = [recoveredMeta now m (recoveredChunks m cs)])
    (t : RecordType) :
    seriesRows t (recoveredDir sd m saves) = if ChunkAdopts m.chunks c then
      (sortByKey ChunkMeta.startTs (m.chunks.filter (fun e => !decide (SpansMeet e c)) ++ [c])).flatMap (rowsIn t sd)
      else seriesRows t sd := by
  obtain ⟨y, -, hyc, hrec⟩ := recoveredChunks_orphan h hf hc hex hscan
  rw [seriesRows_recoveredDir, (lastSaved_spec h.valid h.count_pos hscan.readable hs).2.2, hrec]
  have hiff : ChunkAdopts (m.chunks.map (settle m.activeChunkId)) y ↔ ChunkAdopts m.chunks c := by
    rw [adopts_settled]
    exact ⟨fun ha => ha.of_describes hyc, fun ha => ha.of_describes
      ⟨hyc.1.symm, hyc.2.1.symm, hyc.2.2.1.symm, hyc.2.2.2.symm⟩⟩
  by_cases hadopts : ChunkAdopts m.chunks c
  · rw [if_pos hadopts, adoptChunk, adopt_of_adopts (hiff.2 hadopts)]
    refine (flatMap_sorted_congr t sd ?_).symm
    refine List.rel_append ?_ (.cons ⟨hyc.2.2.1, hyc.1⟩ .nil)
    have hfilter : (m.chunks.map (settle m.activeChunkId)).filter (fun a => !decide (SpansMeet a y))
        = (m.chunks.filter (fun e => !decide (SpansMeet e c))).map (settle m.activeChunkId) := by
      rw [List.filter_map]
      congr 1
      refine List.filter_congr (fun e _ => ?_)
      have hm : SpansMeet (settle m.activeChunkId e) y ↔ SpansMeet e c := by
        rw [meets_settle]
        unfold SpansMeet Meets
        rw [hyc.2.2.1, hyc.2.2.2]
      simp only [Function.comp_apply, decide_eq_decide.2 hm]
    rw [hfilter]
    exact forall₂_settle _ _
  · rw [if_neg hadopts, adoptChunk, adopt_of_not (fun ha => hadopts (hiff.1 ha)), h.settled_rows]

/-! ## A manifest built again -/

theorem Scans.eq_singleton {sd : SeriesDir} {cs : List ChunkMeta} (h : Scans sd cs) {name : Text} {f : ChunkFile}
    (hf : HasChunk sd name f) (hone : ∀ n g, HasChunk sd n g → n = name) : ∃ y, cs = [y] ∧ ScanOf y name f := by
  obtain ⟨y, hy, hs⟩ := h.complete name f hf
  have hpath : ∀ z ∈ cs, z.relativePath = chunkRelativePath name := by
    intro z hz
    obtain ⟨n, g, hg, hsz⟩ := h.sound z hz
    rw [hsz.entry.path, hone n g hg]
  refine ⟨y, ?_, hs⟩
  have honce := h.once
  cases cs with
  | nil => cases hy
  | cons a as =>
    cases as with
    | nil => rw [List.mem_singleton.1 hy]
    | cons b bs =>
      rw [List.map_cons, List.map_cons, hpath a (by simp), hpath b (by simp)] at honce
      exact absurd honce (by simp)

theorem selectNonOverlapping_singleton (y : ChunkMeta) : selectNonOverlappingChunks [y] = .ok [y] := rfl

/-- The manifest recovery builds for one scalar file. -/
def rebuiltMeta (now : Int) (key : ScalarSeriesKey) (f : ChunkFile) (y : ChunkMeta) : SeriesMeta :=
  { buildScalarMeta now key f.header.timeframeMs with
    seriesId := max f.header.seriesId (seriesIdFor key.symbol key.category key.name)
    chunks := [y]
    activeChunkId := lastActive [y]
    manifestSeq := 2
    updatedAt := now }

/-- **A directory with one scalar file and no manifest gets its manifest back**, under the names of its path. -/
theorem recover_rebuild {sd : SeriesDir} (hm : sd.manifest = .missing) (hfiles : FilesOk sd .scalar .month)
    {name : Text} {f : ChunkFile} (hf : HasChunk sd name f) (hone : ∀ n g, HasChunk sd n g → n = name) {path : Dir}
    {key : ScalarSeriesKey} (hid : pathIdentity path = .ok key) (hblank : key.isBlank = false) (now : Int)
    (order : DirOrder) (report : RecoveryReport) :
    ∃ y report', ScanOf y name f ∧ recoverSeriesDir now path order ⟨false⟩ sd report = ([rebuiltMeta now key f y], .ok report') ∧
      SeriesOk key.dir { sd with manifest := .current (rebuiltMeta now key f y) } (rebuiltMeta now key f y) := by
  obtain ⟨cs, hcs, hscan⟩ := hfiles.scans order
  obtain ⟨y, rfl, hy⟩ := hscan.eq_singleton hf hone
  obtain ⟨k, rows, ho⟩ := hfiles.file name f hf
  have hopen : sd.openChunk y.relativePath = .ok f := by
    rw [hy.entry.path]
    exact SeriesDir.openChunk_ok (hfiles.filed.lookup hf) ho.holds.header_ok
  have hload : sd.loadSeriesMeta = .error (.notFound "series meta not found: series.meta") := by
    unfold SeriesDir.loadSeriesMeta
    rw [hm]
  have hschema : f.header.schemaId = scalarSchemaId := ho.holds.schemaId_eq
  have hsize : f.header.recordSize = FixedRecord.byteSize ScalarRecord := ho.holds.recordSize_eq
  have htype : recordTypeOfSchema f.header.schemaId = .ok .scalar := by rw [hschema]; rfl
  have hnames : Text.isBlank key.symbol = false ∧ Text.isBlank key.category = false ∧
    Text.isBlank key.name = false := by
    unfold ScalarSeriesKey.isBlank at hblank
    rwa [Bool.or_eq_false_iff, Bool.or_eq_false_iff, and_assoc] at hblank
  have hvalid : (rebuiltMeta now key f y).validate = .ok () := by
    refine SeriesMeta.validate_of_chain ⟨hnames.1, hnames.2.1, hnames.2.2, ?_, .month, rfl, rfl⟩ ?_ ?_
    · exact Nat.ne_of_gt FixedRecord.byteSize_pos
    · intro c hc
      rw [List.mem_singleton.1 hc]
      exact hy.readable.valid
    · exact List.pairwise_singleton _ _
  have hbuild : buildSeriesMetaFromChunks now path sd [y] = .ok (rebuiltMeta now key f y) := by
    unfold buildSeriesMetaFromChunks
    simp only [hopen, hid, htype, hload, if_true]
    have heq : ({ buildScalarMeta now key f.header.timeframeMs with
        category := key.category, recordSize := f.header.recordSize, schemaId := f.header.schemaId,
        seriesId := max f.header.seriesId (seriesIdFor key.symbol key.category key.name), chunks := [y], activeChunkId := lastActive [y],
        manifestSeq := satAdd (buildScalarMeta now key f.header.timeframeMs).manifestSeq 1, updatedAt := now } : SeriesMeta)
        = rebuiltMeta now key f y := by
      rw [hsize, hschema]
      rfl
    rw [heq]
    exact checked_eq_ok.2 ⟨hvalid, rfl⟩
  have hrebuild : rebuildManifest now path order sd = .ok (rebuiltMeta now key f y) := by
    unfold rebuildManifest
    simp only [hcs, selectNonOverlapping_singleton, hbuild]
    rfl
  have hquiet := recoverFrom_unchanged now path
    { report with rebuiltManifests := report.rebuiltManifests + 1, rebuiltManifestPaths := report.rebuiltManifestPaths ++ [path] }
    (show SpansApart (rebuiltMeta now key f y).chunks from List.pairwise_singleton _ _)
    (fun c hc => by rw [List.mem_singleton.1 hc]; exact hy.readable.settled)
    (fun x (hx : x ∈ [y]) hadopts => by
      rw [List.mem_singleton.1 hx] at hadopts
      exact (hadopts y (List.mem_singleton.2 rfl)).1 rfl)
  obtain ⟨report', hreport, -⟩ := hquiet
  refine ⟨y, report', hy, ?_, ?_⟩
  · unfold recoverSeriesDir
    simp only [hcs, hload, hrebuild, hreport]
    rfl
  · refine ⟨⟨hvalid, ⟨rfl, rfl, rfl, ?_, fun _ => rfl⟩, ⟨hfiles.filed.congr rfl (fun h => h), hfiles.file⟩, ?_⟩, rfl⟩
    · intro h
      cases h
    · intro c hc
      rw [List.mem_singleton.1 hc]
      have hfiles' : FilesOk { sd with manifest := .current (rebuiltMeta now key f y) } .scalar .month :=
        ⟨hfiles.filed.congr rfl (fun h => h), hfiles.file⟩
      exact hy.tracked hfiles' hf

end FastK
