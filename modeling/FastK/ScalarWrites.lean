import Mathlib.Data.List.Flatten
import FastK.Commits
/-!
# Scalar writes

A scalar write is refused before it has changed a file, or it enters one chunk in place of its month's
(`putScalarChunkLocked_run`).  Nothing can refuse it once its chunk is there: a month has too few milliseconds for the
zone map to overflow, and the chunks of the other months lie apart from the new one.
-/
namespace FastK

open Journal Spans

/-- The run ends in an error and has changed no file and no manifest. -/
def Refused {α : Type} (r : List IoStep × Except FastKError α) : Prop := (∃ e, r.2 = .error e) ∧
    ∀ k ∈ r.1, k.calm = true

theorem refused_lift {α β : Type} (e : FastKError) (f : α → Op β) (s : Store) :
    Refused ((Prog.lift (.error e) >>= f) s) := by
  rw [Prog.lift_error_bind]
  exact ⟨⟨e, rfl⟩, by simp [Prog.fail]⟩

theorem Refused.cons {α : Type} {k : IoStep} (hk : k.calm = true) {r : List IoStep × Except FastKError α}
    (h : Refused r) : Refused (k :: r.1, r.2) :=
  ⟨h.1, fun l hl => by
    rcases List.mem_cons.1 hl with rfl | hl
    · exact hk
    · exact h.2 l hl⟩

/-! ## Sidecars -/

/-- The files of the two sidecars. -/
def sidecarSteps (env : Env) (d : Dir) (name : Text) (records : List ScalarRecord) (zmap : List ZoneMapEntry) :
    List IoStep :=
  writeSteps env d (sidecarRelativePath name zmapKind) (.zmap zmap) ++
    writeSteps env d (sidecarRelativePath name vixKind) (.vix (vixBuildEntries records))

theorem sidecarSteps_lays {env : Env} {d : Dir} {name : Text} (hn : isChunkName name = true)
    (records : List ScalarRecord) (zmap : List ZoneMapEntry) (news : List (Text × ChunkFile)) :
    ∀ k ∈ sidecarSteps env d name records zmap, Lays d news k := by
  intro k hk
  simp only [sidecarSteps, writeSteps, List.cons_append, List.nil_append, List.mem_cons, List.not_mem_nil,
    or_false] at hk
  rcases hk with rfl | rfl | rfl | rfl | rfl | rfl
  · exact .calm rfl
  · exact .calm rfl
  · exact .sidecar (isChunkName_zmap name) ⟨_, parent_of_sidecar hn (by decide)⟩
  · exact .calm rfl
  · exact .calm rfl
  · exact .sidecar (isChunkName_vix name) ⟨_, parent_of_sidecar hn (by decide)⟩

theorem zmapBuildEntries_ok {records : List ScalarRecord} {blockSize : Nat} (hb : 1 ≤ blockSize) (ho : Ordered records)
    (hlen : records.length < 2 ^ 32) : ∃ entries, zmapBuildEntries records blockSize = .ok entries := by
  unfold zmapBuildEntries
  rw [if_neg (by omega)]
  by_cases hne : records = []
  · exact ⟨[], by rw [hne]; rfl⟩
  · rw [if_neg (by simpa using hne), ScalarRecord.validateStrictOrder_ok.2 ⟨hne, ho⟩]
    simp only
    rw [if_neg (by unfold u32Max; omega)]
    exact ⟨_, rfl⟩

theorem buildScalarSidecars_run (env : Env) (d : Dir) (blockSize : Nat) {name : Text} {c : ChunkMeta}
    {records : List ScalarRecord} (ho : Ordered records) (hlen : records.length < 2 ^ 32)
    (hn : isChunkName name = true) (hp : c.relativePath = chunkRelativePath name) :
    ∃ zmap, (∀ sc ∈ indexEntries c (max blockSize 1 % 2 ^ 32) zmap (vixBuildEntries records), SidecarPath sc) ∧
      ∀ s, buildScalarSidecars env d name c records blockSize s =
        (sidecarSteps env d name records zmap,
          .ok (indexEntries c (max blockSize 1 % 2 ^ 32) zmap (vixBuildEntries records))) := by
  obtain ⟨zmap, hz⟩ := zmapBuildEntries_ok (le_max_right blockSize 1) ho hlen
  refine ⟨zmap, ?_, fun s => ?_⟩
  · intro sc hsc
    simp only [indexEntries, List.mem_cons, List.not_mem_nil, or_false] at hsc
    rcases hsc with rfl | rfl
    · exact ⟨_, isSidecarName_of hn (isChunkName_zmap name), by rw [hp]; exact sidecarRelativePath_chunk name zmapKind⟩
    · exact ⟨_, isSidecarName_of hn (isChunkName_vix name), by rw [hp]; exact sidecarRelativePath_chunk name vixKind⟩
  · unfold buildScalarSidecars
    rw [hz, Prog.lift_ok_bind, Prog.bind_run (atomicWriteReplace_run _ _ s),
      Prog.bind_run (atomicWriteReplace_run _ _ _)]
    rfl

/-! ## Committing -/

section Commit

variable {d : Dir} {sd : SeriesDir} {m : SeriesMeta} {month name : Text} {f : ChunkFile} {rows : List ScalarRecord}
    {c : ChunkMeta}

theorem otherChunks_of_empty (h : m.chunksForPartition month = []) : otherChunks m month = m.chunks := by
  unfold otherChunks
  refine List.filter_eq_self.2 (fun e he => ?_)
  rw [decide_eq_true_iff]
  intro hk
  have : e ∈ m.chunksForPartition month := List.mem_filter.2 ⟨he, by simpa using hk⟩
  rw [h] at this
  cases this

theorem not_mem_otherChunks {e : ChunkMeta} (he : e ∈ m.chunks) (h : e ∉ otherChunks m month) : e.monthKey = month := by
  by_contra hne
  exact h (mem_otherChunks.2 ⟨he, hne⟩)

/-- **The new manifest of a scalar write**: the chunk in place of its month's. -/
theorem commitScalar_ok (h : Fits d sd m) (hu : m.unit = .month) (w : Laid .scalar .month sd m month name f rows c)
    (now : Int) :
    ∃ m', commitScalar now m month c = .ok (m', m.chunksForPartition month) ∧
      Entered .scalar .month sd m (otherChunks m month) month name f rows c m' := by
  unfold commitScalar
  by_cases hnil : m.chunksForPartition month = []
  · rw [if_pos (List.isEmpty_iff.2 hnil)]
    have hall := otherChunks_of_empty hnil
    have hent : Entered .scalar .month sd m (otherChunks m month) month name f rows c
      (m.withChunks now (m.chunks ++ [c])) :=
      ⟨w, rfl, by rw [hall]; rfl, .inl rfl, .inr (.inl ⟨hall, rfl⟩)⟩
    refine ⟨_, ?_, hent⟩
    rw [upsert_new (fun e he => by have := chunkId_lt_next he; rw [w.chunkId]; omega),
      checked_eq_ok.2 ⟨hent.valid h hu, rfl⟩, hnil]
    rfl
  · rw [if_neg (by simpa using hnil)]
    have hent : Entered .scalar .month sd m (otherChunks m month) month name f rows c
        { m.withChunks now (otherChunks m month ++ [c]) with
          activeChunkId := lastActive (m.withChunks now (otherChunks m month ++ [c])).chunks } :=
      ⟨w, rfl, rfl, .inl rfl, .inl rfl⟩
    refine ⟨_, ?_, hent⟩
    unfold replaceMonthChunks
    simp only
    rw [show (m.chunks.filter (fun c => decide (c.monthKey ≠ month))) = otherChunks m month from rfl,
      checked_eq_ok.2 ⟨hent.valid h hu, rfl⟩]

end Commit

/-! ## The whole write -/

theorem writeSteps_lays {env : Env} {d : Dir} {name : Text} {f : ChunkFile} :
    ∀ k ∈ writeSteps env d name (.chunk f), Lays d [(name, f)] k := by
  intro k hk
  simp only [writeSteps, List.mem_cons, List.not_mem_nil, or_false] at hk
  rcases hk with rfl | rfl | rfl
  · exact .calm rfl
  · exact .calm rfl
  · exact .chunk (List.mem_singleton.2 rfl)

theorem publish_mem_writeSteps {env : Env} {d : Dir} {name : Text} {body : FileBody} :
    IoStep.publish d name (tempNameFor env name) body ∈ writeSteps env d name body := by simp [writeSteps]

theorem publish_writeSteps {env : Env} {d e : Dir} {name n temp : Text} {body b : FileBody}
    (h : IoStep.publish e n temp b ∈ writeSteps env d name body) : n = name := by
  simp only [writeSteps, List.mem_cons, List.not_mem_nil, or_false, reduceCtorEq, false_or, IoStep.publish.injEq] at h
  exact h.2.1

/-- The steps of the two sidecars publish the index files, and nothing else. -/
theorem publish_sidecarSteps {env : Env} {d : Dir} {name : Text} {records : List ScalarRecord}
    {zmap : List ZoneMapEntry} {p : Text × FileBody} (hp : p ∈ indexFiles name zmap (vixBuildEntries records)) :
    IoStep.publish d p.1 (tempNameFor env p.1) p.2 ∈ sidecarSteps env d name records zmap := by
  unfold indexFiles at hp
  rcases List.mem_cons.1 hp with rfl | hp
  · exact List.mem_append_left _ publish_mem_writeSteps
  · obtain rfl := List.mem_singleton.1 hp
    exact List.mem_append_right _ publish_mem_writeSteps

theorem mem_sidecarSteps {env : Env} {d : Dir} {name n temp : Text} {records : List ScalarRecord}
    {zmap : List ZoneMapEntry} {body : FileBody}
    (h : IoStep.publish d n temp body ∈ sidecarSteps env d name records zmap) :
    (n, body) ∈ indexFiles name zmap (vixBuildEntries records) := by
  simp only [sidecarSteps, writeSteps, List.cons_append, List.nil_append, List.mem_cons, List.not_mem_nil, or_false,
    reduceCtorEq, false_or, IoStep.publish.injEq] at h
  unfold indexFiles
  rcases h with ⟨-, rfl, -, rfl⟩ | ⟨-, rfl, -, rfl⟩
  · exact List.mem_cons_self
  · exact List.mem_cons_of_mem _ (List.mem_singleton.2 rfl)

theorem HeadOk.unit_month {d : Dir} {m : SeriesMeta} (h : HeadOk d m)
    (ht : m.recordType = .kline ∨ m.recordType = .scalar) : m.unit = .month := by
  unfold SeriesMeta.unit
  rw [h.monthly ht]
  rfl

section Run

variable {env : Env} {key : ScalarSeriesKey} {timeframeMs : Int} {records : List ScalarRecord} {blockSize : Nat}
    {cached : Option SeriesMeta}
  {s : Store}

/-- The run of a scalar write that is not refused: the rows enter in place of their month's. -/
def ScalarWritten (env : Env) (key : ScalarSeriesKey) (s : Store) (m : SeriesMeta) (month : Text)
    (records : List ScalarRecord) (r : List IoStep × Except FastKError SeriesMeta) : Prop :=
  ∃ m', ∃ w : EntryWrite env key.dir .scalar .month (s.dirs key.dir) m m' month records, w.kept = otherChunks m month ∧
    r = (w.steps ++ [.disarm], .ok (refreshed (seriesCacheKey key.symbol key.category key.name) m m'))

/-- A scalar write whose checks pass and whose name is free enters its chunk under that name. -/
theorem putScalarChunkLocked_enters_under {m : SeriesMeta} {month : Text} {f : ChunkFile} {c : ChunkMeta} (env : Env)
    (blockSize : Nat) (hm : scalarManifest env.now key timeframeMs cached (s.dirs key.dir) = .ok m)
    (h : Fits key.dir (s.dirs key.dir) m) (ht : m.recordType = .scalar) (hne : nonEmpty records = .ok ())
    (hmonth : monthKey (firstTs records) = .ok month)
    (hchunk : scalarChunk m records (scalarPlan m month).2 = .ok (f, c))
    (hfile : (s.dirs key.dir).hasFile (scalarPlan m month).1 = false) :
    ∃ m', ∃ w : EntryWrite env key.dir .scalar .month (s.dirs key.dir) m m' month records,
      w.kept = otherChunks m month ∧
      w.name = (scalarPlan m month).1 ∧ putScalarChunkLocked env key timeframeMs records blockSize cached s =
        (w.steps ++ [.disarm], .ok (refreshed (seriesCacheKey key.symbol key.category key.name) m m')) := by
  have hu := h.head.unit_month (.inr ht)
  have hplan := scalarPlan_plan m month
  unfold putScalarChunkLocked
  rw [Prog.look_bind, hm, Prog.lift_ok_bind, hne, Prog.lift_ok_bind, hmonth, Prog.lift_ok_bind, scalarOptions_eq hmonth,
    Prog.lift_ok_bind]
  generalize scalarPlan m month = no at hplan hchunk hfile ⊢
  obtain ⟨name, o⟩ := no
  simp only at hplan hchunk hfile ⊢
  have hfile' : ((Journal.Store.apply IoStep.arm s).dirs key.dir).hasFile name = false := hfile
  have w : Laid .scalar .month (s.dirs key.dir) _ _ _ _ _ _ := scalarChunk_laid hplan hfile hmonth hchunk
  have hlen : records.length < 2 ^ 32 := length_month (R := ScalarRecord) rfl w.file.holds.ordered w.file.keyed
  obtain ⟨zmap, hside, hbuild⟩ := buildScalarSidecars_run env key.dir blockSize
    w.file.holds.ordered hlen w.file.named.isChunkName w.entry.path
  obtain ⟨m', hcommit, hent⟩ := commitScalar_ok h hu (w.withSidecars hside) env.now
  have hsave : seriesDir m'.symbol m'.category m'.name = key.dir := (h.head.sameHead hent.head).homed
  rw [Prog.emit_bind, hchunk, Prog.lift_ok_bind]
  simp only
  rw [Prog.bind_run (atomicWriteNew_run hfile'), Prog.bind_run (hbuild _), hcommit, Prog.lift_ok_bind]
  simp only
  rw [hsave, Prog.bind_run (saveSeriesMeta_run (hent.valid h hu) _), Prog.bind_run (removeFiles_run _ _),
    Prog.emit_bind]
  have hwrite : ∃ w : EntryWrite env key.dir .scalar .month (s.dirs key.dir) m m' month records,
    w.kept = otherChunks m month ∧ w.name = name ∧
      w.steps = commitSteps env key.dir (.arm :: (writeSteps env key.dir name (.chunk f) ++
        sidecarSteps env key.dir name records zmap))
        m' ((m.chunksForPartition month).flatMap chunkPaths) := by
    refine ⟨⟨_, name, f, _, _, _, hent, ?_, ⟨tempNameFor env name, ?_⟩, ?_, ?_, fun hne => absurd rfl hne, fun _ =>
      ⟨⟨_, zmap, vixBuildEntries records, rfl, fun p hp => ?_, fun n temp body hpub hn => ?_⟩, ?_⟩⟩, rfl, rfl, rfl⟩
    · intro k hk
      rcases List.mem_cons.1 hk with rfl | hk
      · exact .calm rfl
      · rcases List.mem_append.1 hk with hk | hk
        · exact writeSteps_lays k hk
        · exact sidecarSteps_lays w.file.named.isChunkName records zmap _ k hk
    · exact List.mem_cons_of_mem _ (List.mem_append_left _ publish_mem_writeSteps)
    · intro path hp
      obtain ⟨e, he, hpe⟩ := List.mem_flatMap.1 hp
      obtain ⟨hem, hek⟩ := mem_chunksForPartition.1 he
      exact ⟨e, hem, fun hother => (mem_otherChunks.1 hother).2 hek, hpe⟩
    · intro e he hnot
      exact List.mem_flatMap.2 ⟨e, mem_chunksForPartition.2 ⟨he, not_mem_otherChunks he hnot⟩, List.mem_cons_self⟩
    · exact ⟨_, List.mem_cons_of_mem _ (List.mem_append_right _ (publish_sidecarSteps hp))⟩
    · rcases List.mem_cons.1 hpub with heq | hpub
      · cases heq
      · rcases List.mem_append.1 hpub with hpub | hpub
        · rw [publish_writeSteps hpub, isSidecarName_of_chunk w.file.named.isChunkName] at hn
          cases hn
        · exact mem_sidecarSteps hpub
    · intro e he hnot path hpath
      exact List.mem_flatMap.2 ⟨e, mem_chunksForPartition.2 ⟨he, not_mem_otherChunks he hnot⟩, hpath⟩
  obtain ⟨ew, hkept, hname, hsteps⟩ := hwrite
  refine ⟨m', ew, hkept, hname, ?_⟩
  rw [hsteps]
  simp only [commitSteps, List.cons_append, List.append_assoc]
  rfl

/-- A scalar write whose checks pass and whose name is free enters its chunk. -/
theorem putScalarChunkLocked_enters {m : SeriesMeta} {month : Text} {f : ChunkFile} {c : ChunkMeta} (env : Env)
    (blockSize : Nat) (hm : scalarManifest env.now key timeframeMs cached (s.dirs key.dir) = .ok m)
    (h : Fits key.dir (s.dirs key.dir) m) (ht : m.recordType = .scalar) (hne : nonEmpty records = .ok ())
    (hmonth : monthKey (firstTs records) = .ok month)
    (hchunk : scalarChunk m records (scalarPlan m month).2 = .ok (f, c))
    (hfile : (s.dirs key.dir).hasFile (scalarPlan m month).1 = false) :
    ScalarWritten env key s m month records (putScalarChunkLocked env key timeframeMs records blockSize cached s) := by
  obtain ⟨m', w, hkept, -, hrun⟩ := putScalarChunkLocked_enters_under env blockSize hm h ht hne hmonth hchunk hfile
  exact ⟨m', w, hkept, hrun⟩

/-- **A scalar write is refused without a trace, or enters its chunk.** -/
theorem putScalarChunkLocked_run (env : Env) (timeframeMs : Int) (records : List ScalarRecord) (blockSize : Nat)
    (hfit : ∀ m, scalarManifest env.now key timeframeMs cached (s.dirs key.dir) = .ok m →
      Fits key.dir (s.dirs key.dir) m ∧ m.recordType = .scalar) :
    Refused (putScalarChunkLocked env key timeframeMs records blockSize cached s) ∨
      ∃ m month, scalarManifest env.now key timeframeMs cached (s.dirs key.dir) = .ok m ∧
        monthKey (firstTs records) = .ok month ∧
        ScalarWritten env key s m month records (putScalarChunkLocked env key timeframeMs records blockSize
          cached s) := by
  have hrun : putScalarChunkLocked env key timeframeMs records blockSize cached s =
    putScalarChunkLocked env key timeframeMs records blockSize cached s := rfl
  conv at hrun =>
    rhs
    unfold putScalarChunkLocked
    rw [Prog.look_bind]
  cases hm : scalarManifest env.now key timeframeMs cached (s.dirs key.dir) with
  | error e =>
    rw [hrun, hm]
    exact .inl (refused_lift e _ s)
  | ok m =>
    obtain ⟨h, ht⟩ := hfit m hm
    rw [hm, Prog.lift_ok_bind] at hrun
    cases hne : nonEmpty records with
    | error e =>
      rw [hrun, hne]
      exact .inl (refused_lift e _ s)
    | ok _ =>
      rw [hne, Prog.lift_ok_bind] at hrun
      cases hmonth : monthKey (firstTs records) with
      | error e =>
        rw [hrun, hmonth]
        exact .inl (refused_lift e _ s)
      | ok month =>
        have henter := fun {f c} =>
          @putScalarChunkLocked_enters key timeframeMs records cached s m month f c env blockSize hm h ht hne hmonth
        rw [hmonth, Prog.lift_ok_bind, scalarOptions_eq hmonth, Prog.lift_ok_bind] at hrun
        generalize scalarPlan m month = no at hrun henter
        obtain ⟨name, o⟩ := no
        simp only at hrun henter
        rw [Prog.emit_bind] at hrun
        cases hchunk : scalarChunk m records o with
        | error e =>
          rw [hrun, hchunk]
          exact .inl ((refused_lift e _ _).cons rfl)
        | ok fc =>
          obtain ⟨f, c⟩ := fc
          rw [hchunk, Prog.lift_ok_bind] at hrun
          simp only at hrun
          cases hfile : (s.dirs key.dir).hasFile name with
          | true =>
            have hfile' : ((Journal.Store.apply IoStep.arm s).dirs key.dir).hasFile name = true := hfile
            rw [Prog.bind_run_error (atomicWriteNew_exists hfile')] at hrun
            rw [hrun]
            exact .inl ⟨⟨_, rfl⟩, by simp [IoStep.calm]⟩
          | false => exact .inr ⟨m, month, rfl, rfl, henter hchunk hfile⟩

/-! ## Where a scalar write starts -/

/-- The directory has neither manifest nor files, or is a scalar series whose manifest the call may have cached. -/
inductive ScalarReady (key : ScalarSeriesKey) (cached : Option SeriesMeta) (sd : SeriesDir) : Prop
  | new (hm : sd.manifest = .missing) (hf : sd.files = []) (hb : key.isBlank = false) (hc : cached = none)
  | series {m : SeriesMeta} (h : SeriesOk key.dir sd m) (ht : m.recordType = .scalar) (hc : cached = none ∨
      cached = some m)

theorem headValid_build {key : ScalarSeriesKey} (hb : key.isBlank = false) (now timeframeMs : Int) :
    (buildScalarMeta now key timeframeMs).HeadValid := by
  unfold ScalarSeriesKey.isBlank at hb
  rw [Bool.or_eq_false_iff, Bool.or_eq_false_iff, and_assoc] at hb
  exact ⟨hb.1, hb.2.1, hb.2.2, Nat.ne_of_gt FixedRecord.byteSize_pos, .month, rfl, rfl⟩

theorem fits_build {key : ScalarSeriesKey} (hb : key.isBlank = false) {sd : SeriesDir} (hf : sd.files = [])
    (now timeframeMs : Int) :
    Fits key.dir sd (buildScalarMeta now key timeframeMs) where
  valid := SeriesMeta.validate_of_chain (headValid_build hb now timeframeMs) (fun _ hc => by cases hc) List.Pairwise.nil
  head := ⟨rfl, rfl, rfl, (by intro h; cases h), fun _ => rfl⟩
  files := ⟨wellFiled_nil hf, fun n g hg => by have := hg.1; rw [hf] at this; cases this⟩
  tracked _ hc := by cases hc

theorem metaFor_series {d : Dir} {sd : SeriesDir} {m : SeriesMeta} (h : SeriesOk d sd m)
    (hc : cached = none ∨ cached = some m) :
    metaFor cached sd = .ok m := by
  rcases hc with rfl | rfl
  · exact SeriesDir.loadSeriesMeta_ok h.manifest_eq h.valid
  · rfl

theorem scalarManifest_series {sd : SeriesDir} {m : SeriesMeta} (h : SeriesOk key.dir sd m)
    (hc : cached = none ∨ cached = some m) (now : Int) :
    scalarManifest now key timeframeMs cached sd =
      if m.timeframeMs ≠ timeframeMs then .error (scalarTimeframeError m) else .ok m := by
  unfold scalarManifest
  rw [if_pos (by rw [h.manifest_eq]; rfl), metaFor_series h hc]

theorem scalarManifest_new (key : ScalarSeriesKey) (timeframeMs : Int) (cached : Option SeriesMeta) {sd : SeriesDir}
    (hm : sd.manifest = .missing) (now : Int) :
    scalarManifest now key timeframeMs cached sd = .ok (buildScalarMeta now key timeframeMs) := by
  unfold scalarManifest
  rw [if_neg (by rw [hm]; simp [ManifestFile.isPresent])]

/-- **What a scalar write starts from fits its directory.** -/
theorem ScalarReady.fits {sd : SeriesDir} (h : ScalarReady key cached sd) {now : Int} {m : SeriesMeta}
    (hm : scalarManifest now key timeframeMs cached sd = .ok m) : Fits key.dir sd m ∧ m.recordType = .scalar := by
  cases h with
  | new hmiss hf hb hc =>
    rw [scalarManifest_new _ _ _ hmiss] at hm
    obtain rfl := Except.ok.inj hm
    exact ⟨fits_build hb hf now timeframeMs, rfl⟩
  | series h ht hc =>
    rw [scalarManifest_series h hc] at hm
    split at hm
    · cases hm
    · obtain rfl := Except.ok.inj hm
      exact ⟨h.toFits, ht⟩

/-! ## Appending -/

theorem rowsIn_scalar {d : Dir} {sd : SeriesDir} {m : SeriesMeta} (h : SeriesOk d sd m) (ht : m.recordType = .scalar) :
    Stored ScalarRecord sd m (rowsIn .scalar sd) := by
  have hst := h.stored
  rw [ht] at hst
  exact hst

/-- The rows of a month, in the order of its chunks. -/
def storedMonth (sd : SeriesDir) (m : SeriesMeta) (month : Text) : List ScalarRecord :=
  (m.chunksForPartition month).flatMap (rowsIn .scalar sd)

/-- The rows of a month are those of its chunks. -/
theorem monthRows_eq {d : Dir} {sd : SeriesDir} {m : SeriesMeta} (h : SeriesOk d sd m) (ht : m.recordType = .scalar)
    (hread : ∀ c ∈ m.chunks, c.state.isReadable = true) (threads : Nat) (month : Text) :
    monthRows threads sd m month = .ok (storedMonth sd m month) := by
  have hst := rowsIn_scalar h ht
  have hu := h.head.unit_month (.inr ht)
  have hall : (m.chunksForPartition month).filter (fun c => c.state.isReadable) = m.chunksForPartition month :=
    List.filter_eq_self.2 (fun c hc => hread c (mem_chunksForPartition.1 hc).1)
  have hone : ∀ c ∈ m.chunksForPartition month, getScalarRangePrepared threads sd m c.startTs c.endTs =
    .ok (rowsIn .scalar sd c) := by
    intro c hc
    have hcm := (mem_chunksForPartition.1 hc).1
    have htr := h.tracked c hcm
    rw [ht, hu] at htr
    obtain ⟨n, g, hg, ho, he⟩ := htr.rowsIn h.filed
    have hlen := length_month (R := ScalarRecord) rfl ho.holds.ordered ho.keyed
    have hrange := hst.inRange_chunk hcm
    rw [getScalarRangePrepared_eq hst threads c.startTs c.endTs, hrange]
    rw [hrange, show FixedRecord.byteSize ScalarRecord = 16 from rfl]
    unfold u64Bound
    omega
  unfold monthRows
  rw [hall, collect_ok _ hone]
  exact congrArg Except.ok List.flatMap_def.symm

theorem storedMonth_keyed {d : Dir} {sd : SeriesDir} {m : SeriesMeta} (h : SeriesOk d sd m)
    (ht : m.recordType = .scalar) {month : Text} {r : ScalarRecord} (hr : r ∈ storedMonth sd m month) :
    monthKey r.ts = .ok month := by
  obtain ⟨c, hc, hrc⟩ := List.mem_flatMap.1 hr
  obtain ⟨hcm, rfl⟩ := mem_chunksForPartition.1 hc
  have htr := h.tracked c hcm
  rw [ht, h.head.unit_month (.inr ht)] at htr
  obtain ⟨n, g, hg, ho, he⟩ := htr.rowsIn h.filed
  exact ho.keyed r hrc

theorem storedMonth_ordered {d : Dir} {sd : SeriesDir} {m : SeriesMeta} (h : SeriesOk d sd m)
    (ht : m.recordType = .scalar) (month : Text) :
    Ordered (storedMonth sd m month) :=
  (rowsIn_scalar h ht).ordered.sublist (List.Sublist.flatMap List.filter_sublist _)

/-- What an append combines: the month's rows, all before its own. -/
theorem combineRows_eq {d : Dir} {sd : SeriesDir} {m : SeriesMeta} (h : SeriesOk d sd m) (ht : m.recordType = .scalar)
    (hread : ∀ c ∈ m.chunks, c.state.isReadable = true) {threads : Nat} {month : Text} {combined : List ScalarRecord}
    (hc : combineRows threads sd (some m) timeframeMs month records = .ok combined) :
    combined = storedMonth sd m month ++ records ∧ ∀ r ∈ storedMonth sd m month, r.ts < firstTs records := by
  unfold combineRows at hc
  simp only at hc
  split at hc
  · cases hc
  · rw [monthRows_eq h ht hread] at hc
    simp only at hc
    split at hc
    · cases hc
    · rename_i hlast
      refine ⟨(Except.ok.inj hc).symm, fun r hr => ?_⟩
      have hle := le_lastTs (storedMonth_ordered h ht month) hr
      obtain ⟨l, b, heq⟩ := List.eq_nil_or_concat (storedMonth sd m month) |>.resolve_left (List.ne_nil_of_mem hr)
      rw [List.concat_eq_append] at heq
      rw [heq] at hlast hle
      rw [lastTs_append_singleton] at hle
      have hb : ¬ firstTs records ≤ b.ts := by simpa using hlast
      exact lt_of_le_of_lt hle (not_le.1 hb)

/-- **An append is refused without a trace, or enters the month's rows followed by its own.** -/
theorem appendScalarChunkLocked_run (env : Env) (timeframeMs : Int) (records : List ScalarRecord) (blockSize : Nat)
    (h : ScalarReady key cached (s.dirs key.dir))
    (hread : ∀ m, (s.dirs key.dir).manifest = .current m → ∀ c ∈ m.chunks, c.state.isReadable = true) :
    Refused (appendScalarChunkLocked env key timeframeMs records blockSize cached s) ∨
      ∃ m month, scalarManifest env.now key timeframeMs cached (s.dirs key.dir) = .ok m ∧
        monthKey (firstTs records) = .ok month ∧
        (∀ r ∈ storedMonth (s.dirs key.dir) m month, r.ts < firstTs records) ∧
        ScalarWritten env key s m month (storedMonth (s.dirs key.dir) m month ++ records)
          (appendScalarChunkLocked env key timeframeMs records blockSize cached s) := by
  unfold appendScalarChunkLocked
  cases hmonth : monthKey (firstTs records) with
  | error e => exact .inl (refused_lift e _ s)
  | ok month =>
    rw [Prog.lift_ok_bind]
    cases h with
    | new hm hf hb hc =>
      subst hc
      have hload : loadExisting none key.dir s = ([], .ok none) := by
        unfold loadExisting metaFor SeriesDir.loadSeriesMeta
        rw [Prog.look_bind, hm]
        rfl
      have hmeta := scalarManifest_new key timeframeMs none hm env.now
      rw [Prog.bind_run hload]
      simp only [exec_nil, Prog.look_bind, combineRows, Prog.lift_ok_bind, List.nil_append, Prod.mk.eta]
      rcases putScalarChunkLocked_run env timeframeMs records blockSize
        (fun m hm' => (ScalarReady.new hm hf hb rfl).fits hm') with href | ⟨m, month', hm', hmonth', hw⟩
      · exact .inl href
      · obtain rfl : month' = month := Except.ok.inj (hmonth'.symm.trans hmonth)
        rw [hmeta] at hm'
        obtain rfl := Except.ok.inj hm'
        refine .inr ⟨_, month', hmeta, rfl, ?_, hw⟩
        rintro r hr
        cases hr
    | @series m h ht hc =>
      have hload : loadExisting cached key.dir s = ([], .ok (some m)) := by
        unfold loadExisting
        rw [Prog.look_bind, metaFor_series h hc]
        rfl
      rw [Prog.bind_run hload]
      simp only [exec_nil, Prog.look_bind, List.nil_append, Prod.mk.eta]
      cases hcomb : combineRows env.threads (s.dirs key.dir) (some m) timeframeMs month records with
      | error e => exact .inl (refused_lift e _ s)
      | ok combined =>
        obtain ⟨rfl, hbefore⟩ := combineRows_eq h ht (hread m h.manifest_eq) hcomb
        rw [Prog.lift_ok_bind]
        rcases putScalarChunkLocked_run env timeframeMs (storedMonth (s.dirs key.dir) m month ++ records) blockSize
          (fun m' hm' => (ScalarReady.series h ht (.inr rfl)).fits hm') with href | ⟨m', month', hm', hmonth', hw⟩
        · exact .inl href
        · have hsame : scalarManifest env.now key timeframeMs cached (s.dirs key.dir) = .ok m' := by
            rw [scalarManifest_series h hc, ← scalarManifest_series h (.inr rfl) env.now]
            exact hm'
          obtain rfl : m' = m := by
            rw [scalarManifest_series h (.inr rfl)] at hm'
            split at hm'
            · cases hm'
            · exact (Except.ok.inj hm').symm
          have hfirst : monthKey (firstTs (storedMonth (s.dirs key.dir) m' month ++ records)) = .ok month := by
            cases hst : storedMonth (s.dirs key.dir) m' month with
            | nil => exact hmonth
            | cons r rs => exact storedMonth_keyed h ht (show r ∈ storedMonth (s.dirs key.dir) m' month by rw [hst]; simp)
          obtain rfl : month' = month := Except.ok.inj (hmonth'.symm.trans hfirst)
          exact .inr ⟨m', month', hsame, rfl, hbefore, hw⟩

/-- A month of scalars in order is never refused by the writer. -/
theorem scalarChunk_ok {m : SeriesMeta} {rows : List ScalarRecord} {month : Text} (o : WriteChunkOptions)
    (ho : Ordered rows) (hne : rows ≠ []) (hkey : ∀ r ∈ rows, partitionKey r.ts .month = .ok month) :
    ∃ p, scalarChunk m rows o = .ok p := by
  have hlen := length_month (R := ScalarRecord) rfl ho hkey
  unfold scalarChunk
  rw [ScalarRecord.validateStrictOrder_ok.2 ⟨hne, ho⟩, singleMonth_ok hne hkey]
  exact assembleChunk_fits (by decide) (by omega) _ _ _ _

/-- Rows after those of their month are put behind them. -/
theorem combineRows_ok {d : Dir} {sd : SeriesDir} {m : SeriesMeta} (h : SeriesOk d sd m) (ht : m.recordType = .scalar)
    (hread : ∀ c ∈ m.chunks, c.state.isReadable = true) (threads : Nat) {month : Text}
    (htf : m.timeframeMs = timeframeMs) (hbefore : ∀ r ∈ storedMonth sd m month, r.ts < firstTs records) :
    combineRows threads sd (some m) timeframeMs month records = .ok (storedMonth sd m month ++ records) := by
  unfold combineRows
  simp only
  rw [if_neg (not_not.2 htf), monthRows_eq h ht hread]
  simp only
  rw [if_neg]
  intro hany
  cases hlast : (storedMonth sd m month).getLast? with
  | none =>
    rw [hlast] at hany
    cases hany
  | some last =>
    rw [hlast, Option.any_some, decide_eq_true_iff] at hany
    exact absurd hany (not_le.2 (hbefore last (List.mem_of_getLast? hlast)))

/-- **A month of scalars after those there are is entered**, where its name is free. -/
theorem appendScalarChunkLocked_accepts {m : SeriesMeta} {month : Text} (env : Env) (blockSize : Nat)
    (h : SeriesOk key.dir (s.dirs key.dir) m) (ht : m.recordType = .scalar) (hc : cached = none ∨ cached = some m)
    (hread : ∀ c ∈ m.chunks, c.state.isReadable = true) (htf : m.timeframeMs = timeframeMs) (ho : Ordered records)
    (hnil : records ≠ []) (hkeyed : ∀ r ∈ records, partitionKey r.ts .month = .ok month)
    (hbefore : ∀ r ∈ storedMonth (s.dirs key.dir) m month, r.ts < firstTs records)
    (hfree : ∀ name, NamedFor month (nextGeneration (m.chunksForPartition month)) name →
      (s.dirs key.dir).hasFile name = false) :
    ScalarWritten env key s m month (storedMonth (s.dirs key.dir) m month ++ records)
      (appendScalarChunkLocked env key timeframeMs records blockSize cached s) := by
  obtain ⟨r, hr, hfirst⟩ := exists_firstTs hnil
  have hmonth : monthKey (firstTs records) = .ok month := by
    rw [← hfirst]
    exact hkeyed r hr
  have hkeyed' : ∀ r ∈ storedMonth (s.dirs key.dir) m month ++ records, partitionKey r.ts .month = .ok month := by
    intro r hr
    rcases List.mem_append.1 hr with hr | hr
    · exact storedMonth_keyed h ht hr
    · exact hkeyed r hr
  have ho' : Ordered (storedMonth (s.dirs key.dir) m month ++ records) := by
    refine List.pairwise_append.2 ⟨storedMonth_ordered h ht month, ho, fun a ha b hb => ?_⟩
    exact inOrder_of_lt (lt_of_lt_of_le (hbefore a ha) (firstTs_le ho hb))
  have hnil' : storedMonth (s.dirs key.dir) m month ++ records ≠ [] := fun h => hnil (List.append_eq_nil_iff.1 h).2
  have hload : loadExisting cached key.dir s = ([], .ok (some m)) := by
    unfold loadExisting
    rw [Prog.look_bind, metaFor_series h hc]
    rfl
  have hplan := scalarPlan_plan m month
  obtain ⟨⟨f, c⟩, hchunk⟩ := scalarChunk_ok (m := m) (scalarPlan m month).2 ho' hnil' hkeyed'
  unfold appendScalarChunkLocked
  rw [hmonth, Prog.lift_ok_bind, Prog.bind_run hload]
  simp only [exec_nil, Prog.look_bind, List.nil_append, Prod.mk.eta]
  rw [combineRows_ok h ht hread env.threads htf hbefore, Prog.lift_ok_bind]
  refine putScalarChunkLocked_enters (f := f) (c := c) env blockSize ?_ h.toFits ht ?_ ?_ hchunk ?_
  · rw [scalarManifest_series h (.inr rfl), if_neg (not_not.2 htf)]
  · unfold nonEmpty
    rw [if_neg (by simpa using hnil')]
  · obtain ⟨r, hr, hfirst⟩ := exists_firstTs hnil'
    rw [← hfirst]
    exact hkeyed' r hr
  · refine hfree _ ?_
    rw [← hplan.generation]
    exact hplan.named

end Run

end FastK
