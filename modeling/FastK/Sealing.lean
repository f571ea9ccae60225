import FastK.Merges
import FastK.Rerun
import FastK.Snapshot
/-!
# What sealing keeps

Sealing rewrites the state of chunks and nothing else that a read looks at: every read of a series answers as before
(`Restated.answersSame`).  A store in order is sealed in the directories that the walk finds (`sealLocked_good`), and
the walk finds the same ones afterwards (`SealedIn.mem_collect`).
-/
namespace FastK

open Journal Spans Search

/-! ## Chunk states and reads -/

def ChunkMeta.sealed (c : ChunkMeta) : ChunkMeta := { c with state := .sealed }

/-- The manifest that sealing saves. -/
def SeriesMeta.sealedAt (m : SeriesMeta) (now : Int) : SeriesMeta :=
  { m with chunks := m.chunks.map ChunkMeta.sealed, activeChunkId := none, manifestSeq := satAdd m.manifestSeq 1, updatedAt := now }

/-- The directory holds the same files, and the same manifest or the one that sealing makes of it. -/
structure Restated (sd sd' : SeriesDir) : Prop where
  chunksDir : sd'.chunksDir = sd.chunksDir
  files : sd'.files = sd.files
  manifest : sd'.manifest = sd.manifest ∨
    ∃ m now, sd.manifest = .current m ∧ m.validate = .ok () ∧ sd'.manifest = .current (m.sealedAt now)

/-- Every kline, scalar and tick read answers the same. -/
structure AnswersSame (sd sd' : SeriesDir) : Prop where
  klineRange : ∀ threads s e, getKlineRange threads sd' s e = getKlineRange threads sd s e
  klineAt : ∀ ts, getKlineAt sd' ts = getKlineAt sd ts
  klineLatest : ∀ threads n, getKlineLatestN threads sd' n = getKlineLatestN threads sd n
  scalarRange : ∀ threads s e, getScalarRange threads sd' s e = getScalarRange threads sd s e
  scalarAt : ∀ ts, getScalarAt sd' ts = getScalarAt sd ts
  tickRange : ∀ (t : RecordType) s e, getFixedRange t.Row sd' s e = getFixedRange t.Row sd s e
  tickLatest : ∀ (t : RecordType) n, getFixedLatestN t.Row sd' n = getFixedLatestN t.Row sd n

theorem SeriesMeta.chunksOrdered_sealed : ∀ {prevEnd : Option Int} {cs : List ChunkMeta}, ChunksOrdered prevEnd cs →
    ChunksOrdered prevEnd (cs.map ChunkMeta.sealed)
  | _, [], _ => trivial
  | _, _ :: _, ⟨hv, hlt, hrest⟩ => ⟨hv, hlt, chunksOrdered_sealed hrest⟩

theorem SeriesMeta.validate_sealedAt {m : SeriesMeta} (h : m.validate = .ok ()) (now : Int) :
    (m.sealedAt now).validate = .ok () := by
  obtain ⟨hhead, hchunks⟩ := validate_eq_ok.1 h
  exact validate_eq_ok.2 ⟨(validate_congr rfl rfl rfl rfl rfl).2 hhead, chunksOrdered_sealed hchunks⟩

section States

variable {m : SeriesMeta} {sd sd' : SeriesDir} {now : Int}

theorem partitionPoint_sealed {p : ChunkMeta → Bool} (hp : ∀ c, p c.sealed = p c) (cs : List ChunkMeta) :
    partitionPoint p (cs.map ChunkMeta.sealed) = partitionPoint p cs := by
  have hprobe : (fun i : Nat => ((cs.map ChunkMeta.sealed)[i]?).any p) = fun i : Nat => (cs[i]?).any p := by
    funext i
    rw [List.getElem?_map, Option.any_map]
    congr 1
    funext c
    exact hp c
  unfold partitionPoint
  rw [hprobe, List.length_map]

theorem findChunksForRange_sealedAt (s e : Int) :
    (m.sealedAt now).findChunksForRange s e = m.findChunksForRange s e := by
  have h1 : (m.sealedAt now).firstChunkWithEndGe s = m.firstChunkWithEndGe s := partitionPoint_sealed (fun _ => rfl) _
  have h2 : (m.sealedAt now).firstChunkWithStartGt e = m.firstChunkWithStartGt e :=
    partitionPoint_sealed (fun _ => rfl) _
  have h3 : (m.sealedAt now).chunks = [] ↔ m.chunks = [] := List.map_eq_nil_iff
  have h4 : (m.sealedAt now).chunks.length = m.chunks.length := List.length_map _
  unfold SeriesMeta.findChunksForRange
  simp only [h1, h2, h3, h4]

theorem chunksIn_sealedAt (r : Nat × Nat) : (m.sealedAt now).chunksIn r = (m.chunksIn r).map ChunkMeta.sealed := by
  show ((m.chunks.map ChunkMeta.sealed).drop r.1).take (r.2 - r.1) = _
  rw [← List.map_drop, ← List.map_take]
  rfl

theorem findChunkForTs_sealedAt (ts : Int) : (m.sealedAt now).findChunkForTs ts = m.findChunkForTs ts := by
  have h1 : partitionPoint (fun c : ChunkMeta => decide (c.startTs ≤ ts)) (m.sealedAt now).chunks =
      partitionPoint (fun c : ChunkMeta => decide (c.startTs ≤ ts)) m.chunks := partitionPoint_sealed (fun _ => rfl) _
  have h2 : (m.sealedAt now).chunks.isEmpty = m.chunks.isEmpty := List.isEmpty_map
  have h3 : ∀ i : Nat, (m.sealedAt now).chunks[i]? = (m.chunks[i]?).map ChunkMeta.sealed := fun i => List.getElem?_map
  unfold SeriesMeta.findChunkForTs
  simp only [h1, h2, h3]
  split
  · rfl
  · split
    · rfl
    · cases m.chunks[partitionPoint (fun c => decide (c.startTs ≤ ts)) m.chunks - 1]? <;> rfl

theorem withChunk_files {α : Type} (hf : sd'.files = sd.files) (validate : ChunkHeader → Result Unit) (c : ChunkMeta)
    (read : ChunkFile → Result α) : withChunk sd' validate c read = withChunk sd validate c read := by
  unfold withChunk SeriesDir.openChunk SeriesDir.lookup
  rw [hf]

theorem withChunk_sealed {α : Type} (hf : sd'.files = sd.files) (validate : ChunkHeader → Result Unit) (c : ChunkMeta)
    (read : ChunkFile → Result α) : withChunk sd' validate c.sealed read = withChunk sd validate c read :=
  withChunk_files hf validate c read

theorem appendChunks_map {R : Type} (read : ChunkMeta → List R → Result (List R)) (g : ChunkMeta → ChunkMeta) :
    ∀ (cs : List ChunkMeta) (out : List R), appendChunks read (cs.map g) out = appendChunks (fun c => read (g c)) cs out
  | [], _ => rfl
  | c :: cs, out => by
    rw [List.map_cons]
    unfold appendChunks
    cases read (g c) out with
    | error e => rfl
    | ok out' => exact appendChunks_map read g cs out'

theorem collect_map {α β : Type} (f : α → Result β) (g : α → α) : ∀ l :
    List α, collect f (l.map g) = collect (fun a => f (g a)) l
  | [] => rfl
  | a :: l => by
    rw [List.map_cons]
    unfold collect
    rw [collect_map f g l]

theorem shouldPlanRead_sealedAt (cs : List ChunkMeta) (s e : Int) :
    shouldPlanRead (m.sealedAt now) (cs.map ChunkMeta.sealed) s e = shouldPlanRead m cs s e := by
  unfold shouldPlanRead
  rw [List.foldl_map]
  rfl

theorem rangeCapacity_sealedAt (s e : Int) : ∀ (cs : List ChunkMeta) (sum : Nat),
    rangeCapacity (m.sealedAt now) s e (cs.map ChunkMeta.sealed) sum = rangeCapacity m s e cs sum
  | [], _ => rfl
  | c :: cs, sum => by
    rw [List.map_cons]
    unfold rangeCapacity
    simp only [rangeCapacity_sealedAt s e cs]
    rfl

theorem tailSpans_files (hf : sd'.files = sd.files) : ∀ (cs : List ChunkMeta)
    (n : Nat), tailSpans sd' cs n = tailSpans sd cs n
  | [], _ => rfl
  | c :: cs, n => by
    unfold tailSpans
    simp only [tailSpans_files hf cs, withChunk_files hf]

theorem tailParts_files {R : Type} [FixedRecord R] (hf : sd'.files = sd.files) : ∀ (cs : List ChunkMeta) (n : Nat),
    tailParts R sd' cs n = tailParts R sd cs n
  | [], _ => rfl
  | c :: cs, n => by
    unfold tailParts readTailInChunk
    simp only [tailParts_files hf cs, withChunk_files hf]

/-- The loops over the tails do not see the states. -/
theorem tailSpans_sealed (hf : sd'.files = sd.files) : ∀ (cs : List ChunkMeta) (n : Nat),
    tailSpans sd' (cs.map ChunkMeta.sealed) n = tailSpans sd cs n
  | [], _ => rfl
  | c :: cs, n => by
    rw [List.map_cons]
    unfold tailSpans
    simp only [tailSpans_sealed hf cs, withChunk_sealed hf]
    rfl

theorem tailParts_sealed {R : Type} [FixedRecord R] (hf : sd'.files = sd.files) : ∀ (cs : List ChunkMeta) (n : Nat),
    tailParts R sd' (cs.map ChunkMeta.sealed) n = tailParts R sd cs n
  | [], _ => rfl
  | c :: cs, n => by
    rw [List.map_cons]
    unfold tailParts readTailInChunk
    simp only [tailParts_sealed hf cs, withChunk_sealed hf]
    rfl

/-- **A read that takes the sealed manifest as it takes the other answers the same.** -/
theorem Restated.withMeta_eq {α : Type} (h : Restated sd sd') {read read' : SeriesMeta → Result α}
    (hsame : ∀ m, read' m = read m) (hsealed : ∀ m now, read' (m.sealedAt now) = read m) :
    withMeta sd' read' = withMeta sd read := by
  unfold withMeta
  rcases h.manifest with hm | ⟨m, now, hm, hv, hm'⟩
  · unfold SeriesDir.loadSeriesMeta
    rw [hm]
    simp only [hsame]
  · rw [SeriesDir.loadSeriesMeta_ok hm hv, SeriesDir.loadSeriesMeta_ok hm' (SeriesMeta.validate_sealedAt hv now)]
    exact hsealed m now

theorem getKlineRangePrepared_restated (hf : sd'.files = sd.files) (threads : Nat) (s e : Int) :
    (∀ m, getKlineRangePrepared threads sd' m s e = getKlineRangePrepared threads sd m s e) ∧
      ∀ (m : SeriesMeta) now, getKlineRangePrepared threads sd' (m.sealedAt now) s e =
        getKlineRangePrepared threads sd m s e := by
  constructor
  · intro m
    unfold getKlineRangePrepared
    simp only [withChunk_files hf]
  · intro m now
    unfold getKlineRangePrepared
    simp only [findChunksForRange_sealedAt, chunksIn_sealedAt, List.map_eq_nil_iff, rangeCapacity_sealedAt,
      shouldPlanRead_sealedAt, collect_map, appendChunks_map, withChunk_sealed hf]

theorem getScalarRangePrepared_restated (hf : sd'.files = sd.files) (threads : Nat) (s e : Int) :
    (∀ m, getScalarRangePrepared threads sd' m s e = getScalarRangePrepared threads sd m s e) ∧
      ∀ (m : SeriesMeta) now, getScalarRangePrepared threads sd' (m.sealedAt now) s e =
        getScalarRangePrepared threads sd m s e := by
  constructor
  · intro m
    unfold getScalarRangePrepared
    simp only [withChunk_files hf]
  · intro m now
    unfold getScalarRangePrepared
    simp only [findChunksForRange_sealedAt, chunksIn_sealedAt, List.map_eq_nil_iff, shouldPlanRead_sealedAt,
      collect_map, appendChunks_map, withChunk_sealed hf]

theorem getAtPrepared_restated {R : Type} [FixedRecord R] (hf : sd'.files = sd.files) (t : SpanTexts)
    (validate : ChunkHeader → Result Unit) (ts : Int) : (∀ m, getAtPrepared (R :=
  R) t validate sd' m ts = getAtPrepared t validate sd m ts) ∧
      ∀ (m : SeriesMeta) now, getAtPrepared (R := R) t validate sd' (m.sealedAt now) ts =
        getAtPrepared t validate sd m ts := by
  constructor
  · intro m
    unfold getAtPrepared
    simp only [withChunk_files hf]
  · intro m now
    have hget : ∀ i : Nat, (m.sealedAt now).chunks[i]? = (m.chunks[i]?).map ChunkMeta.sealed :=
      fun i => List.getElem?_map
    unfold getAtPrepared
    rw [findChunkForTs_sealedAt]
    cases m.findChunkForTs ts with
    | none => rfl
    | some i =>
      simp only [hget]
      cases m.chunks[i]? with
      | none => rfl
      | some c => exact withChunk_sealed hf validate c _

/-- **Sealing changes no answer.** -/
theorem Restated.answersSame (h : Restated sd sd') : AnswersSame sd sd' where
  klineRange threads s e := by
    obtain ⟨hsame, hsealed⟩ := getKlineRangePrepared_restated h.files threads s e
    unfold getKlineRange
    rw [h.withMeta_eq hsame hsealed]
  klineAt ts := by
    obtain ⟨hsame, hsealed⟩ :=
      @getAtPrepared_restated sd sd' KlineRecord _ h.files klineReadTexts klineValidateHeader ts
    exact h.withMeta_eq hsame hsealed
  klineLatest threads n := by
    unfold getKlineLatestN
    rw [h.withMeta_eq (fun m => ?_) (fun m now => ?_)]
    · unfold getKlineLatestNPrepared
      rw [tailSpans_files h.files]
    · unfold getKlineLatestNPrepared
      rw [show (m.sealedAt now).chunks.reverse = m.chunks.reverse.map ChunkMeta.sealed from List.map_reverse.symm,
        tailSpans_sealed h.files]
  scalarRange threads s e := by
    obtain ⟨hsame, hsealed⟩ := getScalarRangePrepared_restated h.files threads s e
    unfold getScalarRange
    rw [h.withMeta_eq hsame hsealed]
  scalarAt ts := by
    obtain ⟨hsame, hsealed⟩ :=
      @getAtPrepared_restated sd sd' ScalarRecord _ h.files scalarReadTexts scalarValidateHeader ts
    exact h.withMeta_eq hsame hsealed
  tickRange t s e := by
    unfold getFixedRange
    rw [h.withMeta_eq (fun m => ?_) (fun m now => ?_)]
    · simp only [withChunk_files h.files]
    · simp only [findChunksForRange_sealedAt, chunksIn_sealedAt, appendChunks_map, withChunk_sealed h.files]
  tickLatest t n := by
    unfold getFixedLatestN
    rw [h.withMeta_eq (fun m => ?_) (fun m now => ?_)]
    · rw [tailParts_files h.files]
    · rw [show (m.sealedAt now).chunks.reverse = m.chunks.reverse.map ChunkMeta.sealed from List.map_reverse.symm,
        tailParts_sealed h.files]

end States

/-! ## Recovery without JSON -/

section Recovery

variable {env : Env} {legacy : Dir → LegacySeriesMeta} {s : Store}

theorem migrateOnLoad_run {d : Dir} (h : (s.dirs d).manifest.isLegacy = false) :
    migrateOnLoad env legacy d s = ([], .ok ()) := by
  unfold migrateOnLoad
  rw [Prog.look_bind, h]
  rfl

theorem migrateScanned_run {d : Dir} (h : (s.dirs d).manifest.isLegacy = false) :
    migrateScanned env legacy d s = ([], .ok ()) := by
  unfold migrateScanned
  rw [Prog.look_bind]
  rcases scanChunkFiles env.order (s.dirs d) with e | ⟨_ | ⟨c, cs⟩⟩
  · rfl
  · rfl
  · exact migrateOnLoad_run h

theorem isLegacy_afterSaves {sd : SeriesDir} (h : sd.manifest.isLegacy = false) (saves : List SeriesMeta) :
    (sd.afterSaves saves).manifest.isLegacy = false := by
  unfold SeriesDir.afterSaves
  cases saves.getLast? with
  | none => exact h
  | some m => rfl

theorem recoverDirsMigrating_eq : ∀ (ds : List Dir) {s : Store}
    (report : RecoveryReport), (∀ e, (s.dirs e).manifest.isLegacy = false) →
    recoverDirsMigrating env legacy ds report s = recoverDirs env ds report s
  | [], _, _, _ => rfl
  | d :: ds, s, report, h => by
    unfold recoverDirsMigrating recoverDirs
    rw [Prog.bind_run (migrateScanned_run (h d)), exec_nil, List.nil_append, Prog.look_bind, Prog.look_bind]
    cases hrec : recoverSeriesDir env.now (s.root ++ "series".toList :: d) env.order ⟨false⟩ (s.dirs d) report with
    | mk saves result =>
      simp only
      rw [Prog.bind_run (publishManifests_run env d saves s), Prog.bind_run (publishManifests_run env d saves s)]
      cases result with
      | error e => rfl
      | ok report' =>
        rw [Prog.lift_ok_bind, Prog.lift_ok_bind, recoverDirsMigrating_eq ds report' (fun e => ?_)]
        by_cases he : e = d
        · subst he
          rw [saves_dir]
          exact isLegacy_afterSaves (h e) saves
        · rw [saves_other env he]
          exact h e

/-- Where no manifest is of the first format, the recovery of a sealing is that of any other call. -/
theorem startupRecoverMigrating_eq (h : ∀ e, (s.dirs e).manifest.isLegacy = false) :
    startupRecoverMigrating env legacy s = startupRecoverLocked env s := by
  unfold startupRecoverMigrating startupRecoverLocked
  rw [Prog.look_bind, Prog.look_bind]
  simp only
  rw [Prog.emit_bind, Prog.emit_bind]
  split
  · rw [Prog.bind_congr (recoverDirsMigrating_eq (s := Journal.Store.apply IoStep.removeTemps s) _ _ h)]
  · rfl

end Recovery

/-! ## Sealing a series -/

/-- The chunks of a manifest are all sealed. -/
def AllSealed (cs : List ChunkMeta) : Prop := ∀ c ∈ cs, c.state = .sealed

/-- What sealing leaves of a directory: the same content, under a manifest whose chunks are all sealed. -/
structure Finalized (sd sd' : SeriesDir) : Prop extends Restated sd sd' where
  settled : ∃ m, sd'.manifest = .current m ∧ AllSealed m.chunks

theorem sealChunks_run : ∀ {cs : List ChunkMeta}, (∀ c ∈ cs, c.state = .active ∨ c.state = .sealed) →
    sealChunks cs = .ok (cs.map ChunkMeta.sealed, cs.any (fun c => decide (c.state = .active)))
  | [], _ => rfl
  | c :: cs, h => by
    have ih := sealChunks_run (fun a ha => h a (List.mem_cons_of_mem c ha))
    unfold sealChunks
    rcases h c List.mem_cons_self with hc | hc
    · rw [hc, ih]
      simp [Except.map, ChunkMeta.sealed, hc]
    · have hself : c.sealed = c := by
        unfold ChunkMeta.sealed
        rw [← hc]
      rw [hc, ih]
      simp [Except.map, hself, hc]

theorem allSealed_sealed (cs : List ChunkMeta) : AllSealed (cs.map ChunkMeta.sealed) := by
  intro c hc
  obtain ⟨a, -, rfl⟩ := List.mem_map.1 hc
  rfl

section Series

variable {env : Env} {d : Dir} {s : Store} {m : SeriesMeta}

/-- A valid manifest whose chunks are settled is sealed. -/
theorem sealSeries_run (hm : (s.dirs d).manifest = .current m) (hv : m.validate = .ok ())
    (hsettled : ∀ c ∈ m.chunks, c.state = .active ∨ c.state = .sealed) :
    sealSeries env d s = ([], .ok ()) ∧ AllSealed m.chunks ∨ sealSeries env d s = (saveSteps env d (m.sealedAt env.now), .ok ()) := by
  unfold sealSeries
  rw [Prog.look_bind, SeriesDir.loadSeriesMeta_ok hm hv, Prog.lift_ok_bind, sealChunks_run hsettled, Prog.lift_ok_bind]
  simp only
  by_cases hany : ∃ c ∈ m.chunks, c.state = .active
  · right
    rw [if_pos (by simpa using hany)]
    exact saveSeriesMeta_run (SeriesMeta.validate_sealedAt hv env.now) s
  · left
    rw [if_neg (by simpa using hany)]
    exact ⟨rfl, fun c hc => (hsettled c hc).resolve_left (fun ha => hany ⟨c, hc, ha⟩)⟩

theorem restated_refl (sd : SeriesDir) : Restated sd sd := ⟨rfl, rfl, .inl rfl⟩

theorem finalized_saved (hm : (s.dirs d).manifest = .current m) (hv : m.validate = .ok ()) (env : Env) :
    Finalized (s.dirs d) ((exec (saveSteps env d (m.sealedAt env.now)) s).dirs d) := by
  rw [saveSteps_dir]
  exact ⟨⟨rfl, rfl, .inr ⟨m, env.now, hm, hv, rfl⟩⟩, _, rfl, allSealed_sealed m.chunks⟩

end Series

/-- What sealing leaves of a store: the directories are finalized, and the others as they were. -/
structure SealedIn (ds : List Dir) (s t : Store) : Prop where
  inside : ∀ e ∈ ds, Finalized (s.dirs e) (t.dirs e)
  outside : ∀ e, e ∉ ds → t.dirs e = s.dirs e
  kept : ∀ e ∈ s.known, e ∈ t.known
  known : ∀ e ∈ t.known, e ∈ s.known ∨ e ∈ ds
  seriesRoot : s.seriesRoot = true → t.seriesRoot = true

theorem sealAll_run (env : Env) : ∀ {ds : List Dir} {s : Store}, ds.Nodup →
    (∀ d ∈ ds, ∃ m, (s.dirs d).manifest = .current m ∧ m.validate = .ok () ∧ ∀ c ∈ m.chunks, c.state = .active ∨
      c.state = .sealed) →
    (Prog.forEach (sealSeries env) ds).result s = .ok () ∧ SealedIn ds s ((Prog.forEach (sealSeries env) ds).final s)
  | [], s, _, _ => ⟨rfl, fun e he => absurd he List.not_mem_nil, fun _ _ => rfl, fun _ h => h, fun _ h =>
      .inl h, fun h => h⟩
  | d :: ds, s, hn, h => by
    obtain ⟨hd, hds⟩ := List.nodup_cons.1 hn
    obtain ⟨m, hm, hv, hsettled⟩ := h d List.mem_cons_self
    -- the step at `d`, and the directories that follow
    obtain ⟨ks, hrun, hfin, hother, hkept, hknown, hroot⟩ : ∃ ks, sealSeries env d s = (ks, .ok ()) ∧
      Finalized (s.dirs d) ((exec ks s).dirs d) ∧
        (∀ e, e ≠ d → (exec ks s).dirs e = s.dirs e) ∧ (∀ e ∈ s.known, e ∈ (exec ks s).known) ∧
          (∀ e ∈ (exec ks s).known, e ∈ s.known ∨ e = d) ∧ (s.seriesRoot = true → (exec ks s).seriesRoot = true) := by
      rcases sealSeries_run hm hv hsettled with ⟨hrun, hall⟩ | hrun
      · exact ⟨[], hrun, ⟨restated_refl _, m, hm, hall⟩, fun _ _ => rfl, fun _ h => h, fun _ h => .inl h, fun h => h⟩
      · refine ⟨_, hrun, finalized_saved hm hv env, fun e he => saveSteps_other env he _ s, fun e he => ?_,
          fun e he => ?_, fun _ => rfl⟩
        · exact (mem_known_saved env d _ s).2 (.inr he)
        · exact ((mem_known_saved env d _ s).1 he).symm
    obtain ⟨hres, hrest⟩ := sealAll_run env (s := exec ks s) hds (fun e he => by
      rw [hother e (ne_of_mem_of_not_mem he hd)]
      exact h e (List.mem_cons_of_mem d he))
    have hrun' : (sealSeries env d).result s = .ok () := congrArg Prod.snd hrun
    have hfinal : (sealSeries env d).final s = exec ks s := Prog.final_of_run hrun
    unfold Prog.forEach
    rw [Prog.result_bind_ok hrun', Prog.final_bind_ok hrun', hfinal]
    refine ⟨hres, fun e he => ?_, fun e he => ?_, fun e he => hrest.kept e (hkept e he), fun e he => ?_, fun h =>
      hrest.seriesRoot (hroot h)⟩
    · rcases List.mem_cons.1 he with rfl | he
      · rw [hrest.outside e hd]
        exact hfin
      · have := hrest.inside e he
        rwa [hother e (ne_of_mem_of_not_mem he hd)] at this
    · obtain ⟨hne, hnot⟩ := not_or.1 (fun h => he (List.mem_cons.2 h))
      rw [hrest.outside e hnot, hother e hne]
    · rcases hrest.known e he with hk | he
      · rcases hknown e hk with hk | rfl
        · exact .inl hk
        · exact .inr List.mem_cons_self
      · exact .inr (List.mem_cons_of_mem d he)

/-! ## The walk over a sealed store -/

theorem discoverSeriesDirs_congr {s t : Store} (hknown : t.known = s.known) (hroot : t.seriesRoot = s.seriesRoot)
    (hdirs : ∀ e, t.dirs e = s.dirs e) (env : Env) (ways : List Dir) :
    discoverSeriesDirs env ways t = discoverSeriesDirs env ways s := by
  have hmade : t.made ways = s.made ways := by
    unfold Store.made
    rw [hknown]
  have hlooks : t.looksLikeSeries ways = s.looksLikeSeries ways := by
    funext d
    unfold Store.looksLikeSeries
    rw [hmade, hdirs]
  unfold discoverSeriesDirs
  rw [hroot, hmade, hlooks]

theorem Restated.isPresent {sd sd' : SeriesDir} (h : Restated sd sd') :
    sd'.manifest.isPresent = sd.manifest.isPresent := by
  rcases h.manifest with hm | ⟨m, now, hm, -, hm'⟩
  · rw [hm]
  · rw [hm, hm']
    rfl

section Walk

variable {env env' : Env} {ways : List Dir} {s t : Store} {d : Dir}

theorem SealedIn.restated {ds : List Dir} (h : SealedIn ds s t) (e : Dir) : Restated (s.dirs e) (t.dirs e) := by
  by_cases he : e ∈ ds
  · exact (h.inside e he).toRestated
  · rw [h.outside e he]
    exact restated_refl _

theorem SealedIn.looksLikeSeries_eq (h : SealedIn (discoverSeriesDirs env ways s) s t) :
    t.looksLikeSeries ways = s.looksLikeSeries ways :=
  looksLikeSeries_of_known h.kept h.known (fun e => ⟨(h.restated e).chunksDir, .inr (h.restated e).isPresent⟩)

/-- **The walk finds in a sealed store what it found before.** -/
theorem SealedIn.mem_collect (h : SealedIn (discoverSeriesDirs env ways s) s t) (hroot : s.seriesRoot = true) :
    d ∈ discoverSeriesDirs env' ways t ↔ d ∈ discoverSeriesDirs env ways s :=
  mem_discover_of_known ((h.seriesRoot hroot).trans hroot.symm) h.kept h.known h.looksLikeSeries_eq

end Walk

/-! ## Sealing a store in order -/

section Good

variable {B : Nat} {s : Store}

theorem GoodDir.not_legacy {d : Dir} {sd : SeriesDir} (h : GoodDir B d sd) : sd.manifest.isLegacy = false := by
  cases h with
  | empty hm _ => rw [hm]; rfl
  | series hm _ => rw [hm]; rfl

/-- What a clean report says of a directory in order. -/
theorem GoodDir.of_clean {d : Dir} {sd : SeriesDir} (h : GoodDir B d sd) {order : DirOrder}
    {options : ValidationOptions} {report : ScrubSeriesReport}
    (hscrub : scrubSeriesDir order options d sd = .ok report) (hclean : report.validation.isClean = true) :
    ∃ m, sd.manifest = .current m ∧ GoodSeries B d sd m := by
  cases h with
  | series hm h => exact ⟨_, hm, h⟩
  | empty hm hf =>
    unfold scrubSeriesDir at hscrub
    rw [validateSeriesDir_empty hm hf] at hscrub
    simp only at hscrub
    cases hscan : scanChunkFiles order sd with
    | error e => rw [hscan] at hscrub; cases hscrub
    | ok chunks =>
      rw [hscan] at hscrub
      obtain rfl := Except.ok.inj hscrub
      cases hclean

/-- **Sealing a store in order**: refused, it changes nothing; otherwise it finalizes the series that the walk finds. -/
theorem sealLocked_good (hg : GoodStore B s) (env : Env) (legacy : Dir → LegacySeriesMeta) (ways : List Dir) :
    (∃ e, (sealLocked env legacy ways).result s = .error e) ∧ GoodStore B ((sealLocked env legacy ways).final s) ∨
      (sealLocked env legacy ways).result s = .ok () ∧ s.seriesRoot = true ∧
        SealedIn (discoverSeriesDirs env ways s) s ((sealLocked env legacy ways).final s) := by
  have hstill : ∀ e ∈ discoverSeriesDirs env [] s, Recovers env s.root e (s.dirs e) (fun saves => saves = []) :=
    fun e _ => (hg.dir e).recovers env s.root
  obtain ⟨tr, report, hrun, hquiet⟩ := startupRecover_quiet hstill
  have hrec : startupRecoverMigrating env legacy s = (tr, .ok report) :=
    (startupRecoverMigrating_eq (fun e => (hg.dir e).not_legacy)).trans hrun
  have hdirs := exec_quiet hquiet s
  obtain ⟨hknown, hsame⟩ := exec_quiet_known hquiet s
  have hgt : GoodStore B (exec tr s) := hg.same hdirs
  have hwalk := discoverSeriesDirs_congr hknown hsame hdirs env ways
  have hres : (startupRecoverMigrating env legacy).result s = .ok report := congrArg Prod.snd hrec
  unfold sealLocked
  rw [Prog.result_bind_ok hres, Prog.final_bind_ok hres, Prog.final_of_run hrec]
  generalize exec tr s = t at hdirs hknown hsame hgt hwalk ⊢
  rw [Prog.result_bind_ok (Prog.result_look t), Prog.final_bind_ok (Prog.result_look t), Prog.final_look]
  cases hscrub : scrubStore env ways ⟨true, true⟩ t with
  | error e => exact .inl ⟨⟨e, rfl⟩, hgt⟩
  | ok reports =>
    rw [Prog.lift_ok_bind]
    by_cases hbad : (reports.isEmpty || reports.any (fun r => !r.validation.isClean)) = true
    · rw [if_pos hbad]
      exact .inl ⟨⟨_, rfl⟩, hgt⟩
    · rw [if_neg hbad]
      simp only [Bool.or_eq_true, not_or, Bool.not_eq_true, List.any_eq_false, Bool.not_eq_false',
        List.isEmpty_eq_false_iff] at hbad
      obtain ⟨hne, hclean⟩ := hbad
      have hall := collect_eq_ok hscrub
      -- every directory found has a series in order
      have hseries : ∀ d ∈ discoverSeriesDirs env ways t, ∃ m, (t.dirs d).manifest = .current m ∧ m.validate = .ok () ∧
          ∀ c ∈ m.chunks, c.state = .active ∨ c.state = .sealed := by
        intro d hd
        obtain ⟨r, hr, hdr⟩ := exists_of_mem_forall₂ hall.flip hd
        obtain ⟨m, hm, h⟩ := (hgt.dir d).of_clean hdr (hclean r hr)
        exact ⟨m, hm, h.fits.valid, fun c hc => h.tidy.settled c hc⟩
      have hroot : t.seriesRoot = true := by
        by_contra hroot
        have hnil : discoverSeriesDirs env ways t = [] := by
          unfold discoverSeriesDirs
          rw [if_neg hroot]
        rw [hnil] at hall
        cases hall
        exact hne rfl
      obtain ⟨hok, hsealed⟩ := sealAll_run env (discoverSeriesDirs_nodup env ways t) hseries
      rw [hsame] at hroot
      refine .inr ⟨hok, hroot, ?_⟩
      rw [← hwalk]
      refine ⟨fun e he => ?_, fun e he => ?_, fun e he => hsealed.kept e ?_, fun e he => ?_, fun _ =>
        hsealed.seriesRoot ?_⟩
      · rw [← hdirs]
        exact hsealed.inside e he
      · rw [← hdirs]
        exact hsealed.outside e he
      · rw [hknown]
        exact he
      · rw [← hknown]
        exact hsealed.known e he
      · exact hsame.trans hroot

end Good

end FastK
