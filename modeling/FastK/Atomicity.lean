import FastK.Interrupted
import FastK.Replacement
import FastK.Rerun
/-!
# Stopped writes, recovered

A write that enters one chunk leaves, wherever it stops, the old manifest with some of its files or the new manifest
with all of them.  Where the new chunk meets every chunk it replaces, recovery of the former gives the rows before or
after the write, and leaves the latter alone (`Entered.recovered_rows`, `Entered.committed_nothing`).  A chunk that
meets no chunk of its month has nothing to say about them, and recovery then keeps both.
-/
namespace FastK

open Journal Spans Versioned

/-! ## Recovery of one entry -/

section Entry

variable {d : Dir} {t : RecordType} {u : PartitionUnit} {sd sd' sd₁ sd₂ : SeriesDir} {m m' : SeriesMeta}
    {kept : List ChunkMeta} {key name : Text}
  {f : ChunkFile} {rows : List t.Row} {c : ChunkMeta}

theorem Laying.supplied (hl : Laying sd sd' [(name, f)]) (hf : HasChunk sd' name f) :
    Supplied sd sd' [(name, f)] m' where
  filed := hl.filed
  has p hp := by
    rw [List.mem_singleton.1 hp]
    exact hf
  kept n g hg _ := hl.kept n g hg
  only := hl.only

/-- The rows under the new manifest depend on the files it names. -/
theorem Entered.rows_supplied (w : Entered t u sd m kept key name f rows c m') (h : Fits d sd m)
    (h₁ : Supplied sd sd₁ [(name, f)] m') (h₂ : Supplied sd sd₂ [(name, f)] m') :
    m'.chunks.flatMap (rowsIn t sd₂) = m'.chunks.flatMap (rowsIn t sd₁) := by
  refine List.flatMap_congr (fun e he => ?_)
  rcases w.mem.1 he with hk | rfl
  · obtain ⟨n, g, -, hg, -, hent⟩ := h.tracked e (w.kept_sublist.subset hk)
    exact rowsIn_of_hasChunk h₁.filed h₂.filed hent.path (h₁.kept n g hg ⟨e, he, hent.path⟩) (h₂.kept n g hg
      ⟨e, he, hent.path⟩)
  · exact rowsIn_of_hasChunk h₁.filed h₂.filed w.laid.entry.path (h₁.has (name, f) (by simp)) (h₂.has
      (name, f) (by simp))

/-- The old rows while files are laid out. -/
theorem Laying.rows_old (hl : Laying sd sd' [(name, f)]) (h : SeriesOk d sd m) :
    seriesRows t sd' = seriesRows t sd := by
  rw [seriesRows_eq h.manifest_eq, seriesRows_eq (hl.manifest.trans h.manifest_eq)]
  refine List.flatMap_congr (fun e he => ?_)
  obtain ⟨n, g, -, hg, -, hent⟩ := h.tracked e he
  exact rowsIn_of_hasChunk h.filed hl.filed hent.path hg (hl.kept n g hg)

theorem Laying.seriesOk (hl : Laying sd sd' [(name, f)]) (w : Entered t u sd m kept key name f rows c m')
    (h : SeriesOk d sd m) (ht : m.recordType = t) (hu : m.unit = u) : SeriesOk d sd' m := by
  subst ht hu
  refine ⟨h.toFits.laying hl (fun p hp => ?_), hl.manifest.trans h.manifest_eq⟩
  rw [List.mem_singleton.1 hp]
  exact ⟨key, rows, w.laid.file⟩

/-- Besides the new file all are described. -/
theorem Laying.untracked (hl : Laying sd sd' [(name, f)]) (hex : Exact sd m) :
    ∀ n g, HasChunk sd' n g → n ≠ name → ∃ e ∈ m.chunks, e.relativePath = chunkRelativePath n := by
  intro n g hg hn
  rcases hl.only n g hg with hnew | hold
  · exact absurd (Prod.mk.inj (List.mem_singleton.1 hnew)).1 hn
  · exact hex n g hold

/-- The new chunk meets every chunk it replaces. -/
def MeetsReplaced (m : SeriesMeta) (kept : List ChunkMeta) (c : ChunkMeta) : Prop := ∀ e ∈ m.chunks, e ∉ kept →
    SpansMeet e c

/-- The new chunk is newer than every chunk it replaces. -/
def NewerThanReplaced (m : SeriesMeta) (kept : List ChunkMeta) (c : ChunkMeta) : Prop := ∀ e ∈ m.chunks, e ∉ kept →
    e.generation < c.generation

theorem Entered.newer (w : Entered t u sd m kept key name f rows c m') (hsat : Unsaturated m key) :
    NewerThanReplaced m kept c := by
  intro e he hk
  rw [w.laid.generation]
  refine hsat.lt_next he ?_
  by_contra hne
  exact hk (w.mem_kept he hne)

/-- What the new chunk does not meet is kept. -/
theorem Entered.filter_meets (w : Entered t u sd m kept key name f rows c m') (h : Fits d sd m) (hu : m.unit = u)
    (hmeets : MeetsReplaced m kept c) :
    m.chunks.filter (fun e => !decide (SpansMeet e c)) = kept := by
  have hiff : ∀ e ∈ m.chunks, ¬ SpansMeet e c ↔ e ∈ kept := fun e he =>
    ⟨fun hno => by_contra (fun hk => hno (hmeets e he hk)), fun hk => w.not_meets h hu hk⟩
  rcases w.place with hother | ⟨hall, -⟩
  · rw [hother]
    refine List.filter_congr (fun e he => ?_)
    rw [Bool.eq_iff_iff, Bool.not_eq_true', decide_eq_false_iff_not, decide_eq_true_iff, hiff e he, hother,
      mem_otherChunks]
    exact and_iff_right he
  · rw [hall]
    refine List.filter_eq_self.2 (fun e he => ?_)
    rw [Bool.not_eq_true', decide_eq_false_iff_not, hiff e he, hall]
    exact he

/-- **Recovery before the manifest**: the old rows, or those of the new manifest. -/
theorem Entered.recovered_rows (w : Entered t u sd m kept key name f rows c m') (h : SeriesOk d sd m)
    (hex : Exact sd m) (ht : m.recordType = t) (hu : m.unit = u) (hl : Laying sd sd' [(name, f)])
    (hmeets : MeetsReplaced m kept c) {now : Int} {cs : List ChunkMeta} (hscan : Scans sd' cs)
    {saves : List SeriesMeta} (hs : saves = [] ∧ recoveredChunks m cs = m.chunks ∨
      saves = [recoveredMeta now m (recoveredChunks m cs)]) :
    seriesRows t (recoveredDir sd' m saves) = seriesRows t sd ∨
      Supplied sd sd' [(name, f)] m' ∧ seriesRows t (recoveredDir sd' m saves) = m'.chunks.flatMap (rowsIn t sd') := by
  have hok := hl.seriesOk w h ht hu
  by_cases hf : HasChunk sd' name f
  · rw [recover_orphan hok hf w.laid.entry (hl.untracked hex) hscan hs t]
    by_cases hadopts : ChunkAdopts m.chunks c
    · rw [if_pos hadopts, w.filter_meets h.toFits hu hmeets, ← w.chunks]
      exact .inr ⟨hl.supplied hf, rfl⟩
    · rw [if_neg hadopts]
      exact .inl (hl.rows_old h)
  · have hno : Exact sd' m := by
      intro n g hg
      rcases hl.only n g hg with hnew | hold
      · obtain ⟨rfl, rfl⟩ := Prod.mk.inj (List.mem_singleton.1 hnew)
        exact absurd hg hf
      · exact hex n g hold
    rw [recover_keeps_rows hok hno.nothingToAdopt hscan hs t]
    exact .inl (hl.rows_old h)

/-- **After the manifest there is nothing to adopt**: what was replaced is older than what it meets. -/
theorem Entered.committed_nothing (w : Entered t u sd m kept key name f rows c m') (h : SeriesOk d sd m)
    (hex : Exact sd m) (hmeets : MeetsReplaced m kept c) (hnewer : NewerThanReplaced m kept c)
    (hcom : Committed sd sd' [(name, f)] m') : NothingToAdopt sd' m' := by
  intro y n g hg hy hadopts
  have hc : c ∈ m'.chunks := w.mem.2 (.inr rfl)
  rcases hcom.only n g hg with hnew | hold
  · obtain ⟨rfl, rfl⟩ := Prod.mk.inj (List.mem_singleton.1 hnew)
    exact (hadopts c hc).1 (w.laid.entry.path.trans hy.entry.path.symm)
  · obtain ⟨e, he, hp⟩ := hex n g hold
    by_cases hk : e ∈ kept
    · exact (hadopts e (w.mem.2 (.inl hk))).1 (hp.trans hy.entry.path.symm)
    · obtain ⟨n', g', -, hg', -, hent⟩ := h.tracked e he
      obtain rfl : n = n' := chunkRelativePath_inj (hp.symm.trans hent.path)
      obtain rfl := h.filed.hasChunk_inj hold hg'
      have hmeet : SpansMeet c y := by
        have hm := hmeets e he hk
        unfold SpansMeet Meets at hm ⊢
        rw [hy.entry.startTs, hy.entry.endTs, ← hent.startTs, ← hent.endTs]
        exact ⟨hm.2, hm.1⟩
      have hlt := ((hadopts c hc).2 hmeet).1
      rw [hy.entry.generation, ← hent.generation] at hlt
      exact absurd (hnewer e he hk) (not_lt.2 (le_of_lt hlt))

end Entry

/-! ## Recovery of the store -/

section Recovery

variable {env : Env} {d : Dir} {C : Nat} {x : Store}

/-- **Recovery of a store in which one directory has been left unfinished**: where the walk finds it, it is recovered.
-/
theorem recover_one {Q : List SeriesMeta → Prop} (hd : x.hidden d = false → Recovers env x.root d (x.dirs d) Q)
    (hgood : ∀ e, e ≠ d → GoodDir C e (x.dirs e)) :
    (∃ report, (startupRecoverLocked env).result x = .ok report) ∧
      (∀ e, e ≠ d → ((startupRecoverLocked env).final x).dirs e = x.dirs e) ∧
      (((startupRecoverLocked env).final x).dirs d = x.dirs d ∨
        x.hidden d = false ∧ ∃ saves, Q saves ∧
          ((startupRecoverLocked env).final x).dirs d = (x.dirs d).afterSaves saves) := by
  have hseen : ∀ e, e ∈ discoverSeriesDirs env [] x → x.hidden e = false := fun e he => (mem_discover_iff.1 he).2.2.2
  have hall : ∀ e ∈ discoverSeriesDirs env [] x, Recovers env x.root e (x.dirs e) (fun saves => (e ≠ d → saves = []) ∧
    (e = d → Q saves)) := by
    intro e hfound report
    by_cases he : e = d
    · subst he
      obtain ⟨saves, report', hrec, hQ⟩ := hd (hseen e hfound) report
      exact ⟨saves, report', hrec, fun hne => absurd rfl hne, fun _ => hQ⟩
    · obtain ⟨saves, report', hrec, hnil⟩ := (hgood e he).recovers env x.root report
      exact ⟨saves, report', hrec, fun _ => hnil, fun heq => absurd heq he⟩
  obtain ⟨tr, report, hrun, hrest⟩ := startupRecover_run hall
  have hfin := Prog.final_of_run hrun
  refine ⟨⟨report, Prog.result_of_run hrun⟩, fun e he => ?_, ?_⟩
  · rw [hfin]
    rcases hrest e with ⟨-, -, saves, hQ, heq⟩ | ⟨-, heq⟩
    · rw [heq, hQ.1 he, SeriesDir.afterSaves_nil]
    · exact heq
  · rw [hfin]
    rcases hrest d with ⟨-, hfound, saves, hQ, heq⟩ | ⟨-, heq⟩
    · exact .inr ⟨hseen d hfound, saves, hQ.2 rfl, heq⟩
    · exact .inl heq

/-- A directory for which recovery saves nothing, whether it succeeds or not. -/
def Unsaved (env : Env) (root d : Dir) (sd : SeriesDir) : Prop :=
  ∀ report, (recoverSeriesDir env.now (root ++ "series".toList :: d) env.order ⟨false⟩ sd report).1 = []

theorem recoverDirs_unsaved (env : Env) : ∀ (ds : List Dir), (∀ e ∈ ds, Unsaved env x.root e (x.dirs e)) →
    ∀ report, ∃ r, recoverDirs env ds report x = ([], r)
  | [], _, report => ⟨.ok report, rfl⟩
  | d :: ds, h, report => by
    have hnil := h d (by simp) report
    generalize hrec : recoverSeriesDir env.now (x.root ++ "series".toList :: d) env.order ⟨false⟩
      (x.dirs d) report = r at hnil
    obtain ⟨saves, result⟩ := r
    obtain rfl : saves = [] := hnil
    unfold recoverDirs
    rw [Prog.look_bind, hrec]
    simp only
    rw [Prog.bind_run (publishManifests_run env d [] x)]
    cases result with
    | error e => exact ⟨.error e, rfl⟩
    | ok report' =>
      obtain ⟨r, hrun⟩ := recoverDirs_unsaved env ds (fun e he => h e (by simp [he])) report'
      exact ⟨r, hrun⟩

/-- **Where recovery has nothing to save it changes nothing**, whether it succeeds or not. -/
theorem startupRecover_unsaved (h : ∀ e ∈ discoverSeriesDirs env [] x, Unsaved env x.root e (x.dirs e)) (e : Dir) :
    ((startupRecoverLocked env).final x).dirs e = x.dirs e := by
  have hquiet : ∃ tr r, startupRecoverLocked env x = (tr, r) ∧ ∀ k ∈ tr, k = .removeTemps ∨ k = .disarm := by
    unfold startupRecoverLocked
    rw [Prog.look_bind]
    simp only
    rw [Prog.emit_bind]
    cases hroot : x.seriesRoot with
    | false =>
      rw [if_neg (by simp)]
      exact ⟨[.removeTemps, .disarm], _, rfl, by simp⟩
    | true =>
      rw [if_pos rfl]
      obtain ⟨r, hrun⟩ := recoverDirs_unsaved env (x := Journal.Store.apply IoStep.removeTemps x)
        (discoverSeriesDirs env [] x) h
        { RecoveryReport.start ⟨false⟩ with removedTempFiles := x.temps.length, removedTempPaths := x.temps }
      cases r with
      | error err =>
        rw [Prog.bind_run_error hrun]
        exact ⟨[.removeTemps], _, rfl, by simp⟩
      | ok report =>
        rw [Prog.bind_run hrun, Prog.emit_bind]
        exact ⟨[.removeTemps, .disarm], _, rfl, by simp⟩
  obtain ⟨tr, r, hrun, hks⟩ := hquiet
  rw [Prog.final_of_run hrun]
  exact exec_quiet hks x e

/-- Recovery can name the series in `d`: it has a manifest, or its path does. -/
def Nameable (x : Store) (d : Dir) : Prop :=
  (x.dirs d).manifest.isPresent = true ∨ ∃ key, pathIdentity (x.root ++ "series".toList :: d) = .ok key ∧
    key.isBlank = false

/-- Recovery leaves rows of the series in `d` that satisfy `P` with a series that reads them, and no other change; it
succeeds where it can name the series. -/
structure RecoversTo (env : Env) (x : Store) (d : Dir) (t : RecordType) (P : List t.Row → Prop) : Prop where
  succeeds : x.hidden d = true ∨ Nameable x d → ∃ report, (startupRecoverLocked env).result x = .ok report
  others : ∀ e, e ≠ d → ((startupRecoverLocked env).final x).dirs e = x.dirs e
  rows : P (seriesRows t (((startupRecoverLocked env).final x).dirs d))
  series : ∀ m, (((startupRecoverLocked env).final x).dirs d).manifest = .current m →
    m.recordType = t ∧ ∃ d', SeriesOk d' (((startupRecoverLocked env).final x).dirs d) m

theorem RecoversTo.imp {t : RecordType} {P P' : List t.Row → Prop} (h : RecoversTo env x d t P)
    (hP : ∀ rows, P rows → P' rows) : RecoversTo env x d t P' :=
  ⟨h.succeeds, h.others, hP _ h.rows, h.series⟩

/-- A store in order is left as it is. -/
theorem GoodStore.recoversTo {t : RecordType} (hg : GoodStore C x) (ht : OfType t (x.dirs d)) (env : Env) :
    RecoversTo env x d t (fun l => l = seriesRows t (x.dirs d)) := by
  obtain ⟨tr, report, hrun, hdirs⟩ := hg.recover env
  have hfin : ∀ e, ((startupRecoverLocked env).final x).dirs e = x.dirs e := by
    rw [Prog.final_of_run hrun]
    exact hdirs
  refine ⟨fun _ => ⟨report, Prog.result_of_run hrun⟩, fun e _ => hfin e, by rw [hfin], fun m hm => ?_⟩
  rw [hfin] at hm ⊢
  exact ⟨ht m hm, d, ((hg.dir d).of_current hm).seriesOk hm⟩

theorem SeriesOk.recoversTo {t : RecordType} {m : SeriesMeta} {P : List t.Row → Prop}
    (hgood : ∀ e, e ≠ d → GoodDir C e (x.dirs e)) (h : SeriesOk d (x.dirs d) m) (ht : m.recordType = t)
    (hu : m.unit = .month) (hP : P (seriesRows t (x.dirs d))) (hrec : x.hidden d = false → ∀ now cs saves,
      Scans (x.dirs d) cs →
      (saves = [] ∧ recoveredChunks m cs = m.chunks ∨ saves = [recoveredMeta now m (recoveredChunks m cs)]) →
        P (seriesRows t (recoveredDir (x.dirs d) m saves))) :
    RecoversTo env x d t P := by
  have hd : x.hidden d = false → Recovers env x.root d (x.dirs d) (fun saves => ∃ now cs, Scans (x.dirs d) cs ∧
      (saves = [] ∧ recoveredChunks m cs = m.chunks ∨ saves = [recoveredMeta now m (recoveredChunks m cs)])) := by
    intro _ report
    obtain ⟨cs, saves, report', hscan, hrun, hs⟩ := h.recover env.now (x.root ++ "series".toList :: d) env.order report
    exact ⟨saves, report', hrun, env.now, cs, hscan, hs⟩
  obtain ⟨hres, hothers, hdir⟩ := recover_one hd hgood
  rcases hdir with hsame | ⟨hseen, saves, ⟨now, cs, hscan, hs⟩, heq⟩
  · refine ⟨fun _ => hres, hothers, by rw [hsame]; exact hP, ?_⟩
    rw [hsame]
    intro m₁ hm₁
    obtain rfl := ManifestFile.current.inj (h.manifest_eq.symm.trans hm₁)
    exact ⟨ht, d, h⟩
  · rw [afterSaves_current h.manifest_eq] at heq
    have hok := h.recovered hu hscan hs
    refine ⟨fun _ => hres, hothers, by rw [heq]; exact hrec hseen now cs saves hscan hs, ?_⟩
    rw [heq]
    intro m₁ hm₁
    obtain rfl := ManifestFile.current.inj (hok.manifest_eq.symm.trans hm₁)
    exact ⟨(lastSaved_spec h.valid h.count_pos hscan.readable hs).2.1.recordType.trans ht, d, hok⟩

/-- A manifest is not rebuilt for a path that names no series. -/
theorem rebuild_refused {now : Int} {path : Dir} {order : DirOrder} {sd : SeriesDir} {report : RecoveryReport}
    (hm : sd.manifest = .missing) (hid : ¬ ∃ key, pathIdentity path = .ok key ∧ key.isBlank = false) :
    (recoverSeriesDir now path order ⟨false⟩ sd report).1 = [] := by
  have hload : sd.loadSeriesMeta = .error (.notFound "series meta not found: series.meta") := by
    unfold SeriesDir.loadSeriesMeta
    rw [hm]
  have hrebuild : ∀ m, rebuildManifest now path order sd ≠ .ok m := by
    intro m hok
    unfold rebuildManifest at hok
    repeat' split at hok
    all_goals first | cases hok | skip
    unfold buildSeriesMetaFromChunks at hok
    rw [hload] at hok
    simp only at hok
    repeat' split at hok
    all_goals first | cases hok | skip
    rename_i key hkey _ _ _ _ _ hbase
    split at hbase
    · obtain rfl := Except.ok.inj hbase
      obtain ⟨hv, -⟩ := checked_eq_ok.1 hok
      obtain ⟨⟨hs, hc, hn, -⟩, -⟩ := SeriesMeta.validate_eq_ok.1 hv
      refine hid ⟨key, hkey, ?_⟩
      unfold ScalarSeriesKey.isBlank
      rw [Bool.or_eq_false_iff, Bool.or_eq_false_iff, and_assoc]
      exact ⟨hs, hc, hn⟩
    · cases hbase
  unfold recoverSeriesDir
  rw [hload]
  cases hr : rebuildManifest now path order sd with
  | ok m => exact absurd hr (hrebuild m)
  | error e =>
    cases scanChunkFiles order sd with
    | error e => rfl
    | ok cs =>
      simp only
      split <;> rfl

/-- **A first chunk without a manifest**: it gets one, or nothing happens. -/
theorem first_recoversTo {name : Text} {f : ChunkFile} {rows : List ScalarRecord}
    (hgood : ∀ e, e ≠ d → GoodDir C e (x.dirs e)) (hm : (x.dirs d).manifest = .missing)
    (hfiles : FilesOk (x.dirs d) .scalar .month) (hone : ∀ n g, HasChunk (x.dirs d) n g → n = name ∧ g = f)
    (hholds : Holds ScalarRecord f rows) : RecoversTo env x d .scalar (fun l => l = [] ∨ l = rows) := by
  have hnone : seriesRows .scalar (x.dirs d) = [] := by
    unfold seriesRows
    rw [hm]
  have hsame : (∀ e, ((startupRecoverLocked env).final x).dirs e = x.dirs e) →
      (x.hidden d = true ∨ Nameable x d → ∃ report, (startupRecoverLocked env).result x = .ok report) →
      RecoversTo env x d .scalar (fun l => l = [] ∨ l = rows) := by
    intro hfin hres
    refine ⟨hres, fun e _ => hfin e, by rw [hfin]; exact .inl hnone, fun m hm₁ => ?_⟩
    rw [hfin, hm] at hm₁
    cases hm₁
  by_cases hid : ∃ key, pathIdentity (x.root ++ "series".toList :: d) = .ok key ∧ key.isBlank = false
  · obtain ⟨key, hkey, hblank⟩ := hid
    have hd : x.hidden d = false → Recovers env x.root d (x.dirs d) (fun saves => saves = [] ∨ ∃ y,
      HasChunk (x.dirs d) name f ∧ ScanOf y name f ∧
        saves = [rebuiltMeta env.now key f y] ∧
          SeriesOk key.dir { x.dirs d with manifest := .current (rebuiltMeta env.now key f y) }
          (rebuiltMeta env.now key f y)) := by
      intro _ report
      by_cases hf : HasChunk (x.dirs d) name f
      · obtain ⟨y, report', hy, hrun, hok⟩ :=
          recover_rebuild hm hfiles hf (fun n g hg => (hone n g hg).1) hkey hblank env.now env.order report
        exact ⟨_, report', hrun, .inr ⟨y, hf, hy, rfl, hok⟩⟩
      · obtain ⟨cs, hcs, hscan⟩ := hfiles.scans env.order
        obtain rfl := hscan.nil_iff.2 (fun n g hg => by
          obtain ⟨rfl, rfl⟩ := hone n g hg
          exact hf hg)
        exact ⟨[], report, recoverSeriesDir_nil hcs, .inl rfl⟩
    obtain ⟨hres, hothers, hdir⟩ := recover_one hd hgood
    rcases hdir with heq | ⟨-, saves, rfl | ⟨y, hf, hy, rfl, hok⟩, heq⟩
    · refine hsame (fun e => ?_) (fun _ => hres)
      by_cases he : e = d
      · rw [he, heq]
      · exact hothers e he
    · refine hsame (fun e => ?_) (fun _ => hres)
      by_cases he : e = d
      · rw [he, heq, SeriesDir.afterSaves_nil]
      · exact hothers e he
    · refine ⟨fun _ => hres, hothers, .inr ?_, fun m hm₁ => ?_⟩
      · rw [heq]
        have hrows : seriesRows .scalar { x.dirs d with manifest := .current (rebuiltMeta env.now key f y) } =
            rowsIn .scalar { x.dirs d with manifest := .current (rebuiltMeta env.now key f y) } y := by
          rw [seriesRows_eq hok.manifest_eq]
          exact List.append_nil _
        exact hrows.trans (rowsIn_eq (t := .scalar) hok.filed hf hy.entry.path hholds)
      · rw [heq] at hm₁ ⊢
        obtain rfl := ManifestFile.current.inj hm₁
        exact ⟨rfl, key.dir, hok⟩
  · have hunsaved : ∀ e ∈ discoverSeriesDirs env [] x, Unsaved env x.root e (x.dirs e) := by
      intro e _ report
      by_cases he : e = d
      · subst he
        exact rebuild_refused hm hid
      · obtain ⟨saves, report', hrun, rfl⟩ := (hgood e he).recovers env x.root report
        rw [hrun]
    refine hsame (startupRecover_unsaved hunsaved) (fun hseen => ?_)
    rcases hseen with hhid | hpresent | hid'
    · have hunseen : x.hidden d = false → Recovers env x.root d (x.dirs d) (fun _ => True) := by
        intro hno
        rw [hhid] at hno
        cases hno
      exact (recover_one hunseen hgood).1
    · rw [hm] at hpresent
      cases hpresent
    · exact absurd hid' hid

end Recovery

/-! ## A stopped write of one chunk -/

section Write

variable {env : Env} {d : Dir} {t : RecordType} {C : Nat} {m m' : SeriesMeta} {key : Text} {rows : List t.Row}
    {v x : Store}

/-- The write has been stopped before its manifest, or after. -/
def EntryWrite.StoppedAt (w : EntryWrite env d t .month (v.dirs d) m m' key rows) (x : Store) : Prop :=
  Laying (v.dirs d) (x.dirs d) [(w.name, w.file)] ∨ Committed (v.dirs d) (x.dirs d) [(w.name, w.file)] m'

/-- **A write of one chunk to a series, stopped and recovered**: the rows before it or those after it, if recovery
does not look for the directory or the chunk meets all it replaces. -/
theorem EntryWrite.recoversTo (w : EntryWrite env d t .month (v.dirs d) m m' key rows) (env' : Env)
    (h : SeriesOk d (v.dirs d) m) (hex : Exact (v.dirs d) m) (ht : m.recordType = t) (hu : m.unit = .month)
    (hsat : Unsaturated m key) (hx : w.StoppedAt x) (hmeets : x.hidden d = true ∨ MeetsReplaced m w.kept w.entry)
    (hgood : ∀ e, e ≠ d → GoodDir C e (x.dirs e)) :
    RecoversTo env' x d t (fun l => l = seriesRows t (v.dirs d) ∨ l = seriesRows t ((exec w.steps v).dirs d)) := by
  have hfinal := w.final h.toFits
  have hafter : seriesRows t ((exec w.steps v).dirs d) = m'.chunks.flatMap (rowsIn t ((exec w.steps v).dirs d)) :=
    seriesRows_eq hfinal.manifest
  have hmeet : x.hidden d = false → MeetsReplaced m w.kept w.entry :=
    fun hseen => hmeets.resolve_left (by rw [hseen]; decide)
  rcases hx with hl | hc
  · refine SeriesOk.recoversTo hgood (hl.seriesOk w.entered h ht hu) ht hu (.inl (hl.rows_old h))
      (fun hseen now cs saves hscan hs => ?_)
    rcases w.entered.recovered_rows h hex ht hu hl (hmeet hseen) hscan hs with heq | ⟨hsup, heq⟩
    · exact .inl heq
    · rw [heq, hafter]
      exact .inr (w.entered.rows_supplied h.toFits hfinal.toSupplied hsup)
  · have hok := w.seriesOk h.toFits ht hu hc
    have hrows : seriesRows t (x.dirs d) = seriesRows t ((exec w.steps v).dirs d) := by
      rw [hafter, seriesRows_eq hc.manifest]
      exact w.entered.rows_supplied h.toFits hfinal.toSupplied hc.toSupplied
    refine SeriesOk.recoversTo hgood hok (w.entered.head.recordType.trans ht) (w.entered.head.unit.trans hu)
      (.inr hrows)
      (fun hseen now cs saves hscan hs => ?_)
    have hno := w.entered.committed_nothing h hex (hmeet hseen) (w.entered.newer hsat) hc
    rw [recover_keeps_rows hok hno hscan hs t]
    exact .inr hrows

/-- The rows after a first chunk are its own. -/
theorem EntryWrite.rows_first {u : PartitionUnit} {sd : SeriesDir} (w : EntryWrite env d t u sd m m' key rows)
    (hnil : m.chunks = []) (hc : Committed sd (x.dirs d) [(w.name, w.file)] m') :
    m'.chunks = [w.entry] ∧ seriesRows t (x.dirs d) = rows := by
  have hkept : w.kept = [] := List.sublist_nil.1 (hnil ▸ w.entered.kept_sublist)
  have hone : m'.chunks = [w.entry] := by
    rw [w.entered.chunks, hkept]
    rfl
  refine ⟨hone, ?_⟩
  rw [seriesRows_eq hc.manifest, hone]
  exact (List.append_nil _).trans (rowsIn_eq hc.filed (hc.has
    (w.name, w.file) (by simp)) w.entered.laid.entry.path w.entered.laid.file.holds)

end Write

section Scalar

variable {env : Env} {d : Dir} {C : Nat} {m m' : SeriesMeta} {month : Text} {rows : List ScalarRecord} {v x : Store}

/-- **A write of one chunk of scalars, stopped and recovered**, where there was a series or where it was to be the
first chunk. -/
theorem EntryWrite.recoversTo_scalar (w : EntryWrite env d .scalar .month (v.dirs d) m m' month rows) (env' : Env)
    (h : Fits d (v.dirs d) m) (hex : Exact (v.dirs d) m) (ht : m.recordType = .scalar)
    (hbase : (v.dirs d).manifest = .current m ∨ m.chunks = [] ∧ (v.dirs d).manifest = .missing)
    (hsat : Unsaturated m month) (hx : w.StoppedAt x) (hmeets : x.hidden d = true ∨ MeetsReplaced m w.kept w.entry)
    (hgood : ∀ e, e ≠ d → GoodDir C e (x.dirs e)) :
    RecoversTo env' x d .scalar (fun l => l = seriesRows .scalar (v.dirs d) ∨
      l = seriesRows .scalar ((exec w.steps v).dirs d)) := by
  have hu := h.head.unit_month (.inr ht)
  rcases hbase with hcur | ⟨hnil, hmiss⟩
  · exact w.recoversTo env' ⟨h, hcur⟩ hex ht hu hsat hx hmeets hgood
  · have hnone : ∀ n g, ¬ HasChunk (v.dirs d) n g := by
      intro n g hg
      obtain ⟨e, he, -⟩ := hex n g hg
      rw [hnil] at he
      cases he
    have hbefore : seriesRows .scalar (v.dirs d) = [] := by rw [seriesRows_base (.inr ⟨hnil, hmiss⟩), hnil]; rfl
    have hafter : seriesRows .scalar ((exec w.steps v).dirs d) = rows := (w.rows_first hnil (w.final h)).2
    rw [hbefore, hafter]
    rcases hx with hl | hc
    · have hone : ∀ n g, HasChunk (x.dirs d) n g → n = w.name ∧ g = w.file := by
        intro n g hg
        rcases hl.only n g hg with hnew | hold
        · exact Prod.mk.inj (List.mem_singleton.1 hnew)
        · exact absurd hold (hnone n g)
      have hfits : Fits d (x.dirs d) m := h.laying hl (fun p hp => by
        rw [List.mem_singleton.1 hp, ht, hu]
        exact ⟨month, rows, w.entered.laid.file⟩)
      have hfiles := hfits.files
      rw [ht, hu] at hfiles
      exact first_recoversTo hgood (hl.manifest.trans hmiss) hfiles hone w.entered.laid.file.holds
    · obtain ⟨hone, hrows⟩ := w.rows_first hnil hc
      have hexact : Exact (x.dirs d) m' := by
        intro n g hg
        rcases hc.only n g hg with hnew | hold
        · obtain ⟨rfl, rfl⟩ := Prod.mk.inj (List.mem_singleton.1 hnew)
          exact ⟨w.entry, by rw [hone]; simp, w.entered.laid.entry.path⟩
        · exact absurd hold (hnone n g)
      have hok := w.seriesOk h ht hu hc
      refine SeriesOk.recoversTo hgood hok (w.entered.head.recordType.trans ht) (w.entered.head.unit.trans hu)
        (.inr hrows)
        (fun _ now cs saves hscan hs => ?_)
      rw [recover_keeps_rows hok hexact.nothingToAdopt hscan hs .scalar]
      exact .inr hrows

end Scalar

end FastK
