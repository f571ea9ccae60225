import FastK.Crashes
/-!
# The dry run of recovery

`preview_recovery` walks the store as recovery does and saves nothing (`storage/recovery.rs`).  It lists the temporary
files but leaves them where they are, and then scans the directories with them.  The temporary file of a chunk or a
sidecar is taken for a sidecar there, its parent is no chunk, and the dry run fails where the real run, which has
removed the file first, does not.  On what stopped calls leave, that is the only difference (`preview_predicts_iff`).
-/
namespace FastK

open Journal

/-- The loop over the directories in a dry run: the temporary files are still there. -/
def previewDirs (env : Env) : List Dir → RecoveryReport → Op RecoveryReport
  | [], report => pure report
  | d :: ds, report => do
    let s ← Prog.look
    let (saves, result) := recoverSeriesDir env.now (s.root ++ "series".toList :: d) env.order ⟨true⟩ (s.seen d) report
    publishManifests env d saves
    let report ← Prog.lift result
    previewDirs env ds report

/-- `preview_recovery`: `startup_recover_locked` as a dry run. -/
def previewRecovery (env : Env) : Op RecoveryReport := do
  let s ← Prog.look
  let report := { RecoveryReport.start ⟨true⟩ with removedTempFiles := s.temps.length, removedTempPaths := s.temps }
  if s.seriesRoot then previewDirs env (discoverSeriesDirs env [] s) report else pure report

/-- The dry run changes no file and foretells the real run. -/
structure Predicts (env : Env) (s : Store) : Prop where
  quiet : (previewRecovery env).trace s = []
  succeeds : (∃ report, (previewRecovery env).result s = .ok report) ↔
    ∃ report, (startupRecoverLocked env).result s = .ok report
  agrees : ∀ preview real, (previewRecovery env).result s = .ok preview →
    (startupRecoverLocked env).result s = .ok real →
    preview.removedTempFiles = real.removedTempFiles ∧ preview.rebuiltManifests = real.rebuiltManifests ∧
      preview.adoptedChunks = real.adoptedChunks

/-! ## One directory after another -/

section Directories

variable {env : Env} {s t : Store}

theorem recoverFrom_dry_saves (now : Int) (path : Dir) (candidates : List ChunkMeta) (m : SeriesMeta)
    (report : RecoveryReport) :
    (recoverFrom now path ⟨true⟩ candidates m report).1 = [] := by
  unfold recoverFrom
  simp only [Bool.not_true, Bool.and_false]
  rfl

/-- A dry run saves no manifest. -/
theorem recoverSeriesDir_dry_saves (now : Int) (path : Dir) (order : DirOrder) (sd : SeriesDir)
    (report : RecoveryReport) :
    (recoverSeriesDir now path order ⟨true⟩ sd report).1 = [] := by
  unfold recoverSeriesDir
  cases scanChunkFiles order sd with
  | error e => rfl
  | ok candidates =>
    by_cases hnil : candidates.isEmpty = true
    · simp only [if_pos hnil]
    · simp only [if_neg hnil]
      cases sd.loadSeriesMeta with
      | ok m => exact recoverFrom_dry_saves now path candidates m report
      | error e =>
        cases rebuildManifest now path order sd with
        | error e => rfl
        | ok m => exact recoverFrom_dry_saves now path candidates m _

/-- One directory of a dry run, with nothing saved. -/
theorem previewDirs_cons (env : Env) (d : Dir) (ds : List Dir) (report : RecoveryReport) (s : Store) :
    previewDirs env (d :: ds) report s =
      match (recoverSeriesDir env.now (s.root ++ "series".toList :: d) env.order ⟨true⟩ (s.seen d) report).2 with
      | .error e => ([], .error e)
      | .ok report' => previewDirs env ds report' s := by
  have hsaves := recoverSeriesDir_dry_saves env.now (s.root ++ "series".toList :: d) env.order (s.seen d) report
  rw [previewDirs, Prog.look_bind]
  generalize recoverSeriesDir env.now (s.root ++ "series".toList :: d) env.order ⟨true⟩ (s.seen d) report =
    out at hsaves ⊢
  obtain ⟨saves, result⟩ := out
  simp only at hsaves
  subst hsaves
  simp only
  rw [Prog.bind_run (publishManifests_run env d [] s)]
  cases result with
  | error e => rfl
  | ok report' => rfl

theorem previewDirs_quiet : ∀ (ds : List Dir) (report : RecoveryReport), (previewDirs env ds report).trace s = []
  | [], _ => rfl
  | d :: ds, report => by
    unfold Prog.trace
    rw [previewDirs_cons]
    split
    · rfl
    · exact previewDirs_quiet ds _

/-- A directory that cannot be scanned stops the dry run. -/
theorem previewDirs_blocked {d : Dir} (hd : ∃ e, scanChunkFiles env.order (s.seen d) = .error e) : ∀ {ds : List Dir}
    (report : RecoveryReport),
    d ∈ ds → ∃ e, (previewDirs env ds report).result s = .error e
  | [], _, h => nomatch h
  | a :: as, report, h => by
    unfold Prog.result
    rw [previewDirs_cons]
    cases hr : (recoverSeriesDir env.now (s.root ++ "series".toList :: a) env.order ⟨true⟩ (s.seen a) report).2 with
    | error e => exact ⟨e, rfl⟩
    | ok report' =>
      rcases List.mem_cons.1 h with rfl | h
      · obtain ⟨e, he⟩ := hd
        unfold recoverSeriesDir at hr
        rw [he] at hr
        cases hr
      · exact previewDirs_blocked hd report' h

/-- **Recovery fails exactly at a directory whose manifest is lost for good**, and a dry run that sees the same files
reports the same. -/
theorem recoverDirs_cases : ∀ {ds : List Dir} {t : Store} (report : RecoveryReport), ds.Nodup → t.root = s.root →
    (∀ d ∈ ds, (t.dirs d).Sane) →
    (∃ d ∈ ds, Unrebuildable env (s.root ++ "series".toList :: d) (t.dirs d)) ∧
      (∃ e, (recoverDirs env ds report).result t = .error e) ∧
        ((∀ d ∈ ds, s.seen d = t.dirs d) → ∃ e, (previewDirs env ds report.dry).result s = .error e) ∨
      (∀ d ∈ ds, ¬ Unrebuildable env (s.root ++ "series".toList :: d) (t.dirs d)) ∧
        ∃ report', (recoverDirs env ds report).result t = .ok report' ∧
        ((∀ d ∈ ds, s.seen d = t.dirs d) → (previewDirs env ds report.dry).result s = .ok report'.dry)
  | [], t, report, _, _, _ => .inr ⟨by simp, report, rfl, fun _ => rfl⟩
  | d :: ds, t, report, hn, hroot, hsane => by
    obtain ⟨hd, hds⟩ := List.nodup_cons.1 hn
    have hstep : ∀ saves result, recoverSeriesDir env.now (s.root ++ "series".toList :: d) env.order ⟨false⟩
      (t.dirs d) report = (saves, result) →
        (recoverDirs env (d :: ds) report).result t =
          match result with
          | .error e => .error e
          | .ok report' => (recoverDirs env ds report').result (exec (saves.flatMap (saveSteps env d)) t) := by
      intro saves result hrun
      rw [← hroot] at hrun
      unfold Prog.result
      rw [recoverDirs, Prog.look_bind, hrun]
      simp only
      rw [Prog.bind_run (publishManifests_run env d saves t)]
      cases result with
      | error e => rfl
      | ok report' => rfl
    have hpreview : ∀ start, (previewDirs env (d :: ds) start).result s =
        match (recoverSeriesDir env.now (s.root ++ "series".toList :: d) env.order ⟨true⟩ (s.seen d) start).2 with
        | .error e => .error e
        | .ok report' => (previewDirs env ds report').result s := by
      intro start
      unfold Prog.result
      rw [previewDirs_cons]
      split <;> rfl
    rcases (hsane d List.mem_cons_self).recover env (s.root ++ "series".toList :: d) report with
      ⟨hun, ⟨e, hreal⟩, e', hdry⟩ | ⟨hno, saves, report', hreal, -, hdry⟩
    · refine .inl ⟨⟨d, List.mem_cons_self, hun⟩, ⟨e, hstep _ _ hreal⟩, fun hseen => ⟨e', ?_⟩⟩
      rw [hpreview, hseen d List.mem_cons_self, hdry]
    -- the directories that follow are untouched by the saves
    have hrest : ∀ a ∈ ds, (exec (saves.flatMap (saveSteps env d)) t).dirs a = t.dirs a := fun a ha =>
      saves_other env (ne_of_mem_of_not_mem ha hd) saves t
    have ih := recoverDirs_cases (t := exec (saves.flatMap (saveSteps env d)) t) report' hds
      ((exec_root _ t).trans hroot)
      (fun a ha => hrest a ha ▸ hsane a (List.mem_cons_of_mem d ha))
    have hseen' : (∀ a ∈ d :: ds, s.seen a = t.dirs a) →
      ∀ a ∈ ds, s.seen a = (exec (saves.flatMap (saveSteps env d)) t).dirs a :=
      fun hseen a ha => (hseen a (List.mem_cons_of_mem d ha)).trans (hrest a ha).symm
    rcases ih with ⟨⟨a, ha, hun⟩, ⟨e, he⟩, hp⟩ | ⟨hno', report'', hr, hp⟩
    · rw [hrest a ha] at hun
      refine .inl ⟨⟨a, List.mem_cons_of_mem d ha, hun⟩, ⟨e, (hstep _ _ hreal).trans he⟩, fun hseen => ?_⟩
      rw [hpreview, hseen d List.mem_cons_self, hdry]
      exact hp (hseen' hseen)
    · refine .inr ⟨fun a ha => ?_, report'', (hstep _ _ hreal).trans hr, fun hseen => ?_⟩
      · rcases List.mem_cons.1 ha with rfl | ha
        · exact hno
        · have := hno' a ha
          rwa [hrest a ha] at this
      · rw [hpreview, hseen d List.mem_cons_self, hdry]
        exact hp (hseen' hseen)

/-! ## Temporary files in the way -/

/-- **A temporary file below `chunks/` stops the scan.** -/
theorem scan_seen_error (hs : s.Sane) {d : Dir} (h : s.chunkTemps d ≠ []) (order : DirOrder) :
    ∃ e, scanChunkFiles order (s.seen d) = .error e := by
  obtain ⟨temp, htemp⟩ := List.exists_mem_of_ne_nil _ h
  obtain ⟨⟨d', temp'⟩, ht, rfl⟩ := List.mem_map.1 htemp
  obtain ⟨hmem, hcond⟩ := List.mem_filter.1 ht
  rw [Bool.and_eq_true, decide_eq_true_iff] at hcond
  obtain ⟨rfl, hno⟩ := hcond
  obtain ⟨⟨hside, e, he⟩, hdir⟩ := (hs.temps _ hmem).resolve_left (by simpa using hno)
  have hfile : (temp', FileBody.raw []) ∈ order.1 (s.seen d').files :=
    (order.2 _).mem_iff.2 (List.mem_append.2 (.inr (List.mem_map.2 ⟨temp', htemp, rfl⟩)))
  have hscanned : sidecarMetaOf temp' (.raw []) ∈ scanSidecarFiles (order.1 (s.seen d').files) :=
    List.mem_map.2 ⟨_, List.mem_filter.2 ⟨hfile, hside⟩, rfl⟩
  obtain ⟨e', hcollect⟩ := collect_error (f := fun s => (parentChunkRelativePath s.relativePath).map (fun parent =>
    (parent, s))) hscanned
    (show (parentChunkRelativePath (chunkRelativePath temp')).map _ = _ by rw [he]; rfl)
  refine ⟨e', ?_⟩
  unfold scanChunkFiles
  rw [if_neg (by simp [Store.seen, hdir])]
  simp only
  rw [hcollect]

theorem seen_of_chunkTemps {d : Dir} (h : s.chunkTemps d = []) : s.seen d = s.dirs d := by
  unfold Store.seen
  rw [h]
  simp

/-! ## The whole store -/

/-- The report of the real run when it begins with the directories. -/
def Store.tempReport (s : Store) : RecoveryReport :=
  { RecoveryReport.start ⟨false⟩ with removedTempFiles := s.temps.length, removedTempPaths := s.temps }

theorem startupRecover_result (env : Env) (s : Store) : (startupRecoverLocked env).result s =
    if s.seriesRoot = true then
      (recoverDirs env (discoverSeriesDirs env [] s) s.tempReport).result (Journal.Store.apply .removeTemps s)
    else .ok s.tempReport := by
  unfold Prog.result startupRecoverLocked
  rw [Prog.look_bind, Prog.emit_bind]
  by_cases hroot : s.seriesRoot = true
  · rw [if_pos hroot, if_pos hroot]
    show ((recoverDirs env _ s.tempReport >>= _) (Journal.Store.apply .removeTemps s)).2 = _
    cases hr : (recoverDirs env (discoverSeriesDirs env [] s) s.tempReport).result
      (Journal.Store.apply .removeTemps s) with
    | error e => rw [Prog.bind_error hr]; exact hr.symm
    | ok report => rw [Prog.bind_ok hr]; exact hr.symm
  · rw [if_neg hroot, if_neg hroot]
    rfl

theorem previewRecovery_run (env : Env) (s : Store) : previewRecovery env s =
    if s.seriesRoot = true then previewDirs env (discoverSeriesDirs env [] s) s.tempReport.dry s
    else ([], .ok s.tempReport.dry) := by
  unfold previewRecovery
  rw [Prog.look_bind]
  by_cases hroot : s.seriesRoot = true
  · rw [if_pos hroot, if_pos hroot]
    rfl
  · rw [if_neg hroot, if_neg hroot]
    rfl

theorem preview_quiet (env : Env) (s : Store) : (previewRecovery env).trace s = [] := by
  unfold Prog.trace
  rw [previewRecovery_run]
  by_cases hroot : s.seriesRoot = true
  · rw [if_pos hroot]
    exact previewDirs_quiet _ _
  · rw [if_neg hroot]

/-- Without a directory of series there is nothing to find. -/
theorem discover_nil {s : Store} (hroot : ¬ s.seriesRoot = true) : discoverSeriesDirs env [] s = [] := by
  unfold discoverSeriesDirs
  rw [if_neg hroot]

/-- A temporary file below `chunks/` of a series makes the dry run fail. -/
theorem preview_blocked (hs : s.Sane) (hroot : s.seriesRoot = true)
      (h : ¬ ∀ d ∈ discoverSeriesDirs env [] s, s.chunkTemps d = []) :
    ∃ e, (previewRecovery env).result s = .error e := by
  push Not at h
  obtain ⟨d, hd, hne⟩ := h
  unfold Prog.result
  rw [previewRecovery_run, if_pos hroot]
  exact previewDirs_blocked (scan_seen_error hs hne env.order) _ hd

/-- The real run, and what the dry run does where no temporary file is in its way. -/
theorem preview_cases (hs : s.Sane) (env : Env) (hroot : s.seriesRoot = true) :
    (∃ d ∈ discoverSeriesDirs env [] s, Unrebuildable env (s.root ++ "series".toList :: d) (s.dirs d)) ∧
        (∃ e, (startupRecoverLocked env).result s = .error e) ∧
        ((∀ d ∈ discoverSeriesDirs env [] s, s.chunkTemps d = []) → ∃ e, (previewRecovery env).result s = .error e) ∨
      (∀ d ∈ discoverSeriesDirs env [] s, ¬ Unrebuildable env (s.root ++ "series".toList :: d) (s.dirs d)) ∧
        ∃ report, (startupRecoverLocked env).result s = .ok report ∧
          ((∀ d ∈ discoverSeriesDirs env [] s, s.chunkTemps d = []) →
            (previewRecovery env).result s = .ok report.dry) := by
  have hreal := startupRecover_result env s
  have hdry : (previewRecovery env).result s =
    (previewDirs env (discoverSeriesDirs env [] s) s.tempReport.dry).result s := by
    unfold Prog.result
    rw [previewRecovery_run, if_pos hroot]
  have hseen : (∀ d ∈ discoverSeriesDirs env [] s, s.chunkTemps d = []) → ∀ d ∈ discoverSeriesDirs env [] s,
    s.seen d = s.dirs d :=
    fun htemps d hd => seen_of_chunkTemps (htemps d hd)
  rw [if_pos hroot] at hreal
  rw [hreal, hdry]
  have hroot' : (Journal.Store.apply IoStep.removeTemps s).root = s.root := rfl
  rcases recoverDirs_cases s.tempReport (discoverSeriesDirs_nodup env [] s) hroot' (fun d _ => hs.dirs d) with
    ⟨⟨d, hd, hun⟩, he, hp⟩ | ⟨hno, report, hr, hp⟩
  · exact .inl ⟨⟨d, hd, hun⟩, he, fun htemps => hp (hseen htemps)⟩
  · exact .inr ⟨hno, report, hr, fun htemps => hp (hseen htemps)⟩

/-- Two runs that fail agree. -/
theorem predicts_of_errors {e e' : FastKError} (hdry : (previewRecovery env).result s = .error e)
    (hreal : (startupRecoverLocked env).result s = .error e') : Predicts env s where
  quiet := preview_quiet env s
  succeeds := by rw [hdry, hreal]; simp
  agrees _ _ h := by rw [hdry] at h; cases h

theorem predicts_of_ok {report : RecoveryReport} (hdry : (previewRecovery env).result s = .ok report.dry)
    (hreal : (startupRecoverLocked env).result s = .ok report) : Predicts env s where
  quiet := preview_quiet env s
  succeeds := iff_of_true ⟨_, hdry⟩ ⟨_, hreal⟩
  agrees preview real h h' := by
    obtain rfl := Except.ok.inj (h.symm.trans hdry)
    obtain rfl := Except.ok.inj (h'.symm.trans hreal)
    exact ⟨rfl, rfl, rfl⟩

/-- **What the dry run foretells.**  After any calls, each of them stopped anywhere, the dry run foretells recovery
exactly when no temporary file of a chunk or a sidecar lies in a series that recovery finds, or recovery itself fails
at a series whose manifest is lost for good. -/
theorem preview_predicts_iff {root : Dir} {s : Store} (h : CrashRun root s) (env : Env) :
    Predicts env s ↔ (∀ d ∈ discoverSeriesDirs env [] s, s.chunkTemps d = []) ∨
      ∃ d ∈ discoverSeriesDirs env [] s, Unrebuildable env (s.root ++ "series".toList :: d) (s.dirs d) := by
  have hs := h.sane
  by_cases hroot : s.seriesRoot = true
  · rcases preview_cases hs env hroot with ⟨hun, ⟨e, hreal⟩, hp⟩ | ⟨hno, report, hreal, hp⟩
    · have hfail : ∃ e, (previewRecovery env).result s = .error e := by
        by_cases htemps : ∀ d ∈ discoverSeriesDirs env [] s, s.chunkTemps d = []
        · exact hp htemps
        · exact preview_blocked hs hroot htemps
      obtain ⟨e', hdry⟩ := hfail
      exact iff_of_true (predicts_of_errors hdry hreal) (.inr hun)
    · constructor
      · intro hpred
        left
        by_contra htemps
        obtain ⟨e, he⟩ := preview_blocked hs hroot htemps
        obtain ⟨preview, hpreview⟩ := hpred.succeeds.2 ⟨report, hreal⟩
        rw [he] at hpreview
        cases hpreview
      · rintro (htemps | ⟨d, hd, hun⟩)
        · exact predicts_of_ok (hp htemps) hreal
        · exact absurd hun (hno d hd)
  · have hreal := startupRecover_result env s
    have hdry : (previewRecovery env).result s = .ok s.tempReport.dry := by
      unfold Prog.result
      rw [previewRecovery_run, if_neg hroot]
    rw [if_neg hroot] at hreal
    refine iff_of_true (predicts_of_ok hdry hreal) (.inl ?_)
    rw [discover_nil hroot]
    simp

end Directories

/-! ## A put stopped before its rename -/

/-- A series is registered, and its first put stopped before the chunk is renamed to its name. -/
def sampleRegister : Call := .registerKline "BTCUSDT" "1m" 60000 100 100

def samplePut : Call := .putKline .default "BTCUSDT" "1m" [⟨60000, 1, 2, 0, 1, 10⟩]

def sampleRegistered : Store := exec ((sampleRegister.run (Env.plain 5)).trace (Store.empty [])) (Store.empty [])

/-- The store after the first steps of the put. -/
def stoppedPut (steps : Nat) : Store :=
  exec (((samplePut.run (Env.plain 6)).trace sampleRegistered).take steps) sampleRegistered

theorem stoppedPut_run (steps : Nat) : CrashRun [] (stoppedPut steps) :=
  .stop (Env.plain 6) samplePut (.stop (Env.plain 5) sampleRegister .start (stopped_final _ _))
    ⟨_, List.take_prefix steps _, rfl⟩

/-- When the chunk has been renamed, the dry run foretells that it will be adopted. -/
theorem preview_predicts_sample : Predicts (Env.plain 7) (stoppedPut 4) :=
  (preview_predicts_iff (stoppedPut_run 4) (Env.plain 7)).2 (.inl (by decide +kernel))

theorem preview_fails : ¬ ∀ (root : Dir) (s : Store), CrashRun root s → ∀ env, Predicts env s := by
  intro h
  have hreal : ((startupRecoverLocked (Env.plain 7)).result (stoppedPut 3)).toBool = true := by decide +kernel
  have hdry : ((previewRecovery (Env.plain 7)).result (stoppedPut 3)).toBool = false := by decide +kernel
  have hpred := (h [] (stoppedPut 3) (stoppedPut_run 3) (Env.plain 7)).succeeds
  cases hr : (startupRecoverLocked (Env.plain 7)).result (stoppedPut 3) with
  | error e => rw [hr] at hreal; cases hreal
  | ok report =>
    obtain ⟨preview, hpreview⟩ := hpred.2 ⟨report, hr⟩
    rw [hpreview] at hdry
    cases hdry

end FastK
