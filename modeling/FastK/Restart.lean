import FastK.Traces
import Mathlib.Data.List.MinMax
/-!
# Recovery of the store

A store in which every directory that the walk finds recovers is recovered: each of these directories gets the manifests
that its own recovery saves, and every other directory is left alone (`startupRecover_run`).
-/
namespace FastK

open Journal

theorem exec_root (ks : List IoStep) (s : Store) : (exec ks s).root = s.root :=
  exec_induction (P := fun (t : Store) => t.root = s.root) ks s rfl (fun k _ t ht => (apply_root k t).trans ht)

/-! ## Directories one after another -/

/-- The directory after its recovery has saved the manifests. -/
def SeriesDir.afterSaves (sd : SeriesDir) (saves : List SeriesMeta) : SeriesDir :=
  { sd with manifest := (saves.getLast?.map ManifestFile.current).getD sd.manifest }

theorem SeriesDir.afterSaves_nil (sd : SeriesDir) : sd.afterSaves [] = sd := rfl

theorem publishManifests_run (env : Env) (d : Dir) (saves : List SeriesMeta) (s : Store) :
    publishManifests env d saves s = (saves.flatMap (saveSteps env d), .ok ()) := by
  unfold publishManifests
  exact Prog.forEach_run (saveSteps env d) (fun _ _ => rfl) saves s

theorem saveSteps_dir (env : Env) (d : Dir) (m : SeriesMeta) (s : Store) :
    (exec (saveSteps env d m) s).dirs d = { s.dirs d with manifest := .current m } := by
  unfold saveSteps
  rw [exec_cons, exec_cons, exec_nil, apply_dirs, apply_dirs, IoStep.onDir, if_pos rfl]
  rfl

theorem saveSteps_other (env : Env) {d e : Dir} (he : e ≠ d) (m : SeriesMeta) (s : Store) :
    (exec (saveSteps env d m) s).dirs e = s.dirs e := by
  unfold saveSteps
  rw [exec_cons, exec_cons, exec_nil, apply_dirs, apply_dirs, IoStep.onDir, if_neg he]
  rfl

theorem saves_dir (env : Env) (d : Dir) : ∀ (saves : List SeriesMeta) (s : Store),
    (exec (saves.flatMap (saveSteps env d)) s).dirs d = (s.dirs d).afterSaves saves
  | [], s => rfl
  | m :: ms, s => by
    rw [List.flatMap_cons, exec_append, saves_dir env d ms, saveSteps_dir]
    cases ms with
    | nil => rfl
    | cons m' ms => simp [SeriesDir.afterSaves, List.getLast?_cons]

theorem saves_other (env : Env) {d e : Dir} (he : e ≠ d) : ∀ (saves : List SeriesMeta) (s : Store),
    (exec (saves.flatMap (saveSteps env d)) s).dirs e = s.dirs e
  | [], s => rfl
  | m :: ms, s => by rw [List.flatMap_cons, exec_append, saves_other env he ms, saveSteps_other env he]

/-- The recovery of a directory succeeds, with saves that satisfy `Q`. -/
def Recovers (env : Env) (root d : Dir) (sd : SeriesDir) (Q : List SeriesMeta → Prop) : Prop :=
  ∀ report, ∃ saves report', recoverSeriesDir env.now (root ++ "series".toList :: d) env.order ⟨false⟩ sd report =
    (saves, .ok report') ∧ Q saves

theorem recoverDirs_run (env : Env) {Q : Dir → List SeriesMeta → Prop} : ∀ {ds : List Dir} {s : Store}, ds.Nodup →
    (∀ e ∈ ds, Recovers env s.root e (s.dirs e) (Q e)) → ∀ report, ∃ tr report', recoverDirs env ds report s =
      (tr, .ok report') ∧
      ∀ e, (e ∈ ds → ∃ saves, Q e saves ∧ (exec tr s).dirs e = (s.dirs e).afterSaves saves) ∧
        (e ∉ ds → (exec tr s).dirs e = s.dirs e)
  | [], s, _, _, report => ⟨[], report, rfl, fun e => ⟨fun he => absurd he List.not_mem_nil, fun _ => rfl⟩⟩
  | d :: ds, s, hn, h, report => by
    obtain ⟨hd, hds⟩ := List.nodup_cons.1 hn
    obtain ⟨saves, report', hrec, hQ⟩ := h d (by simp) report
    -- the directories that follow are untouched by the saves
    have hrest : ∀ e ∈ ds, Recovers env (exec (saves.flatMap (saveSteps env d)) s).root e
        ((exec (saves.flatMap (saveSteps env d)) s).dirs e) (Q e) := by
      intro e he
      rw [exec_root, saves_other env (ne_of_mem_of_not_mem he hd)]
      exact h e (by simp [he])
    obtain ⟨tr, report'', hrun, hdirs⟩ := recoverDirs_run env hds hrest report'
    refine ⟨saves.flatMap (saveSteps env d) ++ tr, report'', ?_, fun e => ⟨fun he => ?_, fun he => ?_⟩⟩
    · unfold recoverDirs
      rw [Prog.look_bind, hrec]
      simp only
      rw [Prog.bind_run (publishManifests_run env d saves s), Prog.lift_ok_bind, hrun]
    · rw [exec_append]
      by_cases heq : e = d
      · subst heq
        exact ⟨saves, hQ, by rw [(hdirs e).2 hd, saves_dir]⟩
      · obtain ⟨saves', hQ', heq'⟩ := (hdirs e).1 ((List.mem_cons.1 he).resolve_left heq)
        exact ⟨saves', hQ', by rw [heq', saves_other env heq]⟩
    · rw [exec_append, (hdirs e).2 (fun hm => he (by simp [hm])), saves_other env (fun heq => he (by simp [heq]))]

/-! ## The walk -/

theorem mem_discoverSeriesDirs {env : Env} {ways : List Dir} {s : Store} {d : Dir} :
    d ∈ discoverSeriesDirs env ways s ↔ s.seriesRoot = true ∧ Walk.Stops (s.made ways)
    (s.looksLikeSeries ways) [] d := by
  unfold discoverSeriesDirs
  cases s.seriesRoot with
  | false => simp
  | true =>
    rw [if_pos rfl, Walk.mem_collect env.dirOrder.2 (Nat.succ_pos _) (fun p hp => ?_)]
    · simp
    · have : p.length ≤ ((s.made ways).map List.length).foldr max 0 := List.le_max_of_le (List.mem_map_of_mem hp) le_rfl
      rw [List.length_nil]
      omega

theorem discoverSeriesDirs_nodup (env : Env) (ways : List Dir) (s : Store) : (discoverSeriesDirs env ways s).Nodup := by
  unfold discoverSeriesDirs
  split
  · exact Walk.collect_nodup env.dirOrder.2 _ _
  · exact List.nodup_nil

theorem leavesSeries_below {d p : Dir} (hd : d ≠ []) (h : d <+: p) : leavesSeries d = leavesSeries p := by
  obtain ⟨x, xs, rfl⟩ := List.exists_cons_of_ne_nil hd
  obtain ⟨l, rfl⟩ := h
  rfl

/-- **What recovery goes through**: the directories that look like series and lie below no other that does. -/
theorem mem_discover_iff {env : Env} {s : Store} {d : Dir} : d ∈ discoverSeriesDirs env [] s ↔
    s.seriesRoot = true ∧ (d = [] ∨ ∃ p ∈ s.known, d <+: p) ∧ s.looksLikeSeries [] d = true ∧ s.hidden d = false := by
  have hmade : ∀ p, p ∈ s.made [] ↔ p ∈ s.known ∧ leavesSeries p = false := fun p => by
    unfold Store.made
    simp
  have hhidden : s.hidden d = false ↔ leavesSeries d = false ∧
    ∀ n < d.length, s.looksLikeSeries [] (d.take n) = false := by
    unfold Store.hidden
    simp
  rw [mem_discoverSeriesDirs, hhidden]
  constructor
  · rintro ⟨hroot, hstops⟩
    have habove : ∀ n < d.length, s.looksLikeSeries [] (d.take n) = false := fun n hn =>
      hstops.first _ List.nil_prefix (List.take_prefix n d) (fun heq => by
        have := congrArg List.length heq
        rw [List.length_take] at this
        omega)
    rcases hstops.reached with rfl | ⟨p, hp, hdp⟩
    · exact ⟨hroot, .inl rfl, hstops.passes, rfl, habove⟩
    · obtain ⟨hk, hin⟩ := (hmade p).1 hp
      refine ⟨hroot, .inr ⟨p, hk, hdp⟩, hstops.passes, ?_, habove⟩
      by_cases hd : d = []
      · rw [hd]
        rfl
      · rw [leavesSeries_below hd hdp, hin]
  · rintro ⟨hroot, hreached, hlooks, hin, habove⟩
    refine ⟨hroot, List.nil_prefix, ?_, hlooks, fun p _ hp hne => ?_⟩
    · rcases hreached with rfl | ⟨p, hk, hdp⟩
      · exact .inl rfl
      · by_cases hd : d = []
        · exact .inl hd
        · exact .inr ⟨p, (hmade p).2 ⟨hk, by rw [← leavesSeries_below hd hdp, hin]⟩, hdp⟩
    · rw [List.prefix_iff_eq_take.1 hp]
      refine habove _ (lt_of_le_of_ne hp.length_le (fun hlen => hne (hp.eq_of_length hlen)))

section Again

variable {env env' : Env} {ways : List Dir} {s t : Store} {d : Dir}

/-- What the walk has found lies on the ways that were there before. -/
theorem made_iff_of_known (hkept : ∀ e ∈ s.known, e ∈ t.known)
    (hknown : ∀ e ∈ t.known, e ∈ s.known ∨ e ∈ discoverSeriesDirs env ways s) (e : Dir) :
    (e = [] ∨ ∃ p ∈ t.made ways, e <+: p) ↔ e = [] ∨ ∃ p ∈ s.made ways, e <+: p := by
  constructor
  · rintro (rfl | ⟨p, hp, hep⟩)
    · exact .inl rfl
    · obtain ⟨hmem, hin⟩ := List.mem_filter.1 hp
      rcases List.mem_append.1 hmem with hk | hw
      · rcases hknown p hk with hk | hfound
        · exact .inr ⟨p, List.mem_filter.2 ⟨List.mem_append_left _ hk, hin⟩, hep⟩
        · rcases (mem_discoverSeriesDirs.1 hfound).2.reached with rfl | ⟨q, hq, hpq⟩
          · exact .inl (List.prefix_nil.1 hep)
          · exact .inr ⟨q, hq, hep.trans hpq⟩
      · exact .inr ⟨p, List.mem_filter.2 ⟨List.mem_append_right _ hw, hin⟩, hep⟩
  · rintro (rfl | ⟨p, hp, hep⟩)
    · exact .inl rfl
    · obtain ⟨hmem, hin⟩ := List.mem_filter.1 hp
      refine .inr ⟨p, List.mem_filter.2 ⟨?_, hin⟩, hep⟩
      rcases List.mem_append.1 hmem with hk | hw
      · exact List.mem_append_left _ (hkept p hk)
      · exact List.mem_append_right _ hw

theorem looksLikeSeries_of_known (hkept : ∀ e ∈ s.known, e ∈ t.known)
    (hknown : ∀ e ∈ t.known, e ∈ s.known ∨ e ∈ discoverSeriesDirs env ways s)
    (hdirs : ∀ e, (t.dirs e).chunksDir = (s.dirs e).chunksDir ∧
      ((s.dirs e).chunksDir = true ∨ (t.dirs e).manifest.isPresent = (s.dirs e).manifest.isPresent)) :
    t.looksLikeSeries ways = s.looksLikeSeries ways := by
  funext d
  have hany : (t.made ways).any (fun e => (d ++ [chunksDir]).isPrefixOf e) = (s.made ways).any (fun e =>
    (d ++ [chunksDir]).isPrefixOf e) := by
    rw [Bool.eq_iff_iff, List.any_eq_true, List.any_eq_true]
    simpa using made_iff_of_known hkept hknown (d ++ [chunksDir])
  obtain ⟨hchunks, hpresent⟩ := hdirs d
  unfold Store.looksLikeSeries
  rw [hany, hchunks]
  rcases hpresent with h | h
  · simp [h]
  · rw [h]

/-- **The walk finds again what it found before**, where no directory has come to look like a series or ceased to. -/
theorem mem_discover_of_known (hroot : t.seriesRoot = s.seriesRoot) (hkept : ∀ e ∈ s.known, e ∈ t.known)
    (hknown : ∀ e ∈ t.known, e ∈ s.known ∨ e ∈ discoverSeriesDirs env ways s)
    (hlooks : t.looksLikeSeries ways = s.looksLikeSeries ways) :
    d ∈ discoverSeriesDirs env' ways t ↔ d ∈ discoverSeriesDirs env ways s := by
  rw [mem_discoverSeriesDirs, mem_discoverSeriesDirs, hlooks, hroot]
  exact and_congr_right (fun _ => Walk.Stops.congr (made_iff_of_known hkept hknown))

end Again

/-! ## The whole store -/

/-- What recovery of the store does to a directory. -/
def Restarted (env : Env) (Q : Dir → List SeriesMeta → Prop) (s t : Store) : Prop :=
  ∀ e, (s.seriesRoot = true ∧ e ∈ discoverSeriesDirs env [] s ∧ ∃ saves, Q e saves ∧
    t.dirs e = (s.dirs e).afterSaves saves) ∨
    (¬ (s.seriesRoot = true ∧ e ∈ discoverSeriesDirs env [] s) ∧ t.dirs e = s.dirs e)

/-- **Where every directory found recovers, the store does.** -/
theorem startupRecover_run {env : Env} {s : Store} {Q : Dir → List SeriesMeta → Prop}
    (h : ∀ e ∈ discoverSeriesDirs env [] s, Recovers env s.root e (s.dirs e) (Q e)) :
    ∃ tr report, startupRecoverLocked env s = (tr, .ok report) ∧ Restarted env Q s (exec tr s) := by
  unfold startupRecoverLocked
  rw [Prog.look_bind]
  simp only
  rw [Prog.emit_bind]
  cases hroot : s.seriesRoot with
  | false =>
    rw [if_neg (by simp)]
    exact ⟨_, _, rfl, fun e => .inr ⟨fun hv => (by rw [hroot] at hv; cases hv.1), rfl⟩⟩
  | true =>
    rw [if_pos rfl]
    obtain ⟨tr, report, hrun, hdirs⟩ := recoverDirs_run env (Q := Q) (s := Journal.Store.apply IoStep.removeTemps s)
      (discoverSeriesDirs_nodup env [] s) h
      { RecoveryReport.start ⟨false⟩ with removedTempFiles := s.temps.length, removedTempPaths := s.temps }
    rw [Prog.bind_run hrun, Prog.emit_bind]
    refine ⟨_, _, rfl, fun e => ?_⟩
    have hfinal : (exec (IoStep.removeTemps :: (tr ++ [IoStep.disarm])) s).dirs e =
      (exec tr (Journal.Store.apply IoStep.removeTemps s)).dirs e := by
      rw [exec_cons, exec_append, exec_cons, exec_nil, apply_dirs]
      rfl
    by_cases he : e ∈ discoverSeriesDirs env [] s
    · obtain ⟨saves, hQ, heq⟩ := (hdirs e).1 he
      exact .inl ⟨hroot, he, saves, hQ, hfinal.trans heq⟩
    · exact .inr ⟨fun hv => he hv.2, hfinal.trans ((hdirs e).2 he)⟩

theorem recoverDirs_quiet (env : Env) {s : Store} :
    ∀ (ds : List Dir), (∀ e ∈ ds, Recovers env s.root e (s.dirs e) (fun saves => saves = [])) →
    ∀ report, ∃ report', recoverDirs env ds report s = ([], .ok report')
  | [], _, report => ⟨report, rfl⟩
  | d :: ds, h, report => by
    obtain ⟨saves, report', hrec, rfl⟩ := h d (by simp) report
    obtain ⟨report'', hrun⟩ := recoverDirs_quiet env ds (fun e he => h e (by simp [he])) report'
    refine ⟨report'', ?_⟩
    unfold recoverDirs
    rw [Prog.look_bind, hrec]
    simp only
    rw [Prog.bind_run (publishManifests_run env d [] s), Prog.lift_ok_bind]
    exact hrun

/-- **A store whose directories have nothing to save is left as it is**, at every step. -/
theorem startupRecover_quiet {env : Env} {s : Store}
    (h : ∀ e ∈ discoverSeriesDirs env [] s, Recovers env s.root e (s.dirs e) (fun saves => saves = [])) :
    ∃ tr report, startupRecoverLocked env s = (tr, .ok report) ∧ ∀ k ∈ tr, k = .removeTemps ∨ k = .disarm := by
  unfold startupRecoverLocked
  rw [Prog.look_bind]
  simp only
  rw [Prog.emit_bind]
  cases hroot : s.seriesRoot with
  | false =>
    rw [if_neg (by simp)]
    refine ⟨[.removeTemps, .disarm], _, rfl, ?_⟩
    simp
  | true =>
    rw [if_pos rfl]
    obtain ⟨report, hrun⟩ :=
      recoverDirs_quiet env (s := Journal.Store.apply IoStep.removeTemps s) (discoverSeriesDirs env [] s) h
      { RecoveryReport.start ⟨false⟩ with removedTempFiles := s.temps.length, removedTempPaths := s.temps }
    rw [Prog.bind_run hrun, Prog.emit_bind]
    refine ⟨[.removeTemps, .disarm], report, rfl, ?_⟩
    simp

theorem exec_quiet {ks : List IoStep} (hk : ∀ k ∈ ks, k = .removeTemps ∨ k = .disarm) (s : Store) (e : Dir) :
    (exec ks s).dirs e = s.dirs e := by
  refine exec_induction (P := fun (t : Store) => t.dirs e = s.dirs e) ks s rfl (fun k hks t ht => ?_)
  rw [apply_dirs]
  rcases hk k hks with rfl | rfl <;> exact ht

theorem exec_quiet_known {ks : List IoStep} (hk : ∀ k ∈ ks, k = .removeTemps ∨ k = .disarm) (s : Store) :
    (exec ks s).known = s.known ∧ (exec ks s).seriesRoot = s.seriesRoot := by
  refine exec_induction (P := fun (t : Store) => t.known = s.known ∧ t.seriesRoot = s.seriesRoot) ks s
    ⟨rfl, rfl⟩ (fun k hks t ht => ?_)
  rcases hk k hks with rfl | rfl <;> exact ht

theorem beginMutation_quiet {env : Env} {s : Store}
    (h : ∀ e ∈ discoverSeriesDirs env [] s, Recovers env s.root e (s.dirs e) (fun saves => saves = [])) :
    ∃ tr, beginMutation env s = (tr, .ok ()) ∧ ∀ k ∈ tr, k = .removeTemps ∨ k = .disarm := by
  unfold beginMutation
  rw [Prog.look_bind]
  cases s.pending with
  | false => exact ⟨[], rfl, by simp⟩
  | true =>
    obtain ⟨tr, report, hrun, hquiet⟩ := startupRecover_quiet h
    rw [if_pos rfl, Prog.bind_run hrun]
    exact ⟨tr ++ [], rfl, by rw [List.append_nil]; exact hquiet⟩

end FastK
