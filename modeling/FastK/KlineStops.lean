import FastK.ScalarStops
/-!
# Interrupted appends and merges

A chunk that is put behind the others replaces none, and the chunk of a merge or of an append holds the rows of those
it replaces: so each meets what it replaces, and recovery leaves the rows there were or those of the finished call
(`writes_atomic`).  What can fail is recovery itself: the first append of a series may be stopped before its manifest,
and a directory whose path ends in blank names gets none (`first_append_unnamed`).
-/
namespace FastK

open Journal Spans Versioned

/-! ## Stopped merges -/

section Merge

variable {env : Env} {d : Dir} {symbol timeframe key : Text} {m m' : SeriesMeta} {u x : Store} {C : Nat}

/-- The rows under the mark are the rows there were. -/
theorem markedStore_rows (hm : (u.dirs d).manifest = .current m) (env : Env) (key : Text) :
    seriesRows .kline ((markedStore env d key m u).dirs d) = seriesRows .kline (u.dirs d) := by
  rw [markedStore_dir, seriesRows_eq rfl, seriesRows_eq hm, markMerging_chunks, List.flatMap_map]
  exact List.flatMap_congr (fun e _ => rowsIn_congr .kline _ (sameChunk_marked key e).relativePath)

/-- The stops of a merge: nothing has changed, or the mark is there and the new chunk is entered under it. -/
inductive MergeStopped (env : Env) (d : Dir) (m : SeriesMeta) (key : Text) (u x y : Store) : Prop
  | same (h : SameContent (u.dirs d) (x.dirs d))
  | entering {m' : SeriesMeta} (w : EntryWrite env d .kline .month ((markedStore env d key m u).dirs d)
      (markMerging key m) m' key (storedKlines (u.dirs d) m key))
      (stopped : w.StoppedAt x) (final : y.dirs d = (exec w.steps (markedStore env d key m u)).dirs d)

/-- **A merge of a series in order, stopped anywhere.** -/
theorem mergeKlineMonthLocked_stopped (h : GoodSeries C d (u.dirs d) m) (hm : (u.dirs d).manifest = .current m)
    (ht : m.recordType = .kline) (hd : klineSeriesDir symbol timeframe = d) (hC : C < u32Max) {ks : List IoStep}
    (hks : ks <+: (mergeKlineMonthLocked env symbol timeframe key m).trace u) (hx : x.dirs d = (exec ks u).dirs d) :
    MergeStopped env d m key u x ((mergeKlineMonthLocked env symbol timeframe key m).final u) := by
  have hok := h.seriesOk hm
  have hbound : KeyBound m key C := fun c hc _ => h.bound c hc
  have hcalm : (∀ k ∈ ks, k.calm = true) →
    MergeStopped env d m key u x ((mergeKlineMonthLocked env symbol timeframe key m).final u) := by
    intro hk
    refine .same ?_
    rw [hx]
    exact exec_calm hk u d
  rcases mergeKlineMonthLocked_run env key hok ht hd with ⟨-, hrun⟩ | ⟨-, href⟩ | hblock | ⟨-, m', w, -, -, -, -, hrun⟩
  · rw [Prog.trace_of_run hrun, List.prefix_nil] at hks
    exact hcalm (by simp [hks])
  · exact hcalm (fun k hk => href.2 k (hks.subset hk))
  · exact absurd hblock (h.not_blocked hbound hC)
  · rw [Prog.trace_of_run hrun] at hks
    have hmark := hok.markedStore env key
    have hstopped : ∀ ls, ls <+: w.steps → x.dirs d = (exec ls (markedStore env d key m u)).dirs d → w.StoppedAt x := by
      intro ls hls heq
      unfold EntryWrite.StoppedAt
      rw [heq]
      exact w.stopped hmark.toFits hls
    have hfin : ((mergeKlineMonthLocked env symbol timeframe key m).final u).dirs d =
      (exec w.steps (markedStore env d key m u)).dirs d := by
      rw [Prog.final_of_run hrun, exec_append]
      rfl
    rcases prefix_append_cases hks with hp | ⟨ls, rfl, hls⟩
    · rcases prefix_saveSteps hp with hk | rfl
      · exact hcalm hk
      · exact .entering w (hstopped [] List.nil_prefix hx) hfin
    · rw [exec_append] at hx
      exact .entering w (hstopped ls hls hx) hfin

/-- **A merge, stopped and recovered, has left every row.** -/
theorem MergeStopped.recoversTo {y : Store} (hst : MergeStopped env d m key u x y) (env' : Env)
    (h : GoodSeries C d (u.dirs d) m) (hm : (u.dirs d).manifest = .current m) (ht : m.recordType = .kline)
    (hC : C < u32Max) (hy : seriesRows .kline (y.dirs d) = seriesRows .kline (u.dirs d))
    (hgood : ∀ e, e ≠ d → GoodDir C e (x.dirs e)) :
    RecoversTo env' x d .kline (fun l => l = seriesRows .kline (u.dirs d)) := by
  cases hst with
  | same hs =>
    have hgx : GoodStore C x := by
      refine ⟨fun e => ?_⟩
      by_cases he : e = d
      · rw [he]
        exact .series (hs.manifest.trans hm) (h.congr hs)
      · exact hgood e he
    have hrec := hgx.recoversTo (d := d) (t := .kline) (fun m₁ hm₁ => by
      obtain rfl := ManifestFile.current.inj (hm.symm.trans (hs.manifest ▸ hm₁))
      exact ht) env'
    rw [hs.seriesRows .kline] at hrec
    exact hrec
  | @entering m' w hstop hfin =>
    have hok := h.seriesOk hm
    have hmark := hok.markedStore env key
    have hu := hmark.head.unit_month (.inl ht)
    have hsd := markedStore_dir env d key m u
    have hex : Exact ((markedStore env d key m u).dirs d) (markMerging key m) := by
      rw [hsd]
      exact exact_marked h.exact key
    have hsat : Unsaturated (markMerging key m) key := by
      intro c hc _
      rw [markMerging_chunks] at hc
      obtain ⟨e, he, rfl⟩ := List.mem_map.1 hc
      rw [(sameChunk_marked key e).generation]
      exact lt_of_le_of_lt (h.bound e he) hC
    have hmeets : MeetsReplaced (markMerging key m) w.kept w.entry := by
      intro c hc hk
      refine w.entered.meets_of_row hmark.toFits ht hu hc (fun r hr => ?_)
      have hck : c.monthKey = key := by
        by_contra hne
        exact hk (w.entered.mem_kept hc hne)
      rw [markMerging_chunks] at hc
      obtain ⟨e, he, rfl⟩ := List.mem_map.1 hc
      have hs := sameChunk_marked key e
      refine List.mem_flatMap.2 ⟨e, mem_chunksForPartition.2 ⟨he, hs.monthKey.symm.trans hck⟩, ?_⟩
      rw [rowsIn_congr .kline _ hs.relativePath, hsd] at hr
      exact hr
    have hrec := w.recoversTo env' hmark hex ht hu hsat hstop (.inr hmeets) hgood
    rw [markedStore_rows hm] at hrec
    refine hrec.imp (fun l hl => ?_)
    rcases hl with hl | hl
    · exact hl
    · rw [hl, ← hfin, hy]

/-- The rows after a merge of a series in order. -/
theorem mergeKlineMonthLocked_rows (h : GoodSeries C d (u.dirs d) m) (hm : (u.dirs d).manifest = .current m)
    (ht : m.recordType = .kline) (hd : klineSeriesDir symbol timeframe = d) (hC : C < u32Max) (env : Env) (key : Text) :
    seriesRows .kline (((mergeKlineMonthLocked env symbol timeframe key m).final u).dirs d) = seriesRows .kline
      (u.dirs d) := by
  obtain ⟨m', hres⟩ := mergeKlineMonthLocked_answers env key h hm ht hd (fun c hc _ => h.bound c hc) hC
  exact (mergeKlineMonthLocked_merged (h.seriesOk hm) ht hd hres).seriesRows (h.klineSeries hm ht)

end Merge

/-! ## Calls -/

/-- Recovery succeeds, and the series holds what it held before the call or what the whole call leaves. -/
structure CallAtomic {R : Type} (env : Env) (d : Dir) (rowsOf : SeriesDir → List R)
    (Answers : SeriesDir → List R → Prop) (s x y : Store) : Prop where
  succeeds : ∃ report, (startupRecoverLocked env).result x = .ok report
  elsewhere : ∀ e, e ≠ d → ((startupRecoverLocked env).final x).dirs e = s.dirs e
  rows : rowsOf (((startupRecoverLocked env).final x).dirs d) = rowsOf (s.dirs d) ∨
    rowsOf (((startupRecoverLocked env).final x).dirs d) = rowsOf (y.dirs d)
  answers : ∀ m, (((startupRecoverLocked env).final x).dirs d).manifest = .current m →
    Answers (((startupRecoverLocked env).final x).dirs d) (rowsOf (((startupRecoverLocked env).final x).dirs d))

section Calls

variable {env env' : Env} {root : Dir} {n : Nat} {symbol timeframe key : Text} {scalar : ScalarSeriesKey}
    {timeframeMs : Int} {policy : CompactionPolicy}
  {m : SeriesMeta} {s v x : Store} {C : Nat} {d : Dir}

/-- Removing the marker changes no directory. -/
theorem prefix_disarm {ks lt : List IoStep} (h : ks <+: lt ++ [.disarm]) (s : Store) :
    ∃ ls, ls <+: lt ∧ ∀ e, (exec ks s).dirs e = (exec ls s).dirs e := by
  rcases prefix_append_cases h with hp | ⟨ls, rfl, hls⟩
  · exact ⟨ks, hp, fun _ => rfl⟩
  · refine ⟨lt, List.prefix_rfl, fun e => ?_⟩
    rcases List.prefix_cons_iff.1 hls with rfl | ⟨l, rfl, hl⟩
    · rw [List.append_nil]
    · rw [List.prefix_nil.1 hl, exec_disarm_dirs]

/-- A chunk that replaces none leaves the store in order, whatever removals fail. -/
theorem EntryWrite.advanced_added {t : RecordType} {u : PartitionUnit} {m' : SeriesMeta} {rows : List t.Row} {B : Nat}
    (w : EntryWrite env d t u (s.dirs d) m m' key rows) (hkept : w.kept = m.chunks) (hg : GoodStore C s)
    (hm : (s.dirs d).manifest = .current m) (ht : m.recordType = t) (hu : m.unit = u) (hb : KeyBound m key B)
    (hB : B + 1 ≤ C) (hsat : B < u32Max) :
    Advanced C d key s (exec w.steps s) ∧ ((exec w.steps s).dirs d).manifest = .current m' := by
  have hnone : w.paths = [] := by
    refine List.eq_nil_iff_forall_not_mem.2 (fun path hp => ?_)
    obtain ⟨e, he, hk, -⟩ := w.removed path hp
    rw [hkept] at hk
    exact hk he
  let w₁ : EntryWrite { env with removeFails := fun _ _ => false } d t u (s.dirs d) m m' key rows :=
    { w with kept := w.kept }
  have hsteps : w₁.steps = w.steps := by
    unfold EntryWrite.steps commitSteps
    rw [show w₁.paths = [] from hnone]
    rfl
  rw [← hsteps]
  exact w₁.advanced hg ((hg.dir d).of_current hm) (.inl hm) ht hu hb hB hsat (fun _ _ => rfl)

theorem CalmStop.recoversTo {t : RecordType} (h : CalmStop s x) (hg : GoodStore C s) (ht : OfType t (s.dirs d))
    (env : Env) :
    RecoversTo env x d t (fun l => l = seriesRows t (s.dirs d)) := by
  obtain ⟨ks, hks, rfl⟩ := h
  have hsame := exec_calm hks s d
  have hrec := (hg.calm hks).recoversTo (fun m hm => ht m (hsame.manifest ▸ hm)) env
  rwa [hsame.seriesRows t] at hrec

theorem mergeKlineMonth_rows (hg : GoodStore C s) (hC : C < u32Max)
    (hm : (s.dirs (klineSeriesDir symbol timeframe)).manifest = .current m) (ht : m.recordType = .kline) (env : Env)
    (key : Text) :
    seriesRows .kline (((mergeKlineMonth env symbol timeframe key).final s).dirs (klineSeriesDir symbol timeframe)) =
      seriesRows .kline (s.dirs (klineSeriesDir symbol timeframe)) := by
  obtain ⟨tr, u, -, hu, hdirs, hgu, hrun⟩ := mergeKlineMonth_run hg hm env key
  have hmu : (u.dirs (klineSeriesDir symbol timeframe)).manifest = .current m := by rw [hdirs]; exact hm
  have hsu := (hgu.dir _).of_current hmu
  obtain ⟨m', hres⟩ := mergeKlineMonthLocked_answers env key hsu hmu ht rfl (fun c hc _ => hsu.bound c hc) hC
  have hrows := mergeKlineMonthLocked_rows hsu hmu ht rfl hC env key
  rw [Prog.final_of_run (hrun _ m' (Prod.ext rfl hres)), exec_disarm_dirs, exec_append, ← hu, ← hdirs]
  exact hrows

/-- **A merge of a month, stopped and recovered, has left every row.** -/
theorem mergeKlineMonth_recoversTo (hg : GoodStore C s) (hC : C < u32Max)
    (hm : (s.dirs (klineSeriesDir symbol timeframe)).manifest = .current m) (ht : m.recordType = .kline)
    (hstop : Stopped (mergeKlineMonth env symbol timeframe key) s x)
    (helse : ∀ e, e ≠ klineSeriesDir symbol timeframe → x.dirs e = s.dirs e) (env' : Env) :
    RecoversTo env' x (klineSeriesDir symbol timeframe) .kline (fun l =>
      l = seriesRows .kline (s.dirs (klineSeriesDir symbol timeframe))) := by
  obtain ⟨tr, u, htr, hu, hdirs, hgu, hrun⟩ := mergeKlineMonth_run hg hm env key
  have hmu : (u.dirs (klineSeriesDir symbol timeframe)).manifest = .current m := by rw [hdirs]; exact hm
  have hsu := (hgu.dir _).of_current hmu
  obtain ⟨m', hres⟩ := mergeKlineMonthLocked_answers env key hsu hmu ht rfl (fun c hc _ => hsu.bound c hc) hC
  have hall := hrun _ m' (Prod.ext rfl hres)
  obtain ⟨ks, hks, rfl⟩ := hstop
  rw [Prog.trace_of_run hall, List.append_assoc] at hks
  rcases prefix_append_cases hks with hp | ⟨ls, rfl, hls⟩
  · exact CalmStop.recoversTo ⟨ks, fun k hk => htr k (hp.subset hk), rfl⟩ hg (fun m₁ hm₁ => by
      obtain rfl := ManifestFile.current.inj (hm.symm.trans hm₁)
      exact ht) env'
  · obtain ⟨ls', hls', heq⟩ := prefix_disarm hls u
    have hx : (exec (tr ++ ls) s).dirs (klineSeriesDir symbol timeframe) = (exec ls' u).dirs
      (klineSeriesDir symbol timeframe) := by
      rw [exec_append, ← hu, heq]
    have hst := mergeKlineMonthLocked_stopped hsu hmu ht rfl hC hls' hx
    have hrec := hst.recoversTo env' hsu hmu ht hC (mergeKlineMonthLocked_rows hsu hmu ht rfl hC env key)
      (fun e he => by rw [helse e he]; exact hg.dir e)
    rwa [hdirs] at hrec

/-- **A kline write, with or without its merge, stopped and recovered.** -/
theorem putKlineChunk_recoversTo {records : List KlineRecord} (hg : GoodStore C s) (hroom : s.HasRoom)
    (hm : (s.dirs (klineSeriesDir symbol timeframe)).manifest = .current m)
    (ht : m.recordType = .kline) (hstop : Stopped (putKlineChunk env policy symbol timeframe records) s x)
    (helse : ∀ e, e ≠ klineSeriesDir symbol timeframe → x.dirs e = s.dirs e) (env' : Env) :
    RecoversTo env' x (klineSeriesDir symbol timeframe) .kline (fun l =>
      l = seriesRows .kline (s.dirs (klineSeriesDir symbol timeframe)) ∨
      l = seriesRows .kline (((putKlineChunk env policy symbol timeframe records).final s).dirs
        (klineSeriesDir symbol timeframe))) := by
  have htype : OfType .kline (s.dirs (klineSeriesDir symbol timeframe)) := fun m₁ hm₁ => by
    obtain rfl := ManifestFile.current.inj (hm.symm.trans hm₁)
    exact ht
  have hgr := hg.of_room hroom
  have hcalm : CalmStop s x → RecoversTo env' x (klineSeriesDir symbol timeframe) .kline (fun l =>
    l = seriesRows .kline (s.dirs (klineSeriesDir symbol timeframe)) ∨
      l = seriesRows .kline (((putKlineChunk env policy symbol timeframe records).final s).dirs
        (klineSeriesDir symbol timeframe))) :=
    fun hc => (hc.recoversTo hg htype env').imp (fun _ => .inl)
  unfold putKlineChunk at hstop hcalm ⊢
  rcases lift_stopped hstop with rfl | ⟨_, hvalid, hstop⟩
  · exact hcalm (.refl _)
  rcases begin_stopped hgr hstop with hc | ⟨v, hdirs, hcv, hgv, hfin, hstop⟩
  · exact hcalm hc
  have hstop := stopped_then_pure hstop
  have hmv : (v.dirs (klineSeriesDir symbol timeframe)).manifest = .current m := by rw [hdirs]; exact hm
  have hgm := (hgv.dir _).of_current hmv
  have hu := hgm.fits.head.unit_month (.inl ht)
  rcases putKlineChunkLocked_run env policy records (hgm.seriesOk hmv) ht rfl (.inl rfl) with href | ⟨⟨month, m', w,
    -, hkept, hrun⟩⟩
  · exact hcalm (hcv.trans (href.stopped hstop))
  · rw [hvalid, Prog.lift_ok_bind, hfin, Prog.final_bind_pure (fun _ => ())]
    have hgood : ∀ e, e ≠ klineSeriesDir symbol timeframe → GoodDir (u32Max - 3) e (x.dirs e) :=
      fun e he => by rw [helse e he]; exact hgr.dir e
    have hadded : MeetsReplaced m w.kept w.entry := by
      intro e he hk
      rw [hkept] at hk
      exact absurd he hk
    have hsat : Unsaturated m month := fun c hc _ => lt_of_le_of_lt (hgm.bound c hc) (by decide)
    obtain ⟨hadv, hm'⟩ := w.advanced_added hkept (hgv.mono (Nat.le_succ _)) hmv ht hu
      (fun c hc _ => hgm.bound c hc) (le_refl _) (by decide)
    have hgu := (hadv.good.dir _).of_current hm'
    have ht' := w.entered.head.recordType.trans ht
    -- a stop inside the write itself
    have hwrite : w.StoppedAt x → ∀ y : Store, seriesRows .kline (y.dirs (klineSeriesDir symbol timeframe)) =
        seriesRows .kline ((exec w.steps v).dirs (klineSeriesDir symbol timeframe)) →
        RecoversTo env' x (klineSeriesDir symbol timeframe) .kline (fun l =>
          l = seriesRows .kline (s.dirs (klineSeriesDir symbol timeframe)) ∨
          l = seriesRows .kline (y.dirs (klineSeriesDir symbol timeframe))) := by
      intro hx y hy
      have hrec := w.recoversTo env' (hgm.seriesOk hmv) hgm.exact ht hu hsat hx (.inr hadded) hgood
      rw [hy, ← hdirs]
      exact hrec
    rcases hrun with ⟨-, hrun⟩ | ⟨-, ⟨e, he, -⟩ | ⟨m'', hres, hrun⟩⟩
    · obtain ⟨ks, hks, rfl⟩ := hstop
      rw [Prog.trace_of_run hrun] at hks
      refine hwrite (w.stoppedAt hgm.fits hks) _ ?_
      rw [Prog.final_of_run hrun, exec_disarm_dirs]
    · obtain ⟨m'', hres⟩ := mergeKlineMonthLocked_answers env month hgu hm' ht' rfl
        (fun c hc _ => hgu.bound c hc) (by decide)
      rw [show (mergeKlineMonthLocked env symbol timeframe month m' (exec w.steps v)).2 = .ok m'' from hres] at he
      cases he
    · have hrows := mergeKlineMonthLocked_rows hgu hm' ht' rfl (by decide) env month
      have hy : seriesRows .kline (((putKlineChunkLocked env policy symbol timeframe records none).final v).dirs
        (klineSeriesDir symbol timeframe)) =
          seriesRows .kline ((exec w.steps v).dirs (klineSeriesDir symbol timeframe)) := by
        rw [Prog.final_of_run hrun, exec_disarm_dirs, exec_append]
        exact hrows
      obtain ⟨ks, hks, rfl⟩ := hstop
      rw [Prog.trace_of_run hrun, List.append_assoc] at hks
      rcases prefix_append_cases hks with hp | ⟨ls, rfl, hls⟩
      · exact hwrite (w.stopped hgm.fits hp) _ hy
      · obtain ⟨ls', hls', heq⟩ := prefix_disarm hls (exec w.steps v)
        have hx : (exec (w.steps ++ ls) v).dirs (klineSeriesDir symbol timeframe) = (exec ls' (exec w.steps v)).dirs
          (klineSeriesDir symbol timeframe) := by
          rw [exec_append, heq]
        have hst := mergeKlineMonthLocked_stopped hgu hm' ht' rfl (by decide) hls' hx
        refine (hst.recoversTo env' hgu hm' ht' (by decide) hrows (fun e he => (hgood e he).mono (Nat.le_succ _))).imp
          (fun l hl => .inr ?_)
        rw [hl, hy]

/-- **An append, stopped and recovered.** -/
theorem appendScalarChunk_recoversTo {records : List ScalarRecord} {blockSize : Nat} (hg : GoodStore C s)
    (hC : C < u32Max) (ht : OfType .scalar (s.dirs scalar.dir)) (hnamed : (s.dirs scalar.dir).manifest = .missing →
      scalar.isBlank = false)
    (hstop : Stopped (appendScalarChunk env scalar timeframeMs records blockSize) s x)
    (helse : ∀ e, e ≠ scalar.dir → x.dirs e = s.dirs e) (env' : Env) :
    RecoversTo env' x scalar.dir .scalar (fun l => l = seriesRows .scalar (s.dirs scalar.dir) ∨
      l = seriesRows .scalar (((appendScalarChunk env scalar timeframeMs records blockSize).final s).dirs scalar.dir))
  := by
  rcases appendScalarChunk_stopped hg ht hnamed hstop with hcalm | ⟨month, rows, w, hrows⟩
  · exact (hcalm.recoversTo hg ht env').imp (fun _ => .inl)
  · refine w.recovers env' hC (fun e he => by rw [helse e he]; exact hg.dir e) (.inr ?_)
    intro e he hk
    rw [w.kept] at hk
    have hfits : Fits scalar.dir (w.v.dirs scalar.dir) w.m := by
      rw [w.dirs]
      exact w.good.fits
    refine w.write.entered.meets_of_row hfits w.scalar (hfits.head.unit_month (.inr w.scalar)) he (fun r hr =>
      hrows r ?_)
    rw [w.dirs] at hr
    exact List.mem_flatMap.2 ⟨e, mem_chunksForPartition.2 ⟨he, not_mem_otherChunks he hk⟩, hr⟩

theorem Nameable.exec (h : Nameable s d) (ks : List IoStep) : Nameable (exec ks s) d := by
  rcases h with hpresent | hid
  · exact .inl (present_exec ks hpresent)
  · right
    rw [exec_root]
    exact hid

/-- The walk of recovery does not come to the directory, once it is there. -/
def Passed (s : Store) (d : Dir) : Prop := (Journal.Store.apply (.makeChunksDir d) s).hidden d = true

/-- **Recovery succeeds after a call in one directory**, where it can name the series or does not come to it. -/
theorem RecoversTo.succeeds_within {t : RecordType} {P : List t.Row → Prop} {ks : List IoStep}
    (hrec : RecoversTo env' (exec ks s) d t P) (hk : ∀ k ∈ ks, k.Within d m) (hg : GoodStore C s) (hr : s.Rooted)
    (hname : Nameable s d ∨ Passed s d) :
    ∃ report, (startupRecoverLocked env').result (exec ks s) = .ok report := by
  rcases hname with hname | hpass
  · exact hrec.succeeds (.inr (hname.exec ks))
  · by_cases hd : d ∈ (exec ks s).known
    · refine hrec.succeeds (.inl ?_)
      rw [hidden_within hk (by simp [IoStep.Within] : ∀ k ∈ [IoStep.makeChunksDir d], k.Within d m) hd
        ((Store.mem_known_modify s d (fun sd => { sd with chunksDir := true })).2 (.inl rfl))]
      exact hpass
    · -- nothing has been made yet
      have hempty := (exec_rooted ks hr).empty d hd
      have hgood : GoodStore C (exec ks s) := by
        refine ⟨fun e => ?_⟩
        by_cases he : e = d
        · rw [he, hempty]
          exact .empty rfl rfl
        · rw [exec_within hk he]
          exact hg.dir e
      obtain ⟨tr, report, hrun, -⟩ := hgood.recover env'
      exact ⟨report, Prog.result_of_run hrun⟩

theorem RecoversTo.callAtomic {t : RecordType} {y : Store} {Answers : SeriesDir → List t.Row → Prop}
    (hrec : RecoversTo env' x d t (fun l => l = seriesRows t (s.dirs d) ∨ l = seriesRows t (y.dirs d)))
    (hres : ∃ report, (startupRecoverLocked env').result x = .ok report) (helse : ∀ e, e ≠ d → x.dirs e = s.dirs e)
    (hans : ∀ d' sd m, SeriesOk d' sd m → m.recordType = t → Answers sd (seriesRows t sd)) :
    CallAtomic env' d (seriesRows t) Answers s x y where
  succeeds := hres
  elsewhere e he := (hrec.others e he).trans (helse e he)
  rows := hrec.rows
  answers m hm := by
    obtain ⟨ht, d', hok⟩ := hrec.series m hm
    exact hans d' _ m hok ht

/-- **Stopped anywhere and recovered, a kline write, a merge or an append is done or not done**: recovery succeeds,
and every row of the series is there once and in order, with the rows of the call or without. -/
theorem writes_atomic (h : Run root HealthyPlain n s) (hroom : s.HasRoom) (env env' : Env) :
    (∀ policy symbol timeframe records m x, (Call.putKline policy symbol timeframe records).Plain →
      (s.dirs (klineSeriesDir symbol timeframe)).manifest = .current m → m.recordType = .kline →
      Stopped (putKlineChunk env policy symbol timeframe records) s x →
      CallAtomic env' (klineSeriesDir symbol timeframe)
        (seriesRows .kline) KlineAnswers s x ((putKlineChunk env policy symbol timeframe records).final s)) ∧
    (∀ symbol timeframe key m x, (Call.mergeKline symbol timeframe key).Plain →
      (s.dirs (klineSeriesDir symbol timeframe)).manifest = .current m → m.recordType = .kline →
      Stopped (mergeKlineMonth env symbol timeframe key) s x →
      CallAtomic env' (klineSeriesDir symbol timeframe) (seriesRows .kline) KlineAnswers s x s ∧
        seriesRows .kline (((mergeKlineMonth env symbol timeframe key).final s).dirs
          (klineSeriesDir symbol timeframe)) =
          seriesRows .kline (s.dirs (klineSeriesDir symbol timeframe))) ∧
    ∀ key timeframeMs records blockSize x, (Call.appendScalar key timeframeMs records blockSize).Plain →
      OfType .scalar (s.dirs key.dir) → ((s.dirs key.dir).manifest = .missing → key.isBlank = false) →
      Nameable s key.dir ∨ Passed s key.dir → Stopped (appendScalarChunk env key timeframeMs records blockSize) s x →
      CallAtomic env' key.dir (seriesRows .scalar) ScalarAnswers s x
        ((appendScalarChunk env key timeframeMs records blockSize).final s) := by
  obtain ⟨C, hC, hg⟩ := h.unplain.unsaturated
  have hwithin : ∀ (c : Call) (key : ScalarSeriesKey), c.Typed s → c.key = some key → ∃ m, ∀ k ∈ (c.run env).trace s,
    k.Within key.dir m := by
    intro c key ht hc
    obtain ⟨m, -, hall⟩ := Call.run_within hg ht hc env
    exact ⟨m, hall⟩
  have htyped : ∀ {sd : SeriesDir} {m : SeriesMeta}, sd.manifest = .current m → m.recordType = .kline →
    OfType .kline sd := by
    intro sd m hm ht m₁ hm₁
    obtain rfl := ManifestFile.current.inj (hm.symm.trans hm₁)
    exact ht
  have hpresent : ∀ {sd : SeriesDir} {m : SeriesMeta}, sd.manifest = .current m → sd.manifest.isPresent = true := by
    intro sd m hm
    rw [hm]
    rfl
  refine ⟨?_, ?_, ?_⟩
  · intro policy symbol timeframe records m x _ hm ht hstop
    obtain ⟨ks, hks, rfl⟩ := id hstop
    obtain ⟨m₀, hall⟩ := hwithin (.putKline policy symbol timeframe records)
      ⟨symbol, klineCategory, timeframe⟩ (htyped hm ht) rfl
    have hk : ∀ k ∈ ks, k.Within (klineSeriesDir symbol timeframe) m₀ := fun k hk => hall k (hks.subset hk)
    have helse : ∀ e, e ≠ klineSeriesDir symbol timeframe → (exec ks s).dirs e = s.dirs e :=
      fun e he => exec_within hk he s
    have hrec := putKlineChunk_recoversTo hg hroom hm ht hstop helse env'
    exact hrec.callAtomic (hrec.succeeds_within hk hg h.rooted (.inl (.inl (hpresent hm)))) helse (fun _ _ _ hok ht =>
      hok.klineAnswers ht)
  · intro symbol timeframe key m x _ hm ht hstop
    obtain ⟨ks, hks, rfl⟩ := id hstop
    obtain ⟨m₀, hall⟩ := hwithin (.mergeKline symbol timeframe key)
      ⟨symbol, klineCategory, timeframe⟩ (htyped hm ht) rfl
    have hk : ∀ k ∈ ks, k.Within (klineSeriesDir symbol timeframe) m₀ := fun k hk => hall k (hks.subset hk)
    have helse : ∀ e, e ≠ klineSeriesDir symbol timeframe → (exec ks s).dirs e = s.dirs e :=
      fun e he => exec_within hk he s
    have hrec := mergeKlineMonth_recoversTo hg hC hm ht hstop helse env'
    exact ⟨(hrec.imp (fun _ => .inl)).callAtomic (hrec.succeeds_within hk hg h.rooted (.inl (.inl (hpresent hm))))
      helse (fun _ _ _ hok ht => hok.klineAnswers ht), mergeKlineMonth_rows hg hC hm ht env key⟩
  · intro key timeframeMs records blockSize x _ ht hnamed hname hstop
    obtain ⟨ks, hks, rfl⟩ := id hstop
    obtain ⟨m₀, hall⟩ := hwithin (.appendScalar key timeframeMs records blockSize) key ht rfl
    have hk : ∀ k ∈ ks, k.Within key.dir m₀ := fun k hk => hall k (hks.subset hk)
    have helse : ∀ e, e ≠ key.dir → (exec ks s).dirs e = s.dirs e := fun e he => exec_within hk he s
    have hrec := appendScalarChunk_recoversTo hg hC ht hnamed hstop helse env'
    exact hrec.callAtomic (hrec.succeeds_within hk hg h.rooted hname) helse (fun _ _ _ hok ht => hok.scalarAnswers ht)

/-- A first append, after its first steps. -/
def stoppedAppend (key : ScalarSeriesKey) (steps : Nat) : Store :=
  exec (((appendScalarChunk (Env.plain 6) key 60000 sampleJanuaryRows 1).trace (Store.empty [])).take steps)
    (Store.empty [])

theorem stoppedAppend_stopped (key : ScalarSeriesKey) (steps : Nat) :
    Stopped (appendScalarChunk (Env.plain 6) key 60000 sampleJanuaryRows 1) (Store.empty [])
    (stoppedAppend key steps) := ⟨_, List.take_prefix _ _, rfl⟩

/-- Stopped once the merged file is there, or once the first file of a series is there. -/
theorem writes_atomic_sample :
    CallAtomic (Env.plain 7) (klineSeriesDir "X" "1m")
    (seriesRows .kline) KlineAnswers sampleJanuary (stoppedJanuary 6) sampleJanuary ∧
    CallAtomic (Env.plain 7) sampleScalarKey.dir (seriesRows .scalar) ScalarAnswers (Store.empty [])
    (stoppedAppend sampleScalarKey 4)
      ((appendScalarChunk (Env.plain 6) sampleScalarKey 60000 sampleJanuaryRows 1).final (Store.empty [])) := by
  have htest : (sampleJanuary.dirs (klineSeriesDir "X" "1m")).tests (fun m =>
    decide (m.recordType = .kline)) = true := by decide +kernel
  obtain ⟨m, hm, ht⟩ := SeriesDir.of_tests htest
  have hroom : (Store.empty []).HasRoom := fun d m hm => by cases hm
  have hname : Nameable (Store.empty []) sampleScalarKey.dir :=
    .inr ⟨sampleScalarKey, by decide +kernel, by decide +kernel⟩
  refine ⟨((writes_atomic sampleJanuary_run sampleJanuary_room (Env.plain 6) (Env.plain 7)).2.1 "X" "1m" "1970-01" m _
    (by decide +kernel) hm
    (of_decide_eq_true ht) (stoppedJanuary_stopped 6)).1, ?_⟩
  have hstart : Run [] HealthyPlain 0 (Store.empty []) := .start
  exact (writes_atomic hstart hroom (Env.plain 6) (Env.plain 7)).2.2 sampleScalarKey 60000 sampleJanuaryRows 1 _
    (by decide +kernel) (by decide +kernel)
      (fun _ => by decide +kernel) (.inl hname) (stoppedAppend_stopped sampleScalarKey 4)

/-- A series whose symbol ends in a blank component. -/
def sampleBlankEnd : ScalarSeriesKey := ⟨"a/ ", "b", "c"⟩

/-- Stopped once the first file of a series is there, in a directory whose path names none, the append leaves a store
that no recovery opens. -/
theorem first_append_unnamed : ¬ ∀ (root : Dir) (n : Nat) (s x : Store) (env env' : Env) (key : ScalarSeriesKey)
    (timeframeMs : Int) (records : List ScalarRecord) (blockSize : Nat), Run root Healthy n s →
      OfType .scalar (s.dirs key.dir) →
    ((s.dirs key.dir).manifest = .missing → key.isBlank = false) →
      Stopped (appendScalarChunk env key timeframeMs records blockSize) s x →
    CallAtomic env' key.dir (seriesRows .scalar) ScalarAnswers s x
      ((appendScalarChunk env key timeframeMs records blockSize).final s) := by
  intro hall
  obtain ⟨report, hres⟩ :=
    (hall [] 0 (Store.empty []) (stoppedAppend sampleBlankEnd 4) (Env.plain 6) (Env.plain 7) sampleBlankEnd 60000
    sampleJanuaryRows 1
    .start (by decide +kernel) (fun _ => by decide +kernel) (stoppedAppend_stopped sampleBlankEnd 4)).succeeds
  have hfails : ((startupRecoverLocked (Env.plain 7)).result (stoppedAppend sampleBlankEnd 4)).isOk = false := by
    decide +kernel
  rw [hres] at hfails
  cases hfails

end Calls

end FastK
