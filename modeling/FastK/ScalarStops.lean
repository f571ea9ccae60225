import FastK.Atomicity
/-!
# Interrupted scalar writes

A scalar write, stopped anywhere, has changed nothing or has entered its one chunk up to some step (`ScalarStop`).  An
append's chunk holds the rows of the chunk it replaces, and so meets it.  That of a replacement need not: recovery
then keeps both (`put_atomic`, `put_mixes_rows`).
-/
namespace FastK

open Journal Spans Versioned

/-! ## What the new chunk meets -/

section Meets

variable {d : Dir} {t : RecordType} {u : PartitionUnit} {sd : SeriesDir} {m m' : SeriesMeta} {kept : List ChunkMeta}
    {key name : Text}
  {f : ChunkFile} {rows : List t.Row} {c e : ChunkMeta}

theorem Entered.startTs_eq (w : Entered t u sd m kept key name f rows c m') : c.startTs = firstTs rows :=
  w.laid.entry.startTs.trans w.laid.file.holds.startTs_eq

theorem Entered.endTs_eq (w : Entered t u sd m kept key name f rows c m') : c.endTs = lastTs rows :=
  w.laid.entry.endTs.trans w.laid.file.holds.endTs_eq

/-- The new chunk meets a chunk it shares a row with. -/
theorem Entered.meets_of_row (w : Entered t u sd m kept key name f rows c m') (h : Fits d sd m)
    (ht : m.recordType = t) (hu : m.unit = u) (he : e ∈ m.chunks) (hsub : ∀ r ∈ rowsIn t sd e, r ∈ rows) :
    SpansMeet e c := by
  subst ht hu
  obtain ⟨n, g, -, hold, hent⟩ := (h.tracked e he).rowsIn h.filed
  obtain ⟨r, hr, -⟩ := exists_firstTs hold.holds.ne_nil
  have hord := w.laid.file.holds.ordered
  have h1 := firstTs_le hold.holds.ordered hr
  have h2 := le_lastTs hold.holds.ordered hr
  have h3 := firstTs_le hord (hsub r hr)
  have h4 := le_lastTs hord (hsub r hr)
  unfold SpansMeet Meets
  rw [w.startTs_eq, w.endTs_eq, hent.startTs, hent.endTs, hold.holds.startTs_eq, hold.holds.endTs_eq]
  exact ⟨le_trans h1 h4, le_trans h3 h2⟩

end Meets

/-- Every chunk of the month meets the span of the records. -/
def MonthMet (sd : SeriesDir) (month : Text) (records : List ScalarRecord) : Prop :=
  ∀ m, sd.manifest = .current m → ∀ c ∈ m.chunksForPartition month, c.startTs ≤ lastTs records ∧
    firstTs records ≤ c.endTs

/-! ## Where a scalar write stops -/

section Stops

variable {env : Env} {key : ScalarSeriesKey} {C : Nat} {timeframeMs : Int} {records : List ScalarRecord}
    {blockSize : Nat} {month : Text}
  {s v x : Store} {d : Dir}

/-- A stop among the steps of a write, or after the marker is gone. -/
theorem EntryWrite.stoppedAt {t : RecordType} {m m' : SeriesMeta} {month : Text} {rows : List t.Row}
    (w : EntryWrite env d t .month (v.dirs d) m m' month rows) (h : Fits d (v.dirs d) m) {ks : List IoStep}
    (hk : ks <+: w.steps ++ [.disarm]) :
    w.StoppedAt (exec ks v) := by
  rcases prefix_append_cases hk with hp | ⟨ls, rfl, hls⟩
  · exact w.stopped h hp
  · have hdir : (exec (w.steps ++ ls) v).dirs d = (exec w.steps v).dirs d := by
      rcases List.prefix_cons_iff.1 hls with rfl | ⟨l, rfl, hl⟩
      · rw [List.append_nil]
      · rw [List.prefix_nil.1 hl, exec_disarm_dirs]
    unfold EntryWrite.StoppedAt
    rw [hdir]
    exact w.stopped h List.prefix_rfl

/-- A scalar write from `s` to `y`, stopped at `x` while it enters its rows. -/
structure ScalarStop (C : Nat) (env : Env) (d : Dir) (month : Text) (rows : List ScalarRecord) (s x y : Store) where
  v : Store
  m : SeriesMeta
  m' : SeriesMeta
  write : EntryWrite env d .scalar .month (v.dirs d) m m' month rows
  dirs : ∀ e, v.dirs e = s.dirs e
  kept : write.kept = otherChunks m month
  good : GoodSeries C d (s.dirs d) m
  scalar : m.recordType = .scalar
  base : (s.dirs d).manifest = .current m ∨ m.chunks = [] ∧ (s.dirs d).manifest = .missing
  stopped : write.StoppedAt x
  final : y.dirs d = (exec write.steps v).dirs d

/-- The steps so far have changed no file. -/
def CalmStop (s x : Store) : Prop := ∃ ks, (∀ k ∈ ks, k.calm = true) ∧ x = exec ks s

theorem CalmStop.trans {s v x : Store} (h : CalmStop s v) (h' : CalmStop v x) : CalmStop s x := by
  obtain ⟨ks, hks, rfl⟩ := h
  obtain ⟨ls, hls, rfl⟩ := h'
  exact ⟨ks ++ ls, fun k hk => (List.mem_append.1 hk).elim (hks k) (hls k), (exec_append _ _ _).symm⟩

/-- A stop before or in the recovery that a call begins with. -/
theorem begin_stopped (hg : GoodStore C s) {p : Op Unit} (hstop : Stopped (beginMutation env >>= fun _ => p) s x) :
    CalmStop s x ∨ ∃ v, (∀ e, v.dirs e = s.dirs e) ∧ CalmStop s v ∧ GoodStore C v ∧ (beginMutation env >>= fun _ =>
      p).final s = p.final v ∧ Stopped p v x := by
  obtain ⟨tr, hrun, hquiet⟩ := hg.begin env
  have hcalm : ∀ k ∈ tr, k.calm = true := by
    intro k hk
    rcases hquiet k hk with rfl | rfl <;> rfl
  obtain ⟨hres, hgood, hdirs⟩ := beginMutation_good hg env
  rcases stopped_bind hstop with ⟨ks, hks, rfl⟩ | ⟨_, -, hrest⟩
  · rw [Prog.trace_of_run hrun] at hks
    exact .inl ⟨ks, fun k hk => hcalm k (hks.subset hk), rfl⟩
  · exact .inr ⟨_, hdirs, ⟨tr, hcalm, Prog.final_of_run hrun⟩, hgood, Prog.final_bind_ok hres _, hrest⟩

/-- What is checked before has no steps. -/
theorem lift_stopped {α β : Type} {r : Result α} {f : α → Op β} (hstop : Stopped (Prog.lift r >>= f) s x) :
    x = s ∨ ∃ a, r = .ok a ∧ Stopped (f a) s x := by
  rcases stopped_bind hstop with hs | ⟨a, ha, hs⟩
  · exact .inl (stopped_of_trace_nil rfl hs)
  · exact .inr ⟨a, ha, hs⟩

/-- A stop in a program that answers at its end. -/
theorem stopped_then_pure {α β : Type} {p : Op α} {g : α → β}
    (hstop : Stopped (p >>= fun a => (pure (g a) : Op β)) s x) : Stopped p s x := by
  rcases stopped_bind hstop with hs | ⟨a, -, hs⟩
  · exact hs
  · rw [stopped_of_trace_nil rfl hs]
    exact stopped_final p s

theorem CalmStop.refl (s : Store) : CalmStop s s := ⟨[], by simp, rfl⟩

/-- The stops of a write that enters its rows. -/
theorem ScalarWritten.stop {m : SeriesMeta} {rows : List ScalarRecord} {p : Op SeriesMeta}
    (h : ScalarWritten env key v m month rows (p v)) (hv : ∀ e, v.dirs e = s.dirs e)
    (hgood : GoodSeries C key.dir (v.dirs key.dir) m) (ht : m.recordType = .scalar)
    (hbase : (v.dirs key.dir).manifest = .current m ∨ m.chunks = [] ∧ (v.dirs key.dir).manifest = .missing)
    (hstop : Stopped p v x) :
    ∃ w : ScalarStop C env key.dir month rows s x (p.final v), w.m = m := by
  obtain ⟨m', w, hkept, hrun⟩ := h
  obtain ⟨ks, hks, rfl⟩ := hstop
  rw [Prog.trace_of_run hrun] at hks
  refine ⟨⟨v, m, m', w, hv, hkept, ?_, ht, ?_, w.stoppedAt hgood.fits hks, ?_⟩, rfl⟩
  · rw [← hv]
    exact hgood
  · rw [← hv]
    exact hbase
  · rw [Prog.final_of_run hrun, exec_disarm_dirs]

theorem Refused.stopped {α : Type} {p : Op α} (h : Refused (p v)) (hstop : Stopped p v x) : CalmStop v x := by
  obtain ⟨ks, hks, rfl⟩ := hstop
  exact ⟨ks, fun k hk => h.2 k (hks.subset hk), rfl⟩

/-- **A replacement of a month, stopped anywhere.** -/
theorem putScalarChunk_stopped (hg : GoodStore C s) (ht : OfType .scalar (s.dirs key.dir))
    (hn : (s.dirs key.dir).manifest = .missing → key.isBlank = false)
    (hstop : Stopped (putScalarChunk env key timeframeMs records blockSize) s x) :
    CalmStop s x ∨ ∃ month, monthKey (firstTs records) = .ok month ∧
      Nonempty (ScalarStop C env key.dir month records s x
        ((putScalarChunk env key timeframeMs records blockSize).final s)) := by
  unfold putScalarChunk at hstop ⊢
  rcases lift_stopped hstop with rfl | ⟨_, hcheck, hstop⟩
  · exact .inl (.refl _)
  rcases lift_stopped hstop with rfl | ⟨_, hvalid, hstop⟩
  · exact .inl (.refl _)
  rcases begin_stopped hg hstop with hcalm | ⟨v, hdirs, hcalm, hgv, hfin, hstop⟩
  · exact .inl hcalm
  rw [hcheck, Prog.lift_ok_bind, hvalid, Prog.lift_ok_bind, hfin, Prog.final_bind_pure (fun _ => ())]
  have hstop := stopped_then_pure hstop
  have hready := hgv.scalarReady (by rw [hdirs]; exact ht) (by rw [hdirs]; exact hn)
  rcases putScalarChunkLocked_run env timeframeMs records blockSize (fun m hm => hready.fits hm) with href |
    ⟨m, month, hm, hmonth, hw⟩
  · exact .inl (hcalm.trans (href.stopped hstop))
  · obtain ⟨hgm, hbase⟩ := hready.good hgv hm
    obtain ⟨w, -⟩ := hw.stop hdirs hgm (hready.fits hm).2 hbase hstop
    exact .inr ⟨month, hmonth, ⟨w⟩⟩

/-- **An append, stopped anywhere.** -/
theorem appendScalarChunk_stopped (hg : GoodStore C s) (ht : OfType .scalar (s.dirs key.dir))
    (hn : (s.dirs key.dir).manifest = .missing → key.isBlank = false)
    (hstop : Stopped (appendScalarChunk env key timeframeMs records blockSize) s x) :
    CalmStop s x ∨ ∃ month rows, ∃ w :
    ScalarStop C env key.dir month rows s x ((appendScalarChunk env key timeframeMs records blockSize).final s),
      ∀ r ∈ storedMonth (s.dirs key.dir) w.m month, r ∈ rows := by
  unfold appendScalarChunk at hstop ⊢
  rcases lift_stopped hstop with rfl | ⟨_, hcheck, hstop⟩
  · exact .inl (.refl _)
  rcases lift_stopped hstop with rfl | ⟨_, hvalid, hstop⟩
  · exact .inl (.refl _)
  rcases begin_stopped hg hstop with hcalm | ⟨v, hdirs, hcalm, hgv, hfin, hstop⟩
  · exact .inl hcalm
  rw [hcheck, Prog.lift_ok_bind, hvalid, Prog.lift_ok_bind, hfin, Prog.final_bind_pure (fun _ => ())]
  have hstop := stopped_then_pure hstop
  have hready := hgv.scalarReady (by rw [hdirs]; exact ht) (by rw [hdirs]; exact hn)
  rcases appendScalarChunkLocked_run env timeframeMs records blockSize hready (fun m hm =>
    ((hgv.dir _).of_current hm).readable)
    with href | ⟨m, month, hm, -, -, hw⟩
  · exact .inl (hcalm.trans (href.stopped hstop))
  · obtain ⟨hgm, hbase⟩ := hready.good hgv hm
    obtain ⟨w, hwm⟩ := hw.stop hdirs hgm (hready.fits hm).2 hbase hstop
    refine .inr ⟨month, _, w, fun r hr => List.mem_append_left _ ?_⟩
    rw [hwm, ← hdirs] at hr
    exact hr

end Stops

/-! ## What the walk sees -/

section Walk

variable {s : Store} {d : Dir} {ks : List IoStep} {m : SeriesMeta}

theorem known_mono (ks : List IoStep) {e : Dir} (he : e ∈ s.known) : e ∈ (exec ks s).known := by
  refine exec_induction (P := fun t : Store => e ∈ t.known) ks s he (fun k _ t ht => ?_)
  have hmodify : ∀ (d : Dir) (f : SeriesDir → SeriesDir), e ∈ (t.modify d f).known :=
    fun d f => (Store.mem_known_modify t d f).2 (.inr ht)
  cases k with
  | makeChunksDir d => exact hmodify d (fun sd => { sd with chunksDir := true })
  | publish d name _ body => exact hmodify d (fun sd => sd.put name body)
  | publishManifest d _ m => exact hmodify d (fun sd => { sd with manifest := .current m })
  | _ => exact ht

/-- Runs of steps in one directory do not differ in what the walk sees above it, once it is known. -/
theorem hidden_within {ls : List IoStep} (hk : ∀ k ∈ ks, k.Within d m) (hl : ∀ k ∈ ls, k.Within d m)
    (hd : d ∈ (exec ks s).known) (hd' : d ∈ (exec ls s).known) : (exec ks s).hidden d = (exec ls s).hidden d := by
  have hknown : ∀ e, e ∈ (exec ks s).known ↔ e ∈ (exec ls s).known := by
    intro e
    constructor
    · intro he
      rcases known_within hk s he with rfl | he
      · exact hd'
      · exact known_mono ls he
    · intro he
      rcases known_within hl s he with rfl | he
      · exact hd
      · exact known_mono ks he
  have hlooks : ∀ n, n < d.length →
    (exec ks s).looksLikeSeries [] (d.take n) = (exec ls s).looksLikeSeries [] (d.take n) := by
    intro n hn
    have hne : d.take n ≠ d := by
      intro heq
      have := congrArg List.length heq
      rw [List.length_take] at this
      omega
    unfold Store.looksLikeSeries Store.made
    rw [exec_within hk hne, exec_within hl hne]
    congr 1
    rw [Bool.eq_iff_iff, List.any_eq_true, List.any_eq_true]
    simp only [List.append_nil, List.mem_filter, hknown]
  unfold Store.hidden
  congr 1
  rw [Bool.eq_iff_iff, List.any_eq_true, List.any_eq_true]
  refine exists_congr (fun n => and_congr_right (fun hn => ?_))
  rw [hlooks n (List.mem_range.1 hn)]

end Walk

/-! ## Replacing a month -/

section Put

variable {root : Dir} {n : Nat} {env : Env} {key : ScalarSeriesKey} {C : Nat} {timeframeMs : Int}
    {records : List ScalarRecord} {blockSize : Nat}
  {month : Text} {s x y : Store} {d : Dir}

/-- After recovery the month holds what it did before or the records, and nothing else has changed. -/
structure MonthAtomic (env : Env) (d : Dir) (month : Text) (records : List ScalarRecord) (s x : Store) : Prop where
  succeeds : x.hidden d = true ∨ Nameable x d → ∃ report, (startupRecoverLocked env).result x = .ok report
  elsewhere : ∀ e, e ≠ d → ((startupRecoverLocked env).final x).dirs e = s.dirs e
  answers : ∀ m, (((startupRecoverLocked env).final x).dirs d).manifest = .current m →
    ScalarAnswers (((startupRecoverLocked env).final x).dirs d)
      (seriesRows .scalar (((startupRecoverLocked env).final x).dirs d))
  within : (seriesRows .scalar (((startupRecoverLocked env).final x).dirs d)).filter (inMonth month) =
    (seriesRows .scalar (s.dirs d)).filter (inMonth month) ∨
    (seriesRows .scalar (((startupRecoverLocked env).final x).dirs d)).filter (inMonth month) = records
  others : (seriesRows .scalar (((startupRecoverLocked env).final x).dirs d)).filter (fun r => !inMonth month r) =
    (seriesRows .scalar (s.dirs d)).filter (fun r => !inMonth month r)

/-- No generation is used up after healthy calls. -/
theorem Run.unsaturated (h : Run root Healthy n s) : ∃ B, B < u32Max ∧ GoodStore B s := by
  cases h with
  | start => exact ⟨0, by decide, goodStore_empty root⟩
  | call env c h hok =>
    obtain ⟨B, hg⟩ := h.healthy
    exact ⟨_, by decide, Call.run_good (hg.of_room hok.room) (by decide) hok.faultless hok.regular⟩

theorem ScalarStop.recovers (w : ScalarStop C env d month records s x y) (env' : Env) (hC : C < u32Max)
    (hgood : ∀ e, e ≠ d → GoodDir C e (x.dirs e))
    (hmeets : x.hidden d = true ∨ MeetsReplaced w.m w.write.kept w.write.entry) :
    RecoversTo env' x d .scalar (fun l => l = seriesRows .scalar (s.dirs d) ∨ l = seriesRows .scalar (y.dirs d)) := by
  have hgm : GoodSeries C d (w.v.dirs d) w.m := by
    rw [w.dirs]
    exact w.good
  have hbase := w.base
  rw [w.final]
  rw [← w.dirs] at hbase ⊢
  exact w.write.recoversTo_scalar env' hgm.fits hgm.exact w.scalar hbase
    (fun c hc _ => lt_of_le_of_lt (hgm.bound c hc) hC) w.stopped hmeets hgood

/-- Where its span meets the chunks of the month, the new chunk meets all it replaces. -/
theorem ScalarStop.meets (w : ScalarStop C env d month records s x y) (h : MonthMet (s.dirs d) month records) :
    MeetsReplaced w.m w.write.kept w.write.entry := by
  intro e he hk
  rw [w.kept] at hk
  rcases w.base with hcur | ⟨hnil, -⟩
  · obtain ⟨h1, h2⟩ := h w.m hcur e (mem_chunksForPartition.2 ⟨he, not_mem_otherChunks he hk⟩)
    unfold SpansMeet Meets
    rw [w.write.entered.startTs_eq, w.write.entered.endTs_eq]
    exact ⟨h1, h2⟩
  · rw [hnil] at he
    cases he

/-- **A replacement of a month whose chunks all meet the records, stopped anywhere, is done or not done.** -/
theorem put_atomic (h : Run root HealthyPlain n s) (_ : (Call.putScalar key timeframeMs records blockSize).Plain)
    (ht : OfType .scalar (s.dirs key.dir)) (hv : PutValid (s.dirs key.dir) key timeframeMs records blockSize month)
    (hmeets : s.hidden key.dir = true ∨ MonthMet (s.dirs key.dir) month records)
    (hstop : Stopped (putScalarChunk env key timeframeMs records blockSize) s x) (env' : Env) :
    MonthAtomic env' key.dir month records s x := by
  obtain ⟨C, hC, hg⟩ := h.unplain.unsaturated
  obtain ⟨ks, hks, hx⟩ := id hstop
  obtain ⟨m₀, -, hall⟩ := Call.run_within (c := .putScalar key timeframeMs records blockSize) hg ht rfl env
  have hwithin : ∀ k ∈ ks, k.Within key.dir m₀ := fun k hk => hall k (hks.subset hk)
  have helse : ∀ e, e ≠ key.dir → x.dirs e = s.dirs e := by
    rw [hx]
    exact fun e he => exec_within hwithin he s
  rcases putScalarChunk_stopped hg ht hv.named hstop with ⟨ls, hcalm, rfl⟩ | ⟨month', hmonth', ⟨w⟩⟩
  · have hsame := exec_calm hcalm s key.dir
    have hrows : seriesRows .scalar ((exec ls s).dirs key.dir) = seriesRows .scalar (s.dirs key.dir) :=
      hsame.seriesRows _
    have hrec := (hg.calm hcalm).recoversTo (fun m hm => ht m (hsame.manifest ▸ hm)) env'
    have hafter := hrec.rows
    rw [hrows] at hafter
    exact ⟨hrec.succeeds, fun e he => (hrec.others e he).trans (helse e he), fun m hm =>
      (hrec.series m hm).2.elim (fun d' hok => hok.scalarAnswers (hrec.series m hm).1), .inl (by rw [hafter]), by
        rw [hafter]⟩
  · obtain ⟨r, hr, hfirst⟩ := exists_firstTs hv.nonempty
    obtain rfl : month = month' := by
      have hkeyed := hv.keyed r hr
      rw [show r.ts = firstTs records from hfirst] at hkeyed
      exact Except.ok.inj (hkeyed.symm.trans hmonth')
    have hmeets' : x.hidden key.dir = true ∨ MeetsReplaced w.m w.write.kept w.write.entry := by
      rcases hmeets with hhid | hmet
      · rcases w.base with hcur | ⟨hnil, -⟩
        · have hknown : key.dir ∈ s.known := by
            by_contra hno
            rw [h.rooted.empty _ hno] at hcur
            cases hcur
          left
          rw [hx, hidden_within hwithin (by simp : ∀ k ∈ ([] : List IoStep),
            k.Within key.dir m₀) (known_mono ks hknown) hknown]
          exact hhid
        · right
          intro e he
          rw [hnil] at he
          cases he
      · exact .inr (w.meets hmet)
    have hrec := w.recovers env' hC (fun e he => by rw [helse e he]; exact hg.dir e) hmeets'
    have hgm : GoodSeries C key.dir (w.v.dirs key.dir) w.m := by
      rw [w.dirs]
      exact w.good
    have hbase := w.base
    rw [← w.dirs] at hbase
    obtain ⟨hin, hout⟩ := w.write.replaces_rows w.kept hgm.fits w.scalar hbase
    have hout := hout.trans (congrArg (fun sd => (seriesRows .scalar sd).filter (fun r =>
      !inMonth month r)) (w.dirs key.dir))
    refine ⟨hrec.succeeds, fun e he => (hrec.others e he).trans (helse e he), fun m hm =>
      (hrec.series m hm).2.elim (fun d' hok => hok.scalarAnswers (hrec.series m hm).1), ?_, ?_⟩
    · rcases hrec.rows with heq | heq
      · exact .inl (by rw [heq])
      · exact .inr (by rw [heq, w.final]; exact hin)
    · rcases hrec.rows with heq | heq
      · rw [heq]
      · rw [heq, w.final]
        exact hout

/-- January again, with one row changed and one added. -/
def sampleCorrection : List ScalarRecord := [⟨60000, ⟨8, by decide⟩⟩, ⟨120000, ⟨8, by decide⟩⟩]

/-- January after the first steps of its replacement. -/
def stoppedReplacement (rows : List ScalarRecord) (steps : Nat) : Store :=
  exec (((putScalarChunk (Env.plain 6) sampleScalarKey 60000 rows 1).trace sampleScalarMonths).take steps)
    sampleScalarMonths

theorem stoppedReplacement_stopped (rows : List ScalarRecord) (steps : Nat) :
    Stopped (putScalarChunk (Env.plain 6) sampleScalarKey 60000 rows 1) sampleScalarMonths
      (stoppedReplacement rows steps) := ⟨_, List.take_prefix _ _, rfl⟩

theorem sampleScalarMonths_takes {rows : List ScalarRecord} (ho : Ordered rows) (hne : rows ≠ [])
    (hk : ∀ r ∈ rows, monthKey r.ts = .ok "1970-01".toList) :
    PutValid (sampleScalarMonths.dirs sampleScalarKey.dir) sampleScalarKey 60000 rows 1 "1970-01".toList := by
  have htest : (sampleScalarMonths.dirs sampleScalarKey.dir).tests (fun m => decide (m.timeframeMs = 60000)) = true := by
    decide +kernel
  obtain ⟨m₀, hm₀, htf⟩ := SeriesDir.of_tests htest
  refine ⟨by decide, by decide, ho, hne, hk, fun m hm => ?_, fun hmiss => ?_⟩
  · obtain rfl := ManifestFile.current.inj (hm₀.symm.trans hm)
    exact of_decide_eq_true htf
  · rw [hm₀] at hmiss
    cases hmiss

/-- Stopped once the chunk file is there, the correction of January is done by recovery. -/
theorem put_atomic_sample :
    MonthAtomic (Env.plain 7) sampleScalarKey.dir "1970-01".toList sampleCorrection sampleScalarMonths
    (stoppedReplacement sampleCorrection 4) := by
  have htype : OfType .scalar (sampleScalarMonths.dirs sampleScalarKey.dir) := by decide +kernel
  have htest : (sampleScalarMonths.dirs sampleScalarKey.dir).tests (fun m =>
    decide (∀ c ∈ m.chunksForPartition "1970-01".toList,
      c.startTs ≤ lastTs sampleCorrection ∧ firstTs sampleCorrection ≤ c.endTs)) = true := by decide +kernel
  have hmet : MonthMet (sampleScalarMonths.dirs sampleScalarKey.dir) "1970-01".toList sampleCorrection := by
    intro m hm
    obtain ⟨m₀, hm₀, htest⟩ := SeriesDir.of_tests htest
    obtain rfl := ManifestFile.current.inj (hm₀.symm.trans hm)
    exact of_decide_eq_true htest
  exact put_atomic sampleScalarMonths_run (by decide +kernel) htype
    (sampleScalarMonths_takes ((ordered_iff_strict rfl).2 (by decide)) (by decide) (by decide +kernel)) (.inr hmet)
    (stoppedReplacement_stopped _ 4) (Env.plain 7)

/-- Stopped there as well, a January that begins after the stored one ends is put beside it. -/
theorem put_mixes_rows : ¬ ∀ (root : Dir) (n : Nat) (s x : Store) (env env' : Env) (key : ScalarSeriesKey)
    (timeframeMs : Int) (records : List ScalarRecord) (blockSize : Nat) (month : Text), Run root Healthy n s →
      OfType .scalar (s.dirs key.dir) → PutValid (s.dirs key.dir) key timeframeMs records blockSize month →
    Stopped (putScalarChunk env key timeframeMs records blockSize) s x → MonthAtomic env' key.dir month records s x :=
  by
  intro hall
  have htype : OfType .scalar (sampleScalarMonths.dirs sampleScalarKey.dir) := by decide +kernel
  have hatomic := (hall [] 3 sampleScalarMonths (stoppedReplacement sampleReplacement 4) (Env.plain 6)
    (Env.plain 7) sampleScalarKey 60000 sampleReplacement 1
    "1970-01".toList sampleScalarMonths_run.unplain htype
      (sampleScalarMonths_takes ((ordered_iff_strict rfl).2 (by decide)) (by decide) (by decide +kernel))
    (stoppedReplacement_stopped _ 4)).within
  have hrows : (((seriesRows .scalar
    (((startupRecoverLocked (Env.plain 7)).final (stoppedReplacement sampleReplacement 4)).dirs
    sampleScalarKey.dir)).filter
      (inMonth "1970-01".toList)).map FixedRecord.ts) = [0, 60000, 120000] := by decide +kernel
  have hbefore : (((seriesRows .scalar (sampleScalarMonths.dirs sampleScalarKey.dir)).filter
    (inMonth "1970-01".toList)).map FixedRecord.ts) = [0, 60000] := by
    decide +kernel
  rcases hatomic with heq | heq
  · rw [heq, hbefore] at hrows
    cases hrows
  · rw [heq] at hrows
    cases hrows

end Put

end FastK
