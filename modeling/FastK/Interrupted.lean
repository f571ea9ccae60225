import FastK.Merges
/-!
# Interrupted merges

A merge saves the manifest with the chunks of the month marked as merging, writes the merged chunk, saves the manifest
with it, and removes the old files.  Stopped between the two saves it leaves the mark, and recovery settles it: from
the active chunk id where the merged file is not there, and as sealed where it is.  Neither gives back the states
there were, nor those of the finished merge, except in the one case that `interrupted_merge_iff` names.
-/
namespace FastK

open Journal Spans Versioned

/-! ## Known directories -/

/-- Every directory that holds something is known, and then the directory of the series is there. -/
structure Store.Rooted (s : Store) : Prop where
  empty : ∀ d, d ∉ s.known → s.dirs d = .empty
  root : s.known ≠ [] → s.seriesRoot = true

section Rooted

variable {s : Store}

theorem Store.Rooted.modify (h : s.Rooted) (d : Dir) (f : SeriesDir → SeriesDir) : (s.modify d f).Rooted where
  empty e he := by
    rw [Store.mem_known_modify] at he
    rw [Store.modify_dirs_ne s f (fun heq => he (.inl heq))]
    exact h.empty e (fun hk => he (.inr hk))
  root _ := rfl

theorem apply_rooted (k : IoStep) (h : s.Rooted) : (Journal.Store.apply k s).Rooted := by
  cases k with
  | makeChunksDir d => exact h.modify d (fun sd => { sd with chunksDir := true })
  | publish d name temp body =>
    have hm := h.modify d (fun sd => sd.put name body)
    exact ⟨hm.empty, hm.root⟩
  | publishManifest d temp m =>
    have hm := h.modify d (fun sd => { sd with manifest := .current m })
    exact ⟨hm.empty, hm.root⟩
  | removeFile d path =>
    refine ⟨fun e he => ?_, h.root⟩
    show (if e = d then (s.dirs e).remove path else s.dirs e) = _
    rw [h.empty e he]
    split <;> rfl
  | makeSeriesRoot => exact ⟨h.empty, fun _ => rfl⟩
  | arm => exact ⟨h.empty, h.root⟩
  | disarm => exact ⟨h.empty, h.root⟩
  | stage => exact ⟨h.empty, h.root⟩
  | removeTemps => exact ⟨h.empty, h.root⟩

theorem exec_rooted (ks : List IoStep) (h : s.Rooted) : (exec ks s).Rooted :=
  exec_induction (P := Store.Rooted) ks s h (fun k _ _ ht => apply_rooted k ht)

theorem Run.rooted {root : Dir} {Ok : Env → Call → Store → Prop} {n : Nat} (h : Run root Ok n s) : s.Rooted := by
  induction h with
  | start => exact ⟨fun _ _ => rfl, fun hne => absurd rfl hne⟩
  | call env c _ _ ih => exact exec_rooted _ ih

/-- Recovery finds a directory with a manifest, unless it lies below another series. -/
theorem Store.Rooted.discovered_iff (h : s.Rooted) {env : Env} {d : Dir} {m : SeriesMeta}
    (hm : (s.dirs d).manifest = .current m) :
    (s.seriesRoot = true ∧ d ∈ discoverSeriesDirs env [] s) ↔ s.hidden d = false := by
  have hknown : d ∈ s.known := by
    by_contra hno
    rw [h.empty d hno] at hm
    cases hm
  have hlooks : s.looksLikeSeries [] d = true := by
    unfold Store.looksLikeSeries
    rw [hm]
    simp [ManifestFile.isPresent]
  rw [mem_discover_iff]
  constructor
  · rintro ⟨-, -, -, -, hseen⟩
    exact hseen
  · intro hseen
    have hroot := h.root (List.ne_nil_of_mem hknown)
    exact ⟨hroot, hroot, .inr ⟨d, hknown, List.prefix_refl d⟩, hlooks, hseen⟩

end Rooted

/-! ## Recovery of one series among others in order -/

section Recovery

variable {C : Nat} {d : Dir} {sd : SeriesDir} {m m₁ : SeriesMeta} {t : Store}

theorem afterSaves_current {saves : List SeriesMeta} (hm : sd.manifest = .current m) :
    sd.afterSaves saves = { sd with manifest := .current (lastSaved m saves) } := by
  unfold SeriesDir.afterSaves lastSaved
  cases saves.getLast? with
  | none => rw [Option.map_none, Option.getD_none, Option.getD_none, hm]
  | some m' => rfl

/-- **Recovery of a store in which one series has been left unfinished**: the series is recovered where the walk finds
it, and nothing else changes. -/
theorem recover_unfinished (env : Env) {Q : List SeriesMeta → Prop} (hr : t.Rooted)
    (hm : (t.dirs d).manifest = .current m) (hd : Recovers env t.root d (t.dirs d) Q)
    (hgood : ∀ e, e ≠ d → GoodDir C e (t.dirs e)) :
    (∃ report, (startupRecoverLocked env).result t = .ok report) ∧
      (∀ e, e ≠ d → ((startupRecoverLocked env).final t).dirs e = t.dirs e) ∧
      ∃ m₁, ((startupRecoverLocked env).final t).dirs d = { t.dirs d with manifest := .current m₁ } ∧
        (t.hidden d = true ∧ m₁ = m ∨ t.hidden d = false ∧ ∃ saves, Q saves ∧ m₁ = lastSaved m saves) := by
  have hall : ∀ e ∈ discoverSeriesDirs env [] t, Recovers env t.root e (t.dirs e) (fun saves => (e ≠ d → saves = []) ∧
    (e = d → Q saves)) := by
    intro e _ report
    by_cases he : e = d
    · subst he
      obtain ⟨saves, report', hrec, hQ⟩ := hd report
      exact ⟨saves, report', hrec, fun hne => absurd rfl hne, fun _ => hQ⟩
    · obtain ⟨saves, report', hrec, hnil⟩ := (hgood e he).recovers env t.root report
      exact ⟨saves, report', hrec, fun _ => hnil, fun heq => absurd heq he⟩
  obtain ⟨tr, report, hrun, hrest⟩ := startupRecover_run hall
  have hfin : (startupRecoverLocked env).final t = exec tr t := Prog.final_of_run hrun
  refine ⟨⟨report, Prog.result_of_run hrun⟩, fun e he => ?_, ?_⟩
  · rw [hfin]
    rcases hrest e with ⟨-, -, saves, hQ, heq⟩ | ⟨-, heq⟩
    · rw [heq, hQ.1 he, SeriesDir.afterSaves_nil]
    · exact heq
  · rw [hfin]
    rcases hrest d with ⟨hroot, hdisc, saves, hQ, heq⟩ | ⟨hno, heq⟩
    · have hseen := (hr.discovered_iff hm).1 ⟨hroot, hdisc⟩
      exact ⟨lastSaved m saves, by rw [heq, afterSaves_current hm], .inr ⟨hseen, saves, hQ.2 rfl, rfl⟩⟩
    · rw [hr.discovered_iff hm, Bool.not_eq_false] at hno
      refine ⟨m, ?_, .inl ⟨hno, rfl⟩⟩
      rw [heq, ← hm]

/-- Where nothing is saved, nothing changes. -/
theorem recover_idle {env : Env} (hr : t.Rooted) (hm : (t.dirs d).manifest = .current m)
    (hd : Recovers env t.root d (t.dirs d) (fun saves => saves = [])) (hgood : ∀ e, e ≠ d → GoodDir C e (t.dirs e)) :
    (∃ report, (startupRecoverLocked env).result t = .ok report) ∧
      (((startupRecoverLocked env).final t).dirs d).manifest = .current m := by
  obtain ⟨hres, -, m₁, hdir, hm₁⟩ := recover_unfinished _ hr hm hd hgood
  refine ⟨hres, ?_⟩
  rw [hdir]
  rcases hm₁ with ⟨-, rfl⟩ | ⟨-, saves, rfl, rfl⟩ <;> rfl

end Recovery


/-! ## Where a merge stops -/

section Stops

variable {env : Env} {d : Dir} {symbol timeframe key : Text} {m : SeriesMeta} {s t : Store} {C : Nat}

/-- What is left of a series by a merge of several chunks that has been stopped: all as it was, the marked manifest and
some of the new files, or the new manifest with its files. -/
structure MergeStop (sd sd' : SeriesDir) (m : SeriesMeta) (key : Text) (m' : SeriesMeta) (f : ChunkFile)
    (c : ChunkMeta) : Prop where
  entered : Entered .kline .month sd m (otherChunks m key) key (mergedName m key) f (storedKlines sd m key) c m'
  state : c.state = mergeOutputState (m.chunksForPartition key)
  here : SameContent sd sd' ∨ Laying { sd with manifest := .current (markMerging key m) } sd' [(mergedName m key, f)] ∨
    Committed sd sd' [(mergedName m key, f)] m'

/-- Before the rename a save has changed nothing. -/
theorem prefix_saveSteps {ks : List IoStep} (h : ks <+: saveSteps env d m) : (∀ k ∈ ks, k.calm = true) ∨
    ks = saveSteps env d m := by
  unfold saveSteps at h ⊢
  rcases List.prefix_cons_iff.1 h with rfl | ⟨l, rfl, hl⟩
  · exact .inl (by simp)
  · rcases List.prefix_cons_iff.1 hl with rfl | ⟨l, rfl, hnil⟩
    · exact .inl (by simp [IoStep.calm])
    · rw [List.prefix_nil.1 hnil]
      exact .inr rfl

/-- **A merge stopped anywhere**: the mark, then the one chunk. -/
theorem MergeWritten.stopped {r : List IoStep × Except FastKError SeriesMeta} (h : SeriesOk d (s.dirs d) m)
    (w : MergeWritten env d s m key r) {ks : List IoStep} (hk : ks <+: r.1) :
    ∃ m' f c, r.2 = .ok m' ∧ MergeStop (s.dirs d) ((exec ks s).dirs d) m key m' f c ∧ Committed (s.dirs d)
    ((exec r.1 s).dirs d) [(mergedName m key, f)] m' ∧
      ∀ k ∈ r.1, k.on d = true := by
  obtain ⟨m', w, hkept, hname, hstate, -, rfl⟩ := w
  have hmark := h.markedStore env key
  have hsd := markedStore_dir env d key m s
  have hfiles : (s.dirs d).files = ((markedStore env d key m s).dirs d).files := by rw [hsd]
  have hent := w.entered
  rw [hkept, hname] at hent
  have hon : ∀ k ∈ saveSteps env d (markMerging key m) ++ w.steps, k.on d = true := by
    intro k hk
    rcases List.mem_append.1 hk with hk | hk
    · exact saveSteps_on _ k hk
    · exact w.steps_on k hk
  have hfinal : Committed (s.dirs d) ((exec (saveSteps env d (markMerging key m) ++ w.steps) s).dirs d)
    [(mergedName m key, w.file)] m' := by
    have := (w.final hmark.toFits).of_files hfiles
    rw [hname] at this
    rw [exec_append]
    exact this
  refine ⟨m', w.file, w.entry, rfl, ⟨hent.unmark.of_files hfiles, hstate, ?_⟩, hfinal, hon⟩
  rcases prefix_append_cases hk with hp | ⟨ls, rfl, hls⟩
  · rcases prefix_saveSteps hp with hcalm | rfl
    · exact .inl (exec_calm hcalm s d)
    · rw [saveSteps_dir]
      exact .inr (.inl (.refl (hmark.filed.congr (by rw [hsd]) (fun hd => by rwa [hsd] at hd)) _))
  · right
    rw [exec_append]
    rcases w.stopped hmark.toFits hls with hl | hc
    · left
      rw [← hsd, ← hname]
      exact hl
    · right
      have := hc.of_files hfiles
      rw [hname] at this
      exact this

/-- The run of a merge of a series in order, from the run of its body. -/
theorem mergeKlineMonth_run (hg : GoodStore C s)
    (hm : (s.dirs (klineSeriesDir symbol timeframe)).manifest = .current m) (env : Env) (key : Text) :
    ∃ (tr : List IoStep) (u : Store), (∀ k ∈ tr, k.calm = true) ∧ u = exec tr s ∧ (∀ e, u.dirs e = s.dirs e) ∧
      GoodStore C u ∧
      ∀ lt m', mergeKlineMonthLocked env symbol timeframe key m u = (lt, .ok m') →
        mergeKlineMonth env symbol timeframe key s = (tr ++ lt ++ [.disarm], .ok ()) := by
  obtain ⟨tr, hbegin, hquiet⟩ := hg.begin env
  have hcalm : ∀ k ∈ tr ++ [IoStep.arm], k.calm = true := by
    intro k hk
    rcases List.mem_append.1 hk with hk | hk
    · rcases hquiet k hk with rfl | rfl <;> rfl
    · rw [List.mem_singleton.1 hk]
      rfl
  have hu : exec (tr ++ [IoStep.arm]) s = Journal.Store.apply IoStep.arm (exec tr s) := exec_append _ _ _
  have hdirs : ∀ e, (exec (tr ++ [IoStep.arm]) s).dirs e = s.dirs e := by
    intro e
    rw [hu, apply_dirs]
    exact exec_quiet hquiet s e
  refine ⟨tr ++ [.arm], exec (tr ++ [.arm]) s, hcalm, rfl, hdirs, hg.same hdirs, fun lt m' hlocked => ?_⟩
  have hload : loadMeta none (klineSeriesDir symbol timeframe) (exec (tr ++ [IoStep.arm]) s) = ([], .ok m) := by
    unfold loadMeta
    rw [Prog.look_bind, (hg.same hdirs).loads (by rw [hdirs]; exact hm)]
    rfl
  unfold mergeKlineMonth
  rw [Prog.bind_run hbegin, Prog.emit_bind, ← hu, Prog.bind_run hload]
  simp only [exec_nil, List.nil_append]
  rw [Prog.bind_run hlocked]
  simp only [List.append_assoc]
  rfl

end Stops

/-! ## What recovery makes of the mark -/

/-- The time ranges and states of the chunks of a month, and the active chunk. -/
def monthState (m : SeriesMeta) (key : Text) : List ((Int × Int) × ChunkState) × Option Nat :=
  ((m.chunksForPartition key).map (fun c => ((c.startTs, c.endTs), c.state)), m.activeChunkId)

/-- The active chunks of the month are the one that is named as active, and it is the last of the series. -/
def Namable (m : SeriesMeta) (key : Text) : Prop :=
  (∀ c ∈ m.chunksForPartition key, c.state = .active ↔ m.activeChunkId = some c.chunkId) ∧
    m.activeChunkId = lastActive m.chunks

instance (m : SeriesMeta) (key : Text) : Decidable (Namable m key) := inferInstanceAs (Decidable (_ ∧ _))

section Mark

variable {C : Nat} {d : Dir} {sd sd' : SeriesDir} {m m' m₁ : SeriesMeta} {key : Text} {f : ChunkFile} {c : ChunkMeta}

theorem mem_monthState {x : (Int × Int) × ChunkState} :
    x ∈ (monthState m key).1 ↔ ∃ c ∈ m.chunks, c.monthKey = key ∧ x = ((c.startTs, c.endTs), c.state) := by
  unfold monthState
  rw [List.mem_map]
  constructor
  · rintro ⟨c, hc, rfl⟩
    obtain ⟨hc, hk⟩ := mem_chunksForPartition.1 hc
    exact ⟨c, hc, hk, rfl⟩
  · rintro ⟨c, hc, hk, rfl⟩
    exact ⟨c, mem_chunksForPartition.2 ⟨hc, hk⟩, rfl⟩

/-- A month of several chunks has an active one after another. -/
theorem GoodSeries.delta (h : GoodSeries C d sd m) (hlen : 1 < (m.chunksForPartition key).length) :
    ∃ a ∈ m.chunksForPartition key, ∃ b ∈ m.chunksForPartition key, a.endTs < b.startTs ∧ b.state = .active := by
  have hchain : SpanChain (m.chunksForPartition key) := h.fits.chain.1.sublist List.filter_sublist
  generalize hmonth : m.chunksForPartition key = month at hlen hchain ⊢
  match month, hlen, hchain with
  | a :: b :: rest, _, hchain =>
    have hab : a.endTs < b.startTs := List.rel_of_pairwise_cons hchain (by simp)
    have ha : a ∈ m.chunksForPartition key := by rw [hmonth]; simp
    have hb : b ∈ m.chunksForPartition key := by rw [hmonth]; simp
    obtain ⟨ham, hak⟩ := mem_chunksForPartition.1 ha
    obtain ⟨hbm, hbk⟩ := mem_chunksForPartition.1 hb
    have hproper := h.fits.chain.2 a ham
    exact ⟨a, by simp, b, by simp, hab, h.tidy.deltas a ham b hbm (hak.trans hbk.symm) (by omega)⟩

/-- The states that settling gives a marked month. -/
theorem settle_marked_of_key {active : Option Nat} {e : ChunkMeta} (hk : e.monthKey = key) :
    settle active (marked key e) = { e with state := if active = some e.chunkId then .active else .sealed } := by
  unfold settle marked
  rw [if_pos hk]
  rfl

theorem settle_marked_of_other {active : Option Nat} {e : ChunkMeta} (hk : e.monthKey ≠ key) (hs : e.state ≠ .merging) :
    settle active (marked key e) = e := by
  rw [marked_of_other hk]
  exact settle_of_not_merging hs

/-- **Settling gives back the states of a month where its active chunks are the one that is named.** -/
theorem monthState_settled_iff (h : GoodSeries C d sd m)
    (hc : m₁.chunks = m.chunks.map (fun e => settle m.activeChunkId (marked key e)))
    (ha : m₁.activeChunkId = lastActive m₁.chunks) : monthState m₁ key = monthState m key ↔ Namable m key := by
  have hmonth : m₁.chunksForPartition key = (m.chunksForPartition key).map (fun e =>
    settle m.activeChunkId (marked key e)) := by
    unfold SeriesMeta.chunksForPartition
    rw [hc, List.filter_map]
    exact congrArg _ (List.filter_congr (fun e _ => by
      rw [Function.comp_apply, (sameChunk_settle _ _).monthKey, (sameChunk_marked key e).monthKey]))
  have hstates : (monthState m₁ key).1 = (monthState m key).1 ↔
      ∀ e ∈ m.chunksForPartition key, e.state = .active ↔ m.activeChunkId = some e.chunkId := by
    unfold monthState
    rw [hmonth, List.map_map]
    simp only [List.map_inj_left, Function.comp_apply]
    refine forall₂_congr (fun e he => ?_)
    obtain ⟨hem, hek⟩ := mem_chunksForPartition.1 he
    rw [settle_marked_of_key hek]
    simp only [Prod.mk.injEq, true_and]
    by_cases hid : m.activeChunkId = some e.chunkId
    · rw [if_pos hid]
      simp [hid, eq_comm]
    · rw [if_neg hid]
      rcases h.tidy.settled e hem with hs | hs <;> simp [hid, hs]
  -- where the states come back, so do the entries
  have hsame : (∀ e ∈ m.chunksForPartition key, e.state = .active ↔ m.activeChunkId = some e.chunkId) →
    m₁.chunks = m.chunks := by
    intro hnamed
    rw [hc]
    refine (List.map_congr_left (fun e he => ?_)).trans (List.map_id _)
    by_cases hk : e.monthKey = key
    · rw [settle_marked_of_key hk]
      have hst := hnamed e (mem_chunksForPartition.2 ⟨he, hk⟩)
      rcases h.tidy.settled e he with hs | hs
      · rw [if_pos (hst.1 hs), ← hs]
        rfl
      · rw [if_neg (fun hid => by rw [hst.2 hid] at hs; cases hs), ← hs]
        rfl
    · exact settle_marked_of_other hk (h.settled e he)
  constructor
  · intro heq
    have hnamed := hstates.1 (congrArg Prod.fst heq)
    refine ⟨hnamed, ?_⟩
    rw [← hsame hnamed, ← ha]
    exact (congrArg Prod.snd heq).symm
  · rintro ⟨hnamed, hlast⟩
    refine Prod.ext (hstates.2 hnamed) ?_
    show m₁.activeChunkId = m.activeChunkId
    rw [ha, hsame hnamed, hlast]

/-- A merged chunk spans the chunks of its month, and is newer. -/
theorem Entered.supersedes (w : Entered .kline .month sd m (otherChunks m key) key (mergedName m key) f
      (storedKlines sd m key) c m')
    (h : SeriesOk d sd m) (ht : m.recordType = .kline) (hsat : Unsaturated m key) {e : ChunkMeta} (he : e ∈ m.chunks)
    (hk : e.monthKey = key) :
    ChunkSupersedes c e := by
  have htr := h.tracked e he
  rw [ht, h.head.unit_month (.inl ht)] at htr
  obtain ⟨n, g, hg, ho, hent⟩ := htr.rowsIn h.filed
  have hord := storedKlines_ordered key h ht
  have hin : ∀ r : KlineRecord, r ∈ rowsIn .kline sd e → r ∈ storedKlines sd m key :=
    fun r hr => List.mem_flatMap.2 ⟨e, mem_chunksForPartition.2 ⟨he, hk⟩, hr⟩
  obtain ⟨a, ha, hfirst⟩ := exists_firstTs ho.holds.ne_nil
  obtain ⟨b, hb, hlast⟩ := exists_lastTs ho.holds.ne_nil
  refine ⟨?_, ?_, ?_⟩
  · rw [w.laid.generation]
    exact hsat.lt_next he hk
  · rw [w.laid.entry.startTs, w.laid.file.holds.startTs_eq, hent.startTs, ho.holds.startTs_eq, ← hfirst]
    exact firstTs_le hord (hin a ha)
  · rw [w.laid.entry.endTs, w.laid.file.holds.endTs_eq, hent.endTs, ho.holds.endTs_eq, ← hlast]
    exact le_lastTs hord (hin b hb)

/-- The mark with some of the new files fits. -/
theorem MergeStop.seriesOk (w : MergeStop sd sd' m key m' f c) (h : SeriesOk d sd m) (ht : m.recordType = .kline)
    (hl : Laying { sd with manifest := .current (markMerging key m) } sd' [(mergedName m key, f)]) :
    SeriesOk d sd' (markMerging key m) := by
  refine ⟨Fits.laying ((h.toFits.marked key).under _) hl (fun p hp => ?_), hl.manifest⟩
  rw [List.mem_singleton.1 hp, (markMerging_sameHead key m).recordType, (markMerging_sameHead key m).unit, ht,
    h.head.unit_month (.inl ht)]
  exact ⟨key, _, w.entered.laid.file⟩

/-- A recovered manifest whose entries have changed is the one that was saved. -/
theorem lastSaved_of_changed {now : Int} {cs : List ChunkMeta} {saves : List SeriesMeta}
    (hs : saves = [] ∧ recoveredChunks m cs = m.chunks ∨ saves = [recoveredMeta now m (recoveredChunks m cs)])
    (hne : recoveredChunks m cs ≠ m.chunks) :
    lastSaved m saves = recoveredMeta now m (recoveredChunks m cs) := by
  rcases hs with ⟨-, heq⟩ | rfl
  · exact absurd heq hne
  · rfl

/-- **Without the merged file recovery settles the mark.** -/
theorem MergeStop.settled (w : MergeStop sd sd' m key m' f c) (h : GoodSeries C d sd m)
    (hm : sd.manifest = .current m) (ht : m.recordType = .kline) (hne : m.chunksForPartition key ≠ [])
    (hl : Laying { sd with manifest := .current (markMerging key m) } sd' [(mergedName m key, f)])
    (hfile : sd'.hasFile (mergedName m key) = false)
    {now : Int} {cs : List ChunkMeta} (hscan : Scans sd' cs) {saves : List SeriesMeta}
    (hs : saves = [] ∧ recoveredChunks (markMerging key m) cs = (markMerging key m).chunks ∨
      saves = [recoveredMeta now (markMerging key m) (recoveredChunks (markMerging key m) cs)]) :
    (lastSaved (markMerging key m) saves).chunks = m.chunks.map (fun e => settle m.activeChunkId (marked key e)) ∧
      (lastSaved (markMerging key m) saves).activeChunkId = lastActive (lastSaved (markMerging key m) saves).chunks :=
        by
  have hok := w.seriesOk (h.seriesOk hm) ht hl
  have hexact : Exact sd' (markMerging key m) := by
    intro n g hg
    rcases hl.only n g hg with hnew | hold
    · obtain ⟨rfl, -⟩ := Prod.mk.inj (List.mem_singleton.1 hnew)
      rw [hasFile_iff.2 ⟨_, hg.1⟩] at hfile
      cases hfile
    · exact exact_marked h.exact key n g ((hasChunk_congr rfl).1 hold)
  have hrec : recoveredChunks (markMerging key m) cs = m.chunks.map (fun e =>
    settle m.activeChunkId (marked key e)) := by
    rw [recoveredChunks_quiet hexact.nothingToAdopt hscan, markMerging_chunks, List.map_map]
    rfl
  have hchanged : recoveredChunks (markMerging key m) cs ≠ (markMerging key m).chunks := by
    intro heq
    obtain ⟨e, he⟩ := List.exists_mem_of_ne_nil _ hne
    obtain ⟨hem, hek⟩ := mem_chunksForPartition.1 he
    have hmem : marked key e ∈ recoveredChunks (markMerging key m) cs := by
      rw [heq, markMerging_chunks]
      exact List.mem_map_of_mem hem
    rw [hrec] at hmem
    obtain ⟨e', -, heq'⟩ := List.mem_map.1 hmem
    refine settle_state m.activeChunkId (marked key e') ?_
    rw [heq', marked, if_pos hek]
  rw [lastSaved_of_changed hs hchanged, hrec]
  refine ⟨?_, rfl⟩
  have hmap : ∀ e : ChunkMeta, SameChunk e (settle m.activeChunkId (marked key e)) := by
    intro e
    have h1 := sameChunk_marked key e
    have h2 := sameChunk_settle m.activeChunkId (marked key e)
    unfold SameChunk at h1 h2 ⊢
    rw [h2, h1]
  obtain ⟨hchain, hproper⟩ := h.fits.chain
  refine sortByKey_chain (hchain.map_same hmap) (fun x hx => ?_)
  obtain ⟨e, he, rfl⟩ := List.mem_map.1 hx
  rw [(hmap e).startTs, (hmap e).endTs]
  exact hproper e he

/-- **With the merged file recovery adopts it, as sealed.** -/
theorem MergeStop.adopted (w : MergeStop sd sd' m key m' f c) (h : GoodSeries C d sd m)
    (hm : sd.manifest = .current m) (ht : m.recordType = .kline) (hsat : Unsaturated m key)
    (hl : Laying { sd with manifest := .current (markMerging key m) } sd' [(mergedName m key, f)])
    (hfile : sd'.hasFile (mergedName m key) = true)
    {now : Int} {cs : List ChunkMeta} (hscan : Scans sd' cs) {saves : List SeriesMeta}
    (hs : saves = [] ∧ recoveredChunks (markMerging key m) cs = (markMerging key m).chunks ∨
      saves = [recoveredMeta now (markMerging key m) (recoveredChunks (markMerging key m) cs)]) :
    ∀ e ∈ (lastSaved (markMerging key m) saves).chunks, e.monthKey = key → e.state = .sealed := by
  have hok := w.seriesOk (h.seriesOk hm) ht hl
  have hchunk : HasChunk sd' (mergedName m key) f := by
    obtain ⟨b, hb⟩ := hasFile_iff.1 hfile
    obtain ⟨g, hg⟩ := hl.filed.chunk _ hb w.entered.laid.file.named.isChunkName
    have hg' : HasChunk sd' (mergedName m key) g := ⟨by rw [← hg]; exact hb, w.entered.laid.file.named.isChunkName⟩
    rcases hl.only _ g hg' with hnew | hold
    · obtain ⟨-, rfl⟩ := Prod.mk.inj (List.mem_singleton.1 hnew)
      exact hg'
    · have hfresh := w.entered.laid.fresh
      rw [hasFile_iff.2 ⟨_, ((hasChunk_congr rfl).1 hold : HasChunk sd _ g).1⟩] at hfresh
      cases hfresh
  have hex : ∀ n g, HasChunk sd' n g → n ≠ mergedName m key → ∃ e ∈ (markMerging key m).chunks,
    e.relativePath = chunkRelativePath n := by
    intro n g hg hn
    rcases hl.only n g hg with hnew | hold
    · exact absurd (Prod.mk.inj (List.mem_singleton.1 hnew)).1 hn
    · exact exact_marked h.exact key n g ((hasChunk_congr rfl).1 hold)
  obtain ⟨y, hy, hyc, hrec⟩ := recoveredChunks_orphan hok hchunk w.entered.laid.entry hex hscan
  have hfits := h.fits
  have hu := hfits.head.unit_month (.inl ht)
  have hadopts : ChunkAdopts (markMerging key m).chunks c := by
    intro a ha
    rw [markMerging_chunks] at ha
    obtain ⟨e, he, rfl⟩ := List.mem_map.1 ha
    have hsame := sameChunk_marked key e
    refine ⟨?_, fun hmeet => ?_⟩
    · rw [hsame.relativePath, w.entered.laid.entry.path]
      intro hp
      obtain ⟨n, g, rows, hg, -, hent⟩ := hfits.tracked e he
      obtain rfl : n = mergedName m key := chunkRelativePath_inj (hent.path.symm.trans hp)
      have hfresh := w.entered.laid.fresh
      rw [hasFile_iff.2 ⟨_, hg.1⟩] at hfresh
      cases hfresh
    · unfold SpansMeet Meets at hmeet
      rw [hsame.startTs, hsame.endTs] at hmeet
      by_cases hk : e.monthKey = key
      · obtain ⟨hgen, hlo, hhi⟩ := w.entered.supersedes (h.seriesOk hm) ht hsat he hk
        refine ⟨?_, ?_, ?_⟩
        · rw [hsame.generation]
          exact hgen
        · rw [hsame.startTs]
          exact hlo
        · rw [hsame.endTs]
          exact hhi
      · exact absurd hmeet (w.entered.not_meets hfits hu (mem_otherChunks.2 ⟨he, hk⟩))
  have hadopts' : ChunkAdopts ((markMerging key m).chunks.map (settle (markMerging key m).activeChunkId)) y :=
    adopts_settled.2 (hadopts.of_describes ⟨hyc.1.symm, hyc.2.1.symm, hyc.2.2.1.symm, hyc.2.2.2.symm⟩)
  intro e he hek
  rw [(lastSaved_spec hok.valid hok.count_pos hscan.readable hs).2.2, mem_sortByKey, hrec, adoptChunk,
    adopt_of_adopts hadopts'] at he
  rcases List.mem_append.1 he with he | he
  · -- every old chunk of the month lies inside the merged one
    exfalso
    obtain ⟨he, hno⟩ := List.mem_filter.1 he
    obtain ⟨a, ha, rfl⟩ := List.mem_map.1 he
    rw [markMerging_chunks] at ha
    obtain ⟨e, hem, rfl⟩ := List.mem_map.1 ha
    have hs1 := sameChunk_marked key e
    have hs2 := sameChunk_settle (markMerging key m).activeChunkId (marked key e)
    rw [hs2.monthKey, hs1.monthKey] at hek
    have hmeet := (w.entered.supersedes (h.seriesOk hm) ht hsat hem hek).meets (hfits.chain.2 e hem)
    simp only [Bool.not_eq_true', decide_eq_false_iff_not] at hno
    refine hno ?_
    unfold Meets at hmeet ⊢
    rw [hs2.startTs, hs2.endTs, hs1.startTs, hs1.endTs, hyc.2.2.1, hyc.2.2.2]
    exact hmeet
  · rw [List.mem_singleton.1 he, hy.state]
    unfold decodeChunkState
    rw [mergedName, mergedFileName_contains w.entered.laid.file.isKey]
    rfl

/-- **Once the new manifest is there, recovery has nothing to do.** -/
theorem MergeStop.committed_quiet (w : MergeStop sd sd' m key m' f c) (h : GoodSeries C d sd m)
    (hm : sd.manifest = .current m) (ht : m.recordType = .kline) (hsat : Unsaturated m key)
    (hcom : Committed sd sd' [(mergedName m key, f)] m') (env : Env) (root : Dir) :
    Recovers env root d sd' (fun saves => saves = []) := by
  have hfits := h.fits
  have hu := hfits.head.unit_month (.inl ht)
  have hok : SeriesOk d sd' m' := ⟨w.entered.fits hfits ht hu hcom.toSupplied, hcom.manifest⟩
  have hno : NothingToAdopt sd' m' := by
    intro y n g hg hy hadopts
    rcases hcom.only n g hg with hnew | hold
    · obtain ⟨rfl, rfl⟩ := Prod.mk.inj (List.mem_singleton.1 hnew)
      exact (hadopts c (w.entered.mem.2 (.inr rfl))).1 (w.entered.laid.entry.path.trans hy.entry.path.symm)
    · obtain ⟨e, he, hp⟩ := h.exact n g hold
      by_cases hk : e.monthKey = key
      · -- the file of an old chunk is older than the merged chunk around it
        obtain ⟨n', g', rows, hg', -, hent⟩ := hfits.tracked e he
        obtain rfl : n = n' := chunkRelativePath_inj (hp.symm.trans hent.path)
        obtain rfl := hfits.filed.hasChunk_inj hold hg'
        have hsup := w.entered.supersedes (h.seriesOk hm) ht hsat he hk
        have hmeet : SpansMeet c y := by
          have := hsup.meets (hfits.chain.2 e he)
          unfold SpansMeet Meets at this ⊢
          rw [hy.entry.startTs, hy.entry.endTs, ← hent.startTs, ← hent.endTs]
          exact ⟨this.2, this.1⟩
        have hlt := ((hadopts c (w.entered.mem.2 (.inr rfl))).2 hmeet).1
        rw [hy.entry.generation, ← hent.generation] at hlt
        exact absurd hsup.1 (not_lt.2 hlt.le)
      · exact (hadopts e (w.entered.mem.2 (.inl (mem_otherChunks.2 ⟨he, hk⟩)))).1 (hp.trans hy.entry.path.symm)
  intro report
  obtain ⟨report', hrec⟩ := recover_quiet hok hno (w.entered.tidy hfits h.tidy hsat).unmerging env.now
    (root ++ "series".toList :: d) env.order report
  exact ⟨[], report', hrec, rfl⟩

/-- A marked month is neither what it was nor what the merge would make of it. -/
theorem monthState_ne_of_state {m₂ : SeriesMeta} {e : ChunkMeta} (he : e ∈ m₁.chunks) (hk : e.monthKey = key)
    (hno : ∀ x ∈ m₂.chunks, x.monthKey = key → x.state ≠ e.state) : monthState m₁ key ≠ monthState m₂ key := by
  intro heq
  have hmem : ((e.startTs, e.endTs), e.state) ∈ (monthState m₁ key).1 := mem_monthState.2 ⟨e, he, hk, rfl⟩
  rw [heq] at hmem
  obtain ⟨x, hx, hxk, hxe⟩ := mem_monthState.1 hmem
  exact hno x hx hxk (Prod.mk.inj hxe).2.symm

/-- Without the merged file the month is not as the finished merge leaves it: it has two time ranges. -/
theorem MergeStop.settled_ne (w : MergeStop sd sd' m key m' f c) (h : GoodSeries C d sd m)
    (hlen : 1 < (m.chunksForPartition key).length)
    (hc : m₁.chunks = m.chunks.map (fun e => settle m.activeChunkId (marked key e))) :
    monthState m₁ key ≠ monthState m' key := by
  intro heq
  have hrange : ∀ e ∈ m.chunksForPartition key, e.startTs = c.startTs := by
    intro e he
    obtain ⟨hem, hek⟩ := mem_chunksForPartition.1 he
    have hmem : ((e.startTs, e.endTs), (settle m.activeChunkId (marked key e)).state) ∈ (monthState m₁ key).1 := by
      refine mem_monthState.2 ⟨settle m.activeChunkId (marked key e), ?_, ?_, ?_⟩
      · rw [hc]
        exact List.mem_map_of_mem hem
      · rw [(sameChunk_settle _ _).monthKey, (sameChunk_marked key e).monthKey]
        exact hek
      · rw [(sameChunk_settle _ _).startTs, (sameChunk_marked key e).startTs, (sameChunk_settle _ _).endTs,
          (sameChunk_marked key e).endTs]
    rw [heq] at hmem
    obtain ⟨x, hx, hxk, hxe⟩ := mem_monthState.1 hmem
    rcases w.entered.mem.1 hx with hother | rfl
    · exact absurd hxk (mem_otherChunks.1 hother).2
    · exact (Prod.mk.inj (Prod.mk.inj hxe).1).1
  obtain ⟨a, ha, b, hb, hab, -⟩ := h.delta hlen
  have h1 := hrange a ha
  have h2 := hrange b hb
  have h3 := h.fits.chain.2 a (mem_chunksForPartition.1 ha).1
  omega

/-- The merge of a month with an active chunk is active. -/
theorem MergeStop.active (w : MergeStop sd sd' m key m' f c) {b : ChunkMeta} (hb : b ∈ m.chunksForPartition key)
    (hs : b.state = .active) :
    c.state = .active := by
  refine w.entered.laid.settled.resolve_right (fun hsealed => ?_)
  exact mergeOutputState_eq_sealed.1 (w.state.symm.trans hsealed) b hb hs

theorem markMerging_ne (hne : m.chunksForPartition key ≠ []) {m₂ : SeriesMeta}
    (hs : ∀ e ∈ m₂.chunks, e.state ≠ .merging) : m₂ ≠ markMerging key m := by
  rintro rfl
  obtain ⟨e, he⟩ := List.exists_mem_of_ne_nil _ hne
  obtain ⟨hem, hek⟩ := mem_chunksForPartition.1 he
  refine hs (marked key e) ?_ (by rw [marked, if_pos hek])
  rw [markMerging_chunks]
  exact List.mem_map_of_mem hem

end Mark

/-! ## Interrupted merges -/

section Interrupted

variable {env : Env} {root : Dir} {symbol timeframe key : Text} {m : SeriesMeta} {s t : Store} {n : Nat}

/-- **What a stopped merge leaves of a store in order.** -/
theorem mergeKlineMonth_stopped {C : Nat} (hg : GoodStore C s) (hC : C < u32Max)
    (hm : (s.dirs (klineSeriesDir symbol timeframe)).manifest = .current m) (ht : m.recordType = .kline)
    (hstop : Stopped (mergeKlineMonth env symbol timeframe key) s t) :
    ∃ m', (((mergeKlineMonth env symbol timeframe key).final s).dirs (klineSeriesDir symbol timeframe)).manifest =
      .current m' ∧
      (∀ e, e ≠ klineSeriesDir symbol timeframe → SameContent (s.dirs e) (t.dirs e)) ∧
      ((m.chunksForPartition key).length ≤ 1 ∧
        SameContent (s.dirs (klineSeriesDir symbol timeframe)) (t.dirs (klineSeriesDir symbol timeframe)) ∨
        1 < (m.chunksForPartition key).length ∧
          ∃ f c, MergeStop (s.dirs (klineSeriesDir symbol timeframe))
            (t.dirs (klineSeriesDir symbol timeframe)) m key m' f c) := by
  set d := klineSeriesDir symbol timeframe with hd
  obtain ⟨tr, u, htr, hu, hdirs, hgu, hrun⟩ := mergeKlineMonth_run hg hm env key
  have hmu : (u.dirs d).manifest = .current m := by rw [hdirs]; exact hm
  have hsu := (hgu.dir d).of_current hmu
  have hbound : KeyBound m key C := fun c hc _ => hsu.bound c hc
  obtain ⟨ks, hks, rfl⟩ := hstop
  unfold Prog.final
  unfold Prog.trace at hks ⊢
  rcases mergeKlineMonthLocked_run env key (hsu.seriesOk hmu) ht hd.symm with ⟨hlen, hlocked⟩ |
    ⟨⟨e, he⟩, -⟩ | hblock | ⟨hlen, hw⟩
  · rw [hrun _ _ hlocked] at hks ⊢
    have hcalm : ∀ k ∈ tr ++ [] ++ [IoStep.disarm], k.calm = true := by
      intro k hk
      rw [List.append_nil] at hk
      rcases List.mem_append.1 hk with hk | hk
      · exact htr k hk
      · rw [List.mem_singleton.1 hk]
        rfl
    have hsame : ∀ e, SameContent (s.dirs e) ((exec ks s).dirs e) :=
      fun e => exec_calm (fun k hk => hcalm k (hks.subset hk)) s e
    exact ⟨m, (exec_calm hcalm s d).manifest.trans hm, fun e _ => hsame e, .inl ⟨hlen, hsame d⟩⟩
  · rw [checkTransitions_ok (fun c hc => hsu.tidy.settled c (mem_chunksForPartition.1 hc).1)] at he
    cases he
  · exact absurd hblock (hsu.not_blocked hbound hC)
  · have hok := hsu.seriesOk hmu
    generalize hlt : mergeKlineMonthLocked env symbol timeframe key m u = r at hw
    obtain ⟨m', f, c, hres, hstart, hfinal, hon⟩ := hw.stopped hok (List.nil_prefix : [] <+: _)
    obtain ⟨lt, res⟩ := r
    obtain rfl : res = .ok m' := hres
    rw [hrun _ _ hlt] at hks ⊢
    have hsd := hdirs d
    rw [hsd] at hstart hfinal
    refine ⟨m', ?_, ?_, .inr ⟨hlen, ?_⟩⟩
    · rw [List.append_assoc, exec_append, ← hu, exec_disarm_dirs]
      exact hfinal.manifest
    · intro e he
      refine exec_other (d := d) (fun k hk => ?_) he s
      have hmem := hks.subset hk
      rw [List.append_assoc] at hmem
      rcases List.mem_append.1 hmem with hk | hk
      · have := htr k hk
        cases k <;> first | rfl | cases this
      · exact on_append_disarm hon k hk
    · rw [List.append_assoc] at hks
      rcases prefix_append_cases hks with hp | ⟨ls, rfl, hls⟩
      · exact ⟨f, c, hstart.entered, hstart.state, .inl (exec_calm (fun k hk => htr k (hp.subset hk)) s d)⟩
      · rw [exec_append, ← hu]
        rcases prefix_append_cases hls with hp | ⟨rest, rfl, hrest⟩
        · obtain ⟨m₂, f₂, c₂, hres₂, hst, -, -⟩ := hw.stopped hok hp
          obtain rfl := Except.ok.inj hres₂
          rw [hsd] at hst
          exact ⟨f₂, c₂, hst⟩
        · refine ⟨f, c, hstart.entered, hstart.state, .inr (.inr ?_)⟩
          rcases List.prefix_cons_iff.1 hrest with rfl | ⟨l, rfl, hl⟩
          · rw [List.append_nil]
            exact hfinal
          · rw [List.prefix_nil.1 hl, exec_disarm_dirs]
            exact hfinal

/-- The stop leaves a month that recovery gives back or finds finished: there was one chunk at most, the mark is not
there yet or no more, or the merged file is not there, the walk finds the series and the mark can be settled. -/
def MergeSettles (t : Store) (d : Dir) (m : SeriesMeta) (key : Text) : Prop :=
  (m.chunksForPartition key).length ≤ 1 ∨ (t.dirs d).manifest ≠ .current (markMerging key m) ∨
    (t.hidden d = false ∧ (t.dirs d).hasFile (mergedName m key) = false ∧ Namable m key)

/-- **What recovery makes of a marked month**: it gives back the states, or nothing that a merge knows. -/
theorem MergeStop.marked_iff {C : Nat} {d : Dir} {m' : SeriesMeta} {f : ChunkFile} {c : ChunkMeta}
    (w : MergeStop (s.dirs d) (t.dirs d) m key m' f c) (h : GoodSeries C d (s.dirs d) m)
    (hm : (s.dirs d).manifest = .current m) (ht : m.recordType = .kline)
    (hlen : 1 < (m.chunksForPartition key).length) (hsat : Unsaturated m key)
    (hlay : Laying { s.dirs d with manifest := .current (markMerging key m) } (t.dirs d) [(mergedName m key, f)])
    (hr : t.Rooted)
    (hrest : ∀ e, e ≠ d → GoodDir C e (t.dirs e)) (env : Env) :
    ∃ m₁, (∃ report, (startupRecoverLocked env).result t = .ok report) ∧
      (((startupRecoverLocked env).final t).dirs d).manifest = .current m₁ ∧
      ((monthState m₁ key = monthState m key ∨ monthState m₁ key = monthState m' key) ↔
        t.hidden d = false ∧ (t.dirs d).hasFile (mergedName m key) = false ∧ Namable m key) := by
  have hok := w.seriesOk (h.seriesOk hm) ht hlay
  obtain ⟨a, -, b, hb, -, hact⟩ := h.delta hlen
  obtain ⟨hbm, hbk⟩ := mem_chunksForPartition.1 hb
  have hcm : c ∈ m'.chunks := w.entered.mem.2 (.inr rfl)
  obtain ⟨hres, -, m₁, hdir, hm₁⟩ := recover_unfinished env hr hok.manifest_eq
    (Q := fun saves => ∃ cs, Scans (t.dirs d) cs ∧
      (saves = [] ∧ recoveredChunks (markMerging key m) cs = (markMerging key m).chunks ∨
        saves = [recoveredMeta env.now (markMerging key m) (recoveredChunks (markMerging key m) cs)]))
    (fun report => by
      obtain ⟨cs, saves, report', hscan, hrec, hs⟩ :=
        hok.recover env.now (t.root ++ "series".toList :: d) env.order report
      exact ⟨saves, report', hrec, cs, hscan, hs⟩) hrest
  refine ⟨m₁, hres, by rw [hdir], ?_⟩
  rcases hm₁ with ⟨hhid, rfl⟩ | ⟨hseen, saves, ⟨cs, hscan, hs⟩, rfl⟩
  · -- the walk does not find the series: the mark stays
    have hmem : marked key b ∈ (markMerging key m).chunks := by
      rw [markMerging_chunks]
      exact List.mem_map_of_mem hbm
    have hstate : (marked key b).state = .merging := by rw [marked, if_pos hbk]
    have hkey : (marked key b).monthKey = key := (sameChunk_marked key b).monthKey.trans hbk
    have hsettled := (w.entered.tidy h.fits h.tidy hsat).unmerging
    simp only [hhid, Bool.true_eq_false, false_and, iff_false, not_or]
    exact ⟨monthState_ne_of_state hmem hkey (fun x hx _ => by rw [hstate]; exact h.settled x hx),
      monthState_ne_of_state hmem hkey (fun x hx _ => by rw [hstate]; exact hsettled x hx)⟩
  · cases hfile : (t.dirs d).hasFile (mergedName m key) with
    | true =>
      have hsealed := w.adopted h hm ht hsat hlay hfile hscan hs
      have hcact := w.active hb hact
      simp only [hseen, Bool.true_eq_false, false_and, and_false, iff_false, not_or]
      refine ⟨fun heq => ?_, fun heq => ?_⟩
      · exact monthState_ne_of_state hbm hbk (fun x hx hxk => by rw [hsealed x hx hxk, hact]; decide) heq.symm
      · exact monthState_ne_of_state hcm w.entered.laid.monthKey
          (fun x hx hxk => by rw [hsealed x hx hxk, hcact]; decide) heq.symm
    | false =>
      obtain ⟨hchunks, hlast⟩ := w.settled h hm ht (List.ne_nil_of_mem hb) hlay hfile hscan hs
      simp only [hseen, true_and]
      rw [monthState_settled_iff h hchunks hlast, or_iff_left (w.settled_ne h hlen hchunks)]

/-- **Which stops of a merge recovery rolls back or finds finished.** -/
theorem interrupted_merge_iff (h : Run root HealthyPlain n s) (_ : (Call.mergeKline symbol timeframe key).Plain)
    (hroom : s.HasRoom) (hm : (s.dirs (klineSeriesDir symbol timeframe)).manifest = .current m)
    (ht : m.recordType = .kline) (hstop : Stopped (mergeKlineMonth env symbol timeframe key) s t) (env' : Env) :
    ∃ m' m₁, (((mergeKlineMonth env symbol timeframe key).final s).dirs (klineSeriesDir symbol timeframe)).manifest =
      .current m' ∧
      (∃ report, (startupRecoverLocked env').result t = .ok report) ∧
      (((startupRecoverLocked env').final t).dirs (klineSeriesDir symbol timeframe)).manifest = .current m₁ ∧
      ((monthState m₁ key = monthState m key ∨ monthState m₁ key = monthState m' key) ↔
        MergeSettles t (klineSeriesDir symbol timeframe) m key) := by
  obtain ⟨B, hg⟩ := h.unplain.healthy
  have hgood := hg.of_room hroom
  have hsat : Unsaturated m key := by
    intro c hc _
    have := hroom _ m hm c hc
    omega
  have hseries := (hgood.dir _).of_current hm
  obtain ⟨ks, -, hks⟩ := id hstop
  have hrooted : t.Rooted := by
    rw [hks]
    exact exec_rooted ks h.rooted
  obtain ⟨m', hfinal, hothers, hcase⟩ := mergeKlineMonth_stopped hgood (by decide) hm ht hstop
  have hrest : ∀ e, e ≠ klineSeriesDir symbol timeframe → GoodDir (u32Max - 3) e (t.dirs e) :=
    fun e he => (hgood.dir e).congr (hothers e he)
  -- as long as nothing has changed, recovery finds the series as it was
  have hsame : SameContent (s.dirs (klineSeriesDir symbol timeframe)) (t.dirs (klineSeriesDir symbol timeframe)) →
      ((m.chunksForPartition key).length ≤ 1 ∨
        (t.dirs (klineSeriesDir symbol timeframe)).manifest ≠ .current (markMerging key m)) →
      ∃ m₁, (∃ report, (startupRecoverLocked env').result t = .ok report) ∧
        (((startupRecoverLocked env').final t).dirs (klineSeriesDir symbol timeframe)).manifest = .current m₁ ∧
        ((monthState m₁ key = monthState m key ∨ monthState m₁ key = monthState m' key) ↔
          MergeSettles t (klineSeriesDir symbol timeframe) m key) := by
    intro hsame hset
    obtain ⟨hres, hman⟩ :=
      recover_idle hrooted (hsame.manifest.trans hm) (((hgood.dir _).congr hsame).recovers env' t.root) hrest
    exact ⟨m, hres, hman, fun _ => hset.imp_right .inl, fun _ => .inl rfl⟩
  rcases hcase with ⟨hlen, hcontent⟩ | ⟨hlen, f, c, w⟩
  · obtain ⟨m₁, hm₁⟩ := hsame hcontent (.inl hlen)
    exact ⟨m', m₁, hfinal, hm₁⟩
  · have hne : m.chunksForPartition key ≠ [] := List.ne_nil_of_length_pos (by omega)
    have hsettled := (w.entered.tidy hseries.fits hseries.tidy hsat).unmerging
    rcases w.here with hcontent | hlay | hcom
    · obtain ⟨m₁, hm₁⟩ := hsame hcontent (.inr (by
        rw [hcontent.manifest, hm]
        exact fun heq => markMerging_ne hne hseries.settled (ManifestFile.current.inj heq)))
      exact ⟨m', m₁, hfinal, hm₁⟩
    · obtain ⟨m₁, hres, hman, hiff⟩ := w.marked_iff hseries hm ht hlen hsat hlay hrooted hrest env'
      refine ⟨m', m₁, hfinal, hres, hman, hiff.trans ?_⟩
      have hmarked : (t.dirs (klineSeriesDir symbol timeframe)).manifest = .current (markMerging key m) := hlay.manifest
      unfold MergeSettles
      rw [hmarked]
      simp only [not_le.2 hlen, ne_eq, not_true_eq_false, false_or]
    · obtain ⟨hres, hman⟩ :=
        recover_idle hrooted hcom.manifest (w.committed_quiet hseries hm ht hsat hcom env' t.root) hrest
      refine ⟨m', m', hfinal, hres, hman, fun _ => .inr (.inl ?_), fun _ => .inr rfl⟩
      rw [hcom.manifest]
      exact fun heq => markMerging_ne hne hsettled (ManifestFile.current.inj heq)

/-- A kline series with a base and a delta in January. -/
def sampleJanuary : Store := runCalls (Env.plain 5) sampleKlineCalls (Store.empty [])

theorem sampleJanuary_run : Run [] HealthyPlain 3 sampleJanuary :=
  runCalls_plain sampleKlineCalls_plain (by decide) sampleKlineCalls_ok

theorem sampleJanuary_room : sampleJanuary.HasRoom :=
  ((Run.start.calls sampleKlineCalls_ok).good (by decide)).hasRoom (by decide)

/-- January after the first steps of its merge. -/
def stoppedJanuary (steps : Nat) : Store :=
  exec (((mergeKlineMonth (Env.plain 6) "X" "1m" "1970-01").trace sampleJanuary).take steps) sampleJanuary

theorem stoppedJanuary_stopped (steps : Nat) :
    Stopped (mergeKlineMonth (Env.plain 6) "X" "1m" "1970-01") sampleJanuary (stoppedJanuary steps) :=
  ⟨_, List.take_prefix _ _, rfl⟩

/-- Stopped once the mark is there, the merge of January is rolled back. -/
theorem interrupted_merge_iff_sample : ∃ m m' m₁, (sampleJanuary.dirs (klineSeriesDir "X" "1m")).manifest = .current m ∧
    (((mergeKlineMonth (Env.plain 6) "X" "1m" "1970-01").final sampleJanuary).dirs (klineSeriesDir "X" "1m")).manifest
      = .current m' ∧
    (∃ report, (startupRecoverLocked (Env.plain 7)).result (stoppedJanuary 3) = .ok report) ∧
    (((startupRecoverLocked (Env.plain 7)).final (stoppedJanuary 3)).dirs (klineSeriesDir "X" "1m")).manifest =
      .current m₁ ∧
    (monthState m₁ "1970-01" = monthState m "1970-01" ∨ monthState m₁ "1970-01" = monthState m' "1970-01") := by
  have htest : (sampleJanuary.dirs (klineSeriesDir "X" "1m")).tests (fun m => decide (m.recordType = .kline) &&
      decide ((stoppedJanuary 3).hidden (klineSeriesDir "X" "1m") = false ∧
        ((stoppedJanuary 3).dirs (klineSeriesDir "X" "1m")).hasFile (mergedName m "1970-01") = false ∧
          Namable m "1970-01")) = true := by decide +kernel
  obtain ⟨m, hm, htest⟩ := SeriesDir.of_tests htest
  rw [Bool.and_eq_true, decide_eq_true_iff, decide_eq_true_iff] at htest
  obtain ⟨m', m₁, hfinal, hres, hman, hiff⟩ :=
    interrupted_merge_iff sampleJanuary_run (by decide +kernel) sampleJanuary_room hm htest.1
    (stoppedJanuary_stopped 3) (Env.plain 7)
  exact ⟨m, m', m₁, hm, hfinal, hres, hman, hiff.2 (.inr (.inr htest.2))⟩

/-- Stopped once the merged file is there, the merge of January comes back as one sealed chunk: the delta was active,
and so would be the chunk of the finished merge. -/
theorem interrupted_merge_mixed : ¬ ∀ (env env' : Env) (root : Dir) (n : Nat) (s t : Store)
    (symbol timeframe key : Text) (m m' m₁ : SeriesMeta),
    Run root Healthy n s → s.HasRoom → (s.dirs (klineSeriesDir symbol timeframe)).manifest = .current m →
      m.recordType = .kline →
    Stopped (mergeKlineMonth env symbol timeframe key) s t →
    (((mergeKlineMonth env symbol timeframe key).final s).dirs (klineSeriesDir symbol timeframe)).manifest =
      .current m' →
    (((startupRecoverLocked env').final t).dirs (klineSeriesDir symbol timeframe)).manifest = .current m₁ →
    monthState m₁ key = monthState m key ∨ monthState m₁ key = monthState m' key := by
  intro hall
  have hstates (sd : SeriesDir) (states : List ChunkState) (h : sd.tests (fun m => decide (m.recordType = .kline) &&
      decide ((monthState m "1970-01").1.map Prod.snd = states)) = true) :
      ∃ m, sd.manifest = .current m ∧ m.recordType = .kline ∧ (monthState m "1970-01").1.map Prod.snd = states := by
    obtain ⟨m, hm, htest⟩ := SeriesDir.of_tests h
    rw [Bool.and_eq_true, decide_eq_true_iff, decide_eq_true_iff] at htest
    exact ⟨m, hm, htest⟩
  obtain ⟨m, hm, ht, hst⟩ := hstates (sampleJanuary.dirs (klineSeriesDir "X" "1m")) [.sealed,
    .active] (by decide +kernel)
  obtain ⟨m', hm', -, hst'⟩ :=
    hstates (((mergeKlineMonth (Env.plain 6) "X" "1m" "1970-01").final sampleJanuary).dirs (klineSeriesDir "X" "1m"))
    [.active]
    (by decide +kernel)
  obtain ⟨m₁, hm₁, -, hst₁⟩ :=
    hstates (((startupRecoverLocked (Env.plain 7)).final (stoppedJanuary 6)).dirs (klineSeriesDir "X" "1m")) [.sealed]
    (by decide +kernel)
  rcases hall (Env.plain 6) (Env.plain 7) [] 3 sampleJanuary (stoppedJanuary 6) "X" "1m" "1970-01" m m' m₁
    sampleJanuary_run.unplain sampleJanuary_room hm ht
    (stoppedJanuary_stopped 6) hm' hm₁ with heq | heq
  · rw [heq, hst] at hst₁
    cases hst₁
  · rw [heq, hst'] at hst₁
    cases hst₁

end Interrupted

end FastK
