import FastK.Replacement
import FastK.ScalarStops
/-!
# Files that superseded writes leave

A write of scalars takes away the files of the chunk whose place it takes; what cannot be removed stays
(`remove_sidecars_for_chunks`).  The recovery leaves a chunk file alone that meets an entry of its month which is no
older.  An append keeps it so, for its chunk spans the one before, and a replacement does where its records meet every
file of the month that stays: then no recovery brings a superseded row back, over whole histories
(`committed_rows_stay`).  A replacement that misses such a file does bring its rows back (`superseded_rows_return`).
-/
namespace FastK

open Journal Spans Versioned

/-! ## What recovery leaves alone -/

/-- The file has an entry, or it meets an entry of its month that is no older. -/
def Withheld (m : SeriesMeta) (name : Text) (f : ChunkFile) : Prop :=
  (∃ c ∈ m.chunks, c.relativePath = chunkRelativePath name) ∨
    ∃ c ∈ m.chunks, monthKey f.header.startTs = .ok c.monthKey ∧ c.startTs ≤ f.header.endTs ∧
      f.header.startTs ≤ c.endTs ∧
      f.header.generation ≤ c.generation

/-- A series of scalars, with files of superseded chunks that recovery leaves alone. -/
structure LeftSeries (d : Dir) (sd : SeriesDir) (m : SeriesMeta) : Prop where
  fits : Fits d sd m
  scalar : m.recordType = .scalar
  settled : ∀ c ∈ m.chunks, c.state = .active ∨ c.state = .sealed
  withheld : ∀ name f, HasChunk sd name f → Withheld m name f

inductive LeftDir (d : Dir) (sd : SeriesDir) : Prop
  | empty (hm : sd.manifest = .missing) (hf : sd.files = [])
  | series {m : SeriesMeta} (hm : sd.manifest = .current m) (h : LeftSeries d sd m)

structure LeftStore (s : Store) : Prop where
  dir : ∀ d, LeftDir d (s.dirs d)

section Left

variable {d : Dir} {sd : SeriesDir} {m m' : SeriesMeta} {s t : Store} {env : Env} {key : ScalarSeriesKey}

theorem LeftSeries.nothingToAdopt (h : LeftSeries d sd m) : NothingToAdopt sd m := by
  intro y name f hf hy hadopts
  rcases h.withheld name f hf with ⟨c, hc, hpath⟩ | ⟨c, hc, -, hstart, hend, hgen⟩
  · exact (hadopts c hc).1 (hpath.trans hy.entry.path.symm)
  · have hmeets : SpansMeet c y := by
      unfold SpansMeet Meets
      rw [hy.entry.startTs, hy.entry.endTs]
      exact ⟨hstart, hend⟩
    have hnewer := ((hadopts c hc).2 hmeets).1
    rw [hy.entry.generation] at hnewer
    omega

theorem LeftSeries.unmerging (h : LeftSeries d sd m) : ∀ c ∈ m.chunks, c.state ≠ .merging := by
  intro c hc
  rcases h.settled c hc with hs | hs <;> rw [hs] <;> decide

theorem LeftSeries.readable (h : LeftSeries d sd m) : ∀ c ∈ m.chunks, c.state.isReadable = true := by
  intro c hc
  rcases h.settled c hc with hs | hs <;> rw [hs] <;> rfl

theorem LeftDir.recovers (h : LeftDir d sd) (env : Env) (root : Dir) :
    Recovers env root d sd (fun saves => saves = []) := by
  intro report
  cases h with
  | empty hm hf => exact ⟨[], report, recover_empty hf _ _ _ report, rfl⟩
  | series hm h =>
    obtain ⟨report', hrec⟩ :=
      recover_quiet ⟨h.fits, hm⟩ h.nothingToAdopt h.unmerging env.now (root ++ "series".toList :: d) env.order report
    exact ⟨[], report', hrec, rfl⟩

theorem leftStore_empty (root : Dir) : LeftStore (Store.empty root) := ⟨fun _ => .empty rfl rfl⟩

theorem LeftStore.same (h : LeftStore s) {ks : List IoStep} (hk : ∀ e, (exec ks s).dirs e = s.dirs e) :
    LeftStore (exec ks s) :=
  ⟨fun e => by rw [hk e]; exact h.dir e⟩

/-- **A recovery leaves every directory as it is.** -/
theorem LeftStore.recover (h : LeftStore s) (env : Env) :
    (∃ report, (startupRecoverLocked env).result s = .ok report) ∧ LeftStore ((startupRecoverLocked env).final s) ∧
      ∀ e, ((startupRecoverLocked env).final s).dirs e = s.dirs e := by
  obtain ⟨tr, report, hrun, hquiet⟩ := startupRecover_quiet (fun e _ => (h.dir e).recovers env s.root)
  have hdirs := exec_quiet hquiet s
  rw [Prog.final_of_run hrun]
  exact ⟨⟨report, Prog.result_of_run hrun⟩, h.same hdirs, hdirs⟩

theorem LeftStore.begin (h : LeftStore s) (env : Env) :
    (beginMutation env).result s = .ok () ∧ LeftStore ((beginMutation env).final s) ∧
      ∀ e, ((beginMutation env).final s).dirs e = s.dirs e := by
  obtain ⟨tr, hrun, hquiet⟩ := beginMutation_quiet (fun e _ => (h.dir e).recovers env s.root)
  have hdirs := exec_quiet hquiet s
  rw [Prog.final_of_run hrun]
  exact ⟨Prog.result_of_run hrun, h.same hdirs, hdirs⟩

theorem LeftStore.scalarReady (h : LeftStore s) (hn : (s.dirs key.dir).manifest = .missing → key.isBlank = false) :
    ScalarReady key none (s.dirs key.dir) := by
  cases h.dir key.dir with
  | empty hm hf => exact .new hm hf (hn hm) rfl
  | series hm h => exact .series ⟨h.fits, hm⟩ h.scalar (.inl rfl)

end Left

/-! ## One write -/

/-- The chunk files of the month that a replacement of it does not take away meet the span of its records. -/
def StaysMet (env : Env) (d : Dir) (sd : SeriesDir) (month : Text) (records : List ScalarRecord) : Prop :=
  ∀ name f, HasChunk sd name f → monthKey f.header.startTs = .ok month →
    (∀ m, sd.manifest = .current m → ∀ c ∈ m.chunks, c.relativePath = chunkRelativePath name →
      env.removeFails d c.relativePath = true) →
    f.header.startTs ≤ lastTs records ∧ firstTs records ≤ f.header.endTs

section Write

variable {d : Dir} {m m' : SeriesMeta} {s : Store} {env : Env} {month : Text} {rows : List ScalarRecord}

theorem Fits.generation_le_next {sd : SeriesDir} (h : Fits d sd m) {e : ChunkMeta} (he : e ∈ m.chunks)
    (hmonth : e.monthKey = month) :
    e.generation ≤ nextGeneration (m.chunksForPartition month) := by
  obtain ⟨n, g, r, -, ho, hent⟩ := h.tracked e he
  have hlt := ho.complete.generation_lt
  have hle := le_maxGeneration (mem_chunksForPartition.2 ⟨he, hmonth⟩)
  rw [← hent.generation] at hlt
  unfold nextGeneration satSucc u32Max
  omega

/-- A file that a write is able to remove is gone. -/
theorem EntryWrite.removed_gone (w : EntryWrite env d .scalar .month (s.dirs d) m m' month rows) {e : ChunkMeta}
    (he : e ∈ m.chunks) (hk : e ∉ w.kept) (hremove : env.removeFails d e.relativePath = false) {name : Text}
    {f : ChunkFile} (hf : HasChunk ((exec w.steps s).dirs d) name f) :
    e.relativePath ≠ chunkRelativePath name := by
  intro hpath
  have hcleared : e.relativePath ∈ w.paths.filter (fun p => !env.removeFails d p) :=
    List.mem_filter.2 ⟨w.cleared e he hk, by rw [hremove]; rfl⟩
  unfold EntryWrite.steps commitSteps removeSteps at hf
  rw [exec_append] at hf
  exact hasChunk_removed hf (hpath ▸ hcleared)

/-- **A write whose chunk meets the files of its month that stay keeps them from recovery.** -/
theorem EntryWrite.left (w : EntryWrite env d .scalar .month (s.dirs d) m m' month rows)
    (hkept : w.kept = otherChunks m month) (hl : LeftSeries d (s.dirs d) m)
    (hmeets : ∀ name f, HasChunk (s.dirs d) name f → monthKey f.header.startTs = .ok month →
      (∀ c ∈ m.chunks, c.relativePath = chunkRelativePath name → env.removeFails d c.relativePath = true) →
      f.header.startTs ≤ lastTs rows ∧ firstTs rows ≤ f.header.endTs) :
    LeftSeries d ((exec w.steps s).dirs d) m' := by
  have h := hl.fits
  have hu := h.head.unit_month (.inr hl.scalar)
  have hcom := w.final h
  refine ⟨(w.seriesOk h hl.scalar hu hcom).toFits, w.entered.head.recordType.trans hl.scalar, fun c hc => ?_,
    fun name f hf => ?_⟩
  · rcases w.entered.mem.1 hc with hc | rfl
    · exact hl.settled c (w.entered.kept_sublist.subset hc)
    · exact w.entered.laid.settled
  · rcases hcom.only name f hf with hnew | hold
    · obtain ⟨rfl, rfl⟩ := Prod.mk.inj (List.mem_singleton.1 hnew)
      exact .inl ⟨w.entry, w.entered.mem.2 (.inr rfl), w.entered.laid.entry.path⟩
    · -- a file of the month that the new chunk meets is withheld by it, which is no older than any entry it replaces
      have hshadow : monthKey f.header.startTs = .ok month → f.header.startTs ≤ lastTs rows ∧
        firstTs rows ≤ f.header.endTs →
          (∃ e ∈ m.chunks, e ∉ w.kept ∧ f.header.generation ≤ e.generation) → Withheld m' name f := by
        rintro hmonth ⟨hstart, hend⟩ ⟨e, he, hk, hgen⟩
        refine .inr ⟨w.entry, w.entered.mem.2 (.inr rfl), ?_, ?_, ?_, le_trans hgen ?_⟩
        · rw [w.entered.laid.monthKey]
          exact hmonth
        · rw [w.entered.startTs_eq]
          exact hend
        · rw [w.entered.endTs_eq]
          exact hstart
        · rw [w.entered.laid.generation]
          exact h.generation_le_next he (not_mem_otherChunks he (hkept ▸ hk))
      by_cases htracked : ∃ c ∈ m.chunks, c.relativePath = chunkRelativePath name
      · obtain ⟨c, hc, hpath⟩ := htracked
        by_cases hk : c ∈ w.kept
        · exact .inl ⟨c, w.entered.mem.2 (.inl hk), hpath⟩
        · have hstays : env.removeFails d c.relativePath = true := by
            by_contra hremove
            exact w.removed_gone hc hk (Bool.not_eq_true _ ▸ hremove) hf hpath
          obtain ⟨n, g, r, hg, ho, hent⟩ := h.tracked c hc
          obtain rfl := chunkRelativePath_inj (hent.path.symm.trans hpath)
          obtain rfl := h.filed.hasChunk_inj hold hg
          have hmonth : monthKey f.header.startTs = .ok month := by
            have hkeyed := ho.keyed_startTs
            rw [hu, not_mem_otherChunks hc (hkept ▸ hk)] at hkeyed
            exact hkeyed
          refine hshadow hmonth (hmeets _ f hold hmonth (fun c' _ hpath' => ?_))
            ⟨c, hc, hk, le_of_eq hent.generation.symm⟩
          rw [hpath', ← hpath]
          exact hstays
      · rcases (hl.withheld name f hold).resolve_left htracked with ⟨e, he, hmonth, hstart, hend, hgen⟩
        by_cases hk : e ∈ w.kept
        · exact .inr ⟨e, w.entered.mem.2 (.inl hk), hmonth, hstart, hend, hgen⟩
        · have hmonth' : monthKey f.header.startTs = .ok month := by
            rw [hmonth, not_mem_otherChunks he (hkept ▸ hk)]
          exact hshadow hmonth' (hmeets name f hold hmonth' (fun c hc hpath => absurd ⟨c, hc, hpath⟩ htracked))
            ⟨e, he, hk, hgen⟩

/-- **The rows after a write in the place of a month**: its own, and those of the other months. -/
theorem EntryWrite.mem_rows_after (w : EntryWrite env d .scalar .month (s.dirs d) m m' month rows)
    (hkept : w.kept = otherChunks m month) (h : Fits d (s.dirs d) m) (ht : m.recordType = .scalar)
    (hbase : (s.dirs d).manifest = .current m ∨ m.chunks = [] ∧ (s.dirs d).manifest = .missing)
    {r : RecordType.scalar.Row} :
    r ∈ seriesRows .scalar ((exec w.steps s).dirs d) ↔ (r ∈ seriesRows .scalar (s.dirs d) ∧ inMonth month r = false) ∨
      r ∈ rows := by
  rw [seriesRows_base hbase, ← mem_otherRows h ht, ← hkept]
  exact w.mem_seriesRows h

theorem mem_storedMonth {sd : SeriesDir} (h : Fits d sd m) (ht : m.recordType = .scalar) {r : RecordType.scalar.Row} :
    r ∈ (m.chunksForPartition month).flatMap (rowsIn .scalar sd) ↔ r ∈ m.chunks.flatMap (rowsIn .scalar sd) ∧
      inMonth month r = true := by
  rw [List.mem_flatMap, List.mem_flatMap]
  constructor
  · rintro ⟨c, hc, hr⟩
    obtain ⟨hcm, rfl⟩ := mem_chunksForPartition.1 hc
    exact ⟨⟨c, hcm, hr⟩, decide_eq_true (keyed_rows h ht hcm hr)⟩
  · rintro ⟨⟨c, hcm, hr⟩, hin⟩
    have hk := of_decide_eq_true hin
    exact ⟨c, mem_chunksForPartition.2 ⟨hcm, Except.ok.inj ((keyed_rows h ht hcm hr).symm.trans hk)⟩, hr⟩

/-- What an append combines spans every chunk of its month. -/
theorem span_storedMonth {sd : SeriesDir} {records : List ScalarRecord} (h : Fits d sd m)
    (ht : m.recordType = .scalar) {e : ChunkMeta} (he : e ∈ m.chunks) (hk : e.monthKey = month)
    (ho : Ordered (storedMonth sd m month ++ records)) :
    firstTs (storedMonth sd m month ++ records) ≤ e.startTs ∧ e.endTs ≤ lastTs (storedMonth sd m month ++ records) := by
  have htr := h.tracked e he
  rw [ht, h.head.unit_month (.inr ht)] at htr
  obtain ⟨n, g, -, hfile, hent⟩ := htr.rowsIn h.filed
  have hrow : ∀ r ∈ rowsIn .scalar sd e, r ∈ storedMonth sd m month ++ records := fun r hr =>
    List.mem_append_left _ (List.mem_flatMap.2 ⟨e, mem_chunksForPartition.2 ⟨he, hk⟩, hr⟩)
  obtain ⟨r, hr, hfirst⟩ := exists_firstTs hfile.holds.ne_nil
  obtain ⟨q, hq, hlast⟩ := exists_lastTs hfile.holds.ne_nil
  rw [hent.startTs, hent.endTs, hfile.holds.startTs_eq, hfile.holds.endTs_eq, ← hfirst, ← hlast]
  exact ⟨firstTs_le ho (hrow r hr), le_lastTs ho (hrow q hq)⟩

end Write

/-! ## One call -/

/-- A call has left the store in order, with these rows in the series at `d` and the others as they were. -/
structure Wrote (d : Dir) (s t : Store) (rows : ScalarRecord → Prop) : Prop where
  left : LeftStore t
  rows_iff : ∀ r : RecordType.scalar.Row, r ∈ seriesRows .scalar (t.dirs d) ↔ rows r
  elsewhere : ∀ e, e ≠ d → SameContent (s.dirs e) (t.dirs e)

section Call

variable {s t : Store} {env : Env} {key : ScalarSeriesKey} {timeframeMs : Int} {records rows : List ScalarRecord}
    {blockSize : Nat} {month : Text}
  {m : SeriesMeta} {d : Dir} {sd sd' : SeriesDir}

theorem LeftSeries.congr (h : LeftSeries d sd m) (hs : SameContent sd sd') : LeftSeries d sd' m :=
  ⟨hs.fits h.fits, h.scalar, h.settled, fun name f hf => h.withheld name f (hs.hasChunk.1 hf)⟩

theorem LeftDir.congr (h : LeftDir d sd) (hs : SameContent sd sd') : LeftDir d sd' := by
  cases h with
  | empty hm hf => exact .empty (hs.manifest.trans hm) (hs.files.trans hf)
  | series hm h => exact .series (hs.manifest.trans hm) (h.congr hs)

/-- What a write starts from. -/
theorem LeftStore.start (h : LeftStore s) (hr : ScalarReady key none (s.dirs key.dir)) {now : Int}
    (hm : scalarManifest now key timeframeMs none (s.dirs key.dir) = .ok m) :
    LeftSeries key.dir (s.dirs key.dir) m ∧
      ((s.dirs key.dir).manifest = .current m ∨ m.chunks = [] ∧ (s.dirs key.dir).manifest = .missing) := by
  obtain ⟨hfits, hscalar⟩ := hr.fits hm
  cases h.dir key.dir with
  | empty hmiss hf =>
    rw [scalarManifest_new _ _ _ hmiss] at hm
    obtain rfl := Except.ok.inj hm
    refine ⟨⟨hfits, hscalar, fun c hc => (by cases hc), fun name f hfile => ?_⟩, .inr ⟨rfl, hmiss⟩⟩
    have hmem := hfile.1
    rw [hf] at hmem
    cases hmem
  | series hcur hl =>
    rw [scalarManifest_series ⟨hl.fits, hcur⟩ (.inl rfl)] at hm
    split at hm
    · cases hm
    · obtain rfl := Except.ok.inj hm
      exact ⟨hl, .inl hcur⟩

/-- **One write.** -/
theorem ScalarWritten.wrote {r : List IoStep × Except FastKError SeriesMeta}
    (hw : ScalarWritten env key s m month rows r) (h : LeftStore s) (hl : LeftSeries key.dir (s.dirs key.dir) m)
    (hbase : (s.dirs key.dir).manifest = .current m ∨ m.chunks = [] ∧ (s.dirs key.dir).manifest = .missing)
    (hmeets : ∀ name f, HasChunk (s.dirs key.dir) name f → monthKey f.header.startTs = .ok month →
      (∀ c ∈ m.chunks, c.relativePath = chunkRelativePath name → env.removeFails key.dir c.relativePath = true) →
      f.header.startTs ≤ lastTs rows ∧ firstTs rows ≤ f.header.endTs) :
    Wrote key.dir s (exec r.1 s) (fun r => (r ∈ seriesRows .scalar (s.dirs key.dir) ∧ inMonth month r = false) ∨
      r ∈ rows) := by
  obtain ⟨m', w, hkept, rfl⟩ := hw
  have hleft := w.left hkept hl hmeets
  have helse : ∀ e, e ≠ key.dir → SameContent (s.dirs e) ((exec (w.steps ++ [.disarm]) s).dirs e) :=
    fun e he => exec_other (on_append_disarm w.steps_on) he s
  have hdir : (exec (w.steps ++ [.disarm]) s).dirs key.dir = (exec w.steps s).dirs key.dir :=
    exec_disarm_dirs w.steps s key.dir
  refine ⟨⟨fun e => ?_⟩, fun r => ?_, helse⟩
  · by_cases he : e = key.dir
    · subst he
      rw [hdir]
      exact .series (w.final hl.fits).manifest hleft
    · exact (h.dir e).congr (helse e he)
  · rw [hdir]
    exact w.mem_rows_after hkept hl.fits hl.scalar hbase

/-- The checked body of a call, once the recovery has found nothing to do. -/
theorem LeftStore.locked {body : Op SeriesMeta} {a b : Result Unit} (h : LeftStore s)
    (hok : (Prog.lift a >>= fun _ => Prog.lift b >>= fun _ => beginMutation env >>= fun _ => body >>= fun _ =>
      (pure () : Op Unit)).result s = .ok ()) :
    ∃ t m, LeftStore t ∧ (∀ e, t.dirs e = s.dirs e) ∧ body.result t = .ok m ∧
      (Prog.lift a >>= fun _ => Prog.lift b >>= fun _ => beginMutation env >>= fun _ => body >>= fun _ =>
        (pure () : Op Unit)).final s = body.final t := by
  obtain ⟨hres, hleft, hdirs⟩ := h.begin env
  obtain ⟨_, ha, hok⟩ := Prog.result_bind_eq_ok.1 hok
  obtain ⟨_, hb, hok⟩ := Prog.result_bind_eq_ok.1 hok
  obtain ⟨_, -, hok⟩ := Prog.result_bind_eq_ok.1 hok
  obtain ⟨m, hm, -⟩ := Prog.result_bind_eq_ok.1 hok
  have hm : body.result ((beginMutation env).final s) = .ok m := hm
  refine ⟨(beginMutation env).final s, m, hleft, hdirs, hm, ?_⟩
  rw [Prog.final_bind_ok ha, Prog.final_bind_ok hb, Prog.final_lift, Prog.final_lift, Prog.final_bind_ok hres,
    Prog.final_bind_ok hm, Prog.final_pure]

theorem LeftStore.named {p : Op SeriesMeta} (hn : Names key.dir (buildScalarMeta env.now key timeframeMs) True p)
    (hres : p.result s = .ok m) (hmiss : (s.dirs key.dir).manifest = .missing) : key.isBlank = false := by
  refine hn s ⟨fun m' hm' => ?_, .inr trivial⟩ m hres
  rw [hmiss] at hm'
  cases hm'

/-- **A replacement that meets the files that stay.** -/
theorem LeftStore.put (h : LeftStore s) (hok : (putScalarChunk env key timeframeMs records blockSize).result s = .ok ())
    (hmonth : monthKey (firstTs records) = .ok month) (hmet : StaysMet env key.dir (s.dirs key.dir) month records) :
    Wrote key.dir s ((putScalarChunk env key timeframeMs records blockSize).final s)
      (fun r => (r ∈ seriesRows .scalar (s.dirs key.dir) ∧ inMonth month r = false) ∨ r ∈ records) := by
  obtain ⟨t, m', ht, hdirs, hres, hfin⟩ := h.locked hok
  have hready := ht.scalarReady (LeftStore.named (names_putScalar rfl (fun _ => rfl) hasHead_none) hres)
  have hfin' : (putScalarChunk env key timeframeMs records blockSize).final s =
    (putScalarChunkLocked env key timeframeMs records blockSize none).final t := hfin
  rw [hfin']
  rcases putScalarChunkLocked_run env timeframeMs records blockSize (fun m hm => hready.fits hm) with href |
    ⟨m, month', hm, hmonth', hw⟩
  · obtain ⟨err, herr⟩ := href.1
    rw [show (putScalarChunkLocked env key timeframeMs records blockSize none).result t = .error err from herr] at hres
    cases hres
  · obtain rfl : month' = month := Except.ok.inj (hmonth'.symm.trans hmonth)
    obtain ⟨hl, hbase⟩ := ht.start hready hm
    rw [← hdirs] at hmet
    have hwrote := hw.wrote ht hl hbase (fun name f hf hkey hstays => hmet name f hf hkey (fun m₀ hm₀ c hc hpath => ?_))
    · rw [← hdirs]
      exact ⟨hwrote.left, hwrote.rows_iff, fun e he => by rw [← hdirs]; exact hwrote.elsewhere e he⟩
    · rcases hbase with hcur | ⟨-, hmiss⟩
      · obtain rfl := ManifestFile.current.inj (hcur.symm.trans hm₀)
        exact hstays c hc hpath
      · rw [hmiss] at hm₀
        cases hm₀

/-- **An append**, whose chunk meets whatever the one before met. -/
theorem LeftStore.append (h : LeftStore s)
    (hok : (appendScalarChunk env key timeframeMs records blockSize).result s = .ok ()) :
    Wrote key.dir s ((appendScalarChunk env key timeframeMs records blockSize).final s)
      (fun r => r ∈ seriesRows .scalar (s.dirs key.dir) ∨ r ∈ records) := by
  obtain ⟨t, m', ht, hdirs, hres, hfin⟩ := h.locked hok
  have hready := ht.scalarReady (LeftStore.named (names_appendScalar rfl (fun _ => rfl) hasHead_none) hres)
  have hread : ∀ m, (t.dirs key.dir).manifest = .current m → ∀ c ∈ m.chunks, c.state.isReadable = true := by
    intro m hm
    cases ht.dir key.dir with
    | empty hmiss _ =>
      rw [hmiss] at hm
      cases hm
    | series hcur hl =>
      obtain rfl := ManifestFile.current.inj (hcur.symm.trans hm)
      exact hl.readable
  have hfin' : (appendScalarChunk env key timeframeMs records blockSize).final s =
    (appendScalarChunkLocked env key timeframeMs records blockSize none).final t := hfin
  rw [hfin']
  rcases appendScalarChunkLocked_run env timeframeMs records blockSize hready hread with href | ⟨m, month, hm, -, -, hw⟩
  · obtain ⟨err, herr⟩ := href.1
    rw [show (appendScalarChunkLocked env key timeframeMs records blockSize none).result t = .error err from herr]
      at hres
    cases hres
  · obtain ⟨hl, hbase⟩ := ht.start hready hm
    have hordered : Ordered (storedMonth (t.dirs key.dir) m month ++ records) := by
      obtain ⟨m', w, -⟩ := hw
      exact w.entered.laid.file.holds.ordered
    have hwrote := hw.wrote ht hl hbase (fun name f hf hkey _ => ?_)
    · rw [← hdirs]
      refine ⟨hwrote.left, fun r => ?_, fun e he => by rw [← hdirs]; exact hwrote.elsewhere e he⟩
      have hstored : r ∈ storedMonth (t.dirs key.dir) m month ↔ r ∈ seriesRows .scalar (t.dirs key.dir) ∧
        inMonth month r = true := by
        rw [seriesRows_base hbase]
        exact mem_storedMonth hl.fits hl.scalar
      refine (hwrote.rows_iff r).trans ⟨?_, ?_⟩
      · rintro (⟨hold, -⟩ | hnew)
        · exact .inl hold
        · exact (List.mem_append.1 hnew).imp_left (fun h => (hstored.1 h).1)
      · rintro (hold | hnew)
        · by_cases hin : inMonth month r = true
          · exact .inr (List.mem_append_left _ (hstored.2 ⟨hold, hin⟩))
          · exact .inl ⟨hold, Bool.not_eq_true _ ▸ hin⟩
        · exact .inr (List.mem_append_right _ hnew)
    · -- the file, or the entry that it meets, lies in the span of what is combined
      have hspan : ∀ e ∈ m.chunks, e.monthKey = month → e.startTs ≤ f.header.endTs → f.header.startTs ≤ e.endTs →
          f.header.startTs ≤ lastTs (storedMonth (t.dirs key.dir) m month ++ records) ∧
            firstTs (storedMonth (t.dirs key.dir) m month ++ records) ≤ f.header.endTs :=
              fun e he hmonth hstart hend => by
        obtain ⟨hfirst, hlast⟩ := span_storedMonth hl.fits hl.scalar he hmonth hordered
        exact ⟨le_trans hend hlast, le_trans hfirst hstart⟩
      rcases hl.withheld name f hf with ⟨c, hc, hpath⟩ | ⟨e, he, hmonth, hstart, hend, -⟩
      · obtain ⟨n, g, r, hg, ho, hent⟩ := hl.fits.tracked c hc
        obtain rfl := chunkRelativePath_inj (hent.path.symm.trans hpath)
        obtain rfl := hl.fits.filed.hasChunk_inj hf hg
        have hmonth := ho.keyed_startTs
        rw [hl.fits.head.unit_month (.inr hl.scalar)] at hmonth
        have hproper := hl.fits.chain.2 c hc
        refine hspan c hc (Except.ok.inj (hmonth.symm.trans hkey)) ?_ ?_
        · rw [← hent.endTs]
          exact hproper
        · rw [← hent.startTs]
          exact hproper
      · exact hspan e he (Except.ok.inj (hmonth.symm.trans hkey)) hstart hend

end Call

/-! ## Whole histories -/

/-- What recoveries leave, one after another. -/
def recoverAll (envs : List Env) (s : Store) : Store := envs.foldl (fun s env => (startupRecoverLocked env).final s) s

/-- Writes of scalars that have answered, and recoveries, with the rows that the manifests committed so far name.
Removals may fail in any of them.  `Takes` is asked of every replacement of a month. -/
inductive ScalarHistory (Takes : Env → Dir → SeriesDir → Text → List ScalarRecord → Prop) (root : Dir) :
    Store → (Dir → ScalarRecord → Prop) → Prop
  | start : ScalarHistory Takes root (Store.empty root) (fun _ _ => False)
  | put {s : Store} {rows : Dir → ScalarRecord → Prop} (h : ScalarHistory Takes root s rows) (env : Env)
      (key : ScalarSeriesKey) (timeframeMs : Int) (records : List ScalarRecord) (blockSize : Nat) (month : Text)
      (hdown : key.GoesDown)
      (hok : (putScalarChunk env key timeframeMs records blockSize).result s = .ok ())
      (hmonth : monthKey (firstTs records) = .ok month) (htakes : Takes env key.dir (s.dirs key.dir) month records) :
    ScalarHistory Takes root ((putScalarChunk env key timeframeMs records blockSize).final s)
      (Function.update rows key.dir (fun r => (rows key.dir r ∧ inMonth month r = false) ∨ r ∈ records))
  | append {s : Store} {rows : Dir → ScalarRecord → Prop} (h : ScalarHistory Takes root s rows) (env : Env)
      (key : ScalarSeriesKey) (timeframeMs : Int) (records : List ScalarRecord) (blockSize : Nat)
      (hdown : key.GoesDown)
      (hok : (appendScalarChunk env key timeframeMs records blockSize).result s = .ok ()) :
    ScalarHistory Takes root ((appendScalarChunk env key timeframeMs records blockSize).final s)
      (Function.update rows key.dir (fun r => rows key.dir r ∨ r ∈ records))
  | recover {s : Store} {rows : Dir → ScalarRecord → Prop} (h : ScalarHistory Takes root s rows) (env : Env) :
    ScalarHistory Takes root ((startupRecoverLocked env).final s) rows

/-- Whatever recovers the store, the recovery succeeds, reads answer the rows of the manifests, and these are the
committed ones. -/
structure RowsStay (s : Store) (rows : Dir → ScalarRecord → Prop) : Prop where
  begins : ∀ env, (beginMutation env).result s = .ok () ∧ ∀ e, ((beginMutation env).final s).dirs e = s.dirs e
  recovers : ∀ envs env, ∃ report, (startupRecoverLocked env).result (recoverAll envs s) = .ok report
  answers : ∀ envs d m, ((recoverAll envs s).dirs d).manifest = .current m →
    ScalarAnswers ((recoverAll envs s).dirs d) (seriesRows .scalar ((recoverAll envs s).dirs d))
  committed : ∀ envs d (r : RecordType.scalar.Row), r ∈ seriesRows .scalar ((recoverAll envs s).dirs d) ↔ rows d r

section Histories

variable {root : Dir} {s t : Store} {rows : Dir → ScalarRecord → Prop} {d : Dir} {row row' : ScalarRecord → Prop}

theorem LeftStore.recoverAll (h : LeftStore s) (envs : List Env) : LeftStore (recoverAll envs s) ∧
    ∀ e, (FastK.recoverAll envs s).dirs e = s.dirs e := by
  induction envs generalizing s with
  | nil => exact ⟨h, fun _ => rfl⟩
  | cons env envs ih =>
    obtain ⟨-, hleft, hdirs⟩ := h.recover env
    obtain ⟨hall, hsame⟩ := ih hleft
    exact ⟨hall, fun e => (hsame e).trans (hdirs e)⟩

/-- The rows after a call on one series. -/
theorem Wrote.tracks (hw : Wrote d s t row) (hrow : ∀ r, row r ↔ row' r)
    (hrows : ∀ e (r : RecordType.scalar.Row), r ∈ seriesRows .scalar (s.dirs e) ↔ rows e r) (e : Dir)
    (r : RecordType.scalar.Row) :
    r ∈ seriesRows .scalar (t.dirs e) ↔ Function.update rows d row' e r := by
  by_cases he : e = d
  · subst he
    rw [Function.update_self]
    exact (hw.rows_iff r).trans (hrow r)
  · rw [Function.update_of_ne he, (hw.elsewhere e he).seriesRows .scalar]
    exact hrows e r

/-- **Every history**: the store is in order up to files that recovery leaves alone, and the series hold the committed
rows. -/
theorem ScalarHistory.left (h : ScalarHistory StaysMet root s rows) :
    LeftStore s ∧ ∀ d (r : RecordType.scalar.Row), r ∈ seriesRows .scalar (s.dirs d) ↔ rows d r := by
  induction h with
  | start => exact ⟨leftStore_empty root, fun d r => ⟨fun hr => (by cases hr), False.elim⟩⟩
  | put _ env key timeframeMs records blockSize month _ hok hmonth htakes ih =>
    have hw := ih.1.put hok hmonth htakes
    exact ⟨hw.left, hw.tracks (fun r => or_congr_left (and_congr_left' (ih.2 key.dir r))) ih.2⟩
  | append _ env key timeframeMs records blockSize _ hok ih =>
    have hw := ih.1.append hok
    exact ⟨hw.left, hw.tracks (fun r => or_congr_left (ih.2 key.dir r)) ih.2⟩
  | recover _ env ih =>
    obtain ⟨-, hleft, hdirs⟩ := ih.1.recover env
    exact ⟨hleft, fun d r => by rw [hdirs]; exact ih.2 d r⟩

/-- **A committed manifest is authoritative** where replacements meet the files of their month that stay: no recovery,
however many there are, adds a superseded row or loses a committed one. -/
theorem committed_rows_stay (h : ScalarHistory StaysMet root s rows) : RowsStay s rows := by
  obtain ⟨hleft, hrows⟩ := h.left
  refine ⟨fun env => ?_, fun envs env => ((hleft.recoverAll envs).1.recover env).1, fun envs d m hm => ?_,
    fun envs d r => ?_⟩
  · obtain ⟨hres, -, hdirs⟩ := hleft.begin env
    exact ⟨hres, hdirs⟩
  · cases (hleft.recoverAll envs).1.dir d with
    | empty hmiss _ =>
      rw [hmiss] at hm
      cases hm
    | series hcur hl => exact SeriesOk.scalarAnswers ⟨hl.fits, hcur⟩ hl.scalar
  · rw [(hleft.recoverAll envs).2]
    exact hrows d r

end Histories

/-! ## Samples -/

/-- The chunk file meets the span of the records. -/
def meetsSpan (records : List ScalarRecord) : FileBody → Bool
  | .chunk f => decide (f.header.startTs ≤ lastTs records ∧ firstTs records ≤ f.header.endTs)
  | _ => true

theorem staysMet_of_files {d : Dir} {sd : SeriesDir} {records : List ScalarRecord}
    (h : ∀ p ∈ sd.files, meetsSpan records p.2 = true) (env : Env) (month : Text) : StaysMet env d sd month records :=
  fun _ _ hf _ _ => of_decide_eq_true (h _ hf.1)

/-- No file can be removed. -/
def stuckEnv : Env := { Env.plain 5 with removeFails := fun _ _ => true }

def stuckJanuary : Store := (putScalarChunk stuckEnv sampleScalarKey 60000 sampleJanuaryRows 1).final (Store.empty [])

/-- A month, and a replacement of it where no file can be removed. -/
def stuckReplacement (records : List ScalarRecord) : Store :=
  (putScalarChunk stuckEnv sampleScalarKey 60000 records 1).final stuckJanuary

theorem stuckReplacement_history {Takes : Env → Dir → SeriesDir → Text → List ScalarRecord → Prop}
    {records : List ScalarRecord}
    (hok : (putScalarChunk stuckEnv sampleScalarKey 60000 records 1).result stuckJanuary = .ok ())
    (hmonth : monthKey (firstTs records) = .ok "1970-01".toList)
    (hfirst : Takes stuckEnv sampleScalarKey.dir ((Store.empty []).dirs sampleScalarKey.dir) "1970-01".toList
      sampleJanuaryRows)
    (htakes : Takes stuckEnv sampleScalarKey.dir (stuckJanuary.dirs sampleScalarKey.dir) "1970-01".toList records) :
    ∃ rows, ScalarHistory Takes [] (stuckReplacement records) rows ∧
      ∀ r, rows sampleScalarKey.dir r → (r ∈ sampleJanuaryRows ∧ inMonth "1970-01".toList r = false) ∨ r ∈ records := by
  have hempty : ScalarHistory Takes [] (Store.empty []) (fun _ _ => False) := .start
  have hdown : sampleScalarKey.GoesDown := by decide +kernel
  have hjanuary := hempty.put stuckEnv sampleScalarKey 60000 sampleJanuaryRows 1 "1970-01".toList hdown
    (isOk_eq (by decide +kernel)) (by decide +kernel) hfirst
  refine ⟨_, hjanuary.put stuckEnv sampleScalarKey 60000 records 1 "1970-01".toList hdown hok hmonth htakes,
    fun r hr => ?_⟩
  simpa using hr

/-- A correction that meets the old month, whose file stays. -/
theorem committed_rows_stay_sample : ∃ rows, ScalarHistory StaysMet [] (stuckReplacement sampleCorrection) rows ∧
    RowsStay (stuckReplacement sampleCorrection) rows := by
  have hok : (putScalarChunk stuckEnv sampleScalarKey 60000 sampleCorrection 1).result stuckJanuary = .ok () :=
    isOk_eq (by decide +kernel)
  obtain ⟨rows, h, -⟩ := stuckReplacement_history hok (by decide +kernel) (staysMet_of_files (by decide +kernel) _ _)
    (staysMet_of_files (by decide +kernel) _ _)
  exact ⟨rows, h, committed_rows_stay h⟩

/-- The rows once a replacement that does not meet the old month has been recovered. -/
def returnedRows : List ScalarRecord :=
  seriesRows .scalar ((recoverAll [Env.plain 7] (stuckReplacement sampleReplacement)).dirs sampleScalarKey.dir)

/-- A replacement that does not meet the old month: the next recovery brings its rows back. -/
theorem superseded_rows_return : ¬ ∀ (root : Dir) (s : Store) (rows : Dir → ScalarRecord → Prop),
    ScalarHistory (fun _ _ _ _ _ => True) root s rows → RowsStay s rows := by
  intro hall
  have hok : (putScalarChunk stuckEnv sampleScalarKey 60000 sampleReplacement 1).result stuckJanuary = .ok () :=
    isOk_eq (by decide +kernel)
  obtain ⟨rows, h, hrows⟩ := @stuckReplacement_history (fun _ _ _ _ _ => True) _ hok (by decide +kernel) trivial trivial
  have hstay := hall [] (stuckReplacement sampleReplacement) rows h
  have hback : ∃ r ∈ sampleJanuaryRows, r ∈ returnedRows := by decide +kernel
  obtain ⟨r, hr, hmem⟩ := hback
  have hnot : ∀ r ∈ sampleJanuaryRows, ¬ ((r ∈ sampleJanuaryRows ∧ inMonth "1970-01".toList r = false) ∨
    r ∈ sampleReplacement) := by decide +kernel
  exact hnot r hr (hrows r ((hstay.committed [Env.plain 7] sampleScalarKey.dir r).1 hmem))

end FastK
