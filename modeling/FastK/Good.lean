import FastK.Restart
import FastK.TickWrites
/-!
# Stores in order

A directory in order has neither manifest nor files, or a manifest that fits, describes every chunk file and is tidy
(`GoodDir`).  A store in order stays so under every write that meets a series of its own type and room for the next
generations; recovery finds nothing to do in it (`GoodStore.recovers`).
-/
namespace FastK

open Journal Spans

/-! ## Directories and stores in order -/

/-- The manifest fits the directory, describes all of its chunk files, is tidy, and has no generation above `C`. -/
structure GoodSeries (C : Nat) (d : Dir) (sd : SeriesDir) (m : SeriesMeta) : Prop where
  fits : Fits d sd m
  exact : Exact sd m
  tidy : Tidy m
  bound : ∀ c ∈ m.chunks, c.generation ≤ C
  described : Described sd m

inductive GoodDir (C : Nat) (d : Dir) (sd : SeriesDir) : Prop
  | empty (hm : sd.manifest = .missing) (hf : sd.files = [])
  | series {m : SeriesMeta} (hm : sd.manifest = .current m) (h : GoodSeries C d sd m)

structure GoodStore (C : Nat) (s : Store) : Prop where
  dir : ∀ d, GoodDir C d (s.dirs d)

section Good

variable {C : Nat} {d : Dir} {sd sd' : SeriesDir} {m m' : SeriesMeta} {s : Store} {env : Env}

theorem GoodSeries.congr (h : GoodSeries C d sd m) (hs : SameContent sd sd') : GoodSeries C d sd' m :=
  ⟨hs.fits h.fits, hs.exact_iff.2 h.exact, h.tidy, h.bound, h.described.congr hs.files⟩

theorem GoodSeries.seriesOk (h : GoodSeries C d sd m) (hm : sd.manifest = .current m) : SeriesOk d sd m := ⟨h.fits, hm⟩

theorem GoodSeries.readable (h : GoodSeries C d sd m) : ∀ c ∈ m.chunks, c.state.isReadable = true := by
  intro c hc
  rcases h.tidy.settled c hc with hs | hs <;> rw [hs] <;> rfl

theorem GoodSeries.settled (h : GoodSeries C d sd m) : ∀ c ∈ m.chunks, c.state ≠ .merging := h.tidy.unmerging

theorem GoodDir.congr (h : GoodDir C d sd) (hs : SameContent sd sd') : GoodDir C d sd' := by
  cases h with
  | empty hm hf => exact .empty (hs.manifest.trans hm) (hs.files.trans hf)
  | series hm h => exact .series (hs.manifest.trans hm) (h.congr hs)

theorem GoodDir.mono {D : Nat} (h : GoodDir C d sd) (hCD : C ≤ D) : GoodDir D d sd := by
  cases h with
  | empty hm hf => exact .empty hm hf
  | series hm h => exact .series hm ⟨h.fits, h.exact, h.tidy, fun c hc => le_trans (h.bound c hc) hCD, h.described⟩

theorem GoodDir.of_current (h : GoodDir C d sd) (hm : sd.manifest = .current m) : GoodSeries C d sd m := by
  cases h with
  | empty hmiss _ => rw [hm] at hmiss; cases hmiss
  | series hm' h =>
    obtain rfl := ManifestFile.current.inj (hm.symm.trans hm')
    exact h

theorem GoodDir.of_missing (h : GoodDir C d sd) (hm : sd.manifest = .missing) : sd.files = [] := by
  cases h with
  | empty _ hf => exact hf
  | series hm' _ => rw [hm] at hm'; cases hm'

/-- **Recovery finds nothing to do in a directory in order.** -/
theorem GoodDir.recovers (h : GoodDir C d sd) (env : Env) (root : Dir) :
    Recovers env root d sd (fun saves => saves = []) := by
  intro report
  cases h with
  | empty hm hf => exact ⟨[], report, recover_empty hf _ _ _ report, rfl⟩
  | series hm h =>
    obtain ⟨report', hrec⟩ :=
      recover_quiet (h.seriesOk hm) h.exact.nothingToAdopt h.settled env.now (root ++ "series".toList ::
      d) env.order report
    exact ⟨[], report', hrec, rfl⟩

theorem GoodStore.mono {D : Nat} (h : GoodStore C s) (hCD : C ≤ D) : GoodStore D s := ⟨fun d => (h.dir d).mono hCD⟩

theorem GoodStore.calm (h : GoodStore C s) {ks : List IoStep} (hk : ∀ k ∈ ks, k.calm = true) :
    GoodStore C (exec ks s) :=
  ⟨fun d => (h.dir d).congr (exec_calm hk s d)⟩

/-- Steps on one directory that leave it in order leave the store in order. -/
theorem GoodStore.on (h : GoodStore C s) {ks : List IoStep} (hk : ∀ k ∈ ks, k.on d = true)
    (hd : GoodDir C d ((exec ks s).dirs d)) :
    GoodStore C (exec ks s) := by
  refine ⟨fun e => ?_⟩
  by_cases he : e = d
  · subst he
    exact hd
  · exact (h.dir e).congr (exec_other hk he s)

theorem GoodStore.same (h : GoodStore C s) {ks : List IoStep} (hk : ∀ e, (exec ks s).dirs e = s.dirs e) :
    GoodStore C (exec ks s) :=
  ⟨fun e => by rw [hk e]; exact h.dir e⟩

theorem GoodStore.recover (h : GoodStore C s) (env : Env) :
    ∃ tr report, startupRecoverLocked env s = (tr, .ok report) ∧ ∀ e, (exec tr s).dirs e = s.dirs e := by
  obtain ⟨tr, report, hrun, hquiet⟩ := startupRecover_quiet (fun e _ => (h.dir e).recovers env s.root)
  exact ⟨tr, report, hrun, exec_quiet hquiet s⟩

theorem GoodStore.begin (h : GoodStore C s) (env : Env) :
    ∃ tr, beginMutation env s = (tr, .ok ()) ∧ ∀ k ∈ tr, k = .removeTemps ∨ k = .disarm :=
  beginMutation_quiet (fun e _ => (h.dir e).recovers env s.root)

/-! ## Generations -/

theorem nextGeneration_le_succ {cs : List ChunkMeta} {B : Nat} (h : ∀ c ∈ cs, c.generation ≤ B) :
    nextGeneration cs ≤ B + 1 := by
  have := maxGeneration_lt (b := B + 1) (by omega) (fun c hc => Nat.lt_succ_of_le (h c hc))
  unfold nextGeneration satSucc
  omega

/-- The generations of a partition are no more than `B`. -/
def KeyBound (m : SeriesMeta) (key : Text) (B : Nat) : Prop := ∀ c ∈ m.chunks, c.monthKey = key → c.generation ≤ B

theorem KeyBound.next_le {key : Text} {B : Nat} (h : KeyBound m key B) :
    nextGeneration (m.chunksForPartition key) ≤ B + 1 :=
  nextGeneration_le_succ (fun c hc => h c (mem_chunksForPartition.1 hc).1 (mem_chunksForPartition.1 hc).2)

theorem KeyBound.unsaturated {key : Text} {B : Nat} (h : KeyBound m key B) (hB : B < u32Max) : Unsaturated m key :=
  fun c hc hk => lt_of_le_of_lt (h c hc hk) hB

/-- **The name of the next chunk is free**: every file belongs to an entry, and no entry has the next generation. -/
theorem GoodSeries.fresh (h : GoodSeries C d sd m) {key name : Text} {B : Nat} (hb : KeyBound m key B)
    (hB : B < u32Max) (hk : IsKey key) (hn : NamedFor key (nextGeneration (m.chunksForPartition key)) name) :
    sd.hasFile name = false := by
  rw [← Bool.not_eq_true, hasFile_iff]
  rintro ⟨b, hmem⟩
  obtain ⟨f, hf⟩ := h.fits.filed.chunk _ hmem hn.isChunkName
  have hhas : HasChunk sd name f := ⟨by rw [← hf]; exact hmem, hn.isChunkName⟩
  obtain ⟨c, hc, hp⟩ := h.exact name f hhas
  obtain ⟨n', f', rows, hf', ho, he⟩ := h.fits.tracked c hc
  obtain rfl : name = n' := chunkRelativePath_inj (hp.symm.trans he.path)
  obtain ⟨hkey, hgen⟩ := ho.named.unique ho.isKey hk hn
  have := (hb.unsaturated hB).lt_next hc hkey
  rw [he.generation] at this
  omega

/-! ## One chunk -/

section Entry

variable {t : RecordType} {u : PartitionUnit} {kept : List ChunkMeta} {key name : Text} {f : ChunkFile}
    {rows : List t.Row} {c : ChunkMeta} {B : Nat}

theorem Entered.bound (w : Entered t u sd m kept key name f rows c m') (hC : ∀ e ∈ m.chunks, e.generation ≤ C)
    (hb : KeyBound m key B) (hB : B + 1 ≤ C) :
    ∀ e ∈ m'.chunks, e.generation ≤ C := by
  intro e he
  rcases w.mem.1 he with he | rfl
  · exact hC e (w.kept_sublist.subset he)
  · rw [w.laid.generation]
    exact le_trans hb.next_le hB

/-- **A write of one chunk leaves the series in order.** -/
theorem EntryWrite.good (w : EntryWrite env d t u (s.dirs d) m m' key rows) (h : GoodSeries C d (s.dirs d) m)
    (ht : m.recordType = t) (hu : m.unit = u) (hb : KeyBound m key B) (hB : B + 1 ≤ C) (hsat : B < u32Max)
    (hfull : ∀ d path, env.removeFails d path = false) :
    ((exec w.steps s).dirs d).manifest = .current m' ∧ GoodSeries C d ((exec w.steps s).dirs d) m' := by
  have hok := w.seriesOk h.fits ht hu (w.final h.fits)
  exact ⟨hok.manifest_eq, hok.toFits, w.exact h.fits h.exact (hfull d),
    w.entered.tidy h.fits h.tidy (hb.unsaturated hsat), w.entered.bound h.bound hb hB,
      w.described h.fits ht h.described (hfull d)⟩

end Entry

/-! ## A write to one partition -/

/-- What a write to a partition leaves: a store in order, in which the entries of other partitions are old ones. -/
structure Advanced (C : Nat) (d : Dir) (key : Text) (s s' : Store) : Prop where
  good : GoodStore C s'
  head : ∀ m, (s.dirs d).manifest = .current m → ∃ m', (s'.dirs d).manifest = .current m' ∧ m.SameHead m'
  others : ∀ m', (s'.dirs d).manifest = .current m' → ∀ c ∈ m'.chunks, c.monthKey ≠ key →
    ∃ m, (s.dirs d).manifest = .current m ∧ c ∈ m.chunks

theorem Advanced.of_same {s' : Store} (hg : GoodStore C s') (hs : SameContent (s.dirs d) (s'.dirs d)) (key : Text) :
    Advanced C d key s s' where
  good := hg
  head m hm := ⟨m, hs.manifest.trans hm, rfl⟩
  others m' hm' _ hc _ := ⟨m', hs.manifest.symm.trans hm', hc⟩

theorem Refused.advanced {α : Type} {r : List IoStep × Except FastKError α} (h : Refused r) (hg : GoodStore C s)
    (d : Dir) (key : Text) : Advanced C d key s (exec r.1 s) :=
  .of_same (hg.calm h.2) (exec_calm h.2 s d) key

theorem Advanced.trans {s' s'' : Store} {key : Text} (h : Advanced C d key s s') (h' : Advanced C d key s' s'') :
    Advanced C d key s s'' where
  good := h'.good
  head m hm := by
    obtain ⟨m1, hm1, hh1⟩ := h.head m hm
    obtain ⟨m2, hm2, hh2⟩ := h'.head m1 hm1
    refine ⟨m2, hm2, ?_⟩
    rw [SeriesMeta.SameHead] at hh1 hh2 ⊢
    rw [hh2, hh1]
  others m' hm' c hc hne := by
    obtain ⟨m1, hm1, hc1⟩ := h'.others m' hm' c hc hne
    exact h.others m1 hm1 c hc1 hne

/-- The whole trace of a write that ends by clearing the marker. -/
theorem exec_disarm_dirs (ks : List IoStep) (s : Store) (e : Dir) :
    (exec (ks ++ [.disarm]) s).dirs e = (exec ks s).dirs e := by
  rw [exec_append, exec_cons, exec_nil, apply_dirs]
  rfl

theorem on_append_disarm {ks : List IoStep} (h : ∀ k ∈ ks, k.on d = true) : ∀ k ∈ ks ++ [.disarm], k.on d = true := by
  intro k hk
  rcases List.mem_append.1 hk with hk | hk
  · exact h k hk
  · rw [List.mem_singleton.1 hk]
    rfl

/-- **A write of one chunk advances its partition.** -/
theorem EntryWrite.advanced {t : RecordType} {u : PartitionUnit} {key : Text} {rows : List t.Row} {B : Nat}
    (w : EntryWrite env d t u (s.dirs d) m m' key rows) (hg : GoodStore C s) (h : GoodSeries C d (s.dirs d) m)
    (hbase : (s.dirs d).manifest = .current m ∨ m.chunks = [] ∧ (s.dirs d).manifest = .missing)
    (ht : m.recordType = t) (hu : m.unit = u) (hb : KeyBound m key B) (hB : B + 1 ≤ C) (hsat : B < u32Max)
    (hfull : ∀ d path, env.removeFails d path = false) :
    Advanced C d key s (exec w.steps s) ∧ ((exec w.steps s).dirs d).manifest = .current m' := by
  obtain ⟨hm', hgood⟩ := w.good h ht hu hb hB hsat hfull
  refine ⟨⟨hg.on w.steps_on (.series hm' hgood), fun m0 hm0 => ?_, fun m0 hm0 c hc hne => ?_⟩, hm'⟩
  · rcases hbase with hcur | ⟨-, hmiss⟩
    · obtain rfl := ManifestFile.current.inj (hcur.symm.trans hm0)
      exact ⟨m', hm', w.entered.head⟩
    · rw [hmiss] at hm0
      cases hm0
  · obtain rfl := ManifestFile.current.inj (hm'.symm.trans hm0)
    have hold : c ∈ m.chunks := by
      rcases w.entered.mem.1 hc with hk | rfl
      · exact w.entered.kept_sublist.subset hk
      · exact absurd w.entered.laid.monthKey hne
    rcases hbase with hcur | ⟨hnil, -⟩
    · exact ⟨m, hcur, hold⟩
    · rw [hnil] at hold
      cases hold

theorem Advanced.disarm {ks : List IoStep} {key : Text} (h : Advanced C d key s (exec ks s)) :
    Advanced C d key s (exec (ks ++ [.disarm]) s) where
  good := ⟨fun e => by rw [exec_disarm_dirs]; exact h.good.dir e⟩
  head m hm := by
    rw [exec_disarm_dirs]
    exact h.head m hm
  others m' hm' := by
    rw [exec_disarm_dirs] at hm'
    exact h.others m' hm'

/-! ## Scalar writes -/

section Scalar

variable {key : ScalarSeriesKey} {timeframeMs : Int} {records : List ScalarRecord} {blockSize B : Nat}
    {cached : Option SeriesMeta}

theorem goodSeries_build {key : ScalarSeriesKey} (hb : key.isBlank = false) (hf : sd.files = [])
    (now timeframeMs : Int) :
    GoodSeries C key.dir sd (buildScalarMeta now key timeframeMs) where
  fits := fits_build hb hf now timeframeMs
  exact n g hg := by
    have := hg.1
    rw [hf] at this
    cases this
  tidy := tidy_of_no_chunks rfl rfl
  bound c hc := by cases hc
  described := described_nil hf rfl

/-- What a scalar write starts from is in order. -/
theorem ScalarReady.good (hr : ScalarReady key cached (s.dirs key.dir)) (hg : GoodStore C s) {now : Int}
    (hm : scalarManifest now key timeframeMs cached (s.dirs key.dir) = .ok m) :
    GoodSeries C key.dir (s.dirs key.dir) m ∧
      ((s.dirs key.dir).manifest = .current m ∨ m.chunks = [] ∧ (s.dirs key.dir).manifest = .missing) := by
  cases hr with
  | new hmiss hf hb hc =>
    rw [scalarManifest_new _ _ _ hmiss] at hm
    obtain rfl := Except.ok.inj hm
    exact ⟨goodSeries_build hb hf now timeframeMs, .inr ⟨rfl, hmiss⟩⟩
  | series h ht hc =>
    rw [scalarManifest_series h hc] at hm
    split at hm
    · cases hm
    · obtain rfl := Except.ok.inj hm
      exact ⟨(hg.dir key.dir).of_current h.manifest_eq, .inl h.manifest_eq⟩

/-- The bound on the generations of the month that is written to. -/
def MonthBound (sd : SeriesDir) (ts : Int) (B : Nat) : Prop := ∀ m month, sd.manifest = .current m →
    monthKey ts = .ok month → KeyBound m month B

theorem MonthBound.keyBound {ts : Int} {month : Text} (hb : MonthBound sd ts B) (hmonth : monthKey ts = .ok month)
    (hbase : sd.manifest = .current m ∨ m.chunks = [] ∧ sd.manifest = .missing) : KeyBound m month B := by
  rcases hbase with hcur | ⟨hnil, -⟩
  · exact hb m month hcur hmonth
  · intro c hc
    rw [hnil] at hc
    cases hc

/-- What a write to the month of `ts` leaves; `callKey` is the name under which the call caches its manifest. -/
structure MonthAdvanced (C : Nat) (d : Dir) (callKey : Text) (ts : Int) (s : Store)
    (r : List IoStep × Except FastKError SeriesMeta) : Prop where
  advanced : ∀ month, monthKey ts = .ok month → Advanced C d month s (exec r.1 s)
  good : GoodStore C (exec r.1 s)
  result : ∀ m m0, (s.dirs d).manifest = .current m → r.2 = .ok m0 →
    ∃ m', ((exec r.1 s).dirs d).manifest = .current m' ∧
    m0 = refreshed callKey m m'

theorem Refused.monthAdvanced {r : List IoStep × Except FastKError SeriesMeta} (h : Refused r) (hg : GoodStore C s)
    (d : Dir) (callKey : Text) (ts : Int) :
    MonthAdvanced C d callKey ts s r where
  advanced month _ := h.advanced hg d month
  good := hg.calm h.2
  result m m0 _ hres := by
    obtain ⟨e, he⟩ := h.1
    rw [he] at hres
    cases hres

theorem ScalarWritten.monthAdvanced {month : Text} {r : List IoStep × Except FastKError SeriesMeta} {ts : Int}
    (h : ScalarWritten env key s m month records r) (hg : GoodStore C s)
    (hm : GoodSeries C key.dir (s.dirs key.dir) m) (ht : m.recordType = .scalar)
    (hbase : (s.dirs key.dir).manifest = .current m ∨ m.chunks = [] ∧ (s.dirs key.dir).manifest = .missing)
    (hmonth : monthKey ts = .ok month) (hb : MonthBound (s.dirs key.dir) ts B) (hB : B + 1 ≤ C) (hsat : B < u32Max)
    (hfull : ∀ d path, env.removeFails d path = false) :
    MonthAdvanced C key.dir (seriesCacheKey key.symbol key.category key.name) ts s r := by
  obtain ⟨m', w, -, rfl⟩ := h
  obtain ⟨hadv, hm'⟩ :=
    w.advanced hg hm hbase ht (hm.fits.head.unit_month (.inr ht)) (hb.keyBound hmonth hbase) hB hsat hfull
  refine ⟨fun month' hmonth' => ?_, hadv.disarm.good, fun m1 m0 hm1 hres => ?_⟩
  · obtain rfl : month' = month := Except.ok.inj (hmonth'.symm.trans hmonth)
    exact hadv.disarm
  · obtain rfl := Except.ok.inj hres
    have hcur : (s.dirs key.dir).manifest = .current m := by
      rcases hbase with hcur | ⟨-, hmiss⟩
      · exact hcur
      · rw [hmiss] at hm1
        cases hm1
    obtain rfl := ManifestFile.current.inj (hcur.symm.trans hm1)
    exact ⟨m', by rw [exec_disarm_dirs]; exact hm', rfl⟩

theorem putScalarChunkLocked_good (hg : GoodStore C s) (hr : ScalarReady key cached (s.dirs key.dir))
    (hb : MonthBound (s.dirs key.dir) (firstTs records) B) (hB : B + 1 ≤ C) (hsat : B < u32Max)
    (hfull : ∀ d path, env.removeFails d path = false) :
    MonthAdvanced C key.dir (seriesCacheKey key.symbol key.category key.name)
    (firstTs records) s (putScalarChunkLocked env key timeframeMs records blockSize cached s) := by
  rcases putScalarChunkLocked_run env timeframeMs records blockSize (fun m hm => hr.fits hm) with
    href | ⟨m, month, hm, hmonth, hw⟩
  · exact href.monthAdvanced hg _ _ _
  · obtain ⟨hgm, hbase⟩ := hr.good hg hm
    exact hw.monthAdvanced hg hgm (hr.fits hm).2 hbase hmonth hb hB hsat hfull

theorem appendScalarChunkLocked_good (hg : GoodStore C s) (hr : ScalarReady key cached (s.dirs key.dir))
    (hb : MonthBound (s.dirs key.dir) (firstTs records) B) (hB : B + 1 ≤ C) (hsat : B < u32Max)
    (hfull : ∀ d path, env.removeFails d path = false) :
    MonthAdvanced C key.dir (seriesCacheKey key.symbol key.category key.name)
    (firstTs records) s (appendScalarChunkLocked env key timeframeMs records blockSize cached s) := by
  rcases appendScalarChunkLocked_run env timeframeMs records blockSize hr
    (fun m hm => ((hg.dir key.dir).of_current hm).readable) with href | ⟨m, month, hm, hmonth, -, hw⟩
  · exact href.monthAdvanced hg _ _ _
  · obtain ⟨hgm, hbase⟩ := hr.good hg hm
    exact hw.monthAdvanced hg hgm (hr.fits hm).2 hbase hmonth hb hB hsat hfull

end Scalar

/-! ## Merges and kline writes -/

section Kline

variable {policy : CompactionPolicy} {symbol timeframe key : Text} {records : List KlineRecord} {B : Nat}
    {cached : Option SeriesMeta}

theorem IsKey.of_entry (h : Fits d sd m) {c : ChunkMeta} (hc : c ∈ m.chunks) : IsKey c.monthKey := by
  obtain ⟨n, f, rows, -, ho, -⟩ := h.tracked c hc
  exact ho.isKey

/-- A chunk entered into a marked manifest has entered the unmarked one as well. -/
theorem Entered.unmark {name : Text} {f : ChunkFile} {rows : List KlineRecord} {c : ChunkMeta}
    (w : Entered .kline .month sd (markMerging key m) (otherChunks m key) key name f rows c m') :
    Entered .kline .month sd m (otherChunks m key) key name f rows c m' where
  laid := { w.laid with
    chunkId := w.laid.chunkId.trans (nextChunkId_marked key m)
    generation := w.laid.generation.trans (nextGeneration_marked key key m)
    stamped := w.laid.stamped.of_sameHead (markMerging_sameHead key m) }
  head := w.head
  chunks := w.chunks
  place := .inl rfl
  active := by
    rcases w.active with h | ⟨hall, h⟩ | h
    · exact .inl h
    · refine .inr (.inl ⟨?_, h⟩)
      refine (List.Sublist.eq_of_length List.filter_sublist ?_ : otherChunks m key = m.chunks)
      have hlen := congrArg List.length hall
      rwa [markMerging_chunks, List.length_map] at hlen
    · exact .inr (.inr h)

theorem exact_marked (h : Exact sd m) (key : Text) : Exact sd (markMerging key m) := by
  intro n f hf
  obtain ⟨c, hc, hp⟩ := h n f hf
  refine ⟨marked key c, ?_, (sameChunk_marked key c).relativePath.trans hp⟩
  rw [markMerging_chunks]
  exact List.mem_map_of_mem hc

theorem described_marked (h : Described sd m) (key : Text) : Described sd (markMerging key m) := by
  have hmem : ∀ c ∈ (markMerging key m).chunks, ∃ e ∈ m.chunks, SameChunk e c := by
    intro c hc
    rw [markMerging_chunks] at hc
    obtain ⟨e, he, rfl⟩ := List.mem_map.1 hc
    exact ⟨e, he, sameChunk_marked key e⟩
  refine ⟨fun c hc => ?_, fun ht => ⟨(h.plain ht).1, fun c hc => ?_⟩, fun ht c hc => ?_, fun ht p hp hside => ?_⟩
  · obtain ⟨e, he, hs⟩ := hmem c hc
    obtain ⟨name, f, hf, hp, hst⟩ := h.stamped e he
    refine ⟨name, f, hf, hs.relativePath.trans hp, hst.seriesId, hst.timeframeMs, ?_⟩
    have := congrArg (fun e : ChunkMeta => { e with state := c.state }) hst.scanned
    rw [hs]
    exact this
  · obtain ⟨e, he, hs⟩ := hmem c hc
    rw [hs]
    exact (h.plain ht).2 e he
  · obtain ⟨e, he, hs⟩ := hmem c hc
    rw [hs]
    exact h.indexed ht e he
  · obtain ⟨e, he, hpath⟩ := h.covered ht p hp hside
    refine ⟨marked key e, ?_, ?_⟩
    · rw [markMerging_chunks]
      exact List.mem_map_of_mem he
    · rw [sameChunk_marked key e]
      exact hpath

/-- Whether a manifest fits does not depend on the one that is there. -/
theorem Fits.under (h : Fits d sd m) (file : ManifestFile) : Fits d { sd with manifest := file } m :=
  ⟨h.valid, h.head, ⟨h.filed.congr rfl (fun hd => hd), h.files.file⟩, h.tracked⟩

/-- In a series in order the name of the merged chunk is free. -/
theorem GoodSeries.not_blocked {r : List IoStep × Except FastKError SeriesMeta} (h : GoodSeries C d (s.dirs d) m)
    (hb : KeyBound m key B) (hsat : B < u32Max) : ¬ MergeBlocked env d s m key r := by
  rintro ⟨hne, hfile, -⟩
  obtain ⟨c, hc⟩ := List.exists_mem_of_ne_nil _ hne
  obtain ⟨hcm, hck⟩ := mem_chunksForPartition.1 hc
  have hname : NamedFor key (nextGeneration (m.chunksForPartition key)) (mergedName m key) := .inr (.inr rfl)
  rw [h.fresh hb hsat (hck ▸ IsKey.of_entry h.fits hcm) hname] at hfile
  cases hfile

/-- **A merge of a series in order answers.** -/
theorem mergeKlineMonthLocked_answers (env : Env) (key : Text) (h : GoodSeries C d (s.dirs d) m)
    (hm : (s.dirs d).manifest = .current m) (ht : m.recordType = .kline) (hd : klineSeriesDir symbol timeframe = d)
    (hb : KeyBound m key B) (hsat : B < u32Max) :
    ∃ m', (mergeKlineMonthLocked env symbol timeframe key m).result s = .ok m' := by
  unfold Prog.result
  rcases mergeKlineMonthLocked_run env key (h.seriesOk hm) ht hd with ⟨-, hrun⟩ | ⟨⟨e, he⟩, -⟩ | hblock |
    ⟨-, m', w, -, -, -, -, hrun⟩
  · exact ⟨m, by rw [hrun]⟩
  · rw [checkTransitions_ok (fun c hc => h.tidy.settled c (mem_chunksForPartition.1 hc).1)] at he
    cases he
  · exact absurd hblock (h.not_blocked hb hsat)
  · exact ⟨m', by rw [hrun]⟩

/-- **A merge leaves the series in order.** -/
theorem mergeKlineMonthLocked_good (key : Text) (hg : GoodStore C s) (hm : (s.dirs d).manifest = .current m)
    (ht : m.recordType = .kline) (hd : klineSeriesDir symbol timeframe = d) (hb : KeyBound m key B)
    (hB : 1 < (m.chunksForPartition key).length → B + 1 ≤ C) (hsat : B < u32Max)
    (hfull : ∀ d path, env.removeFails d path = false) :
    Advanced C d key s (exec (mergeKlineMonthLocked env symbol timeframe key m s).1 s) ∧
      ∀ m0, (mergeKlineMonthLocked env symbol timeframe key m s).2 = .ok m0 →
        ((exec (mergeKlineMonthLocked env symbol timeframe key m s).1 s).dirs d).manifest = .current m0 := by
  have hgm := (hg.dir d).of_current hm
  have hok := hgm.seriesOk hm
  rcases mergeKlineMonthLocked_run env key hok ht hd with ⟨-, hrun⟩ | ⟨-, href⟩ | hblock |
    ⟨hlen, m', w, hkept, -, -, -, hrun⟩
  · rw [hrun]
    refine ⟨.of_same hg (.refl _) key, fun m0 hres => ?_⟩
    obtain rfl := Except.ok.inj hres
    exact hm
  · refine ⟨href.advanced hg d key, fun m0 hres => ?_⟩
    obtain ⟨e, he⟩ := href.1
    rw [he] at hres
    cases hres
  · exact absurd hblock (hgm.not_blocked hb hsat)
  · rw [hrun]
    have hmark := hok.markedStore env key
    have hu := hmark.head.unit_month (.inl ht)
    have hsd := markedStore_dir env d key m s
    have hexm : Exact ((markedStore env d key m s).dirs d) (markMerging key m) := by
      rw [hsd]
      exact exact_marked hgm.exact key
    have hdesc : Described ((markedStore env d key m s).dirs d) (markMerging key m) := by
      rw [hsd]
      exact (described_marked hgm.described key).congr rfl
    have hent := w.entered
    rw [hkept] at hent
    have hold : Fits d ((markedStore env d key m s).dirs d) m := by
      rw [hsd]
      exact hgm.fits.under _
    have hstate : exec (saveSteps env d (markMerging key m) ++ w.steps) s =
      exec w.steps (markedStore env d key m s) := exec_append _ _ _
    have hfinal := w.seriesOk hmark.toFits ht hu (w.final hmark.toFits)
    have hgood : GoodSeries C d ((exec w.steps (markedStore env d key m s)).dirs d) m' :=
      ⟨hfinal.toFits, w.exact hmark.toFits hexm (hfull d), hent.unmark.tidy hold hgm.tidy (hb.unsaturated hsat),
        hent.unmark.bound hgm.bound hb (hB hlen), w.described hmark.toFits ht hdesc (hfull d)⟩
    have hon : ∀ k ∈ saveSteps env d (markMerging key m) ++ w.steps, k.on d = true := by
      intro k hk
      rcases List.mem_append.1 hk with hk | hk
      · exact saveSteps_on _ k hk
      · exact w.steps_on k hk
    refine ⟨⟨hg.on hon ?_, fun m0 hm0 => ?_, fun m0 hm0 c hc hne => ?_⟩, fun m0 hres => ?_⟩
    · rw [hstate]
      exact .series hfinal.manifest_eq hgood
    · obtain rfl := ManifestFile.current.inj (hm.symm.trans hm0)
      rw [hstate]
      exact ⟨m', hfinal.manifest_eq, hent.unmark.head⟩
    · rw [hstate] at hm0
      obtain rfl := ManifestFile.current.inj (hfinal.manifest_eq.symm.trans hm0)
      rcases hent.mem.1 hc with hk | rfl
      · exact ⟨m, hm, (mem_otherChunks.1 hk).1⟩
      · exact absurd hent.laid.monthKey hne
    · obtain rfl := Except.ok.inj hres
      rw [hstate]
      exact hfinal.manifest_eq

/-- What follows a step that has left the partition's generations below `B + 1` may still use the next one. -/
theorem EntryWrite.keyBound {t : RecordType} {u : PartitionUnit} {rows : List t.Row}
    (w : EntryWrite env d t u sd m m' key rows) (hb : KeyBound m key B) : KeyBound m' key (B + 1) := by
  intro e he hk
  rcases w.entered.mem.1 he with he | rfl
  · exact le_trans (hb e (w.entered.kept_sublist.subset he) hk) (Nat.le_succ B)
  · rw [w.entered.laid.generation]
    exact hb.next_le

/-- The month of a first chunk has no other. -/
theorem Entered.length_first {sd : SeriesDir} {t : RecordType} {u : PartitionUnit} {kept : List ChunkMeta}
    {name : Text} {f : ChunkFile} {rows : List t.Row} {c : ChunkMeta} (w : Entered t u sd m kept key name f rows c m')
    (hkept : kept = m.chunks) (hnil : m.chunksForPartition key = []) :
    (m'.chunksForPartition key).length ≤ 1 := by
  have hperm := (sortByKey_perm ChunkMeta.startTs (kept ++ [c])).filter (fun e => decide (e.monthKey = key))
  unfold SeriesMeta.chunksForPartition at hnil ⊢
  rw [w.chunks, hperm.length_eq, hkept, List.filter_append, hnil]
  exact List.length_filter_le _ _

/-- **A kline write leaves the series in order**, with or without the merge that follows it. -/
theorem putKlineChunkLocked_good (hg : GoodStore C s) (hm : (s.dirs d).manifest = .current m)
    (ht : m.recordType = .kline) (hd : klineSeriesDir symbol timeframe = d) (hc : cached = none ∨ cached = some m)
    (hb : MonthBound (s.dirs d) (firstTs records) B) (hB : B + 1 ≤ C)
    (hnext : ∀ month, monthKey (firstTs records) = .ok month → m.chunksForPartition month ≠ [] → B + 2 ≤ C)
    (hsat : B + 1 < u32Max) (hfull : ∀ d path, env.removeFails d path = false) :
    MonthAdvanced C d (seriesCacheKey symbol klineCategory timeframe) (firstTs records) s
      (putKlineChunkLocked env policy symbol timeframe records cached s) := by
  have hgm := (hg.dir d).of_current hm
  rcases putKlineChunkLocked_run env policy records (hgm.seriesOk hm) ht hd hc with href | ⟨⟨key, m', w, hkey,
    hkept, hrun⟩⟩
  · exact href.monthAdvanced hg _ _ _
  · have hkb := hb m key hm hkey
    obtain ⟨hadv, hm'⟩ :=
      w.advanced hg hgm (.inl hm) ht (hgm.fits.head.unit_month (.inl ht)) hkb (by omega) (by omega) hfull
    have hthis : ∀ {ks : List IoStep}, Advanced C d key s (exec ks s) →
      ∀ month, monthKey (firstTs records) = .ok month →
        Advanced C d month s (exec ks s) := by
      intro ks hks month hmonth
      obtain rfl : month = key := Except.ok.inj (hmonth.symm.trans hkey)
      exact hks
    rcases hrun with ⟨-, hrun⟩ | ⟨-, hmerge⟩
    · rw [hrun]
      refine ⟨hthis hadv.disarm, hadv.disarm.good, fun m1 m0 hm1 hres => ?_⟩
      obtain rfl := ManifestFile.current.inj (hm.symm.trans hm1)
      obtain rfl := Except.ok.inj hres
      exact ⟨m', by rw [exec_disarm_dirs]; exact hm', rfl⟩
    · -- the merge starts where the write has ended, and a month of one chunk is not merged
      have hroom : 1 < (m'.chunksForPartition key).length → B + 1 + 1 ≤ C := by
        intro hlen
        refine hnext key hkey (fun hnil => ?_)
        have := w.entered.length_first hkept hnil
        omega
      obtain ⟨hmadv, hmres⟩ :=
        mergeKlineMonthLocked_good key hadv.good hm' (w.entered.head.recordType.trans ht) hd
        (w.keyBound hkb) hroom hsat hfull
      have hboth := hadv.trans hmadv
      rw [← exec_append] at hboth
      rcases hmerge with ⟨e, -, hrun⟩ | ⟨m'', hres'', hrun⟩
      · rw [hrun]
        exact ⟨hthis hboth, hboth.good, fun _ _ _ hres => by cases hres⟩
      · rw [hrun]
        refine ⟨hthis hboth.disarm, hboth.disarm.good, fun m1 m0 hm1 hres => ?_⟩
        obtain rfl := ManifestFile.current.inj (hm.symm.trans hm1)
        obtain rfl := Except.ok.inj hres
        refine ⟨m'', ?_, rfl⟩
        rw [exec_disarm_dirs, exec_append]
        exact hmres m'' hres''

end Kline

/-! ## Tick writes -/

section Tick

variable {k : FixedKind} {symbol channel : Text} {records : List k.Row} {B : Nat}

theorem Grows.bound {t : RecordType} {u : PartitionUnit} {es : List (TickEntry t)} (g : Grows t u sd m es m')
    (hkeys : es.Pairwise (fun a b => a.key ≠ b.key)) (hb : ∀ c ∈ m.chunks, c.generation ≤ B) :
    ∀ c ∈ m'.chunks, c.generation ≤ B + 1 := by
  intro c hc
  rcases g.mem.1 hc with hc | ⟨e, he, rfl⟩
  · exact le_trans (hb c hc) (Nat.le_succ B)
  · rw [g.generation hkeys he]
    exact nextGeneration_le_succ (fun c hc => hb c (mem_chunksForPartition.1 hc).1)

/-- In a series in order no piece finds its name taken. -/
theorem GoodSeries.piecesFree {u : PartitionUnit} {batches : List (Text × List k.Row)} (h : GoodSeries B d sd m)
    (hB : B < u32Max) (ho : Ordered records) (hlen : records.length < 2 ^ 56)
    (hsplit : splitFixedRecordsByPartition records u = .ok batches) : PiecesFree (t :=
  k.recordType) sd m batches := by
  obtain ⟨hflat, hpiece, -⟩ := splitFixedRecordsByPartition_spec hsplit ho
  intro b hb
  refine ⟨?_, fun name hn => ?_⟩
  · have hsub : b.2.Sublist records := by
      rw [← hflat, List.flatMap_def]
      exact List.sublist_flatten_of_mem (List.mem_map_of_mem hb)
    exact lt_of_le_of_lt hsub.length_le hlen
  · obtain ⟨r, hr⟩ := List.exists_mem_of_ne_nil _ (hpiece b hb).1
    exact h.fresh (fun c hc _ => h.bound c hc) hB (isKey_of_partitionKey ((hpiece b hb).2 r hr)) hn

theorem FixedKind.recordType_ne_scalar (k : FixedKind) : k.recordType ≠ .scalar := by cases k <;> decide

/-- **A tick write leaves the series in order.** -/
theorem putFixedLocked_good (hg : GoodStore B s) (hB : B < u32Max)
    (hm : (s.dirs (k.dir symbol channel)).manifest = .current m) (ho : Ordered records)
    (hlen : records.length < 2 ^ 56) (hfull : ∀ d path, env.removeFails d path = false) :
    GoodStore (B + 1) (exec (putFixedLocked env k symbol channel records s).1 s) := by
  have hgm := (hg.dir (k.dir symbol channel)).of_current hm
  rcases putFixedLocked_run env (hgm.seriesOk hm) hgm.readable ho with href | ⟨⟨m', es, g, hsplit, hkeys, ht,
    hrun⟩⟩ | ⟨-, batches, hsplit, hnot⟩
  · exact (hg.calm href.2).mono (Nat.le_succ B)
  · rw [hrun]
    have hplan := g.plan (d := k.dir symbol channel) env
    have hcom := (hplan.phases env hgm.fits.filed).1
    have hold : ∀ n f, HasChunk (s.dirs (k.dir symbol channel)) n f →
      ∃ c ∈ m'.chunks, c.relativePath = chunkRelativePath n := by
      intro n f hf
      obtain ⟨c, hc, hp⟩ := hgm.exact n f hf
      exact ⟨c, g.mem.2 (.inl hc), hp⟩
    have hexact := hplan.exact hgm.fits.filed (hfull _) (fun n f hf => .inl (hold n f hf))
    have htidy := g.tidy hgm.fits ht rfl hkeys hgm.tidy (fun e _ c hc _ => lt_of_le_of_lt (hgm.bound c hc) hB)
    have hpub : ∀ p ∈ ((exec (commitSteps env (k.dir symbol channel) (.arm :: .makeChunksDir (k.dir symbol channel) ::
        tickSteps env (k.dir symbol channel) es) m' []) s).dirs (k.dir symbol channel)).files,
        p ∈ (s.dirs (k.dir symbol channel)).files ∨ isChunkName p.1 = true := by
      intro p hp
      refine (mem_files_exec hp).imp_right (fun ⟨temp, hpub⟩ => ?_)
      have hstep : IoStep.publish (k.dir symbol channel) p.1 temp p.2 ∈ tickSteps env (k.dir symbol channel) es := by
        simpa [commitSteps, saveSteps, removeSteps] using hpub
      obtain ⟨e, he, hpe⟩ := List.mem_flatMap.1 hstep
      rw [publish_writeSteps hpe]
      exact (g.laid he).1.named.isChunkName
    refine (hg.mono (Nat.le_succ B)).on (on_append_disarm (commitSteps_on hplan.lays)) ?_
    rw [exec_disarm_dirs]
    exact .series hcom.manifest ⟨g.fits hgm.fits ht rfl hcom.toSupplied, hexact, htidy, g.bound hkeys hgm.bound,
      g.described hgm.described ht k.recordType_ne_scalar hcom.toSupplied hpub⟩
  · exact absurd (hgm.piecesFree hB ho hlen hsplit) hnot

end Tick

end Good

end FastK
