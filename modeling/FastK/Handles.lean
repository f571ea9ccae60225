import FastK.Merges
/-!
# The handle that has merged

A handle caches the manifest it has loaded under the names of the call, and the one it has saved under the names of the
series; its process does so for all its handles, under the path that the names give.  After a merge both read the series
as the manifest on disk has it where the two are the same; under other names for the same directory they go on with the
manifest before the merge, whose chunks are removed.  Merges leave what is read alone exactly where there is nothing to
merge or the names agree (`compaction_keeps_reads_iff`).  The latest rows that are read are the last ones stored
(`latest_rows_exact`).
-/
namespace FastK

open Journal Spans

/-! ## Reading with an old manifest -/

section Stale

variable {env : Env} {d : Dir} {key : Text} {m m' : SeriesMeta} {s : Store} {sd sd' : SeriesDir} {threads : Nat}

/-- A chunk file that no entry names is not there. -/
theorem Exact.lookup_eq_none (hex : Exact sd m) (hw : WellFiled sd) {n : Text} (hn : isChunkName n = true)
    (hno : ∀ c ∈ m.chunks, c.relativePath ≠ chunkRelativePath n) : sd.lookup (chunkRelativePath n) = none := by
  cases hl : sd.lookup (chunkRelativePath n) with
  | none => rfl
  | some body =>
    unfold SeriesDir.lookup at hl
    obtain ⟨p, hp, rfl⟩ := Option.map_eq_some_iff.1 hl
    have hname : p.1 = n := chunkRelativePath_inj (by simpa using List.find?_some hp)
    obtain ⟨f, hf⟩ := hw.chunk p (List.mem_of_find?_eq_some hp) (by rw [hname]; exact hn)
    obtain ⟨c, hc, hpath⟩ := hex n f ⟨by rw [← hname, ← hf]; exact List.mem_of_find?_eq_some hp, hn⟩
    exact absurd hpath (hno c hc)

/-- A point read in a chunk whose file is gone fails. -/
theorem getAtPrepared_missing {R : Type} [FixedRecord R] (h : SpanChain m.chunks ∧ SpansProper m.chunks) (t : SpanTexts)
    (validate : ChunkHeader → Result Unit) {c : ChunkMeta} (hc : c ∈ m.chunks) (hl : sd.lookup c.relativePath = none) :
    ∃ e, getAtPrepared (R := R) t validate sd m c.startTs = .error e := by
  obtain ⟨hchain, hproper⟩ := h
  unfold getAtPrepared
  rcases SeriesMeta.findChunkForTs_spec hchain hproper c.startTs with ⟨i, e, hi, he, hcov⟩ | ⟨-, hall⟩
  · have hmem := List.mem_of_getElem? he
    have hcc := hproper c hc
    obtain rfl : e = c := hchain.apart.eq_of_meets hmem hc ⟨by omega, by omega⟩
    rw [hi]
    simp only
    rw [he]
    simp only
    unfold withChunk SeriesDir.openChunk
    rw [hl]
    exact ⟨_, rfl⟩
  · exact absurd ⟨le_refl _, hproper c hc⟩ (hall c hc)

/-- The old manifest of a write that has kept every entry still fits. -/
theorem EntryWrite.fits_old {t : RecordType} {u : PartitionUnit} {rows : List t.Row}
    (w : EntryWrite env d t u (s.dirs d) m m' key rows) (h : Fits d (s.dirs d) m) (ht : m.recordType = t)
    (hu : m.unit = u) (hkept : w.kept = m.chunks) : Fits d ((exec w.steps s).dirs d) m := by
  have hcom := w.final h
  have hfiles := (w.entered.fits h ht hu hcom.toSupplied).files
  rw [w.entered.head.recordType, w.entered.head.unit] at hfiles
  refine ⟨h.valid, h.head, hfiles, fun e he => (h.tracked e he).mono (fun n g hg hp => ?_)⟩
  exact hcom.kept n g hg ⟨e, w.entered.mem.2 (.inl (hkept ▸ he)), hp⟩

theorem tailSpans_of_manifest (file : ManifestFile) : ∀ (cs : List ChunkMeta)
    (n : Nat), tailSpans { sd with manifest := file } cs n = tailSpans sd cs n
  | [], _ => rfl
  | c :: cs, n => by
    unfold tailSpans
    simp only [tailSpans_of_manifest file cs]
    rfl

/-- What is read with a manifest depends on the files alone. -/
theorem KlineReads.of_manifest {file : ManifestFile} {rows : List KlineRecord}
    (h : KlineReads threads { sd with manifest := file } m rows) :
    KlineReads threads sd m rows := by
  refine ⟨h.point, h.range, fun n => ?_⟩
  have := h.latest n
  unfold getKlineLatestNPrepared at this ⊢
  rwa [tailSpans_of_manifest] at this

/-- A merge that has replaced the chunks of a month has removed their files. -/
theorem Merged.removed (w : Merged sd sd' m m' key) (h : KlineSeries d sd m) (hex : Exact sd' m')
    (hlen : 1 < (m.chunksForPartition key).length) {c : ChunkMeta} (hc : c ∈ m.chunksForPartition key) :
    sd'.lookup c.relativePath = none := by
  have hw := (w.series h).filed
  obtain ⟨hcm, hck⟩ := mem_chunksForPartition.1 hc
  obtain ⟨n, f, rows, hf, -, he⟩ := h.tracked c hcm
  cases w with
  | same hle => omega
  | replaced _ w =>
    rw [he.path]
    refine hex.lookup_eq_none hw hf.2 (fun e hem => ?_)
    rw [← he.path]
    exact w.clears h.toFits hcm (fun hother => (mem_otherChunks.1 hother).2 hck) (List.mem_cons_self) e hem

end Stale

/-! ## Merging -/

/-- The key under which a handle caches a manifest it has saved. -/
def SeriesMeta.cacheKey (m : SeriesMeta) : Text := seriesCacheKey m.symbol m.category m.name

section Merging

variable {env : Env} {symbol timeframe key : Text} {m m' : SeriesMeta} {s : Store} {C : Nat}

theorem cachedAfter_eq (call : ScalarSeriesKey) (hh : m.SameHead m') :
    (cachedAfter call m m').handle =
      (if m.cacheKey = seriesCacheKey call.symbol call.category call.name then m' else m) ∧
    (cachedAfter call m m').process = if m.key.metaPath = call.metaPath then m' else m := by
  unfold cachedAfter refreshed SeriesMeta.cacheKey SeriesMeta.key
  rw [hh]
  exact ⟨rfl, rfl⟩

/-- What is cached is the new manifest where the names are those of the series, else the old one. -/
theorem cached_iff {P : SeriesMeta → Prop} {named kept : Prop} [Decidable named] (hnew : P m') (hold : P m ↔ kept) :
    P (if named then m' else m) ↔ named ∨ kept := by
  by_cases h : named
  · rw [if_pos h]
    exact ⟨fun _ => .inl h, fun _ => hnew⟩
  · rw [if_neg h, hold, or_iff_right h]

theorem Merged.sameHead {sd sd' : SeriesDir} (w : Merged sd sd' m m' key) : m.SameHead m' := by
  cases w with
  | same hlen hm hs => rw [hm]; rfl
  | replaced hlen w hstate hcom => exact w.head

/-- The manifest from before a merge reads a chunk that the merge has removed. -/
theorem Merged.stale_iff {threads : Nat} {d : Dir} {sd sd' : SeriesDir} {rows : List KlineRecord}
    (w : Merged sd sd' m m' key) (h : KlineSeries d sd m) (hex : Exact sd' m')
    (hreads : KlineReads threads sd' m' rows) : KlineReads threads sd' m rows ↔
      (m.chunksForPartition key).length ≤ 1 := by
  constructor
  · intro hstale
    by_contra hlen
    obtain ⟨c, hc⟩ := List.exists_mem_of_length_pos (lt_trans Nat.one_pos (not_le.1 hlen))
    obtain ⟨e, he⟩ := getAtPrepared_missing (R := KlineRecord) h.chain klineReadTexts klineValidateHeader
      (mem_chunksForPartition.1 hc).1
      (w.removed h hex (not_le.1 hlen) hc)
    have hpoint := hstale.point c.startTs
    rw [he] at hpoint
    cases hpoint
  · intro hlen
    cases w with
    | same _ heq _ =>
      rw [heq] at hreads
      exact hreads
    | replaced hlt => omega

/-- **What a merge does to reads**: with the manifest on disk one reads what there was; with what the handle, or its
process, has cached under the names of the call where these are the names of the series or there was nothing to merge;
and with the manifest from before the merge where there was nothing to merge. -/
theorem merge_reads_iff (hg : GoodStore C s) (hroom : s.HasRoom) (hfull : env.Faultless)
    (hm : (s.dirs (klineSeriesDir symbol timeframe)).manifest = .current m) (ht : m.recordType = .kline)
    (threads : Nat) (key : Text) :
    ∃ cached m', (mergeKlineMonthCached env symbol timeframe key).result s = .ok cached ∧
      (((mergeKlineMonthCached env symbol timeframe key).final s).dirs (klineSeriesDir symbol timeframe)).manifest =
        .current m' ∧
      KlineReads threads (((mergeKlineMonthCached env symbol timeframe key).final s).dirs
        (klineSeriesDir symbol timeframe)) m'
        (seriesRows .kline (s.dirs (klineSeriesDir symbol timeframe))) ∧
      (KlineReads threads (((mergeKlineMonthCached env symbol timeframe key).final s).dirs
        (klineSeriesDir symbol timeframe)) cached.handle
          (seriesRows .kline (s.dirs (klineSeriesDir symbol timeframe))) ↔
        m.cacheKey = seriesCacheKey symbol klineCategory timeframe ∨ (m.chunksForPartition key).length ≤ 1) ∧
      (KlineReads threads (((mergeKlineMonthCached env symbol timeframe key).final s).dirs
        (klineSeriesDir symbol timeframe)) cached.process
          (seriesRows .kline (s.dirs (klineSeriesDir symbol timeframe))) ↔
        m.key.metaPath = (ScalarSeriesKey.mk symbol klineCategory timeframe).metaPath ∨
          (m.chunksForPartition key).length ≤ 1) ∧
      (KlineReads threads (((mergeKlineMonthCached env symbol timeframe key).final s).dirs
        (klineSeriesDir symbol timeframe)) m
          (seriesRows .kline (s.dirs (klineSeriesDir symbol timeframe))) ↔ (m.chunksForPartition key).length ≤ 1) := by
  have hg := hg.of_room hroom
  have hk := ((hg.dir _).of_current hm).klineSeries hm ht
  obtain ⟨t, hdirs, hres, hfin⟩ := mergeKlineMonthCached_run hk.toSeriesOk (Store.idle_of_quiet env (.inr ⟨_, hg⟩)) key
  have hgt : GoodStore (u32Max - 3 + 1) t :=
    (GoodStore.mk (fun e => by rw [hdirs]; exact hg.dir e)).mono (Nat.le_succ _)
  have hmt : (t.dirs (klineSeriesDir symbol timeframe)).manifest = .current m := by rw [hdirs]; exact hm
  have hbound : KeyBound m key (u32Max - 3) := fun c hc _ => ((hg.dir _).of_current hm).bound c hc
  obtain ⟨m', hmerge⟩ :=
    mergeKlineMonthLocked_answers env key ((hgt.dir _).of_current hmt) hmt ht rfl hbound (by decide)
  have w := mergeKlineMonthLocked_merged (by rw [hdirs]; exact hk.toSeriesOk) ht rfl hmerge
  obtain ⟨hadv, hsaved⟩ := mergeKlineMonthLocked_good key hgt hmt ht rfl hbound (fun _ => by decide) (by decide) hfull
  have hm' := hsaved m' hmerge
  rw [hdirs] at w
  have hk' := w.series hk
  have hreads := hk'.klineReads hk'.kline threads
  rw [w.seriesRows hk] at hreads
  have hstale := w.stale_iff hk ((hadv.good.dir _).of_current hm').exact hreads
  obtain ⟨hhandle, hprocess⟩ := cachedAfter_eq ⟨symbol, klineCategory, timeframe⟩ w.sameHead
  refine ⟨cachedAfter ⟨symbol, klineCategory, timeframe⟩ m m', m', by rw [hres, hmerge]; rfl, ?_⟩
  rw [hfin, hhandle, hprocess]
  refine ⟨hm', hreads, ?_, ?_, hstale⟩
  · exact cached_iff (P := fun x => KlineReads threads _ x _) hreads hstale
  · exact cached_iff (P := fun x => KlineReads threads _ x _) hreads hstale

end Merging

/-! ## Putting -/

/-- The merge that the policy asks for, with what is cached under the names of the call afterwards. -/
def compactKlineChunkCached (env : Env) (policy : CompactionPolicy) (symbol timeframe : Text)
    (x : SeriesMeta × Text × SeriesMeta) : Op Cached := do
  let m' ← if mergeDue policy x.2.2 x.2.1 then mergeKlineMonthLocked env symbol timeframe x.2.1 x.2.2 else pure x.2.2
  Prog.emit .disarm
  pure (cachedAfter ⟨symbol, klineCategory, timeframe⟩ x.1 m')

/-- `put_kline_chunk`, with what is cached under the names of the call afterwards. -/
def putKlineChunkCached (env : Env) (policy : CompactionPolicy) (symbol timeframe : Text)
    (records : List KlineRecord) : Op Cached := do
  Prog.lift (validateMonthRecords records)
  beginMutation env
  let x ← writeKlineChunk env symbol timeframe records none
  compactKlineChunkCached env policy symbol timeframe x

theorem compactKlineChunk_eq (env : Env) (policy : CompactionPolicy) (symbol timeframe : Text)
    (x : SeriesMeta × Text × SeriesMeta) :
    compactKlineChunk env policy symbol timeframe x =
      (compactKlineChunkCached env policy symbol timeframe x >>= fun cached =>
        (pure cached.handle : Op SeriesMeta)) := by
  unfold compactKlineChunk compactKlineChunkCached
  split
  · simp only [Prog.bind_assoc]
    rfl
  · rfl

theorem putKlineChunk_eq (env : Env) (policy : CompactionPolicy) (symbol timeframe : Text)
    (records : List KlineRecord) :
    putKlineChunk env policy symbol timeframe records =
      (putKlineChunkCached env policy symbol timeframe records >>= fun _ => (pure () : Op Unit)) := by
  unfold putKlineChunk putKlineChunkCached
  simp only [putKlineChunkLocked_eq, compactKlineChunk_eq, Prog.bind_assoc]
  rfl

/-- The policy without the merges. -/
def CompactionPolicy.manual (policy : CompactionPolicy) : CompactionPolicy := { policy with autoMerge := false }

theorem mergeDue_manual (policy : CompactionPolicy) (m : SeriesMeta) (key : Text) :
    mergeDue policy.manual m key = false := by
  unfold mergeDue
  split <;> rfl

/-- Every read has the same answer in both directories, each with its manifest. -/
structure SameReads (threads : Nat) (sd : SeriesDir) (m : SeriesMeta) (sd' : SeriesDir) (m' : SeriesMeta) : Prop where
  point : ∀ ts, getAtPrepared (R := KlineRecord) klineReadTexts klineValidateHeader sd m ts =
    getAtPrepared klineReadTexts klineValidateHeader sd' m' ts
  range : ∀ s e, getKlineRangePrepared threads sd m s e = getKlineRangePrepared threads sd' m' s e
  latest : ∀ n, getKlineLatestNPrepared threads sd m n = getKlineLatestNPrepared threads sd' m' n

theorem KlineReads.same {threads : Nat} {sd sd' : SeriesDir} {m m' : SeriesMeta} {rows : List KlineRecord}
    (h : KlineReads threads sd m rows) (h' : KlineReads threads sd' m' rows) : SameReads threads sd m sd' m' where
  point ts := (h.point ts).trans (h'.point ts).symm
  range s e := (h.range s e).trans (h'.range s e).symm
  latest n := (h.latest n).trans (h'.latest n).symm

section Putting

variable {env : Env} {policy : CompactionPolicy} {symbol timeframe key : Text} {records : List KlineRecord}
    {m m' : SeriesMeta} {s : Store} {C : Nat}

theorem compactKlineChunk_plain (hdue : mergeDue policy m' key = false) :
    compactKlineChunkCached env policy symbol timeframe (m, key, m') s = ([.disarm],
      .ok (cachedAfter ⟨symbol, klineCategory, timeframe⟩ m m')) := by
  unfold compactKlineChunkCached
  simp only
  rw [if_neg (by simp [hdue])]
  rfl

theorem compactKlineChunk_merge {m'' : SeriesMeta} (hdue : mergeDue policy m' key = true)
    (hmerge : (mergeKlineMonthLocked env symbol timeframe key m').result s = .ok m'') :
    compactKlineChunkCached env policy symbol timeframe (m, key, m') s =
      ((mergeKlineMonthLocked env symbol timeframe key m').trace s ++ [.disarm],
        .ok (cachedAfter ⟨symbol, klineCategory, timeframe⟩ m m'')) := by
  unfold compactKlineChunkCached
  simp only
  rw [if_pos hdue, Prog.bind_ok hmerge]
  rfl

/-- What a put does once it holds the lock. -/
def putKlineChunkCachedLocked (env : Env) (policy : CompactionPolicy) (symbol timeframe : Text)
    (records : List KlineRecord) : Op Cached :=
  writeKlineChunk env symbol timeframe records none >>= compactKlineChunkCached env policy symbol timeframe

/-- What a put answers, from the run of its write and what follows it. -/
theorem putKlineChunkCached_run (symbol timeframe : Text) (hv : validateMonthRecords records = .ok ())
    (hq : (beginMutation env).result s = .ok ()) (policy : CompactionPolicy) :
    (putKlineChunkCached env policy symbol timeframe records).result s =
        (putKlineChunkCachedLocked env policy symbol timeframe records).result ((beginMutation env).final s) ∧
      (putKlineChunkCached env policy symbol timeframe records).final s =
        (putKlineChunkCachedLocked env policy symbol timeframe records).final ((beginMutation env).final s) := by
  unfold putKlineChunkCached
  rw [hv, Prog.lift_ok_bind]
  exact ⟨Prog.result_bind_ok hq _, Prog.final_bind_ok hq _⟩

theorem putKlineChunkCached_invalid {e : FastKError} (hv : validateMonthRecords records = .error e)
    (policy : CompactionPolicy) :
    putKlineChunkCached env policy symbol timeframe records s = ([], .error e) := by
  unfold putKlineChunkCached
  rw [hv]
  rfl

theorem Entered.length_later {sd : SeriesDir} {t : RecordType} {u : PartitionUnit} {kept : List ChunkMeta}
    {name : Text} {f : ChunkFile} {rows : List t.Row} {c e : ChunkMeta}
    (w : Entered t u sd m kept key name f rows c m') (hkept : kept = m.chunks) (he : e ∈ m.chunksForPartition key) :
    1 < (m'.chunksForPartition key).length := by
  have hperm := (sortByKey_perm ChunkMeta.startTs (kept ++ [c])).filter (fun e => decide (e.monthKey = key))
  have hpos := List.length_pos_of_mem he
  unfold SeriesMeta.chunksForPartition at hpos ⊢
  rw [w.chunks, hperm.length_eq, hkept, List.filter_append, List.length_append,
    List.filter_cons_of_pos (by rw [w.laid.monthKey]; simp), List.filter_nil, List.length_singleton]
  omega

/-- Two puts, `p` with merges and `q` without, are refused alike. -/
def RefusedAlike (p q : Op Cached) (s : Store) : Prop :=
  ∃ e, p.result s = .error e ∧ q.result s = .error e ∧ ∀ d, SameContent (s.dirs d) ((p.final s).dirs d) ∧
    SameContent (s.dirs d) ((q.final s).dirs d)

/-- No merge is due in the manifest without merges, or the month had no chunk. -/
def NothingMerged (policy : CompactionPolicy) (m : SeriesMeta) (month : Text) (mq : SeriesMeta) : Prop :=
  mergeDue policy mq month = false ∨ m.chunksForPartition month = []

/-- Two puts under the names of `key`, `p` with merges and `q` without, are accepted, from the manifest `m`.  With the
manifests on disk one reads the same rows after both; with what their handles, or their processes, have cached where
the names are those of the series or nothing was merged; and with the manifest from before where nothing was merged.
-/
structure AcceptedAlike (threads : Nat) (key : ScalarSeriesKey) (policy : CompactionPolicy) (m : SeriesMeta)
    (month : Text) (p q : Op Cached) (s : Store) (cp cq : Cached) (mp mq : SeriesMeta) : Prop where
  merging : p.result s = .ok cp
  plain : q.result s = .ok cq
  mergingManifest : ((p.final s).dirs key.dir).manifest = .current mp
  plainManifest : ((q.final s).dirs key.dir).manifest = .current mq
  onDisk : ∃ rows, KlineReads threads ((p.final s).dirs key.dir) mp rows ∧
    KlineReads threads ((q.final s).dirs key.dir) mq rows
  handle : SameReads threads ((p.final s).dirs key.dir) cp.handle ((q.final s).dirs key.dir) cq.handle ↔
    m.cacheKey = seriesCacheKey key.symbol key.category key.name ∨ NothingMerged policy m month mq
  process : SameReads threads ((p.final s).dirs key.dir) cp.process ((q.final s).dirs key.dir) cq.process ↔
    m.key.metaPath = key.metaPath ∨ NothingMerged policy m month mq
  stale : SameReads threads ((p.final s).dirs key.dir) m ((q.final s).dirs key.dir) m ↔ NothingMerged policy m month mq

theorem SameReads.refl (threads : Nat) (sd : SeriesDir) (m : SeriesMeta) : SameReads threads sd m sd m :=
  ⟨fun _ => rfl, fun _ _ => rfl, fun _ => rfl⟩

/-- What two writers have cached under one name is what they saved, or the manifest from before. -/
theorem cached_pair_iff {P : SeriesMeta → SeriesMeta → Prop} {named kept : Prop} [Decidable named]
    {m₁ m₂ : SeriesMeta} (hnew : P m₂ m₁) (hold : P m m ↔ kept) :
    P (if named then m₂ else m) (if named then m₁ else m) ↔ named ∨ kept := by
  by_cases h : named
  · rw [if_pos h, if_pos h]
    exact ⟨fun _ => .inl h, fun _ => hnew⟩
  · rw [if_neg h, if_neg h, hold, or_iff_right h]

theorem putKlineChunkLocked_reads_iff (hg : GoodStore (u32Max - 3) s) (hfull : env.Faultless)
    (hm : (s.dirs (klineSeriesDir symbol timeframe)).manifest = .current m) (ht : m.recordType = .kline) (threads : Nat)
    (policy : CompactionPolicy) (records : List KlineRecord) :
    RefusedAlike (putKlineChunkCachedLocked env policy symbol timeframe records)
    (putKlineChunkCachedLocked env policy.manual symbol timeframe records) s ∨
      ∃ month, monthKey (firstTs records) = .ok month ∧ ∃ cp cq mp mq,
        AcceptedAlike threads ⟨symbol, klineCategory,
          timeframe⟩ policy m month (putKlineChunkCachedLocked env policy symbol timeframe records)
          (putKlineChunkCachedLocked env policy.manual symbol timeframe records) s cp cq mp mq := by
  have hgm := (hg.dir _).of_current hm
  have hk := hgm.klineSeries hm ht
  unfold putKlineChunkCachedLocked
  rcases writeKlineChunk_run env records hk.toSeriesOk ht rfl (.inl (rfl : none = none)) with ⟨⟨e, he⟩,
    hcalm⟩ | ⟨month, m₁, w, hmonth, hkept, hrun⟩
  · refine .inl ⟨e, Prog.result_bind_error he _, Prog.result_bind_error he _, fun d => ?_⟩
    rw [Prog.final_bind_error he, Prog.final_bind_error he]
    exact ⟨exec_calm hcalm s d, exec_calm hcalm s d⟩
  · refine .inr ⟨month, hmonth, ?_⟩
    have hb : KeyBound m month (u32Max - 3) := fun c hc _ => hgm.bound c hc
    obtain ⟨hadv, hm₁⟩ :=
      w.advanced (C := u32Max - 1) (hg.mono (by decide)) ((hg.mono (by decide)).dir _ |>.of_current hm) (.inl hm) ht
      (hgm.fits.head.unit_month (.inl ht)) hb (by decide) (by decide) hfull
    have hk₁ := ((hadv.good.dir _).of_current hm₁).klineSeries hm₁ (w.entered.head.recordType.trans ht)
    have hreads₁ := hk₁.klineReads hk₁.kline threads
    have hplain : ∀ {policy : CompactionPolicy}, mergeDue policy m₁ month = false →
        (writeKlineChunk env symbol timeframe records none >>= compactKlineChunkCached env policy symbol timeframe) s =
          (w.steps ++ [.disarm], .ok (cachedAfter ⟨symbol, klineCategory, timeframe⟩ m m₁)) := by
      intro policy hdue
      rw [Prog.bind_run hrun, compactKlineChunk_plain hdue]
    have hq := hplain (mergeDue_manual policy m₁ month)
    have hqfin := Prog.final_of_run hq
    rcases hdue : mergeDue policy m₁ month with _ | _
    · have hp := hplain hdue
      have hsame : (writeKlineChunk env symbol timeframe records none >>= compactKlineChunkCached env policy symbol
        timeframe).final s =
          (writeKlineChunk env symbol timeframe records none >>= compactKlineChunkCached env policy.manual symbol
            timeframe).final s :=
        (Prog.final_of_run hp).trans hqfin.symm
      have hcur : ((exec (w.steps ++ [.disarm]) s).dirs (klineSeriesDir symbol timeframe)).manifest = .current m₁ := by
        rw [exec_disarm_dirs]
        exact hm₁
      have hreads := hreads₁
      rw [← exec_disarm_dirs w.steps s] at hreads
      refine ⟨_, _, m₁, m₁, ⟨Prog.result_of_run hp, Prog.result_of_run hq, ?_, ?_, ?_, ?_, ?_, ?_⟩⟩
      all_goals try rw [hsame]
      all_goals rw [hqfin]
      · exact hcur
      · exact hcur
      · exact ⟨_, hreads, hreads⟩
      · exact ⟨fun _ => .inr (.inl hdue), fun _ => .refl _ _ _⟩
      · exact ⟨fun _ => .inr (.inl hdue), fun _ => .refl _ _ _⟩
      · exact ⟨fun _ => .inl hdue, fun _ => .refl _ _ _⟩
    · obtain ⟨m₂, hmerge⟩ :=
        mergeKlineMonthLocked_answers env month ((hadv.good.dir _).of_current hm₁) hm₁ hk₁.kline rfl
        (w.keyBound hb) (by decide)
      obtain ⟨hadv₂, hsaved⟩ := mergeKlineMonthLocked_good month hadv.good hm₁ hk₁.kline rfl (w.keyBound hb)
        (fun _ => by decide) (by decide) hfull
      have hm₂ := hsaved m₂ hmerge
      have v := mergeKlineMonthLocked_merged hk₁.toSeriesOk hk₁.kline rfl hmerge
      have hk₂ := v.series hk₁
      have hreads₂ := hk₂.klineReads hk₂.kline threads
      rw [v.seriesRows hk₁] at hreads₂
      have hhead : m.SameHead m₂ := by
        have h₁ := w.entered.head
        have h₂ := v.sameHead
        rw [SeriesMeta.SameHead] at h₁ h₂ ⊢
        rw [h₂, h₁]
      have hp := Prog.bind_run hrun (f := compactKlineChunkCached env policy symbol timeframe)
      rw [compactKlineChunk_merge hdue hmerge, ← List.append_assoc] at hp
      have hpfin := Prog.final_of_run hp
      -- with the manifest from before the put
      have hstale : SameReads threads
        ((exec ((mergeKlineMonthLocked env symbol timeframe month m₁).trace (exec w.steps s)) (exec w.steps s)).dirs
          (klineSeriesDir symbol timeframe))
            m ((exec w.steps s).dirs (klineSeriesDir symbol timeframe)) m ↔ NothingMerged policy m month m₁ := by
        by_cases hnil : m.chunksForPartition month = []
        · -- the merge finds the new chunk alone
          have hshort : mergeKlineMonthLocked env symbol timeframe month m₁ (exec w.steps s) = ([], .ok m₁) := by
            unfold mergeKlineMonthLocked
            simp only
            rw [if_pos (w.entered.length_first hkept hnil)]
            rfl
          unfold Prog.trace
          rw [hshort]
          exact ⟨fun _ => .inr hnil, fun _ => .refl _ _ _⟩
        · refine ⟨fun hsame => ?_, fun h => ?_⟩
          · -- the merge has removed a chunk of it
            exfalso
            obtain ⟨c, hc⟩ := List.exists_mem_of_ne_nil _ hnil
            obtain ⟨hcm, hck⟩ := mem_chunksForPartition.1 hc
            have hc₁ : c ∈ m₁.chunksForPartition month :=
              mem_chunksForPartition.2 ⟨w.entered.mem.2 (.inl (hkept ▸ hcm)), hck⟩
            obtain ⟨e, he⟩ := getAtPrepared_missing (R := KlineRecord) hk.chain klineReadTexts klineValidateHeader hcm
              (v.removed hk₁ ((hadv₂.good.dir _).of_current hm₂).exact (w.entered.length_later hkept hc) hc₁)
            have hold : SeriesOk (klineSeriesDir symbol timeframe)
                { (exec w.steps s).dirs (klineSeriesDir symbol timeframe) with manifest := .current m } m :=
              ⟨(w.fits_old hgm.fits ht (hgm.fits.head.unit_month (.inl ht)) hkept).under _, rfl⟩
            have hok := ((hold.klineReads ht threads).of_manifest).point c.startTs
            rw [← hsame.point c.startTs] at hok
            cases he.symm.trans hok
          · rcases h with h | h
            · rw [hdue] at h
              cases h
            · exact absurd h hnil
      obtain ⟨hph, hpp⟩ := cachedAfter_eq ⟨symbol, klineCategory, timeframe⟩ hhead
      obtain ⟨hqh, hqp⟩ := cachedAfter_eq ⟨symbol, klineCategory, timeframe⟩ w.entered.head
      refine ⟨_, _, m₂, m₁, ⟨Prog.result_of_run hp, Prog.result_of_run hq, ?_, ?_, ?_, ?_, ?_, ?_⟩⟩
      all_goals try rw [hpfin, exec_disarm_dirs, exec_append]
      all_goals try rw [hqfin, exec_disarm_dirs]
      · exact hm₂
      · exact hm₁
      · exact ⟨_, hreads₂, hreads₁⟩
      · rw [hph, hqh]
        exact cached_pair_iff (P := fun a b => SameReads threads _ a _ b) (hreads₂.same hreads₁) hstale
      · rw [hpp, hqp]
        exact cached_pair_iff (P := fun a b => SameReads threads _ a _ b) (hreads₂.same hreads₁) hstale
      · exact hstale

/-- **What the merge after a put does to reads.** -/
theorem put_reads_iff (hg : GoodStore C s) (hroom : s.HasRoom) (hfull : env.Faultless)
    (hm : (s.dirs (klineSeriesDir symbol timeframe)).manifest = .current m) (ht : m.recordType = .kline) (threads : Nat)
    (policy : CompactionPolicy) (records : List KlineRecord) :
    RefusedAlike (putKlineChunkCached env policy symbol timeframe records)
    (putKlineChunkCached env policy.manual symbol timeframe records) s ∨
      ∃ month, monthKey (firstTs records) = .ok month ∧ ∃ cp cq mp mq,
        AcceptedAlike threads ⟨symbol, klineCategory,
          timeframe⟩ policy m month (putKlineChunkCached env policy symbol timeframe records)
          (putKlineChunkCached env policy.manual symbol timeframe records) s cp cq mp mq := by
  cases hv : validateMonthRecords records with
  | error e =>
    left
    unfold RefusedAlike Prog.result Prog.final Prog.trace
    rw [putKlineChunkCached_invalid hv, putKlineChunkCached_invalid hv]
    exact ⟨e, rfl, rfl, fun d => ⟨.refl _, .refl _⟩⟩
  | ok _ =>
    obtain ⟨hres, hgood, hdirs⟩ := beginMutation_good (hg.of_room hroom) env
    have hrun := fun policy => putKlineChunkCached_run symbol timeframe hv hres policy
    rcases putKlineChunkLocked_reads_iff hgood hfull (by rw [hdirs]; exact hm) ht threads policy records
      with hrefused | ⟨month, hmonth, cp, cq, mp, mq, h⟩
    · left
      unfold RefusedAlike at hrefused ⊢
      simp only [(hrun _).1, (hrun _).2]
      simpa only [hdirs] using hrefused
    · refine .inr ⟨month, hmonth, cp, cq, mp, mq, ?_⟩
      obtain ⟨h₁, h₂, h₃, h₄, h₅, h₆, h₇, h₈⟩ := h
      rw [← (hrun policy).1] at h₁
      rw [← (hrun policy.manual).1] at h₂
      rw [← (hrun policy).2] at h₃ h₅ h₆ h₇ h₈
      rw [← (hrun policy.manual).2] at h₄ h₅ h₆ h₇ h₈
      exact ⟨h₁, h₂, h₃, h₄, h₅, h₆, h₇, h₈⟩

end Putting

/-! ## Compaction in a healthy run -/

/-- **Compaction is invisible to reads** in every state of a healthy run: to a new handle in a process that has
nothing cached always; to the handle that has merged, or put, and to a new handle of its process, where the names were
those of the series, as a handle or as a process tells names apart, or there was nothing to merge; and to one that has
the manifest from before cached where there was nothing to merge. -/
theorem compaction_keeps_reads_iff {root : Dir} {n : Nat} {s : Store} (h : Run root HealthyPlain n s)
    (hroom : s.HasRoom) {env : Env} (hfull : env.Faultless) {symbol timeframe : Text}
    (_ : (ScalarSeriesKey.mk symbol klineCategory timeframe).GoesDown) {m : SeriesMeta}
    (hm : (s.dirs (klineSeriesDir symbol timeframe)).manifest = .current m) (ht : m.recordType = .kline)
    (threads : Nat) :
    KlineReads threads (s.dirs (klineSeriesDir symbol timeframe)) m
      (seriesRows .kline (s.dirs (klineSeriesDir symbol timeframe))) ∧
    (∀ key, ∃ cached m', (mergeKlineMonthCached env symbol timeframe key).result s = .ok cached ∧
      (((mergeKlineMonthCached env symbol timeframe key).final s).dirs (klineSeriesDir symbol timeframe)).manifest =
        .current m' ∧
      KlineReads threads (((mergeKlineMonthCached env symbol timeframe key).final s).dirs
        (klineSeriesDir symbol timeframe)) m'
        (seriesRows .kline (s.dirs (klineSeriesDir symbol timeframe))) ∧
      (KlineReads threads (((mergeKlineMonthCached env symbol timeframe key).final s).dirs
        (klineSeriesDir symbol timeframe)) cached.handle
          (seriesRows .kline (s.dirs (klineSeriesDir symbol timeframe))) ↔
        m.cacheKey = seriesCacheKey symbol klineCategory timeframe ∨ (m.chunksForPartition key).length ≤ 1) ∧
      (KlineReads threads (((mergeKlineMonthCached env symbol timeframe key).final s).dirs
        (klineSeriesDir symbol timeframe)) cached.process
          (seriesRows .kline (s.dirs (klineSeriesDir symbol timeframe))) ↔
        m.key.metaPath = (ScalarSeriesKey.mk symbol klineCategory timeframe).metaPath ∨
          (m.chunksForPartition key).length ≤ 1) ∧
      (KlineReads threads (((mergeKlineMonthCached env symbol timeframe key).final s).dirs
        (klineSeriesDir symbol timeframe)) m
          (seriesRows .kline (s.dirs (klineSeriesDir symbol timeframe))) ↔ (m.chunksForPartition key).length ≤ 1)) ∧
    ∀ policy records,
      RefusedAlike (putKlineChunkCached env policy symbol timeframe records)
        (putKlineChunkCached env policy.manual symbol timeframe records) s ∨
        ∃ month, monthKey (firstTs records) = .ok month ∧ ∃ cp cq mp mq,
          AcceptedAlike threads ⟨symbol, klineCategory,
            timeframe⟩ policy m month (putKlineChunkCached env policy symbol timeframe records)
            (putKlineChunkCached env policy.manual symbol timeframe records) s cp cq mp mq := by
  obtain ⟨B, hg⟩ := h.unplain.healthy
  have hk := ((hg.dir _).of_current hm).klineSeries hm ht
  exact ⟨hk.klineReads ht threads, fun key => merge_reads_iff hg hroom hfull hm ht threads key,
    fun policy records => put_reads_iff hg hroom hfull hm ht threads policy records⟩

theorem sampleMonths_run : Run [] HealthyPlain 4 sampleMonths := runCalls_plain (by decide +kernel)
    (by decide) sampleMonthCalls_ok

/-- The handle that has merged January under the names of the series, and any new one of its process, reads its three
rows from one chunk. -/
theorem compaction_keeps_reads_iff_sample :
    ∃ m cached, (sampleMonths.dirs (klineSeriesDir "X" "1m")).manifest = .current m ∧
    (m.chunksForPartition "1970-01").length = 2 ∧
      (mergeKlineMonthCached (Env.plain 6) "X" "1m" "1970-01").result sampleMonths = .ok cached ∧
    KlineReads 4 (((mergeKlineMonthCached (Env.plain 6) "X" "1m" "1970-01").final sampleMonths).dirs
      (klineSeriesDir "X" "1m")) cached.handle
      (seriesRows .kline (sampleMonths.dirs (klineSeriesDir "X" "1m"))) ∧
    KlineReads 4 (((mergeKlineMonthCached (Env.plain 6) "X" "1m" "1970-01").final sampleMonths).dirs
      (klineSeriesDir "X" "1m")) cached.process
      (seriesRows .kline (sampleMonths.dirs (klineSeriesDir "X" "1m"))) := by
  have htest : (sampleMonths.dirs (klineSeriesDir "X" "1m")).tests (fun m => decide (m.recordType = .kline) &&
      (decide (m.cacheKey = seriesCacheKey "X" klineCategory "1m" ∧
        m.key.metaPath = (ScalarSeriesKey.mk "X" klineCategory "1m").metaPath) &&
        decide ((m.chunksForPartition "1970-01").length = 2))) = true := by decide +kernel
  obtain ⟨m, hm, htest⟩ := SeriesDir.of_tests htest
  simp only [Bool.and_eq_true, decide_eq_true_iff] at htest
  obtain ⟨ht, ⟨hkey, hpath⟩, hlen⟩ := htest
  obtain ⟨-, hmerge, -⟩ :=
    compaction_keeps_reads_iff sampleMonths_run (sampleMonths_good.hasRoom (by decide)) (plain_faultless 6)
    (by decide +kernel)
    hm ht 4
  obtain ⟨cached, m', hres, -, -, hhandle, hprocess, -⟩ := hmerge "1970-01"
  exact ⟨m, cached, hm, hlen, hres, hhandle.2 (.inl hkey), hprocess.2 (.inl hpath)⟩

/-- A kline series registered and written as `X`, `kline/1m`. -/
def sampleNestedCalls : List Call :=
  [.registerKline "X" "kline/1m" 60000 1 1, .putKline .default "X" "kline/1m" [sampleKline 0, sampleKline 60000],
    .putKline .default "X" "kline/1m" [sampleKline 120000]]

theorem sampleNestedCalls_ok : CallsOk (Env.plain 5)
    (fun env c s => env.Faultless ∧ c.Regular s) sampleNestedCalls (Store.empty []) := by
  refine ⟨⟨plain_faultless 5, trivial, trivial, trivial, trivial⟩, ⟨plain_faultless 5, ?_, trivial, trivial, trivial⟩,
    ⟨plain_faultless 5, ?_, trivial, trivial, trivial⟩, trivial⟩
  · show OfType .kline _
    decide +kernel
  · show OfType .kline _
    decide +kernel

def sampleNested : Store := runCalls (Env.plain 5) sampleNestedCalls (Store.empty [])

/-- The point read fails. -/
def failsAt (sd : SeriesDir) (m : SeriesMeta) (ts : Int) : Bool :=
  match getAtPrepared (R := KlineRecord) klineReadTexts klineValidateHeader sd m ts with
  | .error _ => true
  | .ok _ => false

/-- The same directory merged as `X/kline`, `1m`: the handle cannot read the first row any more. -/
theorem merge_breaks_handle : ¬ ∀ (root : Dir) (n : Nat) (s : Store), Run root Healthy n s →
    ∀ (env : Env), env.Faultless →
    ∀ (symbol timeframe key : Text) (m : SeriesMeta)
    (cached : Cached), (s.dirs (klineSeriesDir symbol timeframe)).manifest = .current m →
      m.recordType = .kline → (mergeKlineMonthCached env symbol timeframe key).result s = .ok cached →
      KlineReads 1 (((mergeKlineMonthCached env symbol timeframe key).final s).dirs (klineSeriesDir symbol timeframe))
        cached.handle
        (seriesRows .kline (s.dirs (klineSeriesDir symbol timeframe))) := by
  intro h
  have htest : (sampleNested.dirs (klineSeriesDir "X/kline" "1m")).tests (fun m =>
    decide (m.recordType = .kline)) = true := by decide +kernel
  obtain ⟨m, hm, ht⟩ := SeriesDir.of_tests htest
  have hfail : ((mergeKlineMonthCached (Env.plain 6) "X/kline" "1m" "1970-01").result sampleNested).toOption.any
    (fun cached =>
      failsAt (((mergeKlineMonthCached (Env.plain 6) "X/kline" "1m" "1970-01").final sampleNested).dirs
        (klineSeriesDir "X/kline" "1m")) cached.handle 0) = true := by
    decide +kernel
  cases hres : (mergeKlineMonthCached (Env.plain 6) "X/kline" "1m" "1970-01").result sampleNested with
  | error e => rw [hres] at hfail; cases hfail
  | ok cached =>
    rw [hres] at hfail
    have hreads := h [] 3 sampleNested ((Run.start.calls sampleNestedCalls_ok).short (by decide)) (Env.plain 6)
      (plain_faultless 6) "X/kline" "1m" "1970-01" m cached
      hm (of_decide_eq_true ht) hres
    have hpoint := hreads.point 0
    simp only [Except.toOption, Option.any_some] at hfail
    unfold failsAt at hfail
    rw [hpoint] at hfail
    cases hfail

/-! ## The latest rows -/

/-- What the reads of a tick series answer where its rows are the given ones. -/
structure TickAnswers (t : RecordType) (sd : SeriesDir) (rows : List t.Row) : Prop where
  latest : ∀ n, getFixedLatestN t.Row sd n = .ok (rows.rtake n)

theorem SeriesOk.tickAnswers {d : Dir} {sd : SeriesDir} {m : SeriesMeta} (h : SeriesOk d sd m) {t : RecordType}
    (ht : m.recordType = t) :
    TickAnswers t sd (seriesRows t sd) := by
  subst ht
  refine ⟨fun n => ?_⟩
  rw [seriesRows_eq h.manifest_eq]
  exact getFixedLatestN_eq h.stored n

/-- **The latest rows are the last rows stored, in stored order**: of any series that holds the rows of its chunks,
klines on any number of read threads, and of every series of every store that calls reach. -/
theorem latest_rows_exact :
    (∀ (sd : SeriesDir) (m : SeriesMeta) (rowsOf : ChunkMeta → List KlineRecord), Stored KlineRecord sd m rowsOf →
      (m.chunks.flatMap rowsOf).length * FixedRecord.byteSize KlineRecord < u64Bound → ∀ threads n,
        getKlineLatestN threads sd n = .ok ((m.chunks.flatMap rowsOf).rtake n)) ∧
    (∀ (t : RecordType) (sd : SeriesDir) (m : SeriesMeta) (rowsOf : ChunkMeta → List t.Row),
      Stored t.Row sd m rowsOf → ∀ n,
      getFixedLatestN t.Row sd n = .ok ((m.chunks.flatMap rowsOf).rtake n)) ∧
    ∀ (root : Dir) (calls : Nat) (s : Store), Run root Healthy calls s → ∀ d m, (s.dirs d).manifest = .current m →
      (m.recordType = .kline → ∀ threads n,
        getKlineLatestN threads (s.dirs d) n = .ok ((seriesRows .kline (s.dirs d)).rtake n)) ∧
      ∀ t, m.recordType = t → ∀ n, getFixedLatestN t.Row (s.dirs d) n = .ok ((seriesRows t (s.dirs d)).rtake n) := by
  refine ⟨fun sd m rowsOf h hfit threads n => getKlineLatestN_eq h hfit threads n, fun t sd m rowsOf h n =>
    getFixedLatestN_eq h n, ?_⟩
  intro root calls s hrun d m hm
  obtain ⟨B, hg⟩ := hrun.healthy
  have hok := ((hg.dir d).of_current hm).seriesOk hm
  exact ⟨fun ht => (hok.klineAnswers ht).latest, fun t ht => (hok.tickAnswers ht).latest⟩

/-- Of a sample every row is answered where the number asked for ends in its first chunk. -/
theorem latest_rows_exact_sample :
    getKlineLatestN 4 sampleSeries 4 =
      .ok [sampleKline 60000, sampleKline 2678400000, sampleKline 2678460000, sampleKline 2678520000] ∧
    getFixedLatestN KlineRecord sampleSeries 4 =
      .ok [sampleKline 60000, sampleKline 2678400000, sampleKline 2678460000, sampleKline 2678520000] := by
  have hkline := latest_rows_exact.1 sampleSeries _ sampleRowsOf sampleSeries_stored (by decide) 4 4
  have hfixed : getFixedLatestN KlineRecord sampleSeries 4 =
      .ok (((sampleMeta [sampleOldChunk, sampleNewChunk]).chunks.flatMap sampleRowsOf).rtake 4) :=
    latest_rows_exact.2.1 .kline sampleSeries _ sampleRowsOf sampleSeries_stored 4
  exact ⟨hkline.trans (by decide), hfixed.trans (by decide)⟩

end FastK
