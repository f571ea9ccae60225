import FastK.Invariants
import FastK.Replay
import FastK.Rows
/-!
# Merges and reads

A merge leaves the rows of a series as they are, in fewer chunks (`Merged.seriesRows`), and so every read of the
series as its directory has it.  Two things show it.  Replay reads sealed chunks only, and the merge of a month with
an active chunk is active: the sealed rows of the month are gone from the stream (`mergeKlineMonth_replay_iff`).  And
the handle that has merged caches the new manifest under the names of the series, not under those of the call: where
they differ, it goes on reading chunks that it has removed (`merges_keep_reads_iff`).
-/
namespace FastK

open Journal Spans

/-! ## What a merge leaves -/

/-- A kline series whose files carry its id. -/
structure KlineSeries (d : Dir) (sd : SeriesDir) (m : SeriesMeta) : Prop extends SeriesOk d sd m where
  kline : m.recordType = .kline
  stamped : ∀ c ∈ m.chunks, ∃ name f, HasChunk sd name f ∧ c.relativePath = chunkRelativePath name ∧
    f.header.seriesId = m.seriesId

/-- What a merge leaves: the series as it was where the month has one chunk at most, else one chunk with the month's
rows in the place of its chunks. -/
inductive Merged (sd sd' : SeriesDir) (m m' : SeriesMeta) (key : Text) : Prop
  | same (hlen : (m.chunksForPartition key).length ≤ 1) (hm : m' = m) (hs : SameContent sd sd')
  | replaced {name : Text} {f : ChunkFile} {c : ChunkMeta} (hlen : 1 < (m.chunksForPartition key).length)
      (entered : Entered .kline .month sd m (otherChunks m key) key name f (storedKlines sd m key) c m')
      (state : c.state = mergeOutputState (m.chunksForPartition key)) (committed : Committed sd sd' [(name, f)] m')

section Merge

variable {env : Env} {d : Dir} {symbol timeframe key : Text} {m m' : SeriesMeta} {s : Store} {sd sd' : SeriesDir}

theorem Committed.of_files {sd₁ : SeriesDir} {news : List (Text × ChunkFile)} (h : Committed sd₁ sd' news m')
    (hf : sd.files = sd₁.files) :
    Committed sd sd' news m' where
  filed := h.filed
  has := h.has
  kept n g hg := h.kept n g ((hasChunk_congr hf).1 hg)
  only n g hg := (h.only n g hg).imp_right (hasChunk_congr hf).2
  manifest := h.manifest

theorem Entered.of_files {t : RecordType} {u : PartitionUnit} {sd₁ : SeriesDir} {kept : List ChunkMeta} {name : Text}
    {f : ChunkFile} {rows : List t.Row} {c : ChunkMeta} (w : Entered t u sd₁ m kept key name f rows c m')
    (hf : sd.files = sd₁.files) :
    Entered t u sd m kept key name f rows c m' where
  laid := { w.laid with
    fresh := by
      have := w.laid.fresh
      unfold SeriesDir.hasFile at this ⊢
      rwa [hf] }
  head := w.head
  chunks := w.chunks
  place := w.place
  active := w.active

/-- **A merge that answers leaves the series merged.** -/
theorem mergeKlineMonthLocked_merged (h : SeriesOk d (s.dirs d) m) (ht : m.recordType = .kline)
    (hd : klineSeriesDir symbol timeframe = d)
    (hres : (mergeKlineMonthLocked env symbol timeframe key m).result s = .ok m') :
    Merged (s.dirs d) (((mergeKlineMonthLocked env symbol timeframe key m).final s).dirs d) m m' key := by
  unfold Prog.result at hres
  unfold Prog.final Prog.trace
  rcases mergeKlineMonthLocked_run env key h ht hd with ⟨hlen, hrun⟩ | ⟨-, ⟨e, he⟩, -⟩ | ⟨-, -, hrun⟩ |
    ⟨hlen, m₁, w, hkept, -, hstate, -, hrun⟩
  · rw [hrun] at hres ⊢
    exact .same hlen (Except.ok.inj hres).symm (.refl _)
  · rw [he] at hres
    cases hres
  · rw [hrun] at hres
    cases hres
  · rw [hrun] at hres ⊢
    obtain rfl := Except.ok.inj hres
    have hfiles : (s.dirs d).files = ((markedStore env d key m s).dirs d).files := by rw [markedStore_dir]
    have hent := w.entered
    rw [hkept] at hent
    refine .replaced hlen (hent.unmark.of_files hfiles) hstate ?_
    rw [exec_append]
    exact (w.final (h.markedStore env key).toFits).of_files hfiles

/-- **A merge leaves a kline series in order.** -/
theorem Merged.series (w : Merged sd sd' m m' key) (h : KlineSeries d sd m) : KlineSeries d sd' m' := by
  cases w with
  | same hlen hm hs =>
    subst hm
    refine ⟨hs.seriesOk h.toSeriesOk, h.kline, fun c hc => ?_⟩
    obtain ⟨name, f, hf, hrest⟩ := h.stamped c hc
    exact ⟨name, f, hs.hasChunk.2 hf, hrest⟩
  | @replaced name f c hlen w hstate hcom =>
    refine ⟨⟨w.fits h.toFits h.kline (h.head.unit_month (.inl h.kline)) hcom.toSupplied, hcom.manifest⟩,
      w.head.recordType.trans h.kline, fun e he => ?_⟩
    have hid : m'.seriesId = m.seriesId := by rw [w.head]
    rcases w.mem.1 he with hk | rfl
    · obtain ⟨n, g, hg, hp, hs⟩ := h.stamped e (w.kept_sublist.subset hk)
      exact ⟨n, g, hcom.kept n g hg ⟨e, he, hp⟩, hp, hs.trans hid.symm⟩
    · exact ⟨name, f, hcom.has (name, f) (by simp), w.laid.entry.path, w.laid.stamped.seriesId.trans hid.symm⟩

theorem mem_partition_or_other {t : RecordType} {r : t.Row} :
    r ∈ m.chunks.flatMap (rowsIn t sd) ↔ r ∈ (otherChunks m key).flatMap (rowsIn t sd) ∨
      r ∈ (m.chunksForPartition key).flatMap (rowsIn t sd) := by
  constructor
  · intro h
    obtain ⟨c, hc, hr⟩ := List.mem_flatMap.1 h
    by_cases hk : c.monthKey = key
    · exact .inr (List.mem_flatMap.2 ⟨c, mem_chunksForPartition.2 ⟨hc, hk⟩, hr⟩)
    · exact .inl (List.mem_flatMap.2 ⟨c, mem_otherChunks.2 ⟨hc, hk⟩, hr⟩)
  · rintro (h | h)
    · obtain ⟨c, hc, hr⟩ := List.mem_flatMap.1 h
      exact List.mem_flatMap.2 ⟨c, (mem_otherChunks.1 hc).1, hr⟩
    · obtain ⟨c, hc, hr⟩ := List.mem_flatMap.1 h
      exact List.mem_flatMap.2 ⟨c, (mem_chunksForPartition.1 hc).1, hr⟩

/-- **A merge keeps the rows of the series.** -/
theorem Merged.seriesRows (w : Merged sd sd' m m' key) (h : KlineSeries d sd m) :
    seriesRows .kline sd' = seriesRows .kline sd := by
  have h' := w.series h
  cases w with
  | same hlen hm hs => exact hs.seriesRows .kline
  | replaced hlen w hstate hcom =>
    refine strict_unique (h'.strict h'.kline rfl) (h.strict h.kline rfl) (fun r => ?_)
    rw [seriesRows_eq h'.manifest_eq, seriesRows_eq h.manifest_eq]
    exact (w.mem_rows h.toFits hcom.toSupplied).trans mem_partition_or_other.symm

end Merge

/-! ## Replay -/

/-- The timestamp lies in the bounds of a replay. -/
def ReplayOptions.Has (o : ReplayOptions) (ts : Int) : Prop := o.startTs ≤ ts ∧ pastEnd o.endTs ts = false

instance (o : ReplayOptions) (ts : Int) : Decidable (o.Has ts) := inferInstanceAs (Decidable (_ ∧ _))

/-- A cursor over the bounds yields the records, in batches of some positive sizes. -/
def Yields (R : Type) [FixedRecord R] (sd : SeriesDir) (o : ReplayOptions) (xs : List R) : Prop :=
  ∃ cursor sizes batches, (∀ n ∈ sizes, 0 < n) ∧ replay R sd o = .ok cursor ∧
    readBatches (R := R) sd sizes cursor = .ok batches ∧ batches.flatten = xs

section Yields

variable {R : Type} [FixedRecord R] {sd : SeriesDir} {m : SeriesMeta} {rowsOf : ChunkMeta → List R}
    {o : ReplayOptions} {xs : List R}

theorem bounds_of_replay {cursor : ReplayCursor} (h : replay R sd o = .ok cursor) :
    ∀ e, o.endTs = some e → o.startTs ≤ e := by
  intro e he
  by_contra hlt
  unfold replay at h
  cases hm : sd.loadSeriesMeta with
  | error err => rw [hm] at h; cases h
  | ok m =>
    rw [hm] at h
    simp only at h
    unfold ReplayCursor.new at h
    rw [if_pos (by rw [he]; simpa using hlt)] at h
    cases h

theorem mem_replayStream {r : R} : r ∈ replayStream rowsOf m o ↔ (∃ c ∈ m.chunks, c.state = .sealed ∧ r ∈ rowsOf c) ∧
    o.Has (FixedRecord.ts r) := by
  unfold replayStream ReplayOptions.Has
  rw [List.mem_filter, Bool.and_eq_true, decide_eq_true_iff, Bool.not_eq_true']
  refine and_congr_left (fun _ => ⟨fun h => ?_, fun ⟨c, hc, hstate, hr⟩ => ?_⟩)
  · obtain ⟨c, hc, hr⟩ := List.mem_flatMap.1 h
    obtain ⟨hc, hstate⟩ := List.mem_filter.1 hc
    exact ⟨c, hc, of_decide_eq_true hstate, hr⟩
  · exact List.mem_flatMap.2 ⟨c, List.mem_filter.2 ⟨hc, decide_eq_true hstate⟩, hr⟩

/-- What a cursor yields is the beginning of the stream. -/
theorem Replayable.yields_take (h : Replayable R sd m rowsOf) (hy : Yields R sd o xs) :
    ∃ n, xs = (replayStream rowsOf m o).take n := by
  obtain ⟨cursor, sizes, batches, hpos, hcursor, hread, rfl⟩ := hy
  obtain ⟨cursor', hcursor', hcut⟩ := h.read (bounds_of_replay hcursor) hpos
  obtain rfl := Except.ok.inj (hcursor.symm.trans hcursor')
  split at hcut
  · obtain rfl := Except.ok.inj (hread.symm.trans hcut)
    exact ⟨sizes.sum, (exact_cutAt _ hpos).flatten_eq⟩
  · obtain ⟨e, he⟩ := hcut
    rw [hread] at he
    cases he

theorem batchesFit_ones {recordSize : Nat} (hsize : recordSize < 2 ^ 63) (cut : Bool) : ∀ (n left : Nat),
    BatchesFit recordSize cut (List.replicate n 1) left = true
  | 0, _ => rfl
  | n + 1, left => by
    rw [List.replicate_succ, BatchesFit, batchesFit_ones hsize cut n]
    simpa using hsize

/-- Some cursor yields the whole stream. -/
theorem Replayable.yields_stream (h : Replayable R sd m rowsOf) (hsize : FixedRecord.byteSize R < 2 ^ 63)
    (ho : ∀ e, o.endTs = some e → o.startTs ≤ e) :
    Yields R sd o (replayStream rowsOf m o) := by
  have hpos : ∀ n ∈ List.replicate (replayStream rowsOf m o).length 1, 0 < n := by
    intro n hn
    rw [List.eq_of_mem_replicate hn]
    exact Nat.one_pos
  obtain ⟨cursor, hcursor, hread⟩ := h.read ho hpos
  rw [if_pos (.inr (batchesFit_ones hsize _ _ _))] at hread
  refine ⟨cursor, _, _, hpos, hcursor, hread, ?_⟩
  rw [(exact_cutAt _ hpos).flatten_eq, List.sum_replicate]
  simp

end Yields

/-! ## Replay over a merge -/

section Stream

variable {env : Env} {d : Dir} {symbol timeframe key : Text} {m m' : SeriesMeta} {s : Store} {sd sd' : SeriesDir}
    {o : ReplayOptions}

theorem KlineSeries.replayable (h : KlineSeries d sd m) : Replayable KlineRecord sd m (rowsIn .kline sd) where
  stored := rowsIn_kline h.toSeriesOk h.kline
  recordType_eq := h.kline
  schemaId_eq := by
    rw [h.head.schemaId, h.kline]
    rfl
  recordSize_eq := by
    rw [h.head.recordSize, h.kline]
    rfl
  stamped c hc f hl := by
    obtain ⟨name, g, hg, hp, hid⟩ := h.stamped c hc
    rw [hp, h.filed.lookup hg] at hl
    obtain rfl := FileBody.chunk.inj (Option.some.inj hl)
    exact hid

/-- The records a replay of a kline series is for. -/
def klineStream (sd : SeriesDir) (m : SeriesMeta) (o : ReplayOptions) : List KlineRecord :=
  replayStream (R := KlineRecord) (rowsIn .kline sd) m o

theorem mem_klineStream {r : KlineRecord} :
    r ∈ klineStream sd m o ↔ (∃ c ∈ m.chunks, c.state = .sealed ∧ r ∈ rowsIn .kline sd c) ∧ o.Has r.ts :=
  mem_replayStream (R := KlineRecord)

theorem KlineSeries.stream_strict (h : KlineSeries d sd m) :
    (klineStream sd m o).Pairwise (fun a b => a.ts < b.ts) := by
  have hstrict := h.strict h.kline rfl
  rw [seriesRows_eq h.manifest_eq] at hstrict
  exact (hstrict.sublist (List.Sublist.flatMap List.filter_sublist _)).sublist List.filter_sublist

/-- The merge of the month hides no record from a replay over the bounds: there is nothing to merge, no chunk of the
month is active, or no sealed one has a record in the bounds. -/
def ReplayKept (sd : SeriesDir) (m : SeriesMeta) (key : Text) (o : ReplayOptions) : Prop :=
  (m.chunksForPartition key).length ≤ 1 ∨ (∀ c ∈ m.chunksForPartition key, c.state ≠ .active) ∨
    ∀ c ∈ m.chunksForPartition key, c.state = .sealed → ∀ r ∈ rowsIn .kline sd c, ¬ o.Has r.ts

/-- The records of the stream once a month is merged: the sealed ones of other months, and those of the month where the
merge is sealed. -/
theorem mem_stream_merged {name : Text} {f : ChunkFile} {c : ChunkMeta} (h : KlineSeries d sd m)
    (w : Entered .kline .month sd m (otherChunks m key) key name f (storedKlines sd m key) c m')
    (hcom : Committed sd sd' [(name, f)] m') {r : KlineRecord} : r ∈ klineStream sd' m' o ↔
      ((∃ e ∈ otherChunks m key, e.state = .sealed ∧ r ∈ rowsIn .kline sd e) ∨ c.state = .sealed ∧
        r ∈ storedKlines sd m key) ∧ o.Has r.ts := by
  have hnew : rowsIn .kline sd' c = storedKlines sd m key :=
    rowsIn_eq hcom.filed (hcom.has (name, f) (by simp)) w.laid.entry.path w.laid.file.holds
  have hold : ∀ e ∈ otherChunks m key, rowsIn .kline sd' e = rowsIn .kline sd e := by
    intro e he
    obtain ⟨n, g, -, hg, -, hee⟩ := h.tracked e (w.kept_sublist.subset he)
    exact rowsIn_of_hasChunk h.filed hcom.filed hee.path hg (hcom.kept n g hg ⟨e, w.mem.2 (.inl he), hee.path⟩)
  rw [mem_klineStream]
  refine and_congr_left (fun _ => ⟨fun ⟨e, he, hstate, hr⟩ => ?_, fun hr => ?_⟩)
  · rcases w.mem.1 he with hk | rfl
    · rw [hold e hk] at hr
      exact .inl ⟨e, hk, hstate, hr⟩
    · rw [hnew] at hr
      exact .inr ⟨hstate, hr⟩
  · rcases hr with ⟨e, he, hstate, hr⟩ | ⟨hstate, hr⟩
    · exact ⟨e, w.mem.2 (.inl he), hstate, by rw [hold e he]; exact hr⟩
    · exact ⟨c, w.mem.2 (.inr rfl), hstate, by rw [hnew]; exact hr⟩

theorem mergeOutputState_eq_sealed {chunks : List ChunkMeta} : mergeOutputState chunks = .sealed ↔
    ∀ c ∈ chunks, c.state ≠ .active := by
  unfold mergeOutputState
  cases hany : chunks.any (fun c => decide (c.state = .active)) with
  | true =>
    obtain ⟨c, hc, hact⟩ := List.any_eq_true.1 hany
    rw [if_pos rfl]
    constructor
    · intro h
      cases h
    · intro h
      exact absurd (of_decide_eq_true hact) (h c hc)
  | false =>
    rw [List.any_eq_false] at hany
    rw [if_neg (by simp)]
    exact ⟨fun _ c hc hact => hany c hc (decide_eq_true hact), fun _ => rfl⟩

/-- A sealed record of the stream that is not of the month stays in it. -/
theorem sealed_other_or_month (key : Text) {r : KlineRecord} (h : ∃ c ∈ m.chunks, c.state = .sealed ∧
      r ∈ rowsIn .kline sd c) :
    (∃ e ∈ otherChunks m key, e.state = .sealed ∧ r ∈ rowsIn .kline sd e) ∨
      ∃ c ∈ m.chunksForPartition key, c.state = .sealed ∧ r ∈ rowsIn .kline sd c := by
  obtain ⟨c, hc, hstate, hr⟩ := h
  by_cases hk : c.monthKey = key
  · exact .inr ⟨c, mem_chunksForPartition.2 ⟨hc, hk⟩, hstate, hr⟩
  · exact .inl ⟨c, mem_otherChunks.2 ⟨hc, hk⟩, hstate, hr⟩

/-- **The stream after a merge holds that before it, where the merge hides nothing.** -/
theorem Merged.stream_subset_iff (w : Merged sd sd' m m' key) (h : KlineSeries d sd m) :
    (∀ r ∈ klineStream sd m o, r ∈ klineStream sd' m' o) ↔ ReplayKept sd m key o := by
  cases w with
  | same hlen hm hs =>
    subst hm
    refine ⟨fun _ => .inl hlen, fun _ r hr => ?_⟩
    rw [mem_klineStream] at hr ⊢
    simpa only [hs.rowsIn] using hr
  | @replaced name f c hlen w hstate hcom =>
    constructor
    · intro hsub
      by_cases hact : ∀ e ∈ m.chunksForPartition key, e.state ≠ .active
      · exact .inr (.inl hact)
      · -- the merged chunk is active, so no record of the month is in the stream any more
        refine .inr (.inr (fun e he hsealed r hr hin => ?_))
        obtain ⟨hem, hek⟩ := mem_chunksForPartition.1 he
        have hafter := hsub r (mem_klineStream.2 ⟨⟨e, hem, hsealed, hr⟩, hin⟩)
        rcases ((mem_stream_merged h w hcom).1 hafter).1 with ⟨e', he', -, hr'⟩ | ⟨hcs, -⟩
        · obtain ⟨he'm, he'k⟩ := mem_otherChunks.1 he'
          have hkey := storedKlines_keyed h.toSeriesOk h.kline (List.mem_flatMap.2
            ⟨e, he, hr⟩ : r ∈ storedKlines sd m key)
          have hkey' := storedKlines_keyed h.toSeriesOk h.kline
            (List.mem_flatMap.2 ⟨e', mem_chunksForPartition.2 ⟨he'm, rfl⟩, hr'⟩ : r ∈ storedKlines sd m e'.monthKey)
          exact he'k (Except.ok.inj (hkey'.symm.trans hkey))
        · exact hact (mergeOutputState_eq_sealed.1 (hstate.symm.trans hcs))
    · intro hkept r hr
      obtain ⟨hsealed, hin⟩ := mem_klineStream.1 hr
      refine (mem_stream_merged h w hcom).2 ⟨?_, hin⟩
      rcases sealed_other_or_month key hsealed with hother | ⟨e, he, hes, hre⟩
      · exact .inl hother
      · rcases hkept with hle | hact | hnone
        · omega
        · exact .inr ⟨hstate.trans (mergeOutputState_eq_sealed.2 hact), List.mem_flatMap.2 ⟨e, he, hre⟩⟩
        · exact absurd hin (hnone e he hes r hre)

/-- **What a merge does to a replay.** -/
theorem Merged.yields_iff (w : Merged sd sd' m m' key) (h : KlineSeries d sd m) :
    (∀ xs, Yields KlineRecord sd o xs → ∃ ys, Yields KlineRecord sd' o ys ∧ xs.Sublist ys) ↔ ReplayKept sd m key o := by
  have h' := w.series h
  have hsize : FixedRecord.byteSize KlineRecord < 2 ^ 63 := by decide
  rw [← w.stream_subset_iff h]
  constructor
  · intro hall r hr
    by_cases ho : ∀ e, o.endTs = some e → o.startTs ≤ e
    · obtain ⟨ys, hys, hsub⟩ := hall _ (h.replayable.yields_stream hsize ho)
      obtain ⟨n, rfl⟩ := h'.replayable.yields_take hys
      exact List.mem_of_mem_take (hsub.subset hr)
    · -- no timestamp lies in bounds that are the wrong way round
      exfalso
      obtain ⟨-, hle, hend⟩ := mem_klineStream.1 hr
      refine ho (fun e he => ?_)
      rw [he] at hend
      unfold pastEnd at hend
      simp only [Option.any_some, decide_eq_false_iff_not, not_lt] at hend
      omega
  · intro hsub xs hxs
    have ho : ∀ e, o.endTs = some e → o.startTs ≤ e := by
      obtain ⟨cursor, -, -, -, hcursor, -⟩ := hxs
      exact bounds_of_replay hcursor
    refine ⟨_, h'.replayable.yields_stream hsize ho, ?_⟩
    obtain ⟨n, rfl⟩ := h.replayable.yields_take hxs
    exact (List.take_sublist _ _).trans (strict_sublist h.stream_strict h'.stream_strict hsub)

/-- A mutation begins with the series as they are: no recovery is pending, or it finds nothing to do. -/
def Store.Idle (env : Env) (s : Store) : Prop := (beginMutation env).result s = .ok () ∧
    ∀ e, ((beginMutation env).final s).dirs e = s.dirs e

theorem Store.idle_of_quiet (env : Env) (h : s.pending = false ∨ ∃ C, GoodStore C s) : s.Idle env := by
  rcases h with hp | ⟨C, hg⟩
  · have hrun : beginMutation env s = ([], .ok ()) := by
      unfold beginMutation
      rw [Prog.look_bind, if_neg (by simp [hp])]
      rfl
    unfold Store.Idle Prog.result Prog.final Prog.trace
    rw [hrun]
    exact ⟨rfl, fun _ => rfl⟩
  · obtain ⟨hres, -, hdirs⟩ := beginMutation_good hg env
    exact ⟨hres, hdirs⟩

/-- The manifests that are cached under the names of a call after it: by its handle, and by its process for new
handles. -/
structure Cached where
  handle : SeriesMeta
  process : SeriesMeta

/-- After a call that has loaded one manifest under its names and saved another: the handle keeps what is saved under
the cache key of its own names, the process under the path of these. -/
def cachedAfter (key : ScalarSeriesKey) (loaded saved : SeriesMeta) : Cached where
  handle := refreshed (seriesCacheKey key.symbol key.category key.name) loaded saved
  process := if saved.key.metaPath = key.metaPath then saved else loaded

/-- `merge_kline_month`, with what is cached under the names of the call afterwards. -/
def mergeKlineMonthCached (env : Env) (symbol timeframe key : Text) : Op Cached := do
  beginMutation env
  Prog.emit .arm
  let m ← loadMeta none (klineSeriesDir symbol timeframe)
  let m' ← mergeKlineMonthLocked env symbol timeframe key m
  Prog.emit .disarm
  pure (cachedAfter ⟨symbol, klineCategory, timeframe⟩ m m')

theorem mergeKlineMonth_eq (env : Env) (symbol timeframe key : Text) :
    mergeKlineMonth env symbol timeframe key = (mergeKlineMonthCached env symbol timeframe key >>= fun _ =>
      (pure () : Op Unit)) := by
  unfold mergeKlineMonth mergeKlineMonthCached
  simp only [Prog.bind_assoc]
  rfl

theorem mergeKlineMonth_result : (mergeKlineMonth env symbol timeframe key).result s = .ok () ↔
    ∃ cached, (mergeKlineMonthCached env symbol timeframe key).result s = .ok cached := by
  rw [mergeKlineMonth_eq, Prog.result_bind_eq_ok]
  simp

theorem mergeKlineMonth_final :
    (mergeKlineMonth env symbol timeframe key).final s = (mergeKlineMonthCached env symbol timeframe key).final s :=
  by
  rw [mergeKlineMonth_eq, Prog.final_bind_pure]

theorem loadMeta_final (cached : Option SeriesMeta) (d : Dir) (s : Store) : (loadMeta cached d).final s = s := rfl

/-- A merge of a series runs on the directories that the call has found. -/
theorem mergeKlineMonthCached_run (h : SeriesOk (klineSeriesDir symbol timeframe)
      (s.dirs (klineSeriesDir symbol timeframe)) m) (hq : s.Idle env)
    (key : Text) : ∃ t : Store, (∀ e, t.dirs e = s.dirs e) ∧
      (mergeKlineMonthCached env symbol timeframe key).result s =
        ((mergeKlineMonthLocked env symbol timeframe key m).result t).map (cachedAfter
          ⟨symbol, klineCategory, timeframe⟩ m) ∧
      ∀ e, ((mergeKlineMonthCached env symbol timeframe key).final s).dirs e =
        ((mergeKlineMonthLocked env symbol timeframe key m).final t).dirs e := by
  obtain ⟨hres, hdirs⟩ := hq
  have hload : (loadMeta none (klineSeriesDir symbol timeframe)).result (Journal.Store.apply IoStep.arm
    ((beginMutation env).final s)) = .ok m := by
    unfold loadMeta Prog.result
    rw [Prog.look_bind]
    refine metaFor_series (d := klineSeriesDir symbol timeframe) ?_ (.inl rfl)
    rw [apply_dirs]
    show SeriesOk _ (((beginMutation env).final s).dirs _) m
    rw [hdirs]
    exact h
  -- the marker, before and after, changes no directory
  refine ⟨Journal.Store.apply IoStep.arm ((beginMutation env).final s), fun e => by rw [apply_dirs]; exact hdirs e,
    ?_, fun e => ?_⟩
  · unfold mergeKlineMonthCached
    rw [Prog.result_bind_ok hres, Prog.result_bind_ok (Prog.result_emit _ _), Prog.final_emit,
      Prog.result_bind_ok hload, loadMeta_final]
    cases hm : (mergeKlineMonthLocked env symbol timeframe key m).result (Journal.Store.apply IoStep.arm
      ((beginMutation env).final s)) with
    | error err => rw [Prog.result_bind_error hm]; rfl
    | ok m' => rw [Prog.result_bind_ok hm]; rfl
  · unfold mergeKlineMonthCached
    rw [Prog.final_bind_ok hres, Prog.final_bind_ok (Prog.result_emit _ _), Prog.final_emit, Prog.final_bind_ok hload,
      loadMeta_final]
    cases hm : (mergeKlineMonthLocked env symbol timeframe key m).result (Journal.Store.apply IoStep.arm
      ((beginMutation env).final s)) with
    | error err => rw [Prog.final_bind_error hm]
    | ok m' => rw [Prog.final_bind_ok hm]; rfl

/-- **A merge of a kline series that succeeds leaves it merged.** -/
theorem mergeKlineMonth_merged (h : KlineSeries (klineSeriesDir symbol timeframe)
      (s.dirs (klineSeriesDir symbol timeframe)) m) (hq : s.Idle env)
    (hres : (mergeKlineMonth env symbol timeframe key).result s = .ok ()) :
    ∃ m', Merged (s.dirs (klineSeriesDir symbol timeframe))
    (((mergeKlineMonth env symbol timeframe key).final s).dirs (klineSeriesDir symbol timeframe)) m m' key := by
  obtain ⟨cached, hcached⟩ := mergeKlineMonth_result.1 hres
  obtain ⟨t, ht, hrun, hfin⟩ := mergeKlineMonthCached_run h.toSeriesOk hq key
  rw [hrun] at hcached
  cases hm : (mergeKlineMonthLocked env symbol timeframe key m).result t with
  | error e => rw [hm] at hcached; cases hcached
  | ok m' =>
    refine ⟨m', ?_⟩
    rw [mergeKlineMonth_final, hfin, ← ht]
    exact mergeKlineMonthLocked_merged (by rw [ht]; exact h.toSeriesOk) h.kline rfl hm

/-- **Which merges hide nothing from replay**: whatever a cursor over the bounds yields before, one yields after, in
order. -/
theorem mergeKlineMonth_replay_iff (h : KlineSeries (klineSeriesDir symbol timeframe)
      (s.dirs (klineSeriesDir symbol timeframe)) m)
    (hq : s.pending = false ∨ ∃ C, GoodStore C s)
    (hres : (mergeKlineMonth env symbol timeframe key).result s = .ok ()) (o : ReplayOptions) :
    (∀ xs, Yields KlineRecord (s.dirs (klineSeriesDir symbol timeframe)) o xs →
      ∃ ys, Yields KlineRecord (((mergeKlineMonth env symbol timeframe key).final s).dirs
        (klineSeriesDir symbol timeframe)) o ys ∧ xs.Sublist ys) ↔
      ReplayKept (s.dirs (klineSeriesDir symbol timeframe)) m key o := by
  obtain ⟨m', w⟩ := mergeKlineMonth_merged h (Store.idle_of_quiet env hq) hres
  exact w.yields_iff h

instance (sd : SeriesDir) (m : SeriesMeta) (key : Text) (o : ReplayOptions) : Decidable (ReplayKept sd m key o) :=
  inferInstanceAs (Decidable (_ ∨ _ ∨ _))

theorem GoodSeries.klineSeries {C : Nat} (h : GoodSeries C d sd m) (hm : sd.manifest = .current m)
    (ht : m.recordType = .kline) : KlineSeries d sd m := by
  refine ⟨h.seriesOk hm, ht, fun c hc => ?_⟩
  obtain ⟨name, f, hf, hp, hst⟩ := h.described.stamped c hc
  exact ⟨name, f, hf, hp, hst.seriesId⟩

/-- A kline series with a base and a delta in January, and a base in February. -/
def sampleMonthCalls : List Call := sampleKlineCalls ++ [.putKline .default "X" "1m" [sampleKline 2678400000]]

theorem sampleMonthCalls_ok : CallsOk (Env.plain 5)
    (fun env c s => env.Faultless ∧ c.Regular s) sampleMonthCalls (Store.empty []) := by
  obtain ⟨h1, h2, h3, -⟩ := sampleKlineCalls_ok
  refine ⟨h1, h2, h3, ⟨plain_faultless 5, ?_, trivial, trivial, trivial⟩, trivial⟩
  show OfType .kline _
  decide +kernel

def sampleMonths : Store := runCalls (Env.plain 5) sampleMonthCalls (Store.empty [])

theorem sampleMonths_good : GoodStore 8 sampleMonths := (Run.start.calls sampleMonthCalls_ok).good (by decide)

theorem sampleMonths_series {p : SeriesMeta → Bool} (h : (sampleMonths.dirs (klineSeriesDir "X" "1m")).tests (fun m =>
      decide (m.recordType = .kline) && p m) = true) :
    ∃ m, KlineSeries (klineSeriesDir "X" "1m") (sampleMonths.dirs (klineSeriesDir "X" "1m")) m ∧ p m = true := by
  obtain ⟨m, hm, htest⟩ := SeriesDir.of_tests h
  rw [Bool.and_eq_true, decide_eq_true_iff] at htest
  exact ⟨m, ((sampleMonths_good.dir _).of_current hm).klineSeries hm htest.1, htest.2⟩

/-- From February on, the merge of January hides nothing. -/
theorem mergeKlineMonth_replay_iff_sample :
    (mergeKlineMonth (Env.plain 6) "X" "1m" "1970-01").result sampleMonths = .ok () ∧
    ∀ xs, Yields KlineRecord (sampleMonths.dirs (klineSeriesDir "X" "1m")) ⟨2678400000, none⟩ xs →
      ∃ ys, Yields KlineRecord (((mergeKlineMonth (Env.plain 6) "X" "1m" "1970-01").final sampleMonths).dirs
        (klineSeriesDir "X" "1m")) ⟨2678400000, none⟩ ys ∧
        xs.Sublist ys := by
  have hres : (mergeKlineMonth (Env.plain 6) "X" "1m" "1970-01").result sampleMonths = .ok () := by decide +kernel
  obtain ⟨m, h, hkept⟩ := sampleMonths_series
    (p := fun m => decide (ReplayKept (sampleMonths.dirs (klineSeriesDir "X" "1m")) m "1970-01" ⟨2678400000, none⟩))
      (by decide +kernel)
  exact ⟨hres, (mergeKlineMonth_replay_iff h (.inr ⟨8, sampleMonths_good⟩) hres
    ⟨2678400000, none⟩).2 (of_decide_eq_true hkept)⟩

/-- From the start on, the merge of January hides its first two records: they were sealed, and the merged chunk is
active. -/
theorem merge_hides_sealed : ¬ ∀ (env : Env) (symbol timeframe key : Text) (s : Store) (m : SeriesMeta)
    (o : ReplayOptions),
    KlineSeries (klineSeriesDir symbol timeframe) (s.dirs (klineSeriesDir symbol timeframe)) m →
      (s.pending = false ∨ ∃ C, GoodStore C s) →
    (mergeKlineMonth env symbol timeframe key).result s = .ok () →
    ∀ xs, Yields KlineRecord (s.dirs (klineSeriesDir symbol timeframe)) o xs →
      ∃ ys, Yields KlineRecord (((mergeKlineMonth env symbol timeframe key).final s).dirs
        (klineSeriesDir symbol timeframe)) o ys ∧ xs.Sublist ys := by
  intro hall
  have hres : (mergeKlineMonth (Env.plain 6) "X" "1m" "1970-01").result sampleMonths = .ok () := by decide +kernel
  obtain ⟨m, h, hkept⟩ := sampleMonths_series
    (p := fun m => decide (¬ ReplayKept (sampleMonths.dirs (klineSeriesDir "X" "1m")) m "1970-01" ⟨0, none⟩))
      (by decide +kernel)
  have hq : sampleMonths.pending = false ∨ ∃ C, GoodStore C sampleMonths := .inr ⟨8, sampleMonths_good⟩
  obtain ⟨m', w⟩ := mergeKlineMonth_merged h (Store.idle_of_quiet (Env.plain 6) hq) hres
  exact of_decide_eq_true hkept ((w.yields_iff h).1 (hall (Env.plain 6) "X" "1m" "1970-01" sampleMonths m ⟨0,
    none⟩ h hq hres))

end Stream

end FastK
