import FastK.ScalarWrites
/-!
# Kline writes

A kline write is refused before it has changed a file, or it enters one chunk after all of its month
(`putKlineChunkLocked_run`).  A merge marks the chunks of a month, enters one chunk with their rows in their place and
removes them (`mergeKlineMonthLocked_run`); only a file under the name of the merged chunk can stop it after the mark.
-/
namespace FastK

open Journal Spans

/-! ## The rows of a month -/

/-- The klines of a month, in the order of its chunks. -/
def storedKlines (sd : SeriesDir) (m : SeriesMeta) (key : Text) : List KlineRecord :=
  (m.chunksForPartition key).flatMap (rowsIn .kline sd)

section Rows

variable {d : Dir} {sd : SeriesDir} {m : SeriesMeta} {key : Text}

theorem rowsIn_kline (h : SeriesOk d sd m) (ht : m.recordType = .kline) :
    Stored KlineRecord sd m (rowsIn .kline sd) := by
  have hst := h.stored
  rw [ht] at hst
  exact hst

theorem readKlineChunks_eq (h : SeriesOk d sd m) (ht : m.recordType = .kline) :
    readKlineChunks sd (m.chunksForPartition key) = .ok (storedKlines sd m key) := by
  have hst := rowsIn_kline h ht
  unfold readKlineChunks
  rw [appendChunks_ok (R := KlineRecord) (g := rowsIn .kline sd)]
  · rfl
  · intro c hc out
    have hcm := (mem_chunksForPartition.1 hc).1
    obtain ⟨f, hf, hw⟩ := hst.withChunk_ok klineValidateHeader hcm (fun f hf => hf.validateHeader_ok _ _)
      (fun f => (klineAppendRange f c.startTs c.endTs out).map Prod.snd)
    obtain ⟨path, hpath⟩ := klineAppendRange_ok hf c.startTs c.endTs out
    rw [hw, hpath, hst.inRange_self hcm]
    rfl

theorem storedKlines_keyed (h : SeriesOk d sd m) (ht : m.recordType = .kline) {r : KlineRecord}
    (hr : r ∈ storedKlines sd m key) :
    partitionKey r.ts .month = .ok key := by
  obtain ⟨c, hc, hrc⟩ := List.mem_flatMap.1 hr
  obtain ⟨hcm, rfl⟩ := mem_chunksForPartition.1 hc
  have htr := h.tracked c hcm
  rw [ht, h.head.unit_month (.inl ht)] at htr
  obtain ⟨n, g, hg, ho, he⟩ := htr.rowsIn h.filed
  exact ho.keyed r hrc

theorem storedKlines_ordered (key : Text) (h : SeriesOk d sd m) (ht : m.recordType = .kline) :
    Ordered (storedKlines sd m key) :=
  (rowsIn_kline h ht).ordered.sublist (List.Sublist.flatMap List.filter_sublist _)

theorem storedKlines_ne_nil (h : SeriesOk d sd m) (ht : m.recordType = .kline) (hne : m.chunksForPartition key ≠ []) :
    storedKlines sd m key ≠ [] := by
  intro hnil
  obtain ⟨c, hc⟩ := List.exists_mem_of_ne_nil _ hne
  obtain ⟨f, -, hf, -⟩ := (rowsIn_kline h ht).held c (mem_chunksForPartition.1 hc).1
  exact hf.ne_nil (List.flatMap_eq_nil_iff.1 hnil c hc)

end Rows

/-- A month of klines in order is never refused by the writer. -/
theorem klineChunk_ok {m : SeriesMeta} {rows : List KlineRecord} {key : Text} {o : WriteChunkOptions}
    (ho : Ordered rows) (hne : rows ≠ []) (hkey : ∀ r ∈ rows, partitionKey r.ts .month = .ok key)
    (hpath : Text.isBlank o.relativePath = false) : ∃ p, klineChunk m rows o = .ok p := by
  have hlen := length_month (R := KlineRecord) rfl ho hkey
  unfold klineChunk
  rw [KlineRecord.validateStrictOrder_ok.2 ⟨hne, ho⟩, singleMonth_ok hne hkey]
  simp only
  rw [if_neg (by rw [hpath]; simp)]
  exact assembleChunk_fits (by decide) (by omega) _ _ _ _

theorem klineChunk_entry {m : SeriesMeta} {rows : List KlineRecord} {o : WriteChunkOptions} {f : ChunkFile}
    {c : ChunkMeta} (h : klineChunk m rows o = .ok (f, c)) : c.sidecars = [] ∧ c.state = o.state := by
  obtain ⟨k, -, ha⟩ := klineChunk_assembled h
  obtain ⟨-, rfl, -⟩ := ha.eq
  exact ⟨rfl, rfl⟩

/-! ## Marking a month -/

section Mark

variable {d : Dir} {sd : SeriesDir} {m : SeriesMeta} {key : Text}

theorem markMerging_sameHead (key : Text) (m : SeriesMeta) : m.SameHead (markMerging key m) := rfl

/-- What marking makes of one entry. -/
def marked (key : Text) (c : ChunkMeta) : ChunkMeta := if c.monthKey = key then { c with state := .merging } else c

theorem markMerging_chunks (key : Text) (m : SeriesMeta) : (markMerging key m).chunks = m.chunks.map (marked key) := rfl

theorem sameChunk_marked (key : Text) (c : ChunkMeta) : SameChunk c (marked key c) := by
  unfold marked
  split <;> rfl

theorem marked_of_other {c : ChunkMeta} (h : c.monthKey ≠ key) : marked key c = c := if_neg h

theorem otherChunks_marked (key : Text) (m : SeriesMeta) : otherChunks (markMerging key m) key = otherChunks m key := by
  unfold otherChunks
  rw [markMerging_chunks, List.filter_map]
  have hfilter : m.chunks.filter ((fun e => decide (e.monthKey ≠ key)) ∘ marked key) = m.chunks.filter (fun e =>
    decide (e.monthKey ≠ key)) :=
    List.filter_congr (fun c _ => by rw [Function.comp_apply, (sameChunk_marked key c).monthKey])
  rw [hfilter]
  exact (List.map_congr_left (fun c hc => marked_of_other (by simpa using (List.mem_filter.1 hc).2))).trans
    (List.map_id _)

theorem chunksForPartition_marked (key key' : Text) (m : SeriesMeta) :
    (markMerging key m).chunksForPartition key' = (m.chunksForPartition key').map (marked key) := by
  unfold SeriesMeta.chunksForPartition
  rw [markMerging_chunks, List.filter_map]
  exact congrArg _ (List.filter_congr (fun c _ => by rw [Function.comp_apply, (sameChunk_marked key c).monthKey]))

theorem nextGeneration_marked (key key' : Text) (m : SeriesMeta) :
    nextGeneration ((markMerging key m).chunksForPartition key') = nextGeneration (m.chunksForPartition key') := by
  unfold nextGeneration maxGeneration
  rw [chunksForPartition_marked, List.map_map,
    List.map_congr_left (g := ChunkMeta.generation) (fun c _ =>
      by rw [Function.comp_apply, (sameChunk_marked key c).generation])]

theorem nextChunkId_marked (key : Text) (m : SeriesMeta) : nextChunkId (markMerging key m) = nextChunkId m := by
  unfold nextChunkId
  rw [markMerging_chunks, List.map_map,
    List.map_congr_left (g := ChunkMeta.chunkId) (fun c _ => by rw [Function.comp_apply, sameChunk_marked key c])]

theorem SpanChain.map_same {g : ChunkMeta → ChunkMeta} (hg : ∀ c, SameChunk c (g c)) {l : List ChunkMeta}
    (h : SpanChain l) : SpanChain (l.map g) := by
  unfold SpanChain Chain at *
  rw [List.pairwise_map]
  exact h.imp (fun {a b} hab => by rw [(hg a).endTs, (hg b).startTs]; exact hab)

theorem Fits.marked_valid (h : Fits d sd m) (key : Text) : (markMerging key m).validate = .ok () := by
  refine validate_of_sameHead (markMerging_sameHead key m) h.valid ?_ (h.chain.1.map_same (sameChunk_marked key))
  intro c hc
  rw [markMerging_chunks] at hc
  obtain ⟨e, he, rfl⟩ := List.mem_map.1 hc
  rw [(sameChunk_marked key e).validate]
  exact SeriesMeta.chunk_validate_of_validate h.valid e he

/-- A marked manifest fits as the unmarked one does. -/
theorem Fits.marked (h : Fits d sd m) (key : Text) : Fits d sd (markMerging key m) := by
  refine h.update (markMerging_sameHead key m) (h.marked_valid key) h.filed (fun n g hg => .inl hg) (fun c hc => ?_)
  obtain ⟨e, he, rfl⟩ := List.mem_map.1 hc
  exact (h.tracked e he).same (sameChunk_marked key e)

end Mark

/-! ## Merging -/

section Merge

variable {env : Env} {d : Dir} {symbol timeframe key : Text} {m : SeriesMeta} {s : Store}

theorem HeadOk.kline_homed (h : HeadOk d m) (ht : m.recordType = .kline) : klineSeriesDir m.symbol m.name = d := by
  unfold klineSeriesDir
  rw [← h.category ht]
  exact h.homed

/-- The store once the chunks of a month are marked. -/
def markedStore (env : Env) (d : Dir) (key : Text) (m : SeriesMeta) (s : Store) : Store :=
  exec (saveSteps env d (markMerging key m)) s

theorem markedStore_dir (env : Env) (d : Dir) (key : Text) (m : SeriesMeta) (s : Store) :
    (markedStore env d key m s).dirs d = { s.dirs d with manifest := .current (markMerging key m) } := by
  unfold markedStore saveSteps
  rw [exec_cons, exec_cons, exec_nil, apply_dirs, apply_dirs, IoStep.onDir, if_pos rfl]
  rfl

theorem SeriesOk.markedStore (h : SeriesOk d (s.dirs d) m) (env : Env) (key : Text) :
    SeriesOk d ((markedStore env d key m s).dirs d) (markMerging key m) := by
  rw [markedStore_dir]
  refine ⟨?_, rfl⟩
  have hf := h.toFits.marked key
  exact ⟨hf.valid, hf.head, ⟨hf.filed.congr rfl (fun hd => hd), hf.files.file⟩, fun c hc => hf.tracked c hc⟩

/-- The name a merged chunk gets. -/
def mergedName (m : SeriesMeta) (key : Text) : Text :=
  partitionMergedChunkFileName key (nextGeneration (m.chunksForPartition key))

/-- The run of a merge: the mark, then one chunk in place of the month's. -/
def MergeWritten (env : Env) (d : Dir) (s : Store) (m : SeriesMeta) (key : Text)
    (r : List IoStep × Except FastKError SeriesMeta) : Prop :=
  ∃ m', ∃ w : EntryWrite env d .kline .month ((markedStore env d key m s).dirs d) (markMerging key m) m' key
    (storedKlines (s.dirs d) m key),
    w.kept = otherChunks m key ∧ w.name = mergedName m key ∧
      w.entry.state = mergeOutputState (m.chunksForPartition key) ∧
      w.paths = (m.chunksForPartition key).map ChunkMeta.relativePath ∧
        r = (saveSteps env d (markMerging key m) ++ w.steps, .ok m')

/-- The run of a merge that finds a file under the name of its chunk: the mark stays. -/
def MergeBlocked (env : Env) (d : Dir) (s : Store) (m : SeriesMeta) (key : Text)
    (r : List IoStep × Except FastKError SeriesMeta) : Prop :=
  m.chunksForPartition key ≠ [] ∧ (s.dirs d).hasFile (mergedName m key) = true ∧
    r = (saveSteps env d (markMerging key m) ++ [.makeChunksDir d],
      .error (destinationExists (markedStore env d key m s) d (mergedName m key)))

theorem replace_marked_ok {sd : SeriesDir} {name : Text} {f : ChunkFile} {rows : List KlineRecord} {c : ChunkMeta}
    (h : Fits d sd m) (hu : m.unit = .month) (w : Laid .kline .month sd m key name f rows c) (now : Int) :
    ∃ m', replaceMonthChunks now m key c = .ok (m', m.chunksForPartition key) ∧
      Entered .kline .month sd m (otherChunks m key) key name f rows c m' := by
  have hent : Entered .kline .month sd m (otherChunks m key) key name f rows c
      { m.withChunks now (otherChunks m key ++ [c])
        with activeChunkId := lastActive (m.withChunks now (otherChunks m key ++ [c])).chunks } :=
    ⟨w, rfl, rfl, .inl rfl, .inl rfl⟩
  refine ⟨_, ?_, hent⟩
  unfold replaceMonthChunks
  simp only
  rw [show (m.chunks.filter (fun c => decide (c.monthKey ≠ key))) = otherChunks m key from rfl,
    checked_eq_ok.2 ⟨hent.valid h hu, rfl⟩]

/-- Chunks that are active or sealed may be merged. -/
theorem checkTransitions_ok : ∀ {cs : List ChunkMeta}, (∀ c ∈ cs, c.state = .active ∨ c.state = .sealed) →
    checkTransitions cs = .ok ()
  | [], _ => rfl
  | c :: cs, h => by
    unfold checkTransitions
    rw [if_pos (by rcases h c List.mem_cons_self with hs | hs <;> rw [hs] <;> rfl)]
    exact checkTransitions_ok (fun e he => h e (List.mem_cons_of_mem _ he))

/-- **A merge has nothing to do, is refused without a trace, is stopped by a file, or enters its chunk.** -/
theorem mergeKlineMonthLocked_run (env : Env) (key : Text) (h : SeriesOk d (s.dirs d) m) (ht : m.recordType = .kline)
    (hd : klineSeriesDir symbol timeframe = d) :
    ((m.chunksForPartition key).length ≤ 1 ∧ mergeKlineMonthLocked env symbol timeframe key m s = ([], .ok m)) ∨
      ((∃ e, checkTransitions (m.chunksForPartition key) = .error e) ∧
        Refused (mergeKlineMonthLocked env symbol timeframe key m s)) ∨
      MergeBlocked env d s m key (mergeKlineMonthLocked env symbol timeframe key m s) ∨
      (1 < (m.chunksForPartition key).length ∧
        MergeWritten env d s m key (mergeKlineMonthLocked env symbol timeframe key m s)) := by
  unfold mergeKlineMonthLocked
  simp only [hd]
  by_cases hlen : (m.chunksForPartition key).length ≤ 1
  · rw [if_pos hlen]
    exact .inl ⟨hlen, rfl⟩
  · rw [if_neg hlen]
    have hne : m.chunksForPartition key ≠ [] := by
      rintro hnil
      rw [hnil] at hlen
      exact hlen (by decide)
    have ho := storedKlines_ordered key h ht
    have hrows := storedKlines_ne_nil h ht hne
    have hkeyed : ∀ r ∈ storedKlines (s.dirs d) m key, partitionKey r.ts .month = .ok key :=
      fun r hr => storedKlines_keyed h ht hr
    rw [Prog.look_bind, readKlineChunks_eq h ht, Prog.lift_ok_bind, KlineRecord.validateStrictOrder_ok.2 ⟨hrows, ho⟩,
      Prog.lift_ok_bind]
    cases htr : checkTransitions (m.chunksForPartition key) with
    | error e => exact .inr (.inl ⟨⟨e, rfl⟩, refused_lift e _ s⟩)
    | ok _ =>
      have hm := h.markedStore env key
      have hu : (markMerging key m).unit = .month := hm.head.unit_month (.inl ht)
      have hfold : exec (saveSteps env d (markMerging key m)) s = markedStore env d key m s := rfl
      rw [Prog.lift_ok_bind, h.head.kline_homed ht, Prog.bind_run (saveSeriesMeta_run (h.toFits.marked_valid key) s),
        hfold]
      -- the options name the next generation of the month, marked or not
      have hplan : PlanFor (markMerging key m) key (mergedName m key)
          (replaceOptions m (m.chunksForPartition key) key (mergeOutputState (m.chunksForPartition key))).2 := by
        exact ⟨(nextChunkId_marked key m).symm, (nextGeneration_marked key key m).symm, rfl, rfl,
          mergeOutputState_ready _, .inr (.inr rfl)⟩
      have hname : (replaceOptions m (m.chunksForPartition key) key (mergeOutputState (m.chunksForPartition key))).1 =
        mergedName m key := rfl
      have hstate : (replaceOptions m (m.chunksForPartition key) key
        (mergeOutputState (m.chunksForPartition key))).2.state =
          mergeOutputState (m.chunksForPartition key) := rfl
      generalize replaceOptions m (m.chunksForPartition key) key (mergeOutputState (m.chunksForPartition key)) = no
        at hplan hname hstate ⊢
      obtain ⟨name, o⟩ := no
      simp only at hplan hname hstate ⊢
      subst hname
      obtain ⟨⟨f, c⟩, hchunk⟩ := klineChunk_ok (m := markMerging key m) (o := o) ho hrows hkeyed
        (by rw [hplan.path]; exact chunkRelativePath_not_blank _)
      have hkey : monthKey (firstTs (storedKlines (s.dirs d) m key)) = .ok key := by
        obtain ⟨r, hr, hfirst⟩ := exists_firstTs hrows
        rw [← hfirst]
        exact hkeyed r hr
      rw [hchunk, Prog.lift_ok_bind]
      simp only
      cases hfile : ((markedStore env d key m s).dirs d).hasFile (mergedName m key) with
      | true =>
        rw [Prog.bind_run_error (atomicWriteNew_exists hfile)]
        refine .inr (.inr (.inl ⟨hne, ?_, rfl⟩))
        rw [markedStore_dir] at hfile
        exact hfile
      | false =>
        have w := klineChunk_laid hplan hfile hkey hchunk
        obtain ⟨m', hreplace, hent⟩ := replace_marked_ok hm.toFits hu w env.now
        rw [Prog.bind_run (atomicWriteNew_run hfile), hreplace, Prog.lift_ok_bind]
        simp only
        rw [(hm.head.sameHead hent.head).kline_homed (hent.head.recordType.trans ht),
          Prog.bind_run (saveSeriesMeta_run (hent.valid hm.toFits hu) _), Prog.bind_run (removeFiles_run _ _)]
        have hwrite : ∃ w : EntryWrite env d .kline .month ((markedStore env d key m s).dirs d)
          (markMerging key m) m' key
            (storedKlines (s.dirs d) m key), w.kept = otherChunks m key ∧ w.name = mergedName m key ∧
            w.entry.state = mergeOutputState (m.chunksForPartition key) ∧
            w.paths = (m.chunksForPartition key).map ChunkMeta.relativePath ∧
            w.steps = commitSteps env d (writeSteps env d (mergedName m key) (.chunk f)) m'
              (((markMerging key m).chunksForPartition key).map ChunkMeta.relativePath) := by
          refine ⟨⟨_, mergedName m key, f, _, _, _, hent, writeSteps_lays,
            ⟨tempNameFor env _, publish_mem_writeSteps⟩, ?_, ?_, ?_, ?_⟩,
            otherChunks_marked key m, rfl, (klineChunk_entry hchunk).2.trans hstate, ?_, rfl⟩
          · intro path hp
            obtain ⟨e, he, rfl⟩ := List.mem_map.1 hp
            obtain ⟨hem, hek⟩ := mem_chunksForPartition.1 he
            exact ⟨e, hem, fun hother => (mem_otherChunks.1 hother).2 hek, List.mem_cons_self⟩
          · intro e he hnot
            exact List.mem_map_of_mem (mem_chunksForPartition.2 ⟨he, not_mem_otherChunks he hnot⟩)
          · exact fun _ => ⟨(klineChunk_entry hchunk).1, fun n temp body hpub =>
              by rw [publish_writeSteps hpub]; exact w.file.named.isChunkName⟩
          · intro hts
            cases hts
          · show ((markMerging key m).chunksForPartition key).map ChunkMeta.relativePath = _
            rw [chunksForPartition_marked, List.map_map]
            exact List.map_congr_left (fun c _ => (sameChunk_marked key c).relativePath)
        obtain ⟨ew, hkept, hname, hentry, hpaths, hsteps⟩ := hwrite
        refine .inr (.inr (.inr ⟨not_le.1 hlen, m', ew, hkept, hname, hentry, hpaths, ?_⟩))
        rw [hsteps]
        simp only [commitSteps, Prog.pure_run, List.append_assoc, List.append_nil]

end Merge

/-! ## Putting -/

section Put

variable {env : Env} {policy : CompactionPolicy} {d : Dir} {symbol timeframe : Text} {records : List KlineRecord}
    {cached : Option SeriesMeta}
  {m : SeriesMeta} {s : Store}

theorem upsert_activate_ok {sd : SeriesDir} {t : RecordType} {u : PartitionUnit} {key name : Text} {f : ChunkFile}
    {rows : List t.Row} {c : ChunkMeta} (h : Fits d sd m) (hu : m.unit = u) (w : Laid t u sd m key name f rows c)
    (hafter : ∀ e ∈ m.chunks, e.monthKey = key → e.endTs < c.startTs)
    (hact : m.chunksForPartition key ≠ [] → c.state = .active) (now : Int) :
    ∃ m', upsertChunkMeta now m c = .ok m' ∧ Entered t u sd m m.chunks key name f rows c (activate c m') := by
  have hplace : ∀ e ∈ m.chunks, e.monthKey = key → e.endTs < c.startTs ∧ c.state = .active := fun e he hk =>
    ⟨hafter e he hk, hact (List.ne_nil_of_mem (mem_chunksForPartition.2 ⟨he, hk⟩))⟩
  have hent : Entered t u sd m m.chunks key name f rows c (m.withChunks now (m.chunks ++ [c])) :=
    ⟨w, rfl, rfl, .inr ⟨rfl, hplace⟩, .inr (.inl ⟨rfl, rfl⟩)⟩
  refine ⟨m.withChunks now (m.chunks ++ [c]), ?_, ?_⟩
  · rw [upsert_new (fun e he => by have := chunkId_lt_next he; rw [w.chunkId]; omega),
      checked_eq_ok.2 ⟨hent.valid h hu, rfl⟩]
  · unfold activate
    split
    · rename_i hact
      exact ⟨w, rfl, rfl, .inr ⟨rfl, hplace⟩, .inr (.inr ⟨hact, rfl⟩)⟩
    · exact hent

/-- `put_kline_chunk_locked` up to the save of the new chunk: the manifest it has loaded, the month, and the manifest
it has saved. -/
def writeKlineChunk (env : Env) (symbol timeframe : Text) (records : List KlineRecord) (cached : Option SeriesMeta) :
    Op (SeriesMeta × Text × SeriesMeta) := do
  let d := klineSeriesDir symbol timeframe
  let m ← loadMeta cached d
  Prog.lift (nonEmpty records)
  let key ← Prog.lift (monthKey (firstTs records))
  let (name, o) ← Prog.lift
    (appendOptions "append overlaps existing month chunk: " m key (monthChunkFileName (firstTs records))
      (firstTs records))
  Prog.emit .arm
  let (f, c) ← Prog.lift (klineChunk m records o)
  atomicWriteNew env d name (.chunk f)
  let m' ← Prog.lift (upsertChunkMeta env.now m c)
  let m' := activate c m'
  saveSeriesMeta env (klineSeriesDir m'.symbol m'.name) m'
  pure (m, key, m')

/-- The rest of it: the merge the policy asks for. -/
def compactKlineChunk (env : Env) (policy : CompactionPolicy) (symbol timeframe : Text)
    (x : SeriesMeta × Text × SeriesMeta) : Op SeriesMeta := do
  let m' ← if mergeDue policy x.2.2 x.2.1 then mergeKlineMonthLocked env symbol timeframe x.2.1 x.2.2 else pure x.2.2
  Prog.emit .disarm
  pure (refreshed (seriesCacheKey symbol klineCategory timeframe) x.1 m')

theorem putKlineChunkLocked_eq (env : Env) (policy : CompactionPolicy) (symbol timeframe : Text)
    (records : List KlineRecord) (cached : Option SeriesMeta) :
    putKlineChunkLocked env policy symbol timeframe records cached =
      writeKlineChunk env symbol timeframe records cached >>= compactKlineChunk env policy symbol timeframe := by
  unfold putKlineChunkLocked writeKlineChunk compactKlineChunk
  simp only [Prog.bind_assoc]
  rfl

/-- A kline write whose checks pass and whose name is free enters its chunk. -/
theorem writeKlineChunk_enters {key name : Text} {o : WriteChunkOptions} {f : ChunkFile} {c : ChunkMeta} (env : Env)
    (h : SeriesOk d (s.dirs d) m) (ht : m.recordType = .kline) (hd : klineSeriesDir symbol timeframe = d)
    (hc : cached = none ∨ cached = some m) (hne : nonEmpty records = .ok ())
    (hkey : monthKey (firstTs records) = .ok key)
    (hopt : appendOptions "append overlaps existing month chunk: " m key (monthChunkFileName (firstTs records))
      (firstTs records) = .ok (name, o))
    (hchunk : klineChunk m records o = .ok (f, c)) (hfile : (s.dirs d).hasFile name = false) :
    ∃ m', ∃ w : EntryWrite env d .kline .month (s.dirs d) m m' key records, w.kept = m.chunks ∧
      writeKlineChunk env symbol timeframe records cached s = (w.steps, .ok (m, key, m')) := by
  have hu := h.head.unit_month (.inl ht)
  have hload : loadMeta cached d s = ([], .ok m) := by
    unfold loadMeta
    rw [Prog.look_bind, metaFor_series h hc]
    rfl
  obtain ⟨hplan, hlast, hstate⟩ := appendOptions_plan (monthChunkFileName_eq hkey) hopt
  have hfile' : ((Journal.Store.apply IoStep.arm s).dirs d).hasFile name = false := hfile
  have w : Laid .kline .month (s.dirs d) _ _ _ _ _ _ := klineChunk_laid hplan hfile hkey hchunk
  have hstart : c.startTs = firstTs records := w.entry.startTs.trans w.file.holds.startTs_eq
  obtain ⟨m1, hup, hent⟩ := upsert_activate_ok h.toFits hu w (by rw [hstart]; exact h.toFits.partition_before hlast)
    (fun hne => (klineChunk_entry hchunk).2.trans (hstate hne)) env.now
  unfold writeKlineChunk
  simp only [hd]
  rw [Prog.bind_run hload, hne, Prog.lift_ok_bind, hkey, Prog.lift_ok_bind, hopt, Prog.lift_ok_bind]
  simp only [exec_nil, List.nil_append, Prod.mk.eta]
  rw [Prog.emit_bind, hchunk, Prog.lift_ok_bind]
  simp only
  rw [Prog.bind_run (atomicWriteNew_run hfile'), hup, Prog.lift_ok_bind]
  simp only
  rw [(h.head.sameHead hent.head).kline_homed (hent.head.recordType.trans ht),
    Prog.bind_run (saveSeriesMeta_run (hent.valid h.toFits hu) _)]
  have hwrite : ∃ w : EntryWrite env d .kline .month (s.dirs d) m (activate c m1) key records, w.kept = m.chunks ∧
      w.steps = commitSteps env d (.arm :: writeSteps env d name (.chunk f)) (activate c m1) [] := by
    refine ⟨⟨_, name, f, _, _, _, hent, ?_, ⟨tempNameFor env _, List.mem_cons_of_mem _ publish_mem_writeSteps⟩, ?_,
      ?_, ?_, ?_⟩, rfl, rfl⟩
    · intro k hk
      rcases List.mem_cons.1 hk with rfl | hk
      · exact .calm rfl
      · exact writeSteps_lays k hk
    · intro path hp
      cases hp
    · exact fun e he hnot => absurd he hnot
    · refine fun _ => ⟨(klineChunk_entry hchunk).1, fun n temp body hpub => ?_⟩
      rcases List.mem_cons.1 hpub with heq | hpub
      · cases heq
      · rw [publish_writeSteps hpub]
        exact w.file.named.isChunkName
    · intro hts
      cases hts
  obtain ⟨ew, hkept, hsteps⟩ := hwrite
  refine ⟨activate c m1, ew, hkept, ?_⟩
  rw [hsteps]
  unfold commitSteps removeSteps
  simp only [Prog.pure_run, List.cons_append, List.filter_nil, List.map_nil, List.append_nil]

/-- **A kline write is refused without a trace, or enters its chunk.** -/
theorem writeKlineChunk_run (env : Env) (records : List KlineRecord) (h : SeriesOk d (s.dirs d) m)
    (ht : m.recordType = .kline) (hd : klineSeriesDir symbol timeframe = d) (hc : cached = none ∨ cached = some m) :
    Refused (writeKlineChunk env symbol timeframe records cached s) ∨
      ∃ key m', ∃ w : EntryWrite env d .kline .month (s.dirs d) m m' key records,
        monthKey (firstTs records) = .ok key ∧ w.kept = m.chunks ∧
        writeKlineChunk env symbol timeframe records cached s = (w.steps, .ok (m, key, m')) := by
  have hload : loadMeta cached d s = ([], .ok m) := by
    unfold loadMeta
    rw [Prog.look_bind, metaFor_series h hc]
    rfl
  have hrun : writeKlineChunk env symbol timeframe records cached s = writeKlineChunk env symbol timeframe records
    cached s := rfl
  conv at hrun =>
    rhs
    unfold writeKlineChunk
    simp only [hd]
    rw [Prog.bind_run hload]
    simp only [exec_nil, List.nil_append, Prod.mk.eta]
  cases hne : nonEmpty records with
  | error e =>
    rw [hrun, hne]
    exact .inl (refused_lift e _ s)
  | ok _ =>
    rw [hne, Prog.lift_ok_bind] at hrun
    cases hkey : monthKey (firstTs records) with
    | error e =>
      rw [hrun, hkey]
      exact .inl (refused_lift e _ s)
    | ok key =>
      rw [hkey, Prog.lift_ok_bind] at hrun
      cases hopt : appendOptions "append overlaps existing month chunk: " m key (monthChunkFileName (firstTs records))
        (firstTs records) with
      | error e =>
        rw [hrun, hopt]
        exact .inl (refused_lift e _ s)
      | ok no =>
        obtain ⟨name, o⟩ := no
        rw [hopt, Prog.lift_ok_bind] at hrun
        simp only at hrun
        rw [Prog.emit_bind] at hrun
        cases hchunk : klineChunk m records o with
        | error e =>
          rw [hrun, hchunk]
          exact .inl ((refused_lift e _ _).cons rfl)
        | ok fc =>
          obtain ⟨f, c⟩ := fc
          rw [hchunk, Prog.lift_ok_bind] at hrun
          simp only at hrun
          cases hfile : (s.dirs d).hasFile name with
          | true =>
            have hfile' : ((Journal.Store.apply IoStep.arm s).dirs d).hasFile name = true := hfile
            rw [Prog.bind_run_error (atomicWriteNew_exists hfile')] at hrun
            rw [hrun]
            exact .inl ⟨⟨_, rfl⟩, by simp [IoStep.calm]⟩
          | false =>
            obtain ⟨m', w, hkept, hw⟩ := writeKlineChunk_enters env h ht hd hc hne hkey hopt hchunk hfile
            exact .inr ⟨key, m', w, rfl, hkept, hw⟩

/-- Rows that come after the chunks of their partition have a place. -/
theorem appendOptions_ok (overlap : Text) {m : SeriesMeta} {key : Text} {firstName : Result Text} {first : Int}
    (hname : firstName = .ok (partitionChunkFileName key)) (h : ∀ e ∈ m.chunks, e.monthKey = key → e.endTs < first) :
    ∃ p, appendOptions overlap m key firstName first = .ok p := by
  unfold appendOptions
  rw [hname]
  simp only
  cases hlast : (m.chunksForPartition key).getLast? with
  | none => exact ⟨_, rfl⟩
  | some last =>
    obtain ⟨hm, hk⟩ := mem_chunksForPartition.1 (List.mem_of_getLast? hlast)
    have := h last hm hk
    simp only
    rw [if_neg (by omega)]
    exact ⟨_, rfl⟩

/-- **A month of klines after those there are is entered**, where its name is free. -/
theorem writeKlineChunk_accepts {key : Text} (env : Env) (h : SeriesOk d (s.dirs d) m) (ht : m.recordType = .kline)
    (hd : klineSeriesDir symbol timeframe = d) (hc : cached = none ∨ cached = some m) (ho : Ordered records)
    (hnil : records ≠ []) (hkeyed : ∀ r ∈ records, partitionKey r.ts .month = .ok key)
    (hafter : ∀ e ∈ m.chunks, e.monthKey = key → e.endTs < firstTs records)
    (hfree : ∀ name, NamedFor key (nextGeneration (m.chunksForPartition key)) name →
      (s.dirs d).hasFile name = false) :
    ∃ m', ∃ w : EntryWrite env d .kline .month (s.dirs d) m m' key records, w.kept = m.chunks ∧
      writeKlineChunk env symbol timeframe records cached s = (w.steps, .ok (m, key, m')) := by
  obtain ⟨r, hr, hfirst⟩ := exists_firstTs hnil
  have hkey : monthKey (firstTs records) = .ok key := by
    rw [← hfirst]
    exact hkeyed r hr
  obtain ⟨⟨name, o⟩, hopt⟩ :=
    appendOptions_ok "append overlaps existing month chunk: " (monthChunkFileName_eq hkey) hafter
  obtain ⟨hplan, -, -⟩ := appendOptions_plan (monthChunkFileName_eq hkey) hopt
  have hname : (s.dirs d).hasFile name = false := by
    refine hfree name ?_
    rw [← hplan.generation]
    exact hplan.named
  obtain ⟨⟨f, c⟩, hchunk⟩ :=
    klineChunk_ok (m := m) (o := o) ho hnil hkeyed (by rw [hplan.path]; exact chunkRelativePath_not_blank _)
  have hne : nonEmpty records = .ok () := by
    unfold nonEmpty
    rw [if_neg (by simpa using hnil)]
  exact writeKlineChunk_enters env h ht hd hc hne hkey hopt hchunk hname

/-- The run of a kline write that is not refused: the rows enter after their month's, and a merge may follow. -/
structure KlineWritten (env : Env) (policy : CompactionPolicy) (d : Dir) (symbol timeframe : Text) (s : Store)
    (m : SeriesMeta) (records : List KlineRecord) (r : List IoStep × Except FastKError SeriesMeta) where
  key : Text
  m' : SeriesMeta
  write : EntryWrite env d .kline .month (s.dirs d) m m' key records
  key_eq : monthKey (firstTs records) = .ok key
  kept_eq : write.kept = m.chunks
  run_eq : mergeDue policy m' key = false ∧
      r = (write.steps ++ [.disarm], .ok (refreshed (seriesCacheKey symbol klineCategory timeframe) m m')) ∨
    mergeDue policy m' key = true ∧
      ((∃ e, (mergeKlineMonthLocked env symbol timeframe key m' (exec write.steps s)).2 = .error e ∧
        r = (write.steps ++ (mergeKlineMonthLocked env symbol timeframe key m' (exec write.steps s)).1, .error e)) ∨
      ∃ m'', (mergeKlineMonthLocked env symbol timeframe key m' (exec write.steps s)).2 = .ok m'' ∧
        r = (write.steps ++ (mergeKlineMonthLocked env symbol timeframe key m' (exec write.steps s)).1 ++ [.disarm],
          .ok (refreshed (seriesCacheKey symbol klineCategory timeframe) m m'')))

/-- **A kline put is refused without a trace, or enters its chunk**, and a merge may follow. -/
theorem putKlineChunkLocked_run (env : Env) (policy : CompactionPolicy) (records : List KlineRecord)
    (h : SeriesOk d (s.dirs d) m) (ht : m.recordType = .kline) (hd : klineSeriesDir symbol timeframe = d)
    (hc : cached = none ∨ cached = some m) :
    Refused (putKlineChunkLocked env policy symbol timeframe records cached s) ∨
      Nonempty (KlineWritten env policy d symbol timeframe s m records
        (putKlineChunkLocked env policy symbol timeframe records cached s)) := by
  rw [putKlineChunkLocked_eq]
  rcases writeKlineChunk_run env records h ht hd hc with ⟨⟨e, he⟩, hcalm⟩ | ⟨key, m', w, hkey, hkept, hrun⟩
  · have hrun : writeKlineChunk env symbol timeframe records cached s = (_, .error e) := Prod.ext rfl he
    rw [Prog.bind_run_error hrun]
    exact .inl ⟨⟨e, rfl⟩, hcalm⟩
  · rw [Prog.bind_run hrun]
    unfold compactKlineChunk
    simp only
    right
    cases hdue : mergeDue policy m' key with
    | false =>
      rw [if_neg (by simp)]
      exact ⟨⟨key, m', w, hkey, hkept, .inl ⟨hdue, rfl⟩⟩⟩
    | true =>
      rw [if_pos rfl]
      refine ⟨⟨key, m', w, hkey, hkept, .inr ⟨hdue, ?_⟩⟩⟩
      cases hmerge : (mergeKlineMonthLocked env symbol timeframe key m' (exec w.steps s)).2 with
      | error e =>
        have hmrun : mergeKlineMonthLocked env symbol timeframe key m' (exec w.steps s) = (_, .error e) :=
          Prod.ext rfl hmerge
        rw [Prog.bind_run_error hmrun]
        exact .inl ⟨e, rfl, rfl⟩
      | ok m'' =>
        have hmrun : mergeKlineMonthLocked env symbol timeframe key m' (exec w.steps s) = (_, .ok m'') :=
          Prod.ext rfl hmerge
        refine .inr ⟨m'', rfl, ?_⟩
        rw [Prog.bind_run hmrun, List.append_assoc]
        rfl

end Put

end FastK
