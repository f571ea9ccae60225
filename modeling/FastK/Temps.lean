import FastK.Writes
/-!
# Temporary files

A write stages its bytes in a temporary file beside the destination and renames it.  A call that is not stopped leaves
no temporary file behind (`Call.run_noTemps`); what a stopped call leaves lies where the scans of recovery and
validation see it (`Store.seen`).
-/
namespace FastK

open Journal

/-! ## What the scans see -/

/-- The temporary file of a manifest lies in the series directory, any other below `chunks/`. -/
def isManifestTemp (temp : Text) : Bool := manifestFile.isPrefixOf temp

/-- The temporary files below `chunks/` of a directory. -/
def Store.chunkTemps (s : Store) (d : Dir) : List Text :=
  (s.temps.filter (fun t => decide (t.1 = d) && !isManifestTemp t.2)).map Prod.snd

/-- A directory with the temporary files that lie below its `chunks/`. -/
def Store.seen (s : Store) (d : Dir) : SeriesDir :=
  { s.dirs d with files := (s.dirs d).files ++ (s.chunkTemps d).map (fun temp => (temp, .raw [])) }

def Store.NoTemps (s : Store) : Prop := s.temps = []

theorem Store.NoTemps.seen {s : Store} (h : s.NoTemps) (d : Dir) : s.seen d = s.dirs d := by
  unfold Store.seen Store.chunkTemps
  rw [show s.temps = [] from h]
  simp

/-! ## Programs that leave no temporary file -/

/-- The program leaves no temporary file where there was none. -/
def CleansUp {α : Type} (p : Op α) : Prop := ∀ s : Store, s.NoTemps → (p.final s).NoTemps

section Programs

variable {α β : Type} {p : Op α} {f : α → Op β}

theorem cleansUp_pure (a : α) : CleansUp (pure a : Op α) := fun _ h => h

theorem cleansUp_lift (r : Result α) : CleansUp (Prog.lift r : Op α) := fun _ h => h

theorem cleansUp_fail (e : FastKError) : CleansUp (Prog.fail e : Op α) := fun _ h => h

theorem cleansUp_look : CleansUp (Prog.look : Op Store) := fun _ h => h

theorem cleansUp_bind (hp : CleansUp p) (hf : ∀ a, CleansUp (f a)) : CleansUp (p >>= f) := fun s h =>
  Prog.final_bind_of (hp s h) (fun a _ => hf a _ (hp s h))

theorem cleansUp_mapError {g : FastKError → FastKError} (hp : CleansUp p) : CleansUp (p.mapError g) := fun s h => by
  rw [Prog.final_mapError]
  exact hp s h

theorem cleansUp_ite {c : Prop} [Decidable c] {q : Op α} (hp : CleansUp p) (hq : CleansUp q) :
    CleansUp (if c then p else q) := by
  by_cases hc : c
  · rw [if_pos hc]
    exact hp
  · rw [if_neg hc]
    exact hq

theorem cleansUp_forEach {g : α → Op Unit} (hg : ∀ a, CleansUp (g a)) : ∀ as : List α, CleansUp (Prog.forEach g as)
  | [] => cleansUp_pure ()
  | a :: as => cleansUp_bind (hg a) (fun _ => cleansUp_forEach hg as)

/-- A step that stages nothing. -/
theorem cleansUp_emit {k : IoStep} (h : ∀ s : Store, s.NoTemps → (Journal.Store.apply k s).NoTemps) :
    CleansUp (Prog.emit k : Op Unit) := h

/-- A program run in two parts: one step, and the rest. -/
theorem cleansUp_stage {d : Dir} {temp : Text} {k : IoStep} (h : ∀ s : Store, s.temps = [(d, temp)] →
      (Journal.Store.apply k s).NoTemps) :
    CleansUp (do
      Prog.emit (.stage d temp)
      Prog.emit k : Op Unit) := by
  intro s hs
  refine h _ ?_
  show s.temps ++ [(d, temp)] = _
  rw [show s.temps = [] from hs]
  rfl

end Programs

/-! ## The programs of the store -/

theorem arm_cleansUp : CleansUp (Prog.emit .arm : Op Unit) := cleansUp_emit (fun _ h => h)

theorem disarm_cleansUp : CleansUp (Prog.emit .disarm : Op Unit) := cleansUp_emit (fun _ h => h)

theorem makeChunksDir_cleansUp (d : Dir) : CleansUp (Prog.emit (.makeChunksDir d) : Op Unit) :=
  cleansUp_emit (fun _ h => h)

theorem publish_cleansUp (d : Dir) (name temp : Text) (body : FileBody) :
    CleansUp (do
      Prog.emit (.stage d temp)
      Prog.emit (.publish d name temp body) : Op Unit) := cleansUp_stage (fun s h => by
  show s.temps.erase (d, temp) = []
  rw [h, List.erase_cons_head])

theorem publishManifest_cleansUp (d : Dir) (temp : Text) (m : SeriesMeta) :
    CleansUp (do
      Prog.emit (.stage d temp)
      Prog.emit (.publishManifest d temp m) : Op Unit) := cleansUp_stage (fun s h => by
  show s.temps.erase (d, temp) = []
  rw [h, List.erase_cons_head])

theorem atomicWriteNew_cleansUp (env : Env) (d : Dir) (name : Text) (body : FileBody) :
    CleansUp (atomicWriteNew env d name body) := by
  unfold atomicWriteNew
  refine cleansUp_bind (makeChunksDir_cleansUp d) (fun _ => cleansUp_bind cleansUp_look (fun s => ?_))
  exact cleansUp_ite (cleansUp_fail _) (publish_cleansUp d name _ body)

theorem atomicWriteReplace_cleansUp (env : Env) (d : Dir) (name : Text) (body : FileBody) :
    CleansUp (atomicWriteReplace env d name body) :=
  cleansUp_bind (makeChunksDir_cleansUp d) (fun _ => publish_cleansUp d name _ body)

theorem saveSeriesMeta_cleansUp (env : Env) (d : Dir) (m : SeriesMeta) : CleansUp (saveSeriesMeta env d m) :=
  cleansUp_bind (cleansUp_lift _) (fun _ => publishManifest_cleansUp d _ m)

theorem removeFiles_cleansUp (env : Env) (d : Dir) (paths : List Text) : CleansUp (removeFiles env d paths) :=
  cleansUp_forEach (fun path =>
    cleansUp_ite (cleansUp_pure ()) (cleansUp_emit (k := .removeFile d path) (fun _ h => h))) paths

theorem recoverDirs_cleansUp (env : Env) : ∀ (ds : List Dir)
    (report : RecoveryReport), CleansUp (recoverDirs env ds report)
  | [], report => cleansUp_pure report
  | d :: ds, report => by
    unfold recoverDirs
    refine cleansUp_bind cleansUp_look (fun s => cleansUp_bind ?_ (fun _ => cleansUp_bind (cleansUp_lift _) (fun r =>
      recoverDirs_cleansUp env ds r)))
    exact cleansUp_forEach (publishManifest_cleansUp d _) _

theorem startupRecoverLocked_cleansUp (env : Env) : CleansUp (startupRecoverLocked env) := by
  unfold startupRecoverLocked
  refine cleansUp_bind cleansUp_look (fun s => cleansUp_bind (cleansUp_emit (fun _ _ => rfl)) (fun _ =>
    cleansUp_ite ?_ ?_))
  · exact cleansUp_bind (recoverDirs_cleansUp env _ _) (fun _ => cleansUp_bind disarm_cleansUp (fun _ =>
      cleansUp_pure _))
  · exact cleansUp_bind disarm_cleansUp (fun _ => cleansUp_pure _)

theorem beginMutation_cleansUp (env : Env) : CleansUp (beginMutation env) :=
  cleansUp_bind cleansUp_look (fun _ => cleansUp_ite
    (cleansUp_bind (startupRecoverLocked_cleansUp env) (fun _ => cleansUp_pure ())) (cleansUp_pure ()))

theorem initLocked_cleansUp (env : Env) : CleansUp (initLocked env) :=
  cleansUp_bind (cleansUp_emit (fun _ h => h)) (fun _ => cleansUp_bind (startupRecoverLocked_cleansUp env) (fun _ =>
    cleansUp_pure ()))

theorem ensureSeriesRoot_cleansUp (env : Env) : CleansUp (ensureSeriesRoot env) :=
  cleansUp_bind cleansUp_look (fun _ => cleansUp_ite (cleansUp_pure ()) (initLocked_cleansUp env))

theorem loadMeta_cleansUp (cached : Option SeriesMeta) (d : Dir) : CleansUp (loadMeta cached d) :=
  cleansUp_bind cleansUp_look (fun _ => cleansUp_lift _)

theorem loadExisting_cleansUp (cached : Option SeriesMeta) (d : Dir) : CleansUp (loadExisting cached d) :=
  cleansUp_bind cleansUp_look (fun _ => cleansUp_lift _)

theorem createSeries_cleansUp (env : Env) (d : Dir) (m : SeriesMeta) : CleansUp (createSeries env d m) :=
  cleansUp_bind arm_cleansUp (fun _ => cleansUp_bind (makeChunksDir_cleansUp d) (fun _ =>
    cleansUp_bind (saveSeriesMeta_cleansUp env d m)
    (fun _ => cleansUp_bind disarm_cleansUp (fun _ => cleansUp_pure m))))

theorem registerKlineSeriesLocked_cleansUp (env : Env) (symbol timeframe : Text)
    (timeframeMs priceScale volumeScale : Int) :
    CleansUp (registerKlineSeriesLocked env symbol timeframe timeframeMs priceScale volumeScale) := by
  unfold registerKlineSeriesLocked
  refine cleansUp_bind cleansUp_look (fun s => cleansUp_ite ?_ (createSeries_cleansUp env _ _))
  exact cleansUp_bind (loadMeta_cleansUp none _) (fun existing => cleansUp_bind (cleansUp_lift _) (fun _ =>
    cleansUp_pure existing))

theorem registerScalarSeriesLocked_cleansUp (env : Env) (key : ScalarSeriesKey) (timeframeMs : Int) :
    CleansUp (registerScalarSeriesLocked env key timeframeMs) := by
  unfold registerScalarSeriesLocked
  refine cleansUp_bind cleansUp_look (fun s => cleansUp_ite ?_ (createSeries_cleansUp env _ _))
  exact cleansUp_bind (loadMeta_cleansUp none _) (fun existing =>
    cleansUp_ite (cleansUp_fail _) (cleansUp_pure existing))

theorem registerFixedSeries_cleansUp (env : Env) (k : FixedKind) (symbol channel : Text) (timeframeMs : Int)
    (unit : PartitionUnit) :
    CleansUp (registerFixedSeries env k symbol channel timeframeMs unit) := by
  unfold registerFixedSeries
  refine cleansUp_ite (cleansUp_fail _) (cleansUp_bind (beginMutation_cleansUp env) (fun _ =>
    cleansUp_bind cleansUp_look (fun s => cleansUp_ite ?_ ?_)))
  · exact cleansUp_bind (loadMeta_cleansUp none _) (fun _ => cleansUp_lift _)
  · exact cleansUp_bind (createSeries_cleansUp env _ _) (fun _ => cleansUp_pure ())

theorem mergeKlineMonthLocked_cleansUp (env : Env) (symbol timeframe key : Text) (m : SeriesMeta) :
    CleansUp (mergeKlineMonthLocked env symbol timeframe key m) := by
  unfold mergeKlineMonthLocked
  refine cleansUp_ite (cleansUp_pure m) (cleansUp_bind cleansUp_look (fun s =>
    cleansUp_bind (cleansUp_lift _) (fun rows => ?_)))
  refine cleansUp_bind (cleansUp_lift _) (fun _ => cleansUp_bind (cleansUp_lift _) (fun _ =>
    cleansUp_bind (saveSeriesMeta_cleansUp env _ _) (fun _ => ?_)))
  refine cleansUp_bind (cleansUp_lift _) (fun fc => cleansUp_bind (atomicWriteNew_cleansUp env _ _ _) (fun _ => ?_))
  refine cleansUp_bind (cleansUp_lift _) (fun mr => cleansUp_bind (saveSeriesMeta_cleansUp env _ _) (fun _ => ?_))
  exact cleansUp_bind (removeFiles_cleansUp env _ _) (fun _ => cleansUp_pure _)

theorem putKlineChunkLocked_cleansUp (env : Env) (policy : CompactionPolicy) (symbol timeframe : Text)
    (records : List KlineRecord) (cached : Option SeriesMeta) :
    CleansUp (putKlineChunkLocked env policy symbol timeframe records cached) := by
  unfold putKlineChunkLocked
  refine cleansUp_bind (loadMeta_cleansUp cached _) (fun m => cleansUp_bind (cleansUp_lift _) (fun _ =>
    cleansUp_bind (cleansUp_lift _) (fun key => ?_)))
  refine cleansUp_bind (cleansUp_lift _) (fun no => cleansUp_bind arm_cleansUp (fun _ =>
    cleansUp_bind (cleansUp_lift _) (fun fc => ?_)))
  refine cleansUp_bind (atomicWriteNew_cleansUp env _ _ _) (fun _ => cleansUp_bind (cleansUp_lift _) (fun m' => ?_))
  have hend : ∀ m'' : SeriesMeta, CleansUp (do
      Prog.emit .disarm
      pure (refreshed (seriesCacheKey symbol klineCategory timeframe) m m'') : Op SeriesMeta) := fun m'' =>
    cleansUp_bind disarm_cleansUp (fun _ => cleansUp_pure _)
  refine cleansUp_bind (saveSeriesMeta_cleansUp env _ _) (fun _ => cleansUp_ite ?_ ?_)
  · exact cleansUp_bind (mergeKlineMonthLocked_cleansUp env symbol timeframe key _) hend
  · exact cleansUp_bind (cleansUp_pure _) hend

theorem buildScalarSidecars_cleansUp (env : Env) (d : Dir) (name : Text) (c : ChunkMeta) (records : List ScalarRecord)
    (blockSize : Nat) :
    CleansUp (buildScalarSidecars env d name c records blockSize) :=
  cleansUp_bind (cleansUp_lift _) (fun _ => cleansUp_bind (atomicWriteReplace_cleansUp env d _ _) (fun _ =>
    cleansUp_bind (atomicWriteReplace_cleansUp env d _ _) (fun _ => cleansUp_pure _)))

theorem putScalarChunkLocked_cleansUp (env : Env) (key : ScalarSeriesKey) (timeframeMs : Int)
    (records : List ScalarRecord) (blockSize : Nat) (cached : Option SeriesMeta) :
    CleansUp (putScalarChunkLocked env key timeframeMs records blockSize cached) := by
  unfold putScalarChunkLocked
  refine cleansUp_bind cleansUp_look (fun s => cleansUp_bind (cleansUp_lift _) (fun m =>
    cleansUp_bind (cleansUp_lift _) (fun _ => ?_)))
  refine cleansUp_bind (cleansUp_lift _) (fun month => cleansUp_bind (cleansUp_lift _) (fun no =>
    cleansUp_bind arm_cleansUp (fun _ => ?_)))
  refine cleansUp_bind (cleansUp_lift _) (fun fc => cleansUp_bind (atomicWriteNew_cleansUp env _ _ _) (fun _ => ?_))
  refine cleansUp_bind (buildScalarSidecars_cleansUp env _ _ _ _ _) (fun sidecars => ?_)
  refine cleansUp_bind (cleansUp_lift _) (fun mr => cleansUp_bind (saveSeriesMeta_cleansUp env _ _) (fun _ => ?_))
  exact cleansUp_bind (removeFiles_cleansUp env _ _) (fun _ => cleansUp_bind disarm_cleansUp (fun _ => cleansUp_pure _))

theorem appendScalarChunkLocked_cleansUp (env : Env) (key : ScalarSeriesKey) (timeframeMs : Int)
    (records : List ScalarRecord) (blockSize : Nat) (cached : Option SeriesMeta) :
    CleansUp (appendScalarChunkLocked env key timeframeMs records blockSize cached) :=
  cleansUp_bind (cleansUp_lift _) (fun _ => cleansUp_bind (loadExisting_cleansUp cached _) (fun existing =>
    cleansUp_bind cleansUp_look (fun _ =>
    cleansUp_bind (cleansUp_lift _) (fun combined =>
      putScalarChunkLocked_cleansUp env key timeframeMs combined blockSize existing))))

theorem writeMonths_cleansUp {R : Type} {write : List R → Option SeriesMeta → Op SeriesMeta}
    (hw : ∀ rows cached, CleansUp (write rows cached)) :
    ∀ (months : List (Text × List R)) (cached : Option SeriesMeta)
    (completed : List Text), CleansUp (writeMonths write cached completed months)
  | [], _, completed => cleansUp_pure completed
  | (_, rows) :: rest, cached, completed =>
    cleansUp_bind (cleansUp_mapError (hw rows cached)) (fun m =>
      writeMonths_cleansUp hw rest (some m) (completed ++ [_]))

theorem appendKlineRange_cleansUp (env : Env) (policy : CompactionPolicy) (symbol timeframe : Text)
    (records : List KlineRecord) (timeframeMs priceScale volumeScale : Int) :
    CleansUp (appendKlineRange env policy symbol timeframe records timeframeMs priceScale volumeScale) := by
  unfold appendKlineRange
  refine cleansUp_bind (cleansUp_lift _) (fun _ => cleansUp_bind (cleansUp_lift _) (fun months =>
    cleansUp_bind (beginMutation_cleansUp env) (fun _ => ?_)))
  refine cleansUp_bind (loadExisting_cleansUp none _) (fun existing => cleansUp_bind (cleansUp_lift _) (fun _ =>
    cleansUp_bind (cleansUp_lift _) (fun _ => ?_)))
  refine cleansUp_bind (ensureSeriesRoot_cleansUp env) (fun _ => ?_)
  have hmonths := fun m =>
    writeMonths_cleansUp (putKlineChunkLocked_cleansUp env policy symbol timeframe) months (some m) []
  cases existing with
  | some m => exact cleansUp_bind (cleansUp_pure m) (fun m => cleansUp_bind (hmonths m) (fun _ => cleansUp_pure _))
  | none =>
    exact cleansUp_bind (registerKlineSeriesLocked_cleansUp env symbol timeframe timeframeMs priceScale volumeScale)
      (fun m => cleansUp_bind (hmonths m) (fun _ => cleansUp_pure _))

theorem appendScalarRange_cleansUp (env : Env) (key : ScalarSeriesKey) (records : List ScalarRecord)
    (timeframeMs : Option Int) :
    CleansUp (appendScalarRange env key records timeframeMs) := by
  unfold appendScalarRange
  refine cleansUp_bind (cleansUp_lift _) (fun _ => cleansUp_bind (cleansUp_lift _) (fun months =>
    cleansUp_bind (beginMutation_cleansUp env) (fun _ => ?_)))
  refine cleansUp_bind (loadExisting_cleansUp none _) (fun existing => cleansUp_bind cleansUp_look (fun s =>
    cleansUp_bind (cleansUp_lift _) (fun tf => ?_)))
  refine cleansUp_bind (cleansUp_lift _) (fun _ => cleansUp_bind (ensureSeriesRoot_cleansUp env) (fun _ => ?_))
  have hmonths := fun m => writeMonths_cleansUp (fun rows cached =>
    appendScalarChunkLocked_cleansUp env key tf rows defaultScalarZmapBlockSize cached)
    months (some m) []
  cases existing with
  | some m => exact cleansUp_bind (cleansUp_pure m) (fun m => cleansUp_bind (hmonths m) (fun _ => cleansUp_pure _))
  | none => exact cleansUp_bind (registerScalarSeriesLocked_cleansUp env key tf) (fun m =>
      cleansUp_bind (hmonths m) (fun _ => cleansUp_pure _))

theorem appendFixedPartitions_cleansUp {R : Type} [FixedRecord R] (env : Env) (d : Dir) (unit : PartitionUnit) :
    ∀ (batches : List (Text × List R)) (m : SeriesMeta), CleansUp (appendFixedPartitions env d unit m batches)
  | [], m => cleansUp_pure m
  | (key, rows) :: rest, m => by
    unfold appendFixedPartitions
    refine cleansUp_bind (cleansUp_lift _) (fun no => cleansUp_bind (cleansUp_lift _) (fun fc =>
      cleansUp_bind (atomicWriteNew_cleansUp env _ _ _) (fun _ => ?_)))
    exact cleansUp_bind (cleansUp_lift _) (fun m' => appendFixedPartitions_cleansUp env d unit rest _)

theorem putFixedChunk_cleansUp (env : Env) (k : FixedKind) (symbol channel : Text) (records : List k.Row) :
    CleansUp (putFixedChunk env k symbol channel records) := by
  unfold putFixedChunk
  refine cleansUp_bind (cleansUp_lift _) (fun _ => cleansUp_bind (beginMutation_cleansUp env) (fun _ =>
    cleansUp_bind (loadMeta_cleansUp none _) (fun m => ?_)))
  refine cleansUp_bind (cleansUp_lift _) (fun ub => cleansUp_bind arm_cleansUp (fun _ =>
    cleansUp_bind (makeChunksDir_cleansUp _) (fun _ => ?_)))
  refine cleansUp_bind (appendFixedPartitions_cleansUp env _ _ _ m) (fun m' =>
    cleansUp_bind (saveSeriesMeta_cleansUp env _ m') (fun _ => disarm_cleansUp))

/-- **A call that is not stopped leaves no temporary file.** -/
theorem Call.run_cleansUp (env : Env) (c : Call) : CleansUp (c.run env) := by
  cases c with
  | init => exact cleansUp_bind (beginMutation_cleansUp env) (fun _ => initLocked_cleansUp env)
  | startupRecover => exact cleansUp_bind (startupRecoverLocked_cleansUp env) (fun _ => cleansUp_pure ())
  | registerKline symbol timeframe timeframeMs priceScale volumeScale =>
    exact cleansUp_bind (cleansUp_lift _) (fun _ => cleansUp_bind (beginMutation_cleansUp env) (fun _ =>
      cleansUp_bind (registerKlineSeriesLocked_cleansUp env symbol timeframe timeframeMs priceScale volumeScale)
        (fun _ => cleansUp_pure ())))
  | registerScalar key timeframeMs =>
    exact cleansUp_ite (cleansUp_fail _) (cleansUp_bind (beginMutation_cleansUp env) (fun _ =>
      cleansUp_bind (registerScalarSeriesLocked_cleansUp env key timeframeMs) (fun _ => cleansUp_pure ())))
  | registerFixed k symbol channel timeframeMs unit =>
      exact registerFixedSeries_cleansUp env k symbol channel timeframeMs unit
  | putKline policy symbol timeframe records =>
    exact cleansUp_bind (cleansUp_lift _) (fun _ => cleansUp_bind (beginMutation_cleansUp env) (fun _ =>
      cleansUp_bind (putKlineChunkLocked_cleansUp env policy symbol timeframe records none) (fun _ =>
        cleansUp_pure ())))
  | mergeKline symbol timeframe key =>
    exact cleansUp_bind (beginMutation_cleansUp env) (fun _ => cleansUp_bind arm_cleansUp (fun _ =>
      cleansUp_bind (loadMeta_cleansUp none _) (fun m =>
      cleansUp_bind (mergeKlineMonthLocked_cleansUp env symbol timeframe key m) (fun _ => disarm_cleansUp))))
  | putScalar key timeframeMs records blockSize =>
    exact cleansUp_bind (cleansUp_lift _) (fun _ => cleansUp_bind (cleansUp_lift _) (fun _ =>
      cleansUp_bind (beginMutation_cleansUp env) (fun _ =>
      cleansUp_bind (putScalarChunkLocked_cleansUp env key timeframeMs records blockSize none) (fun _ =>
        cleansUp_pure ()))))
  | appendScalar key timeframeMs records blockSize =>
    exact cleansUp_bind (cleansUp_lift _) (fun _ => cleansUp_bind (cleansUp_lift _) (fun _ =>
      cleansUp_bind (beginMutation_cleansUp env) (fun _ =>
      cleansUp_bind (appendScalarChunkLocked_cleansUp env key timeframeMs records blockSize none) (fun _ =>
        cleansUp_pure ()))))
  | appendKlineRange policy symbol timeframe records timeframeMs priceScale volumeScale =>
    exact cleansUp_bind (appendKlineRange_cleansUp env policy symbol timeframe records timeframeMs priceScale
      volumeScale) (fun _ => cleansUp_pure ())
  | appendScalarRange key records timeframeMs =>
    exact cleansUp_bind (appendScalarRange_cleansUp env key records timeframeMs) (fun _ => cleansUp_pure ())
  | putFixed k symbol channel records => exact putFixedChunk_cleansUp env k symbol channel records

end FastK
