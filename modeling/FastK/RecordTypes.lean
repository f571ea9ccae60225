import FastK.Invariants
import FastK.Lookup
/-!
# Record types

The tracked chunks of a series are of the manifest's record type in every state of a run whose writes each meet a
series of their own type, or one of another that stops them (`tracked_chunks_typed`).  Only the tick writes compare
record types. A kline or scalar write is stopped by whatever its other checks happen to find (`Call.StoppedBy`): a
timeframe, a chunk in the way, a header that a read refuses; one that passes them all puts a chunk of its own type
below the other manifest.
-/
namespace FastK

open Journal Spans

/-- The file of every tracked chunk has the manifest's schema and row size. -/
def TypeIntegrity (sd : SeriesDir) (m : SeriesMeta) : Prop :=
  ∀ c ∈ m.chunks, ∃ f, sd.lookup c.relativePath = some (.chunk f) ∧ f.header.schemaId = m.schemaId ∧
    f.header.recordSize = m.recordSize

theorem GoodSeries.typeIntegrity {C : Nat} {d : Dir} {sd : SeriesDir} {m : SeriesMeta} (h : GoodSeries C d sd m) :
    TypeIntegrity sd m := by
  intro c hc
  obtain ⟨name, f, rows, hf, ho, he⟩ := h.fits.tracked c hc
  refine ⟨f, ?_, ?_, ?_⟩
  · rw [he.path]
    exact h.fits.filed.lookup hf
  · rw [h.fits.head.schemaId]
    exact ho.holds.schemaId_eq
  · rw [h.fits.head.recordSize]
    exact ho.holds.recordSize_eq

/-! ## What stops a write -/

/-- The month has a chunk that ends at or after the first of the rows. -/
def Reaches {R : Type} [FixedRecord R] (m : SeriesMeta) (records : List R) (month : Text) : Prop :=
  ∃ last, (m.chunksForPartition month).getLast? = some last ∧ firstTs records ≤ last.endTs

/-- What each write finds in a manifest of another record type that stops it, if nothing did before. -/
def Call.StoppedBy (m : SeriesMeta) : Call → Prop
  | .putKline _ _ _ records => validateMonthRecords records = .ok () →
      ∀ month, monthKey (firstTs records) = .ok month → Reaches m records month
  | .mergeKline _ _ month => 1 < (m.chunksForPartition month).length
  | .appendKlineRange _ _ _ records timeframeMs priceScale volumeScale =>
    validateConfiguration timeframeMs priceScale volumeScale = .ok () →
      validateExistingSeries m timeframeMs priceScale volumeScale = .ok () →
      ∀ months, monthBatches records = .ok months → preflightOverlap (some m) "write-kline-range" months ≠ .ok ()
  | .putScalar _ timeframeMs records blockSize =>
    checkScalarWrite timeframeMs blockSize = .ok () → validateMonthRecords records = .ok () →
      m.timeframeMs ≠ timeframeMs
  | .appendScalar _ timeframeMs records blockSize =>
    checkScalarWrite timeframeMs blockSize = .ok () → validateMonthRecords records = .ok () →
      m.timeframeMs = timeframeMs →
      ∀ month, monthKey (firstTs records) = .ok month → m.chunksForPartition month ≠ []
  | .appendScalarRange _ records timeframeMs =>
    (∀ value ∈ timeframeMs, 0 < value ∧ m.timeframeMs = value) → ∀ months, monthBatches records = .ok months →
      preflightOverlap (some m) "write-scalar-range" months = .ok () → ∃ b rest, months = b :: rest ∧
        m.chunksForPartition b.1 ≠ []
  | .putFixed .. => True
  | _ => False

/-- A write that meets a series of another record type, and is stopped there. -/
structure Call.Stopped (s : Store) (c : Call) : Prop where
  found : ∃ key m, c.key = some key ∧ (s.dirs key.dir).manifest = .current m ∧ m.recordType ≠ c.recordType ∧
    c.StoppedBy m

theorem Call.Stopped.congr {s s' : Store} {c : Call} (h : c.Stopped s) (hd : ∀ e, s'.dirs e = s.dirs e) :
    c.Stopped s' := by
  obtain ⟨key, m, hkey, hm, ht, hstop⟩ := h.found
  exact ⟨key, m, hkey, by rw [hd]; exact hm, ht, hstop⟩

/-- The call is refused, and no directory has changed. -/
def Rejects {α : Type} (p : Op α) (s : Store) : Prop := (∃ e, p.result s = .error e) ∧
    ∀ e, (p.final s).dirs e = s.dirs e

section Rejects

variable {α β : Type} {C : Nat} {s : Store} {d : Dir} {sd : SeriesDir} {m : SeriesMeta} {p : Op α}
    {f : α → Op β} {env : Env}

theorem rejects_first (h : Rejects p s) : Rejects (p >>= f) s := by
  obtain ⟨⟨e, he⟩, hdirs⟩ := h
  refine ⟨⟨e, Prog.result_bind_error he f⟩, fun d => ?_⟩
  rw [Prog.final_bind_error he f]
  exact hdirs d

theorem rejects_then {a : α} (hp : p.result s = .ok a) (hd : ∀ e, (p.final s).dirs e = s.dirs e)
    (h : Rejects (f a) (p.final s)) :
    Rejects (p >>= f) s := by
  obtain ⟨⟨e, he⟩, hdirs⟩ := h
  refine ⟨⟨e, ?_⟩, fun d => ?_⟩
  · rw [Prog.result_bind_ok hp]
    exact he
  · rw [Prog.final_bind_ok hp, hdirs, hd]

/-- A check refuses, or the rest does. -/
theorem rejects_check {r : Result α} (h : ∀ a, r = .ok a → Rejects (f a) s) : Rejects (Prog.lift r >>= f) s := by
  cases r with
  | error e => exact rejects_first ⟨⟨e, rfl⟩, fun _ => rfl⟩
  | ok a => exact rejects_then rfl (fun _ => rfl) (h a rfl)

theorem rejects_lift {r : Result α} {e : FastKError} (h : r = .error e) : Rejects (Prog.lift r : Op α) s :=
  ⟨⟨e, h⟩, fun _ => rfl⟩

theorem Rejects.of_pure {g : α → β} (h : Rejects (p >>= fun a => (pure (g a) : Op β)) s) : Rejects p s := by
  obtain ⟨⟨e, he⟩, hdirs⟩ := h
  refine ⟨?_, fun d => by rw [← hdirs d, Prog.final_bind_pure]⟩
  cases hr : p.result s with
  | error e' => exact ⟨e', rfl⟩
  | ok a =>
    rw [Prog.result_bind_ok hr] at he
    cases he

theorem rejects_mapError {g : FastKError → FastKError} (h : Rejects p s) : Rejects (p.mapError g) s := by
  obtain ⟨⟨e, he⟩, hdirs⟩ := h
  refine ⟨?_, hdirs⟩
  cases hr : (p.mapError g).result s with
  | error e' => exact ⟨e', rfl⟩
  | ok a =>
    rw [Prog.result_mapError_eq_ok, he] at hr
    cases hr

/-- A call begins with a recovery that finds nothing to do. -/
theorem rejects_begin {f : Unit → Op β} (hg : GoodStore C s)
    (h : ∀ t : Store, GoodStore C t → (∀ e, t.dirs e = s.dirs e) → Rejects (f ()) t) :
    Rejects (beginMutation env >>= f) s := by
  obtain ⟨hres, hgood, hdirs⟩ := beginMutation_good hg env
  exact rejects_then hres hdirs (h _ hgood hdirs)

theorem rejects_loaded {f : SeriesMeta → Op β} (hg : GoodStore C s) (hm : (s.dirs d).manifest = .current m)
    (h : Rejects (f m) s) :
    Rejects (loadMeta none d >>= f) s := by
  refine rejects_then ?_ (fun _ => rfl) h
  unfold loadMeta Prog.result
  rw [Prog.look_bind]
  exact hg.loads hm

theorem rejects_existing {f : Option SeriesMeta → Op β} (hg : GoodStore C s) (hm : (s.dirs d).manifest = .current m)
    (h : Rejects (f (some m)) s) :
    Rejects (loadExisting none d >>= f) s := by
  refine rejects_then ?_ (fun _ => rfl) h
  unfold loadExisting Prog.result
  rw [Prog.look_bind]
  show existingMeta (metaFor none (s.dirs d)) = _
  rw [hg.loads hm]
  rfl

end Rejects

/-! ## Reading rows of another type -/

section Foreign

variable {α β : Type} {C : Nat} {d : Dir} {sd : SeriesDir} {m : SeriesMeta} {c : ChunkMeta} {R : Type} [FixedRecord R]

theorem RecordType.schemaId_inj {a b : RecordType} (h : FixedRecord.schemaId a.Row = FixedRecord.schemaId b.Row) :
    a = b := by
  cases a <;> cases b <;> first | rfl | exact absurd h (by decide)

/-- A tracked chunk of another type is not read. -/
theorem GoodSeries.withChunk_foreign (h : GoodSeries C d sd m) (hc : c ∈ m.chunks) {t : RecordType}
    (ht : m.recordType ≠ t) (hR : FixedRecord.schemaId R = FixedRecord.schemaId t.Row) (expected unexpected : Text)
    (read : ChunkFile → Result α) :
    ∃ e, withChunk sd (validateHeader R expected unexpected) c read = .error e := by
  obtain ⟨name, f, rows, hf, ho, he⟩ := h.fits.tracked c hc
  have hopen : sd.openChunk c.relativePath = .ok f := by
    rw [he.path]
    exact SeriesDir.openChunk_ok (h.fits.filed.lookup hf) ho.holds.header_ok
  have hschema : f.header.schemaId ≠ FixedRecord.schemaId R := by
    rw [ho.holds.schemaId_eq, hR]
    exact fun hs => ht (RecordType.schemaId_inj hs)
  unfold withChunk validateHeader
  rw [hopen]
  simp only
  rw [if_pos hschema]
  exact ⟨_, rfl⟩

omit [FixedRecord R] in
theorem appendChunks_error {read : ChunkMeta → List R → Result (List R)} {cs : List ChunkMeta} (hne : cs ≠ [])
    (h : ∀ c ∈ cs, ∀ out, ∃ e, read c out = .error e) (out : List R) : ∃ e, appendChunks read cs out = .error e := by
  obtain ⟨c, cs, rfl⟩ := List.exists_cons_of_ne_nil hne
  obtain ⟨e, he⟩ := h c List.mem_cons_self out
  unfold appendChunks
  rw [he]
  exact ⟨e, rfl⟩

theorem readKlineChunks_foreign (h : GoodSeries C d sd m) (ht : m.recordType ≠ .kline) {month : Text}
    (hne : m.chunksForPartition month ≠ []) :
    ∃ e, readKlineChunks sd (m.chunksForPartition month) = .error e :=
  appendChunks_error hne (fun _ hc _ => h.withChunk_foreign (mem_chunksForPartition.1 hc).1 ht rfl _ _ _) []

/-- A range that holds a chunk of another type is not read. -/
theorem getScalarRangePrepared_foreign (h : GoodSeries C d sd m) (ht : m.recordType ≠ .scalar) (hc : c ∈ m.chunks)
    (threads : Nat) :
    ∃ e, getScalarRangePrepared threads sd m c.startTs c.endTs = .error e := by
  obtain ⟨hchain, hproper⟩ := h.fits.chain
  have hspan : c.startTs ≤ c.endTs := hproper c hc
  have hne : m.chunksIn (m.findChunksForRange c.startTs c.endTs) ≠ [] := by
    obtain ⟨i, hi⟩ := List.mem_iff_getElem?.1 hc
    obtain ⟨h1, h2⟩ := (SeriesMeta.mem_findChunksForRange_iff hchain hproper hi).2
      ⟨c.startTs, le_refl _, hspan, le_refl _, hspan⟩
    refine List.ne_nil_of_length_pos ?_
    unfold SeriesMeta.chunksIn
    have hlt := (List.getElem?_eq_some_iff.1 hi).1
    rw [List.length_take, List.length_drop]
    omega
  unfold getScalarRangePrepared
  simp only
  rw [if_neg (not_lt.2 hspan), if_neg hne]
  split
  · obtain ⟨first, hfirst⟩ := List.exists_mem_of_ne_nil _ hne
    obtain ⟨e, he⟩ := h.withChunk_foreign (R := ScalarRecord) (SeriesMeta.chunksIn_subset hfirst) ht rfl
      "expected scalar schema " "unexpected scalar record size: " (fun f =>
        planRange ScalarRecord scalarReadTexts f c.startTs c.endTs)
    obtain ⟨e', he'⟩ := collect_error (f := fun c' =>
      withChunk sd (validateHeader ScalarRecord "expected scalar schema "
      "unexpected scalar record size: ")
        c' (fun f => planRange ScalarRecord scalarReadTexts f c.startTs c.endTs)) hfirst he
    unfold scalarValidateHeader
    rw [he']
    exact ⟨e', rfl⟩
  · exact appendChunks_error hne (fun c hc _ => h.withChunk_foreign (SeriesMeta.chunksIn_subset hc) ht rfl _ _ _) []

/-- Nor the month of an append. -/
theorem monthRows_foreign (h : GoodSeries C d sd m) (ht : m.recordType ≠ .scalar) {month : Text}
    (hne : m.chunksForPartition month ≠ []) (threads : Nat) : ∃ e, monthRows threads sd m month = .error e := by
  have hread : (m.chunksForPartition month).filter (fun c => c.state.isReadable) = m.chunksForPartition month :=
    List.filter_eq_self.2 (fun c hc => h.readable c (mem_chunksForPartition.1 hc).1)
  obtain ⟨c, hc⟩ := List.exists_mem_of_ne_nil _ hne
  obtain ⟨e, he⟩ := getScalarRangePrepared_foreign h ht (mem_chunksForPartition.1 hc).1 threads
  obtain ⟨e', he'⟩ := collect_error (f := fun c => getScalarRangePrepared threads sd m c.startTs c.endTs) hc he
  unfold monthRows
  rw [hread, he']
  exact ⟨e', rfl⟩

end Foreign

/-! ## The writes -/

section Writes

variable {C : Nat} {s : Store} {m : SeriesMeta} {env : Env}

theorem combineRows_foreign {d : Dir} {sd : SeriesDir} (h : GoodSeries C d sd m) (ht : m.recordType ≠ .scalar)
    {timeframeMs : Int} {month : Text} (hstop : m.timeframeMs = timeframeMs → m.chunksForPartition month ≠ [])
    (threads : Nat) (records : List ScalarRecord) :
    ∃ e, combineRows threads sd (some m) timeframeMs month records = .error e := by
  unfold combineRows
  simp only
  split
  · exact ⟨_, rfl⟩
  · rename_i htime
    obtain ⟨e, he⟩ := monthRows_foreign h ht (hstop (not_not.1 htime)) threads
    rw [he]
    exact ⟨e, rfl⟩

theorem putKlineChunk_rejects (hg : GoodStore C s) {policy : CompactionPolicy} {symbol timeframe : Text}
    {records : List KlineRecord} (hm : (s.dirs (klineSeriesDir symbol timeframe)).manifest = .current m)
    (hstop : (Call.putKline policy symbol timeframe records).StoppedBy m) :
    Rejects (putKlineChunk env policy symbol timeframe records) s := by
  refine rejects_check (fun _ hvalid => rejects_begin hg (fun t hgt hdirs => rejects_first ?_))
  refine rejects_loaded hgt (by rw [hdirs]; exact hm) (rejects_check (fun _ _ =>
    rejects_check (fun month hmonth => ?_)))
  obtain ⟨last, hlast, hle⟩ := hstop hvalid month hmonth
  refine rejects_first (rejects_lift (e := .invalidInput (words ["append overlaps existing month chunk: ",
    showInt (firstTs records), " <= ", showInt last.endTs])) ?_)
  unfold appendOptions
  simp only
  rw [hlast]
  simp only
  rw [if_pos hle]

theorem mergeKlineMonth_rejects (hg : GoodStore C s) {symbol timeframe month : Text}
    (hm : (s.dirs (klineSeriesDir symbol timeframe)).manifest = .current m) (ht : m.recordType ≠ .kline)
    (hstop : (Call.mergeKline symbol timeframe month).StoppedBy m) :
    Rejects (mergeKlineMonth env symbol timeframe month) s := by
  have hmany : 1 < (m.chunksForPartition month).length := hstop
  refine rejects_begin hg (fun t hgt hdirs => rejects_then rfl (fun _ => rfl) ?_)
  have hgt' : GoodStore C (Journal.Store.apply IoStep.arm t) := ⟨hgt.dir⟩
  have hmt : ((Journal.Store.apply IoStep.arm t).dirs (klineSeriesDir symbol timeframe)).manifest = .current m :=
    (congrArg SeriesDir.manifest (hdirs _)).trans hm
  refine rejects_loaded hgt' hmt (rejects_first ?_)
  unfold mergeKlineMonthLocked
  simp only
  rw [if_neg (by omega)]
  refine rejects_then (Prog.result_look _) (fun _ => rfl) ?_
  obtain ⟨e, he⟩ := readKlineChunks_foreign ((hgt'.dir _).of_current hmt) ht
    (List.ne_nil_of_length_pos (by omega : 0 < (m.chunksForPartition month).length))
  exact rejects_first (rejects_lift he)

theorem appendKlineRange_rejects (hg : GoodStore C s) {policy : CompactionPolicy} {symbol timeframe : Text}
    {records : List KlineRecord} {timeframeMs priceScale volumeScale : Int}
    (hm : (s.dirs (klineSeriesDir symbol timeframe)).manifest = .current m)
    (hstop : (Call.appendKlineRange policy symbol timeframe records timeframeMs priceScale volumeScale).StoppedBy m) :
    Rejects (appendKlineRange env policy symbol timeframe records timeframeMs priceScale volumeScale) s := by
  refine rejects_check (fun _ hconfig => rejects_check (fun months hmonths => rejects_begin hg (fun t hgt hdirs => ?_)))
  refine rejects_existing hgt (by rw [hdirs]; exact hm) (rejects_check (fun _ hexisting =>
    rejects_check (fun _ hflight => ?_)))
  exact absurd hflight (hstop hconfig hexisting months hmonths)

theorem putScalarChunk_rejects (hg : GoodStore C s) {key : ScalarSeriesKey} {timeframeMs : Int}
    {records : List ScalarRecord} {blockSize : Nat} (hm : (s.dirs key.dir).manifest = .current m)
    (hstop : (Call.putScalar key timeframeMs records blockSize).StoppedBy m) :
    Rejects (putScalarChunk env key timeframeMs records blockSize) s := by
  refine rejects_check (fun _ hwrite => rejects_check (fun _ hvalid => rejects_begin hg (fun t hgt hdirs =>
    rejects_first ?_)))
  refine rejects_then (Prog.result_look _)
    (fun _ => rfl) (rejects_first (rejects_lift (e := scalarTimeframeError m) ?_))
  have hmt : (t.dirs key.dir).manifest = .current m := (congrArg SeriesDir.manifest (hdirs _)).trans hm
  show scalarManifest env.now key timeframeMs none (t.dirs key.dir) = _
  unfold scalarManifest
  rw [if_pos (by rw [hmt]; rfl), hgt.loads hmt]
  simp only
  rw [if_pos (hstop hwrite hvalid)]

theorem appendScalarChunkLocked_rejects (hg : GoodStore C s) {key : ScalarSeriesKey} {timeframeMs : Int}
    {records : List ScalarRecord} {blockSize : Nat} {cached : Option SeriesMeta}
    (hm : (s.dirs key.dir).manifest = .current m) (hcached : cached = none ∨ cached = some m)
    (ht : m.recordType ≠ .scalar) (hstop : m.timeframeMs = timeframeMs → ∀ month,
      monthKey (firstTs records) = .ok month → m.chunksForPartition month ≠ []) :
    Rejects (appendScalarChunkLocked env key timeframeMs records blockSize cached) s := by
  refine rejects_check (fun month hmonth => rejects_then (a := some m) ?_
    (fun _ => rfl) (rejects_then (Prog.result_look _) (fun _ => rfl) ?_))
  · show existingMeta (metaFor cached (s.dirs key.dir)) = _
    rcases hcached with rfl | rfl
    · rw [hg.loads hm]
      rfl
    · rfl
  · obtain ⟨e, he⟩ := combineRows_foreign ((hg.dir _).of_current hm) ht
      (fun htime => hstop htime month hmonth) env.threads records
    exact rejects_first (rejects_lift he)

theorem appendScalarChunk_rejects (hg : GoodStore C s) {key : ScalarSeriesKey} {timeframeMs : Int}
    {records : List ScalarRecord} {blockSize : Nat} (hm : (s.dirs key.dir).manifest = .current m)
    (ht : m.recordType ≠ .scalar) (hstop : (Call.appendScalar key timeframeMs records blockSize).StoppedBy m) :
    Rejects (appendScalarChunk env key timeframeMs records blockSize) s := by
  refine rejects_check (fun _ hwrite => rejects_check (fun _ hvalid => rejects_begin hg (fun t hgt hdirs =>
    rejects_first ?_)))
  exact appendScalarChunkLocked_rejects hgt ((congrArg SeriesDir.manifest (hdirs _)).trans hm) (.inl rfl) ht
    (hstop hwrite hvalid)

theorem appendScalarRange_rejects (hg : GoodStore C s) {key : ScalarSeriesKey} {records : List ScalarRecord}
    {timeframeMs : Option Int} (hm : (s.dirs key.dir).manifest = .current m) (ht : m.recordType ≠ .scalar)
    (hstop : (Call.appendScalarRange key records timeframeMs).StoppedBy m) :
    Rejects (appendScalarRange env key records timeframeMs) s := by
  refine rejects_check (fun _ hpos => rejects_check (fun months hmonths => rejects_begin hg (fun t hgt hdirs => ?_)))
  have hmt : (t.dirs key.dir).manifest = .current m := (congrArg SeriesDir.manifest (hdirs _)).trans hm
  refine rejects_existing hgt hmt (rejects_then (Prog.result_look _)
    (fun _ => rfl) (rejects_check (fun value hvalue => rejects_check (fun _ hflight => ?_))))
  have htime : m.timeframeMs = value ∧ ∀ v ∈ timeframeMs, 0 < v ∧ m.timeframeMs = v := by
    unfold rangeTimeframe at hvalue
    cases timeframeMs with
    | none => exact ⟨Except.ok.inj hvalue, by simp⟩
    | some v =>
      simp only at hvalue
      split at hvalue
      · cases hvalue
      · rename_i heq
        have hv : 0 < v := by
          by_contra hneg
          simp [not_lt.1 hneg] at hpos
        refine ⟨Except.ok.inj hvalue, fun w hw => ?_⟩
        obtain rfl := Option.some.inj hw
        exact ⟨hv, not_not.1 heq⟩
  obtain ⟨b, rest, rfl, hchunk⟩ := hstop htime.2 months hmonths hflight
  -- the first month is refused before anything is written
  obtain ⟨hroot, hgood, hrootdirs⟩ := ensureSeriesRoot_good hgt env
  refine rejects_then hroot hrootdirs (rejects_then rfl
    (fun _ => rfl) (rejects_first (rejects_first (rejects_mapError ?_))))
  have hmr : (((ensureSeriesRoot env).final t).dirs key.dir).manifest = .current m :=
    (congrArg SeriesDir.manifest (hrootdirs _)).trans hmt
  obtain ⟨-, -, hpieces, -⟩ := monthBatches_spec hmonths
  refine appendScalarChunkLocked_rejects hgood hmr (.inr rfl) ht (fun _ month hmonth => ?_)
  have hkey : monthKey (firstTs b.2) = .ok b.1 := Piece.monthKey (hpieces b List.mem_cons_self)
  rw [hmonth] at hkey
  obtain rfl := Except.ok.inj hkey
  exact hchunk

/-- **A tick write to a series of another type is refused before it has changed anything.** -/
theorem putFixedChunk_rejects (hg : GoodStore C s) {k : FixedKind} {symbol channel : Text}
    (hm : (s.dirs (k.dir symbol channel)).manifest = .current m) (ht : m.recordType ≠ k.recordType)
    (records : List k.Row) :
    Rejects (putFixedChunk env k symbol channel records) s := by
  refine rejects_check (fun _ _ => rejects_begin hg (fun t hgt hdirs =>
    rejects_loaded hgt (by rw [hdirs]; exact hm) (rejects_first ?_)))
  have hbatches : ∃ e, fixedBatches k symbol channel m records = .error e := by
    unfold fixedBatches
    rw [if_pos (fun hmatch => ht (hmatch.1.trans (RecordType.recordType_row _)))]
    exact ⟨_, rfl⟩
  obtain ⟨e, he⟩ := hbatches
  exact rejects_lift he

/-- **A write that is stopped is rejected, with every directory as it was.** -/
theorem Call.Stopped.rejects {c : Call} (hg : GoodStore C s) (h : c.Stopped s) (env : Env) : Rejects (c.run env) s := by
  obtain ⟨key, m, hkey, hm, ht, hstop⟩ := h.found
  cases c with
  | putKline policy symbol timeframe records =>
    obtain rfl := Option.some.inj hkey
    exact putKlineChunk_rejects hg hm hstop
  | mergeKline symbol timeframe month =>
    obtain rfl := Option.some.inj hkey
    exact mergeKlineMonth_rejects hg hm ht hstop
  | putScalar key' timeframeMs records blockSize =>
    obtain rfl := Option.some.inj hkey
    exact putScalarChunk_rejects hg hm hstop
  | appendScalar key' timeframeMs records blockSize =>
    obtain rfl := Option.some.inj hkey
    exact appendScalarChunk_rejects hg hm ht hstop
  | appendKlineRange policy symbol timeframe records timeframeMs priceScale volumeScale =>
    obtain rfl := Option.some.inj hkey
    exact rejects_first (appendKlineRange_rejects hg hm hstop)
  | appendScalarRange key' records timeframeMs =>
    obtain rfl := Option.some.inj hkey
    exact rejects_first (appendScalarRange_rejects hg hm ht hstop)
  | putFixed k symbol channel records =>
    obtain rfl := Option.some.inj hkey
    exact putFixedChunk_rejects hg hm ht records
  | _ => exact absurd hstop id

end Writes

/-! ## Runs -/

/-- A healthy call or a write that is stopped, under names that go down. -/
structure Guarded (env : Env) (c : Call) (s : Store) : Prop where
  ok : Healthy env c s ∨ c.Stopped s
  plain : c.Plain

theorem Run.guarded {root : Dir} {n : Nat} {s : Store} (h : Run root Guarded n s) : ∃ B, GoodStore B s := by
  induction h with
  | start => exact ⟨0, goodStore_empty root⟩
  | call env c _ hok ih =>
    obtain ⟨B, hg⟩ := ih
    rcases hok.ok with hok | hstop
    · exact ⟨_, Call.run_good (hg.of_room hok.room) (by decide) hok.faultless hok.regular⟩
    · exact ⟨B, hg.same (hstop.rejects hg env).2⟩

/-- **In every state of a run whose calls are healthy or stopped, tracked chunks are of their manifest's type, and every
write that meets a series of another type and is stopped is rejected**; tick writes always are. -/
theorem tracked_chunks_typed {root : Dir} {n : Nat} {s : Store} (h : Run root Guarded n s) :
    (∀ d m, (s.dirs d).manifest = .current m → TypeIntegrity (s.dirs d) m) ∧
      (∀ env (c : Call), c.Stopped s → Rejects (c.run env) s) ∧
      ∀ env k symbol channel m (records : List (FixedKind.Row k)),
        (s.dirs (k.dir symbol channel)).manifest = .current m →
        m.recordType ≠ k.recordType → Rejects (putFixedChunk env k symbol channel records) s := by
  obtain ⟨B, hg⟩ := h.guarded
  exact ⟨fun d _ hm => ((hg.dir d).of_current hm).typeIntegrity, fun env _ hstop => hstop.rejects hg env,
    fun env k symbol channel m records hm ht => putFixedChunk_rejects hg hm ht records⟩

/-- A kline series in a directory that trades of another symbol would have. -/
def sampleSharedCalls : List Call :=
  [.registerKline "X" "trade/c" 60000 1 1, .putKline .default "X" "trade/c" [sampleKline 0]]

/-- A scalar write to it, with another timeframe. -/
def sampleForeignPut : Call := .putScalar ⟨"X/kline", "trade", "c"⟩ 1000 [⟨0, ⟨11, by decide⟩⟩] 1

def sampleShared : Store := runCalls (Env.plain 5) sampleSharedCalls (Store.empty [])

/-- A kline manifest with a chunk, and not the timeframe of the write. -/
def isSharedKline (m : SeriesMeta) : Bool :=
  decide (m.chunks ≠ []) && decide (m.recordType = .kline) && decide (m.timeframeMs = 60000)

theorem isSharedKline_iff {m : SeriesMeta} : isSharedKline m = true ↔ (m.chunks ≠ [] ∧ m.recordType = .kline) ∧
    m.timeframeMs = 60000 := by
  unfold isSharedKline
  rw [Bool.and_eq_true, Bool.and_eq_true, decide_eq_true_iff, decide_eq_true_iff, decide_eq_true_iff]

theorem sampleSharedCalls_ok : CallsOk (Env.plain 5)
    (fun env c s => env.Faultless ∧ c.Regular s) sampleSharedCalls (Store.empty []) := by
  refine ⟨⟨plain_faultless 5, trivial, trivial, trivial, trivial⟩,
    ⟨plain_faultless 5, ?_, trivial, trivial, trivial⟩, trivial⟩
  show OfType .kline _
  decide +kernel

theorem sampleForeignPut_stopped {s : Store} {m : SeriesMeta}
    (hm : (s.dirs (seriesDir "X/kline" "trade" "c")).manifest = .current m) (htype : m.recordType = .kline)
    (htime : m.timeframeMs = 60000) : sampleForeignPut.Stopped s := by
  refine ⟨⟨"X/kline", "trade", "c"⟩, m, rfl, hm, ?_, fun _ _ => ?_⟩
  · rw [htype]
    decide
  · rw [htime]
    decide

/-- The scalar write is part of the run, and after it this write and a tick write are rejected. -/
theorem tracked_chunks_typed_sample :
    ∃ m, (((sampleForeignPut.run (Env.plain 6)).final sampleShared).dirs (FixedKind.trade.dir "X/kline" "c")).manifest
      =
      .current m ∧ m.chunks ≠ [] ∧
        TypeIntegrity (((sampleForeignPut.run (Env.plain 6)).final sampleShared).dirs
          (FixedKind.trade.dir "X/kline" "c")) m ∧
    Rejects (sampleForeignPut.run (Env.plain 7)) ((sampleForeignPut.run (Env.plain 6)).final sampleShared) ∧
    Rejects (putFixedChunk (Env.plain 7) .trade "X/kline" "c" [sampleTrade 0])
    ((sampleForeignPut.run (Env.plain 6)).final sampleShared) := by
  have hplain : ∀ c ∈ sampleSharedCalls, c.Plain := by decide +kernel
  have hput : sampleForeignPut.Plain := by decide +kernel
  have hrun : Run [] Guarded 2 sampleShared :=
    (runCalls_plain hplain (by decide) sampleSharedCalls_ok).mono (fun _ _ _ hok => ⟨.inl hok.toHealthy, hok.plain⟩)
  have hbefore : (sampleShared.dirs (seriesDir "X/kline" "trade" "c")).tests isSharedKline = true := by decide +kernel
  obtain ⟨m, hm, htest⟩ := SeriesDir.of_tests hbefore
  obtain ⟨⟨-, htype⟩, htime⟩ := isSharedKline_iff.1 htest
  have hafter : (((sampleForeignPut.run (Env.plain 6)).final sampleShared).dirs
    (seriesDir "X/kline" "trade" "c")).tests isSharedKline = true := by
    decide +kernel
  obtain ⟨m', hm', htest'⟩ := SeriesDir.of_tests hafter
  obtain ⟨⟨hne', htype'⟩, htime'⟩ := isSharedKline_iff.1 htest'
  obtain ⟨hint, hrejects, hticks⟩ := tracked_chunks_typed
    (hrun.call (Env.plain 6) sampleForeignPut ⟨.inr (sampleForeignPut_stopped hm htype htime), hput⟩)
  refine ⟨m', hm', hne', hint _ m' hm', hrejects (Env.plain 7) _ (sampleForeignPut_stopped hm' htype' htime'), ?_⟩
  refine hticks (Env.plain 7) .trade "X/kline" "c" m' [sampleTrade 0] hm' ?_
  rw [htype']
  decide

/-- A kline series, then a scalar write to its directory. -/
def sampleMixedCalls : List Call :=
  [.registerKline "X" "1m" 60000 1 1, .putScalar ⟨"X", "kline", "1m"⟩ 60000 [⟨0, ⟨12, by decide⟩⟩] 1]

/-- The file is a chunk of another schema. -/
def isOtherChunk (schemaId : Nat) : Option FileBody → Bool
  | some (.chunk f) => decide (f.header.schemaId ≠ schemaId)
  | _ => false

/-- The scalar write is accepted, and the kline manifest tracks a scalar chunk. -/
theorem tracked_chunk_untyped : ¬ ∀ root n s, Run root (fun env _ _ => env.Faultless) n s →
    ∀ d m, (s.dirs d).manifest = .current m → TypeIntegrity (s.dirs d) m := by
  intro h
  have hok : CallsOk (Env.plain 5) (fun env _ _ => env.Faultless) sampleMixedCalls (Store.empty []) :=
    ⟨plain_faultless 5, plain_faultless 5, trivial⟩
  have hrun := h [] _ _ (Run.start.calls hok)
    (seriesDir "X" "kline" "1m")
  have hheads : ((runCalls (Env.plain 5) sampleMixedCalls (Store.empty [])).dirs (seriesDir "X" "kline" "1m")).tests
      (fun m => decide (m.schemaId = klineSchemaId) && m.chunks.any (fun c => isOtherChunk klineSchemaId
        (((runCalls (Env.plain 5) sampleMixedCalls (Store.empty [])).dirs (seriesDir "X" "kline" "1m")).lookup
          c.relativePath))) = true := by decide +kernel
  obtain ⟨m, hm, hheads⟩ := SeriesDir.of_tests hheads
  simp only [Bool.and_eq_true, decide_eq_true_eq, List.any_eq_true] at hheads
  obtain ⟨hschema, c, hc, hne⟩ := hheads
  obtain ⟨f, hf, heq, -⟩ := hrun m hm c hc
  rw [hf] at hne
  exact of_decide_eq_true hne (heq.trans hschema)

end FastK
