import FastK.Appends
/-!
# Appending in pieces

A list of klines or scalars may be appended to a new series in one call or in any number of pieces, cut inside months or
between them and under any compaction policy: every call answers, and the series then holds the list
(`kline_pieces_independent`, `scalar_pieces_independent`).
-/
namespace FastK

open Journal

/-- Pieces appended one after another, each with its own parameters. -/
def appendPieces {P R : Type} (append : P → List R → Op RangeWriteSummary) : List (P × List R) → Op Unit
  | [] => pure ()
  | (p, records) :: rest => do
    let _ ← append p records
    appendPieces append rest

/-- One piece is one call. -/
theorem appendPieces_single {P R : Type} {append : P → List R → Op RangeWriteSummary} {s : Store} {p : P}
    {records : List R} (h : (appendPieces append [(p, records)]).result s = .ok ()) :
    (∃ a, (append p records).result s = .ok a) ∧
      (appendPieces append [(p, records)]).final s = (append p records).final s := by
  unfold appendPieces at h ⊢
  cases hres : (append p records).result s with
  | error e =>
    rw [Prog.result_bind_error hres] at h
    cases h
  | ok a =>
    refine ⟨⟨a, rfl⟩, ?_⟩
    rw [Prog.final_bind_ok hres]
    rfl

/-- An append of one record type to one directory, which is accepted by the series that fit the call where the records
come after what their months hold. -/
structure Appender {P : Type} (C : Nat) (t : RecordType) (d : Dir) (append : P → List t.Row → Op RangeWriteSummary)
    (Ok : P → Prop) (Fit : SeriesMeta → Prop) : Prop where
  strict : FixedRecord.allowEqualTimestamps t.Row = false
  recordType : ∀ m, Fit m → m.recordType = t
  sameHead : ∀ m m', Fit m → m.SameHead m' → Fit m'
  series : ∀ p s m B records months, Ok p → GoodStore C s → (s.dirs d).manifest = .current m → Fit m →
    (∀ c ∈ m.chunks, c.generation ≤ B) → B + 2 ≤ C →
    B + 1 < u32Max → monthBatches records = .ok months → After m months → Writes C B t d records (append p records) s m

section Pieces

variable {P : Type} {C B : Nat} {t : RecordType} {d : Dir} {append : P → List t.Row → Op RangeWriteSummary}
    {Ok : P → Prop} {Fit : SeriesMeta → Prop}
  {s : Store} {m : SeriesMeta} {done : List t.Row}

/-- Records after all rows of the series come after what their months hold. -/
theorem after_of_rows {records : List t.Row} {months : List (Text × List t.Row)} (hok : SeriesOk d (s.dirs d) m)
    (ht : m.recordType = t) (hmonths : monthBatches records = .ok months)
    (h : ∀ x ∈ seriesRows t (s.dirs d), ∀ r ∈ records, FixedRecord.ts x < FixedRecord.ts r) :
    After m months := by
  intro b hb c hc _
  obtain ⟨-, hflat, hpieces, -⟩ := monthBatches_spec hmonths
  subst ht
  obtain ⟨f, -, hf, -, hend, -⟩ := hok.stored.held c hc
  obtain ⟨x, hx, hlast⟩ := exists_lastTs hf.ne_nil
  obtain ⟨r, hr, hfirst⟩ := exists_firstTs (hpieces b hb).1
  rw [hend, hf.endTs_eq, ← hlast, ← hfirst]
  refine h x ?_ r ?_
  · rw [seriesRows_eq hok.manifest_eq]
    exact List.mem_flatMap.2 ⟨c, hc, hx⟩
  · rw [← hflat]
    exact List.mem_flatMap.2 ⟨b, hb, hr⟩

/-- The series after some pieces: it fits the call, its generations are within the bound, and its rows are those
appended. -/
structure Progress (C B : Nat) (t : RecordType) (d : Dir) (Fit : SeriesMeta → Prop) (done : List t.Row)
    (s : Store) : Prop where
  good : GoodStore C s
  series : ∃ m, (s.dirs d).manifest = .current m ∧ Fit m ∧ ∀ c ∈ m.chunks, c.generation ≤ B
  mem_rows : ∀ x, x ∈ seriesRows t (s.dirs d) ↔ x ∈ done

/-- **The step**: a piece that comes after those before it is accepted. -/
theorem Progress.step (ha : Appender C t d append Ok Fit) (h : Progress C B t d Fit done s) (hC : B + 2 ≤ C)
    (hsat : B + 1 < u32Max) {p : P} {records : List t.Row} (hp : Ok p)
    (ho : (done ++ records).Pairwise (fun a b => FixedRecord.ts a < FixedRecord.ts b))
    (hcal : ∀ r ∈ records, InCalendar (FixedRecord.ts r)) :
    (∃ a, (append p records).result s = .ok a) ∧ Progress C (B + 2) t d Fit (done ++ records)
    ((append p records).final s) := by
  obtain ⟨m, hm, hfit, hb⟩ := h.series
  obtain ⟨-, hrec, hcross⟩ := List.pairwise_append.1 ho
  obtain ⟨months, hmonths⟩ := monthBatches_ok ((ordered_iff_strict ha.strict).2 hrec) hcal
  have hok := ((h.good.dir d).of_current hm).seriesOk hm
  have hafter := after_of_rows hok (ha.recordType m hfit) hmonths (fun x hx r hr => hcross x ((h.mem_rows x).1 hx) r hr)
  obtain ⟨hans, m', hw⟩ := ha.series p s m B records months hp h.good hm hfit hb hC hsat hmonths hafter
  refine ⟨hans, hw.good, ⟨m', hw.manifest, ha.sameHead m m' hfit hw.head, fun c hc => ?_⟩, fun x => ?_⟩
  · exact (hw.bound c hc).elim (fun hc => le_trans (hb c hc) (Nat.le_add_right B 2)) id
  · rw [List.mem_append]
    exact (hw.mem_rows x).trans (or_congr_left (h.mem_rows x))

/-- **The run**: all pieces are accepted, each raising the generations by two at most. -/
theorem Progress.pieces (ha : Appender C t d append Ok Fit) : ∀ (pieces : List (P × List t.Row)) {B : Nat}
    {done : List t.Row} {s : Store},
    Progress C B t d Fit done s → B + 2 * pieces.length ≤ C → B + 2 * pieces.length ≤ u32Max → (∀ p ∈ pieces, Ok p.1) →
    (done ++ pieces.flatMap Prod.snd).Pairwise (fun a b => FixedRecord.ts a < FixedRecord.ts b) →
    (∀ r ∈ pieces.flatMap Prod.snd, InCalendar (FixedRecord.ts r)) →
    (appendPieces append pieces).result s = .ok () ∧
      ∃ D, Progress C D t d Fit (done ++ pieces.flatMap Prod.snd) ((appendPieces append pieces).final s)
  | [], B, done, s, h, _, _, _, _, _ => by
    refine ⟨rfl, B, ?_⟩
    rw [List.flatMap_nil, List.append_nil]
    exact h
  | (p, records) :: rest, B, done, s, h, hC, hsat, hp, ho, hcal => by
    rw [List.length_cons] at hC hsat
    rw [List.flatMap_cons, ← List.append_assoc] at ho ⊢
    have hcal' : ∀ r ∈ records, InCalendar (FixedRecord.ts r) := fun r hr =>
      hcal r (List.mem_flatMap.2 ⟨(p, records), List.mem_cons_self, hr⟩)
    obtain ⟨⟨a, hres⟩, hnext⟩ :=
      h.step ha (by omega) (by omega) (hp (p, records) List.mem_cons_self) (List.pairwise_append.1 ho).1 hcal'
    obtain ⟨hall, D, hfin⟩ := Progress.pieces ha rest hnext (by omega) (by omega)
      (fun q hq => hp q (List.mem_cons_of_mem _ hq)) ho
      (fun r hr => hcal r (by rw [List.flatMap_cons]; exact List.mem_append_right _ hr))
    unfold appendPieces
    rw [Prog.result_bind_ok hres, Prog.final_bind_ok hres]
    exact ⟨hall, D, hfin⟩

/-- The first piece, which registers the series, and the pieces after it leave the series with the rows of all. -/
theorem appendPieces_new (ha : Appender C t d append Ok Fit) (hmiss : (s.dirs d).manifest = .missing) (hC : u32Max ≤ C)
    (hfirst : ∀ p records months, Ok p → monthBatches records = .ok months →
      ∃ m, Fit m ∧ m.chunks = [] ∧ Writes C 0 t d records (append p records) s m) {pieces :
      List (P × List t.Row)} (hne : pieces ≠ [])
    (hlen : pieces.length < 2 ^ 31) (hp : ∀ p ∈ pieces, Ok p.1)
    (ho : (pieces.flatMap Prod.snd).Pairwise (fun a b => FixedRecord.ts a < FixedRecord.ts b))
    (hcal : ∀ r ∈ pieces.flatMap Prod.snd, InCalendar (FixedRecord.ts r)) :
    (appendPieces append pieces).result s = .ok () ∧
      ∃ m, SeriesOk d (((appendPieces append pieces).final s).dirs d) m ∧ m.recordType = t ∧
      seriesRows t (((appendPieces append pieces).final s).dirs d) = pieces.flatMap Prod.snd := by
  cases pieces with
  | nil => exact absurd rfl hne
  | cons piece rest =>
    obtain ⟨p, records⟩ := piece
    rw [List.length_cons] at hlen
    rw [List.flatMap_cons] at ho hcal
    obtain ⟨months, hmonths⟩ := monthBatches_ok ((ordered_iff_strict ha.strict).2 (List.pairwise_append.1 ho).1)
      (fun r hr => hcal r (List.mem_append_left _ hr))
    obtain ⟨m, hfit, hnil, ⟨a, hres⟩, m', hw⟩ := hfirst p records months (hp (p, records) List.mem_cons_self) hmonths
    have hbegin : Progress C 2 t d Fit records ((append p records).final s) := by
      refine ⟨hw.good, ⟨m', hw.manifest, ha.sameHead m m' hfit hw.head, fun c hc => ?_⟩, fun x => ?_⟩
      · refine (hw.bound c hc).elim (fun hc => ?_) id
        rw [hnil] at hc
        cases hc
      · refine (hw.mem_rows x).trans ?_
        rw [seriesRows_missing hmiss]
        simp
    have hroom : 2 + 2 * rest.length ≤ u32Max := by
      unfold u32Max
      omega
    obtain ⟨hall, D, hend⟩ := hbegin.pieces ha rest (le_trans hroom hC) hroom
      (fun q hq => hp q (List.mem_cons_of_mem _ hq)) ho
      (fun r hr => hcal r (List.mem_append_right _ hr))
    unfold appendPieces
    rw [Prog.result_bind_ok hres, Prog.final_bind_ok hres]
    obtain ⟨m₁, hm₁, hfit₁, -⟩ := hend.series
    have hok := ((hend.good.dir d).of_current hm₁).seriesOk hm₁
    refine ⟨hall, m₁, hok, ha.recordType m₁ hfit₁, ?_⟩
    rw [List.flatMap_cons]
    exact strict_unique (hok.strict (ha.recordType m₁ hfit₁) ha.strict) ho hend.mem_rows

end Pieces

/-! ## Klines -/

/-- What calls for one kline series have in common. -/
structure KlineSeriesArgs where
  symbol : Text
  timeframe : Text
  timeframeMs : Int
  priceScale : Int
  volumeScale : Int

/-- The series may be registered. -/
structure KlineSeriesArgs.Valid (a : KlineSeriesArgs) : Prop where
  symbol : Text.isBlank a.symbol = false
  timeframe : Text.isBlank a.timeframe = false
  timeframeMs : 0 < a.timeframeMs
  priceScale : 0 < a.priceScale
  volumeScale : 0 < a.volumeScale

/-- The manifest is one for the calls. -/
structure KlineSeriesArgs.Fit (a : KlineSeriesArgs) (m : SeriesMeta) : Prop where
  recordType : m.recordType = .kline
  timeframeMs : m.timeframeMs = a.timeframeMs
  priceScale : m.priceScale = a.priceScale
  volumeScale : m.volumeScale = a.volumeScale
  cacheKey : m.cacheKey = seriesCacheKey a.symbol klineCategory a.timeframe

def KlineSeriesArgs.dir (a : KlineSeriesArgs) : Dir := klineSeriesDir a.symbol a.timeframe

/-- `append_kline_range` to the series, at some time and under some policy. -/
def KlineSeriesArgs.append (a : KlineSeriesArgs) (p : Env × CompactionPolicy) (records : List KlineRecord) :
    Op RangeWriteSummary :=
  appendKlineRange p.1 p.2 a.symbol a.timeframe records a.timeframeMs a.priceScale a.volumeScale

section Kline

variable {C : Nat} {s : Store} {a : KlineSeriesArgs}

theorem KlineSeriesArgs.Valid.configuration (h : a.Valid) :
    validateConfiguration a.timeframeMs a.priceScale a.volumeScale = .ok () := by
  obtain ⟨-, -, h1, h2, h3⟩ := h
  unfold validateConfiguration
  rw [if_neg (by omega)]

theorem KlineSeriesArgs.Valid.build (h : a.Valid) (now : Int) :
    (buildKlineMeta now a.symbol a.timeframe a.timeframeMs a.priceScale a.volumeScale).validate = .ok () := by
  refine SeriesMeta.validate_of_chain ⟨h.symbol, ?_, h.timeframe, Nat.ne_of_gt FixedRecord.byteSize_pos, .month, rfl,
    rfl⟩ (fun _ hc => by cases hc)
    List.Pairwise.nil
  show Text.isBlank klineCategory = false
  decide

theorem KlineSeriesArgs.appender (h : a.Valid) (C : Nat) :
    Appender C .kline a.dir a.append (fun p => p.1.Faultless) a.Fit where
  strict := rfl
  recordType _ hm := hm.recordType
  sameHead m m' hm hh := by
    rw [SeriesMeta.SameHead] at hh
    rw [hh]
    exact ⟨hm.recordType, hm.timeframeMs, hm.priceScale, hm.volumeScale, hm.cacheKey⟩
  series p s m B records months hp hg hm hfit hb hC hsat hmonths hafter := by
    refine appendKlineRange_series hg hC hsat hp hm hfit.recordType hb h.configuration hmonths ?_
      (.inl hfit.cacheKey) hafter
    unfold validateExistingSeries
    rw [if_neg (by simp [hfit.timeframeMs, hfit.priceScale, hfit.volumeScale])]

theorem KlineSeriesArgs.appendPieces_new (h : a.Valid) (hg : GoodStore C s) (hmiss : (s.dirs a.dir).manifest = .missing)
    {records : List KlineRecord} (ho : records.Pairwise (fun a b => a.ts < b.ts))
    (hcal : ∀ r ∈ records, InCalendar r.ts) {pieces : List ((Env × CompactionPolicy) × List KlineRecord)}
    (hflat : pieces.flatMap Prod.snd = records) (hne : pieces ≠ []) (hlen : pieces.length < 2 ^ 31)
    (hp : ∀ p ∈ pieces, p.1.1.Faultless) :
    (appendPieces a.append pieces).result s = .ok () ∧
      KlineAnswers (((appendPieces a.append pieces).final s).dirs a.dir) records := by
  subst hflat
  obtain ⟨hres, m, hok, ht, hrows⟩ :=
    FastK.appendPieces_new (KlineSeriesArgs.appender h (max C u32Max)) hmiss (le_max_right _ _)
    (fun p records months hp hmonths =>
      ⟨buildKlineMeta p.1.now a.symbol a.timeframe a.timeframeMs a.priceScale a.volumeScale,
        ⟨rfl, rfl, rfl, rfl, rfl⟩, rfl,
        appendKlineRange_new (hg.mono (le_max_left _ _)) (le_trans (by decide) (le_max_right C u32Max)) hp hmiss
        h.configuration hmonths (h.build p.1.now)⟩) hne hlen hp ho hcal
  refine ⟨hres, ?_⟩
  have hans := hok.klineAnswers ht
  rw [hrows] at hans
  exact hans

end Kline

/-! ## Scalars -/

/-- `append_scalar_range` to the series, at some time and with some timeframe. -/
def ScalarSeriesKey.append (key : ScalarSeriesKey) (p : Env × Option Int) (records : List ScalarRecord) :
    Op RangeWriteSummary :=
  appendScalarRange p.1 key records p.2

/-- A call without faults that gives the timeframe of the new series, or leaves it to the store. -/
structure ScalarAppendOk (key : ScalarSeriesKey) (timeframeMs : Int) (s : Store) (p : Env × Option Int) : Prop where
  faultless : p.1.Faultless
  given : GivenOk p.2
  timeframe : rangeTimeframe s key none p.2 = .ok timeframeMs

/-- The manifest is one for the calls. -/
structure ScalarSeriesKey.Fit (key : ScalarSeriesKey) (timeframeMs : Int) (m : SeriesMeta) : Prop where
  recordType : m.recordType = .scalar
  timeframeMs : m.timeframeMs = timeframeMs
  cacheKey : m.cacheKey = seriesCacheKey key.symbol key.category key.name

section Scalar

variable {C : Nat} {s : Store} {key : ScalarSeriesKey} {timeframeMs : Int}

theorem rangeTimeframe_congr {u : Store} (hu : ∀ e, u.dirs e = s.dirs e) (key : ScalarSeriesKey)
    (existing : Option SeriesMeta) (given : Option Int) :
    rangeTimeframe u key existing given = rangeTimeframe s key existing given := by
  unfold rangeTimeframe
  simp only [hu]

theorem rangeTimeframe_given {v : Int} (h : rangeTimeframe s key none (some v) = .ok timeframeMs) : v = timeframeMs :=
  Except.ok.inj h

theorem scalarAppender (key : ScalarSeriesKey) (timeframeMs : Int) (s₀ : Store) (C : Nat) :
    Appender C .scalar key.dir key.append (ScalarAppendOk key timeframeMs s₀) (key.Fit timeframeMs) where
  strict := rfl
  recordType _ hm := hm.recordType
  sameHead m m' hm hh := by
    rw [SeriesMeta.SameHead] at hh
    rw [hh]
    exact ⟨hm.recordType, hm.timeframeMs, hm.cacheKey⟩
  series p s m B records months hp hg hm hfit hb hC hsat hmonths hafter := by
    refine appendScalarRange_series hg hC hsat hp.faultless hm hfit.recordType hb hp.given hmonths
      (fun v hv => ?_) (.inl hfit.cacheKey) hafter
    have htf := hp.timeframe
    rw [hv] at htf
    exact (rangeTimeframe_given htf).trans hfit.timeframeMs.symm

theorem ScalarSeriesKey.appendPieces_new (hkey : key.isBlank = false) (hg : GoodStore C s)
    (hmiss : (s.dirs key.dir).manifest = .missing) {records : List ScalarRecord}
    (ho : records.Pairwise (fun a b => a.ts < b.ts)) (hcal : ∀ r ∈ records, InCalendar r.ts)
    {pieces : List ((Env × Option Int) × List ScalarRecord)} (hflat : pieces.flatMap Prod.snd = records)
    (hne : pieces ≠ []) (hlen : pieces.length < 2 ^ 31) (hp : ∀ p ∈ pieces, ScalarAppendOk key timeframeMs s p.1) :
    (appendPieces key.append pieces).result s = .ok () ∧
      ScalarAnswers (((appendPieces key.append pieces).final s).dirs key.dir) records := by
  subst hflat
  obtain ⟨hres, m, hok, ht, hrows⟩ := FastK.appendPieces_new (scalarAppender key timeframeMs s (max C u32Max)) hmiss
    (le_max_right _ _) (fun p records months hp hmonths => ⟨buildScalarMeta p.1.now key timeframeMs,
      ⟨rfl, rfl, rfl⟩, rfl,
      appendScalarRange_new (hg.mono (le_max_left _ _)) (le_trans (by decide) (le_max_right C u32Max)) hp.faultless
        hmiss hp.given hmonths
        (fun u hu => (rangeTimeframe_congr hu key none p.2).trans hp.timeframe)
        (SeriesMeta.validate_of_chain (headValid_build hkey p.1.now timeframeMs)
          (fun _ hc => by cases hc) List.Pairwise.nil)⟩) hne hlen hp ho hcal
  refine ⟨hres, ?_⟩
  have hans := hok.scalarAnswers ht
  rw [hrows] at hans
  exact hans

end Scalar

/-- **Batching independence**: in a healthy store, a list that is appended to a new series in pieces, fewer than 2^31,
is accepted and answers reads as itself, and so does the list appended in one call. -/
theorem pieces_independent {root : Dir} {n : Nat} {s : Store} (h : Run root Healthy n s) :
    (∀ a : KlineSeriesArgs, a.Valid → (s.dirs a.dir).manifest = .missing → ∀ records : List KlineRecord,
      records.Pairwise (fun a b => a.ts < b.ts) → (∀ r ∈ records, InCalendar r.ts) →
        (∀ pieces : List ((Env × CompactionPolicy) × List KlineRecord), pieces.flatMap Prod.snd = records →
          pieces ≠ [] → pieces.length < 2 ^ 31 →
          (∀ p ∈ pieces, p.1.1.Faultless) → (appendPieces a.append pieces).result s = .ok () ∧
            KlineAnswers (((appendPieces a.append pieces).final s).dirs a.dir) records) ∧
        ∀ p : Env × CompactionPolicy, p.1.Faultless → (∃ summary, (a.append p records).result s = .ok summary) ∧
          KlineAnswers (((a.append p records).final s).dirs a.dir) records) ∧
      ∀ (key : ScalarSeriesKey) (timeframeMs : Int), key.isBlank = false → (s.dirs key.dir).manifest = .missing →
        ∀ records : List ScalarRecord,
        records.Pairwise (fun a b => a.ts < b.ts) → (∀ r ∈ records, InCalendar r.ts) →
          (∀ pieces : List ((Env × Option Int) × List ScalarRecord), pieces.flatMap Prod.snd = records → pieces ≠ [] →
            pieces.length < 2 ^ 31 →
            (∀ p ∈ pieces, ScalarAppendOk key timeframeMs s p.1) → (appendPieces key.append pieces).result s = .ok () ∧
              ScalarAnswers (((appendPieces key.append pieces).final s).dirs key.dir) records) ∧
          ∀ p : Env × Option Int, ScalarAppendOk key timeframeMs s p →
            (∃ summary, (key.append p records).result s = .ok summary) ∧
            ScalarAnswers (((key.append p records).final s).dirs key.dir) records := by
  obtain ⟨C, hg⟩ := h.healthy
  refine ⟨fun a ha hmiss records ho hcal => ⟨fun pieces hflat hne hlen hp =>
    KlineSeriesArgs.appendPieces_new ha hg hmiss ho hcal hflat hne hlen hp, fun p hp => ?_⟩,
    fun key tf hkey hmiss records ho hcal =>
      ⟨fun pieces hflat hne hlen hp => key.appendPieces_new hkey hg hmiss ho hcal hflat hne hlen hp, fun p hp => ?_⟩⟩
  · have hone : [(p, records)].flatMap Prod.snd = records := by simp
    obtain ⟨hres, hans⟩ :=
      KlineSeriesArgs.appendPieces_new ha hg hmiss ho hcal hone (by simp) (by simp) (by simpa using hp)
    obtain ⟨hok, hfin⟩ := appendPieces_single hres
    rw [hfin] at hans
    exact ⟨hok, hans⟩
  · have hone : [(p, records)].flatMap Prod.snd = records := by simp
    obtain ⟨hres, hans⟩ := key.appendPieces_new hkey hg hmiss ho hcal hone (by simp) (by simp) (by simpa using hp)
    obtain ⟨hok, hfin⟩ := appendPieces_single hres
    rw [hfin] at hans
    exact ⟨hok, hans⟩

def sampleArgs : KlineSeriesArgs := ⟨"X", "1m", 60000, 1, 1⟩

/-- Two pieces that meet in January, with an empty one between them; the second runs into February. -/
def samplePieces : List ((Env × CompactionPolicy) × List KlineRecord) :=
  [((Env.plain 5, .default), [sampleKline 0]), ((Env.plain 6, .default), []),
    ((Env.plain 7, .default), [sampleKline 60000, sampleKline 3456000000])]

theorem pieces_independent_sample :
    KlineAnswers (((appendPieces sampleArgs.append samplePieces).final (Store.empty [])).dirs sampleArgs.dir)
      [sampleKline 0, sampleKline 60000, sampleKline 3456000000] ∧
    ScalarAnswers (((ScalarSeriesKey.append ⟨"S", "x", "y"⟩ (Env.plain 5, some 60000) sampleTwoMonths).final
      (Store.empty [])).dirs
      (ScalarSeriesKey.dir ⟨"S", "x", "y"⟩)) sampleTwoMonths := by
  have hrun : Run [] Healthy 0 (Store.empty []) := .start
  refine ⟨?_, ?_⟩
  · refine (((pieces_independent hrun).1 sampleArgs (by constructor
      <;> decide) rfl _ (by decide +kernel) (by decide +kernel)).1 samplePieces rfl (by decide)
      (by decide) (fun p hp => ?_)).2
    simp only [samplePieces, List.mem_cons, List.not_mem_nil, or_false] at hp
    rcases hp with rfl | rfl | rfl <;> exact plain_faultless _
  · exact (((pieces_independent hrun).2 ⟨"S", "x", "y"⟩ 60000 (by decide) rfl sampleTwoMonths (by decide +kernel)
      (by decide +kernel)).2
      (Env.plain 5, some 60000) ⟨plain_faultless 5, rfl, rfl⟩).2

end FastK
