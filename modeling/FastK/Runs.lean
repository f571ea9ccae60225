import FastK.Batches
import FastK.Good
/-!
# Runs of calls

What a whole call leaves of a store in order (`Call.run_good`): each call begins with a recovery that finds nothing to
do, and its writes leave the store in order as long as they meet series of their own record type.
-/
namespace FastK

open Journal

section Calls

variable {C B : Nat} {d : Dir} {m : SeriesMeta} {s : Store} {env : Env}

/-! ## Before the writes -/

theorem beginMutation_good (hg : GoodStore C s) (env : Env) :
    (beginMutation env).result s = .ok () ∧ GoodStore C ((beginMutation env).final s) ∧
      ∀ e, ((beginMutation env).final s).dirs e = s.dirs e := by
  obtain ⟨tr, hrun, hquiet⟩ := hg.begin env
  have hdirs := exec_quiet hquiet s
  have hfin : (beginMutation env).final s = exec tr s := by
    show exec (beginMutation env s).1 s = _
    rw [hrun]
  have hres : (beginMutation env).result s = .ok () := by
    show (beginMutation env s).2 = _
    rw [hrun]
  rw [hfin]
  exact ⟨hres, hg.same hdirs, hdirs⟩

theorem startupRecoverLocked_good (hg : GoodStore C s) (env : Env) :
    (∃ report, (startupRecoverLocked env).result s = .ok report) ∧ GoodStore C ((startupRecoverLocked env).final s) ∧
      ∀ e, ((startupRecoverLocked env).final s).dirs e = s.dirs e := by
  obtain ⟨tr, report, hrun, hdirs⟩ := hg.recover env
  have hfin : (startupRecoverLocked env).final s = exec tr s := by
    show exec (startupRecoverLocked env s).1 s = _
    rw [hrun]
  rw [hfin]
  exact ⟨⟨report, by show (startupRecoverLocked env s).2 = _; rw [hrun]⟩, hg.same hdirs, hdirs⟩

theorem initLocked_good (hg : GoodStore C s) (env : Env) :
    (initLocked env).result s = .ok () ∧ GoodStore C ((initLocked env).final s) ∧
      ∀ e, ((initLocked env).final s).dirs e = s.dirs e := by
  have hroot : GoodStore C (Journal.Store.apply IoStep.makeSeriesRoot s) := ⟨hg.dir⟩
  obtain ⟨⟨report, hres⟩, hgood, hdirs⟩ := startupRecoverLocked_good hroot env
  have hrec : (startupRecoverLocked env >>= fun _ =>
    (pure () : Op Unit)).result (Journal.Store.apply IoStep.makeSeriesRoot s) = .ok () := by
    rw [Prog.result_bind_ok hres]
    rfl
  have hfin : (initLocked env).final s = (startupRecoverLocked env).final
    (Journal.Store.apply IoStep.makeSeriesRoot s) := by
    unfold initLocked
    rw [Prog.final_bind_ok (Prog.result_emit _ s), Prog.final_emit, Prog.final_bind_ok hres]
    rfl
  refine ⟨?_, ?_, fun e => ?_⟩
  · unfold initLocked
    rw [Prog.result_bind_ok (Prog.result_emit _ s)]
    exact hrec
  · rw [hfin]
    exact hgood
  · rw [hfin]
    exact hdirs e

theorem ensureSeriesRoot_good (hg : GoodStore C s) (env : Env) :
    (ensureSeriesRoot env).result s = .ok () ∧ GoodStore C ((ensureSeriesRoot env).final s) ∧
      ∀ e, ((ensureSeriesRoot env).final s).dirs e = s.dirs e := by
  have hrun : ensureSeriesRoot env s = (if s.seriesRoot then (pure () : Op Unit) else initLocked env) s := rfl
  unfold Prog.result Prog.final Prog.trace
  rw [hrun]
  cases s.seriesRoot with
  | true => exact ⟨rfl, hg, fun _ => rfl⟩
  | false => exact initLocked_good hg env

/-- A manifest as it is read. -/
theorem GoodStore.loads (hg : GoodStore C s) (hm : (s.dirs d).manifest = .current m) :
    metaFor none (s.dirs d) = .ok m :=
  metaFor_series (((hg.dir d).of_current hm).seriesOk hm) (.inl rfl)

theorem loads_missing {sd : SeriesDir} (hm : sd.manifest = .missing) : ∃ e, metaFor none sd = .error (.notFound e) := by
  unfold metaFor SeriesDir.loadSeriesMeta
  rw [hm]
  exact ⟨_, rfl⟩

/-! ## Registering -/

/-- **A new series is in order.** -/
theorem createSeries_good (env : Env) (hg : GoodStore C s) (hmiss : (s.dirs d).manifest = .missing) (hh : HeadOk d m)
    (hc : m.chunks = []) (ha : m.activeChunkId = none) :
    GoodStore C ((createSeries env d m).final s) ∧
      ∀ m0, (createSeries env d m).result s = .ok m0 → m0 = m ∧
        (((createSeries env d m).final s).dirs d).manifest = .current m := by
  unfold Prog.final Prog.result Prog.trace
  cases hv : m.validate with
  | error e =>
    rw [createSeries_error hv]
    refine ⟨hg.calm (by simp [IoStep.calm]), fun _ hres => by cases hres⟩
  | ok _ =>
    have hv' : m.validate = .ok () := hv
    rw [createSeries_run hv']
    have hfiles := (hg.dir d).of_missing hmiss
    have hdir : (exec (IoStep.arm :: .makeChunksDir d :: (saveSteps env d m ++ [.disarm])) s).dirs d =
        { s.dirs d with chunksDir := true, manifest := .current m } := by
      rw [exec_cons, exec_cons, exec_disarm_dirs, saveSteps_dir, apply_dirs, apply_dirs]
      simp [IoStep.onDir]
    have hgood : GoodSeries C d { s.dirs d with chunksDir := true, manifest := .current m } m := by
      refine ⟨⟨hv', hh, ⟨wellFiled_nil hfiles, fun n g hg => ?_⟩, fun c h => ?_⟩, fun n g hg => ?_,
        tidy_of_no_chunks hc ha, fun c h => ?_, described_nil hfiles hc⟩
      · have := hg.1
        rw [show ({ s.dirs d with chunksDir := true, manifest := .current m } : SeriesDir).files =
          (s.dirs d).files from rfl, hfiles] at this
        cases this
      · rw [hc] at h
        cases h
      · have := hg.1
        rw [show ({ s.dirs d with chunksDir := true, manifest := .current m } : SeriesDir).files =
          (s.dirs d).files from rfl, hfiles] at this
        cases this
      · rw [hc] at h
        cases h
    refine ⟨hg.on (d := d) ?_ ?_, fun m0 hres => ⟨(Except.ok.inj hres).symm, ?_⟩⟩
    · simp [saveSteps, IoStep.on]
    · rw [hdir]
      exact .series rfl hgood
    · rw [hdir]

theorem headOk_kline (now : Int) (symbol timeframe : Text) (timeframeMs priceScale volumeScale : Int) :
    HeadOk (klineSeriesDir symbol timeframe) (buildKlineMeta now symbol timeframe timeframeMs priceScale volumeScale) :=
  ⟨rfl, rfl, rfl, fun _ => rfl, fun _ => rfl⟩

theorem headOk_scalar (now : Int) (key : ScalarSeriesKey) (timeframeMs : Int) :
    HeadOk key.dir (buildScalarMeta now key timeframeMs) :=
  ⟨rfl, rfl, rfl, (by intro h; cases h), fun _ => rfl⟩

theorem headOk_fixed (k : FixedKind) (now : Int) (symbol channel : Text) (timeframeMs : Int) (unit : PartitionUnit) :
    HeadOk (k.dir symbol channel) (buildFixedMeta k.Row now symbol k.category channel timeframeMs unit) := by
  cases k <;> exact ⟨rfl, rfl, rfl, (by intro h; cases h), (by rintro (h | h) <;> cases h)⟩

/-- What a registration leaves: the store in order, and the manifest it answers with on disk. -/
structure Registers (C : Nat) (d : Dir) (p : Op SeriesMeta) (new : SeriesMeta) (s : Store) : Prop where
  good : GoodStore C (p.final s)
  answer : ∀ m, p.result s = .ok m → ((p.final s).dirs d).manifest = .current m
  fresh : (s.dirs d).manifest = .missing → ∀ m, p.result s = .ok m → m = new

/-- A registration answers with the manifest that is there, or creates the series. -/
theorem registers_of_run (env : Env) {p : Op SeriesMeta} {new : SeriesMeta} (hg : GoodStore C s) (hh : HeadOk d new)
    (hc : new.chunks = []) (ha : new.activeChunkId = none) (hnew : (s.dirs d).manifest = .missing →
      p s = createSeries env d new s)
    (hold : ∀ m, (s.dirs d).manifest = .current m → p s = ([], .ok m) ∨ ∃ e, p s = ([], .error e)) :
    Registers C d p new s := by
  cases hg.dir d with
  | empty hmiss _ =>
    obtain ⟨hgood, hans⟩ := createSeries_good env hg hmiss hh hc ha
    have hfin : p.final s = (createSeries env d new).final s := by
      unfold Prog.final Prog.trace
      rw [hnew hmiss]
    have hres : p.result s = (createSeries env d new).result s := by
      unfold Prog.result
      rw [hnew hmiss]
    refine ⟨hfin ▸ hgood, fun m hm => ?_, fun _ m hm => ?_⟩
    · obtain ⟨rfl, hcur⟩ := hans m (hres ▸ hm)
      rw [hfin]
      exact hcur
    · exact (hans m (hres ▸ hm)).1
  | @series m hm _ =>
    have hfin : p.final s = s := by
      unfold Prog.final Prog.trace
      rcases hold m hm with hrun | ⟨e, hrun⟩ <;> rw [hrun] <;> rfl
    refine ⟨by rw [hfin]; exact hg, fun m0 hres => ?_, fun hmiss => by rw [hm] at hmiss; cases hmiss⟩
    rw [hfin]
    unfold Prog.result at hres
    rcases hold m hm with hrun | ⟨e, hrun⟩
    · rw [hrun] at hres
      obtain rfl := Except.ok.inj hres
      exact hm
    · rw [hrun] at hres
      cases hres

theorem registerKlineSeriesLocked_good (hg : GoodStore C s) (env : Env) (symbol timeframe : Text)
    (timeframeMs priceScale volumeScale : Int) :
    Registers C (klineSeriesDir symbol timeframe)
    (registerKlineSeriesLocked env symbol timeframe timeframeMs priceScale volumeScale)
      (buildKlineMeta env.now symbol timeframe timeframeMs priceScale volumeScale) s := by
  refine registers_of_run env hg (headOk_kline env.now symbol timeframe timeframeMs priceScale volumeScale) rfl rfl
    (fun hmiss => ?_) (fun m hm => ?_)
  · unfold registerKlineSeriesLocked
    rw [Prog.look_bind, if_neg (by rw [hmiss]; simp [ManifestFile.isPresent])]
  · have hload : loadMeta none (klineSeriesDir symbol timeframe) s = ([], .ok m) := by
      unfold loadMeta
      rw [Prog.look_bind, hg.loads hm]
      rfl
    unfold registerKlineSeriesLocked
    rw [Prog.look_bind, if_pos (by rw [hm]; rfl), Prog.bind_run hload]
    cases validateExistingSeries m timeframeMs priceScale volumeScale with
    | error e => exact .inr ⟨e, rfl⟩
    | ok _ => exact .inl rfl

theorem registerScalarSeriesLocked_good (hg : GoodStore C s) (env : Env) (key : ScalarSeriesKey) (timeframeMs : Int) :
    Registers C key.dir (registerScalarSeriesLocked env key timeframeMs)
    (buildScalarMeta env.now key timeframeMs) s := by
  refine registers_of_run env hg (headOk_scalar env.now key timeframeMs) rfl rfl (fun hmiss => ?_) (fun m hm => ?_)
  · unfold registerScalarSeriesLocked
    rw [Prog.look_bind, if_neg (by rw [hmiss]; simp [ManifestFile.isPresent])]
  · have hload : loadMeta none key.dir s = ([], .ok m) := by
      unfold loadMeta
      rw [Prog.look_bind, hg.loads hm]
      rfl
    unfold registerScalarSeriesLocked
    rw [Prog.look_bind, if_pos (by rw [hm]; rfl), Prog.bind_run hload]
    by_cases htf : m.timeframeMs ≠ timeframeMs
    · rw [if_pos htf]
      exact .inr ⟨_, rfl⟩
    · rw [if_neg htf]
      exact .inl rfl

/-! ## The loop over the months -/

/-- **The months of a range leave the store in order**, where each finds the manifest that the one before it has
saved; `E` is what is known of the entries of the months that are written to. -/
theorem writeMonths_good {R : Type} [FixedRecord R] {t : RecordType} {callKey : Text} {E : ChunkMeta → Prop}
    {write : List R → Option SeriesMeta → Op SeriesMeta}
    (hw : ∀ s m rows, GoodStore C s → (s.dirs d).manifest = .current m → m.recordType = t →
      (∀ month, monthKey (firstTs rows) = .ok month → ∀ c ∈ m.chunks, c.monthKey = month → E c) →
      MonthAdvanced C d callKey (firstTs rows) s (write rows (some m) s)) :
    ∀ {months : List (Text × List R)} {completed : List Text} {s : Store} {m : SeriesMeta}, GoodStore C s →
      (s.dirs d).manifest = .current m →
      m.recordType = t → seriesCacheKey m.symbol m.category m.name = callKey ∨ months.length ≤ 1 →
        (∀ b ∈ months, Piece .month b) →
      months.Pairwise (fun a b => a.1 ≠ b.1) → (∀ b ∈ months, ∀ c ∈ m.chunks, c.monthKey = b.1 → E c) →
      GoodStore C ((writeMonths write (some m) completed months).final s)
  | [], _, _, _, hg, _, _, _, _, _, _ => hg
  | (month, rows) :: rest, completed, s, m, hg, hm, ht, hkey, hp, hd, hb => by
    have hmonth := (hp (month, rows) (by simp)).monthKey
    have hadv := hw s m rows hg hm ht (fun k hk => by
      obtain rfl : k = month := Except.ok.inj (hk.symm.trans hmonth)
      exact hb (k, rows) (by simp))
    unfold writeMonths
    refine Prog.final_bind_of ?_ (fun m0 hres => ?_)
    · rw [Prog.final_mapError]
      exact hadv.good
    · rw [Prog.final_mapError]
      rw [Prog.result_mapError_eq_ok] at hres
      obtain ⟨m', hm', rfl⟩ := hadv.result m m0 hm hres
      obtain ⟨m1, hm1, hhead⟩ := (hadv.advanced month hmonth).head m hm
      obtain rfl := ManifestFile.current.inj (hm'.symm.trans hm1)
      rcases hkey with hkey | hone
      · have hkey' : seriesCacheKey m'.symbol m'.category m'.name = callKey := by
          rw [hhead]
          exact hkey
        have hrefresh : refreshed callKey m m' = m' := if_pos hkey'
        rw [hrefresh]
        refine writeMonths_good hw hadv.good hm' (hhead.recordType.trans ht) (.inl hkey') (fun b hb =>
          hp b (by simp [hb]))
          (List.Pairwise.of_cons hd) (fun b hbr c hc hck => ?_)
        have hne : c.monthKey ≠ month := by
          rw [hck]
          exact (List.rel_of_pairwise_cons hd hbr).symm
        obtain ⟨m2, hm2, hc2⟩ := (hadv.advanced month hmonth).others m' hm' c hc hne
        obtain rfl := ManifestFile.current.inj (hm.symm.trans hm2)
        exact hb b (by simp [hbr]) c hc2 hck
      · have hnil : rest = [] := by
          rw [List.length_cons] at hone
          exact List.eq_nil_of_length_eq_zero (by omega)
        subst hnil
        exact hadv.good

/-! ## Regular calls -/

/-- The manifest of the directory, if it has one, is of the record type. -/
def OfType (t : RecordType) (sd : SeriesDir) : Prop := ∀ m, sd.manifest = .current m → m.recordType = t

instance (t : RecordType) (sd : SeriesDir) : Decidable (OfType t sd) :=
  match hm : sd.manifest with
  | .current m => decidable_of_iff (m.recordType = t) ⟨fun h m' hm' => by rw [hm] at hm'; cases hm'; exact h,
      fun h => h m hm⟩
  | .missing => .isTrue (fun _ h => by rw [hm] at h; cases h)
  | .corrupt _ => .isTrue (fun _ h => by rw [hm] at h; cases h)

/-- The write meets a series of its own record type, or none. -/
def Call.Typed (s : Store) : Call → Prop
  | .putKline _ symbol timeframe _ => OfType .kline (s.dirs (klineSeriesDir symbol timeframe))
  | .mergeKline symbol timeframe _ => OfType .kline (s.dirs (klineSeriesDir symbol timeframe))
  | .appendKlineRange _ symbol timeframe _ _ _ _ => OfType .kline (s.dirs (klineSeriesDir symbol timeframe))
  | .putScalar key _ _ _ => OfType .scalar (s.dirs key.dir)
  | .appendScalar key _ _ _ => OfType .scalar (s.dirs key.dir)
  | .appendScalarRange key _ _ => OfType .scalar (s.dirs key.dir)
  | _ => True

/-- A scalar write that has to create its series has a symbol, a category and a name. -/
def Call.Named (s : Store) : Call → Prop
  | .putScalar key _ _ _ => (s.dirs key.dir).manifest = .missing → key.isBlank = false
  | .appendScalar key _ _ _ => (s.dirs key.dir).manifest = .missing → key.isBlank = false
  | _ => True

/-- The range lies in one month, or the series was registered under the names of the call. -/
def OneName {R : Type} [FixedRecord R] (callKey : Text) (records : List R) (sd : SeriesDir) : Prop :=
  ∀ m months, sd.manifest = .current m → monthBatches records = .ok months →
    seriesCacheKey m.symbol m.category m.name = callKey ∨ months.length ≤ 1

def Call.Unaliased (s : Store) : Call → Prop
  | .appendKlineRange _ symbol timeframe records _ _ _ =>
    OneName (seriesCacheKey symbol klineCategory timeframe) records (s.dirs (klineSeriesDir symbol timeframe))
  | .appendScalarRange key records _ =>
      OneName (seriesCacheKey key.symbol key.category key.name) records (s.dirs key.dir)
  | _ => True

/-- The records of a tick write fit into an address space. -/
def Call.Fits : Call → Prop
  | .putFixed _ _ _ records => records.length < 2 ^ 56
  | _ => True

structure Call.Regular (s : Store) (c : Call) : Prop where
  typed : c.Typed s
  named : c.Named s
  unaliased : c.Unaliased s
  fits : c.Fits

/-- No removal fails. -/
def Env.Faultless (env : Env) : Prop := ∀ d path, env.removeFails d path = false

/-! ## What a call leaves -/

theorem MonthBound.of_good (hg : GoodStore B s) (d : Dir) (ts : Int) : MonthBound (s.dirs d) ts B :=
  fun _ _ hm _ c hc _ => ((hg.dir d).of_current hm).bound c hc

theorem MonthBound.of_current {sd : SeriesDir} {ts : Int} (hm : sd.manifest = .current m)
    (h : ∀ month, monthKey ts = .ok month → ∀ c ∈ m.chunks, c.monthKey = month → c.generation ≤ B) :
    MonthBound sd ts B := by
  intro m' month hm' hmonth
  obtain rfl := ManifestFile.current.inj (hm.symm.trans hm')
  exact h month hmonth

/-- A kline write that finds no manifest is refused. -/
theorem putKlineChunkLocked_missing {policy : CompactionPolicy} {symbol timeframe : Text} {records : List KlineRecord}
    (hm : (s.dirs (klineSeriesDir symbol timeframe)).manifest = .missing) :
    Refused (putKlineChunkLocked env policy symbol timeframe records none s) := by
  obtain ⟨e, he⟩ := loads_missing hm
  have hload : loadMeta none (klineSeriesDir symbol timeframe) s = ([], .error (.notFound e)) := by
    unfold loadMeta
    rw [Prog.look_bind, he]
    rfl
  unfold putKlineChunkLocked
  rw [Prog.bind_run_error hload]
  exact ⟨⟨_, rfl⟩, by simp⟩

/-- The body of a call runs on the store that the call has found. -/
theorem beginMutation_then {α : Type} {D : Nat} {body : Unit → Op α} (hg : GoodStore B s)
    (h : ∀ t, GoodStore B t → (∀ e, t.dirs e = s.dirs e) → GoodStore D ((body ()).final t)) :
    GoodStore D ((beginMutation env >>= body).final s) := by
  obtain ⟨hres, hgood, hdirs⟩ := beginMutation_good hg env
  rw [Prog.final_bind_ok hres]
  exact h _ hgood hdirs

/-- A check before a call changes nothing. -/
theorem lift_then {α β : Type} {D : Nat} {r : Except FastKError α} {body : α → Op β} (hg : GoodStore D s)
    (h : ∀ a, r = .ok a → GoodStore D ((body a).final s)) : GoodStore D ((Prog.lift r >>= body).final s) :=
  Prog.final_bind_of hg (fun a ha => h a ha)

/-- What a call answers with besides has no effect. -/
theorem then_pure {α β : Type} {D : Nat} {p : Op α} {f : α → β} (h : GoodStore D (p.final s)) :
    GoodStore D ((p >>= fun a => (pure (f a) : Op β)).final s) := Prog.final_bind_of h (fun _ _ => h)

/-- A call on a store with generations up to `B` ends with generations up to `C`: a write takes one more, and the merge
after a write to a series that is there one more again. -/
structure Allows (B C : Nat) (s : Store) : Prop where
  write : B + 1 ≤ C
  merge : ∀ d m, (s.dirs d).manifest = .current m → B + 2 ≤ C

theorem Allows.le (h : Allows B C s) : B ≤ C := le_trans (Nat.le_succ B) h.write

theorem Allows.two (B : Nat) (s : Store) : Allows B (B + 2) s := ⟨Nat.le_succ _, fun _ _ _ => le_refl _⟩

section Writes

variable {policy : CompactionPolicy} {symbol timeframe channel : Text}

theorem putKlineChunk_good {records : List KlineRecord} (hg : GoodStore B s) (ha : Allows B C s) (hB : B + 1 < u32Max)
    (hfull : env.Faultless) (ht : OfType .kline (s.dirs (klineSeriesDir symbol timeframe))) :
    GoodStore C ((putKlineChunk env policy symbol timeframe records).final s) := by
  unfold putKlineChunk
  refine lift_then (hg.mono ha.le) (fun _ _ => beginMutation_then hg (fun t hgt hdirs => then_pure ?_))
  have hup := hgt.mono ha.le
  cases hgt.dir (klineSeriesDir symbol timeframe) with
  | empty hmiss _ => exact hup.calm (putKlineChunkLocked_missing hmiss).2
  | @series m hm h =>
    have hms : (s.dirs (klineSeriesDir symbol timeframe)).manifest = .current m := by
      rw [← hdirs]
      exact hm
    exact (putKlineChunkLocked_good (B := B) hup hm (ht _ hms) rfl (.inl rfl) (.of_good hgt _ _) ha.write
      (fun _ _ _ => ha.merge _ _ hms) hB hfull).good

theorem mergeKlineMonth_good {key : Text} (hg : GoodStore B s) (ha : Allows B C s) (hB : B + 1 < u32Max)
    (hfull : env.Faultless) (ht : OfType .kline (s.dirs (klineSeriesDir symbol timeframe))) :
    GoodStore C ((mergeKlineMonth env symbol timeframe key).final s) := by
  unfold mergeKlineMonth
  refine beginMutation_then hg (fun t hgt hdirs => ?_)
  have hup := hgt.mono ha.le
  have harm : GoodStore C (Journal.Store.apply IoStep.arm t) := ⟨hup.dir⟩
  rw [Prog.final_bind_ok (Prog.result_emit _ t), Prog.final_emit]
  cases hgt.dir (klineSeriesDir symbol timeframe) with
  | empty hmiss _ =>
    obtain ⟨e, he⟩ := loads_missing hmiss
    have hload : (loadMeta none (klineSeriesDir symbol timeframe)).result (Journal.Store.apply IoStep.arm t) =
      .error (.notFound e) := by
      unfold loadMeta Prog.result
      rw [Prog.look_bind]
      exact he
    rw [Prog.final_bind_error hload]
    exact harm
  | @series m hm h =>
    have hload : (loadMeta none (klineSeriesDir symbol timeframe)).result (Journal.Store.apply IoStep.arm t)
      = .ok m := by
      unfold loadMeta Prog.result
      rw [Prog.look_bind]
      exact hgt.loads hm
    have hfin : (loadMeta none (klineSeriesDir symbol timeframe)).final (Journal.Store.apply IoStep.arm t) =
      Journal.Store.apply IoStep.arm t := rfl
    rw [Prog.final_bind_ok hload, hfin]
    have hmt : m.recordType = .kline := ht m (by rw [← hdirs]; exact hm)
    obtain ⟨hadv, -⟩ := mergeKlineMonthLocked_good (B := B) key harm hm hmt rfl (fun c hc _ => h.bound c hc)
      (fun _ => ha.write) (by omega) hfull
    refine Prog.final_bind_of hadv.good (fun m' hres => ?_)
    exact ⟨hadv.good.dir⟩

/-- Where a scalar write finds its directory. -/
theorem GoodStore.scalarReady {key : ScalarSeriesKey} (hg : GoodStore C s) (ht : OfType .scalar (s.dirs key.dir))
    (hn : (s.dirs key.dir).manifest = .missing → key.isBlank = false) : ScalarReady key none (s.dirs key.dir) := by
  cases hg.dir key.dir with
  | empty hmiss hf => exact .new hmiss hf (hn hmiss) rfl
  | series hm h => exact .series (h.seriesOk hm) (ht _ hm) (.inl rfl)

theorem putScalarChunk_good {key : ScalarSeriesKey} {timeframeMs : Int} {records : List ScalarRecord}
    {blockSize : Nat} (hg : GoodStore B s) (ha : Allows B C s) (hB : B + 1 < u32Max) (hfull : env.Faultless)
    (ht : OfType .scalar (s.dirs key.dir)) (hn : (s.dirs key.dir).manifest = .missing → key.isBlank = false) :
    GoodStore C ((putScalarChunk env key timeframeMs records blockSize).final s) := by
  have hup := hg.mono ha.le
  unfold putScalarChunk
  refine lift_then hup (fun _ _ => lift_then hup (fun _ _ => beginMutation_then hg (fun t hgt hdirs => then_pure ?_)))
  rw [← hdirs] at ht hn
  exact (putScalarChunkLocked_good (B := B) (hgt.mono ha.le) (hgt.scalarReady ht hn) (.of_good hgt _ _) ha.write
    (by omega) hfull).good

theorem appendScalarChunk_good {key : ScalarSeriesKey} {timeframeMs : Int} {records : List ScalarRecord}
    {blockSize : Nat} (hg : GoodStore B s) (ha : Allows B C s) (hB : B + 1 < u32Max) (hfull : env.Faultless)
    (ht : OfType .scalar (s.dirs key.dir)) (hn : (s.dirs key.dir).manifest = .missing → key.isBlank = false) :
    GoodStore C ((appendScalarChunk env key timeframeMs records blockSize).final s) := by
  have hup := hg.mono ha.le
  unfold appendScalarChunk
  refine lift_then hup (fun _ _ => lift_then hup (fun _ _ => beginMutation_then hg (fun t hgt hdirs => then_pure ?_)))
  rw [← hdirs] at ht hn
  exact (appendScalarChunkLocked_good (B := B) (hgt.mono ha.le) (hgt.scalarReady ht hn) (.of_good hgt _ _) ha.write
    (by omega) hfull).good

theorem putFixedChunk_good {k : FixedKind} {records : List k.Row} (hg : GoodStore B s) (ha : Allows B C s)
    (hB : B + 1 < u32Max) (hfull : env.Faultless) (hlen : records.length < 2 ^ 56) :
    GoodStore C ((putFixedChunk env k symbol channel records).final s) := by
  rw [putFixedChunk_eq]
  refine lift_then (hg.mono ha.le) (fun _ hord => beginMutation_then hg (fun t hgt hdirs => ?_))
  have ho := (validateStrictOrder_eq_ok.1 hord).2
  have hup := hgt.mono ha.le
  cases hgt.dir (k.dir symbol channel) with
  | empty hmiss _ =>
    obtain ⟨e, he⟩ := loads_missing hmiss
    have hload : loadMeta none (k.dir symbol channel) t = ([], .error (.notFound e)) := by
      unfold loadMeta
      rw [Prog.look_bind, he]
      rfl
    have hrun : putFixedLocked env k symbol channel records t = ([], .error (.notFound e)) := by
      unfold putFixedLocked
      rw [Prog.bind_run_error hload]
    rw [Prog.final_of_run hrun]
    exact hup
  | series hm h => exact (putFixedLocked_good hgt (by omega) hm ho hlen hfull).mono ha.write

theorem registerFixedSeries_good (hg : GoodStore C s) (env : Env) (k : FixedKind) (timeframeMs : Int)
    (unit : PartitionUnit) :
    GoodStore C ((registerFixedSeries env k symbol channel timeframeMs unit).final s) := by
  unfold registerFixedSeries
  split
  · exact hg
  · refine beginMutation_then hg (fun t hgt _ => ?_)
    refine Prog.final_bind_of hgt (fun t' ht' => ?_)
    obtain rfl := Except.ok.inj ht'
    rw [Prog.final_look]
    split
    · refine Prog.final_bind_of hgt (fun existing _ => ?_)
      exact hgt
    · rename_i habs
      have hmiss : (t.dirs (k.dir symbol channel)).manifest = .missing := by
        cases hgt.dir (k.dir symbol channel) with
        | empty hmiss _ => exact hmiss
        | series hm _ =>
          rw [hm] at habs
          exact absurd rfl habs
      exact then_pure (createSeries_good env hgt hmiss (headOk_fixed k env.now symbol channel timeframeMs unit)
        (by cases k <;> rfl) (by cases k <;> rfl)).1

/-- What a call finds on loading. -/
theorem loadExisting_series (hg : GoodStore C s) (hm : (s.dirs d).manifest = .current m) :
    (loadExisting none d).result s = .ok (some m) := by
  unfold loadExisting Prog.result
  rw [Prog.look_bind, hg.loads hm]
  rfl

theorem loadExisting_missing (hm : (s.dirs d).manifest = .missing) : (loadExisting none d).result s = .ok none := by
  obtain ⟨e, he⟩ := loads_missing hm
  unfold loadExisting Prog.result
  rw [Prog.look_bind, he]
  rfl

theorem loadExisting_final (cached : Option SeriesMeta) (d : Dir) (s : Store) : (loadExisting cached d).final s = s :=
  rfl

/-- The root of the series is there, or made, before the rest of a range append. -/
theorem ensureSeriesRoot_then {α : Type} {D : Nat} {body : Unit → Op α} (hg : GoodStore B s)
    (h : ∀ t, GoodStore B t → (∀ e, t.dirs e = s.dirs e) → GoodStore D ((body ()).final t)) :
    GoodStore D ((ensureSeriesRoot env >>= body).final s) := by
  obtain ⟨hres, hgood, hdirs⟩ := ensureSeriesRoot_good hg env
  rw [Prog.final_bind_ok hres]
  exact h _ hgood hdirs

theorem appendKlineRange_good {records : List KlineRecord} {timeframeMs priceScale volumeScale : Int}
    (hg : GoodStore B s) (ha : Allows B C s) (hB : B + 1 < u32Max) (hfull : env.Faultless)
    (ht : OfType .kline (s.dirs (klineSeriesDir symbol timeframe)))
    (hone : OneName (seriesCacheKey symbol klineCategory timeframe) records
      (s.dirs (klineSeriesDir symbol timeframe))) :
    GoodStore C ((appendKlineRange env policy symbol timeframe records timeframeMs priceScale volumeScale).final s) :=
  by
  have hup := hg.mono ha.le
  have hle := ha.le
  unfold appendKlineRange
  refine lift_then hup (fun _ _ => lift_then hup (fun months hmonths => beginMutation_then hg (fun t hgt hdirs => ?_)))
  obtain ⟨-, -, hpieces, hdistinct⟩ := monthBatches_spec hmonths
  rw [← hdirs] at ht hone
  cases hgt.dir (klineSeriesDir symbol timeframe) with
  | @series m hm h =>
    rw [Prog.final_bind_ok (loadExisting_series hgt hm), loadExisting_final]
    refine lift_then (hgt.mono hle) (fun _ _ => lift_then (hgt.mono hle) (fun _ _ =>
      ensureSeriesRoot_then hgt (fun u hgu hu => ?_)))
    have hnext : B + 2 ≤ C := ha.merge (klineSeriesDir symbol timeframe) m (by rw [← hdirs]; exact hm)
    refine then_pure (writeMonths_good (E := fun c => c.generation ≤ B)
      (fun s m rows hgs hms hts hb => ?_) (hgu.mono hle) (by rw [hu]; exact hm) (ht m hm)
      (hone m months hm hmonths) hpieces hdistinct (fun b _ c hc _ => h.bound c hc))
    exact putKlineChunkLocked_good hgs hms hts rfl (.inr rfl) (.of_current hms hb) ha.write
      (fun _ _ _ => hnext) hB hfull
  | empty hmiss hf =>
    rw [Prog.final_bind_ok (loadExisting_missing hmiss), loadExisting_final]
    refine lift_then (hgt.mono hle) (fun _ _ => lift_then (hgt.mono hle) (fun _ _ =>
      ensureSeriesRoot_then hgt (fun u hgu hu => ?_)))
    have hreg := registerKlineSeriesLocked_good hgu env symbol timeframe timeframeMs priceScale volumeScale
    refine Prog.final_bind_of (hreg.good.mono hle) (fun m hres => ?_)
    obtain rfl := hreg.fresh (by rw [hu]; exact hmiss) m hres
    refine then_pure (writeMonths_good (E := fun _ => False)
      (fun s m rows hgs hms hts hb => ?_) (hreg.good.mono hle) (hreg.answer _ hres) rfl (.inl rfl)
      hpieces hdistinct (fun b _ c hc _ => by cases hc))
    refine putKlineChunkLocked_good (B := B) hgs hms hts rfl (.inr rfl) (.of_current hms fun month hmonth c hc hk =>
      (hb month hmonth c hc hk).elim) ha.write
      (fun month hmonth hne => ?_) hB hfull
    obtain ⟨c, hc⟩ := List.exists_mem_of_ne_nil _ hne
    exact (hb month hmonth c (mem_chunksForPartition.1 hc).1 (mem_chunksForPartition.1 hc).2).elim

theorem appendScalarRange_good {key : ScalarSeriesKey} {records : List ScalarRecord} {timeframeMs : Option Int}
    (hg : GoodStore B s) (ha : Allows B C s) (hB : B + 1 < u32Max) (hfull : env.Faultless)
    (ht : OfType .scalar (s.dirs key.dir))
    (hone : OneName (seriesCacheKey key.symbol key.category key.name) records (s.dirs key.dir)) :
    GoodStore C ((appendScalarRange env key records timeframeMs).final s) := by
  have hup := hg.mono ha.le
  have hle := ha.le
  unfold appendScalarRange
  refine lift_then hup (fun _ _ => lift_then hup (fun months hmonths => beginMutation_then hg (fun t hgt hdirs => ?_)))
  obtain ⟨-, -, hpieces, hdistinct⟩ := monthBatches_spec hmonths
  rw [← hdirs] at ht hone
  have hwrite : ∀ (tf : Int) s m rows, GoodStore C s → (s.dirs key.dir).manifest = .current m → m.recordType = .scalar →
      (∀ month, monthKey (firstTs rows) = .ok month → ∀ c ∈ m.chunks, c.monthKey = month → c.generation ≤ B) →
        MonthAdvanced C key.dir
        (seriesCacheKey key.symbol key.category key.name) (firstTs rows) s
          (appendScalarChunkLocked env key tf rows defaultScalarZmapBlockSize (some m) s) :=
    fun tf s m rows hgs hms hts hb =>
      appendScalarChunkLocked_good hgs (.series (((hgs.dir key.dir).of_current hms).seriesOk hms) hts (.inr rfl))
      (.of_current hms hb) ha.write (by omega) hfull
  cases hgt.dir key.dir with
  | @series m hm h =>
    rw [Prog.final_bind_ok (loadExisting_series hgt hm), loadExisting_final, Prog.final_bind_ok (Prog.result_look t),
      Prog.final_look]
    refine lift_then (hgt.mono hle) (fun _ _ => lift_then (hgt.mono hle) (fun _ _ =>
      ensureSeriesRoot_then hgt (fun u hgu hu => ?_)))
    refine then_pure (writeMonths_good (E := fun c =>
      c.generation ≤ B) (hwrite _)
      (hgu.mono hle) (by rw [hu]; exact hm) (ht m hm) (hone m months hm hmonths) hpieces hdistinct
      (fun b _ c hc _ => h.bound c hc))
  | empty hmiss hf =>
    rw [Prog.final_bind_ok (loadExisting_missing hmiss), loadExisting_final, Prog.final_bind_ok (Prog.result_look t),
      Prog.final_look]
    refine lift_then (hgt.mono hle) (fun tf _ => lift_then (hgt.mono hle) (fun _ _ =>
      ensureSeriesRoot_then hgt (fun u hgu hu => ?_)))
    have hreg := registerScalarSeriesLocked_good hgu env key tf
    refine Prog.final_bind_of (hreg.good.mono hle) (fun m hres => ?_)
    obtain rfl := hreg.fresh (by rw [hu]; exact hmiss) m hres
    exact then_pure (writeMonths_good (E := fun c => c.generation ≤ B) (hwrite _) (hreg.good.mono hle)
      (hreg.answer _ hres) rfl (.inl rfl) hpieces hdistinct (fun b _ c hc _ => by cases hc))

/-- **A regular call leaves a store in order.** -/
theorem Call.run_allows {c : Call} (hg : GoodStore B s) (ha : Allows B C s) (hB : B + 1 < u32Max)
    (hfull : env.Faultless) (hc : c.Regular s) :
    GoodStore C ((c.run env).final s) := by
  have hle := ha.le
  have hup := hg.mono hle
  cases c with
  | init => exact beginMutation_then hg (fun t hgt _ => ((initLocked_good hgt env).2.1).mono hle)
  | startupRecover => exact then_pure ((startupRecoverLocked_good hg env).2.1.mono hle)
  | registerKline symbol timeframe timeframeMs priceScale volumeScale =>
    refine lift_then hup (fun _ _ => beginMutation_then hg (fun t hgt _ => then_pure ?_))
    exact (registerKlineSeriesLocked_good hgt env symbol timeframe timeframeMs priceScale volumeScale).good.mono hle
  | registerScalar key timeframeMs =>
    show GoodStore C ((registerScalarSeries env key timeframeMs).final s)
    unfold registerScalarSeries
    split
    · exact hup
    · exact beginMutation_then hg (fun t hgt _ =>
        then_pure ((registerScalarSeriesLocked_good hgt env key timeframeMs).good.mono hle))
  | registerFixed k symbol channel timeframeMs unit => exact registerFixedSeries_good hup env k timeframeMs unit
  | putKline policy symbol timeframe records => exact putKlineChunk_good hg ha hB hfull hc.typed
  | mergeKline symbol timeframe key => exact mergeKlineMonth_good hg ha hB hfull hc.typed
  | putScalar key timeframeMs records blockSize => exact putScalarChunk_good hg ha hB hfull hc.typed hc.named
  | appendScalar key timeframeMs records blockSize => exact appendScalarChunk_good hg ha hB hfull hc.typed hc.named
  | appendKlineRange policy symbol timeframe records timeframeMs priceScale volumeScale =>
    exact then_pure (appendKlineRange_good hg ha hB hfull hc.typed hc.unaliased)
  | appendScalarRange key records timeframeMs =>
      exact then_pure (appendScalarRange_good hg ha hB hfull hc.typed hc.unaliased)
  | putFixed k symbol channel records => exact putFixedChunk_good hg ha hB hfull hc.fits

theorem Call.run_good {c : Call} (hg : GoodStore B s) (hB : B + 1 < u32Max) (hfull : env.Faultless) (hc : c.Regular s) :
    GoodStore (B + 2) ((c.run env).final s) := Call.run_allows hg (.two B s) hB hfull hc

end Writes

end Calls

end FastK
