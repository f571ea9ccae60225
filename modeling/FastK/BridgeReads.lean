import FastK.Appends
import FastK.Inventory
import FastK.RecordTypes
/-!
# Reading back through the bridge

The range reads of the bridge (`bridge.rs`), and what they answer over a history of requests.  A request to write is
accepted as a whole or leaves every series as it was, so the rows of a series are those of the requests accepted for
it, and a read of a range answers with those of them that lie in the range, in the order of their timestamps
(`bridge_reads_back`).
-/
namespace FastK

open Journal Spans

/-! ## The read commands of the bridge -/

def KlineBridgeRecord.ofRecord (r : KlineRecord) : KlineBridgeRecord :=
  ⟨r.ts, r.openPrice, r.high, r.low, r.close, r.volume⟩

def ScalarBridgeRecord.ofRecord (r : ScalarRecord) : ScalarBridgeRecord := ⟨r.ts, r.value⟩

structure KlineRangeResponse where
  symbol : Text
  timeframe : Text
  timeframeMs : Int
  startTs : Int
  endTs : Int
  priceScale : Int
  volumeScale : Int
  records : List KlineBridgeRecord
  deriving DecidableEq, Repr

/-- `found` is `exists` in the source. -/
structure IndicatorRangeResponse where
  symbol : Text
  timeframe : Text
  category : Text
  name : Text
  timeframeMs : Int
  startTs : Int
  endTs : Int
  found : Bool
  basePriceScale : Int
  coverageStartTs : Option Int
  coverageEndTs : Option Int
  totalRecordCount : Nat
  records : List ScalarBridgeRecord
  deriving DecidableEq, Repr

structure ScalarRangeResponse where
  symbol : Text
  timeframe : Text
  category : Text
  name : Text
  timeframeMs : Option Int
  startTs : Int
  endTs : Int
  found : Bool
  coverageStartTs : Option Int
  coverageEndTs : Option Int
  totalRecordCount : Nat
  records : List ScalarBridgeRecord
  deriving DecidableEq, Repr

def readKlineRange (threads : Nat) (s : Store) (symbol timeframe : Text) (startTs endTs : Int) :
    Result KlineRangeResponse := do
  openReadOnly s
  let m ← (s.dirs (klineSeriesDir symbol timeframe)).loadSeriesMeta
  let records ← getKlineRange threads (s.dirs (klineSeriesDir symbol timeframe)) startTs endTs
  pure {
    symbol := symbol
    timeframe := timeframe
    timeframeMs := m.timeframeMs
    startTs := startTs
    endTs := endTs
    priceScale := m.priceScale
    volumeScale := m.volumeScale
    records := records.map .ofRecord }

def readIndicatorRange (threads : Nat) (s : Store) (symbol timeframe indicatorName : Text) (startTs endTs : Int) :
    Result IndicatorRangeResponse := do
  openReadOnly s
  let base ← (s.dirs (klineSeriesDir symbol timeframe)).loadSeriesMeta
  let sd := s.dirs (indicatorSeriesKey symbol timeframe indicatorName).dir
  match ← existingMeta sd.loadSeriesMeta with
  | some m =>
    let records ← getScalarRange threads sd startTs endTs
    let (coverageStartTs, coverageEndTs, totalRecordCount) := seriesCoverage m
    pure {
      symbol := symbol
      timeframe := timeframe
      category := indicatorCategory
      name := indicatorName
      timeframeMs := m.timeframeMs
      startTs := startTs
      endTs := endTs
      found := true
      basePriceScale := base.priceScale
      coverageStartTs := coverageStartTs
      coverageEndTs := coverageEndTs
      totalRecordCount := totalRecordCount
      records := records.map .ofRecord }
  | none => pure {
      symbol := symbol
      timeframe := timeframe
      category := indicatorCategory
      name := indicatorName
      timeframeMs := base.timeframeMs
      startTs := startTs
      endTs := endTs
      found := false
      basePriceScale := base.priceScale
      coverageStartTs := none
      coverageEndTs := none
      totalRecordCount := 0
      records := [] }

def readScalarRange (threads : Nat) (s : Store) (symbol timeframe category name : Text) (startTs endTs : Int) :
    Result ScalarRangeResponse := do
  openReadOnly s
  let sd := s.dirs (scopedScalarSeriesKey symbol timeframe category name).dir
  match ← existingMeta sd.loadSeriesMeta with
  | some m =>
    let records ← getScalarRange threads sd startTs endTs
    let (coverageStartTs, coverageEndTs, totalRecordCount) := seriesCoverage m
    pure {
      symbol := symbol
      timeframe := timeframe
      category := category
      name := name
      timeframeMs := some m.timeframeMs
      startTs := startTs
      endTs := endTs
      found := true
      coverageStartTs := coverageStartTs
      coverageEndTs := coverageEndTs
      totalRecordCount := totalRecordCount
      records := records.map .ofRecord }
  | none => pure {
      symbol := symbol
      timeframe := timeframe
      category := category
      name := name
      timeframeMs := none
      startTs := startTs
      endTs := endTs
      found := false
      coverageStartTs := none
      coverageEndTs := none
      totalRecordCount := 0
      records := [] }

/-! ## What has been accepted -/

/-- The klines that a request has for the series of a directory. -/
def BridgeWrite.klinesTo (d : Dir) : BridgeWrite → List KlineBridgeRecord
  | .klineRange symbol timeframe request => if klineSeriesDir symbol timeframe = d then request.records else []
  | _ => []

/-- The scalars that a request has for the series of a directory. -/
def BridgeWrite.scalarsTo (d : Dir) : BridgeWrite → List ScalarBridgeRecord
  | .klineRange .. => []
  | .indicatorRange symbol timeframe indicatorName records =>
      if (indicatorSeriesKey symbol timeframe indicatorName).dir = d then records else []
  | .scalarRange symbol timeframe category name request =>
    if (scopedScalarSeriesKey symbol timeframe category name).dir = d then request.records else []

/-- Requests to write, from an empty store on: the list has those that were accepted.  What a request makes is
healthy, or it meets a series of another record type and is stopped. -/
inductive Requests (root : Dir) : List BridgeWrite → Store → Prop
  | start : Requests root [] (Store.empty root)
  | accepted {ws : List BridgeWrite} {s : Store} (env : Env) (w : BridgeWrite) (h : Requests root ws s)
      (hok : ∀ c, w.Makes c → Guarded env c s) {response : BridgeResponse}
      (hres : (w.run env).result s = .ok response) :
    Requests root (ws ++ [w]) ((w.run env).final s)
  | refused {ws : List BridgeWrite} {s : Store} (env : Env) (w : BridgeWrite) (h : Requests root ws s)
      (hok : ∀ c, w.Makes c → Guarded env c s) {e : FastKError} (hres : (w.run env).result s = .error e) :
    Requests root ws ((w.run env).final s)

/-- The rows of a series of this type; none where there is no series of it. -/
def typedRows (t : RecordType) (sd : SeriesDir) : List t.Row :=
  match sd.manifest with
  | .current m => if m.recordType = t then seriesRows t sd else []
  | _ => []

section Typed

variable {t t' : RecordType} {sd sd' : SeriesDir}

theorem typedRows_of (h : OfType t sd) : typedRows t sd = seriesRows t sd := by
  unfold typedRows
  cases hm : sd.manifest with
  | current m => simp [h m hm]
  | missing => exact (seriesRows_missing hm t).symm
  | corrupt e =>
    unfold seriesRows
    rw [hm]

theorem typedRows_other (h : OfType t sd) (hne : t ≠ t') : typedRows t' sd = [] := by
  unfold typedRows
  cases hm : sd.manifest with
  | current m => simp [h m hm, hne]
  | _ => rfl

theorem SameContent.typedRows (h : SameContent sd sd') (t : RecordType) :
    FastK.typedRows t sd' = FastK.typedRows t sd := by
  unfold FastK.typedRows
  rw [h.manifest, h.seriesRows t]

end Typed

section Writing

variable {t : RecordType} {d : Dir} {C : Nat} {root : Dir} {s : Store} {env : Env} {w : BridgeWrite}

theorem AllOrNothing.perm {α : Type} {records records' : List t.Row} {p : Op α} (h : AllOrNothing t d records p s)
    (hp : records.Perm records') :
    AllOrNothing t d records' p s := by
  rcases h with ⟨hok, hrows, helse⟩ | hrefused
  · exact .inl ⟨hok, hrows.trans (hp.append_left _), helse⟩
  · exact .inr hrefused

theorem AllOrNothing.then_pure {α β : Type} {records : List t.Row} {p : Op α} (h : AllOrNothing t d records p s)
    (g : α → β) :
    AllOrNothing t d records (p >>= fun a => (pure (g a) : Op β)) s := by
  unfold AllOrNothing at h ⊢
  rw [Prog.final_bind_pure]
  rcases h with ⟨⟨a, ha⟩, hrest⟩ | ⟨⟨e, he⟩, hrest⟩
  · exact .inl ⟨⟨g a, by rw [Prog.result_bind_ok ha]; rfl⟩, hrest⟩
  · exact .inr ⟨⟨e, Prog.result_bind_error he _⟩, hrest⟩

/-- What a call of its type has made of a series is of that type. -/
theorem Call.run_ofType {c : Call} {key : ScalarSeriesKey} (hg : GoodStore C s) (ht : c.Typed s)
    (hold : OfType c.recordType (s.dirs key.dir)) (hc : c.key = some key) :
    OfType c.recordType (((c.run env).final s).dirs key.dir) := by
  obtain ⟨m, ⟨new, hfinds, -⟩, hwithin⟩ := Call.run_within hg ht hc env
  have htype : m.recordType = c.recordType := by
    rcases hfinds.placed with hp | hn
    · cases hg.dir key.dir with
      | empty hmiss _ =>
        rw [hmiss] at hp
        cases hp
      | @series m₀ hm₀ _ =>
        obtain rfl := hfinds.same m₀ hm₀
        exact hold m hm₀
    · exact (hfinds.made hn).2.2
  intro m' hm'
  exact ((hfinds.headed.exec hwithin).head m' hm').recordType.trans htype

/-- The directory of a request, and the type of its rows. -/
def BridgeWrite.dir : BridgeWrite → Dir
  | .klineRange symbol timeframe _ => klineSeriesDir symbol timeframe
  | .indicatorRange symbol timeframe indicatorName _ => (indicatorSeriesKey symbol timeframe indicatorName).dir
  | .scalarRange symbol timeframe category name _ => (scopedScalarSeriesKey symbol timeframe category name).dir

def BridgeWrite.recordType : BridgeWrite → RecordType
  | .klineRange .. => .kline
  | _ => .scalar

theorem BridgeWrite.Makes.on {c : Call} (h : w.Makes c) : ∃ key, c.key = some key ∧ key.dir = w.dir ∧
    c.recordType = w.recordType := by
  cases h <;> exact ⟨_, rfl, rfl, rfl⟩

theorem BridgeWrite.Makes.typed {c : Call} (h : w.Makes c) (ht : c.Typed s) : OfType w.recordType (s.dirs w.dir) := by
  cases h <;> exact ht

theorem openStore_good (hg : GoodStore C s) (env : Env) :
    (openStore env).result s = .ok () ∧ GoodStore C ((openStore env).final s) ∧
      ∀ e, ((openStore env).final s).dirs e = s.dirs e :=
  beginMutation_good hg env

/-- After a request in a healthy store, what is in its directory is of its type. -/
theorem BridgeWrite.run_ofType (hg : GoodStore C s) {c : Call} (hc : w.Makes c)
    (hok : ∀ c, w.Makes c → Healthy env c s) :
    OfType w.recordType (((w.run env).final s).dirs w.dir) := by
  have htyped := hc.typed (hok c hc).regular.typed
  obtain ⟨hres, hopened, hdirs⟩ := openStore_good hg env
  rcases w.final_cases hres with hfin | ⟨-, hfin⟩ | ⟨c', hc', hfin⟩ <;> rw [hfin]
  · exact htyped
  · rw [hdirs]
    exact htyped
  · obtain ⟨key, hkey, hdir, htype⟩ := hc'.on
    have hbefore : OfType c'.recordType (((openStore env).final s).dirs key.dir) := by
      rw [htype, hdir, hdirs]
      exact htyped
    have hafter : OfType c'.recordType (((c'.run env).final ((openStore env).final s)).dirs key.dir) :=
      Call.run_ofType hopened ((hok c' hc').congr hdirs).regular.typed hbefore hkey
    rwa [htype, hdir] at hafter

/-- An append that is accepted adds its rows to those of its series, and no other row anywhere; one that is refused
adds none. -/
theorem AllOrNothing.typed {α : Type} {records : List t.Row} {p : Op α} (h : AllOrNothing t d records p s)
    (hbefore : OfType t (s.dirs d)) (hafter : OfType t ((p.final s).dirs d)) :
    ((∃ a, p.result s = .ok a) ∧
      (∀ e, (typedRows t ((p.final s).dirs e)).Perm (typedRows t (s.dirs e) ++ if d = e then records else [])) ∧
      ∀ t', t ≠ t' → ∀ e, typedRows t' ((p.final s).dirs e) = typedRows t' (s.dirs e)) ∨
    ((∃ e, p.result s = .error e) ∧ ∀ t' e, typedRows t' ((p.final s).dirs e) = typedRows t' (s.dirs e)) := by
  rcases h with ⟨hok, hrows, helse⟩ | ⟨herr, hsame⟩
  · refine .inl ⟨hok, fun e => ?_, fun t' hne e => ?_⟩
    · by_cases he : d = e
      · subst he
        rw [if_pos rfl, typedRows_of hbefore, typedRows_of hafter]
        exact hrows
      · rw [if_neg he, List.append_nil, (helse e (Ne.symm he)).typedRows]
    · by_cases he : d = e
      · subst he
        rw [typedRows_other hbefore hne, typedRows_other hafter hne]
      · exact (helse e (Ne.symm he)).typedRows t'
  · exact .inr ⟨herr, fun t' e => (hsame e).typedRows t'⟩

theorem writeKlineRange_allOrNothing (hg : GoodStore C s) {symbol timeframe : Text} {request : WriteKlineRequest}
    (hok : ∀ c, (BridgeWrite.klineRange symbol timeframe request).Makes c → Healthy env c s) :
    AllOrNothing .kline (klineSeriesDir symbol timeframe) (request.records.map KlineBridgeRecord.toRecord)
      ((BridgeWrite.klineRange symbol timeframe request).run env) s := by
  refine AllOrNothing.then_pure ?_ _
  unfold writeKlineRange
  refine .lift (fun rows hrows => ?_)
  have hhealthy := hok _ (.klineRange hrows)
  obtain ⟨hres, hgood, hdirs⟩ := beginMutation_good (hg.of_room hhealthy.room) env
  refine AllOrNothing.bind hres (fun e => ?_) (AllOrNothing.perm (.then_pure ?_ _) (normalizeRecords_ok hrows).2)
  · exact (hdirs e).symm ▸ .refl _
  · have hc := (hhealthy.congr hdirs).regular
    exact appendKlineRange_allOrNothing hgood (by decide) hhealthy.faultless hc.typed hc.unaliased

theorem writeScalarRange_allOrNothing (hg : GoodStore C s) {symbol timeframe category name : Text}
    {request : WriteScalarRequest}
    (hok : ∀ c, (BridgeWrite.scalarRange symbol timeframe category name request).Makes c → Healthy env c s) :
    AllOrNothing .scalar (scopedScalarSeriesKey symbol timeframe category name).dir
      (request.records.map ScalarBridgeRecord.toRecord)
      ((BridgeWrite.scalarRange symbol timeframe category name request).run env) s := by
  refine AllOrNothing.then_pure ?_ _
  unfold writeScalarRange
  refine .lift (fun rows hrows => ?_)
  have hhealthy := hok _ (.scalarRange hrows)
  obtain ⟨hres, hgood, hdirs⟩ := beginMutation_good (hg.of_room hhealthy.room) env
  refine AllOrNothing.bind hres (fun e => ?_) (AllOrNothing.perm (.then_pure ?_ _) (normalizeRecords_ok hrows).2)
  · exact (hdirs e).symm ▸ .refl _
  · have hc := (hhealthy.congr hdirs).regular
    exact appendScalarRange_allOrNothing hgood (by decide) hhealthy.faultless hc.typed hc.unaliased

theorem writeIndicatorRange_allOrNothing (hg : GoodStore C s) {symbol timeframe indicatorName : Text}
    {records : List ScalarBridgeRecord}
    (hok : ∀ c, (BridgeWrite.indicatorRange symbol timeframe indicatorName records).Makes c → Healthy env c s) :
    AllOrNothing .scalar (indicatorSeriesKey symbol timeframe indicatorName).dir
      (records.map ScalarBridgeRecord.toRecord)
      ((BridgeWrite.indicatorRange symbol timeframe indicatorName records).run env) s := by
  refine AllOrNothing.then_pure ?_ _
  unfold writeIndicatorRange
  refine .lift (fun rows hrows => ?_)
  have hhealthy := fun timeframeMs => hok _ (.indicatorRange hrows timeframeMs)
  obtain ⟨hres, hgood, hdirs⟩ := beginMutation_good (hg.of_room (hhealthy 0).room) env
  refine AllOrNothing.bind hres (fun e => ?_) ?_
  · exact (hdirs e).symm ▸ .refl _
  · -- without the klines the request is refused, and nothing was written so far
    cases hload : (loadMeta none (klineSeriesDir symbol timeframe)).result ((openStore env).final s) with
    | error e =>
      refine .refused (Prog.result_bind_error hload _) (fun d => ?_)
      rw [Prog.final_bind_error hload, loadMeta_final]
      exact .refl _
    | ok kline =>
      refine .bind hload (fun d => ?_) (AllOrNothing.perm (.then_pure ?_ _) (normalizeRecords_ok hrows).2)
      · rw [loadMeta_final]
        exact .refl _
      · have hc := ((hhealthy kline.timeframeMs).congr hdirs).regular
        rw [loadMeta_final]
        exact appendScalarRange_allOrNothing hgood (by decide) (hhealthy 0).faultless hc.typed hc.unaliased

/-- A request makes an append, or is refused without a step. -/
theorem BridgeWrite.makes_or_refused (env : Env) (w : BridgeWrite) (s : Store) :
    (∃ c, w.Makes c) ∨ ∃ e, w.run env s = ([], .error e) := by
  cases w with
  | klineRange symbol timeframe request =>
    cases hn : normalizeKlineRecords request.records with
    | ok rows => exact .inl ⟨_, .klineRange hn⟩
    | error e => exact .inr ⟨e, by simp only [run, writeKlineRange, hn, Prog.lift_error_bind]; rfl⟩
  | indicatorRange symbol timeframe indicatorName records =>
    cases hn : normalizeScalarRecords records with
    | ok rows => exact .inl ⟨_, .indicatorRange hn 0⟩
    | error e => exact .inr ⟨e, by simp only [run, writeIndicatorRange, hn, Prog.lift_error_bind]; rfl⟩
  | scalarRange symbol timeframe category name request =>
    cases hn : normalizeScalarRecords request.records with
    | ok rows => exact .inl ⟨_, .scalarRange hn⟩
    | error e => exact .inr ⟨e, by simp only [run, writeScalarRange, hn, Prog.lift_error_bind]; rfl⟩

def klinesIn (sd : SeriesDir) : List KlineRecord := typedRows .kline sd

def scalarsIn (sd : SeriesDir) : List ScalarRecord := typedRows .scalar sd

/-- The rows of both types, in every directory, and those that a request adds. -/
structure RowsAdded (w : BridgeWrite) (s s' : Store) : Prop where
  klines : ∀ d, (klinesIn (s'.dirs d)).Perm (klinesIn (s.dirs d) ++ (w.klinesTo d).map KlineBridgeRecord.toRecord)
  scalars : ∀ d, (scalarsIn (s'.dirs d)).Perm (scalarsIn (s.dirs d) ++ (w.scalarsTo d).map ScalarBridgeRecord.toRecord)

/-- **A request that is accepted adds its rows; one that is refused adds none.** -/
theorem BridgeWrite.run_rows (hg : GoodStore C s) (w : BridgeWrite) (hok : ∀ c, w.Makes c → Healthy env c s) :
    ((∃ response, (w.run env).result s = .ok response) ∧ RowsAdded w s ((w.run env).final s)) ∨
    ((∃ e, (w.run env).result s = .error e) ∧ ∀ t d,
      typedRows t (((w.run env).final s).dirs d) = typedRows t (s.dirs d)) := by
  rcases w.makes_or_refused env s with ⟨c, hc⟩ | ⟨e, hrun⟩
  · have hbefore := hc.typed (hok c hc).regular.typed
    have hafter := BridgeWrite.run_ofType hg hc hok
    cases w with
    | klineRange symbol timeframe request =>
      rcases (writeKlineRange_allOrNothing hg hok).typed hbefore hafter with ⟨hres, hrows, hother⟩ | hrefused
      · refine .inl ⟨hres, fun d => (hrows d).trans (.of_eq ?_), fun d => .of_eq ?_⟩
        · simp only [klinesTo, klinesIn]
          split <;> rfl
        · exact (hother .scalar (by decide) d).trans (List.append_nil _).symm
      · exact .inr hrefused
    | indicatorRange symbol timeframe indicatorName records =>
      rcases (writeIndicatorRange_allOrNothing hg hok).typed hbefore hafter with ⟨hres, hrows, hother⟩ | hrefused
      · refine .inl ⟨hres, fun d => .of_eq ?_, fun d => (hrows d).trans (.of_eq ?_)⟩
        · exact (hother .kline (by decide) d).trans (List.append_nil _).symm
        · simp only [scalarsTo, scalarsIn]
          split <;> rfl
      · exact .inr hrefused
    | scalarRange symbol timeframe category name request =>
      rcases (writeScalarRange_allOrNothing hg hok).typed hbefore hafter with ⟨hres, hrows, hother⟩ | hrefused
      · refine .inl ⟨hres, fun d => .of_eq ?_, fun d => (hrows d).trans (.of_eq ?_)⟩
        · exact (hother .kline (by decide) d).trans (List.append_nil _).symm
        · simp only [scalarsTo, scalarsIn]
          split <;> rfl
      · exact .inr hrefused
  · refine .inr ⟨⟨e, Prog.result_of_run hrun⟩, fun t d => ?_⟩
    rw [Prog.final_of_run hrun]
    rfl

/-- The appends of a request that meets a series of another type are stopped, and so is the request. -/
theorem BridgeWrite.rejects (hg : GoodStore C s) (w : BridgeWrite) (hstop : ∀ c, w.Makes c → c.Stopped s) :
    Rejects (w.run env) s := by
  have hopened := openStore_good hg env
  have happend : ∀ c : Call, c.Stopped s → Rejects (c.run env) ((openStore env).final s) :=
    fun _ hc => (hc.congr hopened.2.2).rejects hopened.2.1 env
  cases w with
  | klineRange symbol timeframe request =>
    refine rejects_first (rejects_check (fun rows hrows => rejects_then hopened.1 hopened.2.2 (rejects_first ?_)))
    exact (happend _ (hstop _ (.klineRange hrows))).of_pure
  | scalarRange symbol timeframe category name request =>
    refine rejects_first (rejects_check (fun rows hrows => rejects_then hopened.1 hopened.2.2 (rejects_first ?_)))
    exact (happend _ (hstop _ (.scalarRange hrows))).of_pure
  | indicatorRange symbol timeframe indicatorName records =>
    refine rejects_first (rejects_check (fun rows hrows => rejects_then hopened.1 hopened.2.2 ?_))
    cases hload : (loadMeta none (klineSeriesDir symbol timeframe)).result ((openStore env).final s) with
    | error e => exact rejects_first ⟨⟨e, hload⟩, fun _ => rfl⟩
    | ok kline =>
      refine rejects_then hload (fun _ => rfl) (rejects_first ?_)
      exact (happend _ (hstop _ (.indicatorRange hrows kline.timeframeMs))).of_pure

/-- Where all that a request makes may be made, it is of one kind. -/
theorem BridgeWrite.guarded_cases (w : BridgeWrite) (hok : ∀ c, w.Makes c → Guarded env c s) :
    (∀ c, w.Makes c → Healthy env c s) ∨ ∀ c, w.Makes c → c.Stopped s := by
  by_cases ht : OfType w.recordType (s.dirs w.dir)
  · refine .inl (fun c hc => (hok c hc).ok.resolve_right (fun hstop => ?_))
    obtain ⟨key, m, hkey, hm, hne, -⟩ := hstop.found
    obtain ⟨key', hkey', hdir, htype⟩ := hc.on
    obtain rfl := Option.some.inj (hkey.symm.trans hkey')
    rw [hdir] at hm
    exact hne ((ht m hm).trans htype.symm)
  · exact .inr (fun c hc => (hok c hc).ok.resolve_left (fun hhealthy => ht (hc.typed hhealthy.regular.typed)))

theorem BridgeWrite.run_good (hg : GoodStore C s) (w : BridgeWrite) (hok : ∀ c, w.Makes c → Guarded env c s) :
    ∃ C, GoodStore C ((w.run env).final s) := by
  rcases w.guarded_cases hok with hok | hstop
  · obtain ⟨hres, hopened, hdirs⟩ := openStore_good hg env
    rcases w.final_cases hres with hfin | ⟨-, hfin⟩ | ⟨c, hc, hfin⟩ <;> rw [hfin]
    · exact ⟨C, hg⟩
    · exact ⟨C, hopened⟩
    · have hhealthy := (hok c hc).congr hdirs
      exact ⟨_, Call.run_good (hopened.of_room hhealthy.room) (by decide) hhealthy.faultless hhealthy.regular⟩
  · exact ⟨C, hg.same (w.rejects hg hstop).2⟩

theorem BridgeWrite.run_guarded (hg : GoodStore C s) (w : BridgeWrite) (hok : ∀ c, w.Makes c → Guarded env c s) :
    ((∃ response, (w.run env).result s = .ok response) ∧ RowsAdded w s ((w.run env).final s)) ∨
    ((∃ e, (w.run env).result s = .error e) ∧ ∀ t d,
      typedRows t (((w.run env).final s).dirs d) = typedRows t (s.dirs d)) := by
  rcases w.guarded_cases hok with hok | hstop
  · exact w.run_rows hg hok
  · obtain ⟨herr, hdirs⟩ := w.rejects hg hstop
    exact .inr ⟨herr, fun t d => by rw [hdirs]⟩

end Writing

/-! ## Over a history of requests -/

/-- The klines and the scalars of the requests accepted for a directory. -/
def acceptedKlines (ws : List BridgeWrite) (d : Dir) : List KlineBridgeRecord := ws.flatMap (BridgeWrite.klinesTo d)

def acceptedScalars (ws : List BridgeWrite) (d : Dir) : List ScalarBridgeRecord := ws.flatMap (BridgeWrite.scalarsTo d)

section Histories

variable {root : Dir} {ws : List BridgeWrite} {s : Store}

theorem acceptedKlines_append (ws : List BridgeWrite) (w : BridgeWrite) (d : Dir) :
    acceptedKlines (ws ++ [w]) d = acceptedKlines ws d ++ w.klinesTo d := by simp [acceptedKlines]

theorem acceptedScalars_append (ws : List BridgeWrite) (w : BridgeWrite) (d : Dir) :
    acceptedScalars (ws ++ [w]) d = acceptedScalars ws d ++ w.scalarsTo d := by simp [acceptedScalars]

theorem Requests.good (h : Requests root ws s) : ∃ C, GoodStore C s := by
  induction h with
  | start => exact ⟨0, goodStore_empty root⟩
  | accepted env w _ hok _ ih =>
    obtain ⟨C, hg⟩ := ih
    exact w.run_good hg hok
  | refused env w _ hok _ ih =>
    obtain ⟨C, hg⟩ := ih
    exact w.run_good hg hok

/-- **The rows of every series are those of the requests accepted for it.** -/
theorem Requests.rows (h : Requests root ws s) (d : Dir) :
    (klinesIn (s.dirs d)).Perm ((acceptedKlines ws d).map KlineBridgeRecord.toRecord) ∧
      (scalarsIn (s.dirs d)).Perm ((acceptedScalars ws d).map ScalarBridgeRecord.toRecord) := by
  induction h with
  | start => exact ⟨.refl _, .refl _⟩
  | @accepted ws s env w h hok response hres ih =>
    obtain ⟨C, hg⟩ := h.good
    rcases BridgeWrite.run_guarded hg w hok with ⟨-, hadded⟩ | ⟨⟨e, he⟩, -⟩
    · refine ⟨(hadded.klines d).trans ?_, (hadded.scalars d).trans ?_⟩
      · rw [acceptedKlines_append, List.map_append]
        exact ih.1.append_right _
      · rw [acceptedScalars_append, List.map_append]
        exact ih.2.append_right _
    · rw [hres] at he
      cases he
  | @refused ws s env w h hok e hres ih =>
    obtain ⟨C, hg⟩ := h.good
    rcases BridgeWrite.run_guarded hg w hok with ⟨⟨response, ho⟩, -⟩ | ⟨-, hsame⟩
    · rw [hres] at ho
      cases ho
    · exact ⟨(List.Perm.of_eq (hsame .kline d)).trans ih.1, (List.Perm.of_eq (hsame .scalar d)).trans ih.2⟩

end Histories

/-! ## Reading back -/

/-- The records are the accepted ones that lie in the range, in the order of their timestamps. -/
structure ReadsBack {α : Type} (ts : α → Int) (accepted records : List α) (start stop : Int) : Prop where
  ordered : records.Pairwise (fun a b => ts a < ts b)
  exact : records.Perm (accepted.filter (fun r => decide (start ≤ ts r ∧ ts r ≤ stop)))

/-- What is read of a directory that holds no series of another type. -/
inductive KlinesBack (sd : SeriesDir) (accepted : List KlineBridgeRecord) (start stop : Int) :
    Result KlineRangeResponse → Prop
  | absent (text : Text) (hm : sd.manifest = .missing) (hnone : accepted = []) :
      KlinesBack sd accepted start stop (.error (.notFound text))
  | present {m : SeriesMeta} {a : KlineRangeResponse} (hm : sd.manifest = .current m)
      (hscales : (a.timeframeMs, a.priceScale, a.volumeScale) = (m.timeframeMs, m.priceScale, m.volumeScale))
      (hrows : ReadsBack KlineBridgeRecord.ts accepted a.records start stop) : KlinesBack sd accepted start stop (.ok a)

inductive ScalarsBack (sd : SeriesDir) (accepted : List ScalarBridgeRecord) (start stop : Int) :
    Bool → Option Int → Option Int → Nat → List ScalarBridgeRecord → Prop
  | absent (hm : sd.manifest = .missing) (hnone : accepted = []) :
      ScalarsBack sd accepted start stop false none none 0 []
  | present {m : SeriesMeta} {records : List ScalarBridgeRecord} (hm : sd.manifest = .current m)
      (hrows : ReadsBack ScalarBridgeRecord.ts accepted records start stop) : ScalarsBack sd accepted start stop true
        (accepted.map ScalarBridgeRecord.ts).min? (accepted.map ScalarBridgeRecord.ts).max? accepted.length records

theorem min?_perm {l l' : List Int} (h : l.Perm l') : l.min? = l'.min? :=
  Option.ext (fun a => by simp only [List.min?_eq_some_iff, h.mem_iff])

theorem max?_perm {l l' : List Int} (h : l.Perm l') : l.max? = l'.max? :=
  Option.ext (fun a => by simp only [List.max?_eq_some_iff, h.mem_iff])

theorem inRange_readsBack {α R : Type} [FixedRecord R] {record : α → R} {back : R → α} {ts : α → Int}
    (hback : ∀ a, back (record a) = a) (hts : ∀ a, FixedRecord.ts (record a) = ts a)
    (hof : ∀ r, ts (back r) = FixedRecord.ts r) {rows : List R} {accepted : List α}
    (hs : rows.Pairwise (fun a b => FixedRecord.ts a < FixedRecord.ts b)) (hp : rows.Perm (accepted.map record))
    (start stop : Int) :
    ReadsBack ts accepted ((inRange start stop rows).map back) start stop where
  ordered := by
    rw [List.pairwise_map]
    simp only [hof]
    exact hs.filter _
  exact := by
    have hmap : (inRange start stop (accepted.map record)).map back = accepted.filter (fun r =>
      decide (start ≤ ts r ∧ ts r ≤ stop)) := by
      unfold inRange
      rw [List.filter_map, List.map_map]
      simp [Function.comp_def, hback, hts]
    rw [← hmap]
    exact (hp.filter _).map back

section Answers

variable {C : Nat} {root : Dir} {ws : List BridgeWrite} {s : Store} {threads : Nat} {start stop : Int}

theorem Requests.readKlineRange (h : Requests root ws s) (hg : GoodStore C s) (hp : s.pending = false)
    {symbol timeframe : Text} (ht : OfType .kline (s.dirs (klineSeriesDir symbol timeframe))) :
    KlinesBack (s.dirs (klineSeriesDir symbol timeframe))
      (acceptedKlines ws (klineSeriesDir symbol timeframe)) start stop
        (readKlineRange threads s symbol timeframe start stop) := by
  have hrows := (h.rows (klineSeriesDir symbol timeframe)).1
  have hopen : openReadOnly s = .ok () := by simp [openReadOnly, hp]
  unfold klinesIn at hrows
  rw [typedRows_of ht] at hrows
  unfold FastK.readKlineRange
  rw [hopen]
  cases hg.dir (klineSeriesDir symbol timeframe) with
  | empty hm hf =>
    rw [seriesRows_missing hm] at hrows
    have hload : (s.dirs (klineSeriesDir symbol timeframe)).loadSeriesMeta =
      .error (.notFound "series meta not found: series.meta") := by
      simp [SeriesDir.loadSeriesMeta, hm]
    rw [hload]
    exact .absent _ hm (List.map_eq_nil_iff.1 hrows.nil_eq.symm)
  | @series m hm hgood =>
    have hok := hgood.seriesOk hm
    rw [SeriesDir.loadSeriesMeta_ok hm hgood.fits.valid]
    simp only [bind, Except.bind, pure, Except.pure]
    rw [(hok.klineAnswers (ht m hm)).range]
    exact .present hm rfl (inRange_readsBack (fun _ => rfl) (fun _ => rfl)
      (fun _ => rfl) (hok.strict (ht m hm) rfl) hrows start stop)

/-- The metadata and the rows of a scalar series, as the reads of the bridge find them. -/
theorem Requests.scalarSeries (h : Requests root ws s) (hg : GoodStore C s) {d : Dir} (ht : OfType .scalar (s.dirs d))
    (threads : Nat) (start stop : Int) :
    (existingMeta (s.dirs d).loadSeriesMeta = .ok none ∧
      ScalarsBack (s.dirs d) (acceptedScalars ws d) start stop false none none 0 []) ∨
    ∃ m rows, existingMeta (s.dirs d).loadSeriesMeta = .ok (some m) ∧
      getScalarRange threads (s.dirs d) start stop = .ok rows ∧
      ScalarsBack (s.dirs d)
        (acceptedScalars ws d) start stop true (seriesCoverage m).1 (seriesCoverage m).2.1 (seriesCoverage m).2.2
          (rows.map .ofRecord) := by
  have hrows := (h.rows d).2
  unfold scalarsIn at hrows
  rw [typedRows_of ht] at hrows
  cases hg.dir d with
  | empty hm hf =>
    rw [seriesRows_missing hm] at hrows
    exact .inl ⟨by simp [existingMeta, SeriesDir.loadSeriesMeta, hm],
      .absent hm (List.map_eq_nil_iff.1 hrows.nil_eq.symm)⟩
  | @series m hm hgood =>
    have hok := hgood.seriesOk hm
    have htm := ht m hm
    have hcover := hgood.coverage hm
    have hts : ((storedRows m.recordType (s.dirs d)).map FixedRecord.ts).Perm
      ((acceptedScalars ws d).map ScalarBridgeRecord.ts) := by
      have := (hgood.storedRows_perm hm .scalar).trans hrows
      rw [htm]
      exact (this.map _).trans (.of_eq (List.map_map (f := ScalarBridgeRecord.toRecord)))
    refine .inr ⟨m, _, by rw [SeriesDir.loadSeriesMeta_ok hm hgood.fits.valid]; rfl,
      (hok.scalarAnswers htm).range threads start stop, ?_⟩
    have hlen := hts.length_eq
    rw [List.length_map, List.length_map] at hlen
    rw [hcover.first, hcover.last, hcover.count (.inr htm), min?_perm hts, max?_perm hts, hlen]
    exact .present hm (inRange_readsBack (fun _ => rfl) (fun _ => rfl)
      (fun _ => rfl) (hok.strict htm rfl) hrows start stop)

theorem Requests.readScalarRange (h : Requests root ws s) (hg : GoodStore C s) (hp : s.pending = false)
    {symbol timeframe category name : Text}
    (ht : OfType .scalar (s.dirs (scopedScalarSeriesKey symbol timeframe category name).dir)) :
    ∃ a, readScalarRange threads s symbol timeframe category name start stop = .ok a ∧
      ScalarsBack (s.dirs (scopedScalarSeriesKey symbol timeframe category name).dir)
        (acceptedScalars ws (scopedScalarSeriesKey symbol timeframe category name).dir) start stop a.found
          a.coverageStartTs a.coverageEndTs
        a.totalRecordCount a.records := by
  have hopen : openReadOnly s = .ok () := by simp [openReadOnly, hp]
  unfold FastK.readScalarRange
  rw [hopen]
  rcases h.scalarSeries hg ht threads start stop with ⟨hmeta, hback⟩ | ⟨m, rows, hmeta, hread, hback⟩
  · exact ⟨_, by simp only [bind, Except.bind, hmeta]; rfl, hback⟩
  · exact ⟨_, by simp only [bind, Except.bind, hmeta, hread]; rfl, hback⟩

theorem Requests.readIndicatorRange (h : Requests root ws s) (hg : GoodStore C s) (hp : s.pending = false)
    {symbol timeframe name : Text} (ht : OfType .scalar (s.dirs (indicatorSeriesKey symbol timeframe name).dir)) :
    ((s.dirs (klineSeriesDir symbol timeframe)).manifest = .missing ∧
      ∃ text, readIndicatorRange threads s symbol timeframe name start stop = .error (.notFound text)) ∨
    ∃ base a, (s.dirs (klineSeriesDir symbol timeframe)).manifest = .current base ∧
      readIndicatorRange threads s symbol timeframe name start stop = .ok a ∧ a.basePriceScale = base.priceScale ∧
      ScalarsBack (s.dirs (indicatorSeriesKey symbol timeframe name).dir)
        (acceptedScalars ws (indicatorSeriesKey symbol timeframe name).dir)
        start stop a.found a.coverageStartTs a.coverageEndTs a.totalRecordCount a.records := by
  have hopen : openReadOnly s = .ok () := by simp [openReadOnly, hp]
  unfold FastK.readIndicatorRange
  rw [hopen]
  cases hg.dir (klineSeriesDir symbol timeframe) with
  | empty hm hf => exact .inl ⟨hm, _, by simp only [bind, Except.bind, SeriesDir.loadSeriesMeta, hm]; rfl⟩
  | @series base hm hgood =>
    have hbase := SeriesDir.loadSeriesMeta_ok hm hgood.fits.valid
    refine .inr ⟨base, ?_⟩
    rcases h.scalarSeries hg ht threads start stop with ⟨hmeta, hback⟩ | ⟨m, rows, hmeta, hread, hback⟩
    · exact ⟨_, hm, by simp only [bind, Except.bind, hbase, hmeta]; rfl, rfl, hback⟩
    · exact ⟨_, hm, by simp only [bind, Except.bind, hbase, hmeta, hread]; rfl, rfl, hback⟩

/-- No rows of a type were accepted for a directory whose series is of another. -/
theorem Requests.foreign (h : Requests root ws s) {d : Dir} :
    (¬ OfType .kline (s.dirs d) → acceptedKlines ws d = []) ∧
      (¬ OfType .scalar (s.dirs d) → acceptedScalars ws d = []) := by
  have hnone : ∀ t, ¬ OfType t (s.dirs d) → typedRows t (s.dirs d) = [] := by
    intro t hne
    unfold typedRows
    cases hm : (s.dirs d).manifest with
    | current m =>
      refine if_neg (fun ht => hne (fun m' hm' => ?_))
      rw [hm] at hm'
      rw [← ManifestFile.current.inj hm']
      exact ht
    | _ => rfl
  obtain ⟨hklines, hscalars⟩ := h.rows d
  unfold klinesIn at hklines
  unfold scalarsIn at hscalars
  refine ⟨fun hne => ?_, fun hne => ?_⟩
  · rw [hnone _ hne] at hklines
    exact List.map_eq_nil_iff.1 hklines.nil_eq.symm
  · rw [hnone _ hne] at hscalars
    exact List.map_eq_nil_iff.1 hscalars.nil_eq.symm

end Answers

/-- **What the bridge has accepted it reads back**, after any history of requests that are healthy or stopped, under
names that go down: a pending recovery is refused; else a read of a range of klines, of an indicator or of scalars
answers with the rows of the requests accepted for the series that lie in the range, each once and in the order of
their timestamps, and a read of scalars also with the bounds and the number of all of them; for a directory whose
series is of another type none was accepted. -/
theorem bridge_reads_back {root : Dir} {ws : List BridgeWrite} {s : Store} (h : Requests root ws s) (threads : Nat)
    (start stop : Int) :
    (s.pending = true → (∀ symbol timeframe,
      readKlineRange threads s symbol timeframe start stop = .error requiresRecovery) ∧
      (∀ symbol timeframe name,
        readIndicatorRange threads s symbol timeframe name start stop = .error requiresRecovery) ∧
      ∀ symbol timeframe category name, readScalarRange threads s symbol timeframe category name start stop =
        .error requiresRecovery) ∧
    (∀ d, (¬ OfType .kline (s.dirs d) → acceptedKlines ws d = []) ∧
      (¬ OfType .scalar (s.dirs d) → acceptedScalars ws d = [])) ∧
    (s.pending = false →
      (∀ symbol timeframe, (ScalarSeriesKey.mk symbol klineCategory timeframe).GoesDown →
        OfType .kline (s.dirs (klineSeriesDir symbol timeframe)) →
        KlinesBack (s.dirs (klineSeriesDir symbol timeframe))
          (acceptedKlines ws (klineSeriesDir symbol timeframe)) start stop
          (readKlineRange threads s symbol timeframe start stop)) ∧
      (∀ symbol timeframe name, (ScalarSeriesKey.mk symbol klineCategory timeframe).GoesDown →
        (indicatorSeriesKey symbol timeframe name).GoesDown →
        OfType .scalar (s.dirs (indicatorSeriesKey symbol timeframe name).dir) →
        ((s.dirs (klineSeriesDir symbol timeframe)).manifest = .missing ∧
          ∃ text, readIndicatorRange threads s symbol timeframe name start stop = .error (.notFound text)) ∨
        ∃ base a, (s.dirs (klineSeriesDir symbol timeframe)).manifest = .current base ∧
          readIndicatorRange threads s symbol timeframe name start stop = .ok a ∧ a.basePriceScale = base.priceScale ∧
          ScalarsBack (s.dirs (indicatorSeriesKey symbol timeframe name).dir)
            (acceptedScalars ws (indicatorSeriesKey symbol timeframe name).dir)
            start stop a.found a.coverageStartTs a.coverageEndTs a.totalRecordCount a.records) ∧
      ∀ symbol timeframe category name, (scopedScalarSeriesKey symbol timeframe category name).GoesDown →
        OfType .scalar (s.dirs (scopedScalarSeriesKey symbol timeframe category name).dir) →
        ∃ a, readScalarRange threads s symbol timeframe category name start stop = .ok a ∧
          ScalarsBack (s.dirs (scopedScalarSeriesKey symbol timeframe category name).dir)
            (acceptedScalars ws (scopedScalarSeriesKey symbol timeframe category name).dir) start stop a.found
              a.coverageStartTs a.coverageEndTs
            a.totalRecordCount a.records) := by
  obtain ⟨B, hg⟩ := h.good
  refine ⟨fun hp => ?_, fun d => h.foreign, fun hp => ⟨fun _ _ _ ht => h.readKlineRange hg hp ht, fun _ _ _ _ _ ht =>
    h.readIndicatorRange hg hp ht, fun _ _ _ _ _ ht => h.readScalarRange hg hp ht⟩⟩
  have hopen : openReadOnly s = .error requiresRecovery := by simp [openReadOnly, hp]
  refine ⟨fun symbol timeframe => ?_, fun symbol timeframe name => ?_, fun symbol timeframe category name => ?_⟩
  · unfold readKlineRange
    rw [hopen]
    rfl
  · unfold readIndicatorRange
    rw [hopen]
    rfl
  · unfold readScalarRange
    rw [hopen]
    rfl

/-- In an empty store every request under names that go down may be made. -/
theorem BridgeWrite.Makes.guarded_empty {env : Env} {w : BridgeWrite} {c : Call} (h : w.Makes c)
    (hfull : env.Faultless) (root : Dir) (hplain : c.Plain) : Guarded env c (Store.empty root) := by
  have hmissing : ∀ d m, ((Store.empty root).dirs d).manifest ≠ .current m := fun _ _ hm => by cases hm
  refine ⟨.inl ?_, hplain⟩
  cases h <;> exact ⟨hfull, ⟨fun m hm => absurd hm (hmissing _ m), trivial, fun m _ hm =>
    absurd hm (hmissing _ m), trivial⟩,
    fun d m hm => absurd hm (hmissing d m)⟩

/-- Two klines, in a directory that scalars could have. -/
def sampleKlineRequest : BridgeWrite :=
  .klineRange "X" "1m@@n" ⟨60000, 1, 1, [⟨60000, 2, 3, 1, 2, 5⟩, ⟨0, 1, 2, 1, 2, 4⟩]⟩

/-- Scalars for that directory, with another timeframe. -/
def sampleForeignRequest : BridgeWrite := .scalarRange "X" "1m" klineCategory "n" ⟨some 1000,
  [sampleScalarRow 120000 (Fin.last 7)]⟩

def sampleKlinesOnly : Store := (sampleKlineRequest.run (Env.plain 5)).final (Store.empty [])

/-- The klines are accepted, and the scalars are refused. -/
def sampleRequests : Store := (sampleForeignRequest.run (Env.plain 6)).final sampleKlinesOnly

theorem sampleKlineRequest_accepted : Requests [] [sampleKlineRequest] sampleKlinesOnly := by
  have hdown : ScalarSeriesKey.GoesDown ⟨"X", klineCategory, "1m@@n"⟩ := by decide +kernel
  have hok : ∀ c, sampleKlineRequest.Makes c → Guarded (Env.plain 5) c (Store.empty []) := by
    intro c hc
    refine hc.guarded_empty (plain_faultless 5) [] ?_
    unfold sampleKlineRequest at hc
    cases hc with
    | klineRange _ =>
      intro key hkey
      obtain rfl := List.mem_singleton.1 hkey
      exact hdown
  cases hres : (sampleKlineRequest.run (Env.plain 5)).result (Store.empty []) with
  | error e =>
    have hanswer : ((sampleKlineRequest.run (Env.plain 5)).result (Store.empty [])).isOk = true := by decide +kernel
    rw [hres] at hanswer
    cases hanswer
  | ok response => exact Requests.start.accepted (Env.plain 5) sampleKlineRequest hok hres

theorem sampleForeignRequest_stopped : ∀ c, sampleForeignRequest.Makes c → Guarded (Env.plain 6) c sampleKlinesOnly :=
  by
  have hdown : ScalarSeriesKey.GoesDown ⟨"X", klineCategory, "1m@@n"⟩ := by decide +kernel
  have htest : (sampleKlinesOnly.dirs (klineSeriesDir "X" "1m@@n")).tests (fun m =>
    decide (m.recordType = .kline) && decide (m.timeframeMs = 60000)) =
      true := by decide +kernel
  obtain ⟨m, hm, htest⟩ := SeriesDir.of_tests htest
  rw [Bool.and_eq_true, decide_eq_true_iff, decide_eq_true_iff] at htest
  intro c hc
  unfold sampleForeignRequest at hc
  cases hc with
  | @scalarRange _ _ _ _ _ rows hn =>
    refine ⟨.inr ⟨⟨"X", klineCategory, "1m@@n"⟩, m, rfl, hm, ?_, fun htime => ?_⟩, fun key hkey => ?_⟩
    · rw [htest.1]
      exact (by decide : RecordType.kline ≠ .scalar)
    · have hvalue := (htime 1000 rfl).2
      rw [htest.2] at hvalue
      exact absurd hvalue (by decide)
    · obtain rfl := List.mem_singleton.1 hkey
      exact hdown

theorem sampleRequests_accepted : Requests [] [sampleKlineRequest] sampleRequests := by
  cases hres : (sampleForeignRequest.run (Env.plain 6)).result sampleKlinesOnly with
  | ok response =>
    have hanswer : ((sampleForeignRequest.run (Env.plain 6)).result sampleKlinesOnly).isOk = false := by decide +kernel
    rw [hres] at hanswer
    cases hanswer
  | error e => exact sampleKlineRequest_accepted.refused (Env.plain 6) sampleForeignRequest sampleForeignRequest_stopped hres

theorem bridge_reads_back_sample : ∃ a, readKlineRange 1 sampleRequests "X" "1m@@n" 1 60000 = .ok a ∧ a.records = [⟨60000, 2, 3, 1, 2, 5⟩] ∧
    ReadsBack KlineBridgeRecord.ts (acceptedKlines [sampleKlineRequest] (klineSeriesDir "X" "1m@@n")) a.records
      1 60000 := by
  have hp : sampleRequests.pending = false := by decide +kernel
  have hback := ((bridge_reads_back sampleRequests_accepted 1 1 60000).2.2 hp).1 "X" "1m@@n" (by decide +kernel)
    (by decide +kernel)
  have hrecords : (readKlineRange 1 sampleRequests "X" "1m@@n" 1 60000).map KlineRangeResponse.records = .ok [⟨60000,
    2, 3, 1, 2, 5⟩] := by
    decide +kernel
  cases hread : readKlineRange 1 sampleRequests "X" "1m@@n" 1 60000 with
  | error e =>
    rw [hread] at hrecords
    cases hrecords
  | ok a =>
    rw [hread] at hback hrecords
    cases hback with
    | present hm hscales hrows => exact ⟨a, rfl, Except.ok.inj hrecords, hrows⟩

end FastK
