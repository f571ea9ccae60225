import FastK.Invariants
import FastK.Rows
import FastK.Scoped
/-!
# The bridge

The bridge takes rows in any order: it sorts them, refuses a timestamp that is there twice, and appends what it has
sorted. So its writes are functions of the rows as a multiset (`BridgeWrite.run_permuted`), and each is an append of
the store or nothing (`BridgeWrite.final_cases`).  Its inventories read the extent of a series off the manifest
(`seriesCoverage`).
-/
namespace FastK

open Journal Spans

/-! ## Requests -/

structure KlineBridgeRecord where
  ts : Int
  openPrice : Int
  high : Int
  low : Int
  close : Int
  volume : Int
  deriving DecidableEq, Repr

structure ScalarBridgeRecord where
  ts : Int
  value : I64
  deriving DecidableEq, Repr

def KlineBridgeRecord.toRecord (r : KlineBridgeRecord) : KlineRecord :=
  ⟨r.ts, r.openPrice, r.high, r.low, r.close, r.volume⟩

def ScalarBridgeRecord.toRecord (r : ScalarBridgeRecord) : ScalarRecord := ⟨r.ts, r.value⟩

structure WriteKlineRequest where
  timeframeMs : Int
  priceScale : Int
  volumeScale : Int
  records : List KlineBridgeRecord

structure WriteScalarRequest where
  timeframeMs : Option Int
  records : List ScalarBridgeRecord

structure WriteKlineResponse where
  symbol : Text
  timeframe : Text
  timeframeMs : Int
  priceScale : Int
  volumeScale : Int
  registered : Bool
  requestedRecordCount : Nat
  writtenRecordCount : Nat
  monthBatchesWritten : Nat
  deriving DecidableEq, Repr

structure WriteIndicatorResponse where
  symbol : Text
  timeframe : Text
  category : Text
  name : Text
  registered : Bool
  requestedRecordCount : Nat
  writtenRecordCount : Nat
  monthBatchesWritten : Nat
  deriving DecidableEq, Repr

structure WriteScalarResponse where
  symbol : Text
  timeframe : Text
  category : Text
  name : Text
  timeframeMs : Int
  registered : Bool
  requestedRecordCount : Nat
  writtenRecordCount : Nat
  monthBatchesWritten : Nat
  deriving DecidableEq, Repr

/-! ## Normalizing -/

/-- The shape of `normalize_kline_records` and `normalize_scalar_records`: a stable sort, then a look at the
neighbours. -/
def normalizeRecords {R : Type} [FixedRecord R] (command : Text) (records : List R) : Result (List R) :=
  if records.isEmpty then .ok []
  else
    let normalized := records.insertionSort (fun a b => FixedRecord.ts a ≤ FixedRecord.ts b)
    match checkWindows (fun a b => decide (a = b)) (fun a _ => words [command, " contains duplicate timestamp ", showInt a])
      (normalized.map FixedRecord.ts) with
    | .error e => .error e
    | .ok () => .ok normalized

def normalizeKlineRecords (records : List KlineBridgeRecord) : Result (List KlineRecord) :=
  normalizeRecords "write-kline-range" (records.map KlineBridgeRecord.toRecord)

/-- The text names the indicator command for every scalar write. -/
def normalizeScalarRecords (records : List ScalarBridgeRecord) : Result (List ScalarRecord) :=
  normalizeRecords "write-indicator-range" (records.map ScalarBridgeRecord.toRecord)

/-! ## Writes -/

/-- `FastKStore::open`: a pending recovery runs first. -/
def openStore (env : Env) : Op Unit := do
  let s ← Prog.look
  if s.pending then do
    let _ ← startupRecoverLocked env
    pure ()
  else pure ()

def writeKlineRange (env : Env) (symbol timeframe : Text) (request : WriteKlineRequest) : Op WriteKlineResponse := do
  let normalized ← Prog.lift (normalizeKlineRecords request.records)
  openStore env
  let summary ← appendKlineRange env .default symbol timeframe normalized request.timeframeMs request.priceScale
    request.volumeScale
  pure {
    symbol := symbol
    timeframe := timeframe
    timeframeMs := summary.timeframeMs
    priceScale := request.priceScale
    volumeScale := request.volumeScale
    registered := summary.registered
    requestedRecordCount := summary.requestedRecordCount
    writtenRecordCount := summary.writtenRecordCount
    monthBatchesWritten := summary.monthBatchesWritten }

def writeIndicatorRange (env : Env) (symbol timeframe indicatorName : Text) (records : List ScalarBridgeRecord) :
    Op WriteIndicatorResponse := do
  let normalized ← Prog.lift (normalizeScalarRecords records)
  openStore env
  let kline ← loadMeta none (klineSeriesDir symbol timeframe)
  let summary ← appendScalarRange env (indicatorSeriesKey symbol timeframe indicatorName) normalized
    (some kline.timeframeMs)
  pure {
    symbol := symbol
    timeframe := timeframe
    category := indicatorCategory
    name := indicatorName
    registered := summary.registered
    requestedRecordCount := summary.requestedRecordCount
    writtenRecordCount := summary.writtenRecordCount
    monthBatchesWritten := summary.monthBatchesWritten }

def writeScalarRange (env : Env) (symbol timeframe category name : Text) (request : WriteScalarRequest) :
    Op WriteScalarResponse := do
  let normalized ← Prog.lift (normalizeScalarRecords request.records)
  openStore env
  let summary ← appendScalarRange env (scopedScalarSeriesKey symbol timeframe category name) normalized
    request.timeframeMs
  pure {
    symbol := symbol
    timeframe := timeframe
    category := category
    name := name
    timeframeMs := summary.timeframeMs
    registered := summary.registered
    requestedRecordCount := summary.requestedRecordCount
    writtenRecordCount := summary.writtenRecordCount
    monthBatchesWritten := summary.monthBatchesWritten }

/-- The extent of a series as its manifest has it: first and last timestamp, and the number of rows as a `u64`. -/
def seriesCoverage (m : SeriesMeta) : Option Int × Option Int × Nat :=
  let readable := m.chunks.filter (fun c => c.state.isReadable)
  if readable.isEmpty then (none, none, 0)
  else (readable.head?.map ChunkMeta.startTs, readable.getLast?.map ChunkMeta.endTs,
    (readable.map ChunkMeta.count).sum % u64Bound)

/-! ## Sorting -/

section Normalizing

variable {R : Type} [FixedRecord R] {records records' : List R} {command : Text}

/-- Among sorted timestamps the neighbours that are equal are those that do not increase. -/
theorem checkWindows_equal {msg : Int → Int → Text} : ∀ {l : List Int}, l.Pairwise (· ≤ ·) →
    checkWindows (fun a b => decide (a = b)) msg l = checkWindows strictViolation msg l
  | [], _ => rfl
  | [_], _ => rfl
  | a :: b :: rest, h => by
    have hle : a ≤ b := List.rel_of_pairwise_cons h List.mem_cons_self
    have heq : decide (a = b) = strictViolation a b := by
      unfold strictViolation
      rw [decide_eq_decide]
      omega
    unfold checkWindows
    rw [heq, checkWindows_equal (List.Pairwise.of_cons h)]

/-- What is refused has a timestamp twice. -/
theorem checkWindows_error {text : Int → Text} {e : FastKError} : ∀ {l : List Int},
    checkWindows (fun a b => decide (a = b)) (fun a _ => text a) l = .error e → ∃ ts, 1 < l.count ts ∧
      e = .invalidInput (text ts)
  | [], h => by cases h
  | [_], h => by cases h
  | a :: b :: rest, h => by
    unfold checkWindows at h
    by_cases hab : a = b
    · subst hab
      rw [if_pos (decide_eq_true rfl)] at h
      exact ⟨a, by simp, (Except.error.inj h).symm⟩
    · rw [if_neg (by simpa using hab)] at h
      obtain ⟨ts, hts, he⟩ := checkWindows_error h
      exact ⟨ts, lt_of_lt_of_le hts (List.count_le_count_cons), he⟩

/-- `sort_by_key` on the timestamps. -/
theorem sorted_timestamps (records : List R) :
    ((records.insertionSort (fun a b => FixedRecord.ts a ≤ FixedRecord.ts b)).map FixedRecord.ts).Pairwise (· ≤ ·) := by
  have : Std.Total (fun a b : R => FixedRecord.ts a ≤ FixedRecord.ts b) := ⟨fun a b => le_total _ _⟩
  have : IsTrans R (fun a b => FixedRecord.ts a ≤ FixedRecord.ts b) := ⟨fun _ _ _ => le_trans⟩
  rw [List.pairwise_map]
  exact List.pairwise_insertionSort _ records

/-- What is accepted are the rows in strict order. -/
theorem normalizeRecords_ok {rows : List R} (h : normalizeRecords command records = .ok rows) :
    rows.Pairwise (fun a b => FixedRecord.ts a < FixedRecord.ts b) ∧ rows.Perm records := by
  unfold normalizeRecords at h
  by_cases hnil : records.isEmpty = true
  · rw [if_pos hnil] at h
    obtain rfl := Except.ok.inj h
    rw [List.isEmpty_iff] at hnil
    subst hnil
    exact ⟨.nil, .refl _⟩
  · rw [if_neg hnil] at h
    simp only at h
    rw [checkWindows_equal (sorted_timestamps records)] at h
    split at h
    · cases h
    · rename_i hok
      obtain rfl := Except.ok.inj h
      rw [checkWindows_eq_ok (fun a b => @strictViolation_eq_false a b) (fun _ _ _ => lt_trans),
        List.pairwise_map] at hok
      exact ⟨hok, List.perm_insertionSort _ records⟩

/-- What is refused has a timestamp twice, and the text names such a timestamp. -/
theorem normalizeRecords_error {e : FastKError} (h : normalizeRecords command records = .error e) :
    ∃ ts, 1 < (records.map FixedRecord.ts).count ts ∧
      e = .invalidInput (words [command, " contains duplicate timestamp ", showInt ts]) := by
  unfold normalizeRecords at h
  by_cases hnil : records.isEmpty = true
  · rw [if_pos hnil] at h
    cases h
  · rw [if_neg hnil] at h
    simp only at h
    split at h
    · rename_i e' he
      obtain rfl := Except.error.inj h
      obtain ⟨ts, hts, heq⟩ :=
        @checkWindows_error (fun a => words [command, " contains duplicate timestamp ", showInt a]) _ _ he
      refine ⟨ts, ?_, heq⟩
      rwa [((List.perm_insertionSort _ records).map FixedRecord.ts).count_eq] at hts
    · cases h

/-- **A repeated timestamp is refused.** -/
theorem normalizeRecords_repeated (h : ¬ (records.map FixedRecord.ts).Nodup) :
    ∃ ts, 1 < (records.map FixedRecord.ts).count ts ∧
    normalizeRecords command records = .error (.invalidInput (words [command, " contains duplicate timestamp ",
      showInt ts])) := by
  cases hn : normalizeRecords command records with
  | error e =>
    obtain ⟨ts, hts, he⟩ := normalizeRecords_error hn
    exact ⟨ts, hts, congrArg Except.error he⟩
  | ok rows =>
    obtain ⟨hstrict, hperm⟩ := normalizeRecords_ok hn
    refine absurd ?_ h
    rw [← (hperm.map FixedRecord.ts).nodup_iff]
    exact (List.pairwise_map.2 hstrict).imp (fun hab => ne_of_lt hab)

/-- **The order of the rows does not matter.** -/
theorem normalizeRecords_perm (h : records.Perm records') :
    normalizeRecords command records = normalizeRecords command records' := by
  have hts : (records.insertionSort (fun a b => FixedRecord.ts a ≤ FixedRecord.ts b)).map FixedRecord.ts =
      (records'.insertionSort (fun a b => FixedRecord.ts a ≤ FixedRecord.ts b)).map FixedRecord.ts := by
    have hperm := ((List.perm_insertionSort (fun a b => FixedRecord.ts a ≤ FixedRecord.ts b) records).trans h).trans
      (List.perm_insertionSort (fun a b => FixedRecord.ts a ≤ FixedRecord.ts b) records').symm
    exact (hperm.map FixedRecord.ts).eq_of_pairwise
      (fun a b _ _ h1 h2 => le_antisymm h1 h2) (sorted_timestamps records) (sorted_timestamps records')
  have hempty : records.isEmpty = records'.isEmpty := by
    rw [Bool.eq_iff_iff, List.isEmpty_iff, List.isEmpty_iff]
    exact ⟨fun hnil => (hnil ▸ h).nil_eq.symm, fun hnil => (hnil ▸ h).eq_nil⟩
  -- both are accepted, with the one list in strict order, or both are refused at the same timestamp
  cases hn : normalizeRecords command records with
  | ok rows =>
    cases hn' : normalizeRecords command records' with
    | ok rows' =>
      obtain ⟨hstrict, hperm⟩ := normalizeRecords_ok hn
      obtain ⟨hstrict', hperm'⟩ := normalizeRecords_ok hn'
      rw [strict_unique hstrict hstrict' (fun r => ((hperm.trans h).trans hperm'.symm).mem_iff)]
    | error e =>
      obtain ⟨hstrict, hperm⟩ := normalizeRecords_ok hn
      obtain ⟨ts, hcount, -⟩ := normalizeRecords_error hn'
      have hnodup : (records'.map FixedRecord.ts).Nodup := by
        rw [← ((hperm.trans h).map FixedRecord.ts).nodup_iff]
        exact (List.pairwise_map.2 hstrict).imp (fun hab => ne_of_lt hab)
      have := List.nodup_iff_count_le_one.1 hnodup ts
      omega
  | error e =>
    unfold normalizeRecords at hn ⊢
    rw [hempty] at hn
    by_cases hnil : records'.isEmpty = true
    · rw [if_pos hnil] at hn
      cases hn
    · rw [if_neg hnil] at hn ⊢
      simp only at hn ⊢
      rw [hts] at hn
      split at hn
      · exact hn.symm
      · cases hn

end Normalizing

/-! ## Writes as appends -/

/-- A request to write rows. -/
inductive BridgeWrite where
  | klineRange (symbol timeframe : Text) (request : WriteKlineRequest)
  | indicatorRange (symbol timeframe indicatorName : Text) (records : List ScalarBridgeRecord)
  | scalarRange (symbol timeframe category name : Text) (request : WriteScalarRequest)

inductive BridgeResponse where
  | klineRange (response : WriteKlineResponse)
  | indicatorRange (response : WriteIndicatorResponse)
  | scalarRange (response : WriteScalarResponse)
  deriving DecidableEq, Repr

namespace BridgeWrite

def run (env : Env) : BridgeWrite → Op BridgeResponse
  | .klineRange symbol timeframe request => do
    let response ← writeKlineRange env symbol timeframe request
    pure (.klineRange response)
  | .indicatorRange symbol timeframe indicatorName records => do
    let response ← writeIndicatorRange env symbol timeframe indicatorName records
    pure (.indicatorRange response)
  | .scalarRange symbol timeframe category name request => do
    let response ← writeScalarRange env symbol timeframe category name request
    pure (.scalarRange response)

/-- The timestamps of the rows, in the order in which they were submitted. -/
def timestamps : BridgeWrite → List Int
  | .klineRange _ _ request => request.records.map KlineBridgeRecord.ts
  | .indicatorRange _ _ _ records => records.map ScalarBridgeRecord.ts
  | .scalarRange _ _ _ _ request => request.records.map ScalarBridgeRecord.ts

/-- The same request with its rows in another order. -/
inductive Permuted : BridgeWrite → BridgeWrite → Prop
  | klineRange {symbol timeframe : Text} {timeframeMs priceScale volumeScale : Int}
      {records records' : List KlineBridgeRecord}
      (h : records.Perm records') : Permuted (.klineRange symbol timeframe
        ⟨timeframeMs, priceScale, volumeScale, records⟩)
        (.klineRange symbol timeframe ⟨timeframeMs, priceScale, volumeScale, records'⟩)
  | indicatorRange {symbol timeframe indicatorName : Text} {records records' : List ScalarBridgeRecord}
      (h : records.Perm records') :
      Permuted (.indicatorRange symbol timeframe indicatorName records)
        (.indicatorRange symbol timeframe indicatorName records')
  | scalarRange {symbol timeframe category name : Text} {timeframeMs : Option Int}
      {records records' : List ScalarBridgeRecord}
      (h : records.Perm records') : Permuted (.scalarRange symbol timeframe category name ⟨timeframeMs, records⟩)
        (.scalarRange symbol timeframe category name ⟨timeframeMs, records'⟩)

/-- The appends of the store that the request makes, where its rows are accepted; an indicator's has the timeframe of
the klines. -/
inductive Makes : BridgeWrite → Call → Prop
  | klineRange {symbol timeframe : Text} {request : WriteKlineRequest} {rows : List KlineRecord}
      (h : normalizeKlineRecords request.records = .ok rows) : Makes (.klineRange symbol timeframe request)
        (.appendKlineRange .default symbol timeframe rows request.timeframeMs request.priceScale request.volumeScale)
  | indicatorRange {symbol timeframe indicatorName : Text} {records : List ScalarBridgeRecord}
      {rows : List ScalarRecord}
      (h : normalizeScalarRecords records = .ok rows) (timeframeMs : Int) :
        Makes (.indicatorRange symbol timeframe indicatorName records)
        (.appendScalarRange (indicatorSeriesKey symbol timeframe indicatorName) rows (some timeframeMs))
  | scalarRange {symbol timeframe category name : Text} {request : WriteScalarRequest} {rows : List ScalarRecord}
      (h : normalizeScalarRecords request.records = .ok rows) :
        Makes (.scalarRange symbol timeframe category name request)
        (.appendScalarRange (scopedScalarSeriesKey symbol timeframe category name) rows request.timeframeMs)

variable {w w' : BridgeWrite} {s : Store}

theorem normalizeKlineRecords_perm {records records' : List KlineBridgeRecord} (h : records.Perm records') :
    normalizeKlineRecords records = normalizeKlineRecords records' := normalizeRecords_perm (h.map _)

theorem normalizeScalarRecords_perm {records records' : List ScalarBridgeRecord} (h : records.Perm records') :
    normalizeScalarRecords records = normalizeScalarRecords records' := normalizeRecords_perm (h.map _)

/-- **A request is the same program whatever the order of its rows.** -/
theorem run_permuted (env : Env) (h : w.Permuted w') : w.run env = w'.run env := by
  cases h with
  | klineRange h =>
    simp only [run, writeKlineRange, normalizeKlineRecords_perm h]
  | indicatorRange h =>
    simp only [run, writeIndicatorRange, normalizeScalarRecords_perm h]
  | scalarRange h =>
    simp only [run, writeScalarRange, normalizeScalarRecords_perm h]

/-- The command that the texts of a request name. -/
def command : BridgeWrite → Text
  | .klineRange .. => "write-kline-range"
  | _ => "write-indicator-range"

/-- **A request with a repeated timestamp is refused before the store is opened.** -/
theorem run_repeated (env : Env) (h : ¬ w.timestamps.Nodup) (s : Store) : ∃ ts, 1 < w.timestamps.count ts ∧
    w.run env s = ([], .error (.invalidInput (words [w.command, " contains duplicate timestamp ", showInt ts]))) := by
  cases w with
  | klineRange symbol timeframe request =>
    have hts : (request.records.map KlineBridgeRecord.toRecord).map FixedRecord.ts =
      request.records.map KlineBridgeRecord.ts := List.map_map
    rw [timestamps, ← hts] at h ⊢
    obtain ⟨ts, hcount, he⟩ := @normalizeRecords_repeated _ _ _ "write-kline-range" h
    refine ⟨ts, hcount, ?_⟩
    simp only [run, writeKlineRange, normalizeKlineRecords, he, Prog.lift_error_bind]
    rfl
  | indicatorRange symbol timeframe indicatorName records =>
    have hts : (records.map ScalarBridgeRecord.toRecord).map FixedRecord.ts = records.map ScalarBridgeRecord.ts :=
      List.map_map
    rw [timestamps, ← hts] at h ⊢
    obtain ⟨ts, hcount, he⟩ := @normalizeRecords_repeated _ _ _ "write-indicator-range" h
    refine ⟨ts, hcount, ?_⟩
    simp only [run, writeIndicatorRange, normalizeScalarRecords, he, Prog.lift_error_bind]
    rfl
  | scalarRange symbol timeframe category name request =>
    have hts : (request.records.map ScalarBridgeRecord.toRecord).map FixedRecord.ts =
      request.records.map ScalarBridgeRecord.ts := List.map_map
    rw [timestamps, ← hts] at h ⊢
    obtain ⟨ts, hcount, he⟩ := @normalizeRecords_repeated _ _ _ "write-indicator-range" h
    refine ⟨ts, hcount, ?_⟩
    simp only [run, writeScalarRange, normalizeScalarRecords, he, Prog.lift_error_bind]
    rfl

/-- **A request is an append on the opened store, or none.** -/
theorem final_cases {env : Env} (hopen : (openStore env).result s = .ok ()) (w : BridgeWrite) :
    (w.run env).final s = s ∨ (∃ c, w.Makes c) ∧ (w.run env).final s = (openStore env).final s ∨
      ∃ c, w.Makes c ∧ (w.run env).final s = (c.run env).final ((openStore env).final s) := by
  cases w with
  | klineRange symbol timeframe request =>
    simp only [run]
    rw [Prog.final_bind_pure]
    unfold writeKlineRange
    cases hn : normalizeKlineRecords request.records with
    | error e => exact .inl (by rw [Prog.lift_error_bind]; rfl)
    | ok rows =>
      refine .inr (.inr ⟨_, .klineRange hn, ?_⟩)
      rw [Prog.lift_ok_bind, Prog.final_bind_ok hopen, Prog.final_bind_pure]
      exact (Prog.final_bind_pure _ _).symm
  | indicatorRange symbol timeframe indicatorName records =>
    simp only [run]
    rw [Prog.final_bind_pure]
    unfold writeIndicatorRange
    cases hn : normalizeScalarRecords records with
    | error e => exact .inl (by rw [Prog.lift_error_bind]; rfl)
    | ok rows =>
      refine .inr ?_
      rw [Prog.lift_ok_bind, Prog.final_bind_ok hopen]
      -- the metadata of the klines is read from the opened store
      have hload : (loadMeta none (klineSeriesDir symbol timeframe)).final ((openStore env).final s) =
        (openStore env).final s := rfl
      cases hm : (loadMeta none (klineSeriesDir symbol timeframe)).result ((openStore env).final s) with
      | error e => exact .inl ⟨⟨_, .indicatorRange hn 0⟩, by rw [Prog.final_bind_error hm, hload]⟩
      | ok kline =>
        refine .inr ⟨_, .indicatorRange hn kline.timeframeMs, ?_⟩
        rw [Prog.final_bind_ok hm, hload, Prog.final_bind_pure]
        exact (Prog.final_bind_pure _ _).symm
  | scalarRange symbol timeframe category name request =>
    simp only [run]
    rw [Prog.final_bind_pure]
    unfold writeScalarRange
    cases hn : normalizeScalarRecords request.records with
    | error e => exact .inl (by rw [Prog.lift_error_bind]; rfl)
    | ok rows =>
      refine .inr (.inr ⟨_, .scalarRange hn, ?_⟩)
      rw [Prog.lift_ok_bind, Prog.final_bind_ok hopen, Prog.final_bind_pure]
      exact (Prog.final_bind_pure _ _).symm

end BridgeWrite

/-! ## Histories -/

/-- The states that calls and requests reach from an empty store; `Ok` says which calls are made where, and a request
is made where its append may be. -/
inductive BridgeRun (root : Dir) (Ok : Env → Call → Store → Prop) : Store → Prop
  | start : BridgeRun root Ok (Store.empty root)
  | call {s : Store} (env : Env) (c : Call) (h : BridgeRun root Ok s) (hok : Ok env c s) :
      BridgeRun root Ok ((c.run env).final s)
  | write {s : Store} (env : Env) (w : BridgeWrite) (h : BridgeRun root Ok s) (hok : ∀ c, w.Makes c → Ok env c s) :
      BridgeRun root Ok ((w.run env).final s)

section Histories

variable {root : Dir} {s s' : Store} {env : Env} {c : Call}

theorem BridgeRun.unplain (h : BridgeRun root HealthyPlain s) : BridgeRun root Healthy s := by
  induction h with
  | start => exact .start
  | call env c _ hok ih => exact .call env c ih hok.toHealthy
  | write env w _ hok ih => exact .write env w ih (fun c hc => (hok c hc).toHealthy)

/-- What a call asks of a store depends on its directories alone. -/
theorem Call.Regular.congr (h : c.Regular s) (hd : ∀ e, s'.dirs e = s.dirs e) : c.Regular s' := by
  refine ⟨?_, ?_, ?_, h.fits⟩
  · have := h.typed
    cases c <;> simp only [Call.Typed, hd] at this ⊢ <;> exact this
  · have := h.named
    cases c <;> simp only [Call.Named, hd] at this ⊢ <;> exact this
  · have := h.unaliased
    cases c <;> simp only [Call.Unaliased, hd] at this ⊢ <;> exact this

theorem Healthy.congr (h : Healthy env c s) (hd : ∀ e, s'.dirs e = s.dirs e) : Healthy env c s' :=
  ⟨h.faultless, h.regular.congr hd, fun d m hm => h.room d m (by rw [← hd]; exact hm)⟩

/-- Opening a healthy store is a recovery that finds nothing to do, or nothing. -/
theorem Run.opened {n : Nat} (h : Run root Healthy n s) (hok : Healthy env c s) :
    (openStore env).result s = .ok () ∧ (∀ e, ((openStore env).final s).dirs e = s.dirs e) ∧
      ∃ n', Run root Healthy n' ((openStore env).final s) := by
  obtain ⟨B, hg⟩ := h.healthy
  obtain ⟨hres, -, hdirs⟩ := beginMutation_good hg env
  refine ⟨hres, hdirs, ?_⟩
  have hrecover : Healthy env .startupRecover s := ⟨hok.faultless, ⟨trivial, trivial, trivial, trivial⟩, hok.room⟩
  have hrun : openStore env s = (if s.pending then Call.startupRecover.run env else (pure () : Op Unit)) s := rfl
  by_cases hp : s.pending = true
  · rw [if_pos hp] at hrun
    have hfin : (openStore env).final s = (Call.startupRecover.run env).final s := by
      unfold Prog.final Prog.trace
      rw [hrun]
    exact ⟨_, hfin ▸ h.call env .startupRecover hrecover⟩
  · rw [if_neg hp] at hrun
    have hfin : (openStore env).final s = s := by
      unfold Prog.final Prog.trace
      rw [hrun]
      rfl
    exact ⟨n, hfin.symm ▸ h⟩

/-- **A request in a healthy store leads where calls lead.** -/
theorem Run.write {n : Nat} (h : Run root Healthy n s) (w : BridgeWrite) (hok : ∀ c, w.Makes c → Healthy env c s) :
    ∃ n', Run root Healthy n' ((w.run env).final s) := by
  by_cases hmakes : ∃ c, w.Makes c
  · obtain ⟨c, hc⟩ := hmakes
    obtain ⟨hres, hdirs, n', hopened⟩ := h.opened (hok c hc)
    rcases w.final_cases hres with hfin | ⟨-, hfin⟩ | ⟨c', hc', hfin⟩ <;> rw [hfin]
    · exact ⟨n, h⟩
    · exact ⟨n', hopened⟩
    · exact ⟨n' + 1, hopened.call env c' ((hok c' hc').congr hdirs)⟩
  · obtain ⟨B, hg⟩ := h.healthy
    rcases w.final_cases (beginMutation_good hg env).1 with hfin | ⟨hc, -⟩ | ⟨c, hc, -⟩
    · exact ⟨n, hfin.symm ▸ h⟩
    · exact absurd hc hmakes
    · exact absurd ⟨c, hc⟩ hmakes

/-- **The run lemma**: calls and requests reach no states but those that calls reach. -/
theorem BridgeRun.run (h : BridgeRun root Healthy s) : ∃ n, Run root Healthy n s := by
  induction h with
  | start => exact ⟨0, .start⟩
  | call env c _ hok ih =>
    obtain ⟨n, hrun⟩ := ih
    exact ⟨n + 1, hrun.call env c hok⟩
  | write env w _ hok ih =>
    obtain ⟨n, hrun⟩ := ih
    exact hrun.write w hok

end Histories

/-! ## Coverage -/

/-- The rows of every chunk file of the directory. -/
def storedRows (t : RecordType) (sd : SeriesDir) : List t.Row :=
  (sd.files.filter (fun p => isChunkName p.1)).flatMap (fun p =>
    match p.2 with
    | .chunk f => f.rows.filterMap FixedRecord.decode
    | _ => [])

/-- The coverage is that of the rows on disk, which are those that the series tracks: the smallest and the largest
timestamp, and their number, for klines and scalars without a bound. -/
structure CoverageExact (sd : SeriesDir) (m : SeriesMeta) : Prop where
  tracked : (storedRows m.recordType sd).Perm (seriesRows m.recordType sd)
  first : (seriesCoverage m).1 = ((storedRows m.recordType sd).map FixedRecord.ts).min?
  last : (seriesCoverage m).2.1 = ((storedRows m.recordType sd).map FixedRecord.ts).max?
  wrapped : (seriesCoverage m).2.2 = (storedRows m.recordType sd).length % u64Bound
  count : m.recordType = .kline ∨ m.recordType = .scalar → (seriesCoverage m).2.2 = (storedRows m.recordType sd).length

section Coverage

variable {C : Nat} {d : Dir} {sd : SeriesDir} {m : SeriesMeta} {t : RecordType}

/-- The paths of the chunk files. -/
def filedPaths (sd : SeriesDir) : List Text :=
  (sd.files.filter (fun p => isChunkName p.1)).map (fun p => chunkRelativePath p.1)

theorem WellFiled.storedRows_eq (h : WellFiled sd) (t : RecordType) :
    storedRows t sd = (filedPaths sd).flatMap (rowsAt t sd) := by
  unfold storedRows filedPaths
  rw [List.flatMap_map]
  refine List.flatMap_congr (fun p hp => ?_)
  rw [List.mem_filter] at hp
  obtain ⟨f, hf⟩ := h.chunk p hp.1 hp.2
  have hhas : HasChunk sd p.1 f := ⟨by rw [← hf]; exact hp.1, hp.2⟩
  unfold rowsAt
  rw [hf, h.lookup hhas]

theorem WellFiled.filedPaths_nodup (h : WellFiled sd) : (filedPaths sd).Nodup := by
  have hnames : ((sd.files.filter (fun p => isChunkName p.1)).map Prod.fst).Nodup :=
    h.nodup.sublist (List.Sublist.map _ List.filter_sublist)
  have hpaths : filedPaths sd = ((sd.files.filter (fun p => isChunkName p.1)).map Prod.fst).map chunkRelativePath := by
    unfold filedPaths
    rw [List.map_map]
    rfl
  rw [hpaths]
  exact hnames.map (fun _ _ hp => chunkRelativePath_inj hp)

/-- The chunk files are those of the entries, in another order perhaps. -/
theorem GoodSeries.filedPaths_perm (h : GoodSeries C d sd m) :
    (filedPaths sd).Perm (m.chunks.map ChunkMeta.relativePath) := by
  refine (List.perm_ext_iff_of_nodup h.fits.filed.filedPaths_nodup h.inOrder.paths).2 (fun path => ?_)
  unfold filedPaths
  rw [List.mem_map, List.mem_map]
  constructor
  · rintro ⟨p, hp, rfl⟩
    rw [List.mem_filter] at hp
    obtain ⟨f, hf⟩ := h.fits.filed.chunk p hp.1 hp.2
    exact h.exact p.1 f ⟨by rw [← hf]; exact hp.1, hp.2⟩
  · rintro ⟨c, hc, rfl⟩
    obtain ⟨name, f, rows, hf, -, he⟩ := h.fits.tracked c hc
    exact ⟨(name, .chunk f), List.mem_filter.2 ⟨hf.1, hf.2⟩, he.path.symm⟩

theorem GoodSeries.storedRows_perm (h : GoodSeries C d sd m) (hm : sd.manifest = .current m) (t : RecordType) :
    (storedRows t sd).Perm (seriesRows t sd) := by
  have hrows : seriesRows t sd = (m.chunks.map ChunkMeta.relativePath).flatMap (rowsAt t sd) := by
    rw [seriesRows_eq hm, List.flatMap_map]
    rfl
  rw [h.fits.filed.storedRows_eq t, hrows]
  exact h.filedPaths_perm.flatMap_right _

/-- The entries of a chain lie between the first and the last of them. -/
theorem chain_between {cs : List ChunkMeta} (hc : SpanChain cs) (hp : SpansProper cs) {first last c : ChunkMeta}
    (hf : cs.head? = some first) (hl : cs.getLast? = some last) (hmem : c ∈ cs) : first.startTs ≤ c.startTs ∧
      c.endTs ≤ last.endTs := by
  constructor
  · obtain ⟨rest, rfl⟩ := List.head?_eq_some_iff.1 hf
    rcases List.mem_cons.1 hmem with rfl | hin
    · exact le_refl _
    · have h1 := List.rel_of_pairwise_cons hc hin
      have h2 := hp first List.mem_cons_self
      omega
  · obtain ⟨front, rfl⟩ := List.getLast?_eq_some_iff.1 hl
    rcases List.mem_append.1 hmem with hin | hin
    · have h1 := (List.pairwise_append.1 hc).2.2 c hin last (by simp)
      have h2 := hp last (by simp)
      omega
    · obtain rfl := List.mem_singleton.1 hin
      exact le_refl _

/-- What a manifest whose chunks are all readable reports. -/
theorem seriesCoverage_eq {first last : ChunkMeta} (hr : ∀ c ∈ m.chunks, c.state.isReadable = true)
    (hf : m.chunks.head? = some first) (hl : m.chunks.getLast? = some last) :
    seriesCoverage m = (some first.startTs, some last.endTs, (m.chunks.map ChunkMeta.count).sum % u64Bound) := by
  have hne : m.chunks.isEmpty = false := by
    rw [List.isEmpty_eq_false_iff]
    intro hnil
    rw [hnil] at hf
    cases hf
  unfold seriesCoverage
  simp only
  rw [List.filter_eq_self.2 hr, hne, hf, hl]
  rfl

section Tracked

variable {R : Type} [FixedRecord R] {rowsOf : ChunkMeta → List R}

/-- The first and the last entry bound the rows, and rows are at the bounds. -/
theorem Stored.first_min (h : Stored R sd m rowsOf) {first last : ChunkMeta} (hf : m.chunks.head? = some first)
    (hl : m.chunks.getLast? = some last) : ((m.chunks.flatMap rowsOf).map FixedRecord.ts).min? = some first.startTs ∧
      ((m.chunks.flatMap rowsOf).map FixedRecord.ts).max? = some last.endTs := by
  have hbounds : ∀ ts ∈ (m.chunks.flatMap rowsOf).map FixedRecord.ts, first.startTs ≤ ts ∧ ts ≤ last.endTs := by
    intro ts hts
    obtain ⟨r, hr, rfl⟩ := List.mem_map.1 hts
    obtain ⟨c, hc, hrc⟩ := List.mem_flatMap.1 hr
    have hrow := h.bounds hc hrc
    have hchunk := chain_between h.chain.1 h.chain.2 hf hl hc
    omega
  have hfirst := List.mem_of_head? hf
  have hlast := List.mem_of_getLast? hl
  rw [List.min?_eq_some_iff, List.max?_eq_some_iff]
  refine ⟨⟨?_, fun ts hts => (hbounds ts hts).1⟩, ?_, fun ts hts => (hbounds ts hts).2⟩
  · obtain ⟨f, -, hh, hs, -, -⟩ := h.held first hfirst
    obtain ⟨r, hr, hts⟩ := exists_firstTs hh.ne_nil
    rw [hs, hh.startTs_eq, ← hts]
    exact List.mem_map_of_mem (List.mem_flatMap.2 ⟨first, hfirst, hr⟩)
  · obtain ⟨f, -, hh, -, he, -⟩ := h.held last hlast
    obtain ⟨r, hr, hts⟩ := exists_lastTs hh.ne_nil
    rw [he, hh.endTs_eq, ← hts]
    exact List.mem_map_of_mem (List.mem_flatMap.2 ⟨last, hlast, hr⟩)

theorem Stored.sum_count (h : Stored R sd m rowsOf) :
    (m.chunks.map ChunkMeta.count).sum = (m.chunks.flatMap rowsOf).length := by
  rw [List.length_flatMap]
  exact congrArg List.sum (List.map_congr_left (fun c hc => h.count_eq hc))

end Tracked

/-- Klines and scalars have fewer rows than a `u64` counts. -/
theorem SeriesOk.rows_lt (h : SeriesOk d sd m) (ht : m.recordType = .kline ∨ m.recordType = .scalar) :
    (seriesRows m.recordType sd).length < u64Bound := by
  have hst : FixedRecord.allowEqualTimestamps m.recordType.Row = false := by
    rcases ht with ht | ht <;> rw [ht] <;> rfl
  have hlen := length_of_inRange (h.strict rfl hst) (fun r hr => by
    obtain ⟨c, -, -, hk⟩ := h.keyed_row rfl hr
    exact (partitionKey_ok hk).1)
  exact lt_of_lt_of_le hlen (by decide)

/-- **In a series in order the coverage is that of the rows on disk.** -/
theorem GoodSeries.coverage (h : GoodSeries C d sd m) (hm : sd.manifest = .current m) : CoverageExact sd m := by
  have hok := h.seriesOk hm
  have hst := hok.stored
  have hperm := h.storedRows_perm hm m.recordType
  have hrows := seriesRows_eq (t := m.recordType) hm
  have hlen : (storedRows m.recordType sd).length = (m.chunks.map ChunkMeta.count).sum := by
    rw [hperm.length_eq, hrows, hst.sum_count]
  have hcover : (seriesCoverage m).1 = ((storedRows m.recordType sd).map FixedRecord.ts).min? ∧
      (seriesCoverage m).2.1 = ((storedRows m.recordType sd).map FixedRecord.ts).max? ∧
      (seriesCoverage m).2.2 = (storedRows m.recordType sd).length % u64Bound := by
    rw [hlen]
    cases hf : m.chunks.head? with
    | none =>
      rw [List.head?_eq_none_iff] at hf
      have hnil : storedRows m.recordType sd = [] := by
        rw [hf] at hrows
        rw [hrows] at hperm
        exact hperm.eq_nil
      unfold seriesCoverage
      rw [hf, hnil]
      exact ⟨rfl, rfl, rfl⟩
    | some first =>
      obtain ⟨last, hl⟩ : ∃ last, m.chunks.getLast? = some last := by
        rw [← Option.isSome_iff_exists, List.getLast?_isSome]
        intro hnil
        rw [hnil] at hf
        cases hf
      obtain ⟨hmin, hmax⟩ := hst.first_min hf hl
      have hts := hperm.map FixedRecord.ts
      rw [seriesCoverage_eq h.readable hf hl]
      refine ⟨?_, ?_, rfl⟩
      · rw [eq_comm, List.min?_eq_some_iff]
        rw [List.min?_eq_some_iff, ← hrows] at hmin
        exact ⟨hts.mem_iff.2 hmin.1, fun ts hmem => hmin.2 ts (hts.mem_iff.1 hmem)⟩
      · rw [eq_comm, List.max?_eq_some_iff]
        rw [List.max?_eq_some_iff, ← hrows] at hmax
        exact ⟨hts.mem_iff.2 hmax.1, fun ts hmem => hmax.2 ts (hts.mem_iff.1 hmem)⟩
  refine ⟨hperm, hcover.1, hcover.2.1, hcover.2.2, fun ht => ?_⟩
  rw [hcover.2.2, hperm.length_eq]
  exact Nat.mod_eq_of_lt (hok.rows_lt ht)

end Coverage

/-! ## The bridge over whole histories -/

/-- **Bridge writes do not depend on the order of their rows and refuse a repeated timestamp without a step; in every
state that healthy calls and requests under names that go down reach, the coverage of a series is that of its stored
rows.** -/
theorem bridge_exact (env : Env) (w : BridgeWrite) :
    (∀ w', w.Permuted w' → w.run env = w'.run env) ∧
    (¬ w.timestamps.Nodup → ∀ s, ∃ ts, 1 < w.timestamps.count ts ∧
      w.run env s = ([], .error (.invalidInput (words [w.command, " contains duplicate timestamp ", showInt ts])))) ∧
    ∀ root s, BridgeRun root HealthyPlain s → ∀ d m, (s.dirs d).manifest = .current m → CoverageExact (s.dirs d) m := by
  refine ⟨fun w' h => BridgeWrite.run_permuted env h, fun h s => w.run_repeated env h s, fun root s hrun d m hm => ?_⟩
  obtain ⟨n, hcalls⟩ := hrun.unplain.run
  obtain ⟨B, hg⟩ := hcalls.healthy
  exact ((hg.dir d).of_current hm).coverage hm

/-- Two klines, the later one first. -/
def sampleSubmitted : BridgeWrite := .klineRange "X" "1m" ⟨60000, 1, 1, [⟨60000, 2, 3, 1, 2, 5⟩, ⟨0, 1, 2, 1, 2, 4⟩]⟩

theorem sampleSubmitted_run :
    BridgeRun [] HealthyPlain ((sampleSubmitted.run (Env.plain 5)).final (Store.empty [])) := by
  refine .write (Env.plain 5) sampleSubmitted .start (fun c hc => ?_)
  have hmissing : ∀ d, ((Store.empty []).dirs d).manifest = .missing := fun _ => rfl
  unfold sampleSubmitted at hc
  cases hc with
  | klineRange h =>
    refine ⟨⟨plain_faultless 5, ⟨?_, trivial, ?_, trivial⟩, ?_⟩, ?_⟩
    · intro m hm
      rw [hmissing] at hm
      cases hm
    · intro m months hm
      rw [hmissing] at hm
      cases hm
    · intro d m hm
      rw [hmissing] at hm
      cases hm
    · have hdown : ScalarSeriesKey.GoesDown ⟨"X", klineCategory, "1m"⟩ := by decide +kernel
      intro key hkey
      obtain rfl := List.mem_singleton.1 hkey
      exact hdown

def sampleScalarRow (ts : Int) (value : Fin 8) : ScalarBridgeRecord := ⟨ts, (value.val : Int), by omega⟩

/-- Three scalars, two of them at one time. -/
def sampleRepeated : BridgeWrite :=
  .scalarRange "X" "1m" "signal" "s" ⟨some 60000, [sampleScalarRow 60000 1, sampleScalarRow 0 2,
    sampleScalarRow 60000 3]⟩

theorem bridge_exact_sample :
    sampleSubmitted.run (Env.plain 5) =
      (BridgeWrite.klineRange "X" "1m" ⟨60000, 1, 1, [⟨0, 1, 2, 1, 2, 4⟩, ⟨60000, 2, 3, 1, 2, 5⟩]⟩).run (Env.plain 5) ∧
    (∃ ts, 1 < sampleRepeated.timestamps.count ts ∧ sampleRepeated.run (Env.plain 5) (Store.empty []) =
      ([], .error (.invalidInput (words [sampleRepeated.command, " contains duplicate timestamp ", showInt ts])))) ∧
    ∃ m, (((sampleSubmitted.run (Env.plain 5)).final (Store.empty [])).dirs (klineSeriesDir "X" "1m")).manifest =
      .current m ∧
      seriesCoverage m = (some 0, some 60000, 2) ∧
      CoverageExact (((sampleSubmitted.run (Env.plain 5)).final (Store.empty [])).dirs (klineSeriesDir "X" "1m")) m :=
  by
  have htest : (((sampleSubmitted.run (Env.plain 5)).final (Store.empty [])).dirs (klineSeriesDir "X" "1m")).tests
      (fun m => decide (seriesCoverage m = (some 0, some 60000, 2))) = true := by decide +kernel
  obtain ⟨m, hm, hcover⟩ := SeriesDir.of_tests htest
  exact ⟨(bridge_exact (Env.plain 5) sampleSubmitted).1 _ (.klineRange (.swap _ _ _)),
    (bridge_exact (Env.plain 5) sampleRepeated).2.1 (by decide) (Store.empty []), m, hm, of_decide_eq_true hcover,
    (bridge_exact (Env.plain 5) sampleSubmitted).2.2 [] _ sampleSubmitted_run _ m hm⟩

/-- A scalar series written to as `x/y` over `1m`, and as `x` over `y/1m` for the two months after: one directory. -/
def sampleAliasWrites : BridgeWrite × BridgeWrite :=
  (.scalarRange "S" "1m" "x/y" "z" ⟨some 60000, [sampleScalarRow 0 7]⟩,
    .scalarRange "S" "y/1m" "x" "z" ⟨some 60000, [sampleScalarRow 6048000000 2, sampleScalarRow 3456000000 3]⟩)

def sampleAliasOnce : Store := (sampleAliasWrites.1.run (Env.plain 5)).final (Store.empty [])

def sampleAliasTwice : Store := (sampleAliasWrites.2.run (Env.plain 5)).final sampleAliasOnce

/-- The second request answers that it has written both of its rows, and three rows are on disk; the coverage counts
two. -/
theorem coverage_misses_row : ¬ ∀ root s, BridgeRun root (fun env c s => env.Faultless ∧ c.Typed s ∧ c.Fits) s →
    ∀ d m, (s.dirs d).manifest = .current m → CoverageExact (s.dirs d) m := by
  intro h
  have honce : BridgeRun [] (fun env c s => env.Faultless ∧ c.Typed s ∧ c.Fits) sampleAliasOnce := by
    refine .write (Env.plain 5) sampleAliasWrites.1 .start (fun c hc => ?_)
    unfold sampleAliasWrites at hc
    cases hc with
    | scalarRange _ =>
      refine ⟨plain_faultless 5, ?_, trivial⟩
      show OfType .scalar _
      decide +kernel
  have htwice : BridgeRun [] (fun env c s => env.Faultless ∧ c.Typed s ∧ c.Fits) sampleAliasTwice := by
    refine .write (Env.plain 5) sampleAliasWrites.2 honce (fun c hc => ?_)
    unfold sampleAliasWrites at hc
    cases hc with
    | scalarRange _ =>
      refine ⟨plain_faultless 5, ?_, trivial⟩
      show OfType .scalar _
      decide +kernel
  have htest : (sampleAliasTwice.dirs (seriesDir "S" "x/y" "1m@@z")).tests
      (fun m => decide (m.recordType = .scalar ∧ (seriesCoverage m).2.2 = 2)) = true := by decide +kernel
  obtain ⟨m, hm, hcover⟩ := SeriesDir.of_tests htest
  obtain ⟨ht, hcount⟩ := of_decide_eq_true hcover
  have hexact := (h [] _ htwice _ m hm).count (.inr ht)
  rw [hcount, ht] at hexact
  have hstored : (storedRows .scalar (sampleAliasTwice.dirs (seriesDir "S" "x/y" "1m@@z"))).length = 3 := by
    decide +kernel
  omega

end FastK
