import FastK.Bridge
import FastK.Transport
import FastK.Lib.Numerals
/-!
# From a call of the client to a command of the worker

A call of the Python client becomes a command line (`clients/python/src/fastk_client/client.py`), of which the worker
makes a command again (`examples/cli/fastk_bridge.rs`).  Texts are passed on as they are, numbers as decimals, a list
with commas; an argument of which the worker would take the text for an option, or the number for too large, is
refused.  Whatever the arguments, the worker runs the command that the call asks for, or none (`client_asks`).
-/
namespace FastK

open Numerals

/-! ## The client -/

/-- The values that a call passes on as options. -/
inductive PyValue where
  | nothing
  | bool (b : Bool)
  | int (n : Int)
  | str (t : Text)
  | list (values : List Int)
  deriving DecidableEq, Repr

def flagOf (key : Text) : Text := "--".toList ++ key.map (fun c => if c = '_' then '-' else c)

/-- The arguments of an option: none for `None` and `False`, for `True` the flag alone. -/
def optionArgs (key : Text) : PyValue → List Text
  | .nothing => []
  | .bool b => if b then [flagOf key] else []
  | .int n => [flagOf key, showInt n]
  | .str t => [flagOf key, t]
  | .list values => [flagOf key, commaList (values.map showInt)]

def errorFormat : Text := "--error-format=json".toList

/-- `Client._run`: what it passes on to the worker. -/
def runArgs (root command : Text) (options : List (Text × PyValue)) : List Text :=
  command :: "--root".toList :: root :: options.flatMap (fun p => optionArgs p.1 p.2) ++ [errorFormat]

/-- The calls of the client; the rows of a write are in its payload. -/
inductive ClientCall (V : Type) where
  | version
  | init
  | readKlineRange (symbol timeframe : Text) (startTs endTs : Int)
  | writeKlineRange (symbol timeframe : Text) (payload : V)
  | klineInventory (symbol timeframe : Text)
  | readKlineLatest (symbol timeframe : Text) (limit : Int)
  | readScalarRange (symbol timeframe category name : Text) (startTs endTs : Int)
  | writeScalarRange (symbol timeframe category name : Text) (payload : V)
  | scalarInventory (symbol timeframe category name : Text)
  | queryScalarPredicate (symbol timeframe category name : Text) (startTs endTs : Int) (predicate : Text)
      (value min max : Option Int)
      (values : Option (List Int)) (returnValues : Bool)
  | readIndicatorRange (symbol timeframe indicatorName : Text) (startTs endTs : Int)
  | writeIndicatorRange (symbol timeframe indicatorName : Text) (payload : V)
  | indicatorInventory (symbol timeframe indicatorName : Text)
  | sealSnapshot
  | verifySnapshot (digest : Option Text)

namespace ClientCall

variable {V : Type}

def command : ClientCall V → Text
  | version => "version".toList
  | init => "init".toList
  | readKlineRange .. => "read-kline-range".toList
  | writeKlineRange .. => "write-kline-range".toList
  | klineInventory .. => "kline-inventory".toList
  | readKlineLatest .. => "read-kline-latest".toList
  | readScalarRange .. => "read-scalar-range".toList
  | writeScalarRange .. => "write-scalar-range".toList
  | scalarInventory .. => "scalar-inventory".toList
  | queryScalarPredicate .. => "query-scalar-predicate".toList
  | readIndicatorRange .. => "read-indicator-range".toList
  | writeIndicatorRange .. => "write-indicator-range".toList
  | indicatorInventory .. => "indicator-inventory".toList
  | sealSnapshot => "seal-snapshot".toList
  | verifySnapshot .. => "verify-snapshot".toList

/-- An argument that may be left out. -/
def optional {α : Type} (f : α → PyValue) : Option α → PyValue
  | some a => f a
  | none => .nothing

def options : ClientCall V → List (Text × PyValue)
  | version | init | sealSnapshot => []
  | verifySnapshot digest => [("digest".toList, optional .str digest)]
  | readKlineRange symbol timeframe startTs endTs =>
    [("symbol".toList, .str symbol), ("timeframe".toList, .str timeframe), ("start_ts".toList, .int startTs),
      ("end_ts".toList, .int endTs)]
  | writeKlineRange symbol timeframe _ | klineInventory symbol timeframe => [("symbol".toList, .str symbol),
      ("timeframe".toList, .str timeframe)]
  | readKlineLatest symbol timeframe limit => [("symbol".toList, .str symbol), ("timeframe".toList, .str timeframe),
      ("limit".toList, .int limit)]
  | readScalarRange symbol timeframe category name startTs endTs =>
    [("symbol".toList, .str symbol), ("timeframe".toList, .str timeframe), ("category".toList, .str category),
      ("name".toList, .str name), ("start_ts".toList, .int startTs), ("end_ts".toList, .int endTs)]
  | writeScalarRange symbol timeframe category name _ | scalarInventory symbol timeframe category name =>
    [("symbol".toList, .str symbol), ("timeframe".toList, .str timeframe), ("category".toList, .str category),
      ("name".toList, .str name)]
  | queryScalarPredicate symbol timeframe category name startTs endTs predicate value min max values returnValues =>
    [("symbol".toList, .str symbol), ("timeframe".toList, .str timeframe), ("category".toList, .str category),
      ("name".toList, .str name), ("start_ts".toList, .int startTs), ("end_ts".toList, .int endTs),
        ("predicate".toList, .str predicate), ("value".toList, optional .int value),
      ("min".toList, optional .int min), ("max".toList, optional .int max), ("values".toList, optional .list values),
      ("return_values".toList, .bool returnValues)]
  | readIndicatorRange symbol timeframe indicatorName startTs endTs =>
    [("symbol".toList, .str symbol), ("timeframe".toList, .str timeframe),
      ("indicator_name".toList, .str indicatorName), ("start_ts".toList, .int startTs), ("end_ts".toList, .int endTs)]
  | writeIndicatorRange symbol timeframe indicatorName _ | indicatorInventory symbol timeframe indicatorName =>
    [("symbol".toList, .str symbol), ("timeframe".toList, .str timeframe),
      ("indicator_name".toList, .str indicatorName)]

def args (root : Text) : ClientCall V → List Text
  | version => ["version".toList, "--json".toList, errorFormat]
  | c => runArgs root c.command c.options

def payload : ClientCall V → Option V
  | writeKlineRange _ _ payload | writeScalarRange _ _ _ _ payload | writeIndicatorRange _ _ _ payload => some payload
  | _ => none

end ClientCall

/-! ## The worker -/

def FastKError.bridge (e : FastKError) : BridgeError := ⟨e.code, e.display⟩

/-- `starts_with("--")`. -/
def isDashed (arg : Text) : Bool := decide ("--".toList <+: arg)

/-- `trim_start_matches("--")`. -/
def trimDashes : Text → Text
  | '-' :: '-' :: rest => trimDashes rest
  | t => t

/-- The options of a command line, the last one first. -/
abbrev Options := List (Text × Text)

def returnValuesFlag : Text := "--return-values".toList

def missingValue (key : Text) : FastKError := .invalidInput (words ["missing value for option ", key])

/-- `--return-values` is the only option without a value. -/
def parseOptions (o : Options) : List Text → Result Options
  | [] => .ok o
  | key :: rest =>
    if isDashed key then
      match rest with
      | [] => if key = returnValuesFlag then .ok ((trimDashes key, "true".toList) :: o) else .error (missingValue key)
      | value :: later =>
        if isDashed value then
          if key = returnValuesFlag then parseOptions ((trimDashes key, "true".toList) :: o) (value :: later)
          else .error (missingValue key)
        else parseOptions ((trimDashes key, value) :: o) later
    else .error (.invalidInput (words ["expected option starting with --, got ", key]))

namespace Options

/-- `opt_str`. -/
def get (o : Options) (key : Text) : Option Text := (o.find? (fun p => decide (p.1 = key))).map Prod.snd

def requireStr (o : Options) (key : Text) : Result Text :=
  match o.get key with
  | some t => .ok t
  | none => .error (.invalidInput (words ["missing --", key]))

def requireI64 (o : Options) (key : Text) : Result Int := do
  let t ← o.requireStr key
  match parse i64Min i64Max t with
  | .ok n => .ok n
  | .error e => .error (.invalidInput (words ["invalid --", key, " value: ", e.display]))

end Options

def parseI64List (raw : Text) : Result (List Int) :=
  if raw.isBlank then .ok []
  else collect (fun value =>
    match parse i64Min i64Max (trim value) with
    | .ok n => .ok n
    | .error e => .error (.invalidInput (words ["invalid integer in --values: ", e.display]))) (raw.splitOn ',')

def parseScalarPredicate (o : Options) : Result ScalarPredicateExpr := do
  let predicate ← o.requireStr "predicate".toList
  if predicate = "eq".toList then return .eq (← o.requireI64 "value".toList)
  else if predicate = "ne".toList then return .ne (← o.requireI64 "value".toList)
  else if predicate = "gt".toList then return .gt (← o.requireI64 "value".toList)
  else if predicate = "gte".toList then return .gte (← o.requireI64 "value".toList)
  else if predicate = "lt".toList then return .lt (← o.requireI64 "value".toList)
  else if predicate = "lte".toList then return .lte (← o.requireI64 "value".toList)
  else if predicate = "between".toList then
    return .between (← o.requireI64 "min".toList) (← o.requireI64 "max".toList) true
  else if predicate = "between-exclusive".toList then
    return .between (← o.requireI64 "min".toList) (← o.requireI64 "max".toList) false
  else if predicate = "in-set".toList then return .inSet (← parseI64List (← o.requireStr "values".toList))
  else if predicate = "not-in-set".toList then return .notInSet (← parseI64List (← o.requireStr "values".toList))
  else throw (.invalidInput (words ["unsupported scalar predicate: ", predicate]))

/-- What the worker is told to do. -/
inductive Command where
  | version
  /-- The store is opened before the other options are read. -/
  | readKlineLatest (root : Text) (rest : Result (Nat × Text × Text))
  | init (root : Text)
  | sealSnapshot (root : Text)
  | verifySnapshot (root : Text) (digest : Option Text)
  | readKlineRange (root symbol timeframe : Text) (startTs endTs : Int)
  | readIndicatorRange (root symbol timeframe indicatorName : Text) (startTs endTs : Int)
  | readScalarRange (root symbol timeframe category name : Text) (startTs endTs : Int)
  | queryScalarPredicate (root symbol timeframe category name : Text) (startTs endTs : Int)
      (predicate : ScalarPredicateExpr) (returnValues : Bool)
  | write (root : Text) (w : BridgeWrite)
  | klineInventory (root symbol timeframe : Text)
  | indicatorInventory (root symbol timeframe indicatorName : Text)
  | scalarInventory (root symbol timeframe category name : Text)

/-- How the JSON library reads the payloads of writes; an error has its text. -/
structure Payloads (V : Type) where
  kline : V → Except Text WriteKlineRequest
  indicator : V → Except Text (List ScalarBridgeRecord)
  scalar : V → Except Text WriteScalarRequest

section Worker

variable {V : Type}

/-- `Input::read` of a session, and `from_value`. -/
def readPayload {α : Type} (decode : V → Except Text α) (payload : Option V) : Except BridgeError α :=
  match payload with
  | none => .error (FastKError.invalidInput "write requires a session payload").bridge
  | some v => (decode v).mapError (fun message => ⟨"JSON", words ["serde error: ", message]⟩)

/-- The options that `read-kline-latest` reads once the store is open. -/
def latestOptions (o : Options) : Result (Nat × Text × Text) := do
  let limit ← o.requireI64 "limit".toList
  if limit < 0 then throw (.invalidInput "limit must be nonnegative")
  let symbol ← o.requireStr "symbol".toList
  let timeframe ← o.requireStr "timeframe".toList
  pure (limit.toNat, symbol, timeframe)

/-- The command with its options, for the commands without a payload. -/
def readCommand (o : Options) (command : Text) : Result Command := do
  if command = "read-kline-latest".toList then
    return .readKlineLatest (← o.requireStr "root".toList) (latestOptions o)
  else if command = "init".toList then return .init (← o.requireStr "root".toList)
  else if command = "seal-snapshot".toList then return .sealSnapshot (← o.requireStr "root".toList)
  else if command = "verify-snapshot".toList then
    return .verifySnapshot (← o.requireStr "root".toList) (o.get "digest".toList)
  else if command = "read-kline-range".toList then
    return .readKlineRange (← o.requireStr "root".toList) (← o.requireStr "symbol".toList)
      (← o.requireStr "timeframe".toList) (← o.requireI64 "start-ts".toList) (← o.requireI64 "end-ts".toList)
  else if command = "read-indicator-range".toList then
    return .readIndicatorRange (← o.requireStr "root".toList) (← o.requireStr "symbol".toList)
      (← o.requireStr "timeframe".toList)
      (← o.requireStr "indicator-name".toList) (← o.requireI64 "start-ts".toList) (← o.requireI64 "end-ts".toList)
  else if command = "read-scalar-range".toList then
    return .readScalarRange (← o.requireStr "root".toList) (← o.requireStr "symbol".toList)
      (← o.requireStr "timeframe".toList)
      (← o.requireStr "category".toList) (← o.requireStr "name".toList) (← o.requireI64 "start-ts".toList)
        (← o.requireI64 "end-ts".toList)
  else if command = "query-scalar-predicate".toList then
    return .queryScalarPredicate (← o.requireStr "root".toList) (← o.requireStr "symbol".toList)
      (← o.requireStr "timeframe".toList)
      (← o.requireStr "category".toList) (← o.requireStr "name".toList) (← o.requireI64 "start-ts".toList)
        (← o.requireI64 "end-ts".toList)
      (← parseScalarPredicate o) (o.get "return-values".toList).isSome
  else if command = "kline-inventory".toList then
    return .klineInventory (← o.requireStr "root".toList) (← o.requireStr "symbol".toList)
      (← o.requireStr "timeframe".toList)
  else if command = "indicator-inventory".toList then
    return .indicatorInventory (← o.requireStr "root".toList) (← o.requireStr "symbol".toList)
      (← o.requireStr "timeframe".toList)
      (← o.requireStr "indicator-name".toList)
  else if command = "scalar-inventory".toList then
    return .scalarInventory (← o.requireStr "root".toList) (← o.requireStr "symbol".toList)
      (← o.requireStr "timeframe".toList)
      (← o.requireStr "category".toList) (← o.requireStr "name".toList)
  else throw (.invalidInput (words ["unsupported bridge command: ", command]))

/-- The options of a write command, once its payload is there. -/
def writeKlineOptions (o : Options) (request : WriteKlineRequest) : Result Command := do
  return .write (← o.requireStr "root".toList) (.klineRange (← o.requireStr "symbol".toList)
    (← o.requireStr "timeframe".toList) request)

def writeIndicatorOptions (o : Options) (records : List ScalarBridgeRecord) : Result Command := do
  return .write (← o.requireStr "root".toList) (.indicatorRange (← o.requireStr "symbol".toList)
    (← o.requireStr "timeframe".toList)
    (← o.requireStr "indicator-name".toList) records)

def writeScalarOptions (o : Options) (request : WriteScalarRequest) : Result Command := do
  return .write (← o.requireStr "root".toList) (.scalarRange (← o.requireStr "symbol".toList)
    (← o.requireStr "timeframe".toList)
    (← o.requireStr "category".toList) (← o.requireStr "name".toList) request)

/-- What a command reads of its payload and its options. -/
def readRequest (payloads : Payloads V) (o : Options) (command : Text) (payload : Option V) :
    Except BridgeError Command :=
  if command = "write-kline-range".toList then do
    let request ← readPayload payloads.kline payload
    (writeKlineOptions o request).mapError FastKError.bridge
  else if command = "write-indicator-range".toList then do
    let records ← readPayload payloads.indicator payload
    (writeIndicatorOptions o records).mapError FastKError.bridge
  else if command = "write-scalar-range".toList then do
    let request ← readPayload payloads.scalar payload
    (writeScalarOptions o request).mapError FastKError.bridge
  else (readCommand o command).mapError FastKError.bridge

/-- `dispatch`, up to the call of the engine. -/
def dispatch (payloads : Payloads V) (args : List Text) (payload : Option V) : Except BridgeError Command :=
  match args.filter (fun arg => !decide (arg = errorFormat)) with
  | [] => .error (FastKError.invalidInput "expected a bridge command").bridge
  | command :: rest =>
    if command = "version".toList then
      if rest = ["--json".toList] then .ok .version else .error (FastKError.invalidInput "use version --json").bridge
    else
      match parseOptions [] rest with
      | .error e => .error e.bridge
      | .ok o => readRequest payloads o command payload

end Worker

/-! ## Options as the worker reads them -/

/-- The name of an option on the command line. -/
def optionName (key : Text) : Text := key.map (fun c => if c = '_' then '-' else c)

/-- The text that an option has at the worker. -/
def PyValue.text : PyValue → Option Text
  | .nothing => none
  | .bool b => if b then some "true".toList else none
  | .int n => some (showInt n)
  | .str t => some t
  | .list values => some (commaList (values.map showInt))

/-- An option that the worker reads under its name, as a flag just where it is one. -/
structure Sendable (p : Text × PyValue) : Prop where
  name : trimDashes (flagOf p.1) = optionName p.1
  kept : flagOf p.1 ≠ errorFormat
  flag : flagOf p.1 = returnValuesFlag ↔ ∃ b, p.2 = .bool b

/-- What the worker makes of an option. -/
def optionEntry (p : Text × PyValue) : Option (Text × Text) := p.2.text.map (fun t => (optionName p.1, t))

/-- The worker takes the value for an option. -/
def PyValue.mistaken (v : PyValue) : Bool := v.text.any isDashed

section Parsing

variable {o : Options} {p : Text × PyValue} {l : List (Text × PyValue)} {key t : Text} {rest : List Text}

theorem isDashed_flagOf (key : Text) : isDashed (flagOf key) = true := decide_eq_true (List.prefix_append _ _)

theorem not_isDashed_showInt (n : Int) : isDashed (showInt n) = false := decide_eq_false (toString_not_dashes n)

theorem not_isDashed_commaList (values : List Int) : isDashed (commaList (values.map showInt)) = false :=
  decide_eq_false (commaList_not_dashes values)

/-- The arguments that the worker keeps. -/
def keptArgs (args : List Text) : List Text := args.filter (fun arg => !decide (arg = errorFormat))

/-- What follows an option begins with the next one. -/
theorem dashed_head (hl : ∀ p ∈ l, Sendable p) : ∀ arg ∈ (keptArgs (l.flatMap (fun p => optionArgs p.1 p.2))).head?,
    isDashed arg = true := by
  induction l with
  | nil => simp [keptArgs]
  | cons p l ih =>
    have hflag : (!decide (flagOf p.1 = errorFormat)) = true := by simp [(hl p List.mem_cons_self).kept]
    have hrest := ih (fun q hq => hl q (List.mem_cons_of_mem p hq))
    unfold keptArgs at hrest ⊢
    rw [List.flatMap_cons, List.filter_append]
    cases hp : p.2 with
    | nothing => exact hrest
    | bool b =>
      cases b with
      | false => exact hrest
      | true => simp [optionArgs, hflag, isDashed_flagOf]
    | int n => simp [optionArgs, List.filter_cons, hflag, isDashed_flagOf]
    | str t => simp [optionArgs, List.filter_cons, hflag, isDashed_flagOf]
    | list values => simp [optionArgs, List.filter_cons, hflag, isDashed_flagOf]

theorem parseOptions_flag (h : ∀ arg ∈ rest.head?, isDashed arg = true) :
    parseOptions o (returnValuesFlag :: rest) = parseOptions (("return-values".toList, "true".toList) :: o) rest := by
  have hdash : isDashed returnValuesFlag = true := by decide
  have htrim : trimDashes returnValuesFlag = "return-values".toList := by decide
  cases rest with
  | nil => simp [parseOptions, hdash, htrim]
  | cons value later =>
    have hv : isDashed value = true := h value (by simp)
    rw [parseOptions, if_pos hdash]
    simp [hv, htrim]

theorem parseOptions_value (hp : Sendable p) (ht : isDashed t = false) :
    parseOptions o (flagOf p.1 :: t :: rest) = parseOptions ((optionName p.1, t) :: o) rest := by
  rw [parseOptions, if_pos (isDashed_flagOf p.1), hp.name]
  simp [ht]

theorem parseOptions_missing (hp : Sendable p) (hflag : ¬ ∃ b, p.2 = .bool b)
    (h : ∀ arg ∈ rest.head?, isDashed arg = true) :
    parseOptions o (flagOf p.1 :: rest) = .error (missingValue (flagOf p.1)) := by
  have hne : flagOf p.1 ≠ returnValuesFlag := fun heq => hflag (hp.flag.1 heq)
  cases rest with
  | nil => simp [parseOptions, isDashed_flagOf, hne]
  | cons value later =>
    have hv : isDashed value = true := h value (by simp)
    rw [parseOptions, if_pos (isDashed_flagOf p.1)]
    simp [hv, hne]

/-- An option that has a text is there with it, unless its text is taken for an option. -/
theorem parseOptions_text (hp : Sendable p) (hflag : ¬ ∃ b, p.2 = .bool b)
    (h : ∀ arg ∈ rest.head?, isDashed arg = true) :
    parseOptions o (keptArgs [flagOf p.1, t] ++ rest) =
      if isDashed t then .error (missingValue (flagOf p.1)) else parseOptions ((optionName p.1, t) :: o) rest := by
  have hkept : (!decide (flagOf p.1 = errorFormat)) = true := by simp [hp.kept]
  by_cases ht : t = errorFormat
  · have hdash : isDashed t = true := by rw [ht]; decide
    have hargs : keptArgs [flagOf p.1, t] = [flagOf p.1] := by simp [keptArgs, hkept, ht]
    rw [hargs, if_pos hdash]
    exact parseOptions_missing hp hflag h
  · have hargs : keptArgs [flagOf p.1, t] = [flagOf p.1, t] := by simp [keptArgs, hkept, ht]
    rw [hargs]
    by_cases hdash : isDashed t = true
    · rw [if_pos hdash]
      exact parseOptions_missing hp hflag (fun arg harg => by
        obtain rfl : t = arg := by simpa using harg
        exact hdash)
    · rw [if_neg hdash]
      exact parseOptions_value hp (by simpa using hdash)

/-- **What the worker makes of the options of a call**: all of them, or an error at the first that it mistakes. -/
theorem parseOptions_sent (hl : ∀ p ∈ l, Sendable p) :
    parseOptions o (keptArgs (l.flatMap (fun p => optionArgs p.1 p.2))) =
    match l.find? (fun p => p.2.mistaken) with
    | some p => .error (missingValue (flagOf p.1))
    | none => .ok ((l.filterMap optionEntry).reverse ++ o) := by
  induction l generalizing o with
  | nil => rfl
  | cons p l ih =>
    have hp := hl p List.mem_cons_self
    have hrest : ∀ q ∈ l, Sendable q := fun q hq => hl q (List.mem_cons_of_mem p hq)
    have hargs : keptArgs ((p :: l).flatMap (fun p => optionArgs p.1 p.2)) =
        keptArgs (optionArgs p.1 p.2) ++ keptArgs (l.flatMap (fun p => optionArgs p.1 p.2)) := by
      rw [List.flatMap_cons]
      exact List.filter_append _ _
    -- an option with a text is read with it, and the others follow
    have htext : ∀ t, (¬ ∃ b, p.2 = .bool b) → optionArgs p.1 p.2 = [flagOf p.1, t] → p.2.text = some t →
        parseOptions o (keptArgs ((p :: l).flatMap (fun p => optionArgs p.1 p.2))) =
          match (p :: l).find? (fun p => p.2.mistaken) with
          | some p => .error (missingValue (flagOf p.1))
          | none => .ok (((p :: l).filterMap optionEntry).reverse ++ o) := by
      intro t hflag hopt ht
      have hmistaken : p.2.mistaken = isDashed t := by simp [PyValue.mistaken, ht]
      have hentry : optionEntry p = some (optionName p.1, t) := by simp [optionEntry, ht]
      rw [hargs, hopt, parseOptions_text hp hflag (dashed_head hrest), List.find?_cons, hmistaken,
        List.filterMap_cons, hentry]
      by_cases hdash : isDashed t = true
      · rw [if_pos hdash, hdash]
      · rw [if_neg hdash, Bool.eq_false_iff.2 hdash, ih hrest]
        simp
    cases hv : p.2 with
    | nothing =>
      have hopt : keptArgs (optionArgs p.1 p.2) = [] := by rw [hv]; rfl
      have hmistaken : p.2.mistaken = false := by rw [hv]; rfl
      have hentry : optionEntry p = none := by simp [optionEntry, hv, PyValue.text]
      rw [hargs, hopt, List.nil_append, ih hrest, List.find?_cons, hmistaken, List.filterMap_cons, hentry]
    | bool b =>
      cases b with
      | false =>
        have hopt : keptArgs (optionArgs p.1 p.2) = [] := by rw [hv]; rfl
        have hmistaken : p.2.mistaken = false := by rw [hv]; rfl
        have hentry : optionEntry p = none := by simp [optionEntry, hv, PyValue.text]
        rw [hargs, hopt, List.nil_append, ih hrest, List.find?_cons, hmistaken, List.filterMap_cons, hentry]
      | true =>
        have hflag : flagOf p.1 = returnValuesFlag := hp.flag.2 ⟨true, hv⟩
        have hname : optionName p.1 = "return-values".toList := by rw [← hp.name, hflag]; decide
        have hopt : keptArgs (optionArgs p.1 p.2) = [returnValuesFlag] := by
          rw [hv]
          show keptArgs [flagOf p.1] = _
          rw [hflag]
          decide
        have hmistaken : p.2.mistaken = false := by rw [hv]; decide
        have hentry : optionEntry p = some ("return-values".toList, "true".toList) := by
          simp [optionEntry, hv, PyValue.text, hname]
        rw [hargs, hopt, List.singleton_append, parseOptions_flag (dashed_head hrest), ih hrest, List.find?_cons,
          hmistaken, List.filterMap_cons, hentry]
        simp
    | int n => exact htext (showInt n) (by simp [hv]) (by rw [hv]; rfl) (by rw [hv]; rfl)
    | str t => exact htext t (by simp [hv]) (by rw [hv]; rfl) (by rw [hv]; rfl)
    | list values => exact htext (commaList (values.map showInt)) (by simp [hv]) (by rw [hv]; rfl) (by rw [hv]; rfl)

/-- The option of a name among those of a call. -/
def givenText (l : List (Text × PyValue)) (key : Text) : Option Text :=
  (l.find? (fun p => decide (optionName p.1 = key))).bind (fun p => p.2.text)

theorem givenText_cons : givenText (p :: l) key = if optionName p.1 = key then p.2.text else givenText l key := by
  unfold givenText
  by_cases h : optionName p.1 = key <;> simp [h]

theorem Options.get_append (o o' : Options) (key : Text) : Options.get (o ++ o') key = (o.get key).or (o'.get key) := by
  unfold Options.get
  rw [List.find?_append]
  cases o.find? (fun p => decide (p.1 = key)) <;> simp

theorem get_optionEntry : Options.get (optionEntry p).toList key = if optionName p.1 = key then p.2.text else none := by
  unfold optionEntry Options.get
  by_cases h : optionName p.1 = key <;> cases p.2.text <;> simp [h]

/-- Each option has the text that the call gave it. -/
theorem get_entries (hl : (l.map (fun p => optionName p.1)).Nodup) (key : Text) :
    Options.get ((l.filterMap optionEntry).reverse) key = givenText l key := by
  induction l with
  | nil => rfl
  | cons p l ih =>
    rw [List.map_cons, List.nodup_cons] at hl
    have hcons : ((p :: l).filterMap optionEntry).reverse = (l.filterMap optionEntry).reverse ++
      (optionEntry p).toList := by
      rw [List.filterMap_cons]
      cases optionEntry p <;> simp
    rw [hcons, Options.get_append, ih hl.2, get_optionEntry, givenText_cons]
    by_cases hkey : optionName p.1 = key
    · have hnone : givenText l key = none := by
        unfold givenText
        rw [List.find?_eq_none.2 (fun q hq hdec => hl.1 ?_)]
        · rfl
        · rw [hkey, ← of_decide_eq_true hdec]
          exact List.mem_map_of_mem (f := fun q : Text × PyValue => optionName q.1) hq
      rw [hnone, if_pos hkey]
      rfl
    · rw [if_neg hkey, if_neg hkey, Option.or_none]

theorem requireStr_given (h : o.get key = some t) : o.requireStr key = .ok t := by
  unfold Options.requireStr
  rw [h]

end Parsing

/-! ## What a call asks for -/

def InI64 (n : Int) : Prop := i64Min ≤ n ∧ n ≤ i64Max

instance (n : Int) : Decidable (InI64 n) := inferInstanceAs (Decidable (_ ∧ _))

/-- Texts that no worker takes for options. -/
def Plain (texts : List Text) : Prop := ∀ t ∈ texts, isDashed t = false

instance (texts : List Text) : Decidable (Plain texts) := inferInstanceAs (Decidable (∀ t ∈ texts, _))

/-- The value of a word. -/
def choose {β : Type} (otherwise : β) (word : Text) : List (Text × β) → β
  | [] => otherwise
  | p :: rest => if word = p.1 then p.2 else choose otherwise word rest

/-- The predicate of a name, from the arguments that it needs. -/
def toldPredicate (predicate : Text) (value min max : Option Int) (values : Option (List Int)) :
    Option ScalarPredicateExpr :=
  let one := fun f : Int → ScalarPredicateExpr => (value.filter (fun n => decide (InI64 n))).map f
  let two := fun inclusive => (min.filter (fun n => decide (InI64 n))).bind (fun low =>
    (max.filter (fun n => decide (InI64 n))).map (fun high => ScalarPredicateExpr.between low high inclusive))
  let many := fun f : List Int → ScalarPredicateExpr =>
    (values.filter (fun ns => ns.all (fun n => decide (InI64 n)))).map f
  choose none predicate [("eq", one .eq), ("ne", one .ne), ("gt", one .gt), ("gte", one .gte), ("lt", one .lt),
    ("lte", one .lte), ("between", two true), ("between-exclusive", two false), ("in-set", many .inSet),
      ("not-in-set", many .notInSet)]

/-- The command that a call asks for, where the worker can read its arguments. -/
def ClientCall.asked {V : Type} (payloads : Payloads V) (root : Text) : ClientCall V → Option Command
  | version => some .version
  | init => some (.init root)
  | readKlineRange symbol timeframe startTs endTs =>
    if Plain [symbol, timeframe] ∧ InI64 startTs ∧ InI64 endTs then
      some (.readKlineRange root symbol timeframe startTs endTs)
    else none
  | writeKlineRange symbol timeframe payload =>
    if Plain [symbol, timeframe] then
      (payloads.kline payload).toOption.map (fun request => .write root (.klineRange symbol timeframe request))
    else none
  | klineInventory symbol timeframe =>
      if Plain [symbol, timeframe] then some (.klineInventory root symbol timeframe) else none
  | readKlineLatest symbol timeframe limit =>
    if Plain [symbol, timeframe] ∧ 0 ≤ limit ∧ limit ≤ i64Max then
      some (.readKlineLatest root (.ok (limit.toNat, symbol, timeframe)))
    else none
  | readScalarRange symbol timeframe category name startTs endTs =>
    if Plain [symbol, timeframe, category, name] ∧ InI64 startTs ∧ InI64 endTs then
      some (.readScalarRange root symbol timeframe category name startTs endTs)
    else none
  | writeScalarRange symbol timeframe category name payload =>
    if Plain [symbol, timeframe, category, name] then
      (payloads.scalar payload).toOption.map (fun request =>
        .write root (.scalarRange symbol timeframe category name request))
    else none
  | scalarInventory symbol timeframe category name =>
    if Plain [symbol, timeframe, category, name] then some (.scalarInventory root symbol timeframe category name)
    else none
  | queryScalarPredicate symbol timeframe category name startTs endTs predicate value min max values returnValues =>
    if Plain [symbol, timeframe, category, name] ∧ InI64 startTs ∧ InI64 endTs then
      (toldPredicate predicate value min max values).map (fun p =>
        .queryScalarPredicate root symbol timeframe category name startTs endTs p returnValues)
    else none
  | readIndicatorRange symbol timeframe indicatorName startTs endTs =>
    if Plain [symbol, timeframe, indicatorName] ∧ InI64 startTs ∧ InI64 endTs then
      some (.readIndicatorRange root symbol timeframe indicatorName startTs endTs)
    else none
  | writeIndicatorRange symbol timeframe indicatorName payload =>
    if Plain [symbol, timeframe, indicatorName] then
      (payloads.indicator payload).toOption.map (fun records =>
        .write root (.indicatorRange symbol timeframe indicatorName records))
    else none
  | indicatorInventory symbol timeframe indicatorName =>
    if Plain [symbol, timeframe, indicatorName] then some (.indicatorInventory root symbol timeframe indicatorName)
    else none
  | sealSnapshot => some (.sealSnapshot root)
  | verifySnapshot digest => if Plain digest.toList then some (.verifySnapshot root digest) else none

/-- The worker does nothing but to open the store, at most, and answers with an error: the arguments are not valid, or
the payload is not. -/
inductive TurnedDown : Except BridgeError Command → Prop
  | input (message : Text) : TurnedDown (.error ⟨"INVALID_INPUT", message⟩)
  | payload (message : Text) : TurnedDown (.error ⟨"JSON", message⟩)
  | opened (root message : Text) : TurnedDown (.ok (.readKlineLatest root (.error (.invalidInput message))))

section Calls

variable {V : Type} {payloads : Payloads V} {c : ClientCall V} {o : Options} {root key : Text}

/-- The options of a call, with the root. -/
def ClientCall.sent (root : Text) (c : ClientCall V) : List (Text × PyValue) := ("root".toList, .str root) :: c.options

/-- The names of the options that have a value. -/
def plainKeys : List Text :=
  ["root", "symbol", "timeframe", "start_ts", "end_ts", "limit", "category", "name", "predicate", "value", "min", "max",
    "values", "indicator_name", "digest"]

theorem options_keys (c : ClientCall V) : ∀ p ∈ c.options, (p.1 ∈ plainKeys ∧ ∀ b, p.2 ≠ .bool b) ∨
    ∃ b, p = ("return_values".toList, .bool b) := by
  have hopt : ∀ {α : Type} (f : α → PyValue) (a : Option α), (∀ a b, f a ≠ .bool b) →
    ∀ b, ClientCall.optional f a ≠ .bool b := by
    intro α f a hf b
    cases a with
    | none => simp [ClientCall.optional]
    | some a => exact hf a b
  cases c <;> simp [ClientCall.options, plainKeys, hopt]

theorem sendable_sent (root : Text) (c : ClientCall V) : ∀ p ∈ c.sent root, Sendable p := by
  have hplain : ∀ k ∈ plainKeys, trimDashes (flagOf k) = optionName k ∧ flagOf k ≠ errorFormat ∧
    flagOf k ≠ returnValuesFlag := by decide
  have hof : ∀ p : Text × PyValue, p.1 ∈ plainKeys → (∀ b, p.2 ≠ .bool b) → Sendable p := fun p hk hv =>
    ⟨(hplain _ hk).1, (hplain _ hk).2.1, fun h => absurd h (hplain _ hk).2.2, fun ⟨b, hb⟩ => absurd hb (hv b)⟩
  intro p hp
  rcases List.mem_cons.1 hp with rfl | hp
  · exact hof _ (show "root".toList ∈ plainKeys by decide) (by simp)
  · rcases options_keys c p hp with ⟨hk, hv⟩ | ⟨b, rfl⟩
    · exact hof p hk hv
    · have hflag : flagOf "return_values".toList = returnValuesFlag := by decide
      have hname : trimDashes (flagOf "return_values".toList) = optionName "return_values".toList ∧
        flagOf "return_values".toList ≠ errorFormat := by decide
      exact ⟨hname.1, hname.2, fun _ => ⟨b, rfl⟩, fun _ => hflag⟩

theorem names_sent (root : Text) (c : ClientCall V) : ((c.sent root).map (fun p => optionName p.1)).Nodup := by
  cases c <;> simp only [ClientCall.sent, ClientCall.options, List.map_cons, List.map_nil] <;> decide

theorem requireI64_given {n : Int} (h : o.get key = some (showInt n)) : o.requireI64 key = if InI64 n then .ok n else
    .error (.invalidInput (words ["invalid --", key, " value: ",
      (if n < 0 then IntErrorKind.negOverflow else .posOverflow).display])) := by
  have hparse : parse i64Min i64Max (showInt n) = _ := parse_toString (by decide) (by decide) n
  unfold Options.requireI64
  rw [requireStr_given h]
  show (match parse i64Min i64Max (showInt n) with | .ok n => _ | .error e => _) = _
  rw [hparse]
  by_cases hn : InI64 n
  · rw [if_pos hn, if_pos (show i64Min ≤ n ∧ n ≤ i64Max from hn)]
  · rw [if_neg hn, if_neg (show ¬ (i64Min ≤ n ∧ n ≤ i64Max) from hn)]

/-- A list of numbers is read back, or one of them is out of range. -/
theorem parseI64List_commaList (values : List Int) :
    (∀ n ∈ values, InI64 n) ∧ parseI64List (commaList (values.map showInt)) = .ok values ∨
    ¬ (∀ n ∈ values, InI64 n) ∧
      ∃ message, parseI64List (commaList (values.map showInt)) = .error (.invalidInput message) := by
  cases hv : values with
  | nil => exact .inl ⟨by simp, by decide⟩
  | cons first others =>
    have hblank : (commaList (values.map showInt)).isBlank = false := by
      rw [show commaList (values.map showInt) = commaList (values.map (fun z => (toString z).toList)) from rfl,
        isBlank_commaList, hv]
      rfl
    have hsplit : (commaList (values.map showInt)).splitOn ',' = values.map showInt := splitOn_commaList (by simp [hv])
    rw [← hv]
    unfold parseI64List
    rw [hblank, if_neg Bool.false_ne_true, hsplit]
    clear hv hblank hsplit
    -- the numbers one after another, up to the first out of range
    induction values with
    | nil => exact .inl ⟨by simp, rfl⟩
    | cons n ns ih =>
      have hparse : parse i64Min i64Max (trim (showInt n)) = _ :=
        (congrArg _ (trim_toString n)).trans (parse_toString (by decide) (by decide) n)
      rw [List.map_cons, collect, hparse]
      by_cases hn : InI64 n
      · rw [if_pos (show i64Min ≤ n ∧ n ≤ i64Max from hn)]
        rcases ih with ⟨hall, hok⟩ | ⟨hsome, message, herr⟩
        · exact .inl ⟨List.forall_mem_cons.2 ⟨hn, hall⟩, by rw [hok]⟩
        · exact .inr ⟨fun h => hsome (List.forall_mem_cons.1 h).2, message, by rw [herr]⟩
      · rw [if_neg (show ¬ (i64Min ≤ n ∧ n ≤ i64Max) from hn)]
        exact .inr ⟨fun h => hn (List.forall_mem_cons.1 h).1, _, rfl⟩

/-- A value that was told, or an error about the input. -/
def Told {α : Type} (told : Option α) (r : Result α) : Prop :=
  match told with
  | some a => r = .ok a
  | none => ∃ message, r = .error (.invalidInput message)

theorem Told.map {α β : Type} {told : Option α} {r : Result α} (h : Told told r) (f : α → β) : Told (told.map f)
    (do return f (← r)) := by
  cases told with
  | some a => exact (congrArg (fun r => do return f (← r)) h : _)
  | none =>
    obtain ⟨message, hr⟩ := h
    exact ⟨message, by rw [hr]; rfl⟩

theorem Told.bind {α β : Type} {told : Option α} {r : Result α} (h : Told told r) {f : α → Option β}
    {g : α → Result β} (hf : ∀ a, Told (f a) (g a)) :
    Told (told.bind f) (do g (← r)) := by
  cases told with
  | some a =>
    have hr : r = .ok a := h
    rw [hr]
    exact hf a
  | none =>
    obtain ⟨message, hr⟩ := h
    exact ⟨message, by rw [hr]; rfl⟩

theorem requireI64_told {value : Option Int} (h : o.get key = value.map showInt) :
    Told (value.filter (fun n => decide (InI64 n))) (o.requireI64 key) := by
  cases value with
  | none => exact ⟨_, by unfold Options.requireI64 Options.requireStr; rw [h]; rfl⟩
  | some n =>
    rw [requireI64_given h]
    by_cases hn : InI64 n
    · rw [if_pos hn, Option.filter_some, if_pos (decide_eq_true hn)]
      rfl
    · rw [if_neg hn, Option.filter_some, if_neg (by simpa using hn)]
      exact ⟨_, rfl⟩

theorem requireValues_told {values : Option (List Int)}
    (h : o.get key = values.map (fun ns => commaList (ns.map showInt))) :
    Told (values.filter (fun ns => ns.all (fun n => decide (InI64 n)))) (do parseI64List (← o.requireStr key)) := by
  cases values with
  | none => exact ⟨_, by unfold Options.requireStr; rw [h]; rfl⟩
  | some ns =>
    rw [requireStr_given h]
    show Told _ (parseI64List (commaList (ns.map showInt)))
    rcases parseI64List_commaList ns with ⟨hall, hok⟩ | ⟨hsome, message, herr⟩
    · rw [Option.filter_some, if_pos (by simpa using hall), hok]
      rfl
    · rw [Option.filter_some, if_neg (by simpa using hsome), herr]
      exact ⟨message, rfl⟩

theorem Told.choose {α : Type} {told : List (Text × Option α)} {read : List (Text × Result α)} {otherwise : Result α}
    (hother : Told none otherwise) (h : List.Forall₂ (fun a b => a.1 = b.1 ∧ Told a.2 b.2) told read) (word : Text) :
    Told (choose none word told) (choose otherwise word read) := by
  induction h with
  | nil => exact hother
  | cons hab _ ih =>
    rw [FastK.choose, FastK.choose, hab.1]
    split
    · exact hab.2
    · exact ih

/-- **The worker reads the predicate that it was told.** -/
theorem parseScalarPredicate_told {predicate : Text} {value min max : Option Int} {values : Option (List Int)}
    (hp : o.get "predicate".toList = some predicate) (hvalue : o.get "value".toList = value.map showInt)
    (hmin : o.get "min".toList = min.map showInt) (hmax : o.get "max".toList = max.map showInt)
    (hvalues : o.get "values".toList = values.map (fun ns => commaList (ns.map showInt))) :
    Told (toldPredicate predicate value min max values) (parseScalarPredicate o) := by
  have hone := fun f : Int → ScalarPredicateExpr => (requireI64_told hvalue).map f
  have hmany : ∀ f : List Int → ScalarPredicateExpr,
      Told ((values.filter (fun ns => ns.all (fun n => decide (InI64 n)))).map f)
      (do return f (← parseI64List (← o.requireStr "values".toList))) := fun f => by
    have hread := (requireValues_told hvalues).map f
    rw [bind_assoc] at hread
    exact hread
  have htwo : ∀ inclusive, Told ((min.filter (fun n => decide (InI64 n))).bind (fun low =>
      (max.filter (fun n => decide (InI64 n))).map (fun high => ScalarPredicateExpr.between low high inclusive)))
      (do return .between (← o.requireI64 "min".toList) (← o.requireI64 "max".toList) inclusive) :=
    fun inclusive => (requireI64_told hmin).bind (fun low => (requireI64_told hmax).map (fun high =>
      ScalarPredicateExpr.between low high inclusive))
  have hother : Told (α := ScalarPredicateExpr) none (.error (.invalidInput (words ["unsupported scalar predicate: ",
    predicate]))) := ⟨_, rfl⟩
  -- the worker goes through the words in the order of the source
  have hread : parseScalarPredicate o = choose (.error (.invalidInput (words ["unsupported scalar predicate: ",
    predicate]))) predicate [
      ("eq", do return .eq (← o.requireI64 "value".toList)), ("ne", do return .ne (← o.requireI64 "value".toList)),
      ("gt", do return .gt (← o.requireI64 "value".toList)), ("gte", do return .gte (← o.requireI64 "value".toList)),
      ("lt", do return .lt (← o.requireI64 "value".toList)), ("lte", do return .lte (← o.requireI64 "value".toList)),
      ("between", do return .between (← o.requireI64 "min".toList) (← o.requireI64 "max".toList) true),
      ("between-exclusive", do return .between (← o.requireI64 "min".toList) (← o.requireI64 "max".toList) false),
      ("in-set", do return .inSet (← parseI64List (← o.requireStr "values".toList))),
      ("not-in-set", do return .notInSet (← parseI64List (← o.requireStr "values".toList)))] := by
    unfold parseScalarPredicate
    rw [requireStr_given hp]
    rfl
  rw [hread]
  exact Told.choose hother (.cons ⟨rfl, hone .eq⟩ (.cons ⟨rfl, hone .ne⟩ (.cons ⟨rfl, hone .gt⟩
    (.cons ⟨rfl, hone .gte⟩ (.cons ⟨rfl, hone .lt⟩ (.cons ⟨rfl, hone .lte⟩ (.cons ⟨rfl, htwo true⟩
    (.cons ⟨rfl, htwo false⟩ (.cons ⟨rfl, hmany .inSet⟩ (.cons ⟨rfl, hmany .notInSet⟩ .nil)))))))))) predicate

/-- What a call asks for, or a refusal. -/
def AnswersAsked (asked : Option Command) (r : Except BridgeError Command) : Prop :=
  match asked with
  | some command => r = .ok command
  | none => TurnedDown r

theorem Told.answers {asked : Option Command} {r : Result Command} (h : Told asked r) :
    AnswersAsked asked (r.mapError FastKError.bridge) := by
  cases asked with
  | some command =>
    have hr : r = .ok command := h
    rw [hr]
    rfl
  | none =>
    obtain ⟨message, rfl⟩ := h
    exact .input _

theorem told_some {α : Type} (a : α) : Told (some a) (.ok a) := rfl

/-- The two bounds of a range. -/
theorem Told.range {startTs endTs : Int} (hstart : o.get "start-ts".toList = some (showInt startTs))
    (hend : o.get "end-ts".toList = some (showInt endTs)) {α : Type} (told : Option α) {f : Int → Int → Result α}
    (hf : Told told (f startTs endTs)) :
    Told (if InI64 startTs ∧ InI64 endTs then told else none)
    (do f (← o.requireI64 "start-ts".toList) (← o.requireI64 "end-ts".toList)) := by
  rw [requireI64_given hstart, requireI64_given hend]
  by_cases hs : InI64 startTs
  · by_cases he : InI64 endTs
    · rw [if_pos hs, if_pos he, if_pos ⟨hs, he⟩]
      exact hf
    · rw [if_pos hs, if_neg he, if_neg (fun h => he h.2)]
      exact ⟨_, rfl⟩
  · rw [if_neg hs, if_neg (fun h => hs h.1)]
    exact ⟨_, rfl⟩

theorem latestOptions_eq {limit : Int} {symbol timeframe : Text} (hlimit : o.get "limit".toList = some (showInt limit))
    (hsymbol : o.requireStr "symbol".toList = .ok symbol)
    (htimeframe : o.requireStr "timeframe".toList = .ok timeframe) :
    0 ≤ limit ∧ limit ≤ i64Max ∧ latestOptions o = .ok (limit.toNat, symbol, timeframe) ∨
      ¬ (0 ≤ limit ∧ limit ≤ i64Max) ∧ ∃ message, latestOptions o = .error (.invalidInput message) := by
  have hmin : i64Min ≤ 0 := by decide
  unfold latestOptions
  rw [requireI64_given hlimit, hsymbol, htimeframe]
  by_cases hin : InI64 limit
  · rw [if_pos hin]
    by_cases hneg : limit < 0
    · refine .inr ⟨fun h => absurd h.1 (not_le.2 hneg), "limit must be nonnegative".toList, ?_⟩
      simp [hneg, bind, Except.bind, throw, throwThe, MonadExceptOf.throw]
    · refine .inl ⟨not_lt.1 hneg, hin.2, ?_⟩
      simp [hneg, bind, Except.bind, pure, Except.pure]
  · rw [if_neg hin]
    exact .inr ⟨fun h => hin ⟨le_trans hmin h.1, h.2⟩, _, rfl⟩

/-- No command is the option that the worker drops. -/
theorem command_ne (c : ClientCall V) : c.command ≠ errorFormat := by
  have hne : decide (c.command = errorFormat) = false := by cases c <;> rfl
  exact of_decide_eq_false hne

/-- What the worker makes of a call's command line. -/
theorem dispatch_sent (hc : c.command ≠ "version".toList) : dispatch payloads (c.args root) c.payload =
    match (c.sent root).find? (fun p => p.2.mistaken) with
    | some p => .error (missingValue (flagOf p.1)).bridge
    | none => readRequest payloads ((c.sent root).filterMap optionEntry).reverse c.command c.payload := by
  have hargs : c.args root = c.command :: (c.sent root).flatMap (fun p => optionArgs p.1 p.2) ++ [errorFormat] := by
    cases c with
    | version => exact absurd rfl hc
    | _ => rfl
  have hname : (!decide (c.command = errorFormat)) = true := by simp [command_ne c]
  have hkept : (c.args root).filter (fun arg =>
    !decide (arg = errorFormat)) = c.command :: keptArgs ((c.sent root).flatMap (fun p => optionArgs p.1 p.2)) := by
    rw [hargs, List.cons_append, List.filter_cons, hname, List.filter_append]
    simp [keptArgs]
  unfold dispatch
  rw [hkept]
  simp only
  rw [if_neg hc, parseOptions_sent (sendable_sent root c)]
  cases (c.sent root).find? (fun p => p.2.mistaken) with
  | some p => rfl
  | none => rw [List.append_nil]

/-- The worker finds these texts under these names. -/
def Options.Finds (o : Options) : List (Text × Text) → Prop
  | [] => True
  | p :: rest => o.requireStr p.1 = .ok p.2 ∧ o.Finds rest

/-- The call passes these texts on under these names. -/
def Passes (sent : List (Text × PyValue)) : List (Text × Text) → Prop
  | [] => True
  | p :: rest => givenText sent p.1 = some p.2 ∧ Passes sent rest

/-- **The texts that a call must pass on are found**, and none of them is taken for an option. -/
theorem finds_passed (ho : ∀ key, o.get key = givenText (c.sent root) key)
    (hplain : ∀ p ∈ c.sent root, p.2.mistaken = false) :
    ∀ (texts : List (Text × Text)), Passes (c.sent root) texts → o.Finds texts ∧ Plain (texts.map Prod.snd)
  | [], _ => ⟨trivial, fun _ ht => by cases ht⟩
  | (key, t) :: texts, ⟨hgiven, hrest⟩ => by
    obtain ⟨hfinds, htexts⟩ := finds_passed ho hplain texts hrest
    have hdash : isDashed t = false := by
      obtain ⟨p, hp, ht⟩ := Option.bind_eq_some_iff.1 hgiven
      have hmistaken := hplain p (List.mem_of_find?_eq_some hp)
      rwa [PyValue.mistaken, ht] at hmistaken
    exact ⟨⟨requireStr_given ((ho key).trans hgiven), hfinds⟩, List.forall_mem_cons.2 ⟨hdash, htexts⟩⟩

/-- The texts that name the series of a call, and a digest. -/
def ClientCall.texts : ClientCall V → List (Text × Text)
  | version | init | sealSnapshot => []
  | readKlineRange symbol timeframe _ _ | writeKlineRange symbol timeframe _ | klineInventory symbol timeframe
  | readKlineLatest symbol timeframe _ => [("symbol".toList, symbol), ("timeframe".toList, timeframe)]
  | readIndicatorRange symbol timeframe indicatorName _ _ | writeIndicatorRange symbol timeframe indicatorName _
  | indicatorInventory symbol timeframe indicatorName =>
    [("symbol".toList, symbol), ("timeframe".toList, timeframe), ("indicator-name".toList, indicatorName)]
  | readScalarRange symbol timeframe category name _ _ | writeScalarRange symbol timeframe category name _
  | scalarInventory symbol timeframe category name
  | queryScalarPredicate symbol timeframe category name _ _ _ _ _ _ _ _ =>
    [("symbol".toList, symbol), ("timeframe".toList, timeframe), ("category".toList, category), ("name".toList, name)]
  | verifySnapshot digest => digest.toList.map (fun t => ("digest".toList, t))

theorem passes_texts (root : Text) (c : ClientCall V) : Passes (c.sent root) c.texts := by
  cases c with
  | version => trivial
  | init => trivial
  | sealSnapshot => trivial
  | verifySnapshot digest => cases digest with
    | none => trivial
    | some t => exact ⟨rfl, trivial⟩
  | readKlineRange => exact ⟨rfl, rfl, trivial⟩
  | writeKlineRange => exact ⟨rfl, rfl, trivial⟩
  | klineInventory => exact ⟨rfl, rfl, trivial⟩
  | readKlineLatest => exact ⟨rfl, rfl, trivial⟩
  | readIndicatorRange => exact ⟨rfl, rfl, rfl, trivial⟩
  | writeIndicatorRange => exact ⟨rfl, rfl, rfl, trivial⟩
  | indicatorInventory => exact ⟨rfl, rfl, rfl, trivial⟩
  | _ => exact ⟨rfl, rfl, rfl, rfl, trivial⟩

/-- A command whose options were all found. -/
theorem found_answers {texts : List Text} (hP : Plain texts) {r : Result Command} {answer : Command}
    (hread : r = .ok answer) :
    AnswersAsked (if Plain texts then some answer else none) (r.mapError FastKError.bridge) := by
  rw [if_pos hP, hread]
  rfl

/-- A read of a range, where the two bounds decide. -/
theorem range_answers {texts : List Text} (hP : Plain texts) {startTs endTs : Int}
    (hstart : o.get "start-ts".toList = some (showInt startTs)) (hend : o.get "end-ts".toList = some (showInt endTs))
    {told : Option Command} {f : Int → Int → Result Command} (hf : Told told (f startTs endTs)) {r : Result Command}
    (hread : r = do f (← o.requireI64 "start-ts".toList) (← o.requireI64 "end-ts".toList)) :
    AnswersAsked (if Plain texts ∧ InI64 startTs ∧ InI64 endTs then told else none)
      (r.mapError FastKError.bridge) := by
  rw [hread]
  simp only [hP, true_and]
  exact (Told.range hstart hend told hf).answers

/-- A write, where the payload decides. -/
theorem write_answers {α : Type} {decode : V → Except Text α} {texts : List Text} (hP : Plain texts)
    {options : α → Result Command} {write : α → Command} (hoptions : ∀ a, options a = .ok (write a)) (payload : V) :
    AnswersAsked (if Plain texts then (decode payload).toOption.map write else none) (do
      let a ← readPayload decode (some payload)
      (options a).mapError FastKError.bridge) := by
  rw [if_pos hP]
  show AnswersAsked _ (do
    let a ← (decode payload).mapError (fun message => ⟨"JSON", words ["serde error: ", message]⟩)
    (options a).mapError FastKError.bridge)
  cases decode payload with
  | error message => exact .payload _
  | ok a =>
    show (options a).mapError FastKError.bridge = .ok (write a)
    rw [hoptions]
    rfl

/-- **What the worker reads of the options that it was given.** -/
theorem readRequest_answers (hc : c.command ≠ "version".toList) (ho : ∀ key, o.get key = givenText (c.sent root) key)
    (hplain : ∀ p ∈ c.sent root, p.2.mistaken = false) : AnswersAsked (c.asked payloads root)
    (readRequest payloads o c.command c.payload) := by
  have hroot : o.requireStr "root".toList = .ok root := requireStr_given ((ho _).trans rfl)
  obtain ⟨hfinds, hP⟩ := finds_passed ho hplain c.texts (passes_texts root c)
  cases c with
  | version => exact absurd rfl hc
  | init =>
    have hread : readCommand o "init".toList = .ok (.init root) := by
      unfold readCommand
      simp +decide only [hroot]
      rfl
    exact Told.answers hread
  | sealSnapshot =>
    have hread : readCommand o "seal-snapshot".toList = .ok (.sealSnapshot root) := by
      unfold readCommand
      simp +decide only [hroot]
      rfl
    exact Told.answers hread
  | readKlineRange symbol timeframe startTs endTs =>
    obtain ⟨hsymbol, htimeframe, -⟩ := hfinds
    exact range_answers hP ((ho _).trans rfl) ((ho _).trans rfl)
      (told_some (Command.readKlineRange root symbol timeframe startTs endTs))
      (by unfold readCommand; simp +decide only [hroot, hsymbol, htimeframe]; rfl)
  | readIndicatorRange symbol timeframe indicatorName startTs endTs =>
    obtain ⟨hsymbol, htimeframe, hindicatorName, -⟩ := hfinds
    exact range_answers hP ((ho _).trans rfl) ((ho _).trans rfl)
      (told_some (Command.readIndicatorRange root symbol timeframe indicatorName startTs endTs))
      (by unfold readCommand; simp +decide only [hroot, hsymbol, htimeframe, hindicatorName]; rfl)
  | readScalarRange symbol timeframe category name startTs endTs =>
    obtain ⟨hsymbol, htimeframe, hcategory, hname, -⟩ := hfinds
    exact range_answers hP ((ho _).trans rfl) ((ho _).trans rfl)
      (told_some (Command.readScalarRange root symbol timeframe category name startTs endTs))
      (by unfold readCommand; simp +decide only [hroot, hsymbol, htimeframe, hcategory, hname]; rfl)
  | klineInventory symbol timeframe =>
    obtain ⟨hsymbol, htimeframe, -⟩ := hfinds
    exact found_answers hP (by unfold readCommand; simp +decide only [hroot, hsymbol, htimeframe]; rfl)
  | indicatorInventory symbol timeframe indicatorName =>
    obtain ⟨hsymbol, htimeframe, hindicatorName, -⟩ := hfinds
    exact found_answers hP (by
      unfold readCommand
      simp +decide only [hroot, hsymbol, htimeframe, hindicatorName]
      rfl)
  | scalarInventory symbol timeframe category name =>
    obtain ⟨hsymbol, htimeframe, hcategory, hname, -⟩ := hfinds
    exact found_answers hP (by
      unfold readCommand
      simp +decide only [hroot, hsymbol, htimeframe, hcategory, hname]
      rfl)
  | writeKlineRange symbol timeframe payload =>
    obtain ⟨hsymbol, htimeframe, -⟩ := hfinds
    exact write_answers hP (fun _ => by unfold writeKlineOptions; rw [hroot, hsymbol, htimeframe]; rfl) payload
  | writeIndicatorRange symbol timeframe indicatorName payload =>
    obtain ⟨hsymbol, htimeframe, hindicatorName, -⟩ := hfinds
    exact write_answers hP (fun _ => by
      unfold writeIndicatorOptions
      rw [hroot, hsymbol, htimeframe, hindicatorName]
      rfl) payload
  | writeScalarRange symbol timeframe category name payload =>
    obtain ⟨hsymbol, htimeframe, hcategory, hname, -⟩ := hfinds
    exact write_answers hP (fun _ => by
      unfold writeScalarOptions
      rw [hroot, hsymbol, htimeframe, hcategory, hname]
      rfl) payload
  | verifySnapshot digest =>
    have hdigest : o.get "digest".toList = digest := (ho _).trans (by cases digest <;> rfl)
    have hP : Plain digest.toList := by
      rwa [ClientCall.texts, List.map_map, show (Prod.snd ∘ fun t : Text => ("digest".toList, t)) = id from rfl,
        List.map_id] at hP
    exact found_answers hP (by unfold readCommand; simp +decide only [hroot, hdigest]; rfl)
  | readKlineLatest symbol timeframe limit =>
    obtain ⟨hsymbol, htimeframe, -⟩ := hfinds
    have hread : readCommand o "read-kline-latest".toList = .ok (.readKlineLatest root (latestOptions o)) := by
      unfold readCommand
      rw [if_pos rfl, hroot]
      rfl
    show AnswersAsked _ ((readCommand o "read-kline-latest".toList).mapError FastKError.bridge)
    rw [hread, ClientCall.asked]
    rcases latestOptions_eq ((ho _).trans rfl) hsymbol htimeframe with ⟨hlow, hhigh, hok⟩ | ⟨hnot, message, herr⟩
    · rw [if_pos ⟨hP, hlow, hhigh⟩, hok]
      rfl
    · rw [if_neg (fun h => hnot h.2), herr]
      exact .opened root message
  | queryScalarPredicate symbol timeframe category name startTs endTs predicate value min max values returnValues =>
    obtain ⟨hsymbol, htimeframe, hcategory, hname, -⟩ := hfinds
    have hflag : (o.get "return-values".toList).isSome = returnValues := by
      rw [ho]
      cases returnValues <;> rfl
    have hpredicate : Told (toldPredicate predicate value min max values) (parseScalarPredicate o) :=
      parseScalarPredicate_told ((ho _).trans rfl) ((ho _).trans (by cases value <;> rfl))
        ((ho _).trans (by cases min <;> rfl)) ((ho _).trans (by cases max <;> rfl))
        ((ho _).trans (by cases values <;> rfl))
    exact range_answers hP ((ho _).trans rfl) ((ho _).trans rfl)
      (hpredicate.map (fun p =>
        Command.queryScalarPredicate root symbol timeframe category name startTs endTs p returnValues))
      (by unfold readCommand; simp +decide only [hroot, hsymbol, htimeframe, hcategory, hname, hflag]; rfl)

theorem mistaken_optional {α : Type} (f : α → PyValue) (a : Option α) (hf : ∀ a, (f a).mistaken = false) :
    (ClientCall.optional f a).mistaken = false := by
  cases a with
  | none => rfl
  | some a => exact hf a

theorem choose_other {β : Type} {otherwise : β} {word : Text} {l : List (Text × β)} (h : ∀ p ∈ l, word ≠ p.1) :
    choose otherwise word l = otherwise := by
  induction l with
  | nil => rfl
  | cons p l ih => rw [choose, if_neg (h p List.mem_cons_self), ih (fun q hq => h q (List.mem_cons_of_mem p hq))]

/-- No predicate has the name of an option. -/
theorem toldPredicate_dashed {predicate : Text} (h : isDashed predicate = true) (value min max : Option Int)
    (values : Option (List Int)) :
    toldPredicate predicate value min max values = none := by
  have hword : ∀ word, isDashed word = false → predicate ≠ word := fun word hw heq => by
    rw [heq, hw] at h
    cases h
  refine choose_other (fun p hp => ?_)
  simp only [List.mem_cons, List.not_mem_nil, or_false] at hp
  rcases hp with rfl | rfl | rfl | rfl | rfl | rfl | rfl | rfl | rfl | rfl <;> exact hword _ rfl

/-- A call with an argument that the worker mistakes asks for nothing. -/
theorem plain_of_asked (h : c.asked payloads root ≠ none) : ∀ p ∈ c.options, p.2.mistaken = false := by
  have hint : ∀ n, (PyValue.int n).mistaken = false := fun n => not_isDashed_showInt n
  have hlist : ∀ ns, (PyValue.list ns).mistaken = false := fun ns => not_isDashed_commaList ns
  cases c with
  | queryScalarPredicate symbol timeframe category name startTs endTs predicate value min max values returnValues =>
    rw [ClientCall.asked] at h
    have hP : Plain [symbol, timeframe, category, name] := by
      by_contra hP
      exact h (if_neg (fun hall => hP hall.1))
    have hpredicate : isDashed predicate = false := by
      by_contra hd
      rw [toldPredicate_dashed (by simpa using hd)] at h
      exact h (by simp)
    have hvalue := mistaken_optional PyValue.int value hint
    have hmin := mistaken_optional PyValue.int min hint
    have hmax := mistaken_optional PyValue.int max hint
    have hvalues := mistaken_optional PyValue.list values hlist
    have hflag : (PyValue.bool returnValues).mistaken = false := by cases returnValues <;> decide
    simp_all [ClientCall.options, Plain, PyValue.mistaken, PyValue.text]
  | verifySnapshot digest =>
    cases digest with
    | none => simp [ClientCall.options, ClientCall.optional, PyValue.mistaken, PyValue.text]
    | some t => simp_all [ClientCall.asked, ClientCall.options, ClientCall.optional, Plain, PyValue.mistaken,
        PyValue.text]
  | _ => simp_all [ClientCall.asked, ClientCall.options, Plain, PyValue.mistaken, PyValue.text]

end Calls

/-- **The worker runs what a call of the client asks for, or refuses**: whatever the arguments, the command line of a
call is the command that the call asks for, where no text begins with two dashes, the numbers that it needs are there
and lie in the range of an `i64`, and the payload is one; else the worker refuses it, and has opened the store at
most.  No worker takes the call for the end of its session. -/
theorem client_asks {V : Type} (payloads : Payloads V) (c : ClientCall V) {root : Text}
    (hroot : isDashed root = false) :
    AnswersAsked (c.asked payloads root) (dispatch payloads (c.args root) c.payload) ∧
    ∀ lastId id, lastId < id → Request.refused lastId ⟨id, c.args root, c.payload⟩ = false := by
  refine ⟨?_, fun lastId id hid => ?_⟩
  · by_cases hc : c.command = "version".toList
    · cases c with
      | version =>
        show dispatch payloads _ _ = .ok .version
        rfl
      | _ => exact absurd hc (of_decide_eq_false rfl)
    · rw [dispatch_sent hc]
      cases hfind : (c.sent root).find? (fun p => p.2.mistaken) with
      | some p =>
        have hmem := List.mem_of_find?_eq_some hfind
        have hmistaken := List.find?_some hfind
        have hnone : c.asked payloads root = none := by
          by_contra hasked
          rcases List.mem_cons.1 hmem with rfl | hp
          · exact absurd (hroot.symm.trans hmistaken) (by simp)
          · exact absurd ((plain_of_asked hasked p hp).symm.trans hmistaken) (by simp)
        rw [hnone]
        exact .input _
      | none =>
        refine readRequest_answers hc (get_entries (names_sent root c)) (fun p hp => ?_)
        simpa using List.find?_eq_none.1 hfind p hp
  · have hhead : ∃ later, c.args root = c.command :: later := by cases c <;> exact ⟨_, rfl⟩
    have hreserved : reservedArgs.any (fun reserved => decide (reserved = c.command)) = false := by cases c <;> rfl
    obtain ⟨later, hargs⟩ := hhead
    unfold Request.refused
    simp only [hargs, List.isEmpty_cons, List.head?_cons, Option.any_some, hreserved, Bool.or_false,
      decide_eq_false_iff_not]
    omega

/-- Payloads that are requests already. -/
def sampleDecoded : Payloads WriteScalarRequest :=
  ⟨fun _ => .error "no klines", fun request => .ok request.records, .ok⟩

def sampleInSet : ClientCall WriteScalarRequest :=
  .queryScalarPredicate "BTC" "1m" "signal" "-x" (-5) 60000 "in-set" none none none (some [-1, 2]) true

/-- A limit below zero. -/
def sampleNegative : ClientCall WriteScalarRequest := .readKlineLatest "BTC" "1m" (-1)

/-- A timeframe that reads as an option. -/
def sampleDashed : ClientCall WriteScalarRequest := .writeKlineRange "BTC" "--root" ⟨none, []⟩

theorem client_asks_sample :
    dispatch sampleDecoded (sampleInSet.args "/data".toList) sampleInSet.payload =
      .ok (.queryScalarPredicate "/data" "BTC" "1m" "signal" "-x" (-5) 60000 (.inSet [-1, 2]) true) ∧
    TurnedDown (dispatch sampleDecoded (sampleNegative.args "/data".toList) sampleNegative.payload) ∧
    TurnedDown (dispatch sampleDecoded (sampleDashed.args "/data".toList) sampleDashed.payload) := by
  have hroot : isDashed "/data".toList = false := by decide
  have hasked : sampleInSet.asked sampleDecoded "/data".toList =
      some (.queryScalarPredicate "/data" "BTC" "1m" "signal" "-x" (-5) 60000 (.inSet [-1, 2]) true) := rfl
  have hanswer := (client_asks sampleDecoded sampleInSet hroot).1
  rw [hasked] at hanswer
  exact ⟨hanswer, (client_asks sampleDecoded sampleNegative hroot).1, (client_asks sampleDecoded sampleDashed hroot).1⟩

end FastK
