import FastK.Types
/-!
# Records

The fixed-width record types and the contract they share (`types/fixed.rs`, `kline/record.rs`, `feature/scalar.rs`).
A chunk stores its rows as `Record`, the sum of the five types; a type's `encode` and `decode` name its own rows in
it.  `validateStrictOrder` accepts exactly the non-empty lists in timestamp order, strict unless the type allows
equal timestamps (`validateStrictOrder_eq_ok`).
-/
namespace FastK

/-- The signed 64-bit integers. -/
def I64 := { z : Int // -(2 ^ 63) ≤ z ∧ z < 2 ^ 63 }

instance : DecidableEq I64 := inferInstanceAs (DecidableEq { z : Int // -(2 ^ 63) ≤ z ∧ z < 2 ^ 63 })

instance : Repr I64 := ⟨fun z p => reprPrec z.val p⟩

def i64Min : Int := -(2 ^ 63)
def i64Max : Int := 2 ^ 63 - 1

/-- `i64::saturating_sub`. -/
def satSub (a b : Int) : Int := max i64Min (min i64Max (a - b))

structure KlineRecord where
  ts : Int
  openPrice : Int
  high : Int
  low : Int
  close : Int
  volume : Int
  deriving DecidableEq, Repr

structure ScalarRecord where
  ts : Int
  value : I64
  deriving DecidableEq, Repr

structure TradeRecord where
  ts : Int
  recvTs : Int
  tradeId : Int
  price : Int
  qty : Int
  side : Int
  flags : Nat
  pad : List Nat
  deriving DecidableEq, Repr

structure BboRecord where
  ts : Int
  recvTs : Int
  bidPrice : Int
  bidQty : Int
  askPrice : Int
  askQty : Int
  sequence : Int
  deriving DecidableEq, Repr

structure BookDeltaRecord where
  ts : Int
  recvTs : Int
  sequence : Int
  price : Int
  qty : Int
  side : Int
  action : Int
  level : Int
  flags : Nat
  deriving DecidableEq, Repr

/-- A stored row of any type. -/
inductive Record where
  | kline (r : KlineRecord)
  | scalar (r : ScalarRecord)
  | trade (r : TradeRecord)
  | bbo (r : BboRecord)
  | bookDelta (r : BookDeltaRecord)
  deriving DecidableEq, Repr

/-- The first eight bytes of every row. -/
def Record.ts : Record → Int
  | .kline r => r.ts
  | .scalar r => r.ts
  | .trade r => r.ts
  | .bbo r => r.ts
  | .bookDelta r => r.ts

/-- The `w` bytes of an integer, least significant first, in two's complement. -/
def leBytes : Nat → Int → List Nat
  | 0, _ => []
  | w + 1, z => (z % 256).toNat :: leBytes w (z / 256)

def Record.encodeLe : Record → List Nat
  | .kline r => [r.ts, r.openPrice, r.high, r.low, r.close, r.volume].flatMap (leBytes 8)
  | .scalar r => [r.ts, r.value.val].flatMap (leBytes 8)
  | .trade r => [r.ts, r.recvTs, r.tradeId, r.price, r.qty].flatMap (leBytes 8) ++ leBytes 1 r.side ++
      [r.flags] ++ r.pad
  | .bbo r => [r.ts, r.recvTs, r.bidPrice, r.bidQty, r.askPrice, r.askQty, r.sequence].flatMap (leBytes 8)
  | .bookDelta r =>
    [r.ts, r.recvTs, r.sequence, r.price, r.qty].flatMap (leBytes 8) ++ leBytes 1 r.side ++ leBytes 1 r.action ++
      leBytes 2 r.level ++ leBytes 4 r.flags

def klineSchemaId : Nat := 1
def scalarSchemaId : Nat := 2
def tradeSchemaId : Nat := 10
def bboSchemaId : Nat := 11
def bookDeltaSchemaId : Nat := 12

/-- The contract of a fixed-width timestamped record type. -/
class FixedRecord (R : Type) where
  byteSize : Nat
  schemaId : Nat
  recordType : RecordType
  allowEqualTimestamps : Bool
  ts : R → Int
  encode : R → Record
  decode : Record → Option R
  decode_encode : ∀ r, decode (encode r) = some r
  ts_encode : ∀ r, (encode r).ts = ts r
  byteSize_pos : 0 < byteSize

instance : FixedRecord KlineRecord where
  byteSize := 48
  schemaId := klineSchemaId
  recordType := .kline
  allowEqualTimestamps := false
  ts := KlineRecord.ts
  encode := .kline
  decode := fun | .kline r => some r | _ => none
  decode_encode := fun _ => rfl
  ts_encode := fun _ => rfl
  byteSize_pos := by decide

instance : FixedRecord ScalarRecord where
  byteSize := 16
  schemaId := scalarSchemaId
  recordType := .scalar
  allowEqualTimestamps := false
  ts := ScalarRecord.ts
  encode := .scalar
  decode := fun | .scalar r => some r | _ => none
  decode_encode := fun _ => rfl
  ts_encode := fun _ => rfl
  byteSize_pos := by decide

instance : FixedRecord TradeRecord where
  byteSize := 48
  schemaId := tradeSchemaId
  recordType := .trade
  allowEqualTimestamps := true
  ts := TradeRecord.ts
  encode := .trade
  decode := fun | .trade r => some r | _ => none
  decode_encode := fun _ => rfl
  ts_encode := fun _ => rfl
  byteSize_pos := by decide

instance : FixedRecord BboRecord where
  byteSize := 56
  schemaId := bboSchemaId
  recordType := .bbo
  allowEqualTimestamps := false
  ts := BboRecord.ts
  encode := .bbo
  decode := fun | .bbo r => some r | _ => none
  decode_encode := fun _ => rfl
  ts_encode := fun _ => rfl
  byteSize_pos := by decide

instance : FixedRecord BookDeltaRecord where
  byteSize := 48
  schemaId := bookDeltaSchemaId
  recordType := .bookDelta
  allowEqualTimestamps := true
  ts := BookDeltaRecord.ts
  encode := .bookDelta
  decode := fun | .bookDelta r => some r | _ => none
  decode_encode := fun _ => rfl
  ts_encode := fun _ => rfl
  byteSize_pos := by decide

/-- The rows of a record type. -/
def RecordType.Row : RecordType → Type
  | .kline => KlineRecord
  | .scalar => ScalarRecord
  | .trade => TradeRecord
  | .bbo => BboRecord
  | .bookDelta => BookDeltaRecord

instance (t : RecordType) : FixedRecord t.Row :=
  match t with
  | .kline => inferInstanceAs (FixedRecord KlineRecord)
  | .scalar => inferInstanceAs (FixedRecord ScalarRecord)
  | .trade => inferInstanceAs (FixedRecord TradeRecord)
  | .bbo => inferInstanceAs (FixedRecord BboRecord)
  | .bookDelta => inferInstanceAs (FixedRecord BookDeltaRecord)

theorem RecordType.recordType_row (t : RecordType) : FixedRecord.recordType t.Row = t := by cases t <;> rfl

/-! ## Timestamp order -/

/-- The loop over neighbouring rows, with the order it refuses and the message it gives. -/
def checkWindows (violates : Int → Int → Bool) (msg : Int → Int → Text) : List Int → Result Unit
  | [] => .ok ()
  | [_] => .ok ()
  | a :: b :: rest =>
    if violates a b then .error (.invalidInput (msg a b)) else checkWindows violates msg (b :: rest)

def strictViolation (a b : Int) : Bool := decide (b ≤ a)

def weakViolation (a b : Int) : Bool := decide (b < a)

section Order

variable (R : Type) [FixedRecord R]

/-- The order two neighbouring rows of the type must keep. -/
def InOrder (a b : Int) : Prop := if FixedRecord.allowEqualTimestamps R then a ≤ b else a < b

/-- `FixedRecord::validate_strict_order`. -/
def validateStrictOrder (records : List R) : Result Unit :=
  if records.isEmpty then .error (.invalidInput "fixed-record chunk must contain at least one record")
  else
    checkWindows (if FixedRecord.allowEqualTimestamps R then weakViolation else strictViolation)
      (fun a b => words ["timestamps must be ordered: ", showInt a, " before ", showInt b])
      (records.map FixedRecord.ts)

end Order

/-- `KlineRecord::validate_strict_order`, which hides the trait's own. -/
def KlineRecord.validateStrictOrder (records : List KlineRecord) : Result Unit :=
  if records.isEmpty then .error (.invalidInput "kline chunk must contain at least one record")
  else
    checkWindows strictViolation
      (fun a b => words ["timestamps must be strictly increasing: ", showInt a, " >= ", showInt b])
      (records.map KlineRecord.ts)

/-- `ScalarRecord::validate_strict_order`. -/
def ScalarRecord.validateStrictOrder (records : List ScalarRecord) : Result Unit :=
  if records.isEmpty then .error (.invalidInput "scalar records must not be empty")
  else
    checkWindows strictViolation
      (fun a b => words ["scalar timestamps must be strictly increasing: ", showInt a, " >= ", showInt b])
      (records.map ScalarRecord.ts)

/-- The loop accepts exactly the lists in order, for an order that is transitive. -/
theorem checkWindows_eq_ok {violates : Int → Int → Bool} {msg : Int → Int → Text} {r : Int → Int → Prop}
    (hr : ∀ a b, violates a b = false ↔ r a b) (htrans : ∀ a b c, r a b → r b c → r a c) :
    ∀ (l : List Int), checkWindows violates msg l = .ok () ↔ l.Pairwise r
  | [] => by simp [checkWindows]
  | [a] => by simp [checkWindows]
  | a :: b :: rest => by
    unfold checkWindows
    have ih : checkWindows violates msg (b :: rest) = .ok () ↔ (b :: rest).Pairwise r :=
      checkWindows_eq_ok hr htrans (b :: rest)
    cases hv : violates a b with
    | true =>
      rw [if_pos rfl]
      simp only [reduceCtorEq, false_iff]
      intro hp
      have := (hr a b).2 (List.rel_of_pairwise_cons hp (by simp))
      rw [hv] at this; cases this
    | false =>
      rw [if_neg (by simp), ih]
      refine ⟨fun hp => List.pairwise_cons.2 ⟨fun c hc => ?_, hp⟩, List.Pairwise.of_cons⟩
      have hab := (hr a b).1 hv
      rcases List.mem_cons.1 hc with rfl | hc
      · exact hab
      · exact htrans a b c hab (List.rel_of_pairwise_cons hp hc)

theorem strictViolation_eq_false {a b : Int} : strictViolation a b = false ↔ a < b := by
  unfold strictViolation
  rw [decide_eq_false_iff_not, not_le]

theorem weakViolation_eq_false {a b : Int} : weakViolation a b = false ↔ a ≤ b := by
  unfold weakViolation
  rw [decide_eq_false_iff_not, not_lt]

section Order

variable {R : Type} [FixedRecord R]

theorem InOrder.trans {a b c : Int} (h1 : InOrder R a b) (h2 : InOrder R b c) : InOrder R a c := by
  unfold InOrder at *
  split at h1
  · rename_i h
    rw [if_pos h] at h2 ⊢
    omega
  · rename_i h
    rw [if_neg h] at h2 ⊢
    omega

theorem InOrder.le {a b : Int} (h : InOrder R a b) : a ≤ b := by
  unfold InOrder at h
  split at h <;> omega

theorem inOrder_of_lt {a b : Int} (h : a < b) : InOrder R a b := by
  unfold InOrder
  split <;> omega

/-- The rows are in the timestamp order of their type. -/
def Ordered (records : List R) : Prop := records.Pairwise (fun a b => InOrder R (FixedRecord.ts a) (FixedRecord.ts b))

/-- **The check accepts the non-empty lists in order, and no others.** -/
theorem validateStrictOrder_eq_ok {records : List R} :
    validateStrictOrder R records = .ok () ↔ records ≠ [] ∧ Ordered records := by
  unfold validateStrictOrder Ordered
  cases records with
  | nil => simp
  | cons r rs =>
    rw [if_neg (by simp)]
    have hspec : ∀ a b, (if FixedRecord.allowEqualTimestamps R then weakViolation else strictViolation) a b = false
        ↔ InOrder R a b := by
      intro a b
      unfold InOrder
      cases FixedRecord.allowEqualTimestamps R with
      | true => exact weakViolation_eq_false
      | false => exact strictViolation_eq_false
    rw [checkWindows_eq_ok hspec (fun a b c => InOrder.trans), List.pairwise_map]
    simp

theorem ordered_iff_strict (h : FixedRecord.allowEqualTimestamps R = false) {records : List R} :
    Ordered records ↔ records.Pairwise (fun a b => FixedRecord.ts a < FixedRecord.ts b) := by
  unfold Ordered InOrder
  rw [h]
  simp

end Order

theorem ordered_klines {records : List KlineRecord} : Ordered records ↔ records.Pairwise (fun a b => a.ts < b.ts) :=
  ordered_iff_strict rfl

theorem ordered_scalars {records : List ScalarRecord} : Ordered records ↔ records.Pairwise (fun a b => a.ts < b.ts) :=
  ordered_iff_strict rfl

theorem checkWindows_strict {R : Type} [FixedRecord R] (h : FixedRecord.allowEqualTimestamps R = false)
    {records : List R} {msg : Int → Int → Text} :
    checkWindows strictViolation msg (records.map FixedRecord.ts) = .ok () ↔ Ordered records := by
  rw [checkWindows_eq_ok (fun a b => @strictViolation_eq_false a b) (fun _ _ _ => lt_trans), List.pairwise_map,
    ordered_iff_strict h]

theorem KlineRecord.validateStrictOrder_ok {records : List KlineRecord} :
    KlineRecord.validateStrictOrder records = .ok () ↔ records ≠ [] ∧ Ordered records := by
  unfold KlineRecord.validateStrictOrder
  cases records with
  | nil => simp
  | cons r rs =>
    rw [if_neg (by simp), ← checkWindows_strict (R := KlineRecord) rfl]
    simp only [ne_eq, reduceCtorEq, not_false_eq_true, true_and]
    rfl

theorem ScalarRecord.validateStrictOrder_ok {records : List ScalarRecord} :
    ScalarRecord.validateStrictOrder records = .ok () ↔ records ≠ [] ∧ Ordered records := by
  unfold ScalarRecord.validateStrictOrder
  cases records with
  | nil => simp
  | cons r rs =>
    rw [if_neg (by simp), ← checkWindows_strict (R := ScalarRecord) rfl]
    simp only [ne_eq, reduceCtorEq, not_false_eq_true, true_and]
    rfl

end FastK
