import FastK.Lib.Codec
import FastK.Records
import Mathlib.Data.Nat.Digits.Defs
import Mathlib.Tactic.Linarith
/-!
# Integers and strings as bytes

The fixed-width integers, least significant byte first, and the strings in UTF-8, as the formats of the store lay them
out (`to_le_bytes`, `from_le_bytes`, `String::from_utf8`).  A reader of a field gives back what `leBytes` wrote where
the value is one of the field's type (`reads_unsigned`, `reads_signed`).
-/
namespace FastK

open Codec

theorem length_leBytes : ∀ (w : Nat) (z : Int), (leBytes w z).length = w
  | 0, _ => rfl
  | w + 1, z => congrArg Nat.succ (length_leBytes w (z / 256))

theorem length_flatMap_of_const {α β : Type} {f : α → List β} {k : Nat} (h : ∀ a, (f a).length = k) : ∀ l :
    List α, (l.flatMap f).length = k * l.length
  | [] => rfl
  | a :: l => by
    rw [List.flatMap_cons, List.length_append, h a, length_flatMap_of_const h l, List.length_cons, Nat.mul_succ,
      Nat.add_comm]

/-! ## Integers -/

/-- `from_le_bytes` of an unsigned type. -/
def ofLeBytes (bytes : List Nat) : Nat := Nat.ofDigits 256 bytes

/-- `from_le_bytes` of a signed type, in two's complement. -/
def ofLeBytesSigned (bytes : List Nat) : Int := Int.bmod (ofLeBytes bytes) (256 ^ bytes.length)

/-- A value of the unsigned type of `w` bytes. -/
def Unsigned (w n : Nat) : Prop := n < 256 ^ w

/-- A value of the signed type of `w` bytes. -/
def Signed (w : Nat) (z : Int) : Prop := -(256 ^ w) ≤ z * 2 ∧ z * 2 < 256 ^ w

instance (w n : Nat) : Decidable (Unsigned w n) := inferInstanceAs (Decidable (_ < _))

instance (w : Nat) (z : Int) : Decidable (Signed w z) := inferInstanceAs (Decidable (_ ∧ _))

/-- The bytes of an integer are its residue. -/
theorem ofLeBytes_leBytes : ∀ (w : Nat) (z : Int), (ofLeBytes (leBytes w z) : Int) = z % 256 ^ w
  | 0, z => (Int.emod_one z).symm
  | w + 1, z => by
    have hlow : ((z % 256).toNat : Int) = z % 256 := Int.toNat_of_nonneg (Int.emod_nonneg z (by decide))
    have hcons : ofLeBytes (leBytes (w + 1) z) = (z % 256).toNat + 256 * ofLeBytes (leBytes w (z / 256)) := by
      unfold ofLeBytes
      rw [leBytes, Nat.ofDigits_cons]
    rw [hcons]
    push_cast
    rw [ofLeBytes_leBytes w (z / 256), hlow]
    have hbyte := Int.emod_add_mul_ediv z 256
    have hrest := Int.emod_add_mul_ediv (z / 256) (256 ^ w)
    have hall := Int.emod_add_mul_ediv z (256 ^ (w + 1))
    rw [show z / 256 ^ (w + 1) = z / 256 / 256 ^ w by rw [pow_succ', Int.ediv_ediv_of_nonneg (by decide)],
      pow_succ'] at hall
    rw [pow_succ']
    linarith

theorem ofLeBytes_unsigned {w n : Nat} (h : Unsigned w n) : ofLeBytes (leBytes w n) = n := by
  have hz := ofLeBytes_leBytes w n
  have hmod : ((n : Int) % 256 ^ w) = ((n % 256 ^ w : Nat) : Int) := by push_cast; rfl
  rw [hmod, Nat.mod_eq_of_lt h] at hz
  exact_mod_cast hz

theorem ofLeBytesSigned_signed {w : Nat} {z : Int} (h : Signed w z) : ofLeBytesSigned (leBytes w z) = z := by
  unfold ofLeBytesSigned
  rw [length_leBytes, ofLeBytes_leBytes]
  have hmod : z % 256 ^ w = z % ((256 ^ w : Nat) : Int) := by push_cast; rfl
  rw [hmod, Int.emod_bmod]
  refine Int.bmod_eq_of_le_mul_two ?_ ?_
  · push_cast
    exact h.1
  · push_cast
    exact h.2

section Fields

variable (short : FastKError) {w n : Nat} {z : Int}

/-- An unsigned field of `w` bytes; `short` is the error where the bytes end before it does. -/
def readUnsigned (w : Nat) : Reader Nat FastKError Nat := do
  let bytes ← take short w
  return ofLeBytes bytes

/-- A signed field of `w` bytes. -/
def readSigned (w : Nat) : Reader Nat FastKError Int := do
  let bytes ← take short w
  return ofLeBytesSigned bytes

variable {short}

/-- Any bytes of the length of the field are a value. -/
theorem reads_field {tokens : List Nat} (h : tokens.length = w) :
    Reads (readUnsigned short w) tokens (ofLeBytes tokens) :=
  (reads_take h).andThen (reads_pure _)

theorem reads_unsigned (h : Unsigned w n) : Reads (readUnsigned short w) (leBytes w n) n := by
  have hr : Reads (readUnsigned short w) (leBytes w n) (ofLeBytes (leBytes w n)) := reads_field (length_leBytes w n)
  rwa [ofLeBytes_unsigned h] at hr

theorem reads_signed (h : Signed w z) : Reads (readSigned short w) (leBytes w z) z := by
  have hr : Reads (readSigned short w) (leBytes w z) (ofLeBytesSigned (leBytes w z)) :=
    (reads_take (length_leBytes w z)).andThen (reads_pure _)
  rwa [ofLeBytesSigned_signed h] at hr

/-- A field of bytes is of its type. -/
theorem yields_unsigned : Yields (· < 256) (Unsigned w) (readUnsigned short w) :=
  yields_take.bind (fun bytes hb => yields_pure (by
    unfold Unsigned ofLeBytes
    rw [← hb.1]
    exact Nat.ofDigits_lt_base_pow_length (by decide) hb.2))

theorem yields_signed : Yields (· < 256) (fun _ => True) (readSigned short w) :=
  yields_take.bind (fun _ _ => yields_pure trivial)

end Fields

/-! ## Strings -/

/-- The UTF-8 bytes of a text. -/
def utf8 (t : Text) : List Nat := t.flatMap (fun c => (String.utf8EncodeChar c).map UInt8.toNat)

/-- `String::from_utf8`. -/
def fromUtf8 (bytes : List Nat) : Option Text := (bytes.map UInt8.ofNat).toByteArray.utf8Decode?.map Array.toList

theorem fromUtf8_utf8 (t : Text) : fromUtf8 (utf8 t) = some t := by
  have hbytes : ((utf8 t).map UInt8.ofNat).toByteArray = t.utf8Encode := by
    unfold utf8
    rw [List.map_flatMap]
    simp [List.utf8Encode, List.map_map, Function.comp_def]
  unfold fromUtf8
  rw [hbytes, List.utf8Decode?_utf8Encode]
  rfl

end FastK
