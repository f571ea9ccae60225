import FastK.Lib.Text
/-!
# Decimal numerals

Signed decimals read the way a bounded integer type reads them: an optional sign, then digits that are added up from
the left, with an error at the first character that is no digit and at the first step that leaves the range.  A number
that is written out is read back exactly where it lies in the range (`parse_toString`), also from a list with commas
(`splitOn_commaList`).
-/
namespace Numerals

inductive IntErrorKind where
  | empty
  | invalidDigit
  | posOverflow
  | negOverflow
  deriving DecidableEq, Repr

/-- The text of an error (`Display`). -/
def IntErrorKind.display : IntErrorKind → Text
  | .empty => "cannot parse integer from empty string".toList
  | .invalidDigit => "invalid digit found in string".toList
  | .posOverflow => "number too large to fit in target type".toList
  | .negOverflow => "number too small to fit in target type".toList

/-- `str::trim`. -/
def trim (t : Text) : Text := ((t.dropWhile Text.isWhiteSpace).reverse.dropWhile Text.isWhiteSpace).reverse

/-- The characters of a list of texts with commas in between. -/
def commaList (parts : List Text) : Text := [','].intercalate parts

section Reading

variable (lo hi : Int)

/-- The digits from the left, on top of what is there already; each of the two steps of a digit is checked. -/
def accumulate (negative : Bool) : Text → Int → Except IntErrorKind Int
  | [], sum => .ok sum
  | c :: rest, sum =>
    if c.isDigit then
      let digit : Int := (c.toNat - '0'.toNat : Nat)
      let next := if negative then 10 * sum - digit else 10 * sum + digit
      if lo ≤ 10 * sum ∧ 10 * sum ≤ hi ∧ lo ≤ next ∧ next ≤ hi then accumulate negative rest next
      else .error (if negative then .negOverflow else .posOverflow)
    else .error .invalidDigit

/-- `str::parse` of a signed integer type with these bounds. -/
def parse : Text → Except IntErrorKind Int
  | [] => .error .empty
  | c :: rest =>
    if c = '-' ∨ c = '+' then
      if rest = [] then .error .invalidDigit else accumulate lo hi (decide (c = '-')) rest 0
    else accumulate lo hi false (c :: rest) 0

variable {lo hi}

/-- What is added up so far is part of the number. -/
theorem le_ofDigitChars : ∀ (ds : Text) (n : Nat), n ≤ Nat.ofDigitChars 10 ds n
  | [], n => by simp
  | c :: ds, n => by
    rw [Nat.ofDigitChars_cons]
    exact le_trans (by omega) (le_ofDigitChars ds _)

theorem accumulate_pos (hlo : lo ≤ 0) : ∀ (ds : Text) (n : Nat), (∀ c ∈ ds, c.isDigit = true) → (n : Int) ≤ hi →
    accumulate lo hi false ds n =
    if (Nat.ofDigitChars 10 ds n : Int) ≤ hi then .ok (Nat.ofDigitChars 10 ds n : Int) else .error .posOverflow
  | [], n, _, hn => by simp [accumulate, hn]
  | c :: ds, n, hds, hn => by
    have hnext : 10 * (n : Int) + ((c.toNat - '0'.toNat : Nat) : Int) =
      ((10 * n + (c.toNat - '0'.toNat) : Nat) : Int) := by push_cast; rfl
    have hle := le_ofDigitChars ds (10 * n + (c.toNat - '0'.toNat))
    simp only [accumulate, hds c List.mem_cons_self, if_true, Bool.false_eq_true, if_false,
      Nat.ofDigitChars_cons, hnext]
    by_cases hfit : ((10 * n + (c.toNat - '0'.toNat) : Nat) : Int) ≤ hi
    · rw [if_pos ⟨by omega, by omega, by omega, hfit⟩]
      exact accumulate_pos hlo ds _ (fun d hd => hds d (List.mem_cons_of_mem c hd)) hfit
    · rw [if_neg (fun hall => hfit hall.2.2.2), if_neg (by omega)]

theorem accumulate_neg (hhi : 0 ≤ hi) : ∀ (ds : Text) (n : Nat), (∀ c ∈ ds, c.isDigit = true) → lo ≤ -(n : Int) →
    accumulate lo hi true ds (-(n : Int)) =
    if lo ≤ -(Nat.ofDigitChars 10 ds n : Int) then .ok (-(Nat.ofDigitChars 10 ds n : Int)) else .error .negOverflow
  | [], n, _, hn => by simp [accumulate, hn]
  | c :: ds, n, hds, hn => by
    have hnext : 10 * -(n : Int) - ((c.toNat - '0'.toNat : Nat) : Int) =
      -((10 * n + (c.toNat - '0'.toNat) : Nat) : Int) := by push_cast; omega
    have hle := le_ofDigitChars ds (10 * n + (c.toNat - '0'.toNat))
    simp only [accumulate, hds c List.mem_cons_self, if_true, Nat.ofDigitChars_cons, hnext]
    by_cases hfit : lo ≤ -((10 * n + (c.toNat - '0'.toNat) : Nat) : Int)
    · rw [if_pos ⟨by omega, by omega, hfit, by omega⟩]
      exact accumulate_neg hhi ds _ (fun d hd => hds d (List.mem_cons_of_mem c hd)) hfit
    · rw [if_neg (fun hall => hfit hall.2.2.1), if_neg (by omega)]

theorem isDigit_of_mem_toDigits {n : Nat} {c : Char} (h : c ∈ Nat.toDigits 10 n) : c.isDigit = true :=
  Nat.isDigit_of_mem_toDigits (by decide) (by decide) h

theorem toList_toString : ∀ z : Int, (toString z).toList =
    if z < 0 then '-' :: Nat.toDigits 10 z.natAbs else Nat.toDigits 10 z.natAbs
  | .ofNat n => by
    rw [if_neg (by simp)]
    exact Nat.toList_repr
  | .negSucc n => by
    rw [if_pos (Int.negSucc_lt_zero n)]
    show ("-" ++ (n + 1).repr).toList = _
    rw [String.toList_append, Nat.toList_repr]
    rfl

/-- **A number that is written out is read back, or is out of range.** -/
theorem parse_toString (hlo : lo ≤ 0) (hhi : 0 ≤ hi) (z : Int) : parse lo hi (toString z).toList =
    if lo ≤ z ∧ z ≤ hi then .ok z else .error (if z < 0 then .negOverflow else .posOverflow) := by
  have hdigits : ∀ c ∈ Nat.toDigits 10 z.natAbs, c.isDigit = true := fun c hc => isDigit_of_mem_toDigits hc
  have hne : Nat.toDigits 10 z.natAbs ≠ [] := Nat.toDigits_ne_nil
  rw [toList_toString]
  by_cases hz : z < 0
  · have habs : -(z.natAbs : Int) = z := by omega
    have hsum := accumulate_neg hhi (Nat.toDigits 10 z.natAbs) 0 hdigits
      (show lo ≤ -((0 : Nat) : Int) by simpa using hlo)
    rw [Nat.ofDigitChars_ten_toDigits, habs] at hsum
    rw [if_pos hz, parse, if_pos (.inl rfl), if_neg hne]
    rw [show (-((0 : Nat) : Int)) = 0 from rfl] at hsum
    rw [decide_eq_true rfl, hsum]
    by_cases hfit : lo ≤ z
    · rw [if_pos hfit, if_pos ⟨hfit, by omega⟩]
    · rw [if_neg hfit, if_neg (fun h => hfit h.1), if_pos hz]
  · have habs : (z.natAbs : Int) = z := by omega
    have hsum := accumulate_pos hlo (Nat.toDigits 10 z.natAbs) 0 hdigits (show ((0 : Nat) : Int) ≤
      hi by simpa using hhi)
    rw [Nat.ofDigitChars_ten_toDigits, habs, show ((0 : Nat) : Int) = 0 from rfl] at hsum
    obtain ⟨c, ds, hcs⟩ := List.exists_cons_of_ne_nil hne
    have hc := hdigits c (by simp [hcs])
    rw [if_neg hz, hcs, parse, if_neg (by rintro (rfl | rfl) <;> exact absurd hc (by decide)), ← hcs, hsum]
    by_cases hfit : z ≤ hi
    · rw [if_pos hfit, if_pos ⟨by omega, hfit⟩]
    · rw [if_neg hfit, if_neg (fun h => hfit h.2), if_neg hz]

end Reading

/-! ## Lists of numerals -/

theorem mem_toString {z : Int} {c : Char} (h : c ∈ (toString z).toList) : c = '-' ∨ c.isDigit = true := by
  rw [toList_toString] at h
  split at h
  · exact (List.mem_cons.1 h).imp id isDigit_of_mem_toDigits
  · exact .inr (isDigit_of_mem_toDigits h)

theorem toString_ne_nil (z : Int) : (toString z).toList ≠ [] := by
  rw [toList_toString]
  split
  · exact List.cons_ne_nil _ _
  · exact Nat.toDigits_ne_nil

/-- The second character is a digit. -/
theorem toString_not_dashes (z : Int) : ¬ "--".toList <+: (toString z).toList := by
  rw [toList_toString]
  rintro ⟨rest, hrest⟩
  split at hrest
  · have hmem : '-' ∈ Nat.toDigits 10 z.natAbs := by
      rw [← (List.cons.inj hrest).2]
      exact List.mem_cons_self
    exact absurd (isDigit_of_mem_toDigits hmem) (by decide)
  · have hmem : '-' ∈ Nat.toDigits 10 z.natAbs := by
      rw [← hrest]
      exact List.mem_cons_self
    exact absurd (isDigit_of_mem_toDigits hmem) (by decide)

theorem not_isWhiteSpace_of_mem {z : Int} {c : Char} (h : c ∈ (toString z).toList) : Text.isWhiteSpace c = false := by
  rcases mem_toString h with rfl | hd
  · decide
  · have hrange : 48 ≤ c.toNat ∧ c.toNat ≤ 57 := by
      simp only [Char.isDigit, Bool.and_eq_true, decide_eq_true_eq] at hd
      exact ⟨UInt32.le_iff_toNat_le.1 hd.1, UInt32.le_iff_toNat_le.1 hd.2⟩
    unfold Text.isWhiteSpace
    simp only [Bool.or_eq_false_iff, Bool.and_eq_false_iff, decide_eq_false_iff_not, beq_eq_false_iff_ne]
    omega

theorem trim_eq_self {t : Text} (h : ∀ c ∈ t, Text.isWhiteSpace c = false) : trim t = t := by
  have hdrop : ∀ {s : Text}, (∀ c ∈ s, Text.isWhiteSpace c = false) → s.dropWhile Text.isWhiteSpace = s := by
    intro s hs
    cases s with
    | nil => rfl
    | cons c s => rw [List.dropWhile_cons, hs c List.mem_cons_self, if_neg (by simp)]
  unfold trim
  rw [hdrop h, hdrop (fun c hc => h c (List.mem_reverse.1 hc)), List.reverse_reverse]

theorem trim_toString (z : Int) : trim (toString z).toList = (toString z).toList :=
  trim_eq_self (fun _ h => not_isWhiteSpace_of_mem h)

/-- **A list of numbers is taken apart as it was put together.** -/
theorem splitOn_commaList {zs : List Int} (h : zs ≠ []) :
    (commaList (zs.map (fun z => (toString z).toList))).splitOn ',' = zs.map (fun z => (toString z).toList) := by
  refine List.splitOn_intercalate ',' (fun t ht hcomma => ?_) (by simpa using h)
  obtain ⟨z, -, rfl⟩ := List.mem_map.1 ht
  rcases mem_toString hcomma with hd | hd <;> exact absurd hd (by decide)

theorem commaList_cons (t : Text) (ts : List Text) :
    commaList (t :: ts) = t ++ (if ts = [] then [] else ',' :: commaList ts) := by
  cases ts with
  | nil => simp [commaList, List.intercalate]
  | cons u us => simp [commaList, List.intercalate]

/-- A list of numbers is blank only if it is empty. -/
theorem isBlank_commaList (zs : List Int) :
    Text.isBlank (commaList (zs.map (fun z => (toString z).toList))) = decide (zs = []) := by
  cases zs with
  | nil => rfl
  | cons z zs =>
    obtain ⟨c, cs, hcs⟩ := List.exists_cons_of_ne_nil (toString_ne_nil z)
    have hc : Text.isWhiteSpace c = false := not_isWhiteSpace_of_mem (z := z) (by rw [hcs]; exact List.mem_cons_self)
    rw [List.map_cons, commaList_cons, hcs, Text.isBlank, List.cons_append, List.all_cons, hc, Bool.false_and]
    rfl

theorem commaList_not_dashes (zs : List Int) : ¬ "--".toList <+: commaList (zs.map (fun z => (toString z).toList)) := by
  cases zs with
  | nil => decide
  | cons z zs =>
    rw [List.map_cons, commaList_cons]
    intro h
    by_cases hlen : 2 ≤ (toString z).toList.length
    · exact toString_not_dashes z (List.prefix_of_prefix_length_le h (List.prefix_append _ _) hlen)
    · obtain ⟨c, cs, hcs⟩ := List.exists_cons_of_ne_nil (toString_ne_nil z)
      have hnil : cs = [] := by
        rw [hcs, List.length_cons] at hlen
        exact List.eq_nil_of_length_eq_zero (by omega)
      subst hnil
      -- a numeral of one character is a digit
      have hc : c.isDigit = true := by
        rw [toList_toString] at hcs
        split at hcs
        · exact absurd (List.cons.inj hcs).2 Nat.toDigits_ne_nil
        · exact isDigit_of_mem_toDigits (by rw [hcs]; exact List.mem_cons_self)
      rw [hcs] at h
      obtain ⟨rest, hrest⟩ := h
      have heq : '-' = c := (List.cons.inj hrest).1
      rw [← heq] at hc
      exact absurd hc (by decide)

end Numerals
