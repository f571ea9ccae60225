import Mathlib.Data.List.Basic
import Mathlib.Data.List.Infix
/-!
# Text as a list of characters

Zero-padded decimals, cutting at the last separator, and blankness, as the formatting and path functions of the
standard library have them.  Padded decimals are injective (`pad_injective`, `padInt_injective`) and hold digits only
(`pad_isDigit`), so a text assembled from them with separators can be taken apart again.
-/
abbrev Text := List Char

namespace Text

/-- `{n:0w}`. -/
def pad (w n : Nat) : Text := List.replicate (w - (Nat.toDigits 10 n).length) '0' ++ Nat.toDigits 10 n

/-- `{z:0w}`: the sign counts towards the width. -/
def padInt (w : Nat) : Int → Text
  | .ofNat n => pad w n
  | .negSucc n => '-' :: pad (w - 1) (n + 1)

/-- `str::contains`. -/
def contains (t needle : Text) : Bool := decide (needle <:+: t)

/-- `str::ends_with`. -/
def endsWith (t suffix : Text) : Bool := decide (suffix <:+ t)

/-- `str::rsplit_once`: the parts before and after the last `c`. -/
def rsplitOnce (c : Char) : Text → Option (Text × Text)
  | [] => none
  | x :: xs =>
    match rsplitOnce c xs with
    | some (a, b) => some (x :: a, b)
    | none => if x = c then some ([], xs) else none

/-- `str::split_once`: the parts before and after the first separator. -/
def splitOnce (sep : Text) : Text → Option (Text × Text)
  | [] => if sep.isEmpty then some ([], []) else none
  | x :: xs =>
    if sep.isPrefixOf (x :: xs) then some ([], (x :: xs).drop sep.length)
    else (splitOnce sep xs).map (fun p => (x :: p.1, p.2))

/-- The part after the last `c`, or the whole text (`str::rsplit(c).next()`). -/
def afterLast (c : Char) (t : Text) : Text :=
  match rsplitOnce c t with
  | some (_, b) => b
  | none => t

/-- The Unicode property `White_Space`. -/
def isWhiteSpace (c : Char) : Bool :=
  let n := c.toNat
  (9 ≤ n && n ≤ 13) || n == 32 || n == 0x85 || n == 0xA0 || n == 0x1680 || (0x2000 ≤ n && n ≤ 0x200A) ||
    n == 0x2028 || n == 0x2029 || n == 0x202F || n == 0x205F || n == 0x3000

/-- `t.trim().is_empty()`. -/
def isBlank (t : Text) : Bool := t.all isWhiteSpace

/-- The order of `str`: by code points, which is the order of the UTF-8 bytes. -/
def le : Text → Text → Bool
  | [], _ => true
  | _ :: _, [] => false
  | a :: as, b :: bs => decide (a.toNat < b.toNat) || (decide (a = b) && le as bs)

theorem le_total : ∀ (a b : Text), le a b = true ∨ le b a = true
  | [], _ => .inl rfl
  | _ :: _, [] => .inr rfl
  | a :: as, b :: bs => by
    unfold le
    simp only [Bool.or_eq_true, Bool.and_eq_true, decide_eq_true_eq]
    rcases Nat.lt_trichotomy a.toNat b.toNat with h | h | h
    · exact .inl (.inl h)
    · have hab : a = b := Char.toNat_inj.1 h
      rcases le_total as bs with hl | hl
      · exact .inl (.inr ⟨hab, hl⟩)
      · exact .inr (.inr ⟨hab.symm, hl⟩)
    · exact .inr (.inl h)

theorem le_trans : ∀ {a b c : Text}, le a b = true → le b c = true → le a c = true
  | [], _, _, _, _ => rfl
  | _ :: _, [], _, h, _ => by cases h
  | _ :: _, _ :: _, [], _, h => by cases h
  | a :: as, b :: bs, c :: cs, h1, h2 => by
    unfold le at h1 h2 ⊢
    simp only [Bool.or_eq_true, Bool.and_eq_true, decide_eq_true_eq] at h1 h2 ⊢
    rcases h1 with h1 | ⟨rfl, h1⟩
    · rcases h2 with h2 | ⟨rfl, -⟩
      · exact .inl (by omega)
      · exact .inl h1
    · rcases h2 with h2 | ⟨rfl, h2⟩
      · exact .inl h2
      · exact .inr ⟨rfl, le_trans h1 h2⟩

theorem le_antisymm : ∀ {a b : Text}, le a b = true → le b a = true → a = b
  | [], [], _, _ => rfl
  | [], _ :: _, _, h => by cases h
  | _ :: _, [], h, _ => by cases h
  | a :: as, b :: bs, h1, h2 => by
    unfold le at h1 h2
    simp only [Bool.or_eq_true, Bool.and_eq_true, decide_eq_true_eq] at h1 h2
    rcases h1 with h1 | ⟨rfl, h1⟩
    · rcases h2 with h2 | ⟨rfl, -⟩
      · omega
      · omega
    · rcases h2 with h2 | ⟨-, h2⟩
      · omega
      · rw [le_antisymm h1 h2]

theorem le_append_left (p : Text) {a b : Text} (h : le a b = true) : le (p ++ a) (p ++ b) = true := by
  induction p with
  | nil => exact h
  | cons c cs ih =>
    show (decide (c.toNat < c.toNat) || (decide (c = c) && le (cs ++ a) (cs ++ b))) = true
    simp [ih]

/-! ## Decimals -/

theorem pad_value {w n : Nat} : Nat.ofDigitChars 10 (pad w n) 0 = n := by
  unfold pad
  rw [Nat.ofDigitChars_append, Nat.ofDigitChars_replicate_zero, Nat.mul_zero, Nat.ofDigitChars_ten_toDigits]

theorem pad_injective {w m n : Nat} (h : pad w m = pad w n) : m = n := by
  rw [← @pad_value w m, h, pad_value]

theorem pad_isDigit {w n : Nat} {c : Char} (hc : c ∈ pad w n) : c.isDigit = true := by
  rcases List.mem_append.1 hc with h | h
  · rw [(List.mem_replicate.1 h).2]
    rfl
  · exact Nat.isDigit_of_mem_toDigits (by decide) (by decide) h

theorem padInt_injective {w : Nat} : ∀ {a b : Int}, padInt w a = padInt w b → a = b
  | .ofNat m, .ofNat n, h => by rw [pad_injective h]
  | .negSucc m, .negSucc n, h => by
    have := pad_injective (List.cons.inj h).2
    rw [Nat.succ.inj this]
  | .ofNat m, .negSucc n, h => by
    have hc : '-' ∈ pad w m := by
      rw [show pad w m = '-' :: pad (w - 1) (n + 1) from h]
      exact List.mem_cons_self
    exact absurd (pad_isDigit hc) (by decide)
  | .negSucc m, .ofNat n, h => by
    have hc : '-' ∈ pad w n := by
      rw [show pad w n = '-' :: pad (w - 1) (m + 1) from h.symm]
      exact List.mem_cons_self
    exact absurd (pad_isDigit hc) (by decide)

theorem mem_padInt {w : Nat} {z : Int} {c : Char} (hc : c ∈ padInt w z) : c = '-' ∨ c.isDigit = true := by
  cases z with
  | ofNat n => exact .inr (pad_isDigit hc)
  | negSucc n =>
    rcases List.mem_cons.1 hc with rfl | h
    · exact .inl rfl
    · exact .inr (pad_isDigit h)

/-! ## Separators -/

theorem rsplitOnce_none {c : Char} : ∀ {t : Text}, c ∉ t → rsplitOnce c t = none
  | [], _ => rfl
  | x :: xs, h => by
    rw [List.mem_cons, not_or] at h
    unfold rsplitOnce
    rw [rsplitOnce_none h.2]
    exact if_neg (fun hx => h.1 hx.symm)

/-- **The last separator is the one no other follows.** -/
theorem rsplitOnce_append {c : Char} {b : Text} (hb : c ∉ b) : ∀ (a : Text), rsplitOnce c (a ++ c :: b) = some (a, b)
  | [] => by
    rw [List.nil_append, rsplitOnce, rsplitOnce_none hb]
    exact if_pos rfl
  | x :: a => by
    rw [List.cons_append, rsplitOnce, rsplitOnce_append hb a]

/-- The text is its two parts around the separator. -/
theorem eq_of_rsplitOnce {c : Char} : ∀ {t : Text} {p : Text × Text}, rsplitOnce c t = some p → t = p.1 ++ c :: p.2
  | [], _, h => by cases h
  | x :: xs, p, h => by
    unfold rsplitOnce at h
    cases hxs : rsplitOnce c xs with
    | some q =>
      rw [hxs] at h
      obtain rfl := Option.some.inj h
      rw [eq_of_rsplitOnce hxs]
      rfl
    | none =>
      rw [hxs] at h
      by_cases hx : x = c
      · subst hx
        rw [if_pos rfl] at h
        obtain rfl := Option.some.inj h
        rfl
      · rw [if_neg hx] at h
        cases h

theorem afterLast_append {c : Char} {b : Text} (hb : c ∉ b) (a : Text) : afterLast c (a ++ c :: b) = b := by
  unfold afterLast
  rw [rsplitOnce_append hb]

/-- Two texts cut by a character that neither head holds are cut alike. -/
theorem append_cons_inj {c : Char} : ∀ {a a' b b' : Text}, c ∉ a → c ∉ a' → a ++ c :: b = a' ++ c :: b' →
    a = a' ∧ b = b'
  | [], [], _, _, _, _, h => ⟨rfl, (List.cons.inj h).2⟩
  | [], x :: a', _, _, _, h', h => absurd (List.cons.inj h).1 (fun hx => h' (by simp [hx]))
  | x :: a, [], _, _, h', _, h => absurd (List.cons.inj h).1 (fun hx => h' (by simp [← hx]))
  | x :: a, y :: a', b, b', h1, h2, h => by
    rw [List.mem_cons, not_or] at h1 h2
    obtain ⟨rfl, ht⟩ := List.cons.inj h
    obtain ⟨rfl, rfl⟩ := append_cons_inj h1.2 h2.2 ht
    exact ⟨rfl, rfl⟩

theorem contains_iff {t needle : Text} : contains t needle = true ↔ needle <:+: t := decide_eq_true_iff

theorem endsWith_iff {t suffix : Text} : endsWith t suffix = true ↔ suffix <:+ t := decide_eq_true_iff

/-- A text without one of the needle's characters does not contain the needle. -/
theorem contains_eq_false {t needle : Text} {c : Char} (hn : c ∈ needle) (ht : c ∉ t) : contains t needle = false := by
  unfold contains
  rw [decide_eq_false_iff_not]
  exact fun h => ht (h.subset hn)

section SplitOnce

variable {sep : Text}

theorem dropLast_prefix_join (a b : Text) : a ++ sep.dropLast <+: a ++ (sep ++ b) :=
  (List.prefix_append_right_inj a).2 ((List.dropLast_prefix sep).trans (List.prefix_append sep b))

/-- A separator at the front of a joined text overlaps at most the separator that joins it. -/
theorem infix_of_front {a b : Text} (ha : a ≠ []) (h : sep <+: a ++ (sep ++ b)) : sep <:+: a ++ sep.dropLast := by
  refine (List.prefix_of_prefix_length_le h (dropLast_prefix_join a b) ?_).isInfix
  have := List.length_pos_of_ne_nil ha
  rw [List.length_append, List.length_dropLast]
  omega

theorem not_infix_dropLast (hs : sep ≠ []) : ¬ sep <:+: sep.dropLast := fun h => by
  have := h.length_le
  have := List.length_pos_of_ne_nil hs
  rw [List.length_dropLast] at *
  omega

/-- The parts are the text around an occurrence of the separator before which none begins. -/
theorem splitOnce_eq_some_iff (hs : sep ≠ []) : ∀ {t a b : Text},
    splitOnce sep t = some (a, b) ↔ t = a ++ (sep ++ b) ∧ ¬ sep <:+: a ++ sep.dropLast
  | [], a, b => by
    have hemp : sep.isEmpty = false := by simp [hs]
    simp [splitOnce, hemp, hs]
  | x :: xs, a, b => by
    unfold splitOnce
    by_cases hp : sep <+: x :: xs
    · rw [if_pos (List.isPrefixOf_iff_prefix.2 hp)]
      obtain ⟨rest, hrest⟩ := hp
      rw [← hrest, List.drop_left, Option.some.injEq, Prod.mk.injEq]
      constructor
      · rintro ⟨rfl, rfl⟩
        exact ⟨rfl, not_infix_dropLast hs⟩
      · rintro ⟨ht, hno⟩
        cases a with
        | nil => exact ⟨rfl, List.append_cancel_left ht⟩
        | cons y ys => exact absurd (infix_of_front (List.cons_ne_nil y ys) ⟨rest, ht⟩) hno
    · rw [if_neg (fun h => hp (List.isPrefixOf_iff_prefix.1 h)), Option.map_eq_some_iff]
      constructor
      · rintro ⟨⟨a', b'⟩, hcut, hab⟩
        obtain ⟨rfl, rfl⟩ := Prod.mk.inj hab
        obtain ⟨rfl, hno⟩ := (splitOnce_eq_some_iff hs).1 hcut
        refine ⟨rfl, fun hin => ?_⟩
        rcases List.infix_cons_iff.1 hin with hpre | htl
        · exact hp (hpre.trans (dropLast_prefix_join (x :: a') b'))
        · exact hno htl
      · rintro ⟨ht, hno⟩
        cases a with
        | nil => exact absurd ⟨b, ht.symm⟩ hp
        | cons y ys =>
          obtain ⟨rfl, rfl⟩ := List.cons.inj ht
          exact ⟨(ys, b), (splitOnce_eq_some_iff hs).2 ⟨rfl, fun h => hno (h.trans (List.suffix_cons _ _).isInfix)⟩,
            rfl⟩

theorem splitOnce_append_iff (hs : sep ≠ []) {a b : Text} :
    splitOnce sep (a ++ (sep ++ b)) = some (a, b) ↔ ¬ sep <:+: a ++ sep.dropLast := by
  rw [splitOnce_eq_some_iff hs]
  exact and_iff_right rfl

theorem splitOnce_isSome (hs : sep ≠ []) : ∀ (a b : Text), ∃ p, splitOnce sep (a ++ (sep ++ b)) = some p
  | [], b => ⟨([], b), (splitOnce_append_iff hs).2 (not_infix_dropLast hs)⟩
  | x :: a, b => by
    obtain ⟨p, hp⟩ := splitOnce_isSome hs a b
    rw [List.cons_append, splitOnce, hp]
    split
    · exact ⟨_, rfl⟩
    · exact ⟨_, rfl⟩

/-- A joined text can be taken apart in one way only when the separator occurs in it nowhere else. -/
theorem append_sep_unique_iff (hs : sep ≠ []) {a b : Text} :
    (∀ a' b', a' ++ (sep ++ b') = a ++ (sep ++ b) → a' = a ∧ b' = b) ↔
    ¬ sep <:+: a ++ sep.dropLast ∧ ¬ sep <:+: sep.tail ++ b := by
  constructor
  · intro hall
    constructor
    · obtain ⟨⟨a', b'⟩, hp⟩ := splitOnce_isSome hs a b
      obtain ⟨ht, hno⟩ := (splitOnce_eq_some_iff hs).1 hp
      obtain ⟨rfl, -⟩ := hall a' b' ht.symm
      exact hno
    · rintro ⟨u, v, huv⟩
      obtain ⟨c, cs, rfl⟩ := List.exists_cons_of_ne_nil hs
      have hlen : a ++ c :: u = a := (hall (a ++ c :: u) v (by
        rw [List.tail_cons, List.append_assoc] at huv
        rw [List.append_assoc, List.cons_append, huv, List.cons_append])).1
      have := congrArg List.length hlen
      rw [List.length_append, List.length_cons] at this
      omega
  · rintro ⟨hbefore, hafter⟩ a' b' heq
    rcases List.append_eq_append_iff.1 heq with ⟨mid, rfl, hmid⟩ | ⟨mid, rfl, hmid⟩
    · cases mid with
      | nil => exact ⟨(List.append_nil _).symm, List.append_cancel_left hmid⟩
      | cons c cs =>
        refine absurd ?_ hbefore
        rw [List.append_assoc]
        exact (infix_of_front (List.cons_ne_nil c cs) ⟨b', hmid⟩).trans (List.suffix_append _ _).isInfix
    · cases mid with
      | nil => exact ⟨List.append_nil _, (List.append_cancel_left hmid).symm⟩
      | cons c cs =>
        obtain ⟨d, ds, rfl⟩ := List.exists_cons_of_ne_nil hs
        obtain ⟨rfl, htl⟩ := List.cons.inj hmid
        refine absurd ⟨cs, b', ?_⟩ hafter
        rw [List.append_assoc]
        exact htl.symm

end SplitOnce

end Text
