import FastK.Lib.Spans
/-!
# Folding versioned spans into a list

A span that carries a name and a generation is adopted into a list of spans when no element has its name and every
element it meets is older and inside it; what it meets is then dropped.  Folding any candidates in keeps the spans
apart (`adopt_apart`), and what was there before is still there or lies inside a newer candidate (`kept_adopt`).  A
candidate that was passed over once is passed over for good (`Barred.adopt`), so a second fold changes nothing
(`foldl_adopt_barred`).
-/
namespace Versioned

open Spans

variable {α κ : Type} (lo hi : α → Int) (gen : α → Nat) (name : α → κ)

/-- `x` covers `a` and is newer. -/
def Supersedes (x a : α) : Prop := gen a < gen x ∧ lo x ≤ lo a ∧ hi a ≤ hi x

instance (x a : α) : Decidable (Supersedes lo hi gen x a) := inferInstanceAs (Decidable (_ ∧ _ ∧ _))

/-- No element has the name of `x`, and `x` supersedes every element it meets. -/
def Adopts (l : List α) (x : α) : Prop := ∀ a ∈ l, name a ≠ name x ∧ (Meets lo hi a x → Supersedes lo hi gen x a)

/-- Every element of `l` is in `l'`, or one of the candidates in `l'` supersedes it. -/
def Kept (IsNew : α → Prop) (l l' : List α) : Prop := ∀ a ∈ l, a ∈ l' ∨ ∃ x ∈ l', IsNew x ∧ Supersedes lo hi gen x a

/-- `x` describes the element `a`. -/
def Describes (x a : α) : Prop := name x = name a ∧ gen x = gen a ∧ lo x = lo a ∧ hi x = hi a

variable {lo hi gen name} {l before : List α} {x a : α} {IsNew : α → Prop}

theorem Supersedes.trans {y : α} (h1 : Supersedes lo hi gen y x) (h2 : Supersedes lo hi gen x a) :
    Supersedes lo hi gen y a :=
  ⟨lt_trans h2.1 h1.1, le_trans h1.2.1 h2.2.1, le_trans h2.2.2 h1.2.2⟩

theorem Supersedes.meets (h : Supersedes lo hi gen x a) (ha : lo a ≤ hi a) : Meets lo hi a x :=
  ⟨le_trans ha h.2.2, le_trans h.2.1 ha⟩

theorem Kept.refl (l : List α) : Kept lo hi gen IsNew l l := fun _ ha => .inl ha

theorem Adopts.of_describes {y : α} (h : Adopts lo hi gen name l x) (hd : Describes lo hi gen name x y) :
    Adopts lo hi gen name l y := by
  obtain ⟨hn, hg, hlo, hhi⟩ := hd
  intro a ha
  have := h a ha
  unfold Meets Supersedes at *
  rwa [hn, hg, hlo, hhi] at this

theorem Describes.not_adopts (h : Describes lo hi gen name x a) (ha : a ∈ l) : ¬ Adopts lo hi gen name l x :=
  fun hx => (hx a ha).1 h.1.symm

/-- What describes a span of `before` is not adopted: that span is still there, or inside something newer. -/
theorem Kept.not_adopts (hk : Kept lo hi gen IsNew before l) (ha : a ∈ before) (hp : lo a ≤ hi a)
    (hd : Describes lo hi gen name x a) : ¬ Adopts lo hi gen name l x := by
  intro hax
  have ⟨_, hg, hlo, hhi⟩ := hd
  rcases hk a ha with hal | ⟨y, hyl, -, hya⟩
  · exact hd.not_adopts hal hax
  · have hlt := hya.1
    have hmeet : Meets lo hi y x := by
      unfold Meets
      rw [hlo, hhi]
      exact (hya.meets hp).symm
    have := ((hax y hyl).2 hmeet).1
    omega

/-- Something that `x` meets does not give way to it. -/
def Barred (lo hi : α → Int) (gen : α → Nat) (l : List α) (x : α) : Prop := ∃ a ∈ l, Meets lo hi a x ∧
    ¬ Supersedes lo hi gen x a

theorem Barred.not_adopts (h : Barred lo hi gen l x) : ¬ Adopts lo hi gen name l x := by
  obtain ⟨a, ha, hm, hs⟩ := h
  exact fun hx => hs ((hx a ha).2 hm)

theorem barred_self (hx : lo x ≤ hi x) (hm : x ∈ l) : Barred lo hi gen l x :=
  ⟨x, hm, ⟨hx, hx⟩, fun h => absurd h.1 (lt_irrefl _)⟩

theorem barred_of_describes (hd : Describes lo hi gen name x a) (ha : a ∈ l) (hx : lo x ≤ hi x) :
    Barred lo hi gen l x := by
  obtain ⟨-, hg, hlo, hhi⟩ := hd
  refine ⟨a, ha, ⟨?_, ?_⟩, fun h => ?_⟩
  · rw [← hlo]
    exact hx
  · rw [← hhi]
    exact hx
  · have := h.1
    omega

/-- A candidate that the elements of its name describe is adopted or barred. -/
theorem barred_of_not_adopts (hx : lo x ≤ hi x) (hname : ∀ a ∈ l, name a = name x → Describes lo hi gen name x a)
    (h : ¬ Adopts lo hi gen name l x) : Barred lo hi gen l x := by
  unfold Adopts at h
  push Not at h
  obtain ⟨a, ha, hstop⟩ := h
  by_cases hn : name a = name x
  · exact barred_of_describes (hname a ha hn) ha hx
  · obtain ⟨hm, hs⟩ := hstop hn
    exact ⟨a, ha, hm, hs⟩

/-- What meets the inside of a span meets the span. -/
theorem Supersedes.meets_of_meets {y : α} (h : Supersedes lo hi gen y a) (hm : Meets lo hi a x) : Meets lo hi y x :=
  ⟨le_trans h.2.1 hm.1, le_trans hm.2 h.2.2⟩

variable [DecidableEq κ]

instance (l : List α) (x : α) : Decidable (Adopts lo hi gen name l x) := inferInstanceAs (Decidable (∀ a ∈ l, _))

/-- The list after `x` has been offered to it. -/
def adopt (lo hi : α → Int) (gen : α → Nat) (name : α → κ) (l : List α) (x : α) : List α :=
  if Adopts lo hi gen name l x then l.filter (fun a => !decide (Meets lo hi a x)) ++ [x] else l

theorem adopt_of_adopts (h : Adopts lo hi gen name l x) :
    adopt lo hi gen name l x = l.filter (fun a => !decide (Meets lo hi a x)) ++ [x] := if_pos h

theorem adopt_of_not (h : ¬ Adopts lo hi gen name l x) : adopt lo hi gen name l x = l := if_neg h

theorem mem_adopt (h : a ∈ adopt lo hi gen name l x) : a ∈ l ∨ a = x := by
  unfold adopt at h
  split at h
  · rcases List.mem_append.1 h with h | h
    · exact .inl (List.mem_filter.1 h).1
    · exact .inr (List.mem_singleton.1 h)
  · exact .inl h

/-- **Adoption keeps the spans apart.** -/
theorem adopt_apart (h : Apart lo hi l) : Apart lo hi (adopt lo hi gen name l x) := by
  unfold adopt
  split
  · refine apart_append_singleton.2 ⟨h.sublist List.filter_sublist, fun a ha => ?_⟩
    simpa using (List.mem_filter.1 ha).2
  · exact h

/-- **Nothing is lost but to a newer span around it.** -/
theorem kept_adopt (hk : Kept lo hi gen IsNew before l) (hx : Adopts lo hi gen name l x → IsNew x) :
    Kept lo hi gen IsNew before (adopt lo hi gen name l x) := by
  by_cases ha : Adopts lo hi gen name l x
  · rw [adopt_of_adopts ha]
    have hstep : ∀ a ∈ l, a ∈ l.filter (fun b => !decide (Meets lo hi b x)) ∨ Supersedes lo hi gen x a := by
      intro a hal
      by_cases hm : Meets lo hi a x
      · exact .inr ((ha a hal).2 hm)
      · exact .inl (List.mem_filter.2 ⟨hal, by simpa using hm⟩)
    intro a hab
    rcases hk a hab with hal | ⟨y, hyl, hny, hya⟩
    · rcases hstep a hal with h | h
      · exact .inl (List.mem_append_left _ h)
      · exact .inr ⟨x, by simp, hx ha, h⟩
    · rcases hstep y hyl with h | h
      · exact .inr ⟨y, List.mem_append_left _ h, hny, hya⟩
      · exact .inr ⟨x, by simp, hx ha, h.trans hya⟩
  · rw [adopt_of_not ha]
    exact hk

theorem foldl_adopt_mem : ∀ {ys l : List α}, a ∈ ys.foldl (adopt lo hi gen name) l → a ∈ l ∨ a ∈ ys
  | [], _, h => .inl h
  | y :: ys, l, h => by
    rw [List.foldl_cons] at h
    rcases foldl_adopt_mem h with h | h
    · rcases mem_adopt h with h | rfl
      · exact .inl h
      · exact .inr List.mem_cons_self
    · exact .inr (List.mem_cons_of_mem _ h)

theorem foldl_adopt_apart : ∀ {ys l : List α}, Apart lo hi l → Apart lo hi (ys.foldl (adopt lo hi gen name) l)
  | [], _, h => h
  | _ :: _, _, h => by
    rw [List.foldl_cons]
    exact foldl_adopt_apart (adopt_apart h)

theorem foldl_adopt_of_not (xs : List α) (h : ∀ x ∈ xs, ¬ Adopts lo hi gen name l x) :
    xs.foldl (adopt lo hi gen name) l = l := by
  induction xs with
  | nil => rfl
  | cons x xs ih =>
    rw [List.foldl_cons, adopt_of_not (h x (by simp))]
    exact ih (fun y hy => h y (by simp [hy]))

/-- **One new span among candidates that describe the list is all that a fold adopts**; `x` stands for the new span,
which its candidates describe. -/
theorem foldl_adopt_one (hp : Proper lo hi l) : ∀ {xs : List α},
    (∀ y ∈ xs, Describes lo hi gen name y x ∨ ∃ a ∈ l, Describes lo hi gen name y a) →
      (∃ y ∈ xs, Describes lo hi gen name y x) →
      ∃ y ∈ xs, Describes lo hi gen name y x ∧ xs.foldl (adopt lo hi gen name) l = adopt lo hi gen name l y := by
  -- once a candidate for `x` has been looked at, no later one changes the list
  have hafter : ∀ (y : α) (xs : List α), Describes lo hi gen name y x →
      (∀ z ∈ xs, Describes lo hi gen name z x ∨ ∃ a ∈ l, Describes lo hi gen name z a) →
      xs.foldl (adopt lo hi gen name) (adopt lo hi gen name l y) = adopt lo hi gen name l y := by
    intro y xs hy hxs
    apply foldl_adopt_of_not
    intro z hz
    rcases hxs z hz with hzx | ⟨a, ha, hd⟩
    · have hzy : Describes lo hi gen name z y :=
        ⟨hzx.1.trans hy.1.symm, hzx.2.1.trans hy.2.1.symm, hzx.2.2.1.trans hy.2.2.1.symm, hzx.2.2.2.trans hy.2.2.2.symm⟩
      by_cases hy' : Adopts lo hi gen name l y
      · rw [adopt_of_adopts hy']
        exact hzy.not_adopts (by simp)
      · rw [adopt_of_not hy']
        exact fun h => hy' (h.of_describes hzy)
    · have hkept : Kept lo hi gen (fun _ => True) l (adopt lo hi gen name l y) :=
        kept_adopt (Kept.refl l) (fun _ => trivial)
      exact hkept.not_adopts ha (hp a ha) hd
  intro xs
  induction xs with
  | nil =>
    rintro _ ⟨y, hy, -⟩
    cases hy
  | cons y ys ih =>
    rintro hxs ⟨z, hz, hzx⟩
    rw [List.foldl_cons]
    have hys : ∀ z ∈ ys, Describes lo hi gen name z x ∨ ∃ a ∈ l, Describes lo hi gen name z a :=
      fun z hz => hxs z (by simp [hz])
    by_cases hyx : Describes lo hi gen name y x
    · exact ⟨y, by simp, hyx, hafter y ys hyx hys⟩
    · obtain ⟨a, ha, hd⟩ := (hxs y (by simp)).resolve_left hyx
      rw [adopt_of_not (hd.not_adopts ha)]
      have hmem : z ∈ ys := (List.mem_cons.1 hz).resolve_left (fun h => hyx (h ▸ hzx))
      obtain ⟨w, hw, hwx, heq⟩ := ih hys ⟨z, hmem, hzx⟩
      exact ⟨w, by simp [hw], hwx, heq⟩

/-- **New spans that meet nothing are all adopted**, in the order they come in, among candidates that describe the
list. -/
theorem foldl_adopt_new {new : α → Bool} :
    ∀ {xs l : List α}, (∀ x ∈ xs, new x = false → ∃ a ∈ l, Describes lo hi gen name x a) →
    (∀ x ∈ xs, new x = true → ∀ a ∈ l, name a ≠ name x ∧ ¬ Meets lo hi a x) →
    (xs.filter new).Pairwise (fun x y => name x ≠ name y ∧ ¬ Meets lo hi x y) →
      xs.foldl (adopt lo hi gen name) l = l ++ xs.filter new
  | [], l, _, _, _ => (List.append_nil l).symm
  | x :: xs, l, hold, hnew, hpair => by
    rw [List.foldl_cons]
    cases hx : new x with
    | false =>
      obtain ⟨a, ha, hd⟩ := hold x List.mem_cons_self hx
      rw [adopt_of_not (hd.not_adopts ha), List.filter_cons_of_neg (by simp [hx])]
      rw [List.filter_cons_of_neg (by simp [hx])] at hpair
      exact foldl_adopt_new (fun y hy => hold y (List.mem_cons_of_mem _ hy))
        (fun y hy => hnew y (List.mem_cons_of_mem _ hy)) hpair
    | true =>
      have hfree := hnew x List.mem_cons_self hx
      rw [List.filter_cons_of_pos hx] at hpair ⊢
      obtain ⟨hlater, hrest⟩ := List.pairwise_cons.1 hpair
      have hadopts : Adopts lo hi gen name l x := fun a ha => ⟨(hfree a ha).1, fun hm => absurd hm (hfree a ha).2⟩
      have hkept : l.filter (fun a => !decide (Meets lo hi a x)) = l :=
        List.filter_eq_self.2 (fun a ha => by simpa using (hfree a ha).2)
      rw [adopt_of_adopts hadopts, hkept, foldl_adopt_new (fun y hy hy' => ?_) (fun y hy hy' a ha => ?_) hrest,
        List.append_assoc, List.singleton_append]
      · obtain ⟨a, ha, hd⟩ := hold y (List.mem_cons_of_mem _ hy) hy'
        exact ⟨a, List.mem_append_left _ ha, hd⟩
      · rcases List.mem_append.1 ha with ha | ha
        · exact hnew y (List.mem_cons_of_mem _ hy) hy' a ha
        · rw [List.mem_singleton.1 ha]
          exact hlater y (List.mem_filter.2 ⟨hy, hy'⟩)

/-! ## What is passed over for good -/

/-- **What bars a candidate is there for good, or inside something newer that bars it too.** -/
theorem Barred.adopt (h : Barred lo hi gen l x) (y : α) : Barred lo hi gen (adopt lo hi gen name l y) x := by
  obtain ⟨a, ha, hm, hs⟩ := h
  by_cases hy : Adopts lo hi gen name l y
  · rw [adopt_of_adopts hy]
    by_cases hay : Meets lo hi a y
    · have hsup := (hy a ha).2 hay
      exact ⟨y, by simp, hsup.meets_of_meets hm, fun hxy => hs (hxy.trans hsup)⟩
    · exact ⟨a, List.mem_append_left _ (List.mem_filter.2 ⟨ha, by simpa using hay⟩), hm, hs⟩
  · rw [adopt_of_not hy]
    exact ⟨a, ha, hm, hs⟩

theorem Barred.foldl (h : Barred lo hi gen l x) (ys : List α) :
    Barred lo hi gen (ys.foldl (Versioned.adopt lo hi gen name) l) x := by
  induction ys generalizing l with
  | nil => exact h
  | cons y ys ih => exact ih (h.adopt y)

/-- A candidate that the elements of its name describe is barred once it has been looked at. -/
theorem barred_adopt_self (hx : lo x ≤ hi x) (hname : ∀ a ∈ l, name a = name x → Describes lo hi gen name x a) :
    Barred lo hi gen (adopt lo hi gen name l x) x := by
  by_cases h : Adopts lo hi gen name l x
  · rw [adopt_of_adopts h]
    exact barred_self hx (by simp)
  · rw [adopt_of_not h]
    exact barred_of_not_adopts hx hname h

/-- **After a fold every candidate is barred**, where names stand for one span each. -/
theorem foldl_adopt_barred : ∀ {xs : List α} {l : List α}, (∀ x ∈ xs, lo x ≤ hi x) →
    xs.Pairwise (fun x y => name x ≠ name y) →
    (∀ x ∈ xs, ∀ a ∈ l, name a = name x → Describes lo hi gen name x a) →
      ∀ x ∈ xs, Barred lo hi gen (xs.foldl (adopt lo hi gen name) l) x
  | [], _, _, _, _, x, hx => by cases hx
  | y :: ys, l, hp, hn, hname, x, hx => by
    obtain ⟨hy, hys⟩ := List.pairwise_cons.1 hn
    have hself := barred_adopt_self (hp y List.mem_cons_self) (hname y List.mem_cons_self)
    rw [List.foldl_cons]
    rcases List.mem_cons.1 hx with rfl | hx
    · exact hself.foldl ys
    · refine foldl_adopt_barred (fun z hz => hp z (List.mem_cons_of_mem _ hz)) hys (fun z hz a ha hza => ?_) x hx
      rcases mem_adopt ha with ha | rfl
      · exact hname z (List.mem_cons_of_mem _ hz) a ha hza
      · exact absurd hza (hy z hz)

end Versioned
