import Mathlib.Data.List.Pairwise
import Mathlib.Data.List.Sort
import Mathlib.Order.Basic
import Mathlib.Tactic.Linarith
/-!
# Lists of spans

An element covers the integers from `lo` to `hi`.  A list is a chain when each span ends before the next begins, and
its spans are apart when no two meet.  Sorting spans that are apart by where they begin gives a chain
(`chain_of_apart`); rows that lie in the spans of a chain come out in order (`Chain.flatMap_sorted`).
-/
namespace Spans

variable {α β : Type}

/-- The stable sort by an integer key (`slice::sort_by_key`). -/
def sortByKey (key : α → Int) (l : List α) : List α := l.insertionSort (fun a b => key a ≤ key b)

section Sorting

variable (key : α → Int)

instance keyLe_trans : IsTrans α (fun a b => key a ≤ key b) := ⟨fun _ _ _ => le_trans⟩

instance keyLe_total : Std.Total (fun a b : α => key a ≤ key b) := ⟨fun a b => le_total (key a) (key b)⟩

theorem sortByKey_perm (l : List α) : (sortByKey key l).Perm l := List.perm_insertionSort _ l

@[simp] theorem mem_sortByKey {l : List α} {x : α} : x ∈ sortByKey key l ↔ x ∈ l := List.mem_insertionSort _

@[simp] theorem length_sortByKey (l : List α) : (sortByKey key l).length = l.length := List.length_insertionSort _ l

theorem sortByKey_sorted (l : List α) : (sortByKey key l).Pairwise (fun a b => key a ≤ key b) :=
  List.pairwise_insertionSort _ l

theorem sortByKey_of_sorted {l : List α} (h : l.Pairwise (fun a b => key a ≤ key b)) : sortByKey key l = l :=
  h.insertionSort_eq

/-- Sorting after a map that keeps the keys is mapping after the sort. -/
theorem sortByKey_map (f : α → β) (key' : β → Int) (l : List α) (hk : ∀ a ∈ l, key' (f a) = key a) :
    sortByKey key' (l.map f) = (sortByKey key l).map f :=
  (List.map_insertionSort _ _ f l (fun a ha b hb => by rw [hk a ha, hk b hb])).symm

/-- Lists that agree on the keys are sorted alike. -/
theorem sortByKey_forall₂ {r : α → β → Prop} {key' : β → Int} (hr : ∀ a b, r a b → key' b = key a) {l : List α}
    {l' : List β} (h : List.Forall₂ r l l') : List.Forall₂ r (sortByKey key l) (sortByKey key' l') := by
  obtain ⟨z, rfl, rfl, hz⟩ : ∃ z : List (α × β), l = z.map Prod.fst ∧ l' = z.map Prod.snd ∧ ∀ p ∈ z, r p.1 p.2 := by
    induction h with
    | nil => exact ⟨[], rfl, rfl, by simp⟩
    | @cons a b l l' hab _ ih =>
      obtain ⟨z, rfl, rfl, hz⟩ := ih
      refine ⟨(a, b) :: z, rfl, rfl, fun p hp => ?_⟩
      rcases List.mem_cons.1 hp with rfl | hp
      · exact hab
      · exact hz p hp
  rw [sortByKey_map (fun p : α × β => key p.1) Prod.fst key z (fun _ _ => rfl),
    sortByKey_map (fun p : α × β => key p.1) Prod.snd key' z (fun p hp => hr _ _ (hz p hp))]
  rw [List.forall₂_map_left_iff, List.forall₂_map_right_iff, List.forall₂_same]
  intro p hp
  exact hz p ((mem_sortByKey _).1 hp)

theorem filter_orderedInsert (p : α → Bool) (a : α) : ∀ (l : List α), l.Pairwise (fun a b => key a ≤ key b) →
    (l.orderedInsert (fun a b => key a ≤ key b) a).filter p
      = if p a then (l.filter p).orderedInsert (fun a b => key a ≤ key b) a else l.filter p
  | [], _ => by cases h : p a <;> simp [h]
  | b :: l, hs => by
    by_cases hab : key a ≤ key b
    · rw [List.orderedInsert_cons, if_pos hab]
      cases hpa : p a with
      | false => simp [hpa]
      | true =>
        have hall : ∀ c ∈ (b :: l).filter p, key a ≤ key c := by
          intro c hc
          rcases List.mem_cons.1 (List.mem_filter.1 hc).1 with rfl | hc
          · exact hab
          · exact le_trans hab (List.rel_of_pairwise_cons hs hc)
        rw [if_pos rfl, List.filter_cons_of_pos hpa]
        cases hf : (b :: l).filter p with
        | nil => simp
        | cons c cs => rw [List.orderedInsert_cons, if_pos (hall c (by rw [hf]; simp))]
    · rw [List.orderedInsert_cons, if_neg hab]
      have ih := filter_orderedInsert p a l hs.of_cons
      cases hpb : p b with
      | false => rw [List.filter_cons_of_neg (by simp [hpb]), List.filter_cons_of_neg (by simp [hpb]), ih]
      | true =>
        rw [List.filter_cons_of_pos hpb, List.filter_cons_of_pos hpb, ih]
        cases hpa : p a with
        | false => simp
        | true => simp [hab]

/-- **A filter commutes with the stable sort.** -/
theorem sortByKey_filter (p : α → Bool) : ∀ (l : List α), (sortByKey key l).filter p = sortByKey key (l.filter p)
  | [] => rfl
  | a :: l => by
    have ih := sortByKey_filter p l
    unfold sortByKey at ih ⊢
    rw [List.insertionSort_cons, filter_orderedInsert key p a _ (List.pairwise_insertionSort _ l), ih]
    cases hpa : p a with
    | false => rw [List.filter_cons_of_neg (by simp [hpa])]; simp
    | true => rw [List.filter_cons_of_pos hpa, List.insertionSort_cons]; simp

end Sorting

variable (lo hi : α → Int)

/-- The two spans have a point in common. -/
def Meets (a b : α) : Prop := lo a ≤ hi b ∧ lo b ≤ hi a

instance (a b : α) : Decidable (Meets lo hi a b) := inferInstanceAs (Decidable (_ ∧ _))

/-- Each span ends before every later one begins. -/
def Chain (l : List α) : Prop := l.Pairwise (fun a b => hi a < lo b)

/-- No two of the spans meet. -/
def Apart (l : List α) : Prop := l.Pairwise (fun a b => ¬ Meets lo hi a b)

/-- Every span has a point. -/
def Proper (l : List α) : Prop := ∀ a ∈ l, lo a ≤ hi a

variable {lo hi}

theorem Meets.symm {a b : α} (h : Meets lo hi a b) : Meets lo hi b a := ⟨h.2, h.1⟩

theorem not_meets_iff {a b : α} : ¬ Meets lo hi a b ↔ hi b < lo a ∨ hi a < lo b := by
  unfold Meets
  rw [not_and_or, not_le, not_le]

theorem Chain.apart {l : List α} (h : Chain lo hi l) : Apart lo hi l :=
  h.imp (fun hab => not_meets_iff.2 (.inr hab))

theorem Chain.sorted {l : List α} (h : Chain lo hi l) (hp : Proper lo hi l) : l.Pairwise (fun a b => lo a ≤ lo b) :=
  h.imp_of_mem (fun ha _ hab => le_of_lt (lt_of_le_of_lt (hp _ ha) hab))

theorem Chain.sublist {l l' : List α} (h : Chain lo hi l) (hs : l'.Sublist l) : Chain lo hi l' :=
  List.Pairwise.sublist hs h

theorem Apart.sublist {l l' : List α} (h : Apart lo hi l) (hs : l'.Sublist l) : Apart lo hi l' :=
  List.Pairwise.sublist hs h

theorem Apart.perm {l l' : List α} (h : Apart lo hi l) (hp : l.Perm l') : Apart lo hi l' :=
  (hp.pairwise_iff (fun {_ _} hab hba => hab hba.symm)).1 h

theorem Apart.eq_of_meets {l : List α} (h : Apart lo hi l) {a b : α} (ha : a ∈ l) (hb : b ∈ l)
    (hm : Meets lo hi a b) : a = b := by
  have hsymm : Std.Symm (fun a b => ¬ Meets lo hi a b) := ⟨fun _ _ hab hba => hab hba.symm⟩
  by_contra hne
  exact List.Pairwise.forall h ha hb hne hm

/-- **Spans that are apart, sorted by where they begin, are a chain.** -/
theorem chain_of_apart {l : List α} (ha : Apart lo hi l) (hp : Proper lo hi l) : Chain lo hi (sortByKey lo l) := by
  have hs := sortByKey_sorted lo l
  have ha' : Apart lo hi (sortByKey lo l) := ha.perm (sortByKey_perm lo l).symm
  refine (hs.and ha').imp_of_mem (fun {a b} ham hbm hab => ?_)
  rcases not_meets_iff.1 hab.2 with h | h
  · have := hp b ((mem_sortByKey lo).1 hbm)
    have := hab.1
    omega
  · exact h

theorem apart_append_singleton {l : List α} {x : α} : Apart lo hi (l ++ [x]) ↔ Apart lo hi l ∧
    ∀ a ∈ l, ¬ Meets lo hi a x := by
  unfold Apart
  rw [List.pairwise_append]
  simp

theorem sortByKey_chain {l : List α} (h : Chain lo hi l) (hp : Proper lo hi l) : sortByKey lo l = l :=
  sortByKey_of_sorted lo (h.sorted hp)

/-- Two chains of the same spans are the same list. -/
theorem Chain.eq_of_perm {l l' : List α} (h : Chain lo hi l) (h' : Chain lo hi l') (hp : Proper lo hi l)
    (hl : l.Perm l') :
    l = l' := by
  have hp' : Proper lo hi l' := fun a ha => hp a (hl.mem_iff.2 ha)
  refine hl.eq_of_pairwise ?_ h h'
  intro a b ha hb hab hba
  have := hp a ha
  have := hp' b hb
  omega

/-- **Rows in order inside each span of a chain are in order overall.** -/
theorem Chain.flatMap_sorted {ρ : Type} (rows : α → List ρ) (ts : ρ → Int) (r : Int → Int → Prop)
    (hr : ∀ x y, x < y → r x y) :
    ∀ {l : List α}, Chain lo hi l → (∀ a ∈ l, (rows a).Pairwise (fun x y => r (ts x) (ts y))) →
      (∀ a ∈ l, ∀ x ∈ rows a, lo a ≤ ts x ∧ ts x ≤ hi a) → (l.flatMap rows).Pairwise (fun x y => r (ts x) (ts y))
  | [], _, _, _ => by simp
  | a :: l, h, hs, hb => by
    rw [List.flatMap_cons, List.pairwise_append]
    refine ⟨hs a (by simp), ?_, ?_⟩
    · exact Chain.flatMap_sorted rows ts r hr (List.Pairwise.of_cons h) (fun b hb' => hs b (by simp [hb']))
        (fun b hb' => hb b (by simp [hb']))
    · intro x hx y hy
      obtain ⟨b, hbl, hyb⟩ := List.mem_flatMap.1 hy
      have h1 := (hb a (by simp) x hx).2
      have h2 := (hb b (by simp [hbl]) y hyb).1
      have h3 := List.rel_of_pairwise_cons h hbl
      exact hr _ _ (by omega)

end Spans
