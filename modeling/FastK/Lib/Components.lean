import Mathlib.Data.List.Flatten
import Mathlib.Logic.Relation
import FastK.Lib.Spans
/-!
# Connected groups of spans

Spans of a list are linked when a chain of spans of the list leads from one to the other, each meeting the next.  A
sweep over the spans in the order in which they begin cuts the list where a span begins after all before it have
ended; what it cuts out are the groups of linked spans (`mem_group_iff`).
-/
namespace Spans

variable {α : Type}

/-- A chain of spans of the list leads from one to the other. -/
def Linked (lo hi : α → Int) (l : List α) : α → α → Prop :=
  Relation.ReflTransGen (fun a b => a ∈ l ∧ b ∈ l ∧ Meets lo hi a b)

/-- The sweep, with the group at hand and the end of what it covers. -/
def sweepFrom (lo hi : α → Int) (current : List α) (stop : Int) : List α → List (List α)
  | [] => [current]
  | a :: l =>
    if lo a ≤ stop then sweepFrom lo hi (current ++ [a]) (max stop (hi a)) l
    else current :: sweepFrom lo hi [a] (hi a) l

def sweep (lo hi : α → Int) : List α → List (List α)
  | [] => []
  | a :: l => sweepFrom lo hi [a] (hi a) l

variable {lo hi : α → Int} {l l' : List α} {a b : α}

/-! ## Links -/

theorem Linked.symm (h : Linked lo hi l a b) : Linked lo hi l b a := by
  unfold Linked at h ⊢
  induction h with
  | refl => exact Relation.ReflTransGen.refl
  | tail _ hxy ih =>
    obtain ⟨hx, hy, hm⟩ := hxy
    exact Relation.ReflTransGen.head ⟨hy, hx, hm.symm⟩ ih

theorem Linked.mono (hl : ∀ x ∈ l, x ∈ l') (h : Linked lo hi l a b) : Linked lo hi l' a b := by
  unfold Linked at h ⊢
  induction h with
  | refl => exact Relation.ReflTransGen.refl
  | tail _ hxy ih =>
    obtain ⟨hx, hy, hm⟩ := hxy
    exact ih.tail ⟨hl _ hx, hl _ hy, hm⟩

/-- Links depend on which spans there are, not on their order. -/
theorem linked_congr (hl : ∀ x, x ∈ l ↔ x ∈ l') : Linked lo hi l a b ↔ Linked lo hi l' a b :=
  ⟨Linked.mono (fun x => (hl x).1), Linked.mono (fun x => (hl x).2)⟩

/-- What is closed under meeting is closed under links. -/
theorem Linked.stays {S : List α} (hclosed : ∀ x ∈ S, ∀ y ∈ l, Meets lo hi x y → y ∈ S) (h : Linked lo hi l a b)
    (ha : a ∈ S) : b ∈ S := by
  unfold Linked at h
  induction h with
  | refl => exact ha
  | tail _ hxy ih => exact hclosed _ ih _ hxy.2.1 hxy.2.2

/-- All the spans of the group are linked within it. -/
def Connected (lo hi : α → Int) (group : List α) : Prop := ∀ a ∈ group, ∀ b ∈ group, Linked lo hi group a b

theorem connected_singleton (a : α) : Connected lo hi [a] := fun x hx y hy => by
  rw [List.mem_singleton.1 hx, List.mem_singleton.1 hy]
  exact Relation.ReflTransGen.refl

theorem Connected.append {group : List α} (h : Connected lo hi group) {x : α} (hx : x ∈ group) (hm : Meets lo hi x a) :
    Connected lo hi (group ++ [a]) := by
  have hold : ∀ y ∈ group, Linked lo hi (group ++ [a]) y a := fun y hy =>
    ((h y hy x hx).mono (fun z hz => List.mem_append_left _ hz)).tail ⟨List.mem_append_left _ hx, by simp, hm⟩
  intro y hy z hz
  rcases List.mem_append.1 hy with hy | hy
  · rcases List.mem_append.1 hz with hz | hz
    · exact (h y hy z hz).mono (fun w hw => List.mem_append_left _ hw)
    · rw [List.mem_singleton.1 hz]
      exact hold y hy
  · rw [List.mem_singleton.1 hy]
    rcases List.mem_append.1 hz with hz | hz
    · exact (hold z hz).symm
    · rw [List.mem_singleton.1 hz]
      exact Relation.ReflTransGen.refl

/-! ## The sweep -/

theorem flatten_sweepFrom : ∀ (l current : List α) (stop : Int), (sweepFrom lo hi current stop l).flatten = current ++ l
  | [], current, stop => by simp [sweepFrom]
  | a :: l, current, stop => by
    unfold sweepFrom
    by_cases ha : lo a ≤ stop
    · rw [if_pos ha, flatten_sweepFrom l, List.append_assoc, List.singleton_append]
    · rw [if_neg ha, List.flatten_cons, flatten_sweepFrom l, List.singleton_append]

theorem flatten_sweep (l : List α) : (sweep lo hi l).flatten = l := by
  cases l with
  | nil => rfl
  | cons a l => exact flatten_sweepFrom l [a] (hi a)

/-- Every span of the one group ends before every span of the other begins. -/
def Before (lo hi : α → Int) (g g' : List α) : Prop := ∀ a ∈ g, ∀ b ∈ g', hi a < lo b

/-- **What the sweep cuts out**: connected groups, one after another. -/
theorem sweepFrom_spec : ∀ {l current : List α} {stop : Int}, (current ++ l).Pairwise (fun a b => lo a ≤ lo b) →
    Proper lo hi l →
    Connected lo hi current → (∃ x ∈ current, hi x = stop) → (∀ x ∈ current, hi x ≤ stop) →
    (∀ g ∈ sweepFrom lo hi current stop l, g ≠ [] ∧ Connected lo hi g) ∧
      (sweepFrom lo hi current stop l).Pairwise (Before lo hi)
  | [], current, stop, _, _, hc, ⟨x, hx, _⟩, _ => by
    refine ⟨fun g hg => ?_, List.pairwise_singleton _ _⟩
    rw [List.mem_singleton.1 hg]
    exact ⟨List.ne_nil_of_mem hx, hc⟩
  | a :: l, current, stop, hs, hp, hc, ⟨x, hx, hxs⟩, hmax => by
    have ha : lo a ≤ hi a := hp a List.mem_cons_self
    have hpl : Proper lo hi l := fun b hb => hp b (List.mem_cons_of_mem _ hb)
    have hafter : ∀ y ∈ current, lo y ≤ lo a := fun y hy => (List.pairwise_append.1 hs).2.2 y hy a List.mem_cons_self
    unfold sweepFrom
    by_cases hle : lo a ≤ stop
    · rw [if_pos hle]
      have hxa := hafter x hx
      refine sweepFrom_spec (by rwa [List.append_assoc, List.singleton_append]) hpl (hc.append hx
        ⟨by omega, by omega⟩) ?_ (fun y hy => ?_)
      · rcases le_total stop (hi a) with h | h
        · exact ⟨a, by simp, (max_eq_right h).symm⟩
        · exact ⟨x, List.mem_append_left _ hx, by rw [hxs, max_eq_left h]⟩
      · rcases List.mem_append.1 hy with hy | hy
        · exact le_trans (hmax y hy) (le_max_left _ _)
        · rw [List.mem_singleton.1 hy]
          exact le_max_right _ _
    · rw [if_neg hle]
      have hsl : (a :: l).Pairwise (fun a b => lo a ≤ lo b) := (List.pairwise_append.1 hs).2.1
      obtain ⟨hgroups, hpair⟩ :=
        sweepFrom_spec (show ([a] ++ l).Pairwise (fun a b => lo a ≤ lo b) from hsl) hpl (connected_singleton a)
        ⟨a, by simp, rfl⟩
        (fun y hy => by rw [List.mem_singleton.1 hy])
      refine ⟨fun g hg => ?_, List.pairwise_cons.2 ⟨fun g hg y hy z hz => ?_, hpair⟩⟩
      · rcases List.mem_cons.1 hg with rfl | hg
        · exact ⟨List.ne_nil_of_mem hx, hc⟩
        · exact hgroups g hg
      · -- the groups after the cut hold what is left of the list, which begins at `a` or later
        have hz' : z ∈ a :: l := by
          have := List.mem_flatten.2 ⟨g, hg, hz⟩
          rwa [flatten_sweepFrom] at this
        have h1 := hmax y hy
        rcases List.mem_cons.1 hz' with rfl | hz'
        · omega
        · have h2 := List.rel_of_pairwise_cons hsl hz'
          omega

theorem group_subset {g : List α} (hg : g ∈ sweep lo hi l) : ∀ x ∈ g, x ∈ l := fun x hx => by
  rw [← @flatten_sweep _ lo hi l]
  exact List.mem_flatten.2 ⟨g, hg, hx⟩

theorem exists_group (ha : a ∈ l) : ∃ g ∈ sweep lo hi l, a ∈ g := by
  rw [← @flatten_sweep _ lo hi l] at ha
  exact List.mem_flatten.1 ha

section Sorted

variable (hs : l.Pairwise (fun a b => lo a ≤ lo b)) (hp : Proper lo hi l)
include hs hp

theorem sweep_spec : (∀ g ∈ sweep lo hi l, g ≠ [] ∧ Connected lo hi g) ∧ (sweep lo hi l).Pairwise (Before lo hi) := by
  cases l with
  | nil => exact ⟨fun g hg => (by cases hg), List.Pairwise.nil⟩
  | cons a l =>
    exact sweepFrom_spec hs (fun b hb => hp b (List.mem_cons_of_mem _ hb)) (connected_singleton a) ⟨a, by simp, rfl⟩
      (fun y hy => by rw [List.mem_singleton.1 hy])

/-- Groups with spans that meet are one group. -/
theorem group_eq_of_meets {g g' : List α} (hg : g ∈ sweep lo hi l) (hg' : g' ∈ sweep lo hi l) (ha : a ∈ g)
    (hb : b ∈ g') (hm : Meets lo hi a b) :
    g = g' := by
  by_contra hne
  have hapart : (sweep lo hi l).Pairwise (fun g g' => ∀ x ∈ g, ∀ y ∈ g', ¬ Meets lo hi x y) :=
    (sweep_spec hs hp).2.imp (fun hbefore x hx y hy => not_meets_iff.2 (.inr (hbefore x hx y hy)))
  have : Std.Symm (fun g g' : List α => ∀ x ∈ g, ∀ y ∈ g', ¬ Meets lo hi x y) :=
    ⟨fun _ _ h x hx y hy hxy => h y hy x hx hxy.symm⟩
  exact List.Pairwise.forall hapart hg hg' hne a ha b hb hm

theorem mem_of_meets {g : List α} (hg : g ∈ sweep lo hi l) (ha : a ∈ g) (hb : b ∈ l)
    (hm : Meets lo hi a b) : b ∈ g := by
  obtain ⟨g', hg', hb'⟩ := exists_group hb
  rw [group_eq_of_meets hs hp hg hg' ha hb' hm]
  exact hb'

/-- **A group of the sweep holds the spans that are linked to one of it.** -/
theorem mem_group_iff {g : List α} (hg : g ∈ sweep lo hi l) (ha : a ∈ g) : b ∈ g ↔ Linked lo hi l a b := by
  constructor
  · intro hb
    exact (((sweep_spec hs hp).1 g hg).2 a ha b hb).mono (group_subset hg)
  · intro h
    exact h.stays (fun x hx y hy hm => mem_of_meets hs hp hg hx hy hm) ha

end Sorted

end Spans
