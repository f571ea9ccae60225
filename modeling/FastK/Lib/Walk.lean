import Mathlib.Data.List.Nodup
import Mathlib.Data.List.Dedup
/-!
# Walks that stop early

The nodes of a tree are the paths from its root, and the tree holds the ways to a list of paths.  A walk goes down
from a node and stops at the first node of each branch that passes a test: what it collects are the nodes that pass
and below no other that does (`mem_collect`), each once (`collect_nodup`).
-/
namespace Walk

variable {α : Type} [DecidableEq α]

/-- The nodes one step below on the ways to the paths. -/
def children (paths : List (List α)) (d : List α) : List (List α) :=
  ((paths.filter (fun e => d.isPrefixOf e && decide (d.length < e.length))).map (fun e => e.take (d.length + 1))).dedup

/-- The walk, to a depth; the children of a node are met in some order. -/
def collect (order : List (List α) → List (List α)) (paths : List (List α)) (stop : List α → Bool) :
    Nat → List α → List (List α)
  | 0, _ => []
  | n + 1, d => if stop d = true then [d] else (order (children paths d)).flatMap (collect order paths stop n)

variable {order : List (List α) → List (List α)} {paths : List (List α)} {stop : List α → Bool} {d e c p : List α}

theorem mem_children : c ∈ children paths d ↔ c.length = d.length + 1 ∧ d <+: c ∧ ∃ e ∈ paths, c <+: e := by
  unfold children
  rw [List.mem_dedup, List.mem_map]
  constructor
  · rintro ⟨e, he, rfl⟩
    obtain ⟨hmem, hbelow⟩ := List.mem_filter.1 he
    simp only [Bool.and_eq_true, List.isPrefixOf_iff_prefix, decide_eq_true_eq] at hbelow
    refine ⟨by rw [List.length_take]; omega, ?_, e, hmem, List.take_prefix _ e⟩
    exact List.prefix_take_iff.2 ⟨hbelow.1, by omega⟩
  · rintro ⟨hlen, hdc, e, he, hce⟩
    refine ⟨e, List.mem_filter.2 ⟨he, ?_⟩, ?_⟩
    · have := hce.length_le
      simp only [Bool.and_eq_true, List.isPrefixOf_iff_prefix, decide_eq_true_eq]
      exact ⟨hdc.trans hce, by omega⟩
    · rw [← hlen]
      exact (List.prefix_iff_eq_take.1 hce).symm

/-- Where a walk stops. -/
structure Stops (paths : List (List α)) (stop : List α → Bool) (d e : List α) : Prop where
  below : d <+: e
  reached : e = d ∨ ∃ p ∈ paths, e <+: p
  passes : stop e = true
  first : ∀ p, d <+: p → p <+: e → p ≠ e → stop p = false

omit [DecidableEq α] in
/-- Only what the paths reach matters. -/
theorem Stops.congr {paths' : List (List α)} (h : ∀ e, e = d ∨ (∃ p ∈ paths, e <+: p) ↔ e = d ∨ ∃ p ∈ paths', e <+: p) :
    Stops paths stop d e ↔ Stops paths' stop d e :=
  ⟨fun hs => ⟨hs.below, (h e).1 hs.reached, hs.passes, hs.first⟩, fun hs =>
    ⟨hs.below, (h e).2 hs.reached, hs.passes, hs.first⟩⟩

omit [DecidableEq α] in
/-- A test that agrees on what the paths reach stops the walk at the same nodes. -/
theorem Stops.of_stop {stop' : List α → Bool} (h : Stops paths stop d e) (hs : ∀ p, p = d ∨ (∃ q ∈ paths, p <+: q) →
      stop' p = stop p) :
    Stops paths stop' d e where
  below := h.below
  reached := h.reached
  passes := (hs e h.reached).trans h.passes
  first p hdp hpe hne := by
    rw [hs p ?_]
    · exact h.first p hdp hpe hne
    · rcases h.reached with rfl | ⟨q, hq, heq⟩
      · exact .inl (hpe.eq_of_length_le hdp.length_le)
      · exact .inr ⟨q, hq, hpe.trans heq⟩

theorem Stops.down (h : Stops paths stop c e) (hc : c ∈ children paths d) (hd : stop d ≠ true) :
    Stops paths stop d e := by
  obtain ⟨hlen, hdc, q, hq, hcq⟩ := mem_children.1 hc
  refine ⟨hdc.trans h.below, ?_, h.passes, fun p hdp hpe hne => ?_⟩
  · rcases h.reached with rfl | hr
    · exact .inr ⟨q, hq, hcq⟩
    · exact .inr hr
  · -- a node above the child is the one the walk has left
    by_cases hle : c.length ≤ p.length
    · exact h.first p (List.prefix_of_prefix_length_le h.below hpe hle) hpe hne
    · have hp : d = p := hdp.eq_of_length_le (by omega)
      rw [← hp]
      exact Bool.eq_false_iff.2 hd

theorem Stops.up (h : Stops paths stop d e) (hd : stop d ≠ true) : ∃ c ∈ children paths d, Stops paths stop c e := by
  have hne : e ≠ d := fun he => hd (he ▸ h.passes)
  obtain ⟨p, hp, hep⟩ := h.reached.resolve_left hne
  have hlt : d.length < e.length := by
    by_contra hle
    exact hne (h.below.eq_of_length_le (by omega)).symm
  have hlen : (e.take (d.length + 1)).length = d.length + 1 := by
    rw [List.length_take]
    omega
  have hdc : d <+: e.take (d.length + 1) := List.prefix_take_iff.2 ⟨h.below, by omega⟩
  refine ⟨e.take (d.length + 1), mem_children.2 ⟨hlen, hdc, p, hp, (List.take_prefix _ e).trans hep⟩, ?_⟩
  exact ⟨List.take_prefix _ e, .inr ⟨p, hp, hep⟩, h.passes, fun q hq hqe hne => h.first q (hdc.trans hq) hqe hne⟩

section Order

variable (horder : ∀ l, (order l).Perm l)

include horder

theorem collect_sound : ∀ {n : Nat} {d : List α}, e ∈ collect order paths stop n d → Stops paths stop d e
  | 0, _, h => nomatch h
  | n + 1, d, h => by
    unfold collect at h
    by_cases hd : stop d = true
    · rw [if_pos hd] at h
      obtain rfl := List.mem_singleton.1 h
      refine ⟨List.prefix_refl e, .inl rfl, hd, fun p hep hpe hne => ?_⟩
      exact absurd (hpe.eq_of_length_le hep.length_le) hne
    · rw [if_neg hd] at h
      obtain ⟨c, hc, hce⟩ := List.mem_flatMap.1 h
      exact (collect_sound hce).down ((horder _).mem_iff.1 hc) hd

theorem collect_complete : ∀ {n : Nat} {d : List α}, e.length < d.length + n → Stops paths stop d e →
    e ∈ collect order paths stop n d
  | 0, d, hn, h => by
    have := h.below.length_le
    omega
  | n + 1, d, hn, h => by
    unfold collect
    by_cases hd : stop d = true
    · rw [if_pos hd, List.mem_singleton]
      by_contra hne
      have := h.first d (List.prefix_refl d) h.below (fun he => hne he.symm)
      rw [hd] at this
      cases this
    · rw [if_neg hd]
      obtain ⟨c, hc, hce⟩ := h.up hd
      obtain ⟨hlen, -, -⟩ := mem_children.1 hc
      exact List.mem_flatMap.2 ⟨c, (horder _).mem_iff.2 hc, collect_complete (by omega) hce⟩

/-- **The walk collects the first nodes that pass**, when it goes deep enough. -/
theorem mem_collect {n : Nat} (hpos : 0 < n) (hn : ∀ p ∈ paths, p.length < d.length + n) :
    e ∈ collect order paths stop n d ↔ Stops paths stop d e := by
  constructor
  · exact collect_sound horder
  · intro h
    refine collect_complete horder ?_ h
    rcases h.reached with rfl | ⟨p, hp, hep⟩
    · omega
    · have := hn p hp
      have := hep.length_le
      omega

/-- Each node is collected once. -/
theorem collect_nodup : ∀ (n : Nat) (d : List α), (collect order paths stop n d).Nodup
  | 0, _ => List.nodup_nil
  | n + 1, d => by
    unfold collect
    by_cases hd : stop d = true
    · rw [if_pos hd]
      exact List.nodup_singleton d
    · rw [if_neg hd, List.nodup_flatMap]
      have hnodup : (order (children paths d)).Nodup := (horder _).nodup_iff.2 (List.nodup_dedup _)
      refine ⟨fun c _ => collect_nodup n c, hnodup.imp_of_mem (fun {a b} ha hb hne => ?_)⟩
      intro e hea heb
      have hla := (mem_children.1 ((horder _).mem_iff.1 ha)).1
      have hlb := (mem_children.1 ((horder _).mem_iff.1 hb)).1
      have hab : a <+: b :=
        List.prefix_of_prefix_length_le (collect_sound horder hea).below (collect_sound horder heb).below (by omega)
      exact hne (hab.eq_of_length_le (by omega))

end Order

end Walk
