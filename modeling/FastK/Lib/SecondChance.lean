import Mathlib.Data.List.AList
import Mathlib.Algebra.Order.Group.Nat
/-!
# Caches with second-chance eviction

A map with a queue of its keys.  A hit marks its entry and leaves the queue alone; room is made by taking keys from
the front of the queue, which go to its end, unmarked, if they were marked, and out of the cache if not.  While the
queue holds each key of the map once and no others (`Tracked`), a victim is found before any key is looked at a third
time (`evict_spec`, `makeRoom_spec`).
-/
namespace SecondChance

structure Entry (ν : Type) where
  value : ν
  referenced : Bool
  deriving DecidableEq, Repr

structure Cache (κ ν : Type) where
  order : List κ
  entries : AList (fun _ : κ => Entry ν)

/-- What can stop an eviction without a victim. -/
inductive Stop where
  | emptyQueue
  | missingKey
  /-- The rounds allowed are used up. -/
  | unfinished
  deriving DecidableEq, Repr

namespace Cache

variable {κ ν : Type} [DecidableEq κ]

def empty : Cache κ ν := ⟨[], ∅⟩

def value (c : Cache κ ν) (k : κ) : Option ν := (c.entries.lookup k).map Entry.value

def isReferenced (c : Cache κ ν) (k : κ) : Bool := (c.entries.lookup k).any Entry.referenced

/-- A hit. -/
def touch (c : Cache κ ν) (k : κ) (e : Entry ν) : Cache κ ν :=
  { c with entries := c.entries.insert k { e with referenced := true } }

/-- The key goes to the end of the queue, unmarked. -/
def spare (c : Cache κ ν) (k : κ) (rest : List κ) (e : Entry ν) : Cache κ ν :=
  ⟨rest ++ [k], c.entries.insert k { e with referenced := false }⟩

/-- The loop that finds a victim, looking at as many keys as it is allowed. -/
def evict : Nat → Cache κ ν → Except Stop (Cache κ ν)
  | 0, _ => .error .unfinished
  | n + 1, c =>
    match c.order with
    | [] => .error .emptyQueue
    | k :: rest =>
      match c.entries.lookup k with
      | none => .error .missingKey
      | some e => if e.referenced then evict n (c.spare k rest e) else .ok ⟨rest, c.entries.erase k⟩

/-- A full cache loses an entry, in two rounds over its queue. -/
def makeRoom (capacity : Nat) (c : Cache κ ν) : Except Stop (Cache κ ν) :=
  if c.entries.entries.length = capacity then evict (2 * c.order.length) c else .ok c

def add (c : Cache κ ν) (k : κ) (v : ν) : Cache κ ν := ⟨c.order ++ [k], c.entries.insert k ⟨v, false⟩⟩

def remove (c : Cache κ ν) (k : κ) : Cache κ ν :=
  ⟨c.order.filter (fun candidate => decide (candidate ≠ k)), c.entries.erase k⟩

/-- The queue holds the keys of the map, each once. -/
structure Tracked (c : Cache κ ν) : Prop where
  nodup : c.order.Nodup
  mem_iff : ∀ k, k ∈ c.order ↔ k ∈ c.entries

variable {c c' : Cache κ ν} {k : κ} {e : Entry ν} {capacity n : Nat}

omit [DecidableEq κ] in
theorem Tracked.length_eq (h : c.Tracked) : c.entries.entries.length = c.order.length := by
  have hperm : c.order.Perm c.entries.keys := (List.perm_ext_iff_of_nodup h.nodup c.entries.keys_nodup).2 h.mem_iff
  rw [hperm.length_eq]
  exact (List.length_map _).symm

theorem Tracked.lookup (h : c.Tracked) (hk : k ∈ c.order) : ∃ e, c.entries.lookup k = some e :=
  Option.isSome_iff_exists.1 (AList.lookup_isSome.2 ((h.mem_iff k).1 hk))

omit [DecidableEq κ] in
theorem Tracked.empty : (empty : Cache κ ν).Tracked := ⟨List.nodup_nil, fun k => by simp [Cache.empty]⟩

/-! ## Changing one entry -/

theorem mem_insert_of_lookup {k' : κ} {e' : Entry ν} (hk : c.entries.lookup k = some e) :
    k' ∈ c.entries.insert k e' ↔ k' ∈ c.entries := by
  rw [AList.mem_insert]
  refine or_iff_right_of_imp (fun heq => ?_)
  rw [heq, ← AList.lookup_isSome, hk]
  rfl

theorem lookup_insert_map {α : Type} {k' : κ} {e' : Entry ν} (f : Entry ν → α) (hk : c.entries.lookup k = some e)
    (hf : f e' = f e) :
    ((c.entries.insert k e').lookup k').map f = (c.entries.lookup k').map f := by
  by_cases h : k' = k
  · rw [h, AList.lookup_insert, hk, Option.map_some, Option.map_some, hf]
  · rw [AList.lookup_insert_ne h]

theorem Tracked.touch (h : c.Tracked) (hk : c.entries.lookup k = some e) : (c.touch k e).Tracked :=
  ⟨h.nodup, fun k' => (h.mem_iff k').trans (mem_insert_of_lookup hk).symm⟩

theorem touch_value (hk : c.entries.lookup k = some e) (k' : κ) : (c.touch k e).value k' = c.value k' :=
  lookup_insert_map Entry.value hk rfl

theorem Tracked.remove (h : c.Tracked) : (c.remove k).Tracked where
  nodup := h.nodup.filter _
  mem_iff k' := by
    unfold Cache.remove
    rw [List.mem_filter, decide_eq_true_iff, AList.mem_erase, h.mem_iff]
    exact and_comm

theorem remove_value (k' : κ) : (c.remove k).value k' = if k' = k then none else c.value k' := by
  unfold Cache.remove value
  by_cases h : k' = k
  · rw [if_pos h, h, AList.lookup_erase]
    rfl
  · rw [if_neg h, AList.lookup_erase_ne h]

theorem length_remove_le : (c.remove k).order.length ≤ c.order.length := List.length_filter_le _ _

/-- A new key may enter. -/
theorem Tracked.add (h : c.Tracked) {v : ν} (hk : c.entries.lookup k = none) : (c.add k v).Tracked where
  nodup := by
    have hnot : k ∉ c.order := fun hm => AList.lookup_eq_none.1 hk ((h.mem_iff k).1 hm)
    exact List.Nodup.append h.nodup (List.nodup_singleton k) (by simpa using hnot)
  mem_iff k' := by
    unfold Cache.add
    rw [List.mem_append, List.mem_singleton, AList.mem_insert, h.mem_iff, or_comm]

theorem add_value {v : ν} (k' : κ) : (c.add k v).value k' = if k' = k then some v else c.value k' := by
  unfold Cache.add value
  by_cases h : k' = k
  · rw [if_pos h, h, AList.lookup_insert]
    rfl
  · rw [if_neg h, AList.lookup_insert_ne h]

/-! ## Finding a victim -/

section Spare

variable {rest : List κ}

theorem Tracked.spare (h : c.Tracked) (ho : c.order = k :: rest) (hk : c.entries.lookup k = some e) :
    (c.spare k rest e).Tracked where
  nodup := by
    have hn := h.nodup
    rw [ho] at hn
    exact (List.perm_append_singleton k rest).nodup_iff.2 hn
  mem_iff k' := by
    refine Iff.trans ?_ ((h.mem_iff k').trans (mem_insert_of_lookup hk).symm)
    rw [ho]
    exact (List.perm_append_singleton k rest).mem_iff

/-- Every key spared is one mark less. -/
theorem countP_spare (h : c.Tracked) (ho : c.order = k :: rest) (hk : c.entries.lookup k = some e)
    (he : e.referenced = true) :
    (c.spare k rest e).order.countP (c.spare k rest e).isReferenced + 1 = c.order.countP c.isReferenced := by
  have hn := h.nodup
  rw [ho, List.nodup_cons] at hn
  have hself : (c.spare k rest e).isReferenced k = false := by simp [Cache.spare, isReferenced]
  have hfront : c.isReferenced k = true := by simp [isReferenced, hk, he]
  have hrest : rest.countP (c.spare k rest e).isReferenced = rest.countP c.isReferenced := by
    refine List.countP_congr (fun k' hk' => ?_)
    have hne : k' ≠ k := fun heq => hn.1 (heq ▸ hk')
    simp [Cache.spare, isReferenced, AList.lookup_insert_ne hne]
  rw [ho, List.countP_cons_of_pos hfront]
  show (rest ++ [k]).countP _ + 1 = _
  rw [List.countP_append, hrest]
  simp [hself]

end Spare

/-- What an eviction leaves: one of the keys is gone, and the others have their values. -/
structure Evicted (c c' : Cache κ ν) (victim : κ) : Prop where
  tracked : c'.Tracked
  mem : victim ∈ c.order
  length : c'.order.length + 1 = c.order.length
  value : ∀ k, c'.value k = if k = victim then none else c.value k

/-- **A victim is found after one look at each marked key and one more.** -/
theorem evict_spec : ∀ {n : Nat} {c : Cache κ ν}, c.Tracked → c.order ≠ [] → c.order.countP c.isReferenced < n →
    ∃ c' victim, evict n c = .ok c' ∧ Evicted c c' victim
  | 0, _, _, _, hn => absurd hn (Nat.not_lt_zero _)
  | n + 1, c, h, hne, hn => by
    obtain ⟨k, rest, ho⟩ := List.exists_cons_of_ne_nil hne
    obtain ⟨e, hk⟩ := h.lookup (k := k) (ho ▸ List.mem_cons_self)
    have hlen : (rest ++ [k]).length = c.order.length := by
      rw [ho, List.length_append, List.length_singleton, List.length_cons]
    unfold evict
    rw [ho]
    simp only [hk]
    by_cases he : e.referenced = true
    · rw [if_pos he]
      have hcount := countP_spare h ho hk he
      obtain ⟨c', victim, hev, hspec⟩ :=
        evict_spec (h.spare ho hk) (List.append_ne_nil_of_right_ne_nil rest (List.cons_ne_nil k []))
        (show _ < n by omega)
      refine ⟨c', victim, hev, hspec.tracked, ?_, hspec.length.trans hlen, fun k' => ?_⟩
      · rw [ho]
        exact (List.perm_append_singleton k rest).mem_iff.1 hspec.mem
      · rw [hspec.value k']
        exact if_congr Iff.rfl rfl (lookup_insert_map Entry.value hk rfl)
    · rw [if_neg he]
      refine ⟨_, k, rfl, ⟨?_, fun k' => ?_⟩, ho ▸ List.mem_cons_self, ?_, fun k' => ?_⟩
      · exact (h.nodup.sublist (ho ▸ List.sublist_cons_self k rest))
      · have hn := h.nodup
        rw [ho, List.nodup_cons] at hn
        rw [AList.mem_erase, ← h.mem_iff, ho, List.mem_cons]
        constructor
        · exact fun hm => ⟨fun heq => hn.1 (heq ▸ hm), .inr hm⟩
        · exact fun hm => hm.2.resolve_left hm.1
      · rw [ho, List.length_cons]
      · unfold Cache.value
        by_cases hkk : k' = k
        · rw [if_pos hkk, hkk, AList.lookup_erase]
          rfl
        · rw [if_neg hkk, AList.lookup_erase_ne hkk]

/-- Two rounds over the queue are enough. -/
theorem evict_two_rounds (h : c.Tracked) (hne : c.order ≠ []) : ∃ c' victim, evict (2 * c.order.length) c = .ok c' ∧
    Evicted c c' victim := by
  refine evict_spec h hne (lt_of_le_of_lt (List.countP_le_length) ?_)
  have := List.length_pos_of_ne_nil hne
  omega

/-- **Making room always ends, with a cache that has room for one more.** -/
theorem makeRoom_spec (h : c.Tracked) (hpos : 0 < capacity) (hle : c.order.length ≤ capacity) :
    ∃ c', makeRoom capacity c = .ok c' ∧ c'.Tracked ∧ c'.order.length < capacity ∧
      ∀ k, c'.value k = c.value k ∨ c'.value k = none := by
  unfold makeRoom
  rw [h.length_eq]
  by_cases hfull : c.order.length = capacity
  · rw [if_pos hfull]
    obtain ⟨c', victim, hev, hspec⟩ := evict_two_rounds h (List.ne_nil_of_length_pos (by omega))
    refine ⟨c', hev, hspec.tracked, ?_, fun k => ?_⟩
    · have := hspec.length
      omega
    · rw [hspec.value k]
      by_cases hk : k = victim
      · exact .inr (if_pos hk)
      · exact .inl (if_neg hk)
  · rw [if_neg hfull]
    exact ⟨c, rfl, h, by omega, fun k => .inl rfl⟩

end Cache

end SecondChance
