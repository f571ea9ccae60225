import Mathlib.Data.List.AList
/-!
# Caches with a queue of last use

A map with a queue of its keys, the one used last at the end.  A use moves the key to the end; room is made by taking
keys from the front, as long as the map has more of them than it may.  The loop that does so goes by the size of the
map and takes from the queue, so it spins where the queue is empty first.  While the queue holds each key of the map
once and no others (`Tracked`), it ends, with the keys used last (`trim_spec`).
-/
namespace Recency

structure Cache (κ ν : Type) where
  order : List κ
  values : AList (fun _ : κ => ν)

namespace Cache

variable {κ ν : Type} [DecidableEq κ]

def empty : Cache κ ν := ⟨[], ∅⟩

def size (c : Cache κ ν) : Nat := c.values.entries.length

/-- The key goes to the end of the queue. -/
def touched (order : List κ) (k : κ) : List κ := order.erase k ++ [k]

/-- A hit. -/
def touch (c : Cache κ ν) (k : κ) : Cache κ ν := { c with order := touched c.order k }

/-- A value is entered under a key, in the place of the one there, if any. -/
def enter (c : Cache κ ν) (k : κ) (v : ν) : Cache κ ν := ⟨touched c.order k, c.values.insert k v⟩

/-- The map and the queue, without the keys that fail a test. -/
def retain (c : Cache κ ν) (keep : κ → Bool) : Cache κ ν :=
  ⟨c.order.filter keep, ⟨c.values.entries.filter (fun entry => keep entry.1),
    c.values.nodupKeys.sublist List.filter_sublist⟩⟩

/-- The loop that makes room, for so many rounds; `none` where it has not ended by then. -/
def trimLoop (capacity : Nat) : Nat → Cache κ ν → Option (Cache κ ν)
  | 0, _ => none
  | rounds + 1, c =>
    if c.size ≤ capacity then some c
    else
      match c.order with
      | [] => trimLoop capacity rounds c
      | k :: rest => trimLoop capacity rounds ⟨rest, c.values.erase k⟩

/-- A loop that has not ended once the queue is empty never ends (`trimLoop_rounds`). -/
def trim (capacity : Nat) (c : Cache κ ν) : Option (Cache κ ν) := trimLoop capacity (c.order.length + 1) c

/-- The queue holds the keys of the map, each once. -/
structure Tracked (c : Cache κ ν) : Prop where
  nodup : c.order.Nodup
  mem_iff : ∀ k, k ∈ c.order ↔ k ∈ c.values

variable {c c' : Cache κ ν} {k : κ} {v : ν} {capacity rounds : Nat}

omit [DecidableEq κ] in
theorem Tracked.size_eq (h : c.Tracked) : c.size = c.order.length := by
  have hperm : c.order.Perm c.values.keys := (List.perm_ext_iff_of_nodup h.nodup c.values.keys_nodup).2 h.mem_iff
  rw [hperm.length_eq]
  exact (List.length_map _).symm

omit [DecidableEq κ] in
theorem Tracked.empty : (empty : Cache κ ν).Tracked := ⟨List.nodup_nil, fun k => by simp [Cache.empty]⟩

theorem mem_touched {order : List κ} {k' : κ} : k' ∈ touched order k ↔ k' = k ∨ k' ∈ order := by
  unfold touched
  rw [List.mem_append, List.mem_singleton]
  by_cases h : k' = k
  · exact iff_of_true (.inr h) (.inl h)
  · rw [List.mem_erase_of_ne h, or_comm]

theorem nodup_touched {order : List κ} (h : order.Nodup) (k : κ) : (touched order k).Nodup := by
  refine List.Nodup.append (h.erase k) (List.nodup_singleton k) ?_
  rw [List.disjoint_singleton]
  exact h.not_mem_erase

theorem Tracked.touch (h : c.Tracked) (hk : k ∈ c.values) : (c.touch k).Tracked where
  nodup := nodup_touched h.nodup k
  mem_iff k' := by
    show k' ∈ touched c.order k ↔ k' ∈ c.values
    rw [mem_touched, h.mem_iff]
    exact or_iff_right_of_imp (fun heq => heq ▸ hk)

theorem Tracked.enter (h : c.Tracked) (k : κ) (v : ν) : (c.enter k v).Tracked where
  nodup := nodup_touched h.nodup k
  mem_iff k' := by
    show k' ∈ touched c.order k ↔ k' ∈ c.values.insert k v
    rw [mem_touched, h.mem_iff, AList.mem_insert]

omit [DecidableEq κ] in
theorem Tracked.retain (h : c.Tracked) (keep : κ → Bool) : (c.retain keep).Tracked where
  nodup := h.nodup.filter _
  mem_iff k := by
    have hkeys : k ∈ c.values ↔ ∃ entry ∈ c.values.entries, entry.1 = k := by
      rw [AList.mem_keys]
      exact List.mem_map
    show k ∈ c.order.filter keep ↔ k ∈ (c.values.entries.filter (fun entry => keep entry.1)).keys
    rw [List.mem_filter, h.mem_iff, hkeys]
    unfold List.keys
    rw [List.mem_map]
    constructor
    · rintro ⟨⟨entry, hentry, rfl⟩, hkeep⟩
      exact ⟨entry, List.mem_filter.2 ⟨hentry, hkeep⟩, rfl⟩
    · rintro ⟨entry, hentry, rfl⟩
      exact ⟨⟨entry, (List.mem_filter.1 hentry).1, rfl⟩, (List.mem_filter.1 hentry).2⟩

omit [DecidableEq κ] in
theorem size_retain_le (keep : κ → Bool) : (c.retain keep).size ≤ c.size := List.length_filter_le _ _

theorem lookup_of_retain {keep : κ → Bool} (h : (c.retain keep).values.lookup k = some v) :
    c.values.lookup k = some v := by
  have hmem : (⟨k, v⟩ : Sigma fun _ : κ => ν) ∈ c.values.entries.filter (fun entry => keep entry.1) :=
    AList.mem_lookup_iff.1 h
  exact AList.mem_lookup_iff.2 (List.mem_filter.1 hmem).1

/-- Taking the first key of the queue out of both. -/
theorem Tracked.pop {rest : List κ} {values : AList (fun _ : κ => ν)} (h : Tracked ⟨k :: rest, values⟩) :
    Tracked ⟨rest, values.erase k⟩ where
  nodup := h.nodup.of_cons
  mem_iff k' := by
    show k' ∈ rest ↔ k' ∈ values.erase k
    rw [AList.mem_erase, ← h.mem_iff, List.mem_cons]
    constructor
    · exact fun hk' => ⟨fun heq => (List.nodup_cons.1 h.nodup).1 (heq ▸ hk'), .inr hk'⟩
    · exact fun hk' => hk'.2.resolve_left hk'.1

/-! ## Making room -/

/-- With no key left to take the loop goes round for ever. -/
theorem trimLoop_spins {values : AList (fun _ : κ => ν)} (h : capacity < values.entries.length) :
    ∀ rounds, trimLoop capacity rounds ⟨[], values⟩ = none
  | 0 => rfl
  | rounds + 1 => by
    have hsize : ¬ (⟨[], values⟩ : Cache κ ν).size ≤ capacity := Nat.not_le.2 h
    unfold trimLoop
    rw [if_neg hsize]
    exact trimLoop_spins h rounds

/-- **More rounds than the queue has keys change nothing.** -/
theorem trimLoop_rounds : ∀ (rounds : Nat) (c : Cache κ ν), c.order.length < rounds →
    trimLoop capacity rounds c = trim capacity c
  | rounds + 1, ⟨[], values⟩, _ => by
    by_cases h : values.entries.length ≤ capacity
    · have hsize : (⟨[], values⟩ : Cache κ ν).size ≤ capacity := h
      unfold trim trimLoop
      rw [if_pos hsize, if_pos hsize]
    · rw [trimLoop_spins (Nat.not_le.1 h), trim, trimLoop_spins (Nat.not_le.1 h)]
  | rounds + 1, ⟨k :: rest, values⟩, hr => by
    have hlen : (⟨rest, values.erase k⟩ : Cache κ ν).order.length < rounds := Nat.lt_of_succ_lt_succ hr
    unfold trim trimLoop
    split
    · rfl
    · simp only
      rw [trimLoop_rounds rounds _ hlen]
      rfl

/-- **The loop ends**, and the cache is left with the keys at the end of its queue, as many as it may hold, and their
values. -/
theorem trim_spec : ∀ (order : List κ) (values : AList (fun _ : κ => ν)), Tracked ⟨order, values⟩ →
    ∃ c', trim capacity ⟨order, values⟩ = some c' ∧
    c'.Tracked ∧ c'.order = order.drop (order.length - capacity) ∧ ∀ k ∈ c'.order, c'.values.lookup k = values.lookup k
  | [], values, h => by
    have hsize : (⟨[], values⟩ : Cache κ ν).size ≤ capacity := by
      rw [h.size_eq]
      exact Nat.zero_le _
    refine ⟨⟨[], values⟩, ?_, h, List.drop_nil.symm, fun k hk => absurd hk List.not_mem_nil⟩
    unfold trim trimLoop
    rw [if_pos hsize]
  | k :: rest, values, h => by
    have hsize : (⟨k :: rest, values⟩ : Cache κ ν).size = rest.length + 1 := h.size_eq
    have hstep : trim capacity ⟨k :: rest, values⟩
        = if rest.length + 1 ≤ capacity then some ⟨k :: rest, values⟩ else trim capacity ⟨rest, values.erase k⟩ := by
      rw [← hsize]
      rfl
    rw [List.length_cons, hstep]
    by_cases hle : rest.length + 1 ≤ capacity
    · refine ⟨⟨k :: rest, values⟩, by rw [if_pos hle], h, ?_, fun _ _ => rfl⟩
      rw [Nat.sub_eq_zero_of_le hle, List.drop_zero]
    · obtain ⟨c', htrim, ht, horder, hvalues⟩ := trim_spec rest (values.erase k) h.pop
      refine ⟨c', by rw [if_neg hle, htrim], ht, ?_, fun k' hk' => ?_⟩
      · rw [show rest.length + 1 - capacity = (rest.length - capacity) + 1 by omega, List.drop_succ_cons]
        exact horder
      · have hmem : k' ∈ rest := List.mem_of_mem_drop (horder ▸ hk')
        have hne : k' ≠ k := fun heq => (List.nodup_cons.1 h.nodup).1 (heq ▸ hmem)
        exact (hvalues k' hk').trans (AList.lookup_erase_ne hne)

/-- **A value that is entered stays**, if there is room for any, and the cache holds no more than it may. -/
theorem enter_trim (h : c.Tracked) (k : κ) (v : ν) (capacity : Nat) : ∃ c', trim capacity (c.enter k v) = some c' ∧
    c'.Tracked ∧ c'.size ≤ capacity ∧
    (1 ≤ capacity → c'.values.lookup k = some v) ∧ ∀ k' v', c'.values.lookup k' = some v' → (k' = k ∧ v' = v) ∨
      c.values.lookup k' = some v' := by
  obtain ⟨c', htrim, ht, horder, hvalues⟩ := @trim_spec κ ν _ capacity _ _ (h.enter k v)
  refine ⟨c', htrim, ht, ?_, fun hcap => ?_, fun k' v' hk' => ?_⟩
  · rw [ht.size_eq, horder, List.length_drop]
    omega
  · have hmem : k ∈ c'.order := by
      rw [horder]
      unfold touched
      rw [List.drop_append_of_le_length (by rw [List.length_append, List.length_singleton]; omega)]
      exact List.mem_append_right _ (List.mem_singleton_self k)
    rw [hvalues k hmem, AList.lookup_insert]
  · have hmem : k' ∈ c'.order := (ht.mem_iff k').2 (AList.lookup_isSome.1 (by rw [hk']; rfl))
    rw [hvalues k' hmem] at hk'
    by_cases heq : k' = k
    · subst heq
      rw [AList.lookup_insert] at hk'
      exact .inl ⟨rfl, (Option.some.inj hk').symm⟩
    · exact .inr ((AList.lookup_insert_ne heq).symm.trans hk')

end Cache

end Recency
