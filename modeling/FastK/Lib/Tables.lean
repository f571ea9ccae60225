import Mathlib.Data.List.Nodup
import Mathlib.Data.List.Dedup
/-!
# Tables with a primary key

The rows of a table, no two of which have the same key, and the statements that change it: an insertion that is
refused where the key is taken, and an insertion that updates the row with its key where a condition allows it and
counts the rows it changed. A statement changes at most the row it names (`select_upsert_of_ne`,
`select_insert_of_ne`), and a conditional one leaves the table as it is where it changed no row
(`upsert_eq_of_unchanged`).
-/
namespace Tables

/-- A table: its rows, whose keys differ. -/
structure Table {κ ρ : Type} (key : ρ → κ) where
  rows : List ρ
  unique : (rows.map key).Nodup

namespace Table

variable {κ ρ : Type} [DecidableEq κ] {key : ρ → κ}

def empty : Table key := ⟨[], List.nodup_nil⟩

/-- The row with the key. -/
def select (t : Table key) (k : κ) : Option ρ := t.rows.find? (fun row => decide (key row = k))

/-- The rows with the row put in the place of the one that has its key. -/
def replaceRow (key : ρ → κ) (row : ρ) (rows : List ρ) : List ρ :=
  rows.map (fun old => if key old = key row then row else old)

theorem map_key_replaceRow (row : ρ) (rows : List ρ) : (replaceRow key row rows).map key = rows.map key := by
  unfold replaceRow
  rw [List.map_map]
  refine List.map_congr_left (fun old _ => ?_)
  by_cases h : key old = key row
  · simp [h]
  · simp [h]

/-- `INSERT`, where the key is free. -/
def add (t : Table key) (row : ρ) (h : key row ∉ t.rows.map key) : Table key where
  rows := t.rows ++ [row]
  unique := by
    rw [List.map_append, List.map_singleton]
    exact List.Nodup.append t.unique (List.nodup_singleton _) (by simpa using h)

/-- `INSERT`: refused where the key is taken. -/
def insert (t : Table key) (row : ρ) : Option (Table key) :=
  if h : key row ∈ t.rows.map key then none else some (t.add row h)

/-- `INSERT … ON CONFLICT DO UPDATE … WHERE allowed`: the table after it, and the number of rows it changed. -/
def upsert (t : Table key) (allowed : Bool) (row : ρ) : Table key × Nat :=
  if h : key row ∈ t.rows.map key then
    if allowed then ({ rows := replaceRow key row t.rows, unique := by rw [map_key_replaceRow]; exact t.unique }, 1)
    else (t, 0)
  else (t.add row h, 1)

variable {t t' : Table key} {row : ρ} {k : κ} {allowed : Bool}

theorem select_eq_none : t.select k = none ↔ k ∉ t.rows.map key := by
  simp [select, List.find?_eq_none]

theorem select_add_self (h : key row ∉ t.rows.map key) : (t.add row h).select (key row) = some row := by
  have hnone : t.rows.find? (fun old => decide (key old = key row)) = none := select_eq_none.2 h
  simp [select, add, List.find?_append, hnone]

theorem select_add_of_ne (h : key row ∉ t.rows.map key) (hk : k ≠ key row) : (t.add row h).select k = t.select k := by
  have hrow : ¬ key row = k := fun he => hk he.symm
  simp [select, add, List.find?_append, hrow]

/-! ## Insertions -/

/-- An insertion that is not refused found the key free. -/
theorem select_eq_none_of_insert (h : t.insert row = some t') : t.select (key row) = none := by
  unfold insert at h
  by_cases hk : key row ∈ t.rows.map key
  · rw [dif_pos hk] at h
    cases h
  · exact select_eq_none.2 hk

theorem select_insert_self (h : t.insert row = some t') : t'.select (key row) = some row := by
  unfold insert at h
  by_cases hk : key row ∈ t.rows.map key
  · rw [dif_pos hk] at h
    cases h
  · rw [dif_neg hk] at h
    obtain rfl := Option.some.inj h
    exact select_add_self hk

theorem select_insert_of_ne (h : t.insert row = some t') (hk : k ≠ key row) : t'.select k = t.select k := by
  unfold insert at h
  by_cases hmem : key row ∈ t.rows.map key
  · rw [dif_pos hmem] at h
    cases h
  · rw [dif_neg hmem] at h
    obtain rfl := Option.some.inj h
    exact select_add_of_ne hmem hk

/-! ## Conditional updates -/

theorem find?_replaceRow_self : ∀ {rows : List ρ}, key row ∈ rows.map key →
    (replaceRow key row rows).find? (fun old => decide (key old = key row)) = some row
  | [], h => by cases h
  | old :: rows, h => by
    unfold replaceRow
    rw [List.map_cons]
    by_cases ho : key old = key row
    · simp [ho]
    · rw [if_neg ho, List.find?_cons_of_neg (by simpa using ho)]
      refine find?_replaceRow_self ?_
      rw [List.map_cons, List.mem_cons] at h
      exact h.resolve_left (fun he => ho he.symm)

theorem find?_replaceRow_of_ne (hk : k ≠ key row) : ∀ rows : List ρ,
    (replaceRow key row rows).find? (fun old => decide (key old = k)) = rows.find? (fun old => decide (key old = k))
  | [] => rfl
  | old :: rows => by
    have ih := find?_replaceRow_of_ne hk rows
    unfold replaceRow at ih ⊢
    rw [List.map_cons]
    by_cases ho : key old = key row
    · rw [if_pos ho, List.find?_cons_of_neg (by simpa using fun he => hk he.symm),
        List.find?_cons_of_neg (by rw [ho]; simpa using fun he => hk he.symm), ih]
    · rw [if_neg ho]
      by_cases hold : key old = k
      · rw [List.find?_cons_of_pos (by simpa using hold), List.find?_cons_of_pos (by simpa using hold)]
      · rw [List.find?_cons_of_neg (by simpa using hold), List.find?_cons_of_neg (by simpa using hold), ih]

/-- A row that is free or may be updated is stored, and counted. -/
theorem upsert_of_allowed (h : t.select (key row) = none ∨ allowed = true) :
    (t.upsert allowed row).2 = 1 ∧ (t.upsert allowed row).1.select (key row) = some row := by
  unfold upsert
  by_cases hk : key row ∈ t.rows.map key
  · have ha := h.resolve_left (fun hn => select_eq_none.1 hn hk)
    rw [dif_pos hk, if_pos ha]
    exact ⟨rfl, find?_replaceRow_self hk⟩
  · rw [dif_neg hk]
    exact ⟨rfl, select_add_self hk⟩

/-- A row that is taken and may not be updated leaves the table as it is. -/
theorem upsert_of_refused (h : t.select (key row) ≠ none) (ha : allowed = false) : t.upsert allowed row = (t, 0) := by
  have hk : key row ∈ t.rows.map key := by
    by_contra hn
    exact h (select_eq_none.2 hn)
  unfold upsert
  rw [dif_pos hk, ha]
  rfl

theorem upsert_eq_of_unchanged (h : (t.upsert allowed row).2 = 0) : (t.upsert allowed row).1 = t := by
  unfold upsert at h ⊢
  by_cases hk : key row ∈ t.rows.map key
  · rw [dif_pos hk] at h ⊢
    cases allowed with
    | false => rfl
    | true => cases h
  · rw [dif_neg hk] at h
    cases h

theorem select_upsert_of_ne (hk : k ≠ key row) : (t.upsert allowed row).1.select k = t.select k := by
  unfold upsert
  by_cases hmem : key row ∈ t.rows.map key
  · rw [dif_pos hmem]
    cases allowed with
    | false => rfl
    | true => exact find?_replaceRow_of_ne hk t.rows
  · rw [dif_neg hmem]
    exact select_add_of_ne hmem hk

end Table

end Tables
