import Mathlib.Data.List.Basic
import Mathlib.Data.List.Perm.Basic
/-!
# A buffer filled in parts

A buffer whose slots are not initialised is written part by part, each part into its own run of slots.  Parts that lie
apart may be written in any order (`fill_inside`), and parts that are split off the front of the buffer one after
another leave no slot out: what the buffer holds at the end is the values of the parts in the order they were split
off (`assumeInit_fill_placed`).
-/
namespace Slots

variable {α : Type}

/-- A buffer of which no slot is initialised. -/
def uninit : Nat → Option α := fun _ => none

/-- The buffer after the values are written from the slot `start` on. -/
def write (buffer : Nat → Option α) (start : Nat) (values : List α) : Nat → Option α := fun i =>
  if start ≤ i ∧ i < start + values.length then values[i - start]? else buffer i

/-- The buffer after the parts, each with the slot it starts at, are written one after another. -/
def fill (buffer : Nat → Option α) (parts : List (Nat × List α)) : Nat → Option α :=
  parts.foldl (fun b part => write b part.1 part.2) buffer

/-- As many slots from `start` on, where all of them are initialised. -/
def slotsFrom (buffer : Nat → Option α) (start : Nat) : Nat → Option (List α)
  | 0 => some []
  | n + 1 =>
    match buffer start with
    | none => none
    | some value => (slotsFrom buffer (start + 1) n).map (fun values => value :: values)

/-- The first `n` slots. -/
def assumeInit (n : Nat) (buffer : Nat → Option α) : Option (List α) := slotsFrom buffer 0 n

/-- Two parts have no slot in common. -/
def Apart (p q : Nat × List α) : Prop := p.1 + p.2.length ≤ q.1 ∨ q.1 + q.2.length ≤ p.1

theorem Apart.symm {p q : Nat × List α} (h : Apart p q) : Apart q p := Or.symm h

/-- The parts in runs of slots that follow each other, from the slot `start` on. -/
def placed : Nat → List (List α) → List (Nat × List α)
  | _, [] => []
  | start, values :: rest => (start, values) :: placed (start + values.length) rest

/-! ## Any order -/

theorem fill_outside {i : Nat} : ∀ {parts : List (Nat × List α)} {buffer : Nat → Option α},
    (∀ p ∈ parts, ¬ (p.1 ≤ i ∧ i < p.1 + p.2.length)) → fill buffer parts i = buffer i
  | [], _, _ => rfl
  | p :: parts, buffer, h => by
    have hrest : fill (write buffer p.1 p.2) parts i = write buffer p.1 p.2 i :=
      fill_outside (fun q hq => h q (List.mem_cons_of_mem p hq))
    refine hrest.trans ?_
    unfold write
    rw [if_neg (h p (by simp))]

/-- **In whatever order parts that lie apart are written, each holds its own values.** -/
theorem fill_inside {i : Nat} {p : Nat × List α} (hi : p.1 ≤ i ∧ i < p.1 + p.2.length) : ∀ {parts : List (Nat × List α)}
    {buffer : Nat → Option α}, p ∈ parts → parts.Pairwise Apart → fill buffer parts i = p.2[i - p.1]?
  | q :: parts, buffer, hp, happart => by
    obtain ⟨hq, hparts⟩ := List.pairwise_cons.1 happart
    rcases List.mem_cons.1 hp with rfl | hp
    · have hrest : fill (write buffer p.1 p.2) parts i = write buffer p.1 p.2 i := by
        refine fill_outside (fun r hr hin => ?_)
        rcases hq r hr with h | h
        · omega
        · omega
      refine hrest.trans ?_
      unfold write
      rw [if_pos hi]
    · show fill (write buffer q.1 q.2) parts i = p.2[i - p.1]?
      exact fill_inside hi hp hparts

/-! ## Parts that follow each other -/

theorem placed_start_le : ∀ {lists : List (List α)} {start : Nat}, ∀ p ∈ placed start lists, start ≤ p.1
  | [], _, p, hp => by cases hp
  | values :: rest, start, p, hp => by
    rcases List.mem_cons.1 hp with rfl | hp
    · exact Nat.le_refl _
    · have := placed_start_le p hp
      omega

theorem placed_apart : ∀ (lists : List (List α)) (start : Nat), (placed start lists).Pairwise Apart
  | [], _ => .nil
  | values :: rest, start => by
    refine List.pairwise_cons.2 ⟨fun p hp => .inl ?_, placed_apart rest _⟩
    exact placed_start_le p hp

/-- Every slot belongs to a part, at the place of its value among all of them. -/
theorem exists_placed : ∀ {lists : List (List α)} {start i : Nat}, start ≤ i → i < start + lists.flatten.length →
    ∃ p ∈ placed start lists, (p.1 ≤ i ∧ i < p.1 + p.2.length) ∧ p.2[i - p.1]? = lists.flatten[i - start]?
  | [], start, i, hs, hi => by
    rw [List.flatten_nil, List.length_nil] at hi
    omega
  | values :: rest, start, i, hs, hi => by
    rw [List.flatten_cons, List.length_append] at hi
    by_cases hin : i < start + values.length
    · refine ⟨(start, values), by simp [placed], ⟨hs, hin⟩, ?_⟩
      rw [List.flatten_cons, List.getElem?_append_left (by omega)]
    · obtain ⟨p, hp, hi', hvalue⟩ := @exists_placed rest (start + values.length) i (by omega) (by omega)
      refine ⟨p, by simp [placed, hp], hi', hvalue.trans ?_⟩
      rw [List.flatten_cons, List.getElem?_append_right (by omega), Nat.sub_sub]

theorem slotsFrom_eq {buffer : Nat → Option α} : ∀ {values : List α} {start : Nat},
    (∀ i < values.length, buffer (start + i) = values[i]?) → slotsFrom buffer start values.length = some values
  | [], _, _ => rfl
  | value :: values, start, h => by
    have hrest : slotsFrom buffer (start + 1) values.length = some values := by
      refine slotsFrom_eq (fun i hi => ?_)
      have hnext := h (i + 1) (Nat.succ_lt_succ hi)
      rwa [← Nat.add_assoc, Nat.add_right_comm] at hnext
    have hfirst : buffer start = some value := h 0 (Nat.succ_pos _)
    rw [List.length_cons, slotsFrom, hfirst]
    simp only [hrest, Option.map_some]

/-- **Parts that follow each other, written in any order, fill the buffer with their values in their own order.** -/
theorem assumeInit_fill_placed {lists : List (List α)} {parts : List (Nat × List α)}
    (hperm : parts.Perm (placed 0 lists)) {n : Nat} (hn : lists.flatten.length = n) :
    assumeInit n (fill uninit parts) = some lists.flatten := by
  subst hn
  refine slotsFrom_eq (fun i hi => ?_)
  rw [Nat.zero_add]
  obtain ⟨p, hp, hin, hvalue⟩ := @exists_placed _ lists 0 i (Nat.zero_le i) (by omega)
  have happart : parts.Pairwise Apart := (hperm.pairwise_iff (fun h => h.symm)).2 (placed_apart lists 0)
  rw [fill_inside hin (hperm.mem_iff.2 hp) happart, hvalue, Nat.sub_zero]

end Slots
