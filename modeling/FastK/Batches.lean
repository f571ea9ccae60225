import FastK.TickWrites
/-!
# Cutting records into months

A range append cuts its records where the UTC month changes (`monthBatches`).  The batches are the records in order,
each of one month, and no month has two of them (`monthBatches_spec`).
-/
namespace FastK

section Batches

variable {R : Type} [FixedRecord R]

/-- One round: the rows before the next month's start are those of the first row's month. -/
theorem monthBatch_count {r : R} {rs : List R} (stop : Int) (ho : Ordered (r :: rs)) :
    (r :: rs).take (Search.partitionPoint (fun x => decide (FixedRecord.ts x < stop)) (r :: rs)) =
        (r :: rs).filter (fun x => decide (FixedRecord.ts x < stop)) ∧
      (r :: rs).drop (Search.partitionPoint (fun x => decide (FixedRecord.ts x < stop)) (r :: rs)) =
        (r :: rs).filter (fun x => !decide (FixedRecord.ts x < stop)) := by
  have hp : Search.Partitioned (fun x : R => decide (FixedRecord.ts x < stop)) (r :: rs) := by
    refine ho.imp (fun hab hb => ?_)
    rw [decide_eq_true_iff] at hb ⊢
    exact lt_of_le_of_lt hab.le hb
  rw [Search.partitionPoint_eq hp]
  exact ⟨Search.take_countP hp, Search.drop_countP hp⟩

theorem slot_month_eq {a b : Int} (h1 : a ≤ b) {stop : Int} (hs : nextMonthStart a = .ok stop) (h2 : b < stop) :
    slot .month b = slot .month a :=
  le_antisymm ((nextMonthStart_spec hs b).1 h2) (slot_mono .month h1)

/-- The timestamps from one whose next month chrono has up to that month are in range. -/
theorem inRange_of_nextMonthStart {a b stop : Int} (hs : nextMonthStart a = .ok stop) (h1 : a ≤ b) (h2 : b < stop) :
    TsInRange b := by
  unfold nextMonthStart at hs
  split at hs
  · rename_i h
    have hstop := Except.ok.inj hs
    have hday := dayOfTs_mono h1
    refine ⟨le_trans h.1.1 hday, ?_⟩
    have hmax := h.2
    unfold dayOfTs msPerDay at *
    omega
  · cases hs

/-- **The batches are the records in order, each of one month, and no two of the same.** -/
theorem monthBatchesFrom_spec : ∀ {fuel : Nat} {records : List R}
    {out : List (Text × List R)}, records.length ≤ fuel → Ordered records →
    monthBatchesFrom fuel records = .ok out →
    out.flatMap Prod.snd = records ∧ (∀ b ∈ out, Piece .month b) ∧ out.Pairwise (fun a b => a.1 ≠ b.1)
  | 0, [], out, _, _, h => by
    obtain rfl := Except.ok.inj h
    simp
  | _ + 1, [], out, _, _, h => by
    obtain rfl := Except.ok.inj h
    simp
  | 0, r :: rs, _, hf, _, _ => by simp at hf
  | fuel + 1, r :: rs, out, hf, ho, h => by
    unfold monthBatchesFrom at h
    cases hm : monthKey (FixedRecord.ts r) with
    | error e => rw [hm] at h; cases h
    | ok month =>
      cases hs : nextMonthStart (FixedRecord.ts r) with
      | error e => rw [hm, hs] at h; cases h
      | ok stop =>
        rw [hm, hs] at h
        simp only at h
        obtain ⟨htake, hdrop⟩ := monthBatch_count stop ho
        have hfirst : FixedRecord.ts r < stop := (nextMonthStart_spec hs _).2 (le_refl _)
        have hmin : ∀ x ∈ r :: rs, FixedRecord.ts r ≤ FixedRecord.ts x := by
          intro x hx
          rcases List.mem_cons.1 hx with rfl | hx
          · exact le_refl _
          · exact (List.rel_of_pairwise_cons ho hx).le
        cases hrest : monthBatchesFrom fuel
            ((r :: rs).drop (Search.partitionPoint (fun x => decide (FixedRecord.ts x < stop)) (r :: rs))) with
        | error e => rw [hrest] at h; cases h
        | ok rest =>
          rw [hrest] at h
          obtain rfl := Except.ok.inj h
          have hlen : ((r :: rs).drop (Search.partitionPoint
            (fun x => decide (FixedRecord.ts x < stop)) (r :: rs))).length ≤ fuel := by
            rw [hdrop]
            have hlt : ((r :: rs).filter (fun x => !decide (FixedRecord.ts x < stop))).length < (r :: rs).length := by
              rw [List.length_filter_lt_length_iff_exists]
              exact ⟨r, by simp, by simpa using hfirst⟩
            omega
          obtain ⟨hflat, hpieces, hpair⟩ := monthBatchesFrom_spec hlen (ho.sublist (List.drop_sublist _ _)) hrest
          have hpiece : Piece .month (month,
            (r :: rs).take (Search.partitionPoint (fun x => decide (FixedRecord.ts x < stop)) (r :: rs))) := by
            rw [htake]
            refine ⟨List.ne_nil_of_mem (List.mem_filter.2 ⟨List.mem_cons_self, by simpa using hfirst⟩), fun x hx => ?_⟩
            obtain ⟨hx, hlt⟩ := List.mem_filter.1 hx
            have hlt := of_decide_eq_true hlt
            exact key_eq_of_slot (u := .month) hm (inRange_of_nextMonthStart hs (hmin x hx) hlt)
              (slot_month_eq (hmin x hx) hs hlt).symm
          refine ⟨?_, ?_, List.pairwise_cons.2 ⟨fun b hb heq => ?_, hpair⟩⟩
          · rw [List.flatMap_cons, hflat]
            exact List.take_append_drop _ _
          · intro b hb
            rcases List.mem_cons.1 hb with rfl | hb
            · exact hpiece
            · exact hpieces b hb
          · -- a later batch lies at or after the next month's start
            obtain ⟨x, hx⟩ := List.exists_mem_of_ne_nil _ (hpieces b hb).1
            have hxd : x ∈ rest.flatMap Prod.snd := List.mem_flatMap.2 ⟨b, hb, hx⟩
            rw [hflat, hdrop] at hxd
            have hge : ¬ FixedRecord.ts x < stop := by simpa using (List.mem_filter.1 hxd).2
            have hkx : partitionKey (FixedRecord.ts x) .month = .ok month := by
              rw [show month = b.1 from heq]
              exact (hpieces b hb).2 x hx
            exact hge ((nextMonthStart_spec hs _).2 (le_of_eq (slot_eq_of_key hkx hm)))

theorem monthBatches_spec {records : List R} {out : List (Text × List R)} (h : monthBatches records = .ok out) :
    Ordered records ∧ out.flatMap Prod.snd = records ∧ (∀ b ∈ out, Piece .month b) ∧
      out.Pairwise (fun a b => a.1 ≠ b.1) := by
  unfold monthBatches at h
  split at h
  · rename_i hnil
    obtain rfl := Except.ok.inj h
    rw [List.isEmpty_iff] at hnil
    subst hnil
    exact ⟨List.Pairwise.nil, by simp⟩
  · cases hord : validateStrictOrder R records with
    | error e => rw [hord] at h; cases h
    | ok _ =>
      rw [hord] at h
      have ho := (validateStrictOrder_eq_ok.1 hord).2
      exact ⟨ho, monthBatchesFrom_spec (le_refl _) ho h⟩

/-- The timestamp has a month, and chrono has the month after it. -/
def InCalendar (ts : Int) : Prop := (∃ month, FastK.monthKey ts = .ok month) ∧ ∃ stop, nextMonthStart ts = .ok stop

theorem inCalendar_iff {ts : Int} : InCalendar ts ↔ TsInRange ts ∧
    Calendar.monthStart (Calendar.monthIndex (dayOfTs ts) + 1) ≤ maxDay := by
  unfold InCalendar nextMonthStart
  constructor
  · rintro ⟨-, stop, hs⟩
    split at hs
    · assumption
    · cases hs
  · intro h
    refine ⟨⟨monthText (dayOfTs ts), ?_⟩, _, if_pos h⟩
    unfold FastK.monthKey
    rw [if_pos h.1]

instance (ts : Int) : Decidable (InCalendar ts) := decidable_of_iff _ inCalendar_iff.symm

theorem monthBatchesFrom_ok : ∀ (fuel : Nat) (records : List R), (∀ r ∈ records, InCalendar (FixedRecord.ts r)) →
    ∃ out, monthBatchesFrom fuel records = .ok out
  | 0, records, _ => ⟨[], by cases records <;> rfl⟩
  | _ + 1, [], _ => ⟨[], rfl⟩
  | fuel + 1, r :: rs, h => by
    obtain ⟨⟨month, hm⟩, stop, hs⟩ := h r List.mem_cons_self
    obtain ⟨rest, hrest⟩ := monthBatchesFrom_ok fuel
      ((r :: rs).drop (Search.partitionPoint (fun x => decide (FixedRecord.ts x < stop)) (r :: rs)))
      (fun x hx => h x (List.mem_of_mem_drop hx))
    unfold monthBatchesFrom
    rw [hm, hs]
    simp only
    rw [hrest]
    exact ⟨_, rfl⟩

/-- Records in order whose months chrono has can be cut. -/
theorem monthBatches_ok {records : List R} (ho : Ordered records) (h : ∀ r ∈ records, InCalendar (FixedRecord.ts r)) :
    ∃ months, monthBatches records = .ok months := by
  unfold monthBatches
  by_cases hnil : records = []
  · subst hnil
    exact ⟨[], rfl⟩
  · rw [if_neg (by simpa using hnil), validateStrictOrder_eq_ok.2 ⟨hnil, ho⟩]
    exact monthBatchesFrom_ok _ _ h

/-- The first row of a batch lies in its month. -/
theorem Piece.monthKey {b : Text × List R} (h : Piece .month b) : FastK.monthKey (firstTs b.2) = .ok b.1 := by
  obtain ⟨r, hr, hfirst⟩ := exists_firstTs h.1
  rw [← hfirst]
  exact h.2 r hr

end Batches

end FastK
