import FastK.Lib.Slots
import FastK.SeriesReader
/-!
# Parallel reads

`read_spans` (`engine/parallel.rs`) cuts the spans of a read into tasks, deals the tasks to workers, and each task
fills its own part of one output buffer that nothing has initialised.  Whatever the number of workers and the order in
which they fill their parts, the buffer ends up with the records of the spans in order, or the read fails, as it does
where the spans are read one after another (`readSpansInto_eq`, `readSpans_exact`).
-/
namespace FastK

open Ranges Slots

/-! ## The output buffer -/

/-- The parts of the output that the spans are given, split off its front one after another (`split_at_mut`). -/
def splitOff : Nat → List ReadSpan → List (Nat × ReadSpan)
  | _, [] => []
  | start, span :: rest => (start, span) :: splitOff (start + span.rows) rest

section Buffer

variable {R : Type}

/-- One call of `fill`: the records, and where in the output they go. -/
def fillTask (fill : ReadSpan → Result (List R)) (task : Nat × ReadSpan) : Result (Nat × List R) :=
  (fill task.2).map (fun rows => (task.1, rows))

/-- `read_spans` with its output buffer: the value is `none` where a slot of the buffer is left uninitialised.  The
workers write their parts in the order that `schedule` puts them in. -/
def readSpansInto (threads : Nat) (schedule : List (Nat × List R) → List (Nat × List R)) (spans : List ReadSpan)
    (recordSize : Nat) (fill : ReadSpan → Result (List R)) : Result (Option (List R)) :=
  let rows := (spans.map ReadSpan.rows).sum
  if u64Bound ≤ rows then .error (.invalidData "read result size overflow")
  else if u64Bound ≤ rows * recordSize then .error (.invalidData "read result byte length overflow")
  -- the output is a `Vec`: reserving more than `isize::MAX` bytes panics
  else if 2 ^ 63 ≤ rows * recordSize then .error (.io "capacity overflow")
  else
    let bytes := rows * recordSize
    let workers := if 1 < threads ∧ parallelMinBytes ≤ bytes then min (max (bytes / minWorkerBytes) 1) threads else 1
    if workers = 1 then
      (collect (fillTask fill) (splitOff 0 spans)).map (fun parts => assumeInit rows (Slots.fill uninit parts))
    else
      match collect (fun span => spanTasks recordSize (max (taskBytes / recordSize) 1) span span.rows 0) spans with
      | .error e => .error e
      | .ok tasks =>
        let parts := splitOff 0 tasks.flatten
        if 1 < workers ∧ 1 < parts.length then
          -- every worker stops at its first error, and the error of the first group that has one is returned
          (collect (collect (fillTask fill)) (blocks ((parts.length + workers - 1) / workers) parts)).map
            (fun groups => assumeInit rows (Slots.fill uninit (schedule groups.flatten)))
        else (collect (fillTask fill) parts).map (fun parts => assumeInit rows (Slots.fill uninit parts))

end Buffer

/-! ## Collecting in groups -/

section Collect

variable {α β γ : Type} {f : α → Result β}

theorem collect_append (l l' : List α) :
    collect f (l ++ l') = match collect f l with
      | .error e => .error e
      | .ok ys => (collect f l').map (fun ys' => ys ++ ys') := by
  induction l with
  | nil =>
    cases h : collect f l' with
    | error e => simp [collect, h, Except.map]
    | ok ys => simp [collect, h, Except.map]
  | cons a l ih =>
    rw [List.cons_append, collect, collect, ih]
    cases f a with
    | error e => rfl
    | ok y =>
      cases collect f l with
      | error e => rfl
      | ok ys =>
        cases collect f l' with
        | error e => rfl
        | ok ys' => rfl

/-- **Groups that are collected one by one give what the whole list does**, and its first error. -/
theorem collect_flatten : ∀ groups :
    List (List α), (collect (collect f) groups).map List.flatten = collect f groups.flatten
  | [] => rfl
  | group :: groups => by
    have ih := collect_flatten groups
    rw [List.flatten_cons, collect_append, ← ih, collect]
    cases collect f group with
    | error e => rfl
    | ok ys =>
      cases collect (collect f) groups with
      | error e => rfl
      | ok yss => rfl

theorem collect_map_result (g : β → γ) : ∀ l : List α, collect (fun a => (f a).map g) l = (collect f l).map (List.map g)
  | [] => rfl
  | a :: l => by
    rw [collect, collect, collect_map_result g l]
    cases f a with
    | error e => rfl
    | ok y =>
      cases collect f l with
      | error e => rfl
      | ok ys => rfl

end Collect

section Buffer

variable {R : Type} {fill : ReadSpan → Result (List R)}

theorem fillAll_groups (groups : List (List ReadSpan)) :
    (collect (fillAll fill) groups).map List.flatten = fillAll fill groups.flatten := by
  unfold fillAll
  rw [collect_map_result List.flatten groups, ← collect_flatten groups]
  cases collect (collect fill) groups with
  | error e => rfl
  | ok yss =>
    show Except.ok (List.flatten (List.map List.flatten yss)) = Except.ok (List.flatten (List.flatten yss))
    rw [List.flatten_flatten]

/-- The parts that the tasks fill follow each other. -/
theorem collect_splitOff (hlen : ∀ span rows, fill span = .ok rows → rows.length = span.rows) :
    ∀ (spans : List ReadSpan) (start : Nat),
    collect (fillTask fill) (splitOff start spans) = (collect fill spans).map (placed start)
  | [], _ => rfl
  | span :: spans, start => by
    rw [splitOff, collect, collect, collect_splitOff hlen spans (start + span.rows)]
    unfold fillTask
    cases hf : fill span with
    | error e => rfl
    | ok rows =>
      cases collect fill spans with
      | error e => rfl
      | ok lists =>
        show Except.ok ((start, rows) :: placed (start + span.rows) lists) = Except.ok (placed start (rows :: lists))
        rw [placed, hlen span rows hf]

theorem splitOff_length : ∀ (spans : List ReadSpan) (start : Nat), (splitOff start spans).length = spans.length
  | [], _ => rfl
  | _ :: spans, _ => congrArg Nat.succ (splitOff_length spans _)

theorem length_collect_fill (hlen : ∀ span rows, fill span = .ok rows → rows.length = span.rows) :
    ∀ {spans : List ReadSpan} {lists : List (List R)},
    collect fill spans = .ok lists → lists.flatten.length = (spans.map ReadSpan.rows).sum
  | [], lists, h => by
    obtain rfl := Except.ok.inj h
    rfl
  | span :: spans, lists, h => by
    rw [collect] at h
    cases hf : fill span with
    | error e => rw [hf] at h; cases h
    | ok rows =>
      cases hc : collect fill spans with
      | error e => rw [hf, hc] at h; cases h
      | ok rest =>
        rw [hf, hc] at h
        obtain rfl := Except.ok.inj h
        rw [List.flatten_cons, List.length_append, hlen span rows hf, length_collect_fill hlen hc, List.map_cons,
          List.sum_cons]

/-- A buffer that is filled part by part, in any order, holds what the parts read in their own order. -/
theorem fill_splitOff (hlen : ∀ span rows, fill span = .ok rows → rows.length = span.rows)
    {order : List (Nat × List R) → List (Nat × List R)} (horder : ∀ l, (order l).Perm l) {spans : List ReadSpan}
    {n : Nat} (hn : (spans.map ReadSpan.rows).sum = n) :
    (collect (fillTask fill) (splitOff 0 spans)).map (fun parts => assumeInit n (Slots.fill uninit (order parts))) =
      (fillAll fill spans).map some := by
  rw [collect_splitOff hlen]
  unfold fillAll
  cases hc : collect fill spans with
  | error e => rfl
  | ok lists =>
    show Except.ok (assumeInit n (Slots.fill uninit (order (placed 0 lists)))) = Except.ok (some lists.flatten)
    rw [assumeInit_fill_placed (horder _) ((length_collect_fill hlen hc).trans hn)]

end Buffer

/-! ## The tasks of a span -/

/-- The tasks read the rows of the span from row `start` on, each row in one of them, without a gap. -/
inductive Tiles (recordSize : Nat) (span : ReadSpan) : Nat → List ReadSpan → Prop
  | done : Tiles recordSize span span.rows []
  | task {start count : Nat} {rest : List ReadSpan} (hcount : 0 < count) (hle : start + count ≤ span.rows)
      (hrest : Tiles recordSize span (start + count) rest) :
      Tiles recordSize span start (⟨span.file, span.offset + start * recordSize, count⟩ :: rest)

section Tiles

variable {recordSize taskRows start : Nat} {span : ReadSpan} {tasks : List ReadSpan}

/-- **A span that is cut is cut into tasks that tile it.** -/
theorem spanTasks_tiles (ht : 1 ≤ taskRows) : ∀ {fuel start : Nat} {tasks : List ReadSpan}, span.rows - start ≤ fuel →
    start ≤ span.rows →
    spanTasks recordSize taskRows span fuel start = .ok tasks →
    Tiles recordSize span start tasks ∧ ∀ task ∈ tasks, task.rows ≤ taskRows ∧ task.offset < u64Bound
  | 0, start, tasks, hf, hs, h => by
    obtain rfl := Except.ok.inj h
    obtain rfl : start = span.rows := by omega
    exact ⟨.done, by simp⟩
  | fuel + 1, start, tasks, hf, hs, h => by
    unfold spanTasks at h
    by_cases hlt : start < span.rows
    · rw [if_pos hlt] at h
      simp only at h
      by_cases hoff : u64Bound ≤ span.offset + start * recordSize
      · rw [if_pos hoff] at h
        cases h
      · rw [if_neg hoff] at h
        cases hrest : spanTasks recordSize taskRows span fuel (start + min (span.rows - start) taskRows) with
        | error e => rw [hrest] at h; cases h
        | ok rest =>
          rw [hrest] at h
          obtain rfl := Except.ok.inj h
          obtain ⟨htiles, hbound⟩ := spanTasks_tiles ht (by omega) (by omega) hrest
          refine ⟨.task (by omega) (by omega) htiles, fun task hmem => ?_⟩
          rcases List.mem_cons.1 hmem with rfl | hmem
          · exact ⟨Nat.min_le_right _ _, Nat.lt_of_not_le hoff⟩
          · exact hbound task hmem
    · rw [if_neg hlt] at h
      obtain rfl := Except.ok.inj h
      obtain rfl : start = span.rows := by omega
      exact ⟨.done, by simp⟩

/-- A span is cut unless it runs past the last offset. -/
theorem spanTasks_error : ∀ {fuel start : Nat}
    {e : FastKError}, spanTasks recordSize taskRows span fuel start = .error e →
    0 < span.rows ∧ u64Bound ≤ span.offset + span.rows * recordSize
  | 0, start, e, h => by cases h
  | fuel + 1, start, e, h => by
    unfold spanTasks at h
    by_cases hlt : start < span.rows
    · rw [if_pos hlt] at h
      simp only at h
      by_cases hoff : u64Bound ≤ span.offset + start * recordSize
      · have hmul : start * recordSize ≤ span.rows * recordSize := Nat.mul_le_mul_right _ hlt.le
        exact ⟨by omega, by omega⟩
      · rw [if_neg hoff] at h
        cases hrest : spanTasks recordSize taskRows span fuel (start + min (span.rows - start) taskRows) with
        | error e' => exact spanTasks_error hrest
        | ok rest => rw [hrest] at h; cases h
    · rw [if_neg hlt] at h
      cases h

theorem Tiles.sum (h : Tiles recordSize span start tasks) : (tasks.map ReadSpan.rows).sum + start = span.rows := by
  induction h with
  | done => simp
  | task hcount hle hrest ih =>
    rw [List.map_cons, List.sum_cons]
    simp only
    omega

end Tiles

section Buffer

variable {R : Type} {fill : ReadSpan → Result (List R)}

/-- The tasks of the spans have as many rows as the spans. -/
theorem allTasks_rows {recordSize taskRows : Nat} (ht : 1 ≤ taskRows) : ∀ {spans : List ReadSpan}
    {tasks : List (List ReadSpan)},
    collect (fun span => spanTasks recordSize taskRows span span.rows 0) spans = .ok tasks →
    (tasks.flatten.map ReadSpan.rows).sum = (spans.map ReadSpan.rows).sum
  | [], tasks, h => by
    obtain rfl := Except.ok.inj h
    rfl
  | span :: spans, tasks, h => by
    rw [collect] at h
    cases hspan : spanTasks recordSize taskRows span span.rows 0 with
    | error e => rw [hspan] at h; cases h
    | ok own =>
      cases hc : collect (fun span => spanTasks recordSize taskRows span span.rows 0) spans with
      | error e => rw [hspan, hc] at h; cases h
      | ok rest =>
        rw [hspan, hc] at h
        obtain rfl := Except.ok.inj h
        have hsum := (spanTasks_tiles ht (by omega) (by omega) hspan).1.sum
        rw [List.flatten_cons, List.map_append, List.sum_append, allTasks_rows ht hc, List.map_cons, List.sum_cons,
          ← hsum, Nat.add_zero]

/-- **The output buffer is filled completely, and in order**: whatever the order in which the workers write, a read
whose output fits into memory gives what `readSpans` does. -/
theorem readSpansInto_eq (hlen : ∀ span rows, fill span = .ok rows → rows.length = span.rows)
    {schedule : List (Nat × List R) → List (Nat × List R)} (hschedule : ∀ l, (schedule l).Perm l) (threads : Nat)
    {spans : List ReadSpan} {recordSize : Nat} (hpos : 0 < recordSize)
    (hfit : (spans.map ReadSpan.rows).sum * recordSize < 2 ^ 63) :
    readSpansInto threads schedule spans recordSize fill = (readSpans threads spans recordSize fill).map some := by
  have hrows : (spans.map ReadSpan.rows).sum ≤ (spans.map ReadSpan.rows).sum * recordSize :=
    Nat.le_mul_of_pos_right _ hpos
  have hu : u64Bound = 2 ^ 64 := rfl
  have htotal : ¬ u64Bound ≤ (spans.map ReadSpan.rows).sum := by omega
  have hbytes : ¬ u64Bound ≤ (spans.map ReadSpan.rows).sum * recordSize := by omega
  have hcapacity : ¬ 2 ^ 63 ≤ (spans.map ReadSpan.rows).sum * recordSize := by omega
  unfold readSpansInto readSpans
  simp only [if_neg htotal, if_neg hbytes, if_neg hcapacity]
  generalize (if 1 < threads ∧ parallelMinBytes ≤ (spans.map ReadSpan.rows).sum * recordSize
    then min (max ((spans.map ReadSpan.rows).sum * recordSize / minWorkerBytes) 1) threads else 1) = workers
  by_cases hw : workers = 1
  · rw [if_pos hw, if_pos hw]
    exact @fill_splitOff R fill hlen id (fun l => List.Perm.refl l) spans _ rfl
  · rw [if_neg hw, if_neg hw]
    have htr : 1 ≤ max (taskBytes / recordSize) 1 := le_max_right _ _
    cases hc : collect (fun span => spanTasks recordSize (max (taskBytes / recordSize) 1) span span.rows 0) spans with
    | error e => rfl
    | ok tasks =>
      simp only
      rw [splitOff_length]
      by_cases hpar : 1 < workers ∧ 1 < tasks.flatten.length
      · rw [if_pos hpar, if_pos hpar]
        have hgroup : 1 ≤ (tasks.flatten.length + workers - 1) / workers := by
          rw [Nat.le_div_iff_mul_le (by omega)]
          omega
        rw [fillAll_groups, flatten_blocks hgroup, ← fill_splitOff hlen hschedule (allTasks_rows htr hc)]
        have hgroups := collect_flatten (f := fillTask fill)
          (blocks ((tasks.flatten.length + workers - 1) / workers) (splitOff 0 tasks.flatten))
        rw [flatten_blocks hgroup] at hgroups
        rw [← hgroups]
        cases collect (collect (fillTask fill)) (blocks ((tasks.flatten.length + workers - 1) / workers)
          (splitOff 0 tasks.flatten)) with
        | error e => rfl
        | ok groups => rfl
      · rw [if_neg hpar, if_neg hpar]
        exact @fill_splitOff R fill hlen id (fun l => List.Perm.refl l) tasks.flatten _ (allTasks_rows htr hc)

end Buffer

/-! ## Files of known length -/

/-- The bytes of the rows of the span are all in its file. -/
def InFile (recordSize : Nat) (len : ChunkFile → Nat) (span : ReadSpan) : Prop :=
  span.rows = 0 ∨ span.offset + span.rows * recordSize ≤ len span.file

/-- The records of a span, one after another from its offset on. -/
def spanRecords {R : Type} (recordSize : Nat) (record : ChunkFile → Nat → R) (span : ReadSpan) : List R :=
  (List.range span.rows).map (fun i => record span.file (span.offset + i * recordSize))

/-- `fill` reads the bytes of the rows at the offset, and fails where they are not all in the file: `len` gives the
length of a file and `record` the record at an offset of it. -/
structure ExactFill {R : Type} (recordSize : Nat) (len : ChunkFile → Nat) (record : ChunkFile → Nat → R)
    (fill : ReadSpan → Result (List R)) : Prop where
  len_lt : ∀ f, len f < u64Bound
  reads : ∀ span, InFile recordSize len span → fill span = .ok (spanRecords recordSize record span)
  fails : ∀ span, ¬ InFile recordSize len span → ∃ e, fill span = .error e

section Exact

variable {R : Type} {recordSize taskRows start : Nat} {len : ChunkFile → Nat} {record : ChunkFile → Nat → R}
  {fill : ReadSpan → Result (List R)} {span : ReadSpan} {tasks spans : List ReadSpan}

theorem Tiles.inFile (h : Tiles recordSize span start tasks) (hin : InFile recordSize len span) :
    ∀ task ∈ tasks, InFile recordSize len task := by
  induction h with
  | done => simp
  | @task start count rest hcount hle hrest ih =>
    intro task hmem
    rcases List.mem_cons.1 hmem with rfl | hmem
    · have hmul : (start + count) * recordSize ≤ span.rows * recordSize := Nat.mul_le_mul_right _ hle
      rw [Nat.add_mul] at hmul
      rcases hin with h0 | hlen
      · omega
      · exact .inr (by simp only; omega)
    · exact ih task hmem

/-- A span that runs past the end of its file has a task that does. -/
theorem Tiles.not_inFile (h : Tiles recordSize span start tasks) (hin : ¬ InFile recordSize len span)
    (hlt : start < span.rows) :
    ∃ task ∈ tasks, ¬ InFile recordSize len task := by
  induction h with
  | done => omega
  | @task start count rest hcount hle hrest ih =>
    rcases Nat.lt_or_eq_of_le hle with hmore | hlast
    · obtain ⟨task, hmem, hout⟩ := ih hmore
      exact ⟨task, List.mem_cons_of_mem _ hmem, hout⟩
    · refine ⟨_, List.mem_cons_self, ?_⟩
      rintro (h0 | hlen)
      · simp only at h0
        omega
      · refine hin (.inr ?_)
        rw [← hlast, Nat.add_mul, ← Nat.add_assoc]
        exact hlen

theorem Tiles.records (h : Tiles recordSize span start tasks) : tasks.flatMap (spanRecords recordSize record) =
    (List.range' start (span.rows - start)).map (fun i => record span.file (span.offset + i * recordSize)) := by
  induction h with
  | done => simp
  | @task start count rest hcount hle hrest ih =>
    have hsplit : span.rows - start = count + (span.rows - (start + count)) := by omega
    rw [List.flatMap_cons, ih, hsplit, ← List.range'_append_1, List.map_append]
    congr 1
    unfold spanRecords
    rw [List.range'_eq_map_range, List.map_map]
    refine List.map_congr_left (fun i _ => ?_)
    show record span.file (span.offset + start * recordSize + i * recordSize) = record span.file
      (span.offset + (start + i) * recordSize)
    rw [Nat.add_mul, Nat.add_assoc]

theorem Tiles.records_all (h : Tiles recordSize span 0 tasks) :
    tasks.flatMap (spanRecords recordSize record) = spanRecords recordSize record span := by
  rw [h.records, Nat.sub_zero, ← List.range_eq_range']
  rfl

theorem ExactFill.length (h : ExactFill recordSize len record fill) (span : ReadSpan) (rows : List R)
    (hf : fill span = .ok rows) :
    rows.length = span.rows := by
  by_cases hin : InFile recordSize len span
  · obtain rfl := Except.ok.inj ((h.reads span hin).symm.trans hf)
    simp [spanRecords]
  · obtain ⟨e, he⟩ := h.fails span hin
    rw [he] at hf
    cases hf

/-- Reading part after part gives the records of all parts, or fails where a part is not all in its file. -/
theorem ExactFill.fillAll (h : ExactFill recordSize len record fill) (spans : List ReadSpan) :
    ((∀ span ∈ spans, InFile recordSize len span) →
      FastK.fillAll fill spans = .ok (spans.flatMap (spanRecords recordSize record))) ∧
    ((∃ span ∈ spans, ¬ InFile recordSize len span) → ∃ e, FastK.fillAll fill spans = .error e) := by
  refine ⟨fun hall => fillAll_ok (fun span hmem => h.reads span (hall span hmem)), ?_⟩
  rintro ⟨span, hmem, hout⟩
  obtain ⟨e, he⟩ := h.fails span hout
  obtain ⟨e', he'⟩ := collect_error hmem he
  unfold FastK.fillAll
  rw [he']
  exact ⟨e', rfl⟩

/-- **A read gives the records of its spans, in order, exactly where all their bytes are in their files**, however
many workers read them. -/
theorem readSpans_exact (h : ExactFill recordSize len record fill) (hpos : 0 < recordSize) (threads : Nat)
    (hfit : (spans.map ReadSpan.rows).sum * recordSize < u64Bound) :
    ((∀ span ∈ spans, InFile recordSize len span) →
      readSpans threads spans recordSize fill = .ok (spans.flatMap (spanRecords recordSize record))) ∧
    ((∃ span ∈ spans, ¬ InFile recordSize len span) → ∃ e, readSpans threads spans recordSize fill = .error e) := by
  have hrows : (spans.map ReadSpan.rows).sum ≤ (spans.map ReadSpan.rows).sum * recordSize :=
    Nat.le_mul_of_pos_right _ hpos
  unfold readSpans
  simp only
  rw [if_neg (by omega), if_neg (by omega)]
  generalize (if 1 < threads ∧ parallelMinBytes ≤ (spans.map ReadSpan.rows).sum * recordSize
    then min (max ((spans.map ReadSpan.rows).sum * recordSize / minWorkerBytes) 1) threads else 1) = workers
  by_cases hw : workers = 1
  · rw [if_pos hw]
    exact h.fillAll spans
  · rw [if_neg hw]
    have htr : 1 ≤ max (taskBytes / recordSize) 1 := le_max_right _ _
    generalize max (taskBytes / recordSize) 1 = taskRows at htr
    cases hc : collect (fun span => spanTasks recordSize taskRows span span.rows 0) spans with
    | error e =>
      refine ⟨fun hall => ?_, fun _ => ⟨e, rfl⟩⟩
      -- a span that cannot be cut runs past the end of every file
      exfalso
      have hall' : ∀ span ∈ spans, ∃ tasks, spanTasks recordSize taskRows span span.rows 0 = .ok tasks ∧ True := by
        intro span hmem
        cases hspan : spanTasks recordSize taskRows span span.rows 0 with
        | ok tasks => exact ⟨tasks, rfl, trivial⟩
        | error e' =>
          obtain ⟨hrow, hoff⟩ := spanTasks_error hspan
          rcases hall span hmem with h0 | hlen
          · omega
          · have := h.len_lt span.file
            omega
      obtain ⟨ys, hys, -⟩ := collect_forall₂ hall'
      rw [hc] at hys
      cases hys
    | ok tasks =>
      have htiles : List.Forall₂ (fun span own => Tiles recordSize span 0 own) spans tasks :=
        (collect_eq_ok hc).imp (fun span own hown => (spanTasks_tiles htr (by omega) (by omega) hown).1)
      have hin : (∀ span ∈ spans, InFile recordSize len span) → ∀ task ∈ tasks.flatten, InFile recordSize len task := by
        intro hall task hmem
        obtain ⟨own, hown, hmem⟩ := List.mem_flatten.1 hmem
        obtain ⟨span, hspan, ht⟩ := exists_of_mem_forall₂ htiles hown
        exact ht.inFile (hall span hspan) task hmem
      have hout : (∃ span ∈ spans, ¬ InFile recordSize len span) →
        ∃ task ∈ tasks.flatten, ¬ InFile recordSize len task := by
        rintro ⟨span, hspan, hnot⟩
        obtain ⟨own, hown, ht⟩ := exists_of_mem_forall₂ htiles.flip hspan
        obtain ⟨task, hmem, hno⟩ := ht.not_inFile hnot (Nat.pos_of_ne_zero (fun h0 => hnot (.inl h0)))
        exact ⟨task, List.mem_flatten.2 ⟨own, hown, hmem⟩, hno⟩
      have hrecords : tasks.flatten.flatMap (spanRecords recordSize record) = spans.flatMap
        (spanRecords recordSize record) := by
        rw [List.flatten_eq_flatMap, List.flatMap_assoc]
        exact (forall₂_flatMap (htiles.imp (fun span own ht => ht.records_all))).symm
      simp only
      by_cases hpar : 1 < workers ∧ 1 < tasks.flatten.length
      · have hgroup : 1 ≤ (tasks.flatten.length + workers - 1) / workers := by
          rw [Nat.le_div_iff_mul_le (by omega)]
          omega
        rw [if_pos hpar, fillAll_groups, flatten_blocks hgroup, ← hrecords]
        exact ⟨fun hall => (h.fillAll _).1 (hin hall), fun hnot => (h.fillAll _).2 (hout hnot)⟩
      · rw [if_neg hpar, ← hrecords]
        exact ⟨fun hall => (h.fillAll _).1 (hin hall), fun hnot => (h.fillAll _).2 (hout hnot)⟩

instance (recordSize : Nat) (len : ChunkFile → Nat) (span : ReadSpan) : Decidable (InFile recordSize len span) :=
  inferInstanceAs (Decidable (_ ∨ _))

/-- The fill of files of given lengths and records. -/
def fillOf (recordSize : Nat) (len : ChunkFile → Nat) (record : ChunkFile → Nat → R) (span : ReadSpan) :
    Result (List R) :=
  if InFile recordSize len span then .ok (spanRecords recordSize record span)
  else .error (.io "failed to fill whole buffer")

theorem fillOf_exact (hlen : ∀ f, len f < u64Bound) : ExactFill recordSize len record (fillOf recordSize len record) :=
  ⟨hlen, fun _ h => if_pos h, fun _ h => ⟨_, if_neg h⟩⟩

/-- What the output would take more than `isize::MAX` bytes for is not read. -/
theorem readSpansInto_overfull {schedule : List (Nat × List R) → List (Nat × List R)} (threads : Nat)
    (hfull : 2 ^ 63 ≤ (spans.map ReadSpan.rows).sum * recordSize) :
    ∃ e, readSpansInto threads schedule spans recordSize fill = .error e := by
  unfold readSpansInto
  simp only
  by_cases htotal : u64Bound ≤ (spans.map ReadSpan.rows).sum
  · exact ⟨_, if_pos htotal⟩
  · rw [if_neg htotal]
    by_cases hbytes : u64Bound ≤ (spans.map ReadSpan.rows).sum * recordSize
    · exact ⟨_, if_pos hbytes⟩
    · rw [if_neg hbytes]
      exact ⟨_, if_pos hfull⟩

end Exact

/-- **Parallel reads are serial reads.**  Whatever files the spans are of, and however many workers fill the output in
whatever order, a read whose output can be reserved is the records of its spans in order where their bytes are all in
their files, and an error otherwise; the tasks of a span tile its rows, and no offset or row count leaves its type.
No other read gives records. -/
theorem readSpans_parallel (R : Type) (recordSize : Nat) (hpos : 0 < recordSize) (len : ChunkFile → Nat)
    (record : ChunkFile → Nat → R) (fill : ReadSpan → Result (List R)) (hfill : ExactFill recordSize len record fill)
    (threads : Nat) (schedule : List (Nat × List R) → List (Nat × List R)) (hschedule : ∀ l, (schedule l).Perm l)
    (spans : List ReadSpan) :
    ((spans.map ReadSpan.rows).sum * recordSize < 2 ^ 63 →
      ((∀ span ∈ spans, InFile recordSize len span) → readSpansInto threads schedule spans recordSize fill =
        .ok (some (spans.flatMap (spanRecords recordSize record)))) ∧
      ((∃ span ∈ spans, ¬ InFile recordSize len span) → ∃ e,
        readSpansInto threads schedule spans recordSize fill = .error e)) ∧
    (2 ^ 63 ≤ (spans.map ReadSpan.rows).sum * recordSize → ∃ e,
      readSpansInto threads schedule spans recordSize fill = .error e) ∧
    ((spans.map ReadSpan.rows).sum * recordSize < u64Bound → ∀ span ∈ spans, span.rows * recordSize < u64Bound ∧
      ∀ tasks, spanTasks recordSize (max (taskBytes / recordSize) 1) span span.rows 0 = .ok tasks →
        Tiles recordSize span 0 tasks ∧ ∀ task ∈ tasks, task.offset < u64Bound) := by
  refine ⟨fun hfit => ?_, fun hfull => readSpansInto_overfull threads hfull, fun hfit span hmem =>
    ⟨?_, fun tasks htasks => ?_⟩⟩
  · have hu : u64Bound = 2 ^ 64 := rfl
    have hexact := readSpans_exact hfill hpos threads (show (spans.map ReadSpan.rows).sum * recordSize <
      u64Bound by omega)
    rw [readSpansInto_eq hfill.length hschedule threads hpos hfit]
    refine ⟨fun hall => by rw [hexact.1 hall]; rfl, fun hout => ?_⟩
    obtain ⟨e, he⟩ := hexact.2 hout
    rw [he]
    exact ⟨e, rfl⟩
  · have hle : span.rows ≤ (spans.map ReadSpan.rows).sum := List.single_le_sum (by simp) _ (List.mem_map_of_mem hmem)
    exact lt_of_le_of_lt (Nat.mul_le_mul_right _ hle) hfit
  · obtain ⟨htiles, hbound⟩ := spanTasks_tiles (le_max_right _ _) (by omega) (by omega) htasks
    exact ⟨htiles, fun task ht => (hbound task ht).2⟩

/-! ### Files as long as files can be -/

def longLen : ChunkFile → Nat := fun _ => 2 ^ 63 - 1

def longRecord : ChunkFile → Nat → ScalarRecord := fun _ offset => ⟨offset, ⟨1, by decide, by decide⟩⟩

/-- As many scalar records as such a file has. -/
def longSpan : ReadSpan := ⟨sampleOldFile, 0, 2 ^ 59 - 1⟩

/-- **Two spans that can be read, and whose total passes the checked sums, are not read**: no output can be reserved
for both. -/
theorem readSpans_capacity :
    ExactFill 16 longLen longRecord (fillOf 16 longLen longRecord) ∧
      (∀ span ∈ [longSpan, longSpan], InFile 16 longLen span) ∧
    ([longSpan, longSpan].map ReadSpan.rows).sum * 16 < u64Bound ∧
    readSpansInto 1 id [longSpan, longSpan] 16 (fillOf 16 longLen longRecord) = .error (.io "capacity overflow") := by
  have htotal : ([longSpan, longSpan].map ReadSpan.rows).sum = 2 ^ 60 - 2 := rfl
  have hin : InFile 16 longLen longSpan := .inr (show 0 + (2 ^ 59 - 1) * 16 ≤ 2 ^ 63 - 1 by norm_num)
  refine ⟨fillOf_exact (fun _ => show 2 ^ 63 - 1 < 2 ^ 64 by norm_num), fun span hmem => ?_, ?_, ?_⟩
  · simp only [List.mem_cons, List.not_mem_nil, or_false, or_self] at hmem
    exact hmem ▸ hin
  · rw [htotal]
    unfold u64Bound
    norm_num
  · unfold readSpansInto
    simp only [htotal]
    rw [if_neg (by unfold u64Bound; norm_num), if_neg (by unfold u64Bound; norm_num), if_pos (by norm_num)]

def sampleSpans : List ReadSpan := [⟨sampleOldFile, 88, 600000⟩, ⟨sampleOldFile, 0, 0⟩, ⟨sampleOldFile, 40, 3⟩]

/-- Four workers that write their parts from the last to the first. -/
theorem readSpans_parallel_sample : readSpansInto 4 List.reverse sampleSpans 16 (fillOf 16 longLen longRecord) =
    .ok (some (sampleSpans.flatMap (spanRecords 16 longRecord))) := by
  refine ((readSpans_parallel ScalarRecord 16 (by decide) longLen longRecord (fillOf 16 longLen longRecord)
    (fillOf_exact (fun _ => show 2 ^ 63 - 1 < 2 ^ 64 by norm_num)) 4 List.reverse List.reverse_perm _).1 ?_).1 ?_
  · show (600000 + (0 + (3 + 0))) * 16 < 2 ^ 63
    norm_num
  · intro span hmem
    simp only [sampleSpans, List.mem_cons, List.not_mem_nil, or_false] at hmem
    rcases hmem with rfl | rfl | rfl
    · exact .inr (show 88 + 600000 * 16 ≤ 2 ^ 63 - 1 by norm_num)
    · exact .inl rfl
    · exact .inr (show 40 + 3 * 16 ≤ 2 ^ 63 - 1 by norm_num)

end FastK
