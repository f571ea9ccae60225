import FastK.SeriesReader
/-!
# Replaying sealed chunks

The cursor of `engine/replay.rs`: it walks the sealed chunks of a series in order of time and hands out their records
in batches.  Where it stands is what it has still to give (`CursorAt`); a batch takes the front of that
(`nextBatch_ok`), so the batches are the stream cut at the requested sizes (`readBatches_iff`).  A batch reserves room
for as many records as were asked for, and no vector has more than `isize::MAX` bytes.
-/
namespace FastK

open Search

/-! ## The cursor -/

structure ReplayOptions where
  startTs : Int
  endTs : Option Int
  deriving DecidableEq, Repr

structure ReplayCursor where
  chunks : List ChunkMeta
  seriesId : Nat
  currentChunkIndex : Nat
  currentRecordIndex : Nat
  endTs : Option Int
  exhausted : Bool
  deriving DecidableEq, Repr

section Cursor

variable (R : Type) [FixedRecord R]

/-- `validate_meta`. -/
def validateReplayMeta (m : SeriesMeta) : Result Unit :=
  if m.recordType ≠ FixedRecord.recordType R then
    .error (.invalidData (words ["replay record type mismatch: meta=", m.recordType.debug, " requested=",
      (FixedRecord.recordType R).debug]))
  else if m.schemaId ≠ FixedRecord.schemaId R then
    .error (.invalidData (words ["replay schema mismatch: meta=", showNat m.schemaId, " requested=",
      showNat (FixedRecord.schemaId R)]))
  else if m.recordSize ≠ FixedRecord.byteSize R then
    .error (.invalidData (words ["replay record size mismatch: meta=", showNat m.recordSize, " requested=",
      showNat (FixedRecord.byteSize R)]))
  else .ok ()

/-- `open_chunk_file` and `read_and_validate_header`. -/
def openReplayChunk (sd : SeriesDir) (seriesId : Nat) (c : ChunkMeta) : Result ChunkFile :=
  match sd.openChunk c.relativePath with
  | .error e => .error e
  | .ok f =>
    if f.header.schemaId ≠ FixedRecord.schemaId R then
      .error (.invalidData (words ["replay expected schema ", showNat (FixedRecord.schemaId R), ", got ",
        showNat f.header.schemaId]))
    else if f.header.recordSize ≠ FixedRecord.byteSize R then
      .error (.invalidData (words ["replay unexpected record size: ", showNat f.header.recordSize]))
    else if f.header.seriesId ≠ seriesId then
      .error (.invalidData (words ["replay series_id mismatch: header=", showNat f.header.seriesId, " expected=",
        showNat seriesId]))
    else .ok f

def lowerBoundInChunk (sd : SeriesDir) (seriesId : Nat) (c : ChunkMeta) (targetTs : Int) : Result Nat :=
  match openReplayChunk R sd seriesId c with
  | .error e => .error e
  | .ok f => lowerBound f targetTs

variable {R}

def readRecordAt (f : ChunkFile) (index : Nat) : Result R :=
  match f.rows[index]? with
  | some r => decodeRow r
  | none => .error (.io "failed to fill whole buffer")

def pastEnd (endTs : Option Int) (ts : Int) : Bool := endTs.any (fun e => decide (e < ts))

/-- The loop of `read_batch_from_chunk`; the first argument is the room left. -/
def readBatchFrom (f : ChunkFile) (endTs : Option Int) : Nat → Nat → List R → Result (List R × Nat)
  | 0, index, out => .ok (out, index)
  | room + 1, index, out =>
    if f.header.count ≤ index then .ok (out, index)
    else
      match readRecordAt f index with
      | .error e => .error e
      | .ok r =>
        if pastEnd endTs (FixedRecord.ts r) then .ok (out, f.header.count)
        else readBatchFrom f endTs room (index + 1) (out ++ [r])

def readBatchFromChunk (sd : SeriesDir) (seriesId : Nat) (c : ChunkMeta) (startIndex : Nat) (endTs : Option Int)
    (maxRecords : Nat) :
    Result (List R × Nat) :=
  if maxRecords = 0 ∨ c.count ≤ startIndex then .ok ([], startIndex)
  else
    match openReplayChunk R sd seriesId c with
    | .error e => .error e
    | .ok f => readBatchFrom f endTs maxRecords startIndex []

variable (R)

/-- The loop of `seek_to_start`. -/
def seekFrom (sd : SeriesDir) (startTs : Int) (cursor : ReplayCursor) : List ChunkMeta → Nat → Result ReplayCursor
  | [], skipped => .ok { cursor with currentChunkIndex := skipped, exhausted := true }
  | c :: cs, skipped =>
    if c.endTs < startTs ∨ c.count = 0 then seekFrom sd startTs cursor cs (skipped + 1)
    else
      match lowerBoundInChunk R sd cursor.seriesId c startTs with
      | .error e => .error e
      | .ok index =>
        if c.count ≤ index then seekFrom sd startTs cursor cs (skipped + 1)
        else .ok { cursor with currentChunkIndex := skipped, currentRecordIndex := index, exhausted := false }

variable {R}

/-- The order of the chunks in a cursor. -/
def ReplayLe (a b : ChunkMeta) : Prop :=
  a.startTs < b.startTs ∨ a.startTs = b.startTs ∧ (Text.le b.monthKey a.monthKey = false ∨ a.monthKey = b.monthKey ∧
    (a.generation < b.generation ∨ a.generation = b.generation ∧ a.chunkId ≤ b.chunkId))

instance : DecidableRel ReplayLe := fun _ _ => inferInstanceAs (Decidable (_ ∨ _ ∧ (_ ∨ _ ∧ (_ ∨ _ ∧ _))))

/-- The sealed chunks that meet the bounds. -/
def replayChunks (m : SeriesMeta) (o : ReplayOptions) : List ChunkMeta :=
  m.chunks.filter (fun c => decide (c.state = .sealed) && decide (o.startTs ≤ c.endTs) && o.endTs.all (fun e =>
    decide (c.startTs ≤ e)))

variable (R)

/-- `ReplayCursor::new`. -/
def ReplayCursor.new (sd : SeriesDir) (m : SeriesMeta) (o : ReplayOptions) : Result ReplayCursor :=
  if o.endTs.any (fun e => decide (e < o.startTs)) then
    .error (.invalidInput (words ["replay start_ts ", showInt o.startTs, " is after end_ts ",
      showInt (o.endTs.getD 0)]))
  else
    match validateReplayMeta R m with
    | .error e => .error e
    | .ok () =>
      let chunks := (replayChunks m o).insertionSort ReplayLe
      seekFrom R sd o.startTs ⟨chunks, m.seriesId, 0, 0, o.endTs, false⟩ chunks 0

/-- `replay_kline`, `replay_scalar` and the tick replays: a cursor over the manifest on disk. -/
def replay (sd : SeriesDir) (o : ReplayOptions) : Result ReplayCursor :=
  match sd.loadSeriesMeta with
  | .error e => .error e
  | .ok m => ReplayCursor.new R sd m o

variable {R}

/-- The loop of `advance_chunk`: chunks without records are passed over. -/
def advanceFrom (cursor : ReplayCursor) : List ChunkMeta → Nat → ReplayCursor
  | [], index => { cursor with currentChunkIndex := index, currentRecordIndex := 0, exhausted := true }
  | c :: cs, index =>
    if c.count = 0 then advanceFrom cursor cs (index + 1)
    else { cursor with currentChunkIndex := index, currentRecordIndex := 0, exhausted := false }

def ReplayCursor.advanceChunk (cursor : ReplayCursor) : ReplayCursor :=
  advanceFrom cursor (cursor.chunks.drop (cursor.currentChunkIndex + 1)) (cursor.currentChunkIndex + 1)

/-- The loop of `next_batch`.  A round that does not fill the batch leaves a chunk, so one more round than there are
chunks is enough. -/
def nextBatchFrom (sd : SeriesDir) (maxRecords : Nat) : Nat → ReplayCursor → List R → Result (List R × ReplayCursor)
  | 0, cursor, out => .ok (out, cursor)
  | rounds + 1, cursor, out =>
    if maxRecords ≤ out.length ∨ cursor.exhausted then .ok (out, cursor)
    else
      match cursor.chunks[cursor.currentChunkIndex]? with
      | none => .ok (out, { cursor with exhausted := true })
      | some c =>
        match readBatchFromChunk sd cursor.seriesId c cursor.currentRecordIndex cursor.endTs (maxRecords - out.length) with
        | .error e => .error e
        | .ok (rows, nextIndex) =>
          let cursor := { cursor with currentRecordIndex := nextIndex }
          let cursor :=
            if c.count ≤ nextIndex ∨
                cursor.endTs.any (fun e => decide (e < c.endTs ∧ (out ++ rows).length < maxRecords)) then
              cursor.advanceChunk
            else cursor
          nextBatchFrom sd maxRecords rounds cursor (out ++ rows)

/-- `next_batch`.  The vector of the batch is reserved first: more than `isize::MAX` bytes panics. -/
def ReplayCursor.nextBatch (sd : SeriesDir) (maxRecords : Nat) (cursor : ReplayCursor) :
    Result (List R × ReplayCursor) :=
  if maxRecords = 0 then .error (.invalidInput "replay max_records must be greater than zero")
  else if cursor.exhausted then .ok ([], cursor)
  else if 2 ^ 63 ≤ maxRecords * FixedRecord.byteSize R then .error (.io "capacity overflow")
  else nextBatchFrom sd maxRecords (cursor.chunks.length + 1) cursor []

/-- The batches of successive calls. -/
def readBatches (sd : SeriesDir) : List Nat → ReplayCursor → Result (List (List R))
  | [], _ => .ok []
  | n :: ns, cursor =>
    match cursor.nextBatch sd n with
    | .error e => .error e
    | .ok (batch, cursor) =>
      match readBatches sd ns cursor with
      | .error e => .error e
      | .ok rest => .ok (batch :: rest)

end Cursor

/-! ## What a cursor has still to give -/

section Walk

variable {R : Type} [FixedRecord R]

/-- The rows up to the end of the replay. -/
def upTo (endTs : Option Int) (rows : List R) : List R := rows.filter (fun r => !pastEnd endTs (FixedRecord.ts r))

/-- From a position in the first of the chunks to the end of the last. -/
def toCome (endTs : Option Int) (rowsOf : ChunkMeta → List R) : List ChunkMeta → Nat → List R
  | [], _ => []
  | c :: cs, i => upTo endTs ((rowsOf c).drop i) ++ cs.flatMap (fun c => upTo endTs (rowsOf c))

theorem pastEnd_mono {endTs : Option Int} {a b : Int} (h : a ≤ b) (ha : pastEnd endTs a = true) :
    pastEnd endTs b = true := by
  cases endTs with
  | none => cases ha
  | some e =>
    simp only [pastEnd, Option.any_some, decide_eq_true_eq] at ha ⊢
    omega

theorem upTo_nil_of_past {endTs : Option Int} {rows : List R}
    (h : ∀ r ∈ rows, pastEnd endTs (FixedRecord.ts r) = true) : upTo endTs rows = [] := by
  unfold upTo
  rw [List.filter_eq_nil_iff]
  intro r hr
  simp [h r hr]

theorem upTo_cons_past {endTs : Option Int} {r : R} {rs : List R} (ho : Ordered (r :: rs))
    (hr : pastEnd endTs (FixedRecord.ts r) = true) :
    upTo endTs (r :: rs) = [] := by
  refine upTo_nil_of_past (fun x hx => ?_)
  rcases List.mem_cons.1 hx with rfl | hx
  · exact hr
  · exact pastEnd_mono (List.rel_of_pairwise_cons ho.le hx) hr

theorem upTo_cons {endTs : Option Int} {r : R} {rs : List R} (hr : pastEnd endTs (FixedRecord.ts r) = false) :
    upTo endTs (r :: rs) = r :: upTo endTs rs := by
  unfold upTo
  rw [List.filter_cons_of_pos (by simp [hr])]

/-- In order of time the rows up to the end come first. -/
theorem drop_upTo {endTs : Option Int} : ∀ {rows : List R} (n : Nat), Ordered rows →
    (upTo endTs rows).drop n = upTo endTs (rows.drop n)
  | [], n, _ => by simp [upTo]
  | r :: rs, 0, _ => rfl
  | r :: rs, n + 1, ho => by
    cases hr : pastEnd endTs (FixedRecord.ts r) with
    | false =>
      rw [upTo_cons hr, List.drop_succ_cons, List.drop_succ_cons]
      exact drop_upTo n ho.of_cons
    | true =>
      rw [upTo_cons_past ho hr, List.drop_nil, List.drop_succ_cons]
      refine (upTo_nil_of_past (fun x hx => ?_)).symm
      exact pastEnd_mono (List.rel_of_pairwise_cons ho.le (List.mem_of_mem_drop hx)) hr

theorem length_upTo_le (endTs : Option Int) (rows : List R) : (upTo endTs rows).length ≤ rows.length :=
  List.length_filter_le _ _

theorem readRecordAt_ok {f : ChunkFile} {rows : List R} (h : Holds R f rows) {i : Nat} {r : R}
    (hi : rows[i]? = some r) : readRecordAt f i = .ok r := by
  unfold readRecordAt
  rw [h.rows_eq, List.getElem?_map, hi]
  exact decodeRow_encode r

/-- **A read from a chunk**: the rows up to the end that there is room for, and where they stop. -/
theorem readBatchFrom_ok {f : ChunkFile} {rows : List R} (h : Holds R f rows) (endTs : Option Int) :
    ∀ (room index : Nat) (out : List R),
    index ≤ rows.length → readBatchFrom f endTs room index out = .ok (out ++ (upTo endTs (rows.drop index)).take room,
      if room ≤ (upTo endTs (rows.drop index)).length then index + room else rows.length)
  | 0, index, out, _ => by simp [readBatchFrom]
  | room + 1, index, out, hi => by
    unfold readBatchFrom
    rw [h.count_eq]
    by_cases hend : rows.length ≤ index
    · rw [if_pos hend, List.drop_eq_nil_of_le hend]
      have : index = rows.length := by omega
      simp [upTo, this]
    · have hlt : index < rows.length := by omega
      have hr : rows[index]? = some rows[index] := List.getElem?_eq_getElem hlt
      have hdrop : rows.drop index = rows[index] :: rows.drop (index + 1) := List.drop_eq_getElem_cons hlt
      rw [if_neg hend, readRecordAt_ok h hr]
      simp only
      cases hp : pastEnd endTs (FixedRecord.ts rows[index]) with
      | true =>
        have hnil : upTo endTs (rows.drop index) = [] := by
          rw [hdrop]
          refine upTo_cons_past ?_ hp
          rw [← hdrop]
          exact h.ordered.sublist (List.drop_sublist _ _)
        simp [hnil]
      | false =>
        rw [hdrop, upTo_cons hp, if_neg (by simp),
          readBatchFrom_ok h endTs room (index + 1) (out ++ [rows[index]]) (by omega)]
        simp only [List.take_succ_cons, List.append_assoc, List.cons_append, List.nil_append, List.length_cons,
          Nat.add_le_add_iff_right, Nat.add_assoc, Nat.add_comm 1]

/-! ## Standing in a list of chunks -/

/-- The chunks of a cursor: each opens and holds its rows, they lie apart in order, and none begins after the end. -/
structure Walkable (sd : SeriesDir) (seriesId : Nat) (endTs : Option Int) (rowsOf : ChunkMeta → List R)
    (cs : List ChunkMeta) : Prop where
  opens : ∀ c ∈ cs, ∃ f, openReplayChunk R sd seriesId c = .ok f ∧ Holds R f (rowsOf c) ∧
    c.startTs = f.header.startTs ∧ c.endTs = f.header.endTs ∧
    c.count = f.header.count
  apart : cs.Pairwise (fun a b => a.endTs < b.startTs)
  begun : ∀ c ∈ cs, pastEnd endTs c.startTs = false

/-- No chunk reaches past the end. -/
def Clean (endTs : Option Int) (cs : List ChunkMeta) : Prop := ∀ c ∈ cs, pastEnd endTs c.endTs = false

variable {sd : SeriesDir} {seriesId : Nat} {endTs : Option Int} {rowsOf : ChunkMeta → List R} {c : ChunkMeta}
    {cs : List ChunkMeta}

theorem Walkable.tail (h : Walkable sd seriesId endTs rowsOf (c :: cs)) : Walkable sd seriesId endTs rowsOf cs :=
  ⟨fun c hc => h.opens c (by simp [hc]), h.apart.of_cons, fun c hc => h.begun c (by simp [hc])⟩

theorem Walkable.count (h : Walkable sd seriesId endTs rowsOf cs) (hc : c ∈ cs) : c.count = (rowsOf c).length ∧
    0 < c.count := by
  obtain ⟨f, -, hf, -, -, hcount⟩ := h.opens c hc
  have heq := hcount.trans hf.count_eq
  exact ⟨heq, by rw [heq]; exact List.length_pos_iff.2 hf.ne_nil⟩

theorem Walkable.ordered (h : Walkable sd seriesId endTs rowsOf cs) (hc : c ∈ cs) : Ordered (rowsOf c) := by
  obtain ⟨f, -, hf, -⟩ := h.opens c hc
  exact hf.ordered

theorem Walkable.le_endTs (h : Walkable sd seriesId endTs rowsOf cs) (hc : c ∈ cs) {r : R} (hr : r ∈ rowsOf c) :
    FixedRecord.ts r ≤ c.endTs := by
  obtain ⟨f, -, hf, -, he, -⟩ := h.opens c hc
  rw [he, hf.endTs_eq]
  exact le_lastTs hf.ordered hr

/-- The first row of a chunk is not past the end. -/
theorem Walkable.upTo_ne_nil (h : Walkable sd seriesId endTs rowsOf cs) (hc : c ∈ cs) : upTo endTs (rowsOf c) ≠ [] := by
  obtain ⟨f, -, hf, hs, -⟩ := h.opens c hc
  obtain ⟨r, hr, hfirst⟩ := exists_firstTs hf.ne_nil
  refine List.ne_nil_of_mem (List.mem_filter.2 ⟨hr, ?_⟩)
  have := h.begun c hc
  rw [hs, hf.startTs_eq, ← hfirst] at this
  simp [this]

theorem Walkable.flatMap_pos (h : Walkable sd seriesId endTs rowsOf cs) (hne : cs ≠ []) :
    0 < (cs.flatMap (fun c => upTo endTs (rowsOf c))).length := by
  obtain ⟨c, hc⟩ := List.exists_mem_of_ne_nil _ hne
  obtain ⟨r, hr⟩ := List.exists_mem_of_ne_nil _ (h.upTo_ne_nil hc)
  exact List.length_pos_iff.2 (List.ne_nil_of_mem (List.mem_flatMap.2 ⟨c, hc, hr⟩))

/-- Where no chunk reaches past the end, something is to come until the chunks are done. -/
theorem Walkable.toCome_pos (h : Walkable sd seriesId endTs rowsOf (c :: cs)) (hclean : Clean endTs (c :: cs))
    {i : Nat} (hi : i < c.count) :
    0 < (toCome endTs rowsOf (c :: cs) i).length := by
  rw [(h.count List.mem_cons_self).1] at hi
  have hmem : (rowsOf c)[i] ∈ (rowsOf c).drop i := by
    rw [List.drop_eq_getElem_cons hi]
    exact List.mem_cons_self
  have hin : pastEnd endTs (FixedRecord.ts (rowsOf c)[i]) = false := by
    rw [← Bool.not_eq_true]
    intro hp
    have := pastEnd_mono (h.le_endTs List.mem_cons_self (List.getElem_mem hi)) hp
    rw [hclean c List.mem_cons_self] at this
    cases this
  refine List.length_pos_iff.2 (List.ne_nil_of_mem (List.mem_append_left _ (List.mem_filter.2 ⟨hmem, ?_⟩)))
  simp [hin]

/-- A chunk that others follow ends before them. -/
theorem Walkable.clean_cons (h : Walkable sd seriesId endTs rowsOf (c :: cs)) (hne : cs ≠ []) :
    Clean endTs (c :: cs) ↔ Clean endTs cs := by
  constructor
  · exact fun hc x hx => hc x (by simp [hx])
  · intro hc x hx
    rcases List.mem_cons.1 hx with rfl | hx
    · obtain ⟨d, hd⟩ := List.exists_mem_of_ne_nil _ hne
      rw [← Bool.not_eq_true]
      intro hp
      have := pastEnd_mono (le_of_lt (List.rel_of_pairwise_cons h.apart hd)) hp
      rw [h.begun d (by simp [hd])] at this
      cases this
    · exact hc x hx

/-- Where a cursor stands: the chunks from here on, and the position in the first of them. -/
structure CursorAt (seriesId : Nat) (endTs : Option Int) (cursor : ReplayCursor) (cs : List ChunkMeta)
    (i : Nat) : Prop where
  seriesId_eq : cursor.seriesId = seriesId
  endTs_eq : cursor.endTs = endTs
  here : cursor.chunks.drop cursor.currentChunkIndex = cs
  index : cursor.currentRecordIndex = i
  exhausted_eq : cursor.exhausted = cs.isEmpty
  inside : ∀ c ∈ cs.head?, i < c.count

theorem toCome_zero (endTs : Option Int) (rowsOf : ChunkMeta → List R) : ∀ (cs : List ChunkMeta),
    toCome endTs rowsOf cs 0 = cs.flatMap (fun c => upTo endTs (rowsOf c))
  | [] => rfl
  | _ :: _ => rfl

theorem advanceFrom_ok {cursor : ReplayCursor} : ∀ {cs : List ChunkMeta}
    {index : Nat}, cursor.chunks.drop index = cs → (∀ c ∈ cs, 0 < c.count) →
    CursorAt cursor.seriesId cursor.endTs (advanceFrom cursor cs index) cs 0
  | [], index, hdrop, _ => ⟨rfl, rfl, hdrop, rfl, rfl, fun c hc => by cases hc⟩
  | c :: cs, index, hdrop, hpos => by
    have hc := hpos c List.mem_cons_self
    unfold advanceFrom
    rw [if_neg (by omega)]
    refine ⟨rfl, rfl, hdrop, rfl, rfl, fun d hd => ?_⟩
    obtain rfl := Option.mem_some_iff.1 hd
    exact hc

/-- Leaving a chunk, the cursor stands at the start of the next. -/
theorem advanceChunk_ok {cursor : ReplayCursor} (hdrop : cursor.chunks.drop cursor.currentChunkIndex = c :: cs)
    (hpos : ∀ x ∈ cs, 0 < x.count) :
    CursorAt cursor.seriesId cursor.endTs cursor.advanceChunk cs 0 := by
  unfold ReplayCursor.advanceChunk
  have hnext : cursor.chunks.drop (cursor.currentChunkIndex + 1) = cs := by
    rw [← List.drop_drop, hdrop]
    rfl
  rw [hnext]
  exact advanceFrom_ok hnext hpos

theorem readBatchFromChunk_ok (h : Walkable sd seriesId endTs rowsOf cs) (hc : c ∈ cs) {i room : Nat}
    (hi : i < c.count) (hroom : 0 < room) :
    readBatchFromChunk sd seriesId c i endTs room = .ok ((upTo endTs ((rowsOf c).drop i)).take room,
      if room ≤ (upTo endTs ((rowsOf c).drop i)).length then i + room else c.count) := by
  obtain ⟨f, hopen, hf, -⟩ := h.opens c hc
  have hcount := (h.count hc).1
  unfold readBatchFromChunk
  rw [if_neg (by omega), hopen]
  simp only
  rw [readBatchFrom_ok hf endTs room i [] (by omega), List.nil_append, hcount]

/-- What a batch of at most `k` leaves: the rest of the stream, and nothing exactly when it ran out. -/
structure Left (sd : SeriesDir) (seriesId : Nat) (endTs : Option Int) (rowsOf : ChunkMeta → List R)
    (cs : List ChunkMeta) (i k : Nat) (cs' : List ChunkMeta) (i' : Nat) : Prop where
  walkable : Walkable sd seriesId endTs rowsOf cs'
  toCome_eq : toCome endTs rowsOf cs' i' = (toCome endTs rowsOf cs i).drop k
  nil_iff : cs' = [] ↔ cs = [] ∨ (toCome endTs rowsOf cs i).length < k ∨ (toCome endTs rowsOf cs i).length = k ∧
    Clean endTs cs
  clean_iff : cs' ≠ [] → (Clean endTs cs' ↔ Clean endTs cs)

/-- Nothing was asked for. -/
theorem Left.none (h : Walkable sd seriesId endTs rowsOf cs) {i : Nat} (hin : ∀ c ∈ cs.head?, i < c.count) :
    Left sd seriesId endTs rowsOf cs i 0 cs i := by
  refine ⟨h, rfl, ?_, fun _ => Iff.rfl⟩
  constructor
  · exact .inl
  · rintro (hnil | hlt | ⟨hzero, hclean⟩)
    · exact hnil
    · omega
    · cases cs with
      | nil => rfl
      | cons c cs =>
        have := h.toCome_pos hclean (hin c rfl)
        omega

/-- A batch filled inside a chunk. -/
theorem Left.inside (h : Walkable sd seriesId endTs rowsOf (c :: cs)) {i k : Nat}
    (hk : k ≤ (upTo endTs ((rowsOf c).drop i)).length) (hi : i + k < c.count) :
    Left sd seriesId endTs rowsOf (c :: cs) i k (c :: cs) (i + k) := by
  have hto : toCome endTs rowsOf (c :: cs) (i + k) = (toCome endTs rowsOf (c :: cs) i).drop k := by
    unfold toCome
    rw [List.drop_append_of_le_length hk,
      drop_upTo k ((h.ordered List.mem_cons_self).sublist (List.drop_sublist _ _)), List.drop_drop]
  have hlen : k ≤ (toCome endTs rowsOf (c :: cs) i).length := by
    unfold toCome
    rw [List.length_append]
    omega
  refine ⟨h, hto, ?_, fun _ => Iff.rfl⟩
  constructor
  · rintro ⟨⟩
  · rintro (hnil | hlt | ⟨heq, hclean⟩)
    · exact hnil
    · omega
    · have := h.toCome_pos hclean hi
      rw [hto, List.length_drop] at this
      omega

/-- A batch filled at the end of a chunk. -/
theorem Left.atEnd (h : Walkable sd seriesId endTs rowsOf (c :: cs)) {i k : Nat} (hic : i < c.count)
    (hk : k ≤ (upTo endTs ((rowsOf c).drop i)).length) (hi : c.count ≤ i + k) :
    Left sd seriesId endTs rowsOf (c :: cs) i k cs 0 := by
  have hcount := (h.count List.mem_cons_self).1
  have hle := length_upTo_le endTs ((rowsOf c).drop i)
  rw [List.length_drop] at hle
  have hall : upTo endTs ((rowsOf c).drop i) = (rowsOf c).drop i :=
    List.Sublist.eq_of_length List.filter_sublist (by rw [List.length_drop]; omega)
  have hlen : (toCome endTs rowsOf (c :: cs) i).length = k + (cs.flatMap (fun c => upTo endTs (rowsOf c))).length := by
    unfold toCome
    rw [List.length_append]
    omega
  refine ⟨h.tail, ?_, ?_, fun hne => (h.clean_cons hne).symm⟩
  · rw [toCome_zero]
    unfold toCome
    rw [List.drop_append, List.drop_eq_nil_of_le (by omega),
      show k - (upTo endTs ((rowsOf c).drop i)).length = 0 by omega]
    rfl
  · constructor
    · rintro rfl
      refine .inr (.inr ⟨by simpa using hlen, fun x hx => ?_⟩)
      obtain rfl := List.mem_singleton.1 hx
      -- the last row of the chunk is one of those still to come
      obtain ⟨f, -, hf, -, hend, -⟩ := h.opens x List.mem_cons_self
      have hne : (rowsOf x).drop i ≠ [] := by
        rw [← List.length_pos_iff, List.length_drop]
        omega
      have hmem : (rowsOf x).getLast hf.ne_nil ∈ (rowsOf x).drop i := by
        rw [← List.getLast_drop hne]
        exact List.getLast_mem hne
      rw [← hall] at hmem
      have hin := (List.mem_filter.1 hmem).2
      have hlast : lastTs (rowsOf x) = FixedRecord.ts ((rowsOf x).getLast hf.ne_nil) := by
        unfold lastTs
        rw [List.getLast?_eq_some_getLast hf.ne_nil]
        rfl
      rw [hend, hf.endTs_eq, hlast]
      simpa using hin
    · rintro (hnil | hlt | ⟨heq, -⟩)
      · cases hnil
      · omega
      · by_contra hne
        have := h.tail.flatMap_pos hne
        omega

/-- A batch that takes all of a chunk goes on with the next one. -/
theorem Left.more (h : Walkable sd seriesId endTs rowsOf (c :: cs)) {i k : Nat} {cs' : List ChunkMeta} {i' : Nat}
    (hk : (upTo endTs ((rowsOf c).drop i)).length < k)
    (hl : Left sd seriesId endTs rowsOf cs 0 (k - (upTo endTs ((rowsOf c).drop i)).length) cs' i') :
    Left sd seriesId endTs rowsOf (c :: cs) i k cs' i' := by
  have hsplit : toCome endTs rowsOf (c :: cs) i = upTo endTs ((rowsOf c).drop i) ++ toCome endTs rowsOf cs 0 := by
    rw [toCome_zero]
    rfl
  have hlen := congrArg List.length hsplit
  rw [List.length_append] at hlen
  refine ⟨hl.walkable, ?_, ?_, fun hne => (hl.clean_iff hne).trans ?_⟩
  · have hnil : (upTo endTs ((rowsOf c).drop i)).drop k = [] := List.drop_eq_nil_of_le (by omega)
    rw [hl.toCome_eq, hsplit, List.drop_append, hnil, List.nil_append]
  · rw [hl.nil_iff]
    by_cases hcs : cs = []
    · subst hcs
      simp only [toCome, List.length_nil] at hlen ⊢
      simp only [true_or, reduceCtorEq, false_or, true_iff]
      omega
    · rw [h.clean_cons hcs]
      simp only [hcs, reduceCtorEq, false_or]
      constructor
      · rintro (hlt | ⟨heq, hclean⟩)
        · omega
        · exact .inr ⟨by omega, hclean⟩
      · rintro (hlt | ⟨heq, hclean⟩)
        · omega
        · exact .inr ⟨by omega, hclean⟩
  · refine (h.clean_cons ?_).symm
    rintro rfl
    exact hne (hl.nil_iff.2 (.inl rfl))

theorem nextBatchFrom_full {n : Nat} (rounds : Nat) (cursor : ReplayCursor) {out : List R} (h : n ≤ out.length) :
    nextBatchFrom sd n rounds cursor out = .ok (out, cursor) := by
  cases rounds with
  | zero => rfl
  | succ rounds =>
    unfold nextBatchFrom
    rw [if_pos (.inl h)]

/-- **The loop of a batch** takes the front of what is to come. -/
theorem nextBatchFrom_ok {n : Nat} {rounds : Nat} {cursor : ReplayCursor} {i : Nat} (out : List R)
    (hr : cs.length ≤ rounds) (hw : Walkable sd seriesId endTs rowsOf cs) (hat : CursorAt seriesId endTs cursor cs i)
    (hout : out.length ≤ n) :
    ∃ cursor' cs' i', nextBatchFrom sd n rounds cursor out =
      .ok (out ++ (toCome endTs rowsOf cs i).take (n - out.length), cursor') ∧
      CursorAt seriesId endTs cursor' cs' i' ∧ Left sd seriesId endTs rowsOf cs i (n - out.length) cs' i' := by
  induction rounds generalizing cursor cs i out with
  | zero =>
    obtain rfl := List.eq_nil_of_length_eq_zero (Nat.le_zero.1 hr)
    exact ⟨cursor, [], i, by simp [nextBatchFrom, toCome], hat, hw, by simp [toCome], by simp, by simp⟩
  | succ rounds ih =>
    by_cases hfull : n ≤ out.length
    · have hzero : n - out.length = 0 := by omega
      rw [nextBatchFrom_full _ _ hfull, hzero, List.take_zero, List.append_nil]
      exact ⟨cursor, cs, i, rfl, hat, Left.none hw hat.inside⟩
    unfold nextBatchFrom
    cases cs with
    | nil =>
      rw [if_pos (.inr hat.exhausted_eq)]
      exact ⟨cursor, [], i, by simp [toCome], hat, hw, by simp [toCome], by simp, by simp⟩
    | cons c cs =>
      obtain ⟨rfl, rfl, hhere, rfl, hexh, hin⟩ := hat
      have hi := hin c rfl
      have hpos : ∀ x ∈ cs, 0 < x.count := fun x hx => (hw.count (List.mem_cons_of_mem _ hx)).2
      have hget : cursor.chunks[cursor.currentChunkIndex]? = some c := by
        have := congrArg List.head? hhere
        rwa [List.head?_drop] at this
      have hroom : 0 < n - out.length := by omega
      rw [if_neg (by simp [hfull, hexh]), hget]
      simp only
      rw [readBatchFromChunk_ok hw List.mem_cons_self hi hroom]
      simp only
      have hadv : ∀ j, CursorAt cursor.seriesId cursor.endTs { cursor with currentRecordIndex := j }.advanceChunk cs
        0 := fun j => by
        have hstand : { cursor with currentRecordIndex := j }.chunks.drop { cursor
          with currentRecordIndex := j }.currentChunkIndex = c :: cs := hhere
        exact advanceChunk_ok hstand hpos
      have hto : toCome cursor.endTs rowsOf (c :: cs) cursor.currentRecordIndex =
          upTo cursor.endTs ((rowsOf c).drop cursor.currentRecordIndex) ++ toCome cursor.endTs rowsOf cs 0 := by
        rw [toCome_zero]
        rfl
      by_cases hk : n - out.length ≤ (upTo cursor.endTs ((rowsOf c).drop cursor.currentRecordIndex)).length
      · -- the chunk fills the batch
        have hlen : (out ++ (upTo cursor.endTs ((rowsOf c).drop cursor.currentRecordIndex)).take
          (n - out.length)).length = n := by
          rw [List.length_append, List.length_take]
          omega
        rw [if_pos hk, nextBatchFrom_full _ _ (le_of_eq hlen.symm), hlen, hto, List.take_append_of_le_length hk]
        by_cases hend : c.count ≤ cursor.currentRecordIndex + (n - out.length)
        · rw [if_pos (.inl hend)]
          exact ⟨_, cs, 0, rfl, hadv _, Left.atEnd hw hi hk hend⟩
        · rw [if_neg (by simp [hend])]
          refine ⟨_, c :: cs, _, rfl, ⟨rfl, rfl, hhere, rfl, hexh, fun d hd => ?_⟩, Left.inside hw hk (by omega)⟩
          obtain rfl := Option.mem_some_iff.1 hd
          simp only
          omega
      · -- the chunk is done, and the batch goes on behind it
        have hlt : (upTo cursor.endTs ((rowsOf c).drop cursor.currentRecordIndex)).length < n - out.length := by omega
        rw [if_neg hk, List.take_of_length_le (by omega), if_pos (.inl le_rfl)]
        obtain ⟨cursor', cs', i', hrun, hat', hleft⟩ :=
          ih (out ++ upTo cursor.endTs ((rowsOf c).drop cursor.currentRecordIndex))
          (by simpa using hr) hw.tail (hadv c.count) (by rw [List.length_append]; omega)
        have hroom' : n - (out ++ upTo cursor.endTs ((rowsOf c).drop cursor.currentRecordIndex)).length =
            n - out.length - (upTo cursor.endTs ((rowsOf c).drop cursor.currentRecordIndex)).length := by
          rw [List.length_append]
          omega
        rw [hroom'] at hrun hleft
        refine ⟨cursor', cs', i', ?_, hat', Left.more hw hlt hleft⟩
        have hall : (upTo cursor.endTs ((rowsOf c).drop cursor.currentRecordIndex)).take (n - out.length) =
            upTo cursor.endTs ((rowsOf c).drop cursor.currentRecordIndex) := List.take_of_length_le (by omega)
        rw [hrun, hto, List.take_append, hall, List.append_assoc]

/-- **A batch**: nothing once the chunks are done, else the front of what is to come where room for it can be had. -/
theorem nextBatch_ok {n : Nat} (hn : 0 < n) {cursor : ReplayCursor} {i : Nat}
    (hw : Walkable sd seriesId endTs rowsOf cs) (hat : CursorAt seriesId endTs cursor cs i)
    (hfit : cs = [] ∨ n * FixedRecord.byteSize R < 2 ^ 63) :
    ∃ cursor' cs' i', cursor.nextBatch sd n = .ok ((toCome endTs rowsOf cs i).take n, cursor') ∧
      CursorAt seriesId endTs cursor' cs' i' ∧
      Left sd seriesId endTs rowsOf cs i n cs' i' := by
  unfold ReplayCursor.nextBatch
  rw [if_neg (by omega)]
  by_cases hcs : cs = []
  · subst hcs
    rw [if_pos (by simp [hat.exhausted_eq])]
    exact ⟨cursor, [], i, by simp [toCome], hat, hw, by simp [toCome], by simp, by simp⟩
  · have hlt := hfit.resolve_left hcs
    have hlen : cs.length ≤ cursor.chunks.length + 1 := by
      rw [← hat.here, List.length_drop]
      omega
    rw [if_neg (by simp [hat.exhausted_eq, hcs]), if_neg (by omega)]
    simpa using nextBatchFrom_ok (n := n) [] hlen hw hat (by simp)

theorem nextBatch_error {n : Nat} (hn : 0 < n) {cursor : ReplayCursor} {i : Nat}
    (hat : CursorAt seriesId endTs cursor cs i) (hfit : ¬ (cs = [] ∨ n * FixedRecord.byteSize R < 2 ^ 63)) :
    cursor.nextBatch (R := R) sd n = .error (.io "capacity overflow") := by
  obtain ⟨hne, hbig⟩ := not_or.1 hfit
  unfold ReplayCursor.nextBatch
  rw [if_neg (by omega), if_neg (by simp [hat.exhausted_eq, hne]), if_pos (by omega)]

/-! ## The batches of a whole replay -/

/-- A stream cut at the requested sizes. -/
def cutAt {α : Type} : List Nat → List α → List (List α)
  | [], _ => []
  | n :: ns, xs => xs.take n :: cutAt ns (xs.drop n)

/-- The calls a cursor can serve with `left` records to come.  The cursor is done when a batch comes out short, and with
the last record where no chunk reaches past the end; until then room for the whole batch is reserved. -/
def BatchesFit (recordSize : Nat) (cut : Bool) : List Nat → Nat → Bool
  | [], _ => true
  | n :: ns, left =>
    decide (n * recordSize < 2 ^ 63) && (decide (left < n) || decide (left = n) && !cut ||
      BatchesFit recordSize cut ns (left - n))

/-- **The batches are the stream cut at the sizes**, for the calls that can be served and no others. -/
theorem readBatches_eq (cut : Bool) : ∀ {sizes : List Nat} {cursor : ReplayCursor} {cs : List ChunkMeta} {i : Nat},
    (∀ n ∈ sizes, 0 < n) → Walkable sd seriesId endTs rowsOf cs → CursorAt seriesId endTs cursor cs i →
      (cs ≠ [] → (Clean endTs cs ↔ cut = false)) →
    if cs = [] ∨ BatchesFit (FixedRecord.byteSize R) cut sizes (toCome endTs rowsOf cs i).length = true then
      readBatches sd sizes cursor = .ok (cutAt sizes (toCome endTs rowsOf cs i))
    else ∃ e, readBatches (R := R) sd sizes cursor = .error e
  | [], cursor, cs, i, _, _, _, _ => by
    rw [if_pos (.inr rfl)]
    rfl
  | n :: ns, cursor, cs, i, hpos, hw, hat, hcut => by
    have hn := hpos n List.mem_cons_self
    unfold readBatches
    by_cases hfit : cs = [] ∨ n * FixedRecord.byteSize R < 2 ^ 63
    · obtain ⟨cursor', cs', i', hrun, hat', hleft⟩ := nextBatch_ok hn hw hat hfit
      have hiff : (cs' = [] ∨ BatchesFit (FixedRecord.byteSize R) cut ns (toCome endTs rowsOf cs' i').length = true) ↔
          cs = [] ∨ BatchesFit (FixedRecord.byteSize R) cut (n :: ns) (toCome endTs rowsOf cs i).length = true := by
        rw [hleft.nil_iff, hleft.toCome_eq, List.length_drop]
        by_cases hcs : cs = []
        · simp [hcs]
        · rw [hcut hcs]
          simp only [BatchesFit, Bool.and_eq_true, Bool.or_eq_true, decide_eq_true_eq, Bool.not_eq_true', hcs, false_or]
          have := hfit.resolve_left hcs
          tauto
      have ih := readBatches_eq cut (fun k hk => hpos k (List.mem_cons_of_mem _ hk)) hleft.walkable hat' (fun hne =>
        (hleft.clean_iff hne).trans (hcut (fun hnil => hne (hleft.nil_iff.2 (.inl hnil)))))
      rw [hrun]
      simp only
      by_cases hserve : cs = [] ∨
        BatchesFit (FixedRecord.byteSize R) cut (n :: ns) (toCome endTs rowsOf cs i).length = true
      · rw [if_pos (hiff.2 hserve)] at ih
        rw [if_pos hserve, ih, hleft.toCome_eq]
        rfl
      · rw [if_neg (fun h => hserve (hiff.1 h))] at ih
        obtain ⟨e, he⟩ := ih
        rw [if_neg hserve, he]
        exact ⟨e, rfl⟩
    · rw [nextBatch_error hn hat hfit, if_neg]
      · exact ⟨_, rfl⟩
      · simp only [BatchesFit, Bool.and_eq_true, decide_eq_true_eq]
        tauto

/-- What the batches of a replay have to be: together the records of the stream; each that records follow of the size
asked for; an empty one only behind them all, and one in the end. -/
structure ExactBatches {α : Type} (stream : List α) (sizes : List Nat) (batches : List (List α)) : Prop where
  flatten_eq : batches.flatten = stream.take sizes.sum
  full : ∀ (i j : Nat) (b b' : List α), i < j → batches[i]? = some b → batches[j]? = some b' → b' ≠ [] →
    sizes[i]? = some b.length
  behind : ∀ (j : Nat), batches[j]? = some [] → (batches.take j).flatten = stream
  ends : stream.length < sizes.length → [] ∈ batches

theorem mem_of_mem_cutAt {α : Type} {x : α} : ∀ {sizes : List Nat} {stream b : List α}, b ∈ cutAt sizes stream →
    x ∈ b → x ∈ stream
  | [], stream, b, hb, _ => by cases hb
  | n :: ns, stream, b, hb, hx => by
    rcases List.mem_cons.1 hb with rfl | hb
    · exact List.mem_of_mem_take hx
    · exact List.mem_of_mem_drop (mem_of_mem_cutAt hb hx)

/-- **A stream cut at positive sizes is read exactly.** -/
theorem exact_cutAt {α : Type} : ∀ {sizes : List Nat} (stream : List α), (∀ n ∈ sizes, 0 < n) →
    ExactBatches stream sizes (cutAt sizes stream)
  | [], stream, _ => ⟨by simp [cutAt], by simp [cutAt], by simp [cutAt], by simp⟩
  | n :: ns, stream, hpos => by
    have hn := hpos n List.mem_cons_self
    have ih := exact_cutAt (stream.drop n) (fun k hk => hpos k (List.mem_cons_of_mem _ hk))
    refine ⟨?_, fun i j b b' hij hb hb' hne => ?_, fun j hj => ?_, fun hlen => ?_⟩
    · unfold cutAt
      rw [List.flatten_cons, ih.flatten_eq, List.sum_cons, List.take_add]
    · obtain ⟨j, rfl⟩ : ∃ k, j = k + 1 := ⟨j - 1, by omega⟩
      have hb'' : (cutAt ns (stream.drop n))[j]? = some b' := hb'
      cases i with
      | zero =>
        obtain rfl := Option.some.inj hb
        -- a later batch has a record, so the stream goes past this one
        obtain ⟨x, hx⟩ := List.exists_mem_of_ne_nil _ hne
        have hmore := List.length_pos_of_mem (mem_of_mem_cutAt (List.mem_of_getElem? hb'') hx)
        rw [List.length_drop] at hmore
        rw [List.getElem?_cons_zero, List.length_take, Nat.min_eq_left (by omega)]
      | succ i => exact ih.full i j b b' (by omega) hb hb'' hne
    · cases j with
      | zero =>
        have hnil := Option.some.inj hj
        rcases List.take_eq_nil_iff.1 hnil with h | h
        · omega
        · simp [h]
      | succ j =>
        unfold cutAt
        rw [List.take_succ_cons, List.flatten_cons, ih.behind j hj, List.take_append_drop]
    · unfold cutAt
      by_cases hnil : stream = []
      · simp [hnil]
      · have hlt := List.length_pos_iff.2 hnil
        have : (stream.drop n).length < ns.length := by
          rw [List.length_drop]
          rw [List.length_cons] at hlen
          omega
        exact List.mem_cons_of_mem _ (ih.ends this)

end Walk

/-! ## Replaying a series -/

section Replayable

variable {R : Type} [FixedRecord R]

/-- A series as the writers leave it: of the type of its records, with the files stamped with its id. -/
structure Replayable (R : Type) [FixedRecord R] (sd : SeriesDir) (m : SeriesMeta)
    (rowsOf : ChunkMeta → List R) : Prop where
  stored : Stored R sd m rowsOf
  recordType_eq : m.recordType = FixedRecord.recordType R
  schemaId_eq : m.schemaId = FixedRecord.schemaId R
  recordSize_eq : m.recordSize = FixedRecord.byteSize R
  stamped : ∀ c ∈ m.chunks, ∀ f, sd.lookup c.relativePath = some (.chunk f) → f.header.seriesId = m.seriesId

/-- The records a replay is for. -/
def replayStream (rowsOf : ChunkMeta → List R) (m : SeriesMeta) (o : ReplayOptions) : List R :=
  ((m.chunks.filter (fun c => decide (c.state = .sealed))).flatMap rowsOf).filter
    (fun r => decide (o.startTs ≤ FixedRecord.ts r) && !pastEnd o.endTs (FixedRecord.ts r))

/-- A chunk of the replay reaches past its end. -/
def replayCut (m : SeriesMeta) (o : ReplayOptions) : Bool := (replayChunks m o).any (fun c => pastEnd o.endTs c.endTs)

variable {sd : SeriesDir} {m : SeriesMeta} {rowsOf : ChunkMeta → List R} {o : ReplayOptions}

theorem mem_replayChunks {c : ChunkMeta} :
    c ∈ replayChunks m o ↔ c ∈ m.chunks ∧ c.state = .sealed ∧ o.startTs ≤ c.endTs ∧
      pastEnd o.endTs c.startTs = false := by
  unfold replayChunks pastEnd
  rw [List.mem_filter]
  simp only [Bool.and_eq_true, decide_eq_true_eq]
  cases o.endTs <;> simp [and_assoc]

theorem Replayable.walkable (h : Replayable R sd m rowsOf) (o : ReplayOptions) :
    Walkable sd m.seriesId o.endTs rowsOf (replayChunks m o) := by
  refine ⟨fun c hc => ?_, h.stored.chain.1.sublist List.filter_sublist, fun c hc => (mem_replayChunks.1 hc).2.2.2⟩
  have hmem := (mem_replayChunks.1 hc).1
  obtain ⟨f, hl, hf, hs, he, hcount⟩ := h.stored.held c hmem
  refine ⟨f, ?_, hf, hs, he, hcount⟩
  unfold openReplayChunk
  rw [SeriesDir.openChunk_ok hl hf.header_ok]
  simp only
  rw [if_neg (not_not.2 hf.schemaId_eq), if_neg (not_not.2 hf.recordSize_eq),
    if_neg (not_not.2 (h.stamped c hmem f hl))]

/-- The position of the first record not before the start. -/
def startIndex (rowsOf : ChunkMeta → List R) (startTs : Int) : List ChunkMeta → Nat
  | [] => 0
  | c :: _ => lowerCount (rowsOf c) startTs

theorem Replayable.startIndex_lt (h : Replayable R sd m rowsOf) :
    ∀ c ∈ (replayChunks m o).head?, startIndex rowsOf o.startTs (replayChunks m o) < c.count := by
  intro c hc
  have hmem : c ∈ replayChunks m o := List.mem_of_mem_head? hc
  obtain ⟨f, -, hf, -, he, hcount⟩ := (h.walkable o).opens c hmem
  obtain ⟨r, hr, hlast⟩ := exists_lastTs hf.ne_nil
  have hle := (mem_replayChunks.1 hmem).2.2.1
  have hindex : startIndex rowsOf o.startTs (replayChunks m o) = lowerCount (rowsOf c) o.startTs := by
    obtain ⟨cs, heq⟩ := List.head?_eq_some_iff.1 hc
    rw [heq]
    rfl
  rw [hindex, hcount, hf.count_eq]
  refine lt_of_le_of_ne List.countP_le_length (fun hall => ?_)
  have := List.countP_eq_length.1 hall r hr
  rw [decide_eq_true_eq, hlast, ← hf.endTs_eq, ← he] at this
  omega

/-- **The cursor starts at the first record of the stream.** -/
theorem Replayable.replay_ok (h : Replayable R sd m rowsOf) (ho : ∀ e, o.endTs = some e → o.startTs ≤ e) :
    ∃ cursor, replay R sd o = .ok cursor ∧
      CursorAt m.seriesId o.endTs cursor (replayChunks m o) (startIndex rowsOf o.startTs (replayChunks m o)) := by
  have hsorted : (replayChunks m o).insertionSort ReplayLe = replayChunks m o := by
    refine List.Pairwise.insertionSort_eq ((h.walkable o).apart.imp_of_mem ?_)
    intro a b ha _ hab
    have := h.stored.chain.2 a (mem_replayChunks.1 ha).1
    exact .inl (by omega)
  have hnew : replay R sd o = seekFrom R sd o.startTs
    ⟨replayChunks m o, m.seriesId, 0, 0, o.endTs, false⟩ (replayChunks m o) 0 := by
    unfold replay
    rw [SeriesDir.loadSeriesMeta_ok h.stored.manifest_eq h.stored.valid]
    simp only
    unfold ReplayCursor.new
    rw [if_neg]
    · unfold validateReplayMeta
      rw [if_neg (not_not.2 h.recordType_eq), if_neg (not_not.2 h.schemaId_eq), if_neg (not_not.2 h.recordSize_eq)]
      simp only
      rw [hsorted]
    · cases hend : o.endTs with
      | none => simp
      | some e =>
        have := ho e hend
        simp only [Option.any_some, decide_eq_true_eq]
        omega
  rw [hnew]
  have hlt := h.startIndex_lt (o := o)
  have hw := h.walkable o
  cases hcs : replayChunks m o with
  | nil => exact ⟨_, rfl, rfl, rfl, rfl, rfl, rfl, by simp⟩
  | cons c cs =>
    rw [hcs] at hlt hw
    have hmem : c ∈ replayChunks m o := by rw [hcs]; exact List.mem_cons_self
    have hle := (mem_replayChunks.1 hmem).2.2.1
    have hindex : lowerCount (rowsOf c) o.startTs < c.count := hlt c rfl
    obtain ⟨f, hopen, hf, -⟩ := hw.opens c List.mem_cons_self
    have hseek : lowerBoundInChunk R sd m.seriesId c o.startTs = .ok (lowerCount (rowsOf c) o.startTs) := by
      unfold lowerBoundInChunk
      rw [hopen]
      exact hf.lowerBound_ok o.startTs
    unfold seekFrom
    rw [if_neg (by omega)]
    simp only
    rw [hseek]
    simp only
    rw [if_neg (not_le.2 hindex)]
    exact ⟨_, rfl, rfl, rfl, rfl, rfl, rfl, hlt⟩

theorem Replayable.window_eq (h : Replayable R sd m rowsOf) {c : ChunkMeta} (hc : c ∈ m.chunks) :
    (rowsOf c).filter (fun r => decide (o.startTs ≤ FixedRecord.ts r) && !pastEnd o.endTs (FixedRecord.ts r)) =
      upTo o.endTs ((rowsOf c).drop (lowerCount (rowsOf c) o.startTs)) := by
  obtain ⟨f, -, hf, -⟩ := h.stored.held c hc
  unfold lowerCount upTo
  rw [drop_countP (partitioned_lt hf.ordered o.startTs), List.filter_filter]
  refine List.filter_congr (fun r _ => ?_)
  rw [Bool.and_comm, ← decide_not]
  simp

/-- A chunk that misses the bounds has no record of the stream. -/
theorem Replayable.window_nil (h : Replayable R sd m rowsOf) {c : ChunkMeta} (hc : c ∈ m.chunks)
    (hout : ¬ (o.startTs ≤ c.endTs ∧ pastEnd o.endTs c.startTs = false)) :
    (rowsOf c).filter (fun r => decide (o.startTs ≤ FixedRecord.ts r) && !pastEnd o.endTs (FixedRecord.ts r)) = [] := by
  rw [List.filter_eq_nil_iff]
  intro r hr hin
  have hb := h.stored.bounds hc hr
  simp only [Bool.and_eq_true, decide_eq_true_eq, Bool.not_eq_true'] at hin
  refine hout ⟨by omega, ?_⟩
  rw [← Bool.not_eq_true]
  intro hp
  have := pastEnd_mono hb.1 hp
  rw [hin.2] at this
  cases this

theorem flatMap_filter_of_nil {α β : Type} {f : α → List β} {p : α → Bool} :
    ∀ {l : List α}, (∀ x ∈ l, p x = false → f x = []) →
    (l.filter p).flatMap f = l.flatMap f
  | [], _ => rfl
  | x :: xs, h => by
    have ih := flatMap_filter_of_nil (l := xs) (fun y hy => h y (List.mem_cons_of_mem _ hy))
    cases hx : p x with
    | true => rw [List.filter_cons_of_pos hx, List.flatMap_cons, List.flatMap_cons, ih]
    | false => rw [List.filter_cons_of_neg (by simp [hx]), List.flatMap_cons, h x List.mem_cons_self hx,
        List.nil_append, ih]

/-- **What the cursor has to give at the start is the stream.** -/
theorem Replayable.stream_eq (h : Replayable R sd m rowsOf) :
    toCome o.endTs rowsOf (replayChunks m o)
    (startIndex rowsOf o.startTs (replayChunks m o)) = replayStream rowsOf m o := by
  have hw := h.walkable o
  have hfilter : replayChunks m o = (m.chunks.filter (fun c => decide (c.state = .sealed))).filter
      (fun c => decide (o.startTs ≤ c.endTs ∧ pastEnd o.endTs c.startTs = false)) := by
    rw [List.filter_filter]
    refine List.filter_congr (fun c _ => ?_)
    unfold pastEnd
    cases o.endTs <;> simp [Bool.and_comm, Bool.and_assoc]
  have hchunks : replayStream rowsOf m o = (replayChunks m o).flatMap
      (fun c => (rowsOf c).filter (fun r =>
        decide (o.startTs ≤ FixedRecord.ts r) && !pastEnd o.endTs (FixedRecord.ts r))) := by
    unfold replayStream
    rw [List.filter_flatMap, hfilter]
    refine (flatMap_filter_of_nil (fun c hc hout => ?_)).symm
    exact h.window_nil (List.mem_filter.1 hc).1 (by simpa using hout)
  rw [hchunks]
  cases hcs : replayChunks m o with
  | nil => rfl
  | cons c cs =>
    rw [hcs] at hw
    have hmem : ∀ x ∈ c :: cs, x ∈ m.chunks ∧ o.startTs ≤ x.endTs := fun x hx =>
      ⟨(mem_replayChunks.1 (hcs ▸ hx)).1, (mem_replayChunks.1 (hcs ▸ hx)).2.2.1⟩
    rw [List.flatMap_cons, h.window_eq (hmem c List.mem_cons_self).1]
    unfold toCome
    refine congrArg₂ _ rfl (List.flatMap_congr (fun x hx => ?_))
    -- behind the first chunk every record is after the start
    rw [h.window_eq (hmem x (List.mem_cons_of_mem _ hx)).1]
    have hlt := List.rel_of_pairwise_cons hw.apart hx
    have hstart := (hmem c List.mem_cons_self).2
    rw [lowerCount_eq_zero (fun r hr => by
      have := (h.stored.bounds (hmem x (List.mem_cons_of_mem _ hx)).1 hr).1
      omega), List.drop_zero]

/-- **What a replay reads**: the stream cut at the sizes, where room for the batches can be had. -/
theorem Replayable.read (h : Replayable R sd m rowsOf) (ho : ∀ e, o.endTs = some e → o.startTs ≤ e) {sizes : List Nat}
    (hpos : ∀ n ∈ sizes, 0 < n) :
    ∃ cursor, replay R sd o = .ok cursor ∧
      if replayChunks m o = [] ∨ BatchesFit (FixedRecord.byteSize R)
        (replayCut m o) sizes (replayStream rowsOf m o).length = true then
        readBatches sd sizes cursor = .ok (cutAt sizes (replayStream rowsOf m o))
      else ∃ e, readBatches (R := R) sd sizes cursor = .error e := by
  obtain ⟨cursor, hcursor, hat⟩ := h.replay_ok ho
  refine ⟨cursor, hcursor, ?_⟩
  have hclean : Clean o.endTs (replayChunks m o) ↔ replayCut m o = false := by
    unfold Clean replayCut
    rw [List.any_eq_false]
    simp
  have hread := readBatches_eq _ hpos (h.walkable o) hat (fun _ => hclean)
  rwa [h.stream_eq] at hread

/-- **Replay is exact and ends, for the batches room can be had for.** -/
theorem replay_exact_iff (h : Replayable R sd m rowsOf) (o : ReplayOptions)
    (ho : ∀ e, o.endTs = some e → o.startTs ≤ e) (sizes : List Nat) (hpos : ∀ n ∈ sizes, 0 < n) :
    ∃ cursor, replay R sd o = .ok cursor ∧
      ((∃ batches, readBatches sd sizes cursor = .ok batches ∧ ExactBatches (replayStream rowsOf m o) sizes batches) ↔
        replayChunks m o = [] ∨ BatchesFit (FixedRecord.byteSize R)
          (replayCut m o) sizes (replayStream rowsOf m o).length = true) := by
  obtain ⟨cursor, hcursor, hread⟩ := h.read ho hpos
  refine ⟨cursor, hcursor, ?_⟩
  split at hread
  · rename_i hfit
    exact ⟨fun _ => hfit, fun _ => ⟨_, hread, exact_cutAt _ hpos⟩⟩
  · rename_i hfit
    obtain ⟨e, he⟩ := hread
    refine ⟨fun ⟨batches, hok, _⟩ => ?_, fun hserve => absurd hserve hfit⟩
    rw [he] at hok
    cases hok

theorem sampleSeries_replayable :
    Replayable KlineRecord sampleSeries (sampleMeta [sampleOldChunk, sampleNewChunk]) sampleRowsOf := by
  refine ⟨sampleSeries_stored, rfl, rfl, rfl, fun c hc f hf => ?_⟩
  rcases List.mem_cons.1 hc with rfl | hc
  · obtain rfl := FileBody.chunk.inj (Option.some.inj hf)
    rfl
  · obtain rfl := List.mem_singleton.1 hc
    obtain rfl := FileBody.chunk.inj (Option.some.inj hf)
    rfl

/-- Batches of two from the second record on: the last is short, and the call behind it asks for more than there can
be. -/
theorem replay_exact_iff_sample : ∃ cursor, replay KlineRecord sampleSeries ⟨60000, none⟩ = .ok cursor ∧
    ∃ batches, readBatches (R := KlineRecord) sampleSeries [2, 3, 2 ^ 64 - 1] cursor = .ok batches ∧
      ExactBatches [sampleKline 60000, sampleKline 2678400000, sampleKline 2678460000, sampleKline 2678520000] [2, 3,
        2 ^ 64 - 1] batches := by
  obtain ⟨cursor, hcursor, hiff⟩ := replay_exact_iff sampleSeries_replayable ⟨60000, none⟩
    (fun e he => by cases he) [2, 3, 2 ^ 64 - 1] (by decide)
  exact ⟨cursor, hcursor, hiff.2 (.inr (by decide))⟩

/-- The whole series asked for in one batch of the largest size there is. -/
theorem replay_batch_overflows : ∃ cursor, replay KlineRecord sampleSeries ⟨0, none⟩ = .ok cursor ∧
    ¬ ∃ batches, readBatches (R := KlineRecord) sampleSeries [2 ^ 64 - 1] cursor = .ok batches :=
  ⟨_, rfl, by
    rintro ⟨batches, h⟩
    cases h⟩

end Replayable

end FastK
