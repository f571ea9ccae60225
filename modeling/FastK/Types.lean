import FastK.Lib.Search
import FastK.Lib.Spans
import FastK.Lib.Text
/-!
# Series metadata

The manifest entry of a chunk, the manifest of a series, their checks, and the lookups by timestamp
(`types/meta.rs`).  A manifest that passes `SeriesMeta.validate` and whose chunks are not empty is a chain of time
spans (`chain_of_validate`), on which the halving lookups select exactly the chunks that meet the queried range
(`flatMap_findChunksForRange`).
-/
instance : Coe String Text := ⟨String.toList⟩

namespace FastK

open Search Spans

/-- A message put together from its parts. -/
def words (parts : List Text) : Text := parts.flatten

def showInt (z : Int) : Text := (toString z).toList

def showNat (n : Nat) : Text := Nat.toDigits 10 n

/-- The error kinds of the store (`error.rs`) that modelled code raises. -/
inductive FastKError where
  | io (msg : Text)
  | sqlite (msg : Text)
  | invalidInput (msg : Text)
  | invalidData (msg : Text)
  | notFound (msg : Text)
  deriving DecidableEq, Repr

/-- The text of an error (`Display`). -/
def FastKError.display : FastKError → Text
  | .io msg => words ["io error: ", msg]
  | .sqlite msg => words ["sqlite error: ", msg]
  | .invalidInput msg => words ["invalid input: ", msg]
  | .invalidData msg => words ["invalid data: ", msg]
  | .notFound msg => words ["not found: ", msg]

abbrev Result (α : Type) := Except FastKError α

/-- Runs a fallible function over a list up to its first error (`collect::<Result<Vec<_>>>()`). -/
def collect {α β : Type} (f : α → Result β) : List α → Result (List β)
  | [] => .ok []
  | x :: xs =>
    match f x with
    | .error e => .error e
    | .ok y =>
      match collect f xs with
      | .error e => .error e
      | .ok ys => .ok (y :: ys)

theorem collect_ok {α β : Type} {f : α → Result β} (g : α → β) : ∀ {l : List α}, (∀ x ∈ l, f x = .ok (g x)) →
    collect f l = .ok (l.map g)
  | [], _ => rfl
  | x :: xs, h => by
    unfold collect
    rw [h x (by simp), collect_ok g (fun y hy => h y (by simp [hy]))]
    rfl

/-- Where every call succeeds with a value in the relation, so does the loop. -/
theorem collect_forall₂ {α β : Type} {f : α → Result β} {P : α → β → Prop} : ∀ {l : List α},
    (∀ x ∈ l, ∃ y, f x = .ok y ∧ P x y) → ∃ ys, collect f l = .ok ys ∧ List.Forall₂ P l ys
  | [], _ => ⟨[], rfl, .nil⟩
  | x :: xs, h => by
    obtain ⟨y, hy, hp⟩ := h x (by simp)
    obtain ⟨ys, hys, hps⟩ := collect_forall₂ (l := xs) (fun z hz => h z (by simp [hz]))
    refine ⟨y :: ys, ?_, .cons hp hps⟩
    unfold collect
    rw [hy, hys]

theorem forall₂_flatMap {α β γ : Type} {f : α → List γ} {g : β → List γ} : ∀ {l : List α} {ys : List β},
    List.Forall₂ (fun x y => g y = f x) l ys → l.flatMap f = ys.flatMap g
  | [], [], .nil => rfl
  | x :: xs, y :: ys, .cons h hs => by rw [List.flatMap_cons, List.flatMap_cons, forall₂_flatMap hs, h]

theorem exists_of_mem_forall₂ {α β : Type} {P : α → β → Prop} {y : β} :
    ∀ {l : List α} {ys : List β}, List.Forall₂ P l ys →
    y ∈ ys → ∃ x ∈ l, P x y
  | [], [], .nil, hy => by cases hy
  | x :: xs, z :: zs, .cons h hs, hy => by
    rcases List.mem_cons.1 hy with rfl | hy
    · exact ⟨x, by simp, h⟩
    · obtain ⟨w, hw, hp⟩ := exists_of_mem_forall₂ hs hy
      exact ⟨w, by simp [hw], hp⟩

theorem collect_eq_ok {α β : Type} {f : α → Result β} : ∀ {l : List α} {ys : List β}, collect f l = .ok ys →
    List.Forall₂ (fun x y => f x = .ok y) l ys
  | [], ys, h => by
    obtain rfl := Except.ok.inj h
    exact .nil
  | x :: xs, ys, h => by
    unfold collect at h
    cases hx : f x with
    | error e => rw [hx] at h; cases h
    | ok y =>
      rw [hx] at h
      simp only at h
      cases hxs : collect f xs with
      | error e => rw [hxs] at h; cases h
      | ok zs =>
        rw [hxs] at h
        obtain rfl := Except.ok.inj h
        exact .cons hx (collect_eq_ok hxs)

theorem collect_error {α β : Type} {f : α → Result β} {l : List α} {x : α} {e : FastKError} (hx : x ∈ l)
    (hf : f x = .error e) :
    ∃ e', collect f l = .error e' := by
  cases hc : collect f l with
  | error e' => exact ⟨e', rfl⟩
  | ok ys =>
    obtain ⟨y, -, hy⟩ := exists_of_mem_forall₂ (collect_eq_ok hc).flip hx
    rw [hf] at hy
    cases hy

/-- The record family of a series. -/
inductive RecordType where
  | kline
  | scalar
  | trade
  | bbo
  | bookDelta
  deriving DecidableEq, Repr

def RecordType.debug : RecordType → Text
  | .kline => "Kline"
  | .scalar => "Scalar"
  | .trade => "Trade"
  | .bbo => "Bbo"
  | .bookDelta => "BookDelta"

/-- The unit that chunk keys are derived from. -/
inductive PartitionUnit where
  | month
  | day
  | hour
  | rows
  | bytes
  deriving DecidableEq, Repr

namespace PartitionUnit

def asStr : PartitionUnit → Text
  | .month => "month"
  | .day => "day"
  | .hour => "hour"
  | .rows => "rows"
  | .bytes => "bytes"

def fromStr (value : Text) : Result PartitionUnit :=
  if value = asStr .month then .ok .month
  else if value = asStr .day then .ok .day
  else if value = asStr .hour then .ok .hour
  else if value = asStr .rows then .ok .rows
  else if value = asStr .bytes then .ok .bytes
  else .error (.invalidData (words ["unsupported partition unit: ", value]))

def isTimeBased : PartitionUnit → Bool
  | .month | .day | .hour => true
  | .rows | .bytes => false

theorem fromStr_asStr (u : PartitionUnit) : fromStr u.asStr = .ok u := by cases u <;> decide

end PartitionUnit

/-- The lifecycle state of a chunk. -/
inductive ChunkState where
  | active
  | sealed
  | merging
  | replaced
  deriving DecidableEq, Repr

def ChunkState.debug : ChunkState → Text
  | .active => "Active"
  | .sealed => "Sealed"
  | .merging => "Merging"
  | .replaced => "Replaced"

def ChunkState.isReadable : ChunkState → Bool
  | .active | .sealed | .merging => true
  | .replaced => false

structure SidecarMeta where
  kind : Text
  relativePath : Text
  generation : Nat
  checksum : Nat
  blockSize : Nat
  recordCount : Nat
  deriving DecidableEq, Repr

/-- The manifest entry of a chunk. -/
structure ChunkMeta where
  chunkId : Nat
  monthKey : Text
  startTs : Int
  endTs : Int
  count : Nat
  state : ChunkState
  layoutVersion : Nat
  headerLen : Nat
  sparseIndexEvery : Nat
  sparseIndexOffset : Nat
  sparseIndexLen : Nat
  chunkChecksum : Nat
  generation : Nat
  relativePath : Text
  sidecars : List SidecarMeta
  deriving DecidableEq, Repr

def ChunkMeta.validate (c : ChunkMeta) : Result Unit :=
  if 0 < c.count ∧ c.endTs < c.startTs then
    .error (.invalidData (words ["chunk ", c.relativePath, " has start_ts ", showInt c.startTs, " after end_ts ",
      showInt c.endTs]))
  else if Text.isBlank c.relativePath then .error (.invalidData "chunk relative_path must not be empty")
  else if c.sparseIndexEvery = 0 then
    .error (.invalidData (words ["chunk ", c.relativePath, " has sparse_index_every=0"]))
  else .ok ()

/-- The manifest of a series. -/
structure SeriesMeta where
  symbol : Text
  category : Text
  name : Text
  timeframeMs : Int
  recordType : RecordType
  recordSize : Nat
  schemaId : Nat
  priceScale : Int
  volumeScale : Int
  chunkUnit : Text
  seriesId : Nat
  manifestSeq : Nat
  createdAt : Int
  updatedAt : Int
  flags : Nat
  activeChunkId : Option Nat
  chunks : List ChunkMeta
  deriving DecidableEq, Repr

namespace SeriesMeta

/-- The loop over the chunks, with the end of the one before. -/
def validateChunks (symbol name : Text) : Option Int → List ChunkMeta → Result Unit
  | _, [] => .ok ()
  | prevEnd, chunk :: rest =>
    match chunk.validate with
    | .error e => .error e
    | .ok () =>
      if prevEnd.any (fun endTs => decide (chunk.startTs ≤ endTs)) then
        .error (.invalidData (words ["series ", symbol, ":", name, " has overlapping or unsorted chunks around ",
          chunk.relativePath]))
      else validateChunks symbol name (some chunk.endTs) rest

def validate (m : SeriesMeta) : Result Unit :=
  if Text.isBlank m.symbol || Text.isBlank m.category || Text.isBlank m.name then
    .error (.invalidData "series identity fields must not be empty")
  else if m.recordSize = 0 then .error (.invalidData "record_size must be greater than zero")
  else
    match PartitionUnit.fromStr m.chunkUnit with
    | .error e => .error e
    | .ok unit =>
      if !unit.isTimeBased then
        .error (.invalidData (words ["partition unit is declared but not implemented yet: ", m.chunkUnit]))
      else validateChunks m.symbol m.name none m.chunks

def findChunkForTs (m : SeriesMeta) (ts : Int) : Option Nat :=
  if m.chunks.isEmpty then none
  else
    let left := partitionPoint (fun c => decide (c.startTs ≤ ts)) m.chunks
    if left = 0 then none
    else
      match m.chunks[left - 1]? with
      | some c => if c.startTs ≤ ts ∧ ts ≤ c.endTs then some (left - 1) else none
      | none => none

def firstChunkWithEndGe (m : SeriesMeta) (ts : Int) : Nat := partitionPoint (fun c => decide (c.endTs < ts)) m.chunks

def firstChunkWithStartGt (m : SeriesMeta) (ts : Int) : Nat :=
  partitionPoint (fun c => decide (c.startTs ≤ ts)) m.chunks

/-- The half-open range of chunk indices that a query may touch. -/
def findChunksForRange (m : SeriesMeta) (startTs endTs : Int) : Nat × Nat :=
  if endTs < startTs ∨ m.chunks = [] then (0, 0)
  else
    let startIndex := m.firstChunkWithEndGe startTs
    if m.chunks.length ≤ startIndex then (0, 0)
    else
      let endExclusive := m.firstChunkWithStartGt endTs
      if endExclusive ≤ startIndex then (0, 0) else (startIndex, endExclusive)

/-- The chunks of an index range. -/
def chunksIn (m : SeriesMeta) (range : Nat × Nat) : List ChunkMeta := (m.chunks.drop range.1).take (range.2 - range.1)

/-- The chunks of a partition, in manifest order.  The source returns their indices; they are only ever used to look
the chunks up again. -/
def chunksForPartition (m : SeriesMeta) (partitionKey : Text) : List ChunkMeta :=
  m.chunks.filter (fun c => c.monthKey = partitionKey)

end SeriesMeta

/-! ## What validation gives -/

abbrev SpanChain (l : List ChunkMeta) : Prop := Chain ChunkMeta.startTs ChunkMeta.endTs l
abbrev SpansApart (l : List ChunkMeta) : Prop := Apart ChunkMeta.startTs ChunkMeta.endTs l
abbrev SpansProper (l : List ChunkMeta) : Prop := Proper ChunkMeta.startTs ChunkMeta.endTs l
abbrev SpansMeet (a b : ChunkMeta) : Prop := Meets ChunkMeta.startTs ChunkMeta.endTs a b

theorem ChunkMeta.validate_eq_ok {c : ChunkMeta} : c.validate = .ok () ↔
    (0 < c.count → c.startTs ≤ c.endTs) ∧ Text.isBlank c.relativePath = false ∧ c.sparseIndexEvery ≠ 0 := by
  unfold ChunkMeta.validate
  by_cases h1 : 0 < c.count ∧ c.endTs < c.startTs
  · rw [if_pos h1]
    simp only [reduceCtorEq, false_iff]
    intro h
    have := h.1 h1.1
    omega
  · rw [if_neg h1]
    have h1' : 0 < c.count → c.startTs ≤ c.endTs := by omega
    cases h2 : Text.isBlank c.relativePath
    · by_cases h3 : c.sparseIndexEvery = 0
      · simp [h3]
      · simpa [h3] using h1'
    · simp

namespace SeriesMeta

/-- The chunks pass their checks and each begins after the one before ends. -/
def ChunksOrdered : Option Int → List ChunkMeta → Prop
  | _, [] => True
  | prevEnd, c :: cs => c.validate = .ok () ∧ (∀ e, prevEnd = some e → e < c.startTs) ∧ ChunksOrdered (some c.endTs) cs

theorem validateChunks_eq_ok (symbol name : Text) : ∀ (prevEnd : Option Int) (cs : List ChunkMeta),
    validateChunks symbol name prevEnd cs = .ok () ↔ ChunksOrdered prevEnd cs
  | _, [] => by simp [validateChunks, ChunksOrdered]
  | prevEnd, c :: cs => by
    unfold validateChunks ChunksOrdered
    cases hv : c.validate with
    | error e => simp
    | ok u =>
      simp only [true_and]
      cases prevEnd with
      | none => simp [validateChunks_eq_ok symbol name (some c.endTs) cs]
      | some e =>
        by_cases he : c.startTs ≤ e
        · simp [he]
        · have he' : e < c.startTs := by omega
          simp [he, he', validateChunks_eq_ok symbol name (some c.endTs) cs]

theorem chunksOrdered_of_chain : ∀ {prevEnd : Option Int} {cs : List ChunkMeta}, (∀ c ∈ cs, c.validate = .ok ()) →
    SpanChain cs → (∀ e, prevEnd = some e → ∀ c ∈ cs, e < c.startTs) → ChunksOrdered prevEnd cs
  | _, [], _, _, _ => trivial
  | prevEnd, c :: cs, hv, hc, hp =>
    ⟨hv c (by simp), fun e he => hp e he c (by simp),
      chunksOrdered_of_chain (fun d hd => hv d (by simp [hd])) (List.Pairwise.of_cons hc)
        (fun e he d hd => by
          obtain rfl := Option.some.inj he
          exact List.rel_of_pairwise_cons hc hd)⟩

theorem chain_of_chunksOrdered : ∀ {prevEnd : Option Int} {cs : List ChunkMeta}, SpansProper cs →
    ChunksOrdered prevEnd cs →
    SpanChain cs ∧ ∀ e, prevEnd = some e → ∀ c ∈ cs, e < c.startTs
  | _, [], _, _ => ⟨List.Pairwise.nil, by simp⟩
  | prevEnd, c :: cs, hp, ⟨_, h2, h3⟩ => by
    obtain ⟨hchain, hafter⟩ := chain_of_chunksOrdered (fun d hd => hp d (by simp [hd])) h3
    have hcs := hafter c.endTs rfl
    refine ⟨List.pairwise_cons.2 ⟨hcs, hchain⟩, fun e he d hd => ?_⟩
    have h2 := h2 e he
    rcases List.mem_cons.1 hd with rfl | hd
    · exact h2
    · have h4 := hcs d hd
      have h5 := hp c (by simp)
      omega

/-- The checks of a manifest that do not look at the chunks. -/
def HeadValid (m : SeriesMeta) : Prop :=
  Text.isBlank m.symbol = false ∧ Text.isBlank m.category = false ∧ Text.isBlank m.name = false ∧ m.recordSize ≠ 0 ∧
    ∃ u, PartitionUnit.fromStr m.chunkUnit = .ok u ∧ u.isTimeBased = true

theorem validate_eq_ok {m : SeriesMeta} : m.validate = .ok () ↔ m.HeadValid ∧ ChunksOrdered none m.chunks := by
  unfold validate HeadValid
  rw [← validateChunks_eq_ok m.symbol m.name]
  by_cases h1 : (Text.isBlank m.symbol || Text.isBlank m.category || Text.isBlank m.name) = true
  · rw [if_pos h1]
    simp only [Bool.or_eq_true] at h1
    simp only [reduceCtorEq, false_iff]
    rintro ⟨⟨ha, hb, hc, -⟩, -⟩
    rw [ha, hb, hc] at h1
    simp at h1
  · rw [if_neg h1]
    simp only [Bool.or_eq_true, not_or, Bool.not_eq_true] at h1
    obtain ⟨⟨ha, hb⟩, hc⟩ := h1
    by_cases h2 : m.recordSize = 0
    · simp [h2]
    · rw [if_neg h2]
      cases hu : PartitionUnit.fromStr m.chunkUnit with
      | error e => simp
      | ok u => cases ht : u.isTimeBased <;> simp [ha, hb, hc, h2, ht]

/-- **A valid manifest without empty chunks is a chain of time spans.** -/
theorem chain_of_validate {m : SeriesMeta} (hv : m.validate = .ok ()) (hp : ∀ c ∈ m.chunks, 0 < c.count) :
    SpanChain m.chunks ∧ SpansProper m.chunks := by
  have ho := (validate_eq_ok.1 hv).2
  have hprop : SpansProper m.chunks := by
    have key : ∀ (prevEnd : Option Int) (cs : List ChunkMeta), ChunksOrdered prevEnd cs → (∀ c ∈ cs, 0 < c.count) →
        SpansProper cs := by
      intro prevEnd cs
      induction cs generalizing prevEnd with
      | nil => intro _ _ a ha; cases ha
      | cons c cs ih =>
        rintro ⟨h1, -, h3⟩ hc d hd
        rcases List.mem_cons.1 hd with rfl | hd
        · exact (ChunkMeta.validate_eq_ok.1 h1).1 (hc d (by simp))
        · exact ih _ h3 (fun d hd => hc d (by simp [hd])) d hd
    exact key none m.chunks ho hp
  exact ⟨(chain_of_chunksOrdered hprop ho).1, hprop⟩

theorem validate_of_chain {m : SeriesMeta} (hh : m.HeadValid) (hv : ∀ c ∈ m.chunks, c.validate = .ok ())
    (hc : SpanChain m.chunks) : m.validate = .ok () :=
  validate_eq_ok.2 ⟨hh, chunksOrdered_of_chain hv hc (by simp)⟩

theorem chunk_validate_of_validate {m : SeriesMeta} (hv : m.validate = .ok ()) :
    ∀ c ∈ m.chunks, c.validate = .ok () := by
  have key : ∀ (prevEnd : Option Int) (cs : List ChunkMeta), ChunksOrdered prevEnd cs →
    ∀ c ∈ cs, c.validate = .ok () := by
    intro prevEnd cs
    induction cs generalizing prevEnd with
    | nil => intro _ a ha; cases ha
    | cons c cs ih =>
      rintro ⟨h1, -, h3⟩ d hd
      rcases List.mem_cons.1 hd with rfl | hd
      · exact h1
      · exact ih _ h3 d hd
  exact key none m.chunks (validate_eq_ok.1 hv).2

/-! ## The lookups -/

variable {m : SeriesMeta}

theorem partitioned_endTs (hc : SpanChain m.chunks) (hp : SpansProper m.chunks) (ts : Int) :
    Partitioned (fun c => decide (c.endTs < ts)) m.chunks :=
  List.Pairwise.imp_of_mem (fun {a b} ha hb hab h => by
    have := hp b hb
    simp only [decide_eq_true_eq] at h ⊢
    omega) hc

theorem partitioned_startTs (hc : SpanChain m.chunks) (hp : SpansProper m.chunks) (ts : Int) :
    Partitioned (fun c => decide (c.startTs ≤ ts)) m.chunks :=
  List.Pairwise.imp_of_mem (fun {a b} ha hb hab h => by
    have := hp a ha
    simp only [decide_eq_true_eq] at h ⊢
    omega) hc

theorem flatMap_eq_nil_of_forall {β : Type} {f : ChunkMeta → List β} {l : List ChunkMeta} (h : ∀ c ∈ l, f c = []) :
    l.flatMap f = [] := by
  rw [List.flatMap_eq_nil_iff]
  exact h

/-- **Nothing outside the looked-up range contributes to a range query.** -/
theorem flatMap_findChunksForRange {β : Type} (hc : SpanChain m.chunks) (hp : SpansProper m.chunks) {s e : Int}
    (hse : s ≤ e) (f : ChunkMeta → List β) (hf : ∀ c ∈ m.chunks, c.endTs < s ∨ e < c.startTs → f c = []) :
    (m.chunksIn (m.findChunksForRange s e)).flatMap f = m.chunks.flatMap f := by
  have hA := partitioned_endTs hc hp s
  have hB := partitioned_startTs hc hp e
  have ha : m.firstChunkWithEndGe s = m.chunks.countP (fun c => decide (c.endTs < s)) := partitionPoint_eq hA
  have hb : m.firstChunkWithStartGt e = m.chunks.countP (fun c => decide (c.startTs ≤ e)) := partitionPoint_eq hB
  have hbefore : (m.chunks.take (m.firstChunkWithEndGe s)).flatMap f = [] := by
    rw [ha, take_countP hA]
    refine flatMap_eq_nil_of_forall (fun c hcm => ?_)
    obtain ⟨hcm, hlt⟩ := List.mem_filter.1 hcm
    exact hf c hcm (.inl (by simpa using hlt))
  have hafter : (m.chunks.drop (m.firstChunkWithStartGt e)).flatMap f = [] := by
    rw [hb, drop_countP hB]
    refine flatMap_eq_nil_of_forall (fun c hcm => ?_)
    obtain ⟨hcm, hlt⟩ := List.mem_filter.1 hcm
    exact hf c hcm (.inr (by simpa using hlt))
  unfold findChunksForRange chunksIn
  by_cases h0 : e < s ∨ m.chunks = []
  · rw [if_pos h0]
    rcases h0 with h0 | h0
    · omega
    · rw [h0]; rfl
  · rw [if_neg h0]
    simp only
    generalize m.firstChunkWithEndGe s = a at *
    generalize m.firstChunkWithStartGt e = b at *
    have hsplit : m.chunks.flatMap f = (m.chunks.drop a).flatMap f := by
      conv => lhs; rw [← List.take_append_drop a m.chunks]
      rw [List.flatMap_append, hbefore, List.nil_append]
    by_cases h1 : m.chunks.length ≤ a
    · rw [if_pos h1, hsplit, List.drop_eq_nil_of_le h1]; rfl
    · rw [if_neg h1]
      by_cases h2 : b ≤ a
      · rw [if_pos h2, hsplit]
        have hd : m.chunks.drop a = (m.chunks.drop b).drop (a - b) := by
          rw [List.drop_drop]; congr 1; omega
        rw [hd]
        refine (flatMap_eq_nil_of_forall (fun c hcm => ?_)).symm
        exact List.flatMap_eq_nil_iff.1 hafter c (List.mem_of_mem_drop hcm)
      · rw [if_neg h2, hsplit]
        simp only
        conv => rhs; rw [← List.take_append_drop (b - a) (m.chunks.drop a)]
        rw [List.flatMap_append, List.drop_drop, show a + (b - a) = b by omega, hafter, List.append_nil]

theorem chunksIn_subset {range : Nat × Nat} {c : ChunkMeta} (h : c ∈ m.chunksIn range) : c ∈ m.chunks :=
  List.mem_of_mem_drop (List.mem_of_mem_take h)

/-- **The lookup of a timestamp finds the chunk whose span holds it, if there is one.** -/
theorem findChunkForTs_spec (hc : SpanChain m.chunks) (hp : SpansProper m.chunks) (ts : Int) :
    (∃ i c, m.findChunkForTs ts = some i ∧ m.chunks[i]? = some c ∧ c.startTs ≤ ts ∧ ts ≤ c.endTs) ∨
      (m.findChunkForTs ts = none ∧ ∀ c ∈ m.chunks, ¬ (c.startTs ≤ ts ∧ ts ≤ c.endTs)) := by
  have hB := partitioned_startTs hc hp ts
  unfold findChunkForTs
  rw [partitionPoint_eq hB]
  by_cases he : m.chunks = []
  · right; rw [he]; simp
  · have hne : m.chunks.isEmpty = false := by simpa [List.isEmpty_iff] using he
    simp only [hne, Bool.false_eq_true, if_false]
    generalize hk : m.chunks.countP (fun c => decide (c.startTs ≤ ts)) = k
    by_cases h0 : k = 0
    · right
      rw [if_pos h0]
      refine ⟨rfl, fun c hcm hcov => ?_⟩
      rw [h0, List.countP_eq_zero] at hk
      exact hk c hcm (by simpa using hcov.1)
    · rw [if_neg h0]
      have hklen : k ≤ m.chunks.length := hk ▸ List.countP_le_length
      have hget : m.chunks[k - 1]? = some m.chunks[k - 1] := List.getElem?_eq_getElem (by omega)
      have hst : m.chunks[k - 1].startTs ≤ ts := by
        have := (lt_countP_iff hB (k - 1) _ hget).1 (by omega)
        simpa using this
      rw [hget]
      simp only
      by_cases hcov : m.chunks[k - 1].startTs ≤ ts ∧ ts ≤ m.chunks[k - 1].endTs
      · left; rw [if_pos hcov]; exact ⟨k - 1, _, rfl, hget, hcov⟩
      · right; rw [if_neg hcov]
        refine ⟨rfl, fun c hcm hc' => ?_⟩
        -- the chunk that covers `ts` sits below the partition point, so before the last one that begins by `ts`
        obtain ⟨j, hj, rfl⟩ := List.getElem_of_mem hcm
        have hjk : j < k := by
          rw [← hk]
          exact (lt_countP_iff hB j _ (List.getElem?_eq_getElem hj)).2 (by simpa using hc'.1)
        rcases Nat.lt_or_ge j (k - 1) with hlt | hge
        · have := List.pairwise_iff_getElem.1 hc j (k - 1) hj (by omega) hlt
          omega
        · have hjeq : j = k - 1 := by omega
          subst hjeq
          exact hcov hc'

end SeriesMeta

end FastK
