import FastK.Repair
/-!
# What one write adds to a series

The chunk that a write lays out for a partition (`Laid`): a file under a new name, and the entry that describes it.  The
manifest with the entry added, or put in place of the partition's entries, fits the directory once the file is there
(`Fits.update`).
-/
namespace FastK

open Spans

/-! ## Options -/

/-- The options of the next chunk of a partition. -/
structure PlanFor (m : SeriesMeta) (key name : Text) (o : WriteChunkOptions) : Prop where
  chunkId : o.chunkId = nextChunkId m
  generation : o.generation = nextGeneration (m.chunksForPartition key)
  path : o.relativePath = chunkRelativePath name
  every : o.sparseIndexEvery = defaultSparseIndexEvery
  state : o.state = .active ∨ o.state = .sealed
  named : NamedFor key o.generation name

theorem monthChunkFileName_eq {ts : Int} {key : Text} (h : monthKey ts = .ok key) :
    monthChunkFileName ts = .ok (partitionChunkFileName key) := by
  unfold monthChunkFileName
  rw [h]

theorem appendOptions_plan {overlap : Text} {m : SeriesMeta} {key : Text} {firstName : Result Text} {first : Int}
    {name : Text} {o : WriteChunkOptions} (hname : firstName = .ok (partitionChunkFileName key))
    (h : appendOptions overlap m key firstName first = .ok (name, o)) :
    PlanFor m key name o ∧ (∀ last, (m.chunksForPartition key).getLast? = some last → last.endTs < first) ∧
      (m.chunksForPartition key ≠ [] → o.state = .active) := by
  unfold appendOptions at h
  rw [hname] at h
  simp only at h
  split at h
  · rename_i hlast
    obtain ⟨rfl, rfl⟩ := Prod.mk.inj (Except.ok.inj h)
    have hnil : m.chunksForPartition key = [] := List.getLast?_eq_none_iff.1 hlast
    refine ⟨⟨rfl, rfl, rfl, rfl, .inr rfl, .inl ⟨rfl, ?_⟩⟩, fun last hl => ?_, fun hne => absurd hnil hne⟩
    · rw [hnil]
      rfl
    · rw [hlast] at hl
      cases hl
  · rename_i last hlast
    split at h
    · cases h
    · rename_i hlt
      obtain ⟨rfl, rfl⟩ := Prod.mk.inj (Except.ok.inj h)
      refine ⟨⟨rfl, rfl, rfl, rfl, .inl rfl, .inr (.inl rfl)⟩, fun l hl => ?_, fun _ => rfl⟩
      rw [hlast] at hl
      obtain rfl := Option.some.inj hl
      omega

theorem replaceOptions_plan {m : SeriesMeta} {key : Text} {state : ChunkState}
    (hs : state = .active ∨ state = .sealed) :
    PlanFor m key (replaceOptions m (m.chunksForPartition key) key state).1
      (replaceOptions m (m.chunksForPartition key) key state).2 :=
  ⟨rfl, rfl, rfl, rfl, hs, .inr (.inr rfl)⟩

theorem mergeOutputState_ready (sources : List ChunkMeta) : mergeOutputState sources = .active ∨
    mergeOutputState sources = .sealed := by
  unfold mergeOutputState
  split
  · exact .inl rfl
  · exact .inr rfl

/-- What `scalarOptions` gives for the month of its rows. -/
def scalarPlan (m : SeriesMeta) (key : Text) : Text × WriteChunkOptions :=
  if (m.chunksForPartition key).isEmpty then
    (partitionChunkFileName key,
      ⟨nextChunkId m, nextGeneration [], .sealed, chunkRelativePath (partitionChunkFileName key),
        defaultSparseIndexEvery⟩)
  else replaceOptions m (m.chunksForPartition key) key .sealed

theorem scalarOptions_eq {ts : Int} {key : Text} (h : monthKey ts = .ok key) (m : SeriesMeta) :
    scalarOptions m key (monthChunkFileName ts) = .ok (scalarPlan m key) := by
  unfold scalarOptions scalarPlan
  rw [monthChunkFileName_eq h]
  split <;> rfl

theorem scalarPlan_plan (m : SeriesMeta) (key : Text) : PlanFor m key (scalarPlan m key).1 (scalarPlan m key).2 := by
  unfold scalarPlan
  split
  · rename_i h
    have hnil : m.chunksForPartition key = [] := List.isEmpty_iff.1 h
    exact ⟨rfl, by rw [hnil], rfl, rfl, .inr rfl, .inl ⟨rfl, rfl⟩⟩
  · exact replaceOptions_plan (.inr rfl)

/-! ## Chunks laid out -/

/-- The file carries the id and the timeframe of the series, and the entry is what a scan makes of the file, up to its
state. -/
structure Stamped (m : SeriesMeta) (name : Text) (f : ChunkFile) (c : ChunkMeta) : Prop where
  seriesId : f.header.seriesId = m.seriesId
  timeframeMs : f.header.timeframeMs = m.timeframeMs
  scanned : c = { scannedChunk name f c.monthKey c.sidecars with state := c.state }

/-- A chunk laid out for a partition: its file, under a new name, and its entry. -/
structure Laid (t : RecordType) (u : PartitionUnit) (sd : SeriesDir) (m : SeriesMeta) (key name : Text)
    (f : ChunkFile) (rows : List t.Row) (c : ChunkMeta) : Prop where
  fresh : sd.hasFile name = false
  file : FileOk t u key name f rows
  entry : EntryOf c name f
  monthKey : c.monthKey = key
  valid : c.validate = .ok ()
  settled : c.state = .active ∨ c.state = .sealed
  chunkId : c.chunkId = nextChunkId m
  generation : c.generation = nextGeneration (m.chunksForPartition key)
  stamped : Stamped m name f c

/-- A writer's entry is that of a scan, up to the state. -/
theorem chunkMetaOf_scanned {f : ChunkFile} {o : WriteChunkOptions} {key name : Text}
    (hid : f.header.chunkId = o.chunkId) (hpath : o.relativePath = chunkRelativePath name)
    (hgen : f.header.generation % 2 ^ 32 = o.generation) (hevery : f.header.sparseIndexEvery % 2 ^ 32 = o.every) :
    chunkMetaOf f key o = { scannedChunk name f key [] with state := o.state } := by
  unfold chunkMetaOf scannedChunk
  rw [hid, hpath, hgen, hevery]

/-- The common end of the writers makes complete files. -/
theorem complete_of_assemble {R : Type} [FixedRecord R] {m : SeriesMeta} {key : Text} {o : WriteChunkOptions}
    {rows : List R} {overflow : Text} {f : ChunkFile} {c : ChunkMeta} (hgen : o.generation < 2 ^ 32)
    (hevery : o.sparseIndexEvery = defaultSparseIndexEvery) (ho : Ordered rows) (hne : rows ≠ [])
    (hts : TsInRange (firstTs rows)) (h : assembleChunk overflow m rows key o = .ok (f, c)) :
    CompleteChunk f ∧ 0 < c.count := by
  obtain ⟨heq, hlen⟩ := assembleChunk_eq_ok h
  obtain ⟨rfl, rfl⟩ := Prod.mk.inj heq
  have hholds := holds_chunkFileOf m o ho hne (show byteSizeV2 + rows.length * FixedRecord.byteSize R < u64Bound by
    unfold u64Bound
    omega)
  have hpos : 0 < rows.length := List.length_pos_iff.2 hne
  refine ⟨⟨rfl, rfl, hholds.header_ok, hpos, hgen, ?_, hts⟩, hpos⟩
  show o.every < 2 ^ 32
  unfold WriteChunkOptions.every
  rw [hevery]
  decide

theorem PlanFor.generation_lt {m : SeriesMeta} {key name : Text} {o : WriteChunkOptions}
    (hplan : PlanFor m key name o) : o.generation < 2 ^ 32 := by
  have := nextGeneration_le (m.chunksForPartition key)
  rw [hplan.generation]
  unfold u32Max at this
  omega

/-- What the common end of the writers lays out. -/
theorem laid_of_assemble {t : RecordType} {u : PartitionUnit} {sd : SeriesDir} {m : SeriesMeta} {key name : Text}
    {o : WriteChunkOptions} {rows : List t.Row} {overflow : Text} {f : ChunkFile} {c : ChunkMeta}
    (hplan : PlanFor m key name o) (hfresh : sd.hasFile name = false) (ho : Ordered rows) (hne : rows ≠ [])
    (hkey : ∀ r ∈ rows, partitionKey (FixedRecord.ts r) u = .ok key)
    (h : assembleChunk overflow m rows key o = .ok (f, c)) : Laid t u sd m key name f rows c := by
  obtain ⟨r, hr, hfirst⟩ := exists_firstTs hne
  have hts : TsInRange (firstTs rows) := hfirst ▸ (partitionKey_ok (hkey r hr)).1
  have hcomplete := (complete_of_assemble hplan.generation_lt hplan.every ho hne hts h).1
  obtain ⟨heq, hlen⟩ := assembleChunk_eq_ok h
  obtain ⟨rfl, rfl⟩ := Prod.mk.inj heq
  have hholds := holds_chunkFileOf m o ho hne (show byteSizeV2 + rows.length * FixedRecord.byteSize t.Row < u64Bound by
    unfold u64Bound
    omega)
  have hevery : o.every = 128 := by
    unfold WriteChunkOptions.every
    rw [hplan.every]
    rfl
  have hle := firstTs_le_lastTs ho hne
  refine ⟨hfresh, ⟨hholds, hcomplete, hkey, hplan.named⟩,
    ⟨hplan.path, rfl, rfl, rfl, rfl, rfl, by intro s hs; cases hs⟩, rfl, ?_, ?_,
    hplan.chunkId, hplan.generation, ⟨rfl, rfl, ?_⟩⟩
  · refine ChunkMeta.validate_eq_ok.2 ⟨fun _ => hle, ?_, ?_⟩
    · show Text.isBlank o.relativePath = false
      rw [hplan.path]
      exact chunkRelativePath_not_blank name
    · show o.every ≠ 0
      rw [hevery]
      decide
  · exact hplan.state
  · refine chunkMetaOf_scanned rfl hplan.path (Nat.mod_eq_of_lt hplan.generation_lt) (Nat.mod_eq_of_lt ?_)
    show o.every < 2 ^ 32
    rw [hevery]
    decide

/-- An entry with its sidecars is laid out as it was without. -/
theorem Laid.withSidecars {t : RecordType} {u : PartitionUnit} {sd : SeriesDir} {m : SeriesMeta} {key name : Text}
    {f : ChunkFile} {rows : List t.Row} {c : ChunkMeta} (w : Laid t u sd m key name f rows c)
    {sidecars : List SidecarMeta} (hs : ∀ s ∈ sidecars, SidecarPath s) :
    Laid t u sd m key name f rows { c with sidecars := sidecars } where
  fresh := w.fresh
  file := w.file
  entry := ⟨w.entry.path, w.entry.startTs, w.entry.endTs, w.entry.count, w.entry.generation, w.entry.chunkId, hs⟩
  monthKey := w.monthKey
  valid := ChunkMeta.validate_eq_ok.2 (ChunkMeta.validate_eq_ok.1 w.valid)
  settled := w.settled
  chunkId := w.chunkId
  generation := w.generation
  stamped := by
    refine ⟨w.stamped.seriesId, w.stamped.timeframeMs, ?_⟩
    exact congrArg (fun e : ChunkMeta => { e with sidecars := sidecars }) w.stamped.scanned

/-- The rows between two of one month are of that month. -/
theorem keyed_of_singleMonth {R : Type} [FixedRecord R] {rows : List R} {key : Text} (ho : Ordered rows)
    (h : singleMonth rows = .ok key) :
    ∀ r ∈ rows, partitionKey (FixedRecord.ts r) .month = .ok key := by
  unfold singleMonth at h
  cases hf : monthKey (firstTs rows) with
  | error e => rw [hf] at h; cases h
  | ok k =>
    cases hl : monthKey (lastTs rows) with
    | error e => rw [hf, hl] at h; cases h
    | ok l =>
      rw [hf, hl] at h
      simp only at h
      split at h
      · cases h
      · rename_i hkl
        obtain rfl := Except.ok.inj h
        intro r hr
        have hl' : monthKey (lastTs rows) = .ok k := by rw [hl, not_not.1 hkl]
        exact partitionKey_convex (firstTs_le ho hr) (le_lastTs ho hr) hf hl'

theorem singleMonth_first {R : Type} [FixedRecord R] {rows : List R} {key : Text} (h : singleMonth rows = .ok key) :
    monthKey (firstTs rows) = .ok key := by
  unfold singleMonth at h
  cases hf : monthKey (firstTs rows) with
  | error e => rw [hf] at h; cases h
  | ok k =>
    cases hl : monthKey (lastTs rows) with
    | error e => rw [hf, hl] at h; cases h
    | ok l =>
      rw [hf, hl] at h
      simp only at h
      split at h
      · cases h
      · exact h

theorem singleMonth_ok {R : Type} [FixedRecord R] {rows : List R} {key : Text} (hne : rows ≠ [])
    (hkey : ∀ r ∈ rows, partitionKey (FixedRecord.ts r) .month = .ok key) : singleMonth rows = .ok key := by
  obtain ⟨a, ha, hfirst⟩ := exists_firstTs hne
  obtain ⟨b, hb, hlast⟩ := exists_lastTs hne
  have h1 : monthKey (firstTs rows) = .ok key := by rw [← hfirst]; exact hkey a ha
  have h2 : monthKey (lastTs rows) = .ok key := by rw [← hlast]; exact hkey b hb
  unfold singleMonth
  rw [h1, h2]
  simp

theorem klineChunk_laid {sd : SeriesDir} {m : SeriesMeta} {key name : Text} {o : WriteChunkOptions}
    {rows : List KlineRecord} {f : ChunkFile} {c : ChunkMeta} (hplan : PlanFor m key name o)
    (hfresh : sd.hasFile name = false) (hkey : monthKey (firstTs rows) = .ok key)
    (h : klineChunk m rows o = .ok (f, c)) : Laid .kline .month sd m key name f rows c := by
  obtain ⟨k, hs, ha⟩ := klineChunk_assembled h
  obtain rfl : k = key := Except.ok.inj ((singleMonth_first hs).symm.trans hkey)
  obtain ⟨_, hassemble⟩ := ha.assembled
  exact laid_of_assemble (t := .kline) hplan hfresh ha.ordered ha.ne_nil (keyed_of_singleMonth ha.ordered hs) hassemble

theorem scalarChunk_laid {sd : SeriesDir} {m : SeriesMeta} {key name : Text} {o : WriteChunkOptions}
    {rows : List ScalarRecord} {f : ChunkFile} {c : ChunkMeta} (hplan : PlanFor m key name o)
    (hfresh : sd.hasFile name = false) (hkey : monthKey (firstTs rows) = .ok key)
    (h : scalarChunk m rows o = .ok (f, c)) : Laid .scalar .month sd m key name f rows c := by
  obtain ⟨k, hs, ha⟩ := scalarChunk_assembled h
  obtain rfl : k = key := Except.ok.inj ((singleMonth_first hs).symm.trans hkey)
  obtain ⟨_, hassemble⟩ := ha.assembled
  exact laid_of_assemble (t := .scalar) hplan hfresh ha.ordered ha.ne_nil (keyed_of_singleMonth ha.ordered hs) hassemble

theorem singlePartition_ok {R : Type} [FixedRecord R] {u : PartitionUnit} {key : Text} : ∀ {rows : List R},
    singlePartition u key rows = .ok () → ∀ r ∈ rows, partitionKey (FixedRecord.ts r) u = .ok key
  | [], _ => by simp
  | r :: rs, h => by
    unfold singlePartition at h
    cases hk : partitionKey (FixedRecord.ts r) u with
    | error e => rw [hk] at h; cases h
    | ok k =>
      rw [hk] at h
      simp only at h
      split at h
      · cases h
      · rename_i hne
        obtain rfl := not_not.1 hne
        intro x hx
        rcases List.mem_cons.1 hx with rfl | hx
        · exact hk
        · exact singlePartition_ok h x hx

theorem fixedChunk_laid {t : RecordType} {sd : SeriesDir} {m : SeriesMeta} {key name : Text} {u : PartitionUnit}
    {o : WriteChunkOptions} {rows : List t.Row} {f : ChunkFile} {c : ChunkMeta} (hplan : PlanFor m key name o)
    (hfresh : sd.hasFile name = false) (hkey : partitionKey (firstTs rows) u = .ok key)
    (h : fixedChunk m rows u o = .ok (f, c)) : Laid t u sd m key name f rows c := by
  obtain ⟨k, hk, hs, ha⟩ := fixedChunk_assembled h
  obtain rfl : k = key := Except.ok.inj (hk.symm.trans hkey)
  obtain ⟨_, hassemble⟩ := ha.assembled
  refine laid_of_assemble (t := t) hplan hfresh ha.ordered ha.ne_nil ?_ hassemble
  intro r hr
  cases rows with
  | nil => cases hr
  | cons a as =>
    rcases List.mem_cons.1 hr with rfl | hr
    · exact hkey
    · exact singlePartition_ok hs r hr

/-- Rows with different timestamps are no more than the milliseconds between the first and the last. -/
theorem length_le_of_strict {R : Type} [FixedRecord R] : ∀ {rows : List R}, rows ≠ [] →
    rows.Pairwise (fun a b => FixedRecord.ts a < FixedRecord.ts b) → firstTs rows + rows.length ≤ lastTs rows + 1
  | [], h, _ => absurd rfl h
  | [r], _, _ => by
    show FixedRecord.ts r + (1 : Nat) ≤ FixedRecord.ts r + 1
    omega
  | r :: r' :: rs, _, h => by
    have ih : firstTs (r' :: rs) + ((r' :: rs).length : Nat) ≤ lastTs (r' :: rs) + 1 :=
      length_le_of_strict (by simp) (List.Pairwise.of_cons h)
    have hlt : FixedRecord.ts r < FixedRecord.ts r' := List.rel_of_pairwise_cons h (by simp)
    have hlast : lastTs (r :: r' :: rs) = lastTs (r' :: rs) := by
      unfold lastTs
      rw [List.getLast?_cons_cons]
    rw [hlast, firstTs_cons]
    rw [firstTs_cons] at ih
    simp only [List.length_cons] at ih ⊢
    omega

/-- **A month holds fewer than 2^32 rows with different timestamps.** -/
theorem length_month {R : Type} [FixedRecord R] {rows : List R} {key : Text}
    (hst : FixedRecord.allowEqualTimestamps R = false) (ho : Ordered rows)
    (hkey : ∀ r ∈ rows, partitionKey (FixedRecord.ts r) .month = .ok key) : rows.length < 2 ^ 32 := by
  by_cases hne : rows = []
  · simp [hne]
  · have hlen := length_le_of_strict hne ((ordered_iff_strict hst).1 ho)
    obtain ⟨a, ha, hfirst⟩ := exists_firstTs hne
    obtain ⟨b, hb, hlast⟩ := exists_lastTs hne
    have hslot := slot_eq_of_key (hkey a ha) (hkey b hb)
    rw [hfirst, hlast] at hslot
    have hday := Calendar.lt_monthStart_add (le_of_eq (show Calendar.monthIndex (dayOfTs (lastTs rows)) =
      _ from hslot.symm))
    have hstart := Calendar.monthStart_monthIndex_le (dayOfTs (firstTs rows))
    unfold dayOfTs msPerDay at *
    omega

/-! ## The manifest with the new entry -/

theorem Laid.proper {t : RecordType} {u : PartitionUnit} {sd : SeriesDir} {m : SeriesMeta} {key name : Text}
    {f : ChunkFile} {rows : List t.Row} {c : ChunkMeta} (w : Laid t u sd m key name f rows c) :
    c.startTs ≤ c.endTs := by
  rw [w.entry.startTs, w.entry.endTs]
  exact ChunkHeader.startTs_le_endTs w.file.complete.header_ok w.file.complete.count_pos

theorem Laid.keyed {t : RecordType} {u : PartitionUnit} {sd : SeriesDir} {m : SeriesMeta} {key name : Text}
    {f : ChunkFile} {rows : List t.Row} {c : ChunkMeta} (w : Laid t u sd m key name f rows c) :
    partitionKey c.startTs u = .ok key ∧ partitionKey c.endTs u = .ok key := by
  rw [w.entry.startTs, w.entry.endTs]
  exact ⟨w.file.keyed_startTs, w.file.keyed_endTs⟩

/-- A manifest that differs in its chunks only is valid when they are. -/
theorem validate_of_sameHead {m m' : SeriesMeta} (hh : m.SameHead m') (hm : m.validate = .ok ())
    (hv : ∀ c ∈ m'.chunks, c.validate = .ok ()) (hc : SpanChain m'.chunks) : m'.validate = .ok () := by
  refine SeriesMeta.validate_of_chain ((validate_congr (m := m) ?_ ?_ ?_ ?_ ?_).2 (SeriesMeta.validate_eq_ok.1 hm).1)
    hv hc <;> rw [hh]

/-- The partitions of a series lie apart. -/
theorem Fits.not_meets {d : Dir} {sd : SeriesDir} {m : SeriesMeta} (h : Fits d sd m) {e c : ChunkMeta} {key : Text}
    (he : e ∈ m.chunks) (hne : e.monthKey ≠ key) (hs : partitionKey c.startTs m.unit = .ok key)
    (hend : partitionKey c.endTs m.unit = .ok key) :
    ¬ SpansMeet e c := by
  rintro ⟨h1, h2⟩
  obtain ⟨k1, k2⟩ := h.keyed he
  have := partitionKey_lt_of_ne hne k1 k2 hend hs h1
  exact absurd h2 (not_le.2 this)

section Valid

variable {d : Dir} {sd : SeriesDir} {m : SeriesMeta} {t : RecordType} {u : PartitionUnit} {key name : Text}
    {f : ChunkFile}
  {rows : List t.Row} {c : ChunkMeta}

/-- The chunks of the other partitions. -/
def otherChunks (m : SeriesMeta) (key : Text) : List ChunkMeta := m.chunks.filter (fun e => decide (e.monthKey ≠ key))

theorem mem_otherChunks {e : ChunkMeta} : e ∈ otherChunks m key ↔ e ∈ m.chunks ∧ e.monthKey ≠ key := by
  unfold otherChunks
  rw [List.mem_filter, decide_eq_true_iff]

/-- Entries of the manifest and a new one that meets none of them make a valid manifest. -/
theorem Fits.added_valid (h : Fits d sd m) {l : List ChunkMeta} (hl : l.Sublist m.chunks) (hv : c.validate = .ok ())
    (hp : c.startTs ≤ c.endTs) (hno : ∀ e ∈ l, ¬ SpansMeet e c) {m' : SeriesMeta} (hh : m.SameHead m')
    (hc : m'.chunks = sortByKey ChunkMeta.startTs (l ++ [c])) :
    m'.validate = .ok () := by
  obtain ⟨hchain, hprop⟩ := h.chain
  have hmem : ∀ e ∈ l ++ [c], e ∈ m.chunks ∨ e = c := by
    intro e he
    rcases List.mem_append.1 he with he | he
    · exact .inl (hl.subset he)
    · exact .inr (List.mem_singleton.1 he)
  refine validate_of_sameHead hh h.valid ?_ ?_
  · intro e he
    rw [hc, mem_sortByKey] at he
    rcases hmem e he with he | rfl
    · exact SeriesMeta.chunk_validate_of_validate h.valid e he
    · exact hv
  · rw [hc]
    refine chain_of_apart (apart_append_singleton.2 ⟨hchain.apart.sublist hl, hno⟩) (fun e he => ?_)
    rcases hmem e he with he | rfl
    · exact hprop e he
    · exact hp

/-- Where the last chunk of a partition ends before a new one, all of them do. -/
theorem Fits.partition_before (h : Fits d sd m) {first : Int}
    (hlast : ∀ last, (m.chunksForPartition key).getLast? = some last → last.endTs < first) :
    ∀ e ∈ m.chunks, e.monthKey = key → e.endTs < first := by
  intro e he hk
  obtain ⟨hchain, hprop⟩ := h.chain
  have hmem : e ∈ m.chunksForPartition key := List.mem_filter.2 ⟨he, by simpa using hk⟩
  rcases List.eq_nil_or_concat (m.chunksForPartition key) with hnil | ⟨l, b, heq⟩
  · rw [hnil] at hmem
    cases hmem
  · rw [List.concat_eq_append] at heq
    have hb := hlast b (by rw [heq]; simp)
    have hchain' : SpanChain (l ++ [b]) := heq ▸ hchain.sublist List.filter_sublist
    have hbm : b ∈ m.chunks := by
      have : b ∈ m.chunksForPartition key := by rw [heq]; simp
      exact (List.mem_filter.1 this).1
    rw [heq] at hmem
    rcases List.mem_append.1 hmem with hel | heb
    · have h1 := (List.pairwise_append.1 hchain').2.2 e hel b (by simp)
      have h2 := hprop b hbm
      omega
    · rw [List.mem_singleton.1 heb]
      exact hb

/-! ## The directory with the new file -/

theorem Tracked.mono {sd' : SeriesDir} {e : ChunkMeta} (h : Tracked sd t u e)
    (hkeep : ∀ n g, HasChunk sd n g → e.relativePath = chunkRelativePath n → HasChunk sd' n g) : Tracked sd' t u e := by
  obtain ⟨n, g, rows, hg, ho, he⟩ := h
  exact ⟨n, g, rows, hkeep n g hg he.path, ho, he⟩

/-- **A manifest with the same head fits a changed directory** whose new files are in order and whose entries have
theirs. -/
theorem Fits.update (h : Fits d sd m) {sd' : SeriesDir} {m' : SeriesMeta} (hh : m.SameHead m')
    (hv : m'.validate = .ok ()) (hfiled : WellFiled sd')
    (hfile : ∀ n g, HasChunk sd' n g → HasChunk sd n g ∨ ∃ k rows, FileOk m.recordType m.unit k n g rows)
    (htr : ∀ e ∈ m'.chunks, Tracked sd' m.recordType m.unit e) : Fits d sd' m' := by
  refine ⟨hv, h.head.sameHead hh, ⟨hfiled, fun n g hg => ?_⟩, fun e he => ?_⟩
  · rw [hh.recordType, hh.unit]
    rcases hfile n g hg with hg | hg
    · exact h.files.file n g hg
    · exact hg
  · rw [hh.recordType, hh.unit]
    exact htr e he

theorem Laid.tracked {sd' : SeriesDir} (w : Laid t u sd m key name f rows c) (hf : HasChunk sd' name f) {c' : ChunkMeta}
    (hk : c'.monthKey = key) (he : EntryOf c' name f) : Tracked sd' t u c' :=
  ⟨name, f, rows, hf, by rw [hk]; exact w.file, he⟩

end Valid

end FastK
