import FastK.Writes
/-!
# What a series directory holds

The files of a directory as the operations keep them: chunk files whose names, headers and rows agree (`FileOk`), and a
manifest whose entries each describe one of them (`SeriesOk`).  The rows of a series are those of its tracked chunks in
manifest order (`seriesRows`), and they are what a read returns (`SeriesOk.stored`).
-/
namespace FastK

open Spans

/-! ## Files -/

/-- The directory has the chunk file under the name. -/
def HasChunk (sd : SeriesDir) (name : Text) (f : ChunkFile) : Prop := (name, FileBody.chunk f) ∈ sd.files ∧
    isChunkName name = true

/-- One file a name; chunk names for chunks, sidecar names for the sidecars of chunks. -/
structure WellFiled (sd : SeriesDir) : Prop where
  nodup : (sd.files.map Prod.fst).Nodup
  chunk : ∀ p ∈ sd.files, isChunkName p.1 = true → ∃ f, p.2 = .chunk f
  sidecar : ∀ p ∈ sd.files, isSidecarName p.1 = true →
    ∃ parent, parentChunkRelativePath (chunkRelativePath p.1) = .ok parent
  dir : sd.files ≠ [] → sd.chunksDir = true

theorem wellFiled_nil {sd : SeriesDir} (h : sd.files = []) : WellFiled sd := by
  refine ⟨?_, ?_, ?_, ?_⟩ <;> simp [h]

/-- Only the files and the flag matter. -/
theorem WellFiled.congr {sd sd' : SeriesDir} (h : WellFiled sd) (hf : sd'.files = sd.files)
    (hd : sd.chunksDir = true → sd'.chunksDir = true) :
    WellFiled sd' := by
  refine ⟨?_, ?_, ?_, ?_⟩ <;> rw [hf]
  · exact h.nodup
  · exact h.chunk
  · exact h.sidecar
  · exact fun hne => hd (h.dir hne)

theorem hasChunk_congr {sd sd' : SeriesDir} (hf : sd'.files = sd.files) {name : Text} {f : ChunkFile} :
    HasChunk sd' name f ↔ HasChunk sd name f := by
  unfold HasChunk
  rw [hf]

theorem WellFiled.eq_of_mem {sd : SeriesDir} (h : WellFiled sd) {name : Text} {b b' : FileBody}
    (hb : (name, b) ∈ sd.files) (hb' : (name, b') ∈ sd.files) : b = b' :=
  congrArg Prod.snd (List.inj_on_of_nodup_map h.nodup hb hb' rfl)

theorem WellFiled.hasChunk_inj {sd : SeriesDir} (h : WellFiled sd) {name : Text} {f g : ChunkFile}
    (hf : HasChunk sd name f) (hg : HasChunk sd name g) : f = g := FileBody.chunk.inj (h.eq_of_mem hf.1 hg.1)

theorem WellFiled.lookup {sd : SeriesDir} (h : WellFiled sd) {name : Text} {f : ChunkFile} (hf : HasChunk sd name f) :
    sd.lookup (chunkRelativePath name) = some (.chunk f) := by
  unfold SeriesDir.lookup
  have hfound : ∃ p, sd.files.find? (fun p => decide (chunkRelativePath p.1 = chunkRelativePath name)) = some p :=
    Option.isSome_iff_exists.1 (List.find?_isSome.2 ⟨_, hf.1, by simp⟩)
  obtain ⟨p, hp⟩ := hfound
  have hname : p.1 = name := chunkRelativePath_inj (by simpa using List.find?_some hp)
  have hmem : (name, p.2) ∈ sd.files := by
    rw [← hname]
    exact List.mem_of_find?_eq_some hp
  rw [hp]
  exact congrArg some (h.eq_of_mem hmem hf.1)

theorem hasFile_iff {sd : SeriesDir} {name : Text} : sd.hasFile name = true ↔ ∃ b, (name, b) ∈ sd.files := by
  unfold SeriesDir.hasFile
  rw [List.any_eq_true]
  constructor
  · rintro ⟨p, hp, hn⟩
    rw [decide_eq_true_iff] at hn
    exact ⟨p.2, hn ▸ hp⟩
  · rintro ⟨b, hb⟩
    exact ⟨_, hb, by simp⟩

theorem mem_put {sd : SeriesDir} {name : Text} {body : FileBody} {p : Text × FileBody} :
    p ∈ (sd.put name body).files ↔ p = (name, body) ∨ p.1 ≠ name ∧ p ∈ sd.files := by
  show p ∈ sd.files.filter (fun p => decide (p.1 ≠ name)) ++ [(name, body)] ↔ _
  rw [List.mem_append, List.mem_filter, List.mem_singleton, decide_eq_true_iff]
  tauto

theorem WellFiled.put {sd : SeriesDir} (h : WellFiled sd) {name : Text} {body : FileBody}
    (hc : isChunkName name = true → ∃ f, body = .chunk f)
    (hs : isSidecarName name = true → ∃ parent, parentChunkRelativePath (chunkRelativePath name) = .ok parent) :
    WellFiled (sd.put name body) where
  nodup := by
    show ((sd.files.filter (fun p => decide (p.1 ≠ name)) ++ [(name, body)]).map Prod.fst).Nodup
    rw [List.map_append, List.nodup_append]
    refine ⟨h.nodup.sublist (List.Sublist.map _ List.filter_sublist), by simp, ?_⟩
    intro a ha b hb
    obtain ⟨p, hp, rfl⟩ := List.mem_map.1 ha
    have hne : p.1 ≠ name := by simpa using (List.mem_filter.1 hp).2
    simpa [List.mem_singleton.1 hb] using hne
  chunk p hp hn := by
    rcases mem_put.1 hp with rfl | ⟨-, hp⟩
    · exact hc hn
    · exact h.chunk p hp hn
  sidecar p hp hn := by
    rcases mem_put.1 hp with rfl | ⟨-, hp⟩
    · exact hs hn
    · exact h.sidecar p hp hn
  dir _ := rfl

theorem isSidecarName_of_chunk {name : Text} (h : isChunkName name = true) : isSidecarName name = false := by
  unfold isSidecarName
  rw [h]
  rfl

theorem WellFiled.put_chunk {sd : SeriesDir} (h : WellFiled sd) {name : Text} (hn : isChunkName name = true)
    (f : ChunkFile) :
    WellFiled (sd.put name (.chunk f)) :=
  h.put (fun _ => ⟨f, rfl⟩) (fun hs => by rw [isSidecarName_of_chunk hn] at hs; cases hs)

theorem hasChunk_put_chunk {sd : SeriesDir} {n : Text} (hn : isChunkName n = true) {g : ChunkFile} {name : Text}
    {f : ChunkFile} :
    HasChunk (sd.put n (.chunk g)) name f ↔ (name = n ∧ f = g) ∨ (name ≠ n ∧ HasChunk sd name f) := by
  unfold HasChunk
  rw [mem_put, Prod.mk.injEq, FileBody.chunk.injEq]
  constructor
  · rintro ⟨⟨rfl, rfl⟩ | ⟨hne, hm⟩, hc⟩
    · exact .inl ⟨rfl, rfl⟩
    · exact .inr ⟨hne, hm, hc⟩
  · rintro (⟨rfl, rfl⟩ | ⟨hne, hm, hc⟩)
    · exact ⟨.inl ⟨rfl, rfl⟩, hn⟩
    · exact ⟨.inr ⟨hne, hm⟩, hc⟩

theorem hasChunk_put_other {sd : SeriesDir} {n : Text} (hn : isChunkName n = false) {body : FileBody} {name : Text}
    {f : ChunkFile} :
    HasChunk (sd.put n body) name f ↔ HasChunk sd name f := by
  unfold HasChunk
  rw [mem_put]
  constructor
  · rintro ⟨heq | ⟨-, hm⟩, hc⟩
    · rw [(Prod.mk.inj heq).1, hn] at hc
      cases hc
    · exact ⟨hm, hc⟩
  · rintro ⟨hm, hc⟩
    refine ⟨.inr ⟨fun h => ?_, hm⟩, hc⟩
    rw [show name = n from h, hn] at hc
    cases hc

theorem WellFiled.remove {sd : SeriesDir} (h : WellFiled sd) (rel : Text) : WellFiled (sd.remove rel) where
  nodup := h.nodup.sublist (List.Sublist.map _ List.filter_sublist)
  chunk p hp := h.chunk p (List.mem_filter.1 hp).1
  sidecar p hp := h.sidecar p (List.mem_filter.1 hp).1
  dir hne := h.dir (fun hnil => hne (by show sd.files.filter _ = []; rw [hnil]; rfl))

theorem hasChunk_remove {sd : SeriesDir} {rel : Text} {name : Text} {f : ChunkFile} :
    HasChunk (sd.remove rel) name f ↔ HasChunk sd name f ∧ chunkRelativePath name ≠ rel := by
  unfold HasChunk
  show (_ ∈ sd.files.filter (fun p => decide (chunkRelativePath p.1 ≠ rel)) ∧ _) ↔ _
  rw [List.mem_filter, decide_eq_true_iff]
  tauto

/-! ## Sidecar names -/

theorem parent_of_sidecar {name ext : Text} (hn : isChunkName name = true) (he : '.' ∉ ext) :
    parentChunkRelativePath (chunkRelativePath (sidecarRelativePath name ext)) = .ok (chunkRelativePath name) := by
  have hsplit : Text.rsplitOnce '.' (chunkRelativePath (sidecarRelativePath name ext)) = some
    (chunkRelativePath name, ext) := by
    unfold chunkRelativePath sidecarRelativePath
    rw [← List.append_assoc]
    exact Text.rsplitOnce_append he _
  have hend : Text.endsWith (chunkRelativePath name) chunkSuffix = true :=
    Text.endsWith_iff.2 ((Text.endsWith_iff.1 hn).trans (List.suffix_append _ _))
  unfold parentChunkRelativePath
  rw [hsplit]
  simp only
  rw [if_pos hend]

/-- A text that ends in another character is no chunk name. -/
theorem isChunkName_eq_false {t : Text} {c : Char} (hc : c ≠ 'k') : isChunkName (t ++ [c]) = false := by
  unfold isChunkName
  rw [← Bool.not_eq_true, Text.endsWith_iff]
  rintro ⟨l, hl⟩
  have := congrArg List.getLast? hl
  rw [List.getLast?_append, List.getLast?_append] at this
  exact hc (Option.some.inj this).symm

theorem isChunkName_zmap (name : Text) : isChunkName (sidecarRelativePath name zmapKind) = false := by
  have : sidecarRelativePath name zmapKind = (name ++ ".zma".toList) ++ ['p'] := by
    unfold sidecarRelativePath
    rw [List.append_assoc]
    rfl
  rw [this]
  exact isChunkName_eq_false (by decide)

theorem isChunkName_vix (name : Text) : isChunkName (sidecarRelativePath name vixKind) = false := by
  have : sidecarRelativePath name vixKind = (name ++ ".vi".toList) ++ ['x'] := by
    unfold sidecarRelativePath
    rw [List.append_assoc]
    rfl
  rw [this]
  exact isChunkName_eq_false (by decide)

/-! ## Chunks -/

/-- The names a chunk of a partition and a generation is written under. -/
def NamedFor (key : Text) (generation : Nat) (name : Text) : Prop :=
  name = partitionChunkFileName key ∧ generation = 1 ∨ name = partitionDeltaChunkFileName key generation ∨
    name = partitionMergedChunkFileName key generation

theorem NamedFor.isChunkName {key : Text} {g : Nat} {name : Text} (h : NamedFor key g name) :
    isChunkName name = true := by
  rcases h with ⟨rfl, -⟩ | rfl | rfl
  · exact chunkFileName_endsWith key
  · exact deltaFileName_endsWith key g
  · exact mergedFileName_endsWith key g

/-- The file holds the rows, all of one partition, under a name for the partition and the generation. -/
structure FileOk (t : RecordType) (u : PartitionUnit) (key name : Text) (f : ChunkFile) (rows : List t.Row) : Prop where
  holds : Holds t.Row f rows
  complete : CompleteChunk f
  keyed : ∀ r ∈ rows, partitionKey (FixedRecord.ts r) u = .ok key
  named : NamedFor key f.header.generation name

/-- The entry describes the file; its sidecars have paths of their own. -/
structure EntryOf (c : ChunkMeta) (name : Text) (f : ChunkFile) : Prop where
  path : c.relativePath = chunkRelativePath name
  startTs : c.startTs = f.header.startTs
  endTs : c.endTs = f.header.endTs
  count : c.count = f.header.count
  generation : c.generation = f.header.generation
  chunkId : c.chunkId = f.header.chunkId
  sidecars : ∀ s ∈ c.sidecars, SidecarPath s

theorem EntryOf.same {c d : ChunkMeta} {name : Text} {f : ChunkFile} (h : EntryOf c name f) (hs : SameChunk c d) :
    EntryOf d name f := by
  rw [hs]
  exact ⟨h.path, h.startTs, h.endTs, h.count, h.generation, h.chunkId, h.sidecars⟩

/-- The partition unit of a manifest. -/
def SeriesMeta.unit (m : SeriesMeta) : PartitionUnit := (PartitionUnit.fromStr m.chunkUnit).toOption.getD .month

/-- The entry has a file, which holds rows of the manifest's type in the entry's partition. -/
def Tracked (sd : SeriesDir) (t : RecordType) (u : PartitionUnit) (c : ChunkMeta) : Prop :=
  ∃ name f rows, HasChunk sd name f ∧ FileOk t u c.monthKey name f rows ∧ EntryOf c name f

/-- Every chunk file is one a write has made. -/
structure FilesOk (sd : SeriesDir) (t : RecordType) (u : PartitionUnit) : Prop where
  filed : WellFiled sd
  file : ∀ name f, HasChunk sd name f → ∃ key rows, FileOk t u key name f rows

/-- The head of a manifest: it lies in the directory of its identity, and its type fixes row size, schema and, for
klines and scalars, the unit. -/
structure HeadOk (d : Dir) (m : SeriesMeta) : Prop where
  homed : seriesDir m.symbol m.category m.name = d
  schemaId : m.schemaId = FixedRecord.schemaId m.recordType.Row
  recordSize : m.recordSize = FixedRecord.byteSize m.recordType.Row
  category : m.recordType = .kline → m.category = klineCategory
  monthly : m.recordType = .kline ∨ m.recordType = .scalar → m.chunkUnit = PartitionUnit.month.asStr

/-- The manifest fits the files of the directory.  Files that no entry describes may be there. -/
structure Fits (d : Dir) (sd : SeriesDir) (m : SeriesMeta) : Prop where
  valid : m.validate = .ok ()
  head : HeadOk d m
  files : FilesOk sd m.recordType m.unit
  tracked : ∀ c ∈ m.chunks, Tracked sd m.recordType m.unit c

/-- A series directory as the operations keep it. -/
structure SeriesOk (d : Dir) (sd : SeriesDir) (m : SeriesMeta) : Prop extends Fits d sd m where
  manifest_eq : sd.manifest = .current m

/-- Every chunk file is described by an entry. -/
def Exact (sd : SeriesDir) (m : SeriesMeta) : Prop := ∀ name f, HasChunk sd name f →
    ∃ c ∈ m.chunks, c.relativePath = chunkRelativePath name

section Files

variable {t : RecordType} {u : PartitionUnit} {key name : Text} {f : ChunkFile} {rows : List t.Row}

theorem FileOk.keyed_startTs (h : FileOk t u key name f rows) : partitionKey f.header.startTs u = .ok key := by
  obtain ⟨r, hr, he⟩ := exists_firstTs h.holds.ne_nil
  rw [h.holds.startTs_eq, ← he]
  exact h.keyed r hr

theorem FileOk.keyed_endTs (h : FileOk t u key name f rows) : partitionKey f.header.endTs u = .ok key := by
  obtain ⟨r, hr, he⟩ := exists_lastTs h.holds.ne_nil
  rw [h.holds.endTs_eq, ← he]
  exact h.keyed r hr

theorem FileOk.isKey (h : FileOk t u key name f rows) : IsKey key := isKey_of_partitionKey h.keyed_startTs

end Files

/-! ## Rows -/

/-- The rows of a chunk's file. -/
def rowsIn (t : RecordType) (sd : SeriesDir) (c : ChunkMeta) : List t.Row :=
  match sd.lookup c.relativePath with
  | some (.chunk f) => f.rows.filterMap FixedRecord.decode
  | _ => []

/-- The rows of the chunk file at a path. -/
def rowsAt (t : RecordType) (sd : SeriesDir) (relativePath : Text) : List t.Row :=
  match sd.lookup relativePath with
  | some (.chunk f) => f.rows.filterMap FixedRecord.decode
  | _ => []

/-- The rows of the tracked chunks, in manifest order. -/
def seriesRows (t : RecordType) (sd : SeriesDir) : List t.Row :=
  match sd.manifest with
  | .current m => m.chunks.flatMap (rowsIn t sd)
  | _ => []

theorem seriesRows_eq {t : RecordType} {sd : SeriesDir} {m : SeriesMeta} (h : sd.manifest = .current m) :
    seriesRows t sd = m.chunks.flatMap (rowsIn t sd) := by
  unfold seriesRows
  rw [h]

theorem rowsIn_eq {t : RecordType} {sd : SeriesDir} {c : ChunkMeta} {name : Text} {f : ChunkFile} {rows : List t.Row}
    (hw : WellFiled sd) (hf : HasChunk sd name f) (hp : c.relativePath = chunkRelativePath name)
    (hh : Holds t.Row f rows) : rowsIn t sd c = rows := by
  unfold rowsIn
  rw [hp, hw.lookup hf]
  simp only
  rw [hh.rows_eq, List.filterMap_map]
  exact (List.filterMap_congr (fun r _ => FixedRecord.decode_encode r)).trans List.filterMap_some

/-- A chunk's rows depend on its path alone. -/
theorem rowsIn_congr (t : RecordType) (sd : SeriesDir) {c d : ChunkMeta} (h : d.relativePath = c.relativePath) :
    rowsIn t sd d = rowsIn t sd c := by
  unfold rowsIn
  rw [h]

/-- A chunk keeps its rows while its file is there. -/
theorem rowsIn_of_hasChunk {t : RecordType} {sd sd' : SeriesDir} (hw : WellFiled sd) (hw' : WellFiled sd')
    {c : ChunkMeta} {name : Text} {f : ChunkFile} (hp : c.relativePath = chunkRelativePath name)
    (h : HasChunk sd name f) (h' : HasChunk sd' name f) :
    rowsIn t sd' c = rowsIn t sd c := by
  unfold rowsIn
  rw [hp, hw.lookup h, hw'.lookup h']

theorem Tracked.rowsIn {sd : SeriesDir} {t : RecordType} {u : PartitionUnit} {c : ChunkMeta} (h : Tracked sd t u c)
    (hw : WellFiled sd) :
    ∃ name f, HasChunk sd name f ∧ FileOk t u c.monthKey name f (FastK.rowsIn t sd c) ∧ EntryOf c name f := by
  obtain ⟨name, f, rows, hf, ho, he⟩ := h
  refine ⟨name, f, hf, ?_, he⟩
  rw [rowsIn_eq hw hf he.path ho.holds]
  exact ho

namespace Fits

variable {d : Dir} {sd : SeriesDir} {m : SeriesMeta}

theorem filed (h : Fits d sd m) : WellFiled sd := h.files.filed

theorem count_pos (h : Fits d sd m) : ∀ c ∈ m.chunks, 0 < c.count := by
  intro c hc
  obtain ⟨name, f, hf, ho, he⟩ := (h.tracked c hc).rowsIn h.filed
  rw [he.count]
  exact ho.complete.count_pos

theorem chain (h : Fits d sd m) : SpanChain m.chunks ∧ SpansProper m.chunks :=
  SeriesMeta.chain_of_validate h.valid h.count_pos

theorem keyed (h : Fits d sd m) {c : ChunkMeta} (hc : c ∈ m.chunks) :
    partitionKey c.startTs m.unit = .ok c.monthKey ∧ partitionKey c.endTs m.unit = .ok c.monthKey := by
  obtain ⟨name, f, hf, ho, he⟩ := (h.tracked c hc).rowsIn h.filed
  rw [he.startTs, he.endTs]
  exact ⟨ho.keyed_startTs, ho.keyed_endTs⟩

end Fits

namespace SeriesOk

variable {d : Dir} {sd : SeriesDir} {m : SeriesMeta}

theorem stored (h : SeriesOk d sd m) : Stored m.recordType.Row sd m (rowsIn m.recordType sd) where
  manifest_eq := h.manifest_eq
  valid := h.valid
  held c hc := by
    obtain ⟨name, f, hf, ho, he⟩ := (h.tracked c hc).rowsIn h.filed
    exact ⟨f, by rw [he.path]; exact h.filed.lookup hf, ho.holds, he.startTs, he.endTs, he.count⟩

end SeriesOk

end FastK
