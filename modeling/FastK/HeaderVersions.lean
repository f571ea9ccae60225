import FastK.ChunkCodec
/-!
# Headers of both versions

`to_le_bytes` writes one table of words and cuts it off at the size of the header; `from_le_bytes` reads the words of
the header's version.  The table is that of version 2: cut off at the size of version 1 it has the chunk id and the
generation in the place of the timeframe and the first timestamp, and ends with the last timestamp in the place of the
flags.  So a header of version 2 is always read back, and one of version 1 exactly when those words are all zero
(`readFrom_toLeBytes_iff`).
-/
namespace FastK

open Codec

namespace ChunkHeader

/-- The fields are of their types, whatever the version. -/
structure Words (h : ChunkHeader) : Prop where
  recordSize : Unsigned 4 h.recordSize
  schemaId : Unsigned 4 h.schemaId
  seriesId : Unsigned 8 h.seriesId
  chunkId : Unsigned 8 h.chunkId
  generation : Unsigned 8 h.generation
  timeframeMs : Signed 8 h.timeframeMs
  startTs : Signed 8 h.startTs
  endTs : Signed 8 h.endTs
  count : Unsigned 8 h.count
  flags : Unsigned 8 h.flags
  indexOffset : Unsigned 8 h.indexOffset
  indexLen : Unsigned 8 h.indexLen
  sparseIndexEvery : Unsigned 8 h.sparseIndexEvery

/-- What the decoder of version 1 puts in the fields that its headers lack. -/
structure Defaults (h : ChunkHeader) : Prop where
  chunkId : h.chunkId = 0
  generation : h.generation = 0
  indexOffset : h.indexOffset = byteSizeV1
  indexLen : h.indexLen = 0
  sparseIndexEvery : h.sparseIndexEvery = 0

/-- The words that a header of version 1 has room for are all zero where the two tables differ. -/
structure Blank (h : ChunkHeader) : Prop where
  timeframeMs : h.timeframeMs = 0
  startTs : h.startTs = 0
  endTs : h.endTs = 0
  count : h.count = 0
  flags : h.flags = 0

variable {h : ChunkHeader}

theorem version_of_validate (hv : h.validate = .ok ()) :
    h.version = chunkVersionV1 ∧ h.headerSize = byteSizeV1 ∨ h.version = chunkVersionV2 ∧
      h.headerSize = byteSizeV2 := by
  unfold validate at hv
  split at hv
  · cases hv
  · rename_i hsize
    split at hv
    · cases hv
    · rename_i hversion
      by_cases h1 : h.version = chunkVersionV1
      · exact .inl ⟨h1, by by_contra hne; exact hsize (.inl ⟨h1, hne⟩)⟩
      · have h2 : h.version = chunkVersionV2 := by
          by_contra hne
          exact hversion ⟨h1, hne⟩
        exact .inr ⟨h2, by by_contra hne; exact hsize (.inr ⟨h2, hne⟩)⟩

theorem Words.typed (hw : h.Words) (hversion : h.version = chunkVersionV2) (hsize : h.headerSize = byteSizeV2) :
    h.Typed :=
  ⟨hversion, hsize, hw.recordSize, hw.schemaId, hw.seriesId, hw.chunkId, hw.generation, hw.timeframeMs,
    hw.startTs, hw.endTs, hw.count, hw.flags, hw.indexOffset, hw.indexLen, hw.sparseIndexEvery⟩

/-! ## Version 1 -/

/-- The words of the table that are left at the size of version 1. -/
def cutBytes (h : ChunkHeader) : List Nat :=
  [(h.recordSize : Int), h.schemaId, h.seriesId, h.chunkId, h.generation, h.timeframeMs, h.startTs,
    h.endTs].flatMap (leBytes 8)

theorem length_cutBytes (h : ChunkHeader) : h.cutBytes.length = 64 := by simp [cutBytes, length_leBytes]

theorem toLeBytes_cut (hsize : h.headerSize = byteSizeV1) : h.toLeBytes = h.startBytes ++ h.cutBytes := by
  have hall : chunkMagic ++ [(h.version : Int), h.headerSize, h.recordSize, h.schemaId, h.seriesId, h.chunkId,
    h.generation,
      h.timeframeMs, h.startTs, h.endTs, h.count, h.flags, h.indexOffset, h.indexLen, h.sparseIndexEvery].flatMap
        (leBytes 8)
      = (h.startBytes ++ h.cutBytes) ++ [(h.count : Int), h.flags, h.indexOffset, h.indexLen,
        h.sparseIndexEvery].flatMap (leBytes 8) := by
    simp [startBytes, cutBytes]
  unfold toLeBytes
  rw [hall, hsize, List.take_left' (by rw [List.length_append, length_startBytes, length_cutBytes]; rfl)]

/-- What the decoder of version 1 makes of those words. -/
def misread (h : ChunkHeader) : ChunkHeader :=
  { h with
    timeframeMs := 0
    startTs := 0
    endTs := h.timeframeMs
    count := ofLeBytes (leBytes 8 h.startTs)
    flags := ofLeBytes (leBytes 8 h.endTs) }

theorem reads_cutWords (hw : h.Words) (hd : h.Defaults) (hversion : h.version = chunkVersionV1)
    (hsize : h.headerSize = byteSizeV1) :
    Reads (readWords chunkVersionV1 byteSizeV1) h.cutBytes h.misread := by
  have hzero : Signed 8 ((0 : Nat) : Int) := by decide
  have hlt : ¬ chunkVersionV2 ≤ chunkVersionV1 := by decide
  unfold readWords cutBytes
  simp only [hlt, if_false, List.flatMap_cons, List.flatMap_nil, List.append_nil, hd.chunkId, hd.generation]
  refine (reads_unsigned hw.recordSize.word).bind <| (reads_unsigned hw.schemaId.word).bind <|
    (reads_unsigned hw.seriesId).bind <|
    (reads_pure 0).skip <| (reads_pure 0).skip <| (reads_signed hzero).bind <| (reads_signed hzero).bind <|
    (reads_signed hw.timeframeMs).bind <| (reads_field (length_leBytes 8 _)).bind <|
    (reads_field (length_leBytes 8 _)).andThen <| (reads_pure _).skip <| (reads_pure 0).skip <| (reads_pure 0).skip ?_
  have hself : h.misread = ⟨chunkVersionV1, byteSizeV1, h.recordSize % 2 ^ 32, h.schemaId % 2 ^ 32, h.seriesId, 0, 0,
      ((0 : Nat) : Int), ((0 : Nat) : Int), h.timeframeMs, ofLeBytes (leBytes 8 h.startTs),
        ofLeBytes (leBytes 8 h.endTs),
      byteSizeV1, 0, 0⟩ := by
    unfold misread
    rw [hw.recordSize.asU32, hw.schemaId.asU32, hversion, hsize, hd.chunkId, hd.generation, hd.indexOffset,
      hd.indexLen, hd.sparseIndexEvery]
    rfl
  rw [hself]
  exact reads_pure _

theorem fromLeBytes_cut (hw : h.Words) (hd : h.Defaults) (hversion : h.version = chunkVersionV1)
    (hsize : h.headerSize = byteSizeV1) :
    fromLeBytes (h.startBytes ++ h.cutBytes) = h.misread.validate.map (fun _ => h.misread) := by
  have hstart := length_startBytes h
  have hlen : (h.startBytes ++ h.cutBytes).length = byteSizeV1 := by
    rw [List.length_append, length_startBytes, length_cutBytes]
    rfl
  have hv : ofLeBytes (((h.startBytes ++ h.cutBytes).drop 8).take 8) % 2 ^ 32 = chunkVersionV1 := by
    rw [List.drop_append_of_le_length (by omega), List.take_append_of_le_length (by simp [hstart]),
      startBytes_version, hversion, ofLeBytes_unsigned (by decide)]
    rfl
  have hs : ofLeBytes (((h.startBytes ++ h.cutBytes).drop 16).take 8) % 2 ^ 32 = byteSizeV1 := by
    rw [List.drop_append_of_le_length (by omega), List.take_append_of_le_length (by simp [hstart]),
      startBytes_headerSize, hsize, ofLeBytes_unsigned (by decide)]
    rfl
  have hrest : (h.startBytes ++ h.cutBytes).drop 24 = h.cutBytes := List.drop_left' hstart
  have hmagic : (h.startBytes ++ h.cutBytes).take 8 = chunkMagic := by
    rw [List.take_append_of_le_length (by omega), startBytes_magic]
  unfold fromLeBytes
  rw [if_neg (by simp [hlen]), hv, hs, hrest, (reads_cutWords hw hd hversion hsize).whole]
  simp only
  rw [if_neg (by simp [hmagic])]
  cases h.misread.validate <;> rfl

/-- **A header of version 1 is read as another one**, where that one passes the check. -/
theorem readFrom_cut (hw : h.Words) (hd : h.Defaults) (hversion : h.version = chunkVersionV1)
    (hsize : h.headerSize = byteSizeV1) (rest : List Nat) :
    readFrom (h.toLeBytes ++ rest) = h.misread.validate.map (fun _ => (h.misread, rest)) := by
  have hv : ofLeBytes (leBytes 8 h.version) % 2 ^ 32 = chunkVersionV1 := by
    rw [hversion, ofLeBytes_unsigned (by decide)]
    rfl
  have hs : ofLeBytes (leBytes 8 h.headerSize) = byteSizeV1 := by
    rw [hsize]
    exact ofLeBytes_unsigned (by decide)
  rw [toLeBytes_cut hsize, List.append_assoc]
  unfold readFrom
  rw [(reads_take h.length_startBytes).run_bind]
  simp only [startBytes_magic, startBytes_version, startBytes_headerSize, hv, hs]
  have h1 : Reads (check (if chunkMagic ≠ chunkMagic then .error (.invalidData "invalid chunk magic") else .ok ()) :
    Reader Nat FastKError Unit)
      [] () := reads_check (by simp)
  have h2 : Reads (check (expectedSize chunkVersionV1) : Reader Nat FastKError Nat) [] byteSizeV1 := reads_check rfl
  have h3 : Reads (check (if byteSizeV1 ≠ byteSizeV1 then
      .error (.invalidData (words ["unexpected header size ", showNat byteSizeV1, " for version ",
        showNat chunkVersionV1]))
    else .ok ()) : Reader Nat FastKError Unit) [] () := reads_check (by simp)
  have h4 : Reads (take fileShort (byteSizeV1 - 24)) h.cutBytes h.cutBytes := reads_take h.length_cutBytes
  rw [← List.nil_append (h.cutBytes ++ rest), h1.run_bind, ← List.nil_append (h.cutBytes ++ rest), h2.run_bind,
    ← List.nil_append (h.cutBytes ++ rest), h3.run_bind, h4.run_bind]
  unfold check
  rw [fromLeBytes_cut hw hd hversion hsize]
  cases h.misread.validate <;> rfl

theorem misread_eq_iff : h.misread = h ↔ h.Blank := by
  have hfields : h.misread = h ↔ 0 = h.timeframeMs ∧ 0 = h.startTs ∧ h.timeframeMs = h.endTs ∧
      ofLeBytes (leBytes 8 h.startTs) = h.count ∧ ofLeBytes (leBytes 8 h.endTs) = h.flags := by
    obtain ⟨⟩ := h
    unfold misread
    simp only [ChunkHeader.mk.injEq, true_and, and_true]
  have hzero : ofLeBytes (leBytes 8 0) = 0 := by decide
  rw [hfields]
  constructor
  · rintro ⟨ht, hs, he, hc, hf⟩
    have hend : h.endTs = 0 := by omega
    rw [← hs, hzero] at hc
    rw [hend, hzero] at hf
    exact ⟨ht.symm, hs.symm, hend, hc.symm, hf.symm⟩
  · rintro ⟨ht, hs, he, hc, hf⟩
    rw [ht, hs, he, hc, hf, hzero]
    exact ⟨rfl, rfl, rfl, rfl, rfl⟩

/-! ## Both versions -/

/-- **Headers are read back, from just their own bytes, if and only if they are of version 2 or all the words where
the tables differ are zero.** -/
theorem readFrom_toLeBytes_iff (hw : h.Words) (hv : h.validate = .ok ())
    (hd : h.version = chunkVersionV1 → h.Defaults) :
    (Reads readFrom h.toLeBytes h ∧ h.toLeBytes.length = h.headerSize) ↔ h.version = chunkVersionV2 ∨ h.Blank := by
  rcases version_of_validate hv with ⟨hversion, hsize⟩ | ⟨hversion, hsize⟩
  · have hother : h.version ≠ chunkVersionV2 := by
      rw [hversion]
      decide
    have hread := readFrom_cut hw (hd hversion) hversion hsize
    rw [or_iff_right hother]
    constructor
    · rintro ⟨hreads, -⟩
      have h1 := hreads []
      rw [hread []] at h1
      cases hval : h.misread.validate with
      | error e =>
        rw [hval] at h1
        cases h1
      | ok u =>
        rw [hval] at h1
        exact misread_eq_iff.1 (congrArg Prod.fst (Except.ok.inj h1))
    · intro hblank
      have hself := misread_eq_iff.2 hblank
      refine ⟨fun rest => ?_, ?_⟩
      · rw [hread rest, hself, hv]
        rfl
      · rw [toLeBytes_cut hsize, List.length_append, length_startBytes, length_cutBytes, hsize]
        rfl
  · have ht := hw.typed hversion hsize
    refine iff_of_true ⟨ht.reads_header hv, ?_⟩ (.inl hversion)
    rw [ht.toLeBytes_eq, List.length_append, length_startBytes, length_wordBytes, hsize]
    rfl

/-- The header of one kline at the start of 1970, of version 1. -/
def legacyHeader : ChunkHeader where
  version := chunkVersionV1
  headerSize := byteSizeV1
  recordSize := 48
  schemaId := klineSchemaId
  seriesId := 7
  chunkId := 0
  generation := 0
  timeframeMs := 60000
  startTs := 0
  endTs := 0
  count := 1
  flags := 0
  indexOffset := byteSizeV1
  indexLen := 0
  sparseIndexEvery := 0

/-- The same header of version 2. -/
def currentHeader : ChunkHeader :=
  { legacyHeader with version := chunkVersionV2, headerSize := byteSizeV2, indexOffset := byteSizeV2 + 48 }

/-- A header of version 1 with zero words where the tables differ. -/
def blankHeader : ChunkHeader := { legacyHeader with timeframeMs := 0, count := 0 }

theorem readFrom_toLeBytes_sample : Reads readFrom currentHeader.toLeBytes currentHeader ∧
    Reads readFrom blankHeader.toLeBytes blankHeader ∧ blankHeader.toLeBytes.length = byteSizeV1 := by
  have hcurrent : currentHeader.Words :=
    ⟨by decide, by decide, by decide, by decide, by decide, by decide, by decide, by decide, by decide, by decide,
      by decide, by decide, by decide⟩
  have hblank : blankHeader.Words :=
    ⟨by decide, by decide, by decide, by decide, by decide, by decide, by decide, by decide, by decide, by decide,
      by decide, by decide, by decide⟩
  exact ⟨((readFrom_toLeBytes_iff hcurrent (by decide) (fun h => absurd h (by decide))).2 (.inl rfl)).1,
    (readFrom_toLeBytes_iff hblank (by decide) (fun _ => ⟨rfl, rfl, rfl, rfl, rfl⟩)).2 (.inr ⟨rfl, rfl, rfl, rfl, rfl⟩)⟩

/-- The bytes of the header are read as those of a chunk without rows that ends after a minute. -/
theorem legacyHeader_misread : legacyHeader.validate = .ok () ∧
    readFrom legacyHeader.toLeBytes = .ok ({ legacyHeader with timeframeMs := 0, endTs := 60000, count := 0 }, []) ∧
    ¬ Reads readFrom legacyHeader.toLeBytes legacyHeader := by
  have hread : readFrom legacyHeader.toLeBytes = .ok ({ legacyHeader with timeframeMs := 0, endTs := 60000, count := 0 }, []) := by decide +kernel
  refine ⟨by decide, hread, fun h => ?_⟩
  have hwhole := h.whole
  rw [hread] at hwhole
  exact absurd hwhole (by decide)

end ChunkHeader

end FastK
