import FastK.Bytes
import FastK.Chunk
/-!
# The bytes of a manifest

`encode_manifest` and `decode_manifest` (`storage/manifest.rs`): a header of magic, version, flags and checksum, then
the fields, the chunks one after another, and in each chunk its sidecars.  What is encoded is decoded to the same
manifest, and the encoder fails exactly on a manifest that does not pass its check or has a string too long for its
length field (`encodeManifest_roundtrip`).
-/
namespace FastK

open Codec

/-! ## Codes -/

def RecordType.asU32 : RecordType → Nat
  | .kline => 1
  | .scalar => 2
  | .trade => 10
  | .bbo => 11
  | .bookDelta => 12

def RecordType.fromU32 (value : Nat) : Result RecordType :=
  match value with
  | 1 => .ok .kline
  | 2 => .ok .scalar
  | 10 => .ok .trade
  | 11 => .ok .bbo
  | 12 => .ok .bookDelta
  | other => .error (.invalidData (words ["unsupported record type: ", showNat other]))

def ChunkState.asU8 : ChunkState → Nat
  | .active => 1
  | .sealed => 2
  | .merging => 3
  | .replaced => 4

def ChunkState.fromU8 (value : Nat) : Result ChunkState :=
  match value with
  | 1 => .ok .active
  | 2 => .ok .sealed
  | 3 => .ok .merging
  | 4 => .ok .replaced
  | other => .error (.invalidData (words ["unsupported chunk state: ", showNat other]))

theorem RecordType.fromU32_asU32 (t : RecordType) : RecordType.fromU32 t.asU32 = .ok t := by cases t <;> rfl

theorem ChunkState.fromU8_asU8 (s : ChunkState) : ChunkState.fromU8 s.asU8 = .ok s := by cases s <;> rfl

theorem RecordType.asU32_unsigned (t : RecordType) : Unsigned 4 t.asU32 := by cases t <;> decide

theorem ChunkState.asU8_unsigned (s : ChunkState) : Unsigned 1 s.asU8 := by cases s <;> decide

/-! ## Writing -/

def putU8 (value : Nat) : Writer Nat FastKError Unit := put (leBytes 1 value)
def putU32 (value : Nat) : Writer Nat FastKError Unit := put (leBytes 4 value)
def putU64 (value : Nat) : Writer Nat FastKError Unit := put (leBytes 8 value)
def putI64 (value : Int) : Writer Nat FastKError Unit := put (leBytes 8 value)

/-- `u16::try_from` of the length of a string. -/
def stringLength (value : Text) : Result Unit :=
  if (utf8 value).length < 2 ^ 16 then .ok ()
  else .error (.invalidInput (words ["string field too long for manifest: ", showNat (utf8 value).length, " bytes"]))

def putStr (value : Text) : Writer Nat FastKError Unit := do
  check (stringLength value)
  put (leBytes 2 (utf8 value).length)
  put (utf8 value)

def putSidecar (sidecar : SidecarMeta) : Writer Nat FastKError Unit := do
  putStr sidecar.kind
  putStr sidecar.relativePath
  putU32 sidecar.generation
  putU64 sidecar.checksum
  putU32 sidecar.blockSize
  putU64 sidecar.recordCount

def putChunk (chunk : ChunkMeta) : Writer Nat FastKError Unit := do
  putU64 chunk.chunkId
  putStr chunk.monthKey
  putI64 chunk.startTs
  putI64 chunk.endTs
  putU64 chunk.count
  putU8 chunk.state.asU8
  putU32 chunk.layoutVersion
  putU32 chunk.headerLen
  putU32 chunk.sparseIndexEvery
  putU64 chunk.sparseIndexOffset
  putU32 chunk.sparseIndexLen
  putU64 chunk.chunkChecksum
  putU32 chunk.generation
  putStr chunk.relativePath
  putU32 chunk.sidecars.length
  forEach putSidecar chunk.sidecars

def putBody (m : SeriesMeta) : Writer Nat FastKError Unit := do
  putU32 m.recordType.asU32
  putU32 m.recordSize
  putU32 m.schemaId
  putU64 m.seriesId
  putU64 m.manifestSeq
  putI64 m.createdAt
  putI64 m.updatedAt
  putI64 m.timeframeMs
  putI64 m.priceScale
  putI64 m.volumeScale
  putStr m.chunkUnit
  putU64 (m.activeChunkId.getD 0)
  putStr m.symbol
  putStr m.category
  putStr m.name
  putU32 m.chunks.length
  forEach putChunk m.chunks

/-- The magic bytes `FKMETA02`. -/
def manifestMagic : List Nat := [70, 75, 77, 69, 84, 65, 48, 50]

def manifestVersion : Nat := 2
def manifestHeaderLen : Nat := 24

/-- The bytes before the body. -/
def manifestHeader (m : SeriesMeta) (body : List Nat) : List Nat :=
  manifestMagic ++ leBytes 4 manifestVersion ++ leBytes 4 m.flags ++ leBytes 8 (checksum64 body)

def encodeManifest (m : SeriesMeta) : Result (List Nat) :=
  match m.validate with
  | .error e => .error e
  | .ok () =>
    match putBody m [] with
    | .error e => .error e
    | .ok ((), body) => .ok (manifestHeader m body ++ body)

/-! ## Reading -/

/-- `Cursor::read_exact` past the end. -/
def manifestShort : FastKError := .invalidData "manifest ended unexpectedly"

def readU8 : Reader Nat FastKError Nat := readUnsigned manifestShort 1
def readU32 : Reader Nat FastKError Nat := readUnsigned manifestShort 4
def readU64 : Reader Nat FastKError Nat := readUnsigned manifestShort 8
def readI64 : Reader Nat FastKError Int := readSigned manifestShort 8

/-- `String::from_utf8` of a field. -/
def stringOf (bytes : List Nat) : Result Text :=
  match fromUtf8 bytes with
  | some t => .ok t
  | none => .error (.invalidData "invalid utf8 string")

def readString : Reader Nat FastKError Text := do
  let len ← readUnsigned manifestShort 2
  let bytes ← take manifestShort len
  check (stringOf bytes)

def readSidecar : Reader Nat FastKError SidecarMeta := do
  let kind ← readString
  let relativePath ← readString
  let generation ← readU32
  let checksum ← readU64
  let blockSize ← readU32
  let recordCount ← readU64
  return { kind := kind, relativePath, generation, checksum, blockSize, recordCount }

def readChunk : Reader Nat FastKError ChunkMeta := do
  let chunkId ← readU64
  let monthKey ← readString
  let startTs ← readI64
  let endTs ← readI64
  let count ← readU64
  let stateCode ← readU8
  let state ← check (ChunkState.fromU8 stateCode)
  let layoutVersion ← readU32
  let headerLen ← readU32
  let sparseIndexEvery ← readU32
  let sparseIndexOffset ← readU64
  let sparseIndexLen ← readU32
  let chunkChecksum ← readU64
  let generation ← readU32
  let relativePath ← readString
  let sidecarCount ← readU32
  let sidecars ← times readSidecar sidecarCount
  return {
    chunkId := chunkId, monthKey, startTs, endTs, count, state, layoutVersion, headerLen, sparseIndexEvery,
    sparseIndexOffset, sparseIndexLen, chunkChecksum, generation, relativePath, sidecars }

/-- The id 0 stands for none. -/
def activeChunkIdOf (value : Nat) : Option Nat := if value = 0 then none else some value

def readBody (flags : Nat) : Reader Nat FastKError SeriesMeta := do
  let recordTypeCode ← readU32
  let recordType ← check (RecordType.fromU32 recordTypeCode)
  let recordSize ← readU32
  let schemaId ← readU32
  let seriesId ← readU64
  let manifestSeq ← readU64
  let createdAt ← readI64
  let updatedAt ← readI64
  let timeframeMs ← readI64
  let priceScale ← readI64
  let volumeScale ← readI64
  let chunkUnit ← readString
  let activeChunkId ← readU64
  let symbol ← readString
  let category ← readString
  let name ← readString
  let chunkCount ← readU32
  let chunks ← times readChunk chunkCount
  return {
    symbol := symbol, category, name, timeframeMs, recordType, recordSize, schemaId, priceScale, volumeScale, chunkUnit,
    seriesId, manifestSeq, createdAt, updatedAt, flags, activeChunkId := activeChunkIdOf activeChunkId, chunks }

/-- The fields after the magic. -/
def readHeader : Reader Nat FastKError (Nat × Nat × Nat) := do
  let version ← readU32
  let flags ← readU32
  let checksum ← readU64
  return (version, flags, checksum)

def decodeManifest (bytes : List Nat) : Result SeriesMeta :=
  if bytes.length < manifestHeaderLen then .error (.invalidData "manifest is too short")
  else if bytes.take 8 ≠ manifestMagic then .error (.invalidData "invalid manifest magic")
  else
    match readHeader (bytes.drop 8) with
    | .error e => .error e
    | .ok ((version, flags, checksum), _) =>
      if version ≠ manifestVersion then
        .error (.invalidData (words ["unsupported manifest version: ", showNat version]))
      else if checksum64 (bytes.drop manifestHeaderLen) ≠ checksum then
        .error (.invalidData "manifest checksum mismatch")
      else
        match readBody flags (bytes.drop manifestHeaderLen) with
        | .error e => .error e
        | .ok (m, _) => .ok m

/-! ## The types of the fields -/

structure SidecarMeta.Typed (s : SidecarMeta) : Prop where
  generation : Unsigned 4 s.generation
  checksum : Unsigned 8 s.checksum
  blockSize : Unsigned 4 s.blockSize
  recordCount : Unsigned 8 s.recordCount

structure ChunkMeta.Typed (c : ChunkMeta) : Prop where
  chunkId : Unsigned 8 c.chunkId
  startTs : Signed 8 c.startTs
  endTs : Signed 8 c.endTs
  count : Unsigned 8 c.count
  layoutVersion : Unsigned 4 c.layoutVersion
  headerLen : Unsigned 4 c.headerLen
  sparseIndexEvery : Unsigned 4 c.sparseIndexEvery
  sparseIndexOffset : Unsigned 8 c.sparseIndexOffset
  sparseIndexLen : Unsigned 4 c.sparseIndexLen
  chunkChecksum : Unsigned 8 c.chunkChecksum
  generation : Unsigned 4 c.generation
  sidecars : ∀ s ∈ c.sidecars, s.Typed

structure SeriesMeta.Typed (m : SeriesMeta) : Prop where
  timeframeMs : Signed 8 m.timeframeMs
  recordSize : Unsigned 4 m.recordSize
  schemaId : Unsigned 4 m.schemaId
  priceScale : Signed 8 m.priceScale
  volumeScale : Signed 8 m.volumeScale
  seriesId : Unsigned 8 m.seriesId
  manifestSeq : Unsigned 8 m.manifestSeq
  createdAt : Signed 8 m.createdAt
  updatedAt : Signed 8 m.updatedAt
  flags : Unsigned 4 m.flags
  activeChunkId : Unsigned 8 (m.activeChunkId.getD 0)
  chunks : ∀ c ∈ m.chunks, c.Typed

/-- The strings of a manifest, each of which has a length field of two bytes. -/
def SidecarMeta.strings (s : SidecarMeta) : List Text := [s.kind, s.relativePath]

def ChunkMeta.strings (c : ChunkMeta) : List Text :=
  [c.monthKey, c.relativePath] ++ c.sidecars.flatMap SidecarMeta.strings

def SeriesMeta.strings (m : SeriesMeta) : List Text :=
  [m.chunkUnit, m.symbol, m.category, m.name] ++ m.chunks.flatMap ChunkMeta.strings

/-- The length of the string fits its field. -/
def Short (t : Text) : Prop := (utf8 t).length ≤ 65535

instance (t : Text) : Decidable (Short t) := inferInstanceAs (Decidable (_ ≤ _))

/-- The counts of chunks and of sidecars fit their fields. -/
structure SeriesMeta.Countable (m : SeriesMeta) : Prop where
  chunks : Unsigned 4 m.chunks.length
  sidecars : ∀ c ∈ m.chunks, Unsigned 4 c.sidecars.length

/-! ## Where the encoder fails -/

theorem stringLength_eq_ok {t : Text} : stringLength t = .ok () ↔ Short t := by
  unfold stringLength Short
  by_cases h : (utf8 t).length < 2 ^ 16
  · rw [if_pos h]
    exact ⟨fun _ => by omega, fun _ => rfl⟩
  · rw [if_neg h]
    exact ⟨fun he => (by cases he), fun hs => absurd hs (by omega)⟩

theorem settled_putStr (t : Text) : Settled (putStr t) (Short t) :=
  ((settled_check _).bind ((settled_put _).bind (settled_put _))).of_iff (by simp [stringLength_eq_ok])

theorem settled_putSidecar (s : SidecarMeta) : Settled (putSidecar s) (∀ t ∈ s.strings, Short t) := by
  refine ((settled_putStr _).bind <| (settled_putStr _).bind <| (settled_put _).bind <| (settled_put _).bind <|
    (settled_put _).bind (settled_put _)).of_iff ?_
  simp [SidecarMeta.strings]

theorem settled_putChunk (c : ChunkMeta) : Settled (putChunk c) (∀ t ∈ c.strings, Short t) := by
  refine ((settled_put _).bind <| (settled_putStr _).bind <| (settled_put _).bind <| (settled_put _).bind <|
    (settled_put _).bind <|
    (settled_put _).bind <| (settled_put _).bind <| (settled_put _).bind <| (settled_put _).bind <|
      (settled_put _).bind <|
    (settled_put _).bind <| (settled_put _).bind <| (settled_put _).bind <| (settled_putStr _).bind <|
      (settled_put _).bind <|
    Settled.forEach settled_putSidecar c.sidecars).of_iff ?_
  simp only [ChunkMeta.strings, List.mem_append, List.mem_flatMap, List.mem_cons, List.not_mem_nil, or_false, true_and]
  constructor
  · rintro ⟨hkey, hpath, hside⟩ t ((rfl | rfl) | ⟨s, hs, ht⟩)
    · exact hkey
    · exact hpath
    · exact hside s hs t ht
  · intro h
    exact ⟨h _ (.inl (.inl rfl)), h _ (.inl (.inr rfl)), fun s hs t ht => h t (.inr ⟨s, hs, ht⟩)⟩

theorem settled_putBody (m : SeriesMeta) : Settled (putBody m) (∀ t ∈ m.strings, Short t) := by
  refine ((settled_put _).bind <| (settled_put _).bind <| (settled_put _).bind <| (settled_put _).bind <|
    (settled_put _).bind <|
    (settled_put _).bind <| (settled_put _).bind <| (settled_put _).bind <| (settled_put _).bind <|
      (settled_put _).bind <|
    (settled_putStr _).bind <| (settled_put _).bind <| (settled_putStr _).bind <| (settled_putStr _).bind <|
      (settled_putStr _).bind <|
    (settled_put _).bind <| Settled.forEach settled_putChunk m.chunks).of_iff ?_
  simp only [SeriesMeta.strings, List.mem_append, List.mem_flatMap, List.mem_cons, List.not_mem_nil, or_false, true_and]
  constructor
  · rintro ⟨hunit, hsymbol, hcategory, hname, hchunks⟩ t ((rfl | rfl | rfl | rfl) | ⟨c, hc, ht⟩)
    · exact hunit
    · exact hsymbol
    · exact hcategory
    · exact hname
    · exact hchunks c hc t ht
  · intro h
    exact ⟨h _ (.inl (.inl rfl)), h _ (.inl (.inr (.inl rfl))), h _ (.inl (.inr (.inr (.inl rfl)))),
      h _ (.inl (.inr (.inr (.inr rfl)))), fun c hc t ht => h t (.inr ⟨c, hc, ht⟩)⟩

theorem encodeManifest_fails (m : SeriesMeta) :
    (∃ e, encodeManifest m = .error e) ↔ m.validate ≠ .ok () ∨ ∃ t ∈ m.strings, ¬ Short t := by
  unfold encodeManifest
  cases hv : m.validate with
  | error e => exact ⟨fun _ => .inl (by simp), fun _ => ⟨e, rfl⟩⟩
  | ok u =>
    by_cases hshort : ∀ t ∈ m.strings, Short t
    · obtain ⟨body, hw⟩ := (settled_putBody m).writes hshort
      simp only [hw []]
      constructor
      · rintro ⟨e, he⟩
        cases he
      · rintro (h | ⟨t, ht, h⟩)
        · exact absurd rfl h
        · exact absurd (hshort t ht) h
    · obtain ⟨e, he⟩ := (settled_putBody m).fails hshort []
      simp only [he]
      push Not at hshort
      exact ⟨fun _ => .inr hshort, fun _ => ⟨e, rfl⟩⟩

/-! ## The round trip -/

section Carried

variable {n : Nat} {z : Int}

theorem carries_u8 (h : Unsigned 1 n) : Carries (putU8 n) readU8 n := carries_put (reads_unsigned h)
theorem carries_u32 (h : Unsigned 4 n) : Carries (putU32 n) readU32 n := carries_put (reads_unsigned h)
theorem carries_u64 (h : Unsigned 8 n) : Carries (putU64 n) readU64 n := carries_put (reads_unsigned h)
theorem carries_i64 (h : Signed 8 z) : Carries (putI64 z) readI64 z := carries_put (reads_signed h)

theorem carries_str {t : Text} (h : Short t) : Carries (putStr t) readString t := by
  have hlen : Unsigned 2 (utf8 t).length := show (utf8 t).length < 256 ^ 2 by unfold Short at h; omega
  have hof : stringOf (utf8 t) = .ok t := by
    unfold stringOf
    rw [fromUtf8_utf8]
  have hread : Reads readString (leBytes 2 (utf8 t).length ++ utf8 t) t :=
    (reads_unsigned hlen).bind ((reads_take rfl).andThen (reads_check hof))
  exact ⟨_, (writes_check (stringLength_eq_ok.2 h)).bind ((writes_put _).bind (writes_put _)), hread⟩

theorem carries_sidecar {s : SidecarMeta} (h : s.Typed) (hs : ∀ t ∈ s.strings, Short t) :
    Carries (putSidecar s) readSidecar s :=
  (carries_str (hs _ (by simp [SidecarMeta.strings]))).bind <|
    (carries_str (hs _ (by simp [SidecarMeta.strings]))).bind <|
    (carries_u32 h.generation).bind <| (carries_u64 h.checksum).bind <| (carries_u32 h.blockSize).bind <|
    (carries_u64 h.recordCount).andThen (reads_pure _)

theorem carries_chunk {c : ChunkMeta} (h : c.Typed) (hs : ∀ t ∈ c.strings, Short t)
    (hn : Unsigned 4 c.sidecars.length) :
    Carries (putChunk c) readChunk c := by
  have hside : ∀ s ∈ c.sidecars, Carries (putSidecar s) readSidecar s := fun s hmem =>
    carries_sidecar (h.sidecars s hmem) (fun t ht => hs t (List.mem_append_right _ (List.mem_flatMap.2 ⟨s, hmem, ht⟩)))
  exact (carries_u64 h.chunkId).bind <| (carries_str (hs _ (by simp [ChunkMeta.strings]))).bind <|
    (carries_i64 h.startTs).bind <|
    (carries_i64 h.endTs).bind <| (carries_u64 h.count).bind <| (carries_u8 c.state.asU8_unsigned).bind <|
    Carries.checked c.state.fromU8_asU8 <| (carries_u32 h.layoutVersion).bind <| (carries_u32 h.headerLen).bind <|
    (carries_u32 h.sparseIndexEvery).bind <| (carries_u64 h.sparseIndexOffset).bind <|
      (carries_u32 h.sparseIndexLen).bind <|
    (carries_u64 h.chunkChecksum).bind <| (carries_u32 h.generation).bind <|
    (carries_str (hs _ (by simp [ChunkMeta.strings]))).bind <| (carries_u32 hn).bind <| (Carries.times hside).andThen
      (reads_pure _)

theorem carries_body {m : SeriesMeta} (h : m.Typed) (hs : ∀ t ∈ m.strings, Short t) (hn : m.Countable)
    (hactive : m.activeChunkId ≠ some 0) :
    Carries (putBody m) (readBody m.flags) m := by
  have hstr : ∀ t ∈ [m.chunkUnit, m.symbol, m.category, m.name], Short t := fun t ht => hs t (List.mem_append_left _ ht)
  have hchunks : ∀ c ∈ m.chunks, Carries (putChunk c) readChunk c := fun c hc =>
    carries_chunk (h.chunks c hc) (fun t ht => hs t (List.mem_append_right _ (List.mem_flatMap.2 ⟨c, hc, ht⟩)))
      (hn.sidecars c hc)
  have hid : activeChunkIdOf (m.activeChunkId.getD 0) = m.activeChunkId := by
    unfold activeChunkIdOf
    cases hid : m.activeChunkId with
    | none => rfl
    | some id => exact if_neg (fun h0 => hactive (hid.trans (congrArg some h0)))
  refine (carries_u32 m.recordType.asU32_unsigned).bind <| Carries.checked m.recordType.fromU32_asU32 <|
    (carries_u32 h.recordSize).bind <| (carries_u32 h.schemaId).bind <| (carries_u64 h.seriesId).bind <|
    (carries_u64 h.manifestSeq).bind <| (carries_i64 h.createdAt).bind <| (carries_i64 h.updatedAt).bind <|
    (carries_i64 h.timeframeMs).bind <| (carries_i64 h.priceScale).bind <| (carries_i64 h.volumeScale).bind <|
    (carries_str (hstr _ (by simp))).bind <| (carries_u64 h.activeChunkId).bind <|
      (carries_str (hstr _ (by simp))).bind <|
    (carries_str (hstr _ (by simp))).bind <| (carries_str (hstr _ (by simp))).bind <| (carries_u32 hn.chunks).bind <|
    (Carries.times hchunks).andThen ?_
  rw [hid]
  exact reads_pure m

end Carried

theorem checksum64_lt (bytes : List Nat) : checksum64 bytes < u64Bound := by
  unfold checksum64
  rcases List.eq_nil_or_concat bytes with rfl | ⟨l, b, rfl⟩
  · decide
  · rw [List.concat_eq_append, List.foldl_append, List.foldl_cons, List.foldl_nil]
    exact Nat.mod_lt _ (by decide)

theorem checksum64_unsigned (bytes : List Nat) : Unsigned 8 (checksum64 bytes) :=
  lt_of_lt_of_eq (checksum64_lt bytes) (show 2 ^ 64 = 256 ^ 8 by norm_num)

theorem manifestHeader_length (m : SeriesMeta) (body : List Nat) :
    (manifestHeader m body).length = manifestHeaderLen := by
  simp [manifestHeader, length_leBytes, manifestMagic, manifestHeaderLen]

theorem reads_header {m : SeriesMeta} (h : m.Typed) (body : List Nat) :
    readHeader (leBytes 4 manifestVersion ++ leBytes 4 m.flags ++ leBytes 8 (checksum64 body) ++ body) =
      .ok ((manifestVersion, m.flags, checksum64 body), body) := by
  have hread : Reads readHeader (leBytes 4 manifestVersion ++ (leBytes 4 m.flags ++ leBytes 8 (checksum64 body)))
      (manifestVersion, m.flags, checksum64 body) :=
    (reads_unsigned (by decide)).bind
      ((reads_unsigned h.flags).bind ((reads_unsigned (checksum64_unsigned body)).andThen (reads_pure _)))
  rw [List.append_assoc (leBytes 4 manifestVersion)]
  exact hread body

/-- **What the encoder lays out is decoded to the manifest.** -/
theorem decodeManifest_encoded {m : SeriesMeta} (h : m.Typed) (hactive : m.activeChunkId ≠ some 0) (hn : m.Countable)
    (hs : ∀ t ∈ m.strings, Short t) : ∃ body, putBody m [] = .ok ((), body) ∧
      decodeManifest (manifestHeader m body ++ body) = .ok m := by
  obtain ⟨body, hw, hr⟩ := carries_body h hs hn hactive
  refine ⟨body, hw [], ?_⟩
  have hlen := manifestHeader_length m body
  have hmagic : (manifestHeader m body ++ body).take 8 = manifestMagic := by
    simp [manifestHeader, manifestMagic]
  have hrest : (manifestHeader m body ++ body).drop 8 =
      leBytes 4 manifestVersion ++ leBytes 4 m.flags ++ leBytes 8 (checksum64 body) ++ body := by
    simp [manifestHeader, manifestMagic]
  have hbody : (manifestHeader m body ++ body).drop manifestHeaderLen = body := by
    rw [← hlen, List.drop_left]
  unfold decodeManifest
  rw [if_neg (by simp [hlen]), if_neg (by simp [hmagic]), hrest, reads_header h, hbody]
  simp [hr.whole]

/-- **The manifest codec is a round trip.**  Every manifest that passes its check, of fields of their types, strings
and counts that fit their length fields and no active chunk 0, is encoded to bytes that decode to it; and the encoder
fails exactly where the check does or a string is longer than its length field says. -/
theorem encodeManifest_roundtrip :
    (∀ m : SeriesMeta, m.Typed → m.validate = .ok () → (∀ t ∈ m.strings, Short t) → m.activeChunkId ≠ some 0 →
      m.Countable →
      ∃ bytes, encodeManifest m = .ok bytes ∧ decodeManifest bytes = .ok m) ∧
    ∀ m : SeriesMeta, (∃ e, encodeManifest m = .error e) ↔ m.validate ≠ .ok () ∨ ∃ t ∈ m.strings, ¬ Short t := by
  refine ⟨fun m h hv hs hactive hn => ?_, encodeManifest_fails⟩
  obtain ⟨body, hput, hdecode⟩ := decodeManifest_encoded h hactive hn hs
  refine ⟨manifestHeader m body ++ body, ?_, hdecode⟩
  unfold encodeManifest
  rw [hv, hput]

/-- A manifest of one chunk with a sidecar. -/
def sampleManifest : SeriesMeta where
  symbol := "BTCUSDT"
  category := "feature"
  name := "test"
  timeframeMs := 60000
  recordType := .scalar
  recordSize := 16
  schemaId := scalarSchemaId
  priceScale := 100000
  volumeScale := -1
  chunkUnit := "month"
  seriesId := 42
  manifestSeq := 7
  createdAt := 1000
  updatedAt := 2000
  flags := 9
  activeChunkId := some 5
  chunks := [⟨5, "2024-02", 10, 20, 2, .active, 2, 128, 128, 224, 1, 123, 3, "chunks/2024-02.chunk",
    [⟨"zmap", "chunks/2024-02.chunk.zmap", 3, 99, 64, 1⟩]⟩]

theorem encodeManifest_roundtrip_sample :
    ∃ bytes, encodeManifest sampleManifest = .ok bytes ∧ decodeManifest bytes = .ok sampleManifest := by
  have hside : ∀ c ∈ sampleManifest.chunks, ∀ s ∈ c.sidecars, s.Typed := by
    intro c hc s hs
    obtain rfl := List.mem_singleton.1 hc
    obtain rfl := List.mem_singleton.1 hs
    exact ⟨by decide, by decide, by decide, by decide⟩
  have hchunks : ∀ c ∈ sampleManifest.chunks, c.Typed := by
    intro c hc
    have hs := hside c hc
    obtain rfl := List.mem_singleton.1 hc
    exact ⟨by decide, by decide, by decide, by decide, by decide, by decide, by decide, by decide, by decide,
      by decide, by decide, hs⟩
  have htyped : sampleManifest.Typed :=
    ⟨by decide, by decide, by decide, by decide, by decide, by decide, by decide, by decide, by decide, by decide,
      by decide, hchunks⟩
  exact encodeManifest_roundtrip.1 sampleManifest htyped (by decide) (by decide) (by decide) ⟨by decide, by decide⟩

end FastK
