import FastK.Bytes
import FastK.Chunk
/-!
# The bytes of a chunk file

How the readers take a chunk file apart: `ChunkHeader::read_from`, the record decoders at their offsets, and the
sparse index at the end (`chunk/header.rs`, `chunk/sparse_index.rs`, `types/*.rs`).  From the file of each of the
three writers they read the header, the records and the anchors that were written, and the manifest entry of the
writer agrees with them (`writeChunk_roundtrip`).
-/
namespace FastK

open Codec Search Sampled

/-! ## Header -/

/-- `read_exact` past the end of a file. -/
def fileShort : FastKError := .io "failed to fill whole buffer"

def readWord : Reader Nat FastKError Nat := readUnsigned (.invalidData "invalid 8-byte word") 8
def readSignedWord : Reader Nat FastKError Int := readSigned (.invalidData "invalid 8-byte word") 8

namespace ChunkHeader

/-- The words after the first three; a header of version 1 has no chunk id and no generation, and nothing about an
index. -/
def readWords (version headerSize : Nat) : Reader Nat FastKError ChunkHeader := do
  let recordSize ← readWord
  let schemaId ← readWord
  let seriesId ← readWord
  let chunkId ← if chunkVersionV2 ≤ version then readWord else pure 0
  let generation ← if chunkVersionV2 ≤ version then readWord else pure 0
  let timeframeMs ← readSignedWord
  let startTs ← readSignedWord
  let endTs ← readSignedWord
  let count ← readWord
  let flags ← readWord
  let indexOffset ← if chunkVersionV2 ≤ version then readWord else pure headerSize
  let indexLen ← if chunkVersionV2 ≤ version then readWord else pure 0
  let sparseIndexEvery ← if chunkVersionV2 ≤ version then readWord else pure 0
  return {
    version := version, headerSize, recordSize := recordSize % 2 ^ 32, schemaId := schemaId % 2 ^ 32, seriesId, chunkId,
    generation, timeframeMs, startTs, endTs, count, flags, indexOffset, indexLen, sparseIndexEvery }

def fromLeBytes (bytes : List Nat) : Result ChunkHeader :=
  if bytes.length ≠ byteSizeV1 ∧ bytes.length ≠ byteSizeV2 then
    .error (.invalidData (words ["unexpected chunk header byte length: ", showNat bytes.length]))
  else
    match readWords (ofLeBytes ((bytes.drop 8).take 8) % 2 ^ 32) (ofLeBytes ((bytes.drop 16).take 8) % 2 ^ 32) (bytes.drop 24) with
    | .error e => .error e
    | .ok (header, _) =>
      if bytes.take 8 ≠ chunkMagic then .error (.invalidData "invalid chunk magic")
      else
        match header.validate with
        | .error e => .error e
        | .ok () => .ok header

/-- The size that a version has. -/
def expectedSize (version : Nat) : Result Nat :=
  if version = chunkVersionV1 then .ok byteSizeV1
  else if version = chunkVersionV2 then .ok byteSizeV2
  else .error (.invalidData (words ["unsupported chunk version: ", showNat version]))

def readFrom : Reader Nat FastKError ChunkHeader := do
  let start ← take fileShort 24
  let version := ofLeBytes ((start.drop 8).take 8) % 2 ^ 32
  let headerSize := ofLeBytes ((start.drop 16).take 8)
  check (if start.take 8 ≠ chunkMagic then .error (.invalidData "invalid chunk magic") else .ok ())
  let expected ← check (expectedSize version)
  check (if headerSize ≠ expected then
      .error (.invalidData (words ["unexpected header size ", showNat headerSize, " for version ", showNat version]))
    else .ok ())
  let rest ← take fileShort (headerSize - 24)
  check (fromLeBytes (start ++ rest))

end ChunkHeader

/-! ## Sparse index -/

def SparseIndexEntry.toLeBytes (e : SparseIndexEntry) : List Nat := leBytes 8 e.ts ++ leBytes 8 e.recordIdx

def readSparseIndexEntry : Reader Nat FastKError SparseIndexEntry := do
  let ts ← readSignedWord
  let recordIdx ← readWord
  return ⟨ts, recordIdx⟩

def decodeEntries (bytes : List Nat) : Result (List SparseIndexEntry) :=
  if bytes.length % 16 ≠ 0 then
    .error (.invalidData (words ["invalid sparse index byte length ", showNat bytes.length]))
  else
    match times readSparseIndexEntry (bytes.length / 16) bytes with
    | .error e => .error e
    | .ok (entries, _) => .ok entries

/-- `sparse_index::read_from_file`. -/
def readSparseIndex (file : List Nat) (header : ChunkHeader) : Result (List SparseIndexEntry) :=
  if header.version < chunkVersionV2 ∨ header.hasSparseIndex = false ∨ header.indexLen = 0 then .ok []
  else if u64Bound ≤ header.indexLen * 16 then .error (.invalidData "sparse index byte length overflow")
  else
    match take fileShort (header.indexLen * 16) (file.drop header.indexOffset) with
    | .error e => .error e
    | .ok (bytes, _) => decodeEntries bytes

/-! ## Records -/

/-- `read_i64` and the other fields of a record past its end. -/
def recordShort : FastKError := .invalidData "fixed record ended unexpectedly"

def field64 : Reader Nat FastKError Int := readSigned recordShort 8

/-- A decoder of records that have just `size` bytes. -/
def decodeFixed {R : Type} (size : Nat) (wrongLength : FastKError) (fields : Reader Nat FastKError R)
    (bytes : List Nat) : Result R :=
  if bytes.length ≠ size then .error wrongLength
  else
    match fields bytes with
    | .error e => .error e
    | .ok (r, _) => .ok r

/-- The value that an `i64` holds after a conversion. -/
def wrapI64 (z : Int) : I64 := ⟨Int.bmod z (2 ^ 64), by
  have hle := Int.le_bmod (x := z) (show 0 < 2 ^ 64 by decide)
  have hlt := Int.bmod_lt (x := z) (show 0 < 2 ^ 64 by decide)
  constructor
  · omega
  · omega⟩

def KlineRecord.decodeLe : List Nat → Result KlineRecord :=
  decodeFixed 48 (.invalidData "invalid kline record bytes") do
    let ts ← field64
    let openPrice ← field64
    let high ← field64
    let low ← field64
    let close ← field64
    let volume ← field64
    return ⟨ts, openPrice, high, low, close, volume⟩

def ScalarRecord.decodeLe : List Nat → Result ScalarRecord :=
  decodeFixed 16 (.invalidData "invalid scalar record bytes") do
    let ts ← field64
    let value ← field64
    return ⟨ts, wrapI64 value⟩

def TradeRecord.decodeLe (bytes : List Nat) : Result TradeRecord :=
  decodeFixed 48 (.invalidData (words ["unexpected trade record byte length: ", showNat bytes.length])) (do
    let ts ← field64
    let recvTs ← field64
    let tradeId ← field64
    let price ← field64
    let qty ← field64
    let side ← readSigned recordShort 1
    let flags ← readUnsigned recordShort 1
    let pad ← take recordShort 6
    return ⟨ts, recvTs, tradeId, price, qty, side, flags, pad⟩) bytes

def BboRecord.decodeLe (bytes : List Nat) : Result BboRecord :=
  decodeFixed 56 (.invalidData (words ["unexpected bbo record byte length: ", showNat bytes.length])) (do
    let ts ← field64
    let recvTs ← field64
    let bidPrice ← field64
    let bidQty ← field64
    let askPrice ← field64
    let askQty ← field64
    let sequence ← field64
    return ⟨ts, recvTs, bidPrice, bidQty, askPrice, askQty, sequence⟩) bytes

def BookDeltaRecord.decodeLe (bytes : List Nat) : Result BookDeltaRecord :=
  decodeFixed 48 (.invalidData (words ["unexpected book delta record byte length: ", showNat bytes.length])) (do
    let ts ← field64
    let recvTs ← field64
    let sequence ← field64
    let price ← field64
    let qty ← field64
    let side ← readSigned recordShort 1
    let action ← readSigned recordShort 1
    let level ← readSigned recordShort 2
    let flags ← readUnsigned recordShort 4
    return ⟨ts, recvTs, sequence, price, qty, side, action, level, flags⟩) bytes

/-! ## The types of the fields -/

structure KlineRecord.Typed (r : KlineRecord) : Prop where
  ts : Signed 8 r.ts
  openPrice : Signed 8 r.openPrice
  high : Signed 8 r.high
  low : Signed 8 r.low
  close : Signed 8 r.close
  volume : Signed 8 r.volume

structure TradeRecord.Typed (r : TradeRecord) : Prop where
  ts : Signed 8 r.ts
  recvTs : Signed 8 r.recvTs
  tradeId : Signed 8 r.tradeId
  price : Signed 8 r.price
  qty : Signed 8 r.qty
  side : Signed 1 r.side
  flags : Unsigned 1 r.flags
  pad : r.pad.length = 6

structure BboRecord.Typed (r : BboRecord) : Prop where
  ts : Signed 8 r.ts
  recvTs : Signed 8 r.recvTs
  bidPrice : Signed 8 r.bidPrice
  bidQty : Signed 8 r.bidQty
  askPrice : Signed 8 r.askPrice
  askQty : Signed 8 r.askQty
  sequence : Signed 8 r.sequence

structure BookDeltaRecord.Typed (r : BookDeltaRecord) : Prop where
  ts : Signed 8 r.ts
  recvTs : Signed 8 r.recvTs
  sequence : Signed 8 r.sequence
  price : Signed 8 r.price
  qty : Signed 8 r.qty
  side : Signed 1 r.side
  action : Signed 1 r.action
  level : Signed 2 r.level
  flags : Unsigned 4 r.flags

/-- A record type whose decoder takes back what its encoder lays out, for every record of fields of their types. -/
class RecordCodec (R : Type) [FixedRecord R] where
  decodeLe : List Nat → Result R
  Typed : R → Prop
  ts_typed : ∀ r, Typed r → Signed 8 (FixedRecord.ts r)
  decode_encode : ∀ r, Typed r → decodeLe (FixedRecord.encode r).encodeLe = .ok r
  length_encode : ∀ r, Typed r → (FixedRecord.encode r).encodeLe.length = FixedRecord.byteSize R

theorem decodeFixed_ok {R : Type} {size : Nat} {wrongLength : FastKError} {fields : Reader Nat FastKError R}
    {bytes : List Nat} {r : R} (hlen : bytes.length = size) (h : Reads fields bytes r) :
    decodeFixed size wrongLength fields bytes = .ok r := by
  unfold decodeFixed
  rw [if_neg (by simp [hlen]), h.whole]

theorem I64.signed (z : I64) : Signed 8 z.val := by
  have h := z.property
  constructor
  · norm_num
    omega
  · norm_num
    omega

theorem wrapI64_val (z : I64) : wrapI64 z.val = z := by
  refine Subtype.ext (Int.bmod_eq_of_le_mul_two ?_ ?_)
  · have h := z.property.1
    push_cast
    omega
  · have h := z.property.2
    push_cast
    omega

instance : RecordCodec KlineRecord where
  decodeLe := KlineRecord.decodeLe
  Typed := KlineRecord.Typed
  ts_typed := fun _ h => h.ts
  decode_encode := fun r h => decodeFixed_ok (by simp [FixedRecord.encode, Record.encodeLe, length_leBytes]) <|
    (reads_signed h.ts).bind <| (reads_signed h.openPrice).bind <| (reads_signed h.high).bind <|
      (reads_signed h.low).bind <|
    (reads_signed h.close).bind <| (reads_signed h.volume).bind (reads_pure r)
  length_encode := fun r _ => by simp [FixedRecord.encode, Record.encodeLe, FixedRecord.byteSize, length_leBytes]

instance : RecordCodec ScalarRecord where
  decodeLe := ScalarRecord.decodeLe
  Typed := fun r => Signed 8 r.ts
  ts_typed := fun _ h => h
  decode_encode := fun r h => decodeFixed_ok (by simp [FixedRecord.encode, Record.encodeLe, length_leBytes]) <|
    (reads_signed h).bind <| (reads_signed r.value.signed).bind (by
      rw [wrapI64_val]
      exact reads_pure r)
  length_encode := fun r _ => by simp [FixedRecord.encode, Record.encodeLe, FixedRecord.byteSize, length_leBytes]

theorem TradeRecord.decode_encode (r : TradeRecord) (h : r.Typed) :
    TradeRecord.decodeLe (FixedRecord.encode r).encodeLe = .ok r := by
  have hflags : [r.flags] = leBytes 1 r.flags := by
    have hlt : r.flags < 256 ^ 1 := h.flags
    simp only [leBytes]
    rw [show ((r.flags : Int) % 256).toNat = r.flags by omega]
  have hbytes : (FixedRecord.encode r).encodeLe =
      leBytes 8 r.ts ++ (leBytes 8 r.recvTs ++ (leBytes 8 r.tradeId ++ (leBytes 8 r.price ++ (leBytes 8 r.qty ++
        (leBytes 1 r.side ++ (leBytes 1 r.flags ++ r.pad)))))) := by
    rw [← hflags]
    simp [FixedRecord.encode, Record.encodeLe]
  refine decodeFixed_ok (by simp [FixedRecord.encode, Record.encodeLe, length_leBytes, h.pad]) ?_
  rw [hbytes]
  exact (reads_signed h.ts).bind <| (reads_signed h.recvTs).bind <| (reads_signed h.tradeId).bind <|
    (reads_signed h.price).bind <|
    (reads_signed h.qty).bind <| (reads_signed h.side).bind <| (reads_unsigned h.flags).bind <|
    (reads_take h.pad).andThen (reads_pure r)

instance : RecordCodec TradeRecord where
  decodeLe := TradeRecord.decodeLe
  Typed := TradeRecord.Typed
  ts_typed := fun _ h => h.ts
  decode_encode := TradeRecord.decode_encode
  length_encode := fun r h => by simp [FixedRecord.encode, Record.encodeLe, FixedRecord.byteSize, length_leBytes, h.pad]

instance : RecordCodec BboRecord where
  decodeLe := BboRecord.decodeLe
  Typed := BboRecord.Typed
  ts_typed := fun _ h => h.ts
  decode_encode := fun r h => decodeFixed_ok (by simp [FixedRecord.encode, Record.encodeLe, length_leBytes]) <|
    (reads_signed h.ts).bind <| (reads_signed h.recvTs).bind <| (reads_signed h.bidPrice).bind <|
      (reads_signed h.bidQty).bind <|
    (reads_signed h.askPrice).bind <| (reads_signed h.askQty).bind <| (reads_signed h.sequence).bind (reads_pure r)
  length_encode := fun r _ => by simp [FixedRecord.encode, Record.encodeLe, FixedRecord.byteSize, length_leBytes]

instance : RecordCodec BookDeltaRecord where
  decodeLe := BookDeltaRecord.decodeLe
  Typed := BookDeltaRecord.Typed
  ts_typed := fun _ h => h.ts
  decode_encode := fun r h => by
    have hbytes : (FixedRecord.encode r).encodeLe =
        leBytes 8 r.ts ++ (leBytes 8 r.recvTs ++ (leBytes 8 r.sequence ++ (leBytes 8 r.price ++ (leBytes 8 r.qty ++
          (leBytes 1 r.side ++ (leBytes 1 r.action ++ (leBytes 2 r.level ++ leBytes 4 r.flags))))))) := by
      simp [FixedRecord.encode, Record.encodeLe]
    refine decodeFixed_ok (by simp [FixedRecord.encode, Record.encodeLe, length_leBytes]) ?_
    rw [hbytes]
    exact (reads_signed h.ts).bind <| (reads_signed h.recvTs).bind <| (reads_signed h.sequence).bind <|
      (reads_signed h.price).bind <|
      (reads_signed h.qty).bind <| (reads_signed h.side).bind <| (reads_signed h.action).bind <|
        (reads_signed h.level).bind <|
      (reads_unsigned h.flags).andThen (reads_pure r)
  length_encode := fun r _ => by simp [FixedRecord.encode, Record.encodeLe, FixedRecord.byteSize, length_leBytes]

instance (t : RecordType) : RecordCodec t.Row :=
  match t with
  | .kline => inferInstanceAs (RecordCodec KlineRecord)
  | .scalar => inferInstanceAs (RecordCodec ScalarRecord)
  | .trade => inferInstanceAs (RecordCodec TradeRecord)
  | .bbo => inferInstanceAs (RecordCodec BboRecord)
  | .bookDelta => inferInstanceAs (RecordCodec BookDeltaRecord)

/-! ## Headers are read back -/

/-- A header of the current version, of fields of their types. -/
structure ChunkHeader.Typed (h : ChunkHeader) : Prop where
  version : h.version = chunkVersionV2
  headerSize : h.headerSize = byteSizeV2
  recordSize : Unsigned 4 h.recordSize
  schemaId : Unsigned 4 h.schemaId
  seriesId : Unsigned 8 h.seriesId
  chunkId : Unsigned 8 h.chunkId
  generation : Unsigned 8 h.generation
  timeframeMs : Signed 8 h.timeframeMs
  startTs : Signed 8 h.startTs
  endTs : Signed 8 h.endTs
  count : Unsigned 8 h.count
  flags : Unsigned 8 h.flags
  indexOffset : Unsigned 8 h.indexOffset
  indexLen : Unsigned 8 h.indexLen
  sparseIndexEvery : Unsigned 8 h.sparseIndexEvery

theorem Unsigned.asU32 {n : Nat} (h : Unsigned 4 n) : n % 2 ^ 32 = n :=
  Nat.mod_eq_of_lt (lt_of_lt_of_eq h (show 256 ^ 4 = 2 ^ 32 by norm_num))

theorem Unsigned.word {n : Nat} (h : Unsigned 4 n) : Unsigned 8 n := lt_trans h (show 256 ^ 4 < 256 ^ 8 by norm_num)

namespace ChunkHeader

variable {h : ChunkHeader}

/-- The first three words. -/
def startBytes (h : ChunkHeader) : List Nat := chunkMagic ++ (leBytes 8 h.version ++ leBytes 8 h.headerSize)

/-- The words that `readWords` reads. -/
def wordBytes (h : ChunkHeader) : List Nat :=
  [(h.recordSize : Int), h.schemaId, h.seriesId, h.chunkId, h.generation, h.timeframeMs, h.startTs, h.endTs,
    h.count, h.flags, h.indexOffset, h.indexLen, h.sparseIndexEvery].flatMap (leBytes 8)

theorem length_startBytes (h : ChunkHeader) : h.startBytes.length = 24 := by
  simp [startBytes, chunkMagic, length_leBytes]

theorem length_wordBytes (h : ChunkHeader) : h.wordBytes.length = 104 := by simp [wordBytes, length_leBytes]

theorem Typed.toLeBytes_eq (ht : h.Typed) : h.toLeBytes = h.startBytes ++ h.wordBytes := by
  have hall : (chunkMagic ++ [(h.version : Int), h.headerSize, h.recordSize, h.schemaId, h.seriesId, h.chunkId,
    h.generation,
      h.timeframeMs, h.startTs, h.endTs, h.count, h.flags, h.indexOffset, h.indexLen, h.sparseIndexEvery].flatMap
        (leBytes 8)) =
      h.startBytes ++ h.wordBytes := by
    simp [startBytes, wordBytes]
  unfold toLeBytes
  rw [hall, List.take_of_length_le]
  simp [length_startBytes, length_wordBytes, ht.headerSize, byteSizeV2]

theorem Typed.reads_words (ht : h.Typed) : Reads (readWords chunkVersionV2 byteSizeV2) h.wordBytes h := by
  unfold readWords
  simp only [le_refl, if_true]
  refine (reads_unsigned ht.recordSize.word).bind <| (reads_unsigned ht.schemaId.word).bind <|
    (reads_unsigned ht.seriesId).bind <|
    (reads_unsigned ht.chunkId).bind <| (reads_unsigned ht.generation).bind <| (reads_signed ht.timeframeMs).bind <|
    (reads_signed ht.startTs).bind <| (reads_signed ht.endTs).bind <| (reads_unsigned ht.count).bind <|
      (reads_unsigned ht.flags).bind <|
    (reads_unsigned ht.indexOffset).bind <| (reads_unsigned ht.indexLen).bind <|
      (reads_unsigned ht.sparseIndexEvery).bind ?_
  rw [ht.recordSize.asU32, ht.schemaId.asU32, ← ht.version, ← ht.headerSize]
  exact reads_pure h

theorem startBytes_magic (h : ChunkHeader) : h.startBytes.take 8 = chunkMagic := List.take_left' rfl

theorem startBytes_version (h : ChunkHeader) : (h.startBytes.drop 8).take 8 = leBytes 8 h.version := by
  have hdrop : h.startBytes.drop 8 = leBytes 8 h.version ++ leBytes 8 h.headerSize := List.drop_left' rfl
  rw [hdrop, List.take_left' (length_leBytes 8 _)]

theorem startBytes_headerSize (h : ChunkHeader) : (h.startBytes.drop 16).take 8 = leBytes 8 h.headerSize := by
  have hdrop : h.startBytes.drop 16 = leBytes 8 h.headerSize := by
    unfold startBytes
    rw [← List.append_assoc, List.drop_left' (by simp [chunkMagic, length_leBytes])]
  rw [hdrop, List.take_of_length_le (by rw [length_leBytes])]

theorem Typed.version_word (ht : h.Typed) : ofLeBytes (leBytes 8 h.version) = chunkVersionV2 := by
  rw [ht.version]
  exact ofLeBytes_unsigned (by decide)

theorem Typed.headerSize_word (ht : h.Typed) : ofLeBytes (leBytes 8 h.headerSize) = byteSizeV2 := by
  rw [ht.headerSize]
  exact ofLeBytes_unsigned (by decide)

theorem Typed.fromLeBytes_eq (ht : h.Typed) (hv : h.validate = .ok ()) :
    fromLeBytes (h.startBytes ++ h.wordBytes) = .ok h := by
  have hlen : (h.startBytes ++ h.wordBytes).length = byteSizeV2 := by
    rw [List.length_append, length_startBytes, length_wordBytes]
    rfl
  have hstart := length_startBytes h
  have hversion : (((h.startBytes ++ h.wordBytes).drop 8).take 8) = leBytes 8 h.version := by
    rw [List.drop_append_of_le_length (by omega), List.take_append_of_le_length (by simp [hstart]), startBytes_version]
  have hsize : (((h.startBytes ++ h.wordBytes).drop 16).take 8) = leBytes 8 h.headerSize := by
    rw [List.drop_append_of_le_length (by omega), List.take_append_of_le_length (by simp [hstart]),
      startBytes_headerSize]
  have hrest : (h.startBytes ++ h.wordBytes).drop 24 = h.wordBytes := List.drop_left' hstart
  have hmagic : (h.startBytes ++ h.wordBytes).take 8 = chunkMagic := by
    rw [List.take_append_of_le_length (by omega), startBytes_magic]
  unfold fromLeBytes
  rw [if_neg (by simp [hlen]), hversion, hsize, ht.version_word, ht.headerSize_word, hrest,
    show chunkVersionV2 % 2 ^ 32 = chunkVersionV2 from rfl, show byteSizeV2 % 2 ^ 32 = byteSizeV2 from rfl,
      ht.reads_words.whole]
  simp [hmagic, hv]

/-- **A header that passes its check is read back.** -/
theorem Typed.reads_header (ht : h.Typed) (hv : h.validate = .ok ()) : Reads readFrom h.toLeBytes h := by
  rw [ht.toLeBytes_eq]
  refine (reads_take h.length_startBytes).bind ?_
  simp only [startBytes_magic, startBytes_version, startBytes_headerSize, ht.version_word, ht.headerSize_word]
  refine (reads_check (a := ()) (by simp)).skip ?_
  refine (reads_check (a := byteSizeV2) rfl).skip ?_
  refine (reads_check (a := ()) (by simp)).skip ?_
  exact (reads_take h.length_wordBytes).andThen (reads_check (ht.fromLeBytes_eq hv))

end ChunkHeader

/-! ## Files are read back -/

/-- The bytes of the row at an index. -/
def recordBytes (file : List Nat) (header : ChunkHeader) (i : Nat) : List Nat :=
  (file.drop (header.headerSize + i * header.recordSize)).take header.recordSize

/-- The writer's entry says what the header and the file do. -/
structure AgreesWith (c : ChunkMeta) (f : ChunkFile) : Prop where
  chunkId : c.chunkId = f.header.chunkId
  generation : c.generation = f.header.generation
  startTs : c.startTs = f.header.startTs
  endTs : c.endTs = f.header.endTs
  count : c.count = f.header.count
  layoutVersion : c.layoutVersion = f.header.version
  headerLen : c.headerLen = f.header.headerSize
  sparseIndexEvery : c.sparseIndexEvery = f.header.sparseIndexEvery
  sparseIndexOffset : c.sparseIndexOffset = f.header.indexOffset
  sparseIndexLen : c.sparseIndexLen = f.header.indexLen
  chunkChecksum : c.chunkChecksum = checksum64 f.bytes

/-- From the bytes of the file the readers take its header, the rows, and an anchor for every `every`-th of them. -/
structure ReadBack {R : Type} [FixedRecord R] [RecordCodec R] (f : ChunkFile) (rows : List R) (every : Nat) : Prop where
  header : (ChunkHeader.readFrom f.bytes).map Prod.fst = .ok f.header
  count : f.header.count = rows.length
  startTs : f.header.startTs = firstTs rows
  endTs : f.header.endTs = lastTs rows
  row : ∀ i (h : i < rows.length), RecordCodec.decodeLe (recordBytes f.bytes f.header i) = .ok rows[i]
  index : ∃ entries, readSparseIndex f.bytes f.header = .ok entries ∧
    ∀ k, entries[k]? = (rows[k * every]?).map (fun r => ⟨FixedRecord.ts r, k * every⟩)

/-- What a writer is told, of fields of their types. -/
structure WriteTyped (m : SeriesMeta) (o : WriteChunkOptions) : Prop where
  seriesId : Unsigned 8 m.seriesId
  timeframeMs : Signed 8 m.timeframeMs
  chunkId : Unsigned 8 o.chunkId
  generation : Unsigned 4 o.generation
  sparseIndexEvery : Unsigned 4 o.sparseIndexEvery

section ReadBack

variable {R : Type} [FixedRecord R] [RecordCodec R] {rows : List R} {m : SeriesMeta} {o : WriteChunkOptions}
    {f : ChunkFile} {c : ChunkMeta}
  {key : Text}

/-- The run of an element in a list of runs of one length. -/
theorem run_flatMap {α : Type} {enc : α → List Nat} {w : Nat} : ∀ {l : List α} (_ : ∀ a ∈ l, (enc a).length = w)
    (tail : List Nat) (i : Nat) (h : i < l.length), ((l.flatMap enc ++ tail).drop (i * w)).take w = enc l[i]
  | a :: l, hw, tail, 0, _ => by
    have ha : (enc a).length = w := hw a (by simp)
    rw [Nat.zero_mul, List.drop_zero, List.flatMap_cons, List.append_assoc, List.take_left' ha]
    rfl
  | a :: l, hw, tail, i + 1, h => by
    have ha : (enc a).length = w := hw a (by simp)
    rw [List.flatMap_cons, List.append_assoc, Nat.succ_mul, Nat.add_comm, List.drop_append, ← ha,
      List.drop_of_length_le (by omega), List.nil_append, Nat.add_sub_cancel_left, ha]
    exact run_flatMap (fun b hb => hw b (by simp [hb])) tail i (Nat.lt_of_succ_lt_succ h)

theorem length_rowBytes (ht : ∀ r ∈ rows, RecordCodec.Typed r) :
    ((rows.map FixedRecord.encode).flatMap Record.encodeLe).length = rows.length * FixedRecord.byteSize R := by
  induction rows with
  | nil => simp
  | cons r rs ih =>
    rw [List.map_cons, List.flatMap_cons, List.length_append, RecordCodec.length_encode r (ht r (by simp)),
      ih (fun a ha => ht a (by simp [ha])), List.length_cons, Nat.succ_mul, Nat.add_comm]

theorem firstTs_typed (ht : ∀ r ∈ rows, RecordCodec.Typed r) (hne : rows ≠ []) : Signed 8 (firstTs rows) := by
  obtain ⟨r, hr, he⟩ := exists_firstTs hne
  rw [← he]
  exact RecordCodec.ts_typed r (ht r hr)

theorem lastTs_typed (ht : ∀ r ∈ rows, RecordCodec.Typed r) (hne : rows ≠ []) : Signed 8 (lastTs rows) := by
  obtain ⟨r, hr, he⟩ := exists_lastTs hne
  rw [← he]
  exact RecordCodec.ts_typed r (ht r hr)

theorem byteSize_unsigned (t : RecordType) : Unsigned 4 (FixedRecord.byteSize t.Row) := by cases t <;> decide

theorem schemaId_unsigned (t : RecordType) : Unsigned 4 (FixedRecord.schemaId t.Row) := by cases t <;> decide

theorem every_unsigned (h : Unsigned 4 o.sparseIndexEvery) : Unsigned 4 o.every :=
  max_lt h (show 1 < 256 ^ 4 by norm_num)

theorem anchors_typed {every : Nat} (ht : ∀ r ∈ rows, RecordCodec.Typed r) (hn : Unsigned 4 rows.length) :
    ∀ e ∈ anchors every rows, Signed 8 e.ts ∧ Unsigned 8 e.recordIdx := by
  intro e he
  obtain ⟨p, hp, rfl⟩ := List.mem_map.1 he
  have hmem := (stepBy_sublist every rows.zipIdx).subset hp
  obtain ⟨hlt, hrow⟩ := List.mem_zipIdx' hmem
  refine ⟨RecordCodec.ts_typed _ (ht p.1 ?_), Unsigned.word (lt_trans hlt hn)⟩
  rw [hrow]
  exact List.getElem_mem hlt

end ReadBack

section Laid

variable {t : RecordType} {rows : List t.Row} {m : SeriesMeta} {o : WriteChunkOptions} {f : ChunkFile} {c : ChunkMeta}
    {key : Text}

theorem Assembled.typed (ha : Assembled m rows o key (f, c)) (hw : WriteTyped m o)
    (ht : ∀ r ∈ rows, RecordCodec.Typed r) (hn : rows.length < 2 ^ 32) : f.header.Typed := by
  obtain ⟨rfl, -, hlen⟩ := ha.eq
  have hcount : Unsigned 4 rows.length := lt_of_lt_of_eq hn (by norm_num)
  have hindex : Unsigned 4 (anchors o.every rows).length := lt_of_le_of_lt (anchors_length_le o.every rows) hcount
  exact ⟨rfl, rfl, byteSize_unsigned t, schemaId_unsigned t, hw.seriesId, hw.chunkId, hw.generation.word,
    hw.timeframeMs, firstTs_typed ht ha.ne_nil, lastTs_typed ht ha.ne_nil, hcount.word, show 1 < 256 ^ 8 by norm_num,
    lt_trans hlen (show 2 ^ 63 < 256 ^ 8 by norm_num), hindex.word, (every_unsigned hw.sparseIndexEvery).word⟩

theorem Assembled.agrees (ha : Assembled m rows o key (f, c)) (hn : rows.length < 2 ^ 32) : AgreesWith c f := by
  obtain ⟨hf, rfl, -⟩ := ha.eq
  have hindexLen : f.header.indexLen < 2 ^ 32 := by
    rw [hf]
    exact lt_of_le_of_lt (anchors_length_le o.every rows) hn
  refine ⟨?_, ?_, rfl, rfl, rfl, rfl, rfl, ?_, rfl, Nat.mod_eq_of_lt hindexLen, by simp only [chunkMetaOf]⟩
  · rw [hf]
    rfl
  · rw [hf]
    rfl
  · rw [hf]
    rfl

/-- **A file that a writer assembled is read back.** -/
theorem Assembled.readBack (ha : Assembled m rows o key (f, c)) (hw : WriteTyped m o)
    (ht : ∀ r ∈ rows, RecordCodec.Typed r) (hn : rows.length < 2 ^ 32) : ReadBack f rows o.every := by
  have hheader := ha.typed hw ht hn
  obtain ⟨rfl, -, hlen⟩ := ha.eq
  have hholds := holds_chunkFileOf m o ha.ordered ha.ne_nil
    (lt_trans hlen (show 2 ^ 63 < u64Bound by unfold u64Bound; norm_num))
  have hcount : Unsigned 4 rows.length := lt_of_lt_of_eq hn (by norm_num)
  have hindexLen : (anchors o.every rows).length ≤ rows.length := anchors_length_le o.every rows
  have htoLe : (chunkFileOf m rows o (anchors o.every rows)).header.toLeBytes.length =
      (chunkFileOf m rows o (anchors o.every rows)).header.headerSize := by
    rw [hheader.toLeBytes_eq, List.length_append, ChunkHeader.length_startBytes, ChunkHeader.length_wordBytes]
    rfl
  generalize hrows : (rows.map FixedRecord.encode).flatMap Record.encodeLe = rowBytes
  have hrowLen : rowBytes.length = rows.length * FixedRecord.byteSize t.Row := hrows ▸ length_rowBytes ht
  generalize hindex : (anchors o.every rows).flatMap SparseIndexEntry.toLeBytes = indexBytes
  have hbytes : (chunkFileOf m rows o (anchors o.every rows)).bytes =
      (chunkFileOf m rows o (anchors o.every rows)).header.toLeBytes ++ (rowBytes ++ indexBytes) := by
    rw [← hrows, ← hindex, ← List.append_assoc]
    rfl
  have hentryLen : indexBytes.length = 16 * (anchors o.every rows).length := by
    rw [← hindex]
    exact length_flatMap_of_const (fun e => by simp [SparseIndexEntry.toLeBytes, length_leBytes]) _
  refine ⟨?_, rfl, rfl, rfl, fun i hi => ?_, anchors o.every rows, ?_, anchors_getElem? o.every_pos⟩
  · rw [hbytes, hheader.reads_header hholds.header_ok]
    rfl
  · have hrun := @run_flatMap _ (fun r => (FixedRecord.encode r).encodeLe) _ rows
      (fun r hr => RecordCodec.length_encode r (ht r hr)) indexBytes i hi
    have hflat : rows.flatMap (fun r => (FixedRecord.encode r).encodeLe) = rowBytes := by
      rw [← hrows, List.flatMap_map]
    rw [hflat] at hrun
    have hrec : recordBytes (chunkFileOf m rows o (anchors o.every rows)).bytes (chunkFileOf m rows o (anchors o.every rows)).header i =
        (FixedRecord.encode rows[i]).encodeLe := by
      unfold recordBytes
      rw [hbytes, ← List.drop_drop, List.drop_left' htoLe]
      exact hrun
    rw [hrec]
    exact RecordCodec.decode_encode _ (ht _ (List.getElem_mem hi))
  · have hne : (anchors o.every rows).length ≠ 0 := fun h0 => anchors_ne_nil ha.ne_nil (List.length_eq_zero_iff.1 h0)
    have hdrop : (chunkFileOf m rows o (anchors o.every rows)).bytes.drop
        (chunkFileOf m rows o (anchors o.every rows)).header.indexOffset = indexBytes := by
      rw [hbytes, ← List.append_assoc, List.drop_left' (by rw [List.length_append, htoLe, hrowLen]; rfl)]
    have hreads : Reads (times readSparseIndexEntry (anchors o.every rows).length) indexBytes (anchors o.every rows) := by
      rw [← hindex]
      exact Reads.times (fun e he => (reads_signed (anchors_typed ht hcount e he).1).bind
        ((reads_unsigned (anchors_typed ht hcount e he).2).andThen (reads_pure e)))
    have htake : take fileShort ((anchors o.every rows).length * 16) indexBytes = .ok (indexBytes, []) :=
      (reads_take (by rw [hentryLen, Nat.mul_comm])).whole
    have hdecode : decodeEntries indexBytes = .ok (anchors o.every rows) := by
      unfold decodeEntries
      rw [hentryLen, if_neg (by omega), Nat.mul_div_cancel_left _ (by decide), hreads.whole]
    unfold readSparseIndex
    rw [hdrop, if_neg, if_neg]
    · show (match take fileShort ((anchors o.every rows).length * 16) indexBytes with | .error e => _ | .ok (bytes, _) => _) = _
      rw [htake]
      exact hdecode
    · show ¬ u64Bound ≤ (anchors o.every rows).length * 16
      unfold u64Bound
      omega
    · rintro (hlt | hfl | hlen0)
      · exact absurd (show 2 < 2 from hlt) (by decide)
      · exact absurd (show (1 % 2 == 1) = false from hfl) (by decide)
      · exact hne hlen0

end Laid

/-- **The file of each writer is read back as it was written.** -/
theorem writeChunk_roundtrip :
    (∀ (m : SeriesMeta) (rows : List KlineRecord) (o : WriteChunkOptions) (f : ChunkFile) (c : ChunkMeta),
      WriteTyped m o →
      (∀ r ∈ rows, r.Typed) → rows.length < 2 ^ 32 → klineChunk m rows o = .ok (f, c) → ReadBack f rows o.every ∧
        AgreesWith c f) ∧
    (∀ (m : SeriesMeta) (rows : List ScalarRecord) (o : WriteChunkOptions) (f : ChunkFile) (c : ChunkMeta),
      WriteTyped m o →
      (∀ r ∈ rows, Signed 8 r.ts) → rows.length < 2 ^ 32 → scalarChunk m rows o = .ok (f, c) →
        ReadBack f rows o.every ∧ AgreesWith c f) ∧
    ∀ (t : RecordType) (m : SeriesMeta) (rows : List t.Row) (unit : PartitionUnit) (o : WriteChunkOptions)
    (f : ChunkFile) (c : ChunkMeta),
      WriteTyped m o → (∀ r ∈ rows, RecordCodec.Typed r) → rows.length < 2 ^ 32 →
        fixedChunk m rows unit o = .ok (f, c) →
      ReadBack f rows o.every ∧ AgreesWith c f := by
  refine ⟨fun m rows o f c hw ht hn h => ?_, fun m rows o f c hw ht hn h => ?_,
    fun t m rows unit o f c hw ht hn h => ?_⟩
  · obtain ⟨key, -, ha⟩ := klineChunk_assembled h
    exact ⟨Assembled.readBack (t := .kline) ha hw ht hn, Assembled.agrees (t := .kline) ha hn⟩
  · obtain ⟨key, -, ha⟩ := scalarChunk_assembled h
    exact ⟨Assembled.readBack (t := .scalar) ha hw ht hn, Assembled.agrees (t := .scalar) ha hn⟩
  · obtain ⟨key, -, -, ha⟩ := fixedChunk_assembled h
    exact ⟨ha.readBack hw ht hn, ha.agrees hn⟩

def sampleDelta (ts side : Int) : BookDeltaRecord := ⟨ts, ts + 1, 900, 123456, 7, side, 2, -5, 99⟩

def sampleDeltas : List BookDeltaRecord := [sampleDelta 60000 (-1), sampleDelta 60000 1, sampleDelta 61000 1]

def sampleBook : SeriesMeta where
  symbol := "BTCUSDT"
  category := "book"
  name := "l2"
  timeframeMs := 0
  recordType := .bookDelta
  recordSize := 48
  schemaId := bookDeltaSchemaId
  priceScale := 100
  volumeScale := 100
  chunkUnit := "hour"
  seriesId := 42
  manifestSeq := 1
  createdAt := 0
  updatedAt := 0
  flags := 0
  activeChunkId := none
  chunks := []

/-- Two deltas of one timestamp and a third, with an anchor for every row. -/
theorem writeChunk_roundtrip_sample : ∃ f c,
    fixedChunk (R := RecordType.bookDelta.Row) sampleBook sampleDeltas .hour
      ⟨1, 1, .sealed, "chunks/1970-01-01T00.chunk", 0⟩ = .ok (f, c) ∧
      ReadBack (R := RecordType.bookDelta.Row) f sampleDeltas 1 ∧ AgreesWith c f := by
  have hok : (fixedChunk (R := RecordType.bookDelta.Row) sampleBook sampleDeltas .hour
      ⟨1, 1, .sealed, "chunks/1970-01-01T00.chunk", 0⟩).toOption.isSome = true := by decide +kernel
  cases hc : fixedChunk (R := RecordType.bookDelta.Row) sampleBook sampleDeltas .hour
    ⟨1, 1, .sealed, "chunks/1970-01-01T00.chunk", 0⟩ with
  | error e =>
    rw [hc] at hok
    cases hok
  | ok p =>
    obtain ⟨f, c⟩ := p
    have htyped : ∀ r ∈ sampleDeltas, r.Typed := by
      intro r hr
      simp only [sampleDeltas, List.mem_cons, List.not_mem_nil, or_false] at hr
      rcases hr with rfl | rfl | rfl
      · exact ⟨by decide, by decide, by decide, by decide, by decide, by decide, by decide, by decide, by decide⟩
      · exact ⟨by decide, by decide, by decide, by decide, by decide, by decide, by decide, by decide, by decide⟩
      · exact ⟨by decide, by decide, by decide, by decide, by decide, by decide, by decide, by decide, by decide⟩
    exact ⟨f, c, rfl, writeChunk_roundtrip.2.2 .bookDelta sampleBook sampleDeltas .hour _ f c
      ⟨by decide, by decide, by decide, by decide, by decide⟩ htyped (by decide) hc⟩

end FastK
