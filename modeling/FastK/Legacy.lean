import FastK.Manifest
import FastK.ManifestCodec
/-!
# The bytes of a manifest

A manifest file holds the encoding of a manifest, or the JSON that stores were first written with.  A load that may
write migrates the JSON (`migrate_legacy_json`) and saves what it made of it; a read-only load refuses it.
-/
namespace FastK

structure LegacyChunkMeta where
  fileName : Text
  startTs : Int
  endTs : Int
  count : Nat
  deriving DecidableEq, Repr

structure LegacySeriesMeta where
  symbol : Text
  category : Text
  name : Text
  timeframeMs : Int
  recordSize : Nat
  schemaId : Nat
  priceScale : Int
  volumeScale : Int
  chunkUnit : Text
  seriesId : Nat
  chunks : List LegacyChunkMeta
  deriving DecidableEq, Repr

/-- What a manifest file holds: the bytes after the magic, decoded; JSON; or bytes that neither decoder accepts. -/
inductive ManifestBytes where
  | binary (m : SeriesMeta)
  | json (legacy : LegacySeriesMeta)
  | undecodable (error : FastKError)
  deriving DecidableEq, Repr

/-- `load_series_meta_shared_mode` of a read-only store: the manifest that passes its check. -/
def ManifestBytes.decode : ManifestBytes → Result SeriesMeta
  | .binary m => checked m
  | .json _ => .error (.invalidInput "legacy JSON manifest requires explicit writable migration")
  | .undecodable e => .error e

/-- What the bytes of a manifest file hold; `parse` is the parser of the JSON. -/
def manifestBytes (parse : List Nat → Result LegacySeriesMeta) (bytes : List Nat) : ManifestBytes :=
  if manifestMagic.isPrefixOf bytes then
    match decodeManifest bytes with
    | .error e => .undecodable e
    | .ok m => .binary m
  else
    match parse bytes with
    | .error e => .undecodable e
    | .ok legacy => .json legacy

/-- **What is saved is loaded.** -/
theorem manifestBytes_saved (parse : List Nat → Result LegacySeriesMeta) {m : SeriesMeta} {bytes : List Nat}
    (h : m.Typed) (hactive : m.activeChunkId ≠ some 0) (hn : m.Countable) (hsave : encodeManifest m = .ok bytes) :
    (manifestBytes parse bytes).decode = .ok m := by
  have hok : ¬ (m.validate ≠ .ok () ∨ ∃ t ∈ m.strings, ¬ Short t) := by
    rw [← encodeManifest_fails, hsave]
    rintro ⟨e, he⟩
    cases he
  push Not at hok
  obtain ⟨body, hput, hdecode⟩ := decodeManifest_encoded h hactive hn hok.2
  have hbytes : bytes = manifestHeader m body ++ body := by
    unfold encodeManifest at hsave
    rw [hok.1, hput] at hsave
    exact (Except.ok.inj hsave).symm
  have hmagic : manifestMagic.isPrefixOf bytes = true := by
    rw [hbytes, List.isPrefixOf_iff_prefix]
    simp [manifestHeader]
  unfold manifestBytes
  rw [if_pos hmagic, hbytes, hdecode]
  exact checked_eq_ok.2 ⟨hok.1, rfl⟩

/-- The entry of the chunk at an index of the JSON. -/
def migrateChunk (index : Nat) (chunk : LegacyChunkMeta) : Result ChunkMeta :=
  match monthKey chunk.startTs with
  | .error e => .error e
  | .ok key =>
    .ok {
      chunkId := index + 1
      monthKey := key
      startTs := chunk.startTs
      endTs := chunk.endTs
      count := chunk.count
      state := .sealed
      layoutVersion := 1
      headerLen := 88
      sparseIndexEvery := defaultSparseIndexEvery
      sparseIndexOffset := 0
      sparseIndexLen := 0
      chunkChecksum := 0
      generation := 1
      relativePath := chunkRelativePath chunk.fileName
      sidecars := [] }

def migrateLegacyJson (now : Int) (legacy : LegacySeriesMeta) : Result SeriesMeta :=
  match collect (fun p => migrateChunk p.2 p.1) legacy.chunks.zipIdx with
  | .error e => .error e
  | .ok chunks =>
    checked {
      symbol := legacy.symbol
      category := legacy.category
      name := legacy.name
      timeframeMs := legacy.timeframeMs
      recordType := .kline
      recordSize := legacy.recordSize
      schemaId := legacy.schemaId
      priceScale := legacy.priceScale
      volumeScale := legacy.volumeScale
      chunkUnit := legacy.chunkUnit
      seriesId := legacy.seriesId
      manifestSeq := 1
      createdAt := now
      updatedAt := now
      flags := 0
      activeChunkId := none
      chunks := chunks }

theorem ManifestBytes.decode_binary {m : SeriesMeta} (hv : m.validate = .ok ()) :
    (ManifestBytes.binary m).decode = .ok m :=
  checked_eq_ok.2 ⟨hv, rfl⟩

theorem ManifestBytes.decode_ok {b : ManifestBytes} {m : SeriesMeta} (h : b.decode = .ok m) :
    b = .binary m ∧ m.validate = .ok () := by
  cases b with
  | binary m' =>
    obtain ⟨hv, rfl⟩ := checked_eq_ok.1 h
    exact ⟨rfl, hv⟩
  | json legacy => cases h
  | undecodable e => cases h

theorem migrateLegacyJson_valid {now : Int} {legacy : LegacySeriesMeta} {m : SeriesMeta}
    (h : migrateLegacyJson now legacy = .ok m) :
    m.validate = .ok () := by
  unfold migrateLegacyJson at h
  cases hc : collect (fun p => migrateChunk p.2 p.1) legacy.chunks.zipIdx with
  | error e => rw [hc] at h; cases h
  | ok chunks =>
    rw [hc] at h
    obtain ⟨hv, rfl⟩ := checked_eq_ok.1 h
    exact hv

end FastK
