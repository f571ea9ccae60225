import FastK.Latest
import FastK.Replay
import FastK.Sequences
import FastK.FileCache
import FastK.SidecarCache
import FastK.Discovery
import FastK.Writers
import FastK.Names
/-!
# Isolation of series

A series is named by a symbol, a category and a name, which may be any texts that are not blank.  Its files lie in the
directory of the three joined as paths, a handle keeps its manifest under the three joined with colons, and the
layouts and files of its chunks under an id that is a hash of the same text; the handles of a process share the
manifests that one of them has loaded or saved, by the texts of their paths (`storage/path.rs`, `storage/manifest.rs`,
`chunk/cache.rs`, `engine/store.rs`). No write to a series is seen by a read of another, and no read depends on what
the handle has done with other series, exactly where the directories are not `series/` itself, lie not in one another,
and no two series have the same id (`isolated_iff`).  Names go down.
-/
namespace FastK

open Journal

/-! ## Reads -/

/-- The reads of a series. -/
inductive SeriesRead where
  | metadata
  | klineAt (ts : Int)
  | klineRange (startTs endTs : Int)
  | klineLatestN (n : Nat)
  | scalarAt (ts : Int)
  | scalarRange (startTs endTs : Int)
  | scalarPredicate (startTs endTs : Int) (predicate : ScalarPredicateExpr) (returnValues : Bool)
  | fixedRange (k : FixedKind) (startTs endTs : Int)
  | fixedLatestN (k : FixedKind) (n : Nat)
  | fixedSequence (k : FixedKind) (startTs endTs : Int)
  /-- A replay, and batches of the given sizes from it. -/
  | replay (t : RecordType) (options : ReplayOptions) (sizes : List Nat)

namespace SeriesRead

abbrev Answer : SeriesRead → Type
  | .metadata => SeriesMeta
  | .klineAt _ => Option KlineRecord
  | .klineRange .. => List KlineRecord
  | .klineLatestN _ => List KlineRecord
  | .scalarAt _ => Option ScalarRecord
  | .scalarRange .. => List ScalarRecord
  | .scalarPredicate .. => ScalarPredicateQueryResult
  | .fixedRange k .. => List k.Row
  | .fixedLatestN k _ => List k.Row
  | .fixedSequence .. => SequenceScanReport
  | .replay t .. => List (List t.Row)

def scanSequence (k : FixedKind) (sd : SeriesDir) (key : ScalarSeriesKey) (startTs endTs : Int) :
    Result SequenceScanReport :=
  match k with
  | .trade => scanFixedSequence TradeRecord sd key.symbol key.category key.name startTs endTs
  | .bbo => scanFixedSequence BboRecord sd key.symbol key.category key.name startTs endTs
  | .bookDelta => scanFixedSequence BookDeltaRecord sd key.symbol key.category key.name startTs endTs

/-- The read of a series whose directory is as given. -/
def run (threads : Nat) (key : ScalarSeriesKey) (sd : SeriesDir) : (r : SeriesRead) → Result r.Answer
  | .metadata => sd.loadSeriesMeta
  | .klineAt ts => getKlineAt sd ts
  | .klineRange startTs endTs => getKlineRange threads sd startTs endTs
  | .klineLatestN n => getKlineLatestN threads sd n
  | .scalarAt ts => getScalarAt sd ts
  | .scalarRange startTs endTs => getScalarRange threads sd startTs endTs
  | .scalarPredicate startTs endTs predicate returnValues => queryScalarPredicate sd
      ⟨key, startTs, endTs, predicate, returnValues⟩
  | .fixedRange k startTs endTs => getFixedRange k.Row sd startTs endTs
  | .fixedLatestN k n => getFixedLatestN k.Row sd n
  | .fixedSequence k startTs endTs => scanSequence k sd key startTs endTs
  | .replay t options sizes =>
    match FastK.replay t.Row sd options with
    | .error e => .error e
    | .ok cursor => readBatches sd sizes cursor

/-- The chunks whose files the read opens for itself: those of a replay, and those a query reads by their zone map. -/
def direct : SeriesRead → ChunkMeta → Bool
  | .scalarPredicate _ _ predicate _, c =>
    !(predicate.isDiscreteLookupLike && hasSidecarKind c vixKind) && (predicate.isContinuousRangeLike &&
      hasSidecarKind c zmapKind)
  | .replay .., _ => true
  | _, _ => false

end SeriesRead

/-! ## What a handle keeps -/

/-- `ChunkCacheKey::from_meta`. -/
def ChunkCacheKey.fromMeta (c : ChunkMeta) (seriesId : Nat) : ChunkCacheKey :=
  ⟨c.chunkId, c.generation, seriesId, c.relativePath⟩

/-- The key of a sidecar; the path in it is the whole one, of which the directory is kept apart here. -/
def sidecarCacheKey (d : Dir) (c : ChunkMeta) (s : SidecarMeta) : Dir × SidecarCacheKey :=
  (d, ⟨c.generation, s.checksum, s.relativePath⟩)

/-- The caches of a handle: manifests by `series_cache_key`, those that it shares with the other handles of its
process by the texts of their paths, the chunk files that layouts were read from, the chunk files that are open, and
sidecars. -/
structure ReadCaches where
  manifests : Text → Option SeriesMeta
  shared : Text → Option SeriesMeta
  layouts : ChunkCacheKey → Option ChunkFile
  files : ChunkCacheKey → Option ChunkFile
  sidecars : Dir × SidecarCacheKey → Option FileBody

namespace ReadCaches

/-- Those of a handle that has just been opened, in a process that has these manifests. -/
def opened (shared : Text → Option SeriesMeta) : ReadCaches :=
  ⟨fun _ => none, shared, fun _ => none, fun _ => none, fun _ => none⟩

/-- In a process that has none. -/
abbrev fresh : ReadCaches := opened (fun _ => none)

/-- `load_kline_meta`, `load_scalar_meta` and `load_fixed_meta` of a handle that may write: its own entry, else that
of the process, for which the file is not looked at, else the file. -/
def loadMeta (h : ReadCaches) (s : Store) (key : ScalarSeriesKey) : Result SeriesMeta :=
  match h.manifests key.cacheKey with
  | some m => .ok m
  | none => metaFor (h.shared key.metaPath) (s.dirs key.dir)

/-- What is cached of a chunk: the open file, else the one on disk, with the header and the sparse index of the
layout. -/
def chunkBody (h : ReadCaches) (sd : SeriesDir) (c : ChunkMeta) (seriesId : Nat) : Option FileBody :=
  match h.files (.fromMeta c seriesId), h.layouts (.fromMeta c seriesId) with
  | none, none => none
  | some f, none => some (.chunk f)
  | some f, some l => some (.chunk { f with header := l.header, index := l.index })
  | none, some l =>
    (sd.lookup c.relativePath).map (fun
      | .chunk f => .chunk { f with header := l.header, index := l.index }
      | body => body)

/-- The name of the file at a path of a manifest. -/
def fileName (relativePath : Text) : Text := relativePath.drop "chunks/".length

/-- The files that the handle does not look for on disk. -/
def overlay (h : ReadCaches) (sd : SeriesDir) (d : Dir) (m : SeriesMeta) (direct : ChunkMeta → Bool) :
    List (Text × FileBody) :=
  m.chunks.flatMap (fun c =>
    (if direct c then []
      else ((h.chunkBody sd c m.seriesId).map (fun body => (fileName c.relativePath, body))).toList) ++
      c.sidecars.filterMap (fun s => (h.sidecars (sidecarCacheKey d c s)).map (fun body =>
        (fileName s.relativePath, body))))

/-- The directory of a series as the handle sees it. -/
def seen (h : ReadCaches) (s : Store) (key : ScalarSeriesKey) (direct : ChunkMeta → Bool) : SeriesDir :=
  let sd := s.dirs key.dir
  match h.loadMeta s key with
  | .error _ => sd
  | .ok m => { sd with manifest := .current m, files := h.overlay sd key.dir m direct ++ sd.files }

end ReadCaches

/-- The read on the handle. -/
def SeriesRead.on (threads : Nat) (h : ReadCaches) (s : Store) (key : ScalarSeriesKey) (r : SeriesRead) :
    Result r.Answer :=
  r.run threads key (h.seen s key r.direct)

namespace ReadCaches

/-- A file that a read opens for a chunk under its key: the one that is open already, or the one on disk. -/
def Opens (h : ReadCaches) (s : Store) (key : ScalarSeriesKey) (k : ChunkCacheKey) (f : ChunkFile) : Prop :=
  ∃ m c, h.loadMeta s key = .ok m ∧ c ∈ m.chunks ∧ k = .fromMeta c m.seriesId ∧
    (h.files k = some f ∨ (s.dirs key.dir).lookup c.relativePath = some (.chunk f))

/-- A sidecar that a read loads. -/
def LoadsSidecar (h : ReadCaches) (s : Store) (key : ScalarSeriesKey) (p : Dir × SidecarCacheKey)
    (body : FileBody) : Prop :=
  ∃ m c sidecar, h.loadMeta s key = .ok m ∧ c ∈ m.chunks ∧ sidecar ∈ c.sidecars ∧
    p = sidecarCacheKey key.dir c sidecar ∧
    (s.dirs key.dir).lookup sidecar.relativePath = some body

/-- A read of the series leaves what was cached and what it loaded, as far as neither has been evicted. -/
structure Reads (h : ReadCaches) (s : Store) (key : ScalarSeriesKey) (h' : ReadCaches) : Prop where
  manifests : ∀ k m, h'.manifests k = some m → h.manifests k = some m ∨ k = key.cacheKey ∧ h.loadMeta s key = .ok m
  shared : ∀ k m, h'.shared k = some m → h.shared k = some m ∨ k = key.metaPath ∧
    (s.dirs key.dir).loadSeriesMeta = .ok m
  layouts : ∀ k f, h'.layouts k = some f → h.layouts k = some f ∨ h.Opens s key k f
  files : ∀ k f, h'.files k = some f → h.files k = some f ∨ h.Opens s key k f
  sidecars : ∀ p body, h'.sidecars p = some body → h.sidecars p = some body ∨ h.LoadsSidecar s key p body

end ReadCaches

/-- A chunk file that a call reads: one of its series, in some state that the call passes. -/
def Call.Opens (env : Env) (c : Call) (s : Store) (k : ChunkCacheKey) (f : ChunkFile) : Prop :=
  ∃ key ks m chunk, c.key = some key ∧ ks <+: (c.run env).trace s ∧ ((exec ks s).dirs key.dir).manifest = .current m ∧
    chunk ∈ m.chunks ∧
    k = .fromMeta chunk m.seriesId ∧ ((exec ks s).dirs key.dir).lookup chunk.relativePath = some (.chunk f)

/-- The manifests that a call loads once it has dropped what was cached. -/
def Call.found (env : Env) (c : Call) (s : Store) : List (ScalarSeriesKey × SeriesMeta) :=
  (c.loads s).filterMap (fun key =>
    (((c.enter env).final s).dirs key.dir).loadSeriesMeta.toOption.map (fun m => (key, m)))

/-- Those that it saves from then on. -/
def Call.saved (env : Env) (c : Call) (s : Store) : List (Dir × SeriesMeta) :=
  savedManifests (((c.run env).trace s).drop ((c.enter env).trace s).length)

/-- What its process has after a call.  `invalidate_root` leaves no entry whose path begins with the root, and where
names go down every path does; then come the manifests that the call loads, under the path of its names, and those
that it saves, under that of their own. -/
def Call.shares (env : Env) (c : Call) (s : Store) (shared : Text → Option SeriesMeta) : Text → Option SeriesMeta :=
  if c.clears env s then
    lastEntry ((c.found env s).map (fun f => (f.1.metaPath, f.2)) ++ (c.saved env s).map (fun f =>
      (f.2.key.metaPath, f.2)))
  else shared

/-- A call on the handle drops what is cached, once it has the lock, and leaves the manifests it loads under the names
of the call, those it saves under their own, and the chunk files it reads. -/
structure ReadCaches.Writes (h : ReadCaches) (env : Env) (c : Call) (s : Store) (h' : ReadCaches) : Prop where
  manifests : ∀ k m, h'.manifests k = some m → c.clears env s = false ∧ h.manifests k = some m ∨
    (∃ key ∈ c.loads s, k = key.cacheKey ∧ (((c.enter env).final s).dirs key.dir).loadSeriesMeta = .ok m) ∨
    k = m.cacheKey ∧ ∃ d, (d, m) ∈ savedManifests ((c.run env).trace s)
  shared : h'.shared = c.shares env s h.shared
  layouts : ∀ k f, h'.layouts k = some f → c.clears env s = false ∧ h.layouts k = some f ∨ c.Opens env s k f
  files : ∀ k f, h'.files k = some f → c.clears env s = false ∧ h.files k = some f ∨ c.Opens env s k f
  sidecars : ∀ p body, h'.sidecars p = some body → c.clears env s = false ∧ h.sidecars p = some body

/-! ## Work on some series -/

def ScalarSeriesKey.seriesId (key : ScalarSeriesKey) : Nat := seriesIdFor key.symbol key.category key.name

/-- The call loads manifests of these series only, and each is used through the calls of one record type. -/
structure Call.Among (typeOf : ScalarSeriesKey → RecordType) (keys : List ScalarSeriesKey) (s : Store)
    (c : Call) : Prop where
  typed : ∀ key, c.key = some key → c.recordType = typeOf key
  listed : ∀ key ∈ c.loads s, key ∈ keys

/-- The stores that calls on these series build, accepted or not, on any handles. -/
inductive Worked (root : Dir) (typeOf : ScalarSeriesKey → RecordType) (keys : List ScalarSeriesKey) : Store → Prop
  | start : Worked root typeOf keys (Store.empty root)
  | call {s : Store} (env : Env) (c : Call) (h : Worked root typeOf keys s) (hok : Sound env c s)
      (hc : c.Among typeOf keys s) :
    Worked root typeOf keys ((c.run env).final s)

/-- A handle that has been opened on such a store, and has read and written series other than `b` since.  Other
handles of its process and of others read and write meanwhile; once this one has the manifest of `b`, as a scalar
append takes a timeframe from its klines, they leave `b` alone, and other processes do while its process has it. -/
inductive Warm (root : Dir) (typeOf : ScalarSeriesKey → RecordType) (keys : List ScalarSeriesKey)
    (b : ScalarSeriesKey) : Store → ReadCaches → Prop
  | opened {s : Store} (h : Worked root typeOf keys s) : Warm root typeOf keys b s .fresh
  /-- Another handle of the process takes its place, or it drops its caches. -/
  | reopened {s : Store} {h : ReadCaches} (hw : Warm root typeOf keys b s h) :
      Warm root typeOf keys b s (.opened h.shared)
  | read {s : Store} {h h' : ReadCaches} (hw : Warm root typeOf keys b s h) (key : ScalarSeriesKey)
      (hkey : key ∈ keys) (hne : key ≠ b) (hr : h.Reads s key h') : Warm root typeOf keys b s h'
  | write {s : Store} {h h' : ReadCaches} (hw : Warm root typeOf keys b s h) (env : Env) (c : Call)
      (hok : Sound env c s) (hc : c.Among typeOf keys s) (hne : c.key ≠ some b) (hr : h.Writes env c s h') :
      Warm root typeOf keys b ((c.run env).final s) h'
  /-- A handle of the process loads a manifest from its file: a read, a listing, a recovery. -/
  | loaded {s : Store} {h : ReadCaches} (hw : Warm root typeOf keys b s h) (key : ScalarSeriesKey) (hkey : key ∈ keys)
      (m : SeriesMeta) (hm : (s.dirs key.dir).loadSeriesMeta = .ok m) :
      Warm root typeOf keys b s { h with shared := Function.update h.shared key.metaPath (some m) }
  /-- The process drops what it shares: a handle that only reads is opened, or a recovery begins. -/
  | dropped {s : Store} {h : ReadCaches} (hw : Warm root typeOf keys b s h) :
      Warm root typeOf keys b s { h with shared := fun _ => none }
  /-- Another handle of the process writes. -/
  | beside {s : Store} {h : ReadCaches} (hw : Warm root typeOf keys b s h) (env : Env) (c : Call)
      (hok : Sound env c s) (hc : c.Among typeOf keys s) (hne : c.key = some b → h.manifests b.cacheKey = none) :
      Warm root typeOf keys b ((c.run env).final s) { h with shared := c.shares env s h.shared }
  /-- Another process writes. -/
  | elsewhere {s : Store} {h : ReadCaches} (hw : Warm root typeOf keys b s h) (env : Env) (c : Call)
      (hok : Sound env c s) (hc : c.Among typeOf keys s)
      (hne : c.key = some b → h.manifests b.cacheKey = none ∧ h.shared b.metaPath = none) :
      Warm root typeOf keys b ((c.run env).final s) h

/-- Each series has a directory of its own strictly inside `series/`, not nested in another; a call, on whatever
handle, changes no read of a series other than its own; and a handle that has used other series reads a series as one
that has just been opened does. -/
structure Isolated (keys : List ScalarSeriesKey) : Prop where
  inside : ∀ key ∈ keys, key.dir ≠ [] ∧ leavesSeries key.dir = false
  apart : ∀ a ∈ keys, ∀ b ∈ keys, a ≠ b → ¬ a.dir <+: b.dir
  writes : ∀ root typeOf, ∀ b ∈ keys, ∀ s h, Warm root typeOf keys b s h → ∀ env c, Sound env c s →
    c.Among typeOf keys s → c.key ≠ some b →
    ∀ h', Warm root typeOf keys b ((c.run env).final s) h' →
      ∀ threads (r : SeriesRead), r.on threads h' ((c.run env).final s) b = r.on threads h s b
  handles : ∀ root typeOf, ∀ b ∈ keys, ∀ s h, Warm root typeOf keys b s h →
    ∀ threads (r : SeriesRead), r.on threads h s b = r.run threads b (s.dirs b.dir)

/-- The directories lie strictly inside `series/` and not in one another, and the ids are different. -/
structure Separate (keys : List ScalarSeriesKey) : Prop where
  inside : ∀ key ∈ keys, key.dir ≠ [] ∧ leavesSeries key.dir = false
  apart : ∀ a ∈ keys, ∀ b ∈ keys, a ≠ b → ¬ a.dir <+: b.dir
  ids : ∀ a ∈ keys, ∀ b ∈ keys, a ≠ b → a.seriesId ≠ b.seriesId

/-! ## The series of a store -/

/-- The manifest is one of the series. -/
structure SeriesMeta.IsOf (m : SeriesMeta) (key : ScalarSeriesKey) (t : RecordType) : Prop where
  key_eq : m.key = key
  recordType_eq : m.recordType = t
  coined : m.Coined

/-- The store is in order, and what lies in the directory of a series is that series. -/
structure Owned (typeOf : ScalarSeriesKey → RecordType) (keys : List ScalarSeriesKey) (s : Store) : Prop where
  good : ∃ C, GoodStore C s
  owner : ∀ key ∈ keys, ∀ m, (s.dirs key.dir).manifest = .current m → m.IsOf key (typeOf key)

section Owned

variable {root : Dir} {typeOf : ScalarSeriesKey → RecordType} {keys : List ScalarSeriesKey} {s : Store} {env : Env}
    {c : Call} {key a b : ScalarSeriesKey}
  {m m' : SeriesMeta} {t : RecordType}

/-- Series of one cache key have one id. -/
theorem seriesId_congr (h : a.cacheKey = b.cacheKey) : a.seriesId = b.seriesId :=
  congrArg (fun text : Text => checksum64 (text.flatMap (fun c => (String.utf8EncodeChar c).map UInt8.toNat))) h

theorem Separate.key_of_dir (h : Separate keys) (ha : a ∈ keys) (hb : b ∈ keys) (hd : a.dir = b.dir) : a = b := by
  by_contra hne
  exact h.apart a ha b hb hne (hd ▸ List.prefix_refl _)

theorem Separate.key_of_id (h : Separate keys) (ha : a ∈ keys) (hb : b ∈ keys)
    (hid : a.seriesId = b.seriesId) : a = b := by
  by_contra hne
  exact h.ids a ha b hb hne hid

/-- Where names go down, a path is that of one series. -/
theorem Separate.key_of_metaPath (h : Separate keys) (hdown : ∀ key ∈ keys, key.GoesDown) (ha : a ∈ keys)
    (hb : b ∈ keys) (hp : a.metaPath = b.metaPath) : a = b :=
  h.key_of_dir ha hb ((hdown a ha).dir_of_metaPath (hdown b hb) hp)

theorem Separate.key_of_cacheKey (h : Separate keys) (ha : a ∈ keys) (hb : b ∈ keys)
    (hk : a.cacheKey = b.cacheKey) : a = b :=
  h.key_of_id ha hb (seriesId_congr hk)

namespace SeriesMeta.IsOf

theorem sameHead (h : m.IsOf key t) (hh : m.SameHead m') : m'.IsOf key t where
  key_eq := by
    rw [hh]
    exact h.key_eq
  recordType_eq := hh.recordType.trans h.recordType_eq
  coined := by
    rw [hh]
    exact h.coined

theorem seriesId_eq (h : m.IsOf key t) : m.seriesId = key.seriesId := by
  rw [← h.key_eq]
  exact h.coined

theorem cacheKey_eq (h : m.IsOf key t) : m.cacheKey = key.cacheKey := by
  rw [← h.key_eq]
  rfl

end SeriesMeta.IsOf

theorem Call.mem_loads (h : c.key = some key) (s : Store) : key ∈ c.loads s := by
  cases c with
  | appendScalarRange key' records timeframeMs =>
    obtain rfl := Option.some.inj h
    cases timeframeMs with
    | some tf => exact List.mem_cons_self
    | none =>
      simp only [Call.loads]
      split <;> exact List.mem_cons_self
  | _ =>
    simp only [Call.loads, Option.mem_toList]
    exact h

theorem Call.Among.key_mem (h : c.Among typeOf keys s) (hk : c.key = some key) : key ∈ keys :=
  h.listed key (c.mem_loads hk s)

theorem Owned.regular (h : Owned typeOf keys s) (hacc : ∀ key ∈ keys, key.isBlank = false) (hok : Sound env c s)
    (hc : c.Among typeOf keys s) :
    c.Regular s where
  typed := Call.typed_of (fun key hk m hm =>
    (h.owner key (hc.key_mem hk) m hm).recordType_eq.trans (hc.typed key hk).symm)
  named := by
    cases c with
    | putScalar key timeframeMs records blockSize => exact fun _ => hacc key (hc.key_mem rfl)
    | appendScalar key timeframeMs records blockSize => exact fun _ => hacc key (hc.key_mem rfl)
    | _ => trivial
  unaliased := Call.unaliased_of (fun key hk m hm => (h.owner key (hc.key_mem hk) m hm).key_eq)
  fits := hok.fits

/-- A call works in the directory of its series, on manifests of that series. -/
theorem Owned.within (h : Owned typeOf keys s) (hacc : ∀ key ∈ keys, key.isBlank = false) (hok : Sound env c s)
    (hc : c.Among typeOf keys s) (hk : c.key = some key) :
    ∃ m new, m.IsOf key (typeOf key) ∧ Headed key.dir m new s ∧ ∀ k ∈ (c.run env).trace s, k.Within key.dir m := by
  obtain ⟨C, hg⟩ := h.good
  obtain ⟨m, ⟨new, hfinds, hnew⟩, hwithin⟩ := Call.run_within hg (h.regular hacc hok hc).typed hk env
  refine ⟨m, new, ?_, hfinds.headed, hwithin⟩
  rcases hfinds.placed with hp | hn
  · cases hg.dir key.dir with
    | empty hmiss _ =>
      rw [hmiss] at hp
      cases hp
    | @series m₀ hm₀ _ =>
      obtain rfl := hfinds.same m₀ hm₀
      exact h.owner key (hc.key_mem hk) m hm₀
  · obtain ⟨-, hkey, ht⟩ := hfinds.made hn
    exact ⟨hkey, ht.trans (hc.typed key hk), hnew hn⟩

/-- **A call leaves the directories of the other series as they are.** -/
theorem Owned.untouched (h : Owned typeOf keys s) (hsep : Separate keys) (hacc : ∀ key ∈ keys, key.isBlank = false)
    (hok : Sound env c s) (hc : c.Among typeOf keys s) (hb : b ∈ keys) (hne : c.key ≠ some b) :
    ((c.run env).final s).dirs b.dir = s.dirs b.dir := by
  cases hk : c.key with
  | none =>
    obtain ⟨C, hg⟩ := h.good
    exact (exec_within_all (s := s) (fun d m => Call.run_within_none hg hk env d m) b.dir).1
  | some key =>
    obtain ⟨m, new, -, -, hwithin⟩ := h.within hacc hok hc hk
    refine exec_within hwithin (fun hd => hne ?_) s
    rw [hk, hsep.key_of_dir hb (hc.key_mem hk) hd]

theorem Owned.step (h : Owned typeOf keys s) (hsep : Separate keys) (hacc : ∀ key ∈ keys, key.isBlank = false)
    (hok : Sound env c s) (hc : c.Among typeOf keys s) : Owned typeOf keys ((c.run env).final s) where
  good := by
    obtain ⟨C, hg⟩ := h.good
    exact ⟨_, Call.run_good (hg.of_room hok.room) (by decide) hok.faultless (h.regular hacc hok hc)⟩
  owner key hkey m hm := by
    by_cases hk : c.key = some key
    · obtain ⟨m₀, new, hof, hhead, hwithin⟩ := h.within hacc hok hc hk
      exact hof.sameHead ((hhead.exec hwithin).head m hm)
    · rw [h.untouched hsep hacc hok hc hkey hk] at hm
      exact h.owner key hkey m hm

theorem Worked.owned (h : Worked root typeOf keys s) (hsep : Separate keys)
    (hacc : ∀ key ∈ keys, key.isBlank = false) : Owned typeOf keys s := by
  induction h with
  | start => exact ⟨⟨0, goodStore_empty root⟩, fun key _ m hm => by cases hm⟩
  | call env c _ hok hc ih => exact ih.step hsep hacc hok hc

end Owned

/-! ## What is cached of the others -/

/-- What the process shares is of the series it says, and what it has of `b` is as on disk. -/
structure Fresh (typeOf : ScalarSeriesKey → RecordType) (keys : List ScalarSeriesKey) (b : ScalarSeriesKey) (s : Store)
    (shared : Text → Option SeriesMeta) : Prop where
  named : ∀ key ∈ keys, ∀ m, shared key.metaPath = some m → m.IsOf key (typeOf key)
  current : ∀ m, shared b.metaPath = some m → (s.dirs b.dir).manifest = .current m

/-- What the handle has cached is of the series it says, the manifest of `b` is as on disk, and nothing else is of
`b`. -/
structure Unmixed (typeOf : ScalarSeriesKey → RecordType) (keys : List ScalarSeriesKey) (b : ScalarSeriesKey)
    (s : Store) (h : ReadCaches) : Prop where
  named : ∀ key ∈ keys, ∀ m, h.manifests key.cacheKey = some m → m.IsOf key (typeOf key)
  current : ∀ m, h.manifests b.cacheKey = some m → (s.dirs b.dir).manifest = .current m
  shared : Fresh typeOf keys b s h.shared
  layouts : ∀ k f, h.layouts k = some f → k.seriesId ≠ b.seriesId
  files : ∀ k f, h.files k = some f → k.seriesId ≠ b.seriesId
  sidecars : ∀ p body, h.sidecars p = some body → p.1 ≠ b.dir

section Unmixed

variable {root : Dir} {typeOf : ScalarSeriesKey → RecordType} {keys : List ScalarSeriesKey} {s : Store} {env : Env}
    {c : Call} {key b : ScalarSeriesKey}
  {h h' : ReadCaches} {m : SeriesMeta}

theorem fresh_none : Fresh typeOf keys b s (fun _ => none) where
  named key _ m hm := by cases hm
  current m hm := by cases hm

theorem unmixed_opened {shared : Text → Option SeriesMeta} (h : Fresh typeOf keys b s shared) :
    Unmixed typeOf keys b s (.opened shared) where
  named key _ m hm := by cases hm
  current m hm := by cases hm
  shared := h
  layouts k f hf := by cases hf
  files k f hf := by cases hf
  sidecars p body hp := by cases hp

theorem Unmixed.loadMeta_of (hu : Unmixed typeOf keys b s h) (ho : Owned typeOf keys s) (hkey : key ∈ keys)
    (hm : h.loadMeta s key = .ok m) :
    m.IsOf key (typeOf key) := by
  unfold ReadCaches.loadMeta at hm
  cases hc : h.manifests key.cacheKey with
  | some m' =>
    rw [hc] at hm
    obtain rfl := Except.ok.inj hm
    exact hu.named key hkey m' hc
  | none =>
    rw [hc] at hm
    cases hp : h.shared key.metaPath with
    | some m' =>
      rw [hp] at hm
      obtain rfl := Except.ok.inj hm
      exact hu.shared.named key hkey m' hp
    | none =>
      rw [hp] at hm
      exact ho.owner key hkey m (SeriesDir.loadSeriesMeta_eq_ok hm).1

theorem Unmixed.loadMeta_current (hu : Unmixed typeOf keys b s h) (hm : h.loadMeta s b = .ok m) :
    (s.dirs b.dir).manifest = .current m := by
  unfold ReadCaches.loadMeta at hm
  cases hc : h.manifests b.cacheKey with
  | some m' =>
    rw [hc] at hm
    obtain rfl := Except.ok.inj hm
    exact hu.current m' hc
  | none =>
    rw [hc] at hm
    cases hp : h.shared b.metaPath with
    | some m' =>
      rw [hp] at hm
      obtain rfl := Except.ok.inj hm
      exact hu.shared.current m' hp
    | none =>
      rw [hp] at hm
      exact (SeriesDir.loadSeriesMeta_eq_ok hm).1

/-- **The handle sees the directory as it is.** -/
theorem Unmixed.seen_eq (hu : Unmixed typeOf keys b s h) (ho : Owned typeOf keys s) (hb : b ∈ keys)
    (direct : ChunkMeta → Bool) :
    h.seen s b direct = s.dirs b.dir := by
  unfold ReadCaches.seen
  cases hm : h.loadMeta s b with
  | error e => rfl
  | ok m =>
    have hid := (hu.loadMeta_of ho hb hm).seriesId_eq
    have hdisk := hu.loadMeta_current hm
    have hover : h.overlay (s.dirs b.dir) b.dir m direct = [] := by
      refine List.flatMap_eq_nil_iff.2 (fun c _ => ?_)
      have hfile : h.files (.fromMeta c m.seriesId) = none :=
        Option.eq_none_iff_forall_not_mem.2 (fun f hf => hu.files _ f hf hid)
      have hlayout : h.layouts (.fromMeta c m.seriesId) = none :=
        Option.eq_none_iff_forall_not_mem.2 (fun f hf => hu.layouts _ f hf hid)
      have hside : ∀ sidecar, h.sidecars (sidecarCacheKey b.dir c sidecar) = none := fun sidecar =>
        Option.eq_none_iff_forall_not_mem.2 (fun body hbody => hu.sidecars _ body hbody rfl)
      have hbody : h.chunkBody (s.dirs b.dir) c m.seriesId = none := by
        unfold ReadCaches.chunkBody
        rw [hfile, hlayout]
      simp [hbody, hside]
    simp only [hover, List.nil_append, ← hdisk]

theorem Unmixed.opens_ne (hu : Unmixed typeOf keys b s h) (ho : Owned typeOf keys s) (hsep : Separate keys)
    (hkey : key ∈ keys) (hb : b ∈ keys) (hne : key ≠ b) {k : ChunkCacheKey} {f : ChunkFile} (hf : h.Opens s key k f) :
    k.seriesId ≠ b.seriesId := by
  obtain ⟨m, chunk, hm, -, rfl, -⟩ := hf
  show m.seriesId ≠ b.seriesId
  rw [(hu.loadMeta_of ho hkey hm).seriesId_eq]
  exact hsep.ids key hkey b hb hne

/-- A manifest that was on disk may be shared. -/
theorem Owned.fresh_of_disk (ho : Owned typeOf keys s) (hsep : Separate keys) (hdown : ∀ key ∈ keys, key.GoesDown)
    (hb : b ∈ keys) {shared shared' : Text → Option SeriesMeta} (hf : Fresh typeOf keys b s shared) (hkey : key ∈ keys)
    (hs : ∀ k m, shared' k = some m → shared k = some m ∨ k = key.metaPath ∧ (s.dirs key.dir).loadSeriesMeta = .ok m) :
    Fresh typeOf keys b s shared' where
  named key' hkey' m hm := by
    rcases hs _ m hm with hm | ⟨hk, hm⟩
    · exact hf.named key' hkey' m hm
    · obtain rfl := hsep.key_of_metaPath hdown hkey' hkey hk
      exact ho.owner key' hkey' m (SeriesDir.loadSeriesMeta_eq_ok hm).1
  current m hm := by
    rcases hs _ m hm with hm | ⟨hk, hm⟩
    · exact hf.current m hm
    · obtain rfl := hsep.key_of_metaPath hdown hb hkey hk
      exact (SeriesDir.loadSeriesMeta_eq_ok hm).1

/-- A read of another series keeps what is cached apart. -/
theorem Unmixed.read (hu : Unmixed typeOf keys b s h) (ho : Owned typeOf keys s) (hsep : Separate keys)
    (hdown : ∀ key ∈ keys, key.GoesDown) (hkey : key ∈ keys) (hb : b ∈ keys) (hne : key ≠ b) (hr : h.Reads s key h') :
    Unmixed typeOf keys b s h' where
  named key' hkey' m hm := by
    rcases hr.manifests _ m hm with hm | ⟨hk, hm⟩
    · exact hu.named key' hkey' m hm
    · obtain rfl := hsep.key_of_cacheKey hkey' hkey hk
      exact hu.loadMeta_of ho hkey hm
  current m hm := by
    rcases hr.manifests _ m hm with hm | ⟨hk, -⟩
    · exact hu.current m hm
    · exact absurd (hsep.key_of_cacheKey hkey hb hk.symm) hne
  shared := ho.fresh_of_disk hsep hdown hb hu.shared hkey hr.shared
  layouts k f hf := by
    rcases hr.layouts k f hf with hf | hf
    · exact hu.layouts k f hf
    · exact hu.opens_ne ho hsep hkey hb hne hf
  files k f hf := by
    rcases hr.files k f hf with hf | hf
    · exact hu.files k f hf
    · exact hu.opens_ne ho hsep hkey hb hne hf
  sidecars p body hp := by
    rcases hr.sidecars p body hp with hp | ⟨m, chunk, sidecar, -, -, -, rfl, -⟩
    · exact hu.sidecars p body hp
    · exact fun hd => hne (hsep.key_of_dir hkey hb hd)

/-- What a call saves is of its series. -/
theorem Owned.saved (ho : Owned typeOf keys s) (hacc : ∀ key ∈ keys, key.isBlank = false) (hok : Sound env c s)
    (hc : c.Among typeOf keys s) {d : Dir} (hm : (d, m) ∈ savedManifests ((c.run env).trace s)) :
    ∃ key, c.key = some key ∧ d = key.dir ∧ m.IsOf key (typeOf key) := by
  obtain ⟨temp, hmem⟩ := mem_savedManifests hm
  cases hk : c.key with
  | none =>
    obtain ⟨C, hg⟩ := ho.good
    have hw := c.run_within_none hg hk env (d ++ [[]]) (buildScalarMeta 0 ⟨[], [], []⟩ 0) _ hmem
    have := congrArg List.length hw.1
    rw [List.length_append, List.length_singleton] at this
    omega
  | some key =>
    obtain ⟨m₀, new, hof, -, hwithin⟩ := ho.within hacc hok hc hk
    exact ⟨key, rfl, (hwithin _ hmem).1, hof.sameHead (hwithin _ hmem).2⟩

/-- What a call loads is of the series that it loads it under. -/
theorem Owned.loaded (ho : Owned typeOf keys s) (hc : c.Among typeOf keys s) (hkey : key ∈ c.loads s)
    (hm : (((c.enter env).final s).dirs key.dir).loadSeriesMeta = .ok m) : (s.dirs key.dir).manifest = .current m ∧
      m.IsOf key (typeOf key) := by
  obtain ⟨C, hg⟩ := ho.good
  rw [Writers.enter_dirs hg] at hm
  have hdisk := (SeriesDir.loadSeriesMeta_eq_ok hm).1
  exact ⟨hdisk, ho.owner key (hc.listed key hkey) m hdisk⟩

theorem Owned.opens_ne (ho : Owned typeOf keys s) (hsep : Separate keys) (hacc : ∀ key ∈ keys, key.isBlank = false)
    (hok : Sound env c s) (hc : c.Among typeOf keys s) (hb : b ∈ keys) (hne : c.key ≠ some b) {k : ChunkCacheKey}
    {f : ChunkFile} (hf : c.Opens env s k f) :
    k.seriesId ≠ b.seriesId := by
  obtain ⟨key, ks, m, chunk, hk, hpre, hm, -, rfl, -⟩ := hf
  obtain ⟨m₀, new, hof, hhead, hwithin⟩ := ho.within hacc hok hc hk
  have hm₀ := (hhead.exec (fun k hmem => hwithin k (hpre.subset hmem))).head m hm
  show m.seriesId ≠ b.seriesId
  rw [(hof.sameHead hm₀).seriesId_eq]
  exact hsep.ids key (hc.key_mem hk) b hb (fun heq => hne (by rw [hk, heq]))

/-! ### What a call leaves in its process -/

theorem lastEntry_append {κ α : Type} [DecidableEq κ] (xs ys : List (κ × α)) (k : κ) :
    lastEntry (xs ++ ys) k = (lastEntry ys k).or (lastEntry xs k) := by
  unfold lastEntry
  rw [List.reverse_append, List.lookup_append]

@[simp] theorem lastEntry_self {κ α : Type} [DecidableEq κ] (k : κ) (a : α) : lastEntry [(k, a)] k = some a := by
  simp [lastEntry]

theorem lastEntry_ne {κ α : Type} [DecidableEq κ] {e k : κ} (h : k ≠ e) (a : α) : lastEntry [(e, a)] k = none := by
  simp [lastEntry, List.lookup_cons, beq_eq_false_iff_ne.2 h]

/-- The last entry is that under another name, where the names go together. -/
theorem lastEntry_map {κ κ' α : Type} [DecidableEq κ] [DecidableEq κ'] {g : α → κ'} {k : κ} {k' : κ'} :
    ∀ {entries : List (κ × α)},
    (∀ f ∈ entries, g f.2 = k' ↔ f.1 = k) → lastEntry (entries.map (fun f => (g f.2, f.2))) k' = lastEntry entries k
  | [], _ => rfl
  | (e, a) :: entries, h => by
    have hone : lastEntry [(g a, a)] k' = lastEntry [(e, a)] k := by
      have hf : g a = k' ↔ e = k := h (e, a) List.mem_cons_self
      by_cases hk : e = k
      · rw [hf.2 hk, hk, lastEntry_self, lastEntry_self]
      · rw [lastEntry_ne (Ne.symm hk), lastEntry_ne (fun he => hk (hf.1 he.symm))]
    rw [List.map_cons, ← List.singleton_append, lastEntry_append,
      lastEntry_map (fun f hf => h f (List.mem_cons_of_mem _ hf)), hone, ← lastEntry_append, List.singleton_append]

theorem savedManifests_append (ks ls : List IoStep) : savedManifests (ks ++ ls) = savedManifests ks ++
    savedManifests ls := List.filterMap_append

/-- The manifest of a directory is the last that was saved there. -/
theorem manifest_exec : ∀ (ks : List IoStep) (s : Store) (d : Dir),
    ((exec ks s).dirs d).manifest = ((lastEntry (savedManifests ks) d).map ManifestFile.current).getD
      (s.dirs d).manifest
  | [], _, _ => rfl
  | k :: ks, s, d => by
    have hstep : ((Journal.Store.apply k s).dirs d).manifest =
      ((lastEntry (savedManifests [k]) d).map ManifestFile.current).getD (s.dirs d).manifest := by
      rw [apply_dirs]
      cases k with
      | publishManifest e temp m =>
        have hsaved : savedManifests [.publishManifest e temp m] = [(e, m)] := rfl
        rw [hsaved]
        by_cases he : d = e
        · subst he
          rw [lastEntry_self, IoStep.onDir, if_pos rfl]
          rfl
        · rw [lastEntry_ne he, IoStep.onDir, if_neg he]
          rfl
      | makeChunksDir e =>
        simp only [IoStep.onDir]
        split <;> rfl
      | publish e name temp body =>
        simp only [IoStep.onDir]
        split <;> rfl
      | removeFile e path =>
        simp only [IoStep.onDir]
        split <;> rfl
      | _ => rfl
    rw [exec_cons, manifest_exec ks, ← List.singleton_append, savedManifests_append, lastEntry_append, hstep]
    cases lastEntry (savedManifests ks) d <;> rfl

/-- What a call with the lock does, after it has begun. -/
theorem Call.trace_of_clears {C : Nat} (hg : GoodStore C s) (env : Env) (c : Call) :
    c.clears env s = true ∧ (∃ rest, (c.run env).trace s = (c.enter env).trace s ++ rest) ∨ c.clears env s = false ∧
      (c.run env).trace s = [] := by
  obtain ⟨rest, hrun⟩ := c.run_checked env
  have henter : (c.enter env).result s = .ok () := by
    cases c with
    | startupRecover => rfl
    | _ => exact (beginMutation_good hg env).1
  unfold Call.clears
  rw [hrun, henter]
  cases hchecks : c.checks with
  | error e => exact .inr ⟨rfl, rfl⟩
  | ok u =>
    rw [Prog.lift_ok_bind]
    exact .inl ⟨rfl, _, Prog.trace_bind_ok henter _⟩

/-- What a call finds is that of its series. -/
theorem Owned.found (ho : Owned typeOf keys s) (hc : c.Among typeOf keys s) {f : ScalarSeriesKey × SeriesMeta}
    (hf : f ∈ c.found env s) :
    f.1 ∈ keys ∧ (s.dirs f.1.dir).manifest = .current f.2 := by
  obtain ⟨hload, hm⟩ := Writers.mem_found hf
  have hkey := hc.listed f.1 hload
  refine ⟨hkey, ?_⟩
  cases hr : (((c.enter env).final s).dirs f.1.dir).loadSeriesMeta with
  | error e =>
    rw [hr] at hm
    cases hm
  | ok m =>
    rw [hr] at hm
    rw [← Option.some.inj hm]
    exact (ho.loaded hc hload hr).1

theorem Owned.found_path (ho : Owned typeOf keys s) (hsep : Separate keys) (hdown : ∀ key ∈ keys, key.GoesDown)
    (hc : c.Among typeOf keys s) (hb : b ∈ keys) {f : ScalarSeriesKey × SeriesMeta} (hf : f ∈ c.found env s)
    (hpath : f.1.metaPath = b.metaPath) : (s.dirs b.dir).manifest = .current f.2 := by
  obtain ⟨hkey, hdisk⟩ := ho.found hc hf
  obtain rfl := hsep.key_of_metaPath hdown hkey hb hpath
  exact hdisk

/-- What a call saves after it has begun is of its series. -/
theorem Owned.saved_after (ho : Owned typeOf keys s) (hacc : ∀ key ∈ keys, key.isBlank = false) (hok : Sound env c s)
    (hc : c.Among typeOf keys s) {f : Dir × SeriesMeta} (hf : f ∈ c.saved env s) :
    ∃ key ∈ keys, f.1 = key.dir ∧ f.2.IsOf key (typeOf key) := by
  have hall : f ∈ savedManifests ((c.run env).trace s) := ((List.drop_sublist _ _).filterMap _).subset hf
  obtain ⟨key, hk, hd, hof⟩ := ho.saved hacc hok hc (d := f.1) hall
  exact ⟨key, hc.key_mem hk, hd, hof⟩

/-- The last manifest saved under the path of a series is the last saved in its directory. -/
theorem Owned.last_saved (ho : Owned typeOf keys s) (hsep : Separate keys) (hdown : ∀ key ∈ keys, key.GoesDown)
    (hacc : ∀ key ∈ keys, key.isBlank = false) (hok : Sound env c s) (hc : c.Among typeOf keys s) (hb : b ∈ keys) :
    lastEntry ((c.saved env s).map (fun f => (f.2.key.metaPath, f.2))) b.metaPath =
      lastEntry (c.saved env s) b.dir := by
  refine lastEntry_map (g := fun m : SeriesMeta => m.key.metaPath) (fun f hf => ?_)
  obtain ⟨key, hkey, hd, hof⟩ := ho.saved_after hacc hok hc hf
  rw [hof.key_eq, hd]
  constructor
  · intro he
    exact congrArg ScalarSeriesKey.dir (hsep.key_of_metaPath hdown hkey hb he)
  · intro he
    exact congrArg ScalarSeriesKey.metaPath (hsep.key_of_dir hkey hb he)

/-- The manifest of a series after a call is the last that the call saved there. -/
theorem Owned.manifest_final (ho : Owned typeOf keys s) (hclears : c.clears env s = true) (d : Dir) :
    (((c.run env).final s).dirs d).manifest =
      ((lastEntry (c.saved env s) d).map ManifestFile.current).getD (s.dirs d).manifest := by
  obtain ⟨C, hg⟩ := ho.good
  rcases c.trace_of_clears hg env with ⟨-, rest, htrace⟩ | ⟨hnot, -⟩
  · have hsaved : c.saved env s = savedManifests rest := by
      unfold Call.saved
      rw [htrace, List.drop_left]
    show ((exec ((c.run env).trace s) s).dirs d).manifest = _
    rw [hsaved, htrace, exec_append, manifest_exec rest, ← Writers.enter_dirs hg env c d]
    rfl
  · rw [hnot] at hclears
    cases hclears

/-- **What a call leaves in its process is of the series it says, and of any series as on disk.** -/
theorem Owned.shares (ho : Owned typeOf keys s) (hsep : Separate keys) (hdown : ∀ key ∈ keys, key.GoesDown)
    (hacc : ∀ key ∈ keys, key.isBlank = false) (hok : Sound env c s) (hc : c.Among typeOf keys s) (hb : b ∈ keys)
    {shared : Text → Option SeriesMeta} (hf : Fresh typeOf keys b s shared) :
    Fresh typeOf keys b ((c.run env).final s) (c.shares env s shared) := by
  unfold Call.shares
  cases hclears : c.clears env s with
  | false =>
    obtain ⟨C, hg⟩ := ho.good
    rcases c.trace_of_clears hg env with ⟨htrue, -⟩ | ⟨-, htrace⟩
    · rw [hclears] at htrue
      cases htrue
    · have hfinal : (c.run env).final s = s := by
        show exec ((c.run env).trace s) s = s
        rw [htrace, exec_nil]
      rw [hfinal]
      exact hf
  | true =>
    rw [if_pos rfl]
    refine ⟨fun key hkey m hm => ?_, fun m hm => ?_⟩
    · rcases List.mem_append.1 (Writers.mem_of_lastEntry hm) with hmem | hmem
      · obtain ⟨f, hfound, he⟩ := List.mem_map.1 hmem
        obtain ⟨hpath, rfl⟩ := Prod.mk.inj he
        exact ho.owner _ hkey _ (ho.found_path hsep hdown hc hkey hfound hpath)
      · obtain ⟨f, hsaved, he⟩ := List.mem_map.1 hmem
        obtain ⟨hpath, rfl⟩ := Prod.mk.inj he
        obtain ⟨key', hkey', -, hof⟩ := ho.saved_after hacc hok hc hsaved
        rw [hof.key_eq] at hpath
        obtain rfl := hsep.key_of_metaPath hdown hkey' hkey hpath
        exact hof
    · rw [lastEntry_append, ho.last_saved hsep hdown hacc hok hc hb] at hm
      rw [ho.manifest_final hclears]
      -- the last that was saved, else what was found
      cases hl : lastEntry (c.saved env s) b.dir with
      | some m' =>
        rw [hl] at hm
        exact congrArg ManifestFile.current (Option.some.inj hm)
      | none =>
        rw [hl, Option.none_or] at hm
        obtain ⟨f, hfound, he⟩ := List.mem_map.1 (Writers.mem_of_lastEntry hm)
        obtain ⟨hpath, rfl⟩ := Prod.mk.inj he
        exact ho.found_path hsep hdown hc hb hfound hpath

theorem Unmixed.sharing (hu : Unmixed typeOf keys b s h) {shared : Text → Option SeriesMeta}
    (hs : Fresh typeOf keys b s shared) :
    Unmixed typeOf keys b s { h with shared := shared } := ⟨hu.named, hu.current, hs, hu.layouts, hu.files, hu.sidecars⟩

/-- A call on another series keeps what is cached apart. -/
theorem Unmixed.write (hu : Unmixed typeOf keys b s h) (ho : Owned typeOf keys s) (hsep : Separate keys)
    (hdown : ∀ key ∈ keys, key.GoesDown) (hacc : ∀ key ∈ keys, key.isBlank = false) (hok : Sound env c s)
    (hc : c.Among typeOf keys s) (hb : b ∈ keys) (hne : c.key ≠ some b) (hr : h.Writes env c s h') :
    Unmixed typeOf keys b ((c.run env).final s) h' where
  named key' hkey' m hm := by
    rcases hr.manifests _ m hm with ⟨-, hm⟩ | ⟨key, hkey, hk, hm⟩ | ⟨hk, d, hm⟩
    · exact hu.named key' hkey' m hm
    · obtain rfl := hsep.key_of_cacheKey hkey' (hc.listed key hkey) hk
      exact (ho.loaded hc hkey hm).2
    · obtain ⟨key, hkey, -, hof⟩ := ho.saved hacc hok hc hm
      obtain rfl := hsep.key_of_cacheKey hkey' (hc.key_mem hkey) (hk.trans hof.cacheKey_eq)
      exact hof
  current m hm := by
    rw [ho.untouched hsep hacc hok hc hb hne]
    rcases hr.manifests _ m hm with ⟨-, hm⟩ | ⟨key, hkey, hk, hm⟩ | ⟨hk, d, hm⟩
    · exact hu.current m hm
    · obtain rfl := hsep.key_of_cacheKey hb (hc.listed key hkey) hk
      exact (ho.loaded hc hkey hm).1
    · obtain ⟨key, hkey, -, hof⟩ := ho.saved hacc hok hc hm
      obtain rfl := hsep.key_of_cacheKey hb (hc.key_mem hkey) (hk.trans hof.cacheKey_eq)
      exact absurd hkey hne
  shared := by
    rw [hr.shared]
    exact ho.shares hsep hdown hacc hok hc hb hu.shared
  layouts k f hf := by
    rcases hr.layouts k f hf with ⟨-, hf⟩ | hf
    · exact hu.layouts k f hf
    · exact ho.opens_ne hsep hacc hok hc hb hne hf
  files k f hf := by
    rcases hr.files k f hf with ⟨-, hf⟩ | hf
    · exact hu.files k f hf
    · exact ho.opens_ne hsep hacc hok hc hb hne hf
  sidecars p body hp := hu.sidecars p body (hr.sidecars p body hp).2

/-- A call on another handle keeps it too, while this one has no manifest of the series. -/
theorem Unmixed.others (hu : Unmixed typeOf keys b s h) (ho : Owned typeOf keys s) (hsep : Separate keys)
    (hacc : ∀ key ∈ keys, key.isBlank = false) (hok : Sound env c s) (hc : c.Among typeOf keys s) (hb : b ∈ keys)
    (hne : c.key = some b → h.manifests b.cacheKey = none) {shared : Text → Option SeriesMeta}
    (hs : Fresh typeOf keys b ((c.run env).final s) shared) :
    Unmixed typeOf keys b ((c.run env).final s) { h with shared := shared } where
  named := hu.named
  current m hm := by
    have hkey : c.key ≠ some b := fun hk => by
      rw [hne hk] at hm
      cases hm
    rw [ho.untouched hsep hacc hok hc hb hkey]
    exact hu.current m hm
  shared := hs
  layouts := hu.layouts
  files := hu.files
  sidecars := hu.sidecars

/-- What the process shares stays fresh while another process writes, if it has nothing of the series that is written.
-/
theorem Fresh.elsewhere {shared : Text → Option SeriesMeta} (hf : Fresh typeOf keys b s shared)
    (ho : Owned typeOf keys s) (hsep : Separate keys) (hacc : ∀ key ∈ keys, key.isBlank = false) (hok : Sound env c s)
    (hc : c.Among typeOf keys s) (hb : b ∈ keys) (hne : c.key = some b → shared b.metaPath = none) :
    Fresh typeOf keys b ((c.run env).final s) shared where
  named := hf.named
  current m hm := by
    have hkey : c.key ≠ some b := fun hk => by
      rw [hne hk] at hm
      cases hm
    rw [ho.untouched hsep hacc hok hc hb hkey]
    exact hf.current m hm

/-- **Every run of a handle.** -/
theorem Warm.unmixed (hw : Warm root typeOf keys b s h) (hsep : Separate keys) (hdown : ∀ key ∈ keys, key.GoesDown)
    (hacc : ∀ key ∈ keys, key.isBlank = false) (hb : b ∈ keys) : Owned typeOf keys s ∧ Unmixed typeOf keys b s h := by
  induction hw with
  | opened hwork => exact ⟨hwork.owned hsep hacc, unmixed_opened fresh_none⟩
  | reopened _ ih => exact ⟨ih.1, unmixed_opened ih.2.shared⟩
  | read _ key hkey hne hr ih => exact ⟨ih.1, ih.2.read ih.1 hsep hdown hkey hb hne hr⟩
  | write _ env c hok hc hne hr ih => exact ⟨ih.1.step hsep hacc hok hc,
      ih.2.write ih.1 hsep hdown hacc hok hc hb hne hr⟩
  | loaded _ key hkey m hm ih =>
    refine ⟨ih.1, ih.2.sharing (ih.1.fresh_of_disk hsep hdown hb ih.2.shared hkey (fun k m' hk => ?_))⟩
    by_cases he : k = key.metaPath
    · rw [he, Function.update_self] at hk
      exact .inr ⟨he, Option.some.inj hk ▸ hm⟩
    · rw [Function.update_of_ne he] at hk
      exact .inl hk
  | dropped _ ih => exact ⟨ih.1, ih.2.sharing fresh_none⟩
  | beside _ env c hok hc hne ih =>
    exact ⟨ih.1.step hsep hacc hok hc,
      ih.2.others ih.1 hsep hacc hok hc hb hne (ih.1.shares hsep hdown hacc hok hc hb ih.2.shared)⟩
  | elsewhere _ env c hok hc hne ih =>
    have hfresh := ih.2.shared.elsewhere ih.1 hsep hacc hok hc hb (fun hk => (hne hk).2)
    exact ⟨ih.1.step hsep hacc hok hc, ih.2.others ih.1 hsep hacc hok hc hb (fun hk => (hne hk).1) hfresh⟩

theorem Separate.isolated (hsep : Separate keys) (hdown : ∀ key ∈ keys, key.GoesDown)
    (hacc : ∀ key ∈ keys, key.isBlank = false) : Isolated keys where
  inside := hsep.inside
  apart := hsep.apart
  writes root typeOf b hb s h hw env c hok hc hne h' hw' threads r := by
    obtain ⟨ho, hu⟩ := hw.unmixed hsep hdown hacc hb
    obtain ⟨ho', hu'⟩ := hw'.unmixed hsep hdown hacc hb
    unfold SeriesRead.on
    rw [hu.seen_eq ho hb, hu'.seen_eq ho' hb, ho.untouched hsep hacc hok hc hb hne]
  handles root typeOf b hb s h hw threads r := by
    obtain ⟨ho, hu⟩ := hw.unmixed hsep hdown hacc hb
    unfold SeriesRead.on
    rw [hu.seen_eq ho hb]

end Unmixed

/-! ## What series of one id share -/

/-- A series of one scalar, in its first chunk. -/
structure OneScalar (key : ScalarSeriesKey) (sd : SeriesDir) (month : Text) (record : ScalarRecord) (m : SeriesMeta)
    (c : ChunkMeta) (f : ChunkFile) : Prop where
  series : SeriesOk key.dir sd m
  isOf : m.IsOf key .scalar
  chunks : m.chunks = [c]
  chunk : HasChunk sd (partitionChunkFileName month) f
  entry : EntryOf c (partitionChunkFileName month) f
  holds : Holds ScalarRecord f [record]
  chunkId : c.chunkId = 1
  generation : c.generation = 1

/-- A handle that has read a chunk of a series. -/
def ReadCaches.having (m : SeriesMeta) (c : ChunkMeta) (f : ChunkFile) : ReadCaches where
  manifests := Function.update (fun _ => none) m.cacheKey (some m)
  shared := Function.update (fun _ => none) m.key.metaPath (some m)
  layouts := Function.update (fun _ => none) (.fromMeta c m.seriesId) (some f)
  files := Function.update (fun _ => none) (.fromMeta c m.seriesId) (some f)
  sidecars _ := none

section Shared

variable {keys : List ScalarSeriesKey} {C : Nat} {s : Store} {env : Env} {key a b : ScalarSeriesKey}
    {sd sd' : SeriesDir} {month : Text}
  {timeframeMs : Int} {record x y : ScalarRecord} {m m' : SeriesMeta} {c c' : ChunkMeta} {f f' : ChunkFile}

/-- The first write of one scalar. -/
theorem putScalarChunk_first (env : Env) (hg : GoodStore C s) (hb : key.isBlank = false)
    (hmiss : (s.dirs key.dir).manifest = .missing) (htf : 0 < timeframeMs) (hmonth : monthKey record.ts = .ok month) :
    ∃ m c f, OneScalar key (((putScalarChunk env key timeframeMs [record] 1).final s).dirs key.dir) month
      record m c f := by
  have hnil : [record] ≠ [] := List.cons_ne_nil _ _
  have hordered : Ordered [record] := List.pairwise_singleton _ _
  have hkeyed : ∀ r ∈ [record], partitionKey r.ts .month = .ok month := by
    intro r hr
    rw [List.mem_singleton.1 hr]
    exact hmonth
  have hcheck : checkScalarWrite timeframeMs 1 = .ok () := by
    unfold checkScalarWrite
    rw [if_neg (by omega)]
  have hvalid : validateMonthRecords [record] = .ok () := by
    unfold validateMonthRecords
    rw [validateStrictOrder_eq_ok.2 ⟨hnil, hordered⟩, singleMonth_ok hnil hkeyed]
    rfl
  obtain ⟨t, -, hgt, hdirs, -, hfin⟩ := putScalarChunk_locked env hg hcheck hvalid
  have hmiss' : (t.dirs key.dir).manifest = .missing := by
    rw [hdirs]
    exact hmiss
  have hempty := (hgt.dir key.dir).of_missing hmiss'
  have hfits := fits_build hb hempty env.now timeframeMs
  obtain ⟨⟨f, c⟩, hchunk⟩ :=
    scalarChunk_ok (scalarPlan (buildScalarMeta env.now key timeframeMs) month).2 hordered hnil hkeyed
  have hfirst : monthKey (firstTs [record]) = .ok month := hmonth
  obtain ⟨m', w, hkept, hname, hrun⟩ :=
    putScalarChunkLocked_enters_under env 1 (scalarManifest_new key timeframeMs none hmiss' env.now) hfits
    rfl rfl hfirst
    hchunk (by unfold SeriesDir.hasFile; rw [hempty]; rfl)
  have hname' : w.name = partitionChunkFileName month := hname
  have hdir : ((putScalarChunk env key timeframeMs [record] 1).final s).dirs key.dir =
    (exec w.steps t).dirs key.dir := by
    rw [hfin, Prog.final_of_run hrun]
    exact exec_disarm_dirs w.steps t key.dir
  have hcom := w.final hfits
  have hone : m'.chunks = [w.entry] := by
    rw [w.entered.chunks, hkept]
    rfl
  have hof : (buildScalarMeta env.now key timeframeMs).IsOf key .scalar := ⟨rfl, rfl, rfl⟩
  rw [hdir]
  refine ⟨m', w.entry, w.file, w.seriesOk hfits rfl rfl hcom, hof.sameHead w.entered.head, hone, ?_, ?_,
    w.entered.laid.file.holds, w.entered.laid.chunkId, w.entered.laid.generation⟩
  · rw [← hname']
    exact hcom.has _ (List.mem_singleton.2 rfl)
  · rw [← hname']
    exact w.entered.laid.entry

namespace OneScalar

theorem loadSeriesMeta (h : OneScalar key sd month x m c f) : sd.loadSeriesMeta = .ok m :=
  SeriesDir.loadSeriesMeta_ok h.series.manifest_eq h.series.valid

theorem lookup (h : OneScalar key sd month x m c f) : sd.lookup c.relativePath = some (.chunk f) := by
  rw [h.entry.path]
  exact h.series.filed.lookup h.chunk

/-- A range read answers the row of the file that it is shown, with the timestamp of its own. -/
theorem range (h : OneScalar key sd month x m c f) (hm : sd'.manifest = .current m)
    (hl : sd'.lookup c.relativePath = some (.chunk f')) (hf : Holds ScalarRecord f' [y]) (hts : y.ts = x.ts)
    (threads : Nat) : getScalarRange threads sd' x.ts x.ts = .ok [y] := by
  have hst : Stored ScalarRecord sd' m (fun _ => [y]) := by
    refine ⟨hm, h.series.valid, fun e he => ⟨f', ?_, hf, ?_, ?_, ?_⟩⟩
    all_goals rw [h.chunks, List.mem_singleton] at he; rw [he]
    · exact hl
    · rw [h.entry.startTs, h.holds.startTs_eq, hf.startTs_eq]
      exact hts.symm
    · rw [h.entry.endTs, h.holds.endTs_eq, hf.endTs_eq]
      exact hts.symm
    · rw [h.entry.count, h.holds.count_eq, hf.count_eq]
      rfl
  have hrow : inRange x.ts x.ts (m.chunks.flatMap (fun _ => [y])) = [y] := by
    rw [h.chunks]
    simp [inRange, FixedRecord.ts, hts]
  rw [getScalarRange_eq hst threads x.ts x.ts (by rw [hrow, List.length_singleton]; decide), hrow]

/-- The chunks of two such series of one id have one name in the caches. -/
theorem fromMeta_eq (h : OneScalar a sd month x m c f) (h' : OneScalar b sd' month y m' c' f')
    (hid : a.seriesId = b.seriesId) :
    ChunkCacheKey.fromMeta c' m'.seriesId = .fromMeta c m.seriesId := by
  unfold ChunkCacheKey.fromMeta
  rw [h.chunkId, h'.chunkId, h.generation, h'.generation, h.entry.path, h'.entry.path, h.isOf.seriesId_eq,
    h'.isOf.seriesId_eq, hid]

/-- A handle that has read the series. -/
theorem reads (h : OneScalar key (s.dirs key.dir) month x m c f) : ReadCaches.fresh.Reads s key (.having m c f) := by
  have hload : ReadCaches.fresh.loadMeta s key = .ok m := h.loadSeriesMeta
  have hopens : ∀ k f', Function.update (fun _ => none) (ChunkCacheKey.fromMeta c m.seriesId) (some f) k = some f' →
    ReadCaches.fresh.Opens s key k f' := by
    intro k f' hk
    by_cases hkey : k = .fromMeta c m.seriesId
    · subst hkey
      rw [Function.update_self, Option.some.injEq] at hk
      subst hk
      exact ⟨m, c, hload, by simp [h.chunks], rfl, .inr h.lookup⟩
    · rw [Function.update_of_ne hkey] at hk
      cases hk
  refine ⟨fun k m' hk => .inr ?_, fun k m' hk => .inr ?_, fun k f' hk => .inr (hopens k f' hk), fun k f' hk =>
    .inr (hopens k f' hk), fun p body hp => by cases hp⟩
  · by_cases hkey : k = m.cacheKey
    · subst hkey
      obtain rfl : m = m' := by simpa [ReadCaches.having] using hk
      exact ⟨h.isOf.cacheKey_eq, hload⟩
    · simp only [ReadCaches.having, Function.update_of_ne hkey] at hk
      cases hk
  · by_cases hkey : k = m.key.metaPath
    · subst hkey
      obtain rfl : m = m' := by simpa [ReadCaches.having] using hk
      exact ⟨congrArg ScalarSeriesKey.metaPath h.isOf.key_eq, h.loadSeriesMeta⟩
    · simp only [ReadCaches.having, Function.update_of_ne hkey] at hk
      cases hk

end OneScalar

theorem seen_of_ok {h : ReadCaches} (hm : h.loadMeta s key = .ok m) (direct : ChunkMeta → Bool) :
    h.seen s key direct =
      { s.dirs key.dir with manifest := .current m, files := h.overlay (s.dirs key.dir) key.dir m direct ++ (s.dirs key.dir).files } := by
  unfold ReadCaches.seen
  simp only [hm]

@[simp] theorem fileName_chunkRelativePath (name : Text) : ReadCaches.fileName (chunkRelativePath name) = name :=
  List.drop_left' String.length_toList

/-- A series is made by a first write of one scalar. -/
theorem Worked.first {root : Dir} (hw : Worked root (fun _ => .scalar) keys s) (hg : GoodStore C s)
    (hC : C + 2 < u32Max) (hkey : key ∈ keys) (hb : key.isBlank = false)
    (hmiss : (s.dirs key.dir).manifest = .missing) (hmonth : monthKey record.ts = .ok month) :
    ∃ t, Worked root (fun _ => .scalar) keys t ∧ GoodStore (C + 2) t ∧ (∀ e, e ≠ key.dir → t.dirs e = s.dirs e) ∧
      ∃ m c f, OneScalar key (t.dirs key.dir) month record m c f := by
  have hnone : ∀ m, (s.dirs key.dir).manifest ≠ .current m := fun m hm => by
    rw [hmiss] at hm
    cases hm
  let put : Call := .putScalar key 1 [record] 1
  have htyped : put.Typed s := Call.typed_of (fun key' hk m hm => absurd hm (Option.some.inj hk ▸ hnone m))
  have hregular : put.Regular s := by
    refine ⟨htyped, fun _ => hb, Call.unaliased_of (fun key' hk m hm => ?_), trivial⟩
    exact absurd hm (Option.some.inj hk ▸ hnone m)
  have hamong : put.Among (fun _ => .scalar) keys s := by
    refine ⟨fun _ _ => rfl, fun key' hk => ?_⟩
    rw [List.mem_singleton.1 hk]
    exact hkey
  obtain ⟨m₀, -, hwithin⟩ := Call.run_within hg htyped rfl (Env.plain 0)
  exact ⟨_, hw.call (Env.plain 0) put ⟨plain_faultless 0, hg.hasRoom hC, trivial⟩ hamong,
    Call.run_good hg (by omega) (plain_faultless 0) hregular, fun e he =>
      exec_within hwithin he s, putScalarChunk_first (Env.plain 0) hg hb hmiss (by decide) hmonth⟩

theorem exists_worked_pair (ha : a ∈ keys) (hb : b ∈ keys) (hacc : ∀ key ∈ keys, key.isBlank = false)
    (hd : a.dir ≠ b.dir) (hx : monthKey x.ts = .ok month) (hy : monthKey y.ts = .ok month) :
    ∃ s m c f m' c' f', Worked [] (fun _ => .scalar) keys s ∧ OneScalar a (s.dirs a.dir) month x m c f ∧
      OneScalar b (s.dirs b.dir) month y m' c' f' := by
  obtain ⟨s, hs, hgs, helse, m, c, f, hfirst⟩ :=
    Worked.first .start (goodStore_empty []) (by decide) ha (hacc a ha) rfl hx
  obtain ⟨t, ht, -, helse', m', c', f', hsecond⟩ :=
    Worked.first hs hgs (by decide) hb (hacc b hb) (by rw [helse b.dir hd.symm]; rfl) hy
  refine ⟨t, m, c, f, m', c', f', ht, ?_, hsecond⟩
  rw [helse' a.dir hd]
  exact hfirst

/-- After a read of the one, the handle sees the other with the manifest or the file of the one. -/
theorem OneScalar.mistaken (h : OneScalar a (s.dirs a.dir) month x m c f)
    (h' : OneScalar b (s.dirs b.dir) month y m' c' f') (hid : a.seriesId = b.seriesId)
    (hpath : b.metaPath ≠ a.metaPath) (hts : x.ts = y.ts) :
    SeriesRead.metadata.on 1 (.having m c f) s b = .ok m ∨
      (SeriesRead.scalarRange y.ts y.ts).on 1 (.having m c f) s b = .ok [x] := by
  by_cases hcache : b.cacheKey = m.cacheKey
  · refine .inl ?_
    have hload : (ReadCaches.having m c f).loadMeta s b = .ok m := by
      unfold ReadCaches.loadMeta
      rw [hcache]
      simp [ReadCaches.having]
    unfold SeriesRead.on
    rw [seen_of_ok hload]
    have hread : ∀ sd, SeriesRead.run 1 b sd .metadata = sd.loadSeriesMeta := fun _ => rfl
    rw [hread]
    exact SeriesDir.loadSeriesMeta_ok rfl h.series.valid
  · refine .inr ?_
    have hload : (ReadCaches.having m c f).loadMeta s b = .ok m' := by
      unfold ReadCaches.loadMeta
      have hshared : b.metaPath ≠ m.key.metaPath := h.isOf.key_eq ▸ hpath
      simp only [ReadCaches.having, Function.update_of_ne hcache, Function.update_of_ne hshared]
      exact h'.loadSeriesMeta
    have hbody : (ReadCaches.having m c f).chunkBody (s.dirs b.dir) c' m'.seriesId = some (.chunk f) := by
      unfold ReadCaches.chunkBody
      rw [h.fromMeta_eq h' hid]
      simp [ReadCaches.having]
    unfold SeriesRead.on
    rw [seen_of_ok hload]
    refine h'.range rfl ?_ h.holds hts 1
    unfold SeriesDir.lookup ReadCaches.overlay
    simp only [h'.chunks, List.flatMap_cons, List.flatMap_nil, SeriesRead.direct, hbody, h'.entry.path]
    simp

/-- **A handle that has read a series does not see one of the same id.** -/
theorem Isolated.separate (h : Isolated keys) (hdown : ∀ key ∈ keys, key.GoesDown)
    (hacc : ∀ key ∈ keys, key.isBlank = false) : Separate keys where
  inside := h.inside
  apart := h.apart
  ids a ha b hb hne hid := by
    have hd : a.dir ≠ b.dir := fun hd => h.apart a ha b hb hne (hd ▸ List.prefix_refl _)
    have hmonth : monthKey 0 = .ok "1970-01".toList := by decide +kernel
    obtain ⟨s, m, c, f, m', c', f', hw, hfirst, hsecond⟩ :=
      exists_worked_pair ha hb hacc hd (x := ⟨0, ⟨1, by decide⟩⟩) (y := ⟨0, ⟨2, by decide⟩⟩) hmonth hmonth
    have hsame := h.handles [] (fun _ => .scalar) b hb s _ ((Warm.opened hw).read a ha hne hfirst.reads) 1
    have hpath : b.metaPath ≠ a.metaPath := fun hp => hd ((hdown b hb).dir_of_metaPath (hdown a ha) hp).symm
    rcases hfirst.mistaken hsecond hid hpath rfl with hmeta | hrow
    · have heq : Except.ok m = Except.ok m' := (hmeta.symm.trans (hsame .metadata)).trans hsecond.loadSeriesMeta
      obtain rfl := Except.ok.inj heq
      exact hne (hfirst.isOf.key_eq.symm.trans hsecond.isOf.key_eq)
    · have hrun := hsecond.range hsecond.series.manifest_eq hsecond.lookup hsecond.holds rfl 1
      have heq := (hrow.symm.trans (hsame (.scalarRange 0 0))).trans hrun
      exact absurd heq (by decide)

end Shared

/-! ## Plain names -/

/-- A text that is one component of a path. -/
structure PlainName (t : Text) : Prop where
  goesDown : GoesDown t
  alone : pathComponents t = [t]

instance PlainName.decidable (t : Text) : Decidable (PlainName t) :=
  decidable_of_iff (GoesDown t ∧ pathComponents t = [t]) ⟨fun h => ⟨h.1, h.2⟩, fun h => ⟨h.1, h.2⟩⟩

structure ScalarSeriesKey.Plain (key : ScalarSeriesKey) : Prop where
  symbol : PlainName key.symbol
  category : PlainName key.category
  name : PlainName key.name

instance ScalarSeriesKey.decidablePlain (key : ScalarSeriesKey) : Decidable key.Plain :=
  decidable_of_iff (PlainName key.symbol ∧ PlainName key.category ∧ PlainName key.name)
    ⟨fun h => ⟨h.1, h.2.1, h.2.2⟩, fun h => ⟨h.symbol, h.category, h.name⟩⟩

theorem ScalarSeriesKey.Plain.goesDown {key : ScalarSeriesKey} (h : key.Plain) : key.GoesDown :=
  ⟨h.symbol.goesDown, h.category.goesDown, h.name.goesDown⟩

theorem ScalarSeriesKey.Plain.dir_eq {key : ScalarSeriesKey} (h : key.Plain) :
    key.dir = [key.symbol, key.category, key.name] := by
  rw [h.goesDown.dir_eq, h.symbol.alone, h.category.alone, h.name.alone]
  rfl

/-- Series with plain names have directories of their own: they are isolated where no two of their ids are the same
hash. -/
theorem separate_plain {keys : List ScalarSeriesKey} (h : ∀ key ∈ keys, key.Plain)
    (hids : ∀ a ∈ keys, ∀ b ∈ keys, a ≠ b → a.seriesId ≠ b.seriesId) : Separate keys where
  inside key hkey := by
    have hdir := (h key hkey).dir_eq
    exact ⟨hdir ▸ List.cons_ne_nil _ _, (h key hkey).goesDown.inside⟩
  apart a ha b hb hne hpre := by
    rw [(h a ha).dir_eq, (h b hb).dir_eq] at hpre
    have heq := hpre.eq_of_length rfl
    simp only [List.cons.injEq, and_true] at heq
    obtain ⟨hsymbol, hcategory, hname⟩ := heq
    cases a
    cases b
    exact hne (by rw [ScalarSeriesKey.mk.injEq]; exact ⟨hsymbol, hcategory, hname⟩)
  ids := hids

/-! ## Which series are isolated -/

/-- **Series are isolated exactly where their directories and their ids are their own.** -/
theorem isolated_iff {keys : List ScalarSeriesKey} (hacc : ∀ key ∈ keys, key.isBlank = false)
    (hdown : ∀ key ∈ keys, key.GoesDown) : Isolated keys ↔ Separate keys :=
  ⟨fun h => h.separate hdown hacc, fun h => h.isolated hdown hacc⟩

def sampleSeparateKeys : List ScalarSeriesKey :=
  [⟨"BTC".toList, "factor".toList, "a".toList⟩, ⟨"BTC".toList, "factor".toList, "b".toList⟩]

theorem isolated_iff_sample : Isolated sampleSeparateKeys := by
  have hsep : Separate sampleSeparateKeys := separate_plain (by decide +kernel) (by decide +kernel)
  exact (isolated_iff (by decide +kernel) (by decide +kernel)).2 hsep

/-- Two series of one cache key. -/
def sampleColonKeys : List ScalarSeriesKey :=
  [⟨"a:b".toList, "c".toList, "d".toList⟩, ⟨"a".toList, "b:c".toList, "d".toList⟩]

/-- Series whose names hold colons are not isolated. -/
theorem colon_keys_share :
    ¬ ∀ keys : List ScalarSeriesKey, (∀ key ∈ keys, key.isBlank = false) → (∀ key ∈ keys, key.GoesDown) →
      Isolated keys := by
  intro h
  have hacc : ∀ key ∈ sampleColonKeys, key.isBlank = false := by decide +kernel
  have hdown : ∀ key ∈ sampleColonKeys, key.GoesDown := by decide +kernel
  have hsep := (h sampleColonKeys hacc hdown).separate hdown hacc
  exact hsep.ids _ List.mem_cons_self _ (List.mem_cons_of_mem _ List.mem_cons_self) (by decide)
    (seriesId_congr (by decide +kernel))

end FastK
