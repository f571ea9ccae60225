import FastK.Validation
import FastK.Frames
/-!
# Discovery

`list_series` (`engine/store.rs`) walks the directories below `series/` and stops on each branch at the first one that
has a `chunks` directory or a manifest; recovery, validation and sealing use the same walk (`storage/recovery.rs`).
The directories of the series are three joined names each, which may be any texts: the walk finds every series when
none of their paths passes a directory named `chunks` and none lies below another (`lists_exactly`).  What is listed
as klines and what as scalars goes by the category of a series, not by its record type.
-/
namespace FastK

open Journal

/-! ## The walk -/

/-- The components of the path of a series; `..` goes back. -/
def ScalarSeriesKey.components (key : ScalarSeriesKey) : List Text :=
  pathComponents key.symbol ++ pathComponents key.category ++ pathComponents key.name

def ScalarSeriesKey.isAbsolute (key : ScalarSeriesKey) : Bool :=
  [key.symbol, key.category, key.name].any (fun t => t.head? = some '/')

/-- The directories that `create_dir_all` makes for a series: all that its path passes, also where it goes back again.
-/
def ScalarSeriesKey.way (key : ScalarSeriesKey) : List Dir :=
  if key.isAbsolute then [] else key.components.scanl stepPath []

/-! ## The inventory -/

structure SeriesInventoryEntry where
  symbol : Text
  category : Text
  name : Text
  recordType : RecordType
  timeframeMs : Int
  chunkCount : Nat
  recordCount : Nat
  sidecarCount : Nat
  activeDeltaCount : Nat
  deriving DecidableEq, Repr

def SeriesInventoryEntry.key (e : SeriesInventoryEntry) : ScalarSeriesKey := ⟨e.symbol, e.category, e.name⟩

def inventoryEntry (m : SeriesMeta) : SeriesInventoryEntry where
  symbol := m.symbol
  category := m.category
  name := m.name
  recordType := m.recordType
  timeframeMs := m.timeframeMs
  chunkCount := m.chunks.length
  recordCount := (m.chunks.map ChunkMeta.count).sum
  sidecarCount := (m.chunks.map (fun c => c.sidecars.length)).sum
  activeDeltaCount := (m.chunks.filter (fun c => c.state = .active)).length

def loadSeriesInventoryEntry (sd : SeriesDir) : Result SeriesInventoryEntry := sd.loadSeriesMeta.map inventoryEntry

/-- The order of `(symbol, category, name)`. -/
def ScalarSeriesKey.le (a b : ScalarSeriesKey) : Bool :=
  if a.symbol ≠ b.symbol then Text.le a.symbol b.symbol
  else if a.category ≠ b.category then Text.le a.category b.category
  else Text.le a.name b.name

def listSeries (env : Env) (ways : List Dir) (s : Store) : Result (List SeriesInventoryEntry) :=
  (collect (fun d => loadSeriesInventoryEntry (s.dirs d)) (discoverSeriesDirs env ways s)).map
    (fun entries => entries.insertionSort (fun a b => a.key.le b.key = true))

def listKlineSeries (env : Env) (ways : List Dir) (s : Store) : Result (List SeriesInventoryEntry) :=
  (listSeries env ways s).map (fun entries => entries.filter (fun e => e.category = klineCategory))

def listScalarSeries (env : Env) (ways : List Dir) (s : Store) : Result (List SeriesInventoryEntry) :=
  (listSeries env ways s).map (fun entries => entries.filter (fun e => e.category ≠ klineCategory))

/-! ## Counts -/

/-- The records a file holds. -/
def FileBody.recordCount : FileBody → Nat
  | .chunk f => f.rows.length
  | _ => 0

/-- The counts of an entry are those of the files of its directory. -/
structure CountsFiles (sd : SeriesDir) (e : SeriesInventoryEntry) : Prop where
  chunks : e.chunkCount = (sd.files.filter (fun p => isChunkName p.1)).length
  records : e.recordCount = ((sd.files.filter (fun p => isChunkName p.1)).map (fun p => p.2.recordCount)).sum
  sidecars : e.sidecarCount = (sd.files.filter (fun p => isSidecarName p.1)).length

section Counts

variable {C : Nat} {d : Dir} {sd : SeriesDir} {m : SeriesMeta}

theorem WellFiled.paths_nodup (h : WellFiled sd) (p : Text × FileBody → Bool) :
    ((sd.files.filter p).map (fun q => chunkRelativePath q.1)).Nodup := by
  have hsub : ((sd.files.filter p).map Prod.fst).Nodup := h.nodup.sublist (List.filter_sublist.map _)
  have := hsub.map (f := chunkRelativePath) (fun _ _ heq => chunkRelativePath_inj heq)
  rwa [List.map_map] at this

/-- The chunk files are those of the entries. -/
theorem GoodSeries.chunk_paths (h : GoodSeries C d sd m) :
    (m.chunks.map ChunkMeta.relativePath).Perm ((sd.files.filter (fun p => isChunkName p.1)).map (fun p =>
      chunkRelativePath p.1)) := by
  refine (List.perm_ext_iff_of_nodup h.inOrder.paths (h.fits.filed.paths_nodup _)).2 (fun path => ?_)
  constructor
  · intro hpath
    obtain ⟨c, hc, rfl⟩ := List.mem_map.1 hpath
    obtain ⟨name, f, hf, hp, -⟩ := h.described.stamped c hc
    exact List.mem_map.2 ⟨(name, .chunk f), List.mem_filter.2 ⟨hf.1, hf.2⟩, hp.symm⟩
  · intro hpath
    obtain ⟨p, hp, rfl⟩ := List.mem_map.1 hpath
    obtain ⟨hmem, hn⟩ := List.mem_filter.1 hp
    obtain ⟨f, hf⟩ := h.fits.filed.chunk p hmem hn
    obtain ⟨c, hc, hc'⟩ := h.exact p.1 f ⟨by rw [← hf]; exact hmem, hn⟩
    exact List.mem_map.2 ⟨c, hc, hc'⟩

/-- The records at a path. -/
def recordsAt (sd : SeriesDir) (path : Text) : Nat := ((sd.lookup path).map FileBody.recordCount).getD 0

theorem GoodSeries.count_eq (h : GoodSeries C d sd m) {c : ChunkMeta} (hc : c ∈ m.chunks) :
    c.count = recordsAt sd c.relativePath := by
  obtain ⟨name, f, hf, ho, he⟩ := (h.fits.tracked c hc).rowsIn h.fits.filed
  unfold recordsAt
  rw [he.path, h.fits.filed.lookup hf, he.count, ho.holds.count_eq]
  simp [FileBody.recordCount, ho.holds.rows_eq]

theorem GoodSeries.sidecar_paths (h : GoodSeries C d sd m) :
    ((m.chunks.flatMap ChunkMeta.sidecars).map SidecarMeta.relativePath).Perm
      ((sd.files.filter (fun p => isSidecarName p.1)).map (fun p => chunkRelativePath p.1)) := by
  by_cases ht : m.recordType = .scalar
  · refine (List.perm_ext_iff_of_nodup ?_ (h.fits.filed.paths_nodup _)).2 (fun path => ?_)
    · rw [List.map_flatMap, List.nodup_flatMap]
      have hchunks : m.chunks.Nodup := h.inOrder.paths.of_map ChunkMeta.relativePath
      refine ⟨fun c hc => ?_, hchunks.imp_of_mem (fun {a b} ha hb hne path hpa hpb => hne ?_)⟩
      · obtain ⟨name, blockSize, zmap, vix, hpath, hentries, hfiles⟩ := h.described.indexed ht c hc
        rw [hentries]
        have hkinds : sidecarRelativePath c.relativePath zmapKind ≠ sidecarRelativePath c.relativePath vixKind :=
          fun heq =>
          absurd (List.append_cancel_left heq) (by decide)
        simpa [indexEntries] using hkinds
      · obtain ⟨name, blockSize, zmap, vix, hpath, hentries, -⟩ := h.described.indexed ht a ha
        obtain ⟨name', blockSize', zmap', vix', hpath', hentries', -⟩ := h.described.indexed ht b hb
        obtain ⟨n, f, hf, hn, -⟩ := h.described.stamped a ha
        obtain ⟨n', f', hf', hn', -⟩ := h.described.stamped b hb
        obtain rfl : n = name := chunkRelativePath_inj (hn.symm.trans hpath)
        obtain rfl : n' = name' := chunkRelativePath_inj (hn'.symm.trans hpath')
        simp only at hpa hpb
        rw [hentries, mem_indexEntries hpath] at hpa
        rw [hentries', mem_indexEntries hpath'] at hpb
        obtain ⟨p, hp, rfl⟩ := hpa
        obtain ⟨q, hq, hpq⟩ := hpb
        have hnames := indexFiles_inj hf.2 hf'.2 hp hq (chunkRelativePath_inj hpq)
        exact h.fits.path_inj ha hb (by rw [hpath, hpath', hnames])
    · constructor
      · intro hpath
        obtain ⟨s, hs, rfl⟩ := List.mem_map.1 hpath
        obtain ⟨c, hc, hsc⟩ := List.mem_flatMap.1 hs
        obtain ⟨a, ha, hagree⟩ := h.sidecar_found .asListed hc hsc
        have hrel : a.relativePath = s.relativePath := by simpa using List.find?_some ha
        obtain ⟨p, hp, rfl⟩ := List.mem_map.1 (List.mem_of_find?_eq_some ha)
        obtain ⟨hmem, hn⟩ := List.mem_filter.1 hp
        exact List.mem_map.2 ⟨p, List.mem_filter.2 ⟨hmem, hn⟩, hrel⟩
      · intro hpath
        obtain ⟨p, hp, rfl⟩ := List.mem_map.1 hpath
        exact h.sidecars_tracked .asListed (List.mem_map_of_mem (f := fun p : Text × FileBody =>
          sidecarMetaOf p.1 p.2) hp)
  · have hnone : m.chunks.flatMap ChunkMeta.sidecars = [] :=
      List.flatMap_eq_nil_iff.2 (fun c hc => (h.described.plain ht).2 c hc)
    have hfiles : sd.files.filter (fun p => isSidecarName p.1) = [] := List.filter_eq_nil_iff.2 (fun p hp => by
      rw [(h.described.plain ht).1 p hp]
      exact Bool.false_ne_true)
    rw [hnone, hfiles]
    exact List.Perm.nil

/-- **The counts of a series in order are those of its files.** -/
theorem GoodSeries.countsFiles (h : GoodSeries C d sd m) : CountsFiles sd (inventoryEntry m) where
  chunks := by
    have := h.chunk_paths.length_eq
    rwa [List.length_map, List.length_map] at this
  records := by
    have hperm := (h.chunk_paths.map (recordsAt sd)).sum_eq
    rw [List.map_map, List.map_map] at hperm
    have hleft : m.chunks.map ChunkMeta.count = m.chunks.map (recordsAt sd ∘ ChunkMeta.relativePath) :=
      List.map_congr_left (fun c hc => h.count_eq hc)
    have hright : (sd.files.filter (fun p => isChunkName p.1)).map (fun p => p.2.recordCount) =
        (sd.files.filter (fun p => isChunkName p.1)).map (recordsAt sd ∘ fun p => chunkRelativePath p.1) :=
          List.map_congr_left (fun p hp => by
      show _ = recordsAt sd (chunkRelativePath p.1)
      unfold recordsAt
      rw [h.fits.filed.lookup_of_mem (List.mem_filter.1 hp).1]
      rfl)
    show (m.chunks.map ChunkMeta.count).sum = _
    rw [hleft, hright]
    exact hperm
  sidecars := by
    have := h.sidecar_paths.length_eq
    rw [List.length_map, List.length_map, List.length_flatMap] at this
    exact this

end Counts

/-! ## Stores that calls have built -/

/-- The series a call works on, with the record type of the call. -/
def Call.uses (c : Call) : List (ScalarSeriesKey × RecordType) := (c.key.map (fun key => (key, c.recordType))).toList

/-- A call without faults, with room, of records that fit into an address space. -/
structure Sound (env : Env) (c : Call) (s : Store) : Prop where
  faultless : env.Faultless
  room : s.HasRoom
  fits : c.Fits

/-- The stores that successful calls build, with the series that they were made on. -/
inductive Built (root : Dir) : List (ScalarSeriesKey × RecordType) → Store → Prop
  | start : Built root [] (Store.empty root)
  | call {uses : List (ScalarSeriesKey × RecordType)} {s : Store} (env : Env) (c : Call) (h : Built root uses s)
      (hok : Sound env c s)
      (hres : (c.run env).result s = .ok ()) : Built root (c.uses ++ uses) ((c.run env).final s)

/-- The directories of the series lie in `series/`, pass none named `chunks`, and none lies below another; a series is
used under one record type. -/
structure SeriesApart (uses : List (ScalarSeriesKey × RecordType)) : Prop where
  inside : ∀ u ∈ uses, leavesSeries u.1.dir = false
  passing : ∀ u ∈ uses, ∀ d ∈ u.1.way, chunksDir ∉ d
  apart : ∀ u ∈ uses, ∀ v ∈ uses, u.1 ≠ v.1 → ¬ u.1.dir <+: v.1.dir
  oneType : ∀ u ∈ uses, ∀ v ∈ uses, u.1 = v.1 → u.2 = v.2

/-- The directories with a series are those of the calls, and each series has the key and the record type of its
calls. -/
structure Registered (uses : List (ScalarSeriesKey × RecordType)) (s : Store) : Prop where
  good : ∃ C, GoodStore C s
  rooted : s.Rooted
  known : ∀ d ∈ s.known, ∃ u ∈ uses, u.1.dir = d
  placed : ∀ u ∈ uses, ∃ m, (s.dirs u.1.dir).manifest = .current m ∧ m.key = u.1 ∧ m.recordType = u.2

section Built

variable {root : Dir} {uses more : List (ScalarSeriesKey × RecordType)} {s : Store} {env : Env} {c : Call}
    {key : ScalarSeriesKey}

theorem SeriesApart.older (h : SeriesApart (more ++ uses)) : SeriesApart uses where
  inside u hu := h.inside u (List.mem_append_right _ hu)
  passing u hu := h.passing u (List.mem_append_right _ hu)
  apart u hu v hv := h.apart u (List.mem_append_right _ hu) v (List.mem_append_right _ hv)
  oneType u hu v hv := h.oneType u (List.mem_append_right _ hu) v (List.mem_append_right _ hv)

theorem SeriesApart.key_eq (h : SeriesApart uses) {u v : ScalarSeriesKey × RecordType} (hu : u ∈ uses) (hv : v ∈ uses)
    (hd : u.1.dir = v.1.dir) :
    u.1 = v.1 := by
  by_contra hne
  exact h.apart u hu v hv hne (hd ▸ List.prefix_refl _)

theorem Registered.known_of_manifest {d : Dir} {m : SeriesMeta} (h : Registered uses s)
    (hm : (s.dirs d).manifest = .current m) : d ∈ s.known := by
  by_contra hno
  rw [h.rooted.empty d hno] at hm
  cases hm

/-- The series a call finds is its own. -/
theorem Registered.finds {t : RecordType} (h : Registered uses s) (hap : SeriesApart ((key, t) :: uses))
    {m : SeriesMeta} (hm : (s.dirs key.dir).manifest = .current m) : m.key = key ∧ m.recordType = t := by
  obtain ⟨u, hu, hd⟩ := h.known _ (h.known_of_manifest hm)
  have hkey : u.1 = key := hap.key_eq (List.mem_cons_of_mem _ hu) List.mem_cons_self hd
  obtain ⟨m', hm', hk, ht⟩ := h.placed u hu
  rw [hd] at hm'
  obtain rfl := ManifestFile.current.inj (hm.symm.trans hm')
  exact ⟨hk.trans hkey, ht.trans (hap.oneType u (List.mem_cons_of_mem _ hu) (key, t) List.mem_cons_self hkey)⟩

theorem Call.typed_of (h : ∀ key, c.key = some key → OfType c.recordType (s.dirs key.dir)) : c.Typed s := by
  cases c <;> first | trivial | exact h _ rfl

theorem oneName_of_key {R : Type} [FixedRecord R] {records : List R} {sd : SeriesDir}
    (h : ∀ m, sd.manifest = .current m → m.key = key) :
    OneName (seriesCacheKey key.symbol key.category key.name) records sd := by
  intro m _ hm _
  rw [← h m hm]
  exact .inl rfl

theorem Call.unaliased_of (h : ∀ key, c.key = some key → ∀ m, (s.dirs key.dir).manifest = .current m → m.key = key) :
    c.Unaliased s := by
  cases c with
  | appendKlineRange policy symbol timeframe records timeframeMs priceScale volumeScale =>
      exact oneName_of_key (h ⟨symbol, klineCategory, timeframe⟩ rfl)
  | appendScalarRange key records timeframeMs => exact oneName_of_key (h key rfl)
  | _ => trivial

theorem uses_of_key (hc : c.key = some key) : c.uses = [(key, c.recordType)] := by
  unfold Call.uses
  rw [hc]
  rfl

/-- A successful call on series that lie apart is regular. -/
theorem Registered.regular (h : Registered uses s) (hap : SeriesApart (c.uses ++ uses)) (hok : Sound env c s)
    (hres : (c.run env).result s = .ok ()) :
    c.Regular s := by
  have hfinds : ∀ key, c.key = some key → ∀ m, (s.dirs key.dir).manifest = .current m → m.key = key ∧
    m.recordType = c.recordType := by
    intro key hc m hm
    rw [uses_of_key hc] at hap
    exact h.finds hap hm
  obtain ⟨C, hg⟩ := h.good
  refine ⟨Call.typed_of (fun key hc m hm => (hfinds key hc m hm).2), Call.run_named hg hres,
    Call.unaliased_of (fun key hc m hm => (hfinds key hc m hm).1), hok.fits⟩

/-- Steps that lie in every directory lie in none. -/
theorem exec_within_all {ks : List IoStep} (h : ∀ d m, ∀ k ∈ ks, k.Within d m) (e : Dir) :
    (exec ks s).dirs e = s.dirs e ∧ (e ∈ (exec ks s).known → e ∈ s.known) := by
  have hne : e ≠ e ++ [[]] := fun heq => by simpa using congrArg List.length heq
  have hw := h (e ++ [[]]) (buildScalarMeta 0 ⟨[], [], []⟩ 0)
  exact ⟨exec_within hw hne s, fun he => (known_within hw s he).resolve_left hne⟩

/-- **One call.** -/
theorem Registered.step (h : Registered uses s) (hap : SeriesApart (c.uses ++ uses)) (hok : Sound env c s)
    (hres : (c.run env).result s = .ok ()) :
    Registered (c.uses ++ uses) ((c.run env).final s) := by
  have hreg := h.regular hap hok hres
  obtain ⟨C, hg⟩ := h.good
  have hgood := Call.run_good (hg.of_room hok.room) (by decide) hok.faultless hreg
  have hrooted : ((c.run env).final s).Rooted := exec_rooted _ h.rooted
  cases hc : c.key with
  | none =>
    have hall := fun e => exec_within_all (s := s) (fun d m => Call.run_within_none hg hc env d m) e
    have huses : c.uses = [] := by
      unfold Call.uses
      rw [hc]
      rfl
    rw [huses, List.nil_append]
    refine ⟨⟨_, hgood⟩, hrooted, fun d hd => h.known d ((hall d).2 hd), fun u hu => ?_⟩
    obtain ⟨m, hm, hk, ht⟩ := h.placed u hu
    exact ⟨m, by rw [show ((c.run env).final s).dirs u.1.dir = s.dirs u.1.dir from (hall _).1]; exact hm, hk, ht⟩
  | some key =>
    rw [uses_of_key hc] at hap ⊢
    obtain ⟨m, ⟨new, hfinds, -⟩, hwithin⟩ := Call.run_within hg hreg.typed hc env
    have hhead : m.key = key ∧ m.recordType = c.recordType := by
      rcases hfinds.placed with hp | hn
      · cases hg.dir key.dir with
        | empty hmiss _ =>
          rw [hmiss] at hp
          cases hp
        | series hm _ =>
          obtain rfl := hfinds.same _ hm
          exact h.finds hap hm
      · exact (hfinds.made hn).2
    have hpresent := Call.run_places hg hc env () hres
    have hmade : ∃ m', (((c.run env).final s).dirs key.dir).manifest = .current m' ∧ m'.key = key ∧
      m'.recordType = c.recordType := by
      have hhd : Headed key.dir m new ((c.run env).final s) :=
        (headed_of_dirs (s := s) rfl (fun m' hm' => hfinds.same m' hm') hfinds.placed).exec hwithin
      cases hgood.dir key.dir with
      | empty hmiss _ =>
        rw [hmiss] at hpresent
        cases hpresent
      | @series m' hm' _ =>
        have hsame := hhd.head m' hm'
        refine ⟨m', hm', ?_, hsame.recordType.trans hhead.2⟩
        rw [← hhead.1, hsame]
        rfl
    refine ⟨⟨_, hgood⟩, hrooted, fun d hd => ?_, fun u hu => ?_⟩
    · rcases known_within hwithin s hd with rfl | hd
      · exact ⟨(key, c.recordType), List.mem_cons_self, rfl⟩
      · obtain ⟨u, hu, hud⟩ := h.known d hd
        exact ⟨u, List.mem_cons_of_mem _ hu, hud⟩
    · by_cases hkey : u.1 = key
      · obtain ⟨m', hm', hk', ht'⟩ := hmade
        rw [hkey]
        exact ⟨m', hm', hk', ht'.trans (hap.oneType (key, c.recordType) List.mem_cons_self u hu hkey.symm)⟩
      · rcases List.mem_cons.1 hu with rfl | hold
        · exact absurd rfl hkey
        · have hdir : u.1.dir ≠ key.dir := fun hd => hkey (hap.key_eq hu List.mem_cons_self hd)
          obtain ⟨m', hm', hk', ht'⟩ := h.placed u hold
          exact ⟨m', by rw [show ((c.run env).final s).dirs u.1.dir = s.dirs u.1.dir from exec_within hwithin hdir s]; exact hm', hk', ht'⟩

/-- **Every run.** -/
theorem Built.registered (h : Built root uses s) (hap : SeriesApart uses) : Registered uses s := by
  induction h with
  | start => exact ⟨⟨0, goodStore_empty root⟩, ⟨fun _ _ => rfl, fun hne => absurd rfl hne⟩, (fun _ hd => nomatch hd),
      (fun _ hu => nomatch hu)⟩
  | call env c _ hok hres ih => exact (ih hap.older).step hap hok hres

end Built

/-! ## What is listed -/

/-- The directories on the ways to the series. -/
def waysOf (uses : List (ScalarSeriesKey × RecordType)) : List Dir := uses.flatMap (fun u => u.1.way)

/-- The listings hold each series once, with its key, its record type and the counts of its files, and split by record
type; the walk of recovery, validation and sealing reaches every series. -/
structure ListsExactly (env : Env) (uses : List (ScalarSeriesKey × RecordType)) (s : Store)
    (entries : List SeriesInventoryEntry) : Prop where
  all : listSeries env (waysOf uses) s = .ok entries
  once : (entries.map (fun e => (e.key, e.recordType))).Perm uses.dedup
  counts : ∀ e ∈ entries, CountsFiles (s.dirs e.key.dir) e
  klines : listKlineSeries env (waysOf uses) s = .ok (entries.filter (fun e => e.recordType = .kline))
  scalars : listScalarSeries env (waysOf uses) s = .ok (entries.filter (fun e => e.recordType = .scalar))
  reached : ∀ u ∈ uses, u.1.dir ∈ discoverSeriesDirs env [] s

/-- Klines have the category `kline`, and all else is scalars. -/
def ByCategory (uses : List (ScalarSeriesKey × RecordType)) : Prop :=
  ∀ u ∈ uses, u.2 = if u.1.category = klineCategory then .kline else .scalar

theorem stepPath_absolute {d : Dir} (h : d.head? = some ['/']) (component : Text) :
    (stepPath d component).head? = some ['/'] := by
  cases d with
  | nil => cases h
  | cons a rest =>
    obtain rfl : a = ['/'] := Option.some.inj h
    unfold stepPath
    split
    · split
      · rename_i hlast
        simp at hlast
      · rename_i last hlast
        split
        · rfl
        · split
          · rfl
          · cases rest with
            | nil =>
              have : ['/'] = last := Option.some.inj hlast
              simp_all
            | cons b rest => rfl
    · split
      · rename_i hup
        exact absurd (List.cons.inj hup.1).1 (by decide)
      · rfl

theorem foldl_stepPath_absolute : ∀ (components : List Text) {d : Dir}, d.head? = some ['/'] →
    (components.foldl stepPath d).head? = some ['/']
  | [], _, h => h
  | c :: components, _, h => foldl_stepPath_absolute components (stepPath_absolute h c)

theorem joinPath_absolute {d : Dir} (t : Text) (h : d.head? = some ['/']) : (joinPath d t).head? = some ['/'] := by
  unfold joinPath
  split
  · exact foldl_stepPath_absolute _ rfl
  · exact foldl_stepPath_absolute _ h

theorem joinPath_of_absolute (d : Dir) {t : Text} (h : t.head? = some '/') : (joinPath d t).head? = some ['/'] := by
  unfold joinPath
  rw [if_pos h]
  exact foldl_stepPath_absolute _ rfl

theorem ScalarSeriesKey.dir_absolute {key : ScalarSeriesKey} (h : key.isAbsolute = true) :
    key.dir.head? = some ['/'] := by
  simp only [ScalarSeriesKey.isAbsolute, List.any_cons, List.any_nil, Bool.or_false, Bool.or_eq_true,
    decide_eq_true_eq] at h
  rcases h with h | h | h
  · exact joinPath_absolute _ (joinPath_absolute _ (joinPath_of_absolute _ h))
  · exact joinPath_absolute _ (joinPath_of_absolute _ h)
  · exact joinPath_of_absolute _ h

/-- The way to a series ends in its directory. -/
theorem ScalarSeriesKey.dir_mem_way {key : ScalarSeriesKey} (h : leavesSeries key.dir = false) : key.dir ∈ key.way := by
  by_cases habs : key.isAbsolute = true
  · unfold leavesSeries at h
    rw [key.dir_absolute habs] at h
    simp at h
  · have hdir : key.dir = key.components.foldl stepPath [] := by
      simp only [ScalarSeriesKey.isAbsolute, List.any_cons, List.any_nil, Bool.or_false, Bool.or_eq_true,
        decide_eq_true_eq, not_or] at habs
      obtain ⟨h1, h2, h3⟩ := habs
      show joinPath (joinPath (joinPath [] key.symbol) key.category) key.name = _
      unfold joinPath ScalarSeriesKey.components
      rw [if_neg h1, if_neg h2, if_neg h3, List.foldl_append, List.foldl_append]
    unfold ScalarSeriesKey.way
    rw [if_neg habs, hdir]
    exact List.mem_of_getLast? List.getLast?_scanl

section Listing

variable {root : Dir} {uses : List (ScalarSeriesKey × RecordType)} {s : Store} {env : Env} {d : Dir}

theorem mem_waysOf : d ∈ waysOf uses ↔ ∃ u ∈ uses, d ∈ u.1.way := List.mem_flatMap

/-- What makes a directory look like a series is a series there. -/
theorem Registered.series_of (h : Registered uses s) (hap : SeriesApart uses)
    (hd : (s.dirs d).chunksDir = true ∨ (s.dirs d).manifest.isPresent = true ∨ ∃ e, (e ∈ s.known ∨ e ∈ waysOf uses) ∧
      d ++ [chunksDir] <+: e) :
    ∃ u ∈ uses, u.1.dir = d := by
  have hheld : s.dirs d ≠ .empty → ∃ u ∈ uses, u.1.dir = d := by
    intro hne
    by_cases hk : d ∈ s.known
    · exact h.known d hk
    · exact absurd (h.rooted.empty d hk) hne
  rcases hd with hd | hd | ⟨e, he, hde⟩
  · exact hheld (fun hempty => by rw [hempty] at hd; cases hd)
  · exact hheld (fun hempty => by rw [hempty] at hd; cases hd)
  · have hway : ∃ u ∈ uses, e ∈ u.1.way := by
      rcases he with he | he
      · obtain ⟨u, hu, rfl⟩ := h.known e he
        exact ⟨u, hu, ScalarSeriesKey.dir_mem_way (hap.inside u hu)⟩
      · exact mem_waysOf.1 he
    obtain ⟨u, hu, hmem⟩ := hway
    exact absurd (hde.subset (by simp)) (hap.passing u hu e hmem)

theorem Registered.looksLikeSeries_iff (h : Registered uses s) (hap : SeriesApart uses) :
    s.looksLikeSeries (waysOf uses) d = true ↔ ∃ u ∈ uses, u.1.dir = d := by
  unfold Store.looksLikeSeries
  constructor
  · intro hd
    refine h.series_of hap ?_
    simp only [Bool.or_eq_true, List.any_eq_true, List.isPrefixOf_iff_prefix] at hd
    rcases hd with (hd | hd) | ⟨e, he, hde⟩
    · exact .inl hd
    · exact .inr (.inl hd)
    · exact .inr (.inr ⟨e, List.mem_append.1 (List.mem_filter.1 he).1, hde⟩)
  · rintro ⟨u, hu, rfl⟩
    obtain ⟨m, hm, -, -⟩ := h.placed u hu
    rw [hm]
    simp [ManifestFile.isPresent]

/-- **The walk finds the directories of the series.** -/
theorem Registered.mem_collect (h : Registered uses s) (hap : SeriesApart uses) :
    d ∈ discoverSeriesDirs env (waysOf uses) s ↔ ∃ u ∈ uses, u.1.dir = d := by
  rw [mem_discoverSeriesDirs]
  constructor
  · rintro ⟨-, hstops⟩
    exact (h.looksLikeSeries_iff hap).1 hstops.passes
  · rintro ⟨u, hu, rfl⟩
    obtain ⟨m, hm, -, -⟩ := h.placed u hu
    have hknown := h.known_of_manifest hm
    refine ⟨h.rooted.root (List.ne_nil_of_mem hknown), List.nil_prefix, .inr ⟨u.1.dir, ?_, List.prefix_refl _⟩, ?_,
      fun p _ hp hne => ?_⟩
    · exact List.mem_filter.2 ⟨List.mem_append_left _ hknown, by rw [hap.inside u hu]; rfl⟩
    · exact (h.looksLikeSeries_iff hap).2 ⟨u, hu, rfl⟩
    · -- a series above this one
      by_contra hlooks
      obtain ⟨v, hv, rfl⟩ := (h.looksLikeSeries_iff hap).1 (by simpa using hlooks)
      exact hap.apart v hv u hu (fun heq => hne (by rw [heq])) hp

theorem Registered.dirs_perm (h : Registered uses s) (hap : SeriesApart uses) (env : Env) :
    (discoverSeriesDirs env (waysOf uses) s).Perm (uses.dedup.map (fun u => u.1.dir)) := by
  refine (List.perm_ext_iff_of_nodup (discoverSeriesDirs_nodup _ _ _) ?_).2 (fun d => ?_)
  · refine (List.nodup_dedup uses).map_on (fun u hu v hv hd => ?_)
    have hu' := List.mem_dedup.1 hu
    have hv' := List.mem_dedup.1 hv
    have hkey := hap.key_eq hu' hv' hd
    exact Prod.ext hkey (hap.oneType u hu' v hv' hkey)
  · rw [h.mem_collect hap, List.mem_map]
    simp only [List.mem_dedup]

/-- Recovery reaches the series as well. -/
theorem Registered.reached (h : Registered uses s) (hap : SeriesApart uses) {u : ScalarSeriesKey × RecordType}
    (hu : u ∈ uses) :
    u.1.dir ∈ discoverSeriesDirs env [] s := by
  obtain ⟨m, hm, -, -⟩ := h.placed u hu
  refine ((h.rooted.discovered_iff hm).2 ?_).2
  unfold Store.hidden
  rw [hap.inside u hu, Bool.false_or, List.any_eq_false]
  intro n hn hlooks
  have hlt := List.mem_range.1 hn
  unfold Store.looksLikeSeries Store.made at hlooks
  simp only [List.append_nil, Bool.or_eq_true, List.any_eq_true, List.mem_filter, List.isPrefixOf_iff_prefix] at hlooks
  obtain ⟨v, hv, hd⟩ := h.series_of (d := u.1.dir.take n) hap (by
    rcases hlooks with (hq | hq) | ⟨e, he, hde⟩
    · exact .inl hq
    · exact .inr (.inl hq)
    · exact .inr (.inr ⟨e, .inl he.1, hde⟩))
  have hne : v.1 ≠ u.1 := by
    intro heq
    rw [heq] at hd
    have := congrArg List.length hd
    rw [List.length_take] at this
    omega
  exact hap.apart v hv u hu hne (hd ▸ List.take_prefix n _)

/-- The entry of a directory with a series. -/
def entryAt (s : Store) (d : Dir) : SeriesInventoryEntry :=
  (loadSeriesInventoryEntry (s.dirs d)).toOption.getD (inventoryEntry (buildScalarMeta 0 ⟨[], [], []⟩ 0))

theorem Registered.entryAt_eq (h : Registered uses s) {u : ScalarSeriesKey × RecordType} (hu : u ∈ uses) :
    loadSeriesInventoryEntry (s.dirs u.1.dir) = .ok (entryAt s u.1.dir) ∧
      ((entryAt s u.1.dir).key, (entryAt s u.1.dir).recordType) = u ∧
      CountsFiles (s.dirs u.1.dir) (entryAt s u.1.dir) := by
  obtain ⟨C, hg⟩ := h.good
  obtain ⟨m, hm, hk, ht⟩ := h.placed u hu
  have hs := (hg.dir u.1.dir).of_current hm
  have hload : loadSeriesInventoryEntry (s.dirs u.1.dir) = .ok (inventoryEntry m) := by
    unfold loadSeriesInventoryEntry
    rw [SeriesDir.loadSeriesMeta_ok hm hs.fits.valid]
    rfl
  have hentry : entryAt s u.1.dir = inventoryEntry m := by
    unfold entryAt
    rw [hload]
    rfl
  rw [hentry]
  exact ⟨hload, Prod.ext hk ht, hs.countsFiles⟩

/-- **The listing of every series.** -/
theorem Registered.lists (h : Registered uses s) (hap : SeriesApart uses) (env : Env) :
    ∃ entries, listSeries env (waysOf uses) s = .ok entries ∧
      (entries.map (fun e => (e.key, e.recordType))).Perm uses.dedup ∧
      ∀ e ∈ entries, CountsFiles (s.dirs e.key.dir) e := by
  have hload : collect (fun d => loadSeriesInventoryEntry (s.dirs d)) (discoverSeriesDirs env (waysOf uses) s) =
      .ok ((discoverSeriesDirs env (waysOf uses) s).map (entryAt s)) := by
    refine collect_ok (entryAt s) (fun d hd => ?_)
    obtain ⟨u, hu, rfl⟩ := (h.mem_collect hap).1 hd
    exact (h.entryAt_eq hu).1
  have hperm : (((discoverSeriesDirs env (waysOf uses) s).map (entryAt s)).insertionSort (fun a b =>
    a.key.le b.key = true)).Perm
      (uses.dedup.map (fun u => entryAt s u.1.dir)) := by
    refine (List.perm_insertionSort _ _).trans ?_
    have := (h.dirs_perm hap env).map (entryAt s)
    rwa [List.map_map] at this
  refine ⟨_, by unfold listSeries; rw [hload]; rfl, ?_, fun e he => ?_⟩
  · refine (hperm.map _).trans ?_
    rw [List.map_map]
    have hid : uses.dedup.map ((fun e : SeriesInventoryEntry => (e.key, e.recordType)) ∘ fun u =>
      entryAt s u.1.dir) = uses.dedup.map id :=
      List.map_congr_left (fun u hu => (h.entryAt_eq (List.mem_dedup.1 hu)).2.1)
    rw [hid, List.map_id]
  · obtain ⟨u, hu, rfl⟩ := List.mem_map.1 (hperm.mem_iff.1 he)
    obtain ⟨-, hpair, hcounts⟩ := h.entryAt_eq (List.mem_dedup.1 hu)
    rw [show (entryAt s u.1.dir).key = u.1 from congrArg Prod.fst hpair]
    exact hcounts

end Listing

/-! ## By category -/

theorem filter_eq_filter_iff {α : Type} {p q : α → Bool} {l : List α} :
    l.filter p = l.filter q ↔ ∀ a ∈ l, p a = q a := by
  constructor
  · intro h a ha
    have hmem : a ∈ l.filter p ↔ a ∈ l.filter q := by rw [h]
    simp only [List.mem_filter, ha, true_and] at hmem
    exact Bool.eq_iff_iff.2 hmem
  · exact List.filter_congr

section Category

variable {root : Dir} {uses : List (ScalarSeriesKey × RecordType)} {s : Store}

/-- The parts of a listing by category are those by record type. -/
theorem byCategory_iff {entries : List SeriesInventoryEntry}
    (h : (entries.map (fun e => (e.key, e.recordType))).Perm uses.dedup) :
    (entries.filter (fun e => e.category = klineCategory) = entries.filter (fun e => e.recordType = .kline) ∧
      entries.filter (fun e => e.category ≠ klineCategory) = entries.filter (fun e => e.recordType = .scalar))
  ↔ ByCategory uses := by
  rw [filter_eq_filter_iff, filter_eq_filter_iff]
  constructor
  · rintro ⟨hk, hs⟩ u hu
    obtain ⟨e, he, rfl⟩ := List.mem_map.1 (h.mem_iff.2 (List.mem_dedup.2 hu))
    have hk' := hk e he
    have hs' := hs e he
    simp only [decide_eq_decide] at hk' hs'
    by_cases hc : e.category = klineCategory
    · rw [show (e.key, e.recordType).1.category = klineCategory from hc, if_pos rfl]
      exact hk'.1 hc
    · rw [if_neg (show ¬ (e.key, e.recordType).1.category = klineCategory from hc)]
      exact hs'.1 hc
  · intro hby
    have htype : ∀ e ∈ entries, e.recordType = if e.category = klineCategory then .kline else .scalar := fun e he =>
      hby (e.key, e.recordType) (List.mem_dedup.1 (h.mem_iff.1 (List.mem_map_of_mem he)))
    constructor
    · intro e he
      rw [htype e he]
      by_cases hc : e.category = klineCategory <;> simp [hc]
    · intro e he
      rw [htype e he]
      by_cases hc : e.category = klineCategory <;> simp [hc]

/-- **Where the series lie apart, the listings are exact if and only if the category of every series is that of its
record type.** -/
theorem lists_exactly (h : Built root uses s) (hap : SeriesApart uses) (env : Env) :
    (∃ entries, ListsExactly env uses s entries) ↔ ByCategory uses := by
  have hreg := h.registered hap
  obtain ⟨entries, hall, honce, hcounts⟩ := hreg.lists hap env
  have hklines : listKlineSeries env (waysOf uses) s = .ok (entries.filter (fun e => e.category = klineCategory)) := by
    unfold listKlineSeries
    rw [hall]
    rfl
  have hscalars : listScalarSeries env (waysOf uses) s = .ok (entries.filter (fun e => e.category ≠ klineCategory)) :=
    by
    unfold listScalarSeries
    rw [hall]
    rfl
  rw [← byCategory_iff honce]
  constructor
  · rintro ⟨entries', hlists⟩
    obtain rfl : entries = entries' := Except.ok.inj (hall.symm.trans hlists.all)
    exact ⟨Except.ok.inj (hklines.symm.trans hlists.klines), Except.ok.inj (hscalars.symm.trans hlists.scalars)⟩
  · rintro ⟨hk, hs⟩
    exact ⟨entries, hall, honce, hcounts, hk ▸ hklines, hs ▸ hscalars, fun u hu => hreg.reached hap hu⟩

end Category

/-- Regular calls that succeed, from a store on, build it further. -/
theorem Built.calls {root : Dir} {env : Env} (hfull : env.Faultless) : ∀ {cs : List Call} {n : Nat}
    {uses : List (ScalarSeriesKey × RecordType)} {s : Store}, Run root (fun env c s => env.Faultless ∧
      c.Regular s) n s → n + cs.length < 2 ^ 31 → Built root uses s →
    CallsOk env (fun env c s => c.Regular s ∧ (c.run env).result s = .ok ()) cs s →
    Built root (cs.foldl (fun uses c => c.uses ++ uses) uses) (runCalls env cs s)
  | [], _, _, _, _, _, h, _ => h
  | c :: cs, n, uses, s, hrun, hn, h, hok => by
    rw [List.length_cons] at hn
    have hroom := (hrun.good (by omega)).hasRoom (by unfold u32Max; omega)
    have hrest := Built.calls hfull (hrun.call env c ⟨hfull, hok.1.1⟩) (by omega) (h.call env c
      ⟨hfull, hroom, hok.1.1.fits⟩ hok.1.2) hok.2
    exact hrest

/-- A scalar series with a chunk, one below a longer symbol without any, and a kline series with two. -/
def sampleListedCalls : List Call :=
  [.putScalar ⟨"S", "factor", "z"⟩ 60000 (sampleTwoMonths.take 1) 128, .registerScalar ⟨"S/T", "factor",
    "z"⟩ 60000] ++ sampleKlineCalls

def sampleUses : List (ScalarSeriesKey × RecordType) := sampleListedCalls.foldl (fun uses c => c.uses ++ uses) []

def sampleListed : Store := runCalls (Env.plain 5) sampleListedCalls (Store.empty [])

theorem sampleListedCalls_ok : CallsOk (Env.plain 5)
    (fun env c s => c.Regular s ∧ (c.run env).result s = .ok ()) sampleListedCalls (Store.empty []) := by
  refine ⟨⟨⟨(fun _ hm => nomatch hm), fun _ => by decide, trivial, trivial⟩, by decide +kernel⟩,
    ⟨⟨trivial, trivial, trivial, trivial⟩, by decide +kernel⟩,
      ⟨⟨trivial, trivial, trivial, trivial⟩, by decide +kernel⟩,
    ⟨⟨?_, trivial, trivial, trivial⟩, by decide +kernel⟩, ⟨⟨?_, trivial, trivial, trivial⟩, by decide +kernel⟩, trivial⟩
  · show OfType .kline _
    decide +kernel
  · show OfType .kline _
    decide +kernel

theorem sampleListed_built : Built [] sampleUses sampleListed :=
  .calls (plain_faultless 5) .start (by decide) .start sampleListedCalls_ok

theorem lists_exactly_sample : (∃ entries, ListsExactly (Env.plain 6) sampleUses sampleListed entries) ∧
    sampleUses.dedup.length = 3 :=
  ⟨(lists_exactly sampleListed_built ⟨by decide +kernel, by decide +kernel, by decide +kernel,
    by decide +kernel⟩ (Env.plain 6)).2
    (by unfold ByCategory; decide +kernel), by decide +kernel⟩

/-! ### A series in the category `chunks` -/

def sampleChunksCall : Call := .registerScalar ⟨"S", "chunks", "z"⟩ 60000

def sampleChunks : Store := (sampleChunksCall.run (Env.plain 5)).final (Store.empty [])

/-- One accepted series whose directory passes one named `chunks`: the walk stops there and the listing fails. -/
theorem chunks_category_unlisted : ¬ ∀ root uses s, Built root uses s → ∀ env :
    Env, ∃ entries, ListsExactly env uses s entries := by
  intro h
  have hbuilt : Built [] sampleChunksCall.uses sampleChunks :=
    Built.start.call (Env.plain 5) sampleChunksCall ⟨plain_faultless 5, (fun _ _ hm => nomatch hm),
      trivial⟩ (by decide +kernel)
  obtain ⟨entries, hlists⟩ := h [] _ sampleChunks hbuilt (Env.plain 6)
  have hfails : (listSeries (Env.plain 6) (waysOf sampleChunksCall.uses) sampleChunks).toOption = none := by
    decide +kernel
  rw [hlists.all] at hfails
  cases hfails

end FastK
