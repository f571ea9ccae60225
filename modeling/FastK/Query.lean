import FastK.SeriesReader
/-!
# Scalar predicate queries

`query_scalar_predicate`: chunk by chunk the query goes through the value index, the zone map or the rows themselves,
whichever the predicate suits and the manifest lists.  Where the sidecars were built from the chunk's rows, the matches
are the stored rows that satisfy the predicate, whatever the choice (`queryScalarPredicate_exact`).
-/
namespace FastK

open Search Spans Ranges

structure ScalarSeriesKey where
  symbol : Text
  category : Text
  name : Text
  deriving DecidableEq, Repr

def ScalarSeriesKey.isBlank (key : ScalarSeriesKey) : Bool :=
  Text.isBlank key.symbol || Text.isBlank key.category || Text.isBlank key.name

structure ScalarPredicateQuery where
  key : ScalarSeriesKey
  startTs : Int
  endTs : Int
  predicate : ScalarPredicateExpr
  returnValues : Bool
  deriving DecidableEq, Repr

structure ScalarPredicateMatch where
  ts : Int
  value : Option Int
  deriving DecidableEq, Repr

inductive ScalarIndexKind where
  | zoneMap
  | valueIndex
  | zoneMapAndValueIndex
  | fullScan
  deriving DecidableEq, Repr

/-- The counters of a query; they saturate at 64 bits. -/
structure ScalarPredicateQueryStats where
  chunksConsidered : Nat
  chunksScanned : Nat
  chunksPruned : Nat
  blocksConsidered : Nat
  blocksScanned : Nat
  blocksPruned : Nat
  rowsChecked : Nat
  rowsMatched : Nat
  indexUsed : Option ScalarIndexKind
  fallbackScan : Bool
  deriving DecidableEq, Repr

def ScalarPredicateQueryStats.zero : ScalarPredicateQueryStats := ⟨0, 0, 0, 0, 0, 0, 0, 0, none, false⟩

structure ScalarPredicateQueryResult where
  «matches» : List ScalarPredicateMatch
  stats : ScalarPredicateQueryStats
  deriving DecidableEq, Repr

def markIndexUsed (stats : ScalarPredicateQueryStats) (kind : ScalarIndexKind) : ScalarPredicateQueryStats :=
  { stats with indexUsed :=
      match stats.indexUsed, kind with
      | none, next => some next
      | some .fullScan, next => some next
      | some existing, .fullScan => some existing
      | some .zoneMap, .valueIndex => some .zoneMapAndValueIndex
      | some .valueIndex, .zoneMap => some .zoneMapAndValueIndex
      | some .zoneMapAndValueIndex, _ => some .zoneMapAndValueIndex
      | some .zoneMap, .zoneMap => some .zoneMap
      | some .valueIndex, .valueIndex => some .valueIndex
      | some _, _ => some .zoneMapAndValueIndex }

def zmapKind : Text := "zmap"
def vixKind : Text := "vix"

def findSidecar (c : ChunkMeta) (kind : Text) : Option SidecarMeta := c.sidecars.find? (fun s => decide (s.kind = kind))

def hasSidecarKind (c : ChunkMeta) (kind : Text) : Bool := c.sidecars.any (fun s => decide (s.kind = kind))

/-- The sidecar of a kind, read and compared with the checksum of the manifest. -/
def loadSidecar (sd : SeriesDir) (c : ChunkMeta) (kind : Text) : Result FileBody :=
  match findSidecar c kind with
  | none => .error (.notFound (words ["missing ", kind, " sidecar for chunk ", c.relativePath]))
  | some s => sd.readSidecar s.relativePath s.checksum

/-- `read_row_ranges_from_file`: closed row ranges, read one after the other. -/
def readRowRanges (f : ChunkFile) : List (Nat × Nat) → List ScalarRecord → Result (List ScalarRecord)
  | [], out => .ok out
  | r :: rs, out =>
    if r.2 < r.1 then .error (.invalidData "scalar row span overflow")
    else
      match appendRecordSpan scalarAppendTexts f r.1 (r.2 - r.1 + 1) out with
      | .error e => .error e
      | .ok out' => readRowRanges f rs out'

section Queries

/-- `merge_row_ranges`: closed ranges of row numbers, which are unsigned 32-bit integers. -/
def mergeRowRanges (ranges : List (Nat × Nat)) : List (Nat × Nat) := merge u32Max ranges

variable (sd : SeriesDir) (query : ScalarPredicateQuery)

def queryMatch (ts value : Int) : ScalarPredicateMatch := ⟨ts, if query.returnValues then some value else none⟩

def inQueryRange (ts : Int) : Bool := decide (query.startTs ≤ ts ∧ ts ≤ query.endTs)

abbrev QueryState := List ScalarPredicateMatch × ScalarPredicateQueryStats

def queryViaZmap (c : ChunkMeta) (acc : QueryState) : Result QueryState :=
  match loadSidecar sd c zmapKind with
  | .error e => .error e
  | .ok (.zmap entries) =>
    let blocksConsidered := entries.countP (fun e => decide (query.startTs ≤ e.endTs ∧ e.startTs ≤ query.endTs))
    match candidateRowRangesForExpr entries query.predicate query.startTs query.endTs with
    | .error e => .error e
    | .ok rowRanges =>
      let stats := { acc.2 with
        blocksConsidered := satAdd acc.2.blocksConsidered blocksConsidered
        blocksPruned := satAdd acc.2.blocksPruned (blocksConsidered - rowRanges.length) }
      if rowRanges.isEmpty then .ok (acc.1, { stats with chunksPruned := satAdd stats.chunksPruned 1 })
      else
        let merged := mergeRowRanges rowRanges
        match withChunk sd scalarValidateHeader c (fun f => readRowRanges f merged []) with
        | .error e => .error e
        | .ok records =>
          .ok (acc.1 ++ (records.filter (fun r => inQueryRange query r.ts && query.predicate.matches r.value.val)).map
              (fun r => queryMatch query r.ts r.value.val),
            { stats with
              blocksScanned := satAdd stats.blocksScanned merged.length
              chunksScanned := satAdd stats.chunksScanned 1
              rowsChecked := satAdd stats.rowsChecked records.length })
  | .ok _ => .error (.invalidData "invalid zmap byte length")

def queryViaVix (c : ChunkMeta) (acc : QueryState) : Result QueryState :=
  match loadSidecar sd c vixKind with
  | .error e => .error e
  | .ok (.vix entries) =>
    match matchingSlicesForExpr entries query.predicate with
    | .error e => .error e
    | .ok slices =>
      if slices.isEmpty then .ok (acc.1, { acc.2 with chunksPruned := satAdd acc.2.chunksPruned 1 })
      else
        .ok (acc.1 ++ ((slices.flatMap (fun r => between entries r.1 r.2)).filter
            (fun e => inQueryRange query e.ts && query.predicate.matches e.value)).map
              (fun e => queryMatch query e.ts e.value),
          { acc.2 with
            chunksScanned := satAdd acc.2.chunksScanned 1
            rowsChecked := slices.foldl (fun n r => satAdd n (r.2 - r.1)) acc.2.rowsChecked })
  | .ok _ => .error (.invalidData "invalid vix byte length")

def queryViaRawScan (c : ChunkMeta) (acc : QueryState) : Result QueryState :=
  match withChunk sd scalarValidateHeader c (fun f => (scalarAppendRange f query.startTs query.endTs []).map Prod.snd) with
  | .error e => .error e
  | .ok records =>
    if records.isEmpty then .ok acc
    else
      .ok (acc.1 ++ (records.filter (fun r => query.predicate.matches r.value.val)).map
        (fun r => queryMatch query r.ts r.value.val), { acc.2 with
          chunksScanned := satAdd acc.2.chunksScanned 1
          rowsChecked := satAdd acc.2.rowsChecked records.length })

/-- One chunk of a query: the index the predicate suits, where the manifest lists it. -/
def queryChunk (c : ChunkMeta) (acc : QueryState) : Result QueryState :=
  let stats := { acc.2 with chunksConsidered := satAdd acc.2.chunksConsidered 1 }
  if query.predicate.isDiscreteLookupLike && hasSidecarKind c vixKind then
    queryViaVix sd query c (acc.1, markIndexUsed stats .valueIndex)
  else if query.predicate.isContinuousRangeLike && hasSidecarKind c zmapKind then
    queryViaZmap sd query c (acc.1, markIndexUsed stats .zoneMap)
  else
    queryViaRawScan sd query c (acc.1, { markIndexUsed stats .fullScan with fallbackScan := true })

def queryChunks : List ChunkMeta → QueryState → Result QueryState
  | [], acc => .ok acc
  | c :: cs, acc =>
    match queryChunk sd query c acc with
    | .error e => .error e
    | .ok acc' => queryChunks cs acc'

def queryScalarPredicatePrepared (m : SeriesMeta) : Result ScalarPredicateQueryResult :=
  let chunks := m.chunksIn (m.findChunksForRange query.startTs query.endTs)
  if chunks = [] then .ok ⟨[], .zero⟩
  else
    match queryChunks sd query chunks ([], .zero) with
    | .error e => .error e
    | .ok (found, stats) =>
      .ok ⟨sortByKey ScalarPredicateMatch.ts found, { stats with rowsMatched := found.length }⟩

def validateScalarPredicateQuery : Result Unit :=
  if query.key.isBlank then .error (.invalidInput "scalar predicate query key fields must not be empty")
  else if query.endTs < query.startTs then
    .error (.invalidInput (words ["scalar predicate query start_ts ", showInt query.startTs, " must be <= end_ts ",
      showInt query.endTs]))
  else query.predicate.validate

/-- `query_scalar_predicate` on the directory of the query's key. -/
def queryScalarPredicate : Result ScalarPredicateQueryResult :=
  match validateScalarPredicateQuery query with
  | .error e => .error e
  | .ok () =>
    if query.predicate.isImpossible then .ok ⟨[], .zero⟩
    else withMeta sd (fun m => queryScalarPredicatePrepared sd query m)

end Queries

/-! ## What a query finds -/

/-- Every sidecar the manifest lists for the chunk was built from its rows: a zone map with some block size, or the
value index; the manifest carries its checksum. -/
structure Indexed (sd : SeriesDir) (c : ChunkMeta) (rows : List ScalarRecord) : Prop where
  zmap : ∀ s ∈ c.sidecars, s.kind = zmapKind → ∃ entries blockSize, sd.lookup s.relativePath = some (.zmap entries) ∧
    zmapBuildEntries rows blockSize = .ok entries ∧ s.checksum = checksum64 (FileBody.zmap entries).bytes
  vix : ∀ s ∈ c.sidecars, s.kind = vixKind → sd.lookup s.relativePath = some (.vix (vixBuildEntries rows)) ∧
    s.checksum = checksum64 (FileBody.vix (vixBuildEntries rows)).bytes

/-- The matches of a list of rows. -/
def expectedMatches (query : ScalarPredicateQuery) (rows : List ScalarRecord) : List ScalarPredicateMatch :=
  ((inRange query.startTs query.endTs rows).filter (fun r => query.predicate.matches r.value.val)).map
    (fun r => queryMatch query r.ts r.value.val)

section Found

variable {sd : SeriesDir} {query : ScalarPredicateQuery} {c : ChunkMeta} {rows : List ScalarRecord}

theorem readSidecar_ok {rel : Text} {body : FileBody} (hl : sd.lookup rel = some body) :
    sd.readSidecar rel (checksum64 body.bytes) = .ok body := by
  unfold SeriesDir.readSidecar
  rw [hl]
  simp only
  rw [if_neg (by simp)]

theorem findSidecar_of_has {kind : Text} (h : hasSidecarKind c kind = true) :
    ∃ s ∈ c.sidecars, s.kind = kind ∧ findSidecar c kind = some s := by
  unfold hasSidecarKind at h
  rw [List.any_eq_true] at h
  obtain ⟨s, hs, hk⟩ := h
  cases hf : findSidecar c kind with
  | none =>
    unfold findSidecar at hf
    rw [List.find?_eq_none] at hf
    exact absurd hk (hf s hs)
  | some t =>
    refine ⟨t, List.mem_of_find?_eq_some hf, ?_, rfl⟩
    simpa using List.find?_some hf

theorem readRowRanges_ok {f : ChunkFile} (hf : Holds ScalarRecord f rows) : ∀ (rs : List (Nat × Nat))
    (out : List ScalarRecord),
    (∀ r ∈ rs, r.1 ≤ r.2 ∧ r.2 < rows.length) →
    readRowRanges f rs out = .ok (out ++ rs.flatMap (fun r => between rows r.1 (r.2 + 1)))
  | [], out, _ => by simp [readRowRanges]
  | r :: rs, out, h => by
    have hr := h r (by simp)
    unfold readRowRanges
    rw [if_neg (by omega), show r.2 - r.1 + 1 = (r.2 + 1) - r.1 by omega,
      hf.appendRecordSpan_ok scalarAppendTexts (by omega) (by omega)]
    simp only
    rw [readRowRanges_ok hf rs _ (fun q hq => h q (by simp [hq])), List.flatMap_cons, List.append_assoc]

/-- The candidate blocks once merged follow one another within the rows. -/
theorem merge_candidates {entries : List ZoneMapEntry} {p : ScalarPredicateExpr} {s e : Int} {ranges : List (Nat × Nat)}
    (hz : ZoneMapOf entries rows) (hr : candidateRowRangesForExpr entries p s e = .ok ranges) :
    (∀ r ∈ ranges, r.1 ≤ r.2 ∧ r.2 ≤ u32Max) ∧ (mergeRowRanges ranges).Pairwise (fun a b => a.2 < b.1) ∧
      ∀ r ∈ mergeRowRanges ranges, r.1 ≤ r.2 ∧ r.2 < rows.length := by
  have hin := (zoneMap_covers hz hr).1
  have hcap : ∀ r ∈ ranges, r.1 ≤ r.2 ∧ r.2 ≤ u32Max := by
    intro r hr
    have h1 := hin r hr
    have h2 := hz.length_le
    omega
  obtain ⟨hapart, hmerged⟩ := merge_apart hcap
  refine ⟨hcap, hapart, fun r hr => ⟨(hmerged r hr).1, ?_⟩⟩
  obtain ⟨q, hq, -, hq2⟩ := (covers_merge hcap r.2).1 ⟨r, hr, (hmerged r hr).1, le_refl _⟩
  have := hin q hq
  omega

/-- **The candidate blocks, merged and read, hold every row that is wanted**, and in the order of the rows. -/
theorem readCandidates_ok {entries : List ZoneMapEntry} {p : ScalarPredicateExpr} {s e : Int}
    {ranges : List (Nat × Nat)} {f : ChunkFile} (hz : ZoneMapOf entries rows)
    (hr : candidateRowRangesForExpr entries p s e = .ok ranges) (hf : Holds ScalarRecord f rows) :
    ∃ records, readRowRanges f (mergeRowRanges ranges) [] = .ok records ∧
      records.filter (fun r => decide (s ≤ r.ts ∧ r.ts ≤ e) && p.matches r.value.val) =
        rows.filter (fun r => decide (s ≤ r.ts ∧ r.ts ≤ e) && p.matches r.value.val) := by
  have hcov := (zoneMap_covers hz hr).2
  obtain ⟨hcap, hapart, hinm⟩ := merge_candidates hz hr
  -- a row that is wanted lies in a candidate block, so in the merged ranges
  have hwanted : ∀ i r, 0 ≤ i → rows[i]? = some r → (decide (s ≤ r.ts ∧ r.ts ≤ e) && p.matches r.value.val) = true →
      Covers (mergeRowRanges ranges) i := by
    intro i r _ hri hp
    rw [Bool.and_eq_true, decide_eq_true_iff] at hp
    exact (covers_merge hcap i).2 (hcov i r hri hp.1.1 hp.1.2 hp.2)
  refine ⟨_, readRowRanges_ok hf _ _ hinm, ?_⟩
  rw [List.nil_append, flatMap_between 0 hapart (fun r hr => ⟨Nat.zero_le _, (hinm r hr).1⟩) hwanted, List.drop_zero]

theorem filter_query (query : ScalarPredicateQuery) (rows : List ScalarRecord) :
    rows.filter (fun r => inQueryRange query r.ts && query.predicate.matches r.value.val)
      = (inRange query.startTs query.endTs rows).filter (fun r => query.predicate.matches r.value.val) := by
  unfold inRange
  rw [List.filter_filter]
  refine List.filter_congr (fun r _ => ?_)
  rw [Bool.and_comm]
  rfl

theorem loadZmap_built (hi : Indexed sd c rows) (hk : hasSidecarKind c zmapKind = true) :
    ∃ entries blockSize, loadSidecar sd c zmapKind = .ok (.zmap entries) ∧
      zmapBuildEntries rows blockSize = .ok entries := by
  obtain ⟨s, hs, hkind, hfind⟩ := findSidecar_of_has hk
  obtain ⟨entries, blockSize, hl, hbuild, hsum⟩ := hi.zmap s hs hkind
  refine ⟨entries, blockSize, ?_, hbuild⟩
  unfold loadSidecar
  rw [hfind]
  simp only
  rw [hsum, readSidecar_ok hl]

theorem loadZmap_ok (hi : Indexed sd c rows) (hk : hasSidecarKind c zmapKind = true) (hne : rows ≠ []) :
    ∃ entries, loadSidecar sd c zmapKind = .ok (.zmap entries) ∧ ZoneMapOf entries rows := by
  obtain ⟨entries, blockSize, hload, hbuild⟩ := loadZmap_built hi hk
  exact ⟨entries, hload, zoneMapOf_build hne hbuild⟩

theorem loadVix_ok (hi : Indexed sd c rows) (hk : hasSidecarKind c vixKind = true) :
    loadSidecar sd c vixKind = .ok (.vix (vixBuildEntries rows)) := by
  obtain ⟨s, hs, hkind, hfind⟩ := findSidecar_of_has hk
  obtain ⟨hl, hsum⟩ := hi.vix s hs hkind
  unfold loadSidecar
  rw [hfind]
  simp only
  rw [hsum, readSidecar_ok hl]

/-- One chunk contributes its expected matches, in some order. -/
def Contributes (query : ScalarPredicateQuery) (rows : List ScalarRecord) (acc : QueryState)
    (r : Result QueryState) : Prop :=
  ∃ found stats, r = .ok (acc.1 ++ found, stats) ∧ found.Perm (expectedMatches query rows)

theorem queryViaZmap_ok (hi : Indexed sd c rows) (hne : rows ≠ []) (hv : query.predicate.validate = .ok ())
    (hk : hasSidecarKind c zmapKind = true)
    (hw : ∀ {α : Type} (read : ChunkFile → Result α), ∃ f, Holds ScalarRecord f rows ∧
      withChunk sd scalarValidateHeader c read = read f)
    (acc : QueryState) : Contributes query rows acc (queryViaZmap sd query c acc) := by
  obtain ⟨entries, hload, hz⟩ := loadZmap_ok hi hk hne
  unfold queryViaZmap
  rw [hload]
  simp only
  cases hr : candidateRowRangesForExpr entries query.predicate query.startTs query.endTs with
  | error e =>
    unfold candidateRowRangesForExpr at hr
    rw [hv] at hr
    cases hr
  | ok ranges =>
    obtain ⟨f, hf, hread⟩ := hw (fun f => readRowRanges f (mergeRowRanges ranges) [])
    obtain ⟨records, hrecords, hfound⟩ := readCandidates_ok hz hr hf
    have hfound' : records.filter (fun r => inQueryRange query r.ts && query.predicate.matches r.value.val) =
        (inRange query.startTs query.endTs rows).filter (fun r => query.predicate.matches r.value.val) :=
      hfound.trans (filter_query query rows)
    simp only
    by_cases hnil : ranges.isEmpty = true
    · rw [if_pos hnil]
      refine ⟨[], _, by rw [List.append_nil], ?_⟩
      rw [List.isEmpty_iff.1 hnil] at hrecords
      obtain rfl := Except.ok.inj hrecords
      unfold expectedMatches
      rw [← hfound']
      rfl
    · rw [if_neg hnil, hread, hrecords]
      simp only
      refine ⟨_, _, rfl, List.Perm.of_eq ?_⟩
      unfold expectedMatches
      rw [hfound']

theorem queryViaVix_ok (hi : Indexed sd c rows) (hv : query.predicate.validate = .ok ())
    (hk : hasSidecarKind c vixKind = true) (acc : QueryState) :
    Contributes query rows acc (queryViaVix sd query c acc) := by
  unfold queryViaVix
  rw [loadVix_ok hi hk]
  simp only
  cases hr : matchingSlicesForExpr (vixBuildEntries rows) query.predicate with
  | error e =>
    unfold matchingSlicesForExpr at hr
    rw [hv] at hr
    simp only at hr
    split at hr <;> cases hr
  | ok slices =>
    have hperm := matchingSlices_perm (vixBuildEntries_sorted rows) hr
    -- slices, then time range, then predicate: the index's own order of the expected matches
    have hfound : ((slices.flatMap (fun r => between (vixBuildEntries rows) r.1 r.2)).filter
        (fun e => inQueryRange query e.ts && query.predicate.matches e.value)).Perm
        ((vixBuildEntries rows).filter (fun e => inQueryRange query e.ts && query.predicate.matches e.value)) := by
      have := hperm.filter (fun e => inQueryRange query e.ts)
      rwa [List.filter_filter, List.filter_filter] at this
    have hall : (((vixBuildEntries rows).filter (fun e =>
      inQueryRange query e.ts && query.predicate.matches e.value)).map
        (fun e => queryMatch query e.ts e.value)).Perm (expectedMatches query rows) := by
      unfold expectedMatches
      rw [← filter_query]
      refine (((vixBuildEntries_perm rows).filter _).map _).trans (List.Perm.of_eq ?_)
      rw [List.filter_map, List.map_map]
      rfl
    simp only
    by_cases hnil : slices.isEmpty = true
    · rw [if_pos hnil]
      refine ⟨[], _, by rw [List.append_nil], ?_⟩
      rw [List.isEmpty_iff.1 hnil] at hfound
      exact (hfound.map (fun e => queryMatch query e.ts e.value)).trans hall
    · rw [if_neg hnil]
      exact ⟨_, _, rfl, (hfound.map _).trans hall⟩

theorem queryViaRawScan_ok
    (hw : ∀ {α : Type} (read : ChunkFile → Result α), ∃ f, Holds ScalarRecord f rows ∧
      withChunk sd scalarValidateHeader c read = read f)
    (acc : QueryState) : Contributes query rows acc (queryViaRawScan sd query c acc) := by
  obtain ⟨f, hf, hread⟩ := hw (fun f => (scalarAppendRange f query.startTs query.endTs []).map Prod.snd)
  obtain ⟨path, hpath⟩ := scalarAppendRange_ok hf query.startTs query.endTs []
  unfold queryViaRawScan
  rw [hread, hpath]
  simp only [Except.map, List.nil_append]
  by_cases hnil : (inRange query.startTs query.endTs rows).isEmpty = true
  · rw [if_pos hnil]
    refine ⟨[], acc.2, by rw [List.append_nil], ?_⟩
    unfold expectedMatches
    rw [List.isEmpty_iff.1 hnil]
    rfl
  · rw [if_neg hnil]
    exact ⟨_, _, rfl, List.Perm.refl _⟩

end Found

section Exact

variable {sd : SeriesDir} {query : ScalarPredicateQuery} {m : SeriesMeta} {rowsOf : ChunkMeta → List ScalarRecord}

/-- **Whichever index a chunk is asked through, it contributes its expected matches.** -/
theorem queryChunk_ok (h : Stored ScalarRecord sd m rowsOf) (hi : ∀ c ∈ m.chunks, Indexed sd c (rowsOf c))
    (hv : query.predicate.validate = .ok ()) {c : ChunkMeta} (hc : c ∈ m.chunks) (acc : QueryState) :
    Contributes query (rowsOf c) acc (queryChunk sd query c acc) := by
  have hw : ∀ {α : Type} (read : ChunkFile → Result α),
      ∃ f, Holds ScalarRecord f (rowsOf c) ∧ withChunk sd scalarValidateHeader c read = read f := fun read =>
    h.withChunk_ok _ hc (fun f hf => hf.validateHeader_ok _ _) read
  have hne : rowsOf c ≠ [] := by
    obtain ⟨f, -, hf, -⟩ := h.held c hc
    exact hf.ne_nil
  unfold queryChunk
  simp only
  split
  · rename_i hvix
    rw [Bool.and_eq_true] at hvix
    exact queryViaVix_ok (hi c hc) hv hvix.2 _
  · split
    · rename_i hzmap
      rw [Bool.and_eq_true] at hzmap
      exact queryViaZmap_ok (hi c hc) hne hv hzmap.2 hw _
    · exact queryViaRawScan_ok hw _

theorem queryChunks_ok (h : Stored ScalarRecord sd m rowsOf) (hi : ∀ c ∈ m.chunks, Indexed sd c (rowsOf c))
    (hv : query.predicate.validate = .ok ()) : ∀ (cs : List ChunkMeta) (acc : QueryState), (∀ c ∈ cs, c ∈ m.chunks) →
    ∃ found stats, queryChunks sd query cs acc = .ok (acc.1 ++ found, stats) ∧
      found.Perm (cs.flatMap (fun c => expectedMatches query (rowsOf c)))
  | [], acc, _ => ⟨[], acc.2, by simp [queryChunks], List.Perm.refl _⟩
  | c :: cs, acc, hcs => by
    obtain ⟨found, stats, hc, hp⟩ := queryChunk_ok h hi hv (hcs c (by simp)) acc
    obtain ⟨found', stats', hrest, hp'⟩ := queryChunks_ok h hi hv cs (acc.1 ++ found, stats) (fun d hd =>
      hcs d (by simp [hd]))
    refine ⟨found ++ found', stats', ?_, ?_⟩
    · unfold queryChunks
      rw [hc]
      simp only
      rw [hrest, List.append_assoc]
    · rw [List.flatMap_cons]
      exact hp.append hp'

theorem expectedMatches_sorted (query : ScalarPredicateQuery) {rows : List ScalarRecord}
    (h : rows.Pairwise (fun a b => a.ts < b.ts)) :
    (expectedMatches query rows).Pairwise (fun a b => a.ts < b.ts) := by
  unfold expectedMatches
  rw [List.pairwise_map]
  exact h.sublist (List.filter_sublist.trans List.filter_sublist)

/-- Sorting by timestamp undoes any order of matches with different timestamps. -/
theorem sortByKey_matches {found expected : List ScalarPredicateMatch} (hp : found.Perm expected)
    (hs : expected.Pairwise (fun a b => a.ts < b.ts)) : sortByKey ScalarPredicateMatch.ts found = expected := by
  have h1 := sortByKey_perm ScalarPredicateMatch.ts found
  have h2 := sortByKey_sorted ScalarPredicateMatch.ts found
  have hlt : (sortByKey ScalarPredicateMatch.ts found).Pairwise (fun a b => a.ts < b.ts) := by
    have hne : (sortByKey ScalarPredicateMatch.ts found).Pairwise (fun a b => a.ts ≠ b.ts) :=
      ((h1.trans hp).pairwise_iff (fun {_ _} hab hba => hab hba.symm)).2 (hs.imp (fun hab => ne_of_lt hab))
    exact (h2.and hne).imp (fun hab => lt_of_le_of_ne hab.1 hab.2)
  refine (h1.trans hp).eq_of_pairwise ?_ hlt hs
  intro a b _ _ hab hba
  omega

/-- **A predicate query returns one match for every stored row in range that satisfies the predicate**, in increasing
timestamp order, with the row's value where it is asked for; the sidecars present change nothing. -/
theorem queryScalarPredicate_exact (h : Stored ScalarRecord sd m rowsOf) (hi : ∀ c ∈ m.chunks, Indexed sd c (rowsOf c))
    (hkey : query.key.isBlank = false) (hse : query.startTs ≤ query.endTs) (hv : query.predicate.validate = .ok ()) :
    ∃ stats, queryScalarPredicate sd query = .ok ⟨expectedMatches query (m.chunks.flatMap rowsOf), stats⟩ ∧
      (expectedMatches query (m.chunks.flatMap rowsOf)).Pairwise (fun a b => a.ts < b.ts) := by
  have hsorted := expectedMatches_sorted query (ordered_scalars.1 h.ordered)
  have hflat : (m.chunksIn (m.findChunksForRange query.startTs query.endTs)).flatMap (fun c =>
    expectedMatches query (rowsOf c))
      = expectedMatches query (m.chunks.flatMap rowsOf) := by
    unfold expectedMatches
    rw [← h.flatMap_inRange hse, List.filter_flatMap, List.map_flatMap]
  unfold queryScalarPredicate validateScalarPredicateQuery
  rw [hkey, if_neg (by simp), if_neg (by omega), hv]
  simp only
  cases himp : query.predicate.isImpossible with
  | true =>
    refine ⟨.zero, ?_, hsorted⟩
    rw [if_pos rfl]
    congr 2
    unfold expectedMatches
    symm
    rw [List.map_eq_nil_iff, List.filter_eq_nil_iff]
    intro r _
    cases hp : query.predicate with
    | inSet values =>
      rw [hp] at himp
      simp only [ScalarPredicateExpr.isImpossible, List.isEmpty_iff] at himp
      simp [ScalarPredicateExpr.matches, himp]
    | _ =>
      rw [hp] at himp
      cases himp
  | false =>
    rw [if_neg (by simp), withMeta_ok h]
    unfold queryScalarPredicatePrepared
    simp only
    by_cases hnil : m.chunksIn (m.findChunksForRange query.startTs query.endTs) = []
    · rw [if_pos hnil]
      rw [hnil] at hflat
      rw [← hflat]
      exact ⟨_, rfl, List.Pairwise.nil⟩
    · rw [if_neg hnil]
      obtain ⟨found, stats, hrun, hp⟩ := queryChunks_ok h hi hv _ ([], .zero)
        (fun c hc => SeriesMeta.chunksIn_subset hc)
      rw [hrun, List.nil_append]
      rw [hflat] at hp
      simp only
      rw [sortByKey_matches hp hsorted]
      exact ⟨_, rfl, hsorted⟩

end Exact

/-! ### A series of one chunk with both sidecars -/

def sampleScalars : List ScalarRecord := [⟨0, ⟨5, by decide⟩⟩, ⟨60000, ⟨7, by decide⟩⟩, ⟨120000, ⟨5, by decide⟩⟩]

def sampleZmap : List ZoneMapEntry := [⟨0, 1, 0, 60000, 5, 7⟩, ⟨2, 2, 120000, 120000, 5, 5⟩]

def sampleScalarMeta (chunks : List ChunkMeta) : SeriesMeta :=
  { sampleMeta chunks with category := "indicator", name := "rsi", recordType := .scalar, recordSize := 16, schemaId := scalarSchemaId }

def sampleScalarFile : ChunkFile :=
  chunkFileOf (sampleScalarMeta []) sampleScalars (sampleOptions 1 "chunks/1970-01.chunk") (anchors 2 sampleScalars)

def sampleScalarChunk : ChunkMeta :=
  { chunkMetaOf sampleScalarFile "1970-01" (sampleOptions 1 "chunks/1970-01.chunk") with
    chunkChecksum := 0
    sidecars := [
      ⟨zmapKind, "chunks/1970-01.chunk.zmap", 1, checksum64 (FileBody.zmap sampleZmap).bytes, 2, 2⟩,
      ⟨vixKind, "chunks/1970-01.chunk.vix", 1, checksum64 (FileBody.vix (vixBuildEntries sampleScalars)).bytes, 0, 3⟩] }

def sampleScalarSeries : SeriesDir where
  manifest := .current (sampleScalarMeta [sampleScalarChunk])
  chunksDir := true
  files := [("1970-01.chunk", .chunk sampleScalarFile), ("1970-01.chunk.zmap", .zmap sampleZmap),
    ("1970-01.chunk.vix", .vix (vixBuildEntries sampleScalars))]

theorem sampleScalarSeries_stored :
    Stored ScalarRecord sampleScalarSeries (sampleScalarMeta [sampleScalarChunk]) (fun _ => sampleScalars) := by
  refine ⟨rfl, by decide, fun c hc => ?_⟩
  obtain rfl := List.mem_singleton.1 hc
  exact ⟨sampleScalarFile, rfl, holds_chunkFileOf (sampleScalarMeta []) (sampleOptions 1 "chunks/1970-01.chunk")
    (ordered_scalars.2 (by decide)) (by decide) (by decide), rfl, rfl, rfl⟩

theorem sampleScalarSeries_indexed : Indexed sampleScalarSeries sampleScalarChunk sampleScalars := by
  constructor
  · intro s hs hk
    rcases List.mem_cons.1 hs with rfl | hs
    · exact ⟨sampleZmap, 2, rfl, by decide, rfl⟩
    · obtain rfl := List.mem_singleton.1 hs
      exact absurd hk (by decide)
  · intro s hs hk
    rcases List.mem_cons.1 hs with rfl | hs
    · exact absurd hk (by decide)
    · obtain rfl := List.mem_singleton.1 hs
      exact ⟨rfl, rfl⟩

/-- The rows of value 5 up to the second minute, through the value index. -/
theorem queryScalarPredicate_exact_sample : ∃ stats,
    queryScalarPredicate sampleScalarSeries ⟨⟨"BTCUSDT", "indicator", "rsi"⟩, 0, 120000, .eq 5, true⟩
      = .ok ⟨[⟨0, some 5⟩, ⟨120000, some 5⟩], stats⟩ := by
  obtain ⟨stats, h, -⟩ := @queryScalarPredicate_exact _
    ⟨⟨"BTCUSDT", "indicator", "rsi"⟩, 0, 120000, .eq 5, true⟩ _ _ sampleScalarSeries_stored
    (fun c hc => by
      obtain rfl := List.mem_singleton.1 hc
      exact sampleScalarSeries_indexed)
    (by decide) (by decide) (by decide)
  exact ⟨stats, h.trans (by rw [show expectedMatches _ _ = [⟨0, some 5⟩, ⟨120000, some 5⟩] by decide])⟩

end FastK
