import FastK.Lib.Versioned
import FastK.Manifest
/-!
# Recovering a series directory

`recover_series_dir` (`storage/recovery.rs`): the chunk files on disk are compared with the manifest one by one, in
order of their first timestamp.  A file whose time range meets no tracked chunk is adopted; one that meets tracked
chunks replaces them when it is newer than all of them and covers them.  A missing or broken manifest is first rebuilt
from the files.  Recovery of a valid manifest succeeds and saves a valid one (`recoverSeriesDir_sound`).
-/
namespace FastK

open Spans Versioned

/-! ## Scanning -/

/-- The order in which the operating system lists a directory: any order. -/
def DirOrder := { f : List (Text × FileBody) → List (Text × FileBody) // ∀ l, (f l).Perm l }

def DirOrder.asListed : DirOrder := ⟨fun l => l, fun l => List.Perm.refl l⟩

def chunkSuffix : Text := ".chunk"

def isChunkName (name : Text) : Bool := Text.endsWith name chunkSuffix

def isSidecarName (name : Text) : Bool := !isChunkName name && Text.contains name ".chunk.".toList

/-- The path of the chunk a sidecar belongs to. -/
def parentChunkRelativePath (sidecarRelativePath : Text) : Result Text :=
  match Text.rsplitOnce '.' sidecarRelativePath with
  | none => .error (.invalidData (words ["invalid sidecar relative path: ", sidecarRelativePath]))
  | some (path, _) =>
    if Text.endsWith path chunkSuffix then .ok path
    else .error (.invalidData (words ["sidecar path does not resolve to a chunk: ", sidecarRelativePath]))

def sidecarMetaOf (name : Text) (body : FileBody) : SidecarMeta where
  kind := Text.afterLast '.' name
  relativePath := chunkRelativePath name
  generation := 0
  checksum := checksum64 body.bytes
  blockSize := 0
  recordCount :=
    if Text.afterLast '.' name = zmapKind then body.bytes.length / 40
    else if Text.afterLast '.' name = vixKind then body.bytes.length / 16
    else 0

def scanSidecarFiles (listing : List (Text × FileBody)) : List SidecarMeta :=
  (listing.filter (fun p => isSidecarName p.1)).map (fun p => sidecarMetaOf p.1 p.2)

def decodeChunkState (fileName : Text) : ChunkState :=
  if Text.contains fileName ".delta.".toList then .active else .sealed

/-- The manifest entry recovery makes of a chunk file. -/
def scannedChunk (name : Text) (f : ChunkFile) (key : Text) (sidecars : List SidecarMeta) : ChunkMeta where
  chunkId := f.header.chunkId
  monthKey := key
  startTs := f.header.startTs
  endTs := f.header.endTs
  count := f.header.count
  state := decodeChunkState name
  layoutVersion := f.header.version
  headerLen := f.header.headerSize
  sparseIndexEvery := f.header.sparseIndexEvery % 2 ^ 32
  sparseIndexOffset := f.header.indexOffset
  sparseIndexLen := f.header.indexLen % 2 ^ 32
  chunkChecksum := checksum64 f.bytes
  generation := f.header.generation % 2 ^ 32
  relativePath := chunkRelativePath name
  sidecars := sidecars

/-- The sidecars of a chunk path, by their own path. -/
def sidecarsOf (sidecars : List (Text × SidecarMeta)) (relativePath : Text) : List SidecarMeta :=
  ((sidecars.filter (fun s => decide (s.1 = relativePath))).map Prod.snd).insertionSort
    (fun a b => Text.le a.relativePath b.relativePath = true)

def scanChunkFile (sidecars : List (Text × SidecarMeta)) (p : Text × FileBody) : Result ChunkMeta :=
  match p.2 with
  | .chunk f =>
    match f.header.validate with
    | .error e => .error e
    | .ok () =>
      match monthKey f.header.startTs with
      | .error e => .error e
      | .ok key => .ok (scannedChunk p.1 f key (sidecarsOf sidecars (chunkRelativePath p.1)))
  | _ => .error (.invalidData "invalid chunk magic")

def scanChunkFiles (order : DirOrder) (sd : SeriesDir) : Result (List ChunkMeta) :=
  if sd.chunksDir = false then .ok []
  else
    let listing := order.1 sd.files
    match collect (fun s => (parentChunkRelativePath s.relativePath).map (fun parent => (parent, s))) (scanSidecarFiles listing) with
    | .error e => .error e
    | .ok sidecars =>
      match collect (scanChunkFile sidecars) (listing.filter (fun p => isChunkName p.1)) with
      | .error e => .error e
      | .ok chunks => .ok (sortByKey ChunkMeta.startTs chunks)

/-! ## Overlaps -/

structure OverlapResolution where
  monthKey : Text
  winnerRelativePath : Option Text
  participants : List Text
  reason : Text
  deriving DecidableEq, Repr

/-- The rank of `a` is at least that of `b`: generation, then length, rows and path. -/
def Outranks (a b : ChunkMeta) : Prop :=
  b.generation < a.generation ∨ b.generation = a.generation ∧
    (satSub b.endTs b.startTs < satSub a.endTs a.startTs ∨ satSub b.endTs b.startTs = satSub a.endTs a.startTs ∧
      (b.count < a.count ∨ b.count = a.count ∧ Text.le b.relativePath a.relativePath = true))

instance : DecidableRel Outranks := fun a b => by
  unfold Outranks
  exact inferInstance

/-- `choose_surviving_chunk_for_overlap`: the best ranked chunk that covers the whole overlap. -/
def chooseSurvivingChunkForOverlap (chunks : List ChunkMeta) : OverlapResolution :=
  let participants := (chunks.map ChunkMeta.relativePath).insertionSort (fun a b => Text.le a b = true)
  match chunks with
  | [] => ⟨[], none, participants, "empty overlap set"⟩
  | first :: rest =>
    let minStart := rest.foldl (fun acc c => min acc c.startTs) first.startTs
    let maxEnd := rest.foldl (fun acc c => max acc c.endTs) first.endTs
    match (chunks.insertionSort Outranks).find? (fun c => decide (c.startTs ≤ minStart ∧ maxEnd ≤ c.endTs)) with
    | some c => ⟨c.monthKey, some c.relativePath, participants,
        words ["generation ", showNat c.generation, " fully covers overlap window [", showInt minStart, "..=",
          showInt maxEnd, "]"]⟩
    | none => ⟨first.monthKey, none, participants, "no single chunk fully covers the overlap window"⟩

/-- Groups of chunks chained by overlaps; single chunks are no group. -/
def overlapGroupsFrom : List ChunkMeta → Int → List ChunkMeta → List (List ChunkMeta)
  | current, _, [] => if 1 < current.length then [current] else []
  | current, currentEnd, c :: cs =>
    if current.isEmpty then overlapGroupsFrom [c] c.endTs cs
    else if c.startTs ≤ currentEnd then overlapGroupsFrom (current ++ [c]) (max currentEnd c.endTs) cs
    else (if 1 < current.length then [current] else []) ++ overlapGroupsFrom [c] c.endTs cs

def overlapGroups (chunks : List ChunkMeta) : List (List ChunkMeta) :=
  overlapGroupsFrom [] i64Min (sortByKey ChunkMeta.startTs chunks)

/-- The paths every group loses to its winner. -/
def discardedPaths : List (List ChunkMeta) → Result (List Text)
  | [] => .ok []
  | group :: groups =>
    let resolution := chooseSurvivingChunkForOverlap group
    match resolution.winnerRelativePath with
    | none => .error (.invalidData (words ["cannot rebuild manifest because overlap is ambiguous: ",
        resolution.reason]))
    | some winner =>
      match discardedPaths groups with
      | .error e => .error e
      | .ok paths => .ok ((group.map ChunkMeta.relativePath).filter (fun path => decide (path ≠ winner)) ++ paths)

def selectNonOverlappingChunks (chunks : List ChunkMeta) : Result (List ChunkMeta) :=
  let groups := overlapGroups chunks
  if groups.isEmpty then .ok chunks
  else
    match discardedPaths groups with
    | .error e => .error e
    | .ok discarded =>
      .ok (sortByKey ChunkMeta.startTs (chunks.filter (fun c => decide (c.relativePath ∉ discarded))))

/-! ## Rebuilding -/

def recordTypeOfSchema (schemaId : Nat) : Result RecordType :=
  if schemaId = klineSchemaId then .ok .kline
  else if schemaId = scalarSchemaId then .ok .scalar
  else if schemaId = tradeSchemaId then .ok .trade
  else if schemaId = bboSchemaId then .ok .bbo
  else if schemaId = bookDeltaSchemaId then .ok .bookDelta
  else .error (.invalidData (words ["unsupported schema_id during recovery: ", showNat schemaId]))

/-- The last three components of a path, as symbol, category and name. -/
def pathIdentity (path : Dir) : Result ScalarSeriesKey :=
  match path.reverse with
  | name :: category :: symbol :: _ => .ok ⟨symbol, category, name⟩
  | [_, _] => .error (.invalidData "invalid symbol dir name")
  | [_] => .error (.invalidData "invalid category dir name")
  | [] => .error (.invalidData "invalid series dir name")

/-- `build_series_meta_from_chunks`: what the headers and the path do not say can only be filled in for scalar series.
-/
def buildSeriesMetaFromChunks (now : Int) (path : Dir) (sd : SeriesDir) (chunks : List ChunkMeta) : Result SeriesMeta :=
  match chunks with
  | [] => .error (.notFound "no chunk files found")
  | first :: _ =>
    match sd.openChunk first.relativePath with
    | .error e => .error e
    | .ok f =>
      match pathIdentity path with
      | .error e => .error e
      | .ok key =>
        match recordTypeOfSchema f.header.schemaId with
        | .error e => .error e
        | .ok recordType =>
          let base : Result SeriesMeta :=
            match sd.loadSeriesMeta with
            | .ok existing =>
              if existing.recordType ≠ recordType ∨ existing.schemaId ≠ f.header.schemaId ∨
                  existing.timeframeMs ≠ f.header.timeframeMs ∨ existing.symbol ≠ key.symbol ∨
                  existing.category ≠ key.category ∨ existing.name ≠ key.name then
                .error (.invalidData "existing semantic metadata does not match chunk identity")
              else .ok existing
            | .error _ =>
              if recordType = .scalar then .ok (buildScalarMeta now key f.header.timeframeMs)
              else .error (.invalidData
                "cannot reconstruct semantic metadata from chunk headers; restore the original series.meta backup before recovery (scales/partition policy must not be guessed)")
          match base with
          | .error e => .error e
          | .ok m =>
            checked { m with
              category := key.category
              recordSize := f.header.recordSize
              schemaId := f.header.schemaId
              seriesId := max f.header.seriesId (seriesIdFor key.symbol key.category key.name)
              chunks := chunks
              activeChunkId := lastActive chunks
              manifestSeq := satAdd m.manifestSeq 1
              updatedAt := now }

def rebuildManifest (now : Int) (path : Dir) (order : DirOrder) (sd : SeriesDir) : Result SeriesMeta :=
  match scanChunkFiles order sd with
  | .error e => .error e
  | .ok chunks =>
    if chunks.isEmpty then .error (.notFound "no chunk files found")
    else
      match selectNonOverlappingChunks chunks with
      | .error e => .error e
      | .ok survivors => buildSeriesMetaFromChunks now path sd survivors

/-! ## Recovery of one directory -/

structure RecoveryReport where
  removedTempFiles : Nat
  rebuiltManifests : Nat
  adoptedChunks : Nat
  dryRun : Bool
  removedTempPaths : List (Dir × Text)
  rebuiltManifestPaths : List Dir
  adoptedChunkPaths : List (Dir × Text)
  overlapResolutions : List (Dir × OverlapResolution)
  deriving DecidableEq, Repr

structure RecoveryOptions where
  dryRun : Bool
  deriving DecidableEq, Repr

def RecoveryReport.start (options : RecoveryOptions) : RecoveryReport := ⟨0, 0, 0, options.dryRun, [], [], [], []⟩

/-- A merging chunk becomes readable again unless a newer chunk covers it. -/
def normalizeChunk (active : Option Nat) (readable : List ChunkMeta) (c : ChunkMeta) : ChunkMeta :=
  if c.state ≠ .merging then c
  else
    let overlaps := readable.filter (fun d => decide (d.relativePath ≠ c.relativePath ∧ c.generation < d.generation ∧
      SpansMeet d c))
    let winner := (chooseSurvivingChunkForOverlap (overlaps ++ [c])).winnerRelativePath
    if winner = none ∨ winner = some c.relativePath then
      { c with state := if active = some c.chunkId then .active else .sealed }
    else c

/-- `normalize_dangling_merging_states`, with whether anything changed. -/
def normalizeDanglingMergingStates (m : SeriesMeta) : SeriesMeta × Bool :=
  let chunks := m.chunks.map (normalizeChunk m.activeChunkId m.chunks)
  ({ m with chunks := chunks },
    m.chunks.any (fun c => decide ((normalizeChunk m.activeChunkId m.chunks c).state ≠ c.state)))

structure Adoption where
  chunks : List ChunkMeta
  changed : Bool
  report : RecoveryReport
  deriving DecidableEq, Repr

/-- One file of the directory against the chunks tracked so far. -/
def adoptCandidate (path : Dir) (st : Adoption) (candidate : ChunkMeta) : Adoption :=
  if st.chunks.any (fun c => decide (c.relativePath = candidate.relativePath)) then st
  else
    let overlapping := st.chunks.filter (fun c => decide (SpansMeet c candidate))
    if overlapping.isEmpty then
      { st with
        chunks := st.chunks ++ [candidate], changed := true,
        report := { st.report with adoptedChunks := st.report.adoptedChunks + 1 } }
    else if overlapping.any (fun c => decide (candidate.generation ≤ c.generation)) then st
    else
      let resolution := chooseSurvivingChunkForOverlap (overlapping ++ [candidate])
      let report := { st.report with overlapResolutions := st.report.overlapResolutions ++ [(path, resolution)] }
      if resolution.winnerRelativePath = some candidate.relativePath then
        { chunks := st.chunks.filter (fun c => !decide (SpansMeet c candidate)) ++ [candidate], changed := true,
          report := { report with
            adoptedChunks := report.adoptedChunks + 1
            adoptedChunkPaths := report.adoptedChunkPaths ++ [(path, candidate.relativePath)] } }
      else { st with report := report }

/-- The manifest after the candidates have been gone through. -/
def adoptAll (path : Dir) (candidates : List ChunkMeta) (m : SeriesMeta) (report : RecoveryReport) : Adoption :=
  candidates.foldl (adoptCandidate path)
    ⟨(normalizeDanglingMergingStates m).1.chunks, (normalizeDanglingMergingStates m).2, report⟩

/-- The manifest saved when recovery changed it. -/
def recoveredMeta (now : Int) (m : SeriesMeta) (chunks : List ChunkMeta) : SeriesMeta :=
  let next := m.withChunks now chunks
  { next with activeChunkId := lastActive next.chunks }

def recoverFrom (now : Int) (path : Dir) (options : RecoveryOptions) (candidates : List ChunkMeta) (m : SeriesMeta)
    (report : RecoveryReport) : List SeriesMeta × Result RecoveryReport :=
  let st := adoptAll path candidates m report
  if st.changed && !options.dryRun then
    match (recoveredMeta now m st.chunks).validate with
    | .error e => ([], .error e)
    | .ok () => ([recoveredMeta now m st.chunks], .ok st.report)
  else ([], .ok st.report)

/-- `recover_series_dir` on the directory at `path`: the manifests it saves, in order, and its result. -/
def recoverSeriesDir (now : Int) (path : Dir) (order : DirOrder) (options : RecoveryOptions) (sd : SeriesDir)
    (report : RecoveryReport) :
    List SeriesMeta × Result RecoveryReport :=
  match scanChunkFiles order sd with
  | .error e => ([], .error e)
  | .ok candidates =>
    if candidates.isEmpty then ([], .ok report)
    else
      match sd.loadSeriesMeta with
      | .ok m => recoverFrom now path options candidates m report
      | .error _ =>
        let report := { report with
          rebuiltManifests := report.rebuiltManifests + 1, rebuiltManifestPaths :=
            report.rebuiltManifestPaths ++ [path] }
        match rebuildManifest now path order sd with
        | .error e => ([], .error e)
        | .ok m =>
          let rest := recoverFrom now path options candidates m report
          ((if options.dryRun then [] else [m]) ++ rest.1, rest.2)

/-! ## Overlaps are decided by generation and cover -/

instance : IsTrans ChunkMeta Outranks where
  trans a b c h1 h2 := by
    unfold Outranks at *
    have hle : Text.le b.relativePath a.relativePath = true → Text.le c.relativePath b.relativePath = true →
        Text.le c.relativePath a.relativePath = true := fun hab hbc => Text.le_trans hbc hab
    rcases h1 with h1 | ⟨g1, h1⟩
    · exact .inl (by omega)
    · rcases h2 with h2 | ⟨g2, h2⟩
      · exact .inl (by omega)
      · refine .inr ⟨by omega, ?_⟩
        rcases h1 with h1 | ⟨s1, h1⟩
        · exact .inl (by omega)
        · rcases h2 with h2 | ⟨s2, h2⟩
          · exact .inl (by omega)
          · refine .inr ⟨by omega, ?_⟩
            rcases h1 with h1 | ⟨c1, p1⟩
            · exact .inl (by omega)
            · rcases h2 with h2 | ⟨c2, p2⟩
              · exact .inl (by omega)
              · exact .inr ⟨by omega, hle p1 p2⟩

instance : Std.Total Outranks where
  total a b := by
    unfold Outranks
    rcases Nat.lt_trichotomy a.generation b.generation with h | h | h
    · exact .inr (.inl h)
    · rcases lt_trichotomy (satSub a.endTs a.startTs) (satSub b.endTs b.startTs) with hs | hs | hs
      · exact .inr (.inr ⟨h, .inl hs⟩)
      · rcases Nat.lt_trichotomy a.count b.count with hc | hc | hc
        · exact .inr (.inr ⟨h, .inr ⟨hs, .inl hc⟩⟩)
        · rcases Text.le_total a.relativePath b.relativePath with hp | hp
          · exact .inr (.inr ⟨h, .inr ⟨hs, .inr ⟨hc, hp⟩⟩⟩)
          · exact .inl (.inr ⟨h.symm, .inr ⟨hs.symm, .inr ⟨hc.symm, hp⟩⟩⟩)
        · exact .inl (.inr ⟨h.symm, .inr ⟨hs.symm, .inl hc⟩⟩)
      · exact .inl (.inr ⟨h.symm, .inl hs⟩)
    · exact .inl (.inl h)

theorem Outranks.generation_le {a b : ChunkMeta} (h : Outranks a b) : b.generation ≤ a.generation := by
  rcases h with h | ⟨h, -⟩ <;> omega

theorem le_foldl_min_iff {α : Type} (f : α → Int) (k : Int) : ∀ (l : List α) (a : Int),
    k ≤ l.foldl (fun acc c => min acc (f c)) a ↔ k ≤ a ∧ ∀ c ∈ l, k ≤ f c
  | [], a => by simp
  | x :: xs, a => by
    rw [List.foldl_cons, le_foldl_min_iff f k xs, le_min_iff]
    simp [and_assoc]

theorem foldl_max_le_iff {α : Type} (f : α → Int) (k : Int) : ∀ (l : List α) (a : Int),
    l.foldl (fun acc c => max acc (f c)) a ≤ k ↔ a ≤ k ∧ ∀ c ∈ l, f c ≤ k
  | [], a => by simp
  | x :: xs, a => by
    rw [List.foldl_cons, foldl_max_le_iff f k xs, max_le_iff]
    simp [and_assoc]

/-- The chunk spans every chunk of the list. -/
def CoversAll (x : ChunkMeta) (chunks : List ChunkMeta) : Prop := ∀ c ∈ chunks, x.startTs ≤ c.startTs ∧
    c.endTs ≤ x.endTs

instance (x : ChunkMeta) (chunks : List ChunkMeta) : Decidable (CoversAll x chunks) :=
  inferInstanceAs (Decidable (∀ c ∈ chunks, _))

/-- The winner is the best ranked chunk that spans all of them. -/
theorem chooseSurviving_winner {chunks : List ChunkMeta} (hne : chunks ≠ []) :
    (chooseSurvivingChunkForOverlap chunks).winnerRelativePath
      = ((chunks.insertionSort Outranks).find? (fun c => decide (CoversAll c chunks))).map ChunkMeta.relativePath := by
  cases chunks with
  | nil => exact absurd rfl hne
  | cons first rest =>
    have hcov : ∀ c : ChunkMeta, decide (c.startTs ≤ rest.foldl (fun acc c => min acc c.startTs) first.startTs ∧
        rest.foldl (fun acc c => max acc c.endTs) first.endTs ≤ c.endTs) = decide (CoversAll c (first :: rest)) := by
      intro c
      rw [decide_eq_decide, le_foldl_min_iff, foldl_max_le_iff]
      unfold CoversAll
      constructor
      · rintro ⟨⟨h1, h2⟩, h3, h4⟩ d hd
        rcases List.mem_cons.1 hd with rfl | hd
        · exact ⟨h1, h3⟩
        · exact ⟨h2 d hd, h4 d hd⟩
      · intro h
        have h0 := h first (by simp)
        exact ⟨⟨h0.1, fun d hd => (h d (by simp [hd])).1⟩, h0.2, fun d hd => (h d (by simp [hd])).2⟩
    unfold chooseSurvivingChunkForOverlap
    simp only [hcov]
    cases ((first :: rest).insertionSort Outranks).find? (fun c => decide (CoversAll c (first :: rest))) <;> rfl

/-- **The newest chunk wins an overlap exactly when it spans the others.** -/
theorem winner_eq_newest_iff {others : List ChunkMeta} {x : ChunkMeta}
    (hpath : ∀ c ∈ others, c.relativePath ≠ x.relativePath) (hgen : ∀ c ∈ others, c.generation < x.generation) :
    (chooseSurvivingChunkForOverlap (others ++ [x])).winnerRelativePath = some x.relativePath ↔ CoversAll x others := by
  rw [chooseSurviving_winner (by simp)]
  have hself : CoversAll x (others ++ [x]) ↔ CoversAll x others := by
    constructor
    · exact fun h c hc => h c (by simp [hc])
    · intro h c hc
      rcases List.mem_append.1 hc with hc | hc
      · exact h c hc
      · rw [List.mem_singleton.1 hc]
        exact ⟨le_refl _, le_refl _⟩
  rw [← hself]
  set sorted := (others ++ [x]).insertionSort Outranks with hsorted
  have hmem : ∀ c, c ∈ sorted ↔ c ∈ others ∨ c = x := by simp [hsorted]
  constructor
  · intro h
    obtain ⟨c, hc, hp⟩ := Option.map_eq_some_iff.1 h
    have hcov : CoversAll c (others ++ [x]) := by simpa using List.find?_some hc
    rcases (hmem c).1 (List.mem_of_find?_eq_some hc) with ho | rfl
    · exact absurd hp (hpath c ho)
    · exact hcov
  · intro hcov
    have hx : x ∈ sorted := (hmem x).2 (.inr rfl)
    have hfound : ∃ c, sorted.find? (fun c => decide (CoversAll c (others ++ [x]))) = some c :=
      Option.isSome_iff_exists.1 (List.find?_isSome.2 ⟨x, hx, by simpa using hcov⟩)
    obtain ⟨c, hc⟩ := hfound
    obtain ⟨hpc, as, bs, hsplit, has⟩ := List.find?_eq_some_iff_append.1 hc
    -- `x` does not come before the chunk that is found, so it is that chunk or ranks below it
    have hxc : x = c := by
      rw [hsplit] at hx
      rcases List.mem_append.1 hx with hx | hx
      · have := has x hx
        simp [hcov] at this
      · rcases List.mem_cons.1 hx with hx | hx
        · exact hx
        · have hsort : sorted.Pairwise Outranks := List.pairwise_insertionSort _ _
          rw [hsplit] at hsort
          have hcx := List.rel_of_pairwise_cons (List.pairwise_append.1 hsort).2.1 hx
          rcases (hmem c).1 (List.mem_of_find?_eq_some hc) with ho | rfl
          · have h1 := hgen c ho
            have h2 := hcx.generation_le
            omega
          · rfl
    rw [hc, hxc]
    rfl

/-! ## Candidates are adopted -/

/-- The chunk is newer than everything it meets among the chunks, spans it, and has a path of its own. -/
abbrev ChunkAdopts : List ChunkMeta → ChunkMeta → Prop :=
  Adopts ChunkMeta.startTs ChunkMeta.endTs ChunkMeta.generation ChunkMeta.relativePath

abbrev adoptChunk : List ChunkMeta → ChunkMeta → List ChunkMeta :=
  adopt ChunkMeta.startTs ChunkMeta.endTs ChunkMeta.generation ChunkMeta.relativePath

abbrev ChunkSupersedes : ChunkMeta → ChunkMeta → Prop :=
  Supersedes ChunkMeta.startTs ChunkMeta.endTs ChunkMeta.generation

/-- **A candidate is treated as the folding of versioned spans says**, and a change is noted when it is adopted. -/
theorem adoptCandidate_refines (path : Dir) (st : Adoption) (x : ChunkMeta) :
    (adoptCandidate path st x).chunks = adoptChunk st.chunks x ∧
      (adoptCandidate path st x).changed = (st.changed || decide (ChunkAdopts st.chunks x)) := by
  unfold adoptCandidate
  by_cases hname : (st.chunks.any (fun c => decide (c.relativePath = x.relativePath))) = true
  · have hno : ¬ ChunkAdopts st.chunks x := by
      obtain ⟨c, hc, hp⟩ := List.any_eq_true.1 hname
      exact fun h => (h c hc).1 (by simpa using hp)
    rw [if_pos hname, adoptChunk, adopt_of_not hno]
    simp [hno]
  · rw [if_neg hname]
    have hpath : ∀ c ∈ st.chunks, c.relativePath ≠ x.relativePath := by simpa using hname
    simp only
    generalize ho : st.chunks.filter (fun c => decide (SpansMeet c x)) = overlapping
    have hover : ∀ c, c ∈ overlapping ↔ c ∈ st.chunks ∧ SpansMeet c x := fun c => by simp [← ho]
    by_cases hemp : overlapping.isEmpty = true
    · have hnone : ∀ c ∈ st.chunks, ¬ SpansMeet c x := by
        intro c hc hm
        rw [List.isEmpty_iff] at hemp
        have := (hover c).2 ⟨hc, hm⟩
        simp [hemp] at this
      have hyes : ChunkAdopts st.chunks x := fun c hc => ⟨hpath c hc, fun hm => absurd hm (hnone c hc)⟩
      rw [if_pos hemp, adoptChunk, adopt_of_adopts hyes, List.filter_eq_self.2 (fun c hc => by simpa using hnone c hc)]
      simp [hyes]
    · rw [if_neg hemp]
      by_cases hold : (overlapping.any (fun c => decide (x.generation ≤ c.generation))) = true
      · have hno : ¬ ChunkAdopts st.chunks x := by
          obtain ⟨c, hc, hg⟩ := List.any_eq_true.1 hold
          obtain ⟨hcs, hm⟩ := (hover c).1 hc
          intro h
          have := ((h c hcs).2 hm).1
          simp only [decide_eq_true_eq] at hg
          omega
        rw [if_pos hold, adoptChunk, adopt_of_not hno]
        simp [hno]
      · rw [if_neg hold]
        have hgen : ∀ c ∈ overlapping, c.generation < x.generation := by simpa using hold
        have hwin := winner_eq_newest_iff (fun c hc => hpath c ((hover c).1 hc).1) hgen
        have hiff : ChunkAdopts st.chunks x ↔ CoversAll x overlapping := by
          constructor
          · intro h c hc
            obtain ⟨hcs, hm⟩ := (hover c).1 hc
            exact ((h c hcs).2 hm).2
          · exact fun h c hc => ⟨hpath c hc, fun hm =>
              ⟨hgen c ((hover c).2 ⟨hc, hm⟩), h c ((hover c).2 ⟨hc, hm⟩)⟩⟩
        by_cases hcov : CoversAll x overlapping
        · rw [if_pos (hwin.2 hcov), adoptChunk, adopt_of_adopts (hiff.2 hcov)]
          simp [hiff.2 hcov]
        · have hno : ¬ ChunkAdopts st.chunks x := fun h => hcov (hiff.1 h)
          rw [if_neg (fun h => hcov (hwin.1 h)), adoptChunk, adopt_of_not hno]
          simp [hno]

theorem foldl_adoptCandidate_chunks (path : Dir) : ∀ (xs : List ChunkMeta) (st : Adoption),
    (xs.foldl (adoptCandidate path) st).chunks = xs.foldl adoptChunk st.chunks
  | [], _ => rfl
  | x :: xs, st => by
    rw [List.foldl_cons, List.foldl_cons, foldl_adoptCandidate_chunks path xs, (adoptCandidate_refines path st x).1]

/-- Where no change is noted, no chunk has been touched. -/
theorem foldl_adoptCandidate_unchanged (path : Dir) : ∀ {xs : List ChunkMeta} {st : Adoption},
    (xs.foldl (adoptCandidate path) st).changed = false →
      st.changed = false ∧ (xs.foldl (adoptCandidate path) st).chunks = st.chunks
  | [], _, h => ⟨h, rfl⟩
  | x :: xs, st, h => by
    obtain ⟨h1, h2⟩ := @foldl_adoptCandidate_unchanged path xs _ h
    obtain ⟨hchunks, hchanged⟩ := adoptCandidate_refines path st x
    rw [hchanged, Bool.or_eq_false_iff, decide_eq_false_iff_not] at h1
    rw [List.foldl_cons, h2, hchunks, adoptChunk, adopt_of_not h1.2]
    exact ⟨h1.1, rfl⟩

/-! ## Merging chunks become readable -/

/-- The entry after a merge that did not finish. -/
def settle (active : Option Nat) (c : ChunkMeta) : ChunkMeta :=
  if c.state = .merging then { c with state := if active = some c.chunkId then .active else .sealed } else c

/-- The entries of one chunk, up to its state. -/
def SameChunk (c d : ChunkMeta) : Prop := d = { c with state := d.state }

theorem sameChunk_settle (active : Option Nat) (c : ChunkMeta) : SameChunk c (settle active c) := by
  unfold settle SameChunk
  split <;> rfl

theorem settle_state (active : Option Nat) (c : ChunkMeta) : (settle active c).state ≠ .merging := by
  unfold settle
  split
  · simp only
    split <;> decide
  · assumption

theorem settle_of_not_merging {active : Option Nat} {c : ChunkMeta} (h : c.state ≠ .merging) : settle active c = c :=
  if_neg h

namespace SameChunk

variable {c d : ChunkMeta}

theorem startTs (h : SameChunk c d) : d.startTs = c.startTs := by rw [h]
theorem endTs (h : SameChunk c d) : d.endTs = c.endTs := by rw [h]
theorem generation (h : SameChunk c d) : d.generation = c.generation := by rw [h]
theorem relativePath (h : SameChunk c d) : d.relativePath = c.relativePath := by rw [h]
theorem monthKey (h : SameChunk c d) : d.monthKey = c.monthKey := by rw [h]
theorem count (h : SameChunk c d) : d.count = c.count := by rw [h]

theorem validate (h : SameChunk c d) : d.validate = c.validate := by rw [h]; rfl

end SameChunk

/-- Chunks that do not meet have nothing to lose to. -/
theorem normalizeChunk_eq_settle {active : Option Nat} {chunks : List ChunkMeta} (ha : SpansApart chunks)
    {c : ChunkMeta} (hc : c ∈ chunks) : normalizeChunk active chunks c = settle active c := by
  unfold normalizeChunk settle
  by_cases hm : c.state = .merging
  · rw [if_neg (not_not.2 hm), if_pos hm]
    have hnone : chunks.filter (fun d => decide (d.relativePath ≠ c.relativePath ∧ c.generation < d.generation ∧
      SpansMeet d c)) = [] := by
      rw [List.filter_eq_nil_iff]
      intro d hd hdec
      obtain ⟨hp, -, hmeet⟩ : d.relativePath ≠ c.relativePath ∧ c.generation < d.generation ∧ SpansMeet d c := by
        simpa using hdec
      exact hp (by rw [Apart.eq_of_meets ha hd hc hmeet])
    have hwin := (@winner_eq_newest_iff [] c (by simp) (by simp)).2 (by intro d hd; cases hd)
    simp only [hnone]
    rw [if_pos (.inr hwin)]
  · rw [if_pos hm, if_neg hm]

theorem normalize_of_apart {m : SeriesMeta} (ha : SpansApart m.chunks) :
    normalizeDanglingMergingStates m = ({ m with chunks := m.chunks.map (settle m.activeChunkId) },
      m.chunks.any (fun c => decide (c.state = .merging))) := by
  unfold normalizeDanglingMergingStates
  have hmap : m.chunks.map (normalizeChunk m.activeChunkId m.chunks) = m.chunks.map (settle m.activeChunkId) :=
    List.map_congr_left (fun c hc => normalizeChunk_eq_settle ha hc)
  have hany : m.chunks.any (fun c => decide ((normalizeChunk m.activeChunkId m.chunks c).state ≠ c.state))
      = m.chunks.any (fun c => decide (c.state = .merging)) := by
    rw [Bool.eq_iff_iff, List.any_eq_true, List.any_eq_true]
    refine exists_congr (fun c => and_congr_right (fun hc => ?_))
    rw [normalizeChunk_eq_settle ha hc, decide_eq_true_iff, decide_eq_true_iff]
    constructor
    · intro h
      by_contra hm
      exact h (by rw [settle_of_not_merging hm])
    · intro hm h
      exact settle_state m.activeChunkId c (h.trans hm)
  rw [hmap, hany]

/-- The chunks recovery ends with: the settled ones, with the candidates folded in. -/
def recoveredChunks (m : SeriesMeta) (candidates : List ChunkMeta) : List ChunkMeta :=
  candidates.foldl adoptChunk (m.chunks.map (settle m.activeChunkId))

/-- The manifest recovery leaves on disk. -/
def lastSaved (m : SeriesMeta) (saves : List SeriesMeta) : SeriesMeta := saves.getLast?.getD m

theorem adoptAll_chunks {m : SeriesMeta} (ha : SpansApart m.chunks) (path : Dir) (candidates : List ChunkMeta)
    (report : RecoveryReport) :
    (adoptAll path candidates m report).chunks = recoveredChunks m candidates := by
  unfold adoptAll recoveredChunks
  rw [foldl_adoptCandidate_chunks, normalize_of_apart ha]

/-- Where recovery saves nothing, the chunks are those of the manifest. -/
theorem recoveredChunks_of_unchanged {m : SeriesMeta} (ha : SpansApart m.chunks) {path : Dir}
    {candidates : List ChunkMeta} {report : RecoveryReport}
    (h : (adoptAll path candidates m report).changed = false) : recoveredChunks m candidates = m.chunks := by
  rw [← adoptAll_chunks ha path candidates report]
  unfold adoptAll at h ⊢
  obtain ⟨h1, h2⟩ := foldl_adoptCandidate_unchanged path h
  rw [h2, normalize_of_apart ha]
  rw [normalize_of_apart ha] at h1
  have hsettled : ∀ c ∈ m.chunks, settle m.activeChunkId c = c := fun c hc =>
    settle_of_not_merging (by simpa using List.any_eq_false.1 h1 c hc)
  exact List.map_congr_left hsettled |>.trans (List.map_id _)

/-- What recovery asks of an entry it may adopt. -/
structure Readable (c : ChunkMeta) : Prop where
  valid : c.validate = .ok ()
  proper : c.startTs ≤ c.endTs
  settled : c.state ≠ .merging

/-- Entries that a manifest can hold. -/
structure Consistent (chunks : List ChunkMeta) : Prop where
  apart : SpansApart chunks
  readable : ∀ c ∈ chunks, Readable c

theorem Consistent.proper {chunks : List ChunkMeta} (h : Consistent chunks) : SpansProper chunks :=
  fun c hc => (h.readable c hc).proper

theorem Consistent.adoptChunk {chunks : List ChunkMeta} (h : Consistent chunks) {x : ChunkMeta} (hx : Readable x) :
    Consistent (adoptChunk chunks x) where
  apart := adopt_apart h.apart
  readable c hc := by
    rcases mem_adopt hc with hc | rfl
    · exact h.readable c hc
    · exact hx

theorem Consistent.foldl {chunks : List ChunkMeta} (h : Consistent chunks) {xs : List ChunkMeta}
    (hx : ∀ x ∈ xs, Readable x) :
    Consistent (xs.foldl FastK.adoptChunk chunks) := by
  induction xs generalizing chunks with
  | nil => exact h
  | cons x xs ih => exact ih (h.adoptChunk (hx x (by simp))) (fun y hy => hx y (by simp [hy]))

theorem consistent_settled {m : SeriesMeta} (hv : m.validate = .ok ()) (hpos : ∀ c ∈ m.chunks, 0 < c.count) :
    Consistent (m.chunks.map (settle m.activeChunkId)) where
  apart := by
    have ha := (SeriesMeta.chain_of_validate hv hpos).1.apart
    refine List.pairwise_map.2 (ha.imp (fun {a b} hab => ?_))
    unfold Meets at hab ⊢
    rwa [(sameChunk_settle _ a).startTs, (sameChunk_settle _ a).endTs, (sameChunk_settle _ b).startTs,
      (sameChunk_settle _ b).endTs]
  readable c hc := by
    obtain ⟨d, hd, rfl⟩ := List.mem_map.1 hc
    have hs := sameChunk_settle m.activeChunkId d
    refine ⟨?_, ?_, settle_state _ _⟩
    · rw [hs.validate]
      exact SeriesMeta.chunk_validate_of_validate hv d hd
    · rw [hs.startTs, hs.endTs]
      exact (SeriesMeta.chain_of_validate hv hpos).2 d hd

/-- The fields of a manifest that recovery keeps. -/
def SeriesMeta.SameHead (m m' : SeriesMeta) : Prop :=
  m' = { m with chunks := m'.chunks, manifestSeq := m'.manifestSeq, updatedAt := m'.updatedAt, activeChunkId := m'.activeChunkId }

theorem recoveredMeta_validate {now : Int} {m : SeriesMeta} (hv : m.validate = .ok ()) {chunks : List ChunkMeta}
    (hc : Consistent chunks) :
    (recoveredMeta now m chunks).validate = .ok () := by
  refine SeriesMeta.validate_of_chain ?_ ?_ (chain_of_apart hc.apart hc.proper)
  · exact (validate_congr rfl rfl rfl rfl rfl).2 (SeriesMeta.validate_eq_ok.1 hv).1
  · intro c hcm
    exact (hc.readable c ((mem_sortByKey _).1 hcm)).valid

/-- **Recovery of a loaded manifest succeeds**; it saves nothing, or the one manifest with the candidates folded in. -/
theorem recoverFrom_ok (now : Int) (path : Dir) {candidates : List ChunkMeta} {m : SeriesMeta} (report : RecoveryReport)
    (hv : m.validate = .ok ()) (hpos : ∀ c ∈ m.chunks, 0 < c.count) (hc : ∀ c ∈ candidates, Readable c) :
    ∃ saves report', recoverFrom now path ⟨false⟩ candidates m report = (saves, .ok report') ∧
      (saves = [] ∧ recoveredChunks m candidates = m.chunks ∨
        saves = [recoveredMeta now m (recoveredChunks m candidates)]) := by
  have ha := (SeriesMeta.chain_of_validate hv hpos).1.apart
  have hcons : Consistent (recoveredChunks m candidates) := (consistent_settled hv hpos).foldl hc
  unfold recoverFrom
  simp only [adoptAll_chunks ha, Bool.not_false, Bool.and_true]
  cases hch : (adoptAll path candidates m report).changed with
  | false => exact ⟨_, _, rfl, .inl ⟨rfl, recoveredChunks_of_unchanged ha hch⟩⟩
  | true =>
    rw [if_pos rfl, recoveredMeta_validate hv hcons]
    exact ⟨_, _, rfl, .inr rfl⟩

/-- The manifest after recovery: valid, with the head of the one before and the recovered chunks in order. -/
theorem lastSaved_spec {now : Int} {candidates : List ChunkMeta} {m : SeriesMeta} (hv : m.validate = .ok ())
    (hpos : ∀ c ∈ m.chunks, 0 < c.count) (hc : ∀ c ∈ candidates, Readable c) {saves : List SeriesMeta}
    (hs : saves = [] ∧ recoveredChunks m candidates = m.chunks ∨ saves = [recoveredMeta now m (recoveredChunks m candidates)]) :
    (lastSaved m saves).validate = .ok () ∧ m.SameHead (lastSaved m saves) ∧
      (lastSaved m saves).chunks = sortByKey ChunkMeta.startTs (recoveredChunks m candidates) := by
  rcases hs with ⟨rfl, heq⟩ | rfl
  · obtain ⟨hchain, hprop⟩ := SeriesMeta.chain_of_validate hv hpos
    refine ⟨hv, rfl, ?_⟩
    rw [heq, sortByKey_chain hchain hprop]
    rfl
  · exact ⟨recoveredMeta_validate hv ((consistent_settled hv hpos).foldl hc), rfl, rfl⟩

/-! ## Scanning complete files -/

/-- A complete file of version 2 with rows and a sparse index. -/
structure CompleteChunk (f : ChunkFile) : Prop where
  version_eq : f.header.version = chunkVersionV2
  indexed : f.header.hasSparseIndex = true
  header_ok : f.header.validate = .ok ()
  count_pos : 0 < f.header.count
  generation_lt : f.header.generation < 2 ^ 32
  every_lt : f.header.sparseIndexEvery < 2 ^ 32
  startTs_ok : TsInRange f.header.startTs

/-- A chunks directory that can be scanned: its chunk files are complete, its sidecars belong to chunks. -/
structure Scannable (sd : SeriesDir) : Prop where
  chunksDir_eq : sd.chunksDir = true
  chunk_ok : ∀ p ∈ sd.files, isChunkName p.1 = true → ∃ f, p.2 = .chunk f ∧ CompleteChunk f
  sidecar_ok : ∀ p ∈ sd.files, isSidecarName p.1 = true →
    ∃ parent, parentChunkRelativePath (chunkRelativePath p.1) = .ok parent

/-- The sidecar has the path of a sidecar file. -/
def SidecarPath (s : SidecarMeta) : Prop := ∃ name, isSidecarName name = true ∧ s.relativePath = chunkRelativePath name

/-- The entry describes the file with the name `p.1` and the content `p.2`. -/
def ScannedAs (p : Text × FileBody) (c : ChunkMeta) : Prop :=
  ∃ f key sidecars, p.2 = .chunk f ∧ CompleteChunk f ∧ monthKey f.header.startTs = .ok key ∧
    (∀ s ∈ sidecars, SidecarPath s) ∧
    c = scannedChunk p.1 f key sidecars

theorem ChunkHeader.sparseIndexEvery_ne_zero {h : ChunkHeader} (hv : h.validate = .ok ())
    (hver : h.version = chunkVersionV2) (hi : h.hasSparseIndex = true) : h.sparseIndexEvery ≠ 0 := by
  intro h0
  unfold ChunkHeader.validate at hv
  have hbad : chunkVersionV2 ≤ h.version ∧ h.hasSparseIndex = true ∧ h.sparseIndexEvery = 0 :=
    ⟨hver ▸ le_refl _, hi, h0⟩
  rw [if_pos hbad] at hv
  split at hv
  · cases hv
  · split at hv
    · cases hv
    · split at hv <;> cases hv

theorem chunkRelativePath_not_blank (name : Text) : Text.isBlank (chunkRelativePath name) = false := by
  unfold Text.isBlank chunkRelativePath
  rw [List.all_append, Bool.and_eq_false_iff]
  exact .inl (by decide)

theorem decodeChunkState_ne_merging (name : Text) : decodeChunkState name ≠ .merging := by
  unfold decodeChunkState
  split <;> decide

theorem ScannedAs.readable {p : Text × FileBody} {c : ChunkMeta} (h : ScannedAs p c) : Readable c := by
  obtain ⟨f, key, sidecars, -, hf, -, -, rfl⟩ := h
  have hle := ChunkHeader.startTs_le_endTs hf.header_ok hf.count_pos
  refine ⟨ChunkMeta.validate_eq_ok.2 ⟨fun _ => hle, chunkRelativePath_not_blank p.1, ?_⟩, hle,
    decodeChunkState_ne_merging p.1⟩
  have hne := ChunkHeader.sparseIndexEvery_ne_zero hf.header_ok hf.version_eq hf.indexed
  show f.header.sparseIndexEvery % 2 ^ 32 ≠ 0
  rwa [Nat.mod_eq_of_lt hf.every_lt]

theorem sidecarPath_of_mem {sidecars : List (Text × SidecarMeta)} (h : ∀ q ∈ sidecars, SidecarPath q.2) {rel : Text}
    {s : SidecarMeta} (hs : s ∈ sidecarsOf sidecars rel) : SidecarPath s := by
  unfold sidecarsOf at hs
  rw [List.mem_insertionSort] at hs
  obtain ⟨q, hq, rfl⟩ := List.mem_map.1 hs
  exact h q (List.mem_filter.1 hq).1

theorem scanChunkFile_ok {sidecars : List (Text × SidecarMeta)} (hside : ∀ q ∈ sidecars, SidecarPath q.2)
    {p : Text × FileBody} {f : ChunkFile} (hb : p.2 = .chunk f) (hf : CompleteChunk f) :
    ∃ c, scanChunkFile sidecars p = .ok c ∧ ScannedAs p c := by
  have hkey : monthKey f.header.startTs = .ok (monthText (dayOfTs f.header.startTs)) := if_pos hf.startTs_ok
  refine ⟨_, ?_, f, _, sidecarsOf sidecars (chunkRelativePath p.1), hb, hf, hkey, fun s =>
    sidecarPath_of_mem hside, rfl⟩
  unfold scanChunkFile
  rw [hb]
  simp only
  rw [hf.header_ok, hkey]

/-- **A scan describes every chunk file once.** -/
theorem scanChunkFiles_ok {sd : SeriesDir} (h : Scannable sd) (order : DirOrder) :
    ∃ cs, scanChunkFiles order sd = .ok cs ∧ (∀ c ∈ cs, ∃ p ∈ sd.files, isChunkName p.1 = true ∧ ScannedAs p c) ∧
      (∀ p ∈ sd.files, isChunkName p.1 = true → ∃ c ∈ cs, ScannedAs p c) ∧
      (cs.map ChunkMeta.relativePath).Perm ((sd.files.filter (fun p => isChunkName p.1)).map (fun p =>
        chunkRelativePath p.1)) := by
  have hlist : ∀ p, p ∈ order.1 sd.files ↔ p ∈ sd.files := fun p => (order.2 sd.files).mem_iff
  obtain ⟨sidecars, hside, hsides⟩ := collect_forall₂ (P := fun s q => q.2 = s)
    (f := fun s => (parentChunkRelativePath s.relativePath).map (fun parent => (parent, s)))
    (l := scanSidecarFiles (order.1 sd.files)) (by
      intro s hs
      obtain ⟨p, hp, rfl⟩ := List.mem_map.1 hs
      obtain ⟨hp1, hp2⟩ := List.mem_filter.1 hp
      obtain ⟨parent, hparent⟩ := h.sidecar_ok p ((hlist p).1 hp1) hp2
      exact ⟨(parent, sidecarMetaOf p.1 p.2), by simp only [sidecarMetaOf, hparent]; rfl, rfl⟩)
  have hpaths : ∀ q ∈ sidecars, SidecarPath q.2 := by
    intro q hq
    obtain ⟨s, hs, rfl⟩ := exists_of_mem_forall₂ hsides hq
    obtain ⟨p, hp, heq⟩ := List.mem_map.1 hs
    exact ⟨p.1, (List.mem_filter.1 hp).2, by rw [← heq]; rfl⟩
  obtain ⟨cs, hcs, hall⟩ := collect_forall₂ (P := ScannedAs) (f := scanChunkFile sidecars)
    (l := (order.1 sd.files).filter (fun p => isChunkName p.1)) (by
      intro p hp
      obtain ⟨hp1, hp2⟩ := List.mem_filter.1 hp
      obtain ⟨f, hb, hf⟩ := h.chunk_ok p ((hlist p).1 hp1) hp2
      exact scanChunkFile_ok hpaths hb hf)
  refine ⟨sortByKey ChunkMeta.startTs cs, ?_, ?_, ?_, ?_⟩
  · unfold scanChunkFiles
    rw [if_neg (by simp [h.chunksDir_eq])]
    simp only
    rw [hside]
    simp only
    rw [hcs]
  · intro c hc
    obtain ⟨p, hp, hs⟩ := exists_of_mem_forall₂ hall ((mem_sortByKey _).1 hc)
    obtain ⟨hp1, hp2⟩ := List.mem_filter.1 hp
    exact ⟨p, (hlist p).1 hp1, hp2, hs⟩
  · intro p hp hn
    obtain ⟨c, hc, hs⟩ := exists_of_mem_forall₂ hall.flip (List.mem_filter.2 ⟨(hlist p).2 hp, hn⟩)
    exact ⟨c, (mem_sortByKey _).2 hc, hs⟩
  · refine ((sortByKey_perm ChunkMeta.startTs cs).map _).trans ?_
    have hpaths : cs.map ChunkMeta.relativePath
        = ((order.1 sd.files).filter (fun p => isChunkName p.1)).map (fun p => chunkRelativePath p.1) := by
      refine (List.forall₂_eq_eq_eq ▸ List.forall₂_map_left_iff.2 (List.forall₂_map_right_iff.2 (hall.flip.imp ?_)) :)
      rintro c p ⟨f, key, sc, -, -, -, -, rfl⟩
      rfl
    rw [hpaths]
    exact ((order.2 sd.files).filter _).map _

/-! ## Soundness -/

theorem recoverSeriesDir_of_manifest {now : Int} {path : Dir} {order : DirOrder} {options : RecoveryOptions}
    {sd : SeriesDir} {report : RecoveryReport} {m : SeriesMeta} {candidates : List ChunkMeta}
    (hscan : scanChunkFiles order sd = .ok candidates) (hne : candidates ≠ []) (hload : sd.loadSeriesMeta = .ok m) :
    recoverSeriesDir now path order options sd report = recoverFrom now path options candidates m report := by
  unfold recoverSeriesDir
  rw [hscan]
  simp only
  rw [if_neg (by simpa using hne), hload]

/-- The chunk was not tracked by the manifest: it was adopted from a file. -/
def NewlyTracked (sd : SeriesDir) (m : SeriesMeta) (d : ChunkMeta) : Prop :=
  (∃ p ∈ sd.files, isChunkName p.1 = true ∧ ScannedAs p d) ∧ ∀ e ∈ m.chunks, ¬ SameChunk e d

/-- What the fold keeps: a settled chunk is still there or inside a newly tracked one. -/
theorem kept_recovered {sd : SeriesDir} {m : SeriesMeta} (hv : m.validate = .ok ()) (hpos : ∀ c ∈ m.chunks, 0 < c.count)
    {candidates : List ChunkMeta} (hc : ∀ c ∈ candidates, ∃ p ∈ sd.files, isChunkName p.1 = true ∧ ScannedAs p c) :
    Kept ChunkMeta.startTs ChunkMeta.endTs ChunkMeta.generation (NewlyTracked sd m)
      (m.chunks.map (settle m.activeChunkId)) (recoveredChunks m candidates) := by
  have hprop := (consistent_settled hv hpos).proper
  have key : ∀ (xs : List ChunkMeta) (l : List ChunkMeta), (∀ c ∈ xs, ∃ p ∈ sd.files, isChunkName p.1 = true ∧
    ScannedAs p c) →
      Kept ChunkMeta.startTs ChunkMeta.endTs ChunkMeta.generation (NewlyTracked sd m)
        (m.chunks.map (settle m.activeChunkId)) l →
      Kept ChunkMeta.startTs ChunkMeta.endTs ChunkMeta.generation (NewlyTracked sd m)
        (m.chunks.map (settle m.activeChunkId))
        (xs.foldl adoptChunk l) := by
    intro xs
    induction xs with
    | nil => exact fun l _ hk => hk
    | cons x xs ih =>
      intro l hx hk
      rw [List.foldl_cons]
      refine ih _ (fun c hc => hx c (by simp [hc])) (kept_adopt hk (fun hadopts =>
        ⟨hx x (by simp), fun e he hsame => ?_⟩))
      -- a candidate that describes a tracked chunk is never adopted
      have hmem : settle m.activeChunkId e ∈ m.chunks.map (settle m.activeChunkId) := List.mem_map_of_mem he
      have hs := sameChunk_settle m.activeChunkId e
      refine hk.not_adopts hmem (hprop _ hmem) ⟨?_, ?_, ?_, ?_⟩ hadopts
      · rw [hsame.relativePath, hs.relativePath]
      · rw [hsame.generation, hs.generation]
      · rw [hsame.startTs, hs.startTs]
      · rw [hsame.endTs, hs.endTs]
  exact key candidates _ hc (Kept.refl _)

/-- **Recovery is a sound repair.**  On a valid manifest without empty chunks and a directory of complete chunk files it
succeeds; the manifest on disk then is valid, holds no merging chunk, and every chunk tracked before is still tracked or
lies inside a newly tracked chunk of a strictly higher generation. -/
theorem recoverSeriesDir_sound (now : Int) (path : Dir) (order : DirOrder) (report : RecoveryReport) {sd : SeriesDir}
    {m : SeriesMeta} (hm : sd.manifest = .current m) (hv : m.validate = .ok ()) (hpos : ∀ c ∈ m.chunks, 0 < c.count)
    (hfiles : Scannable sd) (hne : ∃ p ∈ sd.files, isChunkName p.1 = true) :
    ∃ saves report', recoverSeriesDir now path order ⟨false⟩ sd report = (saves, .ok report') ∧
      (lastSaved m saves).validate = .ok () ∧ SpanChain (lastSaved m saves).chunks ∧
      (∀ c ∈ (lastSaved m saves).chunks, c.state ≠ .merging) ∧
      ∀ c ∈ m.chunks, (∃ d ∈ (lastSaved m saves).chunks, SameChunk c d) ∨
        ∃ d ∈ (lastSaved m saves).chunks, NewlyTracked sd m d ∧ ChunkSupersedes d c := by
  obtain ⟨candidates, hscan, hfrom, hall, -⟩ := scanChunkFiles_ok hfiles order
  have hread : ∀ c ∈ candidates, Readable c := fun c hc => by
    obtain ⟨p, -, -, hs⟩ := hfrom c hc
    exact hs.readable
  have hnil : candidates ≠ [] := by
    obtain ⟨p, hp, hn⟩ := hne
    obtain ⟨c, hc, -⟩ := hall p hp hn
    exact List.ne_nil_of_mem hc
  have hcons : Consistent (recoveredChunks m candidates) := (consistent_settled hv hpos).foldl hread
  obtain ⟨saves, report', hrec, hs⟩ := recoverFrom_ok now path report hv hpos hread
  obtain ⟨hvalid, -, hchunks⟩ := lastSaved_spec hv hpos hread hs
  have hmem : ∀ d, d ∈ (lastSaved m saves).chunks ↔ d ∈ recoveredChunks m candidates :=
    fun d => by rw [hchunks, mem_sortByKey]
  refine ⟨saves, report', ?_, hvalid, ?_, ?_, ?_⟩
  · rw [recoverSeriesDir_of_manifest hscan hnil (SeriesDir.loadSeriesMeta_ok hm hv), hrec]
  · rw [hchunks]
    exact chain_of_apart hcons.apart hcons.proper
  · exact fun c hc => (hcons.readable c ((hmem c).1 hc)).settled
  · intro c hc
    have hs := sameChunk_settle m.activeChunkId c
    rcases kept_recovered hv hpos hfrom (settle m.activeChunkId c) (List.mem_map_of_mem hc) with hk |
      ⟨d, hd, hnew, hsup⟩
    · exact .inl ⟨_, (hmem _).2 hk, hs⟩
    · refine .inr ⟨d, (hmem d).2 hd, hnew, ?_⟩
      obtain ⟨hgen, hlo, hhi⟩ := hsup
      rw [hs.generation] at hgen
      rw [hs.startTs] at hlo
      rw [hs.endTs] at hhi
      exact ⟨hgen, hlo, hhi⟩

/-- A merge stopped after its output was written: the source chunk is still merging. -/
def sampleMergedFile : ChunkFile :=
  chunkFileOf (sampleMeta []) sampleNewRows { sampleOptions 3 "chunks/1970-02.g00000002.chunk" with generation := 2 }
    (anchors 2 sampleNewRows)

def sampleStoppedMeta : SeriesMeta := sampleMeta [{ sampleNewChunk with state := .merging }]

def sampleStoppedMerge : SeriesDir where
  manifest := .current sampleStoppedMeta
  chunksDir := true
  files := [("1970-02.g00000002.chunk", .chunk sampleMergedFile), ("1970-02.chunk", .chunk sampleNewFile)]

theorem sampleStoppedMerge_scannable : Scannable sampleStoppedMerge where
  chunksDir_eq := rfl
  chunk_ok p hp _ := by
    rcases List.mem_cons.1 hp with rfl | hp
    · exact ⟨sampleMergedFile, rfl, rfl, rfl, by decide, by decide, by decide, by decide, by decide⟩
    · rw [List.mem_singleton.1 hp]
      exact ⟨sampleNewFile, rfl, rfl, rfl, by decide, by decide, by decide, by decide, by decide⟩
  sidecar_ok p hp hs := by
    rcases List.mem_cons.1 hp with rfl | hp
    · exact absurd hs (by decide)
    · rw [List.mem_singleton.1 hp] at hs
      exact absurd hs (by decide)

theorem recoverSeriesDir_sound_sample :
    ∃ saves report', recoverSeriesDir 5 ["X", "kline", "1m"] .asListed ⟨false⟩ sampleStoppedMerge (.start ⟨false⟩) =
      (saves, .ok report') ∧
      (lastSaved sampleStoppedMeta saves).validate = .ok () ∧ SpanChain (lastSaved sampleStoppedMeta saves).chunks ∧
      (∀ c ∈ (lastSaved sampleStoppedMeta saves).chunks, c.state ≠ .merging) ∧
      ∀ c ∈ sampleStoppedMeta.chunks, (∃ d ∈ (lastSaved sampleStoppedMeta saves).chunks, SameChunk c d) ∨
        ∃ d ∈ (lastSaved sampleStoppedMeta saves).chunks, NewlyTracked sampleStoppedMerge sampleStoppedMeta d ∧
          ChunkSupersedes d c :=
  recoverSeriesDir_sound 5 ["X", "kline", "1m"] .asListed (.start ⟨false⟩) rfl (by decide) (by decide)
    sampleStoppedMerge_scannable ⟨_, List.mem_cons_self, by decide⟩

end FastK
