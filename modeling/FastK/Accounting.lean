import FastK.Query
import FastK.Rows
/-!
# The counters of a query

Every chunk that a query looks at is counted once as scanned or pruned, and every block of a zone map likewise, with two
exceptions: a chunk whose rows are read and which has none in range is counted as neither, and candidate blocks that
touch are counted as one scanned block.  The counters add up exactly when neither happens
(`queryScalarPredicate_accounts_iff`).
-/
namespace FastK

open Search Spans Ranges

theorem satAdd_eq {a b : Nat} (h : a + b < u64Bound) : satAdd a b = a + b := by
  unfold satAdd
  omega

/-! ## Blocks and slices -/

/-- The blocks of a zone map follow one another. -/
theorem zmapBuildEntries_apart {rows : List ScalarRecord} {blockSize : Nat} {entries : List ZoneMapEntry}
    (hne : rows ≠ []) (h : zmapBuildEntries rows blockSize = .ok entries) :
    entries.Pairwise (fun a b => a.endRow < b.startRow) := by
  unfold zmapBuildEntries at h
  by_cases hb : blockSize = 0
  · rw [if_pos hb] at h; cases h
  rw [if_neg hb, if_neg (by simpa using hne)] at h
  cases hv : ScalarRecord.validateStrictOrder rows with
  | error e => rw [hv] at h; cases h
  | ok u =>
    rw [hv] at h
    simp only at h
    by_cases hlen : u32Max < rows.length
    · rw [if_pos hlen] at h; cases h
    rw [if_neg hlen] at h
    obtain rfl := Except.ok.inj h
    have hbs : 1 ≤ blockSize := by omega
    have hu : rows.length < 2 ^ 32 := by unfold u32Max at hlen; omega
    -- the entry at a position is the one of the block from there
    have hentry : ∀ (i : Nat) (x : ZoneMapEntry),
        ((blocks blockSize rows).zipIdx.map (fun b => zoneMapEntryOf blockSize b.1 b.2))[i]? = some x →
        x.startRow = i * blockSize ∧ x.endRow = min (i * blockSize + blockSize) rows.length - 1 ∧
          i * blockSize < rows.length := by
      intro i x hx
      rw [List.getElem?_map, List.getElem?_zipIdx, blocks_getElem? hbs] at hx
      by_cases hi : i * blockSize < rows.length
      · rw [if_pos hi, Option.map_some, Option.map_some] at hx
        obtain rfl := Option.some.inj hx
        obtain ⟨h1, h2⟩ := zoneMapEntryOf_rows hbs hu hi
        rw [show 0 + i = i by omega]
        exact ⟨h1, h2, hi⟩
      · rw [if_neg hi] at hx
        cases hx
    rw [List.pairwise_iff_getElem]
    intro i j hi hj hij
    obtain ⟨-, h1, h2⟩ := hentry i _ (List.getElem?_eq_getElem hi)
    obtain ⟨h3, -, -⟩ := hentry j _ (List.getElem?_eq_getElem hj)
    have hmul : (i + 1) * blockSize ≤ j * blockSize := Nat.mul_le_mul_right _ hij
    rw [Nat.succ_mul] at hmul
    rw [h1, h3]
    omega

/-- The candidate blocks follow one another, and are no more than the blocks in range. -/
theorem candidates_apart {entries : List ZoneMapEntry} {p : ScalarPredicateExpr} {s e : Int} {ranges : List (Nat × Nat)}
    (ha : entries.Pairwise (fun a b => a.endRow < b.startRow))
    (hr : candidateRowRangesForExpr entries p s e = .ok ranges) :
    ranges.Pairwise (fun a b => a.2 < b.1) ∧ ranges.length ≤ entries.countP (fun x =>
      decide (s ≤ x.endTs ∧ x.startTs ≤ e)) := by
  unfold candidateRowRangesForExpr at hr
  cases hv : p.validate with
  | error err => rw [hv] at hr; cases hr
  | ok u =>
    rw [hv] at hr
    obtain rfl := Except.ok.inj hr
    refine ⟨List.pairwise_map.2 (ha.sublist List.filter_sublist), ?_⟩
    rw [List.length_map, ← List.countP_eq_length_filter]
    refine List.countP_mono_left (fun x _ hx => ?_)
    rw [Bool.and_eq_true, Bool.not_eq_true', decide_eq_false_iff_not] at hx
    rw [decide_eq_true_iff]
    omega

theorem length_entries_le {entries : List ZoneMapEntry} {rows : List ScalarRecord} (hz : ZoneMapOf entries rows)
    (ha : entries.Pairwise (fun a b => a.endRow < b.startRow)) : entries.length ≤ rows.length := by
  have h := @length_le_of_apart rows.length (entries.map (fun e => (e.startRow, e.endRow))) 0
    (List.pairwise_map.2 ha) (fun r hr => by
      obtain ⟨e, he, rfl⟩ := List.mem_map.1 hr
      exact ⟨Nat.zero_le _, hz.rowsIn e he⟩)
  rw [List.length_map] at h
  omega

/-- A predicate that is looked up by value asks for one slice a value. -/
theorem slices_of_lookup {entries : List ValueIndexEntry} {p : ScalarPredicateExpr} (hp : p.isDiscreteLookupLike = true)
    {slices : List (Nat × Nat)} (h : matchingSlicesForExpr entries p = .ok slices) :
    ∀ r ∈ slices, ∃ v, p.matches v = true ∧ r = (vixLowerBound entries v, vixUpperBound entries v) := by
  unfold matchingSlicesForExpr at h
  cases p with
  | eq value =>
    simp only [ScalarPredicateExpr.validate] at h
    split at h <;> obtain rfl := Except.ok.inj h
    · exact fun r hr => absurd hr List.not_mem_nil
    · intro r hr
      have hmem := (List.mem_filter.1 hr).1
      exact ⟨value, by simp [ScalarPredicateExpr.matches], List.mem_singleton.1 hmem⟩
  | inSet values =>
    simp only [ScalarPredicateExpr.validate] at h
    split at h <;> obtain rfl := Except.ok.inj h
    · exact fun r hr => absurd hr List.not_mem_nil
    · intro r hr
      obtain ⟨v, hv, rfl⟩ := List.mem_map.1 (List.mem_filter.1 (List.mem_filter.1 hr).1).1
      refine ⟨v, ?_, rfl⟩
      rw [mem_dedupAdjacent, List.mem_insertionSort] at hv
      simpa [ScalarPredicateExpr.matches] using hv
  | _ => cases hp

/-- The slices of a lookup hold no entry twice. -/
theorem length_slices_le {entries : List ValueIndexEntry} (hs : SortedByValue entries) {p : ScalarPredicateExpr}
    (hp : p.isDiscreteLookupLike = true) {slices : List (Nat × Nat)}
    (h : matchingSlicesForExpr entries p = .ok slices) :
    (slices.flatMap (fun r => between entries r.1 r.2)).length = (slices.map (fun r => r.2 - r.1)).sum ∧
      (slices.map (fun r => r.2 - r.1)).sum ≤ entries.length := by
  have hslices := slices_of_lookup hp h
  have hlen : (slices.flatMap (fun r => between entries r.1 r.2)).length = (slices.map (fun r => r.2 - r.1)).sum := by
    rw [List.length_flatMap]
    congr 1
    refine List.map_congr_left (fun r hr => ?_)
    obtain ⟨v, -, rfl⟩ := hslices r hr
    refine length_between ?_
    unfold vixUpperBound
    rw [partitionPoint_eq (partitioned_value_le hs v)]
    exact List.countP_le_length
  have hall : (slices.flatMap (fun r => between entries r.1 r.2)).filter (fun e => p.matches e.value)
      = slices.flatMap (fun r => between entries r.1 r.2) := by
    rw [List.filter_eq_self]
    intro e he
    obtain ⟨r, hr, her⟩ := List.mem_flatMap.1 he
    obtain ⟨v, hv, rfl⟩ := hslices r hr
    rw [between_vix_eq hs] at her
    rw [of_decide_eq_true (List.mem_filter.1 her).2]
    exact hv
  refine ⟨hlen, ?_⟩
  have hperm := (matchingSlices_perm hs h).length_eq
  rw [hall] at hperm
  rw [← hlen, hperm]
  exact List.length_filter_le _ _

theorem foldl_satAdd (f : Nat × Nat → Nat) : ∀ (rs : List (Nat × Nat)) (n : Nat), n + (rs.map f).sum < u64Bound →
    rs.foldl (fun n r => satAdd n (f r)) n = n + (rs.map f).sum
  | [], n, _ => rfl
  | r :: rs, n, h => by
    rw [List.map_cons, List.sum_cons] at h
    rw [List.foldl_cons, satAdd_eq (by omega), foldl_satAdd f rs _ (by omega), List.map_cons, List.sum_cons,
      Nat.add_assoc]

/-! ## One chunk -/

section Step

variable (sd : SeriesDir) (query : ScalarPredicateQuery)

/-- The query goes through the value index of the chunk. -/
def viaVix (c : ChunkMeta) : Bool := query.predicate.isDiscreteLookupLike && hasSidecarKind c vixKind

/-- The query goes through the zone map of the chunk, unless it goes through the value index. -/
def viaZmap (c : ChunkMeta) : Bool := query.predicate.isContinuousRangeLike && hasSidecarKind c zmapKind

/-- The chunks that are counted neither as scanned nor as pruned: 1 for a chunk that is read and has no row in range. -/
def silentChunks (rows : List ScalarRecord) (c : ChunkMeta) : Nat :=
  if viaVix query c = false ∧ viaZmap query c = false ∧ inRange query.startTs query.endTs rows = [] then 1 else 0

/-- How many candidate blocks go uncounted because the one before touches them. -/
def joinedBlocks (c : ChunkMeta) : Nat :=
  match loadSidecar sd c zmapKind with
  | .ok (.zmap entries) =>
    match candidateRowRangesForExpr entries query.predicate query.startTs query.endTs with
    | .ok ranges => ranges.length - (mergeRowRanges ranges).length
    | .error _ => 0
  | _ => 0

end Step

/-- The counters after some chunks: how many chunks there were, the rows they have in all, what was not counted, and the
matches so far. -/
structure Balanced (chunks rows silent joined found : Nat) (stats : ScalarPredicateQueryStats) : Prop where
  considered : stats.chunksConsidered = chunks
  chunks_eq : stats.chunksScanned + stats.chunksPruned + silent = chunks
  blocks_eq : stats.blocksScanned + stats.blocksPruned + joined = stats.blocksConsidered
  matched_le : found ≤ stats.rowsChecked
  blocks_le : stats.blocksConsidered ≤ rows
  rows_le : stats.rowsChecked ≤ rows

section Chunk

variable {sd : SeriesDir} {query : ScalarPredicateQuery} {c : ChunkMeta} {rows : List ScalarRecord} {k n u j : Nat}
  {found : List ScalarPredicateMatch} {stats : ScalarPredicateQueryStats}

theorem loadZmap_blocks (hi : Indexed sd c rows) (hk : hasSidecarKind c zmapKind = true) (hne : rows ≠ []) :
    ∃ entries, loadSidecar sd c zmapKind = .ok (.zmap entries) ∧ ZoneMapOf entries rows ∧
      entries.Pairwise (fun a b => a.endRow < b.startRow) := by
  obtain ⟨entries, blockSize, hload, hbuild⟩ := loadZmap_built hi hk
  exact ⟨entries, hload, zoneMapOf_build hne hbuild, zmapBuildEntries_apart hne hbuild⟩

theorem queryViaZmap_balanced (hi : Indexed sd c rows) (hne : rows ≠ []) (hv : query.predicate.validate = .ok ())
    (hk : hasSidecarKind c zmapKind = true)
    (hw : ∀ {α : Type} (read : ChunkFile → Result α), ∃ f, Holds ScalarRecord f rows ∧
      withChunk sd scalarValidateHeader c read = read f)
    (hb : Balanced k n (u + 1) j found.length stats) (hku : k < u64Bound) (hnu : n + rows.length < u64Bound) :
    ∃ acc', queryViaZmap sd query c (found, stats) = .ok acc' ∧
      Balanced k (n + rows.length) u (j + joinedBlocks sd query c) acc'.1.length acc'.2 := by
  obtain ⟨entries, hload, hz, hblocks⟩ := loadZmap_blocks hi hk hne
  unfold queryViaZmap joinedBlocks
  rw [hload]
  simp only
  cases hr : candidateRowRangesForExpr entries query.predicate query.startTs query.endTs with
  | error e =>
    unfold candidateRowRangesForExpr at hr
    rw [hv] at hr
    cases hr
  | ok ranges =>
    obtain ⟨f, hf, hread⟩ := hw (fun f => readRowRanges f (mergeRowRanges ranges) [])
    obtain ⟨-, hmapart, hmin⟩ := merge_candidates hz hr
    obtain ⟨-, hcount⟩ := candidates_apart hblocks hr
    have hmerged : (mergeRowRanges ranges).length ≤ ranges.length := length_merge_le ranges
    have hentries := length_entries_le hz hblocks
    have hoverlap : entries.countP (fun e => decide (query.startTs ≤ e.endTs ∧ e.startTs ≤ query.endTs)) ≤
      entries.length :=
      List.countP_le_length
    have hrecords := readRowRanges_ok hf (mergeRowRanges ranges) [] hmin
    rw [List.nil_append] at hrecords
    have hlen : ((mergeRowRanges ranges).flatMap (fun r => between rows r.1 (r.2 + 1))).length ≤ rows.length :=
      (flatMap_between_sublist 0 hmapart (fun r hr => ⟨Nat.zero_le _, (hmin r hr).1⟩)).length_le
    obtain ⟨h1, h2, h3, h4, h5, h6⟩ := hb
    simp only
    by_cases hnil : ranges.isEmpty = true
    · have hzero : ranges.length = 0 := by rw [List.isEmpty_iff.1 hnil, List.length_nil]
      rw [if_pos hnil]
      refine ⟨_, rfl, ?_, ?_, ?_, ?_, ?_, ?_⟩ <;> simp only
      · exact h1
      · rw [satAdd_eq (by omega)]
        omega
      · rw [satAdd_eq (by omega), satAdd_eq (by omega)]
        omega
      · exact h4
      · rw [satAdd_eq (by omega)]
        omega
      · omega
    · rw [if_neg hnil, hread, hrecords]
      simp only
      refine ⟨_, rfl, ?_, ?_, ?_, ?_, ?_, ?_⟩ <;> simp only
      · exact h1
      · rw [satAdd_eq (by omega)]
        omega
      · rw [satAdd_eq (by omega), satAdd_eq (by omega), satAdd_eq (by omega)]
        omega
      · rw [satAdd_eq (by omega), List.length_append, List.length_map]
        have := List.length_filter_le (fun r : ScalarRecord =>
          inQueryRange query r.ts && query.predicate.matches r.value.val)
          ((mergeRowRanges ranges).flatMap (fun r => between rows r.1 (r.2 + 1)))
        omega
      · rw [satAdd_eq (by omega)]
        omega
      · rw [satAdd_eq (by omega)]
        omega

theorem queryViaVix_balanced (hi : Indexed sd c rows) (hv : query.predicate.validate = .ok ())
    (hp : query.predicate.isDiscreteLookupLike = true) (hk : hasSidecarKind c vixKind = true)
    (hb : Balanced k n (u + 1) j found.length stats) (hku : k < u64Bound) (hnu : n + rows.length < u64Bound) :
    ∃ acc', queryViaVix sd query c (found, stats) = .ok acc' ∧
      Balanced k (n + rows.length) u j acc'.1.length acc'.2 := by
  unfold queryViaVix
  rw [loadVix_ok hi hk]
  simp only
  cases hr : matchingSlicesForExpr (vixBuildEntries rows) query.predicate with
  | error e =>
    unfold matchingSlicesForExpr at hr
    rw [hv] at hr
    simp only at hr
    split at hr <;> cases hr
  | ok slices =>
    obtain ⟨hlen, hsum⟩ := length_slices_le (vixBuildEntries_sorted rows) hp hr
    rw [(vixBuildEntries_perm rows).length_eq, List.length_map] at hsum
    obtain ⟨h1, h2, h3, h4, h5, h6⟩ := hb
    simp only
    by_cases hnil : slices.isEmpty = true
    · rw [if_pos hnil]
      refine ⟨_, rfl, h1, ?_, h3, h4, h5.trans (Nat.le_add_right _ _), h6.trans (Nat.le_add_right _ _)⟩
      simp only
      rw [satAdd_eq (by omega)]
      omega
    · rw [if_neg hnil]
      refine ⟨_, rfl, h1, ?_, h3, ?_, h5.trans (Nat.le_add_right _ _), ?_⟩ <;> simp only
      · rw [satAdd_eq (by omega)]
        omega
      · rw [foldl_satAdd (fun r => r.2 - r.1) _ _ (by omega), List.length_append, List.length_map]
        have := List.length_filter_le (fun e : ValueIndexEntry =>
          inQueryRange query e.ts && query.predicate.matches e.value)
          (slices.flatMap (fun r => between (vixBuildEntries rows) r.1 r.2))
        omega
      · rw [foldl_satAdd (fun r => r.2 - r.1) _ _ (by omega)]
        omega

/-- A chunk that is read without a row in range stays uncounted. -/
theorem queryViaRawScan_balanced
    (hw : ∀ {α : Type} (read : ChunkFile → Result α), ∃ f, Holds ScalarRecord f rows ∧
      withChunk sd scalarValidateHeader c read = read f)
    (hb : Balanced k n (u + 1) j found.length stats) (hku : k < u64Bound) (hnu : n + rows.length < u64Bound) :
    ∃ acc', queryViaRawScan sd query c (found, stats) = .ok acc' ∧
      Balanced k (n + rows.length)
        (u + if inRange query.startTs query.endTs rows = [] then 1 else 0) j acc'.1.length acc'.2 := by
  obtain ⟨f, hf, hread⟩ := hw (fun f => (scalarAppendRange f query.startTs query.endTs []).map Prod.snd)
  obtain ⟨path, hpath⟩ := scalarAppendRange_ok hf query.startTs query.endTs []
  obtain ⟨h1, h2, h3, h4, h5, h6⟩ := hb
  unfold queryViaRawScan
  rw [hread, hpath]
  simp only [Except.map, List.nil_append]
  by_cases hnil : inRange query.startTs query.endTs rows = []
  · rw [if_pos (List.isEmpty_iff.2 hnil), if_pos hnil]
    exact ⟨_, rfl, h1, h2, h3, h4, h5.trans (Nat.le_add_right _ _), h6.trans (Nat.le_add_right _ _)⟩
  · rw [if_neg (fun h => hnil (List.isEmpty_iff.1 h)), if_neg hnil]
    have hlen : (inRange query.startTs query.endTs rows).length ≤ rows.length := List.length_filter_le _ _
    refine ⟨_, rfl, h1, ?_, h3, ?_, h5.trans (Nat.le_add_right _ _), ?_⟩ <;> simp only
    · rw [satAdd_eq (by omega)]
      omega
    · rw [satAdd_eq (by omega), List.length_append, List.length_map]
      have := List.length_filter_le (fun r : ScalarRecord => query.predicate.matches r.value.val)
        (inRange query.startTs query.endTs rows)
      omega
    · rw [satAdd_eq (by omega)]
      omega

theorem markIndexUsed_balanced {i : Nat} (kind : ScalarIndexKind) (hb : Balanced k n u j i stats) :
    Balanced k n u j i (markIndexUsed stats kind) :=
  ⟨hb.considered, hb.chunks_eq, hb.blocks_eq, hb.matched_le, hb.blocks_le, hb.rows_le⟩

end Chunk

section Run

variable {sd : SeriesDir} {query : ScalarPredicateQuery} {m : SeriesMeta} {rowsOf : ChunkMeta → List ScalarRecord}

/-- The blocks of a chunk that go uncounted: none where the chunk is not asked through its zone map. -/
def joinedOf (sd : SeriesDir) (query : ScalarPredicateQuery) (c : ChunkMeta) : Nat :=
  if viaVix query c = false ∧ viaZmap query c = true then joinedBlocks sd query c else 0

/-- **Whichever way a chunk is asked, it keeps the counters balanced.** -/
theorem queryChunk_balanced (h : Stored ScalarRecord sd m rowsOf) (hi : ∀ c ∈ m.chunks, Indexed sd c (rowsOf c))
    (hv : query.predicate.validate = .ok ()) {c : ChunkMeta} (hc : c ∈ m.chunks) {k n u j : Nat} {acc : QueryState}
    (hb : Balanced k n u j acc.1.length acc.2) (hku : k + 1 < u64Bound) (hnu : n + (rowsOf c).length < u64Bound) :
    ∃ acc', queryChunk sd query c acc = .ok acc' ∧
      Balanced (k + 1) (n + (rowsOf c).length) (u + silentChunks query (rowsOf c) c)
        (j + joinedOf sd query c) acc'.1.length acc'.2 := by
  have hw : ∀ {α : Type} (read : ChunkFile → Result α),
      ∃ f, Holds ScalarRecord f (rowsOf c) ∧ withChunk sd scalarValidateHeader c read = read f := fun read =>
    h.withChunk_ok _ hc (fun f hf => hf.validateHeader_ok _ _) read
  have hne : rowsOf c ≠ [] := by
    obtain ⟨f, -, hf, -⟩ := h.held c hc
    exact hf.ne_nil
  have hone : Balanced (k + 1) n (u + 1) j acc.1.length { acc.2
    with chunksConsidered := satAdd acc.2.chunksConsidered 1 } := by
    obtain ⟨h1, h2, h3, h4, h5, h6⟩ := hb
    exact ⟨by rw [satAdd_eq (by omega), h1], by simp only; omega, h3, h4, h5, h6⟩
  unfold queryChunk silentChunks joinedOf
  rw [show (query.predicate.isDiscreteLookupLike && hasSidecarKind c vixKind) = viaVix query c from rfl,
    show (query.predicate.isContinuousRangeLike && hasSidecarKind c zmapKind) = viaZmap query c from rfl]
  cases hvix : viaVix query c with
  | true =>
    obtain ⟨hp, hk⟩ := Bool.and_eq_true_iff.1 hvix
    rw [if_pos rfl, if_neg (fun h => absurd h.1 (by simp)), if_neg (fun h => absurd h.1 (by simp)), Nat.add_zero,
      Nat.add_zero]
    exact queryViaVix_balanced (hi c hc) hv hp hk (markIndexUsed_balanced .valueIndex hone) hku hnu
  | false =>
    cases hzmap : viaZmap query c with
    | true =>
      have hk := (Bool.and_eq_true_iff.1 hzmap).2
      rw [if_neg (by simp), if_pos rfl, if_neg (fun h => absurd h.2.1 (by simp)), if_pos ⟨rfl, rfl⟩, Nat.add_zero]
      exact queryViaZmap_balanced (hi c hc) hne hv hk hw (markIndexUsed_balanced .zoneMap hone) hku hnu
    | false =>
      have hscan : Balanced (k + 1) n (u + 1) j acc.1.length
          { markIndexUsed { acc.2 with chunksConsidered := satAdd acc.2.chunksConsidered 1 } .fullScan
            with fallbackScan := true } :=
        ⟨hone.considered, hone.chunks_eq, hone.blocks_eq, hone.matched_le, hone.blocks_le, hone.rows_le⟩
      rw [if_neg (by simp), if_neg (by simp)]
      obtain ⟨acc', hstep, hb'⟩ := queryViaRawScan_balanced hw hscan hku hnu
      exact ⟨acc', hstep, by simpa using hb'⟩

theorem queryChunks_balanced (h : Stored ScalarRecord sd m rowsOf) (hi : ∀ c ∈ m.chunks, Indexed sd c (rowsOf c))
    (hv : query.predicate.validate = .ok ()) : ∀ (cs : List ChunkMeta) (k n u j : Nat)
    (acc : QueryState), (∀ c ∈ cs, c ∈ m.chunks) →
    Balanced k n u j acc.1.length acc.2 → k + cs.length < u64Bound → n + (cs.flatMap rowsOf).length < u64Bound →
    ∃ acc', queryChunks sd query cs acc = .ok acc' ∧
      Balanced (k + cs.length) (n + (cs.flatMap rowsOf).length)
        (u + (cs.map (fun c => silentChunks query (rowsOf c) c)).sum)
        (j + (cs.map (joinedOf sd query)).sum) acc'.1.length acc'.2
  | [], _, _, _, _, acc, _, hb, _, _ => ⟨acc, rfl, by simpa using hb⟩
  | c :: cs, k, n, u, j, acc, hcs, hb, hku, hnu => by
    rw [List.length_cons] at hku
    rw [List.flatMap_cons, List.length_append] at hnu
    obtain ⟨acc', hstep, hb'⟩ := queryChunk_balanced h hi hv (hcs c (by simp)) hb (by omega) (by omega)
    obtain ⟨acc'', hrest, hb''⟩ := queryChunks_balanced h hi hv cs _ _ _ _ acc' (fun d hd => hcs d (by simp [hd])) hb'
      (by omega) (by omega)
    refine ⟨acc'', ?_, ?_⟩
    · unfold queryChunks
      rw [hstep]
      exact hrest
    · rw [List.length_cons, List.flatMap_cons, List.length_append, List.map_cons, List.sum_cons, List.map_cons,
        List.sum_cons]
      convert hb'' using 1 <;> omega

end Run

/-! ## The whole query -/

/-- The counters add up. -/
structure Accounts (stats : ScalarPredicateQueryStats) : Prop where
  chunks : stats.chunksConsidered = stats.chunksScanned + stats.chunksPruned
  blocks : stats.blocksConsidered = stats.blocksScanned + stats.blocksPruned
  rows : stats.rowsMatched ≤ stats.rowsChecked

/-- Every chunk the query reads without an index has a row in range, and no two candidate blocks of a zone map touch. -/
structure CountsAll (sd : SeriesDir) (query : ScalarPredicateQuery) (m : SeriesMeta)
    (rowsOf : ChunkMeta → List ScalarRecord) : Prop where
  inRange : ∀ c ∈ m.chunksIn (m.findChunksForRange query.startTs query.endTs), viaVix query c = false →
    viaZmap query c = false →
    ∃ r ∈ rowsOf c, query.startTs ≤ r.ts ∧ r.ts ≤ query.endTs
  apart : ∀ c ∈ m.chunksIn (m.findChunksForRange query.startTs query.endTs), viaVix query c = false →
    viaZmap query c = true →
    ∀ entries ranges, loadSidecar sd c zmapKind = .ok (.zmap entries) →
    candidateRowRangesForExpr entries query.predicate query.startTs query.endTs = .ok ranges →
    ∀ a ∈ ranges, ∀ b ∈ ranges, a.2 + 1 ≠ b.1

section Whole

variable {sd : SeriesDir} {query : ScalarPredicateQuery} {m : SeriesMeta} {rowsOf : ChunkMeta → List ScalarRecord}

theorem silentChunks_eq_zero {c : ChunkMeta} : silentChunks query (rowsOf c) c = 0 ↔
    (viaVix query c = false → viaZmap query c = false → ∃ r ∈ rowsOf c, query.startTs ≤ r.ts ∧ r.ts ≤ query.endTs) := by
  have hnil : FastK.inRange query.startTs query.endTs (rowsOf c) = [] ↔
      ¬ ∃ r ∈ rowsOf c, query.startTs ≤ r.ts ∧ r.ts ≤ query.endTs := by
    unfold FastK.inRange
    rw [List.filter_eq_nil_iff, not_exists]
    refine forall_congr' (fun r => ?_)
    rw [not_and, decide_eq_true_iff]
    rfl
  unfold silentChunks
  simp only [hnil]
  by_cases h1 : viaVix query c = false <;> by_cases h2 : viaZmap query c = false <;> simp [h1, h2]

theorem joinedOf_eq_zero (h : Stored ScalarRecord sd m rowsOf) (hi : ∀ c ∈ m.chunks, Indexed sd c (rowsOf c))
    {c : ChunkMeta} (hv : query.predicate.validate = .ok ()) (hc : c ∈ m.chunks) : joinedOf sd query c = 0 ↔
    (viaVix query c = false → viaZmap query c = true → ∀ entries ranges,
      loadSidecar sd c zmapKind = .ok (.zmap entries) →
      candidateRowRangesForExpr entries query.predicate query.startTs query.endTs = .ok ranges →
      ∀ a ∈ ranges, ∀ b ∈ ranges, a.2 + 1 ≠ b.1) := by
  unfold joinedOf
  by_cases hway : viaVix query c = false ∧ viaZmap query c = true
  · have hne : rowsOf c ≠ [] := by
      obtain ⟨f, -, hf, -⟩ := h.held c hc
      exact hf.ne_nil
    obtain ⟨entries, hload, hz, hblocks⟩ := loadZmap_blocks (hi c hc) (Bool.and_eq_true_iff.1 hway.2).2 hne
    cases hr : candidateRowRangesForExpr entries query.predicate query.startTs query.endTs with
    | error e =>
      unfold candidateRowRangesForExpr at hr
      rw [hv] at hr
      cases hr
    | ok ranges =>
      have hlen : (mergeRowRanges ranges).length ≤ ranges.length := length_merge_le ranges
      have hiff : (mergeRowRanges ranges).length = ranges.length ↔ ∀ a ∈ ranges, ∀ b ∈ ranges, a.2 + 1 ≠ b.1 :=
        length_merge_iff (candidates_apart hblocks hr).1 (merge_candidates hz hr).1
      rw [if_pos hway]
      unfold joinedBlocks
      rw [hload]
      simp only [hr]
      constructor
      · intro hzero _ _ entries' ranges' hload' hr'
        obtain rfl : entries = entries' := by simpa using hload'
        obtain rfl : ranges = ranges' := by simpa [hr] using hr'
        exact hiff.1 (by omega)
      · intro hall
        have := hiff.2 (hall hway.1 hway.2 entries ranges rfl hr)
        omega
  · rw [if_neg hway]
    exact iff_of_true rfl (fun h1 h2 => absurd ⟨h1, h2⟩ hway)

theorem length_chunks_le (h : Stored ScalarRecord sd m rowsOf) : ∀ (cs : List ChunkMeta), (∀ c ∈ cs, c ∈ m.chunks) →
    cs.length ≤ (cs.flatMap rowsOf).length
  | [], _ => Nat.zero_le _
  | c :: cs, hcs => by
    have ih := length_chunks_le h cs (fun d hd => hcs d (by simp [hd]))
    obtain ⟨f, -, hf, -⟩ := h.held c (hcs c (by simp))
    have := List.length_pos_iff.2 hf.ne_nil
    rw [List.flatMap_cons, List.length_append, List.length_cons]
    omega

/-- **The counters of a query add up exactly when every chunk that it reads without an index has a row in range and no
two candidate blocks touch**; it never matches more rows than it checks.  Timestamps lie where a month key exists, as
every writer demands, so the counters do not saturate. -/
theorem queryScalarPredicate_accounts_iff (h : Stored ScalarRecord sd m rowsOf)
    (hi : ∀ c ∈ m.chunks, Indexed sd c (rowsOf c)) (hts : ∀ c ∈ m.chunks, ∀ r ∈ rowsOf c, TsInRange r.ts)
    (hkey : query.key.isBlank = false) (hse : query.startTs ≤ query.endTs) (hv : query.predicate.validate = .ok ()) :
    ∃ result, queryScalarPredicate sd query = .ok result ∧ result.stats.rowsMatched ≤ result.stats.rowsChecked ∧
      (Accounts result.stats ↔ query.predicate.isImpossible = true ∨ CountsAll sd query m rowsOf) := by
  unfold queryScalarPredicate validateScalarPredicateQuery
  rw [hkey, if_neg (by simp), if_neg (by omega), hv]
  simp only
  cases himp : query.predicate.isImpossible with
  | true => exact ⟨_, rfl, le_refl _, iff_of_true ⟨rfl, rfl, le_refl _⟩ (.inl rfl)⟩
  | false =>
    rw [if_neg (by simp), withMeta_ok h]
    unfold queryScalarPredicatePrepared
    simp only [Bool.false_eq_true, false_or]
    by_cases hnil : m.chunksIn (m.findChunksForRange query.startTs query.endTs) = []
    · rw [if_pos hnil]
      refine ⟨_, rfl, le_refl _, iff_of_true ⟨rfl, rfl, le_refl _⟩ ⟨?_, ?_⟩⟩ <;> rw [hnil] <;> simp
    · rw [if_neg hnil]
      have hmem : ∀ c ∈ m.chunksIn (m.findChunksForRange query.startTs query.endTs), c ∈ m.chunks := fun c hc =>
        SeriesMeta.chunksIn_subset hc
      have hrows : (m.chunks.flatMap rowsOf).length < 2 ^ 55 :=
        length_of_inRange (ordered_scalars.1 h.ordered) (fun r hr => by
          obtain ⟨c, hc, hrc⟩ := List.mem_flatMap.1 hr
          exact hts c hc r hrc)
      have hasked : ((m.chunksIn (m.findChunksForRange query.startTs query.endTs)).flatMap rowsOf).length
          ≤ (m.chunks.flatMap rowsOf).length :=
        (((List.take_sublist _ _).trans (List.drop_sublist _ _)).flatMap rowsOf).length_le
      have hchunks := length_chunks_le h _ hmem
      obtain ⟨⟨found, stats⟩, hrun, hb⟩ := queryChunks_balanced h hi hv _ 0 0 0 0 ([], .zero) hmem
        ⟨rfl, rfl, rfl, le_refl _, le_refl _, le_refl _⟩ (by unfold u64Bound; omega) (by unfold u64Bound; omega)
      rw [hrun]
      refine ⟨_, rfl, hb.matched_le, ?_⟩
      simp only at hb
      obtain ⟨h1, h2, h3, h4, -, -⟩ := hb
      rw [Nat.zero_add] at h1 h2
      rw [Nat.zero_add] at h2 h3
      have hsilent : ((m.chunksIn (m.findChunksForRange query.startTs query.endTs)).map
          (fun c => silentChunks query (rowsOf c) c)).sum
            = 0 ↔ ∀ c ∈ m.chunksIn (m.findChunksForRange query.startTs query.endTs),
          silentChunks query (rowsOf c) c = 0 := by
        rw [List.sum_eq_zero_iff_forall_eq_nat, List.forall_mem_map]
      have hjoined : ((m.chunksIn (m.findChunksForRange query.startTs query.endTs)).map (joinedOf sd query)).sum = 0 ↔
          ∀ c ∈ m.chunksIn (m.findChunksForRange query.startTs query.endTs), joinedOf sd query c = 0 := by
        rw [List.sum_eq_zero_iff_forall_eq_nat, List.forall_mem_map]
      constructor
      · rintro ⟨ha, hbl, -⟩
        simp only at ha hbl
        exact ⟨fun c hc => silentChunks_eq_zero.1 (hsilent.1 (by omega) c hc),
          fun c hc => (joinedOf_eq_zero h hi hv (hmem c hc)).1 (hjoined.1 (by omega) c hc)⟩
      · rintro ⟨ha, hbl⟩
        have hs := hsilent.2 (fun c hc => silentChunks_eq_zero.2 (ha c hc))
        have hj := hjoined.2 (fun c hc => (joinedOf_eq_zero h hi hv (hmem c hc)).2 (hbl c hc))
        exact ⟨by simp only; omega, by simp only; omega, h4⟩

end Whole

/-- Two blocks of the sample series hold a value above 4, one after the other. -/
def touchingQuery : ScalarPredicateQuery := ⟨⟨"BTCUSDT", "indicator", "rsi"⟩, 0, 120000, .gt 4, true⟩

/-- The value 7 lies in the first block of the sample series only. -/
def oneBlockQuery : ScalarPredicateQuery := ⟨⟨"BTCUSDT", "indicator", "rsi"⟩, 0, 120000, .gt 6, true⟩

theorem queryScalarPredicate_accounts_sample :
    ∃ result, queryScalarPredicate sampleScalarSeries oneBlockQuery = .ok result ∧
    Accounts result.stats := by
  obtain ⟨result, hrun, -, hiff⟩ := @queryScalarPredicate_accounts_iff _ oneBlockQuery _ _ sampleScalarSeries_stored
    (fun c hc => by
      obtain rfl := List.mem_singleton.1 hc
      exact sampleScalarSeries_indexed)
    (fun _ _ => by decide) (by decide) (by decide) (by decide)
  refine ⟨result, hrun, hiff.2 (.inr ⟨fun c hc _ hzmap => ?_, fun c hc _ _ entries ranges hload hr => ?_⟩)⟩
  · obtain rfl := List.mem_singleton.1 (SeriesMeta.chunksIn_subset hc)
    exact absurd hzmap (by decide)
  · obtain rfl := List.mem_singleton.1 (SeriesMeta.chunksIn_subset hc)
    obtain rfl : sampleZmap = entries := by
      rw [show loadSidecar sampleScalarSeries sampleScalarChunk zmapKind = .ok (.zmap sampleZmap) by decide +kernel]
        at hload
      simpa using hload
    obtain rfl : [(0, 1)] = ranges := by
      rw [show candidateRowRangesForExpr sampleZmap oneBlockQuery.predicate oneBlockQuery.startTs oneBlockQuery.endTs
        = .ok [(0, 1)] by decide] at hr
      simpa using hr
    decide

/-- No row of the sample series lies between its first two minutes, and the predicate suits no index. -/
def betweenRowsQuery : ScalarPredicateQuery := ⟨⟨"BTCUSDT", "indicator", "rsi"⟩, 10, 20, .ne 5, true⟩

/-- Both blocks are considered, none is pruned and one is counted as scanned; the chunk read in vain is counted as
neither scanned nor pruned. -/
theorem counters_miss_work :
    (∃ result, queryScalarPredicate sampleScalarSeries touchingQuery = .ok result ∧ result.stats.blocksConsidered = 2 ∧
      result.stats.blocksScanned = 1 ∧ result.stats.blocksPruned = 0 ∧ ¬ Accounts result.stats) ∧
    ∃ result, queryScalarPredicate sampleScalarSeries betweenRowsQuery = .ok result ∧
      result.stats.chunksConsidered = 1 ∧
      result.stats.chunksScanned = 0 ∧ result.stats.chunksPruned = 0 ∧ ¬ Accounts result.stats := by
  constructor
  · refine ⟨⟨[⟨0, some 5⟩, ⟨60000, some 7⟩, ⟨120000, some 5⟩], ⟨1, 1, 0, 2, 1, 0, 3, 3, some .zoneMap, false⟩⟩,
      by decide +kernel, rfl, rfl, rfl, fun h => ?_⟩
    exact absurd h.blocks (by decide)
  · refine ⟨⟨[], ⟨1, 0, 0, 0, 0, 0, 0, 0, some .fullScan, true⟩⟩, by decide +kernel, rfl, rfl, rfl, fun h => ?_⟩
    exact absurd h.chunks (by decide)

end FastK
