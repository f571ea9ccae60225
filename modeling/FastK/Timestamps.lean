import FastK.Query
/-!
# Timestamps by predicate

The older predicate on scalar values and the three ways to ask a series for the timestamps that satisfy it:
`find_scalar_timestamps_via_zmap`, `find_scalar_timestamps_via_vix` and `find_scalar_timestamps_raw`.  Each has its own
pruning, its own reading of reversed bounds and its own sort; on a series with both sidecars they return one list, the
timestamps of `query_scalar_predicate` (`findScalarTimestamps_agree`).
-/
namespace FastK

open Search Spans Ranges

/-! ## The predicate -/

inductive CompareOp where
  | gt
  | gte
  | lt
  | lte
  | eq
  | between
  deriving DecidableEq, Repr

structure ScalarPredicate where
  op : CompareOp
  value : Int
  value2 : Option Int
  deriving DecidableEq, Repr

namespace ScalarPredicate

/-- The bounds of a `Between`, in either order. -/
def bounds (predicate : ScalarPredicate) : Result (Int × Int) :=
  match predicate.value2 with
  | none => .error (.invalidInput "between predicate requires value2")
  | some upper => .ok (min predicate.value upper, max predicate.value upper)

def «matches» (predicate : ScalarPredicate) (candidate : Int) : Result Bool :=
  match predicate.op with
  | .gt => .ok (decide (predicate.value < candidate))
  | .gte => .ok (decide (predicate.value ≤ candidate))
  | .lt => .ok (decide (candidate < predicate.value))
  | .lte => .ok (decide (candidate ≤ predicate.value))
  | .eq => .ok (decide (candidate = predicate.value))
  | .between =>
    match predicate.bounds with
    | .error e => .error e
    | .ok (lower, upper) => .ok (decide (lower ≤ candidate ∧ candidate ≤ upper))

/-- `ScalarPredicateExpr::try_from`. -/
def toExpr (predicate : ScalarPredicate) : Result ScalarPredicateExpr :=
  match predicate.op with
  | .gt => .ok (.gt predicate.value)
  | .gte => .ok (.gte predicate.value)
  | .lt => .ok (.lt predicate.value)
  | .lte => .ok (.lte predicate.value)
  | .eq => .ok (.eq predicate.value)
  | .between =>
    match predicate.value2 with
    | none => .error (.invalidInput "between predicate requires value2")
    | some max' => .ok (.between (min predicate.value max') (max predicate.value max') true)

/-- Every operator but `Between` takes one value; `Between` takes two. -/
def WellFormed (predicate : ScalarPredicate) : Prop := predicate.op = .between → predicate.value2.isSome = true

end ScalarPredicate

/-- `zmap::entry_may_match`. -/
def entryMayMatch (entry : ZoneMapEntry) (predicate : ScalarPredicate) : Result Bool :=
  match predicate.op with
  | .gt => .ok (decide (predicate.value < entry.maxValue))
  | .gte => .ok (decide (predicate.value ≤ entry.maxValue))
  | .lt => .ok (decide (entry.minValue < predicate.value))
  | .lte => .ok (decide (entry.minValue ≤ predicate.value))
  | .eq => .ok (decide (entry.minValue ≤ predicate.value ∧ predicate.value ≤ entry.maxValue))
  | .between =>
    match predicate.bounds with
    | .error e => .error e
    | .ok (lower, upper) => .ok (decide (lower ≤ entry.maxValue ∧ entry.minValue ≤ upper))

/-- `zmap::candidate_row_ranges`. -/
def candidateRowRanges (predicate : ScalarPredicate) (startTs endTs : Int) :
    List ZoneMapEntry → List (Nat × Nat) → Result (List (Nat × Nat))
  | [], ranges => .ok ranges
  | entry :: entries, ranges =>
    if entry.endTs < startTs ∨ endTs < entry.startTs then candidateRowRanges predicate startTs endTs entries ranges
    else
      match entryMayMatch entry predicate with
      | .error e => .error e
      | .ok true => candidateRowRanges predicate startTs endTs entries (ranges ++ [(entry.startRow, entry.endRow)])
      | .ok false => candidateRowRanges predicate startTs endTs entries ranges

/-- `vix::matching_slice`: half open. -/
def matchingSlice (entries : List ValueIndexEntry) (predicate : ScalarPredicate) : Result (Nat × Nat) :=
  match predicate.op with
  | .gt => .ok (vixUpperBound entries predicate.value, entries.length)
  | .gte => .ok (vixLowerBound entries predicate.value, entries.length)
  | .lt => .ok (0, vixLowerBound entries predicate.value)
  | .lte => .ok (0, vixUpperBound entries predicate.value)
  | .eq => .ok (vixLowerBound entries predicate.value, vixUpperBound entries predicate.value)
  | .between =>
    match predicate.bounds with
    | .error e => .error e
    | .ok (lower, upper) => .ok (vixLowerBound entries lower, vixUpperBound entries upper)

/-- The loop that ends each strategy: the timestamps in the window whose value matches. -/
def matchingTimestamps {α : Type} (ts value : α → Int) (predicate : ScalarPredicate) (startTs endTs : Int) :
    List α → List Int → Result (List Int)
  | [], out => .ok out
  | r :: rs, out =>
    if startTs ≤ ts r ∧ ts r ≤ endTs then
      match predicate.matches (value r) with
      | .error e => .error e
      | .ok true => matchingTimestamps ts value predicate startTs endTs rs (out ++ [ts r])
      | .ok false => matchingTimestamps ts value predicate startTs endTs rs out
    else matchingTimestamps ts value predicate startTs endTs rs out

/-- `sort_unstable` and `dedup`. -/
def sortedUnique (l : List Int) : List Int := dedupAdjacent (l.insertionSort (· ≤ ·))

/-- `vix::find_timestamps`. -/
def vixFindTimestamps (entries : List ValueIndexEntry) (predicate : ScalarPredicate) (startTs endTs : Int) :
    Result (List Int) :=
  if endTs < startTs ∨ entries.isEmpty then .ok []
  else
    match matchingSlice entries predicate with
    | .error e => .error e
    | .ok r =>
      (matchingTimestamps ValueIndexEntry.ts ValueIndexEntry.value predicate startTs endTs (between entries r.1 r.2)
        []).map sortedUnique

def validateSeriesKey (key : ScalarSeriesKey) : Result Unit :=
  if key.isBlank then .error (.invalidInput "scalar series key fields must not be empty") else .ok ()

/-- `find_timestamps_via_vix`. -/
def findTimestampsViaVix (key : ScalarSeriesKey) (entries : List ValueIndexEntry) (predicate : ScalarPredicate)
    (startTs endTs : Int) :
    Result (List Int) :=
  match validateSeriesKey key with
  | .error e => .error e
  | .ok () => vixFindTimestamps entries predicate startTs endTs

/-! ## The three strategies -/

inductive ScalarQueryStrategy where
  | zmap
  | vix
  | raw
  deriving DecidableEq, Repr

section Strategies

variable (sd : SeriesDir) (key : ScalarSeriesKey) (predicate : ScalarPredicate) (startTs endTs : Int)

def queryScalarViaZmap (c : ChunkMeta) : Result (List Int) :=
  match loadSidecar sd c zmapKind with
  | .error e => .error e
  | .ok (.zmap entries) =>
    match candidateRowRanges predicate startTs endTs entries [] with
    | .error e => .error e
    | .ok rowRanges =>
      if rowRanges.isEmpty then .ok []
      else
        match withChunk sd scalarValidateHeader c (fun f => readRowRanges f (mergeRowRanges rowRanges) []) with
        | .error e => .error e
        | .ok records =>
          (matchingTimestamps ScalarRecord.ts (fun r => r.value.val) predicate startTs endTs records []).map
            sortedUnique
  | .ok _ => .error (.invalidData "invalid zmap byte length")

/-- The key is looked at once the sidecar is there. -/
def queryScalarViaVix (c : ChunkMeta) : Result (List Int) :=
  match loadSidecar sd c vixKind with
  | .error e => .error e
  | .ok (.vix entries) => findTimestampsViaVix key entries predicate startTs endTs
  | .ok _ => .error (.invalidData "invalid vix byte length")

def queryScalarViaRawScan (c : ChunkMeta) : Result (List Int) :=
  match withChunk sd scalarValidateHeader c (fun f => (scalarAppendRange f startTs endTs []).map Prod.snd) with
  | .error e => .error e
  | .ok records => matchingTimestamps ScalarRecord.ts (fun r => r.value.val) predicate startTs endTs records []

def queryScalarChunk (strategy : ScalarQueryStrategy) (c : ChunkMeta) : Result (List Int) :=
  match strategy with
  | .zmap => queryScalarViaZmap sd predicate startTs endTs c
  | .vix => queryScalarViaVix sd key predicate startTs endTs c
  | .raw => queryScalarViaRawScan sd predicate startTs endTs c

/-- Chunk after chunk. -/
def queryScalarChunks (strategy : ScalarQueryStrategy) : List ChunkMeta → List Int → Result (List Int)
  | [], timestamps => .ok timestamps
  | c :: cs, timestamps =>
    match queryScalarChunk sd key predicate startTs endTs strategy c with
    | .error e => .error e
    | .ok found => queryScalarChunks strategy cs (timestamps ++ found)

def findScalarTimestampsPrepared (m : SeriesMeta) (strategy : ScalarQueryStrategy) : Result (List Int) :=
  if endTs < startTs then .ok []
  else
    let chunks := m.chunksIn (m.findChunksForRange startTs endTs)
    if chunks = [] then .ok []
    else (queryScalarChunks sd key predicate startTs endTs strategy chunks []).map sortedUnique

/-- `find_scalar_timestamps` on the directory of the key. -/
def findScalarTimestamps (strategy : ScalarQueryStrategy) : Result (List Int) :=
  if endTs < startTs then .ok []
  else withMeta sd (fun m => findScalarTimestampsPrepared sd key predicate startTs endTs m strategy)

def findScalarTimestampsViaZmap : Result (List Int) := findScalarTimestamps sd key predicate startTs endTs .zmap

def findScalarTimestampsViaVix : Result (List Int) := findScalarTimestamps sd key predicate startTs endTs .vix

def findScalarTimestampsRaw : Result (List Int) := findScalarTimestamps sd key predicate startTs endTs .raw

end Strategies

/-! ## One list -/

/-- A list in strictly increasing order has nothing to drop. -/
theorem dedupAdjacent_of_strict : ∀ {l : List Int}, l.Pairwise (· < ·) → dedupAdjacent l = l
  | [], _ => rfl
  | [_], _ => rfl
  | a :: b :: rest, h => by
    have hab : a < b := List.rel_of_pairwise_cons h (by simp)
    unfold dedupAdjacent
    rw [if_neg (ne_of_lt hab), dedupAdjacent_of_strict h.of_cons]

/-- **Sorting and dropping repeats undoes any order**: what a strategy gathered is, sorted, the increasing list it is a
permutation of. -/
theorem sortedUnique_of_perm {found expected : List Int} (hp : found.Perm expected) (hs : expected.Pairwise (· < ·)) :
    sortedUnique found = expected := by
  have hsort : found.insertionSort (· ≤ ·) = expected := by
    refine ((List.perm_insertionSort _ _).trans hp).eq_of_pairwise ?_ (List.pairwise_insertionSort _ _)
      (hs.imp (fun h => le_of_lt h))
    intro a b _ _ hab hba
    exact le_antisymm hab hba
  unfold sortedUnique
  rw [hsort, dedupAdjacent_of_strict hs]

/-- The predicate and the expression it becomes say the same, to every index. -/
structure Expresses (predicate : ScalarPredicate) (expr : ScalarPredicateExpr) : Prop where
  toExpr : predicate.toExpr = .ok expr
  valid : expr.validate = .ok ()
  agrees : ∀ candidate, predicate.matches candidate = .ok (expr.matches candidate)
  mayMatch : ∀ entry, entryMayMatch entry predicate = .ok (expr.mayMatchValueRange entry.minValue entry.maxValue)
  slice : ∀ entries : List ValueIndexEntry, entries.isEmpty = false → ∃ r, matchingSlice entries predicate = .ok r ∧
    matchingSlicesForExpr entries expr = .ok ([r].filter (fun r => decide (r.1 < r.2)))

/-- **A well-formed predicate has its expression**, and a `Between` with its bounds reversed has the one with the
bounds in order. -/
theorem ScalarPredicate.WellFormed.expresses {predicate : ScalarPredicate} (h : predicate.WellFormed) :
    ∃ expr, Expresses predicate expr := by
  obtain ⟨op, value, value2⟩ := predicate
  cases op with
  | between =>
    obtain ⟨upper, rfl⟩ := Option.isSome_iff_exists.1 (h rfl)
    have hle : ¬ max value upper < min value upper := not_lt.2 (le_trans (min_le_left _ _) (le_max_left _ _))
    have hv : (ScalarPredicateExpr.between (min value upper) (max value upper) true).validate = .ok () := if_neg hle
    refine ⟨_, rfl, hv, fun _ => rfl, fun _ => rfl, fun entries he => ⟨_, rfl, ?_⟩⟩
    simp [matchingSlicesForExpr, hv, he]
  | _ =>
    -- one bound, one operator: the same comparison on both sides
    refine ⟨_, rfl, rfl, fun _ => rfl, fun _ => rfl, fun entries he => ⟨_, rfl, ?_⟩⟩
    simp [matchingSlicesForExpr, ScalarPredicateExpr.validate, he]

section Agreement

variable {predicate : ScalarPredicate} {expr : ScalarPredicateExpr} {startTs endTs : Int}

theorem matchingTimestamps_ok {α : Type} (hx : Expresses predicate expr) (ts value : α → Int) :
    ∀ (l : List α) (out : List Int),
    matchingTimestamps ts value predicate startTs endTs l out =
      .ok (out ++ (l.filter (fun r => decide (startTs ≤ ts r ∧ ts r ≤ endTs) && expr.matches (value r))).map ts)
  | [], out => by simp [matchingTimestamps]
  | r :: rs, out => by
    unfold matchingTimestamps
    by_cases hin : startTs ≤ ts r ∧ ts r ≤ endTs
    · rw [if_pos hin, hx.agrees]
      cases hm : expr.matches (value r) with
      | true =>
        simp only
        rw [matchingTimestamps_ok hx ts value rs, List.filter_cons_of_pos (by rw [hm, decide_eq_true hin]; rfl),
          List.map_cons, List.append_assoc, List.singleton_append]
      | false =>
        simp only
        rw [matchingTimestamps_ok hx ts value rs, List.filter_cons_of_neg (by rw [hm, Bool.and_false]; simp)]
    · rw [if_neg hin, matchingTimestamps_ok hx ts value rs, List.filter_cons_of_neg (by rw [decide_eq_false hin]; simp)]

theorem candidateRowRanges_ok (hx : Expresses predicate expr) : ∀ (entries : List ZoneMapEntry)
    (ranges : List (Nat × Nat)),
    candidateRowRanges predicate startTs endTs entries ranges =
      (candidateRowRangesForExpr entries expr startTs endTs).map (fun found => ranges ++ found)
  | [], ranges => by simp [candidateRowRanges, candidateRowRangesForExpr, hx.valid, Except.map]
  | entry :: entries, ranges => by
    have ih := candidateRowRanges_ok hx entries
    unfold candidateRowRangesForExpr at ih ⊢
    simp only [hx.valid, Except.map] at ih ⊢
    unfold candidateRowRanges
    by_cases hout : entry.endTs < startTs ∨ endTs < entry.startTs
    · rw [if_pos hout, ih, List.filter_cons_of_neg (by rw [decide_eq_true hout]; simp)]
    · rw [if_neg hout, hx.mayMatch]
      cases hm : expr.mayMatchValueRange entry.minValue entry.maxValue with
      | true =>
        simp only
        rw [ih, List.filter_cons_of_pos (by rw [decide_eq_false hout, hm]; rfl), List.map_cons, List.append_assoc,
          List.singleton_append]
      | false =>
        simp only
        rw [ih, List.filter_cons_of_neg (by rw [hm, Bool.and_false]; simp)]

/-- The timestamps of the rows in the window that satisfy the expression. -/
def expectedTimestamps (expr : ScalarPredicateExpr) (startTs endTs : Int) (rows : List ScalarRecord) : List Int :=
  ((inRange startTs endTs rows).filter (fun r => expr.matches r.value.val)).map ScalarRecord.ts

theorem expectedTimestamps_eq (expr : ScalarPredicateExpr) (startTs endTs : Int) (rows : List ScalarRecord) :
    expectedTimestamps expr startTs endTs rows =
      (rows.filter (fun r => decide (startTs ≤ r.ts ∧ r.ts ≤ endTs) && expr.matches r.value.val)).map
        ScalarRecord.ts := by
  unfold expectedTimestamps inRange
  rw [List.filter_filter]
  congr 1
  refine List.filter_congr (fun r _ => ?_)
  rw [Bool.and_comm]
  rfl

theorem expectedTimestamps_sorted {rows : List ScalarRecord} (h : rows.Pairwise (fun a b => a.ts < b.ts)) :
    (expectedTimestamps expr startTs endTs rows).Pairwise (· < ·) := by
  unfold expectedTimestamps
  rw [List.pairwise_map]
  exact h.sublist (List.filter_sublist.trans List.filter_sublist)

theorem vixFindTimestamps_ok (hx : Expresses predicate expr) (hse : startTs ≤ endTs) {rows : List ScalarRecord}
    (hrows : rows.Pairwise (fun a b => a.ts < b.ts)) :
    vixFindTimestamps (vixBuildEntries rows) predicate startTs endTs =
      .ok (expectedTimestamps expr startTs endTs rows) := by
  have hexp := expectedTimestamps_eq expr startTs endTs rows
  -- the entries in the window that match, in the order of their values
  have hall : (((vixBuildEntries rows).filter
      (fun e => decide (startTs ≤ e.ts ∧ e.ts ≤ endTs) && expr.matches e.value)).map ValueIndexEntry.ts).Perm
        (expectedTimestamps expr startTs endTs rows) := by
    rw [hexp]
    refine (((vixBuildEntries_perm rows).filter _).map _).trans (List.Perm.of_eq ?_)
    rw [List.filter_map, List.map_map]
    rfl
  unfold vixFindTimestamps
  by_cases hnil : (vixBuildEntries rows).isEmpty = true
  · rw [if_pos (.inr hnil)]
    rw [List.isEmpty_iff.1 hnil] at hall
    exact congrArg Except.ok hall.symm.eq_nil.symm
  · rw [if_neg (by rintro (h | h) <;> [omega; exact hnil h])]
    obtain ⟨r, hr, hslices⟩ := hx.slice _ (by simpa using hnil)
    have hperm := matchingSlices_perm (vixBuildEntries_sorted rows) hslices
    rw [flatMap_filter_slices, List.flatMap_singleton] at hperm
    have hfound := hperm.filter (fun e => decide (startTs ≤ e.ts ∧ e.ts ≤ endTs))
    rw [List.filter_filter, List.filter_filter] at hfound
    rw [hr]
    simp only
    rw [matchingTimestamps_ok hx, List.nil_append]
    exact congrArg Except.ok (sortedUnique_of_perm ((hfound.map _).trans hall) (expectedTimestamps_sorted hrows))

end Agreement

/-! ## On a chunk, on a series -/

section Chunks

variable {sd : SeriesDir} {key : ScalarSeriesKey} {predicate : ScalarPredicate} {expr : ScalarPredicateExpr}
    {startTs endTs : Int}
  {m : SeriesMeta} {rowsOf : ChunkMeta → List ScalarRecord} {c : ChunkMeta} {rows : List ScalarRecord}

theorem queryScalarViaZmap_ok (hx : Expresses predicate expr) (hi : Indexed sd c rows)
    (hk : hasSidecarKind c zmapKind = true) (hrows : rows.Pairwise (fun a b => a.ts < b.ts)) (hne : rows ≠ [])
    (hw : ∀ {α : Type} (read : ChunkFile → Result α), ∃ f, Holds ScalarRecord f rows ∧
      withChunk sd scalarValidateHeader c read = read f) :
    queryScalarViaZmap sd predicate startTs endTs c = .ok (expectedTimestamps expr startTs endTs rows) := by
  obtain ⟨entries, hload, hz⟩ := loadZmap_ok hi hk hne
  obtain ⟨ranges, hr⟩ : ∃ ranges, candidateRowRangesForExpr entries expr startTs endTs = .ok ranges := by
    unfold candidateRowRangesForExpr
    rw [hx.valid]
    exact ⟨_, rfl⟩
  obtain ⟨f, hf, hread⟩ := hw (fun f => readRowRanges f (mergeRowRanges ranges) [])
  obtain ⟨records, hrecords, hfound⟩ := readCandidates_ok hz hr hf
  have hexp := expectedTimestamps_eq expr startTs endTs rows
  rw [← hfound] at hexp
  unfold queryScalarViaZmap
  rw [hload]
  simp only
  rw [candidateRowRanges_ok hx, hr]
  simp only [Except.map, List.nil_append]
  by_cases hnil : ranges.isEmpty = true
  · rw [if_pos hnil, hexp]
    rw [List.isEmpty_iff.1 hnil] at hrecords
    obtain rfl := Except.ok.inj hrecords
    rfl
  · rw [if_neg hnil, hread, hrecords]
    simp only
    rw [matchingTimestamps_ok hx, List.nil_append]
    refine congrArg Except.ok (sortedUnique_of_perm (List.Perm.of_eq ?_) (expectedTimestamps_sorted hrows))
    exact hexp.symm

theorem queryScalarViaVix_ok (hx : Expresses predicate expr) (hi : Indexed sd c rows)
    (hk : hasSidecarKind c vixKind = true) (hrows : rows.Pairwise (fun a b => a.ts < b.ts))
    (hkey : key.isBlank = false) (hse : startTs ≤ endTs) :
    queryScalarViaVix sd key predicate startTs endTs c = .ok (expectedTimestamps expr startTs endTs rows) := by
  unfold queryScalarViaVix
  rw [loadVix_ok hi hk]
  simp only
  unfold findTimestampsViaVix validateSeriesKey
  rw [hkey]
  exact vixFindTimestamps_ok hx hse hrows

theorem queryScalarViaRawScan_ok (hx : Expresses predicate expr)
    (hw : ∀ {α : Type} (read : ChunkFile → Result α), ∃ f, Holds ScalarRecord f rows ∧
      withChunk sd scalarValidateHeader c read = read f) :
    queryScalarViaRawScan sd predicate startTs endTs c = .ok (expectedTimestamps expr startTs endTs rows) := by
  obtain ⟨f, hf, hread⟩ := hw (fun f => (scalarAppendRange f startTs endTs []).map Prod.snd)
  obtain ⟨path, hpath⟩ := scalarAppendRange_ok hf startTs endTs []
  unfold queryScalarViaRawScan
  rw [hread, hpath]
  simp only [Except.map, List.nil_append]
  rw [matchingTimestamps_ok hx, List.nil_append, expectedTimestamps_eq]
  unfold inRange
  rw [List.filter_filter]
  congr 2
  refine List.filter_congr (fun r _ => ?_)
  rw [Bool.and_right_comm]
  exact congrArg (· && _) (Bool.and_self _)

/-- **Whichever strategy asks it, a chunk answers with the timestamps of its matching rows.** -/
theorem queryScalarChunk_ok (hx : Expresses predicate expr) (h : Stored ScalarRecord sd m rowsOf)
    (hi : ∀ c ∈ m.chunks, Indexed sd c (rowsOf c))
    (hboth : ∀ c ∈ m.chunks, hasSidecarKind c zmapKind = true ∧ hasSidecarKind c vixKind = true)
    (hkey : key.isBlank = false) (hse : startTs ≤ endTs) (hc : c ∈ m.chunks) (strategy : ScalarQueryStrategy) :
    queryScalarChunk sd key predicate startTs endTs strategy c =
      .ok (expectedTimestamps expr startTs endTs (rowsOf c)) := by
  have hw : ∀ {α : Type} (read : ChunkFile → Result α),
      ∃ f, Holds ScalarRecord f (rowsOf c) ∧ withChunk sd scalarValidateHeader c read = read f := fun read =>
    h.withChunk_ok _ hc (fun f hf => hf.validateHeader_ok _ _) read
  obtain ⟨f, -, hf, -⟩ := h.held c hc
  have hrows := ordered_scalars.1 hf.ordered
  unfold queryScalarChunk
  cases strategy with
  | zmap => exact queryScalarViaZmap_ok hx (hi c hc) (hboth c hc).1 hrows hf.ne_nil hw
  | vix => exact queryScalarViaVix_ok hx (hi c hc) (hboth c hc).2 hrows hkey hse
  | raw => exact queryScalarViaRawScan_ok hx hw

theorem queryScalarChunks_ok {strategy : ScalarQueryStrategy} : ∀ (cs : List ChunkMeta) (timestamps : List Int),
    (∀ c ∈ cs, queryScalarChunk sd key predicate startTs endTs strategy c =
      .ok (expectedTimestamps expr startTs endTs (rowsOf c))) →
    queryScalarChunks sd key predicate startTs endTs strategy cs timestamps =
      .ok (timestamps ++ cs.flatMap (fun c => expectedTimestamps expr startTs endTs (rowsOf c)))
  | [], timestamps, _ => by simp [queryScalarChunks]
  | c :: cs, timestamps, hcs => by
    unfold queryScalarChunks
    rw [hcs c (by simp)]
    simp only
    rw [queryScalarChunks_ok cs _ (fun d hd => hcs d (by simp [hd])), List.flatMap_cons, List.append_assoc]

theorem findScalarTimestamps_ok (hx : Expresses predicate expr) (h : Stored ScalarRecord sd m rowsOf)
    (hi : ∀ c ∈ m.chunks, Indexed sd c (rowsOf c))
    (hboth : ∀ c ∈ m.chunks, hasSidecarKind c zmapKind = true ∧ hasSidecarKind c vixKind = true)
    (hkey : key.isBlank = false) (strategy : ScalarQueryStrategy) :
    findScalarTimestamps sd key predicate startTs endTs strategy =
      .ok (if endTs < startTs then [] else expectedTimestamps expr startTs endTs (m.chunks.flatMap rowsOf)) := by
  unfold findScalarTimestamps
  by_cases hse : endTs < startTs
  · rw [if_pos hse, if_pos hse]
  · rw [if_neg hse, if_neg hse, withMeta_ok h]
    have hle : startTs ≤ endTs := not_lt.1 hse
    have hflat : (m.chunksIn (m.findChunksForRange startTs endTs)).flatMap (fun c =>
      expectedTimestamps expr startTs endTs (rowsOf c)) =
        expectedTimestamps expr startTs endTs (m.chunks.flatMap rowsOf) := by
      unfold expectedTimestamps
      rw [← h.flatMap_inRange hle, List.filter_flatMap, List.map_flatMap]
    unfold findScalarTimestampsPrepared
    rw [if_neg hse]
    simp only
    by_cases hnil : m.chunksIn (m.findChunksForRange startTs endTs) = []
    · rw [if_pos hnil, ← hflat, hnil]
      rfl
    · have hchunks := @queryScalarChunks_ok _ _ _ _ _ _ _ strategy (m.chunksIn (m.findChunksForRange startTs endTs)) []
        (fun c hc => queryScalarChunk_ok hx h hi hboth hkey hle (SeriesMeta.chunksIn_subset hc) strategy)
      rw [if_neg hnil, hchunks, List.nil_append, hflat]
      exact congrArg Except.ok (sortedUnique_of_perm (List.Perm.refl _)
        (expectedTimestamps_sorted (ordered_scalars.1 h.ordered)))

/-- The key a manifest names has no blank field. -/
theorem SeriesMeta.key_not_blank (h : m.validate = .ok ()) :
    (ScalarSeriesKey.mk m.symbol m.category m.name).isBlank = false := by
  obtain ⟨⟨hs, hc, hn, -⟩, -⟩ := SeriesMeta.validate_eq_ok.1 h
  unfold ScalarSeriesKey.isBlank
  rw [hs, hc, hn]
  rfl

/-- **The three strategies return one list**, strictly increasing: the timestamps of the stored rows in the window
that match, which is also what the predicate query returns for the expression the predicate becomes. -/
theorem findScalarTimestamps_agree (h : Stored ScalarRecord sd m rowsOf) (hi : ∀ c ∈ m.chunks, Indexed sd c (rowsOf c))
    (hboth : ∀ c ∈ m.chunks, hasSidecarKind c zmapKind = true ∧ hasSidecarKind c vixKind = true)
    (hp : predicate.WellFormed) (startTs endTs : Int) :
    (ScalarSeriesKey.mk m.symbol m.category m.name).isBlank = false ∧
    ∀ key : ScalarSeriesKey, key.isBlank = false → ∃ timestamps,
      findScalarTimestampsViaZmap sd key predicate startTs endTs = .ok timestamps ∧
      findScalarTimestampsViaVix sd key predicate startTs endTs = .ok timestamps ∧
      findScalarTimestampsRaw sd key predicate startTs endTs = .ok timestamps ∧
      timestamps.Pairwise (· < ·) ∧
      ∃ expr, predicate.toExpr = .ok expr ∧ (startTs ≤ endTs → ∀ returnValues, ∃ result,
        queryScalarPredicate sd ⟨key, startTs, endTs, expr, returnValues⟩ = .ok result ∧
        result.matches.map ScalarPredicateMatch.ts = timestamps) := by
  refine ⟨SeriesMeta.key_not_blank h.valid, fun key hkey => ?_⟩
  obtain ⟨expr, hx⟩ := hp.expresses
  have hall := @findScalarTimestamps_ok _ _ _ _ startTs endTs _ _ hx h hi hboth hkey
  refine ⟨_, hall .zmap, hall .vix, hall .raw, ?_, expr, hx.toExpr, fun hse returnValues => ?_⟩
  · split
    · exact List.Pairwise.nil
    · exact expectedTimestamps_sorted (ordered_scalars.1 h.ordered)
  · obtain ⟨stats, hq, -⟩ := @queryScalarPredicate_exact _
      ⟨key, startTs, endTs, expr, returnValues⟩ _ _ h hi hkey hse hx.valid
    refine ⟨_, hq, ?_⟩
    rw [if_neg (not_lt.2 hse)]
    unfold expectedMatches expectedTimestamps
    rw [List.map_map]
    rfl

end Chunks

/-- Values between 7 and 6, bounds reversed, on a series of one chunk. -/
theorem findScalarTimestamps_agree_sample : ∃ timestamps,
    findScalarTimestampsViaZmap sampleScalarSeries ⟨"BTCUSDT", "indicator", "rsi"⟩ ⟨.between, 7,
      some 6⟩ 0 120000 = .ok timestamps ∧
    findScalarTimestampsViaVix sampleScalarSeries ⟨"BTCUSDT", "indicator", "rsi"⟩ ⟨.between, 7,
      some 6⟩ 0 120000 = .ok timestamps ∧
    findScalarTimestampsRaw sampleScalarSeries ⟨"BTCUSDT", "indicator", "rsi"⟩ ⟨.between, 7,
      some 6⟩ 0 120000 = .ok timestamps := by
  obtain ⟨-, hall⟩ := @findScalarTimestamps_agree _ ⟨.between, 7, some 6⟩ _ _ sampleScalarSeries_stored
    (fun c hc => by
      obtain rfl := List.mem_singleton.1 hc
      exact sampleScalarSeries_indexed)
    (fun c hc => by
      obtain rfl := List.mem_singleton.1 hc
      exact ⟨by decide, by decide⟩)
    (fun _ => rfl) 0 120000
  obtain ⟨timestamps, hz, hv, hr, -⟩ := hall ⟨"BTCUSDT", "indicator", "rsi"⟩ (by decide)
  exact ⟨timestamps, hz, hv, hr⟩

end FastK
