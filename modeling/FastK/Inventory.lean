import FastK.Bridge
import FastK.Locks
/-!
# The inventory by months

What a series holds month by month, as `kline_month_inventory` and `scalar_month_inventory` report it
(`engine/store.rs`): one pass over the chunks of the manifest that adds a chunk to the last entry, or opens an entry.
In a series in order the chunks of a month are neighbours, so each month has one entry, and the entry counts what lies
on disk of the month (`GoodSeries.inventory`).  The bridge answers with it and with the coverage (`bridge.rs`), from a
handle that refuses a store with a pending recovery.
-/
namespace FastK

open Journal Spans

/-! ## The pass -/

structure MonthInventoryEntry where
  monthKey : Text
  chunkCount : Nat
  recordCount : Nat
  sealedChunkCount : Nat
  activeDeltaCount : Nat
  sidecarCount : Nat
  deriving DecidableEq, Repr

/-- The entry of the first chunk of a month. -/
def MonthInventoryEntry.opened (c : ChunkMeta) : MonthInventoryEntry where
  monthKey := c.monthKey
  chunkCount := 1
  recordCount := c.count
  sealedChunkCount := if c.state = .sealed then 1 else 0
  activeDeltaCount := if c.state = .active then 1 else 0
  sidecarCount := c.sidecars.length

/-- The entry with one chunk more; the number of records saturates. -/
def MonthInventoryEntry.add (entry : MonthInventoryEntry) (c : ChunkMeta) : MonthInventoryEntry where
  monthKey := entry.monthKey
  chunkCount := entry.chunkCount + 1
  recordCount := min (u64Bound - 1) (entry.recordCount + c.count)
  sealedChunkCount := entry.sealedChunkCount + (if c.state = .sealed then 1 else 0)
  activeDeltaCount := entry.activeDeltaCount + (if c.state = .active then 1 else 0)
  sidecarCount := entry.sidecarCount + c.sidecars.length

def inventoryStep (months : List MonthInventoryEntry) (c : ChunkMeta) : List MonthInventoryEntry :=
  match months.getLast? with
  | some entry => if entry.monthKey = c.monthKey then months.dropLast ++ [entry.add c] else months ++ [.opened c]
  | none => months ++ [.opened c]

def monthInventory (m : SeriesMeta) : List MonthInventoryEntry := m.chunks.foldl inventoryStep []

structure ScalarQueryCapabilities where
  rawScan : Bool
  hasZmap : Bool
  hasVix : Bool
  deriving DecidableEq, Repr

def ScalarQueryCapabilities.fromMeta (m : SeriesMeta) : ScalarQueryCapabilities where
  rawScan := true
  hasZmap := (m.chunks.flatMap ChunkMeta.sidecars).any (fun sidecar => decide (sidecar.kind = zmapKind))
  hasVix := (m.chunks.flatMap ChunkMeta.sidecars).any (fun sidecar => decide (sidecar.kind = vixKind))

/-! ## The inventory commands of the bridge -/

/-- `FastKStore::open_read_only`, once it holds its lock. -/
def openReadOnly (s : Store) : Result Unit := if s.pending then .error requiresRecovery else .ok ()

def klineMonthInventory (s : Store) (symbol timeframe : Text) : Result (List MonthInventoryEntry) := do
  let m ← (s.dirs (klineSeriesDir symbol timeframe)).loadSeriesMeta
  pure (monthInventory m)

def scalarMonthInventory (s : Store) (key : ScalarSeriesKey) : Result (List MonthInventoryEntry) := do
  let m ← (s.dirs key.dir).loadSeriesMeta
  pure (monthInventory m)

def scalarQueryCapabilities (s : Store) (key : ScalarSeriesKey) : Result ScalarQueryCapabilities := do
  let m ← (s.dirs key.dir).loadSeriesMeta
  pure (.fromMeta m)

/-- `found` is `exists` in the source. -/
structure KlineInventoryResponse where
  symbol : Text
  timeframe : Text
  found : Bool
  timeframeMs : Option Int
  priceScale : Option Int
  volumeScale : Option Int
  recordCount : Nat
  coverageStartTs : Option Int
  coverageEndTs : Option Int
  inventory : List MonthInventoryEntry
  deriving DecidableEq, Repr

structure InventoryResponse where
  symbol : Text
  timeframe : Text
  category : Text
  name : Text
  found : Bool
  recordCount : Nat
  coverageStartTs : Option Int
  coverageEndTs : Option Int
  inventory : List MonthInventoryEntry
  capabilities : Option ScalarQueryCapabilities
  deriving DecidableEq, Repr

def klineInventory (s : Store) (symbol timeframe : Text) : Result KlineInventoryResponse := do
  openReadOnly s
  match ← existingMeta (s.dirs (klineSeriesDir symbol timeframe)).loadSeriesMeta with
  | some m =>
    let inventory ← klineMonthInventory s symbol timeframe
    let (coverageStartTs, coverageEndTs, totalRecordCount) := seriesCoverage m
    pure {
      symbol := symbol
      timeframe := timeframe
      found := true
      timeframeMs := some m.timeframeMs
      priceScale := some m.priceScale
      volumeScale := some m.volumeScale
      recordCount := totalRecordCount
      coverageStartTs := coverageStartTs
      coverageEndTs := coverageEndTs
      inventory := inventory }
  | none => pure {
      symbol := symbol
      timeframe := timeframe
      found := false
      timeframeMs := none
      priceScale := none
      volumeScale := none
      recordCount := 0
      coverageStartTs := none
      coverageEndTs := none
      inventory := [] }

/-- The scalar inventory of a key, reported under these names. -/
def inventoryUnder (s : Store) (key : ScalarSeriesKey) (symbol timeframe category name : Text) :
    Result InventoryResponse := do
  openReadOnly s
  match ← existingMeta (s.dirs key.dir).loadSeriesMeta with
  | some m =>
    let inventory ← scalarMonthInventory s key
    let capabilities ← scalarQueryCapabilities s key
    let (coverageStartTs, coverageEndTs, totalRecordCount) := seriesCoverage m
    pure {
      symbol := symbol
      timeframe := timeframe
      category := category
      name := name
      found := true
      recordCount := totalRecordCount
      coverageStartTs := coverageStartTs
      coverageEndTs := coverageEndTs
      inventory := inventory
      capabilities := some capabilities }
  | none => pure {
      symbol := symbol
      timeframe := timeframe
      category := category
      name := name
      found := false
      recordCount := 0
      coverageStartTs := none
      coverageEndTs := none
      inventory := []
      capabilities := none }

def indicatorInventory (s : Store) (symbol timeframe indicatorName : Text) : Result InventoryResponse :=
  inventoryUnder s (indicatorSeriesKey symbol timeframe indicatorName) symbol timeframe indicatorCategory indicatorName

def scalarInventory (s : Store) (symbol timeframe category name : Text) : Result InventoryResponse :=
  inventoryUnder s (scopedScalarSeriesKey symbol timeframe category name) symbol timeframe category name

/-! ## One entry for each month -/

/-- The entry counts these chunks. -/
structure MonthInventoryEntry.Counts (e : MonthInventoryEntry) (cs : List ChunkMeta) : Prop where
  chunks : e.chunkCount = cs.length
  records : e.recordCount = min (u64Bound - 1) (cs.map ChunkMeta.count).sum
  sealedChunks : e.sealedChunkCount = (cs.filter (fun c => decide (c.state = .sealed))).length
  activeDeltas : e.activeDeltaCount = (cs.filter (fun c => decide (c.state = .active))).length
  sidecars : e.sidecarCount = (cs.map (fun c => c.sidecars.length)).sum

/-- The chunks of a month. -/
def ofMonth (cs : List ChunkMeta) (key : Text) : List ChunkMeta := cs.filter (fun c => decide (c.monthKey = key))

/-- The entries are those of the chunks: one for each month that has any, in their order. -/
structure Inventoried (cs : List ChunkMeta) (months : List MonthInventoryEntry) : Prop where
  once : (months.map MonthInventoryEntry.monthKey).Nodup
  counts : ∀ e ∈ months, e.Counts (ofMonth cs e.monthKey)
  listed : ∀ c ∈ cs, ∃ e ∈ months, e.monthKey = c.monthKey
  held : ∀ e ∈ months, ofMonth cs e.monthKey ≠ []
  last : months.getLast?.map MonthInventoryEntry.monthKey = cs.getLast?.map ChunkMeta.monthKey
  inOrder : months.Pairwise (fun a b => ∀ c ∈ ofMonth cs a.monthKey, ∀ d ∈ ofMonth cs b.monthKey, c.endTs < d.startTs)

section Pass

variable {cs : List ChunkMeta} {months : List MonthInventoryEntry} {c : ChunkMeta} {e : MonthInventoryEntry}
    {key : Text}

theorem mem_ofMonth {d : ChunkMeta} : d ∈ ofMonth cs key ↔ d ∈ cs ∧ d.monthKey = key := by simp [ofMonth]

theorem ofMonth_append_same (h : c.monthKey = key) : ofMonth (cs ++ [c]) key = ofMonth cs key ++ [c] := by
  simp [ofMonth, h]

theorem ofMonth_append_other (h : c.monthKey ≠ key) : ofMonth (cs ++ [c]) key = ofMonth cs key := by simp [ofMonth, h]

theorem MonthInventoryEntry.Counts.opened (h : c.count < u64Bound) : (MonthInventoryEntry.opened c).Counts [c] where
  chunks := rfl
  records := by
    simp only [MonthInventoryEntry.opened, List.map_cons, List.map_nil, List.sum_cons, List.sum_nil, Nat.add_zero]
    omega
  sealedChunks := by by_cases hs : c.state = .sealed <;> simp [MonthInventoryEntry.opened, hs]
  activeDeltas := by by_cases hs : c.state = .active <;> simp [MonthInventoryEntry.opened, hs]
  sidecars := by simp [MonthInventoryEntry.opened]

theorem MonthInventoryEntry.Counts.add (h : e.Counts cs) (c : ChunkMeta) : (e.add c).Counts (cs ++ [c]) where
  chunks := by simp [MonthInventoryEntry.add, h.chunks]
  records := by
    simp only [MonthInventoryEntry.add, h.records, List.map_append, List.map_cons, List.map_nil, List.sum_append,
      List.sum_cons, List.sum_nil, Nat.add_zero]
    omega
  sealedChunks := by by_cases hs : c.state = .sealed <;> simp [MonthInventoryEntry.add, h.sealedChunks, hs]
  activeDeltas := by by_cases hs : c.state = .active <;> simp [MonthInventoryEntry.add, h.activeDeltas, hs]
  sidecars := by simp [MonthInventoryEntry.add, h.sidecars]

theorem Inventoried.nothing : Inventoried [] [] where
  once := List.nodup_nil
  counts _ he := absurd he List.not_mem_nil
  listed _ hc := absurd hc List.not_mem_nil
  held _ he := absurd he List.not_mem_nil
  last := rfl
  inOrder := .nil

/-- A chunk of another month than the ones before it opens an entry. -/
theorem Inventoried.opens (h : Inventoried cs months) (hcount : c.count < u64Bound)
    (hafter : ∀ d ∈ cs, d.endTs < c.startTs) (hnew : ∀ d ∈ cs, d.monthKey ≠ c.monthKey) : Inventoried (cs ++ [c])
    (months ++ [.opened c]) := by
  have hkey : (MonthInventoryEntry.opened c).monthKey = c.monthKey := rfl
  have hempty : ofMonth cs c.monthKey = [] := List.filter_eq_nil_iff.2 (fun d hd => by simpa using hnew d hd)
  have hother : ∀ e ∈ months, c.monthKey ≠ e.monthKey := fun e he heq => h.held e he (heq ▸ hempty)
  refine ⟨?_, fun e he => ?_, fun d hd => ?_, fun e he => ?_, by simp [hkey],
    List.pairwise_append.2 ⟨?_, List.pairwise_singleton _ _, fun a ha b hb => ?_⟩⟩
  · rw [List.map_append, List.map_singleton, List.nodup_append_comm, List.singleton_append, List.nodup_cons, hkey]
    refine ⟨fun hmem => ?_, h.once⟩
    obtain ⟨e, he, heq⟩ := List.mem_map.1 hmem
    exact hother e he heq.symm
  · rcases List.mem_append.1 he with he | he
    · rw [ofMonth_append_other (hother e he)]
      exact h.counts e he
    · rw [List.mem_singleton.1 he, hkey, ofMonth_append_same rfl, hempty]
      exact .opened hcount
  · rcases List.mem_append.1 hd with hd | hd
    · obtain ⟨e, he, heq⟩ := h.listed d hd
      exact ⟨e, List.mem_append_left _ he, heq⟩
    · exact ⟨.opened c, List.mem_append_right _ (List.mem_singleton_self _), by rw [List.mem_singleton.1 hd, hkey]⟩
  · rcases List.mem_append.1 he with he | he
    · rw [ofMonth_append_other (hother e he)]
      exact h.held e he
    · rw [List.mem_singleton.1 he, hkey, ofMonth_append_same rfl]
      simp
  · refine h.inOrder.imp_of_mem (fun {a b} ha hb hab => ?_)
    rw [ofMonth_append_other (hother a ha), ofMonth_append_other (hother b hb)]
    exact hab
  · obtain rfl := List.mem_singleton.1 hb
    rw [ofMonth_append_other (hother a ha), hkey, ofMonth_append_same rfl, hempty]
    intro d hd c' hc'
    rw [List.mem_singleton.1 hc']
    exact hafter d (mem_ofMonth.1 hd).1

/-- A chunk of the last month is added to its entry. -/
theorem Inventoried.adds (h : Inventoried cs (months ++ [e])) (hafter : ∀ d ∈ cs, d.endTs < c.startTs)
    (hsame : c.monthKey = e.monthKey) :
    Inventoried (cs ++ [c]) (months ++ [e.add c]) := by
  have hkey : (e.add c).monthKey = e.monthKey := rfl
  have hkeys : (months ++ [e.add c]).map MonthInventoryEntry.monthKey =
    (months ++ [e]).map MonthInventoryEntry.monthKey := by simp [hkey]
  have hother : ∀ a ∈ months, c.monthKey ≠ a.monthKey := fun a ha heq => by
    have hnodup := h.once
    rw [List.map_append, List.map_singleton, List.nodup_append_comm, List.singleton_append, List.nodup_cons] at hnodup
    exact hnodup.1 (List.mem_map.2 ⟨a, ha, heq.symm.trans hsame⟩)
  have hlast := List.mem_append_right months (List.mem_singleton_self e)
  have hpairs := List.pairwise_append.1 h.inOrder
  refine ⟨hkeys ▸ h.once, fun a ha => ?_, fun d hd => ?_, fun a ha => ?_, by simp [hkey, hsame],
    List.pairwise_append.2 ⟨?_, List.pairwise_singleton _ _, fun a ha b hb => ?_⟩⟩
  · rcases List.mem_append.1 ha with ha | ha
    · rw [ofMonth_append_other (hother a ha)]
      exact h.counts a (List.mem_append_left _ ha)
    · rw [List.mem_singleton.1 ha, hkey, ofMonth_append_same hsame]
      exact (h.counts e hlast).add c
  · rcases List.mem_append.1 hd with hd | hd
    · obtain ⟨a, ha, heq⟩ := h.listed d hd
      have hmem : a.monthKey ∈ (months ++ [e.add c]).map MonthInventoryEntry.monthKey := hkeys ▸ List.mem_map_of_mem ha
      obtain ⟨b, hb, hbk⟩ := List.mem_map.1 hmem
      exact ⟨b, hb, hbk.trans heq⟩
    · exact ⟨e.add c, List.mem_append_right _ (List.mem_singleton_self _), by rw [List.mem_singleton.1 hd, hkey, hsame]⟩
  · rcases List.mem_append.1 ha with ha | ha
    · rw [ofMonth_append_other (hother a ha)]
      exact h.held a (List.mem_append_left _ ha)
    · rw [List.mem_singleton.1 ha, hkey, ofMonth_append_same hsame]
      simp
  · refine hpairs.1.imp_of_mem (fun {a b} ha hb hab => ?_)
    rw [ofMonth_append_other (hother a ha), ofMonth_append_other (hother b hb)]
    exact hab
  · obtain rfl := List.mem_singleton.1 hb
    rw [ofMonth_append_other (hother a ha), hkey, ofMonth_append_same hsame]
    intro d hd c' hc'
    rcases List.mem_append.1 hc' with hc' | hc'
    · exact hpairs.2.2 a ha e (List.mem_singleton_self e) d hd c' hc'
    · rw [List.mem_singleton.1 hc']
      exact hafter d (mem_ofMonth.1 hd).1

/-- **One chunk.**  The chunks before it of its month reach up to it. -/
theorem Inventoried.step (h : Inventoried cs months) (hcount : c.count < u64Bound)
    (hafter : ∀ d ∈ cs, d.endTs < c.startTs) (hnear : ∀ last, cs.getLast? = some last → last.monthKey ≠ c.monthKey →
      ∀ d ∈ cs, d.monthKey ≠ c.monthKey) :
    Inventoried (cs ++ [c]) (inventoryStep months c) := by
  have hlast := h.last
  unfold inventoryStep
  cases hl : months.getLast? with
  | none =>
    rw [hl, Option.map_none, eq_comm, Option.map_eq_none_iff, List.getLast?_eq_none_iff] at hlast
    subst hlast
    exact h.opens hcount hafter (fun d hd => absurd hd List.not_mem_nil)
  | some e =>
    rw [hl, Option.map_some, eq_comm, Option.map_eq_some_iff] at hlast
    obtain ⟨last, hcl, hkey⟩ := hlast
    obtain ⟨front, rfl⟩ := List.getLast?_eq_some_iff.1 hl
    simp only
    by_cases hsame : e.monthKey = c.monthKey
    · rw [if_pos hsame, List.dropLast_concat]
      exact h.adds hafter hsame.symm
    · rw [if_neg hsame]
      exact h.opens hcount hafter (hnear last hcl (fun heq => hsame (hkey.symm.trans heq)))

/-- **The whole pass**, over chunks in order of which those of one month are neighbours. -/
theorem inventoried_foldl (hcount : ∀ c ∈ cs, c.count < u64Bound) (hchain : SpanChain cs)
    (hnear : ∀ front c back, cs = front ++ c :: back → ∀ last, front.getLast? = some last →
      last.monthKey ≠ c.monthKey → ∀ d ∈ front, d.monthKey ≠ c.monthKey) :
    Inventoried cs (cs.foldl inventoryStep []) := by
  induction cs using List.reverseRecOn with
  | nil => exact .nothing
  | append_singleton cs c ih =>
    have hpairs := List.pairwise_append.1 hchain
    rw [List.foldl_append]
    refine (ih (fun d hd => hcount d (List.mem_append_left _ hd)) hpairs.1 (fun front d back heq =>
      ?_)).step (hcount c (by simp))
      (fun d hd => hpairs.2.2 d hd c (List.mem_singleton_self c)) (hnear cs c [] rfl)
    exact hnear front d (back ++ [c]) (by rw [heq, List.append_assoc, List.cons_append])

end Pass

/-! ## What lies on disk -/

/-- The inventory is that of the rows and the files on disk: each month that has rows is there once, in their order,
with the number of its rows (for klines and scalars without a bound), of its chunks, sealed or active, and of their
sidecars. -/
structure InventoryExact (sd : SeriesDir) (m : SeriesMeta) (entries : List MonthInventoryEntry) : Prop where
  once : (entries.map MonthInventoryEntry.monthKey).Nodup
  listed : ∀ r ∈ storedRows m.recordType sd, ∃ e ∈ entries, partitionKey (FixedRecord.ts r) m.unit = .ok e.monthKey
  inOrder : entries.Pairwise (fun a b => ∀ r ∈ storedRows m.recordType sd, ∀ r' ∈ storedRows m.recordType sd,
    partitionKey (FixedRecord.ts r) m.unit = .ok a.monthKey →
      partitionKey (FixedRecord.ts r') m.unit = .ok b.monthKey → FixedRecord.ts r < FixedRecord.ts r')
  held : ∀ e ∈ entries, 0 < e.recordCount
  records : ∀ e ∈ entries, e.recordCount = min (u64Bound - 1)
    ((storedRows m.recordType sd).filter (fun r =>
      decide (partitionKey (FixedRecord.ts r) m.unit = .ok e.monthKey))).length
  total : m.recordType = .kline ∨ m.recordType = .scalar →
    (entries.map MonthInventoryEntry.recordCount).sum = (storedRows m.recordType sd).length
  chunks : (entries.map MonthInventoryEntry.chunkCount).sum = (sd.files.filter (fun p => isChunkName p.1)).length
  states : ∀ e ∈ entries, e.sealedChunkCount + e.activeDeltaCount = e.chunkCount
  sidecars : ∀ e ∈ entries, e.sidecarCount = if m.recordType = .scalar then 2 * e.chunkCount else 0

section Exact

variable {C : Nat} {d : Dir} {sd : SeriesDir} {m : SeriesMeta} {key : Text}

theorem sum_perm_map {α : Type} {l l' : List α} {f : α → Nat} (h : l.Perm l') : (l.map f).sum = (l'.map f).sum :=
  (h.map f).sum_eq

/-- The chunks of all the months that are listed, month by month. -/
theorem Inventoried.flatMap_perm {cs : List ChunkMeta} {months : List MonthInventoryEntry} (h : Inventoried cs months) :
    (months.flatMap (fun e => ofMonth cs e.monthKey)).Perm cs := by
  have hlisted := h.listed
  have honce := h.once
  clear h
  induction months generalizing cs with
  | nil =>
    have hnil : cs = [] := List.eq_nil_iff_forall_not_mem.2 (fun c hc => by
      obtain ⟨e, he, -⟩ := hlisted c hc
      exact absurd he List.not_mem_nil)
    rw [hnil]
    exact .nil
  | cons e months ih =>
    have hnodup := List.nodup_cons.1 honce
    have hrest : ∀ a ∈ months, ofMonth (cs.filter (fun c => !decide (c.monthKey = e.monthKey))) a.monthKey =
      ofMonth cs a.monthKey := by
      intro a ha
      unfold ofMonth
      rw [List.filter_filter]
      refine List.filter_congr (fun c _ => ?_)
      by_cases hc : c.monthKey = a.monthKey
      · have hne : c.monthKey ≠ e.monthKey := fun heq => hnodup.1 (List.mem_map.2 ⟨a, ha, hc.symm.trans heq⟩)
        simp [hc]
        exact fun heq => hne (hc.trans heq)
      · simp [hc]
    have hlater := @ih (cs.filter (fun c => !decide (c.monthKey = e.monthKey))) (fun c hc => by
      obtain ⟨hmem, hne⟩ := List.mem_filter.1 hc
      obtain ⟨a, ha, heq⟩ := hlisted c hmem
      rcases List.mem_cons.1 ha with rfl | ha
      · simp [heq] at hne
      · exact ⟨a, ha, heq⟩) hnodup.2
    rw [List.flatMap_congr hrest] at hlater
    rw [List.flatMap_cons]
    exact (hlater.append_left _).trans (List.filter_append_perm _ cs)

/-- What the entries count is what all the chunks count. -/
theorem Inventoried.sum {cs : List ChunkMeta} {months : List MonthInventoryEntry} (h : Inventoried cs months)
    {f : MonthInventoryEntry → Nat} {g : ChunkMeta → Nat}
    (hf : ∀ e ∈ months, f e = ((ofMonth cs e.monthKey).map g).sum) : (months.map f).sum = (cs.map g).sum := by
  rw [← sum_perm_map h.flatMap_perm, List.map_flatMap, List.flatMap_def, List.sum_flatten, List.map_map]
  exact congrArg List.sum (List.map_congr_left hf)

/-- The pass finds the months of a series in order. -/
theorem GoodSeries.inventoried (h : GoodSeries C d sd m) (hm : sd.manifest = .current m) :
    Inventoried m.chunks (monthInventory m) := by
  obtain ⟨hchain, hproper⟩ := h.fits.chain
  refine inventoried_foldl (fun c hc => ?_) hchain (fun front c back heq last hlast hne e he hkey => ?_)
  · rw [(h.seriesOk hm).stored.count_eq hc]
    obtain ⟨f, -, hh, -⟩ := (h.seriesOk hm).stored.held c hc
    exact hh.length_lt.1
  · -- an earlier chunk of the month has the last one between it and this chunk
    have hmem : ∀ x ∈ front ++ [c], x ∈ m.chunks := fun x hx => by
      rw [heq]
      simp only [List.mem_append, List.mem_cons] at hx ⊢
      tauto
    have hsplit : SpanChain (front ++ c :: back) := heq ▸ hchain
    have hl := List.mem_of_getLast? hlast
    have hle : e.startTs ≤ last.startTs := by
      obtain ⟨before, rfl⟩ := List.getLast?_eq_some_iff.1 hlast
      rcases List.mem_append.1 he with he | he
      · have h1 := (List.pairwise_append.1 (List.pairwise_append.1 hsplit).1).2.2 e he last
          (List.mem_singleton_self last)
        have h2 := hproper e (hmem e (by simp [he]))
        omega
      · rw [List.mem_singleton.1 he]
    have hlt : last.endTs < c.startTs := (List.pairwise_append.1 hsplit).2.2 last hl c List.mem_cons_self
    have hlp := hproper last (hmem last (by simp [hl]))
    have hkeys := h.fits.keyed (hmem e (by simp [he]))
    have hkeyc := h.fits.keyed (hmem c (by simp))
    rw [← hkey] at hkeyc
    have hbetween := partitionKey_convex hle (show last.startTs ≤ c.startTs by omega) hkeys.1 hkeyc.1
    rw [(h.fits.keyed (hmem last (by simp [hl]))).1] at hbetween
    exact hne ((Except.ok.inj hbetween).trans hkey)

theorem flatMap_filter_eq {α β : Type} (p : α → Bool) (f : α → List β) :
    ∀ l : List α, (l.filter p).flatMap f = l.flatMap (fun a => if p a then f a else [])
  | [] => rfl
  | a :: l => by by_cases ha : p a <;> simp [ha, flatMap_filter_eq p f l]

/-- The rows of a month are those of its chunks. -/
theorem SeriesOk.rows_ofMonth (h : SeriesOk d sd m) (key : Text) :
    (seriesRows m.recordType sd).filter (fun r => decide (partitionKey (FixedRecord.ts r) m.unit = .ok key)) =
      (ofMonth m.chunks key).flatMap (rowsIn m.recordType sd) := by
  rw [seriesRows_eq h.manifest_eq, List.filter_flatMap, ofMonth, flatMap_filter_eq]
  refine List.flatMap_congr (fun c hc => ?_)
  obtain ⟨name, f, hf, ho, he⟩ := (h.tracked c hc).rowsIn h.filed
  by_cases hk : c.monthKey = key
  · rw [if_pos (by simpa using hk)]
    exact List.filter_eq_self.2 (fun r hr => by simp [ho.keyed r hr, hk])
  · rw [if_neg (by simpa using hk)]
    exact List.filter_eq_nil_iff.2 (fun r hr => by simp [ho.keyed r hr, hk])

/-- A row on disk is a row of a chunk of its month. -/
theorem GoodSeries.mem_stored (h : GoodSeries C d sd m) (hm : sd.manifest = .current m) {r : m.recordType.Row}
    (hr : r ∈ storedRows m.recordType sd) :
    ∃ c ∈ m.chunks, partitionKey (FixedRecord.ts r) m.unit = .ok c.monthKey ∧ c.startTs ≤ FixedRecord.ts r ∧
      FixedRecord.ts r ≤ c.endTs := by
  have hrow := (h.storedRows_perm hm _).mem_iff.1 hr
  rw [seriesRows_eq hm] at hrow
  obtain ⟨c, hc, hrc⟩ := List.mem_flatMap.1 hrow
  obtain ⟨name, f, hf, ho, he⟩ := (h.fits.tracked c hc).rowsIn h.fits.filed
  exact ⟨c, hc, ho.keyed r hrc, (h.seriesOk hm).stored.bounds hc hrc⟩

/-- The rows on disk of a month are as many as its chunks count. -/
theorem GoodSeries.length_ofMonth (h : GoodSeries C d sd m) (hm : sd.manifest = .current m) (key : Text) :
    ((storedRows m.recordType sd).filter (fun r => decide (partitionKey (FixedRecord.ts r) m.unit = .ok key))).length =
      ((ofMonth m.chunks key).map ChunkMeta.count).sum := by
  rw [((h.storedRows_perm hm _).filter _).length_eq, (h.seriesOk hm).rows_ofMonth, List.length_flatMap]
  exact congrArg List.sum (List.map_congr_left (fun c hc =>
    ((h.seriesOk hm).stored.count_eq (mem_ofMonth.1 hc).1).symm))

/-- Scalar chunks have two sidecars, the others none. -/
theorem Described.length_sidecars (h : Described sd m) {c : ChunkMeta} (hc : c ∈ m.chunks) :
    c.sidecars.length = if m.recordType = .scalar then 2 else 0 := by
  by_cases ht : m.recordType = .scalar
  · obtain ⟨name, blockSize, zmap, vix, -, hs, -⟩ := h.indexed ht c hc
    rw [if_pos ht, hs]
    rfl
  · rw [if_neg ht, (h.plain ht).2 c hc]
    rfl

theorem filter_states_length {cs : List ChunkMeta} (h : ∀ c ∈ cs, c.state = .active ∨ c.state = .sealed) :
    (cs.filter (fun c => decide (c.state = .sealed))).length + (cs.filter (fun c =>
      decide (c.state = .active))).length = cs.length := by
  induction cs with
  | nil => rfl
  | cons c cs ih =>
    have hrest := ih (fun e he => h e (List.mem_cons_of_mem _ he))
    rcases h c List.mem_cons_self with hs | hs
    · simp [hs]
      omega
    · simp [hs]
      omega

/-- **In a series in order the inventory is that of the rows and the chunk files on disk.** -/
theorem GoodSeries.inventory (h : GoodSeries C d sd m) (hm : sd.manifest = .current m) :
    InventoryExact sd m (monthInventory m) := by
  have hi := h.inventoried hm
  have hok := h.seriesOk hm
  have hcount : ∀ e ∈ monthInventory m, 0 < ((ofMonth m.chunks e.monthKey).map ChunkMeta.count).sum := by
    intro e he
    obtain ⟨c, hc⟩ := List.exists_mem_of_ne_nil _ (hi.held e he)
    obtain ⟨f, -, hh, -⟩ := hok.stored.held c (mem_ofMonth.1 hc).1
    have hpos : 0 < c.count := by
      rw [hok.stored.count_eq (mem_ofMonth.1 hc).1]
      exact List.length_pos_iff.2 hh.ne_nil
    exact lt_of_lt_of_le hpos (List.single_le_sum (by simp) _ (List.mem_map_of_mem hc))
  have hnone : (0 : Nat) < u64Bound - 1 := by decide
  refine ⟨hi.once, fun r hr => ?_, hi.inOrder.imp (fun {a b} hab r hr r' hr' ha hb => ?_), fun e he => ?_, fun e he =>
    ?_, fun ht => ?_, ?_, fun e he => ?_, fun e he => ?_⟩
  · obtain ⟨c, hc, hk, -⟩ := h.mem_stored hm hr
    obtain ⟨e, he, heq⟩ := hi.listed c hc
    exact ⟨e, he, heq.symm ▸ hk⟩
  · obtain ⟨c, hc, hk, -, hend⟩ := h.mem_stored hm hr
    obtain ⟨c', hc', hk', hstart, -⟩ := h.mem_stored hm hr'
    have h1 := hab c (mem_ofMonth.2 ⟨hc, Except.ok.inj (hk.symm.trans ha)⟩) c' (mem_ofMonth.2
      ⟨hc', Except.ok.inj (hk'.symm.trans hb)⟩)
    omega
  · rw [(hi.counts e he).records]
    exact lt_min hnone (hcount e he)
  · rw [(hi.counts e he).records, h.length_ofMonth hm]
  · have hall : (m.chunks.map ChunkMeta.count).sum = (storedRows m.recordType sd).length := by
      rw [(h.storedRows_perm hm _).length_eq, seriesRows_eq hm, hok.stored.sum_count]
    rw [← hall]
    refine hi.sum (fun e he => ?_)
    have hlt := hok.rows_lt ht
    have hle := List.length_filter_le (fun r => decide (partitionKey (FixedRecord.ts r) m.unit = .ok e.monthKey))
      (storedRows m.recordType sd)
    rw [h.length_ofMonth hm, (h.storedRows_perm hm _).length_eq] at hle
    rw [(hi.counts e he).records]
    omega
  · have hfiles := h.filedPaths_perm.length_eq
    unfold filedPaths at hfiles
    rw [List.length_map, List.length_map] at hfiles
    rw [hfiles, hi.sum (g := fun _ => 1) (fun e he => by simp [(hi.counts e he).chunks])]
    simp
  · rw [(hi.counts e he).sealedChunks, (hi.counts e he).activeDeltas, (hi.counts e he).chunks]
    exact filter_states_length (fun c hc => h.tidy.settled c (mem_ofMonth.1 hc).1)
  · rw [(hi.counts e he).sidecars, (hi.counts e he).chunks,
      List.map_congr_left (fun c hc => h.described.length_sidecars (mem_ofMonth.1 hc).1), List.map_const',
        List.sum_replicate_nat]
    by_cases ht : m.recordType = .scalar <;> simp [ht, Nat.mul_comm]

/-- A series has the sidecar indexes if it is of scalars and has rows. -/
theorem GoodSeries.capabilities (h : GoodSeries C d sd m) (hm : sd.manifest = .current m) :
    ScalarQueryCapabilities.fromMeta m =
      ⟨true, decide (m.recordType = .scalar) && !(storedRows m.recordType sd).isEmpty,
        decide (m.recordType = .scalar) && !(storedRows m.recordType sd).isEmpty⟩ := by
  have hperm := h.storedRows_perm hm m.recordType
  rw [seriesRows_eq hm] at hperm
  unfold ScalarQueryCapabilities.fromMeta
  cases hchunks : m.chunks with
  | nil =>
    rw [hchunks] at hperm
    rw [hperm.eq_nil]
    simp
  | cons c cs =>
    have hc : c ∈ m.chunks := by simp [hchunks]
    by_cases ht : m.recordType = .scalar
    · obtain ⟨name, blockSize, zmap, vix, -, hs, -⟩ := h.described.indexed ht c hc
      obtain ⟨f, -, hh, -⟩ := (h.seriesOk hm).stored.held c hc
      have hne : (storedRows m.recordType sd).isEmpty = false := by
        rw [List.isEmpty_eq_false_iff]
        intro hnil
        rw [hnil, hchunks, List.flatMap_cons] at hperm
        exact hh.ne_nil (List.append_eq_nil_iff.1 hperm.nil_eq.symm).1
      simp [ht, hne, hs, indexEntries, zmapKind, vixKind]
    · have hnone : (m.chunks.flatMap ChunkMeta.sidecars) = [] := by
        rw [List.flatMap_eq_nil_iff]
        exact fun e he => (h.described.plain ht).2 e he
      rw [← hchunks, hnone]
      simp [ht]

end Exact

/-! ## Over whole histories -/

/-- What a response reports of a series directory: that there is no series, and then it has no files, or the coverage
and the inventory of what is on disk. -/
inductive InventoryReported (sd : SeriesDir) : Bool → Nat → Option Int → Option Int → List MonthInventoryEntry → Prop
  | absent (hm : sd.manifest = .missing) (hf : sd.files = []) : InventoryReported sd false 0 none none []
  | present {m : SeriesMeta} {entries : List MonthInventoryEntry} (hm : sd.manifest = .current m)
      (hcover : CoverageExact sd m)
      (hinventory : InventoryExact sd m entries) :
        InventoryReported sd true (seriesCoverage m).2.2 (seriesCoverage m).1 (seriesCoverage m).2.1 entries

section Responses

variable {C : Nat} {s : Store}

theorem GoodStore.klineInventory (h : GoodStore C s) (hp : s.pending = false) (symbol timeframe : Text) :
    ∃ a, klineInventory s symbol timeframe = .ok a ∧
    InventoryReported (s.dirs (klineSeriesDir symbol timeframe)) a.found a.recordCount a.coverageStartTs
      a.coverageEndTs a.inventory := by
  have hdir := h.dir (klineSeriesDir symbol timeframe)
  unfold FastK.klineInventory openReadOnly klineMonthInventory
  cases hdir with
  | empty hm hf =>
    refine ⟨_, by simp [hp, SeriesDir.loadSeriesMeta, hm, existingMeta]; rfl, .absent hm hf⟩
  | series hm hg =>
    have hload := SeriesDir.loadSeriesMeta_ok hm hg.fits.valid
    refine ⟨_, by simp [hp, hload, existingMeta]; rfl, .present hm (hg.coverage hm) (hg.inventory hm)⟩

/-- The capabilities are reported where there is a series: both indexes if it is of scalars and has rows, else none. -/
def CapabilitiesReported (sd : SeriesDir) (found : Bool) (capabilities : Option ScalarQueryCapabilities) : Prop :=
  match sd.manifest with
  | .current m => found = true ∧ ∃ c, capabilities = some c ∧ c.rawScan = true ∧
      (c.hasZmap = true ↔ m.recordType = .scalar ∧ storedRows m.recordType sd ≠ []) ∧
      (c.hasVix = true ↔ m.recordType = .scalar ∧ storedRows m.recordType sd ≠ [])
  | _ => found = false ∧ capabilities = none

theorem GoodStore.inventoryUnder (h : GoodStore C s) (hp : s.pending = false) (key : ScalarSeriesKey)
    (symbol timeframe category name : Text) :
    ∃ a, inventoryUnder s key symbol timeframe category name = .ok a ∧
      InventoryReported (s.dirs key.dir) a.found a.recordCount a.coverageStartTs a.coverageEndTs a.inventory ∧
      CapabilitiesReported (s.dirs key.dir) a.found a.capabilities := by
  have hdir := h.dir key.dir
  unfold FastK.inventoryUnder openReadOnly scalarMonthInventory scalarQueryCapabilities CapabilitiesReported
  cases hdir with
  | empty hm hf =>
    refine ⟨_, by simp [hp, SeriesDir.loadSeriesMeta, hm, existingMeta]; rfl, .absent hm hf, ?_⟩
    rw [hm]
    exact ⟨rfl, rfl⟩
  | series hm hg =>
    have hload := SeriesDir.loadSeriesMeta_ok hm hg.fits.valid
    refine ⟨_, by simp [hp, hload, existingMeta]; rfl, .present hm (hg.coverage hm) (hg.inventory hm), ?_⟩
    rw [hm]
    refine ⟨rfl, _, rfl, ?_⟩
    rw [hg.capabilities hm]
    simp

end Responses

/-- **The inventories that the bridge reports are those of what is on disk**, in every state that healthy calls and
requests reach, all under names that go down: a pending recovery is refused; else the response tells that there is no
series, and no file is in its directory, or it has the coverage of the rows on disk, and the months of these rows, in
their order, with as many rows, chunks and sidecars as there are. -/
theorem inventory_exact {root : Dir} {s : Store} (h : BridgeRun root HealthyPlain s) :
    (s.pending = true → (∀ symbol timeframe, klineInventory s symbol timeframe = .error requiresRecovery) ∧
      (∀ symbol timeframe name, indicatorInventory s symbol timeframe name = .error requiresRecovery) ∧
      ∀ symbol timeframe category name, scalarInventory s symbol timeframe category name = .error requiresRecovery) ∧
    (s.pending = false → (∀ symbol timeframe, (ScalarSeriesKey.mk symbol klineCategory timeframe).GoesDown → ∃ a,
      klineInventory s symbol timeframe = .ok a ∧
        InventoryReported (s.dirs (klineSeriesDir symbol timeframe)) a.found a.recordCount a.coverageStartTs
          a.coverageEndTs a.inventory) ∧
      (∀ symbol timeframe name, (indicatorSeriesKey symbol timeframe name).GoesDown → ∃ a,
        indicatorInventory s symbol timeframe name = .ok a ∧
        InventoryReported (s.dirs (indicatorSeriesKey symbol timeframe name).dir) a.found a.recordCount
          a.coverageStartTs a.coverageEndTs a.inventory ∧
        CapabilitiesReported (s.dirs (indicatorSeriesKey symbol timeframe name).dir) a.found a.capabilities) ∧
      ∀ symbol timeframe category name, (scopedScalarSeriesKey symbol timeframe category name).GoesDown →
        ∃ a, scalarInventory s symbol timeframe category name = .ok a ∧
        InventoryReported (s.dirs (scopedScalarSeriesKey symbol timeframe category name).dir) a.found a.recordCount
          a.coverageStartTs a.coverageEndTs a.inventory ∧
        CapabilitiesReported (s.dirs (scopedScalarSeriesKey symbol timeframe category name).dir) a.found
          a.capabilities) := by
  obtain ⟨n, hrun⟩ := h.unplain.run
  obtain ⟨B, hg⟩ := hrun.healthy
  refine ⟨fun hp => ?_, fun hp => ⟨fun _ _ _ => hg.klineInventory hp _ _, fun _ _ _ _ => hg.inventoryUnder hp _ _ _ _ _,
    fun _ _ _ _ _ => hg.inventoryUnder hp _ _ _ _ _⟩⟩
  have hopen : openReadOnly s = .error requiresRecovery := by simp [openReadOnly, hp]
  refine ⟨fun symbol timeframe => ?_, fun symbol timeframe name => ?_, fun symbol timeframe category name => ?_⟩
  · unfold klineInventory
    rw [hopen]
    rfl
  · unfold indicatorInventory inventoryUnder
    rw [hopen]
    rfl
  · unfold scalarInventory inventoryUnder
    rw [hopen]
    rfl

theorem inventory_exact_sample :
    ∃ a, klineInventory ((sampleSubmitted.run (Env.plain 5)).final (Store.empty [])) "X" "1m" = .ok a ∧
      a.inventory = [⟨"1970-01", 1, 2, 1, 0, 0⟩] ∧
      InventoryReported (((sampleSubmitted.run (Env.plain 5)).final (Store.empty [])).dirs (klineSeriesDir "X" "1m"))
        a.found a.recordCount
        a.coverageStartTs a.coverageEndTs a.inventory := by
  have hp : ((sampleSubmitted.run (Env.plain 5)).final (Store.empty [])).pending = false := by decide +kernel
  obtain ⟨a, ha, hreported⟩ := ((inventory_exact sampleSubmitted_run).2 hp).1 "X" "1m" (by decide +kernel)
  have hinventory : (klineInventory ((sampleSubmitted.run (Env.plain 5)).final (Store.empty [])) "X" "1m").map
    KlineInventoryResponse.inventory =
      .ok [⟨"1970-01", 1, 2, 1, 0, 0⟩] := by decide +kernel
  rw [ha] at hinventory
  exact ⟨a, ha, Except.ok.inj hinventory, hreported⟩

end FastK
