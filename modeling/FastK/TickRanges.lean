import FastK.Invariants
/-!
# Range reads of tick series

The fixed reader looks for the first row of a range among the rows from the last anchor by `start_ts` on
(`lower_bound_via_sparse`).  Trades, quotes and book deltas may share a timestamp, so rows before that anchor may
belong to the range too: they are lost when the row before an anchor carries the anchor's timestamp and the range
begins there (`ChunkFile.Straddles`).  Where no anchor is straddled at `start_ts`, the read is exact
(`tick_range_exact_iff`).
-/
namespace FastK

open Journal Search Sampled Ranges

/-- An anchor of the sparse index has the timestamp, and so has the row before it. -/
def ChunkFile.Straddles (f : ChunkFile) (ts : Int) : Prop :=
  ∃ a ∈ f.sparseIndex, a.ts = ts ∧ 0 < a.recordIdx ∧ ∃ r, f.rows[a.recordIdx - 1]? = some r ∧ r.ts = ts

/-- The chunk's file does. -/
def Straddled (sd : SeriesDir) (c : ChunkMeta) (ts : Int) : Prop := ∃ f, sd.lookup c.relativePath = some (.chunk f) ∧
    f.Straddles ts

/-! ## One file -/

section File

variable {R : Type} [FixedRecord R] {f : ChunkFile} {rows : List R} {every : Nat} {ts : Int}

/-- No anchor by `t` lies behind the window. -/
theorem le_windowStart (he : 1 ≤ every) {k : Nat} (h : k * every < upperCount rows ts) :
    k * every ≤ windowStart every rows ts := by
  have hk : k + 1 ≤ (upperCount rows ts + every - 1) / every := by
    rw [Nat.le_div_iff_mul_le he, Nat.succ_mul]
    omega
  exact Nat.mul_le_mul_right every (by omega)

theorem lt_upperCount_iff (ho : Ordered rows) (ts : Int) {i : Nat} {r : R} (hi : rows[i]? = some r) :
    i < upperCount rows ts ↔ FixedRecord.ts r ≤ ts := by
  unfold upperCount
  rw [lt_countP_iff (partitioned_le ho ts) i r hi, decide_eq_true_iff]

theorem lt_lowerCount_iff (ho : Ordered rows) (ts : Int) {i : Nat} {r : R} (hi : rows[i]? = some r) :
    i < lowerCount rows ts ↔ FixedRecord.ts r < ts := by
  unfold lowerCount
  rw [lt_countP_iff (partitioned_lt ho ts) i r hi, decide_eq_true_iff]

/-- Between the two bounds lie the rows at `ts`. -/
theorem ts_eq_of_between (ho : Ordered rows) {i : Nat} (hlow : lowerCount rows ts ≤ i) (hup : i < upperCount rows ts) :
    ∃ r, rows[i]? = some r ∧ FixedRecord.ts r = ts := by
  have hlt : i < rows.length := Nat.lt_of_lt_of_le hup (upperCount_le_length rows ts)
  have hi := List.getElem?_eq_getElem hlt
  refine ⟨rows[i], hi, le_antisymm ((lt_upperCount_iff ho ts hi).1 hup) ?_⟩
  have := (lt_lowerCount_iff ho ts hi).not.1 (not_lt.2 hlow)
  omega

theorem Holds.row_iff (h : Holds R f rows) (i : Nat) :
    (∃ r, f.rows[i]? = some r ∧ r.ts = ts) ↔ ∃ r, rows[i]? = some r ∧ FixedRecord.ts r = ts := by
  rw [h.rows_eq, List.getElem?_map]
  constructor
  · rintro ⟨r, hr, rfl⟩
    obtain ⟨x, hx, rfl⟩ := Option.map_eq_some_iff.1 hr
    exact ⟨x, hx, (FixedRecord.ts_encode x).symm⟩
  · rintro ⟨x, hx, rfl⟩
    exact ⟨FixedRecord.encode x, by rw [hx]; rfl, FixedRecord.ts_encode x⟩

/-- **An anchor is straddled exactly when the window begins behind the first row of the range.** -/
theorem Holds.straddles_iff (h : Holds R f rows) (he : 1 ≤ every) (hs : f.sparseIndex = anchors every rows) :
    f.Straddles ts ↔ lowerCount rows ts < windowStart every rows ts := by
  unfold ChunkFile.Straddles
  rw [hs]
  constructor
  · rintro ⟨a, ha, hts, hpos, hprev⟩
    obtain ⟨r, hr, hrts⟩ := (h.row_iff _).1 hprev
    obtain ⟨k, hk⟩ := List.getElem?_of_mem ha
    rw [anchors_getElem? he] at hk
    obtain ⟨x, hx, rfl⟩ := Option.map_eq_some_iff.1 hk
    have hup := (lt_upperCount_iff h.ordered ts hx).2 (le_of_eq hts)
    have hlow := (lt_lowerCount_iff h.ordered ts hr).not.2 (not_lt.2 (le_of_eq hrts.symm))
    have hwin := le_windowStart he hup
    simp only at hpos hlow
    omega
  · intro hlt
    obtain ⟨hle, -, hpos⟩ := window_upperCount he rows ts
    have hup : windowStart every rows ts < upperCount rows ts := hpos (by omega)
    obtain ⟨x, hx, hxts⟩ := ts_eq_of_between h.ordered (le_of_lt hlt) hup
    have hprev : lowerCount rows ts ≤ windowStart every rows ts - 1 := by omega
    obtain ⟨r, hr, hrts⟩ := ts_eq_of_between h.ordered hprev (by omega)
    refine ⟨⟨ts, windowStart every rows ts⟩, ?_, rfl, by simp only; omega, (h.row_iff _).2 ⟨r, hr, hrts⟩⟩
    refine List.mem_of_getElem? (i := (upperCount rows ts + every - 1) / every - 1) ?_
    rw [anchors_getElem? he]
    unfold windowStart at hx
    rw [hx, ← hxts]
    rfl

/-- **A range read of a file takes some of its rows in range, and all of them unless an anchor is straddled.** -/
theorem Holds.fixedAppendRange_iff (h : Holds R f rows) {s e : Int} (hse : s ≤ e) :
    ∃ taken : List R, (∀ out, fixedAppendRange f s e out = .ok (out ++ taken)) ∧
      taken.length ≤ (inRange s e rows).length ∧
      (taken = inRange s e rows ↔ ¬ f.Straddles s) := by
  cases hm : rangeMisses f.header s e with
  | true =>
    have hnil := h.inRange_of_misses hm
    refine ⟨[], fun out => ?_, Nat.zero_le _, iff_of_true hnil.symm ?_⟩
    · unfold fixedAppendRange
      rw [if_pos hm, List.append_nil]
    · rintro ⟨a, -, -, -, hprev⟩
      obtain ⟨r, hr, hrts⟩ := (h.row_iff _).1 hprev
      have hmem : r ∈ inRange s e rows := List.mem_filter.2 ⟨List.mem_of_getElem? hr, by simp [hrts, hse]⟩
      rw [hnil] at hmem
      cases hmem
  | false =>
    have hcounts := between_counts h.ordered s e
    have hup := upperCount_le_length rows e
    rcases h.sampled with h0 | ⟨every, he, hs⟩
    · refine ⟨inRange s e rows, fun out => ?_, le_rfl, iff_of_true rfl ?_⟩
      · unfold fixedAppendRange lowerBoundViaSparse boundViaSparse
        rw [hm, if_neg (by simp), if_pos h0]
        exact h.appendBetween_inRange fixedReadTexts (h.lowerBound_ok s) (h.upperBoundViaSparse_ok fixedReadTexts e) out
      · rintro ⟨a, ha, -⟩
        rw [h0] at ha
        cases ha
    · have hlen : ∀ a, (between rows a (upperCount rows e)).length = upperCount rows e - a :=
        fun a => length_between hup
      refine ⟨_, fixedAppendRange_ok h he hs hm, ?_, ?_⟩
      · rw [← hcounts, hlen, hlen]
        omega
      · rw [h.straddles_iff he hs, not_lt]
        constructor
        · intro heq
          have hlens := congrArg List.length heq
          rw [← hcounts, hlen, hlen] at hlens
          obtain ⟨-, -, hpos⟩ := window_upperCount he rows s
          have hmono : upperCount rows s ≤ upperCount rows e :=
            List.countP_mono_left (fun r _ hr => by simp only [decide_eq_true_eq] at hr ⊢; omega)
          rcases Nat.eq_zero_or_pos (upperCount rows s) with hz | hz
          · have := (window_upperCount he rows s).1
            omega
          · have := hpos hz
            omega
        · intro hle
          rw [max_eq_left hle, hcounts]

end File

/-! ## A series -/

/-- Lists of parts, none longer than its counterpart, agree only if all the parts do. -/
theorem flatMap_eq_iff {α β : Type} {f g : α → List β} : ∀ {l : List α}, (∀ a ∈ l, (f a).length ≤ (g a).length) →
    (l.flatMap f = l.flatMap g ↔ ∀ a ∈ l, f a = g a)
  | [], _ => by simp
  | a :: as, h => by
    have hrest := fun b hb => h b (List.mem_cons_of_mem a hb)
    rw [List.flatMap_cons, List.flatMap_cons, List.forall_mem_cons, ← flatMap_eq_iff hrest]
    constructor
    · intro heq
      have hsum : (as.flatMap f).length ≤ (as.flatMap g).length := by
        rw [List.length_flatMap, List.length_flatMap]
        exact List.sum_le_sum hrest
      have hlen := congrArg List.length heq
      rw [List.length_append, List.length_append] at hlen
      have := h a List.mem_cons_self
      exact List.append_inj heq (by omega)
    · rintro ⟨h1, h2⟩
      rw [h1, h2]

/-- **A range read of a stored series is exact if and only if no chunk is straddled at its start.** -/
theorem Stored.getFixedRange_iff {R : Type} [FixedRecord R] {sd : SeriesDir} {m : SeriesMeta}
    {rowsOf : ChunkMeta → List R} (h : Stored R sd m rowsOf) {s e : Int} (hse : s ≤ e) :
    getFixedRange R sd s e = .ok (inRange s e (m.chunks.flatMap rowsOf)) ↔ ∀ c ∈ m.chunks, ¬ Straddled sd c s := by
  have hread : ∀ c ∈ m.chunks, ∃ taken : List R,
      (∀ out, withChunk sd (fixedValidateHeader R) c (fun f => fixedAppendRange f s e out) = .ok (out ++ taken)) ∧
        taken.length ≤ (inRange s e (rowsOf c)).length ∧ (taken = inRange s e (rowsOf c) ↔ ¬ Straddled sd c s) := by
    intro c hc
    obtain ⟨f, hl, hf, -⟩ := h.held c hc
    obtain ⟨taken, hok, hlen, hiff⟩ := hf.fixedAppendRange_iff hse
    refine ⟨taken, fun out => ?_, hlen, hiff.trans (not_congr ?_)⟩
    · unfold withChunk
      rw [SeriesDir.openChunk_ok hl hf.header_ok]
      simp only
      rw [show fixedValidateHeader R f.header = .ok () from hf.validateHeader_ok _ _]
      exact hok out
    · constructor
      · exact fun hs => ⟨f, hl, hs⟩
      · rintro ⟨g, hg, hs⟩
        rw [hl] at hg
        obtain rfl := FileBody.chunk.inj (Option.some.inj hg)
        exact hs
  choose! taken htaken using hread
  have hsel : ∀ c ∈ m.chunksIn (m.findChunksForRange s e), c ∈ m.chunks := fun c hc => SeriesMeta.chunksIn_subset hc
  have hout : ∀ c ∈ m.chunks, c.endTs < s ∨ e < c.startTs → taken c = [] := by
    intro c hc hmiss
    have hlen := (htaken c hc).2.1
    rw [h.inRange_outside hc hmiss] at hlen
    exact List.length_eq_zero_iff.1 (Nat.le_zero.1 hlen)
  have heq : getFixedRange R sd s e = .ok (m.chunks.flatMap taken) := by
    unfold getFixedRange
    rw [if_neg (not_lt.2 hse), withMeta_ok h, appendChunks_ok [] (fun c hc out => (htaken c (hsel c hc)).1 out),
      List.nil_append, SeriesMeta.flatMap_findChunksForRange h.chain.1 h.chain.2 hse taken hout]
  rw [heq, Except.ok.injEq, show inRange s e (m.chunks.flatMap rowsOf) = m.chunks.flatMap
    (fun c => inRange s e (rowsOf c)) by
    unfold inRange
    rw [List.filter_flatMap], flatMap_eq_iff (fun c hc => (htaken c hc).2.1)]
  exact forall₂_congr (fun c hc => (htaken c hc).2.2)

/-- **In every healthy run, a range read of ticks returns exactly the stored rows in range if and only if no chunk has
an anchor straddled at the start of the range.** -/
theorem tick_range_exact_iff {root : Dir} {n : Nat} {s : Store} (h : Run root Healthy n s) (k : FixedKind)
    (symbol channel : Text) {m : SeriesMeta} (hm : (s.dirs (k.dir symbol channel)).manifest = .current m)
    (ht : m.recordType = k.recordType) {startTs endTs : Int} (hle : startTs ≤ endTs) :
    getFixedRange k.Row (s.dirs (k.dir symbol channel)) startTs endTs
        = .ok (inRange startTs endTs (seriesRows k.recordType (s.dirs (k.dir symbol channel)))) ↔
      ∀ c ∈ m.chunks, ¬ Straddled (s.dirs (k.dir symbol channel)) c startTs := by
  obtain ⟨B, hg⟩ := h.healthy
  have hstored := (((hg.dir _).of_current hm).seriesOk hm).stored
  rw [ht] at hstored
  rw [seriesRows_eq hm]
  exact hstored.getFixedRange_iff hle

/-- `n` trades in one second, `rest` trades in the next. -/
def sampleTicks (n rest : Nat) : List TradeRecord := List.replicate n (sampleTrade 0) ++
    List.replicate rest (sampleTrade 1000)

def sampleTickCalls (n rest : Nat) : List Call :=
  [.registerFixed .trade "X" "c" 1000 .month, .putFixed .trade "X" "c" (sampleTicks n rest)]

def sampleTickStore (n rest : Nat) : Store := runCalls (Env.plain 5) (sampleTickCalls n rest) (Store.empty [])

theorem sampleTickStore_run {n rest : Nat} (h : n + rest < 2 ^ 56) : Run [] Healthy 2 (sampleTickStore n rest) := by
  have hlen : (sampleTicks n rest).length < 2 ^ 56 := by simpa [sampleTicks] using h
  have hok : CallsOk (Env.plain 5) (fun env c s => env.Faultless ∧
    c.Regular s) (sampleTickCalls n rest) (Store.empty []) :=
    ⟨⟨plain_faultless 5, trivial, trivial, trivial, trivial⟩, ⟨plain_faultless 5, trivial, trivial, trivial,
      hlen⟩, trivial⟩
  exact (Run.start.calls hok).short (show 2 < 2 ^ 31 by decide)

/-- How many rows a range read returns. -/
def readCount (startTs endTs : Int) (s : Store) : Option Nat :=
  match getFixedRange TradeRecord (s.dirs (FixedKind.trade.dir "X" "c")) startTs endTs with
  | .ok rows => some rows.length
  | .error _ => none

theorem tick_range_exact_iff_sample :
    ∃ m, ((sampleTickStore 2 2).dirs (FixedKind.trade.dir "X" "c")).manifest = .current m ∧ m.recordType = .trade ∧
    (getFixedRange FixedKind.trade.Row ((sampleTickStore 2 2).dirs (FixedKind.trade.dir "X" "c")) 1000 1000
        = .ok (inRange 1000 1000 (seriesRows FixedKind.trade.recordType
          ((sampleTickStore 2 2).dirs (FixedKind.trade.dir "X" "c")))) ↔
      ∀ c ∈ m.chunks, ¬ Straddled ((sampleTickStore 2 2).dirs (FixedKind.trade.dir "X" "c")) c 1000) := by
  have htest : ((sampleTickStore 2 2).dirs (FixedKind.trade.dir "X" "c")).tests (fun m =>
    decide (m.recordType = .trade)) = true := by decide +kernel
  obtain ⟨m, hm, ht⟩ := SeriesDir.of_tests htest
  have ht := of_decide_eq_true ht
  exact ⟨m, hm, ht, tick_range_exact_iff (sampleTickStore_run (by decide)) .trade "X" "c" hm ht (by decide)⟩

/-- The last trade of the first window and the first of the second share a timestamp, and a read from it on misses the
former. -/
theorem tick_range_loses_row : ¬ ∀ root n s, Run root Healthy n s → ∀ (k : FixedKind) (symbol channel : Text) m,
    (s.dirs (k.dir symbol channel)).manifest = .current m → m.recordType = k.recordType →
      ∀ startTs endTs, startTs ≤ endTs →
      getFixedRange k.Row (s.dirs (k.dir symbol channel)) startTs endTs
        = .ok (inRange startTs endTs (seriesRows k.recordType (s.dirs (k.dir symbol channel)))) := by
  intro h
  have htest : ((sampleTickStore 127 2).dirs (FixedKind.trade.dir "X" "c")).tests (fun m =>
    decide (m.recordType = .trade)) = true := by decide +kernel
  obtain ⟨m, hm, ht⟩ := SeriesDir.of_tests htest
  have hread := h [] 2 _ (sampleTickStore_run (n := 127) (by decide)) .trade "X" "c" m hm (of_decide_eq_true ht) 1000
    1000 (by decide)
  have hone : readCount 1000 1000 (sampleTickStore 127 2) = some 1 := by decide +kernel
  have htwo : (inRange 1000 1000
    (seriesRows .trade ((sampleTickStore 127 2).dirs (FixedKind.trade.dir "X" "c")))).length = 2 := by decide +kernel
  have hread' : readCount 1000 1000 (sampleTickStore 127 2) = some 2 := by
    unfold readCount
    rw [show getFixedRange TradeRecord _ 1000 1000 = _ from hread]
    exact congrArg some htwo
  rw [hone] at hread'
  cases hread'

end FastK
