import FastK.SeriesReader
/-!
# Chunk lookup

The halving searches over a manifest (`types/meta.rs`): for a timestamp they find the one chunk whose span holds it,
for a range the indices of the chunks that intersect it (`lookups_exact`).
-/
namespace FastK

open Search Spans

/-- The timestamp lies in the span of the chunk. -/
def ChunkMeta.Contains (c : ChunkMeta) (ts : Int) : Prop := c.startTs ≤ ts ∧ ts ≤ c.endTs

/-- The chunk and the range have a timestamp in common. -/
def ChunkMeta.Intersects (c : ChunkMeta) (s e : Int) : Prop := ∃ ts, s ≤ ts ∧ ts ≤ e ∧ c.Contains ts

theorem ChunkMeta.intersects_iff {c : ChunkMeta} (hc : c.startTs ≤ c.endTs) {s e : Int} :
    c.Intersects s e ↔ s ≤ e ∧ s ≤ c.endTs ∧ c.startTs ≤ e := by
  constructor
  · rintro ⟨ts, h1, h2, h3, h4⟩
    exact ⟨by omega, by omega, by omega⟩
  · rintro ⟨h1, h2, h3⟩
    exact ⟨max s c.startTs, by omega, by omega, by omega, by omega⟩

namespace SeriesMeta

variable {m : SeriesMeta}

/-- No two chunks hold a timestamp. -/
theorem index_unique (hc : SpanChain m.chunks) {i j : Nat} {c d : ChunkMeta} {ts : Int} (hi : m.chunks[i]? = some c)
    (hj : m.chunks[j]? = some d) (h : c.Contains ts) (h' : d.Contains ts) : j = i := by
  obtain ⟨hil, rfl⟩ := List.getElem?_eq_some_iff.1 hi
  obtain ⟨hjl, rfl⟩ := List.getElem?_eq_some_iff.1 hj
  obtain ⟨h1, h2⟩ := h
  obtain ⟨h3, h4⟩ := h'
  rcases Nat.lt_trichotomy i j with hlt | heq | hgt
  · have := List.pairwise_iff_getElem.1 hc i j hil hjl hlt
    omega
  · exact heq.symm
  · have := List.pairwise_iff_getElem.1 hc j i hjl hil hgt
    omega

theorem findChunkForTs_eq_some_iff (hc : SpanChain m.chunks) (hp : SpansProper m.chunks) {ts : Int} {i : Nat} :
    m.findChunkForTs ts = some i ↔ ∃ c, m.chunks[i]? = some c ∧ c.Contains ts := by
  rcases findChunkForTs_spec hc hp ts with ⟨j, d, hj, hd, hcov⟩ | ⟨hnone, hall⟩
  · rw [hj]
    constructor
    · intro h
      obtain rfl := Option.some.inj h
      exact ⟨d, hd, hcov⟩
    · rintro ⟨c, hci, hcts⟩
      rw [index_unique hc hci hd hcts hcov]
  · rw [hnone]
    constructor
    · intro h
      cases h
    · rintro ⟨c, hci, hcts⟩
      exact absurd hcts (hall c (List.mem_of_getElem? hci))

theorem findChunkForTs_eq_none_iff (hc : SpanChain m.chunks) (hp : SpansProper m.chunks) {ts : Int} :
    m.findChunkForTs ts = none ↔ ∀ c ∈ m.chunks, ¬ c.Contains ts := by
  constructor
  · intro hnone c hcm hcts
    obtain ⟨i, hi⟩ := List.mem_iff_getElem?.1 hcm
    rw [(findChunkForTs_eq_some_iff hc hp).2 ⟨c, hi, hcts⟩] at hnone
    cases hnone
  · intro hall
    cases h : m.findChunkForTs ts with
    | none => rfl
    | some i =>
      obtain ⟨c, hi, hcts⟩ := (findChunkForTs_eq_some_iff hc hp).1 h
      exact absurd hcts (hall c (List.mem_of_getElem? hi))

/-- The bounds the two searches find, for the chunk at an index. -/
theorem bounds_iff (hc : SpanChain m.chunks) (hp : SpansProper m.chunks) {i : Nat} {c : ChunkMeta}
    (hi : m.chunks[i]? = some c) (s e : Int) :
    (i < m.firstChunkWithEndGe s ↔ c.endTs < s) ∧ (i < m.firstChunkWithStartGt e ↔ c.startTs ≤ e) := by
  have hA := partitioned_endTs hc hp s
  have hB := partitioned_startTs hc hp e
  unfold firstChunkWithEndGe firstChunkWithStartGt
  rw [partitionPoint_eq hA, partitionPoint_eq hB, lt_countP_iff hA i c hi, lt_countP_iff hB i c hi]
  simp

/-- The range lies in the manifest. -/
theorem findChunksForRange_bounds (hc : SpanChain m.chunks) (hp : SpansProper m.chunks) (s e : Int) :
    (m.findChunksForRange s e).1 ≤ (m.findChunksForRange s e).2 ∧ (m.findChunksForRange s e).2 ≤ m.chunks.length := by
  have hlen : m.firstChunkWithStartGt e ≤ m.chunks.length := by
    unfold firstChunkWithStartGt
    rw [partitionPoint_eq (partitioned_startTs hc hp e)]
    exact List.countP_le_length
  unfold findChunksForRange
  by_cases h0 : e < s ∨ m.chunks = []
  · rw [if_pos h0]
    exact ⟨le_refl _, Nat.zero_le _⟩
  · rw [if_neg h0]
    simp only
    by_cases h1 : m.chunks.length ≤ m.firstChunkWithEndGe s
    · rw [if_pos h1]
      exact ⟨le_refl _, Nat.zero_le _⟩
    · rw [if_neg h1]
      by_cases h2 : m.firstChunkWithStartGt e ≤ m.firstChunkWithEndGe s
      · rw [if_pos h2]
        exact ⟨le_refl _, Nat.zero_le _⟩
      · rw [if_neg h2]
        exact ⟨by simp only; omega, hlen⟩

/-- **The range holds the chunks that intersect it.** -/
theorem mem_findChunksForRange_iff (hc : SpanChain m.chunks) (hp : SpansProper m.chunks) {s e : Int} {i : Nat}
    {c : ChunkMeta} (hi : m.chunks[i]? = some c) :
    ((m.findChunksForRange s e).1 ≤ i ∧ i < (m.findChunksForRange s e).2) ↔ c.Intersects s e := by
  have hmem := List.mem_of_getElem? hi
  have hlt : i < m.chunks.length := (List.getElem?_eq_some_iff.1 hi).1
  obtain ⟨hend, hstart⟩ := bounds_iff hc hp hi s e
  rw [ChunkMeta.intersects_iff (hp c hmem)]
  unfold findChunksForRange
  by_cases h0 : e < s ∨ m.chunks = []
  · rw [if_pos h0]
    have hse : ¬ s ≤ e := by
      rcases h0 with h0 | h0
      · omega
      · rw [h0] at hmem
        cases hmem
    simp [hse]
  · rw [if_neg h0]
    have hse : s ≤ e := by
      by_contra hlt'
      exact h0 (.inl (by omega))
    simp only
    by_cases h1 : m.chunks.length ≤ m.firstChunkWithEndGe s
    · rw [if_pos h1]
      have := hend.1 (by omega)
      simp only
      omega
    · rw [if_neg h1]
      by_cases h2 : m.firstChunkWithStartGt e ≤ m.firstChunkWithEndGe s
      · rw [if_pos h2]
        simp only
        constructor
        · omega
        · rintro ⟨-, h3, h4⟩
          have := hstart.2 h4
          have := hend.1 (by omega)
          omega
      · rw [if_neg h2]
        simp only
        omega

/-- **The lookups are exact**: a timestamp is found in the one chunk that holds it or in none, and a range gives the
indices of the chunks that intersect it. -/
theorem lookups_exact (hv : m.validate = .ok ()) (hpos : ∀ c ∈ m.chunks, 0 < c.count) (ts s e : Int) :
    (∀ i, m.findChunkForTs ts = some i ↔
      ∃ c, m.chunks[i]? = some c ∧ c.Contains ts ∧ ∀ j d, m.chunks[j]? = some d → d.Contains ts → j = i) ∧
    (m.findChunkForTs ts = none ↔ ∀ c ∈ m.chunks, ¬ c.Contains ts) ∧
    (m.findChunksForRange s e).1 ≤ (m.findChunksForRange s e).2 ∧ (m.findChunksForRange s e).2 ≤ m.chunks.length ∧
    ∀ i c, m.chunks[i]? = some c → (((m.findChunksForRange s e).1 ≤ i ∧ i < (m.findChunksForRange s e).2) ↔
      c.Intersects s e) := by
  obtain ⟨hc, hp⟩ := chain_of_validate hv hpos
  obtain ⟨h1, h2⟩ := findChunksForRange_bounds hc hp s e
  refine ⟨fun i => ?_, findChunkForTs_eq_none_iff hc hp, h1, h2, fun i c hi => mem_findChunksForRange_iff hc hp hi⟩
  rw [findChunkForTs_eq_some_iff hc hp]
  constructor
  · rintro ⟨c, hi, hts⟩
    exact ⟨c, hi, hts, fun j d hj hd => index_unique hc hi hj hts hd⟩
  · rintro ⟨c, hi, hts, -⟩
    exact ⟨c, hi, hts⟩

/-- Between the two chunks of the sample no timestamp is found, and a range over both gives both. -/
theorem lookups_exact_sample :
    ((sampleMeta [sampleOldChunk, sampleNewChunk]).findChunkForTs 1000000 = none ↔
      ∀ c ∈ (sampleMeta [sampleOldChunk, sampleNewChunk]).chunks, ¬ c.Contains 1000000) ∧
    (sampleMeta [sampleOldChunk, sampleNewChunk]).findChunksForRange 0 3000000000 = (0, 2) ∧
      sampleNewChunk.Intersects 0 3000000000 := by
  have h := lookups_exact (m := sampleMeta [sampleOldChunk, sampleNewChunk]) (by decide)
    (by decide) 1000000 0 3000000000
  have hrange : (sampleMeta [sampleOldChunk, sampleNewChunk]).findChunksForRange 0 3000000000 = (0, 2) := by decide
  refine ⟨h.2.1, hrange, ?_⟩
  exact (h.2.2.2.2 1 sampleNewChunk rfl).1 (by rw [hrange]; decide)

end SeriesMeta

end FastK
