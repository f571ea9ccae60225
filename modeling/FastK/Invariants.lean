import FastK.Names
/-!
# Invariants of whole runs

In every state that regular calls under names that go down reach from an empty store, the manifests are in order
(`manifests_in_order`).  A range append under other names than those of the series breaks this: it works on a manifest
that it has already replaced.
-/
namespace FastK

open Journal

/-! ## Runs -/

/-- The states that calls reach from an empty store, with the number of calls; `Ok` says which calls are made where. -/
inductive Run (root : Dir) (Ok : Env → Call → Store → Prop) : Nat → Store → Prop
  | start : Run root Ok 0 (Store.empty root)
  | call {n : Nat} {s : Store} (env : Env) (c : Call) (h : Run root Ok n s) (hok : Ok env c s) :
      Run root Ok (n + 1) ((c.run env).final s)

theorem Run.mono {root : Dir} {Ok Ok' : Env → Call → Store → Prop} {n : Nat} {s : Store} (h : Run root Ok n s)
    (hle : ∀ env c s, Ok env c s → Ok' env c s) : Run root Ok' n s := by
  induction h with
  | start => exact .start
  | call env c _ hok ih => exact .call env c ih (hle _ _ _ hok)

theorem goodStore_empty (root : Dir) : GoodStore 0 (Store.empty root) := ⟨fun _ => .empty rfl rfl⟩

theorem Run.zero {root : Dir} {Ok : Env → Call → Store → Prop} {s : Store} (h : Run root Ok 0 s) :
    s = Store.empty root := by
  cases h
  rfl

/-- **The run lemma**: each regular call raises the generations by two at most, and the first, which finds no series,
by one. -/
theorem Run.good_pred {root : Dir} {n : Nat} {s : Store}
    (h : Run root (fun env c s => env.Faultless ∧ c.Regular s) n s) (hn : n < 2 ^ 31) :
    GoodStore (2 * n - 1) s := by
  induction h with
  | start => exact goodStore_empty root
  | @call n s env c hrun hok ih =>
    have hg := ih (by omega)
    cases n with
    | zero =>
      refine Call.run_allows (B := 0) hg ⟨le_refl _, fun d m hm => ?_⟩ (by decide) hok.1 hok.2
      rw [hrun.zero] at hm
      cases hm
    | succ n =>
      have := Call.run_good (B := 2 * (n + 1) - 1) hg (by unfold u32Max; omega) hok.1 hok.2
      exact this.mono (by omega)

theorem Run.good {root : Dir} {n : Nat} {s : Store} (h : Run root (fun env c s => env.Faultless ∧ c.Regular s) n s)
    (hn : n < 2 ^ 31) : GoodStore (2 * n) s :=
  (h.good_pred hn).mono (Nat.sub_le _ _)

/-- Every partition has two more generations to go. -/
def Store.HasRoom (s : Store) : Prop := ∀ d m, (s.dirs d).manifest = .current m →
    ∀ c ∈ m.chunks, c.generation + 2 < u32Max

theorem GoodStore.of_room {B : Nat} {s : Store} (h : GoodStore B s) (hr : s.HasRoom) : GoodStore (u32Max - 3) s := by
  refine ⟨fun d => ?_⟩
  cases h.dir d with
  | empty hm hf => exact .empty hm hf
  | series hm hs =>
    refine .series hm ⟨hs.fits, hs.exact, hs.tidy, fun c hc => ?_, hs.described⟩
    have := hr d _ hm c hc
    omega

/-- The calls of a healthy store: regular, without faults, with room. -/
structure Healthy (env : Env) (c : Call) (s : Store) : Prop where
  faultless : env.Faultless
  regular : c.Regular s
  room : s.HasRoom

theorem Run.healthy {root : Dir} {n : Nat} {s : Store} (h : Run root Healthy n s) : ∃ B, GoodStore B s := by
  induction h with
  | start => exact ⟨0, goodStore_empty root⟩
  | call env c _ hok ih =>
    obtain ⟨B, hg⟩ := ih
    exact ⟨_, Call.run_good (hg.of_room hok.room) (by decide) hok.faultless hok.regular⟩

theorem GoodStore.hasRoom {B : Nat} {s : Store} (h : GoodStore B s) (hB : B + 2 < u32Max) : s.HasRoom := by
  intro d m hm c hc
  have := ((h.dir d).of_current hm).bound c hc
  omega

/-- Fewer than 2^31 calls use up no partition. -/
theorem Run.short {root : Dir} {n : Nat} {s : Store} (h : Run root (fun env c s => env.Faultless ∧ c.Regular s) n s)
    (hn : n < 2 ^ 31) :
    Run root Healthy n s := by
  induction h with
  | start => exact .start
  | @call n s env c h hok ih =>
    exact .call env c (ih (by omega)) ⟨hok.1, hok.2, (h.good (by omega)).hasRoom (by unfold u32Max; omega)⟩

/-- Healthy calls under names that go down. -/
structure HealthyPlain (env : Env) (c : Call) (s : Store) : Prop extends Healthy env c s where
  plain : c.Plain

theorem Run.unplain {root : Dir} {n : Nat} {s : Store} (h : Run root HealthyPlain n s) : Run root Healthy n s :=
  h.mono (fun _ _ _ hok => hok.toHealthy)

/-- Calls one after another, from a store on. -/
def runCalls (env : Env) (cs : List Call) (s : Store) : Store := cs.foldl (fun s c => (c.run env).final s) s

/-- Each call is made where it may be made. -/
def CallsOk (env : Env) (Ok : Env → Call → Store → Prop) : List Call → Store → Prop
  | [], _ => True
  | c :: cs, s => Ok env c s ∧ CallsOk env Ok cs ((c.run env).final s)

theorem Run.calls {root : Dir} {Ok : Env → Call → Store → Prop} {env : Env} : ∀ {cs : List Call} {n : Nat}
    {s : Store}, Run root Ok n s →
    CallsOk env Ok cs s → Run root Ok (n + cs.length) (runCalls env cs s)
  | [], _, _, h, _ => h
  | c :: cs, n, s, h, hok => by
    have := Run.calls (h.call env c hok.1) hok.2
    rwa [Nat.add_assoc, Nat.add_comm 1] at this

theorem CallsOk.mono {env : Env} {Ok Ok' : Env → Call → Store → Prop} : ∀ {cs : List Call}
    {s : Store}, CallsOk env Ok cs s →
    (∀ c ∈ cs, ∀ s, Ok env c s → Ok' env c s) → CallsOk env Ok' cs s
  | [], _, _, _ => trivial
  | c :: _, s, h, hle => ⟨hle c List.mem_cons_self s h.1, h.2.mono (fun c hc => hle c (List.mem_cons_of_mem _ hc))⟩

/-- Calls whose names all go down. -/
theorem CallsOk.plain {env : Env} {Ok : Env → Call → Store → Prop} {cs : List Call} {s : Store}
    (h : CallsOk env Ok cs s) (hplain : ∀ c ∈ cs, c.Plain) : CallsOk env (fun env c s => Ok env c s ∧ c.Plain) cs s :=
  h.mono (fun c hc _ hok => ⟨hok, hplain c hc⟩)

/-- A few regular calls under plain names, from an empty store on. -/
theorem runCalls_plain {root : Dir} {env : Env} {cs : List Call} (hplain : ∀ c ∈ cs, c.Plain)
    (hlen : cs.length < 2 ^ 31) (h : CallsOk env (fun env c s => env.Faultless ∧ c.Regular s) cs (Store.empty root)) :
    Run root HealthyPlain cs.length (runCalls env cs (Store.empty root)) := by
  have hrun := Run.start.calls (h.plain hplain)
  rw [Nat.zero_add] at hrun
  generalize runCalls env cs (Store.empty root) = s at hrun
  generalize cs.length = n at hrun hlen
  induction hrun with
  | start => exact .start
  | @call n s env c hrun hok ih =>
    have hroom := ((hrun.mono (fun _ _ _ h => h.1)).good (by omega)).hasRoom (by unfold u32Max; omega)
    exact .call env c (ih (by omega)) ⟨⟨hok.1.1, hok.1.2, hroom⟩, hok.2⟩

/-- The manifest that is there passes a test. -/
def SeriesDir.tests (sd : SeriesDir) (p : SeriesMeta → Bool) : Bool :=
  match sd.manifest with
  | .current m => p m
  | _ => false

theorem SeriesDir.of_tests {sd : SeriesDir} {p : SeriesMeta → Bool} (h : sd.tests p = true) :
    ∃ m, sd.manifest = .current m ∧ p m = true := by
  unfold SeriesDir.tests at h
  split at h
  · rename_i m hm
    exact ⟨m, hm, h⟩
  · cases h

/-! ## Manifests -/

/-- The manifest of a series directory as it should be at any time. -/
structure ManifestInOrder (sd : SeriesDir) (m : SeriesMeta) : Prop where
  apart : m.chunks.Pairwise (fun a b => a.endTs < b.startTs) ∧ ∀ c ∈ m.chunks, c.startTs ≤ c.endTs
  partitioned : ∀ c ∈ m.chunks, ∃ f, sd.lookup c.relativePath = some (.chunk f) ∧
    Holds m.recordType.Row f (rowsIn m.recordType sd c) ∧
    ∀ r ∈ rowsIn m.recordType sd c, partitionKey (FixedRecord.ts r) m.unit = .ok c.monthKey
  ids : (m.chunks.map ChunkMeta.chunkId).Nodup
  paths : (m.chunks.map ChunkMeta.relativePath).Nodup
  generations : ∀ a ∈ m.chunks, ∀ b ∈ m.chunks, a.monthKey = b.monthKey → a.startTs < b.startTs →
    a.generation < b.generation
  unmerging : ∀ c ∈ m.chunks, c.state ≠ .merging
  active : ∀ id, m.activeChunkId = some id → ∃ c ∈ m.chunks, c.chunkId = id ∧ c.state = .active

theorem GoodSeries.inOrder {C : Nat} {d : Dir} {sd : SeriesDir} {m : SeriesMeta} (h : GoodSeries C d sd m) :
    ManifestInOrder sd m where
  apart := by
    obtain ⟨hchain, hproper⟩ := h.fits.chain
    exact ⟨hchain, hproper⟩
  partitioned c hc := by
    obtain ⟨name, f, hf, ho, he⟩ := (h.fits.tracked c hc).rowsIn h.fits.filed
    refine ⟨f, ?_, ho.holds, ho.keyed⟩
    rw [he.path]
    exact h.fits.filed.lookup hf
  ids := h.tidy.ids
  paths := by
    have hnodup : m.chunks.Nodup := h.tidy.ids.of_map ChunkMeta.chunkId
    exact hnodup.map_on (fun a ha b hb hp => h.fits.path_inj ha hb hp)
  generations := h.tidy.generations
  unmerging := h.settled
  active := h.tidy.active

/-- **In every state that fewer than 2^31 regular calls under names that go down reach, each manifest is in order.** -/
theorem manifests_in_order {root : Dir} {n : Nat} {s : Store}
    (h : Run root (fun env c s => (env.Faultless ∧ c.Regular s) ∧ c.Plain) n s) (hn : n < 2 ^ 31) :
    ∀ d m, (s.dirs d).manifest = .current m → ManifestInOrder (s.dirs d) m :=
  fun d _ hm => ((((h.mono (fun _ _ _ hok => hok.1)).good hn).dir d).of_current hm).inOrder

theorem plain_faultless (now : Int) : (Env.plain now).Faultless := fun _ _ => rfl

/-- A kline series with two chunks in one month. -/
def sampleKlineCalls : List Call :=
  [.registerKline "X" "1m" 60000 1 1, .putKline .default "X" "1m" [sampleKline 0, sampleKline 60000],
    .putKline .default "X" "1m" [sampleKline 120000]]

theorem sampleKlineCalls_ok : CallsOk (Env.plain 5)
    (fun env c s => env.Faultless ∧ c.Regular s) sampleKlineCalls (Store.empty []) := by
  refine ⟨⟨plain_faultless 5, trivial, trivial, trivial, trivial⟩, ⟨plain_faultless 5, ?_, trivial, trivial, trivial⟩,
    ⟨plain_faultless 5, ?_, trivial, trivial, trivial⟩, trivial⟩
  · show OfType .kline _
    decide +kernel
  · show OfType .kline _
    decide +kernel

theorem sampleKlineCalls_plain : ∀ c ∈ sampleKlineCalls, c.Plain := by decide +kernel

theorem manifests_in_order_sample :
    ∃ m, ((runCalls (Env.plain 5) sampleKlineCalls (Store.empty [])).dirs (klineSeriesDir "X" "1m")).manifest =
      .current m ∧
    m.chunks.length = 2 ∧
      ManifestInOrder ((runCalls (Env.plain 5) sampleKlineCalls (Store.empty [])).dirs (klineSeriesDir "X" "1m")) m :=
  by
  have htest : ((runCalls (Env.plain 5) sampleKlineCalls (Store.empty [])).dirs (klineSeriesDir "X" "1m")).tests
    (fun m => decide (m.chunks.length = 2)) = true := by
    decide +kernel
  obtain ⟨m, hm, hlen⟩ := SeriesDir.of_tests htest
  exact ⟨m, hm, of_decide_eq_true hlen,
    manifests_in_order (Run.start.calls (sampleKlineCalls_ok.plain sampleKlineCalls_plain)) (by decide) _ m hm⟩

/-- A scalar series registered as `S`, `x/y`, `z` and appended to as `S`, `x`, `y/z` over two months; the last two calls
leave the marker behind and recover. -/
def sampleAliasCalls : List Call :=
  [.registerScalar ⟨"S", "x/y", "z"⟩ 60000, .appendScalarRange ⟨"S", "x", "y/z"⟩ [⟨0, ⟨0, by decide⟩⟩,
    ⟨3456000000, ⟨0, by decide⟩⟩] none,
    .mergeKline "S" "1m" "1970-01", .registerKline "S" "1m" 60000 1 1]

/-- The append works on the manifest it has already replaced: both months get the first chunk id. -/
theorem manifests_out_of_order : ¬ ∀ root n s, Run root (fun env c s => env.Faultless ∧ c.Typed s ∧ c.Fits) n s →
    n < 2 ^ 31 →
    ∀ d m, (s.dirs d).manifest = .current m → ManifestInOrder (s.dirs d) m := by
  intro h
  have hok : CallsOk (Env.plain 5) (fun env c s => env.Faultless ∧ c.Typed s ∧
    c.Fits) sampleAliasCalls (Store.empty []) := by
    refine ⟨⟨plain_faultless 5, trivial, trivial⟩, ⟨plain_faultless 5, ?_, trivial⟩, ⟨plain_faultless 5, ?_, trivial⟩,
      ⟨plain_faultless 5, trivial, trivial⟩, trivial⟩
    · show OfType .scalar _
      decide +kernel
    · show OfType .kline _
      decide +kernel
  have hrun := h [] _ _ (Run.start.calls hok) (by decide) (seriesDir "S" "x/y" "z")
  have hids : ((runCalls (Env.plain 5) sampleAliasCalls (Store.empty [])).dirs (seriesDir "S" "x/y" "z")).tests
      (fun m => decide (m.chunks.map ChunkMeta.chunkId = [1, 1])) = true := by decide +kernel
  obtain ⟨m, hm, hids⟩ := SeriesDir.of_tests hids
  have := (hrun m hm).ids
  rw [of_decide_eq_true hids] at this
  exact absurd this (by decide)

def sampleTrade (ts : Int) : TradeRecord := ⟨ts, ts, 1, 100, 5, 0, 0, []⟩

end FastK
