import FastK.Inspection
import FastK.Sealing
/-!
# Sealing after a run

A root is sealed after calls on its store; from then on nothing changes.  Sealing keeps every answer, and afterwards a
replay yields every stored record of the series whose chunks were sealed: those that the walk of the sealing finds
(`sealing_completes_iff`).
-/
namespace FastK

open Journal Spans

/-! ## Replay of sealed chunks -/

/-- A replay over any bounds yields exactly the records in them, for batches of any sizes that room can be had for. -/
def ReplaysAll (R : Type) [FixedRecord R] (sd : SeriesDir) (rows : List R) : Prop :=
  ∀ o : ReplayOptions, (∀ e, o.endTs = some e → o.startTs ≤ e) → ∃ cursor, replay R sd o = .ok cursor ∧
    ∀ sizes, (∀ n ∈ sizes, 0 < n ∧ n * FixedRecord.byteSize R < 2 ^ 63) →
      ∃ batches, readBatches (R := R) sd sizes cursor = .ok batches ∧
      ExactBatches (rows.filter (fun r => decide (o.Has (FixedRecord.ts r)))) sizes batches

section Replayed

variable {R : Type} [FixedRecord R] {sd sd' : SeriesDir} {m : SeriesMeta} {rowsOf : ChunkMeta → List R}
    {o : ReplayOptions}

theorem batchesFit_of_lt {recordSize : Nat} (cut : Bool) : ∀ {sizes : List Nat}
    (left : Nat), (∀ n ∈ sizes, n * recordSize < 2 ^ 63) →
    BatchesFit recordSize cut sizes left = true
  | [], _, _ => rfl
  | n :: ns, left, h => by
    unfold BatchesFit
    rw [batchesFit_of_lt cut (left - n) (fun k hk => h k (List.mem_cons_of_mem n hk))]
    simpa using h n List.mem_cons_self

theorem replayStream_eq (rowsOf : ChunkMeta → List R) (m : SeriesMeta) (o : ReplayOptions) : replayStream rowsOf m o =
    ((m.chunks.filter (fun c => decide (c.state = .sealed))).flatMap rowsOf).filter (fun r =>
      decide (o.Has (FixedRecord.ts r))) := by
  unfold replayStream
  refine List.filter_congr (fun r _ => ?_)
  rw [Bool.eq_iff_iff, decide_eq_true_iff]
  simp [ReplayOptions.Has]

/-- Leaving out an element that has something to give makes the result shorter. -/
theorem length_flatMap_filter_lt {α β : Type} {f : α → List β} {p : α → Bool} : ∀ {l : List α} {a : α}, a ∈ l →
    p a = false → f a ≠ [] →
    ((l.filter p).flatMap f).length < (l.flatMap f).length
  | x :: l, a, ha, hp, hf => by
    have hle : ((l.filter p).flatMap f).length ≤ (l.flatMap f).length :=
      (List.Sublist.flatMap List.filter_sublist f).length_le
    rw [List.filter_cons, List.flatMap_cons, List.length_append]
    rcases List.mem_cons.1 ha with rfl | ha
    · have := List.length_pos_iff.2 hf
      rw [if_neg (by rw [hp]; exact Bool.false_ne_true)]
      omega
    · have ih := length_flatMap_filter_lt ha hp hf
      split
      · rw [List.flatMap_cons, List.length_append]
        omega
      · omega

/-- **A replay yields all records of a series exactly when all its chunks are sealed.** -/
theorem Replayable.replaysAll_iff (h : Replayable R sd m rowsOf) (hsize : FixedRecord.byteSize R < 2 ^ 63) :
    ReplaysAll R sd (m.chunks.flatMap rowsOf) ↔ AllSealed m.chunks := by
  constructor
  · intro hall c hc
    by_contra hstate
    obtain ⟨lo, hlo⟩ : ∃ lo, ∀ r ∈ m.chunks.flatMap rowsOf, lo ≤ FixedRecord.ts r := by
      have hordered := h.stored.ordered
      cases hrows : m.chunks.flatMap rowsOf with
      | nil => exact ⟨0, by simp⟩
      | cons r rs =>
        rw [hrows] at hordered
        refine ⟨FixedRecord.ts r, fun x hx => ?_⟩
        rcases List.mem_cons.1 hx with rfl | hx
        · exact le_refl _
        · exact (List.rel_of_pairwise_cons hordered hx).le
    have hin : ∀ l : List R, (∀ r ∈ l, r ∈ m.chunks.flatMap rowsOf) →
      l.filter (fun r => decide (ReplayOptions.Has ⟨lo, none⟩ (FixedRecord.ts r))) = l := by
      intro l hl
      rw [List.filter_eq_self]
      intro r hr
      exact decide_eq_true ⟨hlo r (hl r hr), rfl⟩
    -- all records one by one, and what is read of them
    obtain ⟨cursor, hcursor, hbatches⟩ := hall ⟨lo, none⟩ (by simp)
    have hones : ∀ n ∈ List.replicate (m.chunks.flatMap rowsOf).length 1, 0 < n ∧
      n * FixedRecord.byteSize R < 2 ^ 63 := by
      intro n hn
      rw [List.eq_of_mem_replicate hn, one_mul]
      exact ⟨Nat.one_pos, hsize⟩
    obtain ⟨batches, hread, hexact⟩ := hbatches _ hones
    obtain ⟨cursor', hcursor', hcut⟩ := h.read (o := ⟨lo, none⟩) (by simp) (fun n hn => (hones n hn).1)
    obtain rfl := Except.ok.inj (hcursor.symm.trans hcursor')
    rw [if_pos (.inr (batchesFit_of_lt _ _ (fun n hn => (hones n hn).2)))] at hcut
    obtain rfl := Except.ok.inj (hread.symm.trans hcut)
    have heq := hexact.flatten_eq.symm.trans (exact_cutAt _ (fun n hn => (hones n hn).1)).flatten_eq
    rw [replayStream_eq, hin _ (fun r hr => hr),
      hin _ (fun r hr => (List.Sublist.flatMap List.filter_sublist rowsOf).subset hr)] at heq
    have hsum : (List.replicate (m.chunks.flatMap rowsOf).length 1).sum = (m.chunks.flatMap rowsOf).length := by simp
    rw [hsum, List.take_length] at heq
    obtain ⟨f, -, hf, -⟩ := h.stored.held c hc
    have hlt := length_flatMap_filter_lt (p := fun c =>
      decide (c.state = .sealed)) hc (decide_eq_false hstate) hf.ne_nil
    have := congrArg List.length heq
    rw [List.length_take] at this
    omega
  · intro hsealed o ho
    have hrows : replayStream rowsOf m o = (m.chunks.flatMap rowsOf).filter (fun r =>
      decide (o.Has (FixedRecord.ts r))) := by
      rw [replayStream_eq, List.filter_eq_self.2 (fun c hc => decide_eq_true (hsealed c hc))]
    obtain ⟨cursor, hcursor, -⟩ := h.replay_ok ho
    refine ⟨cursor, hcursor, fun sizes hsizes => ?_⟩
    have hpos : ∀ n ∈ sizes, 0 < n := fun n hn => (hsizes n hn).1
    obtain ⟨cursor', hcursor', hcut⟩ := h.read ho hpos
    obtain rfl := Except.ok.inj (hcursor.symm.trans hcursor')
    rw [if_pos (.inr (batchesFit_of_lt _ _ (fun n hn => (hsizes n hn).2)))] at hcut
    rw [← hrows]
    exact ⟨_, hcut, exact_cutAt _ hpos⟩

theorem lookup_files (hf : sd'.files = sd.files) (relativePath : Text) :
    sd'.lookup relativePath = sd.lookup relativePath := by
  unfold SeriesDir.lookup
  rw [hf]

theorem Replayable.of_files (h : Replayable R sd m rowsOf) (hf : sd'.files = sd.files)
    (hm : sd'.manifest = .current m) : Replayable R sd' m rowsOf where
  stored := by
    refine ⟨hm, h.stored.valid, fun c hc => ?_⟩
    rw [lookup_files hf]
    exact h.stored.held c hc
  recordType_eq := h.recordType_eq
  schemaId_eq := h.schemaId_eq
  recordSize_eq := h.recordSize_eq
  stamped c hc f hl := by
    rw [lookup_files hf] at hl
    exact h.stamped c hc f hl

/-- A series stays replayable under the manifest that sealing saves. -/
theorem Replayable.sealedAt (h : Replayable R sd m rowsOf) (hf : sd'.files = sd.files) {now : Int}
    (hm : sd'.manifest = .current (m.sealedAt now)) (hrows : ∀ c, rowsOf c.sealed = rowsOf c) :
    Replayable R sd' (m.sealedAt now) rowsOf where
  stored := by
    refine ⟨hm, SeriesMeta.validate_sealedAt h.stored.valid now, fun c hc => ?_⟩
    obtain ⟨a, ha, rfl⟩ := List.mem_map.1 hc
    rw [lookup_files hf, hrows]
    exact h.stored.held a ha
  recordType_eq := h.recordType_eq
  schemaId_eq := h.schemaId_eq
  recordSize_eq := h.recordSize_eq
  stamped c hc f hl := by
    obtain ⟨a, ha, rfl⟩ := List.mem_map.1 hc
    rw [lookup_files hf] at hl
    exact h.stamped a ha f hl

end Replayed

/-! ## Series that can be replayed -/

/-- The series of the directory, if it has one, can be replayed. -/
def ReplayableDir (sd : SeriesDir) : Prop := ∀ m, sd.manifest = .current m →
    Replayable m.recordType.Row sd m (rowsIn m.recordType sd)

/-- The chunks of the directory are not in transition. -/
def SettledDir (sd : SeriesDir) : Prop := ∀ m, sd.manifest = .current m → ∀ c ∈ m.chunks, c.state = .active ∨
    c.state = .sealed

section Dirs

variable {B : Nat} {d : Dir} {sd sd' : SeriesDir} {m m' : SeriesMeta}

theorem GoodSeries.replayable (h : GoodSeries B d sd m) (hm : sd.manifest = .current m) :
    Replayable m.recordType.Row sd m (rowsIn m.recordType sd) where
  stored := (h.seriesOk hm).stored
  recordType_eq := (RecordType.recordType_row m.recordType).symm
  schemaId_eq := h.fits.head.schemaId
  recordSize_eq := h.fits.head.recordSize
  stamped c hc f hl := by
    obtain ⟨name, g, hg, hp, hst⟩ := h.described.stamped c hc
    rw [hp, h.fits.filed.lookup hg] at hl
    obtain rfl := FileBody.chunk.inj (Option.some.inj hl)
    exact hst.seriesId

theorem GoodDir.replayableDir (h : GoodDir B d sd) : ReplayableDir sd := fun _ hm => (h.of_current hm).replayable hm

theorem rowsIn_files (t : RecordType) (hf : sd'.files = sd.files) : rowsIn t sd' = rowsIn t sd := by
  funext c
  unfold rowsIn
  rw [lookup_files hf]

theorem byteSize_row_lt (t : RecordType) : FixedRecord.byteSize t.Row < 2 ^ 63 := by cases t <;> decide

theorem Restated.replayableDir (h : Restated sd sd') (hr : ReplayableDir sd) : ReplayableDir sd' := by
  intro m' hm'
  rw [rowsIn_files _ h.files]
  rcases h.manifest with hm | ⟨m, now, hm, -, hsealed⟩
  · exact (hr m' (hm.symm.trans hm')).of_files h.files hm'
  · obtain rfl := ManifestFile.current.inj (hsealed.symm.trans hm')
    exact (hr m hm).sealedAt h.files hsealed (fun _ => rfl)

/-- Sealing keeps the type of a series and its rows. -/
theorem Restated.rows (h : Restated sd sd') (hm : sd.manifest = .current m) (hm' : sd'.manifest = .current m') :
    m'.recordType = m.recordType ∧ ∀ t, m'.chunks.flatMap (rowsIn t sd') = m.chunks.flatMap (rowsIn t sd) := by
  rcases h.manifest with heq | ⟨m0, now, hm0, -, hsealed⟩
  · obtain rfl := ManifestFile.current.inj (hm'.symm.trans (heq.trans hm))
    exact ⟨rfl, fun t => by rw [rowsIn_files t h.files]⟩
  · obtain rfl := ManifestFile.current.inj (hm.symm.trans hm0)
    obtain rfl := ManifestFile.current.inj (hm'.symm.trans hsealed)
    refine ⟨rfl, fun t => ?_⟩
    rw [rowsIn_files t h.files]
    show (m.chunks.map ChunkMeta.sealed).flatMap (rowsIn t sd) = _
    rw [List.flatMap_map]
    rfl

theorem Restated.settledDir (h : Restated sd sd') (hs : SettledDir sd) : SettledDir sd' := by
  intro m' hm' c hc
  rcases h.manifest with hm | ⟨m, now, -, -, hsealed⟩
  · exact hs m' (hm.symm.trans hm') c hc
  · obtain rfl := ManifestFile.current.inj (hsealed.symm.trans hm')
    exact .inr (allSealed_sealed m.chunks c hc)

/-- **After sealing, a replay yields what was stored before exactly when all chunks are sealed.** -/
theorem Restated.replaysAll_iff (h : Restated sd sd') (hr : ReplayableDir sd) (hm : sd.manifest = .current m)
    (hm' : sd'.manifest = .current m') :
    ReplaysAll m.recordType.Row sd' (seriesRows m.recordType sd) ↔ AllSealed m'.chunks := by
  obtain ⟨htype, hrows⟩ := h.rows hm hm'
  have hrep := h.replayableDir hr m' hm'
  rw [htype] at hrep
  rw [seriesRows_eq hm, ← hrows]
  exact hrep.replaysAll_iff (byteSize_row_lt _)

end Dirs

/-! ## Roots that have been sealed -/

/-- The walk gets to the directory: it lies inside `series/`, and no directory above it looks like a series. -/
def Root.Reaches (r : Root) (d : Dir) : Prop := leavesSeries d = false ∧ ∀ p, p <+: d → p ≠ d →
    r.store.looksLikeSeries r.ways p = false

/-- The states that calls and sealings reach from an empty root; `Ok` says which calls are made where, as long as the
root is not sealed. -/
inductive RootRun (root : Dir) (Ok : Env → Call → Store → Prop) : Root → Prop
  | start : RootRun root Ok (Root.empty root)
  | call {r : Root} (env : Env) (c : Call) (made : List Dir) (h : RootRun root Ok r)
      (hok : r.snapshot = none → Ok env c r.store) :
      RootRun root Ok (r.call env c made).1
  | sealing {r : Root} (env : Env) (legacy : Dir → LegacySeriesMeta) (raw : Dir → List Nat) (sha : Sha256)
      (h : RootRun root Ok r) :
      RootRun root Ok (r.sealSnapshot raw sha env legacy).1

theorem RootRun.mono {root : Dir} {Ok Ok' : Env → Call → Store → Prop} {r : Root} (h : RootRun root Ok r)
    (hle : ∀ env c s, Ok env c s → Ok' env c s) : RootRun root Ok' r := by
  induction h with
  | start => exact .start
  | call env c made _ hok ih => exact .call env c made ih (fun hs => hle _ _ _ (hok hs))
  | sealing env legacy raw sha _ ih => exact .sealing env legacy raw sha ih

theorem RootRun.unplain {root : Dir} {r : Root} (h : RootRun root HealthyPlain r) : RootRun root Healthy r :=
  h.mono (fun _ _ _ hok => hok.toHealthy)

/-- A root is in order until it is sealed, and then all that the walk finds is sealed. -/
structure RootOk (r : Root) : Prop where
  rooted : r.store.Rooted
  replayable : ∀ d, ReplayableDir (r.store.dirs d)
  settled : ∀ d, SettledDir (r.store.dirs d)
  unsealed : r.snapshot = none → ∃ B, GoodStore B r.store
  finished : r.snapshot.isSome → ∀ env, SealedIn (discoverSeriesDirs env r.ways r.store) r.store r.store

section Roots

variable {r : Root} {env : Env} {d : Dir} {m : SeriesMeta}

/-- **The walk finds the series it gets to.** -/
theorem Root.reaches_iff (hr : r.store.Rooted) (hm : (r.store.dirs d).manifest = .current m) :
    d ∈ discoverSeriesDirs env r.ways r.store ↔ r.Reaches d := by
  have hknown : d ∈ r.store.known := by
    by_contra hk
    rw [hr.empty d hk] at hm
    cases hm
  have hlooks : r.store.looksLikeSeries r.ways d = true := by
    unfold Store.looksLikeSeries
    rw [hm]
    simp [ManifestFile.isPresent]
  rw [mem_discoverSeriesDirs]
  constructor
  · rintro ⟨-, hstops⟩
    refine ⟨?_, fun p hp hne => hstops.first p List.nil_prefix hp hne⟩
    rcases hstops.reached with rfl | ⟨p, hp, hdp⟩
    · rfl
    · by_cases hd : d = []
      · rw [hd]
        rfl
      · rw [leavesSeries_below hd hdp]
        simpa using (List.mem_filter.1 hp).2
  · rintro ⟨hin, hfirst⟩
    refine ⟨hr.root (List.ne_nil_of_mem hknown), List.nil_prefix, .inr ⟨d, ?_, List.prefix_refl d⟩, hlooks,
      fun p _ hp hne => hfirst p hp hne⟩
    exact List.mem_filter.2 ⟨List.mem_append_left _ hknown, by rw [hin]; rfl⟩

/-- What is found once more is sealed already. -/
theorem SealedIn.again {ways : List Dir} {s t : Store} (h : SealedIn (discoverSeriesDirs env ways s) s t)
    (hroot : s.seriesRoot = true) (env' : Env) :
    SealedIn (discoverSeriesDirs env' ways t) t t := by
  refine ⟨fun e he => ?_, fun _ _ => rfl, fun _ he => he, fun _ he => .inl he, fun h => h⟩
  exact ⟨restated_refl _, (h.inside e ((h.mem_collect hroot).1 he)).settled⟩

theorem RootOk.of_good {B : Nat} {s : Store} (hg : GoodStore B s) (hr : s.Rooted) (ways : List Dir) (lockFile : Bool) :
    RootOk ⟨s, ways, lockFile, none⟩ where
  rooted := hr
  replayable d := (hg.dir d).replayableDir
  settled d _ hm := ((hg.dir d).of_current hm).tidy.settled
  unsealed _ := ⟨B, hg⟩
  finished h := by cases h

theorem RootOk.locked (h : RootOk r) (lockFile : Bool) : RootOk { r with lockFile := lockFile } :=
  ⟨h.rooted, h.replayable, h.settled, h.unsealed, h.finished⟩

/-- A call is refused, or it runs on a root that is not sealed. -/
theorem Root.call_cases (r : Root) (env : Env) (c : Call) (made : List Dir) :
    (∃ lockFile, (r.call env c made).1 = { r with lockFile := lockFile }) ∨ r.snapshot = none ∧
      (r.call env c made).1 = { r with store := (c.run env).final r.store, ways := r.ways ++ made, lockFile := true } := by
  unfold Root.call Root.acquireWrite
  cases c.check with
  | error e => exact .inl ⟨r.lockFile, rfl⟩
  | ok _ =>
    cases hs : r.snapshot with
    | some snapshot => exact .inl ⟨true, by simp⟩
    | none => exact .inr ⟨rfl, by simp⟩

theorem RootOk.call (h : RootOk r) (env : Env) (c : Call) (made : List Dir)
    (hok : r.snapshot = none → Healthy env c r.store) :
    RootOk (r.call env c made).1 := by
  rcases r.call_cases env c made with ⟨lockFile, heq⟩ | ⟨hs, heq⟩
  · rw [heq]
    exact h.locked lockFile
  · obtain ⟨B, hg⟩ := h.unsealed hs
    have hhealthy := hok hs
    have hgood := Call.run_good (hg.of_room hhealthy.room) (by decide) hhealthy.faultless hhealthy.regular
    rw [heq, hs]
    exact .of_good hgood (exec_rooted _ h.rooted) _ _

section Sealing

variable {legacy : Dir → LegacySeriesMeta} {raw : Dir → List Nat} {sha : Sha256}

theorem Root.sealSnapshot_again (h : r.snapshot.isSome) : (r.sealSnapshot raw sha env legacy).1 = r := by
  unfold Root.sealSnapshot
  rw [if_pos h]

/-- A root is sealed where the store is, and where there is a `series/` to list. -/
theorem Root.sealSnapshot_open (h : r.snapshot = none) (env : Env) (legacy : Dir → LegacySeriesMeta)
    (raw : Dir → List Nat) (sha : Sha256) :
    (∃ e, (sealLocked env legacy r.ways).result r.store = .error e ∧ r.sealSnapshot raw sha env legacy =
      ({ r with store := (sealLocked env legacy r.ways).final r.store, lockFile := true }, .error e)) ∨
    (sealLocked env legacy r.ways).result r.store = .ok () ∧
      (((sealLocked env legacy r.ways).final r.store).seriesRoot = true →
      ∃ snapshot, r.sealSnapshot raw sha env legacy =
        (⟨(sealLocked env legacy r.ways).final r.store, r.ways, true, some (.ok snapshot)⟩, .ok snapshot)) := by
  have hrun : sealLocked env legacy r.ways r.store =
    ((sealLocked env legacy r.ways).trace r.store, (sealLocked env legacy r.ways).result r.store) := rfl
  unfold Root.sealSnapshot Root.acquireWrite
  rw [h]
  simp only [Option.isSome_none, Bool.false_eq_true, if_false]
  rw [hrun]
  cases hres : (sealLocked env legacy r.ways).result r.store with
  | error e => exact .inl ⟨e, rfl, rfl⟩
  | ok _ =>
    refine .inr ⟨rfl, fun hroot => ?_⟩
    have hmade : (exec ((sealLocked env legacy r.ways).trace r.store) r.store).seriesRoot = true := hroot
    simp only
    unfold collectFiles
    rw [if_pos hmade]
    exact ⟨_, rfl⟩

/-- **Sealing a root in order**: refused, it leaves the root in order; otherwise it finalizes the series that the walk
finds. -/
theorem Root.sealSnapshot_good {B : Nat} (hg : GoodStore B r.store) (hs : r.snapshot = none) (env : Env)
    (legacy : Dir → LegacySeriesMeta) (raw : Dir → List Nat) (sha : Sha256) :
    (∃ e t, r.sealSnapshot raw sha env legacy = ({ r with store := exec t r.store, lockFile := true }, .error e) ∧
      GoodStore B (exec t r.store)) ∨
    ∃ snapshot t, r.sealSnapshot raw sha env legacy = (⟨exec t r.store, r.ways, true, some (.ok snapshot)⟩,
      .ok snapshot) ∧
      r.store.seriesRoot = true ∧ SealedIn (discoverSeriesDirs env r.ways r.store) r.store (exec t r.store) := by
  rcases Root.sealSnapshot_open hs env legacy raw sha with ⟨e, he, heq⟩ | ⟨hok, hfiles⟩
  · rcases sealLocked_good hg env legacy r.ways with ⟨-, hgood⟩ | ⟨hok, -⟩
    · exact .inl ⟨e, _, heq, hgood⟩
    · rw [he] at hok
      cases hok
  · rcases sealLocked_good hg env legacy r.ways with ⟨⟨e, he⟩, -⟩ | ⟨-, hroot, hsealed⟩
    · rw [he] at hok
      cases hok
    · obtain ⟨snapshot, heq⟩ := hfiles (hsealed.seriesRoot hroot)
      exact .inr ⟨snapshot, _, heq, hroot, hsealed⟩

/-- **What a sealing that succeeds does to a root.** -/
theorem RootOk.sealedIn (h : RootOk r) {snapshot : SnapshotManifest}
    (hok : (r.sealSnapshot raw sha env legacy).2 = .ok snapshot) :
    SealedIn (discoverSeriesDirs env r.ways r.store) r.store (r.sealSnapshot raw sha env legacy).1.store := by
  cases hs : r.snapshot with
  | some last =>
    rw [Root.sealSnapshot_again (by rw [hs]; rfl)]
    exact h.finished (by rw [hs]; rfl) env
  | none =>
    obtain ⟨B, hg⟩ := h.unsealed hs
    rcases Root.sealSnapshot_good hg hs env legacy raw sha with ⟨e, t, heq, -⟩ | ⟨snapshot', t, heq, -, hsealed⟩
    · rw [heq] at hok
      cases hok
    · rw [heq]
      exact hsealed

/-- A root in order is sealed where its store is. -/
theorem RootOk.seals (h : RootOk r) (hs : r.snapshot = none)
    (hres : (sealLocked env legacy r.ways).result r.store = .ok ()) :
    ∃ snapshot, (r.sealSnapshot raw sha env legacy).2 = .ok snapshot := by
  obtain ⟨B, hg⟩ := h.unsealed hs
  rcases Root.sealSnapshot_open hs env legacy raw sha with ⟨e, he, -⟩ | ⟨-, hfiles⟩
  · rw [hres] at he
    cases he
  · rcases sealLocked_good hg env legacy r.ways with ⟨⟨e, he⟩, -⟩ | ⟨-, hroot, hsealed⟩
    · rw [hres] at he
      cases he
    · obtain ⟨snapshot, heq⟩ := hfiles (hsealed.seriesRoot hroot)
      exact ⟨snapshot, congrArg Prod.snd heq⟩

theorem RootOk.sealing (h : RootOk r) (env : Env) (legacy : Dir → LegacySeriesMeta) (raw : Dir → List Nat)
    (sha : Sha256) :
    RootOk (r.sealSnapshot raw sha env legacy).1 := by
  cases hs : r.snapshot with
  | some snapshot =>
    rw [Root.sealSnapshot_again (by rw [hs]; rfl)]
    exact h
  | none =>
    obtain ⟨B, hg⟩ := h.unsealed hs
    rcases Root.sealSnapshot_good hg hs env legacy raw sha with ⟨e, t, heq, hgood⟩ | ⟨snapshot, t, heq, hroot, hsealed⟩
    · rw [heq, hs]
      exact .of_good hgood (exec_rooted _ h.rooted) _ _
    · rw [heq]
      exact ⟨exec_rooted _ h.rooted, fun d => (hsealed.restated d).replayableDir (h.replayable d), fun d =>
        (hsealed.restated d).settledDir (h.settled d), (fun hnone => by cases hnone), fun _ env' =>
          hsealed.again hroot env'⟩

end Sealing

/-- **The run lemma for roots.** -/
theorem RootRun.ok {root : Dir} (h : RootRun root Healthy r) : RootOk r := by
  induction h with
  | start => exact .of_good (goodStore_empty root) ⟨fun _ _ => rfl, fun hne => absurd rfl hne⟩ _ _
  | call env c made _ hok ih => exact ih.call env c made hok
  | sealing env legacy raw sha _ ih => exact ih.sealing env legacy raw sha

/-! ## What sealing keeps and completes -/

/-- A replay of any series yields all that it stored before. -/
def ReplaysComplete (s t : Store) : Prop := ∀ d m, (s.dirs d).manifest = .current m →
    ReplaysAll m.recordType.Row (t.dirs d) (seriesRows m.recordType (s.dirs d))

/-- Every series with an active chunk is found by the walk. -/
def Root.ReachesActive (r : Root) : Prop := ∀ d m, (r.store.dirs d).manifest = .current m →
    (∃ c ∈ m.chunks, c.state = .active) → r.Reaches d

theorem RootOk.replaysComplete_iff (h : RootOk r) {t : Store}
    (hsealed : SealedIn (discoverSeriesDirs env r.ways r.store) r.store t) :
    ReplaysComplete r.store t ↔ r.ReachesActive := by
  constructor
  · intro hall d m hm ⟨c, hc, hactive⟩
    by_contra hout
    have heq := hsealed.outside d (fun hd => hout ((Root.reaches_iff h.rooted hm).1 hd))
    have hm' : (t.dirs d).manifest = .current m := by
      rw [heq]
      exact hm
    have hstate := ((hsealed.restated d).replaysAll_iff (h.replayable d) hm hm').1 (hall d m hm) c hc
    rw [hactive] at hstate
    cases hstate
  · intro hreach d m hm
    by_cases hd : d ∈ discoverSeriesDirs env r.ways r.store
    · obtain ⟨m', hm', hall⟩ := (hsealed.inside d hd).settled
      exact ((hsealed.restated d).replaysAll_iff (h.replayable d) hm hm').2 hall
    · have hm' : (t.dirs d).manifest = .current m := by
        rw [hsealed.outside d hd]
        exact hm
      refine ((hsealed.restated d).replaysAll_iff (h.replayable d) hm hm').2 (fun c hc => ?_)
      exact (h.settled d m hm c hc).resolve_left (fun ha =>
        hd ((Root.reaches_iff h.rooted hm).2 (hreach d m hm ⟨c, hc, ha⟩)))

/-- **Sealing keeps every answer, and completes the replay exactly where the walk finds the series with active
chunks.** -/
theorem sealing_completes_iff {root : Dir} (h : RootRun root HealthyPlain r) {legacy : Dir → LegacySeriesMeta}
    {raw : Dir → List Nat} {sha : Sha256} {snapshot : SnapshotManifest}
    (hok : (r.sealSnapshot raw sha env legacy).2 = .ok snapshot) :
    (∀ d, AnswersSame (r.store.dirs d) ((r.sealSnapshot raw sha env legacy).1.store.dirs d)) ∧
      (ReplaysComplete r.store (r.sealSnapshot raw sha env legacy).1.store ↔ r.ReachesActive) :=
  ⟨fun d => ((h.unplain.ok.sealedIn hok).restated d).answersSame,
    h.unplain.ok.replaysComplete_iff (h.unplain.ok.sealedIn hok)⟩

/-! ## Calls one after another on a root -/

theorem final_of_refused {α β : Type} {x : Result α} {e : FastKError} (h : x = .error e) (f : α → Op β) (s : Store) :
    (Prog.lift x >>= f).final s = s := by
  rw [h, Prog.lift_error_bind]
  rfl

/-- A write whose records are refused, after another check, takes no step. -/
theorem final_of_refused_second {α β γ : Type} {x : Result α} {y : Result β}
    (h : (∃ e, x = .error e) ∨ ∃ e, y = .error e) (f : α → β → Op γ) (s : Store) :
    (Prog.lift x >>= fun a => Prog.lift y >>= f a).final s = s := by
  cases hx : x with
  | error e => exact final_of_refused rfl _ s
  | ok a =>
    obtain ⟨e, he⟩ := h.resolve_left (fun ⟨e, he⟩ => by rw [hx] at he; cases he)
    rw [Prog.lift_ok_bind]
    exact final_of_refused he _ s

/-- A call that its checks refuse takes no step. -/
theorem Call.run_of_check {c : Call} {e : FastKError} (h : c.check = .error e) (env : Env) (s : Store) :
    (c.run env).final s = s := by
  have hmap : ∀ {α β : Type} {x : Result α} {f : α → β}, x.map f = .error e → ∃ e, x = .error e := by
    intro α β x f hx
    cases x with
    | error e => exact ⟨e, rfl⟩
    | ok a => cases hx
  unfold Call.check at h
  cases c with
  | init => cases h
  | startupRecover => cases h
  | mergeKline symbol timeframe key => cases h
  | registerKline symbol timeframe timeframeMs priceScale volumeScale => exact final_of_refused h _ s
  | registerScalar key timeframeMs =>
    show (registerScalarSeries env key timeframeMs).final s = s
    simp only at h
    unfold registerScalarSeries
    split at h
    · rename_i hle
      rw [if_pos hle]
      rfl
    · cases h
  | registerFixed k symbol channel timeframeMs unit =>
    show (registerFixedSeries env k symbol channel timeframeMs unit).final s = s
    simp only at h
    unfold registerFixedSeries
    split at h
    · rename_i hunit
      rw [if_pos hunit]
      rfl
    · cases h
  | putKline policy symbol timeframe records => exact final_of_refused h _ s
  | putFixed k symbol channel records => exact final_of_refused h _ s
  | putScalar key timeframeMs records zmapBlockSize =>
    refine final_of_refused_second ?_ _ s
    simp only at h
    split at h
    · exact .inl ⟨_, by assumption⟩
    · exact .inr ⟨e, h⟩
  | appendScalar key timeframeMs records blockSize =>
    refine final_of_refused_second ?_ _ s
    simp only at h
    split at h
    · exact .inl ⟨_, by assumption⟩
    · exact .inr ⟨e, h⟩
  | appendKlineRange policy symbol timeframe records timeframeMs priceScale volumeScale =>
    refine (Prog.final_bind_pure _ s).trans (final_of_refused_second ?_ _ s)
    simp only at h
    split at h
    · exact .inl ⟨_, by assumption⟩
    · exact .inr (hmap h)
  | appendScalarRange key records timeframeMs =>
    refine (Prog.final_bind_pure _ s).trans (final_of_refused_second ?_ _ s)
    simp only at h
    split at h
    · rename_i hle
      exact .inl ⟨_, if_pos hle⟩
    · exact .inr (hmap h)

/-- Calls on a root. -/
def rootCalls (env : Env) (cs : List Call) (r : Root) : Root := cs.foldl (fun r c => (r.call env c []).1) r

/-- On a root that is not sealed, the calls run as they do on its store. -/
theorem RootRun.calls {root : Dir} {Ok : Env → Call → Store → Prop} {env : Env} : ∀ {cs : List Call}
    {r : Root}, RootRun root Ok r → r.snapshot = none →
    CallsOk env Ok cs r.store → RootRun root Ok (rootCalls env cs r) ∧
      (rootCalls env cs r).store = runCalls env cs r.store ∧
      (rootCalls env cs r).snapshot = none ∧ (rootCalls env cs r).ways = r.ways
  | [], _, h, hs, _ => ⟨h, rfl, hs, rfl⟩
  | c :: cs, r, h, hs, hok => by
    have hstep : (r.call env c []).1.store = (c.run env).final r.store ∧ (r.call env c []).1.snapshot = none ∧
      (r.call env c []).1.ways = r.ways := by
      unfold Root.call Root.acquireWrite
      cases hc : c.check with
      | error e => exact ⟨(Call.run_of_check hc env r.store).symm, hs, rfl⟩
      | ok _ =>
        rw [hs]
        exact ⟨rfl, rfl, List.append_nil _⟩
    obtain ⟨hstore, hnone, hways⟩ := hstep
    have hokrest : CallsOk env Ok cs (r.call env c []).1.store := by
      rw [hstore]
      exact hok.2
    have hrest := RootRun.calls (h.call env c [] (fun _ => hok.1)) hnone hokrest
    rw [hstore, hways] at hrest
    exact hrest

/-- Few calls leave room. -/
theorem callsOk_healthy {root : Dir} {env : Env} : ∀ {cs : List Call} {n : Nat}
    {s : Store}, Run root (fun env c s => env.Faultless ∧ c.Regular s) n s →
    n + cs.length < 2 ^ 31 → (∀ c ∈ cs, c.Plain) → CallsOk env (fun env c s => env.Faultless ∧ c.Regular s) cs s →
      CallsOk env HealthyPlain cs s
  | [], _, _, _, _, _, _ => trivial
  | c :: cs, n, s, h, hn, hplain, hok => by
    rw [List.length_cons] at hn
    have hroom := (h.good (by omega)).hasRoom (by unfold u32Max; omega)
    exact ⟨⟨⟨hok.1.1, hok.1.2, hroom⟩, hplain c List.mem_cons_self⟩,
      callsOk_healthy (h.call env c hok.1) (by omega) (fun c hc => hplain c (List.mem_cons_of_mem _ hc)) hok.2⟩

end Roots

/-! ## A sealed delta, and a series that the walk does not find -/

/-- Any digests do. -/
def sampleSha : Sha256 := ⟨fun bytes => showNat (checksum64 bytes), fun files => showNat files.length⟩

def sampleSealing (r : Root) : Root × Result SnapshotManifest := r.sealSnapshot (fun _ => []) sampleSha (Env.plain 6)
    (fun _ => sampleLegacy)

/-- A kline series with a base and a delta. -/
def sampleDeltaRoot : Root := rootCalls (Env.plain 5) sampleKlineCalls (Root.empty [])

theorem sampleDeltaRoot_run : RootRun [] HealthyPlain sampleDeltaRoot ∧
    sampleDeltaRoot.store = runCalls (Env.plain 5) sampleKlineCalls (Store.empty []) ∧
    sampleDeltaRoot.snapshot = none ∧ sampleDeltaRoot.ways = [] :=
  RootRun.calls .start rfl (callsOk_healthy .start (by decide) sampleKlineCalls_plain sampleKlineCalls_ok)

theorem sampleDeltaRoot_seals : ∃ snapshot, (sampleSealing sampleDeltaRoot).2 = .ok snapshot := by
  obtain ⟨hrun, hstore, hs, hways⟩ := sampleDeltaRoot_run
  refine hrun.unplain.ok.seals hs ?_
  rw [hstore, hways]
  decide +kernel

theorem sealing_completes_iff_sample :
    (∀ d, AnswersSame (sampleDeltaRoot.store.dirs d) ((sampleSealing sampleDeltaRoot).1.store.dirs d)) ∧
    (ReplaysComplete sampleDeltaRoot.store (sampleSealing sampleDeltaRoot).1.store ↔ sampleDeltaRoot.ReachesActive) :=
  by
  obtain ⟨snapshot, hok⟩ := sampleDeltaRoot_seals
  unfold sampleSealing at hok ⊢
  exact sealing_completes_iff sampleDeltaRoot_run.1 hok

/-- A series below another one, with a base and a delta. -/
def sampleBelowCalls : List Call :=
  [.registerKline "X" "1m" 60000 1 1, .registerKline "X" "1m/old" 60000 1 1,
    .putKline .default "X" "1m/old" [sampleKline 0], .putKline .default "X" "1m/old" [sampleKline 60000]]

theorem sampleBelowCalls_ok : CallsOk (Env.plain 5)
    (fun env c s => env.Faultless ∧ c.Regular s) sampleBelowCalls (Store.empty []) := by
  refine ⟨⟨plain_faultless 5, trivial, trivial, trivial, trivial⟩,
    ⟨plain_faultless 5, trivial, trivial, trivial, trivial⟩,
    ⟨plain_faultless 5, ?_, trivial, trivial, trivial⟩, ⟨plain_faultless 5, ?_, trivial, trivial, trivial⟩, trivial⟩
  · show OfType .kline _
    decide +kernel
  · show OfType .kline _
    decide +kernel

def sampleBelowRoot : Root := rootCalls (Env.plain 5) sampleBelowCalls (Root.empty [])

theorem sampleBelowRoot_run : RootRun [] HealthyPlain sampleBelowRoot ∧
    sampleBelowRoot.store = runCalls (Env.plain 5) sampleBelowCalls (Store.empty []) ∧
    sampleBelowRoot.snapshot = none ∧ sampleBelowRoot.ways = [] :=
  RootRun.calls .start rfl (callsOk_healthy .start (by decide) (by decide +kernel) sampleBelowCalls_ok)

/-- The delta of the series below stays active, and no replay yields its record. -/
theorem sealing_misses_delta : ¬ ∀ root r env legacy raw sha snapshot, RootRun root Healthy r →
    (Root.sealSnapshot raw sha env legacy r).2 = .ok snapshot →
    (∀ d, AnswersSame (r.store.dirs d) ((r.sealSnapshot raw sha env legacy).1.store.dirs d)) ∧
      ReplaysComplete r.store (r.sealSnapshot raw sha env legacy).1.store := by
  intro hall
  obtain ⟨hplain, hstore, hs, hways⟩ := sampleBelowRoot_run
  have hrun := hplain.unplain
  obtain ⟨snapshot, hok⟩ : ∃ snapshot, (sampleSealing sampleBelowRoot).2 = .ok snapshot := by
    refine hrun.ok.seals hs ?_
    rw [hstore, hways]
    decide +kernel
  have hcomplete := (hall [] sampleBelowRoot (Env.plain 6) (fun _ => sampleLegacy)
    (fun _ => []) sampleSha snapshot hrun hok).2
  have hreach := (hrun.ok.replaysComplete_iff (hrun.ok.sealedIn hok)).1 hcomplete
  have htest : (sampleBelowRoot.store.dirs (klineSeriesDir "X" "1m/old")).tests (fun m =>
    m.chunks.any (fun c => decide (c.state = .active))) = true := by
    rw [hstore]
    decide +kernel
  obtain ⟨m, hm, hactive⟩ := SeriesDir.of_tests htest
  rw [List.any_eq_true] at hactive
  obtain ⟨c, hc, hstate⟩ := hactive
  have habove := (hreach _ m hm ⟨c, hc, of_decide_eq_true hstate⟩).2 (klineSeriesDir "X" "1m") (by decide) (by decide)
  rw [hstore, hways] at habove
  have : (runCalls (Env.plain 5) sampleBelowCalls (Store.empty [])).looksLikeSeries [] (klineSeriesDir "X" "1m") =
    true := by decide +kernel
  rw [this] at habove
  cases habove

end FastK
