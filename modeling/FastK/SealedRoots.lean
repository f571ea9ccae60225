import FastK.Migration
import FastK.Preview
import FastK.SealedRuns
/-!
# Sealed roots

What the public interface does to a root once `seal_snapshot` has accepted it: every call that changes a store takes
the write lock, and the lock refuses a root with a snapshot file (`storage/lock.rs`).  A handle that may write takes
no lock to read, though, and a read migrates a manifest of the first format (`storage/manifest.rs`).  The sealing has
migrated those that its walk finds; so a root stays as it was sealed exactly when no series that a key names holds
another one (`sealed_stays_iff`).
-/
namespace FastK

open Journal

/-! ## Loads that migrate -/

section Loads

-- what the JSON of a directory holds, where there is one
variable (env : Env) (legacy : Dir → LegacySeriesMeta)

/-- `load_series_meta_shared_mode`, where no cache has the manifest. -/
def loadSeriesMetaSharedMode (readOnly : Bool) (d : Dir) : Op SeriesMeta := do
  let s ← Prog.look
  if !readOnly && (s.dirs d).manifest.isLegacy then do
    let m ← Prog.lift (migrateLegacyJson env.now (legacy d))
    let _ ← Prog.lift (encodeManifest m)
    saveSeriesMeta env d m
    pure m
  else Prog.lift (s.dirs d).loadSeriesMeta

/-- The loads of `list_series`. -/
def loadAll (readOnly : Bool) (ds : List Dir) : Op Unit :=
  Prog.forEach (fun d => do
    let _ ← loadSeriesMetaSharedMode env legacy readOnly d
    pure ()) ds

/-- What a program answers, also when it fails. -/
def attempt {α : Type} (p : Op α) : Op (Result α) := fun s => (p.trace s, .ok (p.result s))

/-- The round of `explain_overlaps` at a directory: its chunks, or its files where the manifest cannot be loaded. -/
def explainDir (d : Dir) : Op (List OverlapResolution) := do
  let s ← Prog.look
  let loaded ← attempt (loadSeriesMetaSharedMode env legacy false d)
  match loaded with
  | .ok m => pure ((overlapGroups m.chunks).map chooseSurvivingChunkForOverlap)
  | .error _ => do
    let chunks ← Prog.lift (scanChunkFiles env.order (s.dirs d))
    pure ((overlapGroups chunks).map chooseSurvivingChunkForOverlap)

def explainOverlaps (ways : List Dir) : Op Unit := do
  let s ← Prog.look
  Prog.forEach (fun d => do
    let _ ← explainDir env legacy d
    pure ()) (discoverSeriesDirs env ways s)

/-- `rebuild_all_manifests_from_fs`, under the lock. -/
def rebuildAllManifests (ways : List Dir) : Op Unit := do
  let s ← Prog.look
  Prog.forEach (fun d => do
    let _ ← rebuildSeries env d
    pure ()) (discoverSeriesDirs env ways s)

end Loads

/-! ## The public interface -/

/-- The calls on a root: through a handle, which may be one for reading only, or on the path of the root. -/
inductive RootCall where
  | openStore (readOnly : Bool)
  | write (readOnly : Bool) (call : Call) (made : List Dir)
  | load (readOnly cached : Bool) (key : ScalarSeriesKey)
  | listSeries (readOnly : Bool)
  | scrubStore (options : ValidationOptions)
  | recoverStore
  | previewRecovery
  | rebuildAllManifestsFromFs
  | explainOverlaps
  | sealSnapshot
  | verifySnapshot (expectedDigest : Option Text)

/-- The calls that are there to change the store. -/
def RootCall.mutates : RootCall → Bool
  | .write .. | .recoverStore | .rebuildAllManifestsFromFs => true
  | _ => false

/-- A program under the write lock. -/
def Root.locked {α : Type} (p : Op α) (r : Root) : Root × Result Unit :=
  match r.acquireWrite with
  | (r, .error e) => (r, .error e)
  | (r, .ok ()) => ({ r with store := p.final r.store }, (p.result r.store).map (fun _ => ()))

/-- A program without a lock. -/
def Root.unlocked {α : Type} (p : Op α) (r : Root) : Root × Result Unit :=
  ({ r with store := p.final r.store }, (p.result r.store).map (fun _ => ()))

section Interface

variable (raw : Dir → List Nat) (sha : Sha256) (env : Env) (legacy : Dir → LegacySeriesMeta)

/-- `open_mode`. -/
def Root.openStore (readOnly : Bool) (r : Root) : Root × Result Unit :=
  if readOnly then
    match r.acquireRead with
    | .error e => (r, .error e)
    | .ok () =>
      (r, if r.store.pending then .error (.invalidData "store requires explicit writable recovery") else .ok ())
  else if r.store.pending then r.locked (startupRecoverMigrating env legacy)
  else (r, .ok ())

def RootCall.run (call : RootCall) (r : Root) : Root × Result Unit :=
  match call with
  | .openStore readOnly => r.openStore env legacy readOnly
  | .write readOnly c made =>
    if readOnly then (r, match c.check with | .error e => .error e | .ok () => .error (.invalidInput "read-only store handle"))
    else r.call env c made
  | .load readOnly cached key =>
      if cached then (r, .ok ()) else r.unlocked (loadSeriesMetaSharedMode env legacy readOnly key.dir)
  | .listSeries readOnly => r.unlocked (loadAll env legacy readOnly (discoverSeriesDirs env r.ways r.store))
  | .scrubStore options => (r, (FastK.scrubStore env r.ways options r.store).map (fun _ => ()))
  | .recoverStore => r.locked (startupRecoverMigrating env legacy)
  | .previewRecovery =>
    match r.acquireRead with
    | .error e => (r, .error e)
    | .ok () => r.unlocked (FastK.previewRecovery env)
  | .rebuildAllManifestsFromFs => r.locked (rebuildAllManifests env r.ways)
  | .explainOverlaps => r.unlocked (FastK.explainOverlaps env legacy r.ways)
  | .sealSnapshot => ((r.sealSnapshot raw sha env legacy).1, (r.sealSnapshot raw sha env legacy).2.map (fun _ => ()))
  | .verifySnapshot expectedDigest => (r, (r.verifySnapshot raw sha expectedDigest).map (fun _ => ()))

end Interface

/-- The roots that public calls reach, each in an environment of its own. -/
inductive Later (raw : Dir → List Nat) (sha : Sha256) (legacy : Dir → LegacySeriesMeta) (r : Root) : Root → Prop
  | here : Later raw sha legacy r r
  | next {t : Root} (env : Env) (call : RootCall) (h : Later raw sha legacy r t) :
      Later raw sha legacy r (call.run raw sha env legacy t).1

/-! ## Immutability -/

/-- No file below `series/` differs. -/
structure SameSeries (s t : Store) : Prop where
  dirs : ∀ d, leavesSeries d = false → t.dirs d = s.dirs d
  known : t.known.filter (fun d => !leavesSeries d) = s.known.filter (fun d => !leavesSeries d)
  temps : ∀ d, leavesSeries d = false → t.temps.filter (fun p => decide (p.1 = d)) = s.temps.filter (fun p =>
    decide (p.1 = d))
  seriesRoot : t.seriesRoot = s.seriesRoot

/-- From here on every call that would change the store is refused, no file below `series/` changes, and the snapshot
verifies. -/
structure StaysSealed (raw : Dir → List Nat) (sha : Sha256) (legacy : Dir → LegacySeriesMeta) (r : Root)
    (snapshot : SnapshotManifest) : Prop where
  refuses : ∀ t, Later raw sha legacy r t → ∀ call : RootCall, call.mutates = true →
    ∀ env, ∃ e, (call.run raw sha env legacy t).2 = .error e
  same : ∀ t, Later raw sha legacy r t → SameSeries r.store t.store
  verifies : ∀ t, Later raw sha legacy r t → t.verifySnapshot raw sha (some snapshot.digest) = .ok snapshot

/-- The directory holds JSON that a load turns into a manifest. -/
def Migratable (legacy : Dir → LegacySeriesMeta) (s : Store) (d : Dir) : Prop :=
  (s.dirs d).manifest.isLegacy = true ∧ ∃ now m bytes, migrateLegacyJson now (legacy d) = .ok m ∧
    encodeManifest m = .ok bytes

section Series

variable {s t u : Store} {env env' : Env} {legacy : Dir → LegacySeriesMeta} {d : Dir} {ways : List Dir}

theorem SameSeries.refl (s : Store) : SameSeries s s := ⟨fun _ _ => rfl, rfl, fun _ _ => rfl, rfl⟩

theorem SameSeries.trans (h : SameSeries s t) (h' : SameSeries t u) : SameSeries s u where
  dirs d hd := (h'.dirs d hd).trans (h.dirs d hd)
  known := h'.known.trans h.known
  temps d hd := (h'.temps d hd).trans (h.temps d hd)
  seriesRoot := h'.seriesRoot.trans h.seriesRoot

theorem SameSeries.made (h : SameSeries s t) (ways : List Dir) : t.made ways = s.made ways := by
  unfold Store.made
  rw [List.filter_append, List.filter_append, h.known]

theorem SameSeries.looksLikeSeries (h : SameSeries s t) (hd : leavesSeries d = false) :
    t.looksLikeSeries ways d = s.looksLikeSeries ways d := by
  unfold Store.looksLikeSeries
  rw [h.dirs d hd, h.made]

/-- What the ways below `series/` reach lies below `series/`. -/
theorem reached_inside (h : d = [] ∨ ∃ q ∈ s.made ways, d <+: q) : leavesSeries d = false := by
  by_cases hnil : d = []
  · rw [hnil]
    rfl
  · obtain ⟨q, hq, hdq⟩ := h.resolve_left hnil
    have hin := (List.mem_filter.1 hq).2
    rw [leavesSeries_below hnil hdq]
    simpa using hin

theorem SameSeries.symm (h : SameSeries s t) : SameSeries t s where
  dirs d hd := (h.dirs d hd).symm
  known := h.known.symm
  temps d hd := (h.temps d hd).symm
  seriesRoot := h.seriesRoot.symm

/-- The walk finds the same directories. -/
theorem SameSeries.collected (h : SameSeries s t) (hd : d ∈ discoverSeriesDirs env ways t) :
    d ∈ discoverSeriesDirs env' ways s := by
  obtain ⟨hroot, hstops⟩ := mem_discoverSeriesDirs.1 hd
  rw [h.seriesRoot] at hroot
  rw [h.made] at hstops
  refine mem_discoverSeriesDirs.2 ⟨hroot, hstops.of_stop (fun p hp => ?_)⟩
  exact h.symm.looksLikeSeries (reached_inside hp)

/-- The inventory is the same. -/
theorem SameSeries.collectFiles (h : SameSeries s t) (raw : Dir → List Nat) (sha : Sha256) :
    collectFiles raw sha t = collectFiles raw sha s := by
  have hfiles : (t.known.filter (fun d => !leavesSeries d)).flatMap (filesOf raw t) =
      (s.known.filter (fun d => !leavesSeries d)).flatMap (filesOf raw s) := by
    rw [h.known]
    refine List.flatMap_congr (fun d hd => ?_)
    have hin : leavesSeries d = false := by simpa using (List.mem_filter.1 hd).2
    unfold filesOf
    rw [h.dirs d hin, h.temps d hin]
  unfold FastK.collectFiles
  rw [h.seriesRoot, hfiles]

theorem filter_erase_of_not {α : Type} [BEq α] [LawfulBEq α] {p : α → Bool} {a : α} (ha : p a = false) : ∀ l : List α,
    (l.erase a).filter p = l.filter p
  | [] => rfl
  | b :: l => by
    rw [List.erase_cons]
    by_cases hb : b = a
    · subst hb
      simp [ha]
    · simp [hb, List.filter_cons, filter_erase_of_not ha l]

/-- A manifest saved out of `series/` changes nothing below it. -/
theorem sameSeries_saved (hroot : s.seriesRoot = true) (hd : leavesSeries d = true) (env : Env) (m : SeriesMeta) :
    SameSeries s (exec (saveSteps env d m) s) where
  dirs e he := saveSteps_other env (fun h => by rw [h, hd] at he; cases he) m s
  known := by
    show (if d ∈ s.known then s.known else s.known ++ [d]).filter _ = _
    split
    · rfl
    · simp [List.filter_append, hd]
  temps e he := by
    have hne : d ≠ e := fun h => by rw [← h, hd] at he; cases he
    show ((s.temps ++ [(d, tempNameFor env manifestFile)]).erase (d, tempNameFor env manifestFile)).filter _ = _
    rw [filter_erase_of_not (by simpa using hne), List.filter_append]
    simp [hne]
  seriesRoot := hroot.symm

/-- **A load leaves the store as it is, or it migrates JSON.** -/
theorem load_cases (env : Env) (legacy : Dir → LegacySeriesMeta) (readOnly : Bool) (d : Dir) (s : Store) :
    (loadSeriesMetaSharedMode env legacy readOnly d).final s = s ∨
      Migratable legacy s d ∧
        ∃ m, (loadSeriesMetaSharedMode env legacy readOnly d).final s = exec (saveSteps env d m) s := by
  have hlook : (loadSeriesMetaSharedMode env legacy readOnly d).final s =
    (if !readOnly && (s.dirs d).manifest.isLegacy then do
      let m ← Prog.lift (migrateLegacyJson env.now (legacy d))
      let _ ← Prog.lift (encodeManifest m)
      saveSeriesMeta env d m
      pure m
    else Prog.lift (s.dirs d).loadSeriesMeta : Op SeriesMeta).final s := rfl
  rw [hlook]
  by_cases hmode : (!readOnly && (s.dirs d).manifest.isLegacy) = true
  · rw [if_pos hmode]
    simp only [Bool.and_eq_true, Bool.not_eq_true'] at hmode
    cases hmig : migrateLegacyJson env.now (legacy d) with
    | error e => exact .inl rfl
    | ok m =>
      rw [Prog.lift_ok_bind]
      cases henc : encodeManifest m with
      | error e => exact .inl rfl
      | ok bytes =>
        rw [Prog.lift_ok_bind]
        refine .inr ⟨⟨hmode.2, env.now, m, bytes, hmig, henc⟩, m, ?_⟩
        rw [Prog.final_bind_pure, Prog.final_of_run (saveSeriesMeta_run (migrateLegacyJson_valid hmig) s)]
  · rw [if_neg hmode]
    exact .inl rfl

/-- A load that may write migrates what can be migrated. -/
theorem load_migrates (h : Migratable legacy s d) :
    ∃ env m, ((loadSeriesMetaSharedMode env legacy false d).final s).dirs d = { s.dirs d
      with manifest := .current m } := by
  obtain ⟨hlegacy, now, m, bytes, hmig, henc⟩ := h
  refine ⟨Env.plain now, m, ?_⟩
  unfold loadSeriesMetaSharedMode
  rw [Prog.final_bind_ok (Prog.result_look s), Prog.final_look, hlegacy]
  simp only [Bool.not_false, Bool.and_self, if_true]
  rw [show (Env.plain now).now = now from rfl, hmig, Prog.lift_ok_bind, henc, Prog.lift_ok_bind, Prog.final_bind_pure,
    Prog.final_of_run (saveSeriesMeta_run (migrateLegacyJson_valid hmig) s), saveSteps_dir]

end Series

/-! ## What a sealing returns -/

section Fresh

variable {s : Store} {env : Env} {legacy : Dir → LegacySeriesMeta} {d : Dir} {ways : List Dir}

theorem sealChunks_settled : ∀ {cs : List ChunkMeta} {r : List ChunkMeta × Bool}, sealChunks cs = .ok r →
    ∀ c ∈ cs, c.state = .active ∨ c.state = .sealed
  | [], _, _ => fun _ hc => absurd hc List.not_mem_nil
  | c :: cs, r, h => by
    have hrest : (c.state = .active ∨ c.state = .sealed) ∧ ∃ r', sealChunks cs = .ok r' := by
      unfold sealChunks at h
      cases hcs : sealChunks cs with
      | error e =>
        rw [hcs] at h
        cases hc : c.state <;> rw [hc] at h <;> cases h
      | ok r' =>
        refine ⟨?_, r', rfl⟩
        cases hc : c.state <;> rw [hc] at h <;> first | exact .inl rfl | exact .inr rfl | cases h
    obtain ⟨hc, r', hr'⟩ := hrest
    intro a ha
    rcases List.mem_cons.1 ha with rfl | ha
    · exact hc
    · exact sealChunks_settled hr' a ha

theorem sealSeries_ok (h : (sealSeries env d).result s = .ok ()) :
    ∃ m, (s.dirs d).manifest = .current m ∧ m.validate = .ok () ∧ ∀ c ∈ m.chunks, c.state = .active ∨
      c.state = .sealed := by
  unfold sealSeries at h
  rw [Prog.result_bind_ok (Prog.result_look s), Prog.final_look] at h
  obtain ⟨m, hm, h⟩ := Prog.result_bind_eq_ok.1 h
  obtain ⟨hcurrent, hv⟩ := SeriesDir.loadSeriesMeta_eq_ok hm
  obtain ⟨r, hr, -⟩ := Prog.result_bind_eq_ok.1 h
  exact ⟨m, hcurrent, hv, sealChunks_settled hr⟩

/-- A loop of sealings that succeeds has found a settled manifest in every directory. -/
theorem sealAll_ok : ∀ {ds : List Dir} {s : Store}, ds.Nodup → (Prog.forEach (sealSeries env) ds).result s = .ok () →
    ∀ d ∈ ds, ∃ m, (s.dirs d).manifest = .current m ∧ m.validate = .ok () ∧ ∀ c ∈ m.chunks, c.state = .active ∨
      c.state = .sealed
  | [], _, _, _ => fun _ hd => absurd hd List.not_mem_nil
  | d :: ds, s, hn, h => by
    obtain ⟨hd, hds⟩ := List.nodup_cons.1 hn
    unfold Prog.forEach at h
    obtain ⟨_, hhead, htail⟩ := Prog.result_bind_eq_ok.1 h
    obtain ⟨m, hm, hv, hsettled⟩ := sealSeries_ok hhead
    have hother : ∀ e, e ≠ d → ((sealSeries env d).final s).dirs e = s.dirs e := by
      intro e he
      rcases sealSeries_run hm hv hsettled with ⟨hrun, -⟩ | hrun
      · rw [Prog.final_of_run hrun, exec_nil]
      · rw [Prog.final_of_run hrun]
        exact saveSteps_other env he _ s
    intro e he
    rcases List.mem_cons.1 he with rfl | he
    · exact ⟨m, hm, hv, hsettled⟩
    · have := sealAll_ok hds htail e he
      rwa [hother e (ne_of_mem_of_not_mem he hd)] at this

theorem saveSeriesMeta_pending (env : Env) (d : Dir) (m : SeriesMeta) (s : Store) :
    ((saveSeriesMeta env d m).final s).pending = s.pending := by
  cases hv : m.validate with
  | error e => rw [Prog.final_of_run (saveSeriesMeta_error hv s), exec_nil]
  | ok _ =>
    rw [Prog.final_of_run (saveSeriesMeta_run hv s)]
    rfl

theorem sealSeries_pending (env : Env) (d : Dir) (s : Store) (h : s.pending = false) :
    ((sealSeries env d).final s).pending = false := by
  unfold sealSeries
  refine Prog.final_bind_of (P := fun s : Store => s.pending = false) h (fun s' _ =>
    Prog.final_bind_of (P := fun s : Store => s.pending = false) h (fun m _ =>
    Prog.final_bind_of (P := fun s : Store => s.pending = false) h (fun r _ => ?_)))
  simp only [Prog.final_look, Prog.final_lift]
  split
  · rw [saveSeriesMeta_pending]
    exact h
  · exact h

/-- A recovery that succeeds has cleared the marker. -/
theorem startupRecoverMigrating_pending {report : RecoveryReport}
    (h : (startupRecoverMigrating env legacy).result s = .ok report) :
    ((startupRecoverMigrating env legacy).final s).pending = false := by
  unfold startupRecoverMigrating at h ⊢
  rw [Prog.result_bind_ok (Prog.result_look s), Prog.final_look] at h
  rw [Prog.final_bind_ok (Prog.result_look s), Prog.final_look]
  simp only at h ⊢
  rw [Prog.result_bind_ok (Prog.result_emit _ s)] at h
  rw [Prog.final_bind_ok (Prog.result_emit _ s)]
  split at h
  · rename_i hroot
    rw [if_pos hroot]
    obtain ⟨report', hdirs, -⟩ := Prog.result_bind_eq_ok.1 h
    rw [Prog.final_bind_ok hdirs]
    rfl
  · rename_i hroot
    rw [if_neg hroot]
    rfl

/-- **A sealing that succeeds** clears the marker and finalizes the directories that the walk finds, after a recovery.
-/
theorem sealLocked_ok (h : (sealLocked env legacy ways).result s = .ok ()) : ∃ t : Store, t.seriesRoot = true ∧
    SealedIn (discoverSeriesDirs env ways t) t ((sealLocked env legacy ways).final s) ∧
      ((sealLocked env legacy ways).final s).pending = false := by
  unfold sealLocked at h ⊢
  obtain ⟨report, hrec, h⟩ := Prog.result_bind_eq_ok.1 h
  rw [Prog.final_bind_ok hrec]
  have hpending := startupRecoverMigrating_pending hrec
  generalize (startupRecoverMigrating env legacy).final s = t at h hpending ⊢
  rw [Prog.result_bind_ok (Prog.result_look t), Prog.final_look] at h
  rw [Prog.final_bind_ok (Prog.result_look t), Prog.final_look]
  obtain ⟨reports, hscrub, h⟩ := Prog.result_bind_eq_ok.1 h
  rw [Prog.final_bind_ok hscrub, Prog.final_lift]
  rw [Prog.final_lift] at h
  by_cases hbad : (reports.isEmpty || reports.any (fun r => !r.validation.isClean)) = true
  · rw [if_pos hbad] at h
    cases h
  · rw [if_neg hbad] at h ⊢
    have hroot : t.seriesRoot = true := by
      by_contra hroot
      have hnil : discoverSeriesDirs env ways t = [] := by
        unfold discoverSeriesDirs
        rw [if_neg hroot]
      have hall := collect_eq_ok hscrub
      rw [hnil] at hall
      cases hall
      exact hbad rfl
    have hn := discoverSeriesDirs_nodup env ways t
    refine ⟨t, hroot, (sealAll_run env hn (sealAll_ok hn h)).2, ?_⟩
    exact Prog.forEach_final_of (P := fun s : Store => s.pending = false) hpending (fun d _ s hs =>
      sealSeries_pending env d s hs)

end Fresh

/-- A root as a sealing returns it. -/
structure SealedRoot (raw : Dir → List Nat) (sha : Sha256) (r : Root) (snapshot : SnapshotManifest) : Prop where
  pending : r.store.pending = false
  lockFile : r.lockFile = true
  kept : r.snapshot = some (.ok snapshot)
  inventory : collectFiles raw sha r.store = .ok snapshot.files
  version : snapshot.formatVersion = 1
  digest : sha.ofFiles snapshot.files = snapshot.digest
  current : ∀ env, ∀ d ∈ discoverSeriesDirs env r.ways r.store, (r.store.dirs d).manifest.isLegacy = false

section Sealed

variable {r r' t : Root} {env : Env} {legacy : Dir → LegacySeriesMeta} {raw : Dir → List Nat} {sha : Sha256}
    {snapshot : SnapshotManifest}

theorem Finalized.not_legacy {sd sd' : SeriesDir} (h : Finalized sd sd') : sd'.manifest.isLegacy = false := by
  obtain ⟨m, hm, -⟩ := h.settled
  rw [hm]
  rfl

/-- **The directories that the walk finds in a sealed root hold manifests of the current format.** -/
theorem sealSnapshot_sealedRoot (hs : r.snapshot = none) (h : r.sealSnapshot raw sha env legacy = (r', .ok snapshot)) :
    SealedRoot raw sha r' snapshot := by
  rcases Root.sealSnapshot_open hs env legacy raw sha with ⟨e, -, heq⟩ | ⟨hok, hfiles⟩
  · rw [heq] at h
    cases h
  · obtain ⟨t, hroot, hsealed, hpending⟩ := sealLocked_ok hok
    obtain ⟨files, hcollect⟩ : ∃ files, collectFiles raw sha ((sealLocked env legacy r.ways).final r.store) =
      .ok files := by
      unfold collectFiles
      rw [if_pos (hsealed.seriesRoot hroot)]
      exact ⟨_, rfl⟩
    have heq : r.sealSnapshot raw sha env legacy =
        (⟨(sealLocked env legacy r.ways).final r.store, r.ways, true, some (.ok ⟨1, sha.ofFiles files, files⟩)⟩,
          .ok ⟨1, sha.ofFiles files, files⟩) := by
      have hrun : sealLocked env legacy r.ways r.store = ((sealLocked env legacy r.ways).trace r.store, .ok ()) :=
        Prod.ext rfl hok
      have hcollect' : collectFiles raw sha (exec ((sealLocked env legacy r.ways).trace r.store) r.store) =
        .ok files := hcollect
      unfold Root.sealSnapshot Root.acquireWrite
      rw [hs]
      simp only [Option.isSome_none, Bool.false_eq_true, if_false]
      rw [hrun]
      simp only
      rw [hcollect']
      rfl
    rw [heq] at h
    obtain ⟨rfl, hsnap⟩ := Prod.ext_iff.1 h
    obtain rfl := Except.ok.inj hsnap
    refine ⟨hpending, rfl, rfl, hcollect, rfl, rfl, fun env' d hd => ?_⟩
    exact (hsealed.inside d ((hsealed.mem_collect hroot).1 hd)).not_legacy

/-- What public calls keep of a sealed root. -/
structure AsSealed (r t : Root) : Prop where
  same : SameSeries r.store t.store
  pending : t.store.pending = false
  lockFile : t.lockFile = true
  snapshot : t.snapshot = r.snapshot
  ways : t.ways = r.ways

/-- No series that a key names below `series/` holds JSON that a load turns into a manifest. -/
def Root.Migrated (legacy : Dir → LegacySeriesMeta) (r : Root) : Prop :=
  ∀ key : ScalarSeriesKey, leavesSeries key.dir = false → ¬ Migratable legacy r.store key.dir

theorem SealedRoot.isSome (h : SealedRoot raw sha r snapshot) : r.snapshot.isSome = true := by
  rw [h.kept]
  rfl

theorem SealedRoot.seriesRoot (h : SealedRoot raw sha r snapshot) : r.store.seriesRoot = true := by
  by_contra hroot
  have hfiles := h.inventory
  unfold collectFiles at hfiles
  rw [if_neg hroot] at hfiles
  cases hfiles

theorem SealedRoot.asSealed (h : SealedRoot raw sha r snapshot) : AsSealed r r :=
  ⟨.refl _, h.pending, h.lockFile, rfl, rfl⟩

/-- The lock refuses. -/
theorem AsSealed.acquireWrite (hr : SealedRoot raw sha r snapshot) (h : AsSealed r t) :
    t.acquireWrite = (t, .error (.invalidInput "sealed snapshot is read-only; create a new version")) := by
  have hlock : { t with lockFile := true } = t := by
    rw [← h.lockFile]
  unfold Root.acquireWrite
  rw [hlock, h.snapshot, hr.isSome]
  rfl

theorem AsSealed.locked {α : Type} (hr : SealedRoot raw sha r snapshot) (h : AsSealed r t) (p : Op α) :
    t.locked p = (t, .error (.invalidInput "sealed snapshot is read-only; create a new version")) := by
  unfold Root.locked
  rw [h.acquireWrite hr]

theorem AsSealed.call (hr : SealedRoot raw sha r snapshot) (h : AsSealed r t) (env : Env) (c : Call) (made : List Dir) :
    ∃ e, t.call env c made = (t, .error e) := by
  unfold Root.call
  rw [h.acquireWrite hr]
  cases c.check with
  | error e => exact ⟨e, rfl⟩
  | ok _ => exact ⟨_, rfl⟩

theorem AsSealed.acquireRead (h : AsSealed r t) : t.acquireRead = .ok () := by
  unfold Root.acquireRead
  rw [if_neg (by simp [h.lockFile])]

theorem AsSealed.withStore {s : Store} (h : AsSealed r t) (hsame : SameSeries r.store s)
    (hpending : s.pending = false) : AsSealed r { t with store := s } :=
  ⟨hsame, hpending, h.lockFile, h.snapshot, h.ways⟩

/-- **A load on a sealed root**: out of `series/` it may migrate JSON, and below it there is none. -/
theorem load_kept {s : Store} {d : Dir} (hroot : r.store.seriesRoot = true)
    (hsame : SameSeries r.store s ∧ s.pending = false) (hd : leavesSeries d = false → ¬ Migratable legacy r.store d)
    (env : Env) (readOnly : Bool) :
    SameSeries r.store ((loadSeriesMetaSharedMode env legacy readOnly d).final s) ∧
      ((loadSeriesMetaSharedMode env legacy readOnly d).final s).pending = false := by
  rcases load_cases env legacy readOnly d s with heq | ⟨hmig, m, heq⟩
  · rw [heq]
    exact hsame
  · rw [heq]
    by_cases hout : leavesSeries d = true
    · refine ⟨hsame.1.trans (sameSeries_saved ?_ hout env m), hsame.2⟩
      rw [hsame.1.seriesRoot]
      exact hroot
    · have hin : leavesSeries d = false := by simpa using hout
      refine absurd ⟨?_, hmig.2⟩ (hd hin)
      rw [← hsame.1.dirs d hin]
      exact hmig.1

/-- The directories that the walk finds are not among those that a load changes. -/
theorem AsSealed.walk_current (hr : SealedRoot raw sha r snapshot) (h : AsSealed r t) {d : Dir}
    (hd : d ∈ discoverSeriesDirs env t.ways t.store) :
    ¬ Migratable legacy r.store d := by
  rintro ⟨hlegacy, -⟩
  rw [h.ways] at hd
  rw [hr.current env d (h.same.collected hd)] at hlegacy
  cases hlegacy

/-- **The step lemma.** -/
theorem AsSealed.next (hr : SealedRoot raw sha r snapshot) (hmig : r.Migrated legacy) (h : AsSealed r t) (env : Env)
    (call : RootCall) :
    AsSealed r (call.run raw sha env legacy t).1 := by
  have hkept : SameSeries r.store t.store ∧ t.store.pending = false := ⟨h.same, h.pending⟩
  cases call with
  | openStore readOnly =>
    have : (t.openStore env legacy readOnly).1 = t := by
      unfold Root.openStore
      rw [h.acquireRead, h.pending]
      cases readOnly <;> rfl
    show AsSealed r (t.openStore env legacy readOnly).1
    rw [this]
    exact h
  | write readOnly c made =>
    cases readOnly with
    | true => exact h
    | false =>
      obtain ⟨e, heq⟩ := h.call hr env c made
      show AsSealed r (t.call env c made).1
      rw [heq]
      exact h
  | load readOnly cached key =>
    cases cached with
    | true => exact h
    | false =>
      have := load_kept hr.seriesRoot hkept (hmig key) env readOnly
      exact h.withStore this.1 this.2
  | listSeries readOnly =>
    have hround : ∀ d ∈ discoverSeriesDirs env t.ways t.store, ∀ s : Store, SameSeries r.store s ∧ s.pending = false →
        SameSeries r.store ((loadSeriesMetaSharedMode env legacy readOnly d).final s) ∧
          ((loadSeriesMetaSharedMode env legacy readOnly d).final s).pending = false :=
      fun _ hd _ hs => load_kept hr.seriesRoot hs (fun _ => h.walk_current hr hd) env readOnly
    have hloop := Prog.forEach_final_of (P := fun s : Store => SameSeries r.store s ∧
      s.pending = false) (f := fun d => do
      let _ ← loadSeriesMetaSharedMode env legacy readOnly d
      pure ()) hkept (fun d hd s hs => by
        rw [Prog.final_bind_pure]
        exact hround d hd s hs)
    exact h.withStore hloop.1 hloop.2
  | scrubStore options => exact h
  | recoverStore =>
    show AsSealed r (t.locked _).1
    rw [h.locked hr]
    exact h
  | previewRecovery =>
    have hquiet : (FastK.previewRecovery env).final t.store = t.store := by
      unfold Prog.final
      rw [preview_quiet]
      rfl
    simp only [RootCall.run, h.acquireRead]
    refine h.withStore ?_ ?_
    · rw [hquiet]
      exact h.same
    · rw [hquiet]
      exact h.pending
  | rebuildAllManifestsFromFs =>
    show AsSealed r (t.locked _).1
    rw [h.locked hr]
    exact h
  | explainOverlaps =>
    have hround : ∀ d ∈ discoverSeriesDirs env t.ways t.store, ∀ s : Store, SameSeries r.store s ∧ s.pending = false →
        SameSeries r.store ((explainDir env legacy d).final s) ∧
          ((explainDir env legacy d).final s).pending = false := by
      intro d hd s hs
      have hload : SameSeries r.store ((loadSeriesMetaSharedMode env legacy false d).final s) ∧
          ((loadSeriesMetaSharedMode env legacy false d).final s).pending = false :=
        load_kept hr.seriesRoot hs (fun _ => h.walk_current hr hd) env false
      unfold explainDir
      rw [Prog.final_bind_ok (Prog.result_look s), Prog.final_look]
      refine Prog.final_bind_of (P := fun s : Store => SameSeries r.store s ∧
        s.pending = false) hload (fun loaded _ => ?_)
      cases loaded with
      | ok m => exact hload
      | error e => exact Prog.final_bind_of (P := fun s : Store => SameSeries r.store s ∧
          s.pending = false) hload (fun _ _ => hload)
    have hloop := Prog.forEach_final_of (P := fun s : Store => SameSeries r.store s ∧
      s.pending = false) (f := fun d => do
      let _ ← explainDir env legacy d
      pure ()) hkept (fun d hd s hs => by
        rw [Prog.final_bind_pure]
        exact hround d hd s hs)
    exact h.withStore hloop.1 hloop.2
  | sealSnapshot =>
    show AsSealed r (t.sealSnapshot raw sha env legacy).1
    rw [Root.sealSnapshot_again (by rw [h.snapshot]; exact hr.isSome)]
    exact h
  | verifySnapshot expectedDigest => exact h

/-- **The run lemma.** -/
theorem Later.asSealed (hr : SealedRoot raw sha r snapshot) (hmig : r.Migrated legacy)
    (h : Later raw sha legacy r t) : AsSealed r t := by
  induction h with
  | here => exact hr.asSealed
  | next env call _ ih => exact ih.next hr hmig env call

/-- Every call that is there to change the store is refused. -/
theorem AsSealed.refuses (hr : SealedRoot raw sha r snapshot) (h : AsSealed r t) {call : RootCall}
    (hcall : call.mutates = true) (env : Env) :
    ∃ e, (call.run raw sha env legacy t).2 = .error e := by
  cases call with
  | write readOnly c made =>
    cases readOnly with
    | true =>
      simp only [RootCall.run, if_true]
      cases c.check with
      | error e => exact ⟨e, rfl⟩
      | ok _ => exact ⟨_, rfl⟩
    | false =>
      obtain ⟨e, heq⟩ := h.call hr env c made
      exact ⟨e, congrArg Prod.snd heq⟩
  | recoverStore => exact ⟨_, congrArg Prod.snd (h.locked hr _)⟩
  | rebuildAllManifestsFromFs => exact ⟨_, congrArg Prod.snd (h.locked hr _)⟩
  | openStore readOnly => cases hcall
  | load readOnly cached key => cases hcall
  | listSeries readOnly => cases hcall
  | scrubStore options => cases hcall
  | previewRecovery => cases hcall
  | explainOverlaps => cases hcall
  | sealSnapshot => cases hcall
  | verifySnapshot expectedDigest => cases hcall

/-- The snapshot verifies. -/
theorem AsSealed.verifies (hr : SealedRoot raw sha r snapshot) (h : AsSealed r t) :
    t.verifySnapshot raw sha (some snapshot.digest) = .ok snapshot := by
  unfold Root.verifySnapshot
  rw [h.acquireRead, h.pending, h.snapshot, hr.kept, h.same.collectFiles, hr.inventory]
  simp [hr.version, hr.digest]

/-- A root that stays as it is holds no manifest that the load of a handle would rewrite. -/
theorem StaysSealed.migrated (h : StaysSealed raw sha legacy r snapshot) : r.Migrated legacy := by
  intro key hin hmigratable
  obtain ⟨env', m, hload⟩ := load_migrates hmigratable
  have hsame := (h.same _ (.next env' (.load false false key) .here)).dirs key.dir hin
  have hmanifest := congrArg SeriesDir.manifest (hload.symm.trans hsame)
  have hlegacy := hmigratable.1
  rw [← hmanifest] at hlegacy
  cases hlegacy

/-- **A root stays as it was sealed exactly when no series that a key names holds a manifest of the first format**:
those are left that the walk of the sealing has not found. -/
theorem sealed_stays_iff (hs : r.snapshot = none) (h : r.sealSnapshot raw sha env legacy = (r', .ok snapshot)) :
    StaysSealed raw sha legacy r' snapshot ↔ r'.Migrated legacy := by
  have hr := sealSnapshot_sealedRoot hs h
  constructor
  · exact StaysSealed.migrated
  · intro hmig
    exact ⟨fun t ht call hcall env' => (ht.asSealed hr hmig).refuses hr hcall env', fun t ht =>
      (ht.asSealed hr hmig).same, fun t ht => (ht.asSealed hr hmig).verifies hr⟩

end Sealed

/-! ### JSON below another series -/

theorem sealed_stays_sample : ∃ r' snapshot, sampleSealing sampleDeltaRoot = (r', .ok snapshot) ∧
    StaysSealed (fun _ => []) sampleSha (fun _ => sampleLegacy) r' snapshot := by
  obtain ⟨snapshot, hok⟩ := sampleDeltaRoot_seals
  obtain ⟨hplain, -, hs, -⟩ := sampleDeltaRoot_run
  have hrun := hplain.unplain
  obtain ⟨B, hgood⟩ := hrun.ok.unsealed hs
  unfold sampleSealing at hok ⊢
  have hsealed := hrun.ok.sealedIn hok
  have heq : sampleDeltaRoot.sealSnapshot (fun _ => []) sampleSha (Env.plain 6) (fun _ => sampleLegacy) =
      ((sampleDeltaRoot.sealSnapshot (fun _ => []) sampleSha (Env.plain 6) (fun _ => sampleLegacy)).1,
        .ok snapshot) := by
    rw [← hok]
  refine ⟨_, snapshot, heq, (sealed_stays_iff hs heq).2 ?_⟩
  intro key _ hmig
  have hbefore := (hgood.dir key.dir).not_legacy
  have hafter := hmig.1
  rcases (hsealed.restated key.dir).manifest with hm | ⟨m, now, -, -, hm⟩
  · rw [hm, hbefore] at hafter
    cases hafter
  · rw [hm] at hafter
    cases hafter

def sampleNestedKey : ScalarSeriesKey := ⟨"X", klineCategory, "1m/old"⟩

/-- The series of `sampleDeltaRoot`, with JSON in a directory of its own. -/
def sampleNestedRoot : Root where
  store := (runCalls (Env.plain 5) sampleKlineCalls (Store.empty [])).modify sampleNestedKey.dir (fun sd =>
    { sd with manifest := .corrupt legacyRefused })
  ways := []
  lockFile := true
  snapshot := none

/-- A read rewrites the JSON of a sealed root. -/
theorem sealed_read_writes : ¬ ∀ (r r' : Root) (raw : Dir → List Nat) (sha : Sha256) (env : Env)
    (legacy : Dir → LegacySeriesMeta) (snapshot : SnapshotManifest), r.snapshot = none →
      r.sealSnapshot raw sha env legacy = (r', .ok snapshot) →
      StaysSealed raw sha legacy r' snapshot := by
  intro h
  have hres : (sealLocked (Env.plain 6) (fun _ => sampleLegacy) sampleNestedRoot.ways).result sampleNestedRoot.store =
    .ok () := by decide +kernel
  have hroot : ((sealLocked (Env.plain 6)
    (fun _ => sampleLegacy) sampleNestedRoot.ways).final sampleNestedRoot.store).seriesRoot = true := by
    decide +kernel
  have hlegacy : (((sealLocked (Env.plain 6)
    (fun _ => sampleLegacy) sampleNestedRoot.ways).final sampleNestedRoot.store).dirs
      sampleNestedKey.dir).manifest.isLegacy = true := by decide +kernel
  have hin : leavesSeries sampleNestedKey.dir = false := by decide +kernel
  obtain ⟨m, bytes, hm, hb⟩ : ∃ m bytes, migrateLegacyJson 6 sampleLegacy = .ok m ∧ encodeManifest m = .ok bytes := by
    have hok : ((migrateLegacyJson 6 sampleLegacy).bind encodeManifest).isOk = true := by decide +kernel
    cases hm : migrateLegacyJson 6 sampleLegacy with
    | error e =>
      rw [hm] at hok
      cases hok
    | ok m =>
      rw [hm] at hok
      cases hb : encodeManifest m with
      | error e =>
        rw [show (Except.ok m : Result SeriesMeta).bind encodeManifest = encodeManifest m from rfl, hb] at hok
        cases hok
      | ok bytes => exact ⟨m, bytes, rfl, hb⟩
  rcases Root.sealSnapshot_open (r := sampleNestedRoot) rfl (Env.plain 6) (fun _ => sampleLegacy)
    (fun _ => []) sampleSha with ⟨e, he, -⟩ | ⟨-, hfiles⟩
  · exact absurd (hres.symm.trans he) (by simp)
  · obtain ⟨snapshot, heq⟩ := hfiles hroot
    generalize (sealLocked (Env.plain 6) (fun _ => sampleLegacy) sampleNestedRoot.ways).final sampleNestedRoot.store =
      t at heq hlegacy
    exact (h _ _ _ _ _ _ _ rfl heq).migrated sampleNestedKey hin ⟨hlegacy, 6, m, bytes, hm, hb⟩

end FastK
