import FastK.Repair
/-!
# What a recovery reports

Recovery adopts a chunk file in one of two places: beside the tracked chunks, where it meets none of them, or in place
of those it meets. Both count it, the second alone lists its path.  So the paths of a report are those of the adopted
files exactly when none was adopted beside the others (`recoverSeriesDir_report_iff`).
-/
namespace FastK

open Spans Versioned

/-! ## Adopted files -/

/-- The candidates that a run adopts, in its order. -/
def adopted : List ChunkMeta → List ChunkMeta → List ChunkMeta
  | _, [] => []
  | chunks, x :: xs =>
    if ChunkAdopts chunks x then x :: adopted (adoptChunk chunks x) xs
    else adopted (adoptChunk chunks x) xs

/-- Those of them that take the place of another chunk. -/
def adoptedInPlace : List ChunkMeta → List ChunkMeta → List ChunkMeta
  | _, [] => []
  | chunks, x :: xs =>
    if ChunkAdopts chunks x ∧ ∃ c ∈ chunks, SpansMeet c x then x :: adoptedInPlace (adoptChunk chunks x) xs
    else adoptedInPlace (adoptChunk chunks x) xs

/-- At no step a candidate without a tracked path meets no tracked chunk. -/
def NoneBeside : List ChunkMeta → List ChunkMeta → Prop
  | _, [] => True
  | chunks, x :: xs => ((∃ c ∈ chunks, SpansMeet c x) ∨ ∃ c ∈ chunks, c.relativePath = x.relativePath) ∧
      NoneBeside (adoptChunk chunks x) xs

instance NoneBeside.decidable : ∀ chunks xs : List ChunkMeta, Decidable (NoneBeside chunks xs)
  | _, [] => isTrue trivial
  | chunks, x :: xs =>
    haveI := NoneBeside.decidable (adoptChunk chunks x) xs
    inferInstanceAs (Decidable (_ ∧ _))

/-- The number of adopted files grows with the report, and their paths are listed in order. -/
structure RecoveryReport.Adds (path : Dir) (r r' : RecoveryReport) (count : Nat) (listed : List ChunkMeta) : Prop where
  adoptedChunks : r'.adoptedChunks = r.adoptedChunks + count
  adoptedChunkPaths : r'.adoptedChunkPaths = r.adoptedChunkPaths ++ listed.map (fun c => (path, c.relativePath))
  rebuiltManifests : r'.rebuiltManifests = r.rebuiltManifests
  rebuiltManifestPaths : r'.rebuiltManifestPaths = r.rebuiltManifestPaths

section Adoption

variable {path : Dir} {r r' r'' : RecoveryReport} {chunks xs : List ChunkMeta} {x : ChunkMeta} {st : Adoption}

theorem RecoveryReport.SameActions.adds (h : r.SameActions r') (path : Dir) : r.Adds path r' 0 [] := by
  unfold RecoveryReport.SameActions at h
  rw [h]
  exact ⟨rfl, (List.append_nil _).symm, rfl, rfl⟩

theorem RecoveryReport.Adds.trans {n n' : Nat} {l l' : List ChunkMeta} (h : r.Adds path r' n l)
    (h' : r'.Adds path r'' n' l') :
    r.Adds path r'' (n + n') (l ++ l') where
  adoptedChunks := by rw [h'.adoptedChunks, h.adoptedChunks, Nat.add_assoc]
  adoptedChunkPaths := by rw [h'.adoptedChunkPaths, h.adoptedChunkPaths, List.map_append, List.append_assoc]
  rebuiltManifests := h'.rebuiltManifests.trans h.rebuiltManifests
  rebuiltManifestPaths := h'.rebuiltManifestPaths.trans h.rebuiltManifestPaths

/-- **One candidate**: an adopted one is counted, and listed where it meets a tracked chunk. -/
theorem adoptCandidate_adds (path : Dir) (h : ChunkAdopts st.chunks x) :
    st.report.Adds path (adoptCandidate path st x).report 1 (if ∃ c ∈ st.chunks, SpansMeet c x then [x] else []) := by
  have hname : ¬ (st.chunks.any (fun c => decide (c.relativePath = x.relativePath))) = true := by
    intro hany
    obtain ⟨c, hc, hp⟩ := List.any_eq_true.1 hany
    exact (h c hc).1 (of_decide_eq_true hp)
  unfold adoptCandidate
  rw [if_neg hname]
  simp only
  by_cases hmeet : ∃ c ∈ st.chunks, SpansMeet c x
  · obtain ⟨c, hc, hm⟩ := id hmeet
    have hmem : c ∈ st.chunks.filter (fun c => decide (SpansMeet c x)) := List.mem_filter.2 ⟨hc, decide_eq_true hm⟩
    rw [if_pos hmeet, if_neg (by simpa using List.ne_nil_of_mem hmem)]
    have hover : ∀ d ∈ st.chunks.filter (fun c => decide (SpansMeet c x)), d ∈ st.chunks ∧ SpansMeet d x := fun d hd =>
      ⟨(List.mem_filter.1 hd).1, of_decide_eq_true (List.mem_filter.1 hd).2⟩
    have hnew : ¬ ((st.chunks.filter (fun c => decide (SpansMeet c x))).any (fun c =>
      decide (x.generation ≤ c.generation))) = true := by
      intro hany
      obtain ⟨d, hd, hg⟩ := List.any_eq_true.1 hany
      exact absurd ((h d (hover d hd).1).2 (hover d hd).2).1 (not_lt.2 (of_decide_eq_true hg))
    have hwin := (winner_eq_newest_iff (fun d hd => (h d (hover d hd).1).1) (fun d hd =>
      ((h d (hover d hd).1).2 (hover d hd).2).1)).2
      (fun d hd => ((h d (hover d hd).1).2 (hover d hd).2).2)
    rw [if_neg hnew, if_pos hwin]
    exact ⟨rfl, rfl, rfl, rfl⟩
  · have hnone : st.chunks.filter (fun c => decide (SpansMeet c x)) = [] := by
      refine List.filter_eq_nil_iff.2 (fun c hc hm => hmeet ⟨c, hc, of_decide_eq_true hm⟩)
    rw [if_neg hmeet, hnone, List.isEmpty_nil, if_pos rfl]
    exact ⟨rfl, (List.append_nil _).symm, rfl, rfl⟩

/-- **A whole run**: every adopted file is counted, and those in the place of others are listed. -/
theorem foldl_adoptCandidate_adds (path : Dir) : ∀ (xs : List ChunkMeta) (st : Adoption),
    st.report.Adds path (xs.foldl (adoptCandidate path) st).report (adopted st.chunks xs).length
      (adoptedInPlace st.chunks xs)
  | [], st => ⟨rfl, (List.append_nil _).symm, rfl, rfl⟩
  | x :: xs, st => by
    have hrest := foldl_adoptCandidate_adds path xs (adoptCandidate path st x)
    rw [(adoptCandidate_refines path st x).1] at hrest
    rw [List.foldl_cons]
    unfold adopted adoptedInPlace
    by_cases h : ChunkAdopts st.chunks x
    · have hall := (adoptCandidate_adds path h).trans hrest
      rw [if_pos h, List.length_cons, Nat.add_comm]
      by_cases hmeet : ∃ c ∈ st.chunks, SpansMeet c x
      · rw [if_pos hmeet] at hall
        rw [if_pos ⟨h, hmeet⟩]
        exact hall
      · rw [if_neg hmeet] at hall
        rw [if_neg (fun hand => hmeet hand.2)]
        exact hall
    · have hall := ((adoptCandidate_passed path st h).2.2.adds path).trans hrest
      rw [if_neg h, if_neg (fun hand => h hand.1)]
      rw [Nat.zero_add, List.nil_append] at hall
      exact hall

theorem adoptedInPlace_sublist : ∀ (chunks xs : List ChunkMeta), (adoptedInPlace chunks xs).Sublist (adopted chunks xs)
  | _, [] => .slnil
  | chunks, x :: xs => by
    have ih := adoptedInPlace_sublist (adoptChunk chunks x) xs
    unfold adoptedInPlace adopted
    by_cases h : ChunkAdopts chunks x
    · by_cases hmeet : ∃ c ∈ chunks, SpansMeet c x
      · rw [if_pos ⟨h, hmeet⟩, if_pos h]
        exact ih.cons_cons x
      · rw [if_neg (fun hand => hmeet hand.2), if_pos h]
        exact ih.cons x
    · rw [if_neg (fun hand => h hand.1), if_neg h]
      exact ih

/-- **All adopted files are listed exactly when none comes beside the others.** -/
theorem adoptedInPlace_eq_iff : ∀ (chunks xs : List ChunkMeta), adoptedInPlace chunks xs = adopted chunks xs ↔
    NoneBeside chunks xs
  | _, [] => by simp [adoptedInPlace, adopted, NoneBeside]
  | chunks, x :: xs => by
    have ih := adoptedInPlace_eq_iff (adoptChunk chunks x) xs
    have hsub := adoptedInPlace_sublist (adoptChunk chunks x) xs
    unfold adoptedInPlace adopted NoneBeside
    by_cases h : ChunkAdopts chunks x
    · by_cases hmeet : ∃ c ∈ chunks, SpansMeet c x
      · rw [if_pos ⟨h, hmeet⟩, if_pos h, ← ih, List.cons.injEq]
        simp [hmeet]
      · rw [if_neg (fun hand => hmeet hand.2), if_pos h]
        constructor
        · intro heq
          have := hsub.length_le
          rw [heq, List.length_cons] at this
          omega
        · rintro ⟨hm | ⟨c, hc, hp⟩, -⟩
          · exact absurd hm hmeet
          · exact absurd hp (h c hc).1
    · rw [if_neg (fun hand => h hand.1), if_neg h, ih]
      refine (and_iff_right ?_).symm
      by_contra hno
      obtain ⟨hmeet, hpath⟩ := not_or.1 hno
      exact h (fun c hc => ⟨fun hp => hpath ⟨c, hc, hp⟩, fun hm => absurd ⟨c, hc, hm⟩ hmeet⟩)

end Adoption

/-! ## The report of a directory -/

/-- What a run of recovery adds to its report for the files it adopted and the manifests it rebuilt. -/
structure Reported (path : Dir) (r r' : RecoveryReport) (files : List ChunkMeta) (rebuilt : List Dir) : Prop where
  adoptedChunks : r'.adoptedChunks = r.adoptedChunks + files.length
  adoptedChunkPaths : r'.adoptedChunkPaths = r.adoptedChunkPaths ++ files.map (fun c => (path, c.relativePath))
  rebuiltManifests : r'.rebuiltManifests = r.rebuiltManifests + rebuilt.length
  rebuiltManifestPaths : r'.rebuiltManifestPaths = r.rebuiltManifestPaths ++ rebuilt

/-- The manifest a run of recovery works on, and the directories it was rebuilt for. -/
def recoveryManifest (now : Int) (path : Dir) (order : DirOrder) (sd : SeriesDir) : Result SeriesMeta × List Dir :=
  match sd.loadSeriesMeta with
  | .ok m => (.ok m, [])
  | .error _ => (rebuildManifest now path order sd, [path])

section Report

variable {now : Int} {path : Dir} {order : DirOrder} {options : RecoveryOptions} {sd : SeriesDir}
    {r r' : RecoveryReport} {saves : List SeriesMeta}
  {cs : List ChunkMeta} {m : SeriesMeta}

theorem recoverFrom_adds (h : (recoverFrom now path options cs m r).2 = .ok r') :
    r.Adds path r' (adopted (normalizeDanglingMergingStates m).1.chunks cs).length
      (adoptedInPlace (normalizeDanglingMergingStates m).1.chunks cs) := by
  have hadds := foldl_adoptCandidate_adds path cs
    ⟨(normalizeDanglingMergingStates m).1.chunks, (normalizeDanglingMergingStates m).2, r⟩
  have heq : (adoptAll path cs m r).report = r' := by
    unfold recoverFrom at h
    simp only at h
    split at h
    · split at h
      · cases h
      · exact Except.ok.inj h
    · exact Except.ok.inj h
  rw [← heq]
  exact hadds

/-- The files a run adopts. -/
def adoptedFiles (now : Int) (path : Dir) (order : DirOrder) (sd : SeriesDir) (cs : List ChunkMeta) : List ChunkMeta :=
  match (recoveryManifest now path order sd).1 with
  | .ok m => adopted (normalizeDanglingMergingStates m).1.chunks cs
  | .error _ => []

/-- What a run adds, once the manifest is there. -/
theorem Adds.reported_iff {chunks : List ChunkMeta} {r₁ : RecoveryReport} {rebuilt : List Dir}
    (hadds : r₁.Adds path r' (adopted chunks cs).length (adoptedInPlace chunks cs))
    (hfiles : r₁.adoptedChunks = r.adoptedChunks ∧ r₁.adoptedChunkPaths = r.adoptedChunkPaths)
    (hrebuilt : r₁.rebuiltManifests = r.rebuiltManifests + rebuilt.length ∧
      r₁.rebuiltManifestPaths = r.rebuiltManifestPaths ++ rebuilt) :
    Reported path r r' (adopted chunks cs) rebuilt ↔ NoneBeside chunks cs := by
  rw [← adoptedInPlace_eq_iff]
  constructor
  · intro h
    have hpaths := h.adoptedChunkPaths
    rw [hadds.adoptedChunkPaths, hfiles.2, List.append_cancel_left_eq] at hpaths
    have hlen := congrArg List.length hpaths
    rw [List.length_map, List.length_map] at hlen
    exact (adoptedInPlace_sublist chunks cs).eq_of_length hlen
  · intro heq
    refine ⟨?_, ?_, ?_, ?_⟩
    · rw [hadds.adoptedChunks, hfiles.1]
    · rw [hadds.adoptedChunkPaths, hfiles.2, heq]
    · rw [hadds.rebuiltManifests, hrebuilt.1]
    · rw [hadds.rebuiltManifestPaths, hrebuilt.2]

/-- **A report names the adopted files exactly when none is adopted beside the tracked chunks.** -/
theorem recoverSeriesDir_report_iff (hscan : scanChunkFiles order sd = .ok cs)
    (hrun : recoverSeriesDir now path order options sd r = (saves, .ok r')) :
    Reported path r r' (adoptedFiles now path order sd cs)
    (if cs.isEmpty then [] else (recoveryManifest now path order sd).2) ↔
      ∀ m, (recoveryManifest now path order sd).1 = .ok m →
        NoneBeside (normalizeDanglingMergingStates m).1.chunks cs := by
  unfold recoverSeriesDir at hrun
  rw [hscan] at hrun
  simp only at hrun
  by_cases hnil : cs = []
  · subst hnil
    rw [List.isEmpty_nil, if_pos rfl] at hrun
    obtain rfl := Except.ok.inj (Prod.mk.inj hrun).2
    have hnone : adoptedFiles now path order sd [] = [] := by
      unfold adoptedFiles
      split <;> rfl
    rw [hnone]
    exact ⟨fun _ _ _ => trivial, fun _ => ⟨rfl, (List.append_nil _).symm, rfl, (List.append_nil _).symm⟩⟩
  · have hcs : ¬ cs.isEmpty = true := by simpa using hnil
    rw [if_neg hcs] at hrun ⊢
    cases hload : sd.loadSeriesMeta with
    | ok m =>
      have hm : recoveryManifest now path order sd = (.ok m, []) := by
        unfold recoveryManifest
        rw [hload]
      rw [hload] at hrun
      have hfiles : adoptedFiles now path order sd cs = adopted (normalizeDanglingMergingStates m).1.chunks cs := by
        unfold adoptedFiles
        rw [hm]
      rw [hm, hfiles, (Adds.reported_iff (recoverFrom_adds (congrArg Prod.snd hrun)) ⟨rfl, rfl⟩
        ⟨rfl, (List.append_nil _).symm⟩)]
      constructor
      · intro h m' hm'
        obtain rfl := Except.ok.inj hm'
        exact h
      · exact fun h => h m rfl
    | error e =>
      rw [hload] at hrun
      simp only at hrun
      cases hbuild : rebuildManifest now path order sd with
      | error e' =>
        rw [hbuild] at hrun
        cases (Prod.mk.inj hrun).2
      | ok m =>
        rw [hbuild] at hrun
        have hm : recoveryManifest now path order sd = (.ok m, [path]) := by
          unfold recoveryManifest
          rw [hload, hbuild]
        have hfiles : adoptedFiles now path order sd cs = adopted (normalizeDanglingMergingStates m).1.chunks cs := by
          unfold adoptedFiles
          rw [hm]
        have hadds := recoverFrom_adds (Prod.mk.inj hrun).2
        rw [hm, hfiles, Adds.reported_iff (r := r) hadds ⟨rfl, rfl⟩ ⟨rfl, rfl⟩]
        constructor
        · intro h m' hm'
          obtain rfl := Except.ok.inj hm'
          exact h
        · exact fun h => h m rfl

/-- The run of recovery on a directory, where it succeeds. -/
theorem recoverSeriesDir_runs (sd : SeriesDir) (hscan : (scanChunkFiles .asListed sd).isOk = true)
    (hrun : (recoverSeriesDir 5 ["X", "kline", "1m"] .asListed ⟨false⟩ sd (.start ⟨false⟩)).2.isOk = true) :
    ∃ cs saves r', scanChunkFiles .asListed sd = .ok cs ∧ recoverSeriesDir 5 ["X", "kline",
      "1m"] .asListed ⟨false⟩ sd (.start ⟨false⟩) = (saves, .ok r') := by
  cases hcs : scanChunkFiles .asListed sd with
  | error e => rw [hcs] at hscan; cases hscan
  | ok cs =>
    cases hr : recoverSeriesDir 5 ["X", "kline", "1m"] .asListed ⟨false⟩ sd (.start ⟨false⟩) with
    | mk saves result =>
      cases result with
      | error e => rw [hr] at hrun; cases hrun
      | ok r' => exact ⟨cs, saves, r', rfl, rfl⟩

/-- The merged file takes the place of the chunk it was merged from, and is listed. -/
theorem recoverSeriesDir_report_sample :
    ∃ cs saves r', recoverSeriesDir 5 ["X", "kline", "1m"] .asListed ⟨false⟩ sampleStoppedMerge (.start ⟨false⟩) =
      (saves, .ok r') ∧
    Reported ["X", "kline", "1m"]
    (.start ⟨false⟩) r' (adoptedFiles 5 ["X", "kline", "1m"] .asListed sampleStoppedMerge cs)
      (if cs.isEmpty then [] else (recoveryManifest 5 ["X", "kline", "1m"] .asListed sampleStoppedMerge).2) := by
  obtain ⟨cs, saves, r', hscan, hrun⟩ :=
    recoverSeriesDir_runs sampleStoppedMerge (by decide +kernel) (by decide +kernel)
  refine ⟨cs, saves, r', hrun, (recoverSeriesDir_report_iff hscan hrun).2 (fun m hm => ?_)⟩
  have hnone : (match (recoveryManifest 5 ["X", "kline", "1m"] .asListed sampleStoppedMerge).1,
    scanChunkFiles .asListed sampleStoppedMerge with
    | .ok m, .ok cs => decide (NoneBeside (normalizeDanglingMergingStates m).1.chunks cs)
    | _, _ => false) = true := by decide +kernel
  rw [hm, hscan] at hnone
  exact of_decide_eq_true hnone

/-- Under a manifest without chunks the files are adopted, and counted, but none is listed. -/
def sampleUnlisted : SeriesDir := { sampleStoppedMerge with manifest := .current (sampleMeta []) }

theorem report_misses_files : ¬ ∀ (now : Int) (path : Dir) (order : DirOrder) (options : RecoveryOptions)
    (sd : SeriesDir) (r r' : RecoveryReport) (saves : List SeriesMeta)
    (cs : List ChunkMeta), scanChunkFiles order sd = .ok cs →
      recoverSeriesDir now path order options sd r = (saves, .ok r') →
    Reported path r r' (adoptedFiles now path order sd cs)
    (if cs.isEmpty then [] else (recoveryManifest now path order sd).2) := by
  intro hall
  obtain ⟨cs, saves, r', hscan, hrun⟩ := recoverSeriesDir_runs sampleUnlisted (by decide +kernel) (by decide +kernel)
  have hrep := hall _ _ _ _ _ _ _ _ _ hscan hrun
  have hcounts : (match (recoverSeriesDir 5 ["X", "kline", "1m"] .asListed ⟨false⟩ sampleUnlisted (.start ⟨false⟩)).2
    with
    | .ok r => decide (r.adoptedChunks ≠ r.adoptedChunkPaths.length)
    | .error _ => false) = true := by decide +kernel
  rw [hrun] at hcounts
  refine of_decide_eq_true hcounts ?_
  rw [hrep.adoptedChunks, hrep.adoptedChunkPaths, List.length_append, List.length_map]
  rfl

end Report

end FastK
