import FastK.Lib.Triples
import FastK.Interrupted
import FastK.Rerun
import FastK.Temps
/-!
# What stopped calls leave

Whatever calls were made and wherever they were stopped, a store keeps its files in order (`Store.Sane`): chunk names
are those of complete chunk files, manifests pass their check, and a temporary file below `chunks/` passes for a
sidecar of no chunk.  Each operation takes sound steps only (`Call.run_safe`), so the invariant holds in every store a
run of stopped calls reaches (`CrashRun.sane`).
-/
namespace FastK

open Journal Spans

/-- A store after any calls, each of them stopped anywhere. -/
inductive CrashRun (root : Dir) : Store → Prop where
  | start : CrashRun root (Store.empty root)
  | stop (env : Env) (c : Call) {s t : Store} (h : CrashRun root s) (hstop : Stopped (c.run env) s t) : CrashRun root t

/-! ## Names of temporary files -/

/-- The name passes for that of a sidecar, but of no chunk. -/
def Stray (temp : Text) : Prop := isSidecarName temp = true ∧
    ∃ e, parentChunkRelativePath (chunkRelativePath temp) = .error e

theorem tempNameFor_eq (env : Env) (name : Text) : tempNameFor env name = (name ++ '.' :: showNat env.nanos) ++
    '.' :: "tmp".toList := by
  unfold tempNameFor words
  rw [show ".".toList = ['.'] from rfl, show ".tmp".toList = '.' :: "tmp".toList from rfl]
  simp only [List.flatten_cons, List.flatten_nil, List.append_nil, List.append_assoc, List.cons_append, List.nil_append]

theorem isChunkName_tmp (a : Text) : isChunkName (a ++ '.' :: "tmp".toList) = false := by
  rw [isChunkName, Bool.eq_false_iff]
  intro h
  have hs : ('.' :: "tmp".toList) <:+ chunkSuffix :=
    List.suffix_of_suffix_length_le (List.suffix_append _ _) (Text.endsWith_iff.1 h) (by decide)
  exact absurd hs (by decide)

/-- A text that ends with a number does not end as a chunk name does. -/
theorem endsWith_showNat (a : Text) (n : Nat) : Text.endsWith (a ++ showNat n) chunkSuffix = false := by
  rw [Bool.eq_false_iff]
  intro h
  obtain ⟨l, hl⟩ := Text.endsWith_iff.1 h
  have hne : showNat n ≠ [] := List.length_pos_iff.1 (@Nat.length_toDigits_pos 10 n)
  have hlast : (showNat n).getLast? = some 'k' := by
    have hk := congrArg List.getLast? hl
    rw [List.getLast?_append_of_ne_nil _ hne, List.getLast?_append_of_ne_nil _ (show chunkSuffix ≠ [] by decide)] at hk
    exact hk.symm
  have hdigit : 'k'.isDigit = true := Nat.isDigit_of_mem_toDigits (by decide) (by decide) (List.mem_of_getLast? hlast)
  exact absurd hdigit (by decide)

theorem chunkRelativePath_append (a b : Text) : chunkRelativePath (a ++ b) = chunkRelativePath a ++ b := by
  unfold chunkRelativePath
  rw [List.append_assoc]

theorem parent_of_tempName (env : Env) (name : Text) :
    ∃ e, parentChunkRelativePath (chunkRelativePath (tempNameFor env name)) = .error e := by
  have hend := endsWith_showNat (chunkRelativePath (name ++ ['.'])) env.nanos
  rw [← chunkRelativePath_append, List.append_assoc, List.singleton_append] at hend
  have htmp : '.' ∉ "tmp".toList := by decide
  rw [tempNameFor_eq, chunkRelativePath_append]
  unfold parentChunkRelativePath
  rw [Text.rsplitOnce_append htmp]
  simp only
  rw [hend]
  exact ⟨_, rfl⟩

/-- **The temporary file of a chunk or a sidecar is taken for a sidecar, and belongs to no chunk.** -/
theorem stray_tempName (env : Env) {name : Text} (h : ".chunk.".toList <:+: name ++ ['.']) :
    Stray (tempNameFor env name) := by
  refine ⟨?_, parent_of_tempName env name⟩
  rw [tempNameFor_eq]
  unfold isSidecarName
  rw [isChunkName_tmp, Bool.not_false, Bool.true_and]
  refine Text.contains_iff.2 (h.trans ⟨[], showNat env.nanos ++ '.' :: "tmp".toList, ?_⟩)
  rw [List.nil_append, List.append_assoc, List.append_assoc, List.singleton_append, List.cons_append]

theorem infix_of_chunkName {name : Text} (h : isChunkName name = true) : ".chunk.".toList <:+: name ++ ['.'] := by
  obtain ⟨l, rfl⟩ := Text.endsWith_iff.1 h
  exact ⟨l, [], by simp [chunkSuffix]⟩

theorem infix_of_sidecar {name : Text} (h : isSidecarName name = true) : ".chunk.".toList <:+: name ++ ['.'] := by
  unfold isSidecarName at h
  rw [Bool.and_eq_true] at h
  exact (Text.contains_iff.1 h.2).trans (List.prefix_append _ _).isInfix

/-! ## The invariant -/

/-- A file that fits its name. -/
structure Filing (name : Text) (body : FileBody) : Prop where
  chunk : isChunkName name = true → ∃ f, body = .chunk f ∧ CompleteChunk f
  sidecar : isSidecarName name = true → ∃ parent, parentChunkRelativePath (chunkRelativePath name) = .ok parent

/-- No chunk of the manifest is empty. -/
def Filled (m : SeriesMeta) : Prop := ∀ c ∈ m.chunks, 0 < c.count

/-- A manifest as a stopped call leaves it. -/
structure SeriesMeta.Sane (m : SeriesMeta) : Prop where
  valid : m.validate = .ok ()
  filled : Filled m

/-- A directory as a stopped call leaves it. -/
structure SeriesDir.Sane (sd : SeriesDir) : Prop where
  files : ∀ p ∈ sd.files, Filing p.1 p.2
  dir : sd.files ≠ [] → sd.chunksDir = true
  manifest : sd.manifest = .missing ∨ ∃ m, sd.manifest = .current m ∧ m.Sane

/-- The temporary file is that of a manifest, or lies in a `chunks` directory and passes for a sidecar. -/
def Store.TempOk (s : Store) (d : Dir) (temp : Text) : Prop := isManifestTemp temp = true ∨ Stray temp ∧
    (s.dirs d).chunksDir = true

/-- A store as stopped calls leave it. -/
structure Store.Sane (s : Store) : Prop where
  dirs : ∀ d, (s.dirs d).Sane
  temps : ∀ t ∈ s.temps, s.TempOk t.1 t.2
  rooted : s.Rooted

/-- The steps that keep it. -/
def IoStep.Sound (s : Store) : IoStep → Prop
  | .stage d temp => s.TempOk d temp
  | .publish _ name _ body => Filing name body
  | .publishManifest _ _ m => m.Sane
  | _ => True

theorem SeriesDir.Sane.empty : SeriesDir.empty.Sane := ⟨by simp [SeriesDir.empty], by simp [SeriesDir.empty], .inl rfl⟩

theorem Store.Sane.empty (root : Dir) : (Store.empty root).Sane :=
  ⟨fun _ => .empty, by simp [Store.empty], ⟨fun _ _ => rfl, fun h => absurd rfl h⟩⟩

theorem SeriesDir.Sane.put {sd : SeriesDir} (h : sd.Sane) {name : Text} {body : FileBody} (hf : Filing name body) :
    (sd.put name body).Sane where
  files p hp := by
    rcases mem_put.1 hp with rfl | ⟨-, hp⟩
    · exact hf
    · exact h.files p hp
  dir _ := rfl
  manifest := h.manifest

theorem SeriesDir.Sane.remove {sd : SeriesDir} (h : sd.Sane) (path : Text) : (sd.remove path).Sane where
  files p hp := h.files p (List.mem_filter.1 hp).1
  dir hne := h.dir (fun hnil => hne (by
    show sd.files.filter _ = []
    rw [hnil]
    rfl))
  manifest := h.manifest

/-- What a sound step does to a directory. -/
theorem SeriesDir.Sane.step {k : IoStep} {s : Store} (hk : k.Sound s) (d : Dir) {sd : SeriesDir} (h : sd.Sane) :
    (k.onDir d sd).Sane := by
  cases k with
  | makeChunksDir e =>
    by_cases he : d = e
    · rw [IoStep.onDir, if_pos he]
      exact ⟨h.files, fun _ => rfl, h.manifest⟩
    · rw [IoStep.onDir, if_neg he]
      exact h
  | publish e name temp body =>
    by_cases he : d = e
    · rw [IoStep.onDir, if_pos he]
      exact h.put hk
    · rw [IoStep.onDir, if_neg he]
      exact h
  | publishManifest e temp m =>
    by_cases he : d = e
    · rw [IoStep.onDir, if_pos he]
      exact ⟨h.files, h.dir, .inr ⟨m, rfl, hk⟩⟩
    · rw [IoStep.onDir, if_neg he]
      exact h
  | removeFile e path =>
    by_cases he : d = e
    · rw [IoStep.onDir, if_pos he]
      exact h.remove path
    · rw [IoStep.onDir, if_neg he]
      exact h
  | _ => exact h

theorem onDir_chunksDir (k : IoStep) (d : Dir) {sd : SeriesDir} (h : sd.chunksDir = true) :
    (k.onDir d sd).chunksDir = true := by
  cases k with
  | makeChunksDir e =>
    rw [IoStep.onDir]
    split
    · rfl
    · exact h
  | publish e name temp body =>
    rw [IoStep.onDir]
    split
    · rfl
    · exact h
  | publishManifest e temp m =>
    rw [IoStep.onDir]
    split <;> exact h
  | removeFile e path =>
    rw [IoStep.onDir]
    split <;> exact h
  | _ => exact h

theorem Store.TempOk.step {s : Store} {d : Dir} {temp : Text} (h : s.TempOk d temp) (k : IoStep) :
    (Journal.Store.apply k s).TempOk d temp :=
  h.imp_right (fun hs => ⟨hs.1, by
    rw [apply_dirs]
    exact onDir_chunksDir k d hs.2⟩)

/-- The temporary files after a step: those before it, and the one that it stages. -/
theorem mem_temps_apply {k : IoStep} {s : Store} {t : Dir × Text} (h : t ∈ (Journal.Store.apply k s).temps) :
    t ∈ s.temps ∨ k = .stage t.1 t.2 := by
  cases k with
  | stage d temp =>
    rcases List.mem_append.1 (show t ∈ s.temps ++ [(d, temp)] from h) with h | h
    · exact .inl h
    · rw [List.mem_singleton.1 h]
      exact .inr rfl
  | publish d name temp body => exact .inl (List.mem_of_mem_erase (show t ∈ s.temps.erase (d, temp) from h))
  | publishManifest d temp m => exact .inl (List.mem_of_mem_erase (show t ∈ s.temps.erase (d, temp) from h))
  | removeTemps => exact absurd (show t ∈ [] from h) List.not_mem_nil
  | arm => exact .inl h
  | disarm => exact .inl h
  | makeSeriesRoot => exact .inl h
  | makeChunksDir d => exact .inl h
  | removeFile d path => exact .inl h

/-- **Sound steps keep a store in order.** -/
theorem keeps_sane : Keeps Store.Sane IoStep.Sound := fun s k hs hk =>
  ⟨fun d => by
    rw [apply_dirs]
    exact (hs.dirs d).step hk d,
  fun t ht => by
    rcases mem_temps_apply ht with hm | rfl
    · exact (hs.temps t hm).step k
    · exact Store.TempOk.step hk _,
  apply_rooted k hs.rooted⟩

/-! ## Recovery of a directory -/

/-- There are chunk files and no manifest, and none can be rebuilt from them. -/
def Unrebuildable (env : Env) (path : Dir) (sd : SeriesDir) : Prop :=
  (∃ p ∈ sd.files, isChunkName p.1 = true) ∧ sd.manifest = .missing ∧
    ∃ e, rebuildManifest env.now path env.order sd = .error e

/-- The report of a dry run that did the same. -/
def RecoveryReport.dry (report : RecoveryReport) : RecoveryReport := { report with dryRun := true }

def Adoption.dry (st : Adoption) : Adoption := { st with report := st.report.dry }

/-- A directory in order can be scanned. -/
theorem SeriesDir.Sane.scan {sd : SeriesDir} (h : sd.Sane) (order : DirOrder) :
    ∃ cs, scanChunkFiles order sd = .ok cs ∧ (∀ c ∈ cs, Readable c ∧ 0 < c.count) ∧
      (cs ≠ [] ↔ ∃ p ∈ sd.files, isChunkName p.1 = true) := by
  by_cases hdir : sd.chunksDir = false
  · have hnil : sd.files = [] := by
      by_contra hne
      rw [h.dir hne] at hdir
      cases hdir
    refine ⟨[], if_pos hdir, by simp, ?_⟩
    simp [hnil]
  · have hscan : Scannable sd := ⟨by simpa using hdir, fun p hp hn => (h.files p hp).chunk hn, fun p hp hn =>
      (h.files p hp).sidecar hn⟩
    obtain ⟨cs, hcs, hfrom, hall, -⟩ := scanChunkFiles_ok hscan order
    refine ⟨cs, hcs, fun c hc => ?_, fun hne => ?_, ?_⟩
    · obtain ⟨p, -, -, hs⟩ := hfrom c hc
      refine ⟨hs.readable, ?_⟩
      obtain ⟨f, key, sidecars, -, hf, -, -, rfl⟩ := hs
      exact hf.count_pos
    · obtain ⟨c, hc⟩ := List.exists_mem_of_ne_nil cs hne
      obtain ⟨p, hp, hn, -⟩ := hfrom c hc
      exact ⟨p, hp, hn⟩
    · rintro ⟨p, hp, hn⟩
      obtain ⟨c, hc, -⟩ := hall p hp hn
      exact List.ne_nil_of_mem hc

theorem adoptCandidate_dry (path : Dir) (st : Adoption) (c : ChunkMeta) :
    adoptCandidate path st.dry c = (adoptCandidate path st c).dry := by
  unfold adoptCandidate Adoption.dry RecoveryReport.dry
  simp only
  split
  · rfl
  · split
    · rfl
    · split
      · rfl
      · split <;> rfl

theorem adoptAll_dry (path : Dir) (candidates : List ChunkMeta) (m : SeriesMeta) (report : RecoveryReport) :
    adoptAll path candidates m report.dry = (adoptAll path candidates m report).dry := by
  show candidates.foldl (adoptCandidate path)
    (Adoption.dry ⟨(normalizeDanglingMergingStates m).1.chunks, (normalizeDanglingMergingStates m).2, report⟩) = _
  rw [List.foldl_hom Adoption.dry (adoptCandidate_dry path)]
  rfl

/-- **Recovery of a sane manifest**: it saves sane manifests, and a dry run reports the same. -/
theorem SeriesMeta.Sane.recoverFrom {m : SeriesMeta} (h : m.Sane) (now : Int) (path : Dir) {candidates : List ChunkMeta}
    (hc : ∀ c ∈ candidates, Readable c ∧ 0 < c.count) (report : RecoveryReport) :
    ∃ saves report', FastK.recoverFrom now path ⟨false⟩ candidates m report = (saves, .ok report') ∧
      (∀ m' ∈ saves, m'.Sane) ∧
      FastK.recoverFrom now path ⟨true⟩ candidates m report.dry = ([], .ok report'.dry) := by
  have hread : ∀ c ∈ candidates, Readable c := fun c hm => (hc c hm).1
  have hcons := (consistent_settled h.valid h.filled).foldl hread
  obtain ⟨saves, report', hrun, hsaves⟩ := recoverFrom_ok now path report h.valid h.filled hread
  have hreport : report' = (adoptAll path candidates m report).report := by
    unfold FastK.recoverFrom at hrun
    simp only at hrun
    split at hrun
    · split at hrun
      · cases hrun
      · exact (Except.ok.inj (Prod.mk.inj hrun).2).symm
    · exact (Except.ok.inj (Prod.mk.inj hrun).2).symm
  refine ⟨saves, report', hrun, fun m' hm' => ?_, ?_⟩
  · rcases hsaves with ⟨rfl, -⟩ | rfl
    · cases hm'
    · obtain rfl := List.mem_singleton.1 hm'
      refine ⟨recoveredMeta_validate h.valid hcons, fun c hm => ?_⟩
      rcases mem_foldl_adopt ((mem_sortByKey _).1 hm) with hm | hm
      · obtain ⟨a, ha, rfl⟩ := List.mem_map.1 hm
        rw [(sameChunk_settle m.activeChunkId a).count]
        exact h.filled a ha
      · exact (hc c hm).2
  · unfold FastK.recoverFrom
    simp only [adoptAll_dry, Bool.not_true, Bool.and_false, hreport]
    rfl

section Rebuilding

variable {now : Int} {path : Dir} {order : DirOrder} {options : RecoveryOptions} {sd : SeriesDir}
    {report : RecoveryReport} {cs : List ChunkMeta}
  {e e' : FastKError}

theorem recoverSeriesDir_unrebuilt (hcs : scanChunkFiles order sd = .ok cs) (hne : cs ≠ [])
    (hload : sd.loadSeriesMeta = .error e) (hre : rebuildManifest now path order sd = .error e') :
    recoverSeriesDir now path order options sd report = ([], .error e') := by
  unfold recoverSeriesDir
  rw [hcs]
  simp only
  rw [if_neg (by simpa using hne), hload]
  simp only
  rw [hre]

/-- Recovery goes on from the manifest that it has rebuilt. -/
theorem recoverSeriesDir_rebuilt {m : SeriesMeta} (hcs : scanChunkFiles order sd = .ok cs) (hne : cs ≠ [])
    (hload : sd.loadSeriesMeta = .error e) (hre : rebuildManifest now path order sd = .ok m) :
    recoverSeriesDir now path order options sd report =
      ((if options.dryRun then [] else [m]) ++ (recoverFrom now path options cs m { report with
          rebuiltManifests := report.rebuiltManifests + 1, rebuiltManifestPaths :=
  report.rebuiltManifestPaths ++ [path] }).1,
        (recoverFrom now path options cs m { report with
          rebuiltManifests := report.rebuiltManifests + 1, rebuiltManifestPaths :=
            report.rebuiltManifestPaths ++ [path] }).2) := by
  unfold recoverSeriesDir
  rw [hcs]
  simp only
  rw [if_neg (by simpa using hne), hload]
  simp only
  rw [hre]

end Rebuilding

/-- **A directory in order is recovered unless its manifest is lost for good**, and a dry run finds out the same. -/
theorem SeriesDir.Sane.recover {sd : SeriesDir} (h : sd.Sane) (env : Env) (path : Dir) (report : RecoveryReport) :
    Unrebuildable env path sd ∧ (∃ e, recoverSeriesDir env.now path env.order ⟨false⟩ sd report = ([], .error e)) ∧
        (∃ e, recoverSeriesDir env.now path env.order ⟨true⟩ sd report.dry = ([], .error e)) ∨
      ¬ Unrebuildable env path sd ∧ ∃ saves report', recoverSeriesDir env.now path env.order ⟨false⟩ sd report =
        (saves, .ok report') ∧
        (∀ m ∈ saves, m.Sane) ∧ recoverSeriesDir env.now path env.order ⟨true⟩ sd report.dry =
          ([], .ok report'.dry) := by
  obtain ⟨cs, hcs, hgood, hfiles⟩ := h.scan env.order
  by_cases hnil : cs = []
  · subst hnil
    refine .inr ⟨fun hun => hfiles.2 hun.1 rfl, [], report, recoverSeriesDir_nil hcs, by simp, recoverSeriesDir_nil hcs⟩
  rcases h.manifest with hm | ⟨m, hm, hsane⟩
  · have hload : sd.loadSeriesMeta = .error (.notFound "series meta not found: series.meta") := by
      unfold SeriesDir.loadSeriesMeta
      rw [hm]
    cases hre : rebuildManifest env.now path env.order sd with
    | error e =>
      exact .inl ⟨⟨hfiles.1 hnil, hm, e, hre⟩, ⟨e, recoverSeriesDir_unrebuilt hcs hnil hload hre⟩, e,
        recoverSeriesDir_unrebuilt hcs hnil hload hre⟩
    | ok m =>
      obtain ⟨hv, hmem, -⟩ := rebuildManifest_eq_ok hcs hre
      have hsane : m.Sane := ⟨hv, fun c hc => (hgood c (hmem c hc)).2⟩
      obtain ⟨saves, report', hreal, hsaves, hdry⟩ := hsane.recoverFrom env.now path hgood { report with
        rebuiltManifests := report.rebuiltManifests + 1, rebuiltManifestPaths := report.rebuiltManifestPaths ++ [path] }
      refine .inr ⟨fun ⟨_, _, e, he⟩ => (by rw [hre] at he; cases he), [m] ++ saves, report', ?_, fun m' hm' => ?_, ?_⟩
      · rw [recoverSeriesDir_rebuilt hcs hnil hload hre, hreal]
        rfl
      · rcases List.mem_append.1 hm' with hm' | hm'
        · rw [List.mem_singleton.1 hm']
          exact hsane
        · exact hsaves m' hm'
      · rw [recoverSeriesDir_rebuilt hcs hnil hload hre]
        exact Prod.ext (congrArg Prod.fst hdry) (congrArg Prod.snd hdry)
  · have hload := SeriesDir.loadSeriesMeta_ok hm hsane.valid
    obtain ⟨saves, report', hreal, hsaves, hdry⟩ := hsane.recoverFrom env.now path hgood report
    refine .inr ⟨fun ⟨_, hno, _⟩ => (by rw [hm] at hno; cases hno), saves, report', ?_, hsaves, ?_⟩
    · rw [recoverSeriesDir_of_manifest hcs hnil hload, hreal]
    · rw [recoverSeriesDir_of_manifest hcs hnil hload, hdry]

/-- Recovery of a directory in order saves sane manifests. -/
theorem SeriesDir.Sane.saves {sd : SeriesDir} (h : sd.Sane) (env : Env) (path : Dir) (report : RecoveryReport) :
    ∀ m ∈ (recoverSeriesDir env.now path env.order ⟨false⟩ sd report).1, m.Sane := by
  rcases h.recover env path report with ⟨-, ⟨e, hrun⟩, -⟩ | ⟨-, saves, report', hrun, hsaves, -⟩
  · rw [hrun]
    exact fun _ hm => nomatch hm
  · rw [hrun]
    exact hsaves

/-! ## The programs of the store -/

/-- The program takes sound steps. -/
abbrev Safe {α : Type} (Q : α → Prop) (p : Op α) : Prop := Guarded Store.Sane IoStep.Sound Q p

section Programs

variable {env : Env} {d : Dir} {α β : Type}

theorem safe_bind {Q : α → Prop} {R : β → Prop} {p : Op α} {f : α → Op β} (hp : Safe Q p)
    (hf : ∀ a, Q a → Safe R (f a)) : Safe R (p >>= f) :=
  guarded_bind keeps_sane hp hf

theorem arm_safe : Safe (fun _ => True) (Prog.emit .arm) := guarded_emit (fun _ _ => trivial)

theorem disarm_safe : Safe (fun _ => True) (Prog.emit .disarm) := guarded_emit (fun _ _ => trivial)

theorem makeChunksDir_safe (d : Dir) : Safe (fun _ => True) (Prog.emit (.makeChunksDir d)) :=
  guarded_emit (fun _ _ => trivial)

/-- A file is staged where a `chunks` directory has just been made, then renamed. -/
theorem publish_allowed {name : Text} {body : FileBody} (hn : ".chunk.".toList <:+: name ++ ['.'])
    (hf : Filing name body) (s : Store) :
    Allowed IoStep.Sound [.makeChunksDir d, .stage d (tempNameFor env name),
      .publish d name (tempNameFor env name) body] s :=
  ⟨trivial, .inr ⟨stray_tempName env hn, by
    rw [apply_dirs, IoStep.onDir, if_pos rfl]⟩, hf, trivial⟩

theorem atomicWriteNew_safe {name : Text} {body : FileBody} (hn : ".chunk.".toList <:+: name ++ ['.'])
    (hf : Filing name body) :
    Safe (fun _ => True) (atomicWriteNew env d name body) := by
  intro s _
  refine ⟨?_, fun _ _ => trivial⟩
  unfold atomicWriteNew Prog.trace
  rw [Prog.emit_bind, Prog.look_bind]
  by_cases hfile : ((Journal.Store.apply (.makeChunksDir d) s).dirs d).hasFile name = true
  · rw [if_pos hfile]
    exact ⟨trivial, trivial⟩
  · rw [if_neg hfile]
    exact publish_allowed hn hf s

theorem atomicWriteReplace_safe {name : Text} {body : FileBody} (hn : ".chunk.".toList <:+: name ++ ['.'])
    (hf : Filing name body) :
    Safe (fun _ => True) (atomicWriteReplace env d name body) :=
  fun s _ => ⟨publish_allowed hn hf s, fun _ _ => trivial⟩

theorem isManifestTemp_tempName (env : Env) : isManifestTemp (tempNameFor env manifestFile) = true :=
  List.isPrefixOf_iff_prefix.2 (List.prefix_append _ _)

theorem publishManifest_safe (h : m.Sane) : Safe (fun _ => True) (do
    Prog.emit (.stage d (tempNameFor env manifestFile))
    Prog.emit (.publishManifest d (tempNameFor env manifestFile) m) : Op Unit) :=
  safe_bind (guarded_emit (fun _ _ => .inl (isManifestTemp_tempName env))) (fun _ _ => guarded_emit (fun _ _ => h))

theorem saveSeriesMeta_safe {m : SeriesMeta} (h : Filled m) : Safe (fun _ => True) (saveSeriesMeta env d m) :=
  safe_bind (guarded_check _) (fun _ hv => publishManifest_safe ⟨hv, h⟩)

theorem removeFiles_safe (paths : List Text) : Safe (fun _ => True) (removeFiles env d paths) :=
  guarded_forEach keeps_sane paths (fun _ _ => guarded_ite (fun _ => guarded_pure trivial) (fun _ =>
    guarded_emit (fun _ _ => trivial)))

theorem publishManifests_safe {saves : List SeriesMeta} (h : ∀ m ∈ saves, m.Sane) : Safe (fun _ => True)
    (publishManifests env d saves) :=
  guarded_forEach keeps_sane saves (fun m hm => publishManifest_safe (h m hm))

theorem recoverDirs_safe : ∀ (ds : List Dir) (report : RecoveryReport), Safe (fun _ => True) (recoverDirs env ds report)
  | [], _ => guarded_pure trivial
  | d :: ds, report => by
    unfold recoverDirs
    exact safe_bind guarded_look (fun s hs =>
      safe_bind (publishManifests_safe ((hs.dirs d).saves env _ report)) (fun _ _ =>
      safe_bind (guarded_check _) (fun report' _ => recoverDirs_safe ds report')))

theorem startupRecoverLocked_safe : Safe (fun _ => True) (startupRecoverLocked env) := by
  unfold startupRecoverLocked
  refine safe_bind guarded_look (fun s _ => safe_bind (guarded_emit (fun _ _ => trivial)) (fun _ _ =>
    guarded_ite (fun _ => ?_) (fun _ => ?_)))
  · exact safe_bind (recoverDirs_safe _ _) (fun _ _ => safe_bind disarm_safe (fun _ _ => guarded_pure trivial))
  · exact safe_bind disarm_safe (fun _ _ => guarded_pure trivial)

theorem beginMutation_safe : Safe (fun _ => True) (beginMutation env) :=
  safe_bind guarded_look (fun _ _ => guarded_ite
    (fun _ => safe_bind startupRecoverLocked_safe (fun _ _ => guarded_pure trivial)) (fun _ => guarded_pure trivial))

theorem initLocked_safe : Safe (fun _ => True) (initLocked env) :=
  safe_bind (guarded_emit (fun _ _ => trivial)) (fun _ _ => safe_bind startupRecoverLocked_safe (fun _ _ =>
    guarded_pure trivial))

theorem ensureSeriesRoot_safe : Safe (fun _ => True) (ensureSeriesRoot env) :=
  safe_bind guarded_look (fun _ _ => guarded_ite (fun _ => guarded_pure trivial) (fun _ => initLocked_safe))

end Programs

/-! ## Chunks and manifests of a write -/

section Edits

variable {m m' : SeriesMeta} {c : ChunkMeta} {now : Int} {key : Text}

theorem filled_of_nil (h : m.chunks = []) : Filled m := by
  unfold Filled
  rw [h]
  simp

theorem mem_replaceById {d : ChunkMeta} : ∀ {l : List ChunkMeta}, d ∈ replaceById c l → d = c ∨ d ∈ l
  | [], h => nomatch h
  | a :: as, h => by
    unfold replaceById at h
    split at h
    · exact (List.mem_cons.1 h).imp_right (List.mem_cons_of_mem a)
    · rcases List.mem_cons.1 h with rfl | h
      · exact .inr List.mem_cons_self
      · exact (mem_replaceById h).imp_right (List.mem_cons_of_mem a)

theorem Filled.upsert (h : Filled m) (hc : 0 < c.count) (hu : upsertChunkMeta now m c = .ok m') : Filled m' := by
  obtain ⟨-, rfl⟩ := checked_eq_ok.1 hu
  intro d hd
  have hmem : d = c ∨ d ∈ m.chunks := by
    have hd' := (mem_sortByKey _).1 hd
    split at hd'
    · exact mem_replaceById hd'
    · rw [List.mem_append, List.mem_singleton] at hd'
      exact hd'.symm
  rcases hmem with rfl | hm
  · exact hc
  · exact h d hm

theorem Filled.replaceMonth {r : SeriesMeta × List ChunkMeta} (h : Filled m) (hc : 0 < c.count)
    (hr : replaceMonthChunks now m key c = .ok r) :
    Filled r.1 := by
  unfold replaceMonthChunks at hr
  simp only at hr
  split at hr
  · cases hr
  · rename_i m' hm'
    obtain ⟨-, rfl⟩ := checked_eq_ok.1 hm'
    rw [← Except.ok.inj hr]
    intro d hd
    rcases List.mem_append.1 ((mem_sortByKey _).1 hd) with hm | hm
    · exact h d (List.mem_filter.1 hm).1
    · rw [List.mem_singleton.1 hm]
      exact hc

theorem Filled.commitScalar {r : SeriesMeta × List ChunkMeta} (h : Filled m) (hc : 0 < c.count)
    (hr : FastK.commitScalar now m key c = .ok r) :
    Filled r.1 := by
  unfold FastK.commitScalar at hr
  split at hr
  · cases hu : upsertChunkMeta now m c with
    | error e =>
      rw [hu] at hr
      cases hr
    | ok m' =>
      rw [hu] at hr
      rw [← Except.ok.inj hr]
      exact h.upsert hc hu
  · exact h.replaceMonth hc hr

theorem Filled.activate (h : Filled m) (c : ChunkMeta) : Filled (FastK.activate c m) := by
  unfold FastK.activate
  split <;> exact h

theorem Filled.markMerging (h : Filled m) (key : Text) : Filled (FastK.markMerging key m) := by
  intro d hd
  obtain ⟨a, ha, rfl⟩ := List.mem_map.1 hd
  split
  · exact h a ha
  · exact h a ha

theorem Filled.refreshed (h : Filled m) (h' : Filled m') (callKey : Text) : Filled (FastK.refreshed callKey m m') := by
  unfold FastK.refreshed
  split
  · exact h'
  · exact h

/-- A cached manifest has no empty chunk. -/
def FilledCache (cached : Option SeriesMeta) : Prop := ∀ m, cached = some m → Filled m

theorem filledCache_none : FilledCache none := fun _ h => nomatch h

theorem filledCache_some (h : Filled m) : FilledCache (some m) := fun _ hm => Option.some.inj hm ▸ h

theorem metaFor_filled {cached : Option SeriesMeta} {sd : SeriesDir} (hc : FilledCache cached) (hs : sd.Sane)
    (h : metaFor cached sd = .ok m) :
    Filled m := by
  cases cached with
  | some m' => exact hc m (congrArg some (Except.ok.inj h))
  | none =>
    obtain ⟨hm, -⟩ := SeriesDir.loadSeriesMeta_eq_ok h
    rcases hs.manifest with hno | ⟨m', hm', hsane⟩
    · rw [hno] at hm
      cases hm
    · obtain rfl := ManifestFile.current.inj (hm'.symm.trans hm)
      exact hsane.filled

theorem klineChunk_complete {rows : List KlineRecord} {name : Text} {o : WriteChunkOptions} {f : ChunkFile}
    (hplan : PlanFor m' key name o) (h : klineChunk m rows o = .ok (f, c)) : CompleteChunk f ∧ 0 < c.count := by
  obtain ⟨k, hs, ha⟩ := klineChunk_assembled h
  obtain ⟨_, hassemble⟩ := ha.assembled
  exact complete_of_assemble hplan.generation_lt hplan.every ha.ordered ha.ne_nil
    (partitionKey_ok (monthKey_eq _ ▸ singleMonth_first hs)).1 hassemble

theorem scalarChunk_complete {rows : List ScalarRecord} {name : Text} {o : WriteChunkOptions} {f : ChunkFile}
    (hplan : PlanFor m key name o) (h : scalarChunk m rows o = .ok (f, c)) : CompleteChunk f ∧ 0 < c.count := by
  obtain ⟨k, hs, ha⟩ := scalarChunk_assembled h
  obtain ⟨_, hassemble⟩ := ha.assembled
  exact complete_of_assemble hplan.generation_lt hplan.every ha.ordered ha.ne_nil
    (partitionKey_ok (monthKey_eq _ ▸ singleMonth_first hs)).1 hassemble

theorem fixedChunk_complete {R : Type} [FixedRecord R] {rows : List R} {u : PartitionUnit} {name : Text}
    {o : WriteChunkOptions} {f : ChunkFile} (hplan : PlanFor m key name o) (h : fixedChunk m rows u o = .ok (f, c)) :
    CompleteChunk f ∧ 0 < c.count := by
  obtain ⟨k, hk, -, ha⟩ := fixedChunk_assembled h
  obtain ⟨_, hassemble⟩ := ha.assembled
  exact complete_of_assemble hplan.generation_lt hplan.every ha.ordered ha.ne_nil (partitionKey_ok hk).1 hassemble

theorem filing_chunk {name : Text} {f : ChunkFile} (hn : isChunkName name = true) (hf : CompleteChunk f) :
    Filing name (.chunk f) :=
  ⟨fun _ => ⟨f, rfl, hf⟩, fun hs => by rw [isSidecarName_of_chunk hn] at hs; cases hs⟩

theorem filing_sidecar {name ext : Text} {body : FileBody} (hn : isChunkName name = true) (he : '.' ∉ ext)
    (hc : isChunkName (sidecarRelativePath name ext) = false) : Filing (sidecarRelativePath name ext) body :=
  ⟨(fun h => by rw [hc] at h; cases h), fun _ => ⟨_, parent_of_sidecar hn he⟩⟩

end Edits

/-! ## Writes -/

section Writes

variable {env : Env} {d : Dir} {m : SeriesMeta} {cached : Option SeriesMeta}

theorem loadMeta_safe (hc : FilledCache cached) : Safe Filled (loadMeta cached d) :=
  safe_bind guarded_look (fun _ hs => guarded_lift (fun _ h => metaFor_filled hc (hs.dirs d) h))

theorem loadExisting_safe (hc : FilledCache cached) : Safe FilledCache (loadExisting cached d) :=
  safe_bind guarded_look (fun _ hs =>
    guarded_lift (fun _ h _ ho => metaFor_filled hc (hs.dirs d) (existingMeta_eq_ok h ho)))

theorem createSeries_safe (h : Filled m) : Safe Filled (createSeries env d m) :=
  safe_bind arm_safe (fun _ _ => safe_bind (makeChunksDir_safe d) (fun _ _ => safe_bind (saveSeriesMeta_safe h)
    (fun _ _ => safe_bind disarm_safe (fun _ _ => guarded_pure h))))

theorem registerKlineSeriesLocked_safe {symbol timeframe : Text} {timeframeMs priceScale volumeScale : Int} :
    Safe Filled (registerKlineSeriesLocked env symbol timeframe timeframeMs priceScale volumeScale) := by
  unfold registerKlineSeriesLocked
  refine safe_bind guarded_look (fun s _ => guarded_ite (fun _ => ?_) (fun _ => createSeries_safe (filled_of_nil rfl)))
  exact safe_bind (loadMeta_safe filledCache_none) (fun existing h => safe_bind (guarded_check _) (fun _ _ =>
    guarded_pure h))

theorem registerScalarSeriesLocked_safe {key : ScalarSeriesKey} {timeframeMs : Int} :
    Safe Filled (registerScalarSeriesLocked env key timeframeMs) := by
  unfold registerScalarSeriesLocked
  refine safe_bind guarded_look (fun s _ => guarded_ite (fun _ => ?_) (fun _ => createSeries_safe (filled_of_nil rfl)))
  exact safe_bind (loadMeta_safe filledCache_none) (fun existing h => guarded_ite (fun _ => guarded_fail _) (fun _ =>
    guarded_pure h))

theorem registerFixedSeries_safe {k : FixedKind} {symbol channel : Text} {timeframeMs : Int} {unit : PartitionUnit} :
    Safe (fun _ => True) (registerFixedSeries env k symbol channel timeframeMs unit) := by
  unfold registerFixedSeries
  refine guarded_ite (fun _ => guarded_fail _) (fun _ => safe_bind beginMutation_safe (fun _ _ =>
    safe_bind guarded_look (fun s _ => ?_)))
  refine guarded_ite (fun _ => ?_) (fun _ => ?_)
  · exact safe_bind (loadMeta_safe filledCache_none) (fun existing _ => (guarded_check _).weaken (fun _ _ => trivial))
  · exact safe_bind (createSeries_safe (filled_of_nil rfl)) (fun _ _ => guarded_pure trivial)

theorem mergeKlineMonthLocked_safe {symbol timeframe key : Text} (h : Filled m) :
    Safe Filled (mergeKlineMonthLocked env symbol timeframe key m) := by
  unfold mergeKlineMonthLocked
  refine guarded_ite (fun _ => guarded_pure h) (fun _ => safe_bind guarded_look (fun s _ =>
    safe_bind (guarded_check _) (fun rows _ => ?_)))
  refine safe_bind (guarded_check _) (fun _ _ => safe_bind (guarded_check _) (fun _ _ => ?_))
  refine safe_bind (saveSeriesMeta_safe (h.markMerging key)) (fun _ _ => safe_bind (guarded_check _) (fun fc hfc => ?_))
  obtain ⟨hf, hpos⟩ := klineChunk_complete (replaceOptions_plan (m := m) (mergeOutputState_ready _)) hfc
  have hname : isChunkName (replaceOptions m (m.chunksForPartition key) key
    (mergeOutputState (m.chunksForPartition key))).1 = true :=
    mergedFileName_endsWith key _
  refine safe_bind (atomicWriteNew_safe (infix_of_chunkName hname) (filing_chunk hname hf)) (fun _ _ => ?_)
  refine safe_bind (guarded_lift (fun r hr => (h.markMerging key).replaceMonth hpos hr)) (fun r hr => ?_)
  exact safe_bind (saveSeriesMeta_safe hr) (fun _ _ => safe_bind (removeFiles_safe _) (fun _ _ => guarded_pure hr))

theorem putKlineChunkLocked_safe {policy : CompactionPolicy} {symbol timeframe : Text} {records : List KlineRecord}
    (hc : FilledCache cached) :
    Safe Filled (putKlineChunkLocked env policy symbol timeframe records cached) := by
  unfold putKlineChunkLocked
  refine safe_bind (loadMeta_safe hc) (fun m hm => safe_bind (guarded_check _) (fun _ _ =>
    safe_bind (guarded_check _) (fun key hkey => ?_)))
  refine safe_bind (guarded_check _) (fun no hno =>
    safe_bind arm_safe (fun _ _ => safe_bind (guarded_check _) (fun fc hfc => ?_)))
  obtain ⟨hplan, -⟩ := appendOptions_plan (monthChunkFileName_eq hkey) hno
  obtain ⟨hf, hpos⟩ := klineChunk_complete hplan hfc
  have hname := hplan.named.isChunkName
  refine safe_bind (atomicWriteNew_safe (infix_of_chunkName hname) (filing_chunk hname hf)) (fun _ _ => ?_)
  refine safe_bind (guarded_lift (fun m' hu => hm.upsert hpos hu)) (fun m' hm' => ?_)
  have hend : ∀ m'' : SeriesMeta, Filled m'' → Safe Filled (do
      Prog.emit .disarm
      pure (refreshed (seriesCacheKey symbol klineCategory timeframe) m m'') : Op SeriesMeta) := fun m'' h =>
    safe_bind disarm_safe (fun _ _ => guarded_pure (hm.refreshed h _))
  have hact := hm'.activate fc.2
  refine safe_bind (saveSeriesMeta_safe hact) (fun _ _ => guarded_ite (fun _ => ?_) (fun _ => ?_))
  · exact safe_bind (mergeKlineMonthLocked_safe hact) hend
  · exact safe_bind (guarded_pure hact) hend

theorem buildScalarSidecars_safe {name : Text} (hn : isChunkName name = true) (c : ChunkMeta)
    (records : List ScalarRecord) (blockSize : Nat) :
    Safe (fun _ => True) (buildScalarSidecars env d name c records blockSize) := by
  have hz : isSidecarName (sidecarRelativePath name zmapKind) = true := isSidecarName_of hn (isChunkName_zmap name)
  have hv : isSidecarName (sidecarRelativePath name vixKind) = true := isSidecarName_of hn (isChunkName_vix name)
  exact safe_bind (guarded_check _) (fun _ _ =>
    safe_bind (atomicWriteReplace_safe (infix_of_sidecar hz) (filing_sidecar hn (by decide) (isChunkName_zmap name)))
      (fun _ _ =>
    safe_bind (atomicWriteReplace_safe (infix_of_sidecar hv) (filing_sidecar hn (by decide) (isChunkName_vix name)))
      (fun _ _ =>
    guarded_pure trivial)))

theorem scalarManifest_filled {now : Int} {key : ScalarSeriesKey} {timeframeMs : Int} {sd : SeriesDir}
    (hc : FilledCache cached) (hs : sd.Sane) (h : scalarManifest now key timeframeMs cached sd = .ok m) : Filled m := by
  unfold scalarManifest at h
  split at h
  · split at h
    · cases h
    · rename_i m' hm'
      split at h
      · cases h
      · rw [← Except.ok.inj h]
        exact metaFor_filled hc hs hm'
  · rw [← Except.ok.inj h]
    exact filled_of_nil rfl

theorem putScalarChunkLocked_safe {key : ScalarSeriesKey} {timeframeMs : Int} {records : List ScalarRecord}
    {blockSize : Nat} (hc : FilledCache cached) :
    Safe Filled (putScalarChunkLocked env key timeframeMs records blockSize cached) := by
  unfold putScalarChunkLocked
  refine safe_bind guarded_look (fun s hs =>
    safe_bind (guarded_lift (fun _ h => scalarManifest_filled hc (hs.dirs key.dir) h)) (fun m hm => ?_))
  refine safe_bind (guarded_check _) (fun _ _ => safe_bind (guarded_check _) (fun month hmonth => ?_))
  refine safe_bind (guarded_check _) (fun no hno =>
    safe_bind arm_safe (fun _ _ => safe_bind (guarded_check _) (fun fc hfc => ?_)))
  obtain rfl := Except.ok.inj ((scalarOptions_eq hmonth m).symm.trans hno)
  have hplan := scalarPlan_plan m month
  obtain ⟨hf, hpos⟩ := scalarChunk_complete hplan hfc
  have hname := hplan.named.isChunkName
  refine safe_bind (atomicWriteNew_safe (infix_of_chunkName hname) (filing_chunk hname hf)) (fun _ _ => ?_)
  refine safe_bind (buildScalarSidecars_safe hname _ _ _) (fun sidecars _ => ?_)
  refine safe_bind (guarded_lift (fun r hr => hm.commitScalar (c := { fc.2 with sidecars := sidecars }) hpos hr))
    (fun r hr => ?_)
  refine safe_bind (saveSeriesMeta_safe hr) (fun _ _ => safe_bind (removeFiles_safe _) (fun _ _ => ?_))
  exact safe_bind disarm_safe (fun _ _ => guarded_pure (hm.refreshed hr _))

theorem appendScalarChunkLocked_safe {key : ScalarSeriesKey} {timeframeMs : Int} {records : List ScalarRecord}
    {blockSize : Nat} (hc : FilledCache cached) :
    Safe Filled (appendScalarChunkLocked env key timeframeMs records blockSize cached) :=
  safe_bind (guarded_check _) (fun _ _ => safe_bind (loadExisting_safe hc) (fun _ he =>
    safe_bind guarded_look (fun _ _ =>
    safe_bind (guarded_check _) (fun _ _ => putScalarChunkLocked_safe he))))

theorem writeMonths_safe {R : Type} {write : List R → Option SeriesMeta → Op SeriesMeta}
    (hw : ∀ rows c, FilledCache c → Safe Filled (write rows c)) :
    ∀ (months : List (Text × List R)) (cached : Option SeriesMeta) (completed : List Text), FilledCache cached →
      Safe (fun _ => True) (writeMonths write cached completed months)
  | [], _, _, _ => guarded_pure trivial
  | (_, rows) :: rest, cached, _, hc =>
    safe_bind (guarded_mapError (hw rows cached hc)) (fun _ hm => writeMonths_safe hw rest _ _ (filledCache_some hm))

theorem appendKlineRange_safe {policy : CompactionPolicy} {symbol timeframe : Text} {records : List KlineRecord}
    {timeframeMs priceScale volumeScale : Int} :
    Safe (fun _ => True) (appendKlineRange env policy symbol timeframe records timeframeMs priceScale volumeScale) := by
  unfold appendKlineRange
  refine safe_bind (guarded_check _) (fun _ _ => safe_bind (guarded_check _) (fun months _ =>
    safe_bind beginMutation_safe (fun _ _ => ?_)))
  refine safe_bind (loadExisting_safe filledCache_none) (fun existing he => safe_bind (guarded_check _) (fun _ _ =>
    safe_bind (guarded_check _) (fun _ _ => ?_)))
  refine safe_bind ensureSeriesRoot_safe (fun _ _ => ?_)
  have hmonths : ∀ m, Filled m →
    Safe (fun _ => True) (writeMonths (putKlineChunkLocked env policy symbol timeframe) (some m) [] months) :=
    fun m hm => writeMonths_safe (fun rows c hc => putKlineChunkLocked_safe hc) months (some m) [] (filledCache_some hm)
  cases existing with
  | some m => exact safe_bind (guarded_pure (he m rfl)) (fun m hm => safe_bind (hmonths m hm) (fun _ _ =>
      guarded_pure trivial))
  | none => exact safe_bind registerKlineSeriesLocked_safe (fun m hm => safe_bind (hmonths m hm) (fun _ _ =>
      guarded_pure trivial))

theorem appendScalarRange_safe {key : ScalarSeriesKey} {records : List ScalarRecord} {timeframeMs : Option Int} :
    Safe (fun _ => True) (appendScalarRange env key records timeframeMs) := by
  unfold appendScalarRange
  refine safe_bind (guarded_check _) (fun _ _ => safe_bind (guarded_check _) (fun months _ =>
    safe_bind beginMutation_safe (fun _ _ => ?_)))
  refine safe_bind (loadExisting_safe filledCache_none) (fun existing he => safe_bind guarded_look (fun s _ =>
    safe_bind (guarded_check _) (fun tf _ => ?_)))
  refine safe_bind (guarded_check _) (fun _ _ => safe_bind ensureSeriesRoot_safe (fun _ _ => ?_))
  have hmonths : ∀ m, Filled m → Safe (fun _ => True)
      (writeMonths (fun rows cached => appendScalarChunkLocked env key tf rows defaultScalarZmapBlockSize cached)
        (some m) [] months) :=
    fun m hm => writeMonths_safe
      (fun rows c hc => appendScalarChunkLocked_safe hc) months (some m) [] (filledCache_some hm)
  cases existing with
  | some m => exact safe_bind (guarded_pure (he m rfl)) (fun m hm => safe_bind (hmonths m hm) (fun _ _ =>
      guarded_pure trivial))
  | none => exact safe_bind registerScalarSeriesLocked_safe (fun m hm => safe_bind (hmonths m hm) (fun _ _ =>
      guarded_pure trivial))

theorem appendFixedPartitions_safe {R : Type} [FixedRecord R] {unit : PartitionUnit} :
    ∀ (batches : List (Text × List R)) (m : SeriesMeta),
    Filled m → Safe Filled (appendFixedPartitions env d unit m batches)
  | [], _, h => guarded_pure h
  | (key, rows) :: rest, m, h => by
    unfold appendFixedPartitions
    refine safe_bind (guarded_check _) (fun no hno => safe_bind (guarded_check _) (fun fc hfc => ?_))
    obtain ⟨hplan, -⟩ := appendOptions_plan rfl hno
    obtain ⟨hf, hpos⟩ := fixedChunk_complete hplan hfc
    have hname := hplan.named.isChunkName
    refine safe_bind (atomicWriteNew_safe (infix_of_chunkName hname) (filing_chunk hname hf)) (fun _ _ => ?_)
    exact safe_bind (guarded_lift (fun m' hu => h.upsert hpos hu)) (fun m' hm' =>
      appendFixedPartitions_safe rest _ (hm'.activate fc.2))

theorem putFixedChunk_safe {k : FixedKind} {symbol channel : Text} {records : List k.Row} :
    Safe (fun _ => True) (putFixedChunk env k symbol channel records) := by
  unfold putFixedChunk
  refine safe_bind (guarded_check _) (fun _ _ => safe_bind beginMutation_safe (fun _ _ =>
    safe_bind (loadMeta_safe filledCache_none) (fun m hm => ?_)))
  refine safe_bind (guarded_check _) (fun ub _ =>
    safe_bind arm_safe (fun _ _ => safe_bind (makeChunksDir_safe _) (fun _ _ => ?_)))
  exact safe_bind (appendFixedPartitions_safe _ m hm) (fun m' hm' => safe_bind (saveSeriesMeta_safe hm') (fun _ _ =>
    disarm_safe))

/-- **A call takes sound steps only.** -/
theorem Call.run_safe (env : Env) (c : Call) : Safe (fun _ => True) (c.run env) := by
  cases c with
  | init => exact safe_bind beginMutation_safe (fun _ _ => initLocked_safe)
  | startupRecover => exact safe_bind startupRecoverLocked_safe (fun _ _ => guarded_pure trivial)
  | registerKline symbol timeframe timeframeMs priceScale volumeScale =>
    exact safe_bind (guarded_check _) (fun _ _ => safe_bind beginMutation_safe (fun _ _ =>
      safe_bind registerKlineSeriesLocked_safe (fun _ _ => guarded_pure trivial)))
  | registerScalar key timeframeMs =>
    exact guarded_ite (fun _ => guarded_fail _) (fun _ => safe_bind beginMutation_safe (fun _ _ =>
      safe_bind registerScalarSeriesLocked_safe (fun _ _ => guarded_pure trivial)))
  | registerFixed k symbol channel timeframeMs unit => exact registerFixedSeries_safe
  | putKline policy symbol timeframe records =>
    exact safe_bind (guarded_check _) (fun _ _ => safe_bind beginMutation_safe (fun _ _ =>
      safe_bind (putKlineChunkLocked_safe filledCache_none) (fun _ _ => guarded_pure trivial)))
  | mergeKline symbol timeframe key =>
    exact safe_bind beginMutation_safe (fun _ _ =>
      safe_bind arm_safe (fun _ _ => safe_bind (loadMeta_safe filledCache_none) (fun m hm =>
      safe_bind (mergeKlineMonthLocked_safe hm) (fun _ _ => disarm_safe))))
  | putScalar key timeframeMs records blockSize =>
    exact safe_bind (guarded_check _) (fun _ _ => safe_bind (guarded_check _) (fun _ _ =>
      safe_bind beginMutation_safe (fun _ _ =>
      safe_bind (putScalarChunkLocked_safe filledCache_none) (fun _ _ => guarded_pure trivial))))
  | appendScalar key timeframeMs records blockSize =>
    exact safe_bind (guarded_check _) (fun _ _ => safe_bind (guarded_check _) (fun _ _ =>
      safe_bind beginMutation_safe (fun _ _ =>
      safe_bind (appendScalarChunkLocked_safe filledCache_none) (fun _ _ => guarded_pure trivial))))
  | appendKlineRange policy symbol timeframe records timeframeMs priceScale volumeScale =>
    exact safe_bind appendKlineRange_safe (fun _ _ => guarded_pure trivial)
  | appendScalarRange key records timeframeMs => exact safe_bind appendScalarRange_safe (fun _ _ =>
      guarded_pure trivial)
  | putFixed k symbol channel records => exact putFixedChunk_safe

/-- **Whatever calls were made and wherever they were stopped, the store is in order.** -/
theorem CrashRun.sane {root : Dir} {s : Store} (h : CrashRun root s) : s.Sane := by
  induction h with
  | start => exact .empty root
  | stop env c _ hstop ih => exact (Call.run_safe env c).stopped keeps_sane ih hstop

end Writes

end FastK
