import FastK.Traces
/-!
# Commits

A write lays new chunk files beside the old ones, replaces the manifest, and then removes what the new manifest no
longer names (`commitSteps`).  Stopped anywhere it leaves the old manifest and every old file, with some of the new
ones (`Laying`), or the new manifest and every file it names (`Committed`).  One chunk enters a manifest after the
entries of its partition or in their place (`Entered`).
-/
namespace FastK

open Journal Spans

/-! ## Before the manifest -/

/-- The new chunk files of a write, each under a name that the directory does not have. -/
structure NewFiles (sd : SeriesDir) (news : List (Text × ChunkFile)) : Prop where
  nodup : (news.map Prod.fst).Nodup
  named : ∀ p ∈ news, isChunkName p.1 = true
  fresh : ∀ p ∈ news, sd.hasFile p.1 = false

/-- A step before the manifest: calm, a sidecar, or one of the new chunk files. -/
inductive Lays (d : Dir) (news : List (Text × ChunkFile)) : IoStep → Prop
  | calm {k : IoStep} (h : k.calm = true) : Lays d news k
  | sidecar {name temp : Text} {body : FileBody} (hn : isChunkName name = false)
      (hp : ∃ parent, parentChunkRelativePath (chunkRelativePath name) = .ok parent) :
        Lays d news (.publish d name temp body)
  | chunk {name temp : Text} {f : ChunkFile} (h : (name, f) ∈ news) : Lays d news (.publish d name temp (.chunk f))

theorem Lays.on {d : Dir} {news : List (Text × ChunkFile)} {k : IoStep} (h : Lays d news k) : k.on d = true := by
  cases h with
  | calm hc => cases k <;> first | rfl | cases hc
  | sidecar => simp [IoStep.on]
  | chunk => simp [IoStep.on]

/-- The directory while a write lays out its files: the manifest and the old chunk files are those of `sd`. -/
structure Laying (sd sd' : SeriesDir) (news : List (Text × ChunkFile)) : Prop where
  manifest : sd'.manifest = sd.manifest
  filed : WellFiled sd'
  kept : ∀ n g, HasChunk sd n g → HasChunk sd' n g
  only : ∀ n g, HasChunk sd' n g → (n, g) ∈ news ∨ HasChunk sd n g

section Laying

variable {d : Dir} {sd sd' : SeriesDir} {news : List (Text × ChunkFile)}

theorem Laying.refl (hw : WellFiled sd) (news : List (Text × ChunkFile)) : Laying sd sd news :=
  ⟨rfl, hw, fun _ _ h => h, fun _ _ h => .inr h⟩

theorem NewFiles.not_hasChunk (h : NewFiles sd news) {n : Text} {f g : ChunkFile} (hn : (n, f) ∈ news) :
    ¬ HasChunk sd n g := by
  intro hg
  have hfile : sd.hasFile n = true := hasFile_iff.2 ⟨_, hg.1⟩
  rw [h.fresh _ hn] at hfile
  cases hfile

theorem NewFiles.inj (h : NewFiles sd news) {n : Text} {f g : ChunkFile} (hf : (n, f) ∈ news)
    (hg : (n, g) ∈ news) : f = g :=
  congrArg Prod.snd (List.inj_on_of_nodup_map h.nodup hf hg rfl)

theorem onDir_calm {k : IoStep} (hk : k.calm = true) (d : Dir) (sd : SeriesDir) : SameContent sd (k.onDir d sd) := by
  have := apply_calm hk (Store.empty [] |>.modify d (fun _ => sd)) d
  rwa [apply_dirs, Store.modify_dirs_self] at this

theorem Laying.step (h : Laying sd sd' news) (hn : NewFiles sd news) {k : IoStep} (hk : Lays d news k) :
    Laying sd (k.onDir d sd') news := by
  cases hk with
  | calm hc =>
    have hsame := onDir_calm hc d sd'
    exact ⟨hsame.manifest.trans h.manifest, hsame.wellFiled h.filed, fun n g hg => hsame.hasChunk.2 (h.kept n g hg),
      fun n g hg => h.only n g (hsame.hasChunk.1 hg)⟩
  | @sidecar name temp body hname hp =>
    rw [IoStep.onDir, if_pos rfl]
    refine ⟨h.manifest, h.filed.put (fun hc => by rw [hname] at hc; cases hc) (fun _ => hp), fun n g hg => ?_,
      fun n g hg => ?_⟩
    · exact (hasChunk_put_other hname).2 (h.kept n g hg)
    · exact h.only n g ((hasChunk_put_other hname).1 hg)
  | @chunk name temp f hmem =>
    rw [IoStep.onDir, if_pos rfl]
    have hname := hn.named _ hmem
    refine ⟨h.manifest, h.filed.put_chunk hname f, fun n g hg => ?_, fun n g hg => ?_⟩
    · refine (hasChunk_put_chunk hname).2 (.inr ⟨?_, h.kept n g hg⟩)
      rintro rfl
      exact hn.not_hasChunk hmem hg
    · rcases (hasChunk_put_chunk hname).1 hg with ⟨rfl, rfl⟩ | ⟨-, hg⟩
      · exact .inl hmem
      · exact h.only n g hg

/-- **While its steps lay out files, a write keeps the manifest and every old file.** -/
theorem Laying.exec {s : Store} (h : Laying sd (s.dirs d) news) (hn : NewFiles sd news) {ks : List IoStep}
    (hk : ∀ k ∈ ks, Lays d news k) :
    Laying sd ((exec ks s).dirs d) news :=
  exec_induction (P := fun t => Laying sd (t.dirs d) news) ks s h (fun k hks t ht => by
    rw [apply_dirs]
    exact ht.step hn (hk k hks))

/-- A new file, once published, stays. -/
theorem Lays.keeps {s : Store} (hn : NewFiles sd news) {n : Text} {f : ChunkFile} (hmem : (n, f) ∈ news)
    (hf : HasChunk (s.dirs d) n f) {k : IoStep} (hk : Lays d news k) :
    HasChunk ((Journal.Store.apply k s).dirs d) n f := by
  rw [apply_dirs]
  cases hk with
  | calm hc => exact (onDir_calm hc d _).hasChunk.2 hf
  | sidecar hname hp =>
    rw [IoStep.onDir, if_pos rfl]
    exact (hasChunk_put_other hname).2 hf
  | @chunk name temp g hg =>
    rw [IoStep.onDir, if_pos rfl]
    by_cases hne : n = name
    · subst hne
      exact (hasChunk_put_chunk (hn.named _ hg)).2 (.inl ⟨rfl, hn.inj hmem hg⟩)
    · exact (hasChunk_put_chunk (hn.named _ hg)).2 (.inr ⟨hne, hf⟩)

theorem hasChunk_laid {s : Store} (hn : NewFiles sd news) {ks : List IoStep} (hk : ∀ k ∈ ks, Lays d news k)
    {n temp : Text} {f : ChunkFile} (hmem : (n, f) ∈ news) (hpub : IoStep.publish d n temp (.chunk f) ∈ ks) :
    HasChunk ((exec ks s).dirs d) n f := by
  obtain ⟨as, bs, rfl⟩ := List.append_of_mem hpub
  rw [exec_append, exec_cons]
  refine exec_induction (P := fun (t : Store) => HasChunk (t.dirs d) n f) bs _ ?_ (fun k hkb t ht =>
    (hk k (by simp [hkb])).keeps hn hmem ht)
  rw [apply_dirs, IoStep.onDir, if_pos rfl]
  exact (hasChunk_put_chunk (hn.named _ hmem)).2 (.inl ⟨rfl, rfl⟩)

end Laying

/-! ## After the manifest -/

/-- Every file that the new manifest names is there. -/
structure Supplied (sd sd' : SeriesDir) (news : List (Text × ChunkFile)) (m' : SeriesMeta) : Prop where
  filed : WellFiled sd'
  has : ∀ p ∈ news, HasChunk sd' p.1 p.2
  kept : ∀ n g, HasChunk sd n g → (∃ c ∈ m'.chunks, c.relativePath = chunkRelativePath n) → HasChunk sd' n g
  only : ∀ n g, HasChunk sd' n g → (n, g) ∈ news ∨ HasChunk sd n g

/-- The directory once the new manifest is there. -/
structure Committed (sd sd' : SeriesDir) (news : List (Text × ChunkFile)) (m' : SeriesMeta) :
    Prop extends Supplied sd sd' news m' where
  manifest : sd'.manifest = .current m'

/-- A step after the manifest: calm, or the removal of a file it does not name. -/
inductive Clears (d : Dir) (m' : SeriesMeta) : IoStep → Prop
  | calm {k : IoStep} (h : k.calm = true) : Clears d m' k
  | remove {path : Text} (h : ∀ c ∈ m'.chunks, c.relativePath ≠ path) : Clears d m' (.removeFile d path)

section Committed

variable {d : Dir} {sd sd' : SeriesDir} {news : List (Text × ChunkFile)} {m' : SeriesMeta}

theorem Committed.step (h : Committed sd sd' news m')
    (htr : ∀ p ∈ news, ∃ c ∈ m'.chunks, c.relativePath = chunkRelativePath p.1) {k : IoStep} (hk : Clears d m' k) :
    Committed sd (k.onDir d sd') news m' := by
  cases hk with
  | calm hc =>
    have hsame := onDir_calm hc d sd'
    exact ⟨⟨hsame.wellFiled h.filed, fun p hp => hsame.hasChunk.2 (h.has p hp), fun n g hg ht =>
      hsame.hasChunk.2 (h.kept n g hg ht), fun n g hg => h.only n g (hsame.hasChunk.1 hg)⟩,
        hsame.manifest.trans h.manifest⟩
  | @remove path hpath =>
    rw [IoStep.onDir, if_pos rfl]
    refine ⟨⟨h.filed.remove path, fun p hp => ?_, fun n g hg ht => ?_, fun n g hg =>
      h.only n g (hasChunk_remove.1 hg).1⟩, h.manifest⟩
    · obtain ⟨c, hc, hcp⟩ := htr p hp
      exact hasChunk_remove.2 ⟨h.has p hp, fun heq => hpath c hc (hcp.trans heq)⟩
    · obtain ⟨c, hc, hcp⟩ := ht
      exact hasChunk_remove.2 ⟨h.kept n g hg ⟨c, hc, hcp⟩, fun heq => hpath c hc (hcp.trans heq)⟩

theorem Committed.exec {s : Store} (h : Committed sd (s.dirs d) news m')
    (htr : ∀ p ∈ news, ∃ c ∈ m'.chunks, c.relativePath = chunkRelativePath p.1) {ks : List IoStep}
    (hk : ∀ k ∈ ks, Clears d m' k) :
    Committed sd ((Journal.exec ks s).dirs d) news m' :=
  exec_induction (P := fun t => Committed sd (t.dirs d) news m') ks s h (fun k hks t ht => by
    rw [apply_dirs]
    exact ht.step htr (hk k hks))

theorem Laying.commit (h : Laying sd sd' news) (hhas : ∀ p ∈ news, HasChunk sd' p.1 p.2) (temp : Text)
    (m' : SeriesMeta) :
    Committed sd ((IoStep.publishManifest d temp m').onDir d sd') news m' := by
  rw [IoStep.onDir, if_pos rfl]
  exact ⟨⟨h.filed.congr rfl (fun hd => hd), hhas, fun n g hg _ => h.kept n g hg, h.only⟩, rfl⟩

end Committed

/-! ## The whole write -/

/-- The steps of a write: the files, the manifest, the removals. -/
def commitSteps (env : Env) (d : Dir) (lay : List IoStep) (m' : SeriesMeta) (paths : List Text) : List IoStep :=
  lay ++ saveSteps env d m' ++ removeSteps env d paths

/-- The files are new, all of them are published and named by the manifest, and no removed path is. -/
structure CommitPlan (d : Dir) (sd : SeriesDir) (news : List (Text × ChunkFile)) (lay : List IoStep) (m' : SeriesMeta)
    (paths : List Text) :
    Prop where
  new : NewFiles sd news
  lays : ∀ k ∈ lay, Lays d news k
  published : ∀ p ∈ news, ∃ temp, IoStep.publish d p.1 temp (.chunk p.2) ∈ lay
  tracked : ∀ p ∈ news, ∃ c ∈ m'.chunks, c.relativePath = chunkRelativePath p.1
  clears : ∀ path ∈ paths, ∀ c ∈ m'.chunks, c.relativePath ≠ path

section Plan

variable {env : Env} {d : Dir} {news : List (Text × ChunkFile)} {lay : List IoStep} {m' : SeriesMeta}
    {paths : List Text} {s : Store}

theorem commitSteps_eq (env : Env) (d : Dir) (lay : List IoStep) (m' : SeriesMeta) (paths : List Text) :
    commitSteps env d lay m' paths = (lay ++ [.stage d (tempNameFor env manifestFile)]) ++
      .publishManifest d (tempNameFor env manifestFile) m' :: removeSteps env d paths := by
  unfold commitSteps saveSteps
  simp only [List.append_assoc, List.cons_append, List.nil_append]

theorem commitSteps_on (hl : ∀ k ∈ lay, Lays d news k) : ∀ k ∈ commitSteps env d lay m' paths, k.on d = true := by
  intro k hk
  rcases List.mem_append.1 hk with hk | hk
  · rcases List.mem_append.1 hk with hk | hk
    · exact (hl k hk).on
    · exact saveSteps_on m' k hk
  · exact removeSteps_on paths k hk

theorem CommitPlan.clearing {sd : SeriesDir} (h : CommitPlan d sd news lay m' paths) :
    ∀ k ∈ removeSteps env d paths, Clears d m' k := by
  intro k hk
  obtain ⟨path, hp, rfl⟩ := List.mem_map.1 hk
  exact .remove (h.clears path (List.mem_filter.1 hp).1)

/-- **Stopped anywhere, a write has kept the old manifest and files, or has put the new manifest with its files.** -/
theorem CommitPlan.phases (env : Env) (h : CommitPlan d (s.dirs d) news lay m' paths) (hw : WellFiled (s.dirs d)) :
    Committed (s.dirs d) ((exec (commitSteps env d lay m' paths) s).dirs d) news m' ∧
      ∀ ks, ks <+: commitSteps env d lay m' paths →
        Laying (s.dirs d) ((exec ks s).dirs d) news ∨ Committed (s.dirs d) ((exec ks s).dirs d) news m' := by
  have hlays : ∀ k ∈ lay ++ [.stage d (tempNameFor env manifestFile)], Lays d news k := by
    intro k hk
    rcases List.mem_append.1 hk with hk | hk
    · exact h.lays k hk
    · rw [List.mem_singleton.1 hk]
      exact .calm rfl
  have hlaying : ∀ ks, ks <+: lay ++ [.stage d (tempNameFor env manifestFile)] →
    Laying (s.dirs d) ((exec ks s).dirs d) news :=
    fun ks hks => (Laying.refl hw news).exec h.new (fun k hk => hlays k (hks.subset hk))
  have hhas : ∀ p ∈ news, HasChunk ((exec (lay ++ [.stage d (tempNameFor env manifestFile)]) s).dirs d) p.1 p.2 := by
    intro p hp
    obtain ⟨temp, hpub⟩ := h.published p hp
    exact hasChunk_laid h.new hlays hp (List.mem_append_left _ hpub)
  have hcommit : ∀ ls, ls <+: removeSteps env d paths → Committed (s.dirs d)
      ((exec ((lay ++ [.stage d (tempNameFor env manifestFile)]) ++ .publishManifest d (tempNameFor env manifestFile)
        m' :: ls) s).dirs d)
      news m' := by
    intro ls hls
    rw [exec_append, exec_cons]
    refine Committed.exec ?_ h.tracked (fun k hk => h.clearing k (hls.subset hk))
    rw [apply_dirs]
    exact (hlaying _ List.prefix_rfl).commit hhas _ m'
  rw [commitSteps_eq]
  refine ⟨hcommit _ List.prefix_rfl, fun ks hks => ?_⟩
  rcases prefix_append_cases hks with hp | ⟨ls, rfl, hls⟩
  · exact .inl (hlaying ks hp)
  · rcases ls with _ | ⟨l, ls⟩
    · rw [List.append_nil]
      exact .inl (hlaying _ List.prefix_rfl)
    · obtain ⟨rfl, hl⟩ := List.cons_prefix_cons.1 hls
      exact .inr (hcommit ls hl)

/-- A file that is there after removals was not removed. -/
theorem mem_files_removed {p : Text × FileBody} : ∀ {paths : List Text} {s : Store},
    p ∈ ((exec (paths.map (IoStep.removeFile d)) s).dirs d).files → chunkRelativePath p.1 ∉ paths ∧ p ∈ (s.dirs d).files
  | [], _, h => ⟨List.not_mem_nil, h⟩
  | q :: qs, s, h => by
    rw [List.map_cons, exec_cons] at h
    obtain ⟨htail, hstart⟩ := mem_files_removed h
    rw [apply_dirs, IoStep.onDir, if_pos rfl] at hstart
    obtain ⟨hmem, hne⟩ := List.mem_filter.1 hstart
    refine ⟨?_, hmem⟩
    rw [List.mem_cons]
    rintro (heq | hq)
    · exact of_decide_eq_true hne heq
    · exact htail hq

theorem hasChunk_removed {n : Text} {g : ChunkFile} {paths : List Text} {s : Store}
    (h : HasChunk ((exec (paths.map (IoStep.removeFile d)) s).dirs d) n g) : chunkRelativePath n ∉ paths :=
  (mem_files_removed h.1).1

theorem removeSteps_full (hfull : ∀ path, env.removeFails d path = false) (paths : List Text) :
    removeSteps env d paths = paths.map (IoStep.removeFile d) := by
  unfold removeSteps
  rw [List.filter_eq_self.2 (fun p _ => by rw [hfull p]; rfl)]

/-- **A write whose removals succeed leaves no file that the manifest does not name.** -/
theorem CommitPlan.exact (h : CommitPlan d (s.dirs d) news lay m' paths) (hw : WellFiled (s.dirs d))
    (hfull : ∀ path, env.removeFails d path = false)
    (hold : ∀ n g, HasChunk (s.dirs d) n g → (∃ c ∈ m'.chunks, c.relativePath = chunkRelativePath n) ∨
      chunkRelativePath n ∈ paths) :
    Exact ((exec (commitSteps env d lay m' paths) s).dirs d) m' := by
  intro n g hg
  have hall := removeSteps_full hfull paths
  rcases (h.phases env hw).1.only n g hg with hnew | hgo
  · exact h.tracked _ hnew
  · refine (hold n g hgo).resolve_right ?_
    unfold commitSteps at hg
    rw [hall, exec_append] at hg
    exact hasChunk_removed hg

end Plan

/-! ## One chunk enters a manifest -/

/-- The chunk `c` enters the manifest `m` beside the entries `kept` of it: after all entries, or in place of its
partition's. -/
structure Entered (t : RecordType) (u : PartitionUnit) (sd : SeriesDir) (m : SeriesMeta) (kept : List ChunkMeta)
    (key name : Text) (f : ChunkFile) (rows : List t.Row) (c : ChunkMeta) (m' : SeriesMeta) : Prop where
  laid : Laid t u sd m key name f rows c
  head : m.SameHead m'
  chunks : m'.chunks = sortByKey ChunkMeta.startTs (kept ++ [c])
  place : kept = otherChunks m key ∨ kept = m.chunks ∧ ∀ e ∈ m.chunks, e.monthKey = key → e.endTs < c.startTs ∧
    c.state = .active
  active : m'.activeChunkId = lastActive m'.chunks ∨ kept = m.chunks ∧ m'.activeChunkId = m.activeChunkId ∨
    c.state = .active ∧ m'.activeChunkId = some c.chunkId

section Entered

variable {d : Dir} {sd : SeriesDir} {m m' : SeriesMeta} {t : RecordType} {u : PartitionUnit} {kept : List ChunkMeta}
    {key name : Text}
  {f : ChunkFile} {rows : List t.Row} {c : ChunkMeta}

theorem Entered.kept_sublist (w : Entered t u sd m kept key name f rows c m') : kept.Sublist m.chunks := by
  rcases w.place with rfl | ⟨rfl, -⟩
  · exact List.filter_sublist
  · exact List.Sublist.refl _

theorem Entered.mem_kept (w : Entered t u sd m kept key name f rows c m') {e : ChunkMeta} (he : e ∈ m.chunks)
    (hne : e.monthKey ≠ key) : e ∈ kept := by
  rcases w.place with rfl | ⟨rfl, -⟩
  · exact mem_otherChunks.2 ⟨he, hne⟩
  · exact he

/-- The entries kept of the partition end before the new one. -/
theorem Entered.before (w : Entered t u sd m kept key name f rows c m') {e : ChunkMeta} (he : e ∈ kept)
    (hk : e.monthKey = key) :
    e.endTs < c.startTs ∧ c.state = .active := by
  rcases w.place with rfl | ⟨rfl, h⟩
  · exact absurd hk (mem_otherChunks.1 he).2
  · exact h e he hk

theorem Entered.mem (w : Entered t u sd m kept key name f rows c m') {e : ChunkMeta} :
    e ∈ m'.chunks ↔ e ∈ kept ∨ e = c := by
  rw [w.chunks, mem_sortByKey, List.mem_append, List.mem_singleton]

theorem Entered.not_meets (w : Entered t u sd m kept key name f rows c m') (h : Fits d sd m) (hu : m.unit = u)
    {e : ChunkMeta} (he : e ∈ kept) :
    ¬ SpansMeet e c := by
  by_cases hk : e.monthKey = key
  · rintro ⟨-, h2⟩
    exact absurd h2 (not_le.2 (w.before he hk).1)
  · exact h.not_meets (w.kept_sublist.subset he) hk (by rw [hu]; exact w.laid.keyed.1)
      (by rw [hu]; exact w.laid.keyed.2)

theorem Entered.valid (w : Entered t u sd m kept key name f rows c m') (h : Fits d sd m) (hu : m.unit = u) :
    m'.validate = .ok () :=
  h.added_valid w.kept_sublist w.laid.valid w.laid.proper (fun _ he => w.not_meets h hu he) w.head w.chunks

/-- No path names two entries. -/
theorem Fits.path_inj (h : Fits d sd m) {a b : ChunkMeta} (ha : a ∈ m.chunks) (hb : b ∈ m.chunks)
    (hp : a.relativePath = b.relativePath) : a = b := by
  obtain ⟨n, g, rows, hg, -, hea⟩ := h.tracked a ha
  obtain ⟨n', g', rows', hg', -, heb⟩ := h.tracked b hb
  obtain rfl : n = n' := chunkRelativePath_inj (hea.path.symm.trans (hp.trans heb.path))
  obtain rfl := h.filed.hasChunk_inj hg hg'
  obtain ⟨hchain, hprop⟩ := h.chain
  refine hchain.apart.eq_of_meets ha hb ?_
  unfold Meets
  rw [hea.startTs, hea.endTs, heb.startTs, heb.endTs, and_self, ← hea.startTs, ← hea.endTs]
  exact hprop a ha

/-- The path of a sidecar is no chunk's. -/
theorem SidecarPath.ne {s : SidecarMeta} (hs : SidecarPath s) {n : Text} (hn : isChunkName n = true) :
    s.relativePath ≠ chunkRelativePath n := by
  obtain ⟨n', hn', hp⟩ := hs
  intro heq
  obtain rfl : n' = n := chunkRelativePath_inj (hp.symm.trans heq)
  rw [isSidecarName_of_chunk hn] at hn'
  cases hn'

/-- What is removed of an entry that is not kept is not named by the new manifest. -/
theorem Entered.clears (w : Entered t u sd m kept key name f rows c m') (h : Fits d sd m) {e : ChunkMeta}
    (he : e ∈ m.chunks) (hek : e ∉ kept) {path : Text} (hp : path ∈ chunkPaths e) :
    ∀ b ∈ m'.chunks, b.relativePath ≠ path := by
  obtain ⟨n, g, rowsE, hg, -, hee⟩ := h.tracked e he
  intro b hb heq
  -- every entry of the new manifest lies under a chunk name other than that of `e`
  have hname : ∃ nb, isChunkName nb = true ∧ b.relativePath = chunkRelativePath nb ∧ nb ≠ n := by
    rcases w.mem.1 hb with hbk | rfl
    · obtain ⟨nb, gb, rowsB, hgb, -, heb⟩ := h.tracked b (w.kept_sublist.subset hbk)
      refine ⟨nb, hgb.2, heb.path, ?_⟩
      rintro rfl
      exact hek (h.path_inj he (w.kept_sublist.subset hbk) (hee.path.trans heb.path.symm) ▸ hbk)
    · refine ⟨name, w.laid.file.named.isChunkName, w.laid.entry.path, ?_⟩
      rintro rfl
      have hfile : sd.hasFile name = true := hasFile_iff.2 ⟨_, hg.1⟩
      rw [w.laid.fresh] at hfile
      cases hfile
  obtain ⟨nb, hnb, hbp, hne⟩ := hname
  rcases List.mem_cons.1 hp with rfl | hp
  · exact hne (chunkRelativePath_inj (hbp.symm.trans (heq.trans hee.path)))
  · obtain ⟨sc, hsc, rfl⟩ := List.mem_map.1 hp
    exact (hee.sidecars sc hsc).ne hnb (heq.symm.trans hbp)

theorem Entered.newFiles (w : Entered t u sd m kept key name f rows c m') : NewFiles sd [(name, f)] := by
  refine ⟨by simp, fun p hp => ?_, fun p hp => ?_⟩ <;> rw [List.mem_singleton.1 hp]
  · exact w.laid.file.named.isChunkName
  · exact w.laid.fresh

/-- **The steps that publish the file, save the manifest and remove what is not kept.** -/
theorem Entered.plan (w : Entered t u sd m kept key name f rows c m') (h : Fits d sd m) {lay : List IoStep}
    (hl : ∀ k ∈ lay, Lays d [(name, f)] k) {temp : Text} (hpub : IoStep.publish d name temp (.chunk f) ∈ lay)
    {paths : List Text} (hpaths : ∀ path ∈ paths, ∃ e ∈ m.chunks, e ∉ kept ∧ path ∈ chunkPaths e) :
    CommitPlan d sd [(name, f)] lay m' paths where
  new := w.newFiles
  lays := hl
  published p hp := by
    rw [List.mem_singleton.1 hp]
    exact ⟨temp, hpub⟩
  tracked p hp := by
    rw [List.mem_singleton.1 hp]
    exact ⟨c, w.mem.2 (.inr rfl), w.laid.entry.path⟩
  clears path hp := by
    obtain ⟨e, he, hek, hpe⟩ := hpaths path hp
    exact w.clears h he hek hpe

/-- The old manifest fits while the new files are laid out. -/
theorem Fits.laying (h : Fits d sd m) {sd' : SeriesDir} {news : List (Text × ChunkFile)} (hl : Laying sd sd' news)
    (hnews : ∀ p ∈ news, ∃ key rows, FileOk m.recordType m.unit key p.1 p.2 rows) : Fits d sd' m := by
  refine h.update rfl h.valid hl.filed (fun n g hg => ?_) (fun e he => (h.tracked e he).mono (fun n g hg _ =>
    hl.kept n g hg))
  rcases hl.only n g hg with hmem | hg
  · exact .inr (hnews _ hmem)
  · exact .inl hg

/-- **The new manifest fits once its files are there.** -/
theorem Entered.fits (w : Entered t u sd m kept key name f rows c m') (h : Fits d sd m) (ht : m.recordType = t)
    (hu : m.unit = u) {sd' : SeriesDir} (hc : Supplied sd sd' [(name, f)] m') : Fits d sd' m' := by
  subst ht hu
  refine h.update w.head (w.valid h rfl) hc.filed (fun n g hg => ?_) (fun e he => ?_)
  · rcases hc.only n g hg with hmem | hg
    · obtain ⟨rfl, rfl⟩ := Prod.mk.inj (List.mem_singleton.1 hmem)
      exact .inr ⟨key, rows, w.laid.file⟩
    · exact .inl hg
  · rcases w.mem.1 he with hk | rfl
    · exact (h.tracked e (w.kept_sublist.subset hk)).mono (fun n g hg hp => hc.kept n g hg ⟨e, he, hp⟩)
    · exact w.laid.tracked (hc.has (name, f) (by simp)) w.laid.monthKey w.laid.entry

end Entered

/-! ## Sidecars -/

/-- The sidecar entries of a chunk whose index files hold these entries. -/
def indexEntries (c : ChunkMeta) (blockSize : Nat) (zmap : List ZoneMapEntry) (vix : List ValueIndexEntry) :
    List SidecarMeta := [
  ⟨zmapKind, sidecarRelativePath c.relativePath zmapKind, c.generation, checksum64 (FileBody.zmap zmap).bytes,
    blockSize, zmap.length⟩,
  ⟨vixKind, sidecarRelativePath c.relativePath vixKind, c.generation, checksum64 (FileBody.vix vix).bytes, 0,
    vix.length⟩]

/-- The index files of the chunk file under a name. -/
def indexFiles (name : Text) (zmap : List ZoneMapEntry) (vix : List ValueIndexEntry) : List (Text × FileBody) :=
  [(sidecarRelativePath name zmapKind, .zmap zmap), (sidecarRelativePath name vixKind, .vix vix)]

/-- The chunk has its two index files beside it. -/
def IndexFiled (sd : SeriesDir) (c : ChunkMeta) : Prop :=
  ∃ name blockSize zmap vix, c.relativePath = chunkRelativePath name ∧ c.sidecars = indexEntries c blockSize zmap vix ∧
    ∀ p ∈ indexFiles name zmap vix, p ∈ sd.files

theorem sidecarRelativePath_chunk (name ext : Text) :
    sidecarRelativePath (chunkRelativePath name) ext = chunkRelativePath (sidecarRelativePath name ext) := by
  unfold sidecarRelativePath chunkRelativePath
  rw [List.append_assoc]

theorem isSidecarName_of {name ext : Text} (hn : isChunkName name = true)
    (hc : isChunkName (sidecarRelativePath name ext) = false) :
    isSidecarName (sidecarRelativePath name ext) = true := by
  unfold isSidecarName
  rw [hc]
  obtain ⟨l, rfl⟩ := Text.endsWith_iff.1 hn
  refine Text.contains_iff.2 ⟨l, ext, ?_⟩
  unfold sidecarRelativePath
  rw [show ".chunk.".toList = chunkSuffix ++ ['.'] from rfl]
  simp only [List.append_assoc, List.cons_append, List.nil_append]

/-- The index files of a chunk have sidecar names of that chunk. -/
theorem indexFiles_name {name : Text} {zmap : List ZoneMapEntry} {vix : List ValueIndexEntry} {p : Text × FileBody}
    (hn : isChunkName name = true) (hp : p ∈ indexFiles name zmap vix) :
    isSidecarName p.1 = true ∧ parentChunkRelativePath (chunkRelativePath p.1) = .ok (chunkRelativePath name) := by
  unfold indexFiles at hp
  rcases List.mem_cons.1 hp with rfl | hp
  · exact ⟨isSidecarName_of hn (isChunkName_zmap name), parent_of_sidecar hn (by decide)⟩
  · obtain rfl := List.mem_singleton.1 hp
    exact ⟨isSidecarName_of hn (isChunkName_vix name), parent_of_sidecar hn (by decide)⟩

/-- Index files of one name are one file of one chunk. -/
theorem indexFiles_inj {name name' : Text} {zmap zmap' : List ZoneMapEntry} {vix vix' : List ValueIndexEntry}
    {p q : Text × FileBody} (hn : isChunkName name = true) (hn' : isChunkName name' = true)
    (hp : p ∈ indexFiles name zmap vix) (hq : q ∈ indexFiles name' zmap' vix') (heq : p.1 = q.1) : name = name' := by
  have hparent := (indexFiles_name hn hp).2
  rw [heq, (indexFiles_name hn' hq).2] at hparent
  exact (chunkRelativePath_inj (Except.ok.inj hparent)).symm

theorem indexFiles_body {name : Text} {zmap : List ZoneMapEntry} {vix : List ValueIndexEntry} {p q : Text × FileBody}
    (hp : p ∈ indexFiles name zmap vix) (hq : q ∈ indexFiles name zmap vix) (heq : p.1 = q.1) : p = q := by
  have hkinds : sidecarRelativePath name zmapKind ≠ sidecarRelativePath name vixKind := by
    intro h
    have := List.append_cancel_left h
    exact absurd this (by decide)
  unfold indexFiles at hp hq
  rcases List.mem_cons.1 hp with rfl | hp
  · rcases List.mem_cons.1 hq with rfl | hq
    · rfl
    · obtain rfl := List.mem_singleton.1 hq
      exact absurd heq hkinds
  · obtain rfl := List.mem_singleton.1 hp
    rcases List.mem_cons.1 hq with rfl | hq
    · exact absurd heq.symm hkinds
    · exact (List.mem_singleton.1 hq).symm

/-- The paths of the sidecar entries are those of the index files. -/
theorem mem_indexEntries {c : ChunkMeta} {name path : Text} {blockSize : Nat} {zmap : List ZoneMapEntry}
    {vix : List ValueIndexEntry} (hc : c.relativePath = chunkRelativePath name) :
    path ∈ (indexEntries c blockSize zmap vix).map SidecarMeta.relativePath ↔ ∃ p ∈ indexFiles name zmap vix,
      path = chunkRelativePath p.1 := by
  simp only [indexEntries, indexFiles, List.map_cons, List.map_nil, List.mem_cons, List.not_mem_nil, or_false,
    exists_eq_or_imp, exists_eq_left, hc, sidecarRelativePath_chunk]

/-! ## The write of one entry -/

/-- The steps of a write that enters one chunk: the files it lays out, the manifest, and the removal of what is not
kept. -/
structure EntryWrite (env : Env) (d : Dir) (t : RecordType) (u : PartitionUnit) (sd : SeriesDir) (m m' : SeriesMeta)
    (key : Text) (rows : List t.Row) where
  kept : List ChunkMeta
  name : Text
  file : ChunkFile
  entry : ChunkMeta
  lay : List IoStep
  paths : List Text
  entered : Entered t u sd m kept key name file rows entry m'
  lays : ∀ k ∈ lay, Lays d [(name, file)] k
  published : ∃ temp, IoStep.publish d name temp (.chunk file) ∈ lay
  removed : ∀ path ∈ paths, ∃ e ∈ m.chunks, e ∉ kept ∧ path ∈ chunkPaths e
  cleared : ∀ e ∈ m.chunks, e ∉ kept → e.relativePath ∈ paths
  plain : t ≠ .scalar → entry.sidecars = [] ∧ ∀ name temp body, IoStep.publish d name temp body ∈ lay →
    isChunkName name = true
  indexed : t = .scalar → (∃ blockSize zmap vix, entry.sidecars = indexEntries entry blockSize zmap vix ∧
      (∀ p ∈ indexFiles name zmap vix, ∃ temp, IoStep.publish d p.1 temp p.2 ∈ lay) ∧
      ∀ n temp body, IoStep.publish d n temp body ∈ lay → isSidecarName n = true →
        (n, body) ∈ indexFiles name zmap vix) ∧
    ∀ e ∈ m.chunks, e ∉ kept → ∀ path ∈ chunkPaths e, path ∈ paths

namespace EntryWrite

variable {env : Env} {d : Dir} {t : RecordType} {u : PartitionUnit} {sd : SeriesDir} {m m' : SeriesMeta} {key : Text}
    {rows : List t.Row}

def steps (w : EntryWrite env d t u sd m m' key rows) : List IoStep := commitSteps env d w.lay m' w.paths

theorem plan (w : EntryWrite env d t u sd m m' key rows) (h : Fits d sd m) :
    CommitPlan d sd [(w.name, w.file)] w.lay m' w.paths := by
  obtain ⟨temp, hpub⟩ := w.published
  exact w.entered.plan h w.lays hpub w.removed

theorem final {s : Store} (w : EntryWrite env d t u (s.dirs d) m m' key rows) (h : Fits d (s.dirs d) m) :
    Committed (s.dirs d) ((exec w.steps s).dirs d) [(w.name, w.file)] m' := ((w.plan h).phases env h.filed).1

theorem stopped {s : Store} (w : EntryWrite env d t u (s.dirs d) m m' key rows) (h : Fits d (s.dirs d) m)
    {ks : List IoStep} (hk : ks <+: w.steps) :
    Laying (s.dirs d) ((exec ks s).dirs d) [(w.name, w.file)] ∨ Committed (s.dirs d) ((exec ks s).dirs d)
    [(w.name, w.file)] m' :=
  ((w.plan h).phases env h.filed).2 ks hk

theorem exact {s : Store} (w : EntryWrite env d t u (s.dirs d) m m' key rows) (h : Fits d (s.dirs d) m)
    (hex : Exact (s.dirs d) m) (hfull : ∀ path, env.removeFails d path = false) :
    Exact ((exec w.steps s).dirs d) m' := by
  refine (w.plan h).exact h.filed hfull (fun n g hg => ?_)
  obtain ⟨e, he, hp⟩ := hex n g hg
  by_cases hk : e ∈ w.kept
  · exact .inl ⟨e, w.entered.mem.2 (.inl hk), hp⟩
  · rw [← hp]
    exact .inr (w.cleared e he hk)

theorem seriesOk {s : Store} (w : EntryWrite env d t u (s.dirs d) m m' key rows) (h : Fits d (s.dirs d) m)
    (ht : m.recordType = t) (hu : m.unit = u) {sd' : SeriesDir}
    (hc : Committed (s.dirs d) sd' [(w.name, w.file)] m') : SeriesOk d sd' m' :=
  ⟨w.entered.fits h ht hu hc.toSupplied, hc.manifest⟩

theorem steps_on (w : EntryWrite env d t u sd m m' key rows) : ∀ k ∈ w.steps, k.on d = true := commitSteps_on w.lays

end EntryWrite

/-! ## Entries as a scan makes them -/

/-- The entries are what a scan makes of their files, up to their states; scalar chunks have their index files and no
other sidecar is there, chunks of other types have none. -/
structure Described (sd : SeriesDir) (m : SeriesMeta) : Prop where
  stamped : ∀ c ∈ m.chunks, ∃ name f, HasChunk sd name f ∧ c.relativePath = chunkRelativePath name ∧ Stamped m name f c
  plain : m.recordType ≠ .scalar → (∀ p ∈ sd.files, isSidecarName p.1 = false) ∧ ∀ c ∈ m.chunks, c.sidecars = []
  indexed : m.recordType = .scalar → ∀ c ∈ m.chunks, IndexFiled sd c
  covered : m.recordType = .scalar → ∀ p ∈ sd.files, isSidecarName p.1 = true →
    ∃ c ∈ m.chunks, chunkRelativePath p.1 ∈ c.sidecars.map SidecarMeta.relativePath

theorem described_nil {sd : SeriesDir} {m : SeriesMeta} (hf : sd.files = []) (hc : m.chunks = []) : Described sd m := by
  refine ⟨?_, ?_, ?_, ?_⟩ <;> simp [hf, hc]

theorem IndexFiled.congr {sd sd' : SeriesDir} {c : ChunkMeta} (h : IndexFiled sd c) (hf : sd'.files = sd.files) :
    IndexFiled sd' c := by
  unfold IndexFiled
  rw [hf]
  exact h

theorem Described.congr {sd sd' : SeriesDir} {m : SeriesMeta} (h : Described sd m) (hf : sd'.files = sd.files) :
    Described sd' m := by
  refine ⟨fun c hc => ?_, fun ht => ?_, fun ht c hc => (h.indexed ht c hc).congr hf, fun ht => ?_⟩
  · obtain ⟨name, f, hn, hrest⟩ := h.stamped c hc
    exact ⟨name, f, (hasChunk_congr hf).2 hn, hrest⟩
  · rw [hf]
    exact h.plain ht
  · rw [hf]
    exact h.covered ht

theorem Stamped.sameHead {m m' : SeriesMeta} {name : Text} {f : ChunkFile} {c : ChunkMeta} (h : Stamped m name f c)
    (hh : m.SameHead m') :
    Stamped m' name f c := by
  refine ⟨h.seriesId.trans ?_, h.timeframeMs.trans ?_, h.scanned⟩ <;> rw [hh]

theorem Stamped.of_sameHead {m m' : SeriesMeta} {name : Text} {f : ChunkFile} {c : ChunkMeta}
    (h : Stamped m' name f c) (hh : m.SameHead m') :
    Stamped m name f c := by
  refine ⟨h.seriesId.trans ?_, h.timeframeMs.trans ?_, h.scanned⟩ <;> rw [hh]

/-- A file that is there after some steps was there before, or one of them has published it. -/
theorem mem_files_exec {d : Dir} {p : Text × FileBody} : ∀ {ks : List IoStep}
    {s : Store}, p ∈ ((exec ks s).dirs d).files →
    p ∈ (s.dirs d).files ∨ ∃ temp, IoStep.publish d p.1 temp p.2 ∈ ks
  | [], _, h => .inl h
  | k :: ks, s, h => by
    rw [exec_cons] at h
    rcases mem_files_exec h with h | ⟨temp, h⟩
    · rw [apply_dirs] at h
      cases hc : k.calm with
      | true =>
        rw [(onDir_calm hc d _).files] at h
        exact .inl h
      | false =>
        cases k with
        | publish e name temp body =>
          by_cases he : d = e
          · subst he
            rw [IoStep.onDir, if_pos rfl] at h
            rcases mem_put.1 h with rfl | ⟨-, h⟩
            · exact .inr ⟨temp, List.mem_cons_self⟩
            · exact .inl h
          · rw [IoStep.onDir, if_neg he] at h
            exact .inl h
        | publishManifest e temp m =>
          by_cases he : d = e
          · rw [IoStep.onDir, if_pos he] at h
            exact .inl h
          · rw [IoStep.onDir, if_neg he] at h
            exact .inl h
        | removeFile e path =>
          by_cases he : d = e
          · rw [IoStep.onDir, if_pos he] at h
            exact .inl (List.mem_filter.1 h).1
          · rw [IoStep.onDir, if_neg he] at h
            exact .inl h
        | _ => cases hc
    · exact .inr ⟨temp, List.mem_cons_of_mem _ h⟩

/-- The manifest with the new entries describes its files. -/
theorem Described.update {sd sd' : SeriesDir} {m m' : SeriesMeta} {news : List (Text × ChunkFile)}
    (h : Described sd m) (hh : m.SameHead m') (hsup : Supplied sd sd' news m')
    (hent : ∀ c ∈ m'.chunks, c ∈ m.chunks ∨ ∃ p ∈ news, c.relativePath = chunkRelativePath p.1 ∧ Stamped m p.1 p.2 c ∧
      (m.recordType ≠ .scalar → c.sidecars = []))
    (hfiles : m.recordType ≠ .scalar → ∀ p ∈ sd'.files, p ∈ sd.files ∨ isChunkName p.1 = true)
    (hindexed : m.recordType = .scalar → ∀ c ∈ m'.chunks, IndexFiled sd' c)
    (hcovered : m.recordType = .scalar → ∀ p ∈ sd'.files, isSidecarName p.1 = true →
      ∃ c ∈ m'.chunks, chunkRelativePath p.1 ∈ c.sidecars.map SidecarMeta.relativePath) : Described sd' m' where
  stamped c hc := by
    rcases hent c hc with hold | ⟨p, hp, hpath, hst, -⟩
    · obtain ⟨name, f, hf, hpath, hst⟩ := h.stamped c hold
      exact ⟨name, f, hsup.kept name f hf ⟨c, hc, hpath⟩, hpath, hst.sameHead hh⟩
    · exact ⟨p.1, p.2, hsup.has p hp, hpath, hst.sameHead hh⟩
  plain ht := by
    rw [hh.recordType] at ht
    refine ⟨fun p hp => ?_, fun c hc => ?_⟩
    · rcases hfiles ht p hp with hold | hchunk
      · exact (h.plain ht).1 p hold
      · exact isSidecarName_of_chunk hchunk
    · rcases hent c hc with hold | ⟨-, -, -, -, hnone⟩
      · exact (h.plain ht).2 c hold
      · exact hnone ht
  indexed ht := hindexed (hh.recordType.symm.trans ht)
  covered ht := hcovered (hh.recordType.symm.trans ht)

/-- The step neither replaces the file by another nor removes it. -/
def IoStep.Keeps (d : Dir) (p : Text × FileBody) : IoStep → Prop
  | .publish e name _ body => e = d → name = p.1 → body = p.2
  | .removeFile e path => e = d → path ≠ chunkRelativePath p.1
  | _ => True

/-- A file that no step replaces or removes is there after the steps. -/
theorem mem_files_kept {d : Dir} {p : Text × FileBody} {ks : List IoStep} {s : Store} (h : p ∈ (s.dirs d).files)
    (hk : ∀ k ∈ ks, k.Keeps d p) : p ∈ ((exec ks s).dirs d).files := by
  refine exec_induction (P := fun (t : Store) => p ∈ (t.dirs d).files) ks s h (fun k hks t ht => ?_)
  have hkeep := hk k hks
  rw [apply_dirs]
  cases hc : k.calm with
  | true =>
    rw [(onDir_calm hc d _).files]
    exact ht
  | false =>
    cases k with
    | publish e name temp body =>
      by_cases he : d = e
      · rw [IoStep.onDir, if_pos he, mem_put]
        by_cases hn : name = p.1
        · exact .inl (Prod.ext hn.symm (hkeep he.symm hn).symm)
        · exact .inr ⟨fun h' => hn h'.symm, ht⟩
      · rw [IoStep.onDir, if_neg he]
        exact ht
    | removeFile e path =>
      by_cases he : d = e
      · rw [IoStep.onDir, if_pos he]
        exact List.mem_filter.2 ⟨ht, decide_eq_true (fun h' => hkeep he.symm h'.symm)⟩
      · rw [IoStep.onDir, if_neg he]
        exact ht
    | publishManifest e temp m =>
      by_cases he : d = e
      · rw [IoStep.onDir, if_pos he]
        exact ht
      · rw [IoStep.onDir, if_neg he]
        exact ht
    | _ => cases hc

/-- A file that is published, and then neither replaced nor removed, is there after the steps. -/
theorem mem_files_published {d : Dir} {p : Text × FileBody} {ks : List IoStep} {s : Store} {temp : Text}
    (hpub : IoStep.publish d p.1 temp p.2 ∈ ks) (hk : ∀ k ∈ ks, k.Keeps d p) : p ∈ ((exec ks s).dirs d).files := by
  obtain ⟨as, bs, rfl⟩ := List.append_of_mem hpub
  rw [exec_append, exec_cons]
  refine mem_files_kept ?_ (fun k hkb => hk k (by simp [hkb]))
  rw [apply_dirs, IoStep.onDir, if_pos rfl]
  exact mem_put.2 (.inl rfl)

section Index

variable {env : Env} {d : Dir} {u : PartitionUnit} {s : Store} {m m' : SeriesMeta} {key : Text}
    {rows : List RecordType.scalar.Row}

/-- What an entry names beside its chunk. -/
theorem IndexFiled.paths {sd : SeriesDir} {c : ChunkMeta} {n path : Text} (h : IndexFiled sd c)
    (hn : c.relativePath = chunkRelativePath n) (hc : isChunkName n = true) (hp : path ∈ chunkPaths c) :
    path = c.relativePath ∨
      ∃ q : Text, path = chunkRelativePath q ∧ isSidecarName q = true ∧
        parentChunkRelativePath (chunkRelativePath q) = .ok (chunkRelativePath n) := by
  obtain ⟨name, blockSize, zmap, vix, hname, hs, -⟩ := h
  obtain rfl : name = n := chunkRelativePath_inj (hname.symm.trans hn)
  rcases List.mem_cons.1 hp with rfl | hp
  · exact .inl rfl
  · rw [hs, mem_indexEntries hn] at hp
    obtain ⟨p, hfile, heq⟩ := hp
    obtain ⟨h1, h2⟩ := indexFiles_name hc hfile
    exact .inr ⟨p.1, heq, h1, h2⟩

/-- The steps of a scalar write keep the index files of a chunk that its new manifest has, if they publish no others
in their place. -/
theorem EntryWrite.keeps_index (w : EntryWrite env d .scalar u (s.dirs d) m m' key rows) (h : Fits d (s.dirs d) m)
    (hd : ∀ e ∈ m.chunks, IndexFiled (s.dirs d) e) {name : Text} {p : Text × FileBody}
    (hside : isSidecarName p.1 = true)
    (hparent : parentChunkRelativePath (chunkRelativePath p.1) = .ok (chunkRelativePath name))
    (hgone : ∀ e ∈ m.chunks, e ∉ w.kept → e.relativePath ≠ chunkRelativePath name)
    (hpub : ∀ temp body, IoStep.publish d p.1 temp body ∈ w.lay → body = p.2) : ∀ k ∈ w.steps, k.Keeps d p := by
  intro k hk
  unfold EntryWrite.steps commitSteps at hk
  rcases List.mem_append.1 hk with hk | hk
  · rcases List.mem_append.1 hk with hk | hk
    · cases k with
      | publish e n temp body =>
        rintro rfl rfl
        exact hpub temp body hk
      | removeFile e path => cases w.lays _ hk with | calm hc => cases hc
      | _ => trivial
    · simp only [saveSteps, List.mem_cons, List.not_mem_nil, or_false] at hk
      rcases hk with rfl | rfl <;> trivial
  · obtain ⟨path, hpath, rfl⟩ := List.mem_map.1 hk
    intro _ heq
    obtain ⟨e, he, hek, hpe⟩ := w.removed path (List.mem_filter.1 hpath).1
    obtain ⟨n, g, rowsE, hg, -, hee⟩ := h.tracked e he
    rcases (hd e he).paths hee.path hg.2 hpe with hpe | ⟨q, hq, -, hqparent⟩
    · -- a chunk has no sidecar name
      rw [hpe, hee.path] at heq
      rw [← chunkRelativePath_inj heq, isSidecarName_of_chunk hg.2] at hside
      cases hside
    · obtain rfl := chunkRelativePath_inj (hq.symm.trans heq)
      rw [hqparent] at hparent
      exact hgone e he hek (hee.path.trans (Except.ok.inj hparent))

/-- **After a scalar write every chunk has its index files.** -/
theorem EntryWrite.indexed_after (w : EntryWrite env d .scalar u (s.dirs d) m m' key rows) (h : Fits d (s.dirs d) m)
    (hd : ∀ e ∈ m.chunks, IndexFiled (s.dirs d) e) : ∀ c ∈ m'.chunks, IndexFiled ((exec w.steps s).dirs d) c := by
  intro c hc
  have hlaid := w.entered.laid
  have hfresh : ∀ e ∈ m.chunks, e.relativePath ≠ chunkRelativePath w.name := by
    intro e he heq
    obtain ⟨n, g, rowsE, hg, -, hee⟩ := h.tracked e he
    obtain rfl := chunkRelativePath_inj (hee.path.symm.trans heq)
    have hfile : (s.dirs d).hasFile w.name = true := hasFile_iff.2 ⟨_, hg.1⟩
    rw [hlaid.fresh] at hfile
    cases hfile
  obtain ⟨⟨newBlock, newZmap, newVix, hsidecars, hpublished, honly⟩, -⟩ := w.indexed rfl
  rcases w.entered.mem.1 hc with hk | rfl
  · have hcm := w.entered.kept_sublist.subset hk
    obtain ⟨n, g, rowsC, hg, -, hec⟩ := h.tracked c hcm
    obtain ⟨name, blockSize, zmap, vix, hname, hs, hfiles⟩ := hd c hcm
    obtain rfl : name = n := chunkRelativePath_inj (hname.symm.trans hec.path)
    refine ⟨name, blockSize, zmap, vix, hname, hs, fun p hp => ?_⟩
    obtain ⟨hside, hparent⟩ := indexFiles_name hg.2 hp
    refine mem_files_kept (hfiles p hp) (w.keeps_index h hd hside hparent
      (fun e he hek heq => ?_) (fun temp body hpub => ?_))
    · exact hek (h.path_inj he hcm (heq.trans hname.symm) ▸ hk)
    · -- the new files belong to a chunk of another name
      have hnew := honly p.1 temp body hpub hside
      obtain rfl := indexFiles_inj hg.2 hlaid.file.named.isChunkName hp hnew rfl
      exact absurd hname (hfresh c hcm)
  · refine ⟨w.name, newBlock, newZmap, newVix, hlaid.entry.path, hsidecars, fun p hp => ?_⟩
    obtain ⟨hside, hparent⟩ := indexFiles_name hlaid.file.named.isChunkName hp
    obtain ⟨temp, hpub⟩ := hpublished p hp
    refine mem_files_published (List.mem_append_left _ (List.mem_append_left _ hpub) : IoStep.publish d p.1 temp
      p.2 ∈ w.steps)
      (w.keeps_index h hd hside hparent (fun e he _ => hfresh e he) (fun temp' body hpub' => ?_))
    exact congrArg Prod.snd (indexFiles_body (honly p.1 temp' body hpub' hside) hp rfl)

/-- **After a scalar write no other sidecar is there.** -/
theorem EntryWrite.covered_after (w : EntryWrite env d .scalar u (s.dirs d) m m' key rows)
    (hfull : ∀ path, env.removeFails d path = false) (hd : ∀ p ∈ (s.dirs d).files, isSidecarName p.1 = true →
      ∃ c ∈ m.chunks, chunkRelativePath p.1 ∈ c.sidecars.map SidecarMeta.relativePath)
    {p : Text × FileBody} (hp : p ∈ ((exec w.steps s).dirs d).files) (hside : isSidecarName p.1 = true) :
    ∃ c ∈ m'.chunks, chunkRelativePath p.1 ∈ c.sidecars.map SidecarMeta.relativePath := by
  obtain ⟨⟨newBlock, newZmap, newVix, hsidecars, -, honly⟩, hcleared⟩ := w.indexed rfl
  rcases mem_files_exec hp with hold | ⟨temp, hpub⟩
  · obtain ⟨c, hc, hpath⟩ := hd p hold hside
    refine ⟨c, w.entered.mem.2 (.inl ?_), hpath⟩
    by_contra hk
    have hgone := hcleared c hc hk _ (List.mem_cons_of_mem _ hpath)
    unfold EntryWrite.steps commitSteps at hp
    rw [removeSteps_full hfull, exec_append] at hp
    exact (mem_files_removed hp).1 hgone
  · have hlay : IoStep.publish d p.1 temp p.2 ∈ w.lay := by
      unfold EntryWrite.steps commitSteps at hpub
      simpa [saveSteps, removeSteps] using hpub
    refine ⟨w.entry, w.entered.mem.2 (.inr rfl), ?_⟩
    rw [hsidecars, mem_indexEntries w.entered.laid.entry.path]
    exact ⟨p, honly p.1 temp p.2 hlay hside, rfl⟩

end Index

/-- **A write of one chunk leaves the entries as a scan would make them.** -/
theorem EntryWrite.described {env : Env} {d : Dir} {t : RecordType} {u : PartitionUnit} {s : Store}
    {m m' : SeriesMeta} {key : Text} {rows : List t.Row} (w : EntryWrite env d t u (s.dirs d) m m' key rows)
    (h : Fits d (s.dirs d) m) (ht : m.recordType = t) (hd : Described (s.dirs d) m)
    (hfull : ∀ path, env.removeFails d path = false) : Described ((exec w.steps s).dirs d) m' := by
  have hscalar : t = .scalar → (∀ c ∈ m'.chunks, IndexFiled ((exec w.steps s).dirs d) c) ∧
      ∀ p ∈ ((exec w.steps s).dirs d).files, isSidecarName p.1 = true →
        ∃ c ∈ m'.chunks, chunkRelativePath p.1 ∈ c.sidecars.map SidecarMeta.relativePath := by
    rintro rfl
    exact ⟨w.indexed_after h (hd.indexed ht), fun p hp hside => w.covered_after hfull (hd.covered ht) hp hside⟩
  subst ht
  refine hd.update w.entered.head (w.final h).toSupplied (fun c hc => ?_) (fun ht p hp => ?_)
    (fun ht => (hscalar ht).1) (fun ht => (hscalar ht).2)
  · rcases w.entered.mem.1 hc with hk | rfl
    · exact .inl (w.entered.kept_sublist.subset hk)
    · exact .inr ⟨_, List.mem_singleton.2 rfl, w.entered.laid.entry.path, w.entered.laid.stamped, fun ht =>
        (w.plain ht).1⟩
  · rcases mem_files_exec hp with hold | ⟨temp, hpub⟩
    · exact .inl hold
    · -- only the files laid out are published
      refine .inr ((w.plain ht).2 p.1 temp p.2 ?_)
      unfold steps commitSteps at hpub
      simpa [saveSteps, removeSteps] using hpub

/-! ## Tidy manifests -/

/-- Ids are distinct, generations grow with time inside a partition, all but its first chunk are active, nothing is
merging, and the active chunk is one. -/
structure Tidy (m : SeriesMeta) : Prop where
  ids : (m.chunks.map ChunkMeta.chunkId).Nodup
  generations : ∀ a ∈ m.chunks, ∀ b ∈ m.chunks, a.monthKey = b.monthKey → a.startTs < b.startTs →
    a.generation < b.generation
  deltas : ∀ a ∈ m.chunks, ∀ b ∈ m.chunks, a.monthKey = b.monthKey → a.startTs < b.startTs → b.state = .active
  settled : ∀ c ∈ m.chunks, c.state = .active ∨ c.state = .sealed
  active : ∀ id, m.activeChunkId = some id → ∃ c ∈ m.chunks, c.chunkId = id ∧ c.state = .active

theorem Tidy.unmerging {m : SeriesMeta} (h : Tidy m) : ∀ c ∈ m.chunks, c.state ≠ .merging := by
  intro c hc
  rcases h.settled c hc with hs | hs <;> rw [hs] <;> decide

/-- The generations of the partition's entries are below the last one there is. -/
def Unsaturated (m : SeriesMeta) (key : Text) : Prop := ∀ c ∈ m.chunks, c.monthKey = key → c.generation < u32Max

theorem maxGeneration_lt {cs : List ChunkMeta} {b : Nat} (hb : 0 < b) (h : ∀ c ∈ cs, c.generation < b) :
    maxGeneration cs < b := by
  unfold maxGeneration
  rcases foldl_max_mem (cs.map ChunkMeta.generation) 0 with heq | hmem
  · rw [heq]
    exact hb
  · obtain ⟨c, hc, heq⟩ := List.mem_map.1 hmem
    rw [← heq]
    exact h c hc

theorem mem_chunksForPartition {m : SeriesMeta} {key : Text} {e : ChunkMeta} : e ∈ m.chunksForPartition key ↔
    e ∈ m.chunks ∧ e.monthKey = key := by
  unfold SeriesMeta.chunksForPartition
  rw [List.mem_filter, decide_eq_true_iff]

theorem Unsaturated.max_lt {m : SeriesMeta} {key : Text} (h : Unsaturated m key) :
    maxGeneration (m.chunksForPartition key) < u32Max :=
  maxGeneration_lt (by decide) (fun c hc => h c (mem_chunksForPartition.1 hc).1 (mem_chunksForPartition.1 hc).2)

theorem Unsaturated.lt_next {m : SeriesMeta} {key : Text} (h : Unsaturated m key) {e : ChunkMeta} (he : e ∈ m.chunks)
    (hk : e.monthKey = key) :
    e.generation < nextGeneration (m.chunksForPartition key) :=
  lt_nextGeneration (mem_chunksForPartition.2 ⟨he, hk⟩) h.max_lt

theorem mem_of_lastActive {cs : List ChunkMeta} {id : Nat} (h : lastActive cs = some id) : ∃ c ∈ cs, c.chunkId = id ∧
    c.state = .active := by
  unfold lastActive at h
  obtain ⟨c, hc, hid⟩ := Option.map_eq_some_iff.1 h
  refine ⟨c, List.mem_reverse.1 (List.mem_of_find?_eq_some hc), hid, ?_⟩
  simpa using List.find?_some hc

theorem tidy_of_no_chunks {m : SeriesMeta} (h : m.chunks = []) (ha : m.activeChunkId = none) : Tidy m := by
  refine ⟨?_, ?_, ?_, ?_, ?_⟩ <;> simp [h, ha]

/-- **A manifest stays tidy as chunks enter it.** -/
theorem Entered.tidy {d : Dir} {sd : SeriesDir} {m m' : SeriesMeta} {t : RecordType} {u : PartitionUnit}
    {kept : List ChunkMeta} {key name : Text} {f : ChunkFile} {rows : List t.Row} {c : ChunkMeta}
    (w : Entered t u sd m kept key name f rows c m') (h : Fits d sd m) (ht : Tidy m) (hsat : Unsaturated m key) :
    Tidy m' where
  ids := by
    rw [w.chunks]
    refine ((sortByKey_perm ChunkMeta.startTs _).map ChunkMeta.chunkId).nodup_iff.2 ?_
    rw [List.map_append, List.nodup_append]
    refine ⟨ht.ids.sublist (w.kept_sublist.map _), by simp, fun a ha b hb => ?_⟩
    obtain ⟨e, he, rfl⟩ := List.mem_map.1 ha
    obtain rfl : b = c.chunkId := by simpa using hb
    have := chunkId_lt_next (w.kept_sublist.subset he)
    rw [w.laid.chunkId]
    omega
  generations a ha b hb hk hlt := by
    rcases w.mem.1 ha with ha | rfl
    · rcases w.mem.1 hb with hb | rfl
      · exact ht.generations a (w.kept_sublist.subset ha) b (w.kept_sublist.subset hb) hk hlt
      · rw [w.laid.generation]
        exact hsat.lt_next (w.kept_sublist.subset ha) (hk.trans w.laid.monthKey)
    · rcases w.mem.1 hb with hb | rfl
      · have hbefore := (w.before hb (hk.symm.trans w.laid.monthKey)).1
        have hproper := h.chain.2 b (w.kept_sublist.subset hb)
        omega
      · omega
  deltas a ha b hb hk hlt := by
    rcases w.mem.1 hb with hb | rfl
    · rcases w.mem.1 ha with ha | rfl
      · exact ht.deltas a (w.kept_sublist.subset ha) b (w.kept_sublist.subset hb) hk hlt
      · have hbefore := (w.before hb (hk.symm.trans w.laid.monthKey)).1
        have hproper := h.chain.2 b (w.kept_sublist.subset hb)
        omega
    · rcases w.mem.1 ha with ha | rfl
      · exact (w.before ha (hk.trans w.laid.monthKey)).2
      · omega
  settled e he := by
    rcases w.mem.1 he with he | rfl
    · exact ht.settled e (w.kept_sublist.subset he)
    · exact w.laid.settled
  active id hid := by
    rcases w.active with hl | ⟨rfl, hsame⟩ | ⟨hact, hnew⟩
    · exact mem_of_lastActive (hl.symm.trans hid)
    · obtain ⟨e, he, hrest⟩ := ht.active id (hsame.symm.trans hid)
      exact ⟨e, w.mem.2 (.inl he), hrest⟩
    · rw [hnew] at hid
      exact ⟨c, w.mem.2 (.inr rfl), Option.some.inj hid, hact⟩

end FastK
