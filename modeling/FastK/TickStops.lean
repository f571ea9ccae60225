import FastK.Interrupted
/-!
# Interrupted tick writes

A tick write publishes a chunk file for every piece of its list and saves the manifest once, at the end.  Stopped in
between it leaves the old manifest with the files of the first pieces (`putFixedChunk_stopped`).  They meet nothing,
so recovery adopts them all (`recoveredChunks_entered`): a piece is there as a whole or not at all, but the list need
not be (`interrupted_ticks`, `interrupted_ticks_torn`).
-/
namespace FastK

open Journal Spans Versioned

/-! ## Files of entries -/

/-- The directory once the files of the entries are there. -/
def SeriesDir.withEntries {t : RecordType} (sd : SeriesDir) (es : List (TickEntry t)) : SeriesDir :=
  es.foldl (fun sd e => sd.put e.name (.chunk e.file)) sd

section Entries

variable {d : Dir} {t : RecordType} {u : PartitionUnit} {sd sd' : SeriesDir} {m m' : SeriesMeta}
    {es : List (TickEntry t)}

theorem withEntries_manifest : ∀ (es : List (TickEntry t)) (sd : SeriesDir), (sd.withEntries es).manifest = sd.manifest
  | [], _ => rfl
  | e :: es, sd => withEntries_manifest es (sd.put e.name (.chunk e.file))

theorem Grows.filed (g : Grows t u sd m es m') (hw : WellFiled sd) : WellFiled (sd.withEntries es) := by
  induction g with
  | nil => exact hw
  | cons w _ _ ih => exact ih (hw.put_chunk w.laid.file.named.isChunkName _)

/-- The chunk files are the new ones and those there were. -/
theorem Grows.hasChunk (g : Grows t u sd m es m') {n : Text} {f : ChunkFile} :
    HasChunk (sd.withEntries es) n f ↔ (n, f) ∈ newsOf es ∨ HasChunk sd n f := by
  induction g with
  | nil => simp [newsOf, SeriesDir.withEntries]
  | @cons sd m m1 m' e es w plain rest ih =>
    have hput : HasChunk (sd.put e.name (.chunk e.file)) n f ↔ (n = e.name ∧ f = e.file) ∨
      (n ≠ e.name ∧ HasChunk sd n f) :=
      hasChunk_put_chunk w.laid.file.named.isChunkName
    show HasChunk ((sd.put e.name (.chunk e.file)).withEntries es) n f ↔ (n, f) ∈ (e.name, e.file) :: newsOf es ∨
      HasChunk sd n f
    rw [ih, hput, List.mem_cons, Prod.mk.injEq]
    constructor
    · rintro (h | ⟨rfl, rfl⟩ | ⟨-, h⟩)
      · exact .inl (.inr h)
      · exact .inl (.inl ⟨rfl, rfl⟩)
      · exact .inr h
    · rintro ((⟨rfl, rfl⟩ | h) | h)
      · exact .inr (.inl ⟨rfl, rfl⟩)
      · exact .inl h
      · by_cases hn : n = e.name
        · have hfile : sd.hasFile e.name = true := hasFile_iff.2 ⟨_, by rw [← hn]; exact h.1⟩
          rw [w.laid.fresh] at hfile
          cases hfile
        · exact .inr (.inr ⟨hn, h⟩)

/-- Under the old manifest the new files are no harm. -/
theorem Grows.fits_old (g : Grows t u sd m es m') (h : Fits d sd m) (ht : m.recordType = t) (hu : m.unit = u) :
    Fits d (sd.withEntries es) m := by
  refine ⟨h.valid, h.head, ⟨g.filed h.filed, fun n f hf => ?_⟩, fun c hc => (h.tracked c hc).mono (fun n f hf _ =>
    g.hasChunk.2 (.inr hf))⟩
  rcases g.hasChunk.1 hf with hmem | hf
  · obtain ⟨e, he, heq⟩ := List.mem_map.1 hmem
    obtain ⟨rfl, rfl⟩ := Prod.mk.inj heq
    subst ht hu
    exact ⟨e.key, e.rows, (g.laid he).1⟩
  · exact h.files.file n f hf

theorem Grows.supplied (g : Grows t u sd m es m') (hw : WellFiled sd) : Supplied sd (sd.withEntries es)
    (newsOf es) m' where
  filed := g.filed hw
  has _ hp := g.hasChunk.2 (.inl hp)
  kept _ _ hf _ := g.hasChunk.2 (.inr hf)
  only _ _ hf := g.hasChunk.1 hf

/-- The entries afterwards, in some order. -/
theorem Grows.perm (g : Grows t u sd m es m') : m'.chunks.Perm (m.chunks ++ es.map TickEntry.entry) := by
  induction g with
  | nil => simp
  | @cons sd m m1 m' e es w plain rest ih =>
    have h1 : m1.chunks.Perm (m.chunks ++ [e.entry]) := by
      rw [w.chunks]
      exact sortByKey_perm _ _
    rw [List.map_cons, ← List.singleton_append, ← List.append_assoc]
    exact ih.trans (h1.append_right _)

/-- An old chunk has the rows it had. -/
theorem Grows.rowsIn_old (g : Grows t u sd m es m') (h : Fits d sd m) {c : ChunkMeta} (hc : c ∈ m.chunks) :
    rowsIn t (sd.withEntries es) c = rowsIn t sd c := by
  obtain ⟨name, f, rows, hf, -, he⟩ := h.tracked c hc
  exact rowsIn_of_hasChunk h.filed (g.filed h.filed) he.path hf (g.hasChunk.2 (.inr hf))

/-- A new chunk has the rows of its piece. -/
theorem Grows.rowsIn_new (g : Grows t u sd m es m') (hw : WellFiled sd) {e : TickEntry t} (he : e ∈ es) {c : ChunkMeta}
    (hp : c.relativePath = chunkRelativePath e.name) : rowsIn t (sd.withEntries es) c = e.rows :=
  rowsIn_eq (g.filed hw) (g.hasChunk.2 (.inl (List.mem_map_of_mem he))) hp (g.laid he).1.holds

/-- **The rows of the old chunks and of entries for the new ones.** -/
theorem Grows.rows_perm (g : Grows t u sd m es m') (h : SeriesOk d sd m) {olds news : List ChunkMeta}
    (hold : olds.Perm m.chunks ∨ List.Forall₂ SameFile m.chunks olds)
    (hnews : (news.map ChunkMeta.relativePath).Perm (es.map (fun e => chunkRelativePath e.name))) :
    ((olds ++ news).flatMap (rowsIn t (sd.withEntries es))).Perm (seriesRows t sd ++ es.flatMap TickEntry.rows) := by
  rw [List.flatMap_append]
  refine List.Perm.append ?_ ?_
  · have hrows : m.chunks.flatMap (rowsIn t (sd.withEntries es)) = seriesRows t sd := by
      rw [seriesRows_eq h.manifest_eq]
      exact List.flatMap_congr (fun c hc => g.rowsIn_old h.toFits hc)
    rw [← hrows]
    rcases hold with hperm | hsame
    · exact hperm.flatMap_right _
    · have hrowsIn : List.Forall₂ (fun a b =>
        rowsIn t (sd.withEntries es) b = rowsIn t (sd.withEntries es) a) m.chunks olds :=
        hsame.imp (fun _ _ hr => rowsIn_congr t (sd.withEntries es) hr.2)
      exact .of_eq (forall₂_flatMap hrowsIn).symm
  · -- the rows of an entry are those at its path
    have hat : ∀ c, rowsIn t (sd.withEntries es) c = rowsAt t (sd.withEntries es) c.relativePath := fun _ => rfl
    have hflat : news.flatMap (rowsIn t (sd.withEntries es)) = (news.map ChunkMeta.relativePath).flatMap
      (rowsAt t (sd.withEntries es)) := by
      rw [List.flatMap_map]
      exact List.flatMap_congr (fun c _ => hat c)
    rw [hflat]
    refine (hnews.flatMap_right _).trans ?_
    rw [List.flatMap_map]
    refine .of_eq (List.flatMap_congr (fun e he => ?_))
    rw [← (g.laid he).2.1.path, ← hat]
    exact g.rowsIn_new h.filed he (g.laid he).2.1.path

end Entries

/-! ## Recovery -/

section Recovery

variable {d : Dir} {t : RecordType} {u : PartitionUnit} {sd sd' : SeriesDir} {m m' : SeriesMeta}
    {es : List (TickEntry t)} {cs : List ChunkMeta}

/-- The entries describe the same file. -/
abbrev PathDescribes : ChunkMeta → ChunkMeta → Prop :=
  Describes ChunkMeta.startTs ChunkMeta.endTs ChunkMeta.generation ChunkMeta.relativePath

/-- **Recovery adopts every new file.** -/
theorem recoveredChunks_entered (g : Grows t u sd m es m') (h : Fits d sd m) (hex : Exact sd m)
    (ht : m.recordType = t) (hu : m.unit = u) (hc : SameContent (sd.withEntries es) sd') (hscan : Scans sd' cs) :
    ∃ news, recoveredChunks m cs = m.chunks.map (settle m.activeChunkId) ++ news ∧
      (news.map ChunkMeta.relativePath).Perm (es.map (fun e => chunkRelativePath e.name)) := by
  have hwf := hc.wellFiled (g.filed h.filed)
  -- all the entries, old and new, are apart
  obtain ⟨hchain, -⟩ := SeriesMeta.chain_of_validate (g.valid h ht hu) (fun c hcm => by
    rcases g.mem.1 hcm with hold | ⟨e, he, rfl⟩
    · exact h.count_pos c hold
    · rw [(g.laid he).2.1.count]
      exact (g.laid he).1.complete.count_pos)
  have hapart : SpansApart (m.chunks ++ es.map TickEntry.entry) := hchain.apart.perm g.perm
  obtain ⟨-, hnews, hcross⟩ := List.pairwise_append.1 hapart
  have hnodup : ((es.map (fun e => chunkRelativePath e.name)) : List Text).Nodup := by
    have := g.newFiles.nodup.map (fun _ _ => chunkRelativePath_inj)
    rw [newsOf, List.map_map, List.map_map] at this
    exact this
  -- every candidate describes a tracked chunk or a new one
  have hfile : ∀ y ∈ cs, (∃ a ∈ m.chunks.map (settle m.activeChunkId), PathDescribes y a) ∨
    ∃ e ∈ es, PathDescribes y e.entry := by
    intro y hy
    obtain ⟨name, f, hf, hs⟩ := hscan.sound y hy
    rcases g.hasChunk.1 (hc.hasChunk.1 hf) with hmem | hold
    · obtain ⟨e, he, heq⟩ := List.mem_map.1 hmem
      obtain ⟨rfl, rfl⟩ := Prod.mk.inj heq
      exact .inr ⟨e, he, hs.entry.describes (g.laid he).2.1⟩
    · obtain ⟨e, he, hp⟩ := hex name f hold
      obtain ⟨n', f', rows, hf', -, hent⟩ := h.tracked e he
      obtain rfl : name = n' := chunkRelativePath_inj (hp.symm.trans hent.path)
      obtain rfl := h.filed.hasChunk_inj hold hf'
      exact .inl ⟨_, List.mem_map_of_mem he, hs.entry.describes (hent.same (sameChunk_settle _ e))⟩
  -- no tracked chunk has the path of a new one
  have hpath : ∀ a ∈ m.chunks.map (settle m.activeChunkId), ∀ e ∈ es, a.relativePath ≠ e.entry.relativePath := by
    intro a ha e he heq
    obtain ⟨c, hcm, rfl⟩ := List.mem_map.1 ha
    obtain ⟨n', f', rows, hf', -, hent⟩ := h.tracked c hcm
    have hname : n' = e.name :=
      chunkRelativePath_inj (hent.path.symm.trans ((sameChunk_settle _ c).relativePath.symm.trans
        (heq.trans (g.laid he).2.1.path)))
    have hfree := g.newFiles.fresh _ (List.mem_map_of_mem he : (e.name, e.file) ∈ newsOf es)
    have htaken : sd.hasFile e.name = true := hasFile_iff.2 ⟨_, by rw [← hname]; exact hf'.1⟩
    rw [htaken] at hfree
    cases hfree
  let new : ChunkMeta → Bool := fun y => decide (∃ e ∈ es, y.relativePath = e.entry.relativePath)
  have hnew_of : ∀ y ∈ cs, new y = true → ∃ e ∈ es, PathDescribes y e.entry := by
    intro y hy hyn
    rcases hfile y hy with ⟨a, ha, hd⟩ | hnew
    · obtain ⟨e, he, hp⟩ := of_decide_eq_true hyn
      exact absurd (hd.1.symm.trans hp) (hpath a ha e he)
    · exact hnew
  refine ⟨cs.filter new, ?_, ?_⟩
  · refine foldl_adopt_new (fun y hy hyn => ?_) (fun y hy hyn a ha => ?_) ?_
    · rcases hfile y hy with hold | ⟨e, he, hd⟩
      · exact hold
      · exact absurd ⟨e, he, hd.1⟩ (of_decide_eq_false hyn)
    · obtain ⟨e, he, hd⟩ := hnew_of y hy hyn
      refine ⟨fun heq => hpath a ha e he (heq.trans hd.1), fun hm => ?_⟩
      obtain ⟨c, hcm, rfl⟩ := List.mem_map.1 ha
      have hmeet : SpansMeet c e.entry := by
        have := meets_settle.1 hm
        unfold SpansMeet Meets at this ⊢
        rwa [hd.2.2.1, hd.2.2.2] at this
      exact hcross c hcm e.entry (List.mem_map_of_mem he) hmeet
    · have honce : cs.Pairwise (fun x y => x.relativePath ≠ y.relativePath) := List.pairwise_map.1 hscan.once
      refine (honce.sublist List.filter_sublist).imp_of_mem (fun {x y} hx hy hne => ⟨hne, fun hm => ?_⟩)
      obtain ⟨hxc, hxn⟩ := List.mem_filter.1 hx
      obtain ⟨hyc, hyn⟩ := List.mem_filter.1 hy
      obtain ⟨e, he, hd⟩ := hnew_of x hxc hxn
      obtain ⟨e', he', hd'⟩ := hnew_of y hyc hyn
      have hmeet : SpansMeet e.entry e'.entry := by
        unfold SpansMeet Meets at hm ⊢
        rwa [hd.2.2.1, hd.2.2.2, hd'.2.2.1, hd'.2.2.2] at hm
      have heq := Apart.eq_of_meets hnews (List.mem_map_of_mem he) (List.mem_map_of_mem he') hmeet
      exact hne (hd.1.trans (heq ▸ hd'.1.symm))
  · refine (List.perm_ext_iff_of_nodup (hscan.once.sublist (List.Sublist.map _ List.filter_sublist)) hnodup).2
      (fun path => ?_)
    constructor
    · intro hmem
      obtain ⟨y, hy, rfl⟩ := List.mem_map.1 hmem
      obtain ⟨hyc, hyn⟩ := List.mem_filter.1 hy
      obtain ⟨e, he, hd⟩ := hnew_of y hyc hyn
      exact List.mem_map.2 ⟨e, he, (hd.1.trans (g.laid he).2.1.path).symm⟩
    · intro hmem
      obtain ⟨e, he, rfl⟩ := List.mem_map.1 hmem
      obtain ⟨y, hy, hs⟩ := hscan.complete e.name e.file (hc.hasChunk.2 (g.hasChunk.2 (.inl (List.mem_map_of_mem he))))
      refine List.mem_map.2 ⟨y, List.mem_filter.2 ⟨hy, decide_eq_true ⟨e, he, ?_⟩⟩, hs.entry.path⟩
      rw [hs.entry.path, (g.laid he).2.1.path]

end Recovery

/-! ## Stops -/

section Stops

variable {d : Dir} {t : RecordType} {u : PartitionUnit} {sd sd' : SeriesDir} {m : SeriesMeta}

theorem SameContent.withEntries (h : SameContent sd sd') (es : List (TickEntry t)) : SameContent (sd.withEntries es)
    (sd'.withEntries es) := by
  induction es generalizing sd sd' with
  | nil => exact h
  | cons e es ih =>
    refine ih ⟨h.manifest, ?_, fun _ => rfl⟩
    show sd'.files.filter _ ++ _ = sd.files.filter _ ++ _
    rw [h.files]

theorem SameContent.withManifest (h : SameContent sd sd') (file : ManifestFile) :
    SameContent { sd with manifest := file } { sd' with manifest := file } :=
  ⟨rfl, h.files, h.chunksDir⟩

theorem tickSteps_dir (env : Env) : ∀ (es : List (TickEntry t))
    (s : Store), (exec (tickSteps env d es) s).dirs d = (s.dirs d).withEntries es
  | [], _ => rfl
  | e :: es, s => by
    show (exec (writeSteps env d e.name (.chunk e.file) ++ tickSteps env d es) s).dirs d = _
    rw [exec_append, tickSteps_dir env es, writeSteps_dir]
    rfl

/-- What a stop has left: the files of the first pieces, and nothing else has changed. -/
structure PiecesLeft (t : RecordType) (u : PartitionUnit) (d : Dir) (m : SeriesMeta)
    (batches : List (Text × List t.Row)) (s s' : Store) where
  m' : SeriesMeta
  es : List (TickEntry t)
  grows : Grows t u (s.dirs d) m es m'
  first : es.map (fun e => (e.key, e.rows)) <+: batches
  content : SameContent ((s.dirs d).withEntries es) (s'.dirs d)
  others : ∀ e, e ≠ d → SameContent (s.dirs e) (s'.dirs e)

/-- Nothing is there yet. -/
def PiecesLeft.none {batches : List (Text × List t.Row)} {s s' : Store} (h : ∀ e, SameContent (s.dirs e) (s'.dirs e)) :
    PiecesLeft t u d m batches s s' := ⟨m, [], .nil _ _, List.nil_prefix, h d, fun e _ => h e⟩

/-- A chunk file is there with its last step, or nothing is. -/
theorem atomicWriteNew_stopped {env : Env} {name : Text} {body : FileBody} {s s' : Store}
    (h : Stopped (atomicWriteNew env d name body) s s') :
    (∀ e, SameContent (s.dirs e) (s'.dirs e)) ∨ (s.dirs d).hasFile name = false ∧
      s' = exec (writeSteps env d name body) s := by
  obtain ⟨ks, hks, rfl⟩ := h
  unfold Prog.trace at hks
  cases hfile : (s.dirs d).hasFile name with
  | true =>
    rw [atomicWriteNew_exists hfile] at hks
    refine .inl (fun e => exec_calm (fun k hk => ?_) s e)
    rw [List.mem_singleton.1 (hks.subset hk)]
    rfl
  | false =>
    rw [atomicWriteNew_run hfile] at hks
    have hsplit : writeSteps env d name body = [.makeChunksDir d, .stage d (tempNameFor env name)] ++
      [.publish d name (tempNameFor env name) body] := rfl
    rw [hsplit] at hks
    rcases prefix_append_cases hks with hp | ⟨ls, rfl, hls⟩
    · refine .inl (fun e => exec_calm (fun k hk => ?_) s e)
      have hmem := hp.subset hk
      simp only [List.mem_cons, List.not_mem_nil, or_false] at hmem
      rcases hmem with rfl | rfl <;> rfl
    · rcases List.prefix_cons_iff.1 hls with rfl | ⟨l, rfl, hl⟩
      · refine .inl (fun e => exec_calm (fun k hk => ?_) s e)
        simp only [List.append_nil, List.mem_cons, List.not_mem_nil, or_false] at hk
        rcases hk with rfl | rfl <;> rfl
      · rw [List.prefix_nil.1 hl]
        exact .inr ⟨rfl, rfl⟩

/-- A save is done with its last step, or has changed nothing. -/
theorem saveSeriesMeta_stopped {env : Env} {s s' : Store} (hv : m.validate = .ok ())
    (h : Stopped (saveSeriesMeta env d m) s s') :
    (∀ e, SameContent (s.dirs e) (s'.dirs e)) ∨ s' = exec (saveSteps env d m) s := by
  obtain ⟨ks, hks, rfl⟩ := h
  unfold Prog.trace at hks
  rw [saveSeriesMeta_run hv] at hks
  rcases prefix_saveSteps hks with hcalm | rfl
  · exact .inl (fun e => exec_calm hcalm s e)
  · exact .inr rfl

/-- **The loop stopped anywhere has left the files of its first pieces.** -/
theorem appendFixedPartitions_stopped (env : Env) : ∀ {batches : List (Text × List t.Row)} {s s' : Store}
    {m : SeriesMeta}, Fits d (s.dirs d) m →
    m.recordType = t → m.unit = u → PiecesReady u m batches → Stopped (appendFixedPartitions env d u m batches) s s' →
      Nonempty (PiecesLeft t u d m batches s s')
  | [], s, s', m, _, _, _, _, hstop => by
    rw [stopped_of_trace_nil rfl hstop]
    exact ⟨.none (fun _ => .refl _)⟩
  | b :: rest, s, s', m, h, ht, hu, hr, hstop => by
    obtain ⟨key, rows⟩ := b
    have hp := hr.piece (key, rows) (by simp)
    have hafter := hr.after (key, rows) (by simp)
    obtain ⟨⟨name, o⟩, hopt⟩ := appendOptions_ok "append overlaps existing partition chunk: " rfl hafter
    obtain ⟨hplan, -, hstate⟩ := appendOptions_plan rfl hopt
    have hkey : partitionKey (firstTs rows) u = .ok key := by
      obtain ⟨r, hrow, hfirst⟩ := exists_firstTs hp.1
      rw [← hfirst]
      exact hp.2 r hrow
    unfold appendFixedPartitions at hstop
    rw [hopt, Prog.lift_ok_bind] at hstop
    simp only at hstop
    cases hchunk : fixedChunk m rows u o with
    | error e =>
      rw [hchunk, Prog.lift_error_bind] at hstop
      rw [stopped_of_trace_nil rfl hstop]
      exact ⟨.none (fun _ => .refl _)⟩
    | ok fc =>
      obtain ⟨f, c⟩ := fc
      rw [hchunk, Prog.lift_ok_bind] at hstop
      simp only at hstop
      -- the entry this piece gets once its file is there
      have hent : (s.dirs d).hasFile name = false → ∃ m1, upsertChunkMeta env.now m c = .ok m1 ∧
          Entered t u (s.dirs d) m m.chunks key name f rows c (activate c m1) := by
        intro hfile
        have w := fixedChunk_laid (t := t) hplan hfile hkey hchunk
        have hstart : c.startTs = firstTs rows := w.entry.startTs.trans w.file.holds.startTs_eq
        exact upsert_activate_ok h hu w (by rw [hstart]; exact hafter)
          (fun hne => (fixedChunk_entry hchunk).2.trans (hstate hne)) env.now
      have hothers : ∀ e, e ≠ d → SameContent (s.dirs e) ((exec (writeSteps env d name (.chunk f)) s).dirs e) :=
        fun e he => exec_other (writeSteps_on name (.chunk f)) he s
      rcases stopped_bind hstop with hwrite | ⟨_, hres, hnext⟩
      · rcases atomicWriteNew_stopped hwrite with hsame | ⟨hfile, rfl⟩
        · exact ⟨.none hsame⟩
        · obtain ⟨m1, -, hentered⟩ := hent hfile
          refine ⟨activate c m1, [⟨key, rows, name, f, c⟩], .cons hentered (fixedChunk_entry hchunk).1 (.nil _ _),
            ⟨rest, rfl⟩, ?_, hothers⟩
          rw [writeSteps_dir]
          exact .refl _
      · have hfile : (s.dirs d).hasFile name = false := by
          by_contra hno
          unfold Prog.result at hres
          rw [atomicWriteNew_exists (Bool.not_eq_false _ ▸ hno)] at hres
          cases hres
        obtain ⟨m1, hup, hentered⟩ := hent hfile
        rw [hup, Prog.lift_ok_bind, Prog.final_of_run (atomicWriteNew_run hfile)] at hnext
        have hdir := writeSteps_dir env d name (.chunk f) s
        have hfits : Fits d ((exec (writeSteps env d name (.chunk f)) s).dirs d) (activate c m1) := by
          rw [hdir]
          exact hentered.fits_put h ht hu
        obtain ⟨left⟩ := appendFixedPartitions_stopped env hfits (hentered.head.recordType.trans ht)
          (hentered.head.unit.trans hu) (hr.step hentered) hnext
        have hgrows := left.grows
        have hcontent := left.content
        rw [hdir] at hgrows hcontent
        exact ⟨left.m', ⟨key, rows, name, f, c⟩ :: left.es, .cons hentered (fixedChunk_entry hchunk).1 hgrows,
          List.cons_prefix_cons.2 ⟨rfl, left.first⟩, hcontent, fun e he => (hothers e he).trans (left.others e he)⟩

end Stops

/-! ## The whole write -/

section Put

variable {env : Env} {k : FixedKind} {symbol channel : Text} {records : List k.Row} {m : SeriesMeta} {s s' : Store}

/-- What a write has left once its manifest is there. -/
structure PiecesSaved (t : RecordType) (u : PartitionUnit) (d : Dir) (m : SeriesMeta)
    (batches : List (Text × List t.Row)) (s s' : Store) where
  m' : SeriesMeta
  es : List (TickEntry t)
  grows : Grows t u (s.dirs d) m es m'
  whole : es.map (fun e => (e.key, e.rows)) = batches
  content : SameContent { (s.dirs d).withEntries es with manifest := .current m' } (s'.dirs d)
  others : ∀ e, e ≠ d → SameContent (s.dirs e) (s'.dirs e)

/-- A stop of a tick write leaves everything as it was, the files of the first pieces, or the manifest with all. -/
def TickStop (k : FixedKind) (d : Dir) (m : SeriesMeta) (records : List k.Row) (s s' : Store) : Prop :=
  (∀ e, SameContent (s.dirs e) (s'.dirs e)) ∨
    ∃ batches, m.recordType = k.recordType ∧ splitFixedRecordsByPartition records m.unit = .ok batches ∧
      (Nonempty (PiecesLeft k.recordType m.unit d m batches s s') ∨
        Nonempty (PiecesSaved k.recordType m.unit d m batches s s'))

theorem putFixedLocked_stopped (h : SeriesOk (k.dir symbol channel) (s.dirs (k.dir symbol channel)) m)
    (hread : ∀ c ∈ m.chunks, c.state.isReadable = true) (ho : Ordered records)
    (hstop : Stopped (putFixedLocked env k symbol channel records) s s') :
    TickStop k (k.dir symbol channel) m records s s' := by
  have hload : loadMeta none (k.dir symbol channel) s = ([], .ok m) := by
    unfold loadMeta
    rw [Prog.look_bind, metaFor_series h (.inl rfl)]
    rfl
  have hnone : s' = s → TickStop k (k.dir symbol channel) m records s s' :=
    fun heq => .inl (fun e => by rw [heq]; exact .refl _)
  unfold putFixedLocked at hstop
  rcases stopped_bind hstop with hfirst | ⟨m₀, hres, hstop⟩
  · exact hnone (stopped_of_trace_nil (congrArg Prod.fst hload) hfirst)
  obtain rfl : m = m₀ := Except.ok.inj ((congrArg Prod.snd hload).symm.trans hres)
  rw [Prog.final_of_run hload, exec_nil] at hstop
  cases hb : fixedBatches k symbol channel m records with
  | error e =>
    rw [hb, Prog.lift_error_bind] at hstop
    exact hnone (stopped_of_trace_nil rfl hstop)
  | ok ub =>
    obtain ⟨u, batches⟩ := ub
    obtain ⟨ht, rfl, hsplit, hcheck⟩ := fixedBatches_ok hb
    have hready := piecesReady hread ho hsplit hcheck
    rw [hb, Prog.lift_ok_bind] at hstop
    simp only at hstop
    -- the two steps before the loop leave the files alone
    rcases stopped_bind hstop with hemit | ⟨_, -, hstop⟩
    · rcases stopped_emit hemit with heq | rfl
      · exact hnone heq
      · exact .inl (fun e => apply_calm rfl s e)
    rcases stopped_bind hstop with hemit | ⟨_, -, hstop⟩
    · rcases stopped_emit hemit with rfl | rfl
      · exact .inl (fun e => apply_calm rfl s e)
      · exact .inl (fun e => (apply_calm rfl s e).trans (apply_calm rfl _ e))
    rw [Prog.final_emit, Prog.final_emit] at hstop
    set s₂ := Journal.Store.apply (IoStep.makeChunksDir (k.dir symbol channel)) (Journal.Store.apply IoStep.arm s)
      with hs₂
    have hsame : ∀ e, SameContent (s.dirs e) (s₂.dirs e) :=
      fun e => (apply_calm (k := .arm) rfl s e).trans (apply_calm rfl _ e)
    have hfits := (hsame (k.dir symbol channel)).fits h.toFits
    have hleft : Nonempty (PiecesLeft k.recordType m.unit (k.dir symbol channel) m batches s₂ s') →
      TickStop k (k.dir symbol channel) m records s s' := by
      rintro ⟨left⟩
      refine .inr ⟨batches, ht, hsplit, .inl ⟨⟨left.m', left.es, left.grows.congr (hsame _), left.first, ?_, ?_⟩⟩⟩
      · exact ((hsame _).withEntries left.es).trans left.content
      · exact fun e he => (hsame e).trans (left.others e he)
    rcases stopped_bind hstop with hloop | ⟨m', hres', hstop⟩
    · exact hleft (appendFixedPartitions_stopped env hfits ht rfl hready hloop)
    rcases appendFixedPartitions_run env hfits ht rfl hready with ⟨⟨tr, e, hrun⟩, -⟩ | ⟨es, m'', hgrows, hmap, hrun⟩
    · unfold Prog.result at hres'
      rw [hrun] at hres'
      cases hres'
    obtain rfl : m'' = m' := by
      unfold Prog.result at hres'
      rw [hrun] at hres'
      exact Except.ok.inj hres'
    rw [Prog.final_of_run hrun] at hstop
    set s₃ := exec (tickSteps env (k.dir symbol channel) es) s₂ with hs₃
    have hdir : s₃.dirs (k.dir symbol channel) = (s₂.dirs (k.dir symbol channel)).withEntries es :=
      tickSteps_dir env es s₂
    have hg := hgrows.congr (hsame _)
    have hcontent : SameContent ((s.dirs (k.dir symbol channel)).withEntries es) (s₃.dirs (k.dir symbol channel)) := by
      rw [hdir]
      exact (hsame _).withEntries es
    have hothers : ∀ e, e ≠ k.dir symbol channel → SameContent (s.dirs e) (s₃.dirs e) := by
      intro e he
      refine (hsame e).trans (exec_other (d := k.dir symbol channel) (fun x hx => ?_) he s₂)
      obtain ⟨y, -, hy⟩ := List.mem_flatMap.1 hx
      exact writeSteps_on _ _ x hy
    have hhome : seriesDir m''.symbol m''.category m''.name = k.dir symbol channel := (h.head.sameHead hg.head).homed
    have hsaved : ∀ x, (∀ e, SameContent ((exec (saveSteps env (k.dir symbol channel) m'') s₃).dirs e) (x.dirs e)) →
        Nonempty (PiecesSaved k.recordType m.unit (k.dir symbol channel) m batches s x) := by
      intro x hx
      refine ⟨⟨m'', es, hg, hmap, ?_, fun e he => ?_⟩⟩
      · have hd := hx (k.dir symbol channel)
        rw [saveSteps_dir] at hd
        exact (hcontent.withManifest _).trans hd
      · have hd := hx e
        rw [saveSteps_other env he] at hd
        exact (hothers e he).trans hd
    rw [hhome] at hstop
    have hvalid := hg.valid h.toFits ht rfl
    rcases stopped_bind hstop with hsaving | ⟨_, -, hend⟩
    · rcases saveSeriesMeta_stopped hvalid hsaving with hcalm | rfl
      · exact .inr ⟨batches, ht, hsplit, .inl ⟨⟨m'', es, hg, by rw [hmap], hcontent.trans (hcalm _), fun e he =>
          (hothers e he).trans (hcalm e)⟩⟩⟩
      · exact .inr ⟨batches, ht, hsplit, .inr (hsaved _ (fun _ => .refl _))⟩
    · rw [Prog.final_of_run (saveSeriesMeta_run hvalid s₃)] at hend
      rcases stopped_emit hend with rfl | rfl
      · exact .inr ⟨batches, ht, hsplit, .inr (hsaved _ (fun _ => .refl _))⟩
      · exact .inr ⟨batches, ht, hsplit, .inr (hsaved _ (fun e => apply_calm rfl _ e))⟩

theorem TickStop.of_dirs {d : Dir} {u : Store} (hdirs : ∀ e, u.dirs e = s.dirs e) (h : TickStop k d m records u s') :
    TickStop k d m records s s' := by
  rcases h with hsame | ⟨batches, ht, hsplit, ⟨⟨left⟩⟩ | ⟨⟨saved⟩⟩⟩
  · exact .inl (fun e => hdirs e ▸ hsame e)
  · exact .inr ⟨batches, ht, hsplit, .inl ⟨⟨left.m', left.es, hdirs d ▸ left.grows, left.first,
      hdirs d ▸ left.content, fun e he => hdirs e ▸ left.others e he⟩⟩⟩
  · exact .inr ⟨batches, ht, hsplit, .inr ⟨⟨saved.m', saved.es, hdirs d ▸ saved.grows, saved.whole,
      hdirs d ▸ saved.content, fun e he => hdirs e ▸ saved.others e he⟩⟩⟩

/-- **What a stopped tick write leaves of a store in order.** -/
theorem putFixedChunk_stopped {C : Nat} (hg : GoodStore C s)
    (hm : (s.dirs (k.dir symbol channel)).manifest = .current m)
    (hstop : Stopped (putFixedChunk env k symbol channel records) s s') :
    TickStop k (k.dir symbol channel) m records s s' := by
  rw [putFixedChunk_eq] at hstop
  rcases stopped_bind hstop with hcheck | ⟨_, hord, hstop⟩
  · exact .inl (fun e => by rw [stopped_of_trace_nil rfl hcheck]; exact .refl _)
  obtain ⟨tr, hbegin, hquiet⟩ := hg.begin env
  rcases stopped_bind hstop with hearly | ⟨_, -, hstop⟩
  · obtain ⟨ks, hks, rfl⟩ := hearly
    unfold Prog.trace at hks
    rw [Prog.final_lift, hbegin] at hks
    refine .inl (fun e => ?_)
    rw [Prog.final_lift, exec_quiet (fun x hx => hquiet x (hks.subset hx)) s e]
    exact .refl _
  · rw [Prog.final_lift, Prog.final_of_run hbegin] at hstop
    have hdirs := exec_quiet hquiet s
    have hseries := (hg.dir _).of_current hm
    refine TickStop.of_dirs hdirs (putFixedLocked_stopped ?_ hseries.readable
      (validateStrictOrder_eq_ok.1 hord).2 hstop)
    rw [hdirs]
    exact hseries.seriesOk hm

end Put

/-! ## What recovery makes of the pieces -/

section Pieces

variable {d : Dir} {t : RecordType} {u : PartitionUnit} {sd sd' : SeriesDir} {m m' m₁ : SeriesMeta}
    {es : List (TickEntry t)}

theorem rows_withEntries (hc : sd'.files = (sd.withEntries es).files) :
    seriesRows t { sd' with manifest := .current m₁ } = m₁.chunks.flatMap (rowsIn t (sd.withEntries es)) := by
  rw [seriesRows_eq rfl]
  refine List.flatMap_congr (fun c _ => ?_)
  unfold rowsIn SeriesDir.lookup
  rw [hc]

/-- Recovery of the files of pieces under the old manifest gives the rows of these pieces. -/
theorem Grows.recovered_rows (g : Grows t u sd m es m') (h : SeriesOk d sd m) (hex : Exact sd m)
    (ht : m.recordType = t) (hu : m.unit = u) (hc : SameContent (sd.withEntries es) sd') {now : Int}
    {cs : List ChunkMeta} (hscan : Scans sd' cs) {saves : List SeriesMeta}
    (hs : saves = [] ∧ recoveredChunks m cs = m.chunks ∨ saves = [recoveredMeta now m (recoveredChunks m cs)]) :
    (seriesRows t { sd' with manifest := .current (lastSaved m saves) }).Perm (seriesRows t sd ++
      es.flatMap TickEntry.rows) := by
  obtain ⟨news, hrec, hnews⟩ := recoveredChunks_entered g h.toFits hex ht hu hc hscan
  rw [rows_withEntries hc.files, (lastSaved_spec h.valid h.count_pos hscan.readable hs).2.2, hrec]
  refine ((sortByKey_perm _ _).flatMap_right _).trans ?_
  exact g.rows_perm h (.inr (forall₂_settle m.activeChunkId m.chunks)) hnews

/-- The rows under the new manifest. -/
theorem Grows.saved_rows (g : Grows t u sd m es m') (h : SeriesOk d sd m) (hc : sd'.files = (sd.withEntries es).files) :
    (seriesRows t { sd' with manifest := .current m' }).Perm (seriesRows t sd ++ es.flatMap TickEntry.rows) := by
  rw [rows_withEntries hc]
  refine (g.perm.flatMap_right _).trans (g.rows_perm h (.inl (List.Perm.refl _)) (.of_eq ?_))
  rw [List.map_map]
  exact List.map_congr_left (fun e he => (g.laid he).2.1.path)

theorem Grows.exact (g : Grows t u sd m es m') (hex : Exact sd m) (hc : sd'.files = (sd.withEntries es).files) :
    Exact sd' m' := by
  intro name f hf
  rcases g.hasChunk.1 ((hasChunk_congr hc).1 hf) with hmem | hold
  · obtain ⟨e, he, heq⟩ := List.mem_map.1 hmem
    obtain ⟨rfl, rfl⟩ := Prod.mk.inj heq
    exact ⟨e.entry, g.mem.2 (.inr ⟨e, he, rfl⟩), (g.laid he).2.1.path⟩
  · obtain ⟨e, he, hp⟩ := hex name f hold
    exact ⟨e, g.mem.2 (.inl he), hp⟩

end Pieces

section Interrupted

variable {env : Env} {root : Dir} {k : FixedKind} {symbol channel : Text} {records : List k.Row} {m : SeriesMeta}
    {s t : Store} {n : Nat}

/-- **A stopped tick write, recovered, has written the first pieces of its list and nothing of the others.** -/
theorem interrupted_ticks (h : Run root HealthyPlain n s) (_ : (Call.putFixed k symbol channel records).Plain)
    (hm : (s.dirs (k.dir symbol channel)).manifest = .current m)
    (hstop : Stopped (putFixedChunk env k symbol channel records) s t) (env' : Env) :
    (∃ report, (startupRecoverLocked env').result t = .ok report) ∧
      ((seriesRows k.recordType (((startupRecoverLocked env').final t).dirs (k.dir symbol channel))).Perm
          (seriesRows k.recordType (s.dirs (k.dir symbol channel))) ∨
        ∃ batches pieces, splitFixedRecordsByPartition records m.unit = .ok batches ∧ pieces <+: batches ∧
          (seriesRows k.recordType (((startupRecoverLocked env').final t).dirs (k.dir symbol channel))).Perm
            (seriesRows k.recordType (s.dirs (k.dir symbol channel)) ++ pieces.flatMap Prod.snd)) := by
  obtain ⟨C, hg⟩ := h.unplain.healthy
  have hseries := (hg.dir _).of_current hm
  have hok := hseries.seriesOk hm
  obtain ⟨ks, -, hks⟩ := id hstop
  have hrooted : t.Rooted := by
    rw [hks]
    exact exec_rooted ks h.rooted
  rcases putFixedChunk_stopped hg hm hstop with hsame | ⟨batches, ht, hsplit, ⟨left⟩ | ⟨saved⟩⟩
  · have hmt := (hsame (k.dir symbol channel)).manifest.trans hm
    obtain ⟨hres, -, m₁, hdir, hm₁⟩ :=
      recover_unfinished env' hrooted hmt (((hg.dir _).congr (hsame _)).recovers env' t.root)
      (fun e _ => (hg.dir e).congr (hsame e))
    obtain rfl : m₁ = m := by
      rcases hm₁ with ⟨-, rfl⟩ | ⟨-, saves, rfl, rfl⟩ <;> rfl
    refine ⟨hres, .inl (.of_eq ?_)⟩
    rw [hdir, ← (hsame (k.dir symbol channel)).seriesRows, ← hmt]
  · obtain ⟨m', es, hgrows, hfirst, hcontent, hothers⟩ := left
    have hokt := hcontent.seriesOk (⟨hgrows.fits_old hok.toFits ht rfl,
      (withEntries_manifest _ _).trans hm⟩ : SeriesOk _ _ m)
    obtain ⟨hres, -, m₁, hdir, hm₁⟩ := recover_unfinished env' hrooted hokt.manifest_eq
      (Q := fun saves => ∃ cs, Scans (t.dirs (k.dir symbol channel)) cs ∧
        (saves = [] ∧ recoveredChunks m cs = m.chunks ∨ saves = [recoveredMeta env'.now m (recoveredChunks m cs)]))
      (fun report => by
        obtain ⟨cs, saves, report', hscan, hrec, hs⟩ :=
          hokt.recover env'.now (t.root ++ "series".toList :: k.dir symbol channel) env'.order report
        exact ⟨saves, report', hrec, cs, hscan, hs⟩)
      (fun e he => (hg.dir e).congr (hothers e he))
    refine ⟨hres, ?_⟩
    rw [hdir]
    rcases hm₁ with ⟨-, rfl⟩ | ⟨-, saves, ⟨cs, hscan, hs⟩, rfl⟩
    · refine .inl (.of_eq ?_)
      rw [rows_withEntries hcontent.files, seriesRows_eq hm]
      exact List.flatMap_congr (fun c hc => hgrows.rowsIn_old hok.toFits hc)
    · refine .inr ⟨batches, es.map (fun e => (e.key, e.rows)), hsplit, hfirst, ?_⟩
      rw [List.flatMap_map]
      exact hgrows.recovered_rows hok hseries.exact ht rfl hcontent hscan hs
  · obtain ⟨m', es, hgrows, hwhole, hcontent, hothers⟩ := saved
    have hfiles : (t.dirs (k.dir symbol channel)).files = ((s.dirs (k.dir symbol channel)).withEntries es).files :=
      hcontent.files
    have hfits := hgrows.fits hok.toFits ht rfl (hgrows.supplied hok.filed)
    have hnew : SeriesOk (k.dir symbol channel) { (s.dirs (k.dir symbol channel)).withEntries es
      with manifest := .current m' } m' :=
      ⟨⟨hfits.valid, hfits.head, ⟨hfits.filed.congr rfl (fun hd => hd), hfits.files.file⟩, hfits.tracked⟩, rfl⟩
    have hokt := hcontent.seriesOk hnew
    have hno : NothingToAdopt (t.dirs (k.dir symbol channel)) m' := (hgrows.exact hseries.exact hfiles).nothingToAdopt
    obtain ⟨hres, -, m₁, hdir, hm₁⟩ := recover_unfinished env' hrooted hokt.manifest_eq
      (Q := fun saves => seriesRows k.recordType (recoveredDir (t.dirs (k.dir symbol channel)) m' saves) =
        seriesRows k.recordType (t.dirs (k.dir symbol channel)))
      (fun report => by
        obtain ⟨cs, saves, report', hscan, hrec, hs⟩ :=
          hokt.recover env'.now (t.root ++ "series".toList :: k.dir symbol channel) env'.order report
        exact ⟨saves, report', hrec, recover_keeps_rows hokt hno hscan hs k.recordType⟩)
      (fun e he => (hg.dir e).congr (hothers e he))
    have hsaved : (seriesRows k.recordType (t.dirs (k.dir symbol channel))).Perm
        (seriesRows k.recordType (s.dirs (k.dir symbol channel)) ++ es.flatMap TickEntry.rows) := by
      have := hgrows.saved_rows hok hfiles
      rwa [← hokt.manifest_eq] at this
    refine ⟨hres, .inr ⟨batches, batches, hsplit, List.prefix_rfl, ?_⟩⟩
    rw [← hwhole, List.flatMap_map, hdir]
    rcases hm₁ with ⟨-, rfl⟩ | ⟨-, saves, hrows, rfl⟩
    · rw [← hokt.manifest_eq]
      exact hsaved
    · exact (List.Perm.of_eq hrows).trans hsaved

end Interrupted

/-! ### Trades of two months -/

def sampleTradeCalls : List Call := [.registerFixed .trade "X" "c" 1000 .month]

theorem sampleTradeCalls_ok : CallsOk (Env.plain 5)
    (fun env c s => env.Faultless ∧ c.Regular s) sampleTradeCalls (Store.empty []) :=
  ⟨⟨plain_faultless 5, trivial, trivial, trivial, trivial⟩, trivial⟩

def sampleTradeStore : Store := runCalls (Env.plain 5) sampleTradeCalls (Store.empty [])

theorem sampleTradeStore_run : Run [] HealthyPlain 1 sampleTradeStore := runCalls_plain (by decide +kernel)
    (by decide) sampleTradeCalls_ok

def sampleTrades : List (FixedKind.Row .trade) := [sampleTrade 0, sampleTrade 2678400000]

/-- The write of the trades after some of its steps. -/
def stoppedTrades (steps : Nat) : Store :=
  exec (((putFixedChunk (Env.plain 6) .trade "X" "c" sampleTrades).trace sampleTradeStore).take steps) sampleTradeStore

theorem stoppedTrades_stopped (steps : Nat) :
    Stopped (putFixedChunk (Env.plain 6) .trade "X" "c" sampleTrades) sampleTradeStore (stoppedTrades steps) :=
  ⟨_, List.take_prefix _ _, rfl⟩

/-- Stopped once the file of January is there, recovery adopts January alone. -/
theorem interrupted_ticks_torn : ¬ ∀ (env env' : Env) (root : Dir) (n : Nat) (s t : Store) (k : FixedKind)
    (symbol channel : Text) (records : List k.Row) (m : SeriesMeta), Run root Healthy n s →
      (s.dirs (k.dir symbol channel)).manifest = .current m → m.recordType = k.recordType →
    Stopped (putFixedChunk env k symbol channel records) s t →
    (seriesRows k.recordType (((startupRecoverLocked env').final t).dirs (k.dir symbol channel))).Perm
        (seriesRows k.recordType (s.dirs (k.dir symbol channel))) ∨
      (seriesRows k.recordType (((startupRecoverLocked env').final t).dirs (k.dir symbol channel))).Perm
        (seriesRows k.recordType (s.dirs (k.dir symbol channel)) ++ records) := by
  intro hall
  have htest : (sampleTradeStore.dirs (FixedKind.trade.dir "X" "c")).tests (fun m =>
    decide (m.recordType = .trade)) = true := by decide +kernel
  obtain ⟨m, hm, ht⟩ := SeriesDir.of_tests htest
  have hbefore : (seriesRows .trade (sampleTradeStore.dirs (FixedKind.trade.dir "X" "c"))).length = 0 := by
    decide +kernel
  have hafter : (seriesRows .trade (((startupRecoverLocked (Env.plain 7)).final (stoppedTrades 5)).dirs
    (FixedKind.trade.dir "X" "c"))).length = 1 := by
    decide +kernel
  rcases hall (Env.plain 6) (Env.plain 7) [] 1 sampleTradeStore (stoppedTrades 5) .trade "X" "c" sampleTrades m
    sampleTradeStore_run.unplain hm
    (of_decide_eq_true ht) (stoppedTrades_stopped 5) with hperm | hperm
  · exact absurd (hafter.symm.trans (hperm.length_eq.trans hbefore)) (by decide)
  · have hlength := hafter.symm.trans (hperm.length_eq.trans List.length_append)
    exact absurd (hlength.trans (congrArg (fun l => l + sampleTrades.length) hbefore)) (by decide)

theorem interrupted_ticks_sample : ∃ m, (sampleTradeStore.dirs (FixedKind.trade.dir "X" "c")).manifest = .current m ∧
    (∃ report, (startupRecoverLocked (Env.plain 7)).result (stoppedTrades 5) = .ok report) ∧
    ((seriesRows FixedKind.trade.recordType (((startupRecoverLocked (Env.plain 7)).final (stoppedTrades 5)).dirs
      (FixedKind.trade.dir "X" "c"))).Perm
        (seriesRows FixedKind.trade.recordType (sampleTradeStore.dirs (FixedKind.trade.dir "X" "c"))) ∨
      ∃ batches pieces, splitFixedRecordsByPartition sampleTrades m.unit = .ok batches ∧ pieces <+: batches ∧
        (seriesRows FixedKind.trade.recordType (((startupRecoverLocked (Env.plain 7)).final (stoppedTrades 5)).dirs
          (FixedKind.trade.dir "X" "c"))).Perm
          (seriesRows FixedKind.trade.recordType (sampleTradeStore.dirs (FixedKind.trade.dir "X" "c")) ++
            pieces.flatMap Prod.snd)) := by
  have htest : (sampleTradeStore.dirs (FixedKind.trade.dir "X" "c")).tests (fun m =>
    decide (m.recordType = .trade)) = true := by decide +kernel
  obtain ⟨m, hm, -⟩ := SeriesDir.of_tests htest
  exact ⟨m, hm, interrupted_ticks sampleTradeStore_run (by decide +kernel) hm (stoppedTrades_stopped 5) (Env.plain 7)⟩

end FastK
