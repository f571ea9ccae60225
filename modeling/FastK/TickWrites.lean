import FastK.KlineWrites
/-!
# Tick writes

A tick write cuts its records where their partition changes, enters one chunk for each piece after what the partition
holds, and saves the manifest once at the end (`putFixedLocked_run`).  The pieces are the records in order, each of one
partition, and no partition has two of them (`splitFixedRecordsByPartition_spec`); so no piece stands in another's way.
-/
namespace FastK

open Journal Spans

/-! ## Cutting records into partitions -/

section Split

variable {R : Type} [FixedRecord R] {u : PartitionUnit}

/-- A piece holds records of the partition it names. -/
def Piece (u : PartitionUnit) (b : Text × List R) : Prop :=
  b.2 ≠ [] ∧ ∀ r ∈ b.2, partitionKey (FixedRecord.ts r) u = .ok b.1

theorem splitFrom_spec : ∀ {rs : List R} {key : Text} {batch : List R}
    {out : List (Text × List R)}, splitFrom u key batch rs = .ok out →
    Piece u (key, batch) → Ordered (batch ++ rs) →
    out.flatMap Prod.snd = batch ++ rs ∧ (∀ b ∈ out, Piece u b) ∧ out.Pairwise (fun a b => a.1 ≠ b.1)
  | [], key, batch, out, h, hp, _ => by
    obtain rfl := Except.ok.inj h
    refine ⟨by simp, fun b hb => ?_, List.pairwise_singleton _ _⟩
    rw [List.mem_singleton.1 hb]
    exact hp
  | r :: rs, key, batch, out, h, hp, ho => by
    unfold splitFrom at h
    cases hk : partitionKey (FixedRecord.ts r) u with
    | error e => rw [hk] at h; cases h
    | ok next =>
      rw [hk] at h
      simp only at h
      split at h
      · rename_i hne
        cases hrest : splitFrom u next [r] rs with
        | error e => rw [hrest] at h; cases h
        | ok rest =>
          rw [hrest] at h
          obtain rfl := Except.ok.inj h
          have hsplit := List.pairwise_append.1 ho
          obtain ⟨hflat, hpieces, hpair⟩ :=
            splitFrom_spec hrest ⟨by simp, fun x hx => by rw [List.mem_singleton.1 hx]; exact hk⟩ hsplit.2.1
          refine ⟨by rw [List.flatMap_cons, hflat]; rfl, ?_, List.pairwise_cons.2 ⟨fun b hb heq => ?_, hpair⟩⟩
          · intro b hb
            rcases List.mem_cons.1 hb with rfl | hb
            · exact hp
            · exact hpieces b hb
          · -- a later piece of the same partition would put `r`, which lies between, into it as well
            obtain ⟨a, ha⟩ := List.exists_mem_of_ne_nil _ hp.1
            obtain ⟨x, hx⟩ := List.exists_mem_of_ne_nil _ (hpieces b hb).1
            have hxr : x ∈ r :: rs := by
              have : x ∈ rest.flatMap Prod.snd := List.mem_flatMap.2 ⟨b, hb, hx⟩
              rwa [hflat] at this
            have har : FixedRecord.ts a ≤ FixedRecord.ts r := (hsplit.2.2 a ha r (by simp)).le
            have hrx : FixedRecord.ts r ≤ FixedRecord.ts x := by
              rcases List.mem_cons.1 hxr with rfl | hxr
              · exact le_refl _
              · exact (List.rel_of_pairwise_cons hsplit.2.1 hxr).le
            have hxkey : partitionKey (FixedRecord.ts x) u = .ok key := by
              rw [show key = b.1 from heq]
              exact (hpieces b hb).2 x hx
            have := partitionKey_convex har hrx (hp.2 a ha) hxkey
            rw [hk] at this
            exact hne (Except.ok.inj this)
      · rename_i hkey
        obtain rfl := not_not.1 hkey
        have := @splitFrom_spec rs next (batch ++ [r]) out h ⟨by simp, fun x hx => ?_⟩ (by rwa [List.append_assoc])
        · rwa [List.append_assoc] at this
        · rcases List.mem_append.1 hx with hx | hx
          · exact hp.2 x hx
          · rw [List.mem_singleton.1 hx]
            exact hk

/-- **The pieces are the records in order, each of one partition, and no two of the same.** -/
theorem splitFixedRecordsByPartition_spec {records : List R} {out : List (Text × List R)}
    (h : splitFixedRecordsByPartition records u = .ok out) (ho : Ordered records) : out.flatMap Prod.snd = records ∧
      (∀ b ∈ out, Piece u b) ∧ out.Pairwise (fun a b => a.1 ≠ b.1) := by
  unfold splitFixedRecordsByPartition at h
  cases records with
  | nil => cases h
  | cons r rs =>
    simp only at h
    cases hk : partitionKey (FixedRecord.ts r) u with
    | error e => rw [hk] at h; cases h
    | ok key =>
      rw [hk] at h
      exact splitFrom_spec h ⟨by simp, fun x hx => by rw [List.mem_singleton.1 hx]; exact hk⟩ ho

end Split

/-! ## Names -/

/-- **A name is that of one partition and one generation.** -/
theorem NamedFor.unique {key key' : Text} {g g' : Nat} {name : Text} (hk : IsKey key) (hk' : IsKey key')
    (h : NamedFor key g name) (h' : NamedFor key' g' name) : key = key' ∧ g = g' := by
  rcases h with ⟨rfl, rfl⟩ | rfl | rfl
  · rcases h' with ⟨heq, rfl⟩ | heq | heq
    · exact ⟨partitionChunkFileName_inj hk hk' heq, rfl⟩
    · exact absurd heq (chunkFileName_ne_delta hk hk')
    · exact absurd heq (chunkFileName_ne_merged hk hk')
  · rcases h' with ⟨heq, -⟩ | heq | heq
    · exact absurd heq.symm (chunkFileName_ne_delta hk' hk)
    · exact partitionDeltaChunkFileName_inj hk hk' heq
    · exact absurd heq (deltaFileName_ne_merged hk hk')
  · rcases h' with ⟨heq, -⟩ | heq | heq
    · exact absurd heq.symm (chunkFileName_ne_merged hk' hk)
    · exact absurd heq.symm (deltaFileName_ne_merged hk' hk)
    · exact partitionMergedChunkFileName_inj hk hk' heq

/-! ## Chunks entering one after another -/

/-- A piece with its chunk. -/
structure TickEntry (t : RecordType) where
  key : Text
  rows : List t.Row
  name : Text
  file : ChunkFile
  entry : ChunkMeta

/-- The chunks enter the manifest one after another, each beside all entries before it. -/
inductive Grows (t : RecordType) (u : PartitionUnit) : SeriesDir → SeriesMeta → List (TickEntry t) → SeriesMeta → Prop
  | nil (sd : SeriesDir) (m : SeriesMeta) : Grows t u sd m [] m
  | cons {sd : SeriesDir} {m m1 m' : SeriesMeta} {e : TickEntry t} {es : List (TickEntry t)}
      (w : Entered t u sd m m.chunks e.key e.name e.file e.rows e.entry m1) (plain : e.entry.sidecars = [])
        (rest : Grows t u (sd.put e.name (.chunk e.file)) m1 es m') :
      Grows t u sd m (e :: es) m'

/-- The new files. -/
def newsOf {t : RecordType} (es : List (TickEntry t)) : List (Text × ChunkFile) := es.map (fun e => (e.name, e.file))

/-- The steps that publish them. -/
def tickSteps {t : RecordType} (env : Env) (d : Dir) (es : List (TickEntry t)) : List IoStep :=
  es.flatMap (fun e => writeSteps env d e.name (.chunk e.file))

theorem writeSteps_dir (env : Env) (d : Dir) (name : Text) (body : FileBody) (s : Store) :
    (exec (writeSteps env d name body) s).dirs d = (s.dirs d).put name body := by
  unfold writeSteps
  simp only [exec_cons, exec_nil, apply_dirs, IoStep.onDir]
  rfl

theorem supplied_put {sd : SeriesDir} (hw : WellFiled sd) {name : Text} (hn : isChunkName name = true)
    (hf : sd.hasFile name = false) (f : ChunkFile) (m' : SeriesMeta) : Supplied sd (sd.put name (.chunk f))
    [(name, f)] m' where
  filed := hw.put_chunk hn f
  has p hp := by
    rw [List.mem_singleton.1 hp]
    exact (hasChunk_put_chunk hn).2 (.inl ⟨rfl, rfl⟩)
  kept n g hg _ := by
    refine (hasChunk_put_chunk hn).2 (.inr ⟨?_, hg⟩)
    rintro rfl
    have : sd.hasFile n = true := hasFile_iff.2 ⟨_, hg.1⟩
    rw [hf] at this
    cases this
  only n g hg := by
    rcases (hasChunk_put_chunk hn).1 hg with ⟨rfl, rfl⟩ | ⟨-, hg⟩
    · exact .inl (by simp)
    · exact .inr hg

section Grows

variable {d : Dir} {t : RecordType} {u : PartitionUnit} {sd : SeriesDir} {m m' : SeriesMeta} {es : List (TickEntry t)}

theorem Entered.fits_put {kept : List ChunkMeta} {key name : Text} {f : ChunkFile} {rows : List t.Row} {c : ChunkMeta}
    (w : Entered t u sd m kept key name f rows c m') (h : Fits d sd m) (ht : m.recordType = t) (hu : m.unit = u) :
    Fits d (sd.put name (.chunk f)) m' :=
  w.fits h ht hu (supplied_put h.filed w.laid.file.named.isChunkName w.laid.fresh f m')

theorem Grows.head (g : Grows t u sd m es m') : m.SameHead m' := by
  induction g with
  | nil => rfl
  | cons w _ _ ih =>
    have h1 := w.head
    rw [SeriesMeta.SameHead] at h1 ih ⊢
    rw [ih, h1]

/-- The entries afterwards are those before and the new ones. -/
theorem Grows.mem (g : Grows t u sd m es m') {c : ChunkMeta} : c ∈ m'.chunks ↔ c ∈ m.chunks ∨
    ∃ e ∈ es, c = e.entry := by
  induction g with
  | nil => simp
  | cons w _ _ ih =>
    rw [ih, w.mem]
    simp only [List.mem_cons, exists_eq_or_imp]
    tauto

theorem Grows.valid (g : Grows t u sd m es m') (h : Fits d sd m) (ht : m.recordType = t) (hu : m.unit = u) :
    m'.validate = .ok () := by
  induction g with
  | nil => exact h.valid
  | cons w _ _ ih => exact ih (w.fits_put h ht hu) (w.head.recordType.trans ht) (w.head.unit.trans hu)

/-- Making the directory `chunks` first changes nothing. -/
theorem Grows.congr {sd' : SeriesDir} (h : SameContent sd sd') (g : Grows t u sd' m es m') : Grows t u sd m es m' := by
  cases g with
  | nil => exact .nil sd m
  | @cons _ _ m1 _ e es w plain rest =>
    have hput : sd'.put e.name (.chunk e.file) = sd.put e.name (.chunk e.file) := by
      unfold SeriesDir.put
      rw [h.manifest, h.files]
    rw [hput] at rest
    exact .cons ⟨{ w.laid with fresh := (h.hasFile e.name).symm.trans w.laid.fresh }, w.head, w.chunks, w.place,
      w.active⟩ plain rest

theorem hasFile_put {name x : Text} {body : FileBody} : (sd.put name body).hasFile x = false ↔ x ≠ name ∧
    sd.hasFile x = false := by
  rw [← Bool.not_eq_true, ← Bool.not_eq_true, hasFile_iff, hasFile_iff]
  constructor
  · refine fun h => ⟨?_, fun ⟨b, hb⟩ => ?_⟩
    · rintro rfl
      exact h ⟨body, mem_put.2 (.inl rfl)⟩
    · by_cases hx : x = name
      · subst hx
        exact h ⟨body, mem_put.2 (.inl rfl)⟩
      · exact h ⟨b, mem_put.2 (.inr ⟨hx, hb⟩)⟩
  · rintro ⟨hx, h⟩ ⟨b, hb⟩
    rcases mem_put.1 hb with heq | ⟨-, hb⟩
    · exact hx (Prod.mk.inj heq).1
    · exact h ⟨b, hb⟩

theorem Grows.newFiles (g : Grows t u sd m es m') : NewFiles sd (newsOf es) := by
  induction g with
  | nil => exact ⟨List.nodup_nil, by simp [newsOf], by simp [newsOf]⟩
  | @cons sd m m1 m' e es w _ rest ih =>
    refine ⟨?_, fun p hp => ?_, fun p hp => ?_⟩
    · refine List.nodup_cons.2 ⟨fun hmem => ?_, ih.nodup⟩
      obtain ⟨p, hp, heq⟩ := List.mem_map.1 hmem
      exact (hasFile_put.1 (ih.fresh p hp)).1 heq
    · rcases List.mem_cons.1 hp with rfl | hp
      · exact w.laid.file.named.isChunkName
      · exact ih.named p hp
    · rcases List.mem_cons.1 hp with rfl | hp
      · exact w.laid.fresh
      · exact (hasFile_put.1 (ih.fresh p hp)).2

/-- Each new chunk has its file and its entry. -/
theorem Grows.laid (g : Grows t u sd m es m') {e : TickEntry t} (he : e ∈ es) :
    FileOk t u e.key e.name e.file e.rows ∧ EntryOf e.entry e.name e.file ∧ e.entry.monthKey = e.key ∧
      e.entry.state ≠ .merging := by
  induction g with
  | nil => cases he
  | cons w _ _ ih =>
    rcases List.mem_cons.1 he with rfl | he
    · refine ⟨w.laid.file, w.laid.entry, w.laid.monthKey, ?_⟩
      rcases w.laid.settled with h | h <;> rw [h] <;> decide
    · exact ih he

theorem Grows.stamped (g : Grows t u sd m es m') {e : TickEntry t} (he : e ∈ es) :
    Stamped m e.name e.file e.entry ∧ e.entry.sidecars = [] := by
  induction g with
  | nil => cases he
  | cons w plain _ ih =>
    rcases List.mem_cons.1 he with rfl | he
    · exact ⟨w.laid.stamped, plain⟩
    · exact ⟨(ih he).1.of_sameHead w.head, (ih he).2⟩

/-- Ticks leave the entries as a scan would make them. -/
theorem Grows.described (g : Grows t u sd m es m') (h : Described sd m) (ht : m.recordType = t) (hne : t ≠ .scalar)
    {sd' : SeriesDir} (hsup : Supplied sd sd' (newsOf es) m') (hfiles : ∀ p ∈ sd'.files, p ∈ sd.files ∨
      isChunkName p.1 = true) : Described sd' m' := by
  refine h.update g.head hsup (fun c hc => ?_) (fun _ => hfiles) (fun hs => absurd (ht.symm.trans hs) hne) (fun hs =>
    absurd (ht.symm.trans hs) hne)
  rcases g.mem.1 hc with hold | ⟨e, he, rfl⟩
  · exact .inl hold
  · exact .inr ⟨(e.name, e.file), List.mem_map_of_mem he, (g.laid he).2.1.path, (g.stamped he).1, fun _ =>
      (g.stamped he).2⟩

theorem maxGeneration_congr {cs cs' : List ChunkMeta} (h : ∀ c, c ∈ cs ↔ c ∈ cs') :
    maxGeneration cs = maxGeneration cs' := by
  have hle : ∀ {as bs : List ChunkMeta}, (∀ c, c ∈ as → c ∈ bs) → maxGeneration as ≤ maxGeneration bs := by
    intro as bs hs
    have hlt := @maxGeneration_lt as (maxGeneration bs + 1) (by omega) (fun c hc =>
      Nat.lt_succ_of_le (le_maxGeneration (hs c hc)))
    omega
  exact le_antisymm (hle (fun c => (h c).1)) (hle (fun c => (h c).2))

/-- A chunk of another partition leaves the generations of this one alone. -/
theorem Entered.nextGeneration_other {key name : Text} {f : ChunkFile} {rows : List t.Row} {c : ChunkMeta}
    (w : Entered t u sd m m.chunks key name f rows c m') {key' : Text} (hne : key' ≠ key) :
    nextGeneration (m'.chunksForPartition key') = nextGeneration (m.chunksForPartition key') := by
  unfold nextGeneration
  rw [@maxGeneration_congr (m'.chunksForPartition key') (m.chunksForPartition key')]
  intro e
  rw [mem_chunksForPartition, mem_chunksForPartition, w.mem]
  constructor
  · rintro ⟨he | rfl, hk⟩
    · exact ⟨he, hk⟩
    · exact absurd (hk.symm.trans w.laid.monthKey) hne
  · exact fun ⟨he, hk⟩ => ⟨.inl he, hk⟩

theorem Grows.generation (g : Grows t u sd m es m') (hkeys : es.Pairwise (fun a b => a.key ≠ b.key)) {e : TickEntry t}
    (he : e ∈ es) :
    e.entry.generation = nextGeneration (m.chunksForPartition e.key) := by
  induction g with
  | nil => cases he
  | cons w _ _ ih =>
    rcases List.mem_cons.1 he with rfl | he
    · exact w.laid.generation
    · rw [ih (List.Pairwise.of_cons hkeys) he, w.nextGeneration_other (fun heq =>
        List.rel_of_pairwise_cons hkeys he heq.symm)]

theorem Grows.tidy (g : Grows t u sd m es m') (h : Fits d sd m) (ht : m.recordType = t) (hu : m.unit = u)
    (hkeys : es.Pairwise (fun a b => a.key ≠ b.key)) (htidy : Tidy m) (hsat : ∀ e ∈ es, Unsaturated m e.key) :
    Tidy m' := by
  induction g with
  | nil => exact htidy
  | cons w _ _ ih =>
    refine ih (w.fits_put h ht hu) (w.head.recordType.trans ht) (w.head.unit.trans hu) (List.Pairwise.of_cons hkeys)
      (w.tidy h htidy (hsat _ (by simp))) (fun e he c hc hk => ?_)
    rcases w.mem.1 hc with hc | rfl
    · exact hsat e (by simp [he]) c hc hk
    · exact absurd (w.laid.monthKey.symm.trans hk) (List.rel_of_pairwise_cons hkeys he)

theorem tickSteps_lays {env : Env} : ∀ k ∈ tickSteps env d es, Lays d (newsOf es) k := by
  intro k hk
  obtain ⟨e, he, hke⟩ := List.mem_flatMap.1 hk
  simp only [writeSteps, List.mem_cons, List.not_mem_nil, or_false] at hke
  rcases hke with rfl | rfl | rfl
  · exact .calm rfl
  · exact .calm rfl
  · exact .chunk (List.mem_map_of_mem he)

/-- **The steps of a tick write.** -/
theorem Grows.plan (g : Grows t u sd m es m') (env : Env) :
    CommitPlan d sd (newsOf es) (.arm :: .makeChunksDir d :: tickSteps env d es) m' [] where
  new := g.newFiles
  lays k hk := by
    rcases List.mem_cons.1 hk with rfl | hk
    · exact .calm rfl
    · rcases List.mem_cons.1 hk with rfl | hk
      · exact .calm rfl
      · exact tickSteps_lays k hk
  published p hp := by
    obtain ⟨e, he, rfl⟩ := List.mem_map.1 hp
    exact ⟨tempNameFor env e.name,
      List.mem_cons_of_mem _ (List.mem_cons_of_mem _ (List.mem_flatMap.2 ⟨e, he, publish_mem_writeSteps⟩))⟩
  tracked p hp := by
    obtain ⟨e, he, rfl⟩ := List.mem_map.1 hp
    exact ⟨e.entry, g.mem.2 (.inr ⟨e, he, rfl⟩), (g.laid he).2.1.path⟩
  clears path hp := by cases hp

theorem Grows.fits (g : Grows t u sd m es m') (h : Fits d sd m) (ht : m.recordType = t) (hu : m.unit = u)
    {sd' : SeriesDir} (hc : Supplied sd sd' (newsOf es) m') : Fits d sd' m' := by
  have hv := g.valid h ht hu
  subst ht hu
  refine h.update g.head hv hc.filed (fun n f hf => ?_) (fun c hcm => ?_)
  · rcases hc.only n f hf with hmem | hf
    · obtain ⟨e, he, heq⟩ := List.mem_map.1 hmem
      obtain ⟨rfl, rfl⟩ := Prod.mk.inj heq
      exact .inr ⟨e.key, e.rows, (g.laid he).1⟩
    · exact .inl hf
  · rcases g.mem.1 hcm with hold | ⟨e, he, rfl⟩
    · exact (h.tracked c hold).mono (fun n f hf hp => hc.kept n f hf ⟨c, hcm, hp⟩)
    · obtain ⟨hfile, hentry, hkey, -⟩ := g.laid he
      exact ⟨e.name, e.file, e.rows, hc.has (e.name, e.file) (List.mem_map_of_mem he),
        by rw [hkey]; exact hfile, hentry⟩

end Grows

/-! ## The loop over the pieces -/

section Loop

variable {env : Env} {d : Dir} {t : RecordType} {u : PartitionUnit}

theorem singlePartition_of {R : Type} [FixedRecord R] {key : Text} : ∀ {rows : List R},
    (∀ r ∈ rows, partitionKey (FixedRecord.ts r) u = .ok key) → singlePartition u key rows = .ok ()
  | [], _ => rfl
  | r :: rs, h => by
    unfold singlePartition
    rw [h r (by simp)]
    simp only
    rw [if_neg (by simp)]
    exact singlePartition_of (fun x hx => h x (by simp [hx]))

theorem byteSize_row_le (t : RecordType) : FixedRecord.byteSize t.Row ≤ 64 := by cases t <;> decide

/-- A piece of a series of its type is never refused by the writer, unless it is longer than memory. -/
theorem fixedChunk_ok {m : SeriesMeta} {rows : List t.Row} {key : Text} {o : WriteChunkOptions} (hh : HeadOk d m)
    (ht : m.recordType = t) (ho : Ordered rows) (hp : Piece u (key, rows))
    (hpath : Text.isBlank o.relativePath = false) (hlen : rows.length < 2 ^ 56) :
    ∃ p, fixedChunk m rows u o = .ok p := by
  subst ht
  obtain ⟨r, hr, hfirst⟩ := exists_firstTs hp.1
  have hkey : partitionKey (firstTs rows) u = .ok key := by
    rw [← hfirst]
    exact hp.2 r hr
  unfold fixedChunk
  rw [validateStrictOrder_eq_ok.2 ⟨hp.1, ho⟩]
  simp only
  rw [if_neg (by rw [RecordType.recordType_row]; simp), if_neg (by rw [hh.schemaId]; simp),
    if_neg (by rw [hh.recordSize]; simp), if_neg (by rw [hpath]; simp), hkey]
  simp only
  rw [singlePartition_of (fun x hx => hp.2 x (List.mem_of_mem_tail hx))]
  exact assembleChunk_fits (byteSize_row_le _) hlen _ _ _ _

theorem fixedChunk_entry {R : Type} [FixedRecord R] {m : SeriesMeta} {rows : List R} {o : WriteChunkOptions}
    {f : ChunkFile} {c : ChunkMeta} (h : fixedChunk m rows u o = .ok (f, c)) : c.sidecars = [] ∧ c.state = o.state := by
  unfold fixedChunk at h
  cases hord : validateStrictOrder R rows with
  | error e => rw [hord] at h; cases h
  | ok _ =>
    rw [hord] at h
    simp only at h
    split at h
    · cases h
    · split at h
      · cases h
      · split at h
        · cases h
        · split at h
          · cases h
          · split at h
            · cases h
            · split at h
              · cases h
              · obtain ⟨heq, -⟩ := assembleChunk_eq_ok h
                obtain ⟨-, rfl⟩ := Prod.mk.inj heq
                exact ⟨rfl, rfl⟩

/-- Every piece fits into memory, and no file has the name its chunk may get. -/
def PiecesFree (sd : SeriesDir) (m : SeriesMeta) (batches : List (Text × List t.Row)) : Prop :=
  ∀ b ∈ batches, b.2.length < 2 ^ 56 ∧ ∀ name, NamedFor b.1 (nextGeneration (m.chunksForPartition b.1)) name →
    sd.hasFile name = false

/-- The pieces come after what their partitions hold. -/
structure PiecesReady (u : PartitionUnit) (m : SeriesMeta) (batches : List (Text × List t.Row)) : Prop where
  piece : ∀ b ∈ batches, Piece u b
  ordered : ∀ b ∈ batches, Ordered b.2
  distinct : batches.Pairwise (fun a b => a.1 ≠ b.1)
  after : ∀ b ∈ batches, ∀ e ∈ m.chunks, e.monthKey = b.1 → e.endTs < firstTs b.2

theorem PiecesFree.step {sd : SeriesDir} {m m1 : SeriesMeta} {b : Text × List t.Row} {rest : List (Text × List t.Row)}
    {name : Text} {f : ChunkFile} {c : ChunkMeta} (hr : PiecesReady u m (b :: rest))
    (w : Entered t u sd m m.chunks b.1 name f b.2 c m1) (hf : PiecesFree sd m (b :: rest)) :
    PiecesFree (sd.put name (.chunk f)) m1 rest := by
  intro x hx
  have hne : b.1 ≠ x.1 := List.rel_of_pairwise_cons hr.distinct hx
  obtain ⟨hlen, hfree⟩ := hf x (by simp [hx])
  refine ⟨hlen, fun n hn => ?_⟩
  rw [w.nextGeneration_other hne.symm] at hn
  refine hasFile_put.2 ⟨?_, hfree n hn⟩
  rintro rfl
  obtain ⟨r, hrx⟩ := List.exists_mem_of_ne_nil _ (hr.piece x (by simp [hx])).1
  have hkey : IsKey x.1 := isKey_of_partitionKey ((hr.piece x (by simp [hx])).2 r hrx)
  exact hne (w.laid.file.named.unique w.laid.file.isKey hkey hn).1

theorem PiecesReady.step {sd : SeriesDir} {m m1 : SeriesMeta} {b : Text × List t.Row}
    {rest : List (Text × List t.Row)} {name : Text} {f : ChunkFile} {c : ChunkMeta} (hr : PiecesReady u m (b :: rest))
    (w : Entered t u sd m m.chunks b.1 name f b.2 c m1) : PiecesReady u m1 rest where
  piece x hx := hr.piece x (by simp [hx])
  ordered x hx := hr.ordered x (by simp [hx])
  distinct := List.Pairwise.of_cons hr.distinct
  after x hx e he hk := by
    rcases w.mem.1 he with he | rfl
    · exact hr.after x (by simp [hx]) e he hk
    · exact absurd (w.laid.monthKey.symm.trans hk) (List.rel_of_pairwise_cons hr.distinct hx)

/-- **The loop enters a chunk for every piece**, unless one does not fit into memory or finds its name taken. -/
theorem appendFixedPartitions_run (env : Env) : ∀ {batches : List (Text × List t.Row)} {s : Store}
    {m : SeriesMeta}, Fits d (s.dirs d) m → m.recordType = t →
    m.unit = u → PiecesReady u m batches →
      ((∃ tr e, appendFixedPartitions env d u m batches s = (tr, .error e)) ∧ ¬ PiecesFree (s.dirs d) m batches) ∨
      ∃ es m', Grows t u (s.dirs d) m es m' ∧ es.map (fun e => (e.key, e.rows)) = batches ∧
        appendFixedPartitions env d u m batches s = (tickSteps env d es, .ok m')
  | [], s, m, _, _, _, _ => .inr ⟨[], m, .nil _ _, rfl, rfl⟩
  | b :: rest, s, m, h, ht, hu, hr => by
    obtain ⟨key, rows⟩ := b
    have hp := hr.piece (key, rows) (by simp)
    have hafter := hr.after (key, rows) (by simp)
    obtain ⟨⟨name, o⟩, hopt⟩ := appendOptions_ok "append overlaps existing partition chunk: " rfl hafter
    obtain ⟨hplan, -, hstate⟩ := appendOptions_plan rfl hopt
    have hkey : partitionKey (firstTs rows) u = .ok key := by
      obtain ⟨r, hrow, hfirst⟩ := exists_firstTs hp.1
      rw [← hfirst]
      exact hp.2 r hrow
    unfold appendFixedPartitions
    rw [hopt, Prog.lift_ok_bind]
    simp only
    cases hchunk : fixedChunk m rows u o with
    | error e =>
      refine .inl ⟨⟨[], e, rfl⟩, fun hfree => ?_⟩
      obtain ⟨p, hok⟩ := fixedChunk_ok h.head ht (hr.ordered (key, rows) (by simp)) hp
        (show Text.isBlank o.relativePath = false by rw [hplan.path]; exact chunkRelativePath_not_blank name)
          (hfree (key, rows) (by simp)).1
      rw [hok] at hchunk
      cases hchunk
    | ok fc =>
      obtain ⟨f, c⟩ := fc
      rw [Prog.lift_ok_bind]
      simp only
      cases hfile : (s.dirs d).hasFile name with
      | true =>
        rw [Prog.bind_run_error (atomicWriteNew_exists hfile)]
        refine .inl ⟨⟨_, _, rfl⟩, fun hfree => ?_⟩
        have := (hfree (key, rows) (by simp)).2 name (hplan.generation ▸ hplan.named)
        rw [hfile] at this
        cases this
      | false =>
        have w := fixedChunk_laid (t := t) hplan hfile hkey hchunk
        have hstart : c.startTs = firstTs rows := w.entry.startTs.trans w.file.holds.startTs_eq
        obtain ⟨m1, hup, hent⟩ := upsert_activate_ok h hu w (by rw [hstart]; exact hafter)
          (fun hne => (fixedChunk_entry hchunk).2.trans (hstate hne)) env.now
        rw [Prog.bind_run (atomicWriteNew_run hfile), hup, Prog.lift_ok_bind]
        have hdir := writeSteps_dir env d name (.chunk f) s
        have hfits : Fits d ((exec (writeSteps env d name (.chunk f)) s).dirs d) (activate c m1) := by
          rw [hdir]
          exact hent.fits_put h ht hu
        rcases appendFixedPartitions_run env hfits (hent.head.recordType.trans ht) (hent.head.unit.trans hu)
          (hr.step hent) with
          ⟨⟨tr, e, hrest⟩, hnot⟩ | ⟨es, m', hgrows, hmap, hrest⟩
        · rw [hrest]
          refine .inl ⟨⟨_, _, rfl⟩, fun hfree => hnot ?_⟩
          rw [hdir]
          exact hfree.step hr hent
        · rw [hrest]
          rw [hdir] at hgrows
          exact .inr ⟨⟨key, rows, name, f, c⟩ :: es, m', .cons hent (fixedChunk_entry hchunk).1 hgrows,
            by rw [List.map_cons, hmap], rfl⟩

end Loop

/-! ## The whole write -/

section Put

variable {env : Env} {k : FixedKind} {symbol channel : Text} {records : List k.Row} {m : SeriesMeta} {s : Store}

/-- `put_fixed_chunk` after its first check and the recovery of a pending store. -/
def putFixedLocked (env : Env) (k : FixedKind) (symbol channel : Text) (records : List k.Row) : Op Unit := do
  let m ← loadMeta none (k.dir symbol channel)
  let (unit, batches) ← Prog.lift (fixedBatches k symbol channel m records)
  Prog.emit .arm
  Prog.emit (.makeChunksDir (k.dir symbol channel))
  let m' ← appendFixedPartitions env (k.dir symbol channel) unit m batches
  saveSeriesMeta env (seriesDir m'.symbol m'.category m'.name) m'
  Prog.emit .disarm

theorem putFixedChunk_eq (env : Env) (k : FixedKind) (symbol channel : Text) (records : List k.Row) :
    putFixedChunk env k symbol channel records = (do
      Prog.lift (validateStrictOrder k.Row records)
      beginMutation env
      putFixedLocked env k symbol channel records) := rfl

theorem lt_of_readableEnd {cs : List ChunkMeta} {first : Int} (hread : ∀ c ∈ cs, c.state.isReadable = true)
    (h : ¬ (readableEnd cs).any (fun stop => decide (first ≤ stop)) = true) : ∀ c ∈ cs, c.endTs < first := by
  intro c hc
  unfold readableEnd at h
  rw [List.filter_eq_self.2 hread] at h
  cases hmax : (cs.map ChunkMeta.endTs).max? with
  | none =>
    rw [List.max?_eq_none_iff, List.map_eq_nil_iff] at hmax
    rw [hmax] at hc
    cases hc
  | some stop =>
    rw [hmax] at h
    have hle := (List.max?_eq_some_iff.1 hmax).2 c.endTs (List.mem_map_of_mem hc)
    have hlt : ¬ first ≤ stop := by simpa using h
    omega

theorem checkBatches_ok {R : Type} [FixedRecord R] (hread : ∀ c ∈ m.chunks, c.state.isReadable = true) :
    ∀ {batches : List (Text × List R)},
    checkBatches m batches = .ok () → ∀ b ∈ batches, ∀ e ∈ m.chunks, e.monthKey = b.1 → e.endTs < firstTs b.2
  | [], _ => by simp
  | (key, rows) :: rest, h => by
    unfold checkBatches at h
    split at h
    · cases h
    · rename_i hany
      intro b hb e he hk
      rcases List.mem_cons.1 hb with rfl | hb
      · exact lt_of_readableEnd
          (fun c hc => hread c (mem_chunksForPartition.1 hc).1) hany e (mem_chunksForPartition.2 ⟨he, hk⟩)
      · exact checkBatches_ok hread h b hb e he hk

/-- What the checks of a tick write let through. -/
theorem fixedBatches_ok {u : PartitionUnit} {batches : List (Text × List k.Row)}
    (h : fixedBatches k symbol channel m records = .ok (u, batches)) :
    m.recordType = k.recordType ∧ m.unit = u ∧ splitFixedRecordsByPartition records u = .ok batches ∧
      checkBatches m batches = .ok () := by
  unfold fixedBatches at h
  split at h
  · cases h
  · rename_i hmatch
    cases hu : PartitionUnit.fromStr m.chunkUnit with
    | error e => rw [hu] at h; cases h
    | ok unit =>
      rw [hu] at h
      simp only at h
      split at h
      · cases h
      · cases hsplit : splitFixedRecordsByPartition records unit with
        | error e => rw [hsplit] at h; cases h
        | ok out =>
          rw [hsplit] at h
          simp only at h
          cases hcheck : checkBatches m out with
          | error e => rw [hcheck] at h; cases h
          | ok _ =>
            rw [hcheck] at h
            obtain ⟨rfl, rfl⟩ := Prod.mk.inj (Except.ok.inj h)
            refine ⟨(not_not.1 hmatch).1.trans (RecordType.recordType_row _), ?_, hsplit, hcheck⟩
            unfold SeriesMeta.unit
            rw [hu]
            rfl

theorem piecesReady {u : PartitionUnit} {batches : List (Text × List k.Row)}
    (hread : ∀ c ∈ m.chunks, c.state.isReadable = true) (ho : Ordered records)
    (hsplit : splitFixedRecordsByPartition records u = .ok batches) (hcheck : checkBatches m batches = .ok ()) :
    PiecesReady u m batches := by
  obtain ⟨hflat, hpiece, hkeys⟩ := splitFixedRecordsByPartition_spec hsplit ho
  refine ⟨hpiece, fun b hb => ?_, hkeys, checkBatches_ok hread hcheck⟩
  refine ho.sublist ?_
  rw [← hflat, List.flatMap_def]
  exact List.sublist_flatten_of_mem (List.mem_map_of_mem hb)

/-- The run of a tick write that is not refused: every piece has its chunk, and the manifest has them all. -/
structure TickWritten (env : Env) (k : FixedKind) (d : Dir) (s : Store) (m : SeriesMeta) (records : List k.Row)
    (r : List IoStep × Except FastKError Unit) where
  m' : SeriesMeta
  es : List (TickEntry k.recordType)
  grows : Grows k.recordType m.unit (s.dirs d) m es m'
  split_eq : splitFixedRecordsByPartition records m.unit = .ok (es.map (fun e => (e.key, e.rows)))
  distinct : es.Pairwise (fun a b => a.key ≠ b.key)
  type_eq : m.recordType = k.recordType
  run_eq : r = (commitSteps env d (.arm :: .makeChunksDir d :: tickSteps env d es) m' [] ++ [.disarm], .ok ())

/-- **A tick write is refused without a trace, enters its chunks, or stops at a piece that is too long or whose name is
taken.** -/
theorem putFixedLocked_run (env : Env) (h : SeriesOk (k.dir symbol channel) (s.dirs (k.dir symbol channel)) m)
    (hread : ∀ c ∈ m.chunks, c.state.isReadable = true) (ho : Ordered records) :
    Refused (putFixedLocked env k symbol channel records s) ∨
      Nonempty (TickWritten env k (k.dir symbol channel) s m records (putFixedLocked env k symbol channel records s)) ∨
      (∃ e, (putFixedLocked env k symbol channel records s).2 = .error e) ∧
        ∃ batches, splitFixedRecordsByPartition records m.unit = .ok batches ∧
          ¬ PiecesFree (s.dirs (k.dir symbol channel)) m batches := by
  have hload : loadMeta none (k.dir symbol channel) s = ([], .ok m) := by
    unfold loadMeta
    rw [Prog.look_bind, metaFor_series h (.inl rfl)]
    rfl
  unfold putFixedLocked
  rw [Prog.bind_run hload]
  simp only [exec_nil, List.nil_append, Prod.mk.eta]
  cases hb : fixedBatches k symbol channel m records with
  | error e => exact .inl (refused_lift e _ s)
  | ok ub =>
    obtain ⟨u, batches⟩ := ub
    obtain ⟨ht, rfl, hsplit, hcheck⟩ := fixedBatches_ok hb
    have hready := piecesReady hread ho hsplit hcheck
    rw [Prog.lift_ok_bind]
    simp only
    rw [Prog.emit_bind, Prog.emit_bind]
    -- the two steps before the loop leave the files alone
    have hsame : SameContent (s.dirs (k.dir symbol channel))
        ((Journal.Store.apply (IoStep.makeChunksDir (k.dir symbol channel)) (Journal.Store.apply IoStep.arm s)).dirs
          (k.dir symbol channel)) :=
      (apply_calm (k := .arm) rfl s _).trans (apply_calm rfl _ _)
    rcases appendFixedPartitions_run env (hsame.fits h.toFits) ht rfl hready with ⟨⟨tr, e, hrun⟩, hnot⟩ |
      ⟨es, m', hgrows, hmap, hrun⟩
    · rw [Prog.bind_run_error hrun]
      refine .inr (.inr ⟨⟨e, rfl⟩, batches, hsplit, fun hfree => hnot (fun b hb => ?_)⟩)
      exact ⟨(hfree b hb).1, fun name hn => (hsame.hasFile name).trans ((hfree b hb).2 name hn)⟩
    · have hg := hgrows.congr hsame
      have hhome : seriesDir m'.symbol m'.category m'.name = k.dir symbol channel := (h.head.sameHead hg.head).homed
      rw [Prog.bind_run hrun, hhome, Prog.bind_run (saveSeriesMeta_run (hg.valid h.toFits ht rfl) _)]
      refine .inr (.inl ⟨⟨m', es, hg, ?_, ?_, ht, ?_⟩⟩)
      · rw [hmap]
        exact hsplit
      · have := hready.distinct
        rw [← hmap, List.pairwise_map] at this
        exact this
      · simp only [commitSteps, removeSteps, List.filter_nil, List.map_nil, List.append_nil, List.cons_append,
          List.append_assoc]
        rfl

end Put

end FastK
