import FastK.Restart
/-!
# Recovering twice

Recovery of a recovered store does nothing.  The scan of a directory gives the same entries in whatever order the
directory is listed (`scanChunkFiles_perm`); once the files have been folded in, each of them is barred by a tracked
chunk (`foldl_adopt_barred`), in this recovery and in every later one (`recover_again`, `startupRecover_idempotent`).
-/
namespace FastK

open Spans Versioned Journal

/-! ## Scans in any order -/

theorem collect_perm {α β : Type} {f : α → Result β} {l l' : List α} (hl : l.Perm l') :
    ∀ {ys : List β}, collect f l = .ok ys →
    ∃ ys', collect f l' = .ok ys' ∧ ys.Perm ys' := by
  induction hl with
  | nil => exact fun h => ⟨_, h, List.Perm.refl _⟩
  | @cons x l l' _ ih =>
    intro ys h
    unfold collect at h ⊢
    cases hx : f x with
    | error e => rw [hx] at h; cases h
    | ok y =>
      rw [hx] at h
      simp only at h
      cases hl : collect f l with
      | error e => rw [hl] at h; cases h
      | ok zs =>
        rw [hl] at h
        obtain ⟨zs', hzs, hperm⟩ := ih hl
        obtain rfl := Except.ok.inj h
        exact ⟨y :: zs', by simp only [hzs], hperm.cons y⟩
  | @swap x y l =>
    intro ys h
    unfold collect at h ⊢
    unfold collect at h ⊢
    cases hx : f x with
    | error e => cases hy : f y <;> simp [hx, hy] at h
    | ok a =>
      cases hy : f y with
      | error e => simp [hy] at h
      | ok b =>
        cases hl : collect f l with
        | error e => simp [hx, hy, hl] at h
        | ok zs =>
          simp only [hx, hy, hl, Except.ok.injEq] at h ⊢
          subst h
          exact ⟨_, rfl, List.Perm.swap a b zs⟩
  | trans _ _ ih1 ih2 =>
    intro ys h
    obtain ⟨zs, hzs, h1⟩ := ih1 h
    obtain ⟨ws, hws, h2⟩ := ih2 hzs
    exact ⟨ws, hws, h1.trans h2⟩

theorem collect_congr {α β : Type} {f g : α → Result β} : ∀ {l : List α}, (∀ x ∈ l, f x = g x) →
    collect f l = collect g l
  | [], _ => rfl
  | x :: xs, h => by
    unfold collect
    rw [h x List.mem_cons_self, collect_congr (fun y hy => h y (List.mem_cons_of_mem _ hy))]

instance sidecarLe_trans : IsTrans SidecarMeta (fun a b => Text.le a.relativePath b.relativePath = true) :=
  ⟨fun _ _ _ => Text.le_trans⟩

instance sidecarLe_total : Std.Total (fun a b : SidecarMeta => Text.le a.relativePath b.relativePath = true) :=
  ⟨fun a b => Text.le_total a.relativePath b.relativePath⟩

/-- The sidecars of a chunk do not depend on the order in which they were found. -/
theorem sidecarsOf_perm {sidecars sidecars' : List (Text × SidecarMeta)} (hperm : sidecars.Perm sidecars')
    (hn : (sidecars.map (fun q => q.2.relativePath)).Nodup) (rel : Text) :
    sidecarsOf sidecars rel = sidecarsOf sidecars' rel := by
  unfold sidecarsOf
  have hp := (hperm.filter (fun s => decide (s.1 = rel))).map Prod.snd
  refine List.Perm.eq_of_pairwise ?_ (List.pairwise_insertionSort _ _) (List.pairwise_insertionSort _ _)
    ((List.perm_insertionSort _ _).trans (hp.trans (List.perm_insertionSort _ _).symm))
  intro a b ha hb hab hba
  rw [List.mem_insertionSort] at ha hb
  obtain ⟨q, hq, rfl⟩ := List.mem_map.1 ha
  obtain ⟨r, hr, rfl⟩ := List.mem_map.1 (hp.mem_iff.2 hb)
  have heq := List.inj_on_of_nodup_map hn (List.mem_filter.1 hq).1 (List.mem_filter.1 hr).1 (Text.le_antisymm hab hba)
  rw [heq]

theorem sidecarPaths_nodup {sd : SeriesDir} (hn : (sd.files.map Prod.fst).Nodup) {order : DirOrder}
    {sidecars : List (Text × SidecarMeta)}
    (h : collect (fun s => (parentChunkRelativePath s.relativePath).map (fun parent =>
      (parent, s))) (scanSidecarFiles (order.1 sd.files)) = .ok sidecars) :
    (sidecars.map (fun q => q.2.relativePath)).Nodup := by
  have hsides : sidecars.map (fun q =>
    q.2.relativePath) = (scanSidecarFiles (order.1 sd.files)).map SidecarMeta.relativePath := by
    refine (List.forall₂_eq_eq_eq ▸ List.forall₂_map_left_iff.2
      (List.forall₂_map_right_iff.2 ((collect_eq_ok h).flip.imp ?_)) :)
    intro q s hq
    cases hp : parentChunkRelativePath s.relativePath with
    | error e => rw [hp] at hq; cases hq
    | ok parent =>
      rw [hp] at hq
      obtain rfl := Except.ok.inj hq
      rfl
  rw [hsides]
  unfold scanSidecarFiles
  rw [List.map_map]
  have hnames : ((order.1 sd.files).filter (fun p => isSidecarName p.1)).map Prod.fst |>.Nodup :=
    (((order.2 sd.files).map Prod.fst).nodup_iff.2 hn).sublist (List.Sublist.map _ List.filter_sublist)
  have := hnames.map (fun _ _ => chunkRelativePath_inj)
  rwa [List.map_map] at this

/-- **A directory is scanned alike in whatever order it is listed.** -/
theorem scanChunkFiles_perm {sd : SeriesDir} (hn : (sd.files.map Prod.fst).Nodup) {order : DirOrder}
    {cs : List ChunkMeta} (h : scanChunkFiles order sd = .ok cs) (order' : DirOrder) :
    ∃ cs', scanChunkFiles order' sd = .ok cs' ∧ cs.Perm cs' := by
  unfold scanChunkFiles at h ⊢
  by_cases hdir : sd.chunksDir = false
  · rw [if_pos hdir] at h ⊢
    exact ⟨cs, h, List.Perm.refl _⟩
  rw [if_neg hdir] at h ⊢
  simp only at h ⊢
  have hlist : (order.1 sd.files).Perm (order'.1 sd.files) := (order.2 sd.files).trans (order'.2 sd.files).symm
  cases hside : collect (fun s => (parentChunkRelativePath s.relativePath).map (fun parent =>
    (parent, s))) (scanSidecarFiles (order.1 sd.files)) with
  | error e => rw [hside] at h; cases h
  | ok sidecars =>
    rw [hside] at h
    simp only at h
    obtain ⟨sidecars', hside', hperm⟩ := collect_perm ((hlist.filter _).map _) hside
    have hsame : ∀ rel, sidecarsOf sidecars rel = sidecarsOf sidecars' rel :=
      sidecarsOf_perm hperm (sidecarPaths_nodup hn hside)
    have hscan : ∀ p, scanChunkFile sidecars p = scanChunkFile sidecars' p := fun p => by
      unfold scanChunkFile
      rw [hsame]
    cases hcs : collect (scanChunkFile sidecars) ((order.1 sd.files).filter (fun p => isChunkName p.1)) with
    | error e => rw [hcs] at h; cases h
    | ok found =>
      rw [hcs] at h
      obtain rfl := Except.ok.inj h
      rw [collect_congr (fun p _ => hscan p)] at hcs
      obtain ⟨found', hfound, hfoundPerm⟩ := collect_perm (hlist.filter _) hcs
      refine ⟨sortByKey ChunkMeta.startTs found', ?_,
        (sortByKey_perm _ _).trans (hfoundPerm.trans (sortByKey_perm _ _).symm)⟩
      unfold scanSidecarFiles
      rw [hside']
      simp only
      rw [hfound]

/-- The entry of a file, whatever its version. -/
def EntryFor (p : Text × FileBody) (c : ChunkMeta) : Prop :=
  ∃ f key sidecars, p.2 = .chunk f ∧ f.header.validate = .ok () ∧ monthKey f.header.startTs = .ok key ∧
    c = scannedChunk p.1 f key sidecars

/-- What a scan that succeeds has found. -/
theorem scanChunkFiles_eq_ok {sd : SeriesDir} {order : DirOrder} {cs : List ChunkMeta}
    (h : scanChunkFiles order sd = .ok cs) :
    cs = [] ∨ sd.chunksDir = true ∧ ∃ found, cs = sortByKey ChunkMeta.startTs found ∧
      List.Forall₂ EntryFor ((order.1 sd.files).filter (fun p => isChunkName p.1)) found := by
  unfold scanChunkFiles at h
  split at h
  · exact .inl (Except.ok.inj h).symm
  · rename_i hdir
    simp only at h
    split at h
    · cases h
    · rename_i sidecars hside
      split at h
      · cases h
      · rename_i found hfound
        refine .inr ⟨by simpa using hdir, found, (Except.ok.inj h).symm, (collect_eq_ok hfound).imp (fun p c hc => ?_)⟩
        unfold scanChunkFile at hc
        cases hb : p.2 with
        | chunk f =>
          rw [hb] at hc
          simp only at hc
          split at hc
          · cases hc
          · rename_i hv
            split at hc
            · cases hc
            · rename_i key hkey
              exact ⟨f, key, _, hb, hv, hkey, (Except.ok.inj hc).symm⟩
        | _ =>
          rw [hb] at hc
          cases hc

theorem EntryFor.relativePath {p : Text × FileBody} {c : ChunkMeta} (h : EntryFor p c) :
    c.relativePath = chunkRelativePath p.1 := by
  obtain ⟨f, key, sidecars, -, -, -, rfl⟩ := h
  rfl

/-! ## Recovering a directory again -/

/-- A directory whose chunks have rows and whose manifest, where there is one, has the time ranges and generations of
the files it tracks. -/
structure Repairable (sd : SeriesDir) : Prop where
  names : (sd.files.map Prod.fst).Nodup
  filled : ∀ p ∈ sd.files, isChunkName p.1 = true → ∀ f, p.2 = .chunk f → 0 < f.header.count
  tracked : ∀ m, sd.loadSeriesMeta = .ok m → ∀ c ∈ m.chunks, 0 < c.count
  agrees : ∀ m, sd.loadSeriesMeta = .ok m → ∀ c ∈ m.chunks, ∀ p ∈ sd.files, isChunkName p.1 = true →
    ∀ f, p.2 = .chunk f →
    c.relativePath = chunkRelativePath p.1 →
    c.startTs = f.header.startTs ∧ c.endTs = f.header.endTs ∧ c.generation = f.header.generation % 2 ^ 32

/-- The candidates of a recovery, and what they may find tracked under their path. -/
structure Offered (candidates : List ChunkMeta) (chunks : List ChunkMeta) : Prop where
  proper : ∀ c ∈ candidates, c.startTs ≤ c.endTs
  count_pos : ∀ c ∈ candidates, 0 < c.count
  settled : ∀ c ∈ candidates, c.state ≠ .merging
  names : candidates.Pairwise (fun c d => c.relativePath ≠ d.relativePath)
  describes : ∀ c ∈ candidates, ∀ a ∈ chunks, a.relativePath = c.relativePath →
    Describes ChunkMeta.startTs ChunkMeta.endTs ChunkMeta.generation ChunkMeta.relativePath c a

/-- The same of the settled chunks. -/
theorem Offered.describes_settled {candidates chunks : List ChunkMeta} (h : Offered candidates chunks)
    (active : Option Nat) :
    ∀ c ∈ candidates, ∀ a ∈ chunks.map (settle active), a.relativePath = c.relativePath →
      Describes ChunkMeta.startTs ChunkMeta.endTs ChunkMeta.generation ChunkMeta.relativePath c a := by
  intro c hc a ha hname
  obtain ⟨b, hb, rfl⟩ := List.mem_map.1 ha
  have hs := sameChunk_settle active b
  obtain ⟨h1, h2, h3, h4⟩ := h.describes c hc b hb (hs.relativePath.symm.trans hname)
  exact ⟨h1.trans hs.relativePath.symm, h2.trans hs.generation.symm, h3.trans hs.startTs.symm, h4.trans hs.endTs.symm⟩

theorem mem_scan {sd : SeriesDir} {order : DirOrder} {cs : List ChunkMeta} (h : scanChunkFiles order sd = .ok cs)
    {c : ChunkMeta} (hc : c ∈ cs) :
    ∃ p ∈ sd.files, isChunkName p.1 = true ∧ EntryFor p c := by
  rcases scanChunkFiles_eq_ok h with rfl | ⟨-, found, rfl, hall⟩
  · cases hc
  · obtain ⟨p, hp, hentry⟩ := exists_of_mem_forall₂ hall ((mem_sortByKey _).1 hc)
    obtain ⟨hp1, hp2⟩ := List.mem_filter.1 hp
    exact ⟨p, (order.2 sd.files).mem_iff.1 hp1, hp2, hentry⟩

theorem scan_names {sd : SeriesDir} (hn : (sd.files.map Prod.fst).Nodup) {order : DirOrder} {cs : List ChunkMeta}
    (h : scanChunkFiles order sd = .ok cs) : cs.Pairwise (fun c d => c.relativePath ≠ d.relativePath) := by
  rcases scanChunkFiles_eq_ok h with rfl | ⟨-, found, rfl, hall⟩
  · exact .nil
  · have hpaths : found.map ChunkMeta.relativePath
        = ((order.1 sd.files).filter (fun p => isChunkName p.1)).map (fun p => chunkRelativePath p.1) :=
      (List.forall₂_eq_eq_eq ▸ List.forall₂_map_left_iff.2 (List.forall₂_map_right_iff.2 (hall.flip.imp fun _ _ he =>
        EntryFor.relativePath he)) :)
    have hnames : ((order.1 sd.files).filter (fun p => isChunkName p.1)).map Prod.fst |>.Nodup :=
      (((order.2 sd.files).map Prod.fst).nodup_iff.2 hn).sublist (List.Sublist.map _ List.filter_sublist)
    have hnodup : (found.map ChunkMeta.relativePath).Nodup := by
      rw [hpaths, show (fun p : Text × FileBody => chunkRelativePath p.1) = chunkRelativePath ∘ Prod.fst from rfl,
        ← List.map_map]
      exact hnames.map (fun _ _ => chunkRelativePath_inj)
    have := ((sortByKey_perm ChunkMeta.startTs found).map ChunkMeta.relativePath).nodup_iff.2 hnodup
    exact List.pairwise_map.1 this

theorem Repairable.offered {sd : SeriesDir} (h : Repairable sd) {order : DirOrder} {cs : List ChunkMeta}
    (hcs : scanChunkFiles order sd = .ok cs) {chunks : List ChunkMeta}
    (hdesc : ∀ c ∈ cs, ∀ a ∈ chunks, a.relativePath = c.relativePath →
      Describes ChunkMeta.startTs ChunkMeta.endTs ChunkMeta.generation ChunkMeta.relativePath c a)
  : Offered cs chunks := by
  have hentry : ∀ c ∈ cs, c.startTs ≤ c.endTs ∧ 0 < c.count ∧ c.state ≠ .merging := by
    intro c hc
    obtain ⟨p, hp, hn, f, key, sidecars, hb, hv, -, rfl⟩ := mem_scan hcs hc
    have hpos := h.filled p hp hn f hb
    exact ⟨ChunkHeader.startTs_le_endTs hv hpos, hpos, decodeChunkState_ne_merging p.1⟩
  exact ⟨fun c hc => (hentry c hc).1, fun c hc => (hentry c hc).2.1, fun c hc => (hentry c hc).2.2,
    scan_names h.names hcs, hdesc⟩

theorem Repairable.describes {sd : SeriesDir} {m : SeriesMeta} (h : Repairable sd) (hload : sd.loadSeriesMeta = .ok m)
    {order : DirOrder} {cs : List ChunkMeta} (hcs : scanChunkFiles order sd = .ok cs) :
    ∀ c ∈ cs, ∀ a ∈ m.chunks, a.relativePath = c.relativePath →
      Describes ChunkMeta.startTs ChunkMeta.endTs ChunkMeta.generation ChunkMeta.relativePath c a := by
  intro c hc a ha hp
  obtain ⟨p, hpm, hn, f, key, sidecars, hb, -, -, rfl⟩ := mem_scan hcs hc
  obtain ⟨h1, h2, h3⟩ := h.agrees m hload a ha p hpm hn f hb hp
  exact ⟨hp.symm, h3.symm, h1.symm, h2.symm⟩

/-- A manifest that recovery has nothing to do to. -/
structure Done (candidates : List ChunkMeta) (m : SeriesMeta) : Prop where
  valid : m.validate = .ok ()
  apart : SpansApart m.chunks
  settled : ∀ c ∈ m.chunks, c.state ≠ .merging
  barred : ∀ x ∈ candidates, Barred ChunkMeta.startTs ChunkMeta.endTs ChunkMeta.generation m.chunks x

/-- **A recovery that succeeds leaves nothing to do.** -/
theorem recoverFrom_done {now : Int} {path : Dir} {candidates : List ChunkMeta} {m : SeriesMeta}
    {report report' : RecoveryReport} {saves : List SeriesMeta} (hv : m.validate = .ok ())
    (hpos : ∀ c ∈ m.chunks, 0 < c.count) (ho : Offered candidates m.chunks)
    (h : recoverFrom now path ⟨false⟩ candidates m report = (saves, .ok report')) :
    Done candidates (lastSaved m saves) := by
  have ha := (SeriesMeta.chain_of_validate hv hpos).1.apart
  have hsettled := consistent_settled hv hpos
  have hbarred : ∀ x ∈ candidates, Barred ChunkMeta.startTs ChunkMeta.endTs ChunkMeta.generation
    (recoveredChunks m candidates) x :=
    foldl_adopt_barred ho.proper ho.names (ho.describes_settled m.activeChunkId)
  have hapart : SpansApart (recoveredChunks m candidates) := foldl_adopt_apart hsettled.apart
  have hquiet : ∀ c ∈ recoveredChunks m candidates, c.state ≠ .merging := by
    intro c hc
    rcases mem_foldl_adopt hc with hc | hc
    · exact (hsettled.readable c hc).settled
    · exact ho.settled c hc
  unfold recoverFrom at h
  simp only [adoptAll_chunks ha, Bool.not_false, Bool.and_true] at h
  cases hch : (adoptAll path candidates m report).changed with
  | false =>
    rw [hch, if_neg (by simp)] at h
    obtain ⟨rfl, -⟩ := Prod.mk.inj h
    have heq := recoveredChunks_of_unchanged ha hch
    rw [heq] at hbarred hquiet
    exact ⟨hv, ha, hquiet, hbarred⟩
  | true =>
    rw [hch, if_pos rfl] at h
    cases hvalid : (recoveredMeta now m (recoveredChunks m candidates)).validate with
    | error e => rw [hvalid] at h; cases h
    | ok u =>
      rw [hvalid] at h
      obtain ⟨rfl, -⟩ := Prod.mk.inj h
      refine ⟨hvalid, hapart.perm (sortByKey_perm _ _).symm, fun c hc => hquiet c ((mem_sortByKey _).1 hc),
        fun x hx => ?_⟩
      obtain ⟨a, hal, hm, hs⟩ := hbarred x hx
      exact ⟨a, (mem_sortByKey _).2 hal, hm, hs⟩

theorem Done.recoverFrom {candidates : List ChunkMeta} {m : SeriesMeta} (h : Done candidates m) (now : Int)
    (path : Dir) (report : RecoveryReport) :
    ∃ report', FastK.recoverFrom now path ⟨false⟩ candidates m report = ([], .ok report') ∧
      report.SameActions report' :=
  recoverFrom_unchanged now path report h.apart h.settled (fun x hx => (h.barred x hx).not_adopts)

theorem selectNonOverlapping_mem {chunks survivors : List ChunkMeta}
    (h : selectNonOverlappingChunks chunks = .ok survivors) {c : ChunkMeta} (hc : c ∈ survivors) : c ∈ chunks := by
  unfold selectNonOverlappingChunks at h
  simp only at h
  split at h
  · obtain rfl := Except.ok.inj h
    exact hc
  · split at h
    · cases h
    · obtain rfl := Except.ok.inj h
      exact (List.mem_filter.1 ((mem_sortByKey _).1 hc)).1

/-- A manifest built from the files is valid and tracks some of them. -/
theorem rebuildManifest_eq_ok {now : Int} {path : Dir} {order : DirOrder} {sd : SeriesDir} {m : SeriesMeta}
    {cs : List ChunkMeta} (hcs : scanChunkFiles order sd = .ok cs) (h : rebuildManifest now path order sd = .ok m) :
    m.validate = .ok () ∧ (∀ c ∈ m.chunks, c ∈ cs) ∧ m.chunks ≠ [] := by
  unfold rebuildManifest at h
  rw [hcs] at h
  simp only at h
  split at h
  · cases h
  · cases hsel : selectNonOverlappingChunks cs with
    | error e => rw [hsel] at h; cases h
    | ok survivors =>
      rw [hsel] at h
      simp only at h
      cases survivors with
      | nil => cases h
      | cons first rest =>
        unfold buildSeriesMetaFromChunks at h
        simp only at h
        repeat' split at h
        all_goals first | cases h | skip
        all_goals
          obtain ⟨hv, rfl⟩ := checked_eq_ok.1 h
          exact ⟨hv, fun c hc => selectNonOverlapping_mem hsel hc, List.cons_ne_nil _ _⟩

theorem recoverSeriesDir_nil {now : Int} {path : Dir} {order : DirOrder} {options : RecoveryOptions} {sd : SeriesDir}
    {report : RecoveryReport} (hcs : scanChunkFiles order sd = .ok []) :
    recoverSeriesDir now path order options sd report = ([], .ok report) := by
  unfold recoverSeriesDir
  rw [hcs]
  rfl

/-- **A directory that was recovered is left as it is**, whenever and in whatever order it is looked at again. -/
theorem recover_again {now : Int} {path : Dir} {order : DirOrder} {sd : SeriesDir} {report report' : RecoveryReport}
    {saves : List SeriesMeta} (h : Repairable sd)
    (hrun : recoverSeriesDir now path order ⟨false⟩ sd report = (saves, .ok report')) (now' : Int) (order' : DirOrder)
    (start : RecoveryReport) :
    ∃ last, recoverSeriesDir now' path order' ⟨false⟩ (sd.afterSaves saves) start = ([], .ok last) ∧
      start.SameActions last := by
  have hscanSame : ∀ order, scanChunkFiles order (sd.afterSaves saves) = scanChunkFiles order sd := fun _ => rfl
  cases hcs : scanChunkFiles order sd with
  | error e =>
    unfold recoverSeriesDir at hrun
    rw [hcs] at hrun
    cases hrun
  | ok cs =>
    obtain ⟨cs', hcs', hperm⟩ := scanChunkFiles_perm h.names hcs order'
    by_cases hnil : cs = []
    · subst hnil
      obtain rfl := hperm.nil_eq
      exact ⟨start, recoverSeriesDir_nil ((hscanSame order').trans hcs'), rfl⟩
    -- the manifest that the recovery worked on, and that it leaves nothing to do
    have hdone : ∃ m, Done cs m ∧ (sd.afterSaves saves).manifest = .current m := by
      cases hload : sd.loadSeriesMeta with
      | ok m =>
        rw [recoverSeriesDir_of_manifest hcs hnil hload] at hrun
        obtain ⟨hm, hv⟩ := SeriesDir.loadSeriesMeta_eq_ok hload
        have hoffered : Offered cs m.chunks := h.offered hcs (h.describes hload hcs)
        refine ⟨_, recoverFrom_done hv (h.tracked m hload) hoffered hrun, ?_⟩
        unfold SeriesDir.afterSaves lastSaved
        cases saves.getLast? <;> simp [hm]
      | error e =>
        unfold recoverSeriesDir at hrun
        rw [hcs] at hrun
        simp only at hrun
        rw [if_neg (by simpa using hnil), hload] at hrun
        simp only at hrun
        cases hre : rebuildManifest now path order sd with
        | error e => rw [hre] at hrun; cases hrun
        | ok m =>
          rw [hre] at hrun
          simp only [Bool.false_eq_true, if_false] at hrun
          obtain ⟨hv, hmem, -⟩ := rebuildManifest_eq_ok hcs hre
          have hoffered : Offered cs m.chunks := h.offered hcs (fun c hc a ha hp => by
            have hnodup : (cs.map ChunkMeta.relativePath).Nodup := List.pairwise_map.2 (scan_names h.names hcs)
            obtain rfl := List.inj_on_of_nodup_map hnodup (hmem a ha) hc hp
            exact ⟨rfl, rfl, rfl, rfl⟩)
          obtain ⟨hsaves, hres⟩ := Prod.mk.inj hrun
          have hfrom := recoverFrom_done hv (fun c hc => hoffered.count_pos c (hmem c hc)) hoffered (Prod.ext rfl hres)
          refine ⟨_, hfrom, ?_⟩
          unfold SeriesDir.afterSaves lastSaved
          rw [← hsaves, List.getLast?_append]
          cases (recoverFrom now path ⟨false⟩ cs m _).1.getLast? <;> simp
    obtain ⟨m, hm, hman⟩ := hdone
    have hnil' : cs' ≠ [] := fun h => hnil (hperm.trans (h ▸ List.Perm.refl _)).eq_nil
    have hload : (sd.afterSaves saves).loadSeriesMeta = .ok m := SeriesDir.loadSeriesMeta_ok hman hm.valid
    have hm' : Done cs' m := ⟨hm.valid, hm.apart, hm.settled, fun x hx => hm.barred x (hperm.mem_iff.2 hx)⟩
    rw [recoverSeriesDir_of_manifest ((hscanSame order').trans hcs') hnil' hload]
    exact hm'.recoverFrom now' path start

/-! ## Recovering the store again -/

/-- A save ends with no temporary file of its own. -/
theorem saves_temps (env : Env) (d : Dir) : ∀ (saves : List SeriesMeta) {s : Store}, s.temps = [] →
    (exec (saves.flatMap (saveSteps env d)) s).temps = []
  | [], s, h => h
  | m :: ms, s, h => by
    rw [List.flatMap_cons, exec_append]
    refine saves_temps env d ms ?_
    show (s.temps ++ [_]).erase _ = []
    rw [h, List.nil_append, List.erase_cons_head]

theorem mem_known_saved (env : Env) (d : Dir) (m : SeriesMeta) (s : Store) {e : Dir} :
    e ∈ (exec (saveSteps env d m) s).known ↔ e = d ∨ e ∈ s.known :=
  Store.mem_known_modify s d (fun sd => { sd with manifest := .current m })

theorem saves_known (env : Env) {d e : Dir} : ∀ (saves : List SeriesMeta) {s : Store},
    (e ∈ s.known → e ∈ (exec (saves.flatMap (saveSteps env d)) s).known) ∧
      (e ∈ (exec (saves.flatMap (saveSteps env d)) s).known → e = d ∨ e ∈ s.known)
  | [], s => ⟨fun h => h, .inr⟩
  | m :: ms, s => by
    rw [List.flatMap_cons, exec_append]
    obtain ⟨hkept, hknown⟩ := saves_known env (d := d) (e := e) ms (s := exec (saveSteps env d m) s)
    refine ⟨fun h => hkept ((mem_known_saved env d m s).2 (.inr h)), fun h => ?_⟩
    rcases hknown h with rfl | h
    · exact .inl rfl
    · exact (mem_known_saved env d m s).1 h

theorem saves_seriesRoot (env : Env) (d : Dir) : ∀ (saves : List SeriesMeta) {s : Store}, s.seriesRoot = true →
    (exec (saves.flatMap (saveSteps env d)) s).seriesRoot = true
  | [], s, h => h
  | m :: ms, s, h => by
    rw [List.flatMap_cons, exec_append]
    exact saves_seriesRoot env d ms rfl

/-- What a recovery of directories that succeeds has done: each was recovered, and nothing but its manifest has
changed. -/
theorem recoverDirs_eq_ok (env : Env) : ∀ {ds : List Dir} {s : Store} {report report' : RecoveryReport}
    {tr : List IoStep}, ds.Nodup →
    s.temps = [] → s.seriesRoot = true → recoverDirs env ds report s = (tr, .ok report') →
    (exec tr s).temps = [] ∧ (∀ e ∈ s.known, e ∈ (exec tr s).known) ∧ (∀ e ∈ (exec tr s).known, e ∈ s.known ∨
      e ∈ ds) ∧ (exec tr s).seriesRoot = true ∧
      ∀ e, (e ∈ ds → ∃ saves start stop,
        recoverSeriesDir env.now (s.root ++ "series".toList :: e) env.order ⟨false⟩ (s.dirs e) start =
          (saves, .ok stop) ∧
        (exec tr s).dirs e = (s.dirs e).afterSaves saves) ∧ (e ∉ ds → (exec tr s).dirs e = s.dirs e)
  | [], s, report, report', tr, _, ht, hr, h => by
    obtain ⟨rfl, -⟩ := Prod.mk.inj h
    exact ⟨ht, fun _ he => he, fun _ he => .inl he, hr, fun e => ⟨fun he => absurd he List.not_mem_nil, fun _ => rfl⟩⟩
  | d :: ds, s, report, report', tr, hn, ht, hr, h => by
    obtain ⟨hd, hds⟩ := List.nodup_cons.1 hn
    unfold recoverDirs at h
    rw [Prog.look_bind] at h
    cases hrec : recoverSeriesDir env.now (s.root ++ "series".toList :: d) env.order ⟨false⟩ (s.dirs d) report with
    | mk saves result =>
      rw [hrec] at h
      simp only at h
      rw [Prog.bind_run (publishManifests_run env d saves s)] at h
      cases result with
      | error e =>
        obtain ⟨-, h2⟩ := Prod.mk.inj h
        cases h2
      | ok mid =>
        rw [Prog.lift_ok_bind] at h
        obtain ⟨rfl, hres⟩ := Prod.mk.inj h
        obtain ⟨h1, hkept, hknown, h3, h4⟩ := recoverDirs_eq_ok env hds (s := exec (saves.flatMap (saveSteps env d)) s)
          (saves_temps env d saves ht) (saves_seriesRoot env d saves hr) (Prod.ext rfl hres)
        rw [exec_append]
        refine ⟨h1, fun e he => hkept e ((saves_known env saves).1 he), fun e he => ?_, h3, fun e =>
          ⟨fun he => ?_, fun he => ?_⟩⟩
        · rcases hknown e he with he | he
          · rcases (saves_known env saves).2 he with rfl | he
            · exact .inr List.mem_cons_self
            · exact .inl he
          · exact .inr (List.mem_cons_of_mem _ he)
        · by_cases heq : e = d
          · subst heq
            exact ⟨saves, report, mid, hrec, by rw [(h4 e).2 hd, saves_dir]⟩
          · obtain ⟨saves', start, stop, hrec', hdir⟩ := (h4 e).1 ((List.mem_cons.1 he).resolve_left heq)
            rw [exec_root, saves_other env heq] at hrec'
            exact ⟨saves', start, stop, hrec', by rw [hdir, saves_other env heq]⟩
        · rw [(h4 e).2 (fun hm => he (List.mem_cons_of_mem _ hm)), saves_other env (fun heq => he (by simp [heq]))]

/-- Directories with nothing to do are gone through without a step. -/
theorem recoverDirs_still {env : Env} : ∀ {ds : List Dir} {s : Store} (report : RecoveryReport),
    (∀ d ∈ ds, ∀ start, ∃ last,
      recoverSeriesDir env.now (s.root ++ "series".toList :: d) env.order ⟨false⟩ (s.dirs d) start = ([], .ok last) ∧
      start.SameActions last) → ∃ last, recoverDirs env ds report s = ([], .ok last) ∧ report.SameActions last
  | [], _, report, _ => ⟨report, rfl, rfl⟩
  | d :: ds, s, report, h => by
    obtain ⟨mid, hrec, hsame⟩ := h d List.mem_cons_self report
    obtain ⟨last, hrest, hsame'⟩ := recoverDirs_still mid (fun e he => h e (List.mem_cons_of_mem _ he))
    refine ⟨last, ?_, hsame.trans hsame'⟩
    unfold recoverDirs
    rw [Prog.look_bind, hrec]
    simp only
    rw [Prog.bind_run (publishManifests_run env d [] s), Prog.lift_ok_bind]
    simp only [List.flatMap_nil, exec_nil, List.nil_append]
    exact hrest

theorem recoverSeriesDir_saves {now : Int} {path : Dir} {order : DirOrder} {options : RecoveryOptions} {sd : SeriesDir}
    {report report' : RecoveryReport} {saves : List SeriesMeta}
    (h : recoverSeriesDir now path order options sd report = (saves, .ok report')) :
    saves = [] ∨ sd.chunksDir = true := by
  cases hcs : scanChunkFiles order sd with
  | error e =>
    unfold recoverSeriesDir at h
    rw [hcs] at h
    cases h
  | ok cs =>
    rcases scanChunkFiles_eq_ok hcs with rfl | ⟨hdir, -⟩
    · rw [recoverSeriesDir_nil hcs] at h
      exact .inl (Prod.mk.inj h).1.symm
    · exact .inr hdir

/-- The store a recovery has left: no marker, no temporary file, and every directory found was recovered. -/
structure RecoveredFrom (env : Env) (s t : Store) : Prop where
  root : t.root = s.root
  temps : t.temps = []
  pending : t.pending = false
  kept : ∀ e ∈ s.known, e ∈ t.known
  known : ∀ e ∈ t.known, e ∈ s.known ∨ e ∈ discoverSeriesDirs env [] s
  seriesRoot : t.seriesRoot = s.seriesRoot
  found : s.seriesRoot = true → ∀ e ∈ discoverSeriesDirs env [] s, ∃ saves start stop,
    recoverSeriesDir env.now (s.root ++ "series".toList :: e) env.order ⟨false⟩ (s.dirs e) start = (saves, .ok stop) ∧
      t.dirs e = (s.dirs e).afterSaves saves
  others : ∀ e, (s.seriesRoot = false ∨ e ∉ discoverSeriesDirs env [] s) → t.dirs e = s.dirs e

/-- The run of a recovery: the temporary files, the directories, the marker. -/
theorem startupRecover_unfold (env : Env) (s : Store) : startupRecoverLocked env s =
    (if s.seriesRoot then
      (Prog.emit IoStep.removeTemps >>= fun _ => recoverDirs env (discoverSeriesDirs env [] s)
          { RecoveryReport.start ⟨false⟩ with removedTempFiles := s.temps.length, removedTempPaths := s.temps } >>= fun report =>
        (do Prog.emit IoStep.disarm; pure report : Op RecoveryReport)) s
    else ([.removeTemps, .disarm], .ok
      { RecoveryReport.start ⟨false⟩ with removedTempFiles := s.temps.length, removedTempPaths := s.temps })) := by
  unfold startupRecoverLocked
  rw [Prog.look_bind]
  cases s.seriesRoot <;> rfl

theorem startupRecover_eq_ok {env : Env} {s : Store} {report : RecoveryReport}
    (h : (startupRecoverLocked env).result s = .ok report) :
    RecoveredFrom env s ((startupRecoverLocked env).final s) := by
  unfold Prog.result at h
  unfold Prog.final Prog.trace
  rw [startupRecover_unfold] at h ⊢
  cases hroot : s.seriesRoot with
  | false =>
    refine ⟨rfl, rfl, rfl, fun _ he => he, fun _ he => .inl he, rfl, fun h => ?_, fun _ _ => rfl⟩
    rw [hroot] at h
    cases h
  | true =>
    rw [hroot, if_pos rfl, Prog.emit_bind] at h
    rw [if_pos rfl, Prog.emit_bind]
    generalize ({ RecoveryReport.start ⟨false⟩ with removedTempFiles := s.temps.length, removedTempPaths := s.temps } : RecoveryReport) = start at h ⊢
    cases hdirs : recoverDirs env (discoverSeriesDirs env [] s) start (Journal.Store.apply IoStep.removeTemps s) with
    | mk tr result =>
      cases result with
      | error e =>
        rw [Prog.bind_run_error hdirs] at h
        cases h
      | ok mid =>
        rw [Prog.bind_run hdirs]
        obtain ⟨h1, hkept, hknown, h3, h4⟩ := recoverDirs_eq_ok env (s := Journal.Store.apply IoStep.removeTemps s)
          (discoverSeriesDirs_nodup env [] s) rfl hroot hdirs
        simp only
        rw [exec_cons, exec_append]
        refine ⟨exec_root tr _, h1, rfl, hkept, hknown, h3.trans hroot.symm, fun _ e he => ?_, fun e he => ?_⟩
        · exact (h4 e).1 he
        · refine (h4 e).2 (fun hm => ?_)
          rcases he with he | he
          · rw [hroot] at he
            cases he
          · exact he hm

/-- **Recovery is idempotent.**  Where the recovery of a store has succeeded, a later one adopts no chunk, rebuilds no
manifest, removes nothing and writes nothing. -/
theorem startupRecover_idempotent {env env' : Env} {s : Store} {report : RecoveryReport}
    (hd : ∀ d ∈ discoverSeriesDirs env [] s, Repairable (s.dirs d)) (hrun : (startupRecoverLocked env).result s = .ok report) :
    ∃ last, startupRecoverLocked env' ((startupRecoverLocked env).final s) = ([.removeTemps, .disarm], .ok last) ∧
      (startupRecoverLocked env').final ((startupRecoverLocked env).final s) = (startupRecoverLocked env).final s ∧
      last.adoptedChunks = 0 ∧ last.rebuiltManifests = 0 ∧ last.removedTempFiles = 0 := by
  have ht := startupRecover_eq_ok hrun
  generalize (startupRecoverLocked env).final s = t at ht ⊢
  have hlooks : t.looksLikeSeries [] = s.looksLikeSeries [] := by
    refine looksLikeSeries_of_known ht.kept ht.known (fun e => ?_)
    by_cases he : s.seriesRoot = true ∧ e ∈ discoverSeriesDirs env [] s
    · obtain ⟨saves, start, stop, hrec, hdir⟩ := ht.found he.1 e he.2
      rw [hdir]
      refine ⟨rfl, ?_⟩
      rcases recoverSeriesDir_saves hrec with rfl | h
      · exact .inr rfl
      · exact .inl h
    · have hother : s.seriesRoot = false ∨ e ∉ discoverSeriesDirs env [] s := by
        rw [← Bool.not_eq_true]
        exact not_and_or.1 he
      rw [ht.others e hother]
      exact ⟨rfl, .inr rfl⟩
  have hstill : ∃ last, startupRecoverLocked env' t = ([.removeTemps, .disarm], .ok last) ∧
    (RecoveryReport.start ⟨false⟩).SameActions last := by
    rw [startupRecover_unfold, ht.temps]
    cases hroot : t.seriesRoot with
    | false => exact ⟨_, rfl, rfl⟩
    | true =>
      have hquiet : ∀ d ∈ discoverSeriesDirs env' [] t, ∀ start, ∃ last,
          recoverSeriesDir env'.now (t.root ++ "series".toList :: d) env'.order ⟨false⟩ (t.dirs d) start =
            ([], .ok last) ∧
            start.SameActions last := by
        intro d hmem start
        have hfound := (mem_discover_of_known ht.seriesRoot ht.kept ht.known hlooks).1 hmem
        obtain ⟨saves, start', stop, hrec, hdir⟩ := ht.found (ht.seriesRoot ▸ hroot) d hfound
        rw [hdir, ht.root]
        exact recover_again (hd d hfound) hrec env'.now env'.order start
      obtain ⟨last, hlast, hsame⟩ :=
        recoverDirs_still (s := Journal.Store.apply IoStep.removeTemps t) (RecoveryReport.start ⟨false⟩) hquiet
      refine ⟨last, ?_, hsame⟩
      rw [if_pos rfl, Prog.emit_bind]
      have hrun' : recoverDirs env' (discoverSeriesDirs env' [] t)
          { RecoveryReport.start ⟨false⟩ with removedTempFiles := ([] : List (Dir × Text)).length, removedTempPaths := [] }
          (Journal.Store.apply IoStep.removeTemps t) = ([], .ok last) := hlast
      rw [Prog.bind_run hrun']
      rfl
  obtain ⟨last, hlast, hsame⟩ := hstill
  refine ⟨last, hlast, ?_, ?_, ?_, ?_⟩
  · unfold Prog.final Prog.trace
    rw [hlast]
    have h1 := ht.temps
    have h2 := ht.pending
    obtain ⟨root, pending, seriesRoot, known, temps, dirs⟩ := t
    simp only at h1 h2
    rw [h1, h2]
    rfl
  · rw [hsame]
    rfl
  · rw [hsame]
    rfl
  · rw [hsame]
    rfl

/-- A store with a merge that was stopped and a temporary file. -/
def sampleStoppedStore : Store where
  root := ["store"]
  pending := true
  seriesRoot := true
  known := [klineSeriesDir "X" "1m"]
  temps := [(klineSeriesDir "X" "1m", "series.meta.7.tmp")]
  dirs := fun d => if d = klineSeriesDir "X" "1m" then sampleStoppedMerge else .empty

theorem sampleStoppedMerge_repairable : Repairable sampleStoppedMerge where
  names := by decide
  filled p hp _ f hb := by
    rcases List.mem_cons.1 hp with rfl | hp
    · obtain rfl := FileBody.chunk.inj hb
      decide
    · rw [List.mem_singleton.1 hp] at hb
      obtain rfl := FileBody.chunk.inj hb
      decide
  tracked m hm c hc := by
    obtain ⟨hman, -⟩ := SeriesDir.loadSeriesMeta_eq_ok hm
    obtain rfl := ManifestFile.current.inj hman
    rw [List.mem_singleton.1 hc]
    decide
  agrees m hm c hc p hp _ f hb hpath := by
    obtain ⟨hman, -⟩ := SeriesDir.loadSeriesMeta_eq_ok hm
    obtain rfl := ManifestFile.current.inj hman
    rw [List.mem_singleton.1 hc] at hpath ⊢
    rcases List.mem_cons.1 hp with rfl | hp
    · exact absurd hpath (by decide)
    · rw [List.mem_singleton.1 hp] at hb
      obtain rfl := FileBody.chunk.inj hb
      decide

theorem startupRecover_idempotent_sample : ∃ last,
    startupRecoverLocked (.plain 6) ((startupRecoverLocked (.plain 5)).final sampleStoppedStore) = ([.removeTemps,
      .disarm], .ok last) ∧
      (startupRecoverLocked (.plain 6)).final ((startupRecoverLocked (.plain 5)).final sampleStoppedStore) =
        (startupRecoverLocked (.plain 5)).final sampleStoppedStore ∧
      last.adoptedChunks = 0 ∧ last.rebuiltManifests = 0 ∧ last.removedTempFiles = 0 :=
  startupRecover_idempotent (fun d hd => by
    have hfound : discoverSeriesDirs (.plain 5) [] sampleStoppedStore = [klineSeriesDir "X" "1m"] := by decide +kernel
    have : d = klineSeriesDir "X" "1m" := List.mem_singleton.1 (hfound ▸ hd)
    subst this
    exact sampleStoppedMerge_repairable) rfl

end FastK
