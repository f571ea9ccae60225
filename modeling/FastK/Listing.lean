import FastK.Lib.Contended
import FastK.Rerun
/-!
# Recovery and the order of a directory

The operating system lists a directory in any order, and the candidates of a recovery are sorted by their first
timestamp only: files that begin together are looked at as they were listed.  The chunks tracked afterwards do not
depend on that order exactly when the files that could be adopted have a kernel (`recover_confluent_iff`).
-/
namespace FastK

open Spans Versioned

/-- The untracked files that are newer than every tracked chunk they meet, and cover it. -/
def contenders (sd : SeriesDir) (m : SeriesMeta) : List ChunkMeta :=
  match scanChunkFiles .asListed sd with
  | .error _ => []
  | .ok candidates => candidates.filter (fun c => decide (ChunkAdopts m.chunks c))

/-- A choice among the files that lies apart, such that every other file meets a chosen one that begins earlier, or
begins with a chosen one that is newer and covers it. -/
abbrev ChunkKernel : List ChunkMeta → List ChunkMeta → Prop :=
  Kernel ChunkMeta.startTs ChunkMeta.endTs ChunkMeta.generation

/-- The chunks of the manifest that a recovery leaves. -/
def trackedAfter (now : Int) (path : Dir) (order : DirOrder) (sd : SeriesDir) (m : SeriesMeta)
    (report : RecoveryReport) : List ChunkMeta :=
  (lastSaved m (recoverSeriesDir now path order ⟨false⟩ sd report).1).chunks

/-- The listing with one file first. -/
def DirOrder.first (p : Text × FileBody) : DirOrder :=
  ⟨fun l => if p ∈ l then p :: l.erase p else l, fun l => by
    simp only
    split
    · rename_i h
      exact (List.perm_cons_erase h).symm
    · exact List.Perm.refl l⟩

section Orders

variable {sd : SeriesDir} {m : SeriesMeta} {order : DirOrder} {cs : List ChunkMeta}

/-- What a recovery tracks in the end: the candidates adopted among themselves, and the tracked chunks they do not
meet. -/
theorem mem_trackedAfter (hm : sd.manifest = .current m) (hv : m.validate = .ok ()) (hfiles : Scannable sd)
    (hr : Repairable sd) (hcs : scanChunkFiles order sd = .ok cs) (hne : cs ≠ []) (now : Int) (path : Dir)
    (report : RecoveryReport) (c : ChunkMeta) :
    c ∈ trackedAfter now path order sd m report ↔
      c ∈ m.chunks.map (settle m.activeChunkId) ∧
        (∀ b ∈ (cs.filter (fun x => decide (ChunkAdopts m.chunks x))).foldl adoptChunk [], ¬ SpansMeet c b) ∨
      c ∈ (cs.filter (fun x => decide (ChunkAdopts m.chunks x))).foldl adoptChunk [] := by
  have hload := SeriesDir.loadSeriesMeta_ok hm hv
  have hpos := hr.tracked m hload
  have hread : ∀ c ∈ cs, Readable c := by
    intro c hc
    obtain ⟨cs', hcs', hfrom, -⟩ := scanChunkFiles_ok hfiles order
    rw [hcs] at hcs'
    obtain rfl := Except.ok.inj hcs'
    obtain ⟨p, -, -, hs⟩ := hfrom c hc
    exact hs.readable
  obtain ⟨saves, report', hrec, hs⟩ := recoverFrom_ok now path report hv hpos hread
  obtain ⟨-, -, hchunks⟩ := lastSaved_spec hv hpos hread hs
  have htracked : c ∈ trackedAfter now path order sd m report ↔ c ∈ recoveredChunks m cs := by
    unfold trackedAfter
    rw [recoverSeriesDir_of_manifest hcs hne hload, hrec, hchunks, mem_sortByKey]
  have hfilter : (fun x => decide (ChunkAdopts (m.chunks.map (settle m.activeChunkId)) x)) = fun x =>
    decide (ChunkAdopts m.chunks x) := by
    funext x
    rw [decide_eq_decide]
    exact adopts_settled
  have hoffered : Offered cs m.chunks := hr.offered hcs (hr.describes hload hcs)
  rw [htracked]
  unfold recoveredChunks
  rw [foldl_adopt_filter, hfilter]
  · exact mem_foldl_adopt_iff (fun x hx => adopts_settled.2 (by simpa using (List.mem_filter.1 hx).2))
  · intro x hx hno
    exact barred_of_not_adopts (hoffered.proper x hx) (hoffered.describes_settled m.activeChunkId x hx) hno

/-- The files that could be adopted, as they are offered in some order. -/
theorem contenders_perm (hr : Repairable sd) (hcs : scanChunkFiles order sd = .ok cs) :
    (cs.filter (fun x => decide (ChunkAdopts m.chunks x))).Perm (contenders sd m) := by
  obtain ⟨cs', hcs', hperm⟩ := scanChunkFiles_perm hr.names hcs .asListed
  unfold contenders
  rw [hcs']
  exact hperm.filter _

theorem scan_sorted (hcs : scanChunkFiles order sd = .ok cs) : cs.Pairwise (fun c d => c.startTs ≤ d.startTs) := by
  rcases scanChunkFiles_eq_ok hcs with rfl | ⟨-, found, rfl, -⟩
  · exact .nil
  · exact sortByKey_sorted _ _

/-- A file that is listed first comes first of the candidates it begins with. -/
theorem scan_first (hr : Repairable sd) {x : ChunkMeta} (hcs : scanChunkFiles order sd = .ok cs) (hx : x ∈ cs) :
    ∃ p zs, scanChunkFiles (.first p) sd = .ok (sortByKey ChunkMeta.startTs (x :: zs)) := by
  obtain ⟨p, hp, hn, hentry⟩ := mem_scan hcs hx
  obtain ⟨cs', hcs', hperm⟩ := scanChunkFiles_perm hr.names hcs (.first p)
  refine ⟨p, ?_⟩
  rcases scanChunkFiles_eq_ok hcs' with rfl | ⟨-, found, rfl, hall⟩
  · rw [hperm.eq_nil] at hx
    cases hx
  · have hlisting : ((DirOrder.first p).1 sd.files).filter (fun q =>
      isChunkName q.1) = p :: (sd.files.erase p).filter (fun q => isChunkName q.1) := by
      show (if p ∈ sd.files then p :: sd.files.erase p else sd.files).filter _ = _
      rw [if_pos hp]
      exact List.filter_cons_of_pos (by simpa using hn)
    rw [hlisting] at hall
    cases hall with
    | @cons _ y _ zs hy hrest =>
      -- the entry of the file does not depend on the order
      have hnames : ((sortByKey ChunkMeta.startTs (y :: zs)).map ChunkMeta.relativePath).Nodup :=
        List.pairwise_map.2 (scan_names hr.names hcs')
      have hyx : y = x := List.inj_on_of_nodup_map hnames ((mem_sortByKey _).2 List.mem_cons_self) (hperm.mem_iff.1 hx)
        (hy.relativePath.trans hentry.relativePath.symm)
      subst hyx
      exact ⟨zs, hcs'⟩

/-- **The chunks that recovery tracks do not depend on how the directory is listed exactly when the files that could
be adopted have a kernel.** -/
theorem recover_confluent_iff (hm : sd.manifest = .current m) (hv : m.validate = .ok ()) (hfiles : Scannable sd)
    (hr : Repairable sd) (now : Int) (path : Dir) (report : RecoveryReport) :
    (∀ order order' c, c ∈ trackedAfter now path order sd m report ↔ c ∈ trackedAfter now path order' sd m report) ↔
      ∃ chosen, ChunkKernel (contenders sd m) chosen := by
  obtain ⟨cs, hcs, -⟩ := scanChunkFiles_ok hfiles .asListed
  have hcont : contenders sd m = cs.filter (fun x => decide (ChunkAdopts m.chunks x)) := by
    unfold contenders
    rw [hcs]
  have hload := SeriesDir.loadSeriesMeta_ok hm hv
  have hoffered : Offered cs m.chunks := hr.offered hcs (hr.describes hload hcs)
  have hproper : ∀ x ∈ contenders sd m, x.startTs ≤ x.endTs := fun x hx => by
    rw [hcont] at hx
    exact hoffered.proper x (List.mem_filter.1 hx).1
  have hnames : (contenders sd m).Pairwise (fun x y => x.relativePath ≠ y.relativePath) := by
    rw [hcont]
    exact hoffered.names.sublist List.filter_sublist
  by_cases hnil : cs = []
  · -- without files nothing is adopted
    have hno : ∀ order, recoverSeriesDir now path order ⟨false⟩ sd report = ([], .ok report) := fun order => by
      obtain ⟨cs', hcs', hperm⟩ := scanChunkFiles_perm hr.names hcs order
      subst hnil
      obtain rfl := hperm.nil_eq
      exact recoverSeriesDir_nil hcs'
    refine ⟨fun _ => ⟨[], by simp, by simp, fun x hx => ?_⟩, fun _ order order' c => ?_⟩
    · rw [hcont, hnil] at hx
      cases hx
    · unfold trackedAfter
      rw [hno order, hno order']
  have hmem := fun {order cs'} (hcs' : scanChunkFiles order sd = .ok cs') (hne : cs' ≠ []) c =>
    mem_trackedAfter hm hv hfiles hr hcs' hne now path report c
  constructor
  · intro hsame
    refine ⟨(sortByKey ChunkMeta.startTs (contenders sd m)).foldl adoptChunk [],
      kernel_of_foldl_adopt hproper hnames (fun x hx => ?_)⟩
    rw [hcont] at hx
    obtain ⟨hxcs, hxel⟩ := List.mem_filter.1 hx
    obtain ⟨p, zs, hfirst⟩ := scan_first hr hcs hxcs
    have hfilter : (sortByKey ChunkMeta.startTs (x :: zs)).filter (fun x => decide (ChunkAdopts m.chunks x)) =
        sortByKey ChunkMeta.startTs (x :: zs.filter (fun x => decide (ChunkAdopts m.chunks x))) := by
      rw [sortByKey_filter]
      exact congrArg _ (List.filter_cons_of_pos (by simpa using hxel))
    have hsorted : sortByKey ChunkMeta.startTs (contenders sd m) = cs.filter (fun x =>
      decide (ChunkAdopts m.chunks x)) := by
      rw [hcont]
      exact sortByKey_of_sorted _ ((scan_sorted hcs).sublist List.filter_sublist)
    have hperm := contenders_perm (m := m) hr hfirst
    rw [hfilter] at hperm
    refine ⟨_, (sortByKey_perm _ _).symm.trans hperm, fun a => ?_⟩
    have hne : sortByKey ChunkMeta.startTs (x :: zs) ≠ [] := List.ne_nil_of_mem ((mem_sortByKey _).2 List.mem_cons_self)
    have hiff := hsame (.first p) .asListed a
    rw [hmem hfirst hne, hmem hcs hnil, hfilter, ← hsorted] at hiff
    -- a file that is adopted was not tracked
    have hnew : ∀ ys : List ChunkMeta, (∀ y ∈ ys, y ∈ contenders sd m) → a ∈ ys.foldl adoptChunk [] →
        a ∉ m.chunks.map (settle m.activeChunkId) := by
      intro ys hys ha hset
      have hael := hys a ((foldl_adopt_mem ha).resolve_left List.not_mem_nil)
      rw [hcont] at hael
      have hadopts : ChunkAdopts m.chunks a := by simpa using (List.mem_filter.1 hael).2
      exact (adopts_settled.2 hadopts a hset).1 rfl
    constructor
    · intro ha
      exact (hiff.1 (.inr ha)).resolve_left (fun h => hnew _ (fun y hy => hperm.mem_iff.1 hy) ha h.1)
    · intro ha
      exact (hiff.2 (.inr ha)).resolve_left (fun h => hnew _ (fun y hy => (mem_sortByKey _).1 hy) ha h.1)
  · rintro ⟨chosen, hker⟩ order order' c
    have hfold : ∀ order, ∃ cs', scanChunkFiles order sd = .ok cs' ∧ cs' ≠ [] ∧
        ∀ b, b ∈ (cs'.filter (fun x => decide (ChunkAdopts m.chunks x))).foldl adoptChunk [] ↔ b ∈ chosen := by
      intro order
      obtain ⟨cs', hcs', hperm⟩ := scanChunkFiles_perm hr.names hcs order
      refine ⟨cs', hcs', fun h => hnil (hperm.trans (h ▸ List.Perm.refl _)).eq_nil, fun b => ?_⟩
      exact foldl_adopt_of_kernel hker hproper hnames (contenders_perm hr hcs')
        ((scan_sorted hcs').sublist List.filter_sublist)
    obtain ⟨c1, hc1, hne1, h1⟩ := hfold order
    obtain ⟨c2, hc2, hne2, h2⟩ := hfold order'
    rw [hmem hc1 hne1, hmem hc2 hne2]
    simp only [h1, h2]

end Orders

/-! ### Two files of one generation that begin together -/

def sampleShortFile : ChunkFile :=
  chunkFileOf (sampleMeta []) sampleOldRows (sampleOptions 1 "chunks/1970-01.chunk") (anchors 2 sampleOldRows)

def sampleLongRows : List KlineRecord := [sampleKline 0, sampleKline 60000, sampleKline 120000]

def sampleLongFile (generation : Nat) : ChunkFile :=
  chunkFileOf (sampleMeta []) sampleLongRows { sampleOptions 2 "chunks/1970-01.g00000002.chunk"
    with generation := generation } (anchors 2 sampleLongRows)

/-- A series whose manifest tracks nothing, with two files of the first month. -/
def sampleContested (generation : Nat) : SeriesDir where
  manifest := .current (sampleMeta [])
  chunksDir := true
  files := [("1970-01.chunk", .chunk sampleShortFile), ("1970-01.g00000002.chunk", .chunk (sampleLongFile generation))]

def DirOrder.reversed : DirOrder := ⟨List.reverse, List.reverse_perm⟩

theorem sampleContested_scannable : Scannable (sampleContested 2) where
  chunksDir_eq := rfl
  chunk_ok p hp _ := by
    rcases List.mem_cons.1 hp with rfl | hp
    · exact ⟨sampleShortFile, rfl, rfl, rfl, by decide, by decide, by decide, by decide, by decide⟩
    · rw [List.mem_singleton.1 hp]
      exact ⟨sampleLongFile 2, rfl, rfl, rfl, by decide, by decide, by decide, by decide, by decide⟩
  sidecar_ok p hp hs := by
    rcases List.mem_cons.1 hp with rfl | hp
    · exact absurd hs (by decide)
    · rw [List.mem_singleton.1 hp] at hs
      exact absurd hs (by decide)

theorem sampleContested_repairable : Repairable (sampleContested 2) where
  names := by decide
  filled p hp _ f hb := by
    rcases List.mem_cons.1 hp with rfl | hp
    · obtain rfl := FileBody.chunk.inj hb
      decide
    · rw [List.mem_singleton.1 hp] at hb
      obtain rfl := FileBody.chunk.inj hb
      decide
  tracked m hm c hc := by
    obtain ⟨hman, -⟩ := SeriesDir.loadSeriesMeta_eq_ok hm
    obtain rfl := ManifestFile.current.inj hman
    cases hc
  agrees m hm c hc := by
    obtain ⟨hman, -⟩ := SeriesDir.loadSeriesMeta_eq_ok hm
    obtain rfl := ManifestFile.current.inj hman
    cases hc

/-- A longer file of a newer generation is adopted in every order. -/
theorem recover_confluent_iff_sample : (sampleMeta []).validate = .ok () ∧
    ∀ order order' c, c ∈ trackedAfter 5 ["X", "kline", "1m"] order (sampleContested 2) (sampleMeta [])
    (.start ⟨false⟩) ↔
      c ∈ trackedAfter 5 ["X", "kline", "1m"] order' (sampleContested 2) (sampleMeta []) (.start ⟨false⟩) :=
  ⟨by decide, (recover_confluent_iff rfl (by decide) sampleContested_scannable sampleContested_repairable 5 _ _).2
    ⟨(contenders (sampleContested 2) (sampleMeta [])).drop 1, by decide +kernel, by decide +kernel, by decide +kernel⟩⟩

/-- Of one generation, whichever of the two files is listed first is adopted, and the other is not. -/
theorem recover_depends_on_order :
    (trackedAfter 5 ["X", "kline", "1m"] .asListed (sampleContested 1) (sampleMeta []) (.start ⟨false⟩)).map
      ChunkMeta.endTs = [60000] ∧
      (trackedAfter 5 ["X", "kline", "1m"] .reversed (sampleContested 1) (sampleMeta []) (.start ⟨false⟩)).map
        ChunkMeta.endTs = [120000] := by
  decide +kernel

end FastK
