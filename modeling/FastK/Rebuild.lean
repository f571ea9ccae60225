import FastK.Listing
import FastK.SealedRoots
import FastK.Validation
/-!
# Rebuilding a healthy store

`rebuild_all_manifests_from_fs` (`storage/recovery.rs`) writes the manifests anew from what it finds beside them.  The
headers of the chunk files have most of an entry, but the scan takes the partition of a chunk for the month of its
start, and its state for what the name of the file says; a merged chunk of a series with deltas is active under a name
that says it is sealed.  So a rebuild is the identity on the series whose files tell all of this
(`rebuild_identity_iff`).
-/
namespace FastK

open Journal Spans

/-! ## The id of a series -/

/-- **Every series of a healthy run has the id for its names.** -/
theorem Run.coined {root : Dir} {n : Nat} {s : Store} (h : Run root Healthy n s) :
    ∀ d m, (s.dirs d).manifest = .current m → m.Coined := by
  induction h with
  | start =>
    intro d m hm
    cases hm
  | @call n s env c hrun hok ih =>
    intro d m' hm'
    obtain ⟨B, hg⟩ := hrun.healthy
    cases hc : c.key with
    | none =>
      have hsame : ((c.run env).final s).dirs d = s.dirs d :=
        (exec_within_all (s := s) (fun d m => Call.run_within_none hg hc env d m) d).1
      rw [hsame] at hm'
      exact ih d m' hm'
    | some key =>
      obtain ⟨m, ⟨new, hfinds, hnew⟩, hwithin⟩ := Call.run_within hg hok.regular.typed hc env
      by_cases hd : d = key.dir
      · subst hd
        have hhead := (hfinds.headed.exec hwithin).head m' hm'
        have hcoined : m.Coined := by
          rcases hfinds.placed with hp | hn
          · cases hg.dir key.dir with
            | empty hmiss _ =>
              rw [hmiss] at hp
              cases hp
            | @series m₀ hm₀ _ =>
              obtain rfl := hfinds.same m₀ hm₀
              exact ih _ m hm₀
          · exact hnew hn
        unfold SeriesMeta.Coined at hcoined ⊢
        rw [hhead]
        exact hcoined
      · have hsame : ((c.run env).final s).dirs d = s.dirs d := exec_within hwithin hd s
        rw [hsame] at hm'
        exact ih d m' hm'

/-! ## The entries of a scan -/

/-- What a rebuild has to keep of the entry of a sidecar: all but generation and block size. -/
def SidecarMeta.kept (s : SidecarMeta) : SidecarMeta := { s with generation := 0, blockSize := 0 }

/-- The entry that a scan makes of the file of an entry. -/
structure Reread (c a : ChunkMeta) : Prop where
  same : a = { c with monthKey := a.monthKey, state := a.state, sidecars := a.sidecars }
  monthKey : monthKey c.startTs = .ok a.monthKey
  state : a.state = decodeChunkState c.relativePath
  sidecars : a.sidecars.map SidecarMeta.kept = (c.sidecars.map SidecarMeta.kept).reverse

theorem decodeChunkState_path (name : Text) : decodeChunkState (chunkRelativePath name) = decodeChunkState name := by
  have hiff : ".delta.".toList <:+: chunkRelativePath name ↔ ".delta.".toList <:+: name := by
    unfold chunkRelativePath
    refine ⟨fun h => ?_, fun h => h.trans (List.suffix_append _ _).isInfix⟩
    simpa [List.infix_cons_iff, List.cons_prefix_cons] using h
  unfold decodeChunkState Text.contains
  simp only [hiff]

section Scan

variable {B : Nat} {d : Dir} {sd : SeriesDir} {m : SeriesMeta} {order : DirOrder} {cs : List ChunkMeta}

/-- The sidecars of a scanned chunk are those of its path. -/
theorem scan_sidecars (h : scanChunkFiles order sd = .ok cs) {a : ChunkMeta} (ha : a ∈ cs) : ∃ sidecars,
    collect (fun s => (parentChunkRelativePath s.relativePath).map (fun parent => (parent, s)))
    (scanSidecarFiles (order.1 sd.files)) = .ok sidecars ∧
      a.sidecars = sidecarsOf sidecars a.relativePath := by
  unfold scanChunkFiles at h
  by_cases hdir : sd.chunksDir = false
  · rw [if_pos hdir] at h
    obtain rfl := Except.ok.inj h
    cases ha
  rw [if_neg hdir] at h
  simp only at h
  cases hside : collect (fun s => (parentChunkRelativePath s.relativePath).map (fun parent =>
    (parent, s))) (scanSidecarFiles (order.1 sd.files)) with
  | error e =>
    rw [hside] at h
    cases h
  | ok sidecars =>
    rw [hside] at h
    simp only at h
    cases hcs : collect (scanChunkFile sidecars) ((order.1 sd.files).filter (fun p => isChunkName p.1)) with
    | error e =>
      rw [hcs] at h
      cases h
    | ok found =>
      rw [hcs] at h
      obtain rfl := Except.ok.inj h
      refine ⟨sidecars, rfl, ?_⟩
      obtain ⟨p, -, hp⟩ := exists_of_mem_forall₂ (collect_eq_ok hcs) ((mem_sortByKey _).1 ha)
      unfold scanChunkFile at hp
      split at hp
      · split at hp
        · cases hp
        · split at hp
          · cases hp
          · rw [← Except.ok.inj hp]
            rfl
      · cases hp

/-- A sidecar of a scanned chunk is a file of the directory whose name leads to the chunk. -/
theorem mem_scan_sidecars (h : scanChunkFiles order sd = .ok cs) {a : ChunkMeta} (ha : a ∈ cs) (x : SidecarMeta) :
    x ∈ a.sidecars ↔
    ∃ p ∈ sd.files, isSidecarName p.1 = true ∧ parentChunkRelativePath (chunkRelativePath p.1) = .ok a.relativePath ∧
      x = sidecarMetaOf p.1 p.2 := by
  obtain ⟨sidecars, hside, heq⟩ := scan_sidecars h ha
  have hall := collect_eq_ok hside
  rw [heq]
  unfold sidecarsOf
  rw [List.mem_insertionSort, List.mem_map]
  constructor
  · rintro ⟨q, hq, rfl⟩
    obtain ⟨hq, hrel⟩ := List.mem_filter.1 hq
    obtain ⟨s, hs, hparent⟩ := exists_of_mem_forall₂ hall hq
    obtain ⟨p, hp, rfl⟩ := List.mem_map.1 hs
    obtain ⟨hp, hname⟩ := List.mem_filter.1 hp
    rw [show (sidecarMetaOf p.1 p.2).relativePath = chunkRelativePath p.1 from rfl] at hparent
    cases hpar : parentChunkRelativePath (chunkRelativePath p.1) with
    | error e =>
      rw [hpar] at hparent
      cases hparent
    | ok parent =>
      rw [hpar] at hparent
      obtain rfl := Except.ok.inj hparent
      exact ⟨p, (order.2 sd.files).mem_iff.1 hp, hname, by rw [← of_decide_eq_true hrel]; exact hpar, rfl⟩
  · rintro ⟨p, hp, hname, hparent, rfl⟩
    have hs : sidecarMetaOf p.1 p.2 ∈ scanSidecarFiles (order.1 sd.files) :=
      List.mem_map_of_mem (List.mem_filter.2 ⟨(order.2 sd.files).mem_iff.2 hp, hname⟩)
    obtain ⟨q, hq, hmap⟩ := exists_of_mem_forall₂ hall.flip hs
    rw [show (sidecarMetaOf p.1 p.2).relativePath = chunkRelativePath p.1 from rfl, hparent] at hmap
    obtain rfl := Except.ok.inj hmap
    exact ⟨_, List.mem_filter.2 ⟨hq, decide_eq_true rfl⟩, rfl⟩

theorem scan_sidecars_nodup (hn : (sd.files.map Prod.fst).Nodup) (h : scanChunkFiles order sd = .ok cs)
    {a : ChunkMeta} (ha : a ∈ cs) :
    a.sidecars.Nodup ∧ a.sidecars.Pairwise (fun x y => Text.le x.relativePath y.relativePath = true) := by
  obtain ⟨sidecars, hside, heq⟩ := scan_sidecars h ha
  rw [heq]
  refine ⟨(List.perm_insertionSort _ _).nodup_iff.2 ?_, List.pairwise_insertionSort _ _⟩
  refine List.Nodup.of_map SidecarMeta.relativePath ?_
  rw [List.map_map]
  exact (sidecarPaths_nodup hn hside).sublist (List.Sublist.map _ List.filter_sublist)

theorem kept_zmap (name : Text) (zmap : List ZoneMapEntry) (generation blockSize : Nat) :
    (sidecarMetaOf (sidecarRelativePath name zmapKind) (.zmap zmap)).kept =
      SidecarMeta.kept ⟨zmapKind, sidecarRelativePath (chunkRelativePath name) zmapKind, generation,
        checksum64 (FileBody.zmap zmap).bytes, blockSize, zmap.length⟩ := by
  have hkind : Text.afterLast '.' (sidecarRelativePath name zmapKind) = zmapKind :=
    Text.afterLast_append (by decide) name
  unfold sidecarMetaOf SidecarMeta.kept
  rw [hkind, if_pos rfl, sidecarRelativePath_chunk, length_zmap, Nat.mul_div_cancel_left _ (by decide)]

theorem kept_vix (name : Text) (vix : List ValueIndexEntry) (generation blockSize : Nat) :
    (sidecarMetaOf (sidecarRelativePath name vixKind) (.vix vix)).kept =
      SidecarMeta.kept ⟨vixKind, sidecarRelativePath (chunkRelativePath name) vixKind, generation,
        checksum64 (FileBody.vix vix).bytes, blockSize, vix.length⟩ := by
  have hkind : Text.afterLast '.' (sidecarRelativePath name vixKind) = vixKind := Text.afterLast_append (by decide) name
  unfold sidecarMetaOf SidecarMeta.kept
  rw [hkind, if_neg (by decide), if_pos rfl, sidecarRelativePath_chunk, length_vix,
    Nat.mul_div_cancel_left _ (by decide)]

/-- **The scan has the index files of a scalar chunk in the order of their paths.** -/
theorem GoodSeries.scan_index (h : GoodSeries B d sd m) (ht : m.recordType = .scalar)
    (hcs : scanChunkFiles order sd = .ok cs) {a c : ChunkMeta} (ha : a ∈ cs) (hc : c ∈ m.chunks)
    (hpath : a.relativePath = c.relativePath) :
    a.sidecars.map SidecarMeta.kept = (c.sidecars.map SidecarMeta.kept).reverse := by
  obtain ⟨name, blockSize, zmap, vix, hname, hentries, hfiles⟩ := h.described.indexed ht c hc
  obtain ⟨n, f, hf, hn, -⟩ := h.described.stamped c hc
  obtain rfl : n = name := chunkRelativePath_inj (hn.symm.trans hname)
  have hmem : ∀ x, x ∈ a.sidecars ↔
      x ∈ [sidecarMetaOf (sidecarRelativePath n vixKind) (.vix vix),
        sidecarMetaOf (sidecarRelativePath n zmapKind) (.zmap zmap)] := by
    intro x
    rw [mem_scan_sidecars hcs ha, hpath, hname]
    constructor
    · rintro ⟨p, hp, hside, hparent, rfl⟩
      -- the file is an index file of some entry, and its name leads to this one
      obtain ⟨e, he, hrel⟩ := h.described.covered ht p hp hside
      obtain ⟨n', blockSize', zmap', vix', hname', hentries', -⟩ := h.described.indexed ht e he
      obtain ⟨k, g, hg, hk, -⟩ := h.described.stamped e he
      obtain rfl : k = n' := chunkRelativePath_inj (hk.symm.trans hname')
      rw [hentries', mem_indexEntries hname'] at hrel
      obtain ⟨q, hq, hpq⟩ := hrel
      have hpq := chunkRelativePath_inj hpq
      have hparent' := (indexFiles_name hg.2 hq).2
      rw [← hpq, hparent] at hparent'
      obtain rfl := chunkRelativePath_inj (Except.ok.inj hparent')
      have hbody : ∀ r ∈ indexFiles n zmap vix, p.1 = r.1 → p = r := fun r hr heq =>
        List.inj_on_of_nodup_map h.fits.filed.nodup hp (hfiles r hr) heq
      rcases List.mem_cons.1 hq with rfl | hq
      · rw [hbody _ List.mem_cons_self hpq]
        exact List.mem_cons_of_mem _ List.mem_cons_self
      · obtain rfl := List.mem_singleton.1 hq
        rw [hbody _ (List.mem_cons_of_mem _ List.mem_cons_self) hpq]
        exact List.mem_cons_self
    · intro hx
      have hof : ∀ r ∈ indexFiles n zmap vix, ∃ p ∈ sd.files, isSidecarName p.1 = true ∧
          parentChunkRelativePath (chunkRelativePath p.1) = .ok (chunkRelativePath n) ∧
            sidecarMetaOf r.1 r.2 = sidecarMetaOf p.1 p.2 :=
        fun r hr => ⟨r, hfiles r hr, (indexFiles_name hf.2 hr).1, (indexFiles_name hf.2 hr).2, rfl⟩
      rcases List.mem_cons.1 hx with rfl | hx
      · exact hof _ (List.mem_cons_of_mem _ List.mem_cons_self)
      · obtain rfl := List.mem_singleton.1 hx
        exact hof _ List.mem_cons_self
  obtain ⟨hnodup, hsorted⟩ := scan_sidecars_nodup h.fits.filed.nodup hcs ha
  have hne : sidecarRelativePath n vixKind ≠ sidecarRelativePath n zmapKind :=
    fun heq => absurd (List.append_cancel_left heq) (by decide)
  have hpaths : chunkRelativePath (sidecarRelativePath n vixKind) ≠ chunkRelativePath
    (sidecarRelativePath n zmapKind) := fun heq =>
    hne (chunkRelativePath_inj heq)
  have hle : Text.le (chunkRelativePath (sidecarRelativePath n vixKind))
    (chunkRelativePath (sidecarRelativePath n zmapKind)) = true :=
    Text.le_append_left _ (Text.le_append_left n (by decide))
  have heq : a.sidecars = [sidecarMetaOf (sidecarRelativePath n vixKind) (.vix vix),
    sidecarMetaOf (sidecarRelativePath n zmapKind) (.zmap zmap)] := by
    refine List.Perm.eq_of_pairwise ?_ hsorted (List.pairwise_pair.2 hle)
      ((List.perm_ext_iff_of_nodup hnodup ?_).2 hmem)
    · intro x y hx hy hxy hyx
      have hrel := Text.le_antisymm hxy hyx
      rw [hmem] at hx
      simp only [List.mem_cons, List.not_mem_nil, or_false] at hx hy
      rcases hx with rfl | rfl <;> rcases hy with rfl | rfl
      · rfl
      · exact absurd hrel hpaths
      · exact absurd hrel.symm hpaths
      · rfl
    · simp only [List.nodup_cons, List.mem_singleton, List.not_mem_nil, not_false_eq_true, List.nodup_nil, and_true]
      exact fun heq => hpaths (congrArg SidecarMeta.relativePath heq)
  rw [heq, hentries]
  unfold indexEntries
  rw [hname]
  simp only [List.map_cons, List.map_nil, List.reverse_cons, List.reverse_nil, List.nil_append, List.cons_append]
  rw [kept_vix n vix c.generation 0, kept_zmap n zmap c.generation blockSize]

/-- **What a scan makes of the file of an entry.** -/
theorem GoodSeries.reread (h : GoodSeries B d sd m) (hcs : scanChunkFiles order sd = .ok cs) {a c : ChunkMeta}
    (ha : a ∈ cs) (hc : c ∈ m.chunks) (hpath : a.relativePath = c.relativePath) : Reread c a := by
  obtain ⟨p, hp, hn, f, key, sidecars, hb, -, hkey, rfl⟩ := mem_scan hcs ha
  obtain ⟨name, g, hg, hname, hst⟩ := h.described.stamped c hc
  obtain rfl : p.1 = name := chunkRelativePath_inj (hpath.trans hname)
  have hf : HasChunk sd p.1 f := ⟨by rw [← hb]; exact hp, hn⟩
  obtain rfl := h.fits.filed.hasChunk_inj hf hg
  refine ⟨?_, ?_, ?_, ?_⟩
  · rw [hst.scanned]
    rfl
  · rw [hst.scanned]
    exact hkey
  · rw [hname, decodeChunkState_path]
    rfl
  · by_cases ht : m.recordType = .scalar
    · exact h.scan_index ht hcs ha hc hpath
    · have hnone : ∀ x, x ∉ (scannedChunk p.1 f key sidecars).sidecars := by
        intro x hx
        obtain ⟨q, hq, hside, -, -⟩ := (mem_scan_sidecars hcs ha x).1 hx
        rw [(h.described.plain ht).1 q hq] at hside
        cases hside
      rw [List.eq_nil_iff_forall_not_mem.2 hnone, (h.described.plain ht).2 c hc]
      rfl

theorem GoodSeries.starts (h : GoodSeries B d sd m) : m.chunks.Pairwise (fun a b => a.startTs < b.startTs) := by
  refine h.fits.chain.1.imp_of_mem (fun {a b} ha _ hab => ?_)
  have := h.fits.chain.2 a ha
  omega

/-- **A scan of a series in order finds its entries, one for one.** -/
theorem GoodSeries.scan_entries (h : GoodSeries B d sd m) (order : DirOrder) :
    ∃ cs, scanChunkFiles order sd = .ok cs ∧ List.Forall₂ Reread m.chunks cs := by
  obtain ⟨cs, hcs, hsound, hcomplete⟩ := h.fits.files.scanned order
  let found : ChunkMeta → ChunkMeta := fun c => (cs.find? (fun a => decide (a.relativePath = c.relativePath))).getD c
  have hfound : ∀ c ∈ m.chunks, found c ∈ cs ∧ (found c).relativePath = c.relativePath := by
    intro c hc
    obtain ⟨a, ha, -, -⟩ := h.chunk_found hsound hcomplete hc
    have heq : found c = a := by simp [found, ha]
    rw [heq]
    exact ⟨List.mem_of_find?_eq_some ha, by simpa using List.find?_some ha⟩
  have hreread : ∀ c ∈ m.chunks, Reread c (found c) := fun c hc => h.reread hcs (hfound c hc).1 hc (hfound c hc).2
  have hstart : ∀ c ∈ m.chunks, (found c).startTs = c.startTs := by
    intro c hc
    rw [(hreread c hc).same]
  have hsorted : (m.chunks.map found).Pairwise (fun a b => a.startTs < b.startTs) := by
    rw [List.pairwise_map]
    refine h.starts.imp_of_mem (fun {a b} ha hb hab => ?_)
    rw [hstart a ha, hstart b hb]
    exact hab
  have hnodup : (m.chunks.map found).Nodup := hsorted.imp (fun {a b} hab heq => by
    rw [heq] at hab
    exact lt_irrefl _ hab)
  have hnames : (cs.map ChunkMeta.relativePath).Nodup := List.pairwise_map.2 (scan_names h.fits.filed.nodup hcs)
  have hmem : ∀ a, a ∈ cs ↔ a ∈ m.chunks.map found := by
    intro a
    constructor
    · intro ha
      obtain ⟨c, hc, hpath⟩ := List.mem_map.1 (h.chunks_tracked hsound ha)
      exact List.mem_map.2 ⟨c, hc, List.inj_on_of_nodup_map hnames (hfound c hc).1 ha ((hfound c hc).2.trans hpath)⟩
    · intro ha
      obtain ⟨c, hc, rfl⟩ := List.mem_map.1 ha
      exact (hfound c hc).1
  have hperm : cs.Perm (m.chunks.map found) := (List.perm_ext_iff_of_nodup hnames.of_map hnodup).2 hmem
  have heq : cs = m.chunks.map found := by
    refine List.Perm.eq_of_pairwise ?_ (scan_sorted hcs) (hsorted.imp (fun hab => hab.le)) hperm
    intro a b ha hb hab hba
    have hstarts : ((m.chunks.map found).map ChunkMeta.startTs).Nodup :=
      List.pairwise_map.2 (hsorted.imp (fun hlt => hlt.ne))
    exact List.inj_on_of_nodup_map hstarts ((hmem a).1 ha) hb (le_antisymm hab hba)
  refine ⟨cs, hcs, ?_⟩
  rw [heq, List.forall₂_map_right_iff, List.forall₂_same]
  exact hreread

theorem Reread.validate {c a : ChunkMeta} (h : Reread c a) : a.validate = c.validate := by
  obtain ⟨hsame, -, -, -⟩ := h
  rw [hsame]
  rfl

/-- The entries of a scan lie in the spans of those they are made of. -/
theorem chain_reread {chunks : List ChunkMeta} (hall : List.Forall₂ Reread chunks cs)
    (hc : SpanChain chunks ∧ SpansProper chunks) :
    SpanChain cs ∧ SpansProper cs := by
  have hspans : chunks.map (fun c => (c.startTs, c.endTs)) = cs.map (fun c => (c.startTs, c.endTs)) := by
    rw [← List.forall₂_eq_eq_eq, List.forall₂_map_left_iff, List.forall₂_map_right_iff]
    exact hall.imp (fun c a h => by rw [h.same])
  constructor
  · have := (List.pairwise_map (f := fun c : ChunkMeta => (c.startTs, c.endTs)) (R := fun p q => p.2 < q.1)).2 hc.1
    rw [hspans] at this
    exact List.pairwise_map.1 this
  · intro a ha
    obtain ⟨c, hcm, h⟩ := exists_of_mem_forall₂ hall ha
    have := hc.2 c hcm
    rw [h.same]
    exact this

end Scan

/-! ## The rebuild of a series -/

/-- The manifest that a rebuild makes of the entries of a scan. -/
def SeriesMeta.rebuilt (m : SeriesMeta) (now : Int) (cs : List ChunkMeta) : SeriesMeta :=
  { m with chunks := cs, activeChunkId := lastActive cs, manifestSeq := satAdd m.manifestSeq 1, updatedAt := now }

section Series

variable {B : Nat} {d : Dir} {sd : SeriesDir} {m : SeriesMeta} {order : DirOrder} {cs : List ChunkMeta}

theorem recordTypeOfSchema_schemaId (t : RecordType) : recordTypeOfSchema (FixedRecord.schemaId t.Row) = .ok t := by
  cases t <;> rfl

theorem rebuilt_validate (h : GoodSeries B d sd m) (hall : List.Forall₂ Reread m.chunks cs) (now : Int) :
    (m.rebuilt now cs).validate = .ok () := by
  refine validate_of_sameHead (m := m) rfl h.fits.valid (fun a ha => ?_) (chain_reread hall h.fits.chain).1
  obtain ⟨c, hc, hr⟩ := exists_of_mem_forall₂ hall ha
  rw [hr.validate]
  exact SeriesMeta.chunk_validate_of_validate h.fits.valid c hc

/-- **A series in order is rebuilt from its entries, if its directory is named for it.** -/
theorem GoodSeries.rebuildManifest_eq (h : GoodSeries B d sd m) (hm : sd.manifest = .current m) (hid : m.Coined)
    (hcs : scanChunkFiles order sd = .ok cs) (hall : List.Forall₂ Reread m.chunks cs) (hne : m.chunks ≠ [])
    (now : Int) (path : Dir) : rebuildManifest now path order sd =
      match pathIdentity path with
      | .error e => .error e
      | .ok key =>
        if m.key = key then .ok (m.rebuilt now cs)
        else .error (.invalidData "existing semantic metadata does not match chunk identity") := by
  have hgroups : selectNonOverlappingChunks cs = .ok cs := by
    obtain ⟨hchain, hproper⟩ := chain_reread hall h.fits.chain
    unfold selectNonOverlappingChunks
    simp only
    rw [overlapGroups_nil hchain hproper]
    rfl
  cases hfirst : cs with
  | nil =>
    rw [hfirst] at hall
    exact absurd (List.forall₂_nil_right_iff.1 hall) hne
  | cons a rest =>
    rw [← hfirst]
    have ha : a ∈ cs := by rw [hfirst]; exact List.mem_cons_self
    obtain ⟨c, hc, hr⟩ := exists_of_mem_forall₂ hall ha
    obtain ⟨name, f, hf, hname, hst⟩ := h.described.stamped c hc
    obtain ⟨key, rows, hfile⟩ := h.fits.files.file name f hf
    have hopen : sd.openChunk a.relativePath = .ok f := by
      have hpath : a.relativePath = chunkRelativePath name := by rw [hr.same]; exact hname
      rw [hpath]
      exact SeriesDir.openChunk_ok (h.fits.filed.lookup hf) hfile.holds.header_ok
    have hvalid := rebuilt_validate h hall now
    unfold rebuildManifest
    rw [hcs]
    simp only
    rw [if_neg (by rw [hfirst]; exact Bool.false_ne_true), hgroups]
    unfold buildSeriesMetaFromChunks
    rw [hfirst]
    simp only
    rw [hopen]
    simp only
    cases hpath : pathIdentity path with
    | error e => rfl
    | ok key =>
      simp only
      rw [hfile.holds.schemaId_eq, recordTypeOfSchema_schemaId, SeriesDir.loadSeriesMeta_ok hm h.fits.valid]
      simp only
      by_cases hkey : m.key = key
      · subst hkey
        rw [if_neg (by simp [h.fits.head.schemaId, hst.timeframeMs, SeriesMeta.key]), if_pos rfl]
        -- what the headers say is what the manifest says
        have hseries : max f.header.seriesId (seriesIdFor m.key.symbol m.key.category m.key.name) = m.seriesId := by
          rw [hst.seriesId]
          exact max_eq_left (le_of_eq hid.symm)
        have heq : ({ m with
            category := m.key.category, recordSize := f.header.recordSize, schemaId :=
              FixedRecord.schemaId m.recordType.Row,
            seriesId := max f.header.seriesId (seriesIdFor m.key.symbol m.key.category m.key.name), chunks := a :: rest,
            activeChunkId := lastActive (a :: rest), manifestSeq := satAdd m.manifestSeq 1, updatedAt :=
              now } : SeriesMeta)
              = m.rebuilt now (a :: rest) := by
          rw [hseries, hfile.holds.recordSize_eq, ← h.fits.head.schemaId, ← h.fits.head.recordSize]
          rfl
        simp only
        rw [heq]
        rw [hfirst] at hvalid
        exact checked_eq_ok.2 ⟨hvalid, rfl⟩
      · rw [if_neg hkey, if_pos]
        by_contra hnot
        simp only [not_or, ne_eq, not_not] at hnot
        obtain ⟨-, -, -, h1, h2, h3⟩ := hnot
        refine hkey ?_
        unfold SeriesMeta.key
        rw [h1, h2, h3]

end Series

/-! ## The rebuild of a store -/

/-- What a rebuild that answers does to a directory: it writes the manifest anew, or there is nothing to write it
from. -/
inductive RebuiltDir (now : Int) (sd sd' : SeriesDir) : Prop
  | unfilled (h : ∀ m, sd.manifest = .current m → m.chunks = []) (hsame : sd' = sd)
  | written {m : SeriesMeta} {cs : List ChunkMeta} (hm : sd.manifest = .current m) (hne : m.chunks ≠ [])
      (hall : List.Forall₂ Reread m.chunks cs)
      (hsame : sd' = { sd with manifest := .current (m.rebuilt now cs) })

/-- The directory is named for its series, where that has chunks. -/
def NamedDir (root : Dir) (d : Dir) (sd : SeriesDir) : Prop :=
  ∀ m, sd.manifest = .current m → m.chunks ≠ [] → pathIdentity (root ++ "series".toList :: d) = .ok m.key

section Rebuild

variable {B : Nat} {d : Dir} {s : Store} {m : SeriesMeta}

/-- **A directory in order is rebuilt exactly if it is named for its series.** -/
theorem rebuildSeries_cases (hg : GoodDir B d (s.dirs d)) (hid : ∀ m, (s.dirs d).manifest = .current m → m.Coined)
    (env : Env) :
    (¬ NamedDir s.root d (s.dirs d) ∧ ∃ e, rebuildSeries env d s = ([], .error e)) ∨
      NamedDir s.root d (s.dirs d) ∧ ∃ ks b, rebuildSeries env d s = (ks, .ok b) ∧ RebuiltDir env.now (s.dirs d)
        ((exec ks s).dirs d) ∧
        ∀ e, e ≠ d → (exec ks s).dirs e = s.dirs e := by
  cases hg with
  | empty hm hf =>
    have hnone : ∀ m, (s.dirs d).manifest = .current m → m.chunks = [] := by
      intro m hm'
      rw [hm] at hm'
      cases hm'
    exact .inr ⟨fun m hm' hne => absurd (hnone m hm') hne, [], false, rebuildSeries_no_files hf, .unfilled hnone rfl,
      fun _ _ => rfl⟩
  | @series m hm h =>
    obtain ⟨cs, hcs, hall⟩ := h.scan_entries env.order
    by_cases hne : m.chunks = []
    · have hnil : cs = [] := by
        rw [hne] at hall
        exact List.forall₂_nil_left_iff.1 hall
      subst hnil
      have hnone : ∀ m', (s.dirs d).manifest = .current m' → m'.chunks = [] := by
        intro m' hm'
        obtain rfl := ManifestFile.current.inj (hm.symm.trans hm')
        exact hne
      have hrun : rebuildSeries env d s = ([], .ok false) := by
        unfold rebuildSeries
        rw [Prog.look_bind, hcs]
        rfl
      exact .inr ⟨fun m' hm' hne' => absurd (hnone m' hm') hne', [], false, hrun, .unfilled hnone rfl, fun _ _ => rfl⟩
    · have hfound : cs.isEmpty = false := by
        cases cs with
        | nil => exact absurd (List.forall₂_nil_right_iff.1 hall) hne
        | cons a rest => rfl
      have hre := h.rebuildManifest_eq hm (hid m hm) hcs hall hne env.now (s.root ++ "series".toList :: d)
      have hrun : rebuildSeries env d s = ((do
          let m ← Prog.lift (rebuildManifest env.now (s.root ++ "series".toList :: d) env.order (s.dirs d))
          saveSeriesMeta env d m
          pure true) : Op Bool) s := by
        unfold rebuildSeries
        rw [Prog.look_bind, hcs, Prog.lift_ok_bind, hfound]
        rfl
      have hnamed : NamedDir s.root d (s.dirs d) ↔ pathIdentity (s.root ++ "series".toList :: d) = .ok m.key := by
        refine ⟨fun hn => hn m hm hne, fun hp m' hm' _ => ?_⟩
        obtain rfl := ManifestFile.current.inj (hm.symm.trans hm')
        exact hp
      by_cases hp : pathIdentity (s.root ++ "series".toList :: d) = .ok m.key
      · rw [hp] at hre
        simp only [if_pos] at hre
        have hsave : saveSeriesMeta env d (m.rebuilt env.now cs) s = (saveSteps env d (m.rebuilt env.now cs), .ok ()) :=
          saveSeriesMeta_run (rebuilt_validate h hall env.now) s
        refine .inr ⟨hnamed.2 hp, saveSteps env d (m.rebuilt env.now cs), true, ?_,
          .written hm hne hall (saveSteps_dir env d _ s), fun e he =>
          saveSteps_other env he _ s⟩
        rw [hrun, hre, Prog.lift_ok_bind, Prog.bind_run hsave]
        simp [Prog.pure_run]
      · refine .inl ⟨fun hn => hp (hnamed.1 hn), ?_⟩
        have herr : ∃ e, rebuildManifest env.now (s.root ++ "series".toList :: d) env.order (s.dirs d) = .error e := by
          cases hid' : pathIdentity (s.root ++ "series".toList :: d) with
          | error e =>
            rw [hid'] at hre
            exact ⟨e, hre⟩
          | ok key =>
            rw [hid'] at hre hp
            simp only at hre
            rw [if_neg (fun heq => hp (by rw [heq]))] at hre
            exact ⟨_, hre⟩
        obtain ⟨e, he⟩ := herr
        exact ⟨e, by rw [hrun, he]; rfl⟩

/-- **A rebuild answers exactly if every directory it finds is named for its series; then each of them is rebuilt.** -/
theorem rebuildAll_run (env : Env) : ∀ {ds : List Dir} {s : Store}, ds.Nodup →
    (∀ d ∈ ds, GoodDir B d (s.dirs d) ∧ ∀ m, (s.dirs d).manifest = .current m → m.Coined) →
    let p : Op Unit := Prog.forEach (fun d => do
      let _ ← rebuildSeries env d
      pure ()) ds
    (p.result s = .ok () ↔ ∀ d ∈ ds, NamedDir s.root d (s.dirs d)) ∧ (p.result s = .ok () →
      (∀ d ∈ ds, RebuiltDir env.now (s.dirs d) ((p.final s).dirs d)) ∧ ∀ d, d ∉ ds → (p.final s).dirs d = s.dirs d)
  | [], s, _, _ => ⟨⟨fun _ _ hd => absurd hd List.not_mem_nil, fun _ => rfl⟩, fun _ =>
      ⟨fun _ hd => absurd hd List.not_mem_nil, fun _ _ => rfl⟩⟩
  | d :: ds, s, hn, h => by
    obtain ⟨hd, hds⟩ := List.nodup_cons.1 hn
    intro p
    obtain ⟨hg, hid⟩ := h d List.mem_cons_self
    rcases rebuildSeries_cases hg hid env with ⟨hnot, e, hrun⟩ | ⟨hnamed, ks, b, hrun, hreb, hother⟩
    · have hres : p.result s = .error e := by
        show Prog.result (((rebuildSeries env d) >>= fun _ => pure ()) >>= fun _ => _) s = _
        exact Prog.result_bind_error (Prog.result_bind_error (congrArg Prod.snd hrun) _) _
      refine ⟨⟨fun hok => ?_, fun hall => absurd (hall d List.mem_cons_self) hnot⟩, fun hok => ?_⟩
      · rw [hres] at hok
        cases hok
      · rw [hres] at hok
        cases hok
    · have hstep : Prog.result ((rebuildSeries env d) >>= fun _ => (pure () : Op Unit)) s = .ok () :=
        Prog.result_bind_ok (congrArg Prod.snd hrun) _
      have hfin : Prog.final ((rebuildSeries env d) >>= fun _ => (pure () : Op Unit)) s = exec ks s := by
        rw [Prog.final_bind_pure]
        exact Prog.final_of_run hrun
      obtain ⟨hiff, hrest⟩ := rebuildAll_run env (s := exec ks s) hds (fun e he => by
        rw [hother e (ne_of_mem_of_not_mem he hd)]
        exact h e (List.mem_cons_of_mem d he))
      have hres : p.result s = (Prog.forEach (fun d => do
          let _ ← rebuildSeries env d
          pure ()) ds).result (exec ks s) := by
        rw [← hfin]
        exact Prog.result_bind_ok hstep _
      have hfinal : p.final s = (Prog.forEach (fun d => do
          let _ ← rebuildSeries env d
          pure ()) ds).final (exec ks s) := by
        rw [← hfin]
        exact Prog.final_bind_ok hstep _
      rw [hres, hfinal]
      refine ⟨hiff.trans ?_, fun hok => ?_⟩
      · rw [List.forall_mem_cons, exec_root]
        refine ⟨fun hall => ⟨hnamed, fun e he => ?_⟩, fun hall e he => ?_⟩
        · have := hall e he
          rwa [hother e (ne_of_mem_of_not_mem he hd)] at this
        · rw [hother e (ne_of_mem_of_not_mem he hd)]
          exact hall.2 e he
      · obtain ⟨hin, hout⟩ := hrest hok
        refine ⟨fun e he => ?_, fun e he => ?_⟩
        · rcases List.mem_cons.1 he with rfl | he
          · rw [hout e hd]
            exact hreb
          · have := hin e he
            rwa [hother e (ne_of_mem_of_not_mem he hd)] at this
        · obtain ⟨hne, hnot⟩ := not_or.1 (fun h => he (List.mem_cons.2 h))
          rw [hout e hnot, hother e hne]

end Rebuild

/-! ## What a rebuild keeps -/

/-- An entry without its sidecars. -/
def ChunkMeta.bare (c : ChunkMeta) : ChunkMeta := { c with sidecars := [] }

/-- A manifest without its number, its date and its sidecars. -/
def SeriesMeta.bare (m : SeriesMeta) : SeriesMeta := { m with chunks := m.chunks.map ChunkMeta.bare, manifestSeq := 0, updatedAt := 0 }

/-- The manifests are equal but for number and date, and for generation and block size of the sidecars, whose lists
`same` compares. -/
structure SameUpTo (same : List SidecarMeta → List SidecarMeta → Prop) (m m' : SeriesMeta) : Prop where
  bare : m'.bare = m.bare
  sidecars : List.Forall₂ (fun c c' =>
    same (c.sidecars.map SidecarMeta.kept) (c'.sidecars.map SidecarMeta.kept)) m.chunks m'.chunks

/-- The files tell the partition and the state of every chunk, and the chunk that is active. -/
structure ToldByFiles (m : SeriesMeta) : Prop where
  monthly : m.unit = .month
  states : ∀ c ∈ m.chunks, c.state = decodeChunkState c.relativePath
  active : m.activeChunkId = lastActive m.chunks

section Kept

variable {B : Nat} {d : Dir} {sd : SeriesDir} {m m' : SeriesMeta} {cs : List ChunkMeta}

/-- A month is the partition of its chunks in no other unit. -/
theorem monthKey_iff_month {ts : Int} {u : PartitionUnit} {key : Text} (h : partitionKey ts u = .ok key) :
    monthKey ts = .ok key ↔ u = .month := by
  obtain ⟨hr, hu⟩ := partitionKey_ok h
  unfold partitionKey at h
  unfold monthKey
  rw [if_pos hr] at h ⊢
  cases u with
  | month => exact ⟨fun _ => rfl, fun _ => h⟩
  | day =>
    refine ⟨fun hm => ?_, fun hm => by cases hm⟩
    have := congrArg List.length (Except.ok.inj (h.trans hm.symm))
    simp [dayText] at this
  | hour =>
    refine ⟨fun hm => ?_, fun hm => by cases hm⟩
    have := congrArg List.length (Except.ok.inj (h.trans hm.symm))
    simp [hourText, dayText] at this
  | rows => cases hu
  | bytes => cases hu

theorem forall₂_iff_all {α β : Type} {R P : α → β → Prop} {Q : α → Prop} {xs : List α} {ys : List β}
    (h : List.Forall₂ R xs ys) (hQ : ∀ x y, R x y → (P x y ↔ Q x)) : List.Forall₂ P xs ys ↔ ∀ x ∈ xs, Q x := by
  induction h with
  | nil => simp
  | cons hxy _ ih => rw [List.forall₂_cons, List.forall_mem_cons, hQ _ _ hxy, ih]

theorem Reread.bare_iff {c a : ChunkMeta} (h : Reread c a) :
    a.bare = c.bare ↔ FastK.monthKey c.startTs = .ok c.monthKey ∧ c.state = decodeChunkState c.relativePath := by
  rw [h.monthKey, ← h.state]
  constructor
  · intro heq
    have hkey := congrArg ChunkMeta.monthKey heq
    have hstate := congrArg ChunkMeta.state heq
    exact ⟨congrArg Except.ok hkey, hstate.symm⟩
  · rintro ⟨hkey, hstate⟩
    have hkey := Except.ok.inj hkey
    rw [h.same]
    unfold ChunkMeta.bare
    simp only [hkey, ← hstate]

theorem lastActive_bare (cs : List ChunkMeta) : lastActive (cs.map ChunkMeta.bare) = lastActive cs := by
  unfold lastActive
  rw [← List.map_reverse, List.find?_map, Option.map_map]
  rfl

/-- **The manifest of a rebuild is the one before exactly if the files tell it.** -/
theorem GoodSeries.rebuilt_bare_iff (h : GoodSeries B d sd m) (hall : List.Forall₂ Reread m.chunks cs)
    (hne : m.chunks ≠ []) (now : Int) :
    (m.rebuilt now cs).bare = m.bare ↔ ToldByFiles m := by
  have hchunks : cs.map ChunkMeta.bare = m.chunks.map ChunkMeta.bare ↔
      ∀ c ∈ m.chunks, monthKey c.startTs = .ok c.monthKey ∧ c.state = decodeChunkState c.relativePath := by
    rw [← forall₂_iff_all hall (P := fun c a => c.bare = a.bare) (fun c a hr => eq_comm.trans hr.bare_iff), eq_comm,
      ← List.forall₂_eq_eq_eq, List.forall₂_map_left_iff, List.forall₂_map_right_iff]
  have hmonthly : (∀ c ∈ m.chunks, monthKey c.startTs = .ok c.monthKey) ↔ m.unit = .month := by
    obtain ⟨c, hc⟩ := List.exists_mem_of_ne_nil _ hne
    exact ⟨fun hk => (monthKey_iff_month (h.fits.keyed hc).1).1 (hk c hc), fun hu e he => (monthKey_iff_month (h.fits.keyed he).1).2 hu⟩
  constructor
  · intro heq
    have hmap := congrArg SeriesMeta.chunks heq
    have hstates := hchunks.1 hmap
    refine ⟨hmonthly.1 (fun c hc => (hstates c hc).1), fun c hc => (hstates c hc).2, ?_⟩
    have hactive : lastActive cs = m.activeChunkId := congrArg SeriesMeta.activeChunkId heq
    rw [← hactive, ← lastActive_bare cs, ← lastActive_bare m.chunks]
    exact congrArg lastActive hmap
  · intro ht
    have hmap := hchunks.2 (fun c hc => ⟨hmonthly.2 ht.monthly c hc, ht.states c hc⟩)
    have hactive : lastActive cs = m.activeChunkId := by
      rw [ht.active, ← lastActive_bare cs, ← lastActive_bare m.chunks, hmap]
    unfold SeriesMeta.bare SeriesMeta.rebuilt
    rw [hmap, hactive]

end Kept

/-! ## What an append is checked against -/

section Checks

variable {m m' : SeriesMeta}

theorem chunksForPartition_bare (m : SeriesMeta) (key : Text) :
    m.bare.chunksForPartition key = (m.chunksForPartition key).map ChunkMeta.bare := by
  unfold SeriesMeta.chunksForPartition SeriesMeta.bare
  rw [List.filter_map]
  rfl

theorem appendOptions_bare (overlap : Text) (m : SeriesMeta) (key : Text) (firstName : Result Text) (first : Int) :
    appendOptions overlap m.bare key firstName first = appendOptions overlap m key firstName first := by
  have hid : nextChunkId m.bare = nextChunkId m := by
    unfold nextChunkId SeriesMeta.bare
    rw [List.map_map]
    rfl
  have hgeneration : nextGeneration ((m.chunksForPartition key).map ChunkMeta.bare) = nextGeneration
    (m.chunksForPartition key) := by
    unfold nextGeneration maxGeneration
    rw [List.map_map]
    rfl
  unfold appendOptions
  simp only [chunksForPartition_bare, List.getLast?_map, hid]
  cases (m.chunksForPartition key).getLast? with
  | none => simp only [Option.map_none, hgeneration]
  | some last =>
    simp only [Option.map_some, hgeneration]
    rfl

theorem readableEnd_bare (cs : List ChunkMeta) : readableEnd (cs.map ChunkMeta.bare) = readableEnd cs := by
  unfold readableEnd
  rw [List.filter_map, List.map_map]
  rfl

theorem checkBatches_bare {R : Type} [FixedRecord R] (m : SeriesMeta) : ∀ batches :
    List (Text × List R), checkBatches m.bare batches = checkBatches m batches
  | [] => rfl
  | (key, rows) :: rest => by
    unfold checkBatches
    rw [chunksForPartition_bare, readableEnd_bare, checkBatches_bare m rest]

theorem fixedBatches_bare (k : FixedKind) (symbol channel : Text) (m : SeriesMeta) (records : List k.Row) :
    fixedBatches k symbol channel m.bare records = fixedBatches k symbol channel m records := by
  unfold fixedBatches
  simp only [checkBatches_bare]
  rfl

theorem preflightOverlap_bare {R : Type} [FixedRecord R] (m : SeriesMeta) (command : Text) : ∀ months :
    List (Text × List R),
    preflightOverlap (some m.bare) command months = preflightOverlap (some m) command months
  | [] => rfl
  | (month, rows) :: rest => by
    unfold preflightOverlap
    simp only [Option.bind_some, chunksForPartition_bare, readableEnd_bare, preflightOverlap_bare m command rest]

/-- The checks that decide whether an append to a series is accepted, and under which name and options, answer alike. -/
structure ChecksAlike (sd sd' : SeriesDir) (m m' : SeriesMeta) : Prop where
  settings : ∀ timeframeMs priceScale volumeScale,
    validateExistingSeries m' timeframeMs priceScale volumeScale = validateExistingSeries m timeframeMs
      priceScale volumeScale
  options : ∀ overlap key firstName first, appendOptions overlap m' key firstName first =
    appendOptions overlap m key firstName first
  klineRange : ∀ command (months : List (Text × List KlineRecord)),
    preflightOverlap (some m') command months = preflightOverlap (some m) command months
  scalarRange : ∀ command (months : List (Text × List ScalarRecord)),
    preflightOverlap (some m') command months = preflightOverlap (some m) command months
  fixed : ∀ k symbol channel (records : List (FixedKind.Row k)),
    fixedBatches k symbol channel m' records = fixedBatches k symbol channel m records
  scalar : m.recordType = .scalar → ∀ threads timeframeMs month records,
    combineRows threads sd' (some m') timeframeMs month records = combineRows threads sd
      (some m) timeframeMs month records

end Checks

section Rows

variable {B : Nat} {d : Dir} {sd sd' : SeriesDir} {m : SeriesMeta} {cs : List ChunkMeta}

theorem storedMonth_bare (sd : SeriesDir) (m : SeriesMeta) (month : Text) :
    storedMonth sd m.bare month = storedMonth sd m month := by
  unfold storedMonth
  rw [chunksForPartition_bare]
  exact List.flatMap_map ..

theorem storedMonth_files (hf : sd'.files = sd.files) (m : SeriesMeta) (month : Text) :
    storedMonth sd' m month = storedMonth sd m month := by
  unfold storedMonth
  rw [rowsIn_files .scalar hf]

/-- Rows are combined alike under manifests that differ in number, date and sidecars only. -/
theorem combineRows_alike {m' : SeriesMeta} (h : SeriesOk d sd m) (h' : SeriesOk d sd' m')
    (ht : m.recordType = .scalar) (hb : m'.bare = m.bare) (hf : sd'.files = sd.files)
    (hread : ∀ c ∈ m.chunks, c.state.isReadable = true) (hread' : ∀ c ∈ m'.chunks, c.state.isReadable = true)
    (threads : Nat) (timeframeMs : Int) (month : Text) (records : List ScalarRecord) :
    combineRows threads sd' (some m') timeframeMs month records = combineRows threads sd (some m) timeframeMs month
      records := by
  have ht' : m'.recordType = .scalar := (congrArg SeriesMeta.recordType hb).trans ht
  have htf := congrArg SeriesMeta.timeframeMs hb
  replace htf : m'.timeframeMs = m.timeframeMs := htf
  have hrows : storedMonth sd' m' month = storedMonth sd m month := by
    rw [storedMonth_files hf, ← storedMonth_bare sd m', hb, storedMonth_bare]
  unfold combineRows
  simp only
  rw [monthRows_eq h ht hread, monthRows_eq h' ht' hread', htf, hrows]

/-- The sidecars of a rebuilt entry have the paths of those before. -/
theorem Reread.sidecarPath {c a : ChunkMeta} (h : Reread c a) (hc : ∀ s ∈ c.sidecars, SidecarPath s) :
    ∀ s ∈ a.sidecars, SidecarPath s := by
  intro s hs
  have hmem : s.kept ∈ (c.sidecars.map SidecarMeta.kept).reverse := by
    rw [← h.sidecars]
    exact List.mem_map_of_mem hs
  obtain ⟨s₀, hs₀, heq⟩ := List.mem_map.1 (List.mem_reverse.1 hmem)
  obtain ⟨name, hname, hpath⟩ := hc s₀ hs₀
  exact ⟨name, hname, (congrArg SidecarMeta.relativePath heq).symm.trans hpath⟩

/-- **A series that is rebuilt as it was is in order again.** -/
theorem GoodSeries.rebuilt_seriesOk (h : GoodSeries B d sd m) (hall : List.Forall₂ Reread m.chunks cs)
    (hu : m.unit = .month) {now : Int} (hf : sd'.files = sd.files) (hdir : sd'.chunksDir = sd.chunksDir)
    (hm : sd'.manifest = .current (m.rebuilt now cs)) :
    SeriesOk d sd' (m.rebuilt now cs) where
  valid := rebuilt_validate h hall now
  head := ⟨h.fits.head.homed, h.fits.head.schemaId, h.fits.head.recordSize, h.fits.head.category, h.fits.head.monthly⟩
  files := ⟨h.fits.files.filed.congr hf (fun hd => hdir.trans hd), fun name f hn =>
    h.fits.files.file name f ((hasChunk_congr hf).1 hn)⟩
  tracked a ha := by
    obtain ⟨c, hc, hr⟩ := exists_of_mem_forall₂ hall ha
    obtain ⟨name, f, rows, hn, hfile, he⟩ := h.fits.tracked c hc
    have hkey : a.monthKey = c.monthKey :=
      Except.ok.inj (hr.monthKey.symm.trans ((monthKey_iff_month (h.fits.keyed hc).1).2 hu))
    refine ⟨name, f, rows, (hasChunk_congr hf).2 hn, by rw [hkey]; exact hfile, ?_⟩
    rw [hr.same]
    exact ⟨he.path, he.startTs, he.endTs, he.count, he.generation, he.chunkId, hr.sidecarPath he.sidecars⟩
  manifest_eq := hm

end Rows

/-! ## Replay after a rebuild -/

section Replay

variable {R : Type} [FixedRecord R] {sd sd' : SeriesDir} {m m' : SeriesMeta} {rowsOf : ChunkMeta → List R}
    {o : ReplayOptions} {xs : List R}

/-- **What a cursor can yield**: the beginning of the stream that batches of some sizes make up. -/
theorem Replayable.yields_iff (h : Replayable R sd m rowsOf) :
    Yields R sd o xs ↔ (∀ e, o.endTs = some e → o.startTs ≤ e) ∧
    ∃ sizes, (∀ n ∈ sizes, 0 < n) ∧
      (replayChunks m o = [] ∨
        BatchesFit (FixedRecord.byteSize R) (replayCut m o) sizes (replayStream rowsOf m o).length = true) ∧
      (cutAt sizes (replayStream rowsOf m o)).flatten = xs := by
  constructor
  · rintro ⟨cursor, sizes, batches, hpos, hcursor, hread, hxs⟩
    have ho := bounds_of_replay hcursor
    obtain ⟨cursor', hcursor', hcut⟩ := h.read ho hpos
    obtain rfl := Except.ok.inj (hcursor.symm.trans hcursor')
    split at hcut
    · rename_i hfit
      obtain rfl := Except.ok.inj (hread.symm.trans hcut)
      exact ⟨ho, sizes, hpos, hfit, hxs⟩
    · obtain ⟨e, he⟩ := hcut
      rw [hread] at he
      cases he
  · rintro ⟨ho, sizes, hpos, hfit, hxs⟩
    obtain ⟨cursor, hcursor, hcut⟩ := h.read ho hpos
    rw [if_pos hfit] at hcut
    exact ⟨cursor, sizes, _, hpos, hcursor, hcut, hxs⟩

theorem replayChunks_bare (m : SeriesMeta) (o : ReplayOptions) :
    replayChunks m.bare o = (replayChunks m o).map ChunkMeta.bare := by
  unfold replayChunks SeriesMeta.bare
  rw [List.filter_map]
  rfl

theorem replayCut_bare (m : SeriesMeta) (o : ReplayOptions) : replayCut m.bare o = replayCut m o := by
  unfold replayCut
  rw [replayChunks_bare, List.any_map]
  rfl

theorem replayStream_bare (hrows : ∀ c : ChunkMeta, rowsOf c.bare = rowsOf c) (m : SeriesMeta) (o : ReplayOptions) :
    replayStream rowsOf m.bare o = replayStream rowsOf m o := by
  have hmap : (m.bare.chunks.filter (fun c => decide (c.state = .sealed))).flatMap rowsOf =
      (m.chunks.filter (fun c => decide (c.state = .sealed))).flatMap rowsOf := by
    show ((m.chunks.map ChunkMeta.bare).filter _).flatMap rowsOf = _
    rw [List.filter_map, List.flatMap_map]
    exact List.flatMap_congr (fun c _ => hrows c)
  unfold replayStream
  rw [hmap]

/-- Manifests that differ in number, date and sidecars only replay alike. -/
theorem yields_alike (h : Replayable R sd m rowsOf) (h' : Replayable R sd' m' rowsOf) (hb : m'.bare = m.bare)
    (hrows : ∀ c : ChunkMeta, rowsOf c.bare = rowsOf c) : Yields R sd' o xs ↔ Yields R sd o xs := by
  have hnil : replayChunks m' o = [] ↔ replayChunks m o = [] := by
    rw [← List.map_eq_nil_iff (f := ChunkMeta.bare), ← replayChunks_bare, hb, replayChunks_bare, List.map_eq_nil_iff]
  have hcut : replayCut m' o = replayCut m o := by rw [← replayCut_bare, hb, replayCut_bare]
  have hstream : replayStream rowsOf m' o = replayStream rowsOf m o := by
    rw [← replayStream_bare hrows, hb, replayStream_bare hrows]
  rw [h.yields_iff, h'.yields_iff, hnil, hcut, hstream]

end Replay

/-! ## Identity -/

/-- The series of the directory is what it was: its manifest up to `same`, what an append is checked against, and what
it replays. -/
structure KeptDir (same : List SidecarMeta → List SidecarMeta → Prop) (sd sd' : SeriesDir) : Prop where
  manifest : ∀ m, sd.manifest = .current m → ∃ m', sd'.manifest = .current m' ∧ SameUpTo same m m' ∧
    ChecksAlike sd sd' m m'
  replays : ∀ m, sd.manifest = .current m → ∀ o xs, Yields m.recordType.Row sd' o xs ↔ Yields m.recordType.Row sd o xs

/-- **A rebuild is the identity**: it answers, and every series is what it was. -/
structure RebuildKeeps (same : List SidecarMeta → List SidecarMeta → Prop) (env : Env) (ways : List Dir)
    (s : Store) : Prop where
  answers : (rebuildAllManifests env ways).result s = .ok ()
  kept : ∀ d, KeptDir same (s.dirs d) (((rebuildAllManifests env ways).final s).dirs d)

/-- The series can be told from its files and the path of its directory. -/
structure Restorable (path : Dir) (m : SeriesMeta) : Prop extends ToldByFiles m where
  named : pathIdentity path = .ok m.key

section Identity

variable {B : Nat} {d : Dir} {sd sd' : SeriesDir} {m : SeriesMeta} {cs : List ChunkMeta}
    {same : List SidecarMeta → List SidecarMeta → Prop}

theorem KeptDir.refl (hrefl : ∀ l, same l l) (sd : SeriesDir) : KeptDir same sd sd where
  manifest m hm := ⟨m, hm, ⟨rfl, List.forall₂_same.2 (fun _ _ => hrefl _)⟩,
    ⟨fun _ _ _ => rfl, fun _ _ _ _ => rfl, fun _ _ => rfl, fun _ _ => rfl, fun _ _ _ _ => rfl, fun _ _ _ _ _ => rfl⟩⟩
  replays _ _ _ _ := Iff.rfl

/-- The entries of a rebuild have the sidecars up to `same` where those in reverse are. -/
theorem sameSidecars_iff (hall : List.Forall₂ Reread m.chunks cs) :
    List.Forall₂ (fun c c' => same (c.sidecars.map SidecarMeta.kept) (c'.sidecars.map SidecarMeta.kept)) m.chunks cs ↔
      ∀ c ∈ m.chunks, same (c.sidecars.map SidecarMeta.kept) (c.sidecars.map SidecarMeta.kept).reverse :=
  forall₂_iff_all hall (fun c a hr => by rw [hr.sidecars])

theorem GoodSeries.rebuilt_stamped (h : GoodSeries B d sd m) (hall : List.Forall₂ Reread m.chunks cs)
    (hf : sd'.files = sd.files) :
    ∀ a ∈ cs, ∀ f, sd'.lookup a.relativePath = some (.chunk f) → f.header.seriesId = m.seriesId := by
  intro a ha f hl
  obtain ⟨c, hc, hr⟩ := exists_of_mem_forall₂ hall ha
  obtain ⟨name, g, hg, hp, hst⟩ := h.described.stamped c hc
  have hpath : a.relativePath = chunkRelativePath name := by
    rw [hr.same]
    exact hp
  rw [lookup_files hf, hpath, h.fits.filed.lookup hg] at hl
  obtain rfl := FileBody.chunk.inj (Option.some.inj hl)
  exact hst.seriesId

/-- **A series that its files tell is kept by its rebuild.** -/
theorem GoodSeries.kept (h : GoodSeries B d sd m) (hm : sd.manifest = .current m) (ht : ToldByFiles m)
    (hall : List.Forall₂ Reread m.chunks cs) (hne : m.chunks ≠ [])
    (hside : ∀ c ∈ m.chunks, same (c.sidecars.map SidecarMeta.kept) (c.sidecars.map SidecarMeta.kept).reverse)
    (now : Int) (hsd : sd' = { sd with manifest := .current (m.rebuilt now cs) }) : KeptDir same sd sd' := by
  have hb := (h.rebuilt_bare_iff hall hne now).2 ht
  have hf : sd'.files = sd.files := by rw [hsd]
  have hm' : sd'.manifest = .current (m.rebuilt now cs) := by rw [hsd]
  have hok := h.rebuilt_seriesOk hall ht.monthly hf (by rw [hsd]) hm'
  have hread : ∀ c ∈ m.chunks, c.state.isReadable = true := fun c hc => by
    rcases h.tidy.settled c hc with hs | hs <;> rw [hs] <;> rfl
  have hread' : ∀ a ∈ (m.rebuilt now cs).chunks, a.state.isReadable = true := by
    intro a ha
    obtain ⟨c, -, hr⟩ := exists_of_mem_forall₂ hall ha
    rw [hr.state]
    unfold decodeChunkState
    split <;> rfl
  constructor
  · intro m₁ hm₁
    obtain rfl := ManifestFile.current.inj (hm.symm.trans hm₁)
    refine ⟨_, hm', ⟨hb, (sameSidecars_iff hall).2 hside⟩, ⟨fun _ _ _ => rfl, fun overlap key firstName first => ?_,
      fun command months => ?_, fun command months => ?_, fun k symbol channel records =>
        ?_, fun hscalar threads timeframeMs month records => ?_⟩⟩
    · rw [← appendOptions_bare, hb, appendOptions_bare]
    · rw [← preflightOverlap_bare, hb, preflightOverlap_bare]
    · rw [← preflightOverlap_bare, hb, preflightOverlap_bare]
    · rw [← fixedBatches_bare, hb, fixedBatches_bare]
    · exact combineRows_alike (h.seriesOk hm) hok hscalar hb hf hread hread' threads timeframeMs month records
  · intro m₁ hm₁ o xs
    obtain rfl := ManifestFile.current.inj (hm.symm.trans hm₁)
    have hstamped := h.rebuilt_stamped hall hf
    have hrep : Replayable m.recordType.Row sd' (m.rebuilt now cs) (rowsIn m.recordType sd) := by
      rw [← rowsIn_files _ hf]
      exact ⟨hok.stored, (RecordType.recordType_row m.recordType).symm, h.fits.head.schemaId,
        h.fits.head.recordSize, hstamped⟩
    exact yields_alike (h.replayable hm) hrep hb (fun _ => rfl)

/-- **A rebuild is the identity, up to `same`, exactly if every series that it finds can be told from its files.** -/
theorem rebuildKeeps_iff {root : Dir} {n : Nat} {s : Store} (h : Run root Healthy n s) (env : Env) (ways : List Dir)
    (hrefl : ∀ l, same l l) :
    RebuildKeeps same env ways s ↔ ∀ d ∈ discoverSeriesDirs env ways s, ∀ m, (s.dirs d).manifest = .current m →
      m.chunks ≠ [] →
      Restorable (s.root ++ "series".toList :: d) m ∧
        ∀ c ∈ m.chunks, same (c.sidecars.map SidecarMeta.kept) (c.sidecars.map SidecarMeta.kept).reverse := by
  obtain ⟨B, hg⟩ := h.healthy
  obtain ⟨hiff, hrun⟩ := rebuildAll_run env (s := s) (discoverSeriesDirs_nodup env ways s) (fun d _ =>
    ⟨hg.dir d, h.coined d⟩)
  constructor
  · rintro ⟨hans, hkept⟩ d hd m hm hne
    have hgood := (hg.dir d).of_current hm
    cases (hrun hans).1 d hd with
    | unfilled hnone _ => exact absurd (hnone m hm) hne
    | @written m₀ cs hm₀ _ hall hsame =>
      obtain rfl := ManifestFile.current.inj (hm.symm.trans hm₀)
      obtain ⟨m', hm', hsameAs, -⟩ := (hkept d).manifest m hm
      have hwritten := congrArg SeriesDir.manifest hsame
      obtain rfl : m' = m.rebuilt env.now cs := ManifestFile.current.inj (hm'.symm.trans hwritten)
      exact ⟨⟨(hgood.rebuilt_bare_iff hall hne env.now).1 hsameAs.bare, hiff.1 hans d hd m hm hne⟩,
        (sameSidecars_iff hall).1 hsameAs.sidecars⟩
  · intro hall
    have hans := hiff.2 (fun d hd m hm hne => (hall d hd m hm hne).1.named)
    obtain ⟨hin, hout⟩ := hrun hans
    refine ⟨hans, fun d => ?_⟩
    by_cases hd : d ∈ discoverSeriesDirs env ways s
    · cases hin d hd with
      | unfilled _ hsame => exact hsame ▸ KeptDir.refl hrefl (s.dirs d)
      | @written m cs hm hne hread hsame =>
        obtain ⟨htold, hside⟩ := hall d hd m hm hne
        exact ((hg.dir d).of_current hm).kept hm htold.toToldByFiles hread hne hside env.now hsame
    · exact hout d hd ▸ KeptDir.refl hrefl (s.dirs d)

/-- The index files of a chunk are never in the order of their paths. -/
theorem GoodSeries.sidecars_reversed_iff {d : Dir} (h : GoodSeries B d sd m) (hne : m.chunks ≠ []) :
    (∀ c ∈ m.chunks, c.sidecars.map SidecarMeta.kept = (c.sidecars.map SidecarMeta.kept).reverse) ↔
      m.recordType ≠ .scalar := by
  constructor
  · intro hall ht
    obtain ⟨c, hc⟩ := List.exists_mem_of_ne_nil _ hne
    obtain ⟨name, blockSize, zmap, vix, -, hentries, -⟩ := h.described.indexed ht c hc
    have heq := hall c hc
    rw [hentries] at heq
    have hkind := congrArg (fun l : List SidecarMeta => l.head?.map SidecarMeta.kind) heq
    exact absurd (Option.some.inj hkind) (show ¬ zmapKind = vixKind by decide)
  · intro ht c hc
    rw [(h.described.plain ht).2 c hc]
    rfl

end Identity

/-- **Rebuilding a healthy store of names that go down is the identity exactly if it has no scalar series with chunks,
and each series it finds has its own names for its directory, months for its partitions, and active just the chunks
that are named as deltas; up to the order of the sidecars, scalar series are no exception.** -/
theorem rebuild_identity_iff {root : Dir} {n : Nat} {s : Store} (h : Run root HealthyPlain n s) (env : Env)
    (ways : List Dir) :
    (RebuildKeeps Eq env ways s ↔ ∀ d ∈ discoverSeriesDirs env ways s, ∀ m, (s.dirs d).manifest = .current m →
      m.chunks ≠ [] →
      Restorable (s.root ++ "series".toList :: d) m ∧ m.recordType ≠ .scalar) ∧
    (RebuildKeeps List.Perm env ways s ↔ ∀ d ∈ discoverSeriesDirs env ways s, ∀ m, (s.dirs d).manifest = .current m →
      m.chunks ≠ [] →
      Restorable (s.root ++ "series".toList :: d) m) := by
  obtain ⟨B, hg⟩ := h.unplain.healthy
  constructor
  · rw [rebuildKeeps_iff h.unplain env ways (fun _ => rfl)]
    refine forall₂_congr (fun d _ => forall₃_congr (fun m hm hne => and_congr_right (fun _ => ?_)))
    exact ((hg.dir d).of_current hm).sidecars_reversed_iff hne
  · rw [rebuildKeeps_iff h.unplain env ways List.Perm.refl]
    exact forall₂_congr (fun d _ =>
      forall₃_congr (fun m hm hne => and_iff_left (fun c _ => (List.reverse_perm _).symm)))

/-- What can be tested of a series that can be told from its files. -/
def restorableTest (path : Dir) (m : SeriesMeta) : Bool :=
  decide (m.unit = .month) && m.chunks.all (fun c => decide (c.state = decodeChunkState c.relativePath)) &&
    decide (m.activeChunkId = lastActive m.chunks) && decide ((pathIdentity path).toOption = some m.key) &&
      decide (m.recordType ≠ .scalar)

theorem restorable_of_test {path : Dir} {m : SeriesMeta} (h : restorableTest path m = true) :
    Restorable path m ∧ m.recordType ≠ .scalar := by
  unfold restorableTest at h
  simp only [Bool.and_eq_true, decide_eq_true_eq, List.all_eq_true] at h
  obtain ⟨⟨⟨⟨hu, hs⟩, ha⟩, hp⟩, ht⟩ := h
  refine ⟨⟨⟨hu, hs, ha⟩, ?_⟩, ht⟩
  cases hid : pathIdentity path with
  | error e =>
    rw [hid] at hp
    cases hp
  | ok key =>
    rw [hid] at hp
    exact congrArg Except.ok (Option.some.inj hp)

/-- A base and a delta in January are rebuilt as they were. -/
theorem rebuild_identity_sample : RebuildKeeps Eq (Env.plain 6) [] sampleJanuary ∧
    RebuildKeeps List.Perm (Env.plain 6) [] sampleJanuary := by
  have hfound : discoverSeriesDirs (Env.plain 6) [] sampleJanuary = [klineSeriesDir "X" "1m"] := by decide +kernel
  have htest : (sampleJanuary.dirs (klineSeriesDir "X" "1m")).tests
      (restorableTest (sampleJanuary.root ++ "series".toList :: klineSeriesDir "X" "1m")) = true := by decide +kernel
  obtain ⟨m₀, hm₀, htest⟩ := SeriesDir.of_tests htest
  have hall : ∀ d ∈ discoverSeriesDirs (Env.plain 6) [] sampleJanuary, ∀ m,
    (sampleJanuary.dirs d).manifest = .current m →
      Restorable (sampleJanuary.root ++ "series".toList :: d) m ∧ m.recordType ≠ .scalar := by
    intro d hd m hm
    rw [hfound] at hd
    obtain rfl := List.mem_singleton.1 hd
    obtain rfl := ManifestFile.current.inj (hm₀.symm.trans hm)
    exact restorable_of_test htest
  have hiff := rebuild_identity_iff sampleJanuary_run (Env.plain 6) []
  exact ⟨hiff.1.2 (fun d hd m hm _ => hall d hd m hm), hiff.2.2 (fun d hd m hm _ => (hall d hd m hm).1)⟩

def sampleDayCalls : List Call := [.registerFixed .trade "X" "c" 1000 .day, .putFixed .trade "X" "c" [sampleTrade 0]]

/-- A trade in a partition of a day. -/
def sampleDayStore : Store := runCalls (Env.plain 5) sampleDayCalls (Store.empty [])

theorem sampleDayStore_run : Run [] Healthy 2 sampleDayStore := by
  have hok : CallsOk (Env.plain 5) (fun env c s => env.Faultless ∧ c.Regular s) sampleDayCalls (Store.empty []) :=
    ⟨⟨plain_faultless 5, trivial, trivial, trivial, trivial⟩, ⟨plain_faultless 5, trivial, trivial, trivial,
      show 1 < 2 ^ 56 by decide⟩, trivial⟩
  exact (Run.start.calls hok).short (show 2 < 2 ^ 31 by decide)

/-- A rebuild files the day under its month. -/
theorem rebuild_loses_day : ¬ ∀ root n s, Run root Healthy n s → ∀ env ways, RebuildKeeps List.Perm env ways s := by
  intro h
  have hfound : discoverSeriesDirs (Env.plain 6) [] sampleDayStore = [FixedKind.trade.dir "X" "c"] := by decide +kernel
  have htest : (sampleDayStore.dirs (FixedKind.trade.dir "X" "c")).tests (fun m =>
    decide (m.unit = .day ∧ m.chunks.length = 1)) = true := by
    decide +kernel
  obtain ⟨m, hm, htest⟩ := SeriesDir.of_tests htest
  obtain ⟨hday, hlen⟩ := of_decide_eq_true htest
  have hne : m.chunks ≠ [] := by
    intro hnil
    rw [hnil] at hlen
    cases hlen
  have hall := (rebuildKeeps_iff sampleDayStore_run (Env.plain 6) [] List.Perm.refl).1
    (h [] 2 _ sampleDayStore_run (Env.plain 6) [])
  have hmonth := (hall _ (by rw [hfound]; exact List.mem_singleton_self _) m hm hne).1.monthly
  rw [hday] at hmonth
  cases hmonth

end FastK
