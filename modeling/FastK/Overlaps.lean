import FastK.Lib.Components
import FastK.Rerun
/-!
# Overlaps of scanned chunks

A manifest is rebuilt from chunks that do not overlap (`select_non_overlapping_chunks`, `storage/recovery.rs`).  Of
each group of chunks linked by overlaps one chunk survives, the best ranked of those that span the whole group; where
a group has none there is no manifest.  Which chunks survive does not depend on how chunks that begin together were
listed (`selectNonOverlappingChunks_resolves`).
-/
namespace FastK

open Spans

/-- A chain of overlaps leads from one chunk to the other. -/
abbrev SpansLinked (l : List ChunkMeta) : ChunkMeta → ChunkMeta → Prop := Linked ChunkMeta.startTs ChunkMeta.endTs l

/-- The chunk spans all the chunks it is linked to. -/
def CoversGroup (l : List ChunkMeta) (w : ChunkMeta) : Prop := ∀ c, SpansLinked l w c → w.startTs ≤ c.startTs ∧
    c.endTs ≤ w.endTs

/-- The chunk spans its group, and ranks above the others that do. -/
structure Survives (l : List ChunkMeta) (w : ChunkMeta) : Prop where
  covers : CoversGroup l w
  best : ∀ c, SpansLinked l w c → CoversGroup l c → Outranks w c

/-- What is selected from the chunks. -/
structure Resolves (l out : List ChunkMeta) : Prop where
  sorted : out.Pairwise (fun a b => a.startTs ≤ b.startTs)
  apart : SpansApart out
  survivors : ∀ c, c ∈ out ↔ c ∈ l ∧ Survives l c
  discarded : ∀ c ∈ l, c ∉ out → ∃ w ∈ out, SpansLinked l c w ∧ w.startTs ≤ c.startTs ∧ c.endTs ≤ w.endTs

/-! ## Groups -/

theorem overlapGroupsFrom_eq : ∀ (cs current : List ChunkMeta) (currentEnd : Int), current ≠ [] →
    overlapGroupsFrom current currentEnd cs =
      (sweepFrom ChunkMeta.startTs ChunkMeta.endTs current currentEnd cs).filter (fun g => decide (1 < g.length))
  | [], current, _, _ => by
    unfold overlapGroupsFrom sweepFrom
    by_cases h : 1 < current.length
    · rw [if_pos h, List.filter_cons_of_pos (by simpa using h)]
      rfl
    · rw [if_neg h, List.filter_cons_of_neg (by simpa using h)]
      rfl
  | c :: cs, current, currentEnd, hne => by
    unfold overlapGroupsFrom sweepFrom
    rw [if_neg (by simpa using hne)]
    by_cases hle : c.startTs ≤ currentEnd
    · rw [if_pos hle, if_pos hle]
      exact overlapGroupsFrom_eq cs _ _ (by simp)
    · rw [if_neg hle, if_neg hle, overlapGroupsFrom_eq cs [c] c.endTs (by simp)]
      by_cases h : 1 < current.length
      · rw [if_pos h, List.filter_cons_of_pos (by simpa using h)]
        rfl
      · rw [if_neg h, List.filter_cons_of_neg (by simpa using h)]
        rfl

/-- **The overlap groups are the groups of the sweep with two members or more.** -/
theorem overlapGroups_eq {l : List ChunkMeta} (hs : l.Pairwise (fun a b => a.startTs ≤ b.startTs)) :
    overlapGroups l = (sweep ChunkMeta.startTs ChunkMeta.endTs l).filter (fun g => decide (1 < g.length)) := by
  unfold overlapGroups
  rw [sortByKey_of_sorted _ hs]
  cases l with
  | nil => rfl
  | cons c cs =>
    unfold overlapGroupsFrom
    rw [if_pos (show ([] : List ChunkMeta).isEmpty = true from rfl)]
    exact overlapGroupsFrom_eq cs [c] c.endTs (by simp)

/-! ## Winners -/

/-- The winner of a group. -/
def winnerOf (group : List ChunkMeta) : Option Text := (chooseSurvivingChunkForOverlap group).winnerRelativePath

theorem Outranks.path_eq {a b : ChunkMeta} (h : Outranks a b) (h' : Outranks b a) :
    a.relativePath = b.relativePath := by
  unfold Outranks at h h'
  generalize satSub a.endTs a.startTs = i at h h'
  generalize satSub b.endTs b.startTs = j at h h'
  rcases h with h | ⟨hg, h⟩
  · rcases h' with h' | ⟨h', -⟩ <;> omega
  · rcases h' with h' | ⟨-, h'⟩
    · omega
    · rcases h with h | ⟨hs, h⟩
      · rcases h' with h' | ⟨h', -⟩ <;> omega
      · rcases h' with h' | ⟨-, h'⟩
        · omega
        · rcases h with h | ⟨hc, h⟩
          · rcases h' with h' | ⟨h', -⟩ <;> omega
          · rcases h' with h' | ⟨-, h'⟩
            · omega
            · exact Text.le_antisymm h' h

/-- A group has no winner exactly when no chunk spans it. -/
theorem winnerOf_eq_none {g : List ChunkMeta} (hne : g ≠ []) : winnerOf g = none ↔ ∀ w ∈ g, ¬ CoversAll w g := by
  unfold winnerOf
  rw [chooseSurviving_winner hne, Option.map_eq_none_iff, List.find?_eq_none]
  constructor
  · intro h w hw
    simpa using h w ((List.mem_insertionSort _).2 hw)
  · intro h w hw
    simpa using h w ((List.mem_insertionSort _).1 hw)

/-- **The winner spans its group and ranks above the others that do.** -/
theorem winnerOf_eq_some {g : List ChunkMeta} {path : Text} (h : winnerOf g = some path) :
    ∃ w ∈ g, w.relativePath = path ∧ CoversAll w g ∧ ∀ v ∈ g, CoversAll v g → Outranks w v := by
  have hne : g ≠ [] := by
    rintro rfl
    cases h
  unfold winnerOf at h
  rw [chooseSurviving_winner hne] at h
  obtain ⟨w, hw, rfl⟩ := Option.map_eq_some_iff.1 h
  obtain ⟨hcov, as, bs, hsplit, has⟩ := List.find?_eq_some_iff_append.1 hw
  refine ⟨w, (List.mem_insertionSort _).1 (List.mem_of_find?_eq_some hw), rfl, by simpa using hcov,
    fun v hv hvcov => ?_⟩
  have hv' : v ∈ g.insertionSort Outranks := (List.mem_insertionSort _).2 hv
  rw [hsplit] at hv'
  rcases List.mem_append.1 hv' with hv' | hv'
  · -- before the winner no chunk spans the group
    have := has v hv'
    simp [hvcov] at this
  · rcases List.mem_cons.1 hv' with rfl | hv'
    · exact (Std.Total.total v v : Outranks v v ∨ Outranks v v).elim id id
    · have hsort : (g.insertionSort Outranks).Pairwise Outranks := List.pairwise_insertionSort _ _
      rw [hsplit] at hsort
      exact List.rel_of_pairwise_cons (List.pairwise_append.1 hsort).2.1 hv'

/-! ## The paths that are discarded -/

def ambiguousOverlap : FastKError :=
  .invalidData (words ["cannot rebuild manifest because overlap is ambiguous: ",
    "no single chunk fully covers the overlap window"])

theorem reason_of_no_winner {g : List ChunkMeta} (hne : g ≠ []) (h : winnerOf g = none) :
    (chooseSurvivingChunkForOverlap g).reason = "no single chunk fully covers the overlap window" := by
  unfold winnerOf chooseSurvivingChunkForOverlap at h
  unfold chooseSurvivingChunkForOverlap
  cases g with
  | nil => exact absurd rfl hne
  | cons first rest =>
    simp only at h ⊢
    generalize List.find? _ _ = found at h ⊢
    cases found with
    | none => rfl
    | some c => cases h

theorem discardedPaths_eq_ok : ∀ {groups : List (List ChunkMeta)}
    {paths : List Text}, discardedPaths groups = .ok paths →
    (∀ g ∈ groups, winnerOf g ≠ none) ∧ ∀ p, p ∈ paths ↔ ∃ g ∈ groups, p ∈ g.map ChunkMeta.relativePath ∧
      winnerOf g ≠ some p
  | [], paths, h => by
    obtain rfl := Except.ok.inj h
    simp
  | g :: groups, paths, h => by
    unfold discardedPaths at h
    simp only at h
    rw [show (chooseSurvivingChunkForOverlap g).winnerRelativePath = winnerOf g from rfl] at h
    cases hw : winnerOf g with
    | none =>
      rw [hw] at h
      cases h
    | some winner =>
      rw [hw] at h
      simp only at h
      cases hrest : discardedPaths groups with
      | error e =>
        rw [hrest] at h
        cases h
      | ok rest =>
        rw [hrest] at h
        obtain rfl := Except.ok.inj h
        obtain ⟨hall, hmem⟩ := discardedPaths_eq_ok hrest
        refine ⟨fun g' hg' => ?_, fun p => ?_⟩
        · rcases List.mem_cons.1 hg' with rfl | hg'
          · rw [hw]
            exact Option.some_ne_none _
          · exact hall g' hg'
        · rw [List.mem_append, List.mem_filter, hmem p, List.exists_mem_cons_iff, hw, decide_eq_true_iff]
          refine or_congr (and_congr_right (fun _ => ?_)) Iff.rfl
          exact ⟨fun hne heq => hne (Option.some.inj heq).symm, fun hne heq => hne (by rw [heq])⟩

theorem discardedPaths_eq_error : ∀ {groups : List (List ChunkMeta)} {e : FastKError}, (∀ g ∈ groups, g ≠ []) →
    discardedPaths groups = .error e → e = ambiguousOverlap ∧ ∃ g ∈ groups, winnerOf g = none
  | [], e, _, h => by cases h
  | g :: groups, e, hne, h => by
    unfold discardedPaths at h
    simp only at h
    rw [show (chooseSurvivingChunkForOverlap g).winnerRelativePath = winnerOf g from rfl] at h
    cases hw : winnerOf g with
    | none =>
      rw [hw] at h
      simp only at h
      rw [reason_of_no_winner (hne g List.mem_cons_self) hw] at h
      exact ⟨(Except.error.inj h).symm, g, List.mem_cons_self, hw⟩
    | some winner =>
      rw [hw] at h
      simp only at h
      cases hrest : discardedPaths groups with
      | error e' =>
        rw [hrest] at h
        obtain rfl := Except.error.inj h
        obtain ⟨he, g', hg', hnone⟩ := discardedPaths_eq_error (fun g' hg' => hne g' (List.mem_cons_of_mem _ hg')) hrest
        exact ⟨he, g', List.mem_cons_of_mem _ hg', hnone⟩
      | ok rest =>
        rw [hrest] at h
        cases h

/-! ## The selection -/

section Selection

variable {l out : List ChunkMeta}

theorem path_inj (hd : (l.map ChunkMeta.relativePath).Nodup) {a b : ChunkMeta} (ha : a ∈ l) (hb : b ∈ l)
    (h : a.relativePath = b.relativePath) : a = b :=
  List.inj_on_of_nodup_map hd ha hb h

section Sorted

variable (hs : l.Pairwise (fun a b => a.startTs ≤ b.startTs)) (hp : SpansProper l) {g : List ChunkMeta}
  (hg : g ∈ sweep ChunkMeta.startTs ChunkMeta.endTs l)
include hs hp hg

theorem coversAll_iff {w : ChunkMeta} (hw : w ∈ g) : CoversAll w g ↔ CoversGroup l w := by
  constructor
  · intro h c hc
    exact h c ((mem_group_iff hs hp hg hw).2 hc)
  · intro h c hc
    exact h c ((mem_group_iff hs hp hg hw).1 hc)

theorem survives_iff {w : ChunkMeta} (hw : w ∈ g) : Survives l w ↔ CoversAll w g ∧ ∀ c ∈ g, CoversAll c g →
    Outranks w c := by
  constructor
  · rintro ⟨hcov, hbest⟩
    refine ⟨(coversAll_iff hs hp hg hw).2 hcov, fun c hc hccov => ?_⟩
    exact hbest c ((mem_group_iff hs hp hg hw).1 hc) ((coversAll_iff hs hp hg hc).1 hccov)
  · rintro ⟨hcov, hbest⟩
    refine ⟨(coversAll_iff hs hp hg hw).1 hcov, fun c hc hccov => ?_⟩
    have hcg := (mem_group_iff hs hp hg hw).2 hc
    exact hbest c hcg ((coversAll_iff hs hp hg hcg).2 hccov)

/-- A chunk that overlaps no other survives. -/
theorem survives_of_single {w : ChunkMeta} (hw : w ∈ g) (hone : ¬ 1 < g.length) : Survives l w := by
  have hsingle : g = [w] := by
    cases g with
    | nil => cases hw
    | cons a as =>
      have hnil : as = [] := by
        rw [List.length_cons] at hone
        exact List.eq_nil_of_length_eq_zero (by omega)
      subst hnil
      rw [List.mem_singleton.1 hw]
  rw [survives_iff hs hp hg hw, hsingle]
  refine ⟨fun c hc => ?_, fun c hc _ => ?_⟩
  · rw [List.mem_singleton.1 hc]
    exact ⟨le_refl _, le_refl _⟩
  · rw [List.mem_singleton.1 hc]
    exact (Std.Total.total w w : Outranks w w ∨ Outranks w w).elim id id

/-- **The winner of a group is the chunk that survives.** -/
theorem winnerOf_eq_path_iff (hd : (l.map ChunkMeta.relativePath).Nodup) {w : ChunkMeta} (hw : w ∈ g)
    (hsome : winnerOf g ≠ none) :
    winnerOf g = some w.relativePath ↔ Survives l w := by
  obtain ⟨path, hpath⟩ := Option.ne_none_iff_exists'.1 hsome
  obtain ⟨v, hv, rfl, hcov, hbest⟩ := winnerOf_eq_some hpath
  have hsub := group_subset hg
  rw [hpath]
  constructor
  · intro h
    obtain rfl := path_inj hd (hsub v hv) (hsub w hw) (Option.some.inj h)
    exact (survives_iff hs hp hg hw).2 ⟨hcov, hbest⟩
  · intro h
    obtain ⟨hwcov, hwbest⟩ := (survives_iff hs hp hg hw).1 h
    rw [(hbest w hw hwcov).path_eq (hwbest v hv hcov)]

end Sorted

variable (hs : l.Pairwise (fun a b => a.startTs ≤ b.startTs)) (hd : (l.map ChunkMeta.relativePath).Nodup)
    (hp : SpansProper l)

/-- The selection keeps what no group discards. -/
theorem selectNonOverlappingChunks_eq (l : List ChunkMeta) : selectNonOverlappingChunks l =
    if (overlapGroups l).isEmpty then .ok l
    else (discardedPaths (overlapGroups l)).map (fun discarded =>
      sortByKey ChunkMeta.startTs (l.filter (fun c => decide (c.relativePath ∉ discarded)))) := by
  unfold selectNonOverlappingChunks
  simp only
  cases discardedPaths (overlapGroups l) <;> rfl

include hs in
/-- What is selected is sorted, and holds the chunks that no group discards. -/
theorem selected_eq_ok (h : selectNonOverlappingChunks l = .ok out) :
    ∃ discarded, discardedPaths (overlapGroups l) = .ok discarded ∧
    out.Pairwise (fun a b => a.startTs ≤ b.startTs) ∧
      out.Perm (l.filter (fun c => decide (c.relativePath ∉ discarded))) := by
  rw [selectNonOverlappingChunks_eq] at h
  by_cases hnil : (overlapGroups l).isEmpty = true
  · rw [if_pos hnil] at h
    obtain rfl := Except.ok.inj h
    refine ⟨[], ?_, hs, by simp⟩
    rw [List.isEmpty_iff.1 hnil]
    rfl
  · rw [if_neg hnil] at h
    cases hdis : discardedPaths (overlapGroups l) with
    | error e =>
      rw [hdis] at h
      cases h
    | ok discarded =>
      rw [hdis] at h
      obtain rfl := Except.ok.inj h
      exact ⟨discarded, rfl, sortByKey_sorted _ _, sortByKey_perm _ _⟩

include hs hd hp

theorem mem_discarded_iff {discarded : List Text} (h : discardedPaths (overlapGroups l) = .ok discarded)
    {c : ChunkMeta} (hc : c ∈ l) :
    c.relativePath ∉ discarded ↔ Survives l c := by
  obtain ⟨g, hg, hcg⟩ : ∃ g ∈ sweep ChunkMeta.startTs ChunkMeta.endTs l, c ∈ g := exists_group hc
  obtain ⟨hsome, hmem⟩ := discardedPaths_eq_ok h
  rw [overlapGroups_eq hs] at hsome hmem
  rw [hmem]
  by_cases hone : 1 < g.length
  · have hgroup : g ∈ (sweep ChunkMeta.startTs ChunkMeta.endTs l).filter (fun g => decide (1 < g.length)) :=
      List.mem_filter.2 ⟨hg, by simpa using hone⟩
    rw [← winnerOf_eq_path_iff hs hp hg hd hcg (hsome g hgroup)]
    constructor
    · intro hno
      by_contra hne
      exact hno ⟨g, hgroup, List.mem_map_of_mem hcg, hne⟩
    · rintro hwin ⟨g', hg', hcg', hne⟩
      obtain ⟨c', hc', hpath⟩ := List.mem_map.1 hcg'
      have hsweep := (List.mem_filter.1 hg').1
      obtain rfl := path_inj hd (group_subset hsweep c' hc') hc hpath
      have hmeet : SpansMeet c' c' := ⟨hp c' hc, hp c' hc⟩
      rw [group_eq_of_meets hs hp hsweep hg hc' hcg hmeet] at hne
      exact hne hwin
  · refine ⟨fun _ => survives_of_single hs hp hg hcg hone, ?_⟩
    rintro - ⟨g', hg', hcg', -⟩
    obtain ⟨c', hc', hpath⟩ := List.mem_map.1 hcg'
    obtain ⟨hsweep, hlen⟩ := List.mem_filter.1 hg'
    obtain rfl := path_inj hd (group_subset hsweep c' hc') hc hpath
    have hmeet : SpansMeet c' c' := ⟨hp c' hc, hp c' hc⟩
    rw [group_eq_of_meets hs hp hsweep hg hc' hcg hmeet] at hlen
    exact hone (by simpa using hlen)

/-- **What is selected resolves the overlaps.** -/
theorem resolves_of_selected (h : selectNonOverlappingChunks l = .ok out) : Resolves l out := by
  obtain ⟨discarded, hdis, hsorted, hperm⟩ := selected_eq_ok hs h
  have hsurv : ∀ c, c ∈ out ↔ c ∈ l ∧ Survives l c := fun c => by
    rw [hperm.mem_iff, List.mem_filter, decide_eq_true_iff]
    exact and_congr_right (fun hc => mem_discarded_iff hs hd hp hdis hc)
  have hnodup : out.Nodup := hperm.nodup_iff.2 (hd.of_map.filter _)
  refine ⟨hsorted, ?_, hsurv, fun c hc hno => ?_⟩
  · refine List.Pairwise.imp_of_mem (fun {a b} ha hb hne hm => hne ?_) hnodup
    -- survivors that meet are linked, so each ranks above the other
    obtain ⟨hal, has⟩ := (hsurv a).1 ha
    obtain ⟨hbl, hbs⟩ := (hsurv b).1 hb
    have hlink : SpansLinked l a b := Relation.ReflTransGen.single ⟨hal, hbl, hm⟩
    exact path_inj hd hal hbl ((has.best b hlink hbs.covers).path_eq (hbs.best a hlink.symm has.covers))
  · obtain ⟨g, hg, hcg⟩ : ∃ g ∈ sweep ChunkMeta.startTs ChunkMeta.endTs l, c ∈ g := exists_group hc
    by_cases hone : 1 < g.length
    · have hgroup : g ∈ overlapGroups l := by
        rw [overlapGroups_eq hs]
        exact List.mem_filter.2 ⟨hg, by simpa using hone⟩
      obtain ⟨path, hpath⟩ := Option.ne_none_iff_exists'.1 ((discardedPaths_eq_ok hdis).1 g hgroup)
      obtain ⟨w, hw, -, hcov, hbest⟩ := winnerOf_eq_some hpath
      have hwout : w ∈ out := (hsurv w).2 ⟨group_subset hg w hw, (survives_iff hs hp hg hw).2 ⟨hcov, hbest⟩⟩
      exact ⟨w, hwout, (mem_group_iff hs hp hg hcg).1 hw, hcov c hcg⟩
    · exact absurd ((hsurv c).2 ⟨hc, survives_of_single hs hp hg hcg hone⟩) hno

/-- **The selection fails exactly where no chunk of a group spans it**, always with the same error. -/
theorem selected_eq_error_iff {e : FastKError} : selectNonOverlappingChunks l = .error e ↔
    e = ambiguousOverlap ∧ ∃ c ∈ l, ∀ w, SpansLinked l c w → ¬ CoversGroup l w := by
  have hne : ∀ g ∈ overlapGroups l, g ≠ [] := fun g hg => by
    rw [overlapGroups_eq hs] at hg
    exact ((sweep_spec hs hp).1 g (List.mem_filter.1 hg).1).1
  constructor
  · intro h
    rw [selectNonOverlappingChunks_eq] at h
    by_cases hnil : (overlapGroups l).isEmpty = true
    · rw [if_pos hnil] at h
      cases h
    · rw [if_neg hnil] at h
      cases hdis : discardedPaths (overlapGroups l) with
      | ok discarded =>
        rw [hdis] at h
        cases h
      | error e' =>
        rw [hdis] at h
        obtain rfl := Except.error.inj h
        obtain ⟨he, g, hg, hnone⟩ := discardedPaths_eq_error hne hdis
        obtain ⟨c, hcg⟩ := List.exists_mem_of_ne_nil g (hne g hg)
        rw [overlapGroups_eq hs] at hg
        have hsweep := (List.mem_filter.1 hg).1
        refine ⟨he, c, group_subset hsweep c hcg, fun w hw hcov => ?_⟩
        have hwg := (mem_group_iff hs hp hsweep hcg).2 hw
        exact (winnerOf_eq_none (List.ne_nil_of_mem hcg)).1 hnone w hwg ((coversAll_iff hs hp hsweep hwg).2 hcov)
  · rintro ⟨rfl, c, hc, hno⟩
    cases hsel : selectNonOverlappingChunks l with
    | ok out =>
      have hres := resolves_of_selected hs hd hp hsel
      by_cases hout : c ∈ out
      · exact absurd ((hres.survivors c).1 hout).2.covers (hno c Relation.ReflTransGen.refl)
      · obtain ⟨w, hw, hlink, -⟩ := hres.discarded c hc hout
        exact absurd ((hres.survivors w).1 hw).2.covers (hno w hlink)
    | error e =>
      rw [selectNonOverlappingChunks_eq] at hsel
      by_cases hnil : (overlapGroups l).isEmpty = true
      · rw [if_pos hnil] at hsel
        cases hsel
      · rw [if_neg hnil] at hsel
        cases hdis : discardedPaths (overlapGroups l) with
        | ok discarded =>
          rw [hdis] at hsel
          cases hsel
        | error e' =>
          rw [hdis] at hsel
          obtain rfl := Except.error.inj hsel
          rw [(discardedPaths_eq_error hne hdis).1]

end Selection

/-- Which chunks are linked, span their group and survive does not depend on the order of the list. -/
theorem survives_congr {l l' : List ChunkMeta} (hl : ∀ x, x ∈ l ↔ x ∈ l') (w : ChunkMeta) :
    (CoversGroup l w ↔ CoversGroup l' w) ∧ (Survives l w ↔ Survives l' w) := by
  have hcov : ∀ c, CoversGroup l c ↔ CoversGroup l' c := fun c => by
    unfold CoversGroup
    simp only [SpansLinked, linked_congr hl]
  refine ⟨hcov w, ?_⟩
  constructor
  · rintro ⟨h1, h2⟩
    exact ⟨(hcov w).1 h1, fun c hc hcc => h2 c ((linked_congr hl).2 hc) ((hcov c).2 hcc)⟩
  · rintro ⟨h1, h2⟩
    exact ⟨(hcov w).2 h1, fun c hc hcc => h2 c ((linked_congr hl).1 hc) ((hcov c).1 hcc)⟩

/-- Selections from the same chunks are the same. -/
theorem Resolves.unique {l l' out out' : List ChunkMeta} (h : Resolves l out) (h' : Resolves l' out')
    (hl : ∀ x, x ∈ l ↔ x ∈ l') (hp : SpansProper l) :
    out = out' := by
  have hproper : SpansProper out := fun c hc => hp c ((h.survivors c).1 hc).1
  have hproper' : SpansProper out' := fun c hc => hp c ((hl c).2 ((h'.survivors c).1 hc).1)
  have hnodup : ∀ {out : List ChunkMeta}, SpansApart out → SpansProper out → out.Nodup := fun ha hpr =>
    ha.imp_of_mem (fun {a b} hma _ hnot heq => hnot (heq ▸ ⟨hpr a hma, hpr a hma⟩))
  have hmem : ∀ c, c ∈ out ↔ c ∈ out' := fun c => by
    rw [h.survivors, h'.survivors, hl c, (survives_congr hl c).2]
  have hperm : out.Perm out' := (List.perm_ext_iff_of_nodup (hnodup h.apart hproper) (hnodup h'.apart hproper')).2 hmem
  have hchain := chain_of_apart h.apart hproper
  have hchain' := chain_of_apart h'.apart hproper'
  rw [sortByKey_of_sorted _ h.sorted] at hchain
  rw [sortByKey_of_sorted _ h'.sorted] at hchain'
  exact hchain.eq_of_perm hchain' hproper hperm

/-- **Overlaps are resolved or refused**: what is selected is a sorted list of disjoint chunks that spans every chunk
discarded; it is refused exactly where a group of linked chunks has none that spans it; and it does not depend on the
order in which chunks that begin together were listed. -/
theorem selectNonOverlappingChunks_resolves {l : List ChunkMeta} (hs : l.Pairwise (fun a b => a.startTs ≤ b.startTs))
    (hd : (l.map ChunkMeta.relativePath).Nodup) (hp : SpansProper l) :
    (∀ out, selectNonOverlappingChunks l = .ok out → Resolves l out) ∧
      ((∃ e, selectNonOverlappingChunks l = .error e) ↔ ∃ c ∈ l, ∀ w, SpansLinked l c w → ¬ CoversGroup l w) ∧
      ∀ l', l.Perm l' → l'.Pairwise (fun a b => a.startTs ≤ b.startTs) →
        selectNonOverlappingChunks l' = selectNonOverlappingChunks l := by
  refine ⟨fun out h => resolves_of_selected hs hd hp h, ?_, fun l' hperm hs' => ?_⟩
  · constructor
    · rintro ⟨e, he⟩
      exact ((selected_eq_error_iff hs hd hp).1 he).2
    · intro hno
      exact ⟨ambiguousOverlap, (selected_eq_error_iff hs hd hp).2 ⟨rfl, hno⟩⟩
  · have hmem : ∀ x, x ∈ l ↔ x ∈ l' := fun x => hperm.mem_iff
    have hd' : (l'.map ChunkMeta.relativePath).Nodup := (hperm.map _).nodup_iff.1 hd
    have hp' : SpansProper l' := fun c hc => hp c ((hmem c).2 hc)
    cases h : selectNonOverlappingChunks l with
    | error e =>
      obtain ⟨rfl, c, hc, hno⟩ := (selected_eq_error_iff hs hd hp).1 h
      refine (selected_eq_error_iff hs' hd' hp').2 ⟨rfl, c, (hmem c).1 hc, fun w hw hcov => ?_⟩
      exact hno w ((linked_congr hmem).2 hw) ((survives_congr hmem w).1.2 hcov)
    | ok out =>
      cases h' : selectNonOverlappingChunks l' with
      | error e =>
        obtain ⟨-, c, hc, hno⟩ := (selected_eq_error_iff hs' hd' hp').1 h'
        have hback : ∃ c ∈ l, ∀ w, SpansLinked l c w → ¬ CoversGroup l w :=
          ⟨c, (hmem c).2 hc, fun w hw hcov => hno w ((linked_congr hmem).1 hw) ((survives_congr hmem w).1.1 hcov)⟩
        rw [(selected_eq_error_iff hs hd hp).2 ⟨rfl, hback⟩] at h
        cases h
      | ok out' =>
        rw [(resolves_of_selected hs hd hp h).unique (resolves_of_selected hs' hd' hp' h') hmem hp]

def sampleSpan (relativePath : Text) (startTs endTs : Int) (generation : Nat) : ChunkMeta :=
  { sampleNewChunk with relativePath := relativePath, startTs := startTs, endTs := endTs, generation := generation }

/-- A merge output listed with the two chunks it was made of. -/
def sampleOverlaps : List ChunkMeta := [sampleSpan "chunks/a" 0 40 1, sampleSpan "chunks/g" 0 100 2,
      sampleSpan "chunks/b" 60 100 1]

theorem selectNonOverlappingChunks_resolves_sample :
    selectNonOverlappingChunks sampleOverlaps = .ok [sampleSpan "chunks/g" 0 100 2] ∧
    Resolves sampleOverlaps [sampleSpan "chunks/g" 0 100 2] ∧
    selectNonOverlappingChunks [sampleSpan "chunks/g" 0 100 2, sampleSpan "chunks/a" 0 40 1,
      sampleSpan "chunks/b" 60 100 1] =
      selectNonOverlappingChunks sampleOverlaps := by
  have hsel : selectNonOverlappingChunks sampleOverlaps = .ok [sampleSpan "chunks/g" 0 100 2] := by decide +kernel
  obtain ⟨hres, -, horder⟩ :=
    selectNonOverlappingChunks_resolves (l := sampleOverlaps) (by decide +kernel) (by decide +kernel)
    (show ∀ c ∈ sampleOverlaps, c.startTs ≤ c.endTs by decide +kernel)
  exact ⟨hsel, hres _ hsel, horder _ (List.Perm.swap _ _ _) (by decide +kernel)⟩

end FastK
