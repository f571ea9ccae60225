import Mathlib.Data.List.Induction
import FastK.Lib.Versioned
/-!
# Folds in any order of equal beginnings

Candidates are folded into a list in order of where they begin; those that begin together come in any order.  What the
fold ends with does not depend on that order exactly when the candidates that could be adopted have a kernel: spans
that lie apart, with every other candidate behind one that begins earlier or superseded by one that begins with it
(`foldl_adopt_of_kernel`, `kernel_of_foldl_adopt`).
-/
namespace Versioned

open Spans

variable {α κ : Type} {lo hi : α → Int} {gen : α → Nat} {name : α → κ} [DecidableEq κ] {l xs : List α} {a x : α}

/-- A choice among the candidates that settles every contest. -/
structure Kernel (lo hi : α → Int) (gen : α → Nat) (xs chosen : List α) : Prop where
  mem : ∀ t ∈ chosen, t ∈ xs
  apart : ∀ t ∈ chosen, ∀ u ∈ chosen, Meets lo hi t u → t = u
  settles : ∀ x ∈ xs, x ∈ chosen ∨ ∃ t ∈ chosen, Meets lo hi t x ∧
    (lo t < lo x ∨ lo t = lo x ∧ Supersedes lo hi gen t x)

/-- What is in the list at some time is there in the end, or inside something newer that came later. -/
theorem foldl_adopt_kept (name : α → κ) (ys l : List α) :
    Kept lo hi gen (fun y => y ∈ ys) l (ys.foldl (adopt lo hi gen name) l) := by
  have key : ∀ (zs m : List α), (∀ z ∈ zs, z ∈ ys) → Kept lo hi gen (fun y => y ∈ ys) l m →
      Kept lo hi gen (fun y => y ∈ ys) l (zs.foldl (adopt lo hi gen name) m) := by
    intro zs
    induction zs with
    | nil => exact fun m _ hk => hk
    | cons z zs ih =>
      intro m hz hk
      exact ih _ (fun w hw => hz w (List.mem_cons_of_mem _ hw)) (kept_adopt hk (fun _ => hz z List.mem_cons_self))
  exact key ys l (fun _ h => h) (Kept.refl l)

theorem mem_adopt_iff (h : Adopts lo hi gen name l x) : a ∈ adopt lo hi gen name l x ↔ a ∈ l ∧
    ¬ Meets lo hi a x ∨ a = x := by
  rw [adopt_of_adopts h, List.mem_append, List.mem_filter, List.mem_singleton]
  simp

/-! ## Candidates that the list does not bar -/

/-- Candidates that the list itself bars do not matter. -/
theorem foldl_adopt_filter (hbar : ∀ x ∈ xs, ¬ Adopts lo hi gen name l x → Barred lo hi gen l x) :
    xs.foldl (adopt lo hi gen name) l = (xs.filter (fun x => decide (Adopts lo hi gen name l x))).foldl
      (adopt lo hi gen name) l := by
  have key : ∀ (ys m : List α), (∀ y ∈ ys, y ∈ xs) → (∀ x, Barred lo hi gen l x → Barred lo hi gen m x) →
      ys.foldl (adopt lo hi gen name) m = (ys.filter (fun x => decide (Adopts lo hi gen name l x))).foldl
        (adopt lo hi gen name) m := by
    intro ys
    induction ys with
    | nil => exact fun m _ _ => rfl
    | cons y ys ih =>
      intro m hy hm
      have hys : ∀ z ∈ ys, z ∈ xs := fun z hz => hy z (List.mem_cons_of_mem _ hz)
      by_cases ha : Adopts lo hi gen name l y
      · rw [List.filter_cons_of_pos (by simpa using ha), List.foldl_cons, List.foldl_cons]
        exact ih _ hys (fun x hx => (hm x hx).adopt y)
      · rw [List.filter_cons_of_neg (by simpa using ha), List.foldl_cons,
          adopt_of_not (hm y (hbar y (hy y List.mem_cons_self) ha)).not_adopts]
        exact ih m hys hm
  exact key xs l (fun _ h => h) (fun _ h => h)

/-- Folding into a list that bars none of the candidates: they are adopted as into an empty one, and what they meet
goes. -/
theorem mem_foldl_adopt_iff : ∀ {xs : List α}, (∀ x ∈ xs, Adopts lo hi gen name l x) →
    (a ∈ xs.foldl (adopt lo hi gen name) l ↔
      a ∈ l ∧ (∀ b ∈ xs.foldl (adopt lo hi gen name) [], ¬ Meets lo hi a b) ∨ a ∈ xs.foldl (adopt lo hi gen name) [])
  := by
  intro xs
  induction xs using List.reverseRecOn generalizing a with
  | nil => simp
  | append_singleton ys y ih =>
    intro hel
    have hys : ∀ x ∈ ys, Adopts lo hi gen name l x := fun x hx => hel x (List.mem_append_left _ hx)
    have hy : Adopts lo hi gen name l y := hel y (by simp)
    rw [List.foldl_append, List.foldl_append, List.foldl_cons, List.foldl_cons, List.foldl_nil, List.foldl_nil]
    generalize hA : ys.foldl (adopt lo hi gen name) [] = A at ih
    generalize hL : ys.foldl (adopt lo hi gen name) l = L at ih
    have hmem : ∀ b, b ∈ L ↔ b ∈ l ∧ (∀ c ∈ A, ¬ Meets lo hi b c) ∨ b ∈ A := fun b => ih hys
    have hiff : Adopts lo hi gen name L y ↔ Adopts lo hi gen name A y := by
      constructor
      · exact fun h b hb => h b ((hmem b).2 (.inr hb))
      · intro h b hb
        rcases (hmem b).1 hb with ⟨hbl, -⟩ | hbA
        · exact hy b hbl
        · exact h b hbA
    by_cases hadopts : Adopts lo hi gen name A y
    · rw [mem_adopt_iff (hiff.2 hadopts), hmem]
      simp only [mem_adopt_iff hadopts]
      constructor
      · rintro (⟨⟨hal, hno⟩ | haA, hay⟩ | rfl)
        · refine .inl ⟨hal, fun b hb => ?_⟩
          rcases hb with ⟨hb, -⟩ | rfl
          · exact hno b hb
          · exact hay
        · exact .inr (.inl ⟨haA, hay⟩)
        · exact .inr (.inr rfl)
      · rintro (⟨hal, hno⟩ | ⟨haA, hay⟩ | rfl)
        · refine .inl ⟨.inl ⟨hal, fun b hb hm => ?_⟩, hno y (.inr rfl)⟩
          by_cases hby : Meets lo hi b y
          · -- what has gone lies inside the new span
            have hsup := (hadopts b hb).2 hby
            exact hno y (.inr rfl) (hsup.meets_of_meets hm.symm).symm
          · exact hno b (.inl ⟨hb, hby⟩) hm
        · exact .inl ⟨.inr haA, hay⟩
        · exact .inr rfl
    · rw [adopt_of_not hadopts, adopt_of_not (fun h => hadopts (hiff.1 h)), hmem]

/-! ## Kernels -/

theorem Kernel.eq_of_lo {chosen : List α} (h : Kernel lo hi gen xs chosen) (hp : ∀ x ∈ xs, lo x ≤ hi x) {t u : α}
    (ht : t ∈ chosen) (hu : u ∈ chosen) (heq : lo t = lo u) : t = u := by
  have h1 := hp t (h.mem t ht)
  have h2 := hp u (h.mem u hu)
  exact h.apart t ht u hu ⟨by omega, by omega⟩

/-- **With a kernel, every order ends with it.** -/
theorem foldl_adopt_of_kernel {chosen ys : List α} (h : Kernel lo hi gen xs chosen) (hp : ∀ x ∈ xs, lo x ≤ hi x)
    (hn : xs.Pairwise (fun x y => name x ≠ name y)) (hperm : ys.Perm xs) (hs : ys.Pairwise (fun x y => lo x ≤ lo y)) :
    a ∈ ys.foldl (adopt lo hi gen name) [] ↔ a ∈ chosen := by
  have hyn : ys.Pairwise (fun x y => name x ≠ name y) := hn.perm hperm.symm (fun hxy => hxy.symm)
  have hin : ∀ {y}, y ∈ ys → y ∈ xs := fun hy => hperm.mem_iff.1 hy
  -- every chosen candidate is in the list once its turn has come
  have key : ∀ (before after : List α), ys = before ++ after → ∀ t ∈ chosen, t ∈ before →
    t ∈ before.foldl (adopt lo hi gen name) [] := by
    intro before
    induction before using List.reverseRecOn with
    | nil => exact fun _ _ t _ ht => ht
    | append_singleton before y ih =>
      intro after hsplit t ht hmem
      have hsplit' : ys = before ++ y :: after := by rw [hsplit, List.append_assoc]; rfl
      have ih := ih (y :: after) hsplit'
      rw [hsplit', List.pairwise_append] at hs hyn
      obtain ⟨-, hsafter, hsbefore⟩ := hs
      have hy : y ∈ xs := hin (by rw [hsplit']; simp)
      have hle : ∀ b ∈ before, lo b ≤ lo y := fun b hb => hsbefore b hb y List.mem_cons_self
      have hbefore : ∀ b ∈ before, b ∈ xs := fun b hb => hin (by rw [hsplit']; exact List.mem_append_left _ hb)
      have hearlier : ∀ u ∈ chosen, lo u < lo y → u ∈ before := by
        intro u hu hlt
        have hu' : u ∈ ys := hperm.mem_iff.2 (h.mem u hu)
        rw [hsplit'] at hu'
        rcases List.mem_append.1 hu' with hu' | hu'
        · exact hu'
        · rcases List.mem_cons.1 hu' with rfl | hu'
          · omega
          · have := List.rel_of_pairwise_cons hsafter hu'
            omega
      have hapart : Apart lo hi (before.foldl (adopt lo hi gen name) []) := foldl_adopt_apart List.Pairwise.nil
      have hfrom : ∀ b ∈ before.foldl (adopt lo hi gen name) [], b ∈ before :=
        fun b hb => (foldl_adopt_mem hb).resolve_left List.not_mem_nil
      rw [List.foldl_append, List.foldl_cons, List.foldl_nil]
      generalize before.foldl (adopt lo hi gen name) [] = L at ih hapart hfrom ⊢
      rcases List.mem_append.1 hmem with hmem | hmem
      · -- nothing that begins with a chosen candidate replaces it
        have htL := ih t ht hmem
        by_cases hadopts : Adopts lo hi gen name L y
        · refine (mem_adopt_iff hadopts).2 (.inl ⟨htL, fun hm => ?_⟩)
          have hsup := (hadopts t htL).2 hm
          have hlo : lo t = lo y := le_antisymm (hle t hmem) hsup.2.1
          rcases h.settles y hy with hyc | ⟨u, hu, huy, hlt | ⟨heq, husup⟩⟩
          · have := h.apart t ht y hyc hm
            subst this
            exact absurd hsup.1 (lt_irrefl _)
          · have := ((hadopts u (ih u hu (hearlier u hu hlt))).2 huy).2.1
            omega
          · obtain rfl := h.eq_of_lo hp ht hu (hlo.trans heq.symm)
            exact absurd husup.1 (not_lt.2 hsup.1.le)
        · rw [adopt_of_not hadopts]
          exact htL
      · obtain rfl := List.mem_singleton.1 hmem
        have hadopts : Adopts lo hi gen name L t := by
          intro b hb
          have hbb := hfrom b hb
          refine ⟨hyn.2.2 b hbb t List.mem_cons_self, fun hm => ?_⟩
          rcases h.settles b (hbefore b hbb) with hbc | ⟨u, hu, hub, hcase⟩
          · have := h.apart b hbc t ht hm
            subst this
            exact absurd rfl (hyn.2.2 b hbb b List.mem_cons_self)
          · -- what settles `b` is in the list already, or it is the candidate
            have hub' : u ∈ L → u = b := fun huL => Apart.eq_of_meets hapart huL hb hub
            by_cases hlt : lo u < lo t
            · obtain rfl := hub' (ih u hu (hearlier u hu hlt))
              rcases hcase with hc | ⟨-, hc⟩
              · exact absurd hc (lt_irrefl _)
              · exact absurd hc.1 (lt_irrefl _)
            · have hbt := hle b hbb
              rcases hcase with hc | ⟨hc, hsup⟩
              · omega
              · obtain rfl := h.eq_of_lo hp hu ht (by omega)
                exact hsup
        exact (mem_adopt_iff hadopts).2 (.inr rfl)
  have hall : ∀ t ∈ chosen, t ∈ ys.foldl (adopt lo hi gen name) [] := fun t ht =>
    key ys [] (by simp) t ht (hperm.mem_iff.2 (h.mem t ht))
  refine ⟨fun ha => ?_, hall a⟩
  have hax : a ∈ xs := hin ((foldl_adopt_mem ha).resolve_left List.not_mem_nil)
  rcases h.settles a hax with hc | ⟨u, hu, hm, hcase⟩
  · exact hc
  · obtain rfl := Apart.eq_of_meets (foldl_adopt_apart List.Pairwise.nil) (hall u hu) ha hm
    exact hu

/-- The stable sort of a list keeps its head before what begins with it. -/
theorem sortByKey_cons_split (key : α → Int) (x : α) (zs : List α) :
    ∃ before after, sortByKey key (x :: zs) = before ++ x :: after ∧ (∀ b ∈ before, key b < key x) ∧
      ∀ b ∈ after, key x ≤ key b := by
  have hsorted := sortByKey_sorted key (x :: zs)
  unfold sortByKey at *
  rw [List.insertionSort_cons, List.orderedInsert_eq_take_drop] at *
  refine ⟨_, _, rfl, fun b hb => ?_, fun b hb => ?_⟩
  · simpa using List.all_eq_true.1 List.all_takeWhile b hb
  · exact List.rel_of_pairwise_cons (List.pairwise_append.1 hsorted).2.1 hb

/-- **Where every order ends alike, what it ends with is a kernel**; it is enough to let each candidate come first of
those it begins with. -/
theorem kernel_of_foldl_adopt (hp : ∀ x ∈ xs, lo x ≤ hi x) (hn : xs.Pairwise (fun x y => name x ≠ name y))
    (hsame : ∀ x ∈ xs, ∃ zs, (x :: zs).Perm xs ∧ ∀ a, a ∈ (sortByKey lo (x :: zs)).foldl (adopt lo hi gen name) [] ↔
      a ∈ (sortByKey lo xs).foldl (adopt lo hi gen name) []) :
    Kernel lo hi gen xs ((sortByKey lo xs).foldl (adopt lo hi gen name) []) := by
  have hmem : ∀ t ∈ (sortByKey lo xs).foldl (adopt lo hi gen name) [], t ∈ xs := fun t ht =>
    (mem_sortByKey lo).1 ((foldl_adopt_mem ht).resolve_left List.not_mem_nil)
  refine ⟨hmem, fun t ht u hu hm => Apart.eq_of_meets (foldl_adopt_apart List.Pairwise.nil) ht hu hm, fun x hx => ?_⟩
  obtain ⟨zs, hperm, hiff⟩ := hsame x hx
  obtain ⟨before, after, hsplit, hlt, hle⟩ := sortByKey_cons_split lo x zs
  have hperm' : (before ++ x :: after).Perm xs := by
    rw [← hsplit]
    exact (sortByKey_perm lo (x :: zs)).trans hperm
  have hsn : (before ++ x :: after).Pairwise (fun x y => name x ≠ name y) := hn.perm hperm'.symm (fun hxy => hxy.symm)
  simp only [hsplit, List.foldl_append, List.foldl_cons] at hiff
  have hfrom : ∀ b ∈ before.foldl (adopt lo hi gen name) [], b ∈ before :=
    fun b hb => (foldl_adopt_mem hb).resolve_left List.not_mem_nil
  generalize before.foldl (adopt lo hi gen name) [] = L at hiff hfrom
  by_cases hmeets : ∃ b ∈ L, Meets lo hi b x
  · -- a span that begins earlier is not replaced by anything later
    obtain ⟨b, hb, hbx⟩ := hmeets
    have hblo := hlt b (hfrom b hb)
    have hstay : b ∈ adopt lo hi gen name L x := by
      by_cases hadopts : Adopts lo hi gen name L x
      · have := ((hadopts b hb).2 hbx).2.1
        omega
      · rw [adopt_of_not hadopts]
        exact hb
    rcases foldl_adopt_kept name after _ b hstay with hfin | ⟨y, -, hy, hsup⟩
    · exact .inr ⟨b, (hiff b).1 hfin, hbx, .inl hblo⟩
    · have := hle y hy
      have := hsup.2.1
      omega
  · -- nothing stops the candidate when it comes first
    have hadopts : Adopts lo hi gen name L x := by
      intro b hb
      refine ⟨(List.pairwise_append.1 hsn).2.2 b (hfrom b hb) x List.mem_cons_self, fun hm => absurd ⟨b, hb, hm⟩ hmeets⟩
    rcases foldl_adopt_kept name after _ x ((mem_adopt_iff hadopts).2 (.inr rfl)) with hfin | ⟨y, hyL, hy, hsup⟩
    · exact .inl ((hiff x).1 hfin)
    · refine .inr ⟨y, (hiff y).1 hyL, (hsup.meets (hp x hx)).symm, .inr ⟨le_antisymm hsup.2.1 (hle y hy), hsup⟩⟩

end Versioned
