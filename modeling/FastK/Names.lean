import FastK.Bytes
import FastK.Frames
/-!
# Names that go down

A series is named by any texts.  Its directory is taken here from the texts alone (`seriesDir`): a `..` takes away the
component before it, where the operating system looks whether that component is there; directories and files never
meet under one name; and every text is a name.  Names that go down are those for which all this makes no difference:
their paths are the three texts one below the other (`ScalarSeriesKey.GoesDown.dir_eq`).
-/
namespace FastK

/-- A component of a path that leads down, is no name that a series has for its files, and is a name for the operating
system. -/
structure PlainComponent (t : Text) : Prop where
  down : t ≠ "..".toList
  noChunks : t ≠ chunksDir
  noManifest : ¬ "series.meta".toList <+: t
  noNul : Char.ofNat 0 ∉ t
  short : (utf8 t).length ≤ 255

instance (t : Text) : Decidable (PlainComponent t) :=
  decidable_of_iff (t ≠ "..".toList ∧ t ≠ chunksDir ∧ ¬ "series.meta".toList <+: t ∧ Char.ofNat 0 ∉ t ∧
    (utf8 t).length ≤ 255)
    ⟨fun ⟨h₁, h₂, h₃, h₄, h₅⟩ => ⟨h₁, h₂, h₃, h₄, h₅⟩, fun h => ⟨h.down, h.noChunks, h.noManifest, h.noNul, h.short⟩⟩

/-- A relative path of plain components; three of them leave a path room for its root and its files. -/
def GoesDown (t : Text) : Prop := t.head? ≠ some '/' ∧ (∀ c ∈ pathComponents t, PlainComponent c) ∧
    (utf8 t).length ≤ 1024

instance (t : Text) : Decidable (GoesDown t) := inferInstanceAs (Decidable (_ ∧ _))

structure ScalarSeriesKey.GoesDown (key : ScalarSeriesKey) : Prop where
  symbol : FastK.GoesDown key.symbol
  category : FastK.GoesDown key.category
  name : FastK.GoesDown key.name

instance (key : ScalarSeriesKey) : Decidable key.GoesDown :=
  decidable_of_iff (GoesDown key.symbol ∧ GoesDown key.category ∧ GoesDown key.name)
    ⟨fun ⟨h₁, h₂, h₃⟩ => ⟨h₁, h₂, h₃⟩, fun h => ⟨h.symbol, h.category, h.name⟩⟩

theorem slash_notMem_of_splitOn : ∀ {t c : Text}, c ∈ t.splitOn '/' → '/' ∉ c
  | [], c, h => by
    obtain rfl := List.mem_singleton.1 h
    exact List.not_mem_nil
  | x :: t, c, h => by
    rw [List.splitOn_cons_eq_if_modifyHead] at h
    split at h
    · rcases List.mem_cons.1 h with rfl | h
      · exact List.not_mem_nil
      · exact slash_notMem_of_splitOn h
    · rename_i hx
      cases hs : t.splitOn '/' with
      | nil =>
        rw [hs] at h
        cases h
      | cons a rest =>
        rw [hs, List.modifyHead_cons] at h
        rcases List.mem_cons.1 h with rfl | h
        · have ha := slash_notMem_of_splitOn (hs ▸ List.mem_cons_self)
          rw [List.mem_cons]
          exact not_or.2 ⟨fun he => hx (beq_iff_eq.2 he.symm), ha⟩
        · exact slash_notMem_of_splitOn (hs ▸ List.mem_cons_of_mem _ h)

/-- Components that lead down are appended. -/
theorem foldl_stepPath : ∀ (cs : List Text) (d : Dir), "..".toList ∉ d → (∀ c ∈ cs, c ≠ "..".toList) →
    cs.foldl stepPath d = d ++ cs
  | [], d, _, _ => (List.append_nil d).symm
  | c :: cs, d, hd, hcs => by
    have hc := hcs c List.mem_cons_self
    have hstep : stepPath d c = d ++ [c] := by
      unfold stepPath
      rw [if_neg hc, if_neg]
      rintro ⟨rfl, -⟩
      exact hd (List.mem_singleton.2 rfl)
    rw [List.foldl_cons, hstep, foldl_stepPath cs (d ++ [c])]
    · rw [List.append_assoc, List.singleton_append]
    · rw [List.mem_append, List.mem_singleton]
      exact not_or.2 ⟨hd, fun h => hc h.symm⟩
    · exact fun e he => hcs e (List.mem_cons_of_mem _ he)

theorem GoesDown.join {t : Text} (h : GoesDown t) {d : Dir} (hd : "..".toList ∉ d) :
    joinPath d t = d ++ pathComponents t := by
  unfold joinPath
  rw [if_neg h.1]
  exact foldl_stepPath _ _ hd (fun c hc => (h.2.1 c hc).down)

theorem GoesDown.noBack {t : Text} (h : GoesDown t) : "..".toList ∉ pathComponents t := fun hc => (h.2.1 _ hc).down rfl

/-- **The directory of a series whose names go down is the three paths, one below the other.** -/
theorem ScalarSeriesKey.GoesDown.dir_eq {key : ScalarSeriesKey} (h : key.GoesDown) :
    key.dir = pathComponents key.symbol ++ pathComponents key.category ++ pathComponents key.name := by
  have hsymbol : "..".toList ∉ pathComponents key.symbol := h.symbol.noBack
  have hcategory : "..".toList ∉ pathComponents key.symbol ++ pathComponents key.category := by
    rw [List.mem_append]
    exact not_or.2 ⟨hsymbol, h.category.noBack⟩
  unfold ScalarSeriesKey.dir seriesDir
  rw [h.symbol.join List.not_mem_nil, List.nil_append, h.category.join hsymbol, h.name.join hcategory]

/-- It lies in `series/`. -/
theorem ScalarSeriesKey.GoesDown.inside {key : ScalarSeriesKey} (h : key.GoesDown) : leavesSeries key.dir = false := by
  have hall : ∀ c ∈ key.dir, c ≠ "..".toList ∧ c ≠ ['/'] := by
    intro c hc
    rw [h.dir_eq, List.mem_append, List.mem_append] at hc
    have hplain : PlainComponent c ∧ ∃ t, c ∈ pathComponents t := by
      rcases hc with (hc | hc) | hc
      · exact ⟨h.symbol.2.1 c hc, _, hc⟩
      · exact ⟨h.category.2.1 c hc, _, hc⟩
      · exact ⟨h.name.2.1 c hc, _, hc⟩
    obtain ⟨hplain, t, ht⟩ := hplain
    refine ⟨hplain.down, ?_⟩
    rintro rfl
    exact slash_notMem_of_splitOn (List.mem_filter.1 ht).1 (List.mem_singleton.2 rfl)
  unfold leavesSeries
  cases hd : key.dir with
  | nil => rfl
  | cons c cs =>
    have hc := hall c (hd ▸ List.mem_cons_self)
    simp [show c ≠ ['.', '.'] from hc.1, hc.2]

/-! ## Paths as texts -/

/-- `PathBuf::push`. -/
def pushPath (base t : Text) : Text :=
  if t.head? = some '/' then t
  else if base = [] ∨ base.getLast? = some '/' then base ++ t
  else base ++ '/' :: t

/-- The path of a manifest below the root, as `series_dir` and `series_meta_path` write it: the manifest cache that
the handles of a process share keeps a manifest under this text, and does not know two of them for one file. -/
def ScalarSeriesKey.metaPath (key : ScalarSeriesKey) : Text :=
  ["series".toList, key.symbol, key.category, key.name, "series.meta".toList].foldl pushPath []

theorem pathComponents_append (a b : Text) : pathComponents (a ++ '/' :: b) = pathComponents a ++ pathComponents b := by
  unfold pathComponents
  rw [List.splitOn_append_cons_self, List.filter_append]

theorem pathComponents_push (base : Text) {t : Text} (ht : t.head? ≠ some '/') :
    pathComponents (pushPath base t) = pathComponents base ++ pathComponents t := by
  unfold pushPath
  rw [if_neg ht]
  split
  · rename_i h
    rcases h with rfl | h
    · rfl
    · obtain ⟨front, rfl⟩ := List.getLast?_eq_some_iff.1 h
      rw [pathComponents_append front [], List.append_assoc, List.singleton_append, pathComponents_append]
      exact congrArg (· ++ pathComponents t) (List.append_nil _).symm
  · exact pathComponents_append base t

/-- The text of the path leads to the directory. -/
theorem ScalarSeriesKey.GoesDown.metaPath {key : ScalarSeriesKey} (h : key.GoesDown) :
    pathComponents key.metaPath = "series".toList :: (key.dir ++ ["series.meta".toList]) := by
  unfold ScalarSeriesKey.metaPath
  simp only [List.foldl_cons, List.foldl_nil]
  rw [pathComponents_push _ (by decide), pathComponents_push _ h.name.1, pathComponents_push _ h.category.1,
    pathComponents_push _ h.symbol.1, pathComponents_push _ (by decide), h.dir_eq]
  have hseries : pathComponents [] ++ pathComponents "series".toList = ["series".toList] := by decide
  have hmeta : pathComponents "series.meta".toList = ["series.meta".toList] := by decide
  rw [hseries, hmeta]
  simp

/-- **One path, one directory.** -/
theorem ScalarSeriesKey.GoesDown.dir_of_metaPath {a b : ScalarSeriesKey} (ha : a.GoesDown) (hb : b.GoesDown)
    (h : a.metaPath = b.metaPath) :
    a.dir = b.dir := by
  have hpath := (ha.metaPath).symm.trans ((congrArg pathComponents h).trans hb.metaPath)
  exact List.append_cancel_right (List.cons.inj hpath).2

/-! ## Calls -/

/-- The series that a call names: its own, and the klines that a range append may take its timeframe from. -/
def Call.names : Call → List ScalarSeriesKey
  | .appendScalarRange key _ none =>
    key :: ((Text.splitOnce scalarScopeSeparator key.name).map (fun p =>
      (⟨key.symbol, klineCategory, p.1⟩ : ScalarSeriesKey))).toList
  | c => c.key.toList

/-- Every name of the call goes down. -/
def Call.Plain (c : Call) : Prop := ∀ key ∈ c.names, key.GoesDown

instance (c : Call) : Decidable c.Plain := inferInstanceAs (Decidable (∀ key ∈ c.names, key.GoesDown))

end FastK
