import FastK.Runs
/-!
# What a call touches

Every call works on one series directory.  Whatever it does elsewhere is to recover the store first, and in a store in
order that changes nothing (`Call.run_within`): so in every state in which the call can stop, the other directories
are as before, and a manifest of its own directory has the head that it had, or the one the call made for a new
series.
-/
namespace FastK

open Journal

/-! ## Steps in one directory -/

/-- The step is one in this directory, and a manifest it puts there has the head of this one. -/
def IoStep.Within (d : Dir) (m : SeriesMeta) : IoStep → Prop
  | .makeChunksDir e => e = d
  | .stage e _ => e = d
  | .publish e _ _ _ => e = d
  | .removeFile e _ => e = d
  | .publishManifest e _ m' => e = d ∧ m.SameHead m'
  | _ => True

/-- A manifest of the directory has this head; where there is none, a new one may have it. -/
structure Headed (d : Dir) (m : SeriesMeta) (new : Prop) (s : Store) : Prop where
  head : ∀ m', (s.dirs d).manifest = .current m' → m.SameHead m'
  placed : (s.dirs d).manifest.isPresent = true ∨ new

section Steps

variable {d : Dir} {m : SeriesMeta} {new : Prop} {k : IoStep} {s : Store}

theorem Headed.apply (h : Headed d m new s) (hk : k.Within d m) : Headed d m new (Journal.Store.apply k s) := by
  cases hc : k.calm with
  | true =>
    have hsame := (apply_calm hc s d).manifest
    exact ⟨fun m' hm' => h.head m' (hsame ▸ hm'), hsame ▸ h.placed⟩
  | false =>
    cases k with
    | publish e name temp body =>
      obtain rfl : e = d := hk
      have hm : ((Journal.Store.apply (IoStep.publish e name temp body) s).dirs e).manifest = (s.dirs e).manifest := by
        rw [apply_dirs, IoStep.onDir, if_pos rfl]
        rfl
      exact ⟨fun m' hm' => h.head m' (hm ▸ hm'), hm ▸ h.placed⟩
    | publishManifest e temp m₁ =>
      obtain ⟨rfl, hh⟩ : e = d ∧ m.SameHead m₁ := hk
      have hm : ((Journal.Store.apply (IoStep.publishManifest e temp m₁) s).dirs e).manifest = .current m₁ := by
        rw [apply_dirs, IoStep.onDir, if_pos rfl]
      refine ⟨fun m' hm' => ?_, .inl (by rw [hm]; rfl)⟩
      obtain rfl := ManifestFile.current.inj (hm.symm.trans hm')
      exact hh
    | removeFile e path =>
      obtain rfl : e = d := hk
      have hm : ((Journal.Store.apply (IoStep.removeFile e path) s).dirs e).manifest = (s.dirs e).manifest := by
        rw [apply_dirs, IoStep.onDir, if_pos rfl]
        rfl
      exact ⟨fun m' hm' => h.head m' (hm ▸ hm'), hm ▸ h.placed⟩
    | _ => cases hc

theorem Headed.exec {ks : List IoStep} (h : Headed d m new s) (hk : ∀ k ∈ ks, k.Within d m) :
    Headed d m new (exec ks s) :=
  exec_induction (P := Headed d m new) ks s h (fun k hks _ ht => ht.apply (hk k hks))

/-- Steps in one directory change nothing elsewhere. -/
theorem exec_within {ks : List IoStep} (hk : ∀ k ∈ ks, k.Within d m) {e : Dir} (he : e ≠ d) (s : Store) :
    (exec ks s).dirs e = s.dirs e := by
  refine exec_induction (P := fun t : Store => t.dirs e = s.dirs e) ks s rfl (fun k hks t ht => ?_)
  have hw := hk k hks
  rw [apply_dirs, ← ht]
  cases k with
  | makeChunksDir e' => exact if_neg (fun h => he (h.trans hw))
  | publish e' => exact if_neg (fun h => he (h.trans hw))
  | publishManifest e' => exact if_neg (fun h => he (h.trans hw.1))
  | removeFile e' => exact if_neg (fun h => he (h.trans hw))
  | _ => rfl

theorem known_within {ks : List IoStep} (hk : ∀ k ∈ ks, k.Within d m) {e : Dir} (s : Store)
    (he : e ∈ (exec ks s).known) : e = d ∨ e ∈ s.known := by
  refine exec_induction (P := fun t : Store => e ∈ t.known → e = d ∨
    e ∈ s.known) ks s .inr (fun k hks t ht hmem => ?_) he
  have hw := hk k hks
  have hmodify : ∀ (e' : Dir) (f : SeriesDir → SeriesDir), e' = d → e ∈ (t.modify e' f).known → e = d ∨
    e ∈ s.known := by
    intro e' f he' hmem
    rcases (Store.mem_known_modify t e' f).1 hmem with rfl | h
    · exact .inl he'
    · exact ht h
  cases k with
  | makeChunksDir e' => exact hmodify e' (fun sd => { sd with chunksDir := true }) hw hmem
  | publish e' name _ body => exact hmodify e' (fun sd => sd.put name body) hw hmem
  | publishManifest e' _ m' => exact hmodify e' (fun sd => { sd with manifest := .current m' }) hw.1 hmem
  | _ => exact ht hmem

end Steps

/-! ## Programs in one directory -/

/-- The program works in one directory, where manifests have one head; its answers have a property. -/
def Confined {α : Type} (d : Dir) (m : SeriesMeta) (new : Prop) (Q : α → Prop) (p : Op α) : Prop :=
  ∀ s, Headed d m new s → (∀ k ∈ p.trace s, k.Within d m) ∧ ∀ a, p.result s = .ok a → Q a

section Programs

variable {d : Dir} {m : SeriesMeta} {new : Prop} {α β : Type} {p : Op α} {Q : α → Prop} {R : β → Prop} {f : α → Op β}

theorem confined_pure {a : α} (h : Q a) : Confined d m new Q (pure a : Op α) := fun _ _ =>
  ⟨(fun _ hk => nomatch hk), fun _ ha => Except.ok.inj ha ▸ h⟩

theorem confined_lift {r : Result α} (h : ∀ a, r = .ok a → Q a) : Confined d m new Q (Prog.lift r : Op α) := fun _ _ =>
  ⟨(fun _ hk => nomatch hk), h⟩

theorem confined_check (r : Result α) : Confined d m new (fun _ => True) (Prog.lift r : Op α) :=
  confined_lift (fun _ _ => trivial)

theorem confined_fail (e : FastKError) : Confined d m new Q (Prog.fail e : Op α) :=
  fun _ _ => ⟨(fun _ hk => nomatch hk), (fun _ ha => nomatch ha)⟩

theorem confined_look : Confined d m new (Headed d m new) (Prog.look : Op Store) := fun _ hs =>
  ⟨(fun _ hk => nomatch hk), fun _ ha => Except.ok.inj ha ▸ hs⟩

theorem confined_emit {k : IoStep} (h : k.Within d m) : Confined d m new (fun _ => True)
    (Prog.emit k : Op Unit) := fun _ _ =>
  ⟨fun l hl => by rw [List.mem_singleton.1 hl]; exact h, fun _ _ => trivial⟩

theorem Confined.final {s : Store} (h : Confined d m new Q p) (hs : Headed d m new s) : Headed d m new (p.final s) :=
  hs.exec (h s hs).1

theorem confined_bind (hp : Confined d m new Q p) (hf : ∀ a, Q a → Confined d m new R (f a)) :
    Confined d m new R (p >>= f) := by
  intro s hs
  obtain ⟨hsteps, hans⟩ := hp s hs
  cases hr : p.result s with
  | error e =>
    rw [Prog.trace_bind_error hr]
    exact ⟨hsteps, fun b hb => by rw [Prog.result_bind_error hr] at hb; cases hb⟩
  | ok a =>
    obtain ⟨hsteps', hans'⟩ := hf a (hans a hr) _ (hp.final hs)
    rw [Prog.trace_bind_ok hr, Prog.result_bind_ok hr]
    refine ⟨fun k hk => ?_, hans'⟩
    rcases List.mem_append.1 hk with hk | hk
    · exact hsteps k hk
    · exact hsteps' k hk

theorem confined_mapError {g : FastKError → FastKError} (hp : Confined d m new Q p) :
    Confined d m new Q (p.mapError g) := fun s hs =>
  ⟨(hp s hs).1, fun a ha => (hp s hs).2 a (Prog.result_mapError_eq_ok.1 ha)⟩

theorem confined_ite {c : Prop} [Decidable c] {q : Op α} (hp : c → Confined d m new Q p)
    (hq : ¬ c → Confined d m new Q q) :
    Confined d m new Q (if c then p else q) := by
  by_cases hc : c
  · rw [if_pos hc]
    exact hp hc
  · rw [if_neg hc]
    exact hq hc

theorem confined_forEach {g : α → Op Unit} (hg : ∀ a, Confined d m new (fun _ => True) (g a)) : ∀ as : List α,
    Confined d m new (fun _ => True) (Prog.forEach g as)
  | [] => confined_pure trivial
  | a :: as => confined_bind (hg a) (fun _ _ => confined_forEach hg as)

end Programs

/-! ## The programs of the store -/

section Writes

variable {d : Dir} {m m₁ : SeriesMeta} {new : Prop} {cached : Option SeriesMeta} {env : Env}

theorem atomicWriteNew_confined (name : Text) (body : FileBody) : Confined d m new (fun _ => True)
    (atomicWriteNew env d name body) := by
  unfold atomicWriteNew
  refine confined_bind (confined_emit rfl) (fun _ _ => confined_bind confined_look (fun s _ =>
    confined_ite (fun _ => confined_fail _) (fun _ => ?_)))
  exact confined_bind (confined_emit rfl) (fun _ _ => confined_emit rfl)

theorem atomicWriteReplace_confined (name : Text) (body : FileBody) : Confined d m new (fun _ => True)
    (atomicWriteReplace env d name body) :=
  confined_bind (confined_emit rfl) (fun _ _ => confined_bind (confined_emit rfl) (fun _ _ => confined_emit rfl))

theorem saveSeriesMeta_confined {e : Dir} (he : e = d) (hh : m.SameHead m₁) : Confined d m new (fun _ => True)
    (saveSeriesMeta env e m₁) :=
  confined_bind (confined_check _) (fun _ _ => confined_bind (confined_emit he) (fun _ _ => confined_emit ⟨he, hh⟩))

theorem removeFiles_confined (paths : List Text) : Confined d m new (fun _ => True) (removeFiles env d paths) :=
  confined_forEach (fun path => confined_ite (fun _ => confined_pure trivial) (fun _ =>
    confined_emit (k := .removeFile d path) rfl)) paths

/-- The manifests a call may hold: those with the head of its directory. -/
def HasHead (m : SeriesMeta) (cached : Option SeriesMeta) : Prop := ∀ c, cached = some c → m.SameHead c

theorem hasHead_none : HasHead m none := fun _ h => nomatch h

theorem hasHead_some (h : m.SameHead m₁) : HasHead m (some m₁) := fun _ hc => Option.some.inj hc ▸ h

theorem metaFor_head {s : Store} (hc : HasHead m cached) (hs : Headed d m new s) {m' : SeriesMeta}
    (h : metaFor cached (s.dirs d) = .ok m') :
    m.SameHead m' := by
  cases cached with
  | some c => exact hc m' (congrArg some (Except.ok.inj h))
  | none => exact hs.head m' (SeriesDir.loadSeriesMeta_eq_ok h).1

theorem loadMeta_confined (hc : HasHead m cached) : Confined d m new m.SameHead (loadMeta cached d) :=
  confined_bind confined_look (fun _ hs => confined_lift (fun _ h => metaFor_head hc hs h))

theorem loadExisting_confined (hc : HasHead m cached) : Confined d m new (HasHead m) (loadExisting cached d) :=
  confined_bind confined_look (fun _ hs => confined_lift (fun _ h _ ho => metaFor_head hc hs (existingMeta_eq_ok h ho)))

theorem upsertChunkMeta_head {now : Int} {c : ChunkMeta} {m' : SeriesMeta} (hh : m.SameHead m₁)
    (h : upsertChunkMeta now m₁ c = .ok m') : m.SameHead m' := by
  obtain ⟨-, rfl⟩ := checked_eq_ok.1 h
  exact hh.trans rfl

theorem replaceMonthChunks_head {now : Int} {key : Text} {c : ChunkMeta} {r : SeriesMeta × List ChunkMeta}
    (hh : m.SameHead m₁) (h : replaceMonthChunks now m₁ key c = .ok r) : m.SameHead r.1 := by
  unfold replaceMonthChunks at h
  simp only at h
  split at h
  · cases h
  · rename_i m' hm'
    obtain ⟨-, rfl⟩ := checked_eq_ok.1 hm'
    rw [← Except.ok.inj h]
    exact hh.trans rfl

theorem commitScalar_head {now : Int} {key : Text} {c : ChunkMeta} {r : SeriesMeta × List ChunkMeta}
    (hh : m.SameHead m₁) (h : commitScalar now m₁ key c = .ok r) : m.SameHead r.1 := by
  unfold commitScalar at h
  split at h
  · cases hu : upsertChunkMeta now m₁ c with
    | error e =>
      rw [hu] at h
      cases h
    | ok m' =>
      rw [hu] at h
      rw [← Except.ok.inj h]
      exact upsertChunkMeta_head hh hu
  · exact replaceMonthChunks_head hh h

theorem activate_head (c : ChunkMeta) (hh : m.SameHead m₁) : m.SameHead (activate c m₁) := by
  unfold activate
  split
  · exact hh.trans rfl
  · exact hh

theorem refreshed_head {callKey : Text} {m₂ : SeriesMeta} (h1 : m.SameHead m₁) (h2 : m.SameHead m₂) :
    m.SameHead (refreshed callKey m₁ m₂) := by
  unfold refreshed
  split
  · exact h2
  · exact h1

/-- A manifest with the head lies in the directory. -/
theorem SeriesMeta.SameHead.seriesDir (hh : m.SameHead m₁) (hd : seriesDir m.symbol m.category m.name = d) :
    FastK.seriesDir m₁.symbol m₁.category m₁.name = d := by
  rw [hh]
  exact hd

theorem SeriesMeta.SameHead.klineSeriesDir (hh : m.SameHead m₁) (hd : klineSeriesDir m.symbol m.name = d) :
    FastK.klineSeriesDir m₁.symbol m₁.name = d := by
  rw [hh]
  exact hd

theorem createSeries_confined (hh : m.SameHead m₁) : Confined d m new m.SameHead (createSeries env d m₁) :=
  confined_bind (confined_emit trivial) (fun _ _ => confined_bind (confined_emit rfl) (fun _ _ =>
    confined_bind (saveSeriesMeta_confined rfl hh)
    (fun _ _ => confined_bind (confined_emit trivial) (fun _ _ => confined_pure hh))))

theorem mergeKlineMonthLocked_confined {symbol timeframe key : Text} (hd : klineSeriesDir symbol timeframe = d)
    (hm : klineSeriesDir m.symbol m.name = d) (hh : m.SameHead m₁) :
    Confined d m new m.SameHead (mergeKlineMonthLocked env symbol timeframe key m₁) := by
  unfold mergeKlineMonthLocked
  simp only [hd]
  refine confined_ite (fun _ => confined_pure hh) (fun _ => confined_bind confined_look (fun s _ =>
    confined_bind (confined_check _) (fun rows _ => ?_)))
  have hmark : m.SameHead (markMerging key m₁) := hh.trans (markMerging_sameHead key m₁)
  refine confined_bind (confined_check _) (fun _ _ => confined_bind (confined_check _) (fun _ _ => ?_))
  refine confined_bind (saveSeriesMeta_confined (hh.klineSeriesDir hm) hmark) (fun _ _ =>
    confined_bind (confined_check _) (fun fc _ => ?_))
  refine confined_bind (atomicWriteNew_confined _ _) (fun _ _ => ?_)
  refine confined_bind (confined_lift (fun r hr => replaceMonthChunks_head hmark hr)) (fun r hr => ?_)
  refine confined_bind (saveSeriesMeta_confined (hr.klineSeriesDir hm) hr) (fun _ _ => ?_)
  exact confined_bind (removeFiles_confined _) (fun _ _ => confined_pure hr)

theorem putKlineChunkLocked_confined {policy : CompactionPolicy} {symbol timeframe : Text} {records : List KlineRecord}
    (hd : klineSeriesDir symbol timeframe = d) (hm : klineSeriesDir m.symbol m.name = d) (hc : HasHead m cached) :
    Confined d m new m.SameHead (putKlineChunkLocked env policy symbol timeframe records cached) := by
  unfold putKlineChunkLocked
  simp only [hd]
  refine confined_bind (loadMeta_confined hc) (fun m₁ hh => confined_bind (confined_check _) (fun _ _ =>
    confined_bind (confined_check _) (fun key _ => ?_)))
  refine confined_bind (confined_check _) (fun no _ => confined_bind (confined_emit trivial) (fun _ _ =>
    confined_bind (confined_check _) (fun fc _ => ?_)))
  refine confined_bind (atomicWriteNew_confined _ _) (fun _ _ => ?_)
  refine confined_bind (confined_lift (fun m₂ h => upsertChunkMeta_head hh h)) (fun m₂ h2 => ?_)
  have hact := activate_head fc.2 h2
  have hend : ∀ m₃ : SeriesMeta, m.SameHead m₃ → Confined d m new m.SameHead (do
      Prog.emit .disarm
      pure (refreshed (seriesCacheKey symbol klineCategory timeframe) m₁ m₃) : Op SeriesMeta) := fun m₃ h3 =>
    confined_bind (confined_emit trivial) (fun _ _ => confined_pure (refreshed_head hh h3))
  refine confined_bind (saveSeriesMeta_confined (hact.klineSeriesDir hm) hact) (fun _ _ =>
    confined_ite (fun _ => ?_) (fun _ => ?_))
  · exact confined_bind (mergeKlineMonthLocked_confined hd hm hact) hend
  · exact confined_bind (confined_pure hact) hend

theorem buildScalarSidecars_confined (name : Text) (c : ChunkMeta) (records : List ScalarRecord) (blockSize : Nat) :
    Confined d m new (fun _ => True) (buildScalarSidecars env d name c records blockSize) :=
  confined_bind (confined_check _) (fun _ _ => confined_bind (atomicWriteReplace_confined _ _) (fun _ _ =>
    confined_bind (atomicWriteReplace_confined _ _) (fun _ _ => confined_pure trivial)))

theorem scalarManifest_head {key : ScalarSeriesKey} {timeframeMs now : Int} {s : Store} {m' : SeriesMeta}
    (hnew : new → m.SameHead (buildScalarMeta now key timeframeMs)) (hc : HasHead m cached) (hs : Headed d m new s)
    (h : scalarManifest now key timeframeMs cached (s.dirs d) = .ok m') : m.SameHead m' := by
  unfold scalarManifest at h
  split at h
  · split at h
    · cases h
    · rename_i m₂ hm₂
      split at h
      · cases h
      · rw [← Except.ok.inj h]
        exact metaFor_head hc hs hm₂
  · rename_i habs
    rw [← Except.ok.inj h]
    exact hnew (hs.placed.resolve_left habs)

theorem putScalarChunkLocked_confined {key : ScalarSeriesKey} {timeframeMs : Int} {records : List ScalarRecord}
    {blockSize : Nat} (hd : key.dir = d) (hm : seriesDir m.symbol m.category m.name = d)
    (hnew : new → m.SameHead (buildScalarMeta env.now key timeframeMs)) (hc : HasHead m cached) :
    Confined d m new m.SameHead (putScalarChunkLocked env key timeframeMs records blockSize cached) := by
  subst hd
  unfold putScalarChunkLocked
  refine confined_bind confined_look (fun s hs =>
    confined_bind (confined_lift (fun _ h => scalarManifest_head hnew hc hs h)) (fun m₁ hh => ?_))
  refine confined_bind (confined_check _) (fun _ _ => confined_bind (confined_check _) (fun month _ =>
    confined_bind (confined_check _) (fun no _ => ?_)))
  refine confined_bind (confined_emit trivial) (fun _ _ => confined_bind (confined_check _) (fun fc _ => ?_))
  refine confined_bind (atomicWriteNew_confined _ _) (fun _ _ => ?_)
  refine confined_bind (buildScalarSidecars_confined _ _ _ _) (fun sidecars _ => ?_)
  refine confined_bind (confined_lift (fun r h => commitScalar_head hh h)) (fun r hr => ?_)
  refine confined_bind (saveSeriesMeta_confined (hr.seriesDir hm) hr) (fun _ _ => ?_)
  refine confined_bind (removeFiles_confined _) (fun _ _ => confined_bind (confined_emit trivial) (fun _ _ => ?_))
  exact confined_pure (refreshed_head hh hr)

theorem appendScalarChunkLocked_confined {key : ScalarSeriesKey} {timeframeMs : Int} {records : List ScalarRecord}
    {blockSize : Nat} (hd : key.dir = d) (hm : seriesDir m.symbol m.category m.name = d)
    (hnew : new → m.SameHead (buildScalarMeta env.now key timeframeMs)) (hc : HasHead m cached) :
    Confined d m new m.SameHead (appendScalarChunkLocked env key timeframeMs records blockSize cached) := by
  unfold appendScalarChunkLocked
  refine confined_bind (confined_check _) (fun month _ => ?_)
  rw [hd]
  refine confined_bind (loadExisting_confined hc) (fun existing he => confined_bind confined_look (fun s _ =>
    confined_bind (confined_check _) (fun rows _ => ?_)))
  exact putScalarChunkLocked_confined hd hm hnew he

theorem writeMonths_confined {R : Type} {write : List R → Option SeriesMeta → Op SeriesMeta}
    (hw : ∀ rows c, HasHead m c → Confined d m new m.SameHead (write rows c)) : ∀ (months : List (Text × List R))
    (cached : Option SeriesMeta)
      (completed : List Text), HasHead m cached → Confined d m new (fun _ => True)
        (writeMonths write cached completed months)
  | [], _, _, _ => confined_pure trivial
  | (_, rows) :: rest, cached, _, hc =>
    confined_bind (confined_mapError (hw rows cached hc)) (fun _ hh =>
      writeMonths_confined hw rest _ _ (hasHead_some hh))

theorem appendFixedPartitions_confined {R : Type} [FixedRecord R] (unit : PartitionUnit) :
    ∀ (batches : List (Text × List R)) (m₁ : SeriesMeta),
    m.SameHead m₁ → Confined d m new m.SameHead (appendFixedPartitions env d unit m₁ batches)
  | [], _, hh => confined_pure hh
  | (key, rows) :: rest, m₁, hh => by
    unfold appendFixedPartitions
    refine confined_bind (confined_check _) (fun no _ => confined_bind (confined_check _) (fun fc _ =>
      confined_bind (atomicWriteNew_confined _ _) (fun _ _ => ?_)))
    refine confined_bind (confined_lift (fun m₂ h => upsertChunkMeta_head hh h)) (fun m₂ h2 => ?_)
    exact appendFixedPartitions_confined unit rest _ (activate_head fc.2 h2)

theorem registerKlineSeriesLocked_confined {symbol timeframe : Text} {timeframeMs priceScale volumeScale : Int}
    (hd : klineSeriesDir symbol timeframe = d)
    (hnew : new → m.SameHead (buildKlineMeta env.now symbol timeframe timeframeMs priceScale volumeScale)) :
    Confined d m new m.SameHead (registerKlineSeriesLocked env symbol timeframe timeframeMs priceScale volumeScale) :=
  by
  unfold registerKlineSeriesLocked
  simp only [hd]
  refine confined_bind confined_look (fun s hs => confined_ite (fun _ => ?_) (fun habs =>
    createSeries_confined (hnew (hs.placed.resolve_left habs))))
  exact confined_bind (loadMeta_confined hasHead_none) (fun m₁ hh => confined_bind (confined_check _) (fun _ _ =>
    confined_pure hh))

theorem registerScalarSeriesLocked_confined {key : ScalarSeriesKey} {timeframeMs : Int} (hd : key.dir = d)
    (hnew : new → m.SameHead (buildScalarMeta env.now key timeframeMs)) :
    Confined d m new m.SameHead (registerScalarSeriesLocked env key timeframeMs) := by
  unfold registerScalarSeriesLocked
  simp only [hd]
  refine confined_bind confined_look (fun s hs => confined_ite (fun _ => ?_) (fun habs =>
    createSeries_confined (hnew (hs.placed.resolve_left habs))))
  exact confined_bind (loadMeta_confined hasHead_none) (fun m₁ hh => confined_ite (fun _ => confined_fail _) (fun _ =>
    confined_pure hh))

end Writes

/-! ## Calls -/

def SeriesMeta.key (m : SeriesMeta) : ScalarSeriesKey := ⟨m.symbol, m.category, m.name⟩

/-- The series that a call names. -/
def Call.key : Call → Option ScalarSeriesKey
  | .init => none
  | .startupRecover => none
  | .registerKline symbol timeframe _ _ _ => some ⟨symbol, klineCategory, timeframe⟩
  | .registerScalar key _ => some key
  | .registerFixed k symbol channel _ _ => some ⟨symbol, k.category, channel⟩
  | .putKline _ symbol timeframe _ => some ⟨symbol, klineCategory, timeframe⟩
  | .mergeKline symbol timeframe _ => some ⟨symbol, klineCategory, timeframe⟩
  | .putScalar key _ _ _ => some key
  | .appendScalar key _ _ _ => some key
  | .appendKlineRange _ symbol timeframe _ _ _ _ => some ⟨symbol, klineCategory, timeframe⟩
  | .appendScalarRange key _ _ => some key
  | .putFixed k symbol channel _ => some ⟨symbol, k.category, channel⟩

/-- The type of the series that a call makes. -/
def Call.recordType : Call → RecordType
  | .registerKline .. => .kline
  | .putKline .. => .kline
  | .mergeKline .. => .kline
  | .appendKlineRange .. => .kline
  | .registerFixed k .. => k.recordType
  | .putFixed k .. => k.recordType
  | _ => .scalar

section Calls

variable {C : Nat} {d : Dir} {m : SeriesMeta} {s : Store} {env : Env} {α β : Type}

theorem within_bind {p : Op α} {f : α → Op β} (hp : ∀ k ∈ p.trace s, k.Within d m)
    (hf : ∀ a, p.result s = .ok a → ∀ k ∈ (f a).trace (p.final s), k.Within d m) :
    ∀ k ∈ (p >>= f).trace s, k.Within d m := by
  cases h : p.result s with
  | error e =>
    rw [Prog.trace_bind_error h]
    exact hp
  | ok a =>
    rw [Prog.trace_bind_ok h]
    intro k hk
    rcases List.mem_append.1 hk with hk | hk
    · exact hp k hk
    · exact hf a h k hk

theorem within_lift {r : Result α} {f : α → Op β} (hf : ∀ a, r = .ok a → ∀ k ∈ (f a).trace s, k.Within d m) :
    ∀ k ∈ (Prog.lift r >>= f).trace s, k.Within d m := within_bind (fun _ hk => nomatch hk) hf

theorem quiet_within {ks : List IoStep} (h : ∀ k ∈ ks, k = .removeTemps ∨ k = .disarm) : ∀ k ∈ ks, k.Within d m := by
  intro k hk
  rcases h k hk with rfl | rfl <;> trivial

theorem startupRecoverLocked_within (hg : GoodStore C s) (env : Env) (d : Dir) (m : SeriesMeta) :
    ∀ k ∈ (startupRecoverLocked env).trace s, k.Within d m := by
  obtain ⟨tr, report, hrun, hquiet⟩ := startupRecover_quiet (fun e _ => (hg.dir e).recovers env s.root)
  rw [Prog.trace_of_run hrun]
  exact quiet_within hquiet

theorem beginMutation_within (hg : GoodStore C s) (env : Env) (d : Dir) (m : SeriesMeta) :
    ∀ k ∈ (beginMutation env).trace s, k.Within d m := by
  obtain ⟨tr, hrun, hquiet⟩ := hg.begin env
  rw [Prog.trace_of_run hrun]
  exact quiet_within hquiet

theorem initLocked_within (hg : GoodStore C s) (env : Env) (d : Dir) (m : SeriesMeta) :
    ∀ k ∈ (initLocked env).trace s, k.Within d m := by
  have hroot : GoodStore C (Journal.Store.apply IoStep.makeSeriesRoot s) := ⟨hg.dir⟩
  refine within_bind (fun k hk => ?_) (fun _ _ =>
    within_bind (startupRecoverLocked_within hroot env d m) (fun _ _ _ hk => nomatch hk))
  rw [List.mem_singleton.1 hk]
  trivial

theorem ensureSeriesRoot_within (hg : GoodStore C s) (env : Env) (d : Dir) (m : SeriesMeta) :
    ∀ k ∈ (ensureSeriesRoot env).trace s, k.Within d m := by
  unfold ensureSeriesRoot
  refine within_bind (fun _ hk => nomatch hk) (fun t ht => ?_)
  obtain rfl := Except.ok.inj ht
  rw [Prog.final_look]
  cases s.seriesRoot with
  | true => exact fun _ hk => nomatch hk
  | false => exact initLocked_within hg env d m

/-- The body of a call works on the directories that the call has found. -/
theorem begin_within {body : Unit → Op α} (hg : GoodStore C s)
    (h : ∀ t, GoodStore C t → (∀ e, t.dirs e = s.dirs e) → ∀ k ∈ (body ()).trace t, k.Within d m) :
    ∀ k ∈ (beginMutation env >>= body).trace s, k.Within d m := by
  refine within_bind (beginMutation_within hg env d m) (fun _ _ => ?_)
  obtain ⟨-, hgood, hdirs⟩ := beginMutation_good hg env
  exact h _ hgood hdirs

theorem ensureSeriesRoot_then_within {body : Unit → Op α} (hg : GoodStore C s)
    (h : ∀ t, GoodStore C t → (∀ e, t.dirs e = s.dirs e) → ∀ k ∈ (body ()).trace t, k.Within d m) :
    ∀ k ∈ (ensureSeriesRoot env >>= body).trace s, k.Within d m := by
  refine within_bind (ensureSeriesRoot_within hg env d m) (fun _ _ => ?_)
  obtain ⟨-, hgood, hdirs⟩ := ensureSeriesRoot_good hg env
  exact h _ hgood hdirs

/-! ### One call -/

/-- A store where the directory has this manifest, or none. -/
theorem headed_of_dirs {t : Store} (hdirs : t.dirs d = s.dirs d) (hm : ∀ m', (s.dirs d).manifest = .current m' → m = m')
    {new : Prop} (hp : (s.dirs d).manifest.isPresent = true ∨ new) : Headed d m new t :=
  ⟨fun m' hm' => by rw [hm m' (hdirs ▸ hm')]; rfl, hdirs ▸ hp⟩

/-- A call whose body, after the recovery, is confined. -/
theorem confined_body {body : Unit → Op α} {Q : α → Prop} {new : Prop} (hg : GoodStore C s)
    (hm : ∀ m', (s.dirs d).manifest = .current m' → m = m') (hp : (s.dirs d).manifest.isPresent = true ∨ new)
    (h : Confined d m new Q (body ())) : ∀ k ∈ (beginMutation env >>= body).trace s, k.Within d m :=
  begin_within hg (fun t _ hdirs => (h t (headed_of_dirs (hdirs d) hm hp)).1)

/-- The manifest that a call finds, or the one it makes: `new` says which. -/
structure Finds (key : ScalarSeriesKey) (t : RecordType) (s : Store) (m : SeriesMeta) (new : Prop) : Prop where
  same : ∀ m', (s.dirs key.dir).manifest = .current m' → m = m'
  placed : (s.dirs key.dir).manifest.isPresent = true ∨ new
  homed : seriesDir m.symbol m.category m.name = key.dir
  made : new → (s.dirs key.dir).manifest = .missing ∧ m.key = key ∧ m.recordType = t

/-- The id of the series is the one for its names. -/
def SeriesMeta.Coined (m : SeriesMeta) : Prop := m.seriesId = seriesIdFor m.symbol m.category m.name

theorem finds_series {key : ScalarSeriesKey} (t : RecordType) (hg : GoodStore C s)
    (hm : (s.dirs key.dir).manifest = .current m) : Finds key t s m False where
  same m' hm' := ManifestFile.current.inj (hm.symm.trans hm')
  placed := .inl (by rw [hm]; rfl)
  homed := ((hg.dir key.dir).of_current hm).fits.head.homed
  made := False.elim

theorem finds_new {key : ScalarSeriesKey} {t : RecordType} (hm : (s.dirs key.dir).manifest = .missing)
    (hk : m.key = key) (ht : m.recordType = t) :
    Finds key t s m True where
  same m' hm' := by rw [hm] at hm'; cases hm'
  placed := .inr trivial
  homed := by rw [← hk]; rfl
  made _ := ⟨hm, hk, ht⟩

theorem Finds.headed {key : ScalarSeriesKey} {t : RecordType} {m : SeriesMeta} {new : Prop}
    (h : Finds key t s m new) : Headed key.dir m new s where
  head m' hm' := by
    obtain rfl := h.same m' hm'
    rfl
  placed := h.placed

section Finds

variable {key : ScalarSeriesKey} {t : RecordType} {new : Prop}

/-- The manifest of a kline series lies in the directory of the kline calls. -/
theorem Finds.klineDir (h : Finds key t s m new) (hg : GoodStore C s) (ht : OfType .kline (s.dirs key.dir))
    (hc : key.category = klineCategory) :
    klineSeriesDir m.symbol m.name = key.dir := by
  have hcat : m.category = klineCategory := by
    cases hg.dir key.dir with
    | empty hmiss _ =>
      obtain ⟨-, hk, -⟩ := h.made (h.placed.resolve_left (by rw [hmiss]; simp [ManifestFile.isPresent]))
      rw [← hc, ← hk]
      rfl
    | series hm hs =>
      obtain rfl := h.same _ hm
      exact hs.fits.head.category (ht m hm)
  rw [klineSeriesDir, ← hcat]
  exact h.homed

/-- What is shown of a call, whether it finds its series or makes it. -/
theorem GoodStore.finds (hg : GoodStore C s) {P : SeriesMeta → Prop} (m₀ : SeriesMeta) (hk : m₀.key = key)
    (hr : m₀.recordType = t) (hc : m₀.Coined) (h : ∀ m new, Finds key t s m new → (new → m = m₀) → P m) :
    ∃ m, (∃ new, Finds key t s m new ∧ (new → m.Coined)) ∧ P m := by
  cases hg.dir key.dir with
  | empty hmiss _ => exact ⟨m₀, ⟨True, finds_new hmiss hk hr, fun _ => hc⟩,
      h m₀ True (finds_new hmiss hk hr) (fun _ => rfl)⟩
  | @series m hm _ => exact ⟨m, ⟨False, finds_series t hg hm, False.elim⟩, h m False (finds_series t hg hm) False.elim⟩

/-- The same of what does not depend on the manifest. -/
theorem GoodStore.finding (hg : GoodStore C s) (key : ScalarSeriesKey) (t : RecordType) {P : Prop} (m₀ : SeriesMeta)
    (hk : m₀.key = key) (hr : m₀.recordType = t) (h : ∀ m new, Finds key t s m new → (new → m = m₀) → P) : P := by
  cases hg.dir key.dir with
  | empty hmiss _ => exact h m₀ True (finds_new hmiss hk hr) (fun _ => rfl)
  | @series m hm _ => exact h m False (finds_series t hg hm) False.elim

end Finds

/-- What a range append finds: a manifest of its directory, or none. -/
theorem loadExisting_hasHead {cached : Option SeriesMeta} {new : Prop} {o : Option SeriesMeta} (hc : HasHead m cached)
    (hs : Headed d m new s) (h : (loadExisting cached d).result s = .ok o) : HasHead m o :=
  (loadExisting_confined hc s hs).2 o h

theorem appendKlineRange_within {policy : CompactionPolicy} {symbol timeframe : Text} {records : List KlineRecord}
    {timeframeMs priceScale volumeScale : Int} {new : Prop} (hg : GoodStore C s)
    (hm : Finds ⟨symbol, klineCategory, timeframe⟩ .kline s m new)
    (ht : OfType .kline (s.dirs (klineSeriesDir symbol timeframe)))
    (hnew : new → m.SameHead (buildKlineMeta env.now symbol timeframe timeframeMs priceScale volumeScale)) :
    ∀ k ∈ (appendKlineRange env policy symbol timeframe records timeframeMs priceScale volumeScale).trace s,
      k.Within (klineSeriesDir symbol timeframe) m := by
  have hput : ∀ rows c, HasHead m c → Confined (klineSeriesDir symbol timeframe) m new m.SameHead
      (putKlineChunkLocked env policy symbol timeframe rows c) :=
        fun rows c hc => putKlineChunkLocked_confined rfl (hm.klineDir hg ht rfl) hc
  unfold appendKlineRange
  refine within_lift (fun _ _ => within_lift (fun months _ => begin_within hg (fun t hgt hdirs => ?_)))
  have hhead : Headed (klineSeriesDir symbol timeframe) m new t := headed_of_dirs (hdirs _) hm.same hm.placed
  refine within_bind (fun _ hk => nomatch hk) (fun existing he => within_lift (fun _ _ => within_lift (fun _ _ => ?_)))
  have hexisting := loadExisting_hasHead hasHead_none hhead he
  refine ensureSeriesRoot_then_within hgt (fun u _ hu => ?_)
  have hheadu : Headed (klineSeriesDir symbol timeframe) m new u :=
    headed_of_dirs ((hu _).trans (hdirs _)) hm.same hm.placed
  have hmonths : ∀ m₁, m.SameHead m₁ → Confined (klineSeriesDir symbol timeframe) m new (fun _ => True) (do
      let completed ← writeMonths (putKlineChunkLocked env policy symbol timeframe) (some m₁) [] months
      pure ⟨timeframeMs, existing.isNone, records.length, records.length, completed.length⟩ : Op RangeWriteSummary)
        := fun m₁ hh =>
    confined_bind (writeMonths_confined hput months (some m₁) [] (hasHead_some hh)) (fun _ _ => confined_pure trivial)
  cases existing with
  | some m₁ => exact (confined_bind (confined_pure (hexisting m₁ rfl)) hmonths u hheadu).1
  | none => exact (confined_bind (registerKlineSeriesLocked_confined rfl hnew) hmonths u hheadu).1

/-- The timeframe of a range append into a new series. -/
def newTimeframe (s : Store) (key : ScalarSeriesKey) (timeframeMs : Option Int) : Int :=
  match rangeTimeframe s key none timeframeMs with
  | .ok tf => tf
  | .error _ => 1

theorem rangeTimeframe_dirs {t : Store} (h : ∀ e, t.dirs e = s.dirs e) (key : ScalarSeriesKey) (o : Option SeriesMeta)
    (timeframeMs : Option Int) :
    rangeTimeframe t key o timeframeMs = rangeTimeframe s key o timeframeMs := by
  have hdirs : t.dirs = s.dirs := funext h
  unfold rangeTimeframe
  simp only [hdirs]

theorem appendScalarRange_within {key : ScalarSeriesKey} {records : List ScalarRecord} {timeframeMs : Option Int}
    {new : Prop} (hg : GoodStore C s) (hm : Finds key .scalar s m new)
    (hnew : new → m.SameHead (buildScalarMeta env.now key (newTimeframe s key timeframeMs))) :
    ∀ k ∈ (appendScalarRange env key records timeframeMs).trace s, k.Within key.dir m := by
  unfold appendScalarRange
  refine within_lift (fun _ _ => within_lift (fun months _ => begin_within hg (fun t hgt hdirs => ?_)))
  have hhead : Headed key.dir m new t := headed_of_dirs (hdirs _) hm.same hm.placed
  refine within_bind (fun _ hk => nomatch hk) (fun existing he =>
    within_bind (fun _ hk => nomatch hk) (fun t' ht' => ?_))
  obtain rfl := Except.ok.inj ht'
  have hexisting := loadExisting_hasHead hasHead_none hhead he
  refine within_lift (fun tf htf => within_lift (fun _ _ => ensureSeriesRoot_then_within hgt (fun u _ hu => ?_)))
  have hheadu : Headed key.dir m new u := headed_of_dirs ((hu _).trans (hdirs _)) hm.same hm.placed
  have hbuilt : new → m.SameHead (buildScalarMeta env.now key tf) := by
    intro hn
    have hnone := (loadExisting_missing (s := t) (d := key.dir) (by rw [hdirs]; exact (hm.made hn).1)).symm.trans he
    rw [← Except.ok.inj hnone, loadExisting_final, rangeTimeframe_dirs hdirs] at htf
    have := hnew hn
    unfold newTimeframe at this
    rwa [htf] at this
  have hmonths : ∀ m₁, m.SameHead m₁ → Confined key.dir m new (fun _ => True) (do
      let completed ← writeMonths (fun rows cached =>
        appendScalarChunkLocked env key tf rows defaultScalarZmapBlockSize cached) (some m₁) [] months
      pure ⟨tf, existing.isNone, records.length, records.length, completed.length⟩ : Op RangeWriteSummary)
        := fun m₁ hh =>
    confined_bind (writeMonths_confined
      (fun rows c hc => appendScalarChunkLocked_confined rfl hm.homed hbuilt hc) months (some m₁) [] (hasHead_some hh))
      (fun _ _ => confined_pure trivial)
  cases existing with
  | some m₁ => exact (confined_bind (confined_pure (hexisting m₁ rfl)) hmonths u hheadu).1
  | none => exact (confined_bind (registerScalarSeriesLocked_confined rfl hbuilt) hmonths u hheadu).1

/-- **A regular call works in the directory of its series only.** -/
theorem Call.run_within {c : Call} {key : ScalarSeriesKey} (hg : GoodStore C s) (ht : c.Typed s)
    (hc : c.key = some key) (env : Env) :
    ∃ m, (∃ new, Finds key c.recordType s m new ∧ (new → m.Coined)) ∧ ∀ k ∈ (c.run env).trace s, k.Within key.dir m :=
  by
  cases c with
  | init => cases hc
  | startupRecover => cases hc
  | registerKline symbol timeframe timeframeMs priceScale volumeScale =>
    obtain rfl := Option.some.inj hc
    refine hg.finds (buildKlineMeta env.now symbol timeframe timeframeMs priceScale volumeScale) rfl rfl rfl
      (fun m new hm hnew => ?_)
    refine within_lift (fun _ _ =>
      confined_body hg hm.same hm.placed (confined_bind (registerKlineSeriesLocked_confined rfl (fun hn => ?_))
      (fun _ _ => confined_pure (Q := fun _ => True) trivial)))
    rw [hnew hn]
    rfl
  | registerScalar key' timeframeMs =>
    obtain rfl := Option.some.inj hc
    refine hg.finds (buildScalarMeta env.now key' timeframeMs) rfl rfl rfl (fun m new hm hnew => ?_)
    show ∀ k ∈ (registerScalarSeries env key' timeframeMs).trace s, k.Within key'.dir m
    unfold registerScalarSeries
    split
    · exact fun _ hk => nomatch hk
    · refine confined_body hg hm.same hm.placed (confined_bind (registerScalarSeriesLocked_confined rfl (fun hn => ?_))
        (fun _ _ => confined_pure (Q := fun _ => True) trivial))
      rw [hnew hn]
      rfl
  | registerFixed k symbol channel timeframeMs unit =>
    obtain rfl := Option.some.inj hc
    refine hg.finds (buildFixedMeta k.Row env.now symbol k.category channel timeframeMs unit) rfl (by cases k
      <;> rfl) rfl (fun m new hm hnew => ?_)
    show ∀ l ∈ (registerFixedSeries env k symbol channel timeframeMs unit).trace s, l.Within (k.dir symbol channel) m
    unfold registerFixedSeries
    split
    · exact fun _ hk => nomatch hk
    · refine confined_body (Q := fun _ => True) hg hm.same hm.placed (confined_bind confined_look (fun t hs =>
        confined_ite (fun _ => ?_) (fun habs => ?_)))
      · exact confined_bind (loadMeta_confined hasHead_none) (fun _ _ => confined_check _)
      · refine confined_bind (createSeries_confined ?_) (fun _ _ => confined_pure trivial)
        rw [hnew (hs.placed.resolve_left habs)]
        rfl
  | putKline policy symbol timeframe records =>
    obtain rfl := Option.some.inj hc
    refine hg.finds (buildKlineMeta env.now symbol timeframe 1 1 1) rfl rfl rfl (fun m new hm _ => ?_)
    exact within_lift (fun _ _ => confined_body (Q := fun _ => True) hg hm.same hm.placed (confined_bind
      (putKlineChunkLocked_confined rfl (hm.klineDir hg ht rfl) hasHead_none) (fun _ _ => confined_pure trivial)))
  | mergeKline symbol timeframe month =>
    obtain rfl := Option.some.inj hc
    refine hg.finds (buildKlineMeta env.now symbol timeframe 1 1 1) rfl rfl rfl (fun m new hm _ => ?_)
    exact confined_body (Q := fun _ => True) hg hm.same hm.placed (confined_bind (confined_emit trivial) (fun _ _ =>
      confined_bind
      (loadMeta_confined hasHead_none) (fun m₁ hh =>
        confined_bind (mergeKlineMonthLocked_confined rfl (hm.klineDir hg ht rfl) hh)
        (fun _ _ => confined_emit trivial))))
  | putScalar key' timeframeMs records blockSize =>
    obtain rfl := Option.some.inj hc
    refine hg.finds (buildScalarMeta env.now key' timeframeMs) rfl rfl rfl (fun m new hm hnew => ?_)
    refine within_lift (fun _ _ =>
      within_lift (fun _ _ => confined_body (Q := fun _ => True) hg hm.same hm.placed (confined_bind
      (putScalarChunkLocked_confined rfl hm.homed (fun hn => ?_) hasHead_none) (fun _ _ => confined_pure trivial))))
    rw [hnew hn]
    rfl
  | appendScalar key' timeframeMs records blockSize =>
    obtain rfl := Option.some.inj hc
    refine hg.finds (buildScalarMeta env.now key' timeframeMs) rfl rfl rfl (fun m new hm hnew => ?_)
    refine within_lift (fun _ _ =>
      within_lift (fun _ _ => confined_body (Q := fun _ => True) hg hm.same hm.placed (confined_bind
      (appendScalarChunkLocked_confined rfl hm.homed (fun hn => ?_) hasHead_none) (fun _ _ => confined_pure trivial))))
    rw [hnew hn]
    rfl
  | appendKlineRange policy symbol timeframe records timeframeMs priceScale volumeScale =>
    obtain rfl := Option.some.inj hc
    refine hg.finds (buildKlineMeta env.now symbol timeframe timeframeMs priceScale volumeScale) rfl rfl rfl
      (fun m new hm hnew => ?_)
    exact within_bind (appendKlineRange_within hg hm ht (fun hn => by rw [hnew hn]; rfl)) (fun _ _ _ hk => nomatch hk)
  | appendScalarRange key' records timeframeMs =>
    obtain rfl := Option.some.inj hc
    refine hg.finds (buildScalarMeta env.now key' (newTimeframe s key' timeframeMs)) rfl rfl rfl (fun m new hm hnew =>
      ?_)
    exact within_bind (appendScalarRange_within hg hm (fun hn => by rw [hnew hn]; rfl)) (fun _ _ _ hk => nomatch hk)
  | putFixed k symbol channel records =>
    obtain rfl := Option.some.inj hc
    refine hg.finds (buildFixedMeta k.Row env.now symbol k.category channel 1 .month) rfl (by cases k
      <;> rfl) rfl (fun m new hm hnew => ?_)
    refine within_lift (fun _ _ => confined_body (Q := fun _ =>
      True) hg hm.same hm.placed (confined_bind (loadMeta_confined hasHead_none) (fun m₁ hh => ?_)))
    refine confined_bind (confined_check _) (fun ub _ => confined_bind (confined_emit trivial) (fun _ _ =>
      confined_bind (confined_emit rfl) (fun _ _ => ?_)))
    refine confined_bind (appendFixedPartitions_confined _ _ m₁ hh) (fun m' h' => ?_)
    exact confined_bind (saveSeriesMeta_confined (h'.seriesDir hm.homed) h') (fun _ _ => confined_emit trivial)

/-- A call that names no series only recovers. -/
theorem Call.run_within_none {c : Call} (hg : GoodStore C s) (hc : c.key = none) (env : Env) (d : Dir)
    (m : SeriesMeta) :
    ∀ k ∈ (c.run env).trace s, k.Within d m := by
  cases c with
  | init =>
    refine within_bind (beginMutation_within hg env d m) (fun _ _ => ?_)
    exact initLocked_within (beginMutation_good hg env).2.1 env d m
  | startupRecover => exact within_bind (startupRecoverLocked_within hg env d m) (fun _ _ _ hk => nomatch hk)
  | _ => cases hc

/-! ### A call that answers leaves a series -/

theorem present_apply (k : IoStep) (s : Store) (d : Dir) (h : (s.dirs d).manifest.isPresent = true) :
    ((Journal.Store.apply k s).dirs d).manifest.isPresent = true := by
  rw [apply_dirs]
  cases k with
  | makeChunksDir e =>
    by_cases he : d = e
    · rw [IoStep.onDir, if_pos he]
      exact h
    · rw [IoStep.onDir, if_neg he]
      exact h
  | publish e =>
    by_cases he : d = e
    · rw [IoStep.onDir, if_pos he]
      exact h
    · rw [IoStep.onDir, if_neg he]
      exact h
  | publishManifest e =>
    by_cases he : d = e
    · rw [IoStep.onDir, if_pos he]
      rfl
    · rw [IoStep.onDir, if_neg he]
      exact h
  | removeFile e =>
    by_cases he : d = e
    · rw [IoStep.onDir, if_pos he]
      exact h
    · rw [IoStep.onDir, if_neg he]
      exact h
  | _ => exact h

theorem present_exec (ks : List IoStep) {s : Store} {d : Dir} (h : (s.dirs d).manifest.isPresent = true) :
    ((exec ks s).dirs d).manifest.isPresent = true :=
  exec_induction (P := fun t : Store => (t.dirs d).manifest.isPresent = true) ks s h (fun k _ t ht =>
    present_apply k t d ht)

/-- Where the program answers, a manifest is there. -/
def Places {α : Type} (d : Dir) (m : SeriesMeta) (new : Prop) (p : Op α) : Prop :=
  ∀ s, Headed d m new s → ∀ a, p.result s = .ok a → ((p.final s).dirs d).manifest.isPresent = true

section Places

variable {new : Prop} {p : Op α} {f : α → Op β} {Q : α → Prop} {key : ScalarSeriesKey} {m₁ : SeriesMeta}
    {cached : Option SeriesMeta}

theorem places_first (hp : Places d m new p) : Places d m new (p >>= f) := by
  intro s hs b hb
  obtain ⟨a, ha, -⟩ := Prog.result_bind_eq_ok.1 hb
  rw [Prog.final_bind_ok ha]
  exact present_exec _ (hp s hs a ha)

theorem places_then (hp : Confined d m new Q p) (hf : ∀ a, Q a → Places d m new (f a)) : Places d m new (p >>= f) := by
  intro s hs b hb
  obtain ⟨a, ha, hb⟩ := Prog.result_bind_eq_ok.1 hb
  rw [Prog.final_bind_ok ha]
  exact hf a ((hp s hs).2 a ha) _ (hp.final hs) b hb

theorem places_loadMeta : Places d m new (loadMeta none d) := by
  intro s _ a ha
  have hload : (s.dirs d).loadSeriesMeta = .ok a := ha
  show (s.dirs d).manifest.isPresent = true
  rw [(SeriesDir.loadSeriesMeta_eq_ok hload).1]
  rfl

theorem places_save {e : Dir} (he : e = d) : Places d m new (saveSeriesMeta env e m₁) := by
  subst he
  intro s _ _ ha
  unfold saveSeriesMeta at ha ⊢
  obtain ⟨_, hv, -⟩ := Prog.result_bind_eq_ok.1 ha
  rw [Prog.final_bind_ok hv, Prog.final_bind_ok (Prog.result_emit _ _), Prog.final_emit, apply_dirs,
    IoStep.onDir, if_pos rfl]
  rfl

theorem places_createSeries : Places d m new (createSeries env d m₁) :=
  places_then (confined_emit trivial) (fun _ _ => places_then (confined_emit rfl) (fun _ _ =>
    places_first (places_save rfl)))

theorem places_registerKline {symbol timeframe : Text} {timeframeMs priceScale volumeScale : Int}
    (hd : klineSeriesDir symbol timeframe = d) :
    Places d m new (registerKlineSeriesLocked env symbol timeframe timeframeMs priceScale volumeScale) := by
  unfold registerKlineSeriesLocked
  simp only [hd]
  refine places_then confined_look (fun s hs => ?_)
  split
  · exact places_first places_loadMeta
  · rename_i habs
    exact places_createSeries

theorem places_registerScalar {timeframeMs : Int} (hd : key.dir = d) :
    Places d m new (registerScalarSeriesLocked env key timeframeMs) := by
  unfold registerScalarSeriesLocked
  simp only [hd]
  refine places_then confined_look (fun s hs => ?_)
  split
  · exact places_first places_loadMeta
  · rename_i habs
    exact places_createSeries

theorem places_putScalar {timeframeMs : Int} {records : List ScalarRecord} {blockSize : Nat} (hd : key.dir = d)
    (hm : seriesDir m.symbol m.category m.name = d)
    (hnew : new → m.SameHead (buildScalarMeta env.now key timeframeMs)) (hc : HasHead m cached) :
    Places d m new (putScalarChunkLocked env key timeframeMs records blockSize cached) := by
  subst hd
  unfold putScalarChunkLocked
  refine places_then confined_look (fun s hs =>
    places_then (confined_lift (fun _ h => scalarManifest_head hnew hc hs h)) (fun m₁ hh => ?_))
  refine places_then (confined_check _) (fun _ _ => places_then (confined_check _) (fun month _ =>
    places_then (confined_check _) (fun no _ => ?_)))
  refine places_then (confined_emit trivial) (fun _ _ => places_then (confined_check _) (fun fc _ => ?_))
  refine places_then (atomicWriteNew_confined _ _) (fun _ _ => ?_)
  refine places_then (buildScalarSidecars_confined _ _ _ _) (fun sidecars _ => ?_)
  refine places_then (confined_lift (fun r h => commitScalar_head hh h)) (fun r hr => ?_)
  exact places_first (places_save (hr.seriesDir hm))

theorem places_appendScalar {timeframeMs : Int} {records : List ScalarRecord} {blockSize : Nat} (hd : key.dir = d)
    (hm : seriesDir m.symbol m.category m.name = d)
    (hnew : new → m.SameHead (buildScalarMeta env.now key timeframeMs)) (hc : HasHead m cached) :
    Places d m new (appendScalarChunkLocked env key timeframeMs records blockSize cached) := by
  unfold appendScalarChunkLocked
  refine places_then (confined_check _) (fun month _ => ?_)
  rw [hd]
  refine places_then (loadExisting_confined hc) (fun existing he => places_then confined_look (fun s _ =>
    places_then (confined_check _) (fun rows _ => ?_)))
  exact places_putScalar hd hm hnew he

end Places

/-- A part of a call that answers only once a manifest is there. -/
theorem placed_bind {p : Op α} {f : α → Op β} (hf : ∀ a, p.result s = .ok a → ∀ b, (f a).result (p.final s) = .ok b →
    (((f a).final (p.final s)).dirs d).manifest.isPresent = true)
  : ∀ b, (p >>= f).result s = .ok b → (((p >>= f).final s).dirs d).manifest.isPresent = true := by
  intro b hb
  obtain ⟨a, ha, hb⟩ := Prog.result_bind_eq_ok.1 hb
  rw [Prog.final_bind_ok ha]
  exact hf a ha b hb

/-- The body of a call, after the recovery. -/
theorem placed_body {body : Unit → Op α} {new : Prop} (hg : GoodStore C s)
    (hm : ∀ m', (s.dirs d).manifest = .current m' → m = m') (hp : (s.dirs d).manifest.isPresent = true ∨ new)
    (h : Places d m new (body ())) :
    ∀ b, (beginMutation env >>= body).result s = .ok b →
      (((beginMutation env >>= body).final s).dirs d).manifest.isPresent = true := by
  refine placed_bind (fun _ _ => ?_)
  obtain ⟨-, -, hdirs⟩ := beginMutation_good hg env
  exact h _ (headed_of_dirs (hdirs d) hm hp)

theorem loadExisting_present {o : Option SeriesMeta} (h : (loadExisting none d).result s = .ok o)
    (ho : o.isSome = true) :
    (s.dirs d).manifest.isPresent = true := by
  obtain ⟨m₁, rfl⟩ := Option.isSome_iff_exists.1 ho
  have hload : (s.dirs d).loadSeriesMeta = .ok m₁ := existingMeta_eq_ok (o := some m₁) h rfl
  rw [(SeriesDir.loadSeriesMeta_eq_ok hload).1]
  rfl

theorem placed_lift {r : Result α} {f : α → Op β} (hf : ∀ a, r = .ok a → ∀ b, (f a).result s = .ok b →
      (((f a).final s).dirs d).manifest.isPresent = true) :
    ∀ b, (Prog.lift r >>= f).result s = .ok b → (((Prog.lift r >>= f).final s).dirs d).manifest.isPresent = true :=
  placed_bind hf

theorem placed_then {p : Op α} {f : α → Op β}
    (h : ∀ a, p.result s = .ok a → ((p.final s).dirs d).manifest.isPresent = true) :
    ∀ b, (p >>= f).result s = .ok b → (((p >>= f).final s).dirs d).manifest.isPresent = true :=
  placed_bind (fun a ha _ _ => present_exec _ (h a ha))

/-- What a range append does once its root is there: the series that was found, or a new one, and the months. -/
theorem placed_range {existing : Option SeriesMeta} {register : Op SeriesMeta} {rest : SeriesMeta → Op β} {new : Prop}
    {t : Store} (hg : GoodStore C t) (he : (loadExisting none d).result t = .ok existing) (hs : Headed d m new t)
    (hreg : Places d m new register) :
    ∀ b, (ensureSeriesRoot env >>= fun _ => match existing with
      | some m₁ => (pure m₁ : Op SeriesMeta) >>= rest
      | none => register >>= rest).result t = .ok b → (((ensureSeriesRoot env >>= fun _ => match existing with
      | some m₁ => (pure m₁ : Op SeriesMeta) >>= rest
      | none => register >>= rest).final t).dirs d).manifest.isPresent = true := by
  obtain ⟨-, -, hdirs⟩ := ensureSeriesRoot_good hg env
  refine placed_bind (fun _ _ => ?_)
  cases existing with
  | some m₁ => exact fun _ _ => present_exec _ (hdirs d ▸ loadExisting_present he rfl)
  | none => exact places_first hreg _ ⟨fun m' hm' => hs.head m' (hdirs d ▸ hm'), hdirs d ▸ hs.placed⟩

/-- **A call that answers leaves a manifest in its directory.** -/
theorem Call.run_places {c : Call} {key : ScalarSeriesKey} (hg : GoodStore C s) (hc : c.key = some key) (env : Env) :
    ∀ a, (c.run env).result s = .ok a → (((c.run env).final s).dirs key.dir).manifest.isPresent = true := by
  cases c with
  | init => cases hc
  | startupRecover => cases hc
  | registerKline symbol timeframe timeframeMs priceScale volumeScale =>
    obtain rfl := Option.some.inj hc
    refine hg.finding _ .kline (buildKlineMeta env.now symbol timeframe timeframeMs priceScale volumeScale) rfl rfl
      (fun m new hm _ => ?_)
    exact placed_lift (fun _ _ => placed_body hg hm.same hm.placed (places_first (places_registerKline rfl)))
  | registerScalar key' timeframeMs =>
    obtain rfl := Option.some.inj hc
    refine hg.finding key' .scalar (buildScalarMeta env.now key' timeframeMs) rfl rfl (fun m new hm _ => ?_)
    show ∀ a, (registerScalarSeries env key' timeframeMs).result s = .ok a →
      (((registerScalarSeries env key' timeframeMs).final s).dirs key'.dir).manifest.isPresent = true
    unfold registerScalarSeries
    split
    · exact fun _ ha => nomatch ha
    · exact placed_body hg hm.same hm.placed (places_first (places_registerScalar rfl))
  | registerFixed k symbol channel timeframeMs unit =>
    obtain rfl := Option.some.inj hc
    refine hg.finding _ k.recordType (buildFixedMeta k.Row env.now symbol k.category channel timeframeMs unit) rfl
      (by cases k <;> rfl) (fun m new hm _ => ?_)
    show ∀ a, (registerFixedSeries env k symbol channel timeframeMs unit).result s = .ok a →
      (((registerFixedSeries env k symbol channel timeframeMs unit).final s).dirs
        (k.dir symbol channel)).manifest.isPresent = true
    unfold registerFixedSeries
    split
    · exact fun _ ha => nomatch ha
    · refine placed_body hg hm.same hm.placed (places_then confined_look (fun t _ => ?_))
      split
      · exact places_first places_loadMeta
      · exact places_first places_createSeries
  | putKline policy symbol timeframe records =>
    obtain rfl := Option.some.inj hc
    refine hg.finding _ .kline (buildKlineMeta env.now symbol timeframe 1 1 1) rfl rfl (fun m new hm _ => ?_)
    exact placed_lift (fun _ _ => placed_body hg hm.same hm.placed (places_first (places_first places_loadMeta)))
  | mergeKline symbol timeframe month =>
    obtain rfl := Option.some.inj hc
    refine hg.finding _ .kline (buildKlineMeta env.now symbol timeframe 1 1 1) rfl rfl (fun m new hm _ => ?_)
    exact placed_body hg hm.same hm.placed (places_then (confined_emit (k := .arm) trivial) (fun _ _ =>
      places_first places_loadMeta))
  | putScalar key' timeframeMs records blockSize =>
    obtain rfl := Option.some.inj hc
    refine hg.finding key' .scalar (buildScalarMeta env.now key' timeframeMs) rfl rfl (fun m new hm hnew => ?_)
    refine placed_lift (fun _ _ => placed_lift (fun _ _ =>
      placed_body hg hm.same hm.placed (places_first (places_putScalar rfl hm.homed (fun hn => ?_) hasHead_none))))
    rw [hnew hn]
    rfl
  | appendScalar key' timeframeMs records blockSize =>
    obtain rfl := Option.some.inj hc
    refine hg.finding key' .scalar (buildScalarMeta env.now key' timeframeMs) rfl rfl (fun m new hm hnew => ?_)
    refine placed_lift (fun _ _ => placed_lift (fun _ _ =>
      placed_body hg hm.same hm.placed (places_first (places_appendScalar rfl hm.homed (fun hn => ?_) hasHead_none))))
    rw [hnew hn]
    rfl
  | appendKlineRange policy symbol timeframe records timeframeMs priceScale volumeScale =>
    obtain rfl := Option.some.inj hc
    refine hg.finding _ .kline (buildKlineMeta env.now symbol timeframe timeframeMs priceScale volumeScale) rfl rfl
      (fun m new hm _ => placed_then ?_)
    unfold FastK.appendKlineRange
    refine placed_lift (fun _ _ => placed_lift (fun months _ =>
      placed_bind (fun _ _ => placed_bind (fun existing he => placed_lift (fun _ _ => placed_lift (fun _ _ => ?_))))))
    obtain ⟨-, hgt, hdirs⟩ := beginMutation_good hg env
    exact placed_range hgt he (headed_of_dirs (hdirs _) hm.same hm.placed) (places_registerKline rfl)
  | appendScalarRange key' records timeframeMs =>
    obtain rfl := Option.some.inj hc
    refine hg.finding key' .scalar (buildScalarMeta env.now key' 1) rfl rfl (fun m new hm _ => placed_then ?_)
    unfold FastK.appendScalarRange
    refine placed_lift (fun _ _ => placed_lift (fun months _ =>
      placed_bind (fun _ _ => placed_bind (fun existing he => placed_bind (fun t ht => ?_)))))
    refine placed_lift (fun tf _ => placed_lift (fun _ _ => ?_))
    obtain ⟨-, hgt, hdirs⟩ := beginMutation_good hg env
    exact placed_range hgt he (headed_of_dirs (hdirs _) hm.same hm.placed) (places_registerScalar rfl)
  | putFixed k symbol channel records =>
    obtain rfl := Option.some.inj hc
    refine hg.finding _ k.recordType (buildFixedMeta k.Row env.now symbol k.category channel 1 .month) rfl (by cases k
      <;> rfl) (fun m new hm _ => ?_)
    exact placed_lift (fun _ _ => placed_body hg hm.same hm.placed (places_first places_loadMeta))

/-! ### A call that answers has names -/

/-- Where the program answers, the manifests of the directory have a symbol, a category and a name. -/
def Names {α : Type} (d : Dir) (m : SeriesMeta) (new : Prop) (p : Op α) : Prop :=
  ∀ s, Headed d m new s → ∀ a, p.result s = .ok a → m.key.isBlank = false

section Names

variable {new : Prop} {p : Op α} {f : α → Op β} {Q : α → Prop} {key : ScalarSeriesKey} {m₁ : SeriesMeta}
    {cached : Option SeriesMeta}

theorem names_first (hp : Names d m new p) : Names d m new (p >>= f) := by
  intro s hs b hb
  obtain ⟨a, ha, -⟩ := Prog.result_bind_eq_ok.1 hb
  exact hp s hs a ha

theorem names_then (hp : Confined d m new Q p) (hf : ∀ a, Q a → Names d m new (f a)) : Names d m new (p >>= f) := by
  intro s hs b hb
  obtain ⟨a, ha, hb⟩ := Prog.result_bind_eq_ok.1 hb
  exact hf a ((hp s hs).2 a ha) _ (hp.final hs) b hb

theorem names_save {e : Dir} (hh : m.SameHead m₁) : Names d m new (saveSeriesMeta env e m₁) := by
  intro s _ _ ha
  unfold saveSeriesMeta at ha
  obtain ⟨_, hv, -⟩ := Prog.result_bind_eq_ok.1 ha
  obtain ⟨⟨h1, h2, h3, -⟩, -⟩ := SeriesMeta.validate_eq_ok.1 (show m₁.validate = .ok () from hv)
  rw [hh] at h1 h2 h3
  show (Text.isBlank m.symbol || Text.isBlank m.category || Text.isBlank m.name) = false
  rw [show Text.isBlank m.symbol = false from h1, show Text.isBlank m.category = false from h2,
    show Text.isBlank m.name = false from h3]
  rfl

theorem names_putScalar {timeframeMs : Int} {records : List ScalarRecord} {blockSize : Nat} (hd : key.dir = d)
    (hnew : new → m.SameHead (buildScalarMeta env.now key timeframeMs)) (hc : HasHead m cached) :
    Names d m new (putScalarChunkLocked env key timeframeMs records blockSize cached) := by
  subst hd
  unfold putScalarChunkLocked
  refine names_then confined_look (fun s hs =>
    names_then (confined_lift (fun _ h => scalarManifest_head hnew hc hs h)) (fun m₁ hh => ?_))
  refine names_then (confined_check _) (fun _ _ => names_then (confined_check _) (fun month _ =>
    names_then (confined_check _) (fun no _ => ?_)))
  refine names_then (confined_emit trivial) (fun _ _ => names_then (confined_check _) (fun fc _ => ?_))
  refine names_then (atomicWriteNew_confined _ _) (fun _ _ => ?_)
  refine names_then (buildScalarSidecars_confined _ _ _ _) (fun sidecars _ => ?_)
  refine names_then (confined_lift (fun r h => commitScalar_head hh h)) (fun r hr => ?_)
  exact names_first (names_save hr)

theorem names_appendScalar {timeframeMs : Int} {records : List ScalarRecord} {blockSize : Nat} (hd : key.dir = d)
    (hnew : new → m.SameHead (buildScalarMeta env.now key timeframeMs)) (hc : HasHead m cached) :
    Names d m new (appendScalarChunkLocked env key timeframeMs records blockSize cached) := by
  unfold appendScalarChunkLocked
  refine names_then (confined_check _) (fun month _ => ?_)
  rw [hd]
  refine names_then (loadExisting_confined hc) (fun existing he => names_then confined_look (fun s _ =>
    names_then (confined_check _) (fun rows _ => ?_)))
  exact names_putScalar hd hnew he

/-- The body of a call on a new series. -/
theorem named_body {body : Unit → Op α} (hg : GoodStore C s) (hmiss : (s.dirs d).manifest = .missing)
    (h : Names d m True (body ())) :
    ∀ b, (beginMutation env >>= body).result s = .ok b → m.key.isBlank = false := by
  intro b hb
  obtain ⟨_, -, hb⟩ := Prog.result_bind_eq_ok.1 hb
  obtain ⟨-, -, hdirs⟩ := beginMutation_good hg env
  exact h _ (headed_of_dirs (hdirs d) (fun m' hm' => by rw [hmiss] at hm'; cases hm') (.inr trivial)) b hb

end Names

/-- **A call that answers has names for the series it makes.** -/
theorem Call.run_named {c : Call} (hg : GoodStore C s) {a : Unit} (h : (c.run env).result s = .ok a) : c.Named s := by
  cases c with
  | putScalar key timeframeMs records blockSize =>
    intro hmiss
    obtain ⟨_, -, h⟩ := Prog.result_bind_eq_ok.1 h
    obtain ⟨_, -, h⟩ := Prog.result_bind_eq_ok.1 h
    have hnames : Names key.dir (buildScalarMeta env.now key timeframeMs) True
      (putScalarChunkLocked env key timeframeMs records blockSize none) :=
      names_putScalar rfl (fun _ => rfl) hasHead_none
    exact named_body hg hmiss (names_first hnames) a h
  | appendScalar key timeframeMs records blockSize =>
    intro hmiss
    obtain ⟨_, -, h⟩ := Prog.result_bind_eq_ok.1 h
    obtain ⟨_, -, h⟩ := Prog.result_bind_eq_ok.1 h
    have hnames : Names key.dir (buildScalarMeta env.now key timeframeMs) True
      (appendScalarChunkLocked env key timeframeMs records blockSize none) :=
      names_appendScalar rfl (fun _ => rfl) hasHead_none
    exact named_body hg hmiss (names_first hnames) a h
  | _ => trivial

end Calls

end FastK
