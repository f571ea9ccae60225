import FastK.KlineWrites
import FastK.Latest
/-!
# The rows of a series under writes

Klines and scalars have one row a timestamp, so the rows of a series are determined by which rows they are
(`strict_unique`).  A write of one chunk leaves the rows of the entries it keeps and those of its chunk
(`Entered.mem_rows`); a merge leaves the rows it found.  What a kline read answers is a function of the rows
(`SeriesOk.klineReads`).
-/
namespace FastK

open Journal Spans

/-! ## One row a timestamp -/

section Strict

variable {R : Type} [FixedRecord R] {l l' : List R}

/-- Rows with increasing timestamps are determined by their members. -/
theorem strict_unique (h : l.Pairwise (fun a b => FixedRecord.ts a < FixedRecord.ts b))
    (h' : l'.Pairwise (fun a b => FixedRecord.ts a < FixedRecord.ts b)) (hm : ∀ r, r ∈ l ↔ r ∈ l') : l = l' := by
  have hnodup : ∀ {k : List R}, k.Pairwise (fun a b => FixedRecord.ts a < FixedRecord.ts b) → k.Nodup := fun hk =>
    hk.imp (fun {a b} hab heq => by rw [heq] at hab; omega)
  exact ((List.perm_ext_iff_of_nodup (hnodup h) (hnodup h')).2 hm).eq_of_pairwise (fun a b _ _ h1 h2 => by omega) h h'

theorem strict_sublist (h : l.Pairwise (fun a b => FixedRecord.ts a < FixedRecord.ts b))
    (h' : l'.Pairwise (fun a b => FixedRecord.ts a < FixedRecord.ts b)) (hm : ∀ r ∈ l, r ∈ l') : l.Sublist l' := by
  classical
  have heq : l = l'.filter (fun r => decide (r ∈ l)) := by
    refine strict_unique h (h'.sublist List.filter_sublist) (fun r => ?_)
    rw [List.mem_filter, decide_eq_true_iff]
    exact ⟨fun hr => ⟨hm r hr, hr⟩, fun hr => hr.2⟩
  rw [heq]
  exact List.filter_sublist

/-- There are fewer timestamps than would fill the memory. -/
theorem length_of_inRange (h : l.Pairwise (fun a b => FixedRecord.ts a < FixedRecord.ts b))
    (hr : ∀ r ∈ l, TsInRange (FixedRecord.ts r)) :
    l.length < 2 ^ 55 := by
  by_cases hne : l = []
  · rw [hne]
    exact Nat.two_pow_pos 55
  · have hlen := length_le_of_strict hne h
    obtain ⟨a, ha, hfirst⟩ := exists_firstTs hne
    obtain ⟨b, hb, hlast⟩ := exists_lastTs hne
    have h1 := (hr a ha).1
    have h2 := (hr b hb).2
    rw [hfirst] at h1
    rw [hlast] at h2
    unfold dayOfTs msPerDay minDay maxDay at *
    omega

end Strict

section Series

variable {d : Dir} {sd sd' : SeriesDir} {m m' : SeriesMeta} {t : RecordType} {u : PartitionUnit}

theorem SeriesOk.strict (h : SeriesOk d sd m) (ht : m.recordType = t)
    (hst : FixedRecord.allowEqualTimestamps t.Row = false) :
    (seriesRows t sd).Pairwise (fun a b => FixedRecord.ts a < FixedRecord.ts b) := by
  subst ht
  rw [seriesRows_eq h.manifest_eq]
  exact (ordered_iff_strict hst).1 h.stored.ordered

/-- Where a row of the series lies. -/
theorem SeriesOk.keyed_row (h : SeriesOk d sd m) (ht : m.recordType = t) {r : t.Row} (hr : r ∈ seriesRows t sd) :
    ∃ c ∈ m.chunks, r ∈ rowsIn t sd c ∧ partitionKey (FixedRecord.ts r) m.unit = .ok c.monthKey := by
  subst ht
  rw [seriesRows_eq h.manifest_eq] at hr
  obtain ⟨c, hc, hrc⟩ := List.mem_flatMap.1 hr
  obtain ⟨name, f, hf, ho, he⟩ := (h.tracked c hc).rowsIn h.filed
  exact ⟨c, hc, hrc, ho.keyed r hrc⟩

theorem SeriesOk.fits_memory (h : SeriesOk d sd m) (ht : m.recordType = t)
    (hst : FixedRecord.allowEqualTimestamps t.Row = false) :
    (seriesRows t sd).length * FixedRecord.byteSize t.Row < u64Bound := by
  have hlen := length_of_inRange (h.strict ht hst) (fun r hr => by
    obtain ⟨c, -, -, hk⟩ := h.keyed_row ht hr
    exact (partitionKey_ok hk).1)
  have hsize : FixedRecord.byteSize t.Row ≤ 64 := by cases t <;> decide
  have hmul := Nat.mul_le_mul (Nat.le_of_lt hlen) hsize
  unfold u64Bound
  omega

/-! ## Reads -/

/-- Every read of the series with the manifest answers with the given rows. -/
structure KlineReads (threads : Nat) (sd : SeriesDir) (m : SeriesMeta) (rows : List KlineRecord) : Prop where
  point : ∀ ts, getAtPrepared klineReadTexts klineValidateHeader sd m ts = .ok (rowAt ts rows)
  range : ∀ s e, getKlineRangePrepared threads sd m s e = .ok (inRange s e rows)
  latest : ∀ n, getKlineLatestNPrepared threads sd m n = .ok (rows.rtake n)

/-- The stored rows decide what the reads answer. -/
theorem Stored.klineReads {rowsOf : ChunkMeta → List KlineRecord} (h : Stored KlineRecord sd m rowsOf)
    (hfit : (m.chunks.flatMap rowsOf).length * FixedRecord.byteSize KlineRecord < u64Bound) (threads : Nat) :
    KlineReads threads sd m (m.chunks.flatMap rowsOf) := by
  refine ⟨fun ts => ?_, fun s e => ?_, fun n => getKlineLatestNPrepared_eq h hfit threads n⟩
  · unfold klineValidateHeader
    exact getAtPrepared_ok h rfl _ _ _ ts
  · have hread := getKlineRange_eq h hfit threads s e
    unfold getKlineRange at hread
    split at hread
    · rename_i hlt
      refine Eq.trans ?_ hread
      unfold getKlineRangePrepared
      simp only
      rw [if_pos hlt]
    · rwa [withMeta_ok h] at hread

/-- **The rows of a kline series decide what its reads answer.** -/
theorem SeriesOk.klineReads (h : SeriesOk d sd m) (ht : m.recordType = .kline) (threads : Nat) :
    KlineReads threads sd m (seriesRows .kline sd) := by
  have hfit := h.fits_memory ht rfl
  rw [seriesRows_eq h.manifest_eq] at hfit ⊢
  exact (rowsIn_kline h ht).klineReads hfit threads

/-- What the reads of a kline series answer where its rows are the given ones. -/
structure KlineAnswers (sd : SeriesDir) (rows : List KlineRecord) : Prop where
  range : ∀ threads s e, getKlineRange threads sd s e = .ok (inRange s e rows)
  point : ∀ ts, getKlineAt sd ts = .ok (rowAt ts rows)
  latest : ∀ threads n, getKlineLatestN threads sd n = .ok (rows.rtake n)

structure ScalarAnswers (sd : SeriesDir) (rows : List ScalarRecord) : Prop where
  range : ∀ threads s e, getScalarRange threads sd s e = .ok (inRange s e rows)
  point : ∀ ts, getScalarAt sd ts = .ok (rowAt ts rows)

theorem SeriesOk.klineAnswers (h : SeriesOk d sd m) (ht : m.recordType = .kline) :
    KlineAnswers sd (seriesRows .kline sd) := by
  have hst := rowsIn_kline h ht
  have hfit := h.fits_memory ht rfl
  rw [seriesRows_eq h.manifest_eq] at hfit ⊢
  refine ⟨fun threads s e => getKlineRange_eq hst hfit threads s e, fun ts => ?_,
    fun threads n => getKlineLatestN_eq hst hfit threads n⟩
  unfold getKlineAt klineValidateHeader
  rw [withMeta_ok hst, getAtPrepared_ok hst rfl]
  rfl

theorem SeriesOk.scalarAnswers (h : SeriesOk d sd m) (ht : m.recordType = .scalar) :
    ScalarAnswers sd (seriesRows .scalar sd) := by
  have hst := rowsIn_scalar h ht
  have hfit := h.fits_memory ht rfl
  rw [seriesRows_eq h.manifest_eq] at hfit ⊢
  refine ⟨fun threads s e => getScalarRange_eq hst threads s e (inRange_fits (R := ScalarRecord) s e hfit),
    fun ts => ?_⟩
  unfold getScalarAt scalarValidateHeader
  rw [withMeta_ok hst, getAtPrepared_ok hst rfl]
  rfl

/-! ## Rows under a write -/

section Entered

variable {kept : List ChunkMeta} {key name : Text} {f : ChunkFile} {rows : List t.Row} {c : ChunkMeta}

/-- **The rows after a write**: those of the entries kept, and those of the new chunk. -/
theorem Entered.mem_rows (w : Entered t u sd m kept key name f rows c m') (h : Fits d sd m)
    (hsup : Supplied sd sd' [(name, f)] m') {r : t.Row} :
    r ∈ m'.chunks.flatMap (rowsIn t sd') ↔ r ∈ kept.flatMap (rowsIn t sd) ∨ r ∈ rows := by
  have hnew : rowsIn t sd' c = rows :=
    rowsIn_eq hsup.filed (hsup.has (name, f) (by simp)) w.laid.entry.path w.laid.file.holds
  have hold : ∀ e ∈ kept, rowsIn t sd' e = rowsIn t sd e := by
    intro e he
    obtain ⟨n, g, -, hg, -, hee⟩ := h.tracked e (w.kept_sublist.subset he)
    exact rowsIn_of_hasChunk h.filed hsup.filed hee.path hg (hsup.kept n g hg ⟨e, w.mem.2 (.inl he), hee.path⟩)
  rw [List.mem_flatMap, List.mem_flatMap]
  constructor
  · rintro ⟨e, he, hr⟩
    rcases w.mem.1 he with hk | rfl
    · exact .inl ⟨e, hk, by rw [← hold e hk]; exact hr⟩
    · exact .inr (by rw [← hnew]; exact hr)
  · rintro (⟨e, he, hr⟩ | hr)
    · exact ⟨e, w.mem.2 (.inl he), by rw [hold e he]; exact hr⟩
    · exact ⟨c, w.mem.2 (.inr rfl), by rw [hnew]; exact hr⟩

end Entered

theorem EntryWrite.mem_seriesRows {env : Env} {s : Store} {key : Text} {rows : List t.Row}
    (w : EntryWrite env d t u (s.dirs d) m m' key rows) (h : Fits d (s.dirs d) m) {r : t.Row} :
    r ∈ seriesRows t ((exec w.steps s).dirs d) ↔ r ∈ w.kept.flatMap (rowsIn t (s.dirs d)) ∨ r ∈ rows := by
  rw [seriesRows_eq (w.final h).manifest]
  exact w.entered.mem_rows h (w.final h).toSupplied

end Series

end FastK
