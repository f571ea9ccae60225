import FastK.Frames
import FastK.Invariants
import FastK.Rows
/-!
# Replacing a month of scalars

A scalar write that is not refused puts its rows in the place of those of their month, and its files in the place of
theirs (`putScalarChunk_replaces`).  What belongs to other months or to other series is left alone, and a write that
ends before its chunk file is there has changed no file at all.
-/
namespace FastK

open Journal

/-- The row lies in the month. -/
def inMonth (month : Text) (r : ScalarRecord) : Bool := decide (monthKey r.ts = .ok month)

/-- The file is one that an entry of the month names. -/
def OfMonth (sd : SeriesDir) (month : Text) (p : Text × FileBody) : Prop :=
  ∃ m, sd.manifest = .current m ∧ ∃ c ∈ m.chunks, c.monthKey = month ∧ chunkRelativePath p.1 ∈ chunkPaths c

/-- What a write leaves that replaces a month of the series at `d`. -/
structure MonthReplaced (d : Dir) (month : Text) (records : List ScalarRecord) (s s' : Store) : Prop where
  before : ∀ m, (s.dirs d).manifest = .current m → ScalarAnswers (s.dirs d) (seriesRows .scalar (s.dirs d))
  after : ScalarAnswers (s'.dirs d) (seriesRows .scalar (s'.dirs d))
  replaced : (seriesRows .scalar (s'.dirs d)).filter (inMonth month) = records
  others : (seriesRows .scalar (s'.dirs d)).filter (fun r =>
    !inMonth month r) = (seriesRows .scalar (s.dirs d)).filter (fun r => !inMonth month r)
  gone : ∀ p ∈ (s'.dirs d).files, ¬ OfMonth (s.dirs d) month p
  kept : ∀ p, ¬ OfMonth (s'.dirs d) month p → (p ∈ (s'.dirs d).files ↔ p ∈ (s.dirs d).files ∧
    ¬ OfMonth (s.dirs d) month p)
  elsewhere : ∀ e, e ≠ d → s'.dirs e = s.dirs e

/-! ## Files -/

/-- A name with a chunk before its last extension is one of a sidecar. -/
theorem isSidecarName_of_parent {name parent : Text} (hn : isChunkName name = false)
    (hp : parentChunkRelativePath (chunkRelativePath name) = .ok parent) : isSidecarName name = true := by
  unfold isSidecarName
  rw [hn]
  refine Text.contains_iff.2 ?_
  unfold parentChunkRelativePath at hp
  cases hs : Text.rsplitOnce '.' (chunkRelativePath name) with
  | none =>
    rw [hs] at hp
    cases hp
  | some pr =>
    obtain ⟨path, ext⟩ := pr
    rw [hs] at hp
    simp only at hp
    have hend : Text.endsWith path chunkSuffix = true := by
      by_contra hne
      rw [if_neg hne] at hp
      cases hp
    obtain ⟨l, rfl⟩ := Text.endsWith_iff.1 hend
    have heq : "chunks/".toList ++ name = l ++ (".chunk.".toList ++ ext) := by
      have := Text.eq_of_rsplitOnce hs
      unfold chunkRelativePath at this
      rw [this]
      simp [chunkSuffix]
    rcases List.append_eq_append_iff.1 heq with ⟨a, rfl, hname⟩ | ⟨a, hpre, hrest⟩
    · exact ⟨a, ext, by rw [hname, List.append_assoc]⟩
    · cases a with
      | nil => exact ⟨[], ext, by rw [List.nil_append] at hrest; rw [← hrest, List.nil_append]⟩
      | cons c a =>
        -- the directory has no dot in its name
        obtain rfl : '.' = c := (List.cons.inj hrest).1
        have hmem : '.' ∈ "chunks/".toList := by
          rw [hpre]
          simp
        exact absurd hmem (by decide)

section Write

variable {env : Env} {d : Dir} {s : Store} {m m' : SeriesMeta} {month : Text} {records : List ScalarRecord}

/-- A write of scalars has removed the files of the entries it does not keep. -/
theorem EntryWrite.gone (w : EntryWrite env d .scalar .month (s.dirs d) m m' month records)
    (hfull : ∀ path, env.removeFails d path = false) {e : ChunkMeta} (he : e ∈ m.chunks) (hk : e ∉ w.kept)
    {p : Text × FileBody} (hp : p ∈ ((exec w.steps s).dirs d).files) :
    chunkRelativePath p.1 ∉ chunkPaths e := by
  intro hpath
  have hcleared := (w.indexed rfl).2 e he hk _ hpath
  unfold EntryWrite.steps commitSteps at hp
  rw [removeSteps_full hfull, exec_append] at hp
  exact (mem_files_removed hp).1 hcleared

/-- What a write of scalars publishes are the files of its entry. -/
theorem EntryWrite.publishes (w : EntryWrite env d .scalar .month (s.dirs d) m m' month records) {name temp : Text}
    {body : FileBody} (hpub : IoStep.publish d name temp body ∈ w.lay) :
    chunkRelativePath name ∈ chunkPaths w.entry := by
  obtain ⟨blockSize, zmap, vix, hsidecars, -, honly⟩ := (w.indexed rfl).1
  have hpath := w.entered.laid.entry.path
  cases w.lays _ hpub with
  | calm hc => cases hc
  | chunk hmem =>
    obtain rfl := (Prod.mk.inj (List.mem_singleton.1 hmem)).1
    rw [← hpath]
    exact List.mem_cons_self
  | sidecar hn hp =>
    obtain ⟨parent, hp⟩ := hp
    refine List.mem_cons_of_mem _ ?_
    rw [hsidecars, mem_indexEntries hpath]
    exact ⟨_, honly name temp body hpub (isSidecarName_of_parent hn hp), rfl⟩

/-- None of these was there before: a chunk of the name would be tracked, and a sidecar belongs to a chunk. -/
theorem EntryWrite.publishes_new (w : EntryWrite env d .scalar .month (s.dirs d) m m' month records)
    (h : Fits d (s.dirs d) m) (ht : m.recordType = .scalar) (hd : Described (s.dirs d) m) {p : Text × FileBody}
    (hp : p ∈ (s.dirs d).files) {temp : Text} {body : FileBody} :
    IoStep.publish d p.1 temp body ∉ w.lay := by
  intro hpub
  have hfresh : (s.dirs d).hasFile w.name = false := w.entered.laid.fresh
  obtain ⟨blockSize, zmap, vix, -, -, honly⟩ := (w.indexed rfl).1
  cases w.lays _ hpub with
  | calm hc => cases hc
  | chunk hmem =>
    rw [← (Prod.mk.inj (List.mem_singleton.1 hmem)).1, hasFile_iff.2 ⟨_, hp⟩] at hfresh
    cases hfresh
  | sidecar hn hpar =>
    obtain ⟨parent, hpar⟩ := hpar
    have hside := isSidecarName_of_parent hn hpar
    have hnew := (indexFiles_name w.entered.laid.file.named.isChunkName (honly p.1 temp body hpub hside)).2
    obtain ⟨c, hc, hpath⟩ := hd.covered ht p hp hside
    obtain ⟨n, g, rows, hg, -, he⟩ := h.tracked c hc
    rcases (hd.indexed ht c hc).paths he.path hg.2 (List.mem_cons_of_mem _ hpath) with hpath | ⟨q, hq, -, hqparent⟩
    · rw [he.path] at hpath
      rw [chunkRelativePath_inj hpath, hg.2] at hn
      cases hn
    · obtain rfl := chunkRelativePath_inj hq
      obtain rfl := chunkRelativePath_inj (Except.ok.inj (hqparent.symm.trans hnew))
      rw [hasFile_iff.2 ⟨_, hg.1⟩] at hfresh
      cases hfresh

/-- **A write of scalars keeps every file that no entry names which it replaces.** -/
theorem EntryWrite.keeps (w : EntryWrite env d .scalar .month (s.dirs d) m m' month records) (h : Fits d (s.dirs d) m)
    (ht : m.recordType = .scalar) (hd : Described (s.dirs d) m) {p : Text × FileBody} (hp : p ∈ (s.dirs d).files)
    (hno : ∀ e ∈ m.chunks, e ∉ w.kept → chunkRelativePath p.1 ∉ chunkPaths e) :
    p ∈ ((exec w.steps s).dirs d).files := by
  refine mem_files_kept hp (fun k hk => ?_)
  unfold EntryWrite.steps commitSteps at hk
  rcases List.mem_append.1 hk with hk | hk
  · rcases List.mem_append.1 hk with hk | hk
    · cases k with
      | publish e name temp body =>
        rintro rfl rfl
        exact absurd hk (w.publishes_new h ht hd hp)
      | removeFile e path => cases w.lays _ hk with | calm hc => cases hc
      | _ => trivial
    · simp only [saveSteps, List.mem_cons, List.not_mem_nil, or_false] at hk
      rcases hk with rfl | rfl <;> trivial
  · obtain ⟨path, hpath, rfl⟩ := List.mem_map.1 hk
    rintro - rfl
    obtain ⟨e, he, hek, hpe⟩ := w.removed _ (List.mem_filter.1 hpath).1
    exact hno e he hek hpe

/-! ## Rows -/

/-- The rows of what a write starts from. -/
theorem seriesRows_base {sd : SeriesDir} (hbase : sd.manifest = .current m ∨ m.chunks = [] ∧ sd.manifest = .missing) :
    seriesRows .scalar sd = m.chunks.flatMap (rowsIn .scalar sd) := by
  rcases hbase with hcur | ⟨hnil, hmiss⟩
  · exact seriesRows_eq hcur
  · unfold seriesRows
    rw [hmiss, hnil]
    rfl

theorem keyed_rows {sd : SeriesDir} (h : Fits d sd m) (ht : m.recordType = .scalar) {c : ChunkMeta}
    (hc : c ∈ m.chunks) {r : ScalarRecord} (hr : r ∈ rowsIn .scalar sd c) : monthKey r.ts = .ok c.monthKey := by
  have htr := h.tracked c hc
  rw [ht, h.head.unit_month (.inr ht)] at htr
  obtain ⟨n, g, -, ho, -⟩ := htr.rowsIn h.filed
  exact ho.keyed r hr

theorem mem_otherRows {sd : SeriesDir} (h : Fits d sd m) (ht : m.recordType = .scalar) {r : RecordType.scalar.Row} :
    r ∈ (otherChunks m month).flatMap (rowsIn .scalar sd) ↔ r ∈ m.chunks.flatMap (rowsIn .scalar sd) ∧
      inMonth month r = false := by
  rw [List.mem_flatMap, List.mem_flatMap]
  constructor
  · rintro ⟨c, hc, hr⟩
    obtain ⟨hcm, hne⟩ := mem_otherChunks.1 hc
    refine ⟨⟨c, hcm, hr⟩, decide_eq_false (fun hk => hne ?_)⟩
    exact Except.ok.inj ((keyed_rows h ht hcm hr).symm.trans hk)
  · rintro ⟨⟨c, hcm, hr⟩, hno⟩
    refine ⟨c, mem_otherChunks.2 ⟨hcm, fun hk => ?_⟩, hr⟩
    exact of_decide_eq_false hno (hk ▸ keyed_rows h ht hcm hr)

/-- **The rows after a write that replaces its month**: those of the month are its own, the others are as they were. -/
theorem EntryWrite.replaces_rows (w : EntryWrite env d .scalar .month (s.dirs d) m m' month records)
    (hkept : w.kept = otherChunks m month) (h : Fits d (s.dirs d) m) (ht : m.recordType = .scalar)
    (hbase : (s.dirs d).manifest = .current m ∨ m.chunks = [] ∧ (s.dirs d).manifest = .missing) :
    (seriesRows .scalar ((exec w.steps s).dirs d)).filter (inMonth month) = records ∧
      (seriesRows .scalar ((exec w.steps s).dirs d)).filter (fun r => !inMonth month r) =
        (seriesRows .scalar (s.dirs d)).filter (fun r => !inMonth month r) := by
  have hok := w.seriesOk h ht (h.head.unit_month (.inr ht)) (w.final h)
  have hstrict := hok.strict (t := .scalar) (w.entered.head.recordType.trans ht) rfl
  have hmem : ∀ r : RecordType.scalar.Row, r ∈ seriesRows .scalar ((exec w.steps s).dirs d) ↔
      (r ∈ m.chunks.flatMap (rowsIn .scalar (s.dirs d)) ∧ inMonth month r = false) ∨ r ∈ records := by
    intro r
    rw [← mem_otherRows h ht, ← hkept]
    exact w.mem_seriesRows h
  have hkeyed : ∀ r ∈ records, inMonth month r = true := fun r hr => decide_eq_true (w.entered.laid.file.keyed r hr)
  constructor
  · refine strict_unique (hstrict.sublist List.filter_sublist)
      ((ordered_iff_strict rfl).1 w.entered.laid.file.holds.ordered) (fun r => ⟨fun hr => ?_, fun hr => ?_⟩)
    · obtain ⟨hrow, hin⟩ := List.mem_filter.1 hr
      rcases (hmem r).1 hrow with ⟨-, hno⟩ | hr
      · rw [hno] at hin
        cases hin
      · exact hr
    · exact List.mem_filter.2 ⟨(hmem r).2 (.inr hr), hkeyed r hr⟩
  · have hold : (seriesRows .scalar (s.dirs d)).Pairwise (fun a b => FixedRecord.ts a < FixedRecord.ts b) := by
      rcases hbase with hcur | ⟨hnil, hmiss⟩
      · have hok₀ : SeriesOk d (s.dirs d) m := ⟨h, hcur⟩
        exact hok₀.strict ht rfl
      · rw [seriesRows_base (.inr ⟨hnil, hmiss⟩), hnil]
        exact List.Pairwise.nil
    rw [seriesRows_base hbase] at hold ⊢
    refine strict_unique (hstrict.sublist List.filter_sublist) (hold.sublist List.filter_sublist) (fun r =>
      ⟨fun hr => ?_, fun hr => ?_⟩)
    · obtain ⟨hrow, hno⟩ := List.mem_filter.1 hr
      rcases (hmem r).1 hrow with ⟨hold, -⟩ | hr
      · exact List.mem_filter.2 ⟨hold, hno⟩
      · rw [hkeyed r hr] at hno
        cases hno
    · obtain ⟨hold, hno⟩ := List.mem_filter.1 hr
      exact List.mem_filter.2 ⟨(hmem r).2 (.inl ⟨hold, by simpa using hno⟩), hno⟩

end Write

/-! ## Before the chunk file -/

/-- The step puts a chunk file at its place. -/
def IoStep.writesChunk : IoStep → Bool
  | .publish _ name _ _ => isChunkName name
  | _ => false

/-- No file changes before a chunk file is written. -/
def ChunkFirst (ks : List IoStep) : Prop := ∀ as, as <+: ks → (∀ k ∈ as, k.writesChunk = false) →
    ∀ k ∈ as, k.calm = true

section First

variable {α β : Type} {p : Op α} {f : α → Op β} {s : Store}

theorem chunkFirst_calm {ks : List IoStep} (h : ∀ k ∈ ks, k.calm = true) : ChunkFirst ks := fun _ has _ k hk =>
    h k (has.subset hk)

/-- Calm steps first. -/
theorem chunkFirst_then (hp : ∀ k ∈ p.trace s, k.calm = true)
    (hf : ∀ a, p.result s = .ok a → ChunkFirst ((f a).trace (p.final s))) :
    ChunkFirst ((p >>= f).trace s) := by
  cases hr : p.result s with
  | error e =>
    rw [Prog.trace_bind_error hr]
    exact chunkFirst_calm hp
  | ok a =>
    rw [Prog.trace_bind_ok hr]
    intro as has hno k hk
    rcases prefix_append_cases has with hpre | ⟨ls, rfl, hls⟩
    · exact hp k (hpre.subset hk)
    · rcases List.mem_append.1 hk with hk | hk
      · exact hp k hk
      · exact hf a hr ls hls (fun l hl => hno l (List.mem_append_right _ hl)) k hk

/-- The chunk file first: what follows it is never reached without it. -/
theorem chunkFirst_bind (hp : ChunkFirst (p.trace s)) (hw : ∀ a, p.result s = .ok a → ∃ k ∈ p.trace s,
      k.writesChunk = true) :
    ChunkFirst ((p >>= f).trace s) := by
  cases hr : p.result s with
  | error e =>
    rw [Prog.trace_bind_error hr]
    exact hp
  | ok a =>
    rw [Prog.trace_bind_ok hr]
    intro as has hno k hk
    rcases prefix_append_cases has with hpre | ⟨ls, rfl, hls⟩
    · exact hp as hpre hno k hk
    · obtain ⟨l, hl, hwrites⟩ := hw a hr
      rw [hno l (List.mem_append_left _ hl)] at hwrites
      cases hwrites

/-- What a program answers with besides writes nothing. -/
theorem chunkFirst_pure {g : α → β} (hp : ChunkFirst (p.trace s)) :
    ChunkFirst ((p >>= fun a => (pure (g a) : Op β)).trace s) := by
  cases hr : p.result s with
  | error e =>
    rw [Prog.trace_bind_error hr]
    exact hp
  | ok a =>
    rw [Prog.trace_bind_ok hr, Prog.trace_pure, List.append_nil]
    exact hp

theorem atomicWriteNew_chunkFirst (env : Env) (d : Dir) {name : Text} (hn : isChunkName name = true) (body : FileBody) :
    ChunkFirst ((atomicWriteNew env d name body).trace s) ∧
      ∀ a, (atomicWriteNew env d name body).result s = .ok a → ∃ k ∈ (atomicWriteNew env d name body).trace s,
        k.writesChunk = true := by
  cases hfile : (s.dirs d).hasFile name with
  | true =>
    unfold Prog.trace Prog.result
    rw [atomicWriteNew_exists hfile]
    refine ⟨chunkFirst_calm (by simp [IoStep.calm]), fun a ha => by cases ha⟩
  | false =>
    unfold Prog.trace Prog.result
    rw [atomicWriteNew_run hfile]
    refine ⟨fun as has hno k hk => ?_, fun _ _ => ⟨_, publish_mem_writeSteps, hn⟩⟩
    have hmem := has.subset hk
    simp only [writeSteps, List.mem_cons, List.not_mem_nil, or_false] at hmem
    rcases hmem with rfl | rfl | rfl
    · rfl
    · rfl
    · exact absurd (hno _ hk) (by simp [IoStep.writesChunk, hn])

/-- **A scalar write changes no file before its chunk file is there.** -/
theorem putScalarChunkLocked_chunkFirst (env : Env) (key : ScalarSeriesKey) (timeframeMs : Int)
    (records : List ScalarRecord) (blockSize : Nat) (cached : Option SeriesMeta) (s : Store) :
    ChunkFirst ((putScalarChunkLocked env key timeframeMs records blockSize cached).trace s) := by
  unfold putScalarChunkLocked
  refine chunkFirst_then (by simp) (fun _ _ => chunkFirst_then (by simp) (fun m _ =>
    chunkFirst_then (by simp) (fun _ _ => ?_)))
  refine chunkFirst_then (by simp) (fun month hmonth => chunkFirst_then (by simp) (fun no hno => ?_))
  refine chunkFirst_then (by simp [IoStep.calm]) (fun _ _ => chunkFirst_then (by simp) (fun fc _ => ?_))
  obtain rfl := Except.ok.inj ((scalarOptions_eq hmonth m).symm.trans hno)
  obtain ⟨hfirst, hwrites⟩ :=
    atomicWriteNew_chunkFirst env key.dir (scalarPlan_plan m month).named.isChunkName (.chunk fc.1)
  exact chunkFirst_bind hfirst hwrites

end First

/-! ## The whole write -/

section Call

variable {C : Nat} {env : Env} {key : ScalarSeriesKey} {timeframeMs : Int} {records : List ScalarRecord}
    {blockSize : Nat} {month : Text} {s t s' : Store}

/-- The write is one that the series takes: records of one month in order, and the timeframe of the series or a name
for a new one. -/
structure PutValid (sd : SeriesDir) (key : ScalarSeriesKey) (timeframeMs : Int) (records : List ScalarRecord)
    (blockSize : Nat) (month : Text) : Prop where
  timeframe_pos : 0 < timeframeMs
  block_pos : 0 < blockSize
  ordered : Ordered records
  nonempty : records ≠ []
  keyed : ∀ r ∈ records, monthKey r.ts = .ok month
  timeframe : ∀ m, sd.manifest = .current m → m.timeframeMs = timeframeMs
  named : sd.manifest = .missing → key.isBlank = false

theorem MonthReplaced.of_dirs {d : Dir} (h : MonthReplaced d month records t s') (hd : ∀ e, t.dirs e = s.dirs e) :
    MonthReplaced d month records s s' := by
  obtain ⟨before, after, replaced, others, gone, kept, elsewhere⟩ := h
  rw [hd d] at before others gone kept
  exact ⟨before, after, replaced, others, gone, kept, fun e he => (elsewhere e he).trans (hd e)⟩

/-- **The chunk in place of its month's** leaves the other months, and their files. -/
theorem ScalarWritten.replaces {m : SeriesMeta} {r : List IoStep × Except FastKError SeriesMeta}
    (h : ScalarWritten env key s m month records r) (hm : GoodSeries C key.dir (s.dirs key.dir) m)
    (ht : m.recordType = .scalar) (hbase : (s.dirs key.dir).manifest = .current m ∨ m.chunks = [] ∧
      (s.dirs key.dir).manifest = .missing) (hfull : env.Faultless)
    (helse : ∀ e, e ≠ key.dir → (exec r.1 s).dirs e = s.dirs e) :
    MonthReplaced key.dir month records s (exec r.1 s) := by
  obtain ⟨m', w, hkept, rfl⟩ := h
  have hu := hm.fits.head.unit_month (.inr ht)
  have hok := w.seriesOk hm.fits ht hu (w.final hm.fits)
  obtain ⟨hmonth, hothers⟩ := w.replaces_rows hkept hm.fits ht hbase
  have hentry : ∀ m₀, (s.dirs key.dir).manifest = .current m₀ → m = m₀ := by
    intro m₀ hm₀
    rcases hbase with hcur | ⟨-, hmiss⟩
    · exact ManifestFile.current.inj (hcur.symm.trans hm₀)
    · rw [hmiss] at hm₀
      cases hm₀
  have hgone : ∀ p ∈ ((exec w.steps s).dirs key.dir).files, ¬ OfMonth (s.dirs key.dir) month p := by
    rintro p hp ⟨m₀, hm₀, c, hc, hck, hpath⟩
    obtain rfl := hentry m₀ hm₀
    refine w.gone (hfull key.dir) hc (fun hk => ?_) hp hpath
    rw [hkept] at hk
    exact (mem_otherChunks.1 hk).2 hck
  refine ⟨fun m₀ hm₀ => ?_, ?_, ?_, ?_, ?_, fun p hno => ⟨fun hp => ?_, fun hp => ?_⟩, helse⟩
  · obtain rfl := hentry m₀ hm₀
    exact (hm.seriesOk hm₀).scalarAnswers ht
  all_goals simp only [exec_disarm_dirs] at *
  · exact hok.scalarAnswers (w.entered.head.recordType.trans ht)
  · exact hmonth
  · exact hothers
  · exact hgone
  · refine ⟨?_, hgone p hp⟩
    rcases mem_files_exec hp with hold | ⟨temp, hpub⟩
    · exact hold
    · have hlay : IoStep.publish key.dir p.1 temp p.2 ∈ w.lay := by
        unfold EntryWrite.steps commitSteps at hpub
        simpa [saveSteps, removeSteps] using hpub
      exact absurd ⟨m', hok.manifest_eq, w.entry, w.entered.mem.2 (.inr rfl), w.entered.laid.monthKey,
        w.publishes hlay⟩ hno
  · refine w.keeps hm.fits ht hm.described hp.1 (fun e he hek hpath => hp.2 ?_)
    rcases hbase with hcur | ⟨hnil, -⟩
    · rw [hkept] at hek
      exact ⟨m, hcur, e, he, not_mem_otherChunks he hek, hpath⟩
    · rw [hnil] at he
      cases he

/-- A manifest saved under the names of the call is the one that its handle goes on with. -/
theorem ScalarWritten.refreshes {m : SeriesMeta} {r : List IoStep × Except FastKError SeriesMeta}
    (h : ScalarWritten env key s m month records r) (hm : GoodSeries C key.dir (s.dirs key.dir) m)
    (ht : m.recordType = .scalar) :
    ∃ cached m', r.2 = .ok cached ∧ ((exec r.1 s).dirs key.dir).manifest = .current m' ∧
      (seriesCacheKey m'.symbol m'.category m'.name = seriesCacheKey key.symbol key.category key.name →
        cached = m') := by
  obtain ⟨m', w, -, rfl⟩ := h
  have hok := w.seriesOk hm.fits ht (hm.fits.head.unit_month (.inr ht)) (w.final hm.fits)
  refine ⟨_, m', rfl, ?_, fun hkey => ?_⟩
  · rw [exec_disarm_dirs]
    exact hok.manifest_eq
  · unfold refreshed
    rw [if_pos hkey]

/-- What a scalar write runs once it holds the lock. -/
theorem putScalarChunk_ok {u : Unit} (h : (putScalarChunk env key timeframeMs records blockSize).result s = .ok u) :
    checkScalarWrite timeframeMs blockSize = .ok () ∧ validateMonthRecords records = .ok () := by
  unfold putScalarChunk at h
  obtain ⟨_, hcheck, h⟩ := Prog.result_bind_eq_ok.1 h
  obtain ⟨_, hvalid, -⟩ := Prog.result_bind_eq_ok.1 h
  exact ⟨hcheck, hvalid⟩

/-- Where the checks pass, the write goes on from the store that recovery leaves. -/
theorem putScalarChunk_locked (env : Env) (hg : GoodStore C s)
    (hcheck : checkScalarWrite timeframeMs blockSize = .ok ()) (hvalid : validateMonthRecords records = .ok ()) :
    ∃ t, t = (beginMutation env).final s ∧ GoodStore C t ∧ (∀ e, t.dirs e = s.dirs e) ∧
      ((putScalarChunk env key timeframeMs records blockSize).result s =
        ((putScalarChunkLocked env key timeframeMs records blockSize none).result t).map (fun _ => ())) ∧
      (putScalarChunk env key timeframeMs records blockSize).final s =
        (putScalarChunkLocked env key timeframeMs records blockSize none).final t := by
  obtain ⟨hres, hgood, hdirs⟩ := beginMutation_good hg env
  refine ⟨(beginMutation env).final s, rfl, hgood, hdirs, ?_⟩
  unfold putScalarChunk
  rw [hcheck, Prog.lift_ok_bind, hvalid, Prog.lift_ok_bind, Prog.result_bind_ok hres, Prog.final_bind_ok hres]
  cases hl : (putScalarChunkLocked env key timeframeMs records blockSize none).result ((beginMutation env).final s) with
  | error e => exact ⟨Prog.result_bind_error hl _, Prog.final_bind_error hl _⟩
  | ok m => exact ⟨Prog.result_bind_ok hl _, Prog.final_bind_ok hl _⟩

theorem putScalarChunk_chunkFirst (hg : GoodStore C s) (env : Env) (key : ScalarSeriesKey) (timeframeMs : Int)
    (records : List ScalarRecord) (blockSize : Nat) :
    ChunkFirst ((putScalarChunk env key timeframeMs records blockSize).trace s) := by
  obtain ⟨tr, hrun, hquiet⟩ := hg.begin env
  have hbegin : ∀ k ∈ (beginMutation env).trace s, k.calm = true := by
    rw [Prog.trace_of_run hrun]
    intro k hk
    rcases hquiet k hk with rfl | rfl
    · rfl
    · rfl
  unfold putScalarChunk
  refine chunkFirst_then (by simp) (fun _ _ => chunkFirst_then (by simp) (fun _ _ =>
    chunkFirst_then hbegin (fun _ _ => ?_)))
  exact chunkFirst_pure (putScalarChunkLocked_chunkFirst env key timeframeMs records blockSize none _)

/-- **A valid scalar write is not refused.** -/
theorem putScalarChunk_accepts (hg : GoodStore C s) (hroom : s.HasRoom) (ht : OfType .scalar (s.dirs key.dir))
    (hv : PutValid (s.dirs key.dir) key timeframeMs records blockSize month) :
    (putScalarChunk env key timeframeMs records blockSize).result s = .ok () := by
  have hcheck : checkScalarWrite timeframeMs blockSize = .ok () := by
    have h1 := hv.timeframe_pos
    have h2 := hv.block_pos
    unfold checkScalarWrite
    rw [if_neg (by omega)]
  have hvalid : validateMonthRecords records = .ok () := by
    unfold validateMonthRecords
    rw [validateStrictOrder_eq_ok.2 ⟨hv.nonempty, hv.ordered⟩, singleMonth_ok hv.nonempty hv.keyed]
    rfl
  obtain ⟨t, -, hgt, hdirs, hres, -⟩ := putScalarChunk_locked env (hg.of_room hroom) hcheck hvalid
  have hready := hgt.scalarReady (by rw [hdirs]; exact ht) (by rw [hdirs]; exact hv.named)
  obtain ⟨r, hr, hfirst⟩ := exists_firstTs hv.nonempty
  have hmonth : monthKey (firstTs records) = .ok month := by
    rw [← hfirst]
    exact hv.keyed r hr
  have hmeta : ∃ m, scalarManifest env.now key timeframeMs none (t.dirs key.dir) = .ok m := by
    cases hready with
    | new hmiss hf hb hc => exact ⟨_, scalarManifest_new key timeframeMs none hmiss env.now⟩
    | @series m h _ hc =>
      refine ⟨m, ?_⟩
      rw [scalarManifest_series h hc, if_neg (not_not.2 (hv.timeframe m ?_))]
      rw [← hdirs]
      exact h.manifest_eq
  obtain ⟨m, hm⟩ := hmeta
  obtain ⟨hgm, hbase⟩ := hready.good hgt hm
  have hplan := scalarPlan_plan m month
  obtain ⟨⟨f, c⟩, hchunk⟩ := scalarChunk_ok (m := m) (scalarPlan m month).2 hv.ordered hv.nonempty hv.keyed
  have hfree : (t.dirs key.dir).hasFile (scalarPlan m month).1 = false := by
    have hkeyed : partitionKey r.ts .month = .ok month := hv.keyed r hr
    have hbound : KeyBound m month (u32Max - 3) := fun c hc _ => hgm.bound c hc
    refine hgm.fresh hbound (by decide) (isKey_of_partitionKey hkeyed) ?_
    rw [← hplan.generation]
    exact hplan.named
  obtain ⟨m', w, -, hrun⟩ := putScalarChunkLocked_enters env blockSize hm hgm.fits (hready.fits hm).2
    (by unfold nonEmpty; rw [if_neg (by simpa using hv.nonempty)]) hmonth hchunk hfree
  rw [hres, Prog.result_of_run hrun]
  rfl

/-- What an accepted scalar write has done, from the store that recovery leaves. -/
theorem putScalarChunk_written (hg : GoodStore C s) (ht : OfType .scalar (s.dirs key.dir))
    (hok : (putScalarChunk env key timeframeMs records blockSize).result s = .ok ()) :
    ∃ m month, monthKey (firstTs records) = .ok month ∧
      GoodSeries C key.dir (((beginMutation env).final s).dirs key.dir) m ∧ m.recordType = .scalar ∧
      ((((beginMutation env).final s).dirs key.dir).manifest = .current m ∨
        m.chunks = [] ∧ (((beginMutation env).final s).dirs key.dir).manifest = .missing) ∧
      ScalarWritten env key ((beginMutation env).final s) m month records
        (putScalarChunkLocked env key timeframeMs records blockSize none ((beginMutation env).final s)) ∧
      (∀ e, ((beginMutation env).final s).dirs e = s.dirs e) ∧
      (putScalarChunk env key timeframeMs records blockSize).final s =
        (putScalarChunkLocked env key timeframeMs records blockSize none).final ((beginMutation env).final s) ∧
      ∀ e, e ≠ key.dir → ((putScalarChunk env key timeframeMs records blockSize).final s).dirs e = s.dirs e := by
  obtain ⟨hcheck, hvalid⟩ := putScalarChunk_ok hok
  obtain ⟨t, rfl, hgt, hdirs, hres, hfin⟩ := putScalarChunk_locked env hg hcheck hvalid
  have hnamed : (Call.putScalar key timeframeMs records blockSize).Named s := Call.run_named hg hok
  have hready := hgt.scalarReady (by rw [hdirs]; exact ht) (by rw [hdirs]; exact hnamed)
  obtain ⟨m₀, -, hwithin⟩ := Call.run_within (c := .putScalar key timeframeMs records blockSize) hg ht rfl env
  rcases putScalarChunkLocked_run env timeframeMs records blockSize (fun m hm => hready.fits hm) with href |
    ⟨m, month, hm, hmonth, hw⟩
  · obtain ⟨err, herr⟩ := href.1
    rw [hres, show (putScalarChunkLocked env key timeframeMs records blockSize none).result _ = .error err from herr]
      at hok
    cases hok
  · obtain ⟨hgm, hbase⟩ := hready.good hgt hm
    exact ⟨m, month, hmonth, hgm, (hready.fits hm).2, hbase, hw, hdirs, hfin, fun e he => exec_within hwithin he s⟩

/-- **In every store that calls reach, a scalar write replaces its month and nothing else**: a valid one is not
refused; afterwards the month holds its records, the rows and the files of other months and of other series are as
they were, and the old files of the month are gone; its handle goes on with the manifest that is there, if the call
used the names of the series; and one that ends, or is stopped, before its chunk file is there has changed no file. -/
theorem putScalarChunk_replaces {root : Dir} {n : Nat} (h : Run root HealthyPlain n s) (hfull : env.Faultless)
    (_ : key.GoesDown) (ht : OfType .scalar (s.dirs key.dir)) (timeframeMs : Int) (records : List ScalarRecord)
    (blockSize : Nat) :
    (∀ month, s.HasRoom → PutValid (s.dirs key.dir) key timeframeMs records blockSize month →
      (putScalarChunk env key timeframeMs records blockSize).result s = .ok ()) ∧
    (∀ month, monthKey (firstTs records) = .ok month →
      (putScalarChunk env key timeframeMs records blockSize).result s = .ok () →
      MonthReplaced key.dir month records s ((putScalarChunk env key timeframeMs records blockSize).final s)) ∧
    ((putScalarChunk env key timeframeMs records blockSize).result s = .ok () →
      ∃ cached m', (putScalarChunkLocked env key timeframeMs records blockSize none).result
        ((beginMutation env).final s) = .ok cached ∧
        (((putScalarChunk env key timeframeMs records blockSize).final s).dirs key.dir).manifest = .current m' ∧
        (seriesCacheKey m'.symbol m'.category m'.name = seriesCacheKey key.symbol key.category key.name →
          cached = m')) ∧
    ∀ ks, ks <+: (putScalarChunk env key timeframeMs records blockSize).trace s → (∀ k ∈ ks, k.writesChunk = false) →
      ∀ e, SameContent (s.dirs e) ((exec ks s).dirs e) := by
  obtain ⟨C, hg⟩ := h.unplain.healthy
  have hwritten := fun hok : (putScalarChunk env key timeframeMs records blockSize).result s = .ok () =>
    putScalarChunk_written hg ht hok
  refine ⟨fun month hroom hv => putScalarChunk_accepts hg hroom ht hv, fun month hmonth hok => ?_, fun hok => ?_,
    fun ks hks hno e => ?_⟩
  · obtain ⟨m, month', hmonth', hgm, ht', hbase, hw, hdirs, hfin, helse⟩ := hwritten hok
    obtain rfl : month' = month := Except.ok.inj (hmonth'.symm.trans hmonth)
    rw [hfin] at helse ⊢
    exact (hw.replaces hgm ht' hbase hfull (fun e he => (helse e he).trans (hdirs e).symm)).of_dirs hdirs
  · obtain ⟨m, month', -, hgm, ht', -, hw, -, hfin, -⟩ := hwritten hok
    rw [hfin]
    exact hw.refreshes hgm ht'
  · exact exec_calm (putScalarChunk_chunkFirst hg env key timeframeMs records blockSize ks hks hno) s e

end Call

/-! ## Samples -/

def sampleScalarKey : ScalarSeriesKey := ⟨"S", "c", "n"⟩

def sampleJanuaryRows : List ScalarRecord := [⟨0, ⟨9, by decide⟩⟩, ⟨60000, ⟨9, by decide⟩⟩]

def sampleFebruaryRows : List ScalarRecord := [⟨3456000000, ⟨9, by decide⟩⟩]

def sampleReplacement : List ScalarRecord := [⟨120000, ⟨9, by decide⟩⟩]

/-- A scalar series with two months. -/
def sampleScalarCalls : List Call :=
  [.registerScalar sampleScalarKey 60000, .putScalar sampleScalarKey 60000 sampleJanuaryRows 1,
    .putScalar sampleScalarKey 60000 sampleFebruaryRows 1]

def sampleScalarMonths : Store := runCalls (Env.plain 5) sampleScalarCalls (Store.empty [])

theorem sampleScalarMonths_run : Run [] HealthyPlain 3 sampleScalarMonths := by
  have hok : CallsOk (Env.plain 5) (fun env c s => env.Faultless ∧ c.Regular s) sampleScalarCalls (Store.empty []) := by
    refine ⟨⟨plain_faultless 5, trivial, trivial, trivial, trivial⟩,
      ⟨plain_faultless 5, ?_, fun _ => by decide, trivial, trivial⟩,
      ⟨plain_faultless 5, ?_, fun _ => by decide, trivial, trivial⟩, trivial⟩
    · show OfType .scalar _
      decide +kernel
    · show OfType .scalar _
      decide +kernel
  exact runCalls_plain (by decide +kernel) (by decide) hok

theorem isOk_eq {r : Except FastKError Unit} (h : r.isOk = true) : r = .ok () := by
  cases r with
  | error e => cases h
  | ok u => rfl

/-- January is replaced, and February is left alone. -/
theorem putScalarChunk_replaces_sample :
    MonthReplaced sampleScalarKey.dir "1970-01".toList sampleReplacement sampleScalarMonths
      ((putScalarChunk (Env.plain 6) sampleScalarKey 60000 sampleReplacement 1).final sampleScalarMonths) ∧
    (seriesRows .scalar (sampleScalarMonths.dirs sampleScalarKey.dir)).length = 3 := by
  have htype : OfType .scalar (sampleScalarMonths.dirs sampleScalarKey.dir) := by decide +kernel
  have hres : ((putScalarChunk (Env.plain 6) sampleScalarKey 60000 sampleReplacement 1).result
    sampleScalarMonths).isOk = true := by decide +kernel
  have hmonth : monthKey (firstTs sampleReplacement) = .ok "1970-01".toList := by decide +kernel
  have hall := putScalarChunk_replaces sampleScalarMonths_run (plain_faultless 6) (by decide +kernel) htype 60000
    sampleReplacement 1
  exact ⟨hall.2.1 _ hmonth (isOk_eq hres), by decide +kernel⟩

/-- The names a series was registered under, and those of the directory it shares with them. -/
def sampleSharedKey : ScalarSeriesKey := ⟨"S", "x/y", "z"⟩

/-- A range was appended under the other names, which lost its first month, and a merge has failed. -/
def sampleOrphaned : Store := runCalls (Env.plain 5) (sampleAliasCalls.take 3) (Store.empty [])

/-- The write begins with a recovery that takes the lost month up again. -/
theorem replacement_restores : ¬ ∀ (root : Dir) (n : Nat) (s : Store), Run root (fun env _ _ => env.Faultless) n s →
    ∀ env : Env, env.Faultless →
    ∀ key : ScalarSeriesKey, OfType .scalar (s.dirs key.dir) → ∀ timeframeMs records blockSize month,
      monthKey (firstTs records) = .ok month →
      (putScalarChunk env key timeframeMs records blockSize).result s = .ok () →
      MonthReplaced key.dir month records s ((putScalarChunk env key timeframeMs records blockSize).final s) := by
  intro h
  have hok : CallsOk (Env.plain 5) (fun env _ _ => env.Faultless) (sampleAliasCalls.take 3) (Store.empty []) :=
    ⟨plain_faultless 5, plain_faultless 5, plain_faultless 5, trivial⟩
  have hrun : Run [] (fun env _ _ => env.Faultless) 3 sampleOrphaned := Run.start.calls hok
  have htype : OfType .scalar (sampleOrphaned.dirs sampleSharedKey.dir) := by decide +kernel
  have hres : ((putScalarChunk (Env.plain 6) sampleSharedKey 60000 sampleFebruaryRows 1).result sampleOrphaned).isOk =
    true := by decide +kernel
  have hmonth : monthKey (firstTs sampleFebruaryRows) = .ok "1970-02".toList := by decide +kernel
  have hreplaced := h [] 3 sampleOrphaned hrun (Env.plain 6) (plain_faultless 6) sampleSharedKey htype 60000
    sampleFebruaryRows 1 _ hmonth (isOk_eq hres)
  have hbefore : ((seriesRows .scalar (sampleOrphaned.dirs sampleSharedKey.dir)).filter (fun r =>
    !inMonth "1970-02".toList r)).length = 0 := by
    decide +kernel
  have hafter : ((seriesRows .scalar
    (((putScalarChunk (Env.plain 6) sampleSharedKey 60000 sampleFebruaryRows 1).final sampleOrphaned).dirs
      sampleSharedKey.dir)).filter (fun r => !inMonth "1970-02".toList r)).length = 1 := by decide +kernel
  have hothers := congrArg List.length hreplaced.others
  rw [hafter, hbefore] at hothers
  cases hothers

end FastK
