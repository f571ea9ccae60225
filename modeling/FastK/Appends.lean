import FastK.Handles
/-!
# Range appends

A range append writes its months one after another and stops at the first that is refused.  In a store in order no
month is refused once the checks before the first one have passed (`writeMonths_accepts`): what a month's write checks
again, it checks against entries of its own month, and the months before it have left these alone.  So a range append
writes all of its records or nothing (`range_appends_all_or_nothing`), and a list may be appended in any pieces
(`kline_pieces_independent`, `scalar_pieces_independent`).
-/
namespace FastK

open Journal Spans

/-! ## One month -/

/-- What the write of a month leaves that is not refused: the rows of the month beside those there were, and the
manifest that is saved for the next month. -/
structure MonthWritten (t : RecordType) (d : Dir) (callKey : Text) (B : Nat) (month : Text) (rows : List t.Row)
    (p : Op SeriesMeta) (s : Store) (m m' : SeriesMeta) : Prop where
  result : p.result s = .ok (refreshed callKey m m')
  manifest : ((p.final s).dirs d).manifest = .current m'
  bound : KeyBound m' month (B + 2)
  mem_rows : ∀ x, x ∈ seriesRows t ((p.final s).dirs d) ↔ x ∈ seriesRows t (s.dirs d) ∨ x ∈ rows
  elsewhere : ∀ e, e ≠ d → SameContent (s.dirs e) ((p.final s).dirs e)

section Month

variable {env : Env} {C B : Nat} {d : Dir} {s : Store} {m m' : SeriesMeta} {month : Text}

theorem KeyBound.mono {D : Nat} (h : KeyBound m month B) (hBD : B ≤ D) : KeyBound m month D :=
  fun c hc hk => le_trans (h c hc hk) hBD

theorem Merged.keyBound {sd sd' : SeriesDir} (w : Merged sd sd' m m' month) (hb : KeyBound m month B) :
    KeyBound m' month (B + 1) := by
  cases w with
  | same hlen hm hs =>
    subst hm
    exact hb.mono (Nat.le_succ B)
  | replaced hlen w hstate hcom =>
    intro e he hk
    rcases w.mem.1 he with he | rfl
    · exact absurd hk (mem_otherChunks.1 he).2
    · rw [w.laid.generation]
      exact hb.next_le

/-- A merge leaves the other series alone. -/
theorem mergeKlineMonthLocked_elsewhere {symbol timeframe : Text} (env : Env) (key : Text)
    (h : SeriesOk d (s.dirs d) m) (ht : m.recordType = .kline) (hd : klineSeriesDir symbol timeframe = d) {e : Dir}
    (he : e ≠ d) :
    SameContent (s.dirs e) (((mergeKlineMonthLocked env symbol timeframe key m).final s).dirs e) := by
  unfold Prog.final Prog.trace
  rcases mergeKlineMonthLocked_run env key h ht hd with ⟨-, hrun⟩ | ⟨-, -, hcalm⟩ | ⟨-, -, hrun⟩ |
    ⟨-, m', w, -, -, -, -, hrun⟩
  · rw [hrun]
    exact .refl _
  · exact exec_calm hcalm s e
  · rw [hrun]
    refine exec_other (fun k hk => ?_) he s
    rcases List.mem_append.1 hk with hk | hk
    · exact saveSteps_on _ k hk
    · rw [List.mem_singleton.1 hk]
      rfl
  · rw [hrun]
    refine exec_other (fun k hk => ?_) he s
    rcases List.mem_append.1 hk with hk | hk
    · exact saveSteps_on _ k hk
    · exact w.steps_on k hk

/-- **A month of klines after those there are is written**, with or without the merge that follows it. -/
theorem putKlineChunkLocked_accepts {policy : CompactionPolicy} {symbol timeframe : Text} {records : List KlineRecord}
    (hg : GoodStore C s) (hm : (s.dirs (klineSeriesDir symbol timeframe)).manifest = .current m)
    (ht : m.recordType = .kline) (hb : KeyBound m month B) (hB : B + 2 ≤ C) (hsat : B + 1 < u32Max)
    (hfull : env.Faultless) (ho : Ordered records) (hp : Piece .month (month, records))
    (hafter : ∀ e ∈ m.chunks, e.monthKey = month → e.endTs < firstTs records) :
    ∃ m', MonthWritten .kline (klineSeriesDir symbol timeframe)
    (seriesCacheKey symbol klineCategory timeframe) B month records
      (putKlineChunkLocked env policy symbol timeframe records (some m)) s m m' := by
  have hgm := (hg.dir _).of_current hm
  have hk := hgm.klineSeries hm ht
  obtain ⟨r, hr⟩ := List.exists_mem_of_ne_nil _ hp.1
  have hkey : IsKey month := isKey_of_partitionKey (hp.2 r hr)
  obtain ⟨m₁, w, hkept, hrun⟩ := writeKlineChunk_accepts env hk.toSeriesOk ht rfl (.inr rfl) ho hp.1 hp.2 hafter
    (fun name hn => hgm.fresh hb (by omega) hkey hn)
  obtain ⟨hadv, hm₁⟩ :=
    w.advanced hg hgm (.inl hm) ht (hgm.fits.head.unit_month (.inl ht)) hb (by omega) (by omega) hfull
  have hk₁ := ((hadv.good.dir _).of_current hm₁).klineSeries hm₁ (w.entered.head.recordType.trans ht)
  have hrows : ∀ x, x ∈ seriesRows .kline ((exec w.steps s).dirs (klineSeriesDir symbol timeframe)) ↔
      x ∈ seriesRows .kline (s.dirs (klineSeriesDir symbol timeframe)) ∨ x ∈ records := by
    intro x
    rw [seriesRows_eq hm, ← hkept]
    exact w.mem_seriesRows hgm.fits
  rw [putKlineChunkLocked_eq]
  cases hdue : mergeDue policy m₁ month with
  | false =>
    have hall : (writeKlineChunk env symbol timeframe records (some m) >>= compactKlineChunk env policy symbol
      timeframe) s =
        (w.steps ++ [.disarm], .ok (refreshed (seriesCacheKey symbol klineCategory timeframe) m m₁)) := by
      rw [Prog.bind_run hrun]
      unfold compactKlineChunk
      simp only
      rw [hdue]
      rfl
    refine ⟨m₁, ?_, ?_, (w.keyBound hb).mono (Nat.le_succ _), fun x => ?_, fun e he => ?_⟩
    · exact Prog.result_of_run hall
    all_goals rw [Prog.final_of_run hall, exec_disarm_dirs]
    · exact hm₁
    · exact hrows x
    · exact exec_other w.steps_on he s
  | true =>
    obtain ⟨m₂, hmerge⟩ :=
      mergeKlineMonthLocked_answers env month ((hadv.good.dir _).of_current hm₁) hm₁ hk₁.kline rfl
      (w.keyBound hb) hsat
    obtain ⟨-, hsaved⟩ := mergeKlineMonthLocked_good month hadv.good hm₁ hk₁.kline rfl (w.keyBound hb)
      (fun _ => hB) hsat hfull
    have v := mergeKlineMonthLocked_merged hk₁.toSeriesOk hk₁.kline rfl hmerge
    have hmrun : mergeKlineMonthLocked env symbol timeframe month m₁ (exec w.steps s) = (_, .ok m₂) :=
      Prod.ext rfl hmerge
    have hall : (writeKlineChunk env symbol timeframe records (some m) >>= compactKlineChunk env policy symbol
      timeframe) s =
        (w.steps ++ (mergeKlineMonthLocked env symbol timeframe month m₁ (exec w.steps s)).1 ++ [.disarm],
          .ok (refreshed (seriesCacheKey symbol klineCategory timeframe) m m₂)) := by
      rw [Prog.bind_run hrun]
      unfold compactKlineChunk
      simp only
      rw [hdue, if_pos rfl, Prog.bind_run hmrun, List.append_assoc]
      rfl
    refine ⟨m₂, ?_, ?_, v.keyBound (w.keyBound hb), fun x => ?_, fun e he => ?_⟩
    · exact Prog.result_of_run hall
    all_goals rw [Prog.final_of_run hall, exec_disarm_dirs, exec_append]
    · exact hsaved m₂ hmerge
    · exact (iff_of_eq (congrArg (fun rows => x ∈ rows) (v.seriesRows hk₁))).trans (hrows x)
    · exact (exec_other w.steps_on he s).trans (mergeKlineMonthLocked_elsewhere env month hk₁.toSeriesOk
        hk₁.kline rfl he)

/-- **A month of scalars after those there are is written.** -/
theorem appendScalarChunkLocked_writes {key : ScalarSeriesKey} {timeframeMs : Int} {records : List ScalarRecord}
    {blockSize : Nat} (hg : GoodStore C s) (hm : (s.dirs key.dir).manifest = .current m) (ht : m.recordType = .scalar)
    (htf : m.timeframeMs = timeframeMs) (hb : KeyBound m month B) (hB : B + 2 ≤ C) (hsat : B + 1 < u32Max)
    (hfull : env.Faultless) (ho : Ordered records) (hp : Piece .month (month, records))
    (hafter : ∀ e ∈ m.chunks, e.monthKey = month → e.endTs < firstTs records) :
    ∃ m', MonthWritten .scalar key.dir (seriesCacheKey key.symbol key.category key.name) B month records
      (appendScalarChunkLocked env key timeframeMs records blockSize (some m)) s m m' := by
  have hgm := (hg.dir _).of_current hm
  have hok := hgm.seriesOk hm
  obtain ⟨r, hr⟩ := List.exists_mem_of_ne_nil _ hp.1
  have hkey : IsKey month := isKey_of_partitionKey (hp.2 r hr)
  have hbefore : ∀ x ∈ storedMonth (s.dirs key.dir) m month, x.ts < firstTs records := by
    intro x hx
    obtain ⟨c, hc, hxc⟩ := List.mem_flatMap.1 hx
    obtain ⟨hcm, hck⟩ := mem_chunksForPartition.1 hc
    exact lt_of_le_of_lt ((rowsIn_scalar hok ht).bounds hcm hxc).2 (hafter c hcm hck)
  obtain ⟨m₁, w, hkept, hall⟩ := appendScalarChunkLocked_accepts env blockSize hok ht (.inr rfl)
    hgm.readable htf ho hp.1 hp.2 hbefore (fun name hn => hgm.fresh hb (by omega) hkey hn)
  obtain ⟨hadv, hm₁⟩ :=
    w.advanced hg hgm (.inl hm) ht (hgm.fits.head.unit_month (.inr ht)) hb (by omega) (by omega) hfull
  refine ⟨m₁, ?_, ?_, (w.keyBound hb).mono (Nat.le_succ _), fun x => ?_, fun e he => ?_⟩
  · exact Prog.result_of_run hall
  all_goals rw [Prog.final_of_run hall, exec_disarm_dirs]
  · exact hm₁
  · rw [seriesRows_eq hm]
    refine (w.mem_seriesRows hgm.fits).trans ?_
    rw [hkept]
    exact ((or_congr_right List.mem_append).trans or_assoc.symm).trans (or_congr_left mem_partition_or_other.symm)
  · exact exec_other w.steps_on he s

end Month

/-! ## All months -/

/-- What a range append leaves: the records beside the rows there were. -/
structure RangeWritten (C B : Nat) (t : RecordType) (d : Dir) (records : List t.Row) (s s' : Store)
    (m m' : SeriesMeta) : Prop where
  good : GoodStore C s'
  manifest : (s'.dirs d).manifest = .current m'
  head : m.SameHead m'
  bound : ∀ c ∈ m'.chunks, c ∈ m.chunks ∨ c.generation ≤ B + 2
  mem_rows : ∀ x, x ∈ seriesRows t (s'.dirs d) ↔ x ∈ seriesRows t (s.dirs d) ∨ x ∈ records
  elsewhere : ∀ e, e ≠ d → SameContent (s.dirs e) (s'.dirs e)

/-- The write of a month that comes after what its month holds is accepted and leaves the store in order. -/
def Accepts (C B : Nat) (t : RecordType) (d : Dir) (callKey : Text) (m : SeriesMeta)
    (write : List t.Row → Option SeriesMeta → Op SeriesMeta) : Prop :=
  ∀ s m₁ month rows, GoodStore C s → (s.dirs d).manifest = .current m₁ → m.SameHead m₁ → Piece .month (month, rows) →
    Ordered rows →
    KeyBound m₁ month B → (∀ e ∈ m₁.chunks, e.monthKey = month → e.endTs < firstTs rows) →
    MonthAdvanced C d callKey (firstTs rows) s (write rows (some m₁) s) ∧
      ∃ m', MonthWritten t d callKey B month rows (write rows (some m₁)) s m₁ m'

/-- **The months of a range are all written**, where each comes after the entries of its month: the months before it
have left these alone. -/
theorem writeMonths_accepts {C B : Nat} {t : RecordType} {d : Dir} {callKey : Text} {m₀ : SeriesMeta}
    {write : List t.Row → Option SeriesMeta → Op SeriesMeta} (hw : Accepts C B t d callKey m₀ write) :
    ∀ (months : List (Text × List t.Row)) (completed : List Text) {s : Store} {m : SeriesMeta}, GoodStore C s →
      (s.dirs d).manifest = .current m →
      m₀.SameHead m → seriesCacheKey m.symbol m.category m.name = callKey ∨ months.length ≤ 1 →
        (∀ b ∈ months, Piece .month b) →
      (∀ b ∈ months, Ordered b.2) → months.Pairwise (fun a b => a.1 ≠ b.1) → (∀ b ∈ months, KeyBound m b.1 B) →
      (∀ b ∈ months, ∀ e ∈ m.chunks, e.monthKey = b.1 → e.endTs < firstTs b.2) →
      (writeMonths write (some m) completed months).result s = .ok (completed ++ months.map Prod.fst) ∧
        ∃ m', RangeWritten C B t d (months.flatMap Prod.snd) s
          ((writeMonths write (some m) completed months).final s) m m'
  | [], completed, s, m, hg, hm, _, _, _, _, _, _, _ => by
    refine ⟨by rw [List.map_nil, List.append_nil]; rfl, m, hg, hm, rfl, fun c hc => .inl hc, fun x => ?_,
      fun e _ => .refl _⟩
    rw [List.flatMap_nil]
    exact ⟨.inl, fun h => h.resolve_right List.not_mem_nil⟩
  | (month, rows) :: rest, completed, s, m, hg, hm, hh, hkey, hp, ho, hd, hb, hafter => by
    have hfirst : (month, rows) ∈ (month, rows) :: rest := List.mem_cons_self
    have hmonth := (hp _ hfirst).monthKey
    obtain ⟨hadv, m₁, hwrite⟩ := hw s m month rows hg hm hh (hp _ hfirst) (ho _ hfirst) (hb _ hfirst) (hafter _ hfirst)
    have hold := (hadv.advanced month hmonth).others m₁ hwrite.manifest
    have hhead : m.SameHead m₁ := by
      obtain ⟨m₂, hm₂, hhead⟩ := (hadv.advanced month hmonth).head m hm
      obtain rfl := ManifestFile.current.inj (hwrite.manifest.symm.trans hm₂)
      exact hhead
    have hbound : ∀ c ∈ m₁.chunks, c ∈ m.chunks ∨ c.generation ≤ B + 2 := by
      intro c hc
      by_cases hk : c.monthKey = month
      · exact .inr (hwrite.bound c hc hk)
      · obtain ⟨m₂, hm₂, hc₂⟩ := hold c hc hk
        obtain rfl := ManifestFile.current.inj (hm.symm.trans hm₂)
        exact .inl hc₂
    have hres : ((write rows (some m)).mapError (monthlyWriteError completed)).result s =
      .ok (refreshed callKey m m₁) :=
      Prog.result_mapError_eq_ok.2 hwrite.result
    unfold writeMonths
    rw [Prog.result_bind_ok hres, Prog.final_bind_ok hres, Prog.final_mapError]
    rcases hkey with hkey | hone
    · have hkey₁ : seriesCacheKey m₁.symbol m₁.category m₁.name = callKey := by
        rw [hhead]
        exact hkey
      have hrefresh : refreshed callKey m m₁ = m₁ := if_pos hkey₁
      -- an entry of a later month is one that was there before the call
      have hlater : ∀ b ∈ rest, ∀ c ∈ m₁.chunks, c.monthKey = b.1 → c ∈ m.chunks := by
        intro b hbr c hc hck
        have hne : c.monthKey ≠ month := by
          rw [hck]
          exact (List.rel_of_pairwise_cons hd hbr).symm
        obtain ⟨m₂, hm₂, hc₂⟩ := hold c hc hne
        obtain rfl := ManifestFile.current.inj (hm.symm.trans hm₂)
        exact hc₂
      obtain ⟨hresult, m', hrange⟩ := writeMonths_accepts hw rest (completed ++ [month]) hadv.good hwrite.manifest
        (hh.trans hhead) (.inl hkey₁) (fun b hb => hp b (List.mem_cons_of_mem _ hb)) (fun b hb =>
          ho b (List.mem_cons_of_mem _ hb))
        (List.Pairwise.of_cons hd) (fun b hbr c hc hck =>
          hb b (List.mem_cons_of_mem _ hbr) c (hlater b hbr c hc hck) hck)
        (fun b hbr c hc hck => hafter b (List.mem_cons_of_mem _ hbr) c (hlater b hbr c hc hck) hck)
      rw [hrefresh]
      refine ⟨?_, m', hrange.good, hrange.manifest, hhead.trans hrange.head, fun c hc => ?_, fun x => ?_,
        fun e he => ?_⟩
      · exact hresult.trans (congrArg Except.ok (List.append_assoc completed [month] _))
      · exact (hrange.bound c hc).elim (hbound c) .inr
      · rw [List.flatMap_cons, List.mem_append, ← or_assoc]
        exact (hrange.mem_rows x).trans (or_congr_left (hwrite.mem_rows x))
      · exact (hwrite.elsewhere e he).trans (hrange.elsewhere e he)
    · have hnil : rest = [] := by
        rw [List.length_cons] at hone
        exact List.eq_nil_of_length_eq_zero (by omega)
      subst hnil
      refine ⟨rfl, m₁, hadv.good, hwrite.manifest, hhead, hbound, fun x => ?_, hwrite.elsewhere⟩
      rw [List.flatMap_cons, List.flatMap_nil, List.append_nil]
      exact hwrite.mem_rows x

/-! ## The checks before the first month -/

/-- Every month of the range comes after what it holds. -/
def After {R : Type} [FixedRecord R] (m : SeriesMeta) (months : List (Text × List R)) : Prop :=
  ∀ b ∈ months, ∀ e ∈ m.chunks, e.monthKey = b.1 → e.endTs < firstTs b.2

theorem readableEnd_le {cs : List ChunkMeta} {first : Int} (h : ∀ c ∈ cs, c.endTs < first) {stop : Int}
    (hs : readableEnd cs = some stop) : stop < first := by
  unfold readableEnd at hs
  obtain ⟨c, hc, rfl⟩ := List.mem_map.1 (List.max?_mem hs)
  exact h c (List.mem_of_mem_filter hc)

/-- **What the preflight of a range lets through**: the months that come after what they hold. -/
theorem preflightOverlap_iff {R : Type} [FixedRecord R] {m : SeriesMeta}
    (hread : ∀ c ∈ m.chunks, c.state.isReadable = true) (command : Text) :
    ∀ (months : List (Text × List R)), preflightOverlap (some m) command months = .ok () ↔ After m months
  | [] => ⟨fun _ b hb => (by cases hb), fun _ => rfl⟩
  | (month, rows) :: rest => by
    have hrest := preflightOverlap_iff hread command rest
    have hcons : After m ((month, rows) :: rest) ↔ (∀ c ∈ m.chunksForPartition month, c.endTs < firstTs rows) ∧
      After m rest := by
      constructor
      · intro h
        refine ⟨fun c hc => ?_, fun b hb => h b (List.mem_cons_of_mem _ hb)⟩
        obtain ⟨hcm, hck⟩ := mem_chunksForPartition.1 hc
        exact h _ List.mem_cons_self c hcm hck
      · rintro ⟨h, hr⟩ b hb c hc hk
        rcases List.mem_cons.1 hb with rfl | hb
        · exact h c (mem_chunksForPartition.2 ⟨hc, hk⟩)
        · exact hr b hb c hc hk
    rw [hcons]
    unfold preflightOverlap
    rw [Option.bind_some]
    cases hend : readableEnd (m.chunksForPartition month) with
    | none =>
      refine hrest.trans ⟨fun h => ⟨fun c hc => ?_, h⟩, fun h => h.2⟩
      refine lt_of_readableEnd (fun c hc => hread c (mem_chunksForPartition.1 hc).1) ?_ c hc
      rw [hend]
      simp
    | some stop =>
      simp only
      by_cases hle : firstTs rows ≤ stop
      · rw [if_pos hle]
        refine ⟨fun h => (by cases h), fun h => ?_⟩
        have := readableEnd_le h.1 hend
        omega
      · rw [if_neg hle]
        refine hrest.trans ⟨fun h => ⟨fun c hc => ?_, h⟩, fun h => h.2⟩
        refine lt_of_readableEnd (fun c hc => hread c (mem_chunksForPartition.1 hc).1) ?_ c hc
        rw [hend]
        simpa using hle

theorem preflightOverlap_none {R : Type} [FixedRecord R] (command : Text) : ∀ (months : List (Text × List R)),
    preflightOverlap none command months = .ok ()
  | [] => rfl
  | (_, _) :: rest => preflightOverlap_none command rest

/-! ## Appends that are accepted -/

/-- The append answers and has written its records. -/
def Writes {α : Type} (C B : Nat) (t : RecordType) (d : Dir) (records : List t.Row) (p : Op α) (s : Store)
    (m : SeriesMeta) : Prop :=
  (∃ a, p.result s = .ok a) ∧ ∃ m', RangeWritten C B t d records s (p.final s) m m'

section Append

variable {env : Env} {C B : Nat} {t : RecordType} {d : Dir} {s u : Store} {m : SeriesMeta}

theorem RangeWritten.of_same {s' : Store} {m' : SeriesMeta} {records : List t.Row}
    (h : RangeWritten C B t d records u s' m m') (hs : ∀ e, SameContent (s.dirs e) (u.dirs e)) :
    RangeWritten C B t d records s s' m m' where
  good := h.good
  manifest := h.manifest
  head := h.head
  bound := h.bound
  mem_rows x := by
    rw [← (hs d).seriesRows t]
    exact h.mem_rows x
  elsewhere e he := (hs e).trans (h.elsewhere e he)

/-- What an append does before it writes changes no series. -/
theorem Writes.bind {α β : Type} {p : Op α} {f : α → Op β} {a : α} {records : List t.Row} (hres : p.result s = .ok a)
    (hs : ∀ e, SameContent (s.dirs e) ((p.final s).dirs e)) (h : Writes C B t d records (f a) (p.final s) m) :
    Writes C B t d records (p >>= f) s m := by
  obtain ⟨⟨b, hb⟩, m', hw⟩ := h
  refine ⟨⟨b, ?_⟩, m', ?_⟩
  · rw [Prog.result_bind_ok hres]
    exact hb
  · rw [Prog.final_bind_ok hres]
    exact hw.of_same hs

theorem Writes.then_pure {α β : Type} {p : Op α} {g : α → β} {records : List t.Row} (h : Writes C B t d records p s m) :
    Writes C B t d records (p >>= fun a => (pure (g a) : Op β)) s m := by
  obtain ⟨⟨a, ha⟩, m', hw⟩ := h
  refine ⟨⟨g a, ?_⟩, m', ?_⟩
  · rw [Prog.result_bind_ok ha]
    rfl
  · rw [Prog.final_bind_ok ha]
    exact hw

theorem beginMutation_writes {α : Type} {body : Unit → Op α} {records : List t.Row} (hg : GoodStore C s)
    (h : ∀ u, GoodStore C u → (∀ e, u.dirs e = s.dirs e) → Writes C B t d records (body ()) u m) :
    Writes C B t d records (beginMutation env >>= body) s m := by
  obtain ⟨hres, hgood, hdirs⟩ := beginMutation_good hg env
  refine Writes.bind hres (fun e => ?_) (h _ hgood hdirs)
  rw [hdirs]
  exact .refl _

theorem ensureSeriesRoot_writes {α : Type} {body : Unit → Op α} {records : List t.Row} (hg : GoodStore C s)
    (h : ∀ u, GoodStore C u → (∀ e, u.dirs e = s.dirs e) → Writes C B t d records (body ()) u m) :
    Writes C B t d records (ensureSeriesRoot env >>= body) s m := by
  obtain ⟨hres, hgood, hdirs⟩ := ensureSeriesRoot_good hg env
  refine Writes.bind hres (fun e => ?_) (h _ hgood hdirs)
  rw [hdirs]
  exact .refl _

/-- The loop over the months of a series that is there. -/
theorem writeMonths_writes {callKey : Text} {write : List t.Row → Option SeriesMeta → Op SeriesMeta}
    {records : List t.Row} {months : List (Text × List t.Row)} (hw : Accepts C B t d callKey m write)
    (hg : GoodStore C s) (hm : (s.dirs d).manifest = .current m) (hkey : m.cacheKey = callKey ∨ months.length ≤ 1)
    (hmonths : monthBatches records = .ok months) (hb : ∀ c ∈ m.chunks, c.generation ≤ B) (hafter : After m months) :
    Writes C B t d records (writeMonths write (some m) [] months) s m := by
  obtain ⟨ho, hflat, hpieces, hdistinct⟩ := monthBatches_spec hmonths
  have hord : ∀ b ∈ months, Ordered b.2 := by
    intro b hbm
    refine ho.sublist ?_
    rw [← hflat, List.flatMap_def]
    exact List.sublist_flatten_of_mem (List.mem_map_of_mem hbm)
  obtain ⟨hres, m', hwritten⟩ :=
    writeMonths_accepts hw months [] hg hm rfl hkey hpieces hord hdistinct (fun b _ c hc _ => hb c hc) hafter
  rw [hflat] at hwritten
  exact ⟨⟨_, hres⟩, m', hwritten⟩

theorem seriesRows_missing {sd : SeriesDir} (h : sd.manifest = .missing) (t : RecordType) : seriesRows t sd = [] := by
  unfold seriesRows
  rw [h]

/-- An append to a directory without a manifest registers its series first. -/
theorem Writes.register (env : Env) {α : Type} {p : Op SeriesMeta} {f : SeriesMeta → Op α} {records : List t.Row}
    (hg : GoodStore C s) (hmiss : (s.dirs d).manifest = .missing) (hh : HeadOk d m) (hc : m.chunks = [])
    (ha : m.activeChunkId = none) (hv : m.validate = .ok ()) (hp : p s = createSeries env d m s)
    (h : ∀ u, GoodStore C u → (u.dirs d).manifest = .current m → Writes C B t d records (f m) u m) :
    Writes C B t d records (p >>= f) s m := by
  have hrun := hp.trans (createSeries_run hv s)
  have hres : p.result s = .ok m := Prog.result_of_run hrun
  have hfin : p.final s = (createSeries env d m).final s := by
    unfold Prog.final Prog.trace
    rw [hp]
  obtain ⟨hgood, hans⟩ := createSeries_good env hg hmiss hh hc ha
  have hcur := (hans m (Prog.result_of_run (createSeries_run hv s))).2
  rw [← hfin] at hgood hcur
  obtain ⟨⟨b, hb⟩, m', hw⟩ := h _ hgood hcur
  refine ⟨⟨b, by rw [Prog.result_bind_ok hres]; exact hb⟩, m', ?_⟩
  rw [Prog.final_bind_ok hres]
  refine ⟨hw.good, hw.manifest, hw.head, hw.bound, fun x => ?_, fun e he => ?_⟩
  · refine (hw.mem_rows x).trans (or_congr_left ?_)
    rw [seriesRows_missing hmiss, seriesRows_eq hcur, hc, List.flatMap_nil]
  · refine SameContent.trans ?_ (hw.elsewhere e he)
    rw [Prog.final_of_run hrun]
    exact exec_other (by simp [saveSteps, IoStep.on]) he s

section Kline

variable {policy : CompactionPolicy} {symbol timeframe : Text} {records : List KlineRecord}
    {timeframeMs priceScale volumeScale : Int}
  {months : List (Text × List KlineRecord)}

theorem putKlineChunkLocked_accepting (policy : CompactionPolicy) (ht : m.recordType = .kline) (hB : B + 2 ≤ C)
    (hsat : B + 1 < u32Max) (hfull : env.Faultless) :
    Accepts C B .kline (klineSeriesDir symbol timeframe)
    (seriesCacheKey symbol klineCategory timeframe) m (putKlineChunkLocked env policy symbol timeframe) := by
  intro s m₁ month rows hg hm hh hp ho hb hafter
  have ht₁ : m₁.recordType = .kline := hh.recordType.trans ht
  refine ⟨putKlineChunkLocked_good hg hm ht₁ rfl (.inr rfl) (.of_current hm fun k hk => ?_) (by omega)
    (fun _ _ _ => hB) hsat hfull, putKlineChunkLocked_accepts hg hm ht₁ hb hB hsat hfull ho hp hafter⟩
  obtain rfl : k = month := Except.ok.inj (hk.symm.trans hp.monthKey)
  exact hb

/-- **An append to a kline series is accepted** where its months come after what they hold. -/
theorem appendKlineRange_series (hg : GoodStore C s) (hB : B + 2 ≤ C) (hsat : B + 1 < u32Max) (hfull : env.Faultless)
    (hm : (s.dirs (klineSeriesDir symbol timeframe)).manifest = .current m) (ht : m.recordType = .kline)
    (hb : ∀ c ∈ m.chunks, c.generation ≤ B)
    (hconf : validateConfiguration timeframeMs priceScale volumeScale = .ok ())
    (hmonths : monthBatches records = .ok months)
    (hsame : validateExistingSeries m timeframeMs priceScale volumeScale = .ok ())
    (hkey : m.cacheKey = seriesCacheKey symbol klineCategory timeframe ∨ months.length ≤ 1)
    (hafter : After m months) :
    Writes C B .kline (klineSeriesDir symbol timeframe) records
      (appendKlineRange env policy symbol timeframe records timeframeMs priceScale volumeScale) s m := by
  unfold appendKlineRange
  rw [hconf, Prog.lift_ok_bind, hmonths, Prog.lift_ok_bind]
  refine beginMutation_writes hg (fun u hgu hu => ?_)
  have hmu : (u.dirs (klineSeriesDir symbol timeframe)).manifest = .current m := by
    rw [hu]
    exact hm
  refine Writes.bind (loadExisting_series hgu hmu) (fun e => .refl _) ?_
  rw [loadExisting_final, Option.elim_some, hsame, Prog.lift_ok_bind,
    (preflightOverlap_iff ((hgu.dir _).of_current hmu).readable _ months).2 hafter, Prog.lift_ok_bind]
  refine ensureSeriesRoot_writes hgu (fun v hgv hv => ?_)
  exact (writeMonths_writes (putKlineChunkLocked_accepting policy ht hB hsat hfull) hgv (by rw [hv]; exact hmu) hkey
    hmonths hb hafter).then_pure

/-- **An append to a new kline series is accepted** where the series may be registered. -/
theorem appendKlineRange_new (hg : GoodStore C s) (hC : 2 ≤ C) (hfull : env.Faultless)
    (hmiss : (s.dirs (klineSeriesDir symbol timeframe)).manifest = .missing)
    (hconf : validateConfiguration timeframeMs priceScale volumeScale = .ok ())
    (hmonths : monthBatches records = .ok months)
    (hv : (buildKlineMeta env.now symbol timeframe timeframeMs priceScale volumeScale).validate = .ok ()) :
    Writes C 0 .kline (klineSeriesDir symbol timeframe) records
      (appendKlineRange env policy symbol timeframe records timeframeMs priceScale volumeScale) s
      (buildKlineMeta env.now symbol timeframe timeframeMs priceScale volumeScale) := by
  unfold appendKlineRange
  rw [hconf, Prog.lift_ok_bind, hmonths, Prog.lift_ok_bind]
  refine beginMutation_writes hg (fun u hgu hu => ?_)
  have hmu : (u.dirs (klineSeriesDir symbol timeframe)).manifest = .missing := by
    rw [hu]
    exact hmiss
  refine Writes.bind (loadExisting_missing hmu) (fun e => .refl _) ?_
  rw [loadExisting_final, Option.elim_none, Prog.lift_ok_bind, preflightOverlap_none, Prog.lift_ok_bind]
  refine ensureSeriesRoot_writes hgu (fun v hgv hv' => ?_)
  have hmv : (v.dirs (klineSeriesDir symbol timeframe)).manifest = .missing := by
    rw [hv']
    exact hmu
  refine Writes.register env hgv hmv (headOk_kline env.now symbol timeframe timeframeMs priceScale volumeScale) rfl
    rfl hv ?_ (fun w hgw hmw => ?_)
  · unfold registerKlineSeriesLocked
    rw [Prog.look_bind, if_neg (by rw [hmv]; simp [ManifestFile.isPresent])]
  · exact (writeMonths_writes (putKlineChunkLocked_accepting policy rfl hC (by decide) hfull) hgw hmw (.inl rfl) hmonths
      (fun c hc => by cases hc) (fun b hb c hc => by cases hc)).then_pure

end Kline

section Scalar

variable {key : ScalarSeriesKey} {records : List ScalarRecord} {given : Option Int} {timeframeMs : Int}
    {months : List (Text × List ScalarRecord)}

theorem appendScalarChunkLocked_accepting (blockSize : Nat) (ht : m.recordType = .scalar)
    (htf : m.timeframeMs = timeframeMs) (hB : B + 2 ≤ C) (hsat : B + 1 < u32Max) (hfull : env.Faultless) :
    Accepts C B .scalar key.dir (seriesCacheKey key.symbol key.category key.name) m
      (fun rows cached => appendScalarChunkLocked env key timeframeMs rows blockSize cached) := by
  intro s m₁ month rows hg hm hh hp ho hb hafter
  have ht₁ : m₁.recordType = .scalar := hh.recordType.trans ht
  have htf₁ : m₁.timeframeMs = timeframeMs := by
    rw [hh]
    exact htf
  refine ⟨appendScalarChunkLocked_good (B := B) hg (.series (((hg.dir key.dir).of_current hm).seriesOk hm) ht₁
    (.inr rfl)) (.of_current hm fun k hk => ?_)
    (by omega) (by omega) hfull, appendScalarChunkLocked_writes hg hm ht₁ htf₁ hb hB hsat hfull ho hp hafter⟩
  obtain rfl : k = month := Except.ok.inj (hk.symm.trans hp.monthKey)
  exact hb

/-- No timeframe that is given is refused for itself. -/
def GivenOk (given : Option Int) : Prop := given.any (fun value => decide (value ≤ 0)) = false

theorem rangeTimeframe_series (h : rangeTimeframe s key (some m) given = .ok timeframeMs) :
    m.timeframeMs = timeframeMs := by
  unfold rangeTimeframe at h
  cases given with
  | none => exact Except.ok.inj h
  | some v =>
    simp only at h
    split at h
    · cases h
    · exact Except.ok.inj h

/-- **An append to a scalar series is accepted** where its months come after what they hold. -/
theorem appendScalarRange_series (hg : GoodStore C s) (hB : B + 2 ≤ C) (hsat : B + 1 < u32Max) (hfull : env.Faultless)
    (hm : (s.dirs key.dir).manifest = .current m) (ht : m.recordType = .scalar)
    (hb : ∀ c ∈ m.chunks, c.generation ≤ B) (hgiven : GivenOk given) (hmonths : monthBatches records = .ok months)
    (htf : ∀ v, given = some v → v = m.timeframeMs)
    (hkey : m.cacheKey = seriesCacheKey key.symbol key.category key.name ∨ months.length ≤ 1)
    (hafter : After m months) :
    Writes C B .scalar key.dir records (appendScalarRange env key records given) s m := by
  unfold appendScalarRange
  rw [if_neg (by rw [hgiven]; simp), Prog.lift_ok_bind, hmonths, Prog.lift_ok_bind]
  refine beginMutation_writes hg (fun u hgu hu => ?_)
  have hmu : (u.dirs key.dir).manifest = .current m := by
    rw [hu]
    exact hm
  have hframe : rangeTimeframe u key (some m) given = .ok m.timeframeMs := by
    unfold rangeTimeframe
    cases given with
    | none => rfl
    | some v =>
      simp only
      rw [if_neg (by rw [htf v rfl]; simp)]
  refine Writes.bind (loadExisting_series hgu hmu) (fun e => .refl _) ?_
  rw [loadExisting_final]
  refine Writes.bind (Prog.result_look u) (fun e => .refl _) ?_
  rw [Prog.final_look, hframe, Prog.lift_ok_bind,
    (preflightOverlap_iff ((hgu.dir _).of_current hmu).readable _ months).2 hafter, Prog.lift_ok_bind]
  refine ensureSeriesRoot_writes hgu (fun v hgv hv => ?_)
  exact (writeMonths_writes (appendScalarChunkLocked_accepting _ ht rfl hB hsat hfull) hgv (by rw [hv]; exact hmu)
    hkey hmonths hb hafter).then_pure

/-- **An append to a new scalar series is accepted** where the series may be registered. -/
theorem appendScalarRange_new (hg : GoodStore C s) (hC : 2 ≤ C) (hfull : env.Faultless)
    (hmiss : (s.dirs key.dir).manifest = .missing) (hgiven : GivenOk given)
    (hmonths : monthBatches records = .ok months) (htf : ∀ u : Store, (∀ e, u.dirs e = s.dirs e) →
      rangeTimeframe u key none given = .ok timeframeMs)
    (hv : (buildScalarMeta env.now key timeframeMs).validate = .ok ()) :
    Writes C 0 .scalar key.dir records (appendScalarRange env key records given) s
      (buildScalarMeta env.now key timeframeMs) := by
  unfold appendScalarRange
  rw [if_neg (by rw [hgiven]; simp), Prog.lift_ok_bind, hmonths, Prog.lift_ok_bind]
  refine beginMutation_writes hg (fun u hgu hu => ?_)
  have hmu : (u.dirs key.dir).manifest = .missing := by
    rw [hu]
    exact hmiss
  refine Writes.bind (loadExisting_missing hmu) (fun e => .refl _) ?_
  rw [loadExisting_final]
  refine Writes.bind (Prog.result_look u) (fun e => .refl _) ?_
  rw [Prog.final_look, htf u hu, Prog.lift_ok_bind, preflightOverlap_none, Prog.lift_ok_bind]
  refine ensureSeriesRoot_writes hgu (fun v hgv hv' => ?_)
  have hmv : (v.dirs key.dir).manifest = .missing := by
    rw [hv']
    exact hmu
  refine Writes.register env hgv hmv (headOk_scalar env.now key timeframeMs) rfl rfl hv ?_ (fun w hgw hmw => ?_)
  · unfold registerScalarSeriesLocked
    rw [Prog.look_bind, if_neg (by rw [hmv]; simp [ManifestFile.isPresent])]
  · exact (writeMonths_writes (appendScalarChunkLocked_accepting _ rfl rfl hC (by decide) hfull) hgw hmw
      (.inl rfl) hmonths
      (fun c hc => by cases hc) (fun b hb c hc => by cases hc)).then_pure

end Scalar

/-! ## All or nothing -/

theorem strict_nodup {R : Type} [FixedRecord R] {l : List R}
    (h : l.Pairwise (fun a b => FixedRecord.ts a < FixedRecord.ts b)) : l.Nodup :=
  h.imp (fun {a b} hab heq => by rw [heq] at hab; omega)

/-- Rows that come after what their months hold are none of the rows there are. -/
theorem After.disjoint {records : List t.Row} {months : List (Text × List t.Row)} (h : After m months)
    (hok : SeriesOk d (s.dirs d) m) (ht : m.recordType = t) (hu : m.unit = .month)
    (hmonths : monthBatches records = .ok months) : ∀ x ∈ seriesRows t (s.dirs d), x ∉ records := by
  intro x hx hr
  obtain ⟨ho, hflat, hpieces, -⟩ := monthBatches_spec hmonths
  rw [← hflat] at hr
  obtain ⟨b, hb, hxb⟩ := List.mem_flatMap.1 hr
  obtain ⟨c, hc, hxc, hk⟩ := hok.keyed_row ht hx
  rw [hu] at hk
  have hkey : c.monthKey = b.1 := Except.ok.inj (hk.symm.trans ((hpieces b hb).2 x hxb))
  have hlt := h b hb c hc hkey
  have hfirst := firstTs_le (ho.sublist (by
    rw [← hflat, List.flatMap_def]
    exact List.sublist_flatten_of_mem (List.mem_map_of_mem hb))) hxb
  subst ht
  have hle := (hok.stored.bounds hc hxc).2
  omega

/-- The rows after an append are those there were and the records. -/
theorem RangeWritten.perm {s' : Store} {m' : SeriesMeta} {records : List t.Row}
    (h : RangeWritten C B t d records s s' m m') (ht : m.recordType = t)
    (hst : FixedRecord.allowEqualTimestamps t.Row = false) (ho : Ordered records)
    (hold : (seriesRows t (s.dirs d)).Pairwise (fun a b => FixedRecord.ts a < FixedRecord.ts b))
    (hdisj : ∀ x ∈ seriesRows t (s.dirs d), x ∉ records) :
    (seriesRows t (s'.dirs d)).Perm (seriesRows t (s.dirs d) ++ records) := by
  have hok := ((h.good.dir d).of_current h.manifest).seriesOk h.manifest
  refine (List.perm_ext_iff_of_nodup (strict_nodup (hok.strict (h.head.recordType.trans ht) hst)) ?_).2 (fun x => ?_)
  · exact List.nodup_append'.2 ⟨strict_nodup hold, strict_nodup ((ordered_iff_strict hst).1 ho), fun x hx hr =>
      hdisj x hx hr⟩
  · rw [List.mem_append]
    exact h.mem_rows x

/-- The append has written all of its records beside the rows there were, or it is refused and every series is as it
was. -/
def AllOrNothing {α : Type} (t : RecordType) (d : Dir) (records : List t.Row) (p : Op α) (s : Store) : Prop :=
  ((∃ a, p.result s = .ok a) ∧ (seriesRows t ((p.final s).dirs d)).Perm (seriesRows t (s.dirs d) ++ records) ∧
      ∀ e, e ≠ d → SameContent (s.dirs e) ((p.final s).dirs e)) ∨
    ((∃ e, p.result s = .error e) ∧ ∀ e, SameContent (s.dirs e) ((p.final s).dirs e))

theorem AllOrNothing.refused {α : Type} {records : List t.Row} {p : Op α} {e : FastKError}
    (hres : p.result s = .error e) (hs : ∀ e, SameContent (s.dirs e) ((p.final s).dirs e)) :
    AllOrNothing t d records p s := .inr ⟨⟨e, hres⟩, hs⟩

theorem AllOrNothing.lift {α β : Type} {records : List t.Row} {r : Except FastKError α} {f : α → Op β}
    (h : ∀ a, r = .ok a → AllOrNothing t d records (f a) s) : AllOrNothing t d records (Prog.lift r >>= f) s := by
  cases r with
  | error e => exact .refused rfl (fun _ => .refl _)
  | ok a => exact h a rfl

theorem AllOrNothing.bind {α β : Type} {records : List t.Row} {p : Op α} {f : α → Op β} {a : α}
    (hres : p.result s = .ok a) (hs : ∀ e, SameContent (s.dirs e) ((p.final s).dirs e))
    (h : AllOrNothing t d records (f a) (p.final s)) :
    AllOrNothing t d records (p >>= f) s := by
  unfold AllOrNothing at h ⊢
  rw [Prog.result_bind_ok hres, Prog.final_bind_ok hres]
  rcases h with ⟨hok, hrows, helse⟩ | ⟨herr, hsame⟩
  · refine .inl ⟨hok, ?_, fun e he => (hs e).trans (helse e he)⟩
    rw [← (hs d).seriesRows t]
    exact hrows
  · exact .inr ⟨herr, fun e => (hs e).trans (hsame e)⟩

theorem Writes.allOrNothing {α : Type} {records : List t.Row} {p : Op α} (h : Writes C B t d records p s m)
    (ht : m.recordType = t) (hst : FixedRecord.allowEqualTimestamps t.Row = false) (ho : Ordered records)
    (hold : (seriesRows t (s.dirs d)).Pairwise (fun a b => FixedRecord.ts a < FixedRecord.ts b))
    (hdisj : ∀ x ∈ seriesRows t (s.dirs d), x ∉ records) :
    AllOrNothing t d records p s := by
  obtain ⟨hok, m', hw⟩ := h
  exact .inl ⟨hok, hw.perm ht hst ho hold hdisj, hw.elsewhere⟩

/-- An append that is accepted by a series that is there, or by none. -/
theorem Writes.allOrNothing_series {α : Type} {records : List t.Row} {months : List (Text × List t.Row)} {p : Op α}
    (h : Writes C B t d records p s m) (hok : SeriesOk d (s.dirs d) m) (ht : m.recordType = t) (hu : m.unit = .month)
    (hst : FixedRecord.allowEqualTimestamps t.Row = false) (hmonths : monthBatches records = .ok months)
    (hafter : After m months) : AllOrNothing t d records p s :=
  h.allOrNothing ht hst (monthBatches_spec hmonths).1 (hok.strict ht hst) (hafter.disjoint hok ht hu hmonths)

theorem Writes.allOrNothing_new {α : Type} {records : List t.Row} {months : List (Text × List t.Row)} {p : Op α}
    (h : Writes C B t d records p s m) (hmiss : (s.dirs d).manifest = .missing) (ht : m.recordType = t)
    (hst : FixedRecord.allowEqualTimestamps t.Row = false) (hmonths : monthBatches records = .ok months) :
    AllOrNothing t d records p s := by
  have hnil := seriesRows_missing hmiss t
  refine h.allOrNothing ht hst (monthBatches_spec hmonths).1 ?_ (fun x hx => ?_)
  · rw [hnil]
    exact List.Pairwise.nil
  · rw [hnil] at hx
    cases hx

theorem beginMutation_allOrNothing {α : Type} {body : Unit → Op α} {records : List t.Row} (hg : GoodStore C s)
    (h : ∀ u, GoodStore C u → (∀ e, u.dirs e = s.dirs e) → AllOrNothing t d records (body ()) u) :
    AllOrNothing t d records (beginMutation env >>= body) s := by
  obtain ⟨hres, hgood, hdirs⟩ := beginMutation_good hg env
  refine AllOrNothing.bind hres (fun e => ?_) (h _ hgood hdirs)
  rw [hdirs]
  exact .refl _

theorem ensureSeriesRoot_allOrNothing {α : Type} {body : Unit → Op α} {records : List t.Row} (hg : GoodStore C s)
    (h : ∀ u, GoodStore C u → (∀ e, u.dirs e = s.dirs e) → AllOrNothing t d records (body ()) u) :
    AllOrNothing t d records (ensureSeriesRoot env >>= body) s := by
  obtain ⟨hres, hgood, hdirs⟩ := ensureSeriesRoot_good hg env
  refine AllOrNothing.bind hres (fun e => ?_) (h _ hgood hdirs)
  rw [hdirs]
  exact .refl _

/-- A series whose manifest would be refused is not registered. -/
theorem register_refused {α : Type} {p : Op SeriesMeta} {f : SeriesMeta → Op α} {records : List t.Row}
    {e : FastKError} (hv : m.validate = .error e) (hp : p s = createSeries env d m s) :
    AllOrNothing t d records (p >>= f) s := by
  have hrun := hp.trans (createSeries_error hv s)
  have hres : p.result s = .error e := Prog.result_of_run hrun
  refine .refused (Prog.result_bind_error hres f) (fun e => ?_)
  rw [Prog.final_bind_error hres]
  rw [Prog.final_of_run hrun]
  exact exec_calm (by simp [IoStep.calm]) s e

/-- **A kline append writes all of its records or none.** -/
theorem appendKlineRange_allOrNothing {policy : CompactionPolicy} {symbol timeframe : Text} {records : List KlineRecord}
    {timeframeMs priceScale volumeScale : Int} (hg : GoodStore B s) (hsat : B + 1 < u32Max) (hfull : env.Faultless)
    (ht : OfType .kline (s.dirs (klineSeriesDir symbol timeframe)))
    (hone : OneName (seriesCacheKey symbol klineCategory timeframe) records
      (s.dirs (klineSeriesDir symbol timeframe))) :
    AllOrNothing .kline (klineSeriesDir symbol timeframe) records
      (appendKlineRange env policy symbol timeframe records timeframeMs priceScale volumeScale) s := by
  unfold appendKlineRange
  refine .lift (fun _ _ => .lift (fun months hmonths => beginMutation_allOrNothing hg (fun u hgu hu => ?_)))
  rw [← hu] at ht hone
  cases hgu.dir (klineSeriesDir symbol timeframe) with
  | @series m hm h =>
    have htm := ht m hm
    refine .bind (loadExisting_series hgu hm) (fun e => .refl _) ?_
    rw [loadExisting_final]
    refine .lift (fun _ _ => .lift (fun _ hpre => ensureSeriesRoot_allOrNothing hgu (fun v hgv hv => ?_)))
    have hafter := (preflightOverlap_iff h.readable _ months).1 hpre
    have hmv : (v.dirs (klineSeriesDir symbol timeframe)).manifest = .current m := by
      rw [hv]
      exact hm
    have hgv' := (hgv.dir _).of_current hmv
    exact (writeMonths_writes (putKlineChunkLocked_accepting policy htm (le_refl _) hsat hfull)
      (hgv.mono (Nat.le_add_right B 2)) hmv
      (hone m months hm hmonths) hmonths hgv'.bound hafter).then_pure.allOrNothing_series
        (hgv'.seriesOk hmv) htm (h.fits.head.unit_month (.inl htm)) rfl
      hmonths hafter
  | empty hmiss _ =>
    refine .bind (loadExisting_missing hmiss) (fun e => .refl _) ?_
    rw [loadExisting_final]
    refine .lift (fun _ _ => .lift (fun _ _ => ensureSeriesRoot_allOrNothing hgu (fun v hgv hv => ?_)))
    have hmv : (v.dirs (klineSeriesDir symbol timeframe)).manifest = .missing := by
      rw [hv]
      exact hmiss
    have hreg : registerKlineSeriesLocked env symbol timeframe timeframeMs priceScale volumeScale v =
        createSeries env (klineSeriesDir symbol timeframe)
          (buildKlineMeta env.now symbol timeframe timeframeMs priceScale volumeScale) v := by
      unfold registerKlineSeriesLocked
      rw [Prog.look_bind, if_neg (by rw [hmv]; simp [ManifestFile.isPresent])]
    cases hvalid : (buildKlineMeta env.now symbol timeframe timeframeMs priceScale volumeScale).validate with
    | error e => exact register_refused hvalid hreg
    | ok _ =>
      refine Writes.allOrNothing_new (B := B) (Writes.register env (hgv.mono (Nat.le_add_right B 2)) hmv
        (headOk_kline env.now symbol timeframe timeframeMs priceScale volumeScale) rfl rfl hvalid hreg
          (fun w hgw hmw => ?_)) hmv rfl rfl hmonths
      exact (writeMonths_writes (putKlineChunkLocked_accepting policy rfl (le_refl _) hsat hfull) hgw hmw
        (.inl rfl) hmonths
        (fun c hc => by cases hc) (fun b hb c hc => by cases hc)).then_pure

/-- **A scalar append writes all of its records or none.** -/
theorem appendScalarRange_allOrNothing {key : ScalarSeriesKey} {records : List ScalarRecord} {given : Option Int}
    (hg : GoodStore B s) (hsat : B + 1 < u32Max) (hfull : env.Faultless) (ht : OfType .scalar (s.dirs key.dir))
    (hone : OneName (seriesCacheKey key.symbol key.category key.name) records (s.dirs key.dir)) :
    AllOrNothing .scalar key.dir records (appendScalarRange env key records given) s := by
  unfold appendScalarRange
  refine .lift (fun _ _ => .lift (fun months hmonths => beginMutation_allOrNothing hg (fun u hgu hu => ?_)))
  rw [← hu] at ht hone
  cases hgu.dir key.dir with
  | @series m hm h =>
    have htm := ht m hm
    refine .bind (loadExisting_series hgu hm) (fun e => .refl _) ?_
    rw [loadExisting_final]
    refine .bind (Prog.result_look u) (fun e => .refl _) ?_
    rw [Prog.final_look]
    refine .lift (fun tf htf => .lift (fun _ hpre => ensureSeriesRoot_allOrNothing hgu (fun v hgv hv => ?_)))
    have hafter := (preflightOverlap_iff h.readable _ months).1 hpre
    have htf' : m.timeframeMs = tf := rangeTimeframe_series htf
    have hmv : (v.dirs key.dir).manifest = .current m := by
      rw [hv]
      exact hm
    have hgv' := (hgv.dir _).of_current hmv
    exact (writeMonths_writes (appendScalarChunkLocked_accepting _ htm htf' (le_refl _) hsat hfull)
      (hgv.mono (Nat.le_add_right B 2)) hmv
      (hone m months hm hmonths) hmonths hgv'.bound hafter).then_pure.allOrNothing_series
        (hgv'.seriesOk hmv) htm (h.fits.head.unit_month (.inr htm)) rfl
      hmonths hafter
  | empty hmiss _ =>
    refine .bind (loadExisting_missing hmiss) (fun e => .refl _) ?_
    rw [loadExisting_final]
    refine .bind (Prog.result_look u) (fun e => .refl _) ?_
    rw [Prog.final_look]
    refine .lift (fun tf _ => .lift (fun _ _ => ensureSeriesRoot_allOrNothing hgu (fun v hgv hv => ?_)))
    have hmv : (v.dirs key.dir).manifest = .missing := by
      rw [hv]
      exact hmiss
    have hreg : registerScalarSeriesLocked env key tf v = createSeries env key.dir
      (buildScalarMeta env.now key tf) v := by
      unfold registerScalarSeriesLocked
      rw [Prog.look_bind, if_neg (by rw [hmv]; simp [ManifestFile.isPresent])]
    cases hvalid : (buildScalarMeta env.now key tf).validate with
    | error e => exact register_refused hvalid hreg
    | ok _ =>
      refine Writes.allOrNothing_new (B := B) (Writes.register env (hgv.mono (Nat.le_add_right B 2)) hmv
        (headOk_scalar env.now key tf) rfl rfl hvalid hreg
        (fun w hgw hmw => ?_)) hmv rfl rfl hmonths
      exact (writeMonths_writes (appendScalarChunkLocked_accepting _ rfl rfl (le_refl _) hsat hfull) hgw hmw
        (.inl rfl) hmonths
        (fun c hc => by cases hc) (fun b hb c hc => by cases hc)).then_pure

end Append

/-- **In every state that fewer than 2^31 regular calls under names that go down reach, a regular range append writes
all of its records or leaves every series as it was.** -/
theorem range_appends_all_or_nothing {root : Dir} {n : Nat} {s : Store}
    (h : Run root (fun env c s => (env.Faultless ∧ c.Regular s) ∧ c.Plain) n s) (hn : n < 2 ^ 31) {env : Env}
    (hfull : env.Faultless) :
    (∀ policy symbol timeframe records timeframeMs priceScale volumeScale,
      (Call.appendKlineRange policy symbol timeframe records timeframeMs priceScale volumeScale).Regular s →
      (Call.appendKlineRange policy symbol timeframe records timeframeMs priceScale volumeScale).Plain →
        AllOrNothing .kline (klineSeriesDir symbol timeframe) records
          (appendKlineRange env policy symbol timeframe records timeframeMs priceScale volumeScale) s) ∧
      ∀ (key : ScalarSeriesKey) records timeframeMs, (Call.appendScalarRange key records timeframeMs).Regular s →
        (Call.appendScalarRange key records timeframeMs).Plain →
          AllOrNothing .scalar key.dir records (appendScalarRange env key records timeframeMs) s := by
  have hg := (h.mono (fun _ _ _ hok => hok.1)).good_pred hn
  have hsat : 2 * n - 1 + 1 < u32Max := by
    unfold u32Max
    omega
  exact ⟨fun policy symbol timeframe records timeframeMs priceScale volumeScale hc _ =>
    appendKlineRange_allOrNothing hg hsat hfull hc.typed hc.unaliased, fun key records timeframeMs hc _ =>
      appendScalarRange_allOrNothing hg hsat hfull hc.typed hc.unaliased⟩

theorem OneName.of_tests {R : Type} [FixedRecord R] {callKey : Text} {records : List R} {sd : SeriesDir}
    (h : sd.tests (fun m => decide (seriesCacheKey m.symbol m.category m.name = callKey)) = true) :
    OneName callKey records sd := by
  intro m months hm _
  obtain ⟨m', hm', hkey⟩ := SeriesDir.of_tests h
  obtain rfl := ManifestFile.current.inj (hm.symm.trans hm')
  exact .inl (of_decide_eq_true hkey)

/-- The sample series, which has chunks in January 1970, is appended to in January and in February. -/
theorem range_appends_all_or_nothing_sample : AllOrNothing .kline (klineSeriesDir "X" "1m")
    [sampleKline 180000, sampleKline 3456000000]
    (appendKlineRange (Env.plain 6) .default "X" "1m" [sampleKline 180000, sampleKline 3456000000] 60000 1 1)
    (runCalls (Env.plain 5) sampleKlineCalls (Store.empty [])) := by
  refine (range_appends_all_or_nothing (Run.start.calls (sampleKlineCalls_ok.plain sampleKlineCalls_plain)) (by decide)
    (plain_faultless 6)).1 _ _ _ _ _ _ _ ⟨?_, trivial, ?_, trivial⟩ (by decide +kernel)
  · show OfType .kline _
    decide +kernel
  · exact OneName.of_tests (by decide +kernel)

/-- A scalar series registered as `S`, `x/y`, `z`. -/
def sampleScalarStore : Store := runCalls (Env.plain 5) [.registerScalar ⟨"S", "x/y", "z"⟩ 60000] (Store.empty [])

/-- Other names for its directory. -/
def sampleAlias : ScalarSeriesKey := ⟨"S", "x", "y/z"⟩

/-- A row in January and one in February 1970. -/
def sampleTwoMonths : List ScalarRecord := [⟨0, ⟨3, by decide⟩⟩, ⟨3456000000, ⟨4, by decide⟩⟩]

/-- An append under the other names over two months answers, and the series has one of the two rows. -/
theorem range_append_loses_month : ¬ ∀ root n s, Run root (fun env c s => env.Faultless ∧ c.Typed s ∧ c.Fits) n s →
    n < 2 ^ 31 →
    ∀ (env : Env), env.Faultless → ∀ (key : ScalarSeriesKey) records timeframeMs,
      (Call.appendScalarRange key records timeframeMs).Typed s →
      AllOrNothing .scalar key.dir records (appendScalarRange env key records timeframeMs) s := by
  intro h
  have hok : CallsOk (Env.plain 5) (fun env c s => env.Faultless ∧ c.Typed s ∧ c.Fits) [.registerScalar ⟨"S", "x/y",
    "z"⟩ 60000] (Store.empty []) :=
    ⟨⟨plain_faultless 5, trivial, trivial⟩, trivial⟩
  have htyped : OfType .scalar (sampleScalarStore.dirs sampleAlias.dir) := by decide +kernel
  have hrun : Run [] (fun env c s => env.Faultless ∧ c.Typed s ∧ c.Fits) 1 sampleScalarStore := Run.start.calls hok
  have hall := h [] 1 sampleScalarStore hrun (by decide) (Env.plain 6) (plain_faultless 6) sampleAlias
    sampleTwoMonths none htyped
  have hanswer : ((appendScalarRange (Env.plain 6) sampleAlias sampleTwoMonths none).result sampleScalarStore).isOk =
    true := by decide +kernel
  have hbefore : (seriesRows .scalar (sampleScalarStore.dirs sampleAlias.dir)).length = 0 := by decide +kernel
  have hafter : (seriesRows .scalar
    (((appendScalarRange (Env.plain 6) sampleAlias sampleTwoMonths none).final sampleScalarStore).dirs
      sampleAlias.dir)).length = 1 := by decide +kernel
  rcases hall with ⟨-, hperm, -⟩ | ⟨⟨e, he⟩, -⟩
  · have hlen := hperm.length_eq
    rw [hafter] at hlen
    have hsum := hlen.trans List.length_append
    rw [hbefore] at hsum
    exact absurd hsum (by decide)
  · rw [he] at hanswer
    cases hanswer

end FastK
