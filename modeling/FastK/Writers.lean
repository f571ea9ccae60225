import FastK.Replacement
import FastK.Scoped
import FastK.Lib.Transitions
/-!
# Writers

Any number of handles, in any number of processes, write to one store and read between their writes.  A handle caches
the manifests it has loaded or saved, and a process those of all of its handles (`engine/store.rs`,
`storage/manifest.rs`).  A mutation takes the lock, drops what its handle has cached and what its process has cached
below the root, and only then loads a manifest.  Two things escape this: the manifests of series that an absolute name
leads out of the root, and the timeframe that an indicator call reads before it takes the lock.  Where these are as on
disk, the mutations are a serial execution on fresh handles (`writers_serial`); otherwise a writer can undo what
another has written (`update_lost`).
-/
namespace FastK

open Journal Transitions

/-! ## Mutations -/

def ScalarSeriesKey.cacheKey (key : ScalarSeriesKey) : Text := seriesCacheKey key.symbol key.category key.name

def registerIndicatorSeries (env : Env) (symbol timeframe indicatorName : Text) : Op Unit := do
  let kline ← loadMeta none (klineSeriesDir symbol timeframe)
  registerScalarSeries env (indicatorSeriesKey symbol timeframe indicatorName) kline.timeframeMs

def putIndicatorChunk (env : Env) (symbol timeframe indicatorName : Text) (records : List ScalarRecord) : Op Unit := do
  let kline ← loadMeta none (klineSeriesDir symbol timeframe)
  putScalarChunk env (indicatorSeriesKey symbol timeframe indicatorName) kline.timeframeMs records
    defaultScalarZmapBlockSize

/-- A call that takes its timeframe from the klines before it goes on as a scalar call. -/
inductive IndicatorCall where
  | register (symbol timeframe indicatorName : Text)
  | put (symbol timeframe indicatorName : Text) (records : List ScalarRecord)

namespace IndicatorCall

/-- The klines whose timeframe is read. -/
def klines : IndicatorCall → ScalarSeriesKey
  | .register symbol timeframe _ => ⟨symbol, klineCategory, timeframe⟩
  | .put symbol timeframe _ _ => ⟨symbol, klineCategory, timeframe⟩

/-- The scalar call it goes on with. -/
def call (timeframeMs : Int) : IndicatorCall → Call
  | .register symbol timeframe indicatorName =>
      .registerScalar (indicatorSeriesKey symbol timeframe indicatorName) timeframeMs
  | .put symbol timeframe indicatorName records =>
    .putScalar (indicatorSeriesKey symbol timeframe indicatorName) timeframeMs records defaultScalarZmapBlockSize

def run (env : Env) : IndicatorCall → Op Unit
  | .register symbol timeframe indicatorName => registerIndicatorSeries env symbol timeframe indicatorName
  | .put symbol timeframe indicatorName records => putIndicatorChunk env symbol timeframe indicatorName records

theorem run_eq (env : Env) (i : IndicatorCall) :
    i.run env = (loadMeta none i.klines.dir >>= fun kline => (i.call kline.timeframeMs).run env) := by
  cases i <;> rfl

end IndicatorCall

inductive Mutation where
  | call (c : Call)
  | indicator (i : IndicatorCall)

/-- The mutation on a fresh handle. -/
def Mutation.run (env : Env) : Mutation → Op Unit
  | .call c => c.run env
  | .indicator i => i.run env

/-- What a call checks before it takes the lock. -/
def Call.checks : Call → Result Unit
  | .registerKline _ _ timeframeMs priceScale volumeScale => validateConfiguration timeframeMs priceScale volumeScale
  | .registerScalar _ timeframeMs =>
      if timeframeMs ≤ 0 then .error (.invalidInput "timeframe_ms must be positive") else .ok ()
  | .registerFixed _ _ _ _ unit =>
    if unit.isTimeBased = false then
      .error (.invalidInput (words ["partition unit ", unit.asStr, " is declared but not implemented yet"]))
    else .ok ()
  | .putKline _ _ _ records => validateMonthRecords records
  | .putScalar _ timeframeMs records zmapBlockSize =>
    match checkScalarWrite timeframeMs zmapBlockSize with
    | .error e => .error e
    | .ok () => validateMonthRecords records
  | .appendScalar _ timeframeMs records blockSize =>
    match checkScalarWrite timeframeMs blockSize with
    | .error e => .error e
    | .ok () => validateMonthRecords records
  | .appendKlineRange _ _ _ records timeframeMs priceScale volumeScale =>
    match validateConfiguration timeframeMs priceScale volumeScale with
    | .error e => .error e
    | .ok () => (monthBatches records).map (fun _ => ())
  | .appendScalarRange _ records timeframeMs =>
    if timeframeMs.any (fun value => decide (value ≤ 0)) then .error (.invalidInput "timeframe_ms must be positive")
    else (monthBatches records).map (fun _ => ())
  | .putFixed k _ _ records => validateStrictOrder k.Row records
  | _ => .ok ()

/-- The recovery of a call that comes before it drops its caches; an explicit recovery drops them first. -/
def Call.enter (env : Env) : Call → Op Unit
  | .startupRecover => pure ()
  | _ => beginMutation env

/-- The call gets as far as to drop its caches. -/
def Call.clears (env : Env) (s : Store) (c : Call) : Bool := c.checks.isOk && ((c.enter env).result s).isOk

/-- **A call checks what it is given, begins, and goes on.** -/
theorem Call.run_checked (env : Env) (c : Call) :
    ∃ rest : Op Unit, c.run env = Prog.lift c.checks >>= fun _ => c.enter env >>= fun _ => rest := by
  cases c with
  | init => exact ⟨_, rfl⟩
  | startupRecover => exact ⟨startupRecoverLocked env >>= fun _ => pure (), rfl⟩
  | registerKline symbol timeframe timeframeMs priceScale volumeScale => exact ⟨_, rfl⟩
  | registerScalar key timeframeMs =>
    simp only [Call.run, Call.checks, Call.enter, registerScalarSeries]
    split
    · exact ⟨pure (), rfl⟩
    · exact ⟨_, rfl⟩
  | registerFixed k symbol channel timeframeMs unit =>
    simp only [Call.run, Call.checks, Call.enter, registerFixedSeries]
    split
    · exact ⟨pure (), rfl⟩
    · exact ⟨_, rfl⟩
  | putKline policy symbol timeframe records => exact ⟨_, rfl⟩
  | mergeKline symbol timeframe key => exact ⟨_, rfl⟩
  | putScalar key timeframeMs records zmapBlockSize =>
    simp only [Call.run, Call.checks, Call.enter, putScalarChunk]
    cases checkScalarWrite timeframeMs zmapBlockSize with
    | error e => exact ⟨pure (), rfl⟩
    | ok u => exact ⟨_, rfl⟩
  | appendScalar key timeframeMs records blockSize =>
    simp only [Call.run, Call.checks, Call.enter, appendScalarChunk]
    cases checkScalarWrite timeframeMs blockSize with
    | error e => exact ⟨pure (), rfl⟩
    | ok u => exact ⟨_, rfl⟩
  | appendKlineRange policy symbol timeframe records timeframeMs priceScale volumeScale =>
    simp only [Call.run, Call.checks, Call.enter, FastK.appendKlineRange]
    cases validateConfiguration timeframeMs priceScale volumeScale with
    | error e => exact ⟨pure (), rfl⟩
    | ok u =>
      cases monthBatches records with
      | error e => exact ⟨pure (), rfl⟩
      | ok months =>
        simp only [Except.map, Prog.lift_ok_bind]
        exact ⟨_, Prog.bind_assoc _ _ _⟩
  | appendScalarRange key records timeframeMs =>
    simp only [Call.run, Call.checks, Call.enter, FastK.appendScalarRange]
    split
    · exact ⟨pure (), rfl⟩
    · cases monthBatches records with
      | error e => exact ⟨pure (), rfl⟩
      | ok months =>
        simp only [Except.map, Prog.lift_ok_bind]
        exact ⟨_, Prog.bind_assoc _ _ _⟩
  | putFixed k symbol channel records => exact ⟨_, rfl⟩

/-- The manifests that a call loads, by the names under which it does. -/
def Call.loads (s : Store) : Call → List ScalarSeriesKey
  | .appendScalarRange key _ none =>
    if (s.dirs key.dir).manifest = .missing then
      key :: ((Text.splitOnce scalarScopeSeparator key.name).map (fun p =>
        (⟨key.symbol, klineCategory, p.1⟩ : ScalarSeriesKey))).toList
    else [key]
  | c => c.key.toList

/-! ## Handles -/

structure WriterHandle where
  process : Nat
  /-- The manifests it has cached, with the directories they are of. -/
  manifests : Text → Option (Dir × SeriesMeta)
  /-- The indicator call it is in, with the timeframe that was read. -/
  started : Option (IndicatorCall × Int)

structure LoggedMutation where
  env : Env
  mutation : Mutation
  answer : Result Unit

/-- The store, what each process has cached of the manifests of its directories, the handles, and the mutations that
have had the lock, in their order. -/
structure Writers where
  store : Store
  shared : Nat → Dir → Option SeriesMeta
  handles : Nat → WriterHandle
  log : List LoggedMutation

inductive WriterStep where
  /-- The manifest that a read of the handle begins with. -/
  | load (handle : Nat) (key : ScalarSeriesKey)
  /-- A load that compares the process's entry with the file. -/
  | refresh (process : Nat) (d : Dir)
  | clearReadCaches (handle : Nat)
  | mutate (handle : Nat) (env : Env) (c : Call)
  /-- An indicator call reads the timeframe. -/
  | start (handle : Nat) (i : IndicatorCall)
  /-- It goes on with the lock. -/
  | finish (handle : Nat) (env : Env)

/-- The last entry under a key. -/
def lastEntry {κ α : Type} [DecidableEq κ] (entries : List (κ × α)) (k : κ) : Option α := entries.reverse.lookup k

/-- What `invalidate_root` leaves of a process's entries: those whose path does not begin with the root. -/
def outsideRoot (shared : Dir → Option SeriesMeta) (d : Dir) : Option SeriesMeta :=
  if d.head? = some ['/'] then shared d else none

/-- The store as a call sees it that loads these manifests, where some of them are cached. -/
def Store.viewed (loads : List ScalarSeriesKey) (cached : Dir → Option SeriesMeta) (s : Store) : Store :=
  { s with
    dirs := fun d =>
      ((if loads.any (fun key => decide (key.dir = d)) then cached d else none).map (fun m =>
        { s.dirs d with manifest := .current m })).getD
        (s.dirs d) }

/-- The manifests that steps put in place. -/
def savedManifests (ks : List IoStep) : List (Dir × SeriesMeta) :=
  ks.filterMap (fun
    | .publishManifest d _ m => some (d, m)
    | _ => none)

namespace Writers

def setHandle (w : Writers) (handle : Nat) (state : WriterHandle) : Writers :=
  { w with handles := fun h => if h = handle then state else w.handles h }

def setShared (w : Writers) (process : Nat) (entries : Dir → Option SeriesMeta) : Writers :=
  { w with shared := fun p => if p = process then entries else w.shared p }

/-- Freshly opened handles in processes that have nothing cached. -/
def opened (store : Store) (process : Nat → Nat) : Writers :=
  ⟨store, fun _ _ => none, fun h => ⟨process h, fun _ => none, none⟩, []⟩

/-- `load_kline_meta`, `load_scalar_meta` and `load_fixed_meta`: the handle's entry, else the process's, else the
file. -/
def loaded (w : Writers) (handle : Nat) (key : ScalarSeriesKey) : Result SeriesMeta :=
  match (w.handles handle).manifests key.cacheKey with
  | some (_, m) => .ok m
  | none => metaFor (w.shared (w.handles handle).process key.dir) (w.store.dirs key.dir)

/-- What such a load leaves in the caches. -/
def load (w : Writers) (handle : Nat) (key : ScalarSeriesKey) : Writers :=
  let state := w.handles handle
  match state.manifests key.cacheKey with
  | some _ => w
  | none =>
    match metaFor (w.shared state.process key.dir) (w.store.dirs key.dir) with
    | .error _ => w
    | .ok m =>
      (w.setShared state.process (fun d => if d = key.dir then some m else w.shared state.process d)).setHandle handle
        { state with manifests := fun k => if k = key.cacheKey then some (key.dir, m) else state.manifests k }

/-- A call with the lock: on the disk, but for the entries of its process that lie out of the root. -/
def mutate (w : Writers) (handle : Nat) (env : Env) (mutation : Mutation) (c : Call) : Writers :=
  let state := w.handles handle
  let kept := outsideRoot (w.shared state.process)
  let seen := w.store.viewed (c.loads w.store) kept
  let steps := (c.run env).trace seen
  let written : Writers :=
    { w with store := exec steps w.store, log := w.log ++ [⟨env, mutation, (c.run env).result seen⟩] }
  if c.clears env w.store then
    let entered := (c.enter env).final seen
    let found := (c.loads w.store).filterMap (fun key =>
      (entered.dirs key.dir).loadSeriesMeta.toOption.map (fun m => (key, m)))
    let saved := savedManifests (steps.drop ((c.enter env).trace seen).length)
    (written.setShared state.process (fun d =>
      (lastEntry (found.map (fun f => (f.1.dir, f.2)) ++ saved) d).or (kept d))).setHandle handle
      { state with
        manifests := lastEntry (found.map (fun f => (f.1.cacheKey, f.1.dir, f.2)) ++
          if c.key.isSome then saved.map (fun f => (seriesCacheKey f.2.symbol f.2.category f.2.name, f)) else [])
        started := none }
  else written.setHandle handle { state with started := none }

/-- A handle in an indicator call does nothing else. -/
def step (w : Writers) : WriterStep → Option Writers
  | .load handle key => if (w.handles handle).started.isSome then none else some (w.load handle key)
  | .refresh process d =>
    match (w.store.dirs d).loadSeriesMeta with
    | .error _ => some w
    | .ok m => some (w.setShared process (fun e => if e = d then some m else w.shared process e))
  | .clearReadCaches handle =>
    if (w.handles handle).started.isSome then none
    else some (w.setHandle handle { w.handles handle with manifests := fun _ => none })
  | .mutate handle env c =>
    if (w.handles handle).started.isSome then none else some (w.mutate handle env (.call c) c)
  | .start handle i =>
    if (w.handles handle).started.isSome then none
    else
      match w.loaded handle i.klines with
      | .error _ => some w
      | .ok m =>
        let next := w.load handle i.klines
        some (next.setHandle handle { next.handles handle with started := some (i, m.timeframeMs) })
  | .finish handle env =>
    match (w.handles handle).started with
    | none => none
    | some (i, timeframeMs) => some (w.mutate handle env (.indicator i) (i.call timeframeMs))

end Writers

/-! ## Serial executions -/

/-- The logged mutations one after another, each on a fresh handle, lead from the one store to the other with the
logged answers. -/
def Serial : Store → List LoggedMutation → Store → Prop
  | s, [], t => s = t
  | s, l :: rest, t => (l.mutation.run l.env).result s = l.answer ∧ Serial ((l.mutation.run l.env).final s) rest t

theorem Serial.snoc {l : LoggedMutation} : ∀ {log : List LoggedMutation} {s t : Store}, Serial s log t →
    (l.mutation.run l.env).result t = l.answer →
    Serial s (log ++ [l]) ((l.mutation.run l.env).final t)
  | [], _, _, h, ha => by
    obtain rfl : _ = _ := h
    exact ⟨ha, rfl⟩
  | _ :: _, _, _, h, ha => ⟨h.1, h.2.snoc ha⟩

theorem Serial.final_eq : ∀ {log : List LoggedMutation} {s t : Store}, Serial s log t →
    log.foldl (fun s l => (l.mutation.run l.env).final s) s = t
  | [], _, _, h => h
  | _ :: _, _, _, h => h.2.final_eq

namespace Writers

/-- The entries that the call finds in its process out of the root are those on disk. -/
def Current (w : Writers) (handle : Nat) (c : Call) : Prop :=
  ∀ key ∈ c.loads w.store, ∀ m, outsideRoot (w.shared (w.handles handle).process) key.dir = some m →
    (w.store.dirs key.dir).manifest = .current m

/-- What a mutation goes by that it has not loaded under the lock is as on disk. -/
def Unstale (w : Writers) : WriterStep → Prop
  | .mutate handle _ c => w.Current handle c
  | .finish handle _ => ∀ i timeframeMs, (w.handles handle).started = some (i, timeframeMs) →
    w.Current handle (i.call timeframeMs) ∧ ∃ m, (w.store.dirs i.klines.dir).loadSeriesMeta = .ok m ∧
      m.timeframeMs = timeframeMs
  | _ => True

variable {w next : Writers} {handle : Nat} {env : Env} {c : Call}

theorem viewed_eq {s : Store} {loads : List ScalarSeriesKey} {cached : Dir → Option SeriesMeta}
    (h : ∀ key ∈ loads, ∀ m, cached key.dir = some m → (s.dirs key.dir).manifest = .current m) :
    s.viewed loads cached = s := by
  have hdirs : (s.viewed loads cached).dirs = s.dirs := by
    funext d
    show ((if loads.any (fun key => decide (key.dir = d)) then cached d else none).map _).getD (s.dirs d) = s.dirs d
    by_cases hd : loads.any (fun key => decide (key.dir = d)) = true
    · rw [if_pos hd]
      obtain ⟨key, hkey, hdir⟩ := List.any_eq_true.1 hd
      obtain rfl := of_decide_eq_true hdir
      cases hm : cached key.dir with
      | none => rfl
      | some m =>
        rw [Option.map_some, Option.getD_some, ← h key hkey m hm]
    · rw [if_neg hd]
      rfl
  show { s with dirs := (s.viewed loads cached).dirs } = s
  rw [hdirs]

theorem Current.viewed (h : w.Current handle c) :
    w.store.viewed (c.loads w.store) (outsideRoot (w.shared (w.handles handle).process)) = w.store := viewed_eq h

/-- **A call that finds nothing stale runs as on a fresh handle.** -/
theorem mutate_current (h : w.Current handle c) (env : Env) (mutation : Mutation) :
    (w.mutate handle env mutation c).store = (c.run env).final w.store ∧
      (w.mutate handle env mutation c).log = w.log ++ [⟨env, mutation, (c.run env).result w.store⟩] := by
  unfold mutate
  simp only [h.viewed]
  split <;> exact ⟨rfl, rfl⟩

theorem load_store (w : Writers) (handle : Nat) (key : ScalarSeriesKey) : (w.load handle key).store = w.store ∧
    (w.load handle key).log = w.log := by
  unfold load
  simp only
  split
  · exact ⟨rfl, rfl⟩
  · split <;> exact ⟨rfl, rfl⟩

/-- An indicator call on a fresh handle is the scalar call with the timeframe on disk. -/
theorem indicator_run {s : Store} {i : IndicatorCall} {m : SeriesMeta}
    (h : (s.dirs i.klines.dir).loadSeriesMeta = .ok m) (env : Env) :
    (i.run env).result s = ((i.call m.timeframeMs).run env).result s ∧
      (i.run env).final s = ((i.call m.timeframeMs).run env).final s := by
  have hload : (loadMeta none i.klines.dir).result s = .ok m := h
  rw [IndicatorCall.run_eq]
  exact ⟨Prog.result_bind_ok hload _, Prog.final_bind_ok hload _⟩

/-- **The step lemma**: a step that goes by nothing stale keeps the execution serial. -/
theorem serial_step {first : Store} {a : WriterStep} (h : Serial first w.log w.store) (hc : w.Unstale a)
    (hs : w.step a = some next) :
    Serial first next.log next.store := by
  cases a with
  | load handle key =>
    simp only [step] at hs
    split at hs
    · cases hs
    · obtain rfl := Option.some.inj hs
      rw [(w.load_store handle key).1, (w.load_store handle key).2]
      exact h
  | refresh process d =>
    simp only [step] at hs
    split at hs <;> obtain rfl := Option.some.inj hs <;> exact h
  | clearReadCaches handle =>
    simp only [step] at hs
    split at hs
    · cases hs
    · obtain rfl := Option.some.inj hs
      exact h
  | mutate handle env c =>
    simp only [step] at hs
    split at hs
    · cases hs
    · obtain rfl := Option.some.inj hs
      obtain ⟨hstore, hlog⟩ := mutate_current hc env (.call c)
      rw [hstore, hlog]
      exact h.snoc rfl
  | start handle i =>
    simp only [step] at hs
    split at hs
    · cases hs
    · split at hs
      · obtain rfl := Option.some.inj hs
        exact h
      · obtain rfl := Option.some.inj hs
        have hload := w.load_store handle i.klines
        show Serial first (w.load handle i.klines).log (w.load handle i.klines).store
        rw [hload.1, hload.2]
        exact h
  | finish handle env =>
    simp only [step] at hs
    split at hs
    · cases hs
    · rename_i i timeframeMs hstarted
      obtain rfl := Option.some.inj hs
      obtain ⟨hcur, m, hm, rfl⟩ := hc i timeframeMs hstarted
      obtain ⟨hstore, hlog⟩ := mutate_current hcur env (.indicator i)
      obtain ⟨hres, hfin⟩ := indicator_run hm env
      rw [hstore, hlog, ← hfin, ← hres]
      exact h.snoc rfl

end Writers

/-! ## Orderly runs -/

/-- The directory has a manifest with the timeframe. -/
def HasTimeframe (s : Store) (d : Dir) (timeframeMs : Int) : Prop := ∃ m, (s.dirs d).manifest = .current m ∧
    m.timeframeMs = timeframeMs

section Timeframes

variable {B C : Nat} {s : Store} {d : Dir} {timeframeMs : Int} {env : Env} {c : Call}

theorem hasTimeframe_of_load {m : SeriesMeta} (h : (s.dirs d).loadSeriesMeta = .ok m) :
    HasTimeframe s d m.timeframeMs :=
  ⟨m, (SeriesDir.loadSeriesMeta_eq_ok h).1, rfl⟩

theorem HasTimeframe.congr {t : Store} (h : HasTimeframe s d timeframeMs) (hd : t.dirs d = s.dirs d) :
    HasTimeframe t d timeframeMs := by
  unfold HasTimeframe
  rw [hd]
  exact h

theorem HasTimeframe.loads (h : HasTimeframe s d timeframeMs) (hg : GoodStore C s) :
    ∃ m, (s.dirs d).loadSeriesMeta = .ok m ∧ m.timeframeMs = timeframeMs := by
  obtain ⟨m, hm, htf⟩ := h
  exact ⟨m, hg.loads hm, htf⟩

/-- A directory of a store in order that has a manifest with the head. -/
theorem Headed.hasTimeframe {m : SeriesMeta} {new : Prop} (h : Headed d m new s) (hg : GoodStore C s)
    (hp : (s.dirs d).manifest.isPresent = true) :
    HasTimeframe s d m.timeframeMs := by
  cases hg.dir d with
  | empty hmiss _ =>
    rw [hmiss] at hp
    cases hp
  | @series m' hm _ =>
    refine ⟨m', hm, ?_⟩
    rw [h.head m' hm]

/-- No call changes the timeframe of a series. -/
theorem HasTimeframe.kept (h : HasTimeframe s d timeframeMs) (hg : GoodStore B s) (ht : c.Typed s)
    (hg' : GoodStore C ((c.run env).final s)) :
    HasTimeframe ((c.run env).final s) d timeframeMs := by
  have helse : ∀ {e : Dir} {m : SeriesMeta}, (∀ k ∈ (c.run env).trace s, k.Within e m) → d ≠ e →
    HasTimeframe ((c.run env).final s) d timeframeMs :=
    fun hw hne => h.congr (exec_within hw hne s)
  cases hk : c.key with
  | none => exact helse (c.run_within_none hg hk env (d ++ [[]]) (buildScalarMeta 0 ⟨[], [], []⟩ 0)) (by simp)
  | some key =>
    obtain ⟨m, ⟨new, hf, -⟩, hw⟩ := c.run_within hg ht hk env
    by_cases hd : d = key.dir
    · subst hd
      obtain ⟨m', hm', rfl⟩ := h
      obtain rfl := hf.same m' hm'
      exact (hf.headed.exec hw).hasTimeframe hg' (present_exec _ (by rw [hm']; rfl))
    · exact helse hw hd

theorem mem_savedManifests {ks : List IoStep} {m : SeriesMeta} (h : (d, m) ∈ savedManifests ks) :
    ∃ temp, IoStep.publishManifest d temp m ∈ ks := by
  unfold savedManifests at h
  obtain ⟨k, hk, he⟩ := List.mem_filterMap.1 h
  cases k with
  | publishManifest e temp m' =>
    obtain ⟨rfl, rfl⟩ := Prod.mk.inj (Option.some.inj he)
    exact ⟨temp, hk⟩
  | _ => cases he

/-- A manifest that was put in place is there afterwards. -/
theorem present_of_published {ks : List IoStep} {temp : Text} {m : SeriesMeta}
    (h : IoStep.publishManifest d temp m ∈ ks) (s : Store) :
    ((exec ks s).dirs d).manifest.isPresent = true := by
  obtain ⟨before, after, rfl⟩ := List.append_of_mem h
  rw [exec_append, exec_cons]
  refine present_exec after ?_
  rw [apply_dirs, IoStep.onDir, if_pos rfl]
  rfl

/-- What a call has saved has the timeframe of what it leaves. -/
theorem saved_hasTimeframe {temp : Text} {m : SeriesMeta} (hg : GoodStore B s) (ht : c.Typed s)
    (hg' : GoodStore C ((c.run env).final s)) (h : IoStep.publishManifest d temp m ∈ (c.run env).trace s) :
    HasTimeframe ((c.run env).final s) d m.timeframeMs := by
  cases hk : c.key with
  | none =>
    have hw := c.run_within_none hg hk env (d ++ [[]]) (buildScalarMeta 0 ⟨[], [], []⟩ 0) _ h
    have := congrArg List.length hw.1
    rw [List.length_append, List.length_singleton] at this
    omega
  | some key =>
    obtain ⟨m₀, ⟨new, hf, -⟩, hw⟩ := c.run_within hg ht hk env
    obtain ⟨rfl, hh⟩ := hw _ h
    have hafter := (hf.headed.exec hw).hasTimeframe hg' (present_of_published h s)
    rw [hh]
    exact hafter

end Timeframes

/-- A step under relative names, of a regular call, whose indicator call finds the manifest of its own klines, if any,
in its handle. -/
def Writers.Orderly (w : Writers) : WriterStep → Prop
  | .mutate _ env c => Healthy env c w.store ∧ ∀ key ∈ c.loads w.store, key.dir.head? ≠ some ['/']
  | .start handle i => ∀ d m, (w.handles handle).manifests i.klines.cacheKey = some (d, m) → d = i.klines.dir
  | .finish handle env => ∀ i timeframeMs, (w.handles handle).started = some (i, timeframeMs) →
    Healthy env (i.call timeframeMs) w.store ∧ ∀ key ∈ (i.call timeframeMs).loads w.store, key.dir.head? ≠ some ['/']
  | _ => True

/-- Whatever is cached has the timeframe that is on disk. -/
structure Writers.Held (w : Writers) : Prop where
  reached : ∃ root n, Run root Healthy n w.store
  shared : ∀ process d m, w.shared process d = some m → HasTimeframe w.store d m.timeframeMs
  cached : ∀ handle k d m, (w.handles handle).manifests k = some (d, m) → HasTimeframe w.store d m.timeframeMs
  started : ∀ handle i timeframeMs, (w.handles handle).started = some (i, timeframeMs) →
    HasTimeframe w.store i.klines.dir timeframeMs

namespace Writers

variable {w next : Writers} {handle : Nat} {env : Env} {c : Call}

theorem held_opened {s : Store} (h : ∃ root n, Run root Healthy n s) (process : Nat → Nat) :
    Held (opened s process) where
  reached := h
  shared _ _ _ hm := by cases hm
  cached _ _ _ _ hm := by cases hm
  started _ _ _ hi := by cases hi

theorem Held.setShared (h : Held w) {process : Nat} {entries : Dir → Option SeriesMeta}
    (he : ∀ d m, entries d = some m → HasTimeframe w.store d m.timeframeMs) : Held (w.setShared process entries) where
  reached := h.reached
  shared p d m hm := by
    by_cases hp : p = process
    · refine he d m ?_
      simpa only [Writers.setShared, if_pos hp] using hm
    · refine h.shared p d m ?_
      simpa only [Writers.setShared, if_neg hp] using hm
  cached := h.cached
  started := h.started

theorem Held.setHandle (h : Held w) {state : WriterHandle} (hc : ∀ k d m, state.manifests k = some (d, m) →
      HasTimeframe w.store d m.timeframeMs)
    (hs : ∀ i timeframeMs, state.started = some (i, timeframeMs) → HasTimeframe w.store i.klines.dir timeframeMs) :
    Held (w.setHandle handle state) where
  reached := h.reached
  shared := h.shared
  cached e k d m hm := by
    by_cases he : e = handle
    · refine hc k d m ?_
      simpa only [Writers.setHandle, if_pos he] using hm
    · refine h.cached e k d m ?_
      simpa only [Writers.setHandle, if_neg he] using hm
  started e i timeframeMs hi := by
    by_cases he : e = handle
    · refine hs i timeframeMs ?_
      simpa only [Writers.setHandle, if_pos he] using hi
    · refine h.started e i timeframeMs ?_
      simpa only [Writers.setHandle, if_neg he] using hi

theorem Held.loaded (h : Held w) {key : ScalarSeriesKey} {m : SeriesMeta} {process : Nat}
    (hm : metaFor (w.shared process key.dir) (w.store.dirs key.dir) = .ok m) :
    HasTimeframe w.store key.dir m.timeframeMs := by
  cases hc : w.shared process key.dir with
  | some m' =>
    rw [hc] at hm
    obtain rfl := Except.ok.inj hm
    exact h.shared process key.dir m' hc
  | none =>
    rw [hc] at hm
    exact hasTimeframe_of_load hm

theorem Held.load (h : Held w) (key : ScalarSeriesKey) : Held (w.load handle key) := by
  unfold Writers.load
  simp only
  split
  · exact h
  · split
    · exact h
    · rename_i m hm
      have hnew := h.loaded hm
      refine (h.setShared (fun d m' hd => ?_)).setHandle (fun k d m' hk => ?_) (h.started handle)
      · by_cases he : d = key.dir
        · rw [if_pos he] at hd
          obtain rfl := Option.some.inj hd
          exact he ▸ hnew
        · rw [if_neg he] at hd
          exact h.shared _ d m' hd
      · by_cases he : k = key.cacheKey
        · simp only [if_pos he] at hk
          obtain ⟨rfl, rfl⟩ := Prod.mk.inj (Option.some.inj hk)
          exact hnew
        · simp only [if_neg he] at hk
          exact h.cached handle k d m' hk

/-- A call on the disk keeps the timeframes. -/
theorem Held.written (h : Held w) (hok : Healthy env c w.store) (log : List LoggedMutation) :
    Held { w with store := (c.run env).final w.store, log := log } := by
  obtain ⟨root, n, hrun⟩ := h.reached
  obtain ⟨B, hg⟩ := hrun.healthy
  have hrun' := hrun.call env c hok
  obtain ⟨C, hg'⟩ := hrun'.healthy
  exact ⟨⟨root, n + 1, hrun'⟩, fun p d m hm => (h.shared p d m hm).kept hg hok.regular.typed hg',
    fun e k d m hm => (h.cached e k d m hm).kept hg hok.regular.typed hg',
    fun e i timeframeMs hi => (h.started e i timeframeMs hi).kept hg hok.regular.typed hg'⟩

theorem current_of_relative (h : ∀ key ∈ c.loads w.store, key.dir.head? ≠ some ['/']) : w.Current handle c := by
  intro key hkey m hm
  unfold outsideRoot at hm
  rw [if_neg (h key hkey)] at hm
  cases hm

theorem mem_of_lastEntry {κ α : Type} [DecidableEq κ] {entries : List (κ × α)} {k : κ} {a : α}
    (h : lastEntry entries k = some a) : (k, a) ∈ entries := by
  obtain ⟨before, after, he, -⟩ := List.lookup_eq_some_iff.1 h
  exact List.mem_reverse.1 (he ▸ List.mem_append_right before List.mem_cons_self)

/-- What a call begins with leaves the directories. -/
theorem enter_dirs {C : Nat} {s : Store} (hg : GoodStore C s) (env : Env) (c : Call) (d : Dir) :
    ((c.enter env).final s).dirs d = s.dirs d := by
  cases c with
  | startupRecover => rfl
  | _ => exact (beginMutation_good hg env).2.2 d

/-- What a call caches has the timeframe of what it leaves. -/
theorem Held.cachedBy (h : Held w) (hok : Healthy env c w.store) {seen : Store} (hseen : seen = w.store) {d : Dir}
    {m : SeriesMeta} (hm : (∃ key ∈ c.loads w.store, key.dir = d ∧
      (((c.enter env).final seen).dirs d).loadSeriesMeta.toOption = some m) ∨
      (d, m) ∈ savedManifests (((c.run env).trace seen).drop ((c.enter env).trace seen).length)) :
    HasTimeframe ((c.run env).final w.store) d m.timeframeMs := by
  obtain ⟨root, n, hrun⟩ := h.reached
  obtain ⟨B, hg⟩ := hrun.healthy
  obtain ⟨C, hg'⟩ := (hrun.call env c hok).healthy
  subst hseen
  rcases hm with ⟨key, -, rfl, hm⟩ | hm
  · rw [enter_dirs hg] at hm
    cases hload : (w.store.dirs key.dir).loadSeriesMeta with
    | error e =>
      rw [hload] at hm
      cases hm
    | ok m' =>
      rw [hload] at hm
      obtain rfl := Option.some.inj hm
      exact (hasTimeframe_of_load hload).kept hg hok.regular.typed hg'
  · obtain ⟨temp, hmem⟩ := mem_savedManifests hm
    exact saved_hasTimeframe hg hok.regular.typed hg' (List.mem_of_mem_drop hmem)

theorem mem_found {loads : List ScalarSeriesKey} {s : Store} {f : ScalarSeriesKey × SeriesMeta}
    (h : f ∈ loads.filterMap (fun key => (s.dirs key.dir).loadSeriesMeta.toOption.map (fun m => (key, m)))) :
    f.1 ∈ loads ∧ (s.dirs f.1.dir).loadSeriesMeta.toOption = some f.2 := by
  obtain ⟨key, hkey, he⟩ := List.mem_filterMap.1 h
  obtain ⟨m, hm, rfl⟩ := Option.map_eq_some_iff.1 he
  exact ⟨hkey, hm⟩

theorem Held.mutate (h : Held w) (hok : Healthy env c w.store) (hcur : w.Current handle c) (mutation : Mutation) :
    Held (w.mutate handle env mutation c) := by
  have hseen := hcur.viewed
  unfold Writers.mutate
  simp only [hseen]
  have hwritten := h.written hok (w.log ++ [⟨env, mutation, (c.run env).result w.store⟩])
  split
  · refine (hwritten.setShared (fun d m hd => ?_)).setHandle (fun k d m hk => ?_) (fun i timeframeMs hi => by cases hi)
    · rcases Option.or_eq_some_iff.1 hd with hd | ⟨-, hd⟩
      · refine h.cachedBy hok rfl ?_
        rcases List.mem_append.1 (mem_of_lastEntry hd) with hf | hs
        · refine .inl ?_
          obtain ⟨f, hfound, he⟩ := List.mem_map.1 hf
          obtain ⟨rfl, rfl⟩ := Prod.mk.inj he
          exact ⟨f.1, (mem_found hfound).1, rfl, (mem_found hfound).2⟩
        · exact .inr hs
      · refine hwritten.shared (w.handles handle).process d m ?_
        unfold outsideRoot at hd
        split at hd
        · exact hd
        · cases hd
    · refine h.cachedBy hok rfl ?_
      rcases List.mem_append.1 (mem_of_lastEntry hk) with hf | hs
      · refine .inl ?_
        obtain ⟨f, hfound, he⟩ := List.mem_map.1 hf
        obtain ⟨-, he⟩ := Prod.mk.inj he
        obtain ⟨rfl, rfl⟩ := Prod.mk.inj he
        exact ⟨f.1, (mem_found hfound).1, rfl, (mem_found hfound).2⟩
      · refine .inr ?_
        split at hs
        · obtain ⟨f, hf, he⟩ := List.mem_map.1 hs
          obtain ⟨-, rfl⟩ := Prod.mk.inj he
          exact hf
        · cases hs
  · exact hwritten.setHandle (hwritten.cached handle) (fun i timeframeMs hi => by cases hi)

/-- **The step lemma of orderly runs**. -/
theorem Held.step {a : WriterStep} (h : Held w) (hc : w.Orderly a) (hs : w.step a = some next) : Held next := by
  cases a with
  | load handle key =>
    simp only [Writers.step] at hs
    split at hs
    · cases hs
    · obtain rfl := Option.some.inj hs
      exact h.load key
  | refresh process d =>
    simp only [Writers.step] at hs
    split at hs
    · obtain rfl := Option.some.inj hs
      exact h
    · rename_i m hm
      obtain rfl := Option.some.inj hs
      refine h.setShared (fun e m' he => ?_)
      by_cases hd : e = d
      · rw [if_pos hd] at he
        obtain rfl := Option.some.inj he
        exact hd ▸ hasTimeframe_of_load hm
      · rw [if_neg hd] at he
        exact h.shared process e m' he
  | clearReadCaches handle =>
    simp only [Writers.step] at hs
    split at hs
    · cases hs
    · obtain rfl := Option.some.inj hs
      exact h.setHandle (fun k d m hk => by cases hk) (h.started handle)
  | mutate handle env c =>
    simp only [Writers.step] at hs
    split at hs
    · cases hs
    · obtain rfl := Option.some.inj hs
      exact h.mutate hc.1 (current_of_relative hc.2) _
  | start handle i =>
    simp only [Writers.step] at hs
    split at hs
    · cases hs
    · split at hs
      · obtain rfl := Option.some.inj hs
        exact h
      · rename_i m hm
        obtain rfl := Option.some.inj hs
        have hload : Held (w.load handle i.klines) := h.load i.klines
        refine hload.setHandle (hload.cached handle) (fun i' timeframeMs hi => ?_)
        obtain ⟨rfl, rfl⟩ := Prod.mk.inj (Option.some.inj hi)
        rw [(w.load_store handle i.klines).1]
        unfold Writers.loaded at hm
        split at hm
        · rename_i d m' hcached
          obtain rfl := Except.ok.inj hm
          exact hc d m' hcached ▸ h.cached handle _ d m' hcached
        · exact h.loaded hm
  | finish handle env =>
    simp only [Writers.step] at hs
    split at hs
    · cases hs
    · rename_i i timeframeMs hstarted
      obtain rfl := Option.some.inj hs
      obtain ⟨hok, hrel⟩ := hc i timeframeMs hstarted
      exact h.mutate hok (current_of_relative hrel) _

/-- In an orderly step nothing is stale. -/
theorem Held.unstale {a : WriterStep} (h : Held w) (hc : w.Orderly a) : w.Unstale a := by
  cases a with
  | mutate handle env c => exact current_of_relative hc.2
  | finish handle env =>
    intro i timeframeMs hstarted
    obtain ⟨-, hrel⟩ := hc i timeframeMs hstarted
    obtain ⟨root, n, hrun⟩ := h.reached
    obtain ⟨B, hg⟩ := hrun.healthy
    exact ⟨current_of_relative hrel, (h.started handle i timeframeMs hstarted).loads hg⟩
  | _ => trivial

end Writers

/-- **In a run whose mutations go by nothing stale, they are a serial execution on fresh handles; and nothing is stale
in an orderly run.** -/
theorem writers_serial {start : Store} {process : Nat → Nat} {steps : List WriterStep} {w : Writers}
    (h : run Writers.step (Writers.opened start process) steps = some w) :
    (Meets Writers.step Writers.Unstale (Writers.opened start process) steps → Serial start w.log w.store) ∧
    ((∃ root n, Run root Healthy n start) → Meets Writers.step Writers.Orderly (Writers.opened start process) steps →
      Serial start w.log w.store) := by
  refine ⟨fun hm => ?_, fun hrun hm => ?_⟩
  · have hstep : ∀ (s : Writers) a next, Serial start s.log s.store → s.Unstale a → s.step a = some next →
      Serial start next.log next.store :=
      fun _ _ _ hi hc hs => Writers.serial_step hi hc hs
    have hopened : Serial start (Writers.opened start process).log (Writers.opened start process).store := rfl
    have hserial := run_keeps hstep steps hopened hm h
    exact hserial
  · have hstep : ∀ (s : Writers) a next, s.Held ∧ Serial start s.log s.store → s.Orderly a → s.step a = some next →
        next.Held ∧ Serial start next.log next.store :=
      fun _ _ _ hi hc hs => ⟨hi.1.step hc hs, Writers.serial_step hi.2 (hi.1.unstale hc) hs⟩
    have hopened : (Writers.opened start process).Held ∧
      Serial start (Writers.opened start process).log (Writers.opened start process).store :=
      ⟨Writers.held_opened hrun process, rfl⟩
    have hboth := run_keeps hstep steps hopened hm h
    exact hboth.2

/-- Two handles in two processes put a month each; the second has read before the first put its own. -/
def sampleAlternation (symbol : Text) : List WriterStep :=
  [.mutate 0 (Env.plain 5) (.registerScalar ⟨symbol, "c", "n"⟩ 60000), .load 1 ⟨symbol, "c", "n"⟩,
    .mutate 0 (Env.plain 5) (.putScalar ⟨symbol, "c", "n"⟩ 60000 sampleJanuaryRows 1),
    .mutate 1 (Env.plain 5) (.putScalar ⟨symbol, "c", "n"⟩ 60000 sampleFebruaryRows 1)]

def sampleWriters (symbol : Text) : Option Writers :=
  run Writers.step (Writers.opened (Store.empty []) (fun handle => handle)) (sampleAlternation symbol)

/-- The store has so many chunks of the series. -/
def holdsChunks (symbol : Text) (n : Nat) (s : Store) : Bool :=
  (s.dirs (seriesDir symbol "c" "n")).tests (fun m => decide (m.chunks.length = n))

theorem writers_serial_sample : ∃ w, sampleWriters "S" = some w ∧ Serial (Store.empty []) w.log w.store ∧
    w.log.length = 3 ∧
    holdsChunks "S" 2 w.store = true := by
  have htest : (sampleWriters "S").any (fun w => decide (w.log.length = 3) && holdsChunks "S" 2 w.store) = true := by
    decide +kernel
  obtain ⟨w, hw, htest⟩ := (Option.any_eq_true _ _).1 htest
  obtain ⟨hlog, hchunks⟩ := Bool.and_eq_true_iff.1 htest
  have hmeets : Meets Writers.step Writers.Unstale (Writers.opened (Store.empty []) (fun handle =>
    handle)) (sampleAlternation "S") := by
    refine ⟨Writers.current_of_relative ?_, fun _ _ => ⟨trivial, fun _ _ => ⟨Writers.current_of_relative ?_, fun _ _ =>
      ⟨Writers.current_of_relative ?_, fun _ _ => trivial⟩⟩⟩⟩ <;> simp only [Call.loads, Call.key, Option.toList_some,
        List.forall_mem_singleton] <;> decide
  exact ⟨w, hw, (writers_serial hw).1 hmeets, of_decide_eq_true hlog, hchunks⟩

/-- The environments of a step remove what they are asked to. -/
def WriterStep.Faultless : WriterStep → Prop
  | .mutate _ env _ => env.Faultless
  | .finish _ env => env.Faultless
  | _ => True

/-- Under an absolute name the second put begins with the manifest that its process has read, and the first is lost. -/
theorem update_lost : ¬ ∀ start process steps w, (∃ root n, Run root Healthy n start) →
    (∀ a ∈ steps, WriterStep.Faultless a) →
    run Writers.step (Writers.opened start process) steps = some w → (∀ l ∈ w.log, l.answer.isOk = true) →
      Serial start w.log w.store := by
  intro h
  have htest : (sampleWriters "/S").any (fun w => w.log.all (fun l => l.answer.isOk) && (holdsChunks "/S" 1 w.store &&
      holdsChunks "/S" 2 (w.log.foldl (fun s l => (l.mutation.run l.env).final s) (Store.empty [])))) = true := by
        decide +kernel
  obtain ⟨w, hw, htest⟩ := (Option.any_eq_true _ _).1 htest
  obtain ⟨hlog, htest⟩ := Bool.and_eq_true_iff.1 htest
  obtain ⟨hone, htwo⟩ := Bool.and_eq_true_iff.1 htest
  have hfull : ∀ a ∈ sampleAlternation "/S", WriterStep.Faultless a := by
    simp [sampleAlternation, WriterStep.Faultless, plain_faultless]
  have hserial := h (Store.empty []) (fun handle => handle) (sampleAlternation "/S") w ⟨[], 0,
    .start⟩ hfull hw (List.all_eq_true.1 hlog)
  rw [hserial.final_eq] at htwo
  obtain ⟨m, hm, hm1⟩ := SeriesDir.of_tests hone
  obtain ⟨m', hm', hm2⟩ := SeriesDir.of_tests htwo
  obtain rfl := ManifestFile.current.inj (hm.symm.trans hm')
  exact absurd ((of_decide_eq_true hm1).symm.trans (of_decide_eq_true hm2)) (by decide)

end FastK
