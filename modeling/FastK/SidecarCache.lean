import FastK.Index
import FastK.Lib.Recency
import FastK.Lib.Transitions
/-!
# The cache of sidecars

`ScalarSidecarRuntime` caches the zone maps and the value indexes that queries have read, each kind in a map with a
queue of last use under a lock of its own.  `get_zmap` and `get_vix` look a key up, read the file with no lock held
where it is missing, and enter what they have read, whether or not another caller has by then; an invalidation and a
clearing take the two locks one after the other.  The calls of any number of callers are interleaved lock by lock
(`ScalarSidecarRuntime.step`).  In every state reached each queue holds the keys of its map, each once, so the loop
that makes room ends, within the capacity, and does not take what has just been entered (`sidecar_caches_tracked`).
-/
namespace FastK

open Transitions Recency

structure SidecarCacheKey where
  generation : Nat
  checksum : Nat
  relativePath : Text
  deriving DecidableEq, Repr

inductive SidecarKind where
  | zmap
  | vix
  deriving DecidableEq, Repr

/-- What is read from a sidecar. -/
abbrev SidecarKind.Entries : SidecarKind → Type
  | .zmap => List ZoneMapEntry
  | .vix => List ValueIndexEntry

abbrev SidecarCacheState (kind : SidecarKind) := Cache SidecarCacheKey kind.Entries

/-- Where a caller stands. -/
inductive SidecarPhase where
  | idle
  /-- The key was not found; the file is being read. -/
  | missed (kind : SidecarKind) (key : SidecarCacheKey)
  /-- The zone maps are invalidated; the value indexes are to be. -/
  | invalidating (relativePathPrefix : Text)
  /-- The zone maps are cleared; the value indexes are to be. -/
  | clearing
  deriving DecidableEq, Repr

/-- Entries under a key: read from the file, or given out. -/
structure SidecarAnswer where
  kind : SidecarKind
  key : SidecarCacheKey
  entries : kind.Entries

/-- The caches, where their callers stand, and what has been read and given out so far. -/
structure ScalarSidecarRuntime where
  capacity : Nat
  caches : ∀ kind, SidecarCacheState kind
  callers : Nat → SidecarPhase
  reads : List SidecarAnswer
  answers : List SidecarAnswer

inductive SidecarStep where
  /-- The first part of `get_zmap` and `get_vix`. -/
  | lookup (caller : Nat) (kind : SidecarKind) (key : SidecarCacheKey)
  /-- The second part, with what was read. -/
  | insert (caller : Nat) (kind : SidecarKind) (key : SidecarCacheKey) (read : Result kind.Entries)
  | invalidate (caller : Nat) (relativePathPrefix : Text)
  | invalidateVix (caller : Nat)
  | clear (caller : Nat)
  | clearVix (caller : Nat)

def defaultSidecarCacheCapacity : Nat := 64

/-- `invalidate_matching`. -/
def invalidateMatching {kind : SidecarKind} (state : SidecarCacheState kind) (relativePathPrefix : Text) :
    SidecarCacheState kind :=
  state.retain (fun key => !relativePathPrefix.isPrefixOf key.relativePath)

namespace ScalarSidecarRuntime

def withCapacity (capacity : Nat) : ScalarSidecarRuntime := ⟨capacity, fun _ => .empty, fun _ => .idle, [], []⟩

def new : ScalarSidecarRuntime := withCapacity defaultSidecarCacheCapacity

def setCache (s : ScalarSidecarRuntime) (kind : SidecarKind) (state : SidecarCacheState kind) : ScalarSidecarRuntime :=
  { s with caches := Function.update s.caches kind state }

def setPhase (s : ScalarSidecarRuntime) (caller : Nat) (phase : SidecarPhase) : ScalarSidecarRuntime :=
  { s with callers := Function.update s.callers caller phase }

def answer (s : ScalarSidecarRuntime) (a : SidecarAnswer) : ScalarSidecarRuntime := { s with answers := a :: s.answers }

/-- Under the lock again: the entries are put in, used, and room is made; `none` where that does not end. -/
def put (s : ScalarSidecarRuntime) (kind : SidecarKind) (key : SidecarCacheKey) (entries : kind.Entries) :
    Option ScalarSidecarRuntime :=
  (((s.caches kind).enter key entries).trim s.capacity).map (fun state =>
    { s with
      caches := Function.update s.caches kind state
      reads := ⟨kind, key, entries⟩ :: s.reads
      answers := ⟨kind, key, entries⟩ :: s.answers })

def step (s : ScalarSidecarRuntime) : SidecarStep → Option ScalarSidecarRuntime
  | .lookup caller kind key =>
    if s.callers caller = .idle then
      match (s.caches kind).values.lookup key with
      | some entries => some ((s.setCache kind ((s.caches kind).touch key)).answer ⟨kind, key, entries⟩)
      | none => some (s.setPhase caller (.missed kind key))
    else none
  | .insert caller kind key read =>
    if s.callers caller = .missed kind key then
      match read with
      | .error _ => some (s.setPhase caller .idle)
      | .ok entries => (s.put kind key entries).map (fun t => t.setPhase caller .idle)
    else none
  | .invalidate caller relativePathPrefix =>
    if s.callers caller = .idle then
      some ((s.setCache .zmap (invalidateMatching (s.caches .zmap) relativePathPrefix)).setPhase caller
        (.invalidating relativePathPrefix))
    else none
  | .invalidateVix caller =>
    match s.callers caller with
    | .invalidating relativePathPrefix =>
        some ((s.setCache .vix (invalidateMatching (s.caches .vix) relativePathPrefix)).setPhase caller .idle)
    | _ => none
  | .clear caller =>
      if s.callers caller = .idle then some ((s.setCache .zmap .empty).setPhase caller .clearing) else none
  | .clearVix caller =>
      if s.callers caller = .clearing then some ((s.setCache .vix .empty).setPhase caller .idle) else none

/-! ## The invariant -/

structure Valid (capacity : Nat) (s : ScalarSidecarRuntime) : Prop where
  capacity_eq : s.capacity = capacity
  tracked : ∀ kind, (s.caches kind).Tracked
  bounded : ∀ kind, (s.caches kind).size ≤ capacity
  cached : ∀ kind key entries, (s.caches kind).values.lookup key = some entries →
    (⟨kind, key, entries⟩ : SidecarAnswer) ∈ s.reads
  given : ∀ a ∈ s.answers, a ∈ s.reads

variable {capacity : Nat} {s t : ScalarSidecarRuntime} {caller : Nat} {kind : SidecarKind} {key : SidecarCacheKey}

theorem valid_withCapacity (capacity : Nat) : Valid capacity (withCapacity capacity) where
  capacity_eq := rfl
  tracked _ := Cache.Tracked.empty
  bounded _ := Nat.zero_le _
  cached kind key entries h := by cases h
  given a ha := absurd ha List.not_mem_nil

theorem Valid.setPhase (h : Valid capacity s) (phase : SidecarPhase) : Valid capacity (s.setPhase caller phase) :=
  ⟨h.capacity_eq, h.tracked, h.bounded, h.cached, h.given⟩

theorem Valid.answer (h : Valid capacity s) {a : SidecarAnswer} (ha : a ∈ s.reads) : Valid capacity (s.answer a) :=
  ⟨h.capacity_eq, h.tracked, h.bounded, h.cached, List.forall_mem_cons.2 ⟨ha, h.given⟩⟩

/-- One cache changes, and keeps to what has been read. -/
theorem Valid.setCache (h : Valid capacity s) {state : SidecarCacheState kind} (ht : state.Tracked)
    (hb : state.size ≤ capacity) (hc : ∀ key entries, state.values.lookup key = some entries →
      (⟨kind, key, entries⟩ : SidecarAnswer) ∈ s.reads) :
    Valid capacity (s.setCache kind state) := by
  have hother : ∀ (p : ∀ k, SidecarCacheState k → Prop), p kind state → (∀ k, p k (s.caches k)) →
    ∀ k, p k (Function.update s.caches kind state k) := by
    intro p hp hall k
    by_cases hk : k = kind
    · subst hk
      rwa [Function.update_self]
    · rw [Function.update_of_ne hk]
      exact hall k
  exact ⟨h.capacity_eq, hother (fun _ c => c.Tracked) ht h.tracked, hother (fun _ c => c.size ≤ capacity) hb h.bounded,
    hother (fun k c => ∀ key entries, c.values.lookup key = some entries →
      (⟨k, key, entries⟩ : SidecarAnswer) ∈ s.reads) hc h.cached, h.given⟩

theorem Valid.clear (h : Valid capacity s) : Valid capacity (s.setCache kind .empty) :=
  h.setCache Cache.Tracked.empty (Nat.zero_le _) (fun _ _ hk => by cases hk)

theorem Valid.invalidate (h : Valid capacity s) (relativePathPrefix : Text) :
    Valid capacity (s.setCache kind (invalidateMatching (s.caches kind) relativePathPrefix)) :=
  h.setCache ((h.tracked kind).retain _) ((Cache.size_retain_le _).trans (h.bounded kind))
    (fun key entries hk => h.cached kind key entries (Cache.lookup_of_retain hk))

theorem Valid.hit (h : Valid capacity s) {entries : kind.Entries}
    (hk : (s.caches kind).values.lookup key = some entries) :
    Valid capacity ((s.setCache kind ((s.caches kind).touch key)).answer ⟨kind, key, entries⟩) := by
  have hmem : key ∈ (s.caches kind).values := AList.lookup_isSome.1 (by rw [hk]; rfl)
  exact (h.setCache ((h.tracked kind).touch hmem) (h.bounded kind) (h.cached kind)).answer (h.cached kind key entries hk)

/-- **Room is made, whatever is put in.** -/
theorem Valid.put (h : Valid capacity s) (kind : SidecarKind) (key : SidecarCacheKey) (entries : kind.Entries) :
    ∃ t, s.put kind key entries = some t ∧ Valid capacity t ∧ (1 ≤ capacity → (t.caches kind).values.lookup key = some entries) := by
  obtain ⟨state, htrim, ht, hsize, hstays, hfrom⟩ := Cache.enter_trim (h.tracked kind) key entries capacity
  have hread : Valid capacity { s with reads := ⟨kind, key, entries⟩ :: s.reads, answers := ⟨kind, key, entries⟩ :: s.answers } :=
    ⟨h.capacity_eq, h.tracked, h.bounded, fun k key' e' hk => List.mem_cons_of_mem _ (h.cached k key' e' hk),
      List.forall_mem_cons.2 ⟨List.mem_cons_self, fun a ha => List.mem_cons_of_mem _ (h.given a ha)⟩⟩
  have hset := hread.setCache ht hsize (fun key' entries' hk => by
    rcases hfrom key' entries' hk with ⟨rfl, rfl⟩ | hold
    · exact List.mem_cons_self
    · exact List.mem_cons_of_mem _ (h.cached kind key' entries' hold))
  refine ⟨_, ?_, hset, fun hcap => ?_⟩
  · unfold ScalarSidecarRuntime.put
    rw [h.capacity_eq, htrim]
    rfl
  · show ((Function.update s.caches kind state) kind).values.lookup key = some entries
    rw [Function.update_self]
    exact hstays hcap

/-- **Every step keeps the invariant.** -/
theorem Valid.step (h : Valid capacity s) {a : SidecarStep} (hs : s.step a = some t) : Valid capacity t := by
  cases a with
  | lookup caller kind key =>
    simp only [ScalarSidecarRuntime.step] at hs
    split at hs
    · cases hk : (s.caches kind).values.lookup key with
      | some entries =>
        rw [hk] at hs
        obtain rfl := Option.some.inj hs
        exact h.hit hk
      | none =>
        rw [hk] at hs
        obtain rfl := Option.some.inj hs
        exact h.setPhase _
    · cases hs
  | insert caller kind key read =>
    simp only [ScalarSidecarRuntime.step] at hs
    split at hs
    · cases read with
      | error e =>
        obtain rfl := Option.some.inj hs
        exact h.setPhase _
      | ok entries =>
        obtain ⟨u, hput, hu, -⟩ := h.put kind key entries
        simp only [hput, Option.map_some] at hs
        obtain rfl := Option.some.inj hs
        exact hu.setPhase _
    · cases hs
  | invalidate caller relativePathPrefix =>
    simp only [ScalarSidecarRuntime.step] at hs
    split at hs
    · obtain rfl := Option.some.inj hs
      exact (h.invalidate _).setPhase _
    · cases hs
  | invalidateVix caller =>
    simp only [ScalarSidecarRuntime.step] at hs
    split at hs
    · obtain rfl := Option.some.inj hs
      exact (h.invalidate _).setPhase _
    · cases hs
  | clear caller =>
    simp only [ScalarSidecarRuntime.step] at hs
    split at hs
    · obtain rfl := Option.some.inj hs
      exact h.clear.setPhase _
    · cases hs
  | clearVix caller =>
    simp only [ScalarSidecarRuntime.step] at hs
    split at hs
    · obtain rfl := Option.some.inj hs
      exact h.clear.setPhase _
    · cases hs

/-- **The run lemma.** -/
theorem valid_run {steps : List SidecarStep}
    (h : run ScalarSidecarRuntime.step (withCapacity capacity) steps = some s) : Valid capacity s :=
  run_invariant (fun _ _ _ hv hs => hv.step hs) steps (valid_withCapacity capacity) h

/-- Nothing is given out under a key that was not read under it. -/
theorem answers_read {steps : List SidecarStep}
    (h : run ScalarSidecarRuntime.step (withCapacity capacity) steps = some s) : ∀ a ∈ s.answers, a ∈ s.reads :=
  (valid_run h).given

end ScalarSidecarRuntime

open ScalarSidecarRuntime in
/-- **In every state that the calls reach**, each queue holds the keys of its map, each once; so the loop that makes
room for another sidecar ends, after as many rounds as it may take, with at most `capacity` sidecars, the new one
among them if there is room for any. -/
theorem sidecar_caches_tracked {capacity : Nat} {steps : List SidecarStep} {s : ScalarSidecarRuntime}
    (h : run ScalarSidecarRuntime.step (withCapacity capacity) steps = some s) (kind : SidecarKind) :
    (s.caches kind).order.Nodup ∧ (∀ key, key ∈ (s.caches kind).order ↔ key ∈ (s.caches kind).values) ∧
      (s.caches kind).size ≤ capacity ∧
    ∀ key (entries : kind.Entries), ∃ state : SidecarCacheState kind,
      (∀ rounds, ((s.caches kind).enter key entries).order.length < rounds →
        Cache.trimLoop s.capacity rounds ((s.caches kind).enter key entries) = some state) ∧
      state.order.Nodup ∧ (∀ k, k ∈ state.order ↔ k ∈ state.values) ∧ state.size ≤ capacity ∧
      (1 ≤ capacity → state.values.lookup key = some entries) := by
  have hv := valid_run h
  refine ⟨(hv.tracked kind).nodup, (hv.tracked kind).mem_iff, hv.bounded kind, fun key entries => ?_⟩
  obtain ⟨state, htrim, ht, hsize, hstays, -⟩ := Cache.enter_trim (hv.tracked kind) key entries capacity
  refine ⟨state, fun rounds hr => ?_, ht.nodup, ht.mem_iff, hsize, hstays⟩
  rw [Cache.trimLoop_rounds rounds _ hr, hv.capacity_eq, htrim]

def sampleSidecarKey (generation : Nat) : SidecarCacheKey := ⟨generation, 0, "chunks/a.vix"⟩

/-- Two callers miss one key at once; two more keys are read, a sidecar is invalidated between the locks, and one is
used again. -/
def sampleSidecarSteps : List SidecarStep :=
  [.lookup 0 .vix (sampleSidecarKey 1), .lookup 1 .vix (sampleSidecarKey 1),
    .insert 1 .vix (sampleSidecarKey 1) (.ok [⟨7, 0⟩]),
    .lookup 2 .vix (sampleSidecarKey 2), .insert 2 .vix (sampleSidecarKey 2) (.ok []),
      .insert 0 .vix (sampleSidecarKey 1) (.ok [⟨7, 0⟩]),
    .invalidate 3 "chunks/b", .lookup 1 .vix (sampleSidecarKey 1), .invalidateVix 3,
      .lookup 2 .vix (sampleSidecarKey 3)]

/-- The third sidecar takes the place of the second, which was used longest ago. -/
theorem sidecar_caches_tracked_sample :
    ∃ s, run ScalarSidecarRuntime.step (ScalarSidecarRuntime.withCapacity 2) sampleSidecarSteps = some s ∧
    (s.caches .vix).order = [sampleSidecarKey 2, sampleSidecarKey 1] ∧ (s.caches .vix).order.Nodup ∧ ∃ state :
    SidecarCacheState .vix,
      Cache.trimLoop s.capacity 4 ((s.caches .vix).enter (sampleSidecarKey 3) []) = some state ∧
        state.values.lookup (sampleSidecarKey 3) = some [] := by
  have htest : (run ScalarSidecarRuntime.step (ScalarSidecarRuntime.withCapacity 2) sampleSidecarSteps).any
      (fun s => decide ((s.caches .vix).order = [sampleSidecarKey 2, sampleSidecarKey 1])) = true := by decide +kernel
  obtain ⟨s, hs, horder⟩ := (Option.any_eq_true _ _).1 htest
  have horder := of_decide_eq_true horder
  obtain ⟨hnodup, -, -, hroom⟩ := sidecar_caches_tracked hs .vix
  obtain ⟨state, hloop, -, -, -, hstays⟩ := hroom (sampleSidecarKey 3) []
  refine ⟨s, hs, horder, hnodup, state, hloop 4 ?_, hstays (by decide)⟩
  show (Cache.touched (s.caches .vix).order (sampleSidecarKey 3)).length < 4
  rw [horder]
  decide +kernel

end FastK
