import FastK.Types
import FastK.Lib.SecondChance
import FastK.Lib.Transitions
/-!
# The cache of open chunk files

`ChunkFileCache` keeps the files of chunks open, in a map under one lock with a queue for second-chance eviction.  An
`open` looks its key up under the read lock, opens the file with no lock held, and enters it under the write lock
unless another caller has by then.  The calls of any number of threads are interleaved phase by phase, with
invalidations in between (`FileCacheSystem.step`).  In every state reached the queue holds the keys of the map, each
once and no more than the capacity, no loop has run into an empty queue or a missing key, and every reader given out
is for a file opened under its key (`fileCache_invariant`).
-/
namespace FastK

open Transitions SecondChance

structure ChunkCacheKey where
  chunkId : Nat
  generation : Nat
  seriesId : Nat
  relativePath : Text
  deriving DecidableEq, Repr

/-- The files map and the order queue. -/
abbrev FileCacheState (File : Type) := Cache ChunkCacheKey File

/-- Where a caller stands. -/
inductive OpenPhase (File : Type) where
  | idle
  /-- The key was not found; the file is to be opened. -/
  | missed (key : ChunkCacheKey) (path : Text)
  /-- The file is open; it is to be entered. -/
  | opened (key : ChunkCacheKey) (file : File)
  deriving DecidableEq, Repr

/-- A file that a caller opened, and the key it was opened under. -/
structure Opening (File : Type) where
  key : ChunkCacheKey
  path : Text
  file : File
  deriving DecidableEq, Repr

structure ChunkReader (File : Type) where
  key : ChunkCacheKey
  file : File
  deriving DecidableEq, Repr

/-- The cache, where its callers stand, the files opened and the readers given out so far, and what made a caller
panic. -/
structure FileCacheSystem (File : Type) where
  capacity : Nat
  cache : FileCacheState File
  callers : Nat → OpenPhase File
  openings : List (Opening File)
  readers : List (ChunkReader File)
  panic : Option Stop

inductive FileCacheStep (File : Type) where
  | lookup (caller : Nat) (key : ChunkCacheKey) (path : Text)
  /-- `File::open`, with its answer. -/
  | openFile (caller : Nat) (answer : Result File)
  | insert (caller : Nat)
  | invalidate (key : ChunkCacheKey)
  | clear

namespace FileCacheSystem

variable {File : Type}

/-- `ChunkFileCache::new`. -/
def new (capacity : Nat) : FileCacheSystem File := ⟨max capacity 1, .empty, fun _ => .idle, [], [], none⟩

def setPhase (s : FileCacheSystem File) (caller : Nat) (phase : OpenPhase File) : FileCacheSystem File :=
  { s with callers := Function.update s.callers caller phase }

/-- `CachedFile::reader`. -/
def reader (s : FileCacheSystem File) (key : ChunkCacheKey) (entry : Entry File) : FileCacheSystem File :=
  { s with cache := s.cache.touch key entry, readers := ⟨key, entry.value⟩ :: s.readers }

def opening (s : FileCacheSystem File) (o : Opening File) : FileCacheSystem File :=
  { s with openings := o :: s.openings }

/-- The second part of `open`, under the write lock. -/
def enter (s : FileCacheSystem File) (key : ChunkCacheKey) (file : File) : FileCacheSystem File :=
  match s.cache.entries.lookup key with
  | some entry => s.reader key entry
  | none =>
    match Cache.makeRoom s.capacity s.cache with
    | .error stop => { s with panic := some stop }
    | .ok cache => { s with cache := cache.add key file, readers := ⟨key, file⟩ :: s.readers }

/-- A panic leaves the lock poisoned: nothing goes on after it. -/
def step (s : FileCacheSystem File) (a : FileCacheStep File) : Option (FileCacheSystem File) :=
  if s.panic.isSome then none
  else
    match a with
    | .lookup caller key path =>
      match s.callers caller with
      | .idle =>
        match s.cache.entries.lookup key with
        | some entry => some (s.reader key entry)
        | none => some (s.setPhase caller (.missed key path))
      | _ => none
    | .openFile caller answer =>
      match s.callers caller with
      | .missed key path =>
        match answer with
        | .error _ => some (s.setPhase caller .idle)
        | .ok file => some ((s.opening ⟨key, path, file⟩).setPhase caller (.opened key file))
      | _ => none
    | .insert caller =>
      match s.callers caller with
      | .opened key file => some ((s.enter key file).setPhase caller .idle)
      | _ => none
    | .invalidate key => some { s with cache := s.cache.remove key }
    | .clear => some { s with cache := .empty }

/-! ## The invariant -/

/-- Some caller opened the file under the key. -/
def OpenedUnder (s : FileCacheSystem File) (key : ChunkCacheKey) (file : File) : Prop :=
  ∃ path, (⟨key, path, file⟩ : Opening File) ∈ s.openings

structure Valid (capacity : Nat) (s : FileCacheSystem File) : Prop where
  capacity_eq : s.capacity = max capacity 1
  tracked : s.cache.Tracked
  bounded : s.cache.order.length ≤ s.capacity
  calm : s.panic = none
  cached : ∀ key file, s.cache.value key = some file → s.OpenedUnder key file
  waiting : ∀ caller key file, s.callers caller = .opened key file → s.OpenedUnder key file
  given : ∀ r ∈ s.readers, s.OpenedUnder r.key r.file

variable {capacity : Nat} {s s' : FileCacheSystem File} {key : ChunkCacheKey} {file : File}

theorem valid_new : Valid capacity (new capacity : FileCacheSystem File) where
  capacity_eq := rfl
  tracked := Cache.Tracked.empty
  bounded := Nat.zero_le _
  calm := rfl
  cached key file h := by cases h
  waiting caller key file h := by cases h
  given r hr := absurd hr List.not_mem_nil

/-- A caller goes on to a phase in which it holds nothing, or a file opened under its key. -/
theorem Valid.setPhase (h : Valid capacity s) {caller : Nat} {phase : OpenPhase File}
    (hphase : ∀ key file, phase = .opened key file → s.OpenedUnder key file) :
    Valid capacity (s.setPhase caller phase) where
  capacity_eq := h.capacity_eq
  tracked := h.tracked
  bounded := h.bounded
  calm := h.calm
  cached := h.cached
  waiting c key file hc := by
    have hc : Function.update s.callers caller phase c = .opened key file := hc
    by_cases hcc : c = caller
    · rw [hcc, Function.update_self] at hc
      exact hphase key file hc
    · rw [Function.update_of_ne hcc] at hc
      exact h.waiting c key file hc
  given := h.given

theorem Valid.opening (h : Valid capacity s) (o : Opening File) : Valid capacity (s.opening o) := by
  have hmono : ∀ key file, s.OpenedUnder key file → (s.opening o).OpenedUnder key file :=
    fun key file ⟨path, hp⟩ => ⟨path, List.mem_cons_of_mem o hp⟩
  exact ⟨h.capacity_eq, h.tracked, h.bounded, h.calm, fun key file hk => hmono key file (h.cached key file hk),
    fun c key file hc => hmono key file (h.waiting c key file hc), fun r hr => hmono r.key r.file (h.given r hr)⟩

/-- The cache changes, and perhaps a reader is given out. -/
theorem Valid.change (h : Valid capacity s) {cache : FileCacheState File} {readers : List (ChunkReader File)}
    (ht : cache.Tracked) (hb : cache.order.length ≤ s.capacity) (hc : ∀ key file, cache.value key = some file →
      s.OpenedUnder key file)
    (hr : ∀ r ∈ readers, s.OpenedUnder r.key r.file) : Valid capacity { s with cache := cache, readers := readers } :=
  ⟨h.capacity_eq, ht, hb, h.calm, hc, h.waiting, hr⟩

theorem Valid.reader (h : Valid capacity s) {entry : Entry File} (hk : s.cache.entries.lookup key = some entry) :
    Valid capacity (s.reader key entry) := by
  have hvalue : s.cache.value key = some entry.value := by
    unfold Cache.value
    rw [hk]
    rfl
  refine h.change (h.tracked.touch hk) h.bounded
    (fun k file hf => ?_) (List.forall_mem_cons.2 ⟨h.cached key entry.value hvalue, h.given⟩)
  rw [Cache.touch_value hk] at hf
  exact h.cached k file hf

/-- **Entering a file finds room for it.** -/
theorem Valid.enter (h : Valid capacity s) (ho : s.OpenedUnder key file) : Valid capacity (s.enter key file) := by
  unfold FileCacheSystem.enter
  cases hk : s.cache.entries.lookup key with
  | some entry => exact h.reader hk
  | none =>
    have hpos : 0 < s.capacity := by
      have := h.capacity_eq
      omega
    obtain ⟨c', hroom, ht, hlen, hvalue⟩ := Cache.makeRoom_spec h.tracked hpos h.bounded
    rw [hroom]
    have hfree : c'.entries.lookup key = none := by
      have hnone : s.cache.value key = none := by
        unfold Cache.value
        rw [hk]
        rfl
      have hv := hvalue key
      rw [hnone, or_self] at hv
      exact Option.map_eq_none_iff.1 hv
    refine h.change (ht.add hfree) ?_ (fun k f hf => ?_) (List.forall_mem_cons.2 ⟨ho, h.given⟩)
    · show (c'.order ++ [key]).length ≤ s.capacity
      rw [List.length_append, List.length_singleton]
      omega
    · rw [Cache.add_value] at hf
      by_cases hkk : k = key
      · rw [if_pos hkk] at hf
        rw [hkk, ← Option.some.inj hf]
        exact ho
      · rw [if_neg hkk] at hf
        rcases hvalue k with hv | hv
        · exact h.cached k f (hv ▸ hf)
        · rw [hv] at hf
          cases hf

/-- **Every step keeps the invariant.** -/
theorem Valid.step (h : Valid capacity s) {a : FileCacheStep File} (hs : s.step a = some s') : Valid capacity s' := by
  unfold FileCacheSystem.step at hs
  have hgo : ¬ s.panic.isSome = true := by simp [h.calm]
  rw [if_neg hgo] at hs
  cases a with
  | lookup caller key path =>
    simp only at hs
    cases hp : s.callers caller with
    | idle =>
      rw [hp] at hs
      simp only at hs
      cases hk : s.cache.entries.lookup key with
      | some entry =>
        rw [hk] at hs
        obtain rfl := Option.some.inj hs
        exact h.reader hk
      | none =>
        rw [hk] at hs
        obtain rfl := Option.some.inj hs
        exact h.setPhase (fun key file heq => by cases heq)
    | missed k p => rw [hp] at hs; cases hs
    | opened k f => rw [hp] at hs; cases hs
  | openFile caller answer =>
    simp only at hs
    cases hp : s.callers caller with
    | missed key path =>
      rw [hp] at hs
      cases answer with
      | error e =>
        obtain rfl := Option.some.inj hs
        exact h.setPhase (fun key file heq => by cases heq)
      | ok file =>
        obtain rfl := Option.some.inj hs
        refine (h.opening ⟨key, path, file⟩).setPhase (fun k f heq => ?_)
        obtain ⟨rfl, rfl⟩ := OpenPhase.opened.inj heq
        exact ⟨path, List.mem_cons_self⟩
    | idle => rw [hp] at hs; cases hs
    | opened k f => rw [hp] at hs; cases hs
  | insert caller =>
    simp only at hs
    cases hp : s.callers caller with
    | opened key file =>
      rw [hp] at hs
      obtain rfl := Option.some.inj hs
      exact (h.enter (h.waiting caller key file hp)).setPhase (fun k f heq => by cases heq)
    | idle => rw [hp] at hs; cases hs
    | missed k p => rw [hp] at hs; cases hs
  | invalidate key =>
    obtain rfl := Option.some.inj hs
    refine h.change h.tracked.remove (le_trans Cache.length_remove_le h.bounded) (fun k file hf => ?_) h.given
    rw [Cache.remove_value] at hf
    by_cases hk : k = key
    · rw [if_pos hk] at hf
      cases hf
    · rw [if_neg hk] at hf
      exact h.cached k file hf
  | clear =>
    obtain rfl := Option.some.inj hs
    exact h.change .empty (Nat.zero_le _) (fun k file hf => by cases hf) h.given

theorem run_valid {steps : List (FileCacheStep File)} (h : run step (new capacity) steps = some s) : Valid capacity s :=
  run_invariant (fun _ _ _ hv hs => hv.step hs) steps valid_new h

/-- **In every state reached the queue tracks the map within the capacity, a victim is found in two rounds over the
queue, no caller has panicked, and the readers given out are for files opened under their keys.** -/
theorem fileCache_invariant (capacity : Nat) (steps : List (FileCacheStep File)) (s : FileCacheSystem File)
    (h : run step (new capacity) steps = some s) :
    s.cache.order.Nodup ∧ (∀ key, key ∈ s.cache.order ↔ key ∈ s.cache.entries) ∧ s.cache.order.length ≤ max capacity 1 ∧
    (s.cache.order ≠ [] → ∃ cache victim, Cache.evict (2 * s.cache.order.length) s.cache = .ok cache ∧
      Cache.Evicted s.cache cache victim) ∧
    s.panic = none ∧ ∀ r ∈ s.readers, s.OpenedUnder r.key r.file := by
  have hv := run_valid h
  exact ⟨hv.tracked.nodup, hv.tracked.mem_iff, hv.capacity_eq ▸ hv.bounded, Cache.evict_two_rounds hv.tracked,
    hv.calm, hv.given⟩

def sampleCacheKey (id : Nat) : ChunkCacheKey := ⟨id, 0, 0, showNat id⟩

/-- Three callers miss at once in a cache for two files, one of them with another's key; the first key is hit, and
spared. -/
def sampleCacheSteps : List (FileCacheStep Nat) :=
  [.lookup 0 (sampleCacheKey 0) "0", .lookup 1 (sampleCacheKey 1) "1", .lookup 2 (sampleCacheKey 0) "0",
    .openFile 0 (.ok 10), .openFile 1 (.ok 11), .openFile 2 (.ok 12), .insert 0, .insert 1, .insert 2,
      .lookup 0 (sampleCacheKey 2) "2", .openFile 0 (.ok 13),
    .insert 0]

theorem fileCache_invariant_sample : ∃ s, run step (new 2) sampleCacheSteps = some s ∧
    s.cache.order = [sampleCacheKey 0, sampleCacheKey 2] ∧ s.cache.order.Nodup ∧ s.panic = none ∧
    s.readers.map (fun r => (r.key.chunkId, r.file)) = [(2, 13), (0, 10), (1, 11), (0, 10)] ∧
    ∀ r ∈ s.readers, s.OpenedUnder r.key r.file := by
  have hrun : ((run step (new 2) sampleCacheSteps).map
      (fun s => (s.cache.order, s.readers.map (fun r => (r.key.chunkId, r.file))))) =
      some ([sampleCacheKey 0, sampleCacheKey 2], [(2, 13), (0, 10), (1, 11), (0, 10)]) := by decide +kernel
  obtain ⟨s, hs, heq⟩ := Option.map_eq_some_iff.1 hrun
  obtain ⟨hnodup, -, -, -, hcalm, hgiven⟩ := fileCache_invariant 2 sampleCacheSteps s hs
  exact ⟨s, hs, congrArg Prod.fst heq, hnodup, hcalm, congrArg Prod.snd heq, hgiven⟩

end FileCacheSystem

end FastK
