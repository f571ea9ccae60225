import FastK.Lib.Stepwise
import FastK.Lib.Transitions
import FastK.Crashes
import FastK.Names
import FastK.SealedRoots
import FastK.Writers
/-!
# The lock of a root

Any number of processes open, read and change one root.  A change takes the lock of the root for itself, looks whether
the root is sealed and only then goes to work; a read-only handle shares the lock for as long as it is open; a handle
that may write reads without the lock (`storage/lock.rs`, `storage/manifest.rs`, `engine/store.rs`, `snapshot.rs`).
Every look at the disk and every durable step of every process is a step of its own here, processes may end anywhere,
and I/O may fail anywhere.  A change begins with the caches of its process, as far as the lock leaves them.  Where no
manifest is in JSON, which a read would migrate, and all names go down, the root is still what the changes make of it
one at a time, each on the disk alone (`locks_serial`), a read-only handle sees a root that stands still, and a sealed
root stays as it is (`locks_hold`).
-/
namespace FastK

open Journal Transitions

/-! ## What the lock guards -/

/-- The files below a root but for the lock file: the store, and the snapshot file. -/
structure Area where
  store : Store
  snapshot : Option SnapshotManifest

inductive AreaStep where
  | io (k : IoStep)
  | putSnapshot (snapshot : SnapshotManifest)

def AreaStep.apply : AreaStep → Area → Area
  | .io k, a => { a with store := k.apply a.store }
  | .putSnapshot snapshot, a => { a with snapshot := some snapshot }

instance : Journal.Store Area AreaStep := ⟨AreaStep.apply⟩

/-- An operation of the store, on the files below the root. -/
def onStore {α : Type} (p : Op α) : Prog Area AreaStep FastKError α :=
  fun a => ((p.trace a.store).map .io, p.result a.store)

/-- With the lock a call drops what its handle has cached, and what its process has cached below the root; an entry of
a directory out of the root stays, and the call goes by it. -/
def Call.runWith (env : Env) (shared : Dir → Option SeriesMeta) (c : Call) : Op Unit :=
  fun s => c.run env (s.viewed (c.loads s) (outsideRoot shared))

theorem Call.loads_names {c : Call} {s : Store} {key : ScalarSeriesKey} (h : key ∈ c.loads s) : key ∈ c.names := by
  cases c with
  | appendScalarRange k records timeframeMs =>
    cases timeframeMs with
    | none =>
      simp only [Call.loads] at h
      split at h
      · exact h
      · exact List.mem_singleton.1 h ▸ List.mem_cons_self
    | some timeframeMs => exact h
  | _ => exact h

/-- A call that finds nothing out of the root runs on the disk alone. -/
theorem Call.runWith_eq {shared : Dir → Option SeriesMeta} {c : Call}
    (h : ∀ s, ∀ key ∈ c.loads s, outsideRoot shared key.dir = none) (env : Env) : c.runWith env shared = c.run env := by
  funext s
  have hview : s.viewed (c.loads s) (outsideRoot shared) = s :=
    Writers.viewed_eq (fun key hkey m hm => by rw [h s key hkey] at hm; cases hm)
  exact congrArg (c.run env) hview

/-- **Under names that go down nothing is left in the caches that a call could go by.** -/
theorem Call.Plain.runWith {c : Call} (h : c.Plain) (env : Env) (shared : Dir → Option SeriesMeta) :
    c.runWith env shared = c.run env := by
  refine Call.runWith_eq (fun s key hkey => ?_) env
  have hinside := (h key (Call.loads_names hkey)).inside
  exact if_neg (fun habs => by simp [leavesSeries, habs] at hinside)

theorem Call.runWith_none (env : Env) (c : Call) : c.runWith env (fun _ => none) = c.run env :=
  Call.runWith_eq (fun _ _ _ => by simp [outsideRoot]) env

/-- A change of the files below the root, from the lock on: a call, with what its process has cached, or a sealing. -/
inductive Work where
  | call (env : Env) (shared : Dir → Option SeriesMeta) (c : Call)
  | sealRoot (env : Env) (legacy : Dir → LegacySeriesMeta) (ways : List Dir)

/-- The names of the work go down. -/
def Work.Plain : Work → Prop
  | .call _ _ c => c.Plain
  | .sealRoot .. => True

/-- The work in a process that has nothing cached. -/
def Work.fresh : Work → Work
  | .call env _ c => .call env (fun _ => none) c
  | work => work

/-- No manifest is in JSON. -/
def Area.Migrated (a : Area) : Prop := ∀ d, (a.store.dirs d).manifest.isLegacy = false

section Locks

-- the bytes of the manifest files that are not of the current format
variable (raw : Dir → List Nat) (sha : Sha256)

/-- What a work does with the lock; a sealing looks at the files. -/
def Work.prog : Work → Prog Area AreaStep FastKError Unit
  | .call env shared c => onStore (c.runWith env shared)
  | .sealRoot env legacy ways => do
    onStore (sealLocked env legacy ways)
    let a ← Prog.look
    let files ← Prog.lift (collectFiles raw sha a.store)
    Prog.emit (.putSnapshot ⟨1, sha.ofFiles files, files⟩)

abbrev AreaProc := Proc Area AreaStep FastKError Unit

/-- A handle that may write loads a manifest for a read. -/
def loadForRead (env : Env) (legacy : Dir → LegacySeriesMeta) (d : Dir) : Op Unit := do
  let _ ← loadSeriesMetaSharedMode env legacy false d
  pure ()

/-- It looks at the file and goes by what it saw. -/
def loadProc (env : Env) (legacy : Dir → LegacySeriesMeta) (d : Dir) : AreaProc :=
  .ofProg (onStore (loadForRead env legacy d))

/-- Where a process stands that changes the root, or has it open for reading. -/
inductive Party where
  | rooting (work : Work) (proc : AreaProc)
  | opening (work : Work) (proc : AreaProc)
  | locking (work : Work) (proc : AreaProc)
  | checking (work : Work) (proc : AreaProc)
  | working (work : Work) (left : AreaProc)
  | answered (work : Work) (answer : Result Unit)
  | finding
  | openingShared
  | missing
  | sharing
  | inspecting (locked : Bool) (found : Area)
  | reading (locked : Bool) (found : Area)
  | loading (left : AreaProc)
  | refused (e : FastKError)
  | gone

/-- A work that has had the lock, with its answer; it has none where it did not come to its end. -/
structure Turn where
  work : Work
  answer : Option (Result Unit)

/-- The root, the lock of the operating system on its lock file, and the processes. -/
structure Locks where
  rootDir : Bool
  lockFile : Bool
  area : Area
  exclusive : Option Nat
  shared : List Nat
  parties : List Party
  log : List Turn

inductive LockStep where
  /-- A work begins, as a program that goes step by step. -/
  | write (work : Work) (proc : AreaProc)
  | openReadOnly
  /-- A handle that may write loads a manifest, without the lock. -/
  | load (env : Env) (legacy : Dir → LegacySeriesMeta) (d : Dir)
  | next (party : Nat)
  /-- An I/O call of the process fails. -/
  | fault (party : Nat) (e : FastKError)
  /-- A read-only handle is dropped. -/
  | close (party : Nat)
  /-- The process ends, and the operating system takes its locks back. -/
  | die (party : Nat)

def storeBusy : FastKError := .invalidInput "FastK store is busy (reader, writer, or recovery holds its lock)"
def sealedReadOnly : FastKError := .invalidInput "sealed snapshot is read-only; create a new version"
def legacyStore : FastKError :=
  .invalidInput "legacy store has no persistent lock; initialize it once with a writable handle"
def requiresRecovery : FastKError := .invalidData "store requires explicit writable recovery"

namespace Locks

/-- A root with these files, and no process that has to do with it. -/
def start (rootDir lockFile : Bool) (area : Area) : Locks := ⟨rootDir, lockFile, area, none, [], [], []⟩

def goto (s : Locks) (i : Nat) (party : Party) : Locks := { s with parties := s.parties.set i party }

/-- A party stops, and its locks are released. -/
def release (s : Locks) (i : Nat) (party : Party) : Locks :=
  { s with
    parties := s.parties.set i party
    exclusive := if s.exclusive = some i then none else s.exclusive
    shared := s.shared.erase i }

/-- The next step of a party: `StoreWriteLock::acquire` and the work under the lock, or `StoreReadLock::acquire` and
`open_mode`. -/
def next (i : Nat) (s : Locks) : Party → Option Locks
  | .rooting work proc => some { s.goto i (.opening work proc) with rootDir := true }
  | .opening work proc => some { s.goto i (.locking work proc) with lockFile := true }
  | .locking work proc =>
    if s.exclusive.isSome || !s.shared.isEmpty then some (s.goto i (.answered work (.error storeBusy)))
    else some { s.goto i (.checking work proc) with exclusive := some i }
  | .checking work proc =>
    if s.area.snapshot.isSome then some (s.release i (.answered work (.error sealedReadOnly)))
    else some (s.goto i (.working work proc))
  | .working work (.look f) => some (s.goto i (.working work (f s.area)))
  | .working work (.emit k left) => some { s.goto i (.working work left) with area := k.apply s.area }
  | .working work (.done r) => some { s.release i (.answered work r) with log := s.log ++ [⟨work, some r⟩] }
  | .finding => some (s.goto i (if s.rootDir then .openingShared else .inspecting false s.area))
  | .openingShared => some (s.goto i (if s.lockFile then .sharing else .missing))
  | .missing => some (s.goto i (if s.area.store.seriesRoot then .refused legacyStore else .inspecting false s.area))
  | .sharing =>
    if s.exclusive.isSome then some (s.goto i (.refused storeBusy))
    else some { s.goto i (.inspecting true s.area) with shared := s.shared ++ [i] }
  | .inspecting locked found =>
    if s.area.store.pending then some (s.release i (.refused requiresRecovery))
    else some (s.goto i (.reading locked found))
  | .loading (.look f) => some (s.goto i (.loading (f s.area)))
  | .loading (.emit k left) => some { s.goto i (.loading left) with area := k.apply s.area }
  | .loading (.done _) => some (s.goto i .gone)
  | .answered .. | .reading .. | .refused _ | .gone => none

/-- A work that is cut off leaves a turn without an answer. -/
def cutOff (s : Locks) (i : Nat) (party : Party) : Party → Locks
  | .working work _ => { s.release i party with log := s.log ++ [⟨work, none⟩] }
  | _ => s.release i party

def step (s : Locks) : LockStep → Option Locks
  | .write work proc => some { s with parties := s.parties ++ [.rooting work proc] }
  | .openReadOnly => some { s with parties := s.parties ++ [.finding] }
  | .load env legacy d => some { s with parties := s.parties ++ [.loading (loadProc env legacy d)] }
  | .next i =>
    match s.parties[i]? with
    | some party => s.next i party
    | none => none
  | .fault i e =>
    match s.parties[i]? with
    | some (.rooting work _) | some (.opening work _) | some (.locking work _) =>
        some (s.goto i (.answered work (.error e)))
    | some (.working work left) => some (s.cutOff i (.answered work (.error e)) (.working work left))
    | some .openingShared | some .sharing | some (.loading _) => some (s.goto i (.refused e))
    | _ => none
  | .close i =>
    match s.parties[i]? with
    | some (.reading _ _) => some (s.release i .gone)
    | _ => none
  | .die i =>
    match s.parties[i]? with
    | some party => some (s.cutOff i .gone party)
    | none => none

end Locks

/-! ## One work after another -/

/-- The files after turns that were taken one at a time, each on what the one before left and by nothing but that: a
turn with an answer is the whole work. -/
inductive Took (start : Area) : List Turn → Area → Prop
  | start : Took start [] start
  | whole {log : List Turn} {a : Area} (work : Work) (h : Took start log a) (hopen : a.snapshot = none) :
      Took start (log ++ [⟨work, some ((work.fresh.prog raw sha).result a)⟩]) ((work.fresh.prog raw sha).final a)
  | stopped {log : List Turn} {a b : Area} (work : Work) (h : Took start log a) (hopen : a.snapshot = none)
      (hstop : Stopped (work.fresh.prog raw sha) a b) : Took start (log ++ [⟨work, none⟩]) b

/-- What holds of the party that stands there. -/
def Locks.PartyOk (start : Area) (s : Locks) (i : Nat) : Party → Prop
  | .rooting work proc => proc.denote = work.fresh.prog raw sha
  | .opening work proc | .locking work proc => proc.denote = work.fresh.prog raw sha ∧ s.rootDir = true
  | .checking work proc => proc.denote = work.fresh.prog raw sha ∧ s.rootDir = true ∧ s.exclusive = some i ∧
      Took raw sha start s.log s.area
  | .working work left => s.rootDir = true ∧ s.exclusive = some i ∧ ∃ proc a, proc.denote = work.fresh.prog raw sha ∧
      Took raw sha start s.log a ∧
      a.snapshot = none ∧ Runs proc a left s.area
  | .answered work answer => answer = .ok () → ⟨work, some (.ok ())⟩ ∈ s.log
  | .inspecting true found => i ∈ s.shared ∧ s.area = found
  | .reading true found => i ∈ s.shared ∧ s.area = found ∧ found.store.pending = false
  | .inspecting false found | .reading false found => found.store.seriesRoot = false
  | .loading left => (∃ env legacy d, left = loadProc env legacy d) ∨ ∃ r, left = .done r
  | _ => True

/-- The invariant of the lock. -/
structure LocksOk (start : Area) (s : Locks) : Prop where
  parties : ∀ (i : Nat) (party : Party), s.parties[i]? = some party → s.PartyOk raw sha start i party
  free : s.exclusive = none → Took raw sha start s.log s.area
  held : ∀ i, s.exclusive = some i → s.shared = [] ∧
    ∃ work rest, s.parties[i]? = some (.checking work rest) ∨ s.parties[i]? = some (.working work rest)
  root : s.rootDir = false → s.area.store.seriesRoot = false
  migrated : s.area.Migrated
  sharers : s.shared.Nodup ∧ ∀ i ∈ s.shared, ∃ found, s.parties[i]? = some (.inspecting true found) ∨
    s.parties[i]? = some (.reading true found)

variable {raw sha} {start : Area} {s s' : Locks} {i : Nat} {old new : Party}

/-- A work under names that go down does the same in every process. -/
theorem Work.Plain.fresh {work : Work} (h : work.Plain) : work.prog raw sha = work.fresh.prog raw sha := by
  cases work with
  | call env shared c =>
    exact congrArg onStore ((Call.Plain.runWith h env shared).trans (Call.runWith_none env c).symm)
  | sealRoot env legacy ways => rfl

theorem Took.follows {log : List Turn} {a b : Area} {work : Work} {proc left : AreaProc}
    (h : Took raw sha start log a) (hopen : a.snapshot = none) (hproc : proc.denote = work.fresh.prog raw sha)
    (hruns : Runs proc a left b) : Took raw sha start (log ++ [⟨work, none⟩]) b :=
  .stopped work h hopen (hproc ▸ hruns.stopped)

/-- What is put in place is of the current format. -/
theorem Area.Migrated.apply {a : Area} (h : a.Migrated) (k : AreaStep) : Area.Migrated (Journal.Store.apply k a) := by
  cases k with
  | putSnapshot snapshot => exact h
  | io k =>
    intro d
    show ((Journal.Store.apply k a.store).dirs d).manifest.isLegacy = false
    rw [apply_dirs]
    cases k with
    | makeChunksDir e =>
      simp only [IoStep.onDir]
      split <;> exact h d
    | publish e name temp body =>
      simp only [IoStep.onDir]
      split <;> exact h d
    | publishManifest e temp m =>
      simp only [IoStep.onDir]
      split
      · rfl
      · exact h d
    | removeFile e path =>
      simp only [IoStep.onDir]
      split <;> exact h d
    | _ => exact h d

/-- A load finds nothing to migrate. -/
theorem loadForRead_trace {a : Area} (h : a.Migrated) (env : Env) (legacy : Dir → LegacySeriesMeta) (d : Dir) :
    (onStore (loadForRead env legacy d)).trace a = [] := by
  have htrace : (loadForRead env legacy d).trace a.store = [] := by
    unfold loadForRead loadSeriesMetaSharedMode
    rw [Prog.bind_assoc]
    show ((Prog.look >>= fun s => _ : Op Unit) a.store).1 = []
    rw [Prog.look_bind, h d]
    cases (a.store.dirs d).loadSeriesMeta <;> rfl
  exact congrArg (List.map AreaStep.io) htrace

theorem Took.ends {log : List Turn} {a b : Area} {work : Work} {proc : AreaProc} {r : Result Unit}
    (h : Took raw sha start log a) (hopen : a.snapshot = none) (hproc : proc.denote = work.fresh.prog raw sha)
    (hruns : Runs proc a (.done r) b) : Took raw sha start (log ++ [⟨work, some r⟩]) b := by
  obtain ⟨rfl, rfl⟩ := hruns.done
  rw [hproc]
  exact .whole work h hopen

namespace LocksOk

theorem getElem?_set (hold : s.parties[i]? = some old) (j : Nat) :
    (s.parties.set i new)[j]? = if j = i then some new else s.parties[j]? := by
  rw [List.getElem?_set]
  have hlt : i < s.parties.length := (List.getElem?_eq_some_iff.1 hold).1
  by_cases hj : j = i
  · simp [hj, hlt]
  · simp [hj, Ne.symm hj]

/-- The party that changes the files is alone with the lock. -/
theorem other (h : LocksOk raw sha start s) {j : Nat} {party : Party} (hj : s.parties[j]? = some party) (hne : j ≠ i)
    (hroot : s.rootDir = true → s'.rootDir = true) (hexcl : s.exclusive = some j → s'.exclusive = some j)
    (hshared : j ∈ s.shared → j ∈ s'.shared) (hlog : ∀ turn ∈ s.log, turn ∈ s'.log)
    (harea : s'.area = s.area ∧ s'.log = s.log ∨ s.exclusive = some i) : s'.PartyOk raw sha start j party := by
  have hok := h.parties j party hj
  have hheld (hx : s.exclusive = some j) : s'.area = s.area ∧ s'.log = s.log :=
    harea.resolve_right (fun hi => hne (Option.some.inj (hx.symm.trans hi)))
  have hshare (hx : j ∈ s.shared) : s'.area = s.area ∧ s'.log = s.log :=
    harea.resolve_right (fun hi => by rw [(h.held i hi).1] at hx; cases hx)
  cases party with
  | rooting work proc => exact hok
  | opening work proc => exact ⟨hok.1, hroot hok.2⟩
  | locking work proc => exact ⟨hok.1, hroot hok.2⟩
  | checking work proc =>
    obtain ⟨hproc, hr, hx, htook⟩ := hok
    obtain ⟨ha, hl⟩ := hheld hx
    exact ⟨hproc, hroot hr, hexcl hx, by rw [ha, hl]; exact htook⟩
  | working work left =>
    obtain ⟨hr, hx, proc, a, hproc, htook, hopen, hruns⟩ := hok
    obtain ⟨ha, hl⟩ := hheld hx
    exact ⟨hroot hr, hexcl hx, proc, a, hproc, by rw [hl]; exact htook, hopen, by rw [ha]; exact hruns⟩
  | answered work answer => exact fun ha => hlog _ (hok ha)
  | inspecting locked found =>
    cases locked with
    | false => exact hok
    | true => exact ⟨hshared hok.1, (hshare hok.1).1.trans hok.2⟩
  | reading locked found =>
    cases locked with
    | false => exact hok
    | true => exact ⟨hshared hok.1, (hshare hok.1).1.trans hok.2.1, hok.2.2⟩
  | _ => trivial

/-- **A step of one party.** -/
theorem move (h : LocksOk raw sha start s) (hold : s.parties[i]? = some old)
    (hparties : s'.parties = s.parties.set i new) (hroot : s.rootDir = true → s'.rootDir = true)
    (hseries : s'.rootDir = false → s'.area.store.seriesRoot = false)
    (hexcl : ∀ j, j ≠ i → (s.exclusive = some j ↔ s'.exclusive = some j))
    (hshared : ∀ j, j ≠ i → (j ∈ s.shared ↔ j ∈ s'.shared)) (hnodup : s'.shared.Nodup)
    (halone : s'.exclusive ≠ none → s'.shared = []) (hlog : ∀ turn ∈ s.log, turn ∈ s'.log)
    (harea : s'.area = s.area ∧ s'.log = s.log ∨ s.exclusive = some i) (hnew : s'.PartyOk raw sha start i new)
    (hmine : s'.exclusive = some i → ∃ work rest, new = .checking work rest ∨ new = .working work rest)
    (hshare : i ∈ s'.shared → ∃ found, new = .inspecting true found ∨ new = .reading true found)
    (hfree : s'.exclusive = none → Took raw sha start s'.log s'.area) (hmig : s'.area.Migrated) :
    LocksOk raw sha start s' where
  migrated := hmig
  parties j party hj := by
    rw [hparties, getElem?_set hold] at hj
    by_cases hji : j = i
    · rw [if_pos hji] at hj
      rw [hji, ← Option.some.inj hj]
      exact hnew
    · rw [if_neg hji] at hj
      exact h.other hj hji hroot (hexcl j hji).1 (hshared j hji).1 hlog harea
  free := hfree
  held j hj := by
    refine ⟨halone (by rw [hj]; exact Option.some_ne_none j), ?_⟩
    rw [hparties, getElem?_set hold]
    by_cases hji : j = i
    · rw [if_pos hji]
      obtain ⟨work, rest, hnew⟩ := hmine (hji ▸ hj)
      exact ⟨work, rest, hnew.imp (congrArg some) (congrArg some)⟩
    · rw [if_neg hji]
      exact (h.held j ((hexcl j hji).2 hj)).2
  root := hseries
  sharers := by
    refine ⟨hnodup, fun j hj => ?_⟩
    rw [hparties, getElem?_set hold]
    by_cases hji : j = i
    · rw [if_pos hji]
      obtain ⟨found, hnew⟩ := hshare (hji ▸ hj)
      exact ⟨found, hnew.imp (congrArg some) (congrArg some)⟩
    · rw [if_neg hji]
      exact h.sharers.2 j ((hshared j hji).2 hj)

/-- A party that has no lock. -/
structure Unlocked (s : Locks) (i : Nat) : Prop where
  exclusive : s.exclusive ≠ some i
  shared : i ∉ s.shared

theorem unlocked (h : LocksOk raw sha start s) (hold : s.parties[i]? = some old)
    (hwork : ∀ work rest, old ≠ .checking work rest ∧ old ≠ .working work rest)
    (hread : ∀ found, old ≠ .inspecting true found ∧ old ≠ .reading true found) : Unlocked s i where
  exclusive hx := by
    obtain ⟨_, work, rest, hp | hp⟩ := h.held i hx
    · exact (hwork work rest).1 (Option.some.inj (hold.symm.trans hp))
    · exact (hwork work rest).2 (Option.some.inj (hold.symm.trans hp))
  shared hx := by
    obtain ⟨found, hp | hp⟩ := h.sharers.2 i hx
    · exact (hread found).1 (Option.some.inj (hold.symm.trans hp))
    · exact (hread found).2 (Option.some.inj (hold.symm.trans hp))

/-- A party that has no lock goes on without one. -/
theorem goes (h : LocksOk raw sha start s) (hold : s.parties[i]? = some old) (hun : Unlocked s i)
    (hnew : (s.goto i new).PartyOk raw sha start i new) :
    LocksOk raw sha start (s.goto i new) :=
  h.move hold rfl (fun hr => hr) h.root (fun _ _ => Iff.rfl) (fun _ _ => Iff.rfl) h.sharers.1
    (fun hx => (h.held _ (Option.eq_some_of_isSome (Option.isSome_iff_ne_none.2 hx))).1)
      (fun _ ht => ht) (.inl ⟨rfl, rfl⟩) hnew
    (fun hx => absurd hx hun.exclusive) (fun hx => absurd hx hun.shared) h.free h.migrated

/-- A party lets go of its lock, with the files as they are. -/
theorem releases (h : LocksOk raw sha start s) (hold : s.parties[i]? = some old) {log : List Turn}
    (hlog : ∀ turn ∈ s.log, turn ∈ log)
    (hsame : log = s.log ∨ s.exclusive = some i)
    (hnew : ({ s.release i new with log := log } : Locks).PartyOk raw sha start i new)
    (htook : s.exclusive = some i → Took raw sha start log s.area) :
    LocksOk raw sha start { s.release i new with log := log } := by
  have hnone : i ∉ s.shared.erase i := h.sharers.1.not_mem_erase
  refine h.move hold rfl (fun hr => hr) h.root (fun j hj => ?_) (fun j hj => ?_) (h.sharers.1.erase i) (fun hx => ?_)
    hlog ?_ hnew (fun hx => ?_) (fun hx => absurd hx hnone) (fun hx => ?_) h.migrated
  · show s.exclusive = some j ↔ (if s.exclusive = some i then none else s.exclusive) = some j
    by_cases hx : s.exclusive = some i
    · simp [hx, Ne.symm hj]
    · rw [if_neg hx]
  · exact (List.mem_erase_of_ne hj).symm
  · have hheld : s.exclusive ≠ none := fun hn => hx (by simp [Locks.release, hn])
    show s.shared.erase i = []
    rw [(h.held _ (Option.eq_some_of_isSome (Option.isSome_iff_ne_none.2 hheld))).1, List.erase_nil]
  · exact hsame.imp (fun hl => ⟨rfl, hl⟩) id
  · exfalso
    revert hx
    show (if s.exclusive = some i then none else s.exclusive) = some i → False
    split <;> simp_all
  · by_cases hi : s.exclusive = some i
    · exact htook hi
    · have hnone : s.exclusive = none := by simpa [Locks.release, hi] using hx
      rw [hsame.resolve_right hi]
      exact h.free hnone

/-- The party that has the lock goes on with its work. -/
theorem works (h : LocksOk raw sha start s) {work : Work} {left left' : AreaProc}
    (hold : s.parties[i]? = some (.working work left)) {area : Area} (hnext : ∀ proc a, Runs proc a left s.area →
      Runs proc a left' area) (hmig : area.Migrated) :
    LocksOk raw sha start { s.goto i (.working work left') with area := area } := by
  obtain ⟨hroot, hx, proc, a, hproc, htook, hopen, hruns⟩ := h.parties i _ hold
  refine h.move hold rfl (fun hr => hr) (fun hr => ?_) (fun _ _ => Iff.rfl) (fun _ _ => Iff.rfl) h.sharers.1
    (fun _ => (h.held i hx).1) (fun _ ht => ht) (.inr hx)
    ⟨hroot, hx, proc, a, hproc, htook, hopen, hnext proc a hruns⟩ (fun _ => ⟨work, left', .inr rfl⟩)
      (fun hm => ?_) (fun hn => ?_) hmig
  · rw [show s.rootDir = false from hr] at hroot
    cases hroot
  · have hmem : i ∈ s.shared := hm
    rw [(h.held i hx).1] at hmem
    cases hmem
  · rw [show s.exclusive = none from hn] at hx
    cases hx

theorem answers (h : LocksOk raw sha start s) (hold : s.parties[i]? = some old) (hun : Unlocked s i) {work : Work}
    {e : FastKError} :
    LocksOk raw sha start (s.goto i (.answered work (.error e))) := h.goes hold hun (fun ha => by cases ha)

theorem next (h : LocksOk raw sha start s) (hold : s.parties[i]? = some old) (hs : s.next i old = some s') :
    LocksOk raw sha start s' := by
  have hok := h.parties i old hold
  have halone (hx : s.exclusive ≠ none) : s.shared = [] :=
    (h.held _ (Option.eq_some_of_isSome (Option.isSome_iff_ne_none.2 hx))).1
  cases old with
  | rooting work proc =>
    have hun := h.unlocked hold (by simp) (by simp)
    obtain rfl := Option.some.inj hs
    exact h.move hold rfl (fun _ => rfl) (fun hr => by cases hr) (fun _ _ => Iff.rfl)
      (fun _ _ => Iff.rfl) h.sharers.1 halone (fun _ ht => ht)
      (.inl ⟨rfl, rfl⟩) ⟨hok, rfl⟩ (fun hx => absurd hx hun.exclusive)
        (fun hx => absurd hx hun.shared) h.free h.migrated
  | opening work proc =>
    have hun := h.unlocked hold (by simp) (by simp)
    obtain rfl := Option.some.inj hs
    exact h.move hold rfl (fun hr => hr) h.root (fun _ _ => Iff.rfl)
      (fun _ _ => Iff.rfl) h.sharers.1 halone (fun _ ht => ht)
      (.inl ⟨rfl, rfl⟩) hok (fun hx => absurd hx hun.exclusive) (fun hx => absurd hx hun.shared) h.free h.migrated
  | locking work proc =>
    have hun := h.unlocked hold (by simp) (by simp)
    simp only [Locks.next] at hs
    split at hs
    · exact Option.some.inj hs ▸ h.answers hold hun
    · rename_i hfree
      obtain ⟨hx, hsh⟩ : s.exclusive = none ∧ s.shared = [] := by simpa using hfree
      obtain rfl := Option.some.inj hs
      refine h.move hold rfl (fun hr => hr) h.root (fun j hj => ?_) (fun _ _ => Iff.rfl) h.sharers.1
        (fun _ => hsh) (fun _ ht => ht)
        (.inl ⟨rfl, rfl⟩) ⟨hok.1, hok.2, rfl, h.free hx⟩ (fun _ => ⟨work, proc, .inl rfl⟩)
          (fun hm => absurd hm hun.shared) (fun hn => by cases hn) h.migrated
      simp [hx, Ne.symm hj]
  | checking work proc =>
    obtain ⟨hproc, hroot, hx, htook⟩ := hok
    simp only [Locks.next] at hs
    split at hs
    · obtain rfl := Option.some.inj hs
      exact h.releases hold (fun _ ht => ht) (.inl rfl) (fun ha => by cases ha) (fun _ => htook)
    · rename_i hopen
      obtain rfl := Option.some.inj hs
      have hnone : i ∉ s.shared := by rw [(h.held i hx).1]; exact List.not_mem_nil
      exact h.move hold rfl (fun hr => hr) h.root (fun _ _ => Iff.rfl) (fun _ _ => Iff.rfl) h.sharers.1
        (fun _ => (h.held i hx).1) (fun _ ht => ht)
        (.inl ⟨rfl, rfl⟩) ⟨hroot, hx, proc, s.area, hproc, htook, by simpa using hopen, .start⟩ (fun _ =>
          ⟨work, proc, .inr rfl⟩)
        (fun hm => absurd hm hnone) h.free h.migrated
  | working work left =>
    cases left with
    | look f => exact Option.some.inj hs ▸ h.works hold (fun _ _ hruns => hruns.look) h.migrated
    | emit k left => exact Option.some.inj hs ▸ h.works hold (fun _ _ hruns => hruns.emit) (h.migrated.apply k)
    | done r =>
      obtain ⟨_, hx, proc, a, hproc, htook, hopen, hruns⟩ := hok
      obtain rfl := Option.some.inj hs
      exact h.releases hold (fun _ ht => List.mem_append_left _ ht) (.inr hx) (fun ha =>
        by rw [ha]; exact List.mem_append_right _ (List.mem_singleton_self _))
        (fun _ => htook.ends hopen hproc hruns)
  | finding =>
    have hun := h.unlocked hold (by simp) (by simp)
    obtain rfl := Option.some.inj hs
    refine h.goes hold hun ?_
    cases hr : s.rootDir with
    | true => trivial
    | false => exact h.root hr
  | openingShared =>
    have hun := h.unlocked hold (by simp) (by simp)
    obtain rfl := Option.some.inj hs
    refine h.goes hold hun ?_
    cases s.lockFile <;> trivial
  | missing =>
    have hun := h.unlocked hold (by simp) (by simp)
    obtain rfl := Option.some.inj hs
    refine h.goes hold hun ?_
    cases hseries : s.area.store.seriesRoot with
    | true => trivial
    | false => exact hseries
  | sharing =>
    have hun := h.unlocked hold (by simp) (by simp)
    simp only [Locks.next] at hs
    split at hs
    · exact Option.some.inj hs ▸ h.goes hold hun trivial
    · rename_i hfree
      have hx : s.exclusive = none := by simpa using hfree
      obtain rfl := Option.some.inj hs
      refine h.move hold rfl (fun hr => hr) h.root (fun _ _ => Iff.rfl) (fun j hj => ?_) ?_
        (fun hn => absurd hx hn) (fun _ ht => ht)
        (.inl ⟨rfl, rfl⟩) ⟨List.mem_append_right _ (List.mem_singleton_self _), rfl⟩
          (fun hn => absurd hn hun.exclusive) (fun _ => ⟨s.area, .inl rfl⟩) h.free h.migrated
      · simp [hj]
      · exact List.Nodup.append h.sharers.1 (List.nodup_singleton i) (by simpa using hun.shared)
  | inspecting locked found =>
    simp only [Locks.next] at hs
    split at hs
    · obtain rfl := Option.some.inj hs
      refine h.releases hold (fun _ ht => ht) (.inl rfl) trivial (fun hx => ?_)
      obtain ⟨_, work, rest, hp | hp⟩ := h.held i hx <;> cases hold.symm.trans hp
    · rename_i hpending
      have hclean : s.area.store.pending = false := by simpa using hpending
      obtain rfl := Option.some.inj hs
      cases locked with
      | false =>
        have hun := h.unlocked hold (by simp) (by simp)
        exact h.goes hold hun hok
      | true =>
        have hx : s.exclusive ≠ some i := fun hx => by
          obtain ⟨_, work, rest, hp | hp⟩ := h.held i hx <;> cases hold.symm.trans hp
        exact h.move hold rfl (fun hr => hr) h.root (fun _ _ => Iff.rfl)
          (fun _ _ => Iff.rfl) h.sharers.1 halone (fun _ ht => ht)
          (.inl ⟨rfl, rfl⟩) ⟨hok.1, hok.2, hok.2 ▸ hclean⟩ (fun hn => absurd hn hx)
            (fun _ => ⟨found, .inr rfl⟩) h.free h.migrated
  | loading left =>
    have hun := h.unlocked hold (by simp) (by simp)
    rcases hok with ⟨env, legacy, d, rfl⟩ | ⟨r, rfl⟩
    · obtain rfl := Option.some.inj hs
      refine h.goes hold hun (.inr ⟨(onStore (loadForRead env legacy d)).result s.area, ?_⟩)
      show Proc.emits ((onStore (loadForRead env legacy d)).trace s.area) _ = _
      rw [loadForRead_trace h.migrated]
      rfl
    · exact Option.some.inj hs ▸ h.goes hold hun trivial
  | answered work answer => cases hs
  | reading locked found => cases hs
  | refused e => cases hs
  | gone => cases hs

/-- A party that is cut off leaves its work as far as it came. -/
theorem cut (h : LocksOk raw sha start s) (hold : s.parties[i]? = some old)
    (hnew : ∀ s' : Locks, s'.PartyOk raw sha start i new) :
    LocksOk raw sha start (s.cutOff i new old) := by
  have hok := h.parties i old hold
  have hrelease (htook : s.exclusive = some i → Took raw sha start s.log s.area) :
    LocksOk raw sha start (s.release i new) :=
    h.releases hold (fun _ ht => ht) (.inl rfl) (hnew _) htook
  have hfree (hwork : ∀ work rest, old ≠ .checking work rest ∧ old ≠ .working work rest) : s.exclusive = some i →
    Took raw sha start s.log s.area := by
    intro hx
    obtain ⟨_, work, rest, hp | hp⟩ := h.held i hx
    · exact absurd (Option.some.inj (hold.symm.trans hp)) (hwork work rest).1
    · exact absurd (Option.some.inj (hold.symm.trans hp)) (hwork work rest).2
  cases old with
  | working work left =>
    obtain ⟨_, hx, proc, a, hproc, htook, hopen, hruns⟩ := hok
    exact h.releases hold (fun _ ht => List.mem_append_left _ ht) (.inr hx) (hnew _) (fun _ =>
      htook.follows hopen hproc hruns)
  | checking work proc => exact hrelease (fun _ => hok.2.2.2)
  | _ => exact hrelease (hfree (by simp))

end LocksOk

namespace LocksOk

theorem enters (h : LocksOk raw sha start s) (hnew : ∀ s' : Locks, s'.PartyOk raw sha start s.parties.length new) :
    LocksOk raw sha start { s with parties := s.parties ++ [new] } := by
  have hbefore {j : Nat} {party : Party} (hj : s.parties[j]? = some party) : (s.parties ++ [new])[j]? = some party :=
    (List.getElem?_append_left (List.getElem?_eq_some_iff.1 hj).1).trans hj
  refine ⟨fun j party hj => ?_, h.free, fun j hj => ?_, h.root, h.migrated, h.sharers.1, fun j hj => ?_⟩
  · rw [List.getElem?_append] at hj
    by_cases hlt : j < s.parties.length
    · rw [if_pos hlt] at hj
      exact h.other hj (Nat.ne_of_lt hlt) (fun hr => hr) (fun hx => hx) (fun hx => hx)
        (fun _ ht => ht) (.inl ⟨rfl, rfl⟩)
    · rw [if_neg hlt] at hj
      obtain ⟨hz, hparty⟩ := List.getElem?_eq_some_iff.1 hj
      rw [List.length_singleton] at hz
      obtain rfl : j = s.parties.length := by omega
      obtain rfl : new = party := by simpa using hparty
      exact hnew _
  · obtain ⟨hsh, work, rest, hp⟩ := h.held j hj
    exact ⟨hsh, work, rest, hp.imp hbefore hbefore⟩
  · obtain ⟨found, hp⟩ := h.sharers.2 j hj
    exact ⟨found, hp.imp hbefore hbefore⟩

end LocksOk

/-- The program with which a work begins is the one that the work is, and its names go down. -/
def LockStep.Follows (raw : Dir → List Nat) (sha : Sha256) : LockStep → Prop
  | .write work proc => proc.denote = work.prog raw sha ∧ work.Plain
  | _ => True

/-- **Every step of every process keeps the invariant of the lock.** -/
theorem LocksOk.step {a : LockStep} (h : LocksOk raw sha start s) (ha : a.Follows raw sha) (hs : s.step a = some s') :
    LocksOk raw sha start s' := by
  cases a with
  | write work proc => exact Option.some.inj hs ▸ h.enters (fun _ => ha.1.trans ha.2.fresh)
  | openReadOnly => exact Option.some.inj hs ▸ h.enters (fun _ => trivial)
  | load env legacy d => exact Option.some.inj hs ▸ h.enters (fun _ => .inl ⟨env, legacy, d, rfl⟩)
  | next i =>
    simp only [Locks.step] at hs
    split at hs
    · rename_i hold
      exact h.next hold hs
    · cases hs
  | fault i e =>
    simp only [Locks.step] at hs
    split at hs
    · rename_i hold
      exact Option.some.inj hs ▸ h.answers hold (h.unlocked hold (by simp) (by simp))
    · rename_i hold
      exact Option.some.inj hs ▸ h.answers hold (h.unlocked hold (by simp) (by simp))
    · rename_i hold
      exact Option.some.inj hs ▸ h.answers hold (h.unlocked hold (by simp) (by simp))
    · rename_i hold
      exact Option.some.inj hs ▸ h.cut hold (fun _ he => by cases he)
    · rename_i hold
      exact Option.some.inj hs ▸ h.goes hold (h.unlocked hold (by simp) (by simp)) trivial
    · rename_i hold
      exact Option.some.inj hs ▸ h.goes hold (h.unlocked hold (by simp) (by simp)) trivial
    · rename_i hold
      exact Option.some.inj hs ▸ h.goes hold (h.unlocked hold (by simp) (by simp)) trivial
    · cases hs
  | close i =>
    simp only [Locks.step] at hs
    split at hs
    · rename_i hold
      obtain rfl := Option.some.inj hs
      refine h.releases hold (fun _ ht => ht) (.inl rfl) trivial (fun hx => ?_)
      obtain ⟨_, work, rest, hp | hp⟩ := h.held i hx <;> cases hold.symm.trans hp
    · cases hs
  | die i =>
    simp only [Locks.step] at hs
    split at hs
    · rename_i hold
      exact Option.some.inj hs ▸ h.cut hold (fun _ => trivial)
    · cases hs

theorem LocksOk.begin {rootDir lockFile : Bool} (hroot : rootDir = false → start.store.seriesRoot = false)
    (hmig : start.Migrated) :
    LocksOk raw sha start (Locks.start rootDir lockFile start) where
  migrated := hmig
  parties i party hi := by simp [Locks.start] at hi
  free _ := .start
  held i hi := by cases hi
  root := hroot
  sharers := ⟨List.nodup_nil, fun i hi => by cases hi⟩

theorem LocksOk.run : ∀ (steps : List LockStep) {s t : Locks}, LocksOk raw sha start s →
    (∀ a ∈ steps, a.Follows raw sha) →
    run Locks.step s steps = some t → LocksOk raw sha start t
  | [], _, _, h, _, hrun => Option.some.inj hrun ▸ h
  | a :: steps, _, _, h, ha, hrun => by
    obtain ⟨next, hstep, hrest⟩ := run_cons hrun
    exact LocksOk.run steps (h.step (ha a List.mem_cons_self) hstep)
      (fun b hb => ha b (List.mem_cons_of_mem a hb)) hrest

/-! ## What the works leave -/

theorem exec_io (ks : List IoStep) (a : Area) : exec (ks.map AreaStep.io) a = ⟨exec ks a.store, a.snapshot⟩ := by
  induction ks generalizing a with
  | nil => rfl
  | cons k ks ih => rw [List.map_cons, exec_cons, ih]; rfl

/-- A stop inside a call is a stop of the call on the store. -/
theorem stopped_call {env : Env} {shared : Dir → Option SeriesMeta} {c : Call} {a b : Area}
    (h : Stopped ((Work.call env shared c).fresh.prog raw sha) a b) :
    Stopped (c.run env) a.store b.store ∧ b.snapshot = a.snapshot := by
  rw [show (Work.call env shared c).fresh.prog raw sha = onStore (c.run env) from
    congrArg onStore (Call.runWith_none env c)] at h
  obtain ⟨ks, hks, rfl⟩ := h
  obtain ⟨ls, hls, rfl⟩ : ∃ ls, ls <+: (c.run env).trace a.store ∧ ks = ls.map .io := by
    obtain ⟨rest, hrest⟩ := hks
    obtain ⟨ls, more, hsplit, rfl, _⟩ := List.map_eq_append_iff.1 hrest.symm
    exact ⟨ls, ⟨more, hsplit.symm⟩, rfl⟩
  rw [exec_io]
  exact ⟨⟨ls, hls, rfl⟩, rfl⟩

/-- Calls that were taken one at a time, each as far as it came, are a run of stopped calls. -/
theorem Took.crashRun {root : Dir} {log : List Turn} {a : Area} (h : Took raw sha ⟨Store.empty root, none⟩ log a)
    (hcalls : ∀ turn ∈ log, ∃ env shared c, turn.work = .call env shared c) : CrashRun root a.store := by
  induction h with
  | start => exact .start
  | whole work _ _ ih =>
    obtain ⟨env, shared, c, rfl⟩ := hcalls ⟨work, _⟩ (List.mem_append_right _ (List.mem_singleton_self _))
    exact .stop env c (ih (fun turn ht => hcalls turn (List.mem_append_left _ ht))) (stopped_call (stopped_final _ _)).1
  | stopped work _ _ hstop ih =>
    obtain ⟨env, shared, c, rfl⟩ := hcalls ⟨work, _⟩ (List.mem_append_right _ (List.mem_singleton_self _))
    exact .stop env c (ih (fun turn ht => hcalls turn (List.mem_append_left _ ht))) (stopped_call hstop).1

section Promises

variable {rootDir lockFile : Bool} {steps : List LockStep}

/-- **Works that interleave step by step are works one after another**, on a root without manifests in JSON, under
names that go down: when no one has the lock the files are what the turns so far make of them, one at a time and with
nothing cached, those that answered as a whole and those that were cut off as far as they came; while one has it they
are that, and what it has done so far.  A work that
answers well was carried out as a whole; and where all were calls of the store, the store is one that a run of stopped
calls reaches. -/
theorem locks_serial (hroot : rootDir = false → start.store.seriesRoot = false) (hmig : start.Migrated)
    (hfollow : ∀ a ∈ steps, a.Follows raw sha)
    (hrun : run Locks.step (Locks.start rootDir lockFile start) steps = some s) :
    (s.exclusive = none → Took raw sha start s.log s.area) ∧
    (∀ i, s.exclusive = some i → ∃ work rest a, Took raw sha start s.log a ∧
      (s.parties[i]? = some (.checking work rest) ∧ s.area = a ∨ s.parties[i]? = some (.working work rest) ∧
        Stopped (work.fresh.prog raw sha) a s.area)) ∧
    (∀ (i : Nat) (work : Work), s.parties[i]? = some (.answered work (.ok ())) → ⟨work, some (.ok ())⟩ ∈ s.log) ∧
    ∀ root, start = ⟨Store.empty root, none⟩ → s.exclusive = none →
      (∀ turn ∈ s.log, ∃ env shared c, turn.work = .call env shared c) → CrashRun root s.area.store := by
  have h := LocksOk.run steps (LocksOk.begin hroot hmig) hfollow hrun
  refine ⟨h.free, fun i hi => ?_, fun i work hi => h.parties i _ hi rfl, ?_⟩
  · obtain ⟨_, work, rest, hp | hp⟩ := h.held i hi
    · obtain ⟨_, _, _, htook⟩ := h.parties i _ hp
      exact ⟨work, rest, s.area, htook, .inl ⟨hp, rfl⟩⟩
    · obtain ⟨_, _, proc, a, hproc, htook, _, hruns⟩ := h.parties i _ hp
      exact ⟨work, rest, a, htook, .inr ⟨hp, hproc ▸ hruns.stopped⟩⟩
  · rintro root rfl hx hcalls
    exact (h.free hx).crashRun hcalls

end Promises

end Locks

/-! ## Three writers and two readers -/

def lockSha : Sha256 := ⟨fun _ => "", fun _ => ""⟩

def initWork : Work := .call (Env.plain 5) (fun _ => none) .init

/-- A process that has a manifest of klines cached for every directory registers a series. -/
def registerWork : Work :=
  .call (Env.plain 6) (fun _ => some (sampleMeta [])) (.registerScalar ⟨"S", "factor", "a"⟩ 60000)

def begun (work : Work) : LockStep := .write work (.ofProg (work.prog (fun _ => []) lockSha))

/-- While the first process makes a store, a second writer and a reader are refused; the third writer dies in the
middle of its work, the fourth recovers and does the same work; a handle loads the manifest, and a reader opens. -/
def lockSteps : List LockStep :=
  [begun initWork] ++ List.replicate 3 (.next 0) ++ [begun registerWork] ++ List.replicate 3 (.next 1) ++
    [.openReadOnly] ++ List.replicate 3 (.next 2) ++
    List.replicate 6 (.next 0) ++ [begun registerWork] ++ List.replicate 7 (.next 3) ++
      [.die 3, begun registerWork] ++ List.replicate 13 (.next 4) ++
    [.load (Env.plain 7) (fun _ => sampleLegacyV1) (seriesDir "S" "factor" "a")] ++ List.replicate 2 (.next 5) ++
      [.openReadOnly] ++
    List.replicate 4 (.next 6)

theorem registerWork_plain : registerWork.Plain := by
  show Call.Plain _
  decide +kernel

theorem initWork_plain : initWork.Plain := by
  show Call.Plain _
  decide +kernel

theorem lockSteps_follow : ∀ a ∈ lockSteps, a.Follows (fun _ => []) lockSha := by
  simp [lockSteps, begun, LockStep.Follows, registerWork_plain, initWork_plain]

theorem empty_migrated : Area.Migrated ⟨Store.empty [], none⟩ := fun _ => rfl

def Party.isReading : Party → Bool
  | .reading true _ => true
  | _ => false

theorem lockSteps_run :
    ∃ s found, run Locks.step (Locks.start false false ⟨Store.empty [], none⟩) lockSteps = some s ∧
      s.exclusive = none ∧
    s.log.map (fun turn => turn.answer.isSome) = [true, false, true] ∧ s.parties[6]? = some (.reading true found) := by
  have hrun : (run Locks.step (Locks.start false false ⟨Store.empty [], none⟩) lockSteps).any (fun s =>
      decide (s.exclusive = none ∧ s.log.map (fun turn => turn.answer.isSome) = [true, false, true]) &&
        s.parties[6]?.any Party.isReading) = true := by
    decide +kernel
  obtain ⟨s, hs, hall⟩ := (Option.any_eq_true _ _).1 hrun
  rw [Bool.and_eq_true] at hall
  obtain ⟨hx, hlog⟩ := of_decide_eq_true hall.1
  obtain ⟨party, hparty, hreading⟩ := (Option.any_eq_true _ _).1 hall.2
  unfold Party.isReading at hreading
  split at hreading
  · exact ⟨s, _, hs, hx, hlog, hparty⟩
  · cases hreading

theorem locks_serial_sample : ∃ s, run Locks.step (Locks.start false false ⟨Store.empty [], none⟩) lockSteps = some s ∧
    s.log.map (fun turn => turn.answer.isSome) = [true, false, true] ∧
    Took (fun _ => []) lockSha ⟨Store.empty [], none⟩ s.log s.area := by
  obtain ⟨s, found, hs, hx, hlog, _⟩ := lockSteps_run
  exact ⟨s, hs, hlog, (locks_serial (fun _ => rfl) empty_migrated lockSteps_follow hs).1 hx⟩

end FastK
