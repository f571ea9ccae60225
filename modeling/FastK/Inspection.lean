import FastK.ManifestCache
/-!
# Inspection

What only reads a store (`explain_overlaps`, `list_series`, the `get_*` and `query_*` calls of a handle that may
write) loads manifests, and a load migrates a manifest of the first format and saves it, without the write lock
(`storage/manifest.rs`). The calls on all series of a store are interleaved step by step: inspection leaves every file
to the mutations exactly where no file holds JSON that migrates (`inspection_keeps_iff`).  Where one does, a mutation
may commit between the read and the save of a load that inspects, and the save takes the commit back
(`inspection_loses_commit`).
-/
namespace FastK

open Transitions CacheState

/-- The manifest file, the cache entry and the calls of every series. -/
abbrev StoreCaches := Dir → CacheState

namespace StoreCaches

def start (files : Dir → Option ManifestVersion) : StoreCaches := fun d => .start (files d)

/-- A step of the calls on one series. -/
def step (S : StoreCaches) (a : Dir × CacheStep) : Option StoreCaches :=
  ((S a.1).step a.2).map (fun s => Function.update S a.1 s)

end StoreCaches

/-- The call that takes the step, of those that have begun. -/
def CacheStep.call : CacheStep → Option Nat
  | .lookup call => some call
  | .read call _ => some call
  | .rename call _ => some call
  | .fingerprint call => some call
  | .insert call => some call
  | _ => none

section Inspection

-- which calls on a series inspect
variable (inspects : Dir → Nat → Bool)

/-- A call that inspects is a load. -/
def OnlyLoads (S : StoreCaches) (a : Dir × CacheStep) : Prop :=
  match a.2 with
  | .startSave _ => inspects a.1 (S a.1).calls.length = false
  | _ => True

instance (S : StoreCaches) (a : Dir × CacheStep) : Decidable (OnlyLoads inspects S a) := by
  unfold OnlyLoads
  split <;> exact inferInstance

/-- The manifest that the step of a mutation puts in place. -/
def committed (S : StoreCaches) (a : Dir × CacheStep) : Option (Dir × SeriesMeta) :=
  match a.2 with
  | .rename call _ =>
    if inspects a.1 call then none
    else
      match (S a.1).calls[call]? with
      | some (.saving m _) => some (a.1, m)
      | _ => none
  | _ => none

/-- What the mutations of a run have committed, in their order. -/
def commits : StoreCaches → List (Dir × CacheStep) → List (Dir × SeriesMeta)
  | _, [] => []
  | S, a :: rest =>
    match S.step a with
    | none => []
    | some next => (committed inspects S a).toList ++ commits next rest

/-- The commits to one series. -/
def commitsTo (d : Dir) (l : List (Dir × SeriesMeta)) : List SeriesMeta :=
  (l.filter (fun p => decide (p.1 = d))).map Prod.snd

/-- In every run, the steps of calls that inspect change no file, and each file has gone through what the mutations have
committed to it and nothing else. -/
structure InspectionKeeps (files : Dir → Option ManifestVersion) : Prop where
  unchanged : ∀ steps S, Meets StoreCaches.step (OnlyLoads inspects) (.start files) steps →
    run StoreCaches.step (.start files) steps = some S →
    ∀ a next call, a.2.call = some call → inspects a.1 call = true → S.step a = some next →
      ∀ d, (next d).versions = (S d).versions
  kept : ∀ steps S, Meets StoreCaches.step (OnlyLoads inspects) (.start files) steps →
    run StoreCaches.step (.start files) steps = some S →
    ∀ d, (S d).versions.map ManifestVersion.bytes =
      ((commitsTo d (commits inspects (.start files) steps)).map ManifestBytes.binary).reverse ++
        (files d).toList.map ManifestVersion.bytes

/-- No version of the file is JSON that migrates. -/
def Unmigrated (versions : List ManifestVersion) : Prop :=
  ∀ v ∈ versions, ∀ legacy, v.bytes = .json legacy → ∀ now m, migrateLegacyJson now legacy ≠ .ok m

/-- No call that inspects is about to save, nor will be. -/
structure Watched (inspecting : Nat → Bool) (s : CacheState) : Prop where
  idle : ∀ (call : Nat) m origin, inspecting call = true → s.calls[call]? ≠ some (.saving m origin)
  plain : Unmigrated s.versions

end Inspection

section Steps

variable {inspecting : Nat → Bool} {inspects : Dir → Nat → Bool} {s s' : CacheState} {S next : StoreCaches}
    {call : Nat} {c : CallState}
  {files : Dir → Option ManifestVersion}

theorem Watched.begin (h : Watched inspecting s) (hc : ∀ m origin, c = .saving m origin →
      inspecting s.calls.length = false) :
    Watched inspecting (s.begin c) where
  idle other m origin hi hcall := by
    unfold CacheState.begin at hcall
    rw [List.getElem?_append] at hcall
    by_cases hlt : other < s.calls.length
    · rw [if_pos hlt] at hcall
      exact h.idle other m origin hi hcall
    · rw [if_neg hlt] at hcall
      have heq := List.mem_singleton.1 (List.mem_of_getElem? hcall)
      obtain ⟨hsub, -⟩ := List.getElem?_eq_some_iff.1 hcall
      rw [List.length_singleton] at hsub
      have hother : other = s.calls.length := by omega
      rw [hother, hc m origin heq.symm] at hi
      cases hi
  plain := h.plain

theorem Watched.set (h : Watched inspecting s) (hc : ∀ m origin, c ≠ .saving m origin) :
    Watched inspecting (s.set call c) where
  idle other m origin hi hcall := by
    rcases getElem?_set hcall with ⟨-, hd⟩ | ⟨-, hd⟩
    · exact hc m origin hd.symm
    · exact h.idle other m origin hi hd
  plain := h.plain

theorem afterRead_plain {now : Int} {v : ManifestVersion} (h : Unmigrated [v]) (m : SeriesMeta) (origin : Origin) :
    afterRead now v.bytes ≠ .saving m origin := by
  unfold afterRead
  cases hb : v.bytes with
  | json legacy =>
    simp only
    cases hm : migrateLegacyJson now legacy with
    | error e => simp
    | ok m' => exact absurd hm (h v List.mem_cons_self legacy hb now m')
  | binary m' =>
    simp only
    cases (ManifestBytes.binary m').decode <;> simp
  | undecodable e => simp [ManifestBytes.decode]

theorem Unmigrated.renamed {versions : List ManifestVersion} (h : Unmigrated versions) (m : SeriesMeta)
    (fp : ManifestFingerprint) :
    Unmigrated (⟨.binary m, fp⟩ :: versions) := by
  intro v hv legacy hb
  rcases List.mem_cons.1 hv with rfl | hv
  · cases hb
  · exact h v hv legacy hb

/-- **One step.** -/
theorem Watched.step {a : CacheStep} (h : Watched inspecting s)
    (ha : ∀ m, a = .startSave m → inspecting s.calls.length = false) (hs : s.step a = some s') :
    Watched inspecting s' := by
  cases a with
  | startLoad =>
    simp only [CacheState.step] at hs
    split at hs <;> obtain rfl := Option.some.inj hs <;> exact h.begin (fun _ _ heq => by cases heq)
  | startSave m =>
    simp only [CacheState.step] at hs
    split at hs <;> obtain rfl := Option.some.inj hs
    · exact h.begin (fun _ _ heq => by cases heq)
    · exact h.begin (fun _ _ _ => ha m rfl)
  | lookup call =>
    simp only [CacheState.step] at hs
    split at hs
    · split at hs
      · cases hs
      · split at hs
        · obtain rfl := Option.some.inj hs
          exact h.set (fun _ _ h => by cases h)
        · split at hs <;> obtain rfl := Option.some.inj hs <;> exact h.set (fun _ _ h => by cases h)
    · cases hs
  | read call now =>
    simp only [CacheState.step] at hs
    split at hs
    · split at hs
      · obtain rfl := Option.some.inj hs
        exact h.set (fun _ _ h => by cases h)
      · rename_i v hv
        obtain rfl := Option.some.inj hs
        have hmem : v ∈ s.versions := List.mem_of_mem_head? (Option.mem_def.2 hv)
        refine h.set (afterRead_plain (fun w hw => ?_))
        rw [List.mem_singleton.1 hw]
        exact h.plain v hmem
    · cases hs
  | rename call fp =>
    simp only [CacheState.step] at hs
    split at hs
    · rename_i m origin hcall
      obtain rfl := Option.some.inj hs
      have hset : Watched inspecting (s.set call (.held m origin)) := h.set (fun _ _ h => by cases h)
      exact ⟨hset.idle, h.plain.renamed m fp⟩
    · cases hs
  | fingerprint call =>
    simp only [CacheState.step] at hs
    split at hs
    · split at hs
      · cases hs
      · split at hs
        · obtain rfl := Option.some.inj hs
          exact h.set (fun _ _ h => by cases h)
        · rename_i m origin hcall _ _ v hv
          obtain rfl := Option.some.inj hs
          have hset : Watched inspecting (s.set call (.inserting v.fingerprint m origin)) :=
            h.set (fun _ _ h => by cases h)
          exact ⟨hset.idle, h.plain⟩
    · cases hs
  | insert call =>
    simp only [CacheState.step] at hs
    split at hs
    · rename_i fp m origin hcall
      obtain rfl := Option.some.inj hs
      have hset : Watched inspecting (s.set call (afterInsert m origin)) :=
        h.set (fun _ _ h => by cases origin <;> cases h)
      exact ⟨hset.idle, h.plain⟩
    · cases hs
  | invalidateRoot =>
    simp only [CacheState.step] at hs
    split at hs
    · cases hs
    · obtain rfl := Option.some.inj hs
      exact ⟨h.idle, h.plain⟩

/-- A step leaves the file alone, or it is the rename of a save. -/
theorem CacheState.step_versions {a : CacheStep} (hs : s.step a = some s') :
    s'.versions = s.versions ∨
      ∃ call fp m origin, a = .rename call fp ∧ s.calls[call]? = some (.saving m origin) ∧
        s'.versions = ⟨.binary m, fp⟩ :: s.versions := by
  cases a with
  | rename call fp =>
    simp only [CacheState.step] at hs
    split at hs
    · rename_i m origin hcall
      obtain rfl := Option.some.inj hs
      exact .inr ⟨call, fp, m, origin, rfl, hcall, rfl⟩
    · cases hs
  | _ =>
    refine .inl ?_
    simp only [CacheState.step] at hs
    repeat' split at hs
    all_goals first | (obtain rfl := Option.some.inj hs; rfl) | cases hs

theorem Watched.versions {a : CacheStep} (h : Watched inspecting s) (ha : a.call = some call)
    (hi : inspecting call = true) (hs : s.step a = some s') : s'.versions = s.versions := by
  rcases CacheState.step_versions hs with heq | ⟨call', fp, m, origin, rfl, hcall, -⟩
  · exact heq
  · obtain rfl : call' = call := Option.some.inj ha
    exact absurd hcall (h.idle call' m origin hi)

/-! ## Runs -/

theorem StoreCaches.step_eq {a : Dir × CacheStep} (hs : S.step a = some next) :
    ∃ s', (S a.1).step a.2 = some s' ∧ next = Function.update S a.1 s' := by
  obtain ⟨s', hs', rfl⟩ := Option.map_eq_some_iff.1 hs
  exact ⟨s', hs', rfl⟩

theorem watched_start (h : ∀ d, Unmigrated (files d).toList) (d : Dir) : Watched (inspects d)
    (StoreCaches.start files d) :=
  ⟨(fun _ _ _ _ hcall => nomatch hcall), h d⟩

theorem watched_step (h : ∀ d, Watched (inspects d) (S d)) {a : Dir × CacheStep} (ha : OnlyLoads inspects S a)
    (hs : S.step a = some next) (d : Dir) :
    Watched (inspects d) (next d) := by
  obtain ⟨s', hs', rfl⟩ := StoreCaches.step_eq hs
  by_cases hd : d = a.1
  · subst hd
    rw [Function.update_self]
    refine (h a.1).step (fun m hm => ?_) hs'
    unfold OnlyLoads at ha
    rw [hm] at ha
    exact ha
  · rw [Function.update_of_ne hd]
    exact h d

theorem watched_run {steps : List (Dir × CacheStep)} (h : ∀ d, Unmigrated (files d).toList)
    (hmeets : Meets StoreCaches.step (OnlyLoads inspects) (.start files) steps)
    (hrun : run StoreCaches.step (.start files) steps = some S) :
    ∀ d, Watched (inspects d) (S d) := by
  have hstep : ∀ (S : StoreCaches) (a : Dir × CacheStep) (T : StoreCaches), (∀ d, Watched (inspects d) (S d)) →
    OnlyLoads inspects S a →
      S.step a = some T → ∀ d, Watched (inspects d) (T d) := fun _ _ _ hS ha hs d => watched_step hS ha hs d
  exact run_keeps hstep steps (watched_start h) hmeets hrun

theorem commitsTo_append (d : Dir) (l l' : List (Dir × SeriesMeta)) :
    commitsTo d (l ++ l') = commitsTo d l ++ commitsTo d l' := by
  simp [commitsTo]

/-- A step adds the version that it commits. -/
theorem versions_step (h : ∀ d, Watched (inspects d) (S d)) {a : Dir × CacheStep}
    (hs : S.step a = some next) (d : Dir) :
    (next d).versions.map ManifestVersion.bytes =
      ((commitsTo d (committed inspects S a).toList).map ManifestBytes.binary).reverse ++
        (S d).versions.map ManifestVersion.bytes := by
  obtain ⟨s', hs', rfl⟩ := StoreCaches.step_eq hs
  obtain ⟨e, a⟩ := a
  rcases CacheState.step_versions hs' with heq | ⟨call, fp, m, origin, rfl, hcall, heq⟩
  · have hsame : (Function.update S e s' d).versions = (S d).versions := by
      by_cases hd : d = e
      · subst hd
        rw [Function.update_self]
        exact heq
      · rw [Function.update_of_ne hd]
    have hnone : committed inspects S (e, a) = none := by
      cases a with
      | rename call fp =>
        -- a rename would have added a version
        exfalso
        simp only [CacheState.step] at hs'
        split at hs'
        · obtain rfl := Option.some.inj hs'
          exact absurd (congrArg List.length heq) (by simp)
        · cases hs'
      | _ => rfl
    rw [hsame, hnone]
    rfl
  · have hmutates : inspects e call = false := by
      cases hi : inspects e call with
      | false => rfl
      | true => exact absurd hcall ((h e).idle call m origin hi)
    have hsome : committed inspects S (e, .rename call fp) = some (e, m) := by
      have hcall' : (S e).calls[call]? = some (.saving m origin) := hcall
      unfold committed
      simp only [hmutates, hcall']
      rfl
    rw [hsome]
    by_cases hd : d = e
    · subst hd
      rw [Function.update_self, heq]
      simp [commitsTo]
    · rw [Function.update_of_ne hd]
      simp [commitsTo, Ne.symm hd]

theorem versions_run : ∀ (steps : List (Dir × CacheStep)) {S T : StoreCaches}, (∀ d, Watched (inspects d) (S d)) →
    Meets StoreCaches.step (OnlyLoads inspects) S steps → run StoreCaches.step S steps = some T → ∀ d,
      (T d).versions.map ManifestVersion.bytes =
        ((commitsTo d (commits inspects S steps)).map ManifestBytes.binary).reverse ++
          (S d).versions.map ManifestVersion.bytes
  | [], S, T, _, _, hrun, d => by
    obtain rfl := Option.some.inj hrun
    rfl
  | a :: rest, S, T, h, hmeets, hrun, d => by
    obtain ⟨next, hnext, hrest⟩ := run_cons hrun
    rw [versions_run rest (watched_step h hmeets.1 hnext) (hmeets.2 next hnext) hrest d, versions_step h hnext d]
    rw [commits, hnext]
    simp only
    rw [commitsTo_append, List.map_append, List.reverse_append, List.append_assoc]

/-- One load that inspects and migrates. -/
def migratingSteps (d : Dir) (now : Int) (fp : ManifestFingerprint) : List (Dir × CacheStep) :=
  [(d, .startLoad), (d, .lookup 0), (d, .read 0 now), (d, .rename 0 fp)]

theorem migrating_run {d : Dir} {v : ManifestVersion} {legacy : LegacySeriesMeta} {now : Int} {m : SeriesMeta}
    (hf : files d = some v) (hb : v.bytes = .json legacy) (hm : migrateLegacyJson now legacy = .ok m)
    (fp : ManifestFingerprint) :
    ∃ S, run StoreCaches.step (.start files) (migratingSteps d now fp) = some S ∧
      (S d).versions = [⟨.binary m, fp⟩, v] := by
  let s0 : CacheState := .start (some v)
  let s1 : CacheState := { s0 with calls := [.fingerprinted v.fingerprint] }
  let s2 : CacheState := { s0 with calls := [.missed] }
  let s3 : CacheState := { s0 with calls := [.saving m .migration] }
  let s4 : CacheState := { s0 with versions := [⟨.binary m, fp⟩, v], calls := [.held m .migration] }
  have h0 : StoreCaches.start files d = s0 := by
    unfold StoreCaches.start
    rw [hf]
  have h3 : s2.step (.read 0 now) = some s3 := by
    show some (s2.set 0 (afterRead now v.bytes)) = some s3
    have : afterRead now v.bytes = .saving m .migration := by
      unfold afterRead
      rw [hb]
      simp only
      rw [hm]
    rw [this]
    rfl
  have hstep : ∀ (S : StoreCaches) (s s' : CacheState) (a : CacheStep), S d = s → s.step a = some s' →
      S.step (d, a) = some (Function.update S d s') := by
    intro S s s' a hS hs
    unfold StoreCaches.step
    rw [show S (d, a).1 = s from hS, hs]
    rfl
  have hself : ∀ (S : StoreCaches) (s : CacheState), Function.update S d s d = s :=
    fun S s => Function.update_self d s S
  refine ⟨_, ?_, congrArg CacheState.versions
    (hself (Function.update (Function.update (Function.update (StoreCaches.start files) d s1) d s2) d s3) s4)⟩
  unfold migratingSteps
  rw [run, hstep _ s0 s1 _ h0 rfl]
  simp only
  rw [run, hstep _ s1 s2 _ (hself _ _) rfl]
  simp only
  rw [run, hstep _ s2 s3 _ (hself _ _) h3]
  simp only
  rw [run, hstep _ s3 s4 _ (hself _ _) rfl]
  rfl

/-- **Inspection leaves the files to the mutations if and only if no file holds JSON that migrates.** -/
theorem inspection_keeps_iff (files : Dir → Option ManifestVersion) :
    (∀ inspects, InspectionKeeps inspects files) ↔ ∀ d, Unmigrated (files d).toList := by
  constructor
  · intro hkeeps d v hv legacy hb now m hm
    have hf : files d = some v := by simpa using hv
    -- the first call on the series inspects
    obtain ⟨S, hrun, hversions⟩ := migrating_run hf hb hm ⟨0, 0⟩
    have hmeets : Meets StoreCaches.step (OnlyLoads (fun _ _ => true)) (.start files) (migratingSteps d now ⟨0, 0⟩) :=
      by
      unfold migratingSteps
      simp [Meets, OnlyLoads]
    have hkept := (hkeeps (fun _ _ => true)).kept _ S hmeets hrun d
    have hnone : ∀ (steps : List (Dir × CacheStep)) (S : StoreCaches), commits (fun _ _ => true) S steps = [] := by
      intro steps
      induction steps with
      | nil => exact fun _ => rfl
      | cons a rest ih =>
        intro S
        unfold commits
        cases S.step a with
        | none => rfl
        | some next =>
          simp only
          rw [ih]
          unfold committed
          split <;> rfl
    rw [hnone, hversions, hf] at hkept
    exact absurd (congrArg List.length hkept) (by simp [commitsTo])
  · intro h inspects
    constructor
    · intro steps S hmeets hrun a next call ha hi hs d
      obtain ⟨s', hs', rfl⟩ := StoreCaches.step_eq hs
      by_cases hd : d = a.1
      · subst hd
        rw [Function.update_self]
        exact (watched_run h hmeets hrun a.1).versions ha hi hs'
      · rw [Function.update_of_ne hd]
    · intro steps S hmeets hrun d
      exact versions_run steps (watched_start h) hmeets hrun d

end Steps

/-! ### A commit that a load takes back -/

/-- The manifest of a series without chunks, in the first format. -/
def sampleLegacy : LegacySeriesMeta := ⟨"X", klineCategory, "1m", 60000, 48, klineSchemaId, 100, 100, "month", 7, []⟩

def sampleLegacyDir : Dir := seriesDir "X" klineCategory "1m"

def sampleLegacyFiles (d : Dir) : Option ManifestVersion :=
  if d = sampleLegacyDir then some ⟨.json sampleLegacy, ⟨300, 1⟩⟩ else none

/-- What a mutation saves under the lock. -/
def sampleCommit : SeriesMeta := { sampleMeta [] with manifestSeq := 2 }

/-- A load of an inspection reads the JSON; a mutation commits; the load saves what it has migrated. -/
def sampleInspection : List (Dir × CacheStep) :=
  [.startLoad, .lookup 0, .read 0 5, .startSave sampleCommit, .rename 1 ⟨120, 2⟩, .fingerprint 1, .insert 1,
    .rename 0 ⟨120, 3⟩].map
    (fun a => (sampleLegacyDir, a))

theorem inspection_loses_commit : ¬ ∀ files inspects, InspectionKeeps inspects files := by
  intro h
  have hlook : (run StoreCaches.step (.start sampleLegacyFiles) sampleInspection).map (fun S =>
    (S sampleLegacyDir).versions.length) = some 3 := by
    decide +kernel
  obtain ⟨S, hrun, hlength⟩ := Option.map_eq_some_iff.1 hlook
  have hkept := (h sampleLegacyFiles (fun _ call => decide (call = 0))).kept sampleInspection S
    (by decide +kernel) hrun sampleLegacyDir
  have hcommits : (commitsTo sampleLegacyDir (commits
    (fun _ call => decide (call = 0)) (.start sampleLegacyFiles) sampleInspection)).length = 1 := by
    decide +kernel
  have := congrArg List.length hkept
  rw [List.length_map, hlength, List.length_append, List.length_reverse, List.length_map, hcommits] at this
  exact absurd this (by decide +kernel)

end FastK
