import FastK.Legacy
import FastK.Lib.Transitions
/-!
# The manifest cache of a process

One cache serves every store of a process (`storage/manifest.rs`): an entry is a manifest with the fingerprint its
file had when the entry was made.  A load compares fingerprints, reads the file, and takes the fingerprint of its
entry afterwards, all without the write lock; a save renames a new file into place and takes the fingerprint of that.
The calls of any number of threads on one series are interleaved step by step.  A load whose file is replaced between
the read and the second fingerprint caches the old manifest under the new fingerprint (`stale_entry_cached`); where
that is excluded the cache is coherent (`manifest_cache_coherent`).
-/
namespace FastK

open Transitions

structure ManifestFingerprint where
  len : Nat
  modifiedNs : Nat
  deriving DecidableEq, Repr

/-- A version of the manifest file. -/
structure ManifestVersion where
  bytes : ManifestBytes
  fingerprint : ManifestFingerprint
  deriving DecidableEq, Repr

structure CachedManifest where
  fingerprint : ManifestFingerprint
  seriesMeta : SeriesMeta
  deriving DecidableEq, Repr

/-- What a call has a manifest for: a load that returns it, a save, or the save of a load that migrates. -/
inductive Origin where
  | load
  | save
  | migration
  deriving DecidableEq, Repr

/-- Where a call stands. -/
inductive CallState where
  /-- A load with the fingerprint it looks up. -/
  | fingerprinted (fp : ManifestFingerprint)
  /-- A load that is about to read the file. -/
  | missed
  /-- A save that is about to rename. -/
  | saving (m : SeriesMeta) (origin : Origin)
  /-- The manifest is read or renamed; the fingerprint of its entry is not taken. -/
  | held (m : SeriesMeta) (origin : Origin)
  /-- The fingerprint is taken under the lock of the cache; the entry is not inserted. -/
  | inserting (fp : ManifestFingerprint) (m : SeriesMeta) (origin : Origin)
  /-- A load that returned the entry with the fingerprint it looked up. -/
  | hit (fp : ManifestFingerprint) (m : SeriesMeta)
  | loaded (m : SeriesMeta)
  | saved
  | failed (error : FastKError)
  deriving DecidableEq, Repr

/-- A call whose rename is visible and whose entry is not. -/
def CallState.isPublishing : CallState → Bool
  | .held _ origin | .inserting _ _ origin => decide (origin ≠ .load)
  | _ => false

/-- A call with a manifest for which it has yet to take a fingerprint. -/
def CallState.isUnstamped : CallState → Bool
  | .held _ _ | .inserting _ _ .migration => true
  | _ => false

/-- The versions the file has had, the present one first; the entry of the series; the call that has the cache locked;
and the calls in the order of their beginning. -/
structure CacheState where
  versions : List ManifestVersion
  cache : Option CachedManifest
  lockedBy : Option Nat
  calls : List CallState
  deriving DecidableEq, Repr

inductive CacheStep where
  /-- `exists` and `manifest_fingerprint`. -/
  | startLoad
  | startSave (m : SeriesMeta)
  | lookup (call : Nat)
  | read (call : Nat) (now : Int)
  | rename (call : Nat) (fp : ManifestFingerprint)
  | fingerprint (call : Nat)
  | insert (call : Nat)
  | invalidateRoot
  deriving DecidableEq, Repr

namespace CacheState

def start (file : Option ManifestVersion) : CacheState := ⟨file.toList, none, none, []⟩

def file (s : CacheState) : Option ManifestVersion := s.versions.head?

def begin (s : CacheState) (c : CallState) : CacheState := { s with calls := s.calls ++ [c] }

def set (s : CacheState) (call : Nat) (c : CallState) : CacheState := { s with calls := s.calls.set call c }

/-- `load_series_meta_shared_cached`: the entry, whatever its fingerprint. -/
def sharedCached (s : CacheState) : Option SeriesMeta := s.cache.map CachedManifest.seriesMeta

/-- A load reads the file; JSON is migrated, and saved before anything else. -/
def afterRead (now : Int) (bytes : ManifestBytes) : CallState :=
  match bytes with
  | .json legacy =>
    match migrateLegacyJson now legacy with
    | .error e => .failed e
    | .ok m => .saving m .migration
  | bytes =>
    match bytes.decode with
    | .error e => .failed e
    | .ok m => .held m .load

/-- After its insertion a migrating save goes on as the load it belongs to. -/
def afterInsert (m : SeriesMeta) : Origin → CallState
  | .load => .loaded m
  | .save => .saved
  | .migration => .held m .load

def step (s : CacheState) : CacheStep → Option CacheState
  | .startLoad =>
    match s.file with
    | none => some (s.begin (.failed (.notFound "series meta not found: series.meta")))
    | some v => some (s.begin (.fingerprinted v.fingerprint))
  | .startSave m =>
    match m.validate with
    | .error e => some (s.begin (.failed e))
    | .ok () => some (s.begin (.saving m .save))
  | .lookup call =>
    match s.calls[call]? with
    | some (.fingerprinted fp) =>
      if s.lockedBy.isSome then none
      else
        match s.cache with
        | none => some (s.set call .missed)
        | some entry =>
          if entry.fingerprint = fp then some (s.set call (.hit fp entry.seriesMeta))
          else some (s.set call .missed)
    | _ => none
  | .read call now =>
    match s.calls[call]? with
    | some .missed =>
      match s.file with
      | none => some (s.set call (.failed (.notFound "series meta not found: series.meta")))
      | some v => some (s.set call (afterRead now v.bytes))
    | _ => none
  | .rename call fp =>
    match s.calls[call]? with
    | some (.saving m origin) => some { s.set call (.held m origin) with versions := ⟨.binary m, fp⟩ :: s.versions }
    | _ => none
  | .fingerprint call =>
    match s.calls[call]? with
    | some (.held m origin) =>
      if s.lockedBy.isSome then none
      else
        match s.file with
        | none => some (s.set call (.failed (.io "No such file or directory (os error 2)")))
        | some v => some { s.set call (.inserting v.fingerprint m origin) with lockedBy := some call }
    | _ => none
  | .insert call =>
    match s.calls[call]? with
    | some (.inserting fp m origin) => some { s.set call (afterInsert m origin) with cache := some ⟨fp, m⟩, lockedBy := none }
    | _ => none
  | .invalidateRoot => if s.lockedBy.isSome then none else some { s with cache := none }

end CacheState

/-- A rename gives the file a fingerprint that none of its versions had. -/
def FreshFingerprint (s : CacheState) : CacheStep → Prop
  | .rename _ fp => fp ∉ s.versions.map ManifestVersion.fingerprint
  | _ => True

/-- No other call stands between its read or its rename and its last fingerprint. -/
def Undisturbing (s : CacheState) : CacheStep → Prop
  | .rename call _ => ∀ (other : Nat) (h : other < s.calls.length), s.calls[other].isUnstamped = true → other = call
  | _ => True

instance (s : CacheState) (a : CacheStep) : Decidable (FreshFingerprint s a) := by
  unfold FreshFingerprint
  cases a <;> exact inferInstance

instance (s : CacheState) (a : CacheStep) : Decidable (Undisturbing s a) := by
  unfold Undisturbing
  cases a <;> exact inferInstance

/-- The manifests that the cache hands out are those of the file. -/
structure Coherent (s : CacheState) : Prop where
  /-- An entry with the fingerprint of the file is the decoding of its bytes. -/
  entry : ∀ c v, s.cache = some c → s.file = some v → c.fingerprint = v.fingerprint → v.bytes.decode = .ok c.seriesMeta
  /-- What a load returned for a fingerprint is the decoding of the version with that fingerprint. -/
  hit : ∀ (call : Nat) fp m, s.calls[call]? = some (.hit fp m) → ∀ v ∈ s.versions, v.fingerprint = fp →
    v.bytes.decode = .ok m
  /-- Where no rename is waiting for its entry, an unchecked look at the cache finds the manifest of the file. -/
  cached : (∀ (call : Nat) c, s.calls[call]? = some c → c.isPublishing = false) →
    ∀ m v, s.sharedCached = some m → s.file = some v → v.bytes.decode = .ok m

namespace CacheState

/-! ## The calls after a step -/

theorem getElem?_begin {s : CacheState} {c d : CallState} {other : Nat} (h : (s.begin c).calls[other]? = some d) :
    d = c ∨ s.calls[other]? = some d := by
  unfold begin at h
  rw [List.getElem?_append] at h
  by_cases hlt : other < s.calls.length
  · rw [if_pos hlt] at h
    exact .inr h
  · rw [if_neg hlt] at h
    exact .inl (List.mem_singleton.1 (List.mem_of_getElem? h))

theorem getElem?_begin_of {s : CacheState} {c d : CallState} {other : Nat} (h : s.calls[other]? = some d) :
    (s.begin c).calls[other]? = some d := by
  obtain ⟨hlt, -⟩ := List.getElem?_eq_some_iff.1 h
  exact (List.getElem?_append_left hlt).trans h

theorem getElem?_set {s : CacheState} {c d : CallState} {call other : Nat} (h : (s.set call c).calls[other]? = some d) :
    other = call ∧ d = c ∨ other ≠ call ∧ s.calls[other]? = some d := by
  unfold set at h
  by_cases heq : call = other
  · subst heq
    rw [List.getElem?_set_self'] at h
    cases hs : s.calls[call]? with
    | none => rw [hs] at h; cases h
    | some x =>
      rw [hs] at h
      exact .inl ⟨rfl, (Option.some.inj h).symm⟩
  · rw [List.getElem?_set_ne heq] at h
    exact .inr ⟨fun h' => heq h'.symm, h⟩

theorem getElem?_set_of_ne {s : CacheState} {c d : CallState} {call other : Nat} (hne : other ≠ call)
    (h : s.calls[other]? = some d) :
    (s.set call c).calls[other]? = some d :=
  (List.getElem?_set_ne (Ne.symm hne)).trans h

theorem getElem?_set_self {s : CacheState} {c d : CallState} {call : Nat} (h : s.calls[call]? = some d) :
    (s.set call c).calls[call]? = some c := by
  unfold set
  obtain ⟨hlt, -⟩ := List.getElem?_eq_some_iff.1 h
  exact List.getElem?_set_self hlt

/-! ## What the steps keep -/

/-- The manifest decodes the version with that fingerprint. -/
def Certified (s : CacheState) (fp : ManifestFingerprint) (m : SeriesMeta) : Prop :=
  ∃ v ∈ s.versions, v.fingerprint = fp ∧ v.bytes.decode = .ok m

/-- The file has that fingerprint. -/
def Current (s : CacheState) (fp : ManifestFingerprint) : Prop := ∃ v, s.file = some v ∧ v.fingerprint = fp

/-- What is known of a call by where it stands. -/
def CallSound (s : CacheState) (call : Nat) : CallState → Prop
  | .hit fp m => s.Certified fp m
  | .saving m origin => m.validate = .ok () ∧ origin ≠ .load
  | .held m _ => ∃ v, s.file = some v ∧ v.bytes.decode = .ok m
  | .inserting fp m origin => s.Certified fp m ∧ s.lockedBy = some call ∧
      (s.Current fp ∨ ∃ (other : Nat) (m' : SeriesMeta) (o : Origin), other ≠ call ∧ o ≠ .load ∧
        s.calls[other]? = some (.held m' o)) ∧
      (origin = .migration → ∃ v, s.file = some v ∧ v.bytes.decode = .ok m)
  | _ => True

structure Sound (s : CacheState) : Prop where
  distinct : (s.versions.map ManifestVersion.fingerprint).Nodup
  entry : ∀ c, s.cache = some c → s.Certified c.fingerprint c.seriesMeta
  calls : ∀ (call : Nat) c, s.calls[call]? = some c → s.CallSound call c
  /-- An entry that is not that of the file is about to be replaced. -/
  recent : ∀ c, s.cache = some c →
    s.Current c.fingerprint ∨ ∃ (call : Nat) (d : CallState), s.calls[call]? = some d ∧ d.isPublishing = true

variable {s : CacheState}

theorem Current.certified {fp : ManifestFingerprint} {v : ManifestVersion} {m : SeriesMeta} (hf : s.file = some v)
    (hfp : v.fingerprint = fp) (hd : v.bytes.decode = .ok m) : s.Certified fp m :=
  ⟨v, List.mem_of_mem_head? (Option.mem_def.2 hf), hfp, hd⟩

/-- Versions with one fingerprint are one version. -/
theorem Sound.version_eq (hs : s.Sound) {v w : ManifestVersion} (hv : v ∈ s.versions) (hw : w ∈ s.versions)
    (h : v.fingerprint = w.fingerprint) : v = w :=
  List.inj_on_of_nodup_map hs.distinct hv hw h

theorem Certified.decode {fp : ManifestFingerprint} {m : SeriesMeta} (h : s.Certified fp m) (hs : s.Sound) :
    ∀ v ∈ s.versions, v.fingerprint = fp → v.bytes.decode = .ok m := by
  obtain ⟨w, hw, hfp, hd⟩ := h
  intro v hv hvfp
  rw [hs.version_eq hv hw (hvfp.trans hfp.symm)]
  exact hd

theorem Sound.coherent (hs : s.Sound) : Coherent s where
  entry c v hc hf hfp := (hs.entry c hc).decode hs v (List.mem_of_mem_head? (Option.mem_def.2 hf)) hfp.symm
  hit call fp m hcall := Certified.decode (hs.calls call _ hcall) hs
  cached hquiet m v hm hf := by
    unfold sharedCached at hm
    obtain ⟨c, hc, rfl⟩ := Option.map_eq_some_iff.1 hm
    rcases hs.recent c hc with ⟨w, hw, hfp⟩ | ⟨call, d, hd, hpub⟩
    · rw [hf] at hw
      obtain rfl := Option.some.inj hw
      exact (hs.entry c hc).decode hs v (List.mem_of_mem_head? (Option.mem_def.2 hf)) hfp
    · rw [hquiet call d hd] at hpub
      cases hpub

/-- A call keeps its standing while the file and the lock stay and the other renamed calls stay. -/
theorem CallSound.of {s' : CacheState} {call : Nat} {c : CallState} (h : s.CallSound call c)
    (hver : s'.versions = s.versions) (hlock : s'.lockedBy = s.lockedBy)
    (hheld : ∀ (other : Nat) m origin, s.calls[other]? = some (.held m origin) →
      s'.calls[other]? = some (.held m origin)) :
    s'.CallSound call c := by
  have hfile : s'.file = s.file := congrArg List.head? hver
  cases c with
  | hit fp m => exact (by simpa only [CallSound, Certified, hver] using h)
  | saving m origin => exact h
  | held m origin =>
    obtain ⟨v, hv, hd⟩ := h
    exact ⟨v, hfile.trans hv, hd⟩
  | inserting fp m origin =>
    obtain ⟨hcert, hl, hcur, hmig⟩ := h
    refine ⟨by simpa only [Certified, hver] using hcert, hlock.trans hl, ?_, fun ho => ?_⟩
    · rcases hcur with ⟨v, hv, hfp⟩ | ⟨other, m', o, hne, ho, hc⟩
      · exact .inl ⟨v, hfile.trans hv, hfp⟩
      · exact .inr ⟨other, m', o, hne, ho, hheld other m' o hc⟩
    · obtain ⟨v, hv, hd⟩ := hmig ho
      exact ⟨v, hfile.trans hv, hd⟩
  | fingerprinted fp => trivial
  | missed => trivial
  | loaded m => trivial
  | saved => trivial
  | failed e => trivial

/-- A new call that has not looked at anything yet. -/
theorem Sound.begin (hs : s.Sound) {c : CallState} (hc : ∀ call, s.CallSound call c)
    (hheld : ∀ m origin, c ≠ .held m origin) (hins : ∀ fp m origin, c ≠ .inserting fp m origin) :
    (s.begin c).Sound where
  distinct := hs.distinct
  entry := hs.entry
  calls call d hd := by
    have hkeep : ∀ (other : Nat) m origin, s.calls[other]? = some (.held m origin) →
        (s.begin c).calls[other]? = some (.held m origin) := fun other m origin h => getElem?_begin_of h
    rcases getElem?_begin hd with rfl | hd
    · exact (hc call).of rfl rfl hkeep
    · exact (hs.calls call d hd).of rfl rfl hkeep
  recent e he := by
    rcases hs.recent e he with h | ⟨call, d, hd, hpub⟩
    · exact .inl h
    · exact .inr ⟨call, d, getElem?_begin_of hd, hpub⟩

/-- A load that goes on without having renamed anything. -/
theorem Sound.set (hs : s.Sound) {call : Nat} {old new : CallState} (hold : s.calls[call]? = some old)
    (hquiet : old = .missed ∨ ∃ fp, old = .fingerprinted fp) (hnew : s.CallSound call new) :
    (s.set call new).Sound where
  distinct := hs.distinct
  entry := hs.entry
  calls other d hd := by
    have hkeep : ∀ (other : Nat) m origin, s.calls[other]? = some (.held m origin) →
        (s.set call new).calls[other]? = some (.held m origin) := by
      intro other m origin h
      refine getElem?_set_of_ne (fun heq => ?_) h
      rw [heq, hold] at h
      rcases hquiet with rfl | ⟨fp, rfl⟩ <;> cases h
    rcases getElem?_set hd with ⟨rfl, rfl⟩ | ⟨-, hd⟩
    · exact hnew.of rfl rfl hkeep
    · exact (hs.calls other d hd).of rfl rfl hkeep
  recent e he := by
    rcases hs.recent e he with h | ⟨other, d, hd, hpub⟩
    · exact .inl h
    · refine .inr ⟨other, d, getElem?_set_of_ne (fun heq => ?_) hd, hpub⟩
      rw [heq, hold] at hd
      obtain rfl := Option.some.inj hd
      rcases hquiet with rfl | ⟨fp, rfl⟩ <;> cases hpub

theorem afterRead_sound {now : Int} {v : ManifestVersion} {call : Nat} (hf : s.file = some v) :
    s.CallSound call (afterRead now v.bytes) := by
  have hplain : ∀ b : ManifestBytes, v.bytes = b → ∀ m, b.decode = .ok m → s.CallSound call (.held m .load) :=
    fun b hb m hm => ⟨v, hf, hb ▸ hm⟩
  unfold afterRead
  cases hb : v.bytes with
  | json legacy =>
    simp only
    cases hm : migrateLegacyJson now legacy with
    | error e => trivial
    | ok m => exact ⟨migrateLegacyJson_valid hm, by decide⟩
  | binary m =>
    simp only
    cases hm : (ManifestBytes.binary m).decode with
    | error e => trivial
    | ok m' => exact hplain _ hb m' hm
  | undecodable e => trivial

theorem Sound.renamed (hs : s.Sound) {call : Nat} {m : SeriesMeta} {origin : Origin} {fp : ManifestFingerprint}
    (hcall : s.calls[call]? = some (.saving m origin)) (hfresh : fp ∉ s.versions.map ManifestVersion.fingerprint)
    (halone : ∀ (other : Nat) c, s.calls[other]? = some c → c.isUnstamped = true → other = call) :
    Sound { s.set call (.held m origin) with versions := ⟨.binary m, fp⟩ :: s.versions } := by
  have hsaving : m.validate = .ok () ∧ origin ≠ .load := hs.calls call _ hcall
  have hself := getElem?_set_self (c := .held m origin) hcall
  have hcert : ∀ {fp' m'}, s.Certified fp' m' →
      Certified { s.set call (.held m origin) with versions := ⟨.binary m, fp⟩ :: s.versions } fp' m' := by
    rintro fp' m' ⟨v, hv, h⟩
    exact ⟨v, List.mem_cons_of_mem _ hv, h⟩
  refine ⟨List.nodup_cons.2 ⟨hfresh, hs.distinct⟩, fun c hc => hcert (hs.entry c hc), fun other d hd => ?_,
    fun c hc => ?_⟩
  · rcases getElem?_set hd with ⟨rfl, rfl⟩ | ⟨hne, hd⟩
    · exact ⟨_, rfl, ManifestBytes.decode_binary hsaving.1⟩
    · have h := hs.calls other d hd
      cases d with
      | hit fp' m' => exact hcert h
      | saving m' o => exact h
      | held m' o => exact absurd (halone other _ hd rfl) hne
      | inserting fp' m' o =>
        refine ⟨hcert h.1, h.2.1, .inr ⟨call, m, origin, Ne.symm hne, hsaving.2, hself⟩, fun ho => ?_⟩
        subst ho
        exact absurd (halone other _ hd rfl) hne
      | fingerprinted fp => trivial
      | missed => trivial
      | loaded m => trivial
      | saved => trivial
      | failed e => trivial
  · exact .inr ⟨call, _, hself, decide_eq_true hsaving.2⟩

theorem Sound.fingerprinting (hs : s.Sound) {call : Nat} {m : SeriesMeta} {origin : Origin} {v : ManifestVersion}
    (hcall : s.calls[call]? = some (.held m origin)) (hfree : s.lockedBy = none) (hf : s.file = some v) :
    Sound { s.set call (.inserting v.fingerprint m origin) with lockedBy := some call } := by
  have hself := getElem?_set_self (c := .inserting v.fingerprint m origin) hcall
  refine ⟨hs.distinct, hs.entry, fun other d hd => ?_, fun c hc => ?_⟩
  · rcases getElem?_set hd with ⟨rfl, rfl⟩ | ⟨hne, hd⟩
    · obtain ⟨w, hw, hd'⟩ := hs.calls other _ hcall
      rw [hf] at hw
      obtain rfl := Option.some.inj hw
      exact ⟨Current.certified hf rfl hd', rfl, .inl ⟨v, hf, rfl⟩, fun _ => ⟨v, hf, hd'⟩⟩
    · have h := hs.calls other d hd
      cases d with
      | hit fp' m' => exact h
      | saving m' o => exact h
      | held m' o => exact h
      | inserting fp' m' o =>
        -- nobody inserts while the cache is free
        have hl := h.2.1
        rw [hfree] at hl
        cases hl
      | fingerprinted fp => trivial
      | missed => trivial
      | loaded m => trivial
      | saved => trivial
      | failed e => trivial
  · rcases hs.recent c hc with h | ⟨other, d, hd, hpub⟩
    · exact .inl h
    · by_cases heq : other = call
      · rw [heq, hcall] at hd
        obtain rfl := Option.some.inj hd
        exact .inr ⟨call, _, hself, hpub⟩
      · exact .inr ⟨other, d, getElem?_set_of_ne heq hd, hpub⟩

theorem Sound.inserted (hs : s.Sound) {call : Nat} {fp : ManifestFingerprint} {m : SeriesMeta} {origin : Origin}
    (hcall : s.calls[call]? = some (.inserting fp m origin)) :
    Sound { s.set call (afterInsert m origin) with cache := some ⟨fp, m⟩, lockedBy := none } := by
  obtain ⟨hcert, hlock, hcur, hmig⟩ : s.CallSound call (.inserting fp m origin) := hs.calls call _ hcall
  refine ⟨hs.distinct, fun c hc => ?_, fun other d hd => ?_, fun c hc => ?_⟩
  · obtain rfl := Option.some.inj hc
    exact hcert
  · rcases getElem?_set hd with ⟨rfl, rfl⟩ | ⟨hne, hd⟩
    · cases origin with
      | load => trivial
      | save => trivial
      | migration => exact hmig rfl
    · have h := hs.calls other d hd
      cases d with
      | hit fp' m' => exact h
      | saving m' o => exact h
      | held m' o => exact h
      | inserting fp' m' o =>
        have hl := h.2.1
        rw [hlock] at hl
        exact absurd (Option.some.inj hl).symm hne
      | fingerprinted fp => trivial
      | missed => trivial
      | loaded m => trivial
      | saved => trivial
      | failed e => trivial
  · obtain rfl := Option.some.inj hc
    rcases hcur with h | ⟨other, m', o, hne, ho, hd⟩
    · exact .inl h
    · exact .inr ⟨other, _, getElem?_set_of_ne hne hd, decide_eq_true ho⟩

/-- What every step keeps that is taken with a fresh fingerprint and disturbs no call. -/
theorem Sound.step (hs : s.Sound) {a : CacheStep} {s' : CacheState} (hfresh : FreshFingerprint s a)
    (halone : Undisturbing s a) (h : s.step a = some s') : s'.Sound := by
  cases a with
  | startLoad =>
    simp only [CacheState.step] at h
    cases hf : s.file with
    | none =>
      rw [hf] at h
      obtain rfl := Option.some.inj h
      exact hs.begin (fun _ => trivial) (fun _ _ => CallState.noConfusion) (fun _ _ _ => CallState.noConfusion)
    | some v =>
      rw [hf] at h
      obtain rfl := Option.some.inj h
      exact hs.begin (fun _ => trivial) (fun _ _ => CallState.noConfusion) (fun _ _ _ => CallState.noConfusion)
  | startSave m =>
    simp only [CacheState.step] at h
    cases hv : m.validate with
    | error e =>
      rw [hv] at h
      obtain rfl := Option.some.inj h
      exact hs.begin (fun _ => trivial) (fun _ _ => CallState.noConfusion) (fun _ _ _ => CallState.noConfusion)
    | ok u =>
      rw [hv] at h
      obtain rfl := Option.some.inj h
      exact hs.begin (fun _ => ⟨hv, by decide⟩) (fun _ _ => CallState.noConfusion) (fun _ _ _ => CallState.noConfusion)
  | lookup call =>
    simp only [CacheState.step] at h
    split at h
    · rename_i fp hcall
      by_cases hl : s.lockedBy.isSome = true
      · rw [if_pos hl] at h
        cases h
      · rw [if_neg hl] at h
        cases hc : s.cache with
        | none =>
          rw [hc] at h
          obtain rfl := Option.some.inj h
          exact hs.set hcall (.inr ⟨fp, rfl⟩) trivial
        | some entry =>
          rw [hc] at h
          simp only at h
          by_cases hfp : entry.fingerprint = fp
          · rw [if_pos hfp] at h
            obtain rfl := Option.some.inj h
            exact hs.set hcall (.inr ⟨fp, rfl⟩) (hfp ▸ hs.entry entry hc)
          · rw [if_neg hfp] at h
            obtain rfl := Option.some.inj h
            exact hs.set hcall (.inr ⟨fp, rfl⟩) trivial
    · cases h
  | read call now =>
    simp only [CacheState.step] at h
    split at h
    · rename_i hcall
      cases hf : s.file with
      | none =>
        rw [hf] at h
        obtain rfl := Option.some.inj h
        exact hs.set hcall (.inl rfl) trivial
      | some v =>
        rw [hf] at h
        obtain rfl := Option.some.inj h
        exact hs.set hcall (.inl rfl) (afterRead_sound hf)
    · cases h
  | rename call fp =>
    simp only [CacheState.step] at h
    split at h
    · rename_i m origin hcall
      obtain rfl := Option.some.inj h
      refine hs.renamed hcall hfresh (fun other c hc hun => ?_)
      obtain ⟨hlt, rfl⟩ := List.getElem?_eq_some_iff.1 hc
      exact halone other hlt hun
    · cases h
  | fingerprint call =>
    simp only [CacheState.step] at h
    split at h
    · rename_i m origin hcall
      by_cases hl : s.lockedBy.isSome = true
      · rw [if_pos hl] at h
        cases h
      · rw [if_neg hl] at h
        obtain ⟨v, hf, -⟩ : s.CallSound call (.held m origin) := hs.calls call _ hcall
        rw [hf] at h
        obtain rfl := Option.some.inj h
        exact hs.fingerprinting hcall (by simpa using hl) hf
    · cases h
  | insert call =>
    simp only [CacheState.step] at h
    split at h
    · rename_i fp m origin hcall
      obtain rfl := Option.some.inj h
      exact hs.inserted hcall
    · cases h
  | invalidateRoot =>
    simp only [CacheState.step] at h
    by_cases hl : s.lockedBy.isSome = true
    · rw [if_pos hl] at h
      cases h
    · rw [if_neg hl] at h
      obtain rfl := Option.some.inj h
      exact ⟨hs.distinct, (fun c hc => nomatch hc), fun call c hc => (hs.calls call c hc).of rfl rfl (fun _ _ _ h => h),
        (fun c hc => nomatch hc)⟩

theorem start_sound (file : Option ManifestVersion) : (start file).Sound where
  distinct := by cases file <;> simp [start]
  entry c hc := by cases hc
  calls call c hc := by cases hc
  recent c hc := by cases hc

end CacheState

open CacheState in
/-- **Where no rename of another call comes between the read or the rename of a call and its last fingerprint, the
cache is coherent; a rename that does come between makes an incoherent cache reachable, unless it writes what the
other call holds.** -/
theorem manifest_cache_coherent (file : Option ManifestVersion) (steps : List CacheStep) (s : CacheState)
    (hrun : run CacheState.step (start file) steps = some s) :
    (Meets CacheState.step (fun s a => FreshFingerprint s a ∧ Undisturbing s a) (start file) steps → Coherent s) ∧
    ∀ (call other : Nat) m m' origin origin' fp, s.calls[call]? = some (.saving m origin) →
      s.calls[other]? = some (.held m' origin') → m' ≠ m → s.lockedBy = none →
      ∃ s', run CacheState.step s [.rename call fp, .fingerprint other, .insert other] = some s' ∧ ¬ Coherent s' := by
  constructor
  · intro hmeets
    exact (run_keeps
      (fun s a next hs hc hnext => Sound.step hs hc.1 hc.2 hnext) steps (start_sound file) hmeets hrun).coherent
  · intro call other m m' origin origin' fp hcall hother hne hfree
    have hdiff : other ≠ call := by
      rintro rfl
      rw [hcall] at hother
      cases hother
    -- the file is replaced, and the old manifest is cached under the new fingerprint
    let s1 : CacheState := { s.set call (.held m origin) with versions := ⟨.binary m, fp⟩ :: s.versions }
    let s2 : CacheState := { s1.set other (.inserting fp m' origin') with lockedBy := some other }
    let s3 : CacheState := { s2.set other (afterInsert m' origin') with cache := some ⟨fp, m'⟩, lockedBy := none }
    have h1 : s.step (.rename call fp) = some s1 := by
      simp only [CacheState.step]
      rw [hcall]
    have hother1 : s1.calls[other]? = some (.held m' origin') := getElem?_set_of_ne hdiff hother
    have h2 : s1.step (.fingerprint other) = some s2 := by
      simp only [CacheState.step]
      rw [hother1]
      have hfree1 : s1.lockedBy = none := hfree
      simp only [hfree1]
      rfl
    have hother2 : s2.calls[other]? = some (.inserting fp m' origin') := getElem?_set_self hother1
    have h3 : s2.step (.insert other) = some s3 := by
      simp only [CacheState.step]
      rw [hother2]
    refine ⟨s3, by rw [run, h1]; simp only; rw [run, h2]; simp only; rw [run, h3]; rfl, fun hcoh => hne ?_⟩
    have hd := hcoh.entry ⟨fp, m'⟩ ⟨.binary m, fp⟩ rfl rfl rfl
    exact ManifestBytes.binary.inj (ManifestBytes.decode_ok hd).1.symm

/-! ### A save between the two looks of a load -/

def sampleFile : ManifestVersion := ⟨.binary (sampleMeta []), ⟨120, 1⟩⟩

def sampleNext : SeriesMeta := { sampleMeta [] with manifestSeq := 2 }

/-- A load has read the file when a save replaces it; the next mutation drops the entry of the save, and the load
inserts its own. -/
def sampleSteps : List CacheStep :=
  [.startLoad, .lookup 0, .read 0 5, .startSave sampleNext, .rename 1 ⟨120, 2⟩, .fingerprint 1, .insert 1,
    .invalidateRoot, .fingerprint 0, .insert 0]

/-- The same calls, the load complete before the rename. -/
def sampleApart : List CacheStep :=
  [.startLoad, .lookup 0, .read 0 5, .startSave sampleNext, .fingerprint 0, .insert 0, .rename 1 ⟨120, 2⟩,
    .fingerprint 1, .insert 1]

theorem manifest_cache_coherent_sample : ∃ s, run CacheState.step (.start (some sampleFile)) sampleApart = some s ∧
    s.sharedCached = some sampleNext ∧ Coherent s := by
  have hlook : (run CacheState.step (.start (some sampleFile)) sampleApart).map CacheState.sharedCached = some (some sampleNext) := by
    decide +kernel
  obtain ⟨s, hrun, hs⟩ := Option.map_eq_some_iff.1 hlook
  exact ⟨s, hrun, hs, (manifest_cache_coherent (some sampleFile) sampleApart s hrun).1 (by decide +kernel)⟩

/-- The entry left in the cache has the fingerprint of the file and the manifest that the file had before. -/
theorem stale_entry_cached : ¬ ∀ file steps s, Meets CacheState.step FreshFingerprint (.start file) steps →
    run CacheState.step (.start file) steps = some s →
    ∀ c v, s.cache = some c → s.file = some v → c.fingerprint = v.fingerprint → v.bytes.decode = .ok c.seriesMeta := by
  intro h
  have hlook : (run CacheState.step (.start (some sampleFile)) sampleSteps).map (fun s => (s.cache, s.file)) =
      some (some ⟨⟨120, 2⟩, sampleMeta []⟩, some ⟨.binary sampleNext, ⟨120, 2⟩⟩) := by
    decide +kernel
  obtain ⟨s, hrun, hs⟩ := Option.map_eq_some_iff.1 hlook
  obtain ⟨hc, hf⟩ := Prod.mk.inj hs
  exact absurd (h _ sampleSteps s (by decide +kernel) hrun _ _ hc hf rfl) (by decide +kernel)

end FastK
