import FastK.Lib.Tables
import FastK.Types
/-!
# The dataset registry

The control catalog of versioned datasets (`control/dataset_registry.rs`): one row for each dataset and version, and,
once the dataset is published, a second row that binds it to the digest of its sealed root.  A bound pair is fixed:
every call keeps both rows, and an upsert that would change the first is refused (`publishDataset_immutable`).
-/
namespace FastK

open Tables

/-- The row of a versioned dataset. -/
structure DatasetManifestRecord where
  datasetId : Text
  version : Text
  fastkRoot : Text
  source : Text
  market : Text
  startTs : Int
  endTs : Int
  schemaVersion : Text
  checksum : Option Text
  status : Text
  createdAt : Int
  deriving DecidableEq, Repr

def validateRequired (field value : Text) : Result Unit :=
  if Text.isBlank value then .error (.invalidInput (words [field, " must not be empty"])) else .ok ()

namespace DatasetManifestRecord

def validate (record : DatasetManifestRecord) : Result Unit := do
  validateRequired "dataset_id" record.datasetId
  validateRequired "version" record.version
  validateRequired "fastk_root" record.fastkRoot
  validateRequired "source" record.source
  validateRequired "market" record.market
  validateRequired "schema_version" record.schemaVersion
  validateRequired "status" record.status
  if record.endTs < record.startTs then
    throw (.invalidInput (words ["dataset ", record.datasetId, "@", record.version, " has start_ts ",
      showInt record.startTs, " after end_ts ", showInt record.endTs]))

/-- The primary key of `dataset_manifest`. -/
def key (record : DatasetManifestRecord) : Text × Text := (record.datasetId, record.version)

end DatasetManifestRecord

/-- A row of `dataset_snapshot`. -/
structure SnapshotBinding where
  datasetId : Text
  version : Text
  fastkRoot : Text
  digest : Text
  deriving DecidableEq, Repr

/-- The primary key of `dataset_snapshot`. -/
def SnapshotBinding.key (binding : SnapshotBinding) : Text × Text := (binding.datasetId, binding.version)

/-- The two tables of the datasets. -/
structure DatasetRegistry where
  datasetManifest : Table DatasetManifestRecord.key
  datasetSnapshot : Table SnapshotBinding.key

/-- The statements that the calls run. -/
inductive Statement where
  | begin
  | upsert
  | selectDataset
  | selectSnapshot
  | insertSnapshot
  | commit
  deriving DecidableEq, Repr

/-- What the database and the snapshots of the roots answer during one call: which statements fail, the digest that a
root is sealed with, and whether a root still has a digest. -/
structure Answers where
  fault : Statement → Option Text
  sealSnapshot : Text → Result Text
  verifySnapshot : Text → Text → Result Unit

namespace Answers

/-- A statement that does not fail gives its rows. -/
def execute {α : Type} (a : Answers) (statement : Statement) (rows : α) : Result α :=
  match a.fault statement with
  | some msg => .error (.sqlite msg)
  | none => .ok rows

theorem execute_ok {α : Type} {a : Answers} {statement : Statement} {rows r : α}
    (h : a.execute statement rows = .ok r) : r = rows := by
  unfold execute at h
  cases hf : a.fault statement with
  | some msg =>
    rw [hf] at h
    cases h
  | none =>
    rw [hf] at h
    exact (Except.ok.inj h).symm

end Answers

namespace DatasetRegistry

def empty : DatasetRegistry := ⟨.empty, .empty⟩

/-- A transaction: what its body wrote is kept where the body succeeds and the commit does. -/
def transaction {α : Type} (a : Answers) (body : DatasetRegistry → DatasetRegistry × Result α)
    (registry : DatasetRegistry) :
    DatasetRegistry × Result α :=
  match a.execute .begin () with
  | .error e => (registry, .error e)
  | .ok () =>
    match body registry with
    | (_, .error e) => (registry, .error e)
    | (written, .ok value) =>
      match a.execute .commit () with
      | .error e => (registry, .error e)
      | .ok () => (written, .ok value)

/-- Loads one deterministic dataset manifest row. -/
def getDataset (a : Answers) (datasetId version : Text) (registry : DatasetRegistry) :
    Result (Option DatasetManifestRecord) := do
  validateRequired "dataset_id" datasetId
  validateRequired "version" version
  a.execute .selectDataset (registry.datasetManifest.select (datasetId, version))

def snapshotBinding (a : Answers) (datasetId version : Text) (registry : DatasetRegistry) :
    Result (Option (Text × Text)) :=
  a.execute .selectSnapshot ((registry.datasetSnapshot.select (datasetId, version)).map (fun s =>
    (s.fastkRoot, s.digest)))

/-- The statement of `upsert_dataset`: the row is updated where no snapshot is bound to its key. -/
def upsertRow (record : DatasetManifestRecord) (registry : DatasetRegistry) : DatasetRegistry × Nat :=
  let allowed := (registry.datasetSnapshot.select (record.datasetId, record.version)).isNone
  let (manifest, changed) := registry.datasetManifest.upsert allowed record
  ({ registry with datasetManifest := manifest }, changed)

/-- Inserts or updates a dataset manifest row for one explicit `(dataset_id, version)` pair. -/
def upsertDataset (a : Answers) (record : DatasetManifestRecord) (registry : DatasetRegistry) :
    DatasetRegistry × Result Unit :=
  match record.validate with
  | .error e => (registry, .error e)
  | .ok () =>
    match a.execute .upsert (upsertRow record registry) with
    | .error e => (registry, .error e)
    | .ok (written, changed) =>
      if changed = 0 then
        match getDataset a record.datasetId record.version written with
        | .error e => (written, .error e)
        | .ok stored =>
          if stored ≠ some record then
            (written, .error (.invalidInput "sealed dataset binding cannot change; publish a new version"))
          else (written, .ok ())
      else (written, .ok ())

/-- The insertion of a binding, which fails where the pair has one. -/
def insertBinding (a : Answers) (binding : SnapshotBinding) (registry : DatasetRegistry) :
    DatasetRegistry × Result Unit :=
  match registry.datasetSnapshot.insert binding with
  | none =>
    (registry,
      .error (.sqlite "UNIQUE constraint failed: dataset_snapshot.dataset_id, dataset_snapshot.version"))
  | some snapshots =>
    match a.execute .insertSnapshot () with
    | .error e => (registry, .error e)
    | .ok () => ({ registry with datasetSnapshot := snapshots }, .ok ())

/-- The row that a publication stores. -/
def publishedRow (record : DatasetManifestRecord) (digest : Text) : DatasetManifestRecord :=
  { record with status := "sealed", checksum := some digest }

/-- The statements of a publication, inside its transaction. -/
def bindRows (a : Answers) (record : DatasetManifestRecord) (digest : Text) (registry : DatasetRegistry) :
    DatasetRegistry × Result DatasetManifestRecord :=
  match upsertDataset a (publishedRow record digest) registry with
  | (written, .error e) => (written, .error e)
  | (written, .ok ()) =>
    match insertBinding a ⟨record.datasetId, record.version, record.fastkRoot, digest⟩ written with
    | (bound, .error e) => (bound, .error e)
    | (bound, .ok ()) => (bound, .ok (publishedRow record digest))

/-- Seals bytes before publishing an immutable catalog binding. -/
def publishDataset (a : Answers) (record : DatasetManifestRecord) (registry : DatasetRegistry) :
    DatasetRegistry × Result DatasetManifestRecord :=
  match record.validate with
  | .error e => (registry, .error e)
  | .ok () =>
    match snapshotBinding a record.datasetId record.version registry with
    | .error e => (registry, .error e)
    | .ok (some (root, digest)) =>
      if root ≠ record.fastkRoot then (registry, .error (.invalidInput "sealed dataset binding cannot change"))
      else
        match a.verifySnapshot root digest with
        | .error e => (registry, .error e)
        | .ok () =>
          match getDataset a record.datasetId record.version registry with
          | .error e => (registry, .error e)
          | .ok none => (registry, .error (.invalidData "snapshot catalog row missing"))
          | .ok (some stored) => (registry, .ok stored)
    | .ok none =>
      match a.sealSnapshot record.fastkRoot with
      | .error e => (registry, .error e)
      | .ok digest => transaction a (bindRows a record digest) registry

/-- One call on a registry, and what the database and the roots answer during it. -/
inductive Call where
  | upsertDataset (a : Answers) (record : DatasetManifestRecord)
  | publishDataset (a : Answers) (record : DatasetManifestRecord)

/-- The registry after a call. -/
def exec (registry : DatasetRegistry) : Call → DatasetRegistry
  | .upsertDataset a record => (DatasetRegistry.upsertDataset a record registry).1
  | .publishDataset a record => (DatasetRegistry.publishDataset a record registry).1

/-- The registry after the calls, one after another. -/
def after (registry : DatasetRegistry) (calls : List Call) : DatasetRegistry := calls.foldl exec registry

/-! ## What one call does -/

section Calls

variable {a : Answers} {record published m : DatasetManifestRecord} {binding s : SnapshotBinding}
    {registry registry' : DatasetRegistry}
  {k : Text × Text}

theorem getDataset_ok {datasetId version : Text} {stored : Option DatasetManifestRecord}
    (h : getDataset a datasetId version registry = .ok stored) :
    stored = registry.datasetManifest.select (datasetId, version) := by
  unfold getDataset at h
  cases hid : validateRequired "dataset_id" datasetId with
  | error e =>
    rw [hid] at h
    cases h
  | ok u =>
    cases hversion : validateRequired "version" version with
    | error e =>
      rw [hid, hversion] at h
      cases h
    | ok u =>
      rw [hid, hversion] at h
      exact Answers.execute_ok h

theorem upsertRow_unchanged (h : (upsertRow record registry).2 = 0) : (upsertRow record registry).1 = registry := by
  unfold upsertRow at h ⊢
  simp only at h ⊢
  rw [Table.upsert_eq_of_unchanged h]

theorem upsertRow_changed (h : (upsertRow record registry).2 ≠ 0) :
    (upsertRow record registry).1.datasetManifest.select record.key = some record := by
  unfold upsertRow at h ⊢
  simp only at h ⊢
  refine (Table.upsert_of_allowed ?_).2
  by_contra hc
  rw [not_or, Bool.not_eq_true] at hc
  exact h (by rw [Table.upsert_of_refused hc.1 hc.2])

/-- An upsert that fails wrote nothing, and one that succeeds has stored its record. -/
theorem upsertDataset_spec :
    ((upsertDataset a record registry).2 = .ok () ∧
      (upsertDataset a record registry).1 = (upsertRow record registry).1 ∧
      (upsertRow record registry).1.datasetManifest.select record.key = some record) ∨
    ∃ e, upsertDataset a record registry = (registry, .error e) := by
  unfold upsertDataset
  cases record.validate with
  | error e => exact .inr ⟨e, rfl⟩
  | ok u =>
    cases hr : a.execute .upsert (upsertRow record registry) with
    | error e => exact .inr ⟨e, rfl⟩
    | ok r =>
      obtain rfl := Answers.execute_ok hr
      by_cases hc : (upsertRow record registry).2 = 0
      · simp only [hc, if_true, upsertRow_unchanged hc]
        cases hg : getDataset a record.datasetId record.version registry with
        | error e => exact .inr ⟨e, rfl⟩
        | ok stored =>
          by_cases hs : stored = some record
          · have hstored : registry.datasetManifest.select record.key = some record := (getDataset_ok hg).symm.trans hs
            exact .inl (by simp [hs, hstored])
          · exact .inr (by simp [hs])
      · exact .inl (by simp [hc, upsertRow_changed hc])

/-- A transaction keeps what its body wrote, or nothing. -/
theorem transaction_spec {α : Type} {body : DatasetRegistry → DatasetRegistry × Result α} :
    (∃ value, (body registry).2 = .ok value ∧ transaction a body registry = ((body registry).1, .ok value)) ∨
    ∃ e, transaction a body registry = (registry, .error e) := by
  unfold transaction
  cases a.execute .begin () with
  | error e => exact .inr ⟨e, rfl⟩
  | ok u =>
    cases hb : body registry with
    | mk written r =>
      cases r with
      | error e => exact .inr ⟨e, rfl⟩
      | ok value =>
        cases a.execute .commit () with
        | error e => exact .inr ⟨e, rfl⟩
        | ok u => exact .inl ⟨value, rfl, rfl⟩

/-- An insertion that succeeds found no binding of the pair. -/
theorem insertBinding_ok (h : (insertBinding a binding registry).2 = .ok ()) :
    ∃ snapshots, registry.datasetSnapshot.insert binding = some snapshots ∧
      (insertBinding a binding registry).1 = { registry with datasetSnapshot := snapshots } := by
  unfold insertBinding at h ⊢
  cases hi : registry.datasetSnapshot.insert binding with
  | none =>
    rw [hi] at h
    cases h
  | some snapshots =>
    simp only [hi] at h ⊢
    cases he : a.execute .insertSnapshot () with
    | error e =>
      rw [he] at h
      cases h
    | ok u => exact ⟨snapshots, rfl, rfl⟩

/-- The rows of a publication: the record's row, and the binding of a pair that had none. -/
theorem bindRows_ok {digest : Text} (h : (bindRows a record digest registry).2 = .ok published) :
    published = publishedRow record digest ∧ ∃ snapshots,
      (upsertRow published registry).1.datasetSnapshot.insert
        ⟨record.datasetId, record.version, record.fastkRoot, digest⟩ =
        some snapshots ∧
      (bindRows a record digest registry).1 = { (upsertRow published registry).1 with datasetSnapshot := snapshots } ∧
      (upsertRow published registry).1.datasetManifest.select published.key = some published := by
  unfold bindRows at h ⊢
  rcases @upsertDataset_spec a (publishedRow record digest) registry with ⟨hok, hwritten, hstored⟩ | ⟨e, he⟩
  · cases hu : upsertDataset a (publishedRow record digest) registry with
    | mk written r =>
      rw [hu] at hok hwritten
      obtain rfl : r = .ok () := hok
      obtain rfl : written = _ := hwritten
      simp only [hu] at h ⊢
      cases hb : insertBinding a ⟨record.datasetId, record.version, record.fastkRoot, digest⟩
          (upsertRow (publishedRow record digest) registry).1 with
      | mk bound r =>
        cases r with
        | error e =>
          rw [hb] at h
          cases h
        | ok u =>
          rw [hb] at h
          obtain rfl := Except.ok.inj h
          obtain ⟨snapshots, hi, hbound⟩ := insertBinding_ok (congrArg Prod.snd hb)
          refine ⟨rfl, snapshots, hi, ?_, hstored⟩
          rw [hb] at hbound
          exact hbound
  · rw [he] at h
    cases h

/-! ## Bound pairs -/

/-- The rows that a published pair has in the two tables. -/
structure Bound (registry : DatasetRegistry) (k : Text × Text) (m : DatasetManifestRecord)
    (s : SnapshotBinding) : Prop where
  manifest : registry.datasetManifest.select k = some m
  snapshot : registry.datasetSnapshot.select k = some s

theorem Bound.upsertRow (h : Bound registry k m s) : Bound (upsertRow record registry).1 k m s := by
  refine ⟨?_, h.snapshot⟩
  unfold DatasetRegistry.upsertRow
  by_cases hk : k = record.key
  · subst hk
    have hbound : registry.datasetSnapshot.select (record.datasetId, record.version) = some s := h.snapshot
    have hfree : registry.datasetManifest.select record.key ≠ none := by simp [h.manifest]
    simp only [hbound, Option.isNone_some]
    rw [Table.upsert_of_refused hfree rfl]
    exact h.manifest
  · exact (Table.select_upsert_of_ne hk).trans h.manifest

theorem Bound.upsertDataset (h : Bound registry k m s) : Bound (upsertDataset a record registry).1 k m s := by
  rcases @upsertDataset_spec a record registry with ⟨-, hwritten, -⟩ | ⟨e, he⟩
  · rw [hwritten]
    exact h.upsertRow
  · rw [he]
    exact h

/-- **An upsert with other contents is refused**, and writes nothing. -/
theorem Bound.upsertDataset_refused (h : Bound registry record.key m s) (hne : record ≠ m) :
    ∃ e, DatasetRegistry.upsertDataset a record registry = (registry, .error e) := by
  rcases @upsertDataset_spec a record registry with ⟨-, -, hstored⟩ | he
  · have hm : (DatasetRegistry.upsertRow record registry).1.datasetManifest.select record.key = some m :=
      h.upsertRow.manifest
    exact absurd (Option.some.inj (hstored.symm.trans hm)) hne
  · exact he

/-- A publication that succeeds returns the row of a pair that it found bound, or has bound. -/
theorem publishDataset_spec :
    (∃ published s, (publishDataset a record registry).2 = .ok published ∧ s.fastkRoot = record.fastkRoot ∧
      Bound (publishDataset a record registry).1 record.key published s ∧
      ∀ k m s, Bound registry k m s → Bound (publishDataset a record registry).1 k m s) ∨
    ∃ e, publishDataset a record registry = (registry, .error e) := by
  unfold publishDataset
  cases record.validate with
  | error e => exact .inr ⟨e, rfl⟩
  | ok u =>
    cases hbinding : snapshotBinding a record.datasetId record.version registry with
    | error e => exact .inr ⟨e, rfl⟩
    | ok binding =>
      have hselect := Answers.execute_ok hbinding
      cases binding with
      | none =>
        cases a.sealSnapshot record.fastkRoot with
        | error e => exact .inr ⟨e, rfl⟩
        | ok digest =>
          simp only
          rcases @transaction_spec a registry _ (bindRows a record digest) with ⟨published, hok, ht⟩ | ⟨e, he⟩
          · obtain ⟨rfl, snapshots, hi, hrows, hstored⟩ := bindRows_ok hok
            rw [ht, hrows]
            refine .inl ⟨_, _, rfl, rfl, ⟨hstored, Table.select_insert_self hi⟩, fun k m s h =>
              ⟨h.upsertRow.manifest, ?_⟩⟩
            refine (Table.select_insert_of_ne hi ?_).trans h.snapshot
            rintro rfl
            have hs := h.snapshot
            rw [Table.select_eq_none_of_insert (t := registry.datasetSnapshot) hi] at hs
            cases hs
          · exact .inr ⟨e, he⟩
      | some pair =>
        obtain ⟨root, digest⟩ := pair
        by_cases hroot : root = record.fastkRoot
        · simp only [hroot, ne_eq, not_true_eq_false, if_false]
          cases a.verifySnapshot record.fastkRoot digest with
          | error e => exact .inr ⟨e, rfl⟩
          | ok u =>
            cases hg : getDataset a record.datasetId record.version registry with
            | error e => exact .inr ⟨e, rfl⟩
            | ok stored =>
              have hstored := getDataset_ok hg
              cases stored with
              | none => exact .inr ⟨_, rfl⟩
              | some stored =>
                obtain ⟨s, hs, hp⟩ := Option.map_eq_some_iff.1 hselect.symm
                refine .inl ⟨stored, s, rfl, ?_, ⟨hstored.symm, hs⟩, fun _ _ _ h => h⟩
                exact (congrArg Prod.fst hp).trans hroot
        · exact .inr ⟨_, if_pos hroot⟩

theorem Bound.publishDataset (h : Bound registry k m s) : Bound (publishDataset a record registry).1 k m s := by
  rcases @publishDataset_spec a record registry with ⟨_, _, -, -, -, hkeep⟩ | ⟨e, he⟩
  · exact hkeep k m s h
  · rw [he]
    exact h

end Calls

/-! ## Runs -/

theorem Bound.exec {registry : DatasetRegistry} {k : Text × Text} {m : DatasetManifestRecord} {s : SnapshotBinding}
    (h : Bound registry k m s) : ∀ call, Bound (registry.exec call) k m s
  | .upsertDataset _ _ => h.upsertDataset
  | .publishDataset _ _ => h.publishDataset

theorem Bound.after {k : Text × Text} {m : DatasetManifestRecord} {s : SnapshotBinding} :
    ∀ (calls : List Call) {registry : DatasetRegistry}, Bound registry k m s → Bound (registry.after calls) k m s
  | [], _, h => h
  | call :: calls, _, h => Bound.after calls (h.exec call)

/-- **Published bindings are immutable**: once a publication has succeeded, the two rows of its pair are the same
after any calls, and an upsert of the pair with other contents is refused; and a publication that fails leaves both
tables as they were. -/
theorem publishDataset_immutable (registry : DatasetRegistry) (a : Answers) (record : DatasetManifestRecord) :
    (∀ published, (publishDataset a record registry).2 = .ok published →
      ∃ s, s.fastkRoot = record.fastkRoot ∧ ∀ calls,
        ((publishDataset a record registry).1.after calls).datasetManifest.select record.key = some published ∧
        ((publishDataset a record registry).1.after calls).datasetSnapshot.select record.key = some s ∧
        ∀ a' record', record'.key = record.key → record' ≠ published →
          ∃ e, upsertDataset a' record' ((publishDataset a record registry).1.after calls) =
            ((publishDataset a record registry).1.after calls, .error e)) ∧
    ∀ e, (publishDataset a record registry).2 = .error e → (publishDataset a record registry).1 = registry := by
  rcases @publishDataset_spec a record registry with ⟨published, s, hok, hroot, hbound, -⟩ | ⟨e, he⟩
  · constructor
    · intro published' hp
      obtain rfl := Except.ok.inj (hok.symm.trans hp)
      refine ⟨s, hroot, fun calls => ?_⟩
      have hafter := hbound.after calls
      refine ⟨hafter.manifest, hafter.snapshot, fun a' record' hkey hne => ?_⟩
      rw [← hkey] at hafter
      exact hafter.upsertDataset_refused hne
    · intro e he
      rw [hok] at he
      cases he
  · rw [he]
    refine ⟨fun published hp => ?_, fun _ _ => rfl⟩
    cases hp

/-! A draft is published, and upserted again as the draft it was. -/

def sampleAnswers : Answers := ⟨fun _ => none, fun _ => .ok "9f", fun _ _ => .ok ()⟩

def sampleDraft : DatasetManifestRecord where
  datasetId := "test"
  version := "v1"
  fastkRoot := "store"
  source := "fixture"
  market := "test"
  startTs := 60000
  endTs := 120000
  schemaVersion := "1"
  checksum := none
  status := "draft"
  createdAt := 1

def samplePublished : DatasetRegistry := (publishDataset sampleAnswers sampleDraft empty).1

theorem publishDataset_immutable_sample :
    (samplePublished.after [.upsertDataset sampleAnswers sampleDraft]).datasetManifest.select sampleDraft.key =
      some (publishedRow sampleDraft "9f") ∧
    ∃ e, upsertDataset sampleAnswers sampleDraft (samplePublished.after [.upsertDataset sampleAnswers sampleDraft]) =
      (samplePublished.after [.upsertDataset sampleAnswers sampleDraft], .error e) := by
  obtain ⟨s, -, h⟩ := (publishDataset_immutable empty sampleAnswers sampleDraft).1 (publishedRow sampleDraft "9f")
    (by decide +kernel)
  obtain ⟨hmanifest, -, hrefused⟩ := h [.upsertDataset sampleAnswers sampleDraft]
  exact ⟨hmanifest, hrefused sampleAnswers sampleDraft rfl (by decide)⟩

end DatasetRegistry

end FastK
