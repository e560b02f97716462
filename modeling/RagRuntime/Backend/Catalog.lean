import RagRuntime.Backend.DenseRun

/-! The embedded backend as its writers see it: active documents, latest revisions and the
generation number. Whether an index can be built is left to the environment. -/
namespace RagRuntime.Backend
open RagRuntime.Base RagRuntime.Core RagRuntime.Dense

structure CatalogBackend where
  documents : Catalog
  latestRevisions : OrdMap Bytes ℕ
  number : ℕ
  deriving DecidableEq

namespace CatalogBackend

def empty : CatalogBackend := ⟨∅,∅,0⟩

def stale (b : CatalogBackend) (key : Bytes) (revision : ℕ) : Bool :=
  match b.latestRevisions.find? key with
  | some latest => revision ≤ latest
  | none => false

def alreadyActive (b : CatalogBackend) (document : PreparedDocument) (revision : ℕ) : Bool :=
  match b.documents.find? document.key with
  | some active => b.latestRevisions.find? document.key = some revision ∧
      active.revision = revision ∧ active.prepared.contentHash = document.contentHash
  | none => false

/-- The catalog after a write of `revision` that publishes `documents`. -/
def publish (b : CatalogBackend) (documents : Catalog) (key : Bytes) (revision : ℕ) :
    CatalogBackend := ⟨documents,b.latestRevisions.insert key revision,b.number+1⟩

/-- `built` is what building the next generation ends in. -/
def activate (b : CatalogBackend) (document : PreparedDocument) (revision : ℕ)
    (built : Result Unit) : Result Unit × CatalogBackend :=
  match validate document revision with
  | .error e => (.error e,b)
  | .ok () =>
    if b.stale document.key revision then
      if b.alreadyActive document revision then (.ok (),b)
      else (fail .alreadyExists "document revision is stale",b)
    else match built with
      | .error e => (.error e,b)
      | .ok () => (.ok (),
          b.publish (b.documents.insert document.key ⟨revision,document⟩) document.key revision)

def erase (b : CatalogBackend) (document : Bytes) (revision : ℕ) (built : Result Unit) :
    Result Bool × CatalogBackend :=
  if document = [] ∨ revision = 0 then
    (fail .invalidArgument "document key and revision are required",b)
  else if b.stale document revision then
    if b.latestRevisions.find? document = some revision ∧ b.documents.find? document = none then
      (.ok false,b)
    else (fail .alreadyExists "document revision is stale",b)
  else match built with
    | .error e => (.error e,b)
    | .ok () => (.ok (b.documents.contains document),
        b.publish (b.documents.erase document) document revision)

/-- A compaction publishes the same documents again. -/
def compact (b : CatalogBackend) : CatalogBackend := { b with number := b.number+1 }

def snapshot (b : CatalogBackend) (walPosition : ℕ) : EmbeddedCheckpoint :=
  ⟨b.documents.values,b.latestRevisions,b.number,walPosition⟩

def restore (checkpoint : EmbeddedCheckpoint) (built : Result Unit) : Result CatalogBackend :=
  if checkpoint.revisions.entries.any fun e => e.1 = [] ∨ e.2 = 0 then
    fail .corruptIndex "checkpoint revision catalog is invalid"
  else do
    let documents ← EmbeddedBackend.restoreDocuments checkpoint.revisions checkpoint.documents ∅
    built
    return ⟨documents,checkpoint.revisions,checkpoint.generation⟩

/-- What an activation can do. -/
inductive Activated (b : CatalogBackend) (document : PreparedDocument) (revision : ℕ) :
    Result Unit × CatalogBackend → Prop
  | failed (e : Error) : Activated b document revision (.error e,b)
  | already (hvalid : ValidDocument document) (h : b.alreadyActive document revision = true) :
    Activated b document revision (.ok (),b)
  | published (hvalid : ValidDocument document) (hrevision : revision ≠ 0)
    (hfresh : b.stale document.key revision = false) :
    Activated b document revision (.ok (),
      b.publish (b.documents.insert document.key ⟨revision,document⟩) document.key revision)

theorem activate_activated (b : CatalogBackend) (document : PreparedDocument) (revision : ℕ)
    (built : Result Unit) : Activated b document revision (b.activate document revision built) := by
  unfold activate
  cases hvalid : validate document revision with
  | error e => exact .failed e
  | ok u =>
    obtain ⟨hdoc,hrev⟩ := validate_eq_ok.mp hvalid
    dsimp only
    split_ifs with hstale halready
    · exact .already hdoc halready
    · exact .failed _
    · cases built with
      | error e => exact .failed e
      | ok u => exact .published hdoc hrev (Bool.eq_false_of_not_eq_true hstale)

/-- What an erasure can do. -/
inductive Erased (b : CatalogBackend) (document : Bytes) (revision : ℕ) :
    Result Bool × CatalogBackend → Prop
  | failed (e : Error) : Erased b document revision (.error e,b)
  | already (hlatest : b.latestRevisions.find? document = some revision)
    (hgone : b.documents.find? document = none) : Erased b document revision (.ok false,b)
  | published (hdocument : document ≠ []) (hrevision : revision ≠ 0)
    (hfresh : b.stale document revision = false) :
    Erased b document revision (.ok (b.documents.contains document),
      b.publish (b.documents.erase document) document revision)

theorem erase_erased (b : CatalogBackend) (document : Bytes) (revision : ℕ)
    (built : Result Unit) : Erased b document revision (b.erase document revision built) := by
  unfold erase
  split_ifs with hargs hstale halready
  · exact .failed _
  · exact .already halready.1 halready.2
  · exact .failed _
  · obtain ⟨hdoc,hrev⟩ := not_or.mp hargs
    cases built with
    | error e => exact .failed e
    | ok u => exact .published hdoc hrev (Bool.eq_false_of_not_eq_true hstale)

/-- An erasure that changes the catalog has built the next generation. -/
lemma built_of_erase {b c : CatalogBackend} {document : Bytes} {revision : ℕ} {built : Result Unit}
    {applied : Bool} (h : b.erase document revision built = (.ok applied,c))
    (hfresh : b.stale document revision = false) : built = .ok () := by
  unfold erase at h
  simp only [hfresh,Bool.false_eq_true,if_false] at h
  split_ifs at h with hargs
  · cases h
  · cases built with
    | error e => cases h
    | ok u => rfl

lemma stale_eq_false {b : CatalogBackend} {key : Bytes} {revision : ℕ} :
    b.stale key revision = false ↔ ∀ latest, b.latestRevisions.find? key = some latest →
      latest < revision := by
  unfold stale
  cases b.latestRevisions.find? key with
  | none => simp
  | some latest => simp

lemma alreadyActive_eq_true {b : CatalogBackend} {document : PreparedDocument} {revision : ℕ} :
    b.alreadyActive document revision = true ↔
      b.latestRevisions.find? document.key = some revision ∧
      ∃ active, b.documents.find? document.key = some active ∧ active.revision = revision ∧
        active.prepared.contentHash = document.contentHash := by
  unfold alreadyActive
  cases b.documents.find? document.key with
  | none => simp
  | some active => simp

end CatalogBackend

namespace EmbeddedBackend

variable {β : Type}

/-- What writers see of an embedded backend. -/
def catalog (b : EmbeddedBackend β) : CatalogBackend :=
  ⟨b.active.documents,b.latestRevisions,b.active.number⟩

@[simp] lemma stale_catalog (b : EmbeddedBackend β) (key : Bytes) (revision : ℕ) :
    b.catalog.stale key revision = b.stale key revision := rfl

@[simp] lemma alreadyActive_catalog (b : EmbeddedBackend β) (document : PreparedDocument)
    (revision : ℕ) : b.catalog.alreadyActive document revision =
      b.alreadyActive document revision :=
  rfl

/-- An activation of the embedded backend is one of its catalog, for some outcome of the build. -/
theorem activate_catalog (b : EmbeddedBackend β) (document : PreparedDocument) (revision : ℕ) :
    ∃ built, b.catalog.activate document revision built =
      ((b.activate document revision).1,(b.activate document revision).2.catalog) := by
  unfold CatalogBackend.activate activate
  cases hvalid : validate document revision with
  | error e => exact ⟨.ok (),rfl⟩
  | ok u =>
    simp only [stale_catalog,alreadyActive_catalog]
    by_cases hstale : b.stale document.key revision = true
    · refine ⟨.ok (),?_⟩
      by_cases halready : b.alreadyActive document revision = true
      · simp only [hstale,halready,if_true]
      · simp only [hstale,halready,if_true,Bool.false_eq_true,if_false]
    · simp only [hstale,Bool.false_eq_true,if_false]
      cases hbuild : buildGeneration b.analysis
        (b.active.documents.insert document.key ⟨revision,document⟩) b.active.dense
        (insert document.key b.active.deltaDocuments)
        (b.tombstonesAfter document.key (document.chunks.map PreparedChunk.key))
        (b.active.number+1) with
      | error e => exact ⟨.error e,rfl⟩
      | ok next =>
        have hbuilt := buildGeneration_ok hbuild
        refine ⟨.ok (),?_⟩
        simp only [catalog,CatalogBackend.publish,hbuilt.documents,hbuilt.number]

theorem erase_catalog (b : EmbeddedBackend β) (document : Bytes) (revision : ℕ) :
    ∃ built, b.catalog.erase document revision built =
      ((b.erase document revision).1,(b.erase document revision).2.catalog) := by
  unfold CatalogBackend.erase erase
  simp only [stale_catalog]
  by_cases hargs : document = [] ∨ revision = 0
  · refine ⟨.ok (),?_⟩
    rw [if_pos hargs,if_pos hargs]
  · simp only [if_neg hargs]
    by_cases hstale : b.stale document revision = true
    · refine ⟨.ok (),?_⟩
      simp only [hstale,if_true]
      by_cases halready : b.latestRevisions.find? document = some revision ∧
          b.active.documents.find? document = none
      · rw [if_pos halready]
        exact if_pos halready
      · rw [if_neg halready]
        exact if_neg halready
    · simp only [hstale,Bool.false_eq_true,if_false]
      cases hbuild : buildGeneration b.analysis (b.active.documents.erase document) b.active.dense
        (b.active.deltaDocuments.erase document) (b.tombstonesAfter document [])
        (b.active.number+1) with
      | error e => exact ⟨.error e,rfl⟩
      | ok next =>
        have hbuilt := buildGeneration_ok hbuild
        refine ⟨.ok (),?_⟩
        simp only [catalog,CatalogBackend.publish,hbuilt.documents,hbuilt.number]

/-- A compaction changes at most the number. -/
theorem compact_catalog [ApproximateIndex β] (b : EmbeddedBackend β) (overrideMemoryBudget : Bool) :
    (b.compact overrideMemoryBudget).2.catalog = b.catalog ∨
      (b.compact overrideMemoryBudget).2.catalog = b.catalog.compact := by
  unfold compact
  split_ifs
  · exact Or.inl rfl
  · cases hcompact : TieredDenseIndex.compact (β := β) (liveRows b.active.documents.entries)
      b.active.dimension b.policy.dense with
    | error e => exact Or.inl rfl
    | ok dense =>
      dsimp only
      cases hbuild : buildGeneration b.analysis b.active.documents dense ∅ ∅
        (b.active.number+1) with
      | error e => exact Or.inl rfl
      | ok next =>
        have hbuilt := buildGeneration_ok hbuild
        right
        simp only [catalog,CatalogBackend.compact,hbuilt.documents,hbuilt.number]

@[simp] theorem snapshot_catalog (b : EmbeddedBackend β) (walPosition : ℕ) :
    b.catalog.snapshot walPosition = b.snapshot walPosition := rfl

end EmbeddedBackend
end RagRuntime.Backend
