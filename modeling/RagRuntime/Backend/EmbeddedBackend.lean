import RagRuntime.Backend.Generation

/-! The embedded backend: one active generation, replaced as a whole by each write. -/
namespace RagRuntime.Backend
open RagRuntime.Base RagRuntime.Core RagRuntime.Dense RagRuntime.Lexical

structure EmbeddedMaintenancePolicy where
  compactionMemoryBudget : ℕ := 2^30
  dense : DensePolicy := {}

structure EmbeddedBackend (β : Type) where
  analysis : Analysis
  policy : EmbeddedMaintenancePolicy
  latestRevisions : OrdMap Bytes ℕ
  active : Generation β
  checkpointWalPosition : ℕ

/-- The durable state of a backend; dense indexes are rebuilt from it. -/
structure EmbeddedCheckpoint where
  documents : List ActiveDocument
  revisions : OrdMap Bytes ℕ
  generation : ℕ
  walPosition : ℕ
  deriving DecidableEq

def Generation.empty {β : Type} (analysis : Analysis) : Generation β :=
  ⟨∅,∅,[],(Bm25Index.empty analysis).finalize,TieredDenseIndex.empty,∅,0,[],[],0⟩

/-- The vectors of a catalog in its order. -/
def liveRows (entries : List (Bytes × ActiveDocument)) : List VectorRecord :=
  ((liveChunks entries).filter fun x => x.chunk.embedding ≠ []).map LiveChunk.row

namespace EmbeddedBackend

variable {β : Type}

/-- A backend that has just been constructed. -/
def start (analysis : Analysis) (policy : EmbeddedMaintenancePolicy) : EmbeddedBackend β :=
  ⟨analysis,policy,∅,Generation.empty analysis,0⟩

/-- The rows of `document` in the base that are not rows of `kept`. -/
def superseded (dense : TieredDenseIndex β) (document : ActiveDocument) (kept : List Bytes) :
    Finset Bytes :=
  ((document.prepared.chunks.map PreparedChunk.key).filter fun key =>
    dense.containsBase key ∧ key ∉ kept).toFinset

def tombstonesAfter (b : EmbeddedBackend β) (key : Bytes) (kept : List Bytes) : Finset Bytes :=
  match b.active.documents.find? key with
  | some old => b.active.dense.tombstones ∪ superseded b.active.dense old kept
  | none => b.active.dense.tombstones

/-- A write of `revision` to a document whose latest revision is not below it. -/
def stale (b : EmbeddedBackend β) (key : Bytes) (revision : ℕ) : Bool :=
  match b.latestRevisions.find? key with
  | some latest => revision ≤ latest
  | none => false

/-- The revision that is latest is active with this very content. -/
def alreadyActive (b : EmbeddedBackend β) (document : PreparedDocument) (revision : ℕ) : Bool :=
  match b.active.documents.find? document.key with
  | some active => b.latestRevisions.find? document.key = some revision ∧
      active.revision = revision ∧ active.prepared.contentHash = document.contentHash
  | none => false

def activate (b : EmbeddedBackend β) (document : PreparedDocument) (revision : ℕ) :
    Result Unit × EmbeddedBackend β :=
  match validate document revision with
  | .error e => (.error e,b)
  | .ok () =>
    if b.stale document.key revision then
      if b.alreadyActive document revision then (.ok (),b)
      else (fail .alreadyExists "document revision is stale",b)
    else
      match buildGeneration b.analysis (b.active.documents.insert document.key ⟨revision,document⟩)
        b.active.dense (insert document.key b.active.deltaDocuments)
        (b.tombstonesAfter document.key (document.chunks.map PreparedChunk.key))
        (b.active.number+1) with
      | .error e => (.error e,b)
      | .ok next =>
        (.ok (),{ b with
          latestRevisions := b.latestRevisions.insert document.key revision
          active := next })

def erase (b : EmbeddedBackend β) (document : Bytes) (revision : ℕ) :
    Result Bool × EmbeddedBackend β :=
  if document = [] ∨ revision = 0 then
    (fail .invalidArgument "document key and revision are required",b)
  else if b.stale document revision then
    if b.latestRevisions.find? document = some revision ∧
        b.active.documents.find? document = none then (.ok false,b)
    else (fail .alreadyExists "document revision is stale",b)
  else
    match buildGeneration b.analysis (b.active.documents.erase document) b.active.dense
      (b.active.deltaDocuments.erase document) (b.tombstonesAfter document [])
      (b.active.number+1) with
    | .error e => (.error e,b)
    | .ok next =>
      (.ok (b.active.documents.contains document),{ b with
        latestRevisions := b.latestRevisions.insert document revision
        active := next })

/-- A compaction that no writer interrupts. -/
def compact [ApproximateIndex β] (b : EmbeddedBackend β) (overrideMemoryBudget : Bool) :
    Result Unit × EmbeddedBackend β :=
  if overrideMemoryBudget = false ∧
      b.active.chunks.size * b.active.dimension * 4 > b.policy.compactionMemoryBudget then
    (fail .unavailable "compaction exceeds configured memory budget",b)
  else
    match TieredDenseIndex.compact (liveRows b.active.documents.entries) b.active.dimension
      b.policy.dense with
    | .error e => (.error e,b)
    | .ok dense =>
      match buildGeneration b.analysis b.active.documents dense ∅ ∅ (b.active.number+1) with
      | .error e => (.error e,b)
      | .ok next => (.ok (),{ b with active := next })

/-- What `checkpoint` hands to the store. -/
def snapshot (b : EmbeddedBackend β) (walPosition : ℕ) : EmbeddedCheckpoint :=
  ⟨b.active.documents.values,b.latestRevisions,b.active.number,walPosition⟩

/-- The catalog of a checkpoint, entry by entry. -/
def restoreDocuments (revisions : OrdMap Bytes ℕ) : List ActiveDocument → Catalog → Result Catalog
  | [],documents => .ok documents
  | entry::rest,documents =>
    match validate entry.prepared entry.revision with
    | .error e => fail .corruptIndex ("checkpoint prepared document is invalid: " ++ e.message)
    | .ok () =>
      if documents.contains entry.prepared.key then
        fail .corruptIndex "checkpoint has duplicate document keys"
      else if revisions.find? entry.prepared.key ≠ some entry.revision then
        fail .corruptIndex "checkpoint active revision does not match catalog"
      else restoreDocuments revisions rest (documents.insert entry.prepared.key entry)

/-- Restore a checkpoint into a fresh backend where no sidecar file can be had: the dense base is
built in memory from the vectors. `restoreWith` has the sidecars. -/
def restoreCheckpoint [ApproximateIndex β] (analysis : Analysis)
    (policy : EmbeddedMaintenancePolicy) (checkpoint : EmbeddedCheckpoint) :
    Result (EmbeddedBackend β) :=
  if checkpoint.revisions.entries.any fun e => e.1 = [] ∨ e.2 = 0 then
    fail .corruptIndex "checkpoint revision catalog is invalid"
  else do
    let documents ← restoreDocuments checkpoint.revisions checkpoint.documents ∅
    let rows := liveRows (checkpoint.documents.map fun entry => (entry.prepared.key,entry))
    let dense ← TieredDenseIndex.compact rows (NativeExactIndex.firstDimension rows) policy.dense
    match buildGeneration analysis documents dense ∅ ∅ checkpoint.generation with
    | .error e => fail .corruptIndex ("checkpoint generation is invalid: " ++ e.message)
    | .ok restored =>
      return ⟨analysis,policy,checkpoint.revisions,restored,checkpoint.walPosition⟩

theorem buildGeneration_empty (analysis : Analysis) :
    buildGeneration analysis ∅ (TieredDenseIndex.empty : TieredDenseIndex β) ∅ ∅ 0 =
      .ok (Generation.empty analysis) := rfl

/-- What an activation can do: fail and change nothing, find its revision active already, or
publish a generation with the new revision. -/
inductive Activated (b : EmbeddedBackend β) (document : PreparedDocument) (revision : ℕ) :
    Result Unit × EmbeddedBackend β → Prop
  | failed (e : Error) : Activated b document revision (.error e,b)
  | already (h : b.alreadyActive document revision = true) :
    Activated b document revision (.ok (),b)
  | published (hvalid : ValidDocument document) (hrevision : revision ≠ 0)
    (hfresh : b.stale document.key revision = false) (next : Generation β)
    (hbuilt : Built b.analysis (b.active.documents.insert document.key ⟨revision,document⟩)
      b.active.dense (insert document.key b.active.deltaDocuments)
      (b.tombstonesAfter document.key (document.chunks.map PreparedChunk.key))
      (b.active.number+1) next) :
    Activated b document revision (.ok (),{ b with
      latestRevisions := b.latestRevisions.insert document.key revision
      active := next })

theorem activate_activated (b : EmbeddedBackend β) (document : PreparedDocument) (revision : ℕ) :
    Activated b document revision (b.activate document revision) := by
  unfold activate
  cases hvalid : validate document revision with
  | error e => exact .failed e
  | ok u =>
    obtain ⟨hdoc,hrev⟩ := validate_eq_ok.mp hvalid
    dsimp only
    split_ifs with hstale halready
    · exact .already halready
    · exact .failed _
    · cases hbuild : buildGeneration b.analysis
        (b.active.documents.insert document.key ⟨revision,document⟩) b.active.dense
        (insert document.key b.active.deltaDocuments)
        (b.tombstonesAfter document.key (document.chunks.map PreparedChunk.key))
        (b.active.number+1) with
      | error e => exact .failed e
      | ok next =>
        exact .published hdoc hrev (Bool.eq_false_of_not_eq_true hstale) next
          (buildGeneration_ok hbuild)

/-- A valid write that is not stale succeeds if its generation can be built. -/
lemma activate_of_build {b : EmbeddedBackend β} {document : PreparedDocument} {revision : ℕ}
    {next : Generation β} (hvalid : ValidDocument document) (hrevision : revision ≠ 0)
    (hfresh : b.stale document.key revision = false)
    (hbuild : buildGeneration b.analysis
      (b.active.documents.insert document.key ⟨revision,document⟩) b.active.dense
      (insert document.key b.active.deltaDocuments)
      (b.tombstonesAfter document.key (document.chunks.map PreparedChunk.key))
      (b.active.number+1) = .ok next) :
    b.activate document revision = (.ok (),{ b with
      latestRevisions := b.latestRevisions.insert document.key revision
      active := next }) := by
  unfold activate
  rw [validate_eq_ok.mpr ⟨hvalid,hrevision⟩]
  dsimp only
  rw [if_neg (by simp [hfresh]),hbuild]

/-- What an erasure can do. -/
inductive Erased (b : EmbeddedBackend β) (document : Bytes) (revision : ℕ) :
    Result Bool × EmbeddedBackend β → Prop
  | failed (e : Error) : Erased b document revision (.error e,b)
  | already (hlatest : b.latestRevisions.find? document = some revision)
    (hgone : b.active.documents.find? document = none) : Erased b document revision (.ok false,b)
  | published (hdocument : document ≠ []) (hrevision : revision ≠ 0)
    (hfresh : b.stale document revision = false) (next : Generation β)
    (hbuilt : Built b.analysis (b.active.documents.erase document) b.active.dense
      (b.active.deltaDocuments.erase document) (b.tombstonesAfter document [])
      (b.active.number+1) next) :
    Erased b document revision (.ok (b.active.documents.contains document),{ b with
      latestRevisions := b.latestRevisions.insert document revision
      active := next })

theorem erase_erased (b : EmbeddedBackend β) (document : Bytes) (revision : ℕ) :
    Erased b document revision (b.erase document revision) := by
  unfold erase
  split_ifs with hargs hstale halready
  · exact .failed _
  · exact .already halready.1 halready.2
  · exact .failed _
  · obtain ⟨hdoc,hrev⟩ := not_or.mp hargs
    cases hbuild : buildGeneration b.analysis (b.active.documents.erase document) b.active.dense
      (b.active.deltaDocuments.erase document) (b.tombstonesAfter document [])
      (b.active.number+1) with
    | error e => exact .failed e
    | ok next =>
      exact .published hdoc hrev (Bool.eq_false_of_not_eq_true hstale) next
        (buildGeneration_ok hbuild)

end EmbeddedBackend
end RagRuntime.Backend
