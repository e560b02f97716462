import RagRuntime.Migration.Contract

/-! The embedded corpus as an endpoint: its checkpoint, and beside it how far a migration into it
has come. -/
namespace RagRuntime.Migration
open RagRuntime.Base RagRuntime.Core RagRuntime.Backend RagRuntime.Dense

/-- The files a migration reads and replaces. -/
structure DestinationFiles where
  checkpoint : Option EmbeddedCheckpoint
  progress : Option MigrationProgress
  deriving DecidableEq

def recordKey (record : RevisionedDocument) : Bytes := record.prepared.key

/-- Of documents with one key the first is kept. -/
def activeOf (documents : List ActiveDocument) : Catalog :=
  documents.foldl (fun active entry => active.emplace (recordKey entry) entry) ∅

/-- Jobs are not read for a destination. -/
def loadActive : Option EmbeddedCheckpoint → Result Catalog
  | none => .ok ∅
  | some checkpoint => do
    let checkpoint ← EmbeddedCheckpointStore.readBack checkpoint
    return activeOf checkpoint.documents

/-- All fields of the documents are compared. -/
def sameDocument (existing : ActiveDocument) (incoming : RevisionedDocument) : Bool :=
  existing = incoming

/-- An endpoint that is open for writing. `writes` is what becomes of the coming file writes; in the
first one it says nothing of, the process stops. -/
structure EmbeddedEndpoint where
  path : Bytes
  active : Catalog
  files : DestinationFiles
  writes : List (Result Unit)

namespace EmbeddedEndpoint

def readBatch (active : Catalog) (after : Bytes) (limit : ℕ) : Result DocumentBatch :=
  if limit = 0 then fail .invalidArgument "migration batch limit is zero"
  else
    let rest := if after = [] then active.entries else active.entries.filter fun e => after < e.1
    let documents := (rest.take limit).map Prod.snd
    .ok ⟨documents,(documents.getLast?.map recordKey).getD after,rest.length ≤ limit⟩

def exactCandidates (active : Catalog) (query : Vec) (k : ℕ) : Result CandidateList :=
  let chunks := EmbeddedCheckpointStore.rows active.values
  if chunks.any fun chunk => chunk.embedding.length ≠ query.length then
    fail .dimensionMismatch "migration query dimension differs"
  else .ok (topK CandidateOrder k
    (chunks.map fun chunk => ⟨chunk.key,dot query chunk.embedding,.cosine⟩))

def endpoint (d : EmbeddedEndpoint) : Endpoint where
  description := ascii ['e','m','b','e','d','d','e','d',':'] ++ d.path
  readBatch := readBatch d.active
  exactCandidates := exactCandidates d.active

def loadProgress (files : DestinationFiles) (run : Bytes) : Result (Option MigrationProgress) :=
  match files.progress with
  | none => .ok none
  | some progress =>
    if progress.runId ≠ run then
      fail .alreadyExists "embedded destination belongs to another migration run"
    else .ok (some progress)

/-- A file is replaced as a whole or not at all. -/
def write (d : EmbeddedEndpoint) (files : DestinationFiles) :
    Option (Result Unit) × EmbeddedEndpoint :=
  match d.writes with
  | [] => (none,d)
  | .error e::writes => (some (.error e),{ d with writes })
  | .ok ()::writes => (some (.ok ()),{ d with files, writes })

def saveProgress (d : EmbeddedEndpoint) (progress : MigrationProgress) :
    Option (Result Unit) × EmbeddedEndpoint :=
  d.write { d.files with progress := some progress }

def saveCheckpoint (d : EmbeddedEndpoint) (checkpoint : EmbeddedCheckpoint) :
    Option (Result Unit) × EmbeddedEndpoint :=
  match EmbeddedCheckpointStore.validateForSave checkpoint with
  | .error e => (some (.error e),d)
  | .ok () => d.write { d.files with checkpoint := some checkpoint }

/-- The active documents are of another corpus than the source, by the first of them. -/
def otherCorpus (active : Catalog) (source : CorpusAudit) : Bool :=
  match active.values with
  | [] => false
  | first::_ => first.prepared.embeddingIdentity ≠ source.embeddingIdentity ∨
      first.prepared.chunkingFingerprint ≠ source.chunkingFingerprint ∨
      (first.prepared.chunks.head?.elim 0 fun chunk => chunk.embedding.length) ≠ source.dimension

def takeIn : List RevisionedDocument → Catalog → Result Unit × Catalog
  | [],active => (.ok (),active)
  | record::rest,active =>
    match active.find? (recordKey record) with
    | some found =>
      if sameDocument found record = false then
        (fail .alreadyExists "embedded destination contains conflicting document",active)
      else takeIn rest active
    | none => takeIn rest (active.emplace (recordKey record) record)

/-- The checkpoint of the active documents. -/
def checkpointOf (active : Catalog) (generation : ℕ) : EmbeddedCheckpoint where
  documents := active.values
  revisions := active.entries.foldl (fun revisions e => revisions.emplace e.1 e.2.revision) ∅
  generation := generation
  walPosition := 0

def writeBatch (run : Bytes) (source : CorpusAudit) (batch : DocumentBatch)
    (progress : MigrationProgress) (d : EmbeddedEndpoint) :
    Option (Result Unit) × EmbeddedEndpoint :=
  if progress.runId ≠ run ∨ progress.sourceFingerprint ≠ source.fingerprint then
    (some (fail .invalidArgument "embedded migration progress is inconsistent"),d)
  else if otherCorpus d.active source then
    (some (fail .dimensionMismatch "embedded destination corpus identity differs from source"),d)
  else match takeIn batch.documents d.active with
  | (.error e,active) => (some (.error e),{ d with active })
  | (.ok (),active) =>
    match { d with active }.saveCheckpoint (checkpointOf active progress.documents) with
    | (some (.ok ()),d) => d.saveProgress progress
    | stopped => stopped

def finish (run : Bytes) (source : CorpusAudit) (progress : MigrationProgress)
    (d : EmbeddedEndpoint) : Option (Result Unit) × EmbeddedEndpoint :=
  if progress.complete = false ∨ progress.runId ≠ run ∨
      progress.sourceFingerprint ≠ source.fingerprint then
    (some (fail .invalidArgument "embedded migration cannot finish early"),d)
  else d.saveProgress progress

def destination : Destination EmbeddedEndpoint where
  endpoint := endpoint
  progress := fun d => loadProgress d.files
  writeBatch := writeBatch
  finish := finish

end EmbeddedEndpoint

/-- `directories` is what becomes of the creation of the directories above the path. -/
def openEmbeddedDestination (path : Bytes) (directories : Result Unit) (files : DestinationFiles)
    (writes : List (Result Unit)) : Result EmbeddedEndpoint :=
  if path = [] then fail .invalidArgument "embedded migration destination is required"
  else do
    directories
    let active ← loadActive files.checkpoint
    return ⟨path,active,files,writes⟩

/-- The circumstances of one try at a migration. -/
structure Attempt where
  turns : ℕ
  directories : Result Unit
  writes : List (Result Unit)
  direction : Bytes
  options : MigrationOptions

/-- The destination is opened and the source copied into it. A try that is interrupted has no
result. -/
def Attempt.run (bits : ℚ → ℕ) (source : Endpoint) (path : Bytes) (attempt : Attempt)
    (files : DestinationFiles) : Option (Result MigrationReport) × DestinationFiles :=
  match openEmbeddedDestination path attempt.directories files attempt.writes with
  | .error e => (some (.error e),files)
  | .ok d =>
    let ended := migrate bits attempt.turns source EmbeddedEndpoint.destination attempt.direction
      attempt.options d
    (ended.1,ended.2.files)

end RagRuntime.Migration
