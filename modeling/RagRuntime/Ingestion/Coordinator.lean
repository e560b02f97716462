import RagRuntime.Backend.Catalog
import RagRuntime.Base.Machine
import RagRuntime.Ingestion.JobStore

/-! The ingestion coordinator. Each step is what one thread does under one hold of the lock, or
between two of them; what the surroundings answer is chosen by the environment. -/
namespace RagRuntime.Ingestion
open RagRuntime.Base RagRuntime.Core RagRuntime.Backend RagRuntime.Preparation RagRuntime.Text

structure CoordinatorConfig where
  chunking : ChunkOptions
  embeddingBatchSize : ℕ
  embedder : Option Embedder
  sqrt : ℚ → ℚ
  queueCapacity : ℕ
  frameSize : IngestionJob → ℕ

/-- Where `execute` stands with a job. -/
inductive Progress where
  | entered
  | toChunking
  | preparing
  | toEmbedding (prepared : PreparedDocument)
  | embedding (prepared : PreparedDocument)
  | toPublishing (prepared : PreparedDocument)
  | activating (prepared : PreparedDocument)
  | activated (prepared : PreparedDocument)
  | toErasing
  | erasing
  | erased (mutationApplied : Bool)
  | failing (error : Error)
  | failingVolatile (error : Error)
  deriving DecidableEq

/-- The coordinator with the store and the backend it drives, and the jobs being executed. -/
structure Coordinator where
  latestRevision : OrdMap Bytes ℕ
  latestJob : OrdMap Bytes JobId
  jobs : OrdMap JobId IngestionJob
  queue : List JobId
  stopping : Bool
  store : JobStore
  backend : CatalogBackend
  executing : OrdMap JobId Progress
  deriving DecidableEq

/-- What a call that accepts a job gets from outside. -/
structure Clerk where
  id : JobId
  now : ℤ
  later : ℤ
  saved : WriteOutcome
  savedOlder : WriteOutcome

/-- What one step of `execute` gets from outside. A fault ends the embedding, as values do that are
not finite. -/
structure Surroundings where
  now : ℤ
  saved : WriteOutcome
  fault : Option Error
  embed : List Bytes → Result (List Vec)
  built : Result Unit

structure Submission where
  job : IngestionJob
  unchanged : Bool
  existingPending : Bool

namespace Coordinator

def start (backend : CatalogBackend) : Coordinator :=
  ⟨∅,∅,∅,[],false,JobStore.empty,backend,∅⟩

def persist (cfg : CoordinatorConfig) (s : Coordinator) (job : IngestionJob)
    (saved : WriteOutcome) : Result Unit × Coordinator :=
  let p := s.store.persist cfg.frameSize job saved
  (p.1,{ s with store := p.2 })

def revisionOf (s : Coordinator) (document : Bytes) : ℕ :=
  (s.latestRevision.find? document).getD 0

def latestOf (s : Coordinator) (document : Bytes) : Option IngestionJob :=
  (s.latestJob.find? document).bind s.jobs.find?

def enlist (s : Coordinator) (job : IngestionJob) : Coordinator :=
  { s with
    latestRevision := s.latestRevision.insert job.input.document job.revision
    latestJob := s.latestJob.insert job.input.document job.id
    jobs := s.jobs.insert job.id job }

def setJob (s : Coordinator) (job : IngestionJob) : Coordinator :=
  { s with jobs := s.jobs.insert job.id job }

def setProgress (s : Coordinator) (id : JobId) (progress : Progress) : Coordinator :=
  { s with executing := s.executing.insert id progress }

def finish (s : Coordinator) (id : JobId) : Coordinator :=
  { s with executing := s.executing.erase id }

/-- Persist a new job, then supersede the job before it if that is still open. -/
def accept (cfg : CoordinatorConfig) (s : Coordinator) (job : IngestionJob) (clerk : Clerk) :
    Result Unit × Coordinator :=
  match s.persist cfg job clerk.saved with
  | (.error e,s) => (.error e,s)
  | (.ok (),s) =>
    match s.latestOf job.input.document with
    | none => (.ok (),s.enlist job)
    | some older =>
      if terminal older.status then (.ok (),s.enlist job)
      else
        match s.persist cfg (older.supersede clerk.later) clerk.savedOlder with
        | (.error e,s) => (.error e,s)
        | (.ok (),s) => (.ok (),(s.setJob (older.supersede clerk.later)).enlist job)

def newJob (s : Coordinator) (operation : JobOperation) (input : IngestionInput)
    (contentHash : Bytes) (clerk : Clerk) : IngestionJob where
  id := clerk.id
  operation := operation
  input := input
  revision := s.revisionOf input.document + 1
  contentHash := contentHash
  status := .queued
  createdAtMs := clerk.now
  updatedAtMs := clerk.now
  error := none
  prepared := none
  mutationApplied := none

/-- A synchronous call for content that is being ingested only waits, and one that is accepted
goes on to execute its job. -/
def submit (cfg : CoordinatorConfig) (s : Coordinator) (input : IngestionInput)
    (asynchronous : Bool) (clerk : Clerk) : Result Submission × Coordinator :=
  if input.document = [] ∨ input.content = [] then
    (fail .invalidArgument "document and content are required",s)
  else
    let input := { input with content := normalizeSourceText input.content }
    let fingerprint := documentContentHash input.title input.content input.metadata
    if s.stopping then (fail .unavailable "ingestion coordinator is stopping",s)
    else
      match (s.latestOf input.document).filter fun latest => latest.contentHash = fingerprint ∧
        (latest.status = .ready ∨ terminal latest.status = false) with
      | some latest =>
        (.ok ⟨latest,latest.status = .ready,terminal latest.status = false⟩,s)
      | none =>
        if asynchronous ∧ s.queue.length ≥ cfg.queueCapacity then
          (fail .unavailable "ingestion queue is full",s)
        else
          let created := s.newJob .upsert input fingerprint clerk
          match s.accept cfg created clerk with
          | (.error e,s) => (.error e,s)
          | (.ok (),s) =>
            (.ok ⟨created,false,false⟩,
              if asynchronous then { s with queue := s.queue ++ [created.id] }
              else s.setProgress created.id .entered)

def deletedHash : Bytes := ascii ['d','e','l','e','t','e','d']

def erase (cfg : CoordinatorConfig) (s : Coordinator) (document : Bytes) (clerk : Clerk) :
    Result IngestionJob × Coordinator :=
  if document = [] then (fail .invalidArgument "document is required",s)
  else if s.stopping then (fail .unavailable "ingestion coordinator is stopping",s)
  else
    let deletion := s.newJob .erase ⟨document,[],[],∅⟩ deletedHash clerk
    match s.accept cfg deletion clerk with
    | (.error e,s) => (.error e,s)
    | (.ok (),s) => (.ok deletion,s.setProgress deletion.id .entered)

/-- What a transition adds to the record of a job. -/
structure Change where
  status : JobStatus
  error : Option JobError := none
  prepared : Option PreparedDocument := none
  mutationApplied : Option Bool := none

def Change.apply (change : Change) (job : IngestionJob) (now : ℤ) : IngestionJob :=
  let next := { job with
    status := change.status
    updatedAtMs := now
    error := change.error
    prepared := change.prepared.or job.prepared
    mutationApplied := change.mutationApplied.or job.mutationApplied }
  if terminal change.status then
    { next.clearContent with
      prepared := if change.status = .ready then next.prepared else none }
  else next

/-- `false` when the job is terminal already or has been superseded. -/
def transition (cfg : CoordinatorConfig) (s : Coordinator) (id : JobId) (change : Change)
    (now : ℤ) (saved : WriteOutcome) : Result Bool × Coordinator :=
  match s.jobs.find? id with
  | none => (fail .notFound "ingestion job was not found",s)
  | some job =>
    if terminal job.status then (.ok false,s)
    else
      let current : Bool := s.revisionOf job.input.document = job.revision
      let next := if current then change.apply job now
        else { job.supersede now with error := none }
      match s.persist cfg next saved with
      | (.error e,s) => (.error e,s)
      | (.ok (),s) => (.ok current,s.setJob next)

def failVolatile (s : Coordinator) (id : JobId) (error : Error) (now : ℤ) : Coordinator :=
  match s.jobs.find? id with
  | none => s
  | some job =>
    if terminal job.status then s
    else s.setJob { job.clearContent with
      status := if s.revisionOf job.input.document = job.revision then .failed else .superseded
      updatedAtMs := now
      error := some (boundedError error)
      prepared := none }

/-- Where `execute` goes on after a transition. -/
def proceed (s : Coordinator) (id : JobId) (next : Option Progress) :
    Result Bool → Coordinator
  | .error e => s.setProgress id (.failingVolatile e)
  | .ok false => s.finish id
  | .ok true =>
    match next with
    | none => s.finish id
    | some progress => s.setProgress id progress

def advance (cfg : CoordinatorConfig) (s : Coordinator) (id : JobId) (change : Change)
    (next : Option Progress) (around : Surroundings) : Coordinator :=
  let t := s.transition cfg id change around.now around.saved
  t.2.proceed id next t.1

/-- One step of `execute`. -/
def execute (cfg : CoordinatorConfig) (s : Coordinator) (id : JobId) (around : Surroundings) :
    Progress → Coordinator
  | .entered =>
    match s.jobs.find? id with
    | none => s.finish id
    | some job =>
      if terminal job.status then s.finish id
      else s.setProgress id (if job.operation = .erase then .toErasing else .toChunking)
  | .toChunking => s.advance cfg id { status := .chunking } (some .preparing) around
  | .preparing =>
    match s.jobs.find? id with
    | none => s.finish id
    | some job =>
      match prepareChunks job.input.document job.input.content job.input.metadata
        job.input.title cfg.chunking with
      | .error e => s.setProgress id (.failing e)
      | .ok prepared => s.setProgress id (.toEmbedding prepared)
  | .toEmbedding prepared =>
    s.advance cfg id { status := .embedding } (some (.embedding prepared)) around
  | .embedding prepared =>
    match cfg.embedder,around.fault with
    | none,_ => s.setProgress id (.toPublishing prepared)
    | some _,some e => s.setProgress id (.failing e)
    | some embedder,none =>
      match embedDocument cfg.sqrt { embedder with embed := around.embed } cfg.embeddingBatchSize
        prepared with
      | .error e => s.setProgress id (.failing e)
      | .ok prepared => s.setProgress id (.toPublishing prepared)
  | .toPublishing prepared =>
    s.advance cfg id { status := .publishing, prepared := some prepared }
      (some (.activating prepared)) around
  | .activating prepared =>
    match s.jobs.find? id with
    | none => s.finish id
    | some job =>
      if terminal job.status ∨ s.revisionOf job.input.document ≠ job.revision then s.finish id
      else
        match s.backend.activate prepared job.revision around.built with
        | (.error e,_) => s.setProgress id (.failing e)
        | (.ok (),backend) => { s with backend := backend }.setProgress id (.activated prepared)
  | .activated prepared =>
    s.advance cfg id { status := .ready, prepared := some prepared } none around
  | .toErasing => s.advance cfg id { status := .publishing } (some .erasing) around
  | .erasing =>
    match s.jobs.find? id with
    | none => s.finish id
    | some job =>
      -- The job may have been superseded since it went to publishing.
      match s.backend.erase job.input.document job.revision around.built with
      | (.error e,_) => s.setProgress id (.failing e)
      | (.ok applied,backend) => { s with backend := backend }.setProgress id (.erased applied)
  | .erased applied =>
    s.advance cfg id { status := .ready, mutationApplied := some applied } none around
  | .failing e =>
    let t := s.transition cfg id { status := .failed, error := some (boundedError e) } around.now
      around.saved
    match t.1 with
    | .error e => t.2.setProgress id (.failingVolatile e)
    | .ok _ => t.2.finish id
  | .failingVolatile e => (s.failVolatile id e around.now).finish id

inductive Action where
  | submit (input : IngestionInput) (asynchronous : Bool) (clerk : Clerk)
  | erase (document : Bytes) (clerk : Clerk)
  | take
  | execute (id : JobId) (around : Surroundings)
  | compact
  | shutdown

/-- New job ids are ones no job and no frame of the log has. -/
def Fresh (s : Coordinator) (id : JobId) : Prop :=
  s.jobs.find? id = none ∧ id ∉ s.store.frames.map IngestionJob.id

instance (s : Coordinator) (id : JobId) : Decidable (s.Fresh id) := by
  unfold Fresh
  infer_instance

def step (cfg : CoordinatorConfig) (s : Coordinator) : Action → Option Coordinator
  | .submit input asynchronous clerk =>
    if s.Fresh clerk.id then some (s.submit cfg input asynchronous clerk).2 else none
  | .erase document clerk => if s.Fresh clerk.id then some (s.erase cfg document clerk).2 else none
  | .take =>
    match s.queue with
    | [] => none
    | id::queue =>
      if s.stopping then none else some ({ s with queue := queue }.setProgress id .entered)
  | .execute id around => (s.executing.find? id).map (s.execute cfg id around)
  | .compact => some { s with backend := s.backend.compact }
  | .shutdown => some { s with stopping := true }

end Coordinator
end RagRuntime.Ingestion
