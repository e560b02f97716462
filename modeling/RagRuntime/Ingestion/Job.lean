import RagRuntime.Preparation.DocumentPreparer

/-! Ingestion jobs, the durable unit of work. -/
namespace RagRuntime.Ingestion
open RagRuntime.Base RagRuntime.Core RagRuntime.Backend

abbrev JobId := Bytes

inductive JobOperation where
  | upsert
  | erase
  deriving DecidableEq, Repr

inductive JobStatus where
  | queued
  | chunking
  | embedding
  | publishing
  | ready
  | failed
  | superseded
  | cancelled
  deriving DecidableEq, Repr

def terminal (status : JobStatus) : Bool :=
  status = .ready ∨ status = .failed ∨ status = .superseded ∨ status = .cancelled

structure IngestionInput where
  document : Bytes
  title : Bytes
  content : Bytes
  metadata : Metadata
  deriving DecidableEq

structure JobError where
  code : Errc
  message : Bytes
  deriving DecidableEq

structure IngestionJob where
  id : JobId
  operation : JobOperation
  input : IngestionInput
  revision : ℕ
  contentHash : Bytes
  status : JobStatus
  createdAtMs : ℤ
  updatedAtMs : ℤ
  error : Option JobError
  prepared : Option PreparedDocument
  mutationApplied : Option Bool
  deriving DecidableEq

def kMaxErrorBytes : ℕ := 1024

/-- The bytes of an error message. -/
def messageBytes (message : String) : Bytes :=
  message.toUTF8.toList.map fun b => Fin.ofNat 256 b.toNat

def boundedError (error : Error) : JobError :=
  ⟨error.code,(messageBytes error.message).take kMaxErrorBytes⟩

namespace IngestionJob

def clearContent (job : IngestionJob) : IngestionJob :=
  { job with input := { job.input with content := [] } }

/-- The record of a job that a later job of its document replaces. -/
def supersede (job : IngestionJob) (now : ℤ) : IngestionJob :=
  { job.clearContent with status := .superseded, updatedAtMs := now, prepared := none }

/-- What the job leaves its document with: content with a hash, or nothing. -/
def effect (job : IngestionJob) : Option Bytes :=
  match job.operation with
  | .upsert => some job.contentHash
  | .erase => none

end IngestionJob

@[simp] lemma terminal_ready : terminal .ready = true := rfl
@[simp] lemma terminal_failed : terminal .failed = true := rfl
@[simp] lemma terminal_superseded : terminal .superseded = true := rfl
@[simp] lemma terminal_queued : terminal .queued = false := rfl
@[simp] lemma terminal_chunking : terminal .chunking = false := rfl
@[simp] lemma terminal_embedding : terminal .embedding = false := rfl
@[simp] lemma terminal_publishing : terminal .publishing = false := rfl

end RagRuntime.Ingestion
