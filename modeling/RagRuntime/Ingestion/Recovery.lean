import RagRuntime.Ingestion.Coordinator

/-! Opening a coordinator on a job log and a backend that have seen earlier lifetimes. -/
namespace RagRuntime.Ingestion
open RagRuntime.Base RagRuntime.Core RagRuntime.Backend

/-- What an opening gets from outside: the outcome of each index build and write, and the order in
which the hash map of jobs is iterated. -/
structure Opening where
  now : JobId → ℤ
  restored : Result Unit
  built : JobId → Result Unit
  saved : JobId → WriteOutcome
  order : List JobId

def ReplayOrder (a b : IngestionJob) : Prop :=
  a.revision < b.revision ∨ a.revision = b.revision ∧ a.id ≤ b.id

instance : DecidableRel ReplayOrder := fun a b => by unfold ReplayOrder; infer_instance

namespace IngestionJob

/-- Bring the effect of a ready job back. -/
def replay (job : IngestionJob) (backend : CatalogBackend) (built : Result Unit) :
    Result CatalogBackend :=
  match job.operation with
  | .erase =>
    match backend.erase job.input.document job.revision built with
    | (.error e,_) => .error e
    | (.ok _,backend) => .ok backend
  | .upsert =>
    match job.prepared with
    | none => fail .corruptIndex "ready job has no prepared activation record"
    | some prepared =>
      match backend.activate prepared job.revision built with
      | (.error e,_) => .error e
      | (.ok (),backend) => .ok backend

/-- The record of an open job that the process found when it started: it begins again, or has been
superseded. -/
def reopened (job : IngestionJob) (current : Bool) (now : ℤ) : IngestionJob :=
  if current then
    { job with status := .queued, updatedAtMs := now, error := none, prepared := none }
  else { job with status := .superseded, updatedAtMs := now }

end IngestionJob

/-- The newest ready job of each document; of equally new ones the first in the iteration. -/
def activeReady (jobs : OrdMap JobId IngestionJob) (order : List JobId) :
    OrdMap Bytes IngestionJob :=
  order.foldl (fun active id =>
    match jobs.find? id with
    | none => active
    | some job =>
      if job.status ≠ .ready then active
      else match active.find? job.input.document with
        | none => active.insert job.input.document job
        | some found =>
          if found.revision < job.revision then active.insert job.input.document job else active) ∅

def replayAll (built : JobId → Result Unit) (jobs : List IngestionJob) (backend : CatalogBackend) :
    Result CatalogBackend :=
  jobs.foldlM (fun backend job => job.replay backend (built job.id)) backend

namespace Coordinator

/-- Take a job over from the log. -/
def remember (s : Coordinator) (job : IngestionJob) : Coordinator :=
  match s.latestRevision.find? job.input.document with
  | none => s.enlist job
  | some found => if job.revision > found then s.enlist job else s.setJob job

/-- Queue the open jobs again, and execute the open deletions. -/
def resume (cfg : CoordinatorConfig) (around : Opening) :
    List JobId → Coordinator → Result Unit × Coordinator
  | [],s => (.ok (),s)
  | id::rest,s =>
    match s.jobs.find? id with
    | none => resume cfg around rest s
    | some job =>
      if terminal job.status then resume cfg around rest s
      else
        let current : Bool := s.revisionOf job.input.document = job.revision
        let next := job.reopened current (around.now id)
        match s.persist cfg next (around.saved id) with
        | (.error e,s) => (.error e,s)
        | (.ok (),s) =>
          let s := s.setJob next
          if !current then resume cfg around rest s
          else if job.operation = .erase then resume cfg around rest (s.setProgress id .entered)
          else resume cfg around rest { s with queue := s.queue ++ [id] }

def recover (cfg : CoordinatorConfig) (around : Opening) (s : Coordinator) :
    Result Unit × Coordinator :=
  match s.store.loadLatest with
  | .error e => (.error e,s)
  | .ok loaded =>
    let s := loaded.foldl remember s
    let ready := (activeReady s.jobs around.order).values.insertionSort ReplayOrder
    match replayAll around.built ready s.backend with
    | .error e => (.error e,s)
    | .ok backend => resume cfg around around.order { s with backend := backend }

end Coordinator
end RagRuntime.Ingestion
