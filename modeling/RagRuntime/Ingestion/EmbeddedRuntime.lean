import RagRuntime.Ingestion.Recovery

/-! The embedded runtime: a coordinator over a backend whose catalog is checkpointed to a file, and
over a job log whose represented prefix is truncated after that. -/
namespace RagRuntime.Ingestion
open RagRuntime.Base RagRuntime.Core RagRuntime.Backend

structure EmbeddedRuntimeConfig where
  coordinator : CoordinatorConfig
  jobRetention : JobRetentionPolicy

/-- Where a thread stands in `checkpoint_embedded`. -/
inductive Checkpointing where
  | positioned (representedPosition : ℕ)
  | captured (representedPosition : ℕ) (backend : CatalogBackend)
  | saved (representedPosition : ℕ)
  deriving DecidableEq

/-- What a process leaves behind when it stops. -/
structure Disk where
  checkpoint : Option EmbeddedCheckpoint
  frames : List IngestionJob

structure EmbeddedRuntime where
  checkpoint : Option EmbeddedCheckpoint
  coordinator : Coordinator
  checkpointing : OrdMap ℕ Checkpointing

namespace EmbeddedRuntime

def disk (r : EmbeddedRuntime) : Disk := ⟨r.checkpoint,r.coordinator.store.frames⟩

def setCheckpointing (r : EmbeddedRuntime) (thread : ℕ) (place : Checkpointing) : EmbeddedRuntime :=
  { r with checkpointing := r.checkpointing.insert thread place }

def endCheckpointing (r : EmbeddedRuntime) (thread : ℕ) : EmbeddedRuntime :=
  { r with checkpointing := r.checkpointing.erase thread }

/-- One step of `checkpoint_embedded`; `io` is what becomes of the file operations in it. -/
def checkpointEmbedded (cfg : EmbeddedRuntimeConfig) (r : EmbeddedRuntime) (thread : ℕ)
    (io : Result Unit) : EmbeddedRuntime :=
  match r.checkpointing.find? thread with
  | none => r.setCheckpointing thread (.positioned r.coordinator.store.bytes)
  | some (.positioned position) =>
    r.setCheckpointing thread (.captured position r.coordinator.backend)
  | some (.captured position backend) =>
    match io with
    | .error _ => r.endCheckpointing thread
    | .ok () => { r with checkpoint := some (backend.snapshot position) }.setCheckpointing thread
        (.saved position)
  | some (.saved position) =>
    match io,r.coordinator.store.truncatePrefix cfg.coordinator.frameSize position
      cfg.jobRetention with
    | .ok (),.ok store =>
      { r with coordinator := { r.coordinator with store := store } }.endCheckpointing thread
    | _,_ => r.endCheckpointing thread

end EmbeddedRuntime

inductive Process where
  | stopped (disk : Disk)
  | running (runtime : EmbeddedRuntime)

namespace Process

def disk : Process → Disk
  | .stopped disk => disk
  | .running runtime => runtime.disk

/-- Whether it runs, in such a state. -/
def runsWith (p : EmbeddedRuntime → Bool) : Process → Bool
  | .stopped _ => false
  | .running runtime => p runtime

/-- Whether it has stopped and left such files. -/
def stoppedWith (p : Disk → Bool) : Process → Bool
  | .stopped disk => p disk
  | .running _ => false

/-- The backend that a process starts with. -/
def openBackend (checkpoint : Option EmbeddedCheckpoint) (built : Result Unit) :
    Result CatalogBackend :=
  match checkpoint with
  | none => .ok CatalogBackend.empty
  | some checkpoint => CatalogBackend.restore checkpoint built

/-- Where an opening fails, the process has stopped again. -/
def reopen (cfg : EmbeddedRuntimeConfig) (disk : Disk) (around : Opening) : Process :=
  match openBackend disk.checkpoint around.restored,
    JobStore.openFile cfg.coordinator.frameSize disk.frames with
  | .ok backend,.ok store =>
    match Coordinator.recover cfg.coordinator around
      { Coordinator.start backend with store := store } with
    | (.error _,s) => .stopped ⟨disk.checkpoint,s.store.frames⟩
    | (.ok (),s) => .running ⟨disk.checkpoint,s,∅⟩
  | _,_ => .stopped disk

inductive Action where
  | coordinate (action : Coordinator.Action)
  | checkpoint (thread : ℕ) (io : Result Unit)
  | stop
  | reopen (around : Opening)

def step (cfg : EmbeddedRuntimeConfig) : Process → Action → Option Process
  | .running r,.coordinate action =>
    (r.coordinator.step cfg.coordinator action).map fun s => .running { r with coordinator := s }
  | .running r,.checkpoint thread io => some (.running (r.checkpointEmbedded cfg thread io))
  | .running r,.stop => some (.stopped r.disk)
  | .stopped disk,.reopen around =>
    if around.order.Perm (latestJobs disk.frames).keys then some (reopen cfg disk around) else none
  | _,_ => none

/-- Nothing is stored yet. -/
def fresh : Process := .stopped ⟨none,[]⟩

end Process
end RagRuntime.Ingestion
