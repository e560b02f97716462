import RagRuntime.Ingestion.Job
import RagRuntime.Store.Format

/-! The append-only job log. Every frame is a complete job snapshot; the file is the list of its
frames, and positions in it are byte offsets. -/
namespace RagRuntime.Ingestion
open RagRuntime.Base RagRuntime.Core RagRuntime.Store

structure JobRetentionPolicy where
  maxTerminalJobs : ℕ := 128
  maxTerminalBytes : ℕ := 16*1024*1024

/-- What becomes of a frame that is written: it is written and synced, or written but not synced,
or refused before a byte of it is written. A write that leaves part of a frame is an outcome of
`JobLog.persist` only. -/
inductive WriteOutcome where
  | synced
  | unsynced
  | refused (error : Error)
  deriving DecidableEq

/-- `bytes` counts the frames whose writes were acknowledged. -/
structure JobStore where
  frames : List IngestionJob
  bytes : ℕ
  deriving DecidableEq

section
variable (frameSize : IngestionJob → ℕ)

def totalSize (frames : List IngestionJob) : ℕ := (frames.map frameSize).sum

/-- The frames before and behind a position, if it is a frame boundary. -/
def splitAtPosition : ℕ → List IngestionJob → Option (List IngestionJob × List IngestionJob)
  | 0,frames => some ([],frames)
  | _+1,[] => none
  | p+1,frame::frames =>
    if frameSize frame ≤ p+1 then
      (splitAtPosition (p+1-frameSize frame) frames).map fun parts => (frame::parts.1,parts.2)
    else none
termination_by _ frames => frames.length

/-- The terminal jobs, newest first, that the bounds leave room for. -/
def retainTerminal (retention : JobRetentionPolicy) :
    List IngestionJob → ℕ → ℕ → List IngestionJob
  | [],_,_ => []
  | job::rest,jobs,bytes =>
    if jobs ≥ retention.maxTerminalJobs then []
    else if frameSize job > retention.maxTerminalBytes - bytes then
      retainTerminal retention rest jobs bytes
    else job::retainTerminal retention rest (jobs+1) (bytes + frameSize job)

end

/-- The newest snapshot of every job. -/
def latestJobs (frames : List IngestionJob) : OrdMap JobId IngestionJob :=
  frames.foldl (fun latest job => latest.insert job.id job) ∅

def NewestFirst (a b : IngestionJob) : Prop :=
  b.updatedAtMs < a.updatedAtMs ∨ a.updatedAtMs = b.updatedAtMs ∧ b.id ≤ a.id

def OldestFirst (a b : IngestionJob) : Prop :=
  a.createdAtMs < b.createdAtMs ∨ a.createdAtMs = b.createdAtMs ∧ a.id ≤ b.id

instance : DecidableRel NewestFirst := fun a b => by unfold NewestFirst; infer_instance
instance : DecidableRel OldestFirst := fun a b => by unfold OldestFirst; infer_instance

instance : Std.Total OldestFirst := by
  constructor
  intro a b
  unfold OldestFirst
  obtain hlt | heq | hgt := lt_trichotomy a.createdAtMs b.createdAtMs
  · exact Or.inl (Or.inl hlt)
  · exact (le_total a.id b.id).imp (fun h => Or.inr ⟨heq,h⟩) (fun h => Or.inr ⟨heq.symm,h⟩)
  · exact Or.inr (Or.inl hgt)

instance : IsTrans IngestionJob OldestFirst := by
  constructor
  intro a b c hab hbc
  unfold OldestFirst at *
  obtain hab | ⟨hab,hid⟩ := hab <;> obtain hbc | ⟨hbc,hid'⟩ := hbc
  · exact Or.inl (hab.trans hbc)
  · exact Or.inl (hbc ▸ hab)
  · exact Or.inl (hab ▸ hbc)
  · exact Or.inr ⟨hab.trans hbc,hid.trans hid'⟩

/-- What stays of a represented prefix: the jobs that are not terminal, and recent others. -/
def retainPrefix (frameSize : IngestionJob → ℕ) (retention : JobRetentionPolicy)
    (frames : List IngestionJob) : List IngestionJob :=
  let latest := (latestJobs frames).values
  let terminalJobs := (latest.filter fun job => terminal job.status).insertionSort NewestFirst
  let selected := (latest.filter fun job => terminal job.status = false) ++
    retainTerminal frameSize retention terminalJobs 0 0
  selected.insertionSort OldestFirst

namespace JobStore

def empty : JobStore := ⟨[],0⟩

def persist (frameSize : IngestionJob → ℕ) (s : JobStore) (job : IngestionJob) :
    WriteOutcome → Result Unit × JobStore
  | .synced => (.ok (),⟨s.frames ++ [job],s.bytes + frameSize job⟩)
  | .unsynced => (fail .ioError "job store fsync failed",⟨s.frames ++ [job],s.bytes⟩)
  | .refused error => (.error error,s)

/-- Opening counts the frames of the file. -/
def openFile (frameSize : IngestionJob → ℕ) (frames : List IngestionJob) : Result JobStore :=
  if frames.length > kMaxWalRecords then fail .corruptIndex "job record limit exceeded"
  else .ok ⟨frames,totalSize frameSize frames⟩

def loadLatest (s : JobStore) : Result (List IngestionJob) :=
  if s.frames.length > kMaxWalRecords then fail .corruptIndex "job record limit exceeded"
  else .ok ((latestJobs s.frames).values.insertionSort OldestFirst)

def truncatePrefix (frameSize : IngestionJob → ℕ) (s : JobStore) (representedPosition : ℕ)
    (retention : JobRetentionPolicy) : Result JobStore :=
  if s.frames.length > kMaxWalRecords then fail .corruptIndex "job record limit exceeded"
  else if representedPosition > totalSize frameSize s.frames then
    fail .invalidArgument "checkpoint position exceeds complete job log"
  else match splitAtPosition frameSize representedPosition s.frames with
    | none => fail .invalidArgument "checkpoint position is not a job-frame boundary"
    | some parts =>
      if representedPosition = 0 then .ok s
      else
        let compacted := retainPrefix frameSize retention parts.1 ++ parts.2
        .ok ⟨compacted,totalSize frameSize compacted⟩

end JobStore

lemma latestJobs_append (a b : List IngestionJob) :
    latestJobs (a ++ b) = b.foldl (fun latest job => latest.insert job.id job) (latestJobs a) := by
  rw [latestJobs,latestJobs,List.foldl_append]

@[simp] lemma latestJobs_concat (frames : List IngestionJob) (job : IngestionJob) :
    latestJobs (frames ++ [job]) = (latestJobs frames).insert job.id job := by
  rw [latestJobs_append]
  rfl

lemma foldl_insert_find? (frames : List IngestionJob) (m : OrdMap JobId IngestionJob) (id : JobId) :
    (frames.foldl (fun latest job => latest.insert job.id job) m).find? id =
      ((latestJobs frames).find? id).or (m.find? id) := by
  induction frames using List.reverseRecOn with
  | nil => rfl
  | append_singleton frames job ih =>
    rw [latestJobs_concat,List.foldl_append,List.foldl_cons,List.foldl_nil,OrdMap.find?_insert,
      OrdMap.find?_insert,ih]
    split_ifs <;> rfl

/-- Of two stretches of the log the later one decides. -/
theorem latestJobs_append_find? (a b : List IngestionJob) (id : JobId) :
    (latestJobs (a ++ b)).find? id = ((latestJobs b).find? id).or ((latestJobs a).find? id) := by
  rw [latestJobs_append,foldl_insert_find?]

/-- A newest snapshot is a frame with its id. -/
lemma latestJobs_mem {frames : List IngestionJob} {id : JobId} {job : IngestionJob}
    (h : (latestJobs frames).find? id = some job) : job ∈ frames ∧ job.id = id := by
  induction frames using List.reverseRecOn with
  | nil => cases h
  | append_singleton frames last ih =>
    rw [latestJobs_concat,OrdMap.find?_insert] at h
    split_ifs at h with hid
    · cases h
      exact ⟨by simp,hid.symm⟩
    · exact (ih h).imp_left (List.mem_append_left _)

lemma mem_latestJobs_values {frames : List IngestionJob} {job : IngestionJob} :
    job ∈ (latestJobs frames).values ↔ (latestJobs frames).find? job.id = some job := by
  rw [OrdMap.mem_values]
  constructor
  · rintro ⟨id,h⟩
    rwa [(latestJobs_mem h).2]
  · exact fun h => ⟨_,h⟩

/-- A list of jobs with different ids is its own newest snapshots. -/
lemma latestJobs_of_nodup {frames : List IngestionJob} (h : (frames.map IngestionJob.id).Nodup)
    {job : IngestionJob} (hjob : job ∈ frames) : (latestJobs frames).find? job.id = some job := by
  induction frames using List.reverseRecOn with
  | nil => cases hjob
  | append_singleton frames last ih =>
    rw [latestJobs_concat,OrdMap.find?_insert]
    rw [List.map_append,List.nodup_append] at h
    obtain ⟨hframes,-,hdisjoint⟩ := h
    obtain hmem | hmem := List.mem_append.mp hjob
    · rw [if_neg (hdisjoint job.id (List.mem_map_of_mem hmem) last.id (by simp)),ih hframes hmem]
    · rw [List.mem_singleton.mp hmem,if_pos rfl]

end RagRuntime.Ingestion
