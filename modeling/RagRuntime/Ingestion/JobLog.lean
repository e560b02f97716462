import RagRuntime.Ingestion.JobRecord
import RagRuntime.Store.Wal

/-! The job log as a file of bytes: how it is scanned, opened, appended to and compacted. -/
namespace RagRuntime.Ingestion
open RagRuntime.Base RagRuntime.Core RagRuntime.Store

/-- What a scan makes of the payload of a whole frame. -/
inductive Visit (σ : Type) where
  | stop
  | next (s : σ)

/-- The loop over the frames of a log; every turn takes a header at least, so that `fuel` above the
number of bytes is never used up. -/
def scanFrom {σ : Type} (visit : σ → Bytes → Bytes → Result (Visit σ)) :
    ℕ → ℕ → σ → Bytes → Result σ
  | 0,_,s,_ => .ok s
  | fuel+1,records,s,input =>
    match readFrame kJobMagic input with
    | .short => .ok s
    | found =>
      if records ≥ kMaxWalRecords then fail .corruptIndex "job record limit exceeded"
      else match found with
        | .short | .torn => .ok s
        | .badMagic | .tooLarge => fail .corruptIndex "job record header is invalid"
        | .badCrc last =>
          if last then .ok s else fail .corruptIndex "job record checksum mismatch"
        | .payload payload rest =>
          match visit s payload rest with
          | .error e => .error e
          | .ok .stop => .ok s
          | .ok (.next s) => scanFrom visit fuel (records+1) s rest

def scan {σ : Type} (visit : σ → Bytes → Bytes → Result (Visit σ)) (s : σ) (blob : Bytes) :
    Result σ := scanFrom visit (blob.length+1) 0 s blob

namespace JobJson

variable (json : JobJson)

/-- A record that cannot be decoded ends the log like a torn one if nothing follows it. -/
def visitPosition (position : ℕ) (payload rest : Bytes) : Result (Visit ℕ) :=
  match json.decode payload with
  | .error _ =>
    if rest = [] then .ok .stop else fail .corruptIndex "job record payload is invalid"
  | .ok _ => .ok (.next (position + (kHeaderBytes + payload.length)))

def visitLatest (latest : OrdMap JobId IngestionJob) (payload _rest : Bytes) :
    Result (Visit (OrdMap JobId IngestionJob)) :=
  match json.decode payload with
  | .error what => fail .corruptIndex ("job replay failed: " ++ what)
  | .ok job => .ok (.next (latest.insert job.id job))

def validPrefix (blob : Bytes) : Result ℕ := scan json.visitPosition 0 blob

/-- `latest_jobs` of the source. -/
def loadJobs (blob : Bytes) : Result (List IngestionJob) :=
  (scan json.visitLatest ∅ blob).map fun latest => latest.values.insertionSort OldestFirst

end JobJson

/-- The file of a store and the handle on it; the file is `none` while it does not exist. -/
structure JobLog where
  file : Option Bytes
  isOpen : Bool
  bytes : ℕ
  deriving DecidableEq

/-- How the calls that open and repair a file end. -/
inductive OpenOutcome where
  | opened
  | refused (reason : String)
  | unrepaired (reason : String)
  | unsynced
  deriving DecidableEq

/-- How the calls that replace a file by its compaction end. -/
inductive CompactOutcome where
  | compacted
  | unopened (reason : String)
  | unwritten (reason : String)
  | unsynced
  | unclosed
  | unrenamed (reason : String)
  | unreopened
  deriving DecidableEq

def appendContext : String := "job store append failed: "
def compactContext : String := "job store prefix compact failed: "

namespace JobLog

def empty : JobLog := ⟨none,false,0⟩

/-- The file's bytes, none when it is absent. -/
def content (log : JobLog) : Bytes := log.file.getD []

def close (log : JobLog) : JobLog := { log with isOpen := false }

def openFile (json : JobJson) (log : JobLog) (outcome : OpenOutcome) : Result Unit × JobLog :=
  match json.validPrefix log.content with
  | .error e => (.error e,log)
  | .ok intact =>
    match outcome with
    | .refused reason => (fail .ioError ("job store open " ++ reason),log)
    | .opened => (.ok (),⟨some (log.content.take intact),true,intact⟩)
    | .unrepaired reason =>
      if intact < log.content.length then
        (fail .ioError ("job store tail repair failed: " ++ reason),
          ⟨some log.content,false,log.bytes⟩)
      else (.ok (),⟨some log.content,true,intact⟩)
    | .unsynced =>
      if intact < log.content.length then
        (fail .ioError "job store fsync failed",⟨some (log.content.take intact),false,log.bytes⟩)
      else (.ok (),⟨some log.content,true,intact⟩)

def persist (json : JobJson) (log : JobLog) (job : IngestionJob) (outcome : Store.WriteOutcome) :
    Result Unit × JobLog :=
  match json.encodeFrame appendContext job with
  | .error e => (.error e,log)
  | .ok frame =>
    if log.isOpen = false then (fail .ioError "job store is not open",log)
    else match outcome with
      | .synced => (.ok (),{ log with
          file := some (log.content ++ frame)
          bytes := log.bytes + frame.length })
      | .unsynced =>
        (fail .ioError "job store fsync failed",{ log with file := some (log.content ++ frame) })
      | .cut n reason =>
        (fail .ioError ("job store write: " ++ reason),
          { log with file := some (log.content ++ frame.take n) })

def loadLatest (json : JobJson) (log : JobLog) : Result (List IngestionJob) :=
  json.loadJobs log.content

end JobLog

namespace JobJson

variable (json : JobJson)

/-- The loop over a prefix that has been validated. -/
def latestOfPrefix : ℕ → Bytes → OrdMap JobId IngestionJob → Result (OrdMap JobId IngestionJob)
  | 0,_,latest => .ok latest
  | fuel+1,input,latest =>
    if input = [] then .ok latest
    else if input.length < kHeaderBytes then
      fail .corruptIndex "job prefix changed during compaction"
    else
      let length := leValue ((input.drop 4).take 4)
      let body := input.drop kHeaderBytes
      match json.decode (body.take length) with
      | .error what => fail .ioError (compactContext ++ what)
      | .ok job => latestOfPrefix fuel (body.drop length) (latest.insert job.id job)

/-- The terminal jobs, newest first, that the bounds leave room for. -/
def retainFrames (retention : JobRetentionPolicy) :
    List IngestionJob → ℕ → ℕ → Result (List IngestionJob)
  | [],_,_ => .ok []
  | job::rest,jobs,bytes =>
    if jobs ≥ retention.maxTerminalJobs then .ok []
    else match json.encodeFrame compactContext job with
      | .error e => .error e
      | .ok frame =>
        if frame.length > retention.maxTerminalBytes - bytes then
          retainFrames retention rest jobs bytes
        else do
          let kept ← retainFrames retention rest (jobs+1) (bytes + frame.length)
          return job::kept

def encodeAll : List IngestionJob → Result Bytes
  | [] => .ok []
  | job::rest => do
    let frame ← json.encodeFrame compactContext job
    let frames ← encodeAll rest
    return frame ++ frames

/-- The bytes that replace a log whose first `intact` bytes are whole frames. -/
def compactedLog (blob : Bytes) (position intact : ℕ) (retention : JobRetentionPolicy) :
    Result Bytes := do
  let latest ← json.latestOfPrefix (position+1) (blob.take position) ∅
  let terminalJobs := (latest.values.filter fun job =>
    terminal job.status).insertionSort NewestFirst
  let kept ← json.retainFrames retention terminalJobs 0 0
  let selected := ((latest.values.filter fun job => terminal job.status = false) ++
    kept).insertionSort OldestFirst
  let frames ← json.encodeAll selected
  return frames ++ (blob.take intact).drop position

end JobJson

namespace JobLog

/-- The calls that put `compacted` into the place of the file. -/
def replaceBy (log : JobLog) (compacted : Bytes) : CompactOutcome → Result Unit × JobLog
  | .compacted => (.ok (),⟨some compacted,true,compacted.length⟩)
  | .unopened reason => (fail .ioError ("job store compact open failed: " ++ reason),log)
  | .unwritten reason => (fail .ioError ("job store compact write failed: " ++ reason),log)
  | .unsynced => (fail .ioError "job store compact fsync failed",log)
  | .unclosed => (fail .ioError "job store compact close failed",log)
  | .unrenamed reason => (fail .ioError ("job store compact rename failed: " ++ reason),log)
  | .unreopened =>
    (fail .ioError "job store reopen after compact failed",⟨some compacted,false,log.bytes⟩)

def truncatePrefix (json : JobJson) (log : JobLog) (representedPosition : ℕ)
    (retention : JobRetentionPolicy) (outcome : CompactOutcome) : Result Unit × JobLog :=
  if log.isOpen = false then (fail .ioError "job store is not open",log)
  else match json.validPrefix log.content with
    | .error e => (.error e,log)
    | .ok intact =>
      if representedPosition > intact then
        (fail .invalidArgument "checkpoint position exceeds complete job log",log)
      else if json.validPrefix (log.content.take representedPosition) ≠ .ok representedPosition then
        (fail .invalidArgument "checkpoint position is not a job-frame boundary",log)
      else if representedPosition = 0 ∧ intact = log.content.length then (.ok (),log)
      else match json.compactedLog log.content representedPosition intact retention with
        | .error e => (.error e,log)
        | .ok compacted => log.replaceBy compacted outcome

end JobLog

/-- The bytes of whole frames that decode to these jobs. -/
inductive Framed (json : JobJson) : List IngestionJob → Bytes → Prop
  | nil : Framed json [] []
  | cons {job : IngestionJob} {payload : Bytes} {jobs : List IngestionJob} {bytes : Bytes}
    (hlength : payload.length ≤ kMaxWalRecordBytes) (hdecode : json.decode payload = .ok job)
    (hrest : Framed json jobs bytes) : Framed json (job::jobs) (frame kJobMagic payload ++ bytes)

section
variable {json : JobJson} {jobs jobs' : List IngestionJob} {bytes bytes' : Bytes}

lemma kJobMagic_fits : kJobMagic < 256^4 := by decide

lemma Framed.append (h : Framed json jobs bytes) (h' : Framed json jobs' bytes') :
    Framed json (jobs ++ jobs') (bytes ++ bytes') := by
  induction h with
  | nil => exact h'
  | cons hlength hdecode hrest ih =>
    rw [List.cons_append,List.append_assoc]
    exact .cons hlength hdecode ih

lemma Framed.length_le (h : Framed json jobs bytes) : jobs.length ≤ bytes.length := by
  induction h with
  | nil => simp
  | cons hlength hdecode hrest ih =>
    rw [List.length_append,frame_length,List.length_cons]
    simp only [kHeaderBytes]
    omega

/-- A stretch of whole frames at the front of others is made of the first of them. -/
lemma Framed.split (h : Framed json jobs bytes) {all : List IngestionJob}
    (hall : Framed json all (bytes ++ bytes')) :
    ∃ after, all = jobs ++ after ∧ Framed json after bytes' := by
  induction h generalizing all with
  | nil => exact ⟨all,rfl,hall⟩
  | @cons job payload jobs bytes hlength hdecode hrest ih =>
    rw [List.append_assoc] at hall
    have hread := readFrame_append kJobMagic_fits hlength (bytes ++ bytes')
    generalize hinput : frame kJobMagic payload ++ (bytes ++ bytes') = input at hall hread
    cases hall with
    | nil => exact absurd (List.append_eq_nil_iff.mp hinput).1 (frame_ne_nil _ _)
    | @cons job' payload' jobs' rest hlength' hdecode' hrest' =>
      rw [readFrame_append kJobMagic_fits hlength' rest] at hread
      obtain ⟨rfl,rfl⟩ := FrameRead.payload.inj hread
      rw [hdecode'] at hdecode
      obtain ⟨after,rfl,hafter⟩ := ih hrest'
      cases hdecode
      exact ⟨after,rfl,hafter⟩

/-- The scan of whole frames, turn by turn. -/
lemma scanFrom_frame {σ : Type} {visit : σ → Bytes → Bytes → Result (Visit σ)} {s s' : σ}
    {payload rest : Bytes} {records : ℕ} (fuel : ℕ) (hlength : payload.length ≤ kMaxWalRecordBytes)
    (hrecords : records < kMaxWalRecords) (hvisit : visit s payload rest = .ok (.next s')) :
    scanFrom visit (fuel+1) records s (frame kJobMagic payload ++ rest) =
      scanFrom visit fuel (records+1) s' rest := by
  simp only [scanFrom,readFrame_append kJobMagic_fits hlength,hvisit]
  rw [if_neg (not_le.mpr hrecords)]

/-- A cut tail ends a scan where it stands. -/
lemma scanFrom_cut {σ : Type} {visit : σ → Bytes → Bytes → Result (Visit σ)} {tail : Bytes}
    (h : Cut kJobMagic tail) (fuel : ℕ) (s : σ) {records : ℕ}
    (hrecords : tail = [] ∨ records < kMaxWalRecords) :
    scanFrom visit (fuel+1) records s tail = .ok s := by
  simp only [scanFrom]
  obtain he | he := h.readFrame kJobMagic_fits
  · rw [he]
  · obtain rfl | hrecords := hrecords
    · cases he
    · rw [he]
      dsimp only
      rw [if_neg (not_le.mpr hrecords)]

lemma Framed.scanPosition (h : Framed json jobs bytes) (fuel : ℕ) (tail : Bytes) (position : ℕ)
    {records : ℕ} (hrecords : records + jobs.length ≤ kMaxWalRecords) :
    scanFrom json.visitPosition (fuel + jobs.length) records position (bytes ++ tail) =
      scanFrom json.visitPosition fuel (records + jobs.length) (position + bytes.length) tail := by
  induction h generalizing records position with
  | nil => rfl
  | @cons job payload jobs bytes hlength hdecode hrest ih =>
    rw [List.length_cons] at hrecords
    have hvisit : json.visitPosition position payload (bytes ++ tail) =
        .ok (.next (position + (kHeaderBytes + payload.length))) := by
      rw [JobJson.visitPosition,hdecode]
    rw [List.length_cons,← Nat.add_assoc,List.append_assoc,
      scanFrom_frame _ hlength (by omega) hvisit,ih _ (by omega),List.length_append,frame_length]
    congr 1 <;> omega

lemma Framed.scanLatest (h : Framed json jobs bytes) (fuel : ℕ) (tail : Bytes)
    (latest : OrdMap JobId IngestionJob) {records : ℕ}
    (hrecords : records + jobs.length ≤ kMaxWalRecords) :
    scanFrom json.visitLatest (fuel + jobs.length) records latest (bytes ++ tail) =
      scanFrom json.visitLatest fuel (records + jobs.length)
        (jobs.foldl (fun latest job => latest.insert job.id job) latest) tail := by
  induction h generalizing records latest with
  | nil => rfl
  | @cons job payload jobs bytes hlength hdecode hrest ih =>
    rw [List.length_cons] at hrecords
    have hvisit : json.visitLatest latest payload (bytes ++ tail) =
        .ok (.next (latest.insert job.id job)) := by
      rw [JobJson.visitLatest,hdecode]
    rw [List.length_cons,← Nat.add_assoc,List.append_assoc,
      scanFrom_frame _ hlength (by omega) hvisit,ih _ (by omega),List.foldl_cons]
    congr 1
    omega

/-- The room a scan has for frames and a cut tail. -/
def RoomFor (jobs : List IngestionJob) (tail : Bytes) : Prop :=
  jobs.length + (if tail = [] then 0 else 1) ≤ kMaxWalRecords

lemma RoomFor.last {tail : Bytes} (h : RoomFor jobs tail) :
    tail = [] ∨ 0 + jobs.length < kMaxWalRecords := by
  unfold RoomFor at h
  split_ifs at h with htail
  · exact Or.inl htail
  · exact Or.inr (by omega)

lemma RoomFor.whole {tail : Bytes} (h : RoomFor jobs tail) : 0 + jobs.length ≤ kMaxWalRecords := by
  unfold RoomFor at h
  omega

lemma scan_fuel (h : Framed json jobs bytes) (tail : Bytes) :
    ∃ fuel, (bytes ++ tail).length + 1 = fuel + 1 + jobs.length := by
  have := h.length_le
  refine ⟨(bytes ++ tail).length - jobs.length,?_⟩
  rw [List.length_append]
  omega

/-- Whole frames and a cut tail are intact as far as the frames go. -/
theorem Framed.validPrefix (h : Framed json jobs bytes) {tail : Bytes} (htail : Cut kJobMagic tail)
    (hroom : RoomFor jobs tail) : json.validPrefix (bytes ++ tail) = .ok bytes.length := by
  obtain ⟨fuel,hfuel⟩ := scan_fuel h tail
  rw [JobJson.validPrefix,scan,hfuel,h.scanPosition _ _ _ hroom.whole,
    scanFrom_cut htail _ _ hroom.last,Nat.zero_add]

/-- The newest snapshots of the frames are loaded, whatever tail has been cut. -/
theorem Framed.loadJobs (h : Framed json jobs bytes) {tail : Bytes} (htail : Cut kJobMagic tail)
    (hroom : RoomFor jobs tail) :
    json.loadJobs (bytes ++ tail) = .ok ((latestJobs jobs).values.insertionSort OldestFirst) := by
  obtain ⟨fuel,hfuel⟩ := scan_fuel h tail
  rw [JobJson.loadJobs,scan,hfuel,h.scanLatest _ _ _ hroom.whole,scanFrom_cut htail _ _ hroom.last]
  rfl

end
end RagRuntime.Ingestion
