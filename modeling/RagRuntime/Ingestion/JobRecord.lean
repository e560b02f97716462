import RagRuntime.Ingestion.JobStore
import RagRuntime.Store.Frame

/-! The durable record of a job: the members of its JSON object, the text they are written as, and
the checks that every record passes on its way back. -/
namespace RagRuntime.Ingestion
open RagRuntime.Base RagRuntime.Core RagRuntime.Backend RagRuntime.Store

/-- The members of the JSON object of a job; members that may be absent have their defaults. -/
structure JobRecord where
  version : ℤ
  id : Bytes
  operation : ℤ
  document : Bytes
  title : Bytes
  content : Bytes
  metadata : Metadata
  revision : ℕ
  contentHash : Bytes
  status : ℤ
  createdAtMs : ℤ
  updatedAtMs : ℤ
  error : Option (ℤ × Bytes)
  prepared : Option PreparedDocument
  mutationApplied : Option Bool
  deriving DecidableEq

/-- The JSON library: the text of an object, and the object that a text is parsed into. Both
fail with the text of an exception. -/
structure JobJson where
  dump : JobRecord → Except String Bytes
  parse : Bytes → Except String JobRecord

/-- Every text that is written is parsed into the object it was written for. -/
def JobJson.RoundTrips (json : JobJson) : Prop :=
  ∀ record text, json.dump record = .ok text → json.parse text = .ok record

def kJobMagic : ℕ := 0x52424F4A
def kJobVersion : ℤ := 1

/-- The enumerator with the given number. -/
def enumerator {α : Type} (values : List α) (code : ℤ) : Option α :=
  if code < 0 then none else values[code.toNat]?

def operations : List JobOperation := [.upsert,.erase]

def statuses : List JobStatus :=
  [.queued,.chunking,.embedding,.publishing,.ready,.failed,.superseded,.cancelled]

def errorCodes : List Errc :=
  [.ok,.notFound,.invalidArgument,.dimensionMismatch,.ioError,.parseError,.transportError,
    .unavailable,.emptyCorpus,.alreadyExists,.corruptIndex]

def IngestionJob.record (job : IngestionJob) : JobRecord where
  version := kJobVersion
  id := job.id
  operation := operations.idxOf job.operation
  document := job.input.document
  title := job.input.title
  content := job.input.content
  metadata := job.input.metadata
  revision := job.revision
  contentHash := job.contentHash
  status := statuses.idxOf job.status
  createdAtMs := job.createdAtMs
  updatedAtMs := job.updatedAtMs
  error := job.error.map fun e => (errorCodes.idxOf e.code,e.message)
  prepared := job.prepared
  mutationApplied := job.mutationApplied

/-- The error of a record, when it has one. -/
def decodeError : Option (ℤ × Bytes) → Except String (Option JobError)
  | none => .ok none
  | some e =>
    match enumerator errorCodes e.1 with
    | none => .error "job error code is invalid"
    | some code => .ok (some ⟨code,e.2⟩)

def checkPrepared : Option PreparedDocument → Except String Unit
  | none => .ok ()
  | some document =>
    if document.chunks.length > kMaxChunks then .error "job prepared chunk count is invalid"
    else if document.chunks.any fun chunk => chunk.embedding.length > kMaxVectorDimension then
      .error "job embedding dimension is invalid"
    else .ok ()

def checkIdentity (record : JobRecord) : Except String Unit :=
  if record.id = [] ∨ record.document = [] ∨ record.revision = 0 then
    .error "job identity is invalid"
  else .ok ()

/-- The checks of `decode` behind the parser. -/
def JobRecord.job (record : JobRecord) : Except String IngestionJob :=
  if record.version ≠ kJobVersion then .error "unsupported job record version"
  else match enumerator operations record.operation with
  | none => .error "job operation is invalid"
  | some operation =>
    match enumerator statuses record.status with
    | none => .error "job status is invalid"
    | some status => do
      let error ← decodeError record.error
      checkPrepared record.prepared
      checkIdentity record
      return ⟨record.id,operation,⟨record.document,record.title,record.content,record.metadata⟩,
        record.revision,record.contentHash,status,record.createdAtMs,record.updatedAtMs,error,
        record.prepared,record.mutationApplied⟩

namespace JobJson

def decode (json : JobJson) (payload : Bytes) : Except String IngestionJob := do
  let record ← json.parse payload
  record.job

/-- A frame, or the error of a record over the limit; `context` is what the caller puts before the
text of an exception. -/
def encodeFrame (json : JobJson) (context : String) (job : IngestionJob) : Result Bytes :=
  match json.dump job.record with
  | .error what => fail .ioError (context ++ what)
  | .ok payload =>
    if payload.length > kMaxWalRecordBytes ∨ payload.length > uint32Max then
      fail .invalidArgument "job record exceeds configured limit"
    else .ok (frame kJobMagic payload)

end JobJson

/-- What a record is asked when it is read back. -/
structure IngestionJob.Recordable (job : IngestionJob) : Prop where
  id : job.id ≠ []
  document : job.input.document ≠ []
  revision : job.revision ≠ 0
  chunkCount : ∀ d ∈ job.prepared, d.chunks.length ≤ kMaxChunks
  dimension : ∀ d ∈ job.prepared, ∀ chunk ∈ d.chunks,
    chunk.embedding.length ≤ kMaxVectorDimension

lemma enumerator_operation (operation : JobOperation) :
    enumerator operations (operations.idxOf operation) = some operation := by
  cases operation <;> rfl

lemma enumerator_status (status : JobStatus) :
    enumerator statuses (statuses.idxOf status) = some status := by
  cases status <;> rfl

lemma enumerator_errorCode (code : Errc) :
    enumerator errorCodes (errorCodes.idxOf code) = some code := by
  cases code <;> rfl

lemma decodeError_map (error : Option JobError) :
    decodeError (error.map fun e => ((errorCodes.idxOf e.code : ℤ),e.message)) = .ok error := by
  cases error with
  | none => rfl
  | some e =>
    simp only [Option.map_some,decodeError,enumerator_errorCode]

lemma checkPrepared_eq_ok {prepared : Option PreparedDocument} :
    checkPrepared prepared = .ok () ↔ ∀ d ∈ prepared, d.chunks.length ≤ kMaxChunks ∧
      ∀ chunk ∈ d.chunks, chunk.embedding.length ≤ kMaxVectorDimension := by
  cases prepared with
  | none => simp [checkPrepared]
  | some document =>
    simp only [checkPrepared,Option.mem_def,Option.some.injEq,forall_eq']
    split_ifs with hcount hdimension
    · simp only [false_iff]
      exact fun h => absurd h.1 (not_le.mpr hcount)
    · simp only [false_iff]
      rintro ⟨-,h⟩
      obtain ⟨chunk,hmem,hlong⟩ := List.any_eq_true.mp hdimension
      exact absurd (h chunk hmem) (not_le.mpr (of_decide_eq_true hlong))
    · simp only [true_iff]
      exact ⟨not_lt.mp hcount,by simpa using hdimension⟩

lemma checkIdentity_eq_ok {record : JobRecord} :
    checkIdentity record = .ok () ↔
      record.id ≠ [] ∧ record.document ≠ [] ∧ record.revision ≠ 0 := by
  unfold checkIdentity
  split_ifs with h
  · simp only [false_iff]
    rintro ⟨h1,h2,h3⟩
    exact h.elim h1 fun h => h.elim h2 h3
  · simpa [not_or] using h

/-- A record that is decoded passes the checks. -/
lemma job_eq_ok {record : JobRecord} {job : IngestionJob} (h : record.job = .ok job) :
    checkPrepared record.prepared = .ok () ∧ checkIdentity record = .ok () ∧
      job.id = record.id ∧ job.input.document = record.document ∧
      job.revision = record.revision ∧ job.prepared = record.prepared := by
  unfold JobRecord.job at h
  by_cases hversion : record.version ≠ kJobVersion
  · rw [if_pos hversion] at h
    cases h
  rw [if_neg hversion] at h
  cases hoperation : enumerator operations record.operation with
  | none =>
    rw [hoperation] at h
    cases h
  | some operation =>
    cases hstatus : enumerator statuses record.status with
    | none =>
      rw [hoperation,hstatus] at h
      cases h
    | some status =>
      rw [hoperation,hstatus] at h
      cases herror : decodeError record.error with
      | error what =>
        rw [herror] at h
        cases h
      | ok error =>
        cases hprepared : checkPrepared record.prepared with
        | error what =>
          rw [herror,hprepared] at h
          cases h
        | ok u =>
          cases hidentity : checkIdentity record with
          | error what =>
            rw [herror,hprepared,hidentity] at h
            cases h
          | ok v =>
            rw [herror,hprepared,hidentity] at h
            cases h
            exact ⟨rfl,rfl,rfl,rfl,rfl,rfl⟩

/-- What is decoded is fit to be written again. -/
theorem recordable_of_job {record : JobRecord} {job : IngestionJob} (h : record.job = .ok job) :
    job.Recordable := by
  obtain ⟨hprepared,hidentity,hid,hdocument,hrevision,hsame⟩ := job_eq_ok h
  have hchunks := checkPrepared_eq_ok.mp hprepared
  obtain ⟨h1,h2,h3⟩ := checkIdentity_eq_ok.mp hidentity
  rw [← hsame] at hchunks
  exact ⟨hid ▸ h1,hdocument ▸ h2,hrevision ▸ h3,fun d hd => (hchunks d hd).1,
    fun d hd => (hchunks d hd).2⟩

/-- A job comes back from its record exactly if the record passes the checks. -/
theorem job_record (job : IngestionJob) : job.record.job = .ok job ↔ job.Recordable := by
  constructor
  · exact recordable_of_job
  · intro h
    have hprepared : checkPrepared job.prepared = .ok () :=
      checkPrepared_eq_ok.mpr fun d hd => ⟨h.chunkCount d hd,h.dimension d hd⟩
    have hidentity : checkIdentity job.record = .ok () :=
      checkIdentity_eq_ok.mpr ⟨h.id,h.document,h.revision⟩
    unfold JobRecord.job
    rw [hidentity]
    simp only [IngestionJob.record,ne_eq,not_true,if_false,enumerator_operation,
      enumerator_status,decodeError_map job.error,hprepared]
    rfl

section
variable {json : JobJson} {job : IngestionJob} {text : Bytes}

lemma JobJson.recordable_of_decode (h : json.decode text = .ok job) : job.Recordable := by
  unfold JobJson.decode at h
  cases hparse : json.parse text with
  | error what =>
    rw [hparse] at h
    cases h
  | ok record =>
    rw [hparse] at h
    exact recordable_of_job h

lemma JobJson.encodeFrame_eq_ok {context : String} {bytes : Bytes} :
    json.encodeFrame context job = .ok bytes ↔ ∃ payload, json.dump job.record = .ok payload ∧
      payload.length ≤ kMaxWalRecordBytes ∧ bytes = frame kJobMagic payload := by
  unfold JobJson.encodeFrame
  cases json.dump job.record with
  | error what => simp [fail]
  | ok payload =>
    dsimp only
    split_ifs with hlong
    · simp only [fail,reduceCtorEq,Except.ok.injEq,exists_eq_left',false_iff]
      rintro ⟨hlength,-⟩
      simp only [kMaxWalRecordBytes,uint32Max] at hlong hlength
      omega
    · simp only [not_or,not_lt] at hlong
      simp [hlong.1,eq_comm]

/-- A recordable job comes back from the text that is written for it. -/
lemma JobJson.RoundTrips.decode (hjson : json.RoundTrips) (hjob : job.Recordable)
    (h : json.dump job.record = .ok text) : json.decode text = .ok job := by
  unfold JobJson.decode
  rw [hjson _ _ h]
  exact (job_record job).mpr hjob

/-- A library that knows the texts of a few objects. -/
def JobJson.ofTable (table : List (JobRecord × Bytes)) : JobJson where
  dump record :=
    match table.find? fun e => e.1 = record with
    | some e => .ok e.2
    | none => .error "unknown object"
  parse text :=
    match table.find? fun e => e.2 = text with
    | some e => .ok e.1
    | none => .error "unknown text"

lemma find?_of_nodup {α : Type} [DecidableEq α] (key : JobRecord × Bytes → α)
    {table : List (JobRecord × Bytes)} (h : (table.map key).Nodup) {e : JobRecord × Bytes}
    (he : e ∈ table) : table.find? (fun f => key f = key e) = some e := by
  induction table with
  | nil => cases he
  | cons f table ih =>
    obtain ⟨hnot,hrest⟩ := List.nodup_cons.mp h
    obtain rfl | he := List.mem_cons.mp he
    · exact List.find?_cons_of_pos (by simp)
    · rw [List.find?_cons_of_neg,ih hrest he]
      simp only [decide_eq_true_eq]
      exact fun hsame => hnot (hsame ▸ List.mem_map_of_mem he)

lemma JobJson.ofTable_roundTrips {table : List (JobRecord × Bytes)}
    (h : (table.map Prod.snd).Nodup) : (JobJson.ofTable table).RoundTrips := by
  intro record text hdump
  cases hfind : table.find? (fun e => e.1 = record) with
  | none =>
    simp only [JobJson.ofTable,hfind] at hdump
    cases hdump
  | some e =>
    simp only [JobJson.ofTable,hfind] at hdump
    have hrecord : e.1 = record := by simpa using List.find?_some hfind
    have hmem := List.mem_of_find?_eq_some hfind
    cases hdump
    simp only [JobJson.ofTable,find?_of_nodup Prod.snd h hmem,hrecord]

lemma JobJson.ofTable_dump {table : List (JobRecord × Bytes)} (h : (table.map Prod.fst).Nodup)
    {record : JobRecord} {text : Bytes} (hmem : (record,text) ∈ table) :
    (JobJson.ofTable table).dump record = .ok text := by
  simp only [JobJson.ofTable,find?_of_nodup Prod.fst h hmem]

end
end RagRuntime.Ingestion
