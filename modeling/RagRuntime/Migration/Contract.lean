import RagRuntime.Backend.CheckpointStore
import RagRuntime.Base.Paging
import RagRuntime.Dense.ExactIndex

/-! Auditing a corpus and copying it between endpoints. -/
namespace RagRuntime.Migration
open RagRuntime.Base RagRuntime.Core RagRuntime.Backend RagRuntime.Dense

/-- A document and its revision, as endpoints hand it over. -/
abbrev RevisionedDocument := ActiveDocument

structure DocumentBatch where
  documents : List RevisionedDocument
  nextCursor : Bytes
  complete : Bool
  deriving DecidableEq

structure CorpusAudit where
  documents : ℕ := 0
  chunks : ℕ := 0
  dimension : ℕ := 0
  embeddingIdentity : Bytes := []
  chunkingFingerprint : Bytes := []
  documentChecksum : Bytes := []
  vectorChecksum : Bytes := []
  fingerprint : Bytes := []
  deriving DecidableEq

structure MigrationProgress where
  runId : Bytes
  sourceFingerprint : Bytes
  lastDocument : Bytes
  documents : ℕ
  chunks : ℕ
  complete : Bool
  deriving DecidableEq

structure MigrationOptions where
  batchSize : ℕ := 256
  sampleSearches : ℕ := 16

structure MigrationReport where
  id : Bytes
  direction : Bytes
  source : Bytes
  destination : Bytes
  resumed : Bool
  complete : Bool
  batches : ℕ
  sampledSearches : ℕ
  sourceAudit : CorpusAudit
  destinationAudit : CorpusAudit

/-- What is read of an endpoint. -/
structure Endpoint where
  description : Bytes
  readBatch : Bytes → ℕ → Result DocumentBatch
  exactCandidates : Vec → ℕ → Result CandidateList

/-- An endpoint that is written to, in its state. An operation in which the process stops has no
result. -/
structure Destination (σ : Type) where
  endpoint : σ → Endpoint
  progress : σ → Bytes → Result (Option MigrationProgress)
  writeBatch : Bytes → CorpusAudit → DocumentBatch → MigrationProgress → σ →
    Option (Result Unit) × σ
  finish : Bytes → CorpusAudit → MigrationProgress → σ → Option (Result Unit) × σ

namespace Hash

def number (hash value : ℕ) : ℕ := hashField hash (decimal value)

def finish (hash : ℕ) : Bytes := ascii ['f','n','v','1','a','6','4',':'] ++ hex64 hash

end Hash

/-- The audit so far, and the running hashes of the documents and of the vectors. -/
structure AuditTally where
  audit : CorpusAudit
  documents : ℕ
  vectors : ℕ

section
variable (bits : ℚ → ℕ)

/-- `bits` are those of a number as it is stored. -/
def validateChunk (document : Bytes) (tally : AuditTally) (entry : PreparedChunk × ℕ) :
    Result AuditTally :=
  let chunk := entry.1
  if chunk.ordinal ≠ entry.2 ∨ chunk.key = [] ∨ chunk.embedding.length ≠ tally.audit.dimension ∨
      chunk.indexedText ≠ indexedText chunk.context chunk.text ∨
      chunk.key ≠ stableChunkKey document chunk.startLine chunk.endLine chunk.text then
    fail .dimensionMismatch "migration chunk ordering or dimension is invalid"
  else if |dot chunk.embedding chunk.embedding - 1| > 1/1000 then
    fail .corruptIndex "migration vector is not normalized"
  else
    let documents := hashField tally.documents chunk.key
    let documents := Hash.number documents chunk.ordinal
    let documents := hashField documents chunk.text
    let documents := hashField documents chunk.indexedText
    let documents := hashField documents chunk.context
    let documents := Hash.number documents chunk.startLine
    let documents := Hash.number documents chunk.endLine
    let vectors := chunk.embedding.foldl (fun hash value => Hash.number hash (bits value))
      (hashField tally.vectors chunk.key)
    .ok ⟨{ tally.audit with chunks := tally.audit.chunks+1 },documents,vectors⟩

def validateDocument (tally : AuditTally) (record : RevisionedDocument) : Result AuditTally :=
  let document := record.prepared
  if record.revision = 0 ∨ document.key = [] ∨ document.chunks = [] ∨ document.contentHash = [] ∨
      document.embeddingIdentity = [] ∨ document.chunkingFingerprint = [] then
    fail .corruptIndex "migration document identity is incomplete"
  else if document.content ≠ normalizeSourceText document.content ∨ document.contentHash ≠
      documentContentHash document.title document.content document.metadata then
    fail .corruptIndex "migration document content hash is invalid"
  else
    let audit := if tally.audit.embeddingIdentity = [] then
        { tally.audit with
          embeddingIdentity := document.embeddingIdentity
          chunkingFingerprint := document.chunkingFingerprint
          dimension := document.chunks.head?.elim 0 fun chunk => chunk.embedding.length }
      else tally.audit
    if document.embeddingIdentity ≠ audit.embeddingIdentity ∨
        document.chunkingFingerprint ≠ audit.chunkingFingerprint then
      fail .dimensionMismatch "migration source contains incompatible corpus identities"
    else
      let documents := hashField tally.documents document.key
      let documents := Hash.number documents record.revision
      let documents := hashField documents document.contentHash
      let documents := hashField documents document.title
      let documents := hashField documents document.content
      let documents := hashField documents document.embeddingIdentity
      let documents := hashField documents document.chunkingFingerprint
      let documents := document.metadata.entries.foldl (fun hash entry =>
        hashField (hashField hash entry.1) entry.2) documents
      do
        let tally ← document.chunks.zipIdx.foldlM (validateChunk bits document.key)
          ⟨audit,documents,tally.vectors⟩
        return { tally with audit.documents := tally.audit.documents+1 }

/-- The documents of a batch come behind the one before it and in order. -/
def auditDocuments : List RevisionedDocument → Bytes → AuditTally → Result (Bytes × AuditTally)
  | [],previous,tally => .ok (previous,tally)
  | record::rest,previous,tally =>
    if previous ≠ [] ∧ record.prepared.key ≤ previous then
      fail .corruptIndex "migration endpoint returned unordered documents"
    else do
      let tally ← validateDocument bits tally record
      auditDocuments rest record.prepared.key tally

/-- The loop of `audit` over the batches, for so many turns at most. -/
def auditBatches (endpoint : Endpoint) (batchSize : ℕ) :
    ℕ → Bytes → AuditTally → Option (Result AuditTally)
  | 0,_,_ => none
  | turns+1,cursor,tally =>
    match endpoint.readBatch cursor batchSize with
    | .error e => some (.error e)
    | .ok batch =>
      match auditDocuments bits batch.documents cursor tally with
      | .error e => some (.error e)
      | .ok (previous,tally) =>
        if batch.nextCursor ≠ previous ∨ batch.complete = false ∧ batch.documents = [] then
          some (fail .corruptIndex "migration endpoint returned an invalid cursor")
        else if batch.complete then some (.ok tally)
        else auditBatches endpoint batchSize turns batch.nextCursor tally

def finishAudit (tally : AuditTally) : CorpusAudit :=
  let output := { tally.audit with
    documentChecksum := Hash.finish tally.documents
    vectorChecksum := Hash.finish tally.vectors }
  let fingerprint := Hash.number fnvOffset output.documents
  let fingerprint := Hash.number fingerprint output.chunks
  let fingerprint := Hash.number fingerprint output.dimension
  let fingerprint := hashField fingerprint output.embeddingIdentity
  let fingerprint := hashField fingerprint output.chunkingFingerprint
  let fingerprint := hashField fingerprint output.documentChecksum
  let fingerprint := hashField fingerprint output.vectorChecksum
  { output with fingerprint := Hash.finish fingerprint }

/-- `none` when the endpoint has not come to an end within so many turns. -/
def audit (turns : ℕ) (endpoint : Endpoint) (batchSize : ℕ) : Option (Result CorpusAudit) :=
  if batchSize = 0 then
    some (fail .invalidArgument "migration batch size must be non-zero")
  else (auditBatches bits endpoint batchSize turns [] ⟨{},fnvOffset,fnvOffset⟩).map fun result =>
    result.map finishAudit

end

def runId (direction fingerprint : Bytes) : Bytes :=
  ascii ['m','i','g','_'] ++
    (Hash.finish (hashField (hashField fnvOffset direction) fingerprint)).drop 8

/-- All fields of the records are compared. -/
def sameRecord (left right : RevisionedDocument) : Bool := left = right

/-- The documents of a batch that has been compared are counted. -/
def MigrationProgress.count (progress : MigrationProgress) (documents : List RevisionedDocument) :
    MigrationProgress :=
  documents.foldl (fun progress record => { progress with
    documents := progress.documents+1
    chunks := progress.chunks + record.prepared.chunks.length }) progress

/-- The loop of `reconcile`, for so many turns at most. -/
def reconcileBatches (source destination : Endpoint) (batchSize : ℕ) :
    ℕ → MigrationProgress → Option (Result MigrationProgress)
  | 0,_ => none
  | turns+1,output =>
    match source.readBatch output.lastDocument batchSize,
      destination.readBatch output.lastDocument batchSize with
    | .error e,_ => some (.error e)
    | .ok _,.error e => some (.error e)
    | .ok expected,.ok actual =>
      if actual.documents.length > expected.documents.length then
        some (fail .alreadyExists "migration destination is not a source prefix")
      else if (expected.documents.zip actual.documents).any fun pair =>
          sameRecord pair.1 pair.2 = false then
        some (fail .alreadyExists "migration destination conflicts with source")
      else
        let output := { output.count actual.documents with
          lastDocument := if actual.documents = [] then output.lastDocument else actual.nextCursor }
        if actual.complete then
          some (.ok { output with complete := expected.complete ∧
            actual.documents.length = expected.documents.length })
        else if actual.documents = [] ∨ expected.complete = true then
          some (fail .alreadyExists "migration destination contains extra documents")
        else reconcileBatches source destination batchSize turns output

def reconcile (turns : ℕ) (source destination : Endpoint) (run fingerprint : Bytes)
    (batchSize : ℕ) : Option (Result MigrationProgress) :=
  reconcileBatches source destination batchSize turns ⟨run,fingerprint,[],0,0,false⟩

/-- The chunks of a document are sampled until there are exactly as many samples as asked for. -/
def sampleChunks (wanted : ℕ) : List PreparedChunk → List Vec → List Vec
  | [],samples => samples
  | chunk::rest,samples =>
    if (samples ++ [chunk.embedding]).length = wanted then samples ++ [chunk.embedding]
    else sampleChunks wanted rest (samples ++ [chunk.embedding])

def sampleBatches (source : Endpoint) (options : MigrationOptions) :
    ℕ → Bytes → List Vec → Option (Result (List Vec))
  | 0,_,_ => none
  | turns+1,cursor,samples =>
    if samples.length < options.sampleSearches then
      match source.readBatch cursor options.batchSize with
      | .error e => some (.error e)
      | .ok batch =>
        let samples := batch.documents.foldl (fun samples record =>
          sampleChunks options.sampleSearches record.prepared.chunks samples) samples
        if batch.complete then some (.ok samples)
        else sampleBatches source options turns batch.nextCursor samples
    else some (.ok samples)

/-- The searches of the samples agree on both sides. -/
def compareSamples (source destination : Endpoint) (k : ℕ) : List Vec → Result ℕ
  | [] => .ok 0
  | query::rest => do
    let expected ← source.exactCandidates query k
    let actual ← destination.exactCandidates query k
    if expected.length ≠ actual.length then
      fail .corruptIndex "sampled exact search differs after migration"
    else if (expected.zip actual).any fun pair =>
        pair.1.chunk ≠ pair.2.chunk ∨ |pair.1.rawScore - pair.2.rawScore| > 1/100000 then
      fail .corruptIndex "sampled exact search differs after migration"
    else return (← compareSamples source destination k rest)+1

/-- What follows a result, when there is one. -/
def proceed {α β : Type} : Option (Result α) → (α → Option (Result β)) → Option (Result β)
  | none,_ => none
  | some (.error e),_ => some (.error e)
  | some (.ok a),next => next a

lemma proceed_eq_ok {α β : Type} {result : Option (Result α)} {next : α → Option (Result β)}
    {b : β} : proceed result next = some (.ok b) ↔
      ∃ a, result = some (.ok a) ∧ next a = some (.ok b) := by
  rcases result with _ | _ | a <;> simp [proceed]

/-- What `migrate` has established before it writes anything. -/
structure Reconciled where
  report : MigrationReport
  progress : MigrationProgress
  samples : List Vec

section
variable (bits : ℚ → ℕ) {σ : Type}

/-- The part of `migrate` before the copying. -/
def beginMigration (turns : ℕ) (source : Endpoint) (destination : Destination σ) (state : σ)
    (direction : Bytes) (options : MigrationOptions) : Option (Result Reconciled) :=
  proceed (audit bits turns source options.batchSize) fun sourceAudit =>
  let id := runId direction sourceAudit.fingerprint
  proceed (some (destination.progress state id)) fun prior =>
  proceed (reconcile turns source (destination.endpoint state) id sourceAudit.fingerprint
    options.batchSize) fun progress =>
  if prior.any fun prior => prior.sourceFingerprint ≠ sourceAudit.fingerprint then
    some (fail .alreadyExists "migration progress belongs to a different source")
  else
    proceed (if options.sampleSearches ≠ 0 then sampleBatches source options turns [] []
      else some (.ok [])) fun samples =>
    some (.ok ⟨⟨id,direction,source.description,(destination.endpoint state).description,
      prior.isSome ∨ progress.documents ≠ 0,false,0,0,sourceAudit,{}⟩,progress,samples⟩)

/-- The loop of `migrate` that copies what is left. -/
def copyBatches (source : Endpoint) (destination : Destination σ) (run : Bytes)
    (sourceAudit : CorpusAudit) (batchSize : ℕ) :
    ℕ → MigrationProgress → ℕ → σ → Option (Result (MigrationProgress × ℕ)) × σ
  | 0,_,_,state => (none,state)
  | turns+1,progress,batches,state =>
    if progress.complete then (some (.ok (progress,batches)),state)
    else match source.readBatch progress.lastDocument batchSize with
    | .error e => (some (.error e),state)
    | .ok batch =>
      let next := { progress.count batch.documents with
        lastDocument := batch.nextCursor
        complete := batch.complete }
      match destination.writeBatch run sourceAudit batch next state with
      | (none,state) => (none,state)
      | (some (.error e),state) => (some (.error e),state)
      | (some (.ok ()),state) =>
        copyBatches source destination run sourceAudit batchSize turns next (batches+1) state

/-- The part of `migrate` behind the last write. -/
def endMigration (turns : ℕ) (source destination : Endpoint) (options : MigrationOptions)
    (samples : List Vec) (report : MigrationReport) : Option (Result MigrationReport) :=
  proceed (audit bits turns source options.batchSize) fun finalSource =>
  if finalSource ≠ report.sourceAudit then
    some (fail .alreadyExists "migration source changed while it was being copied")
  else
    proceed (audit bits turns destination options.batchSize) fun destinationAudit =>
    if report.sourceAudit ≠ destinationAudit then
      some (fail .corruptIndex "migration destination audit does not match the source")
    else
      proceed (some (compareSamples source destination (min 10 report.sourceAudit.chunks) samples))
        fun sampledSearches =>
          some (.ok { report with sampledSearches, destinationAudit, complete := true })

def migrate (turns : ℕ) (source : Endpoint) (destination : Destination σ) (direction : Bytes)
    (options : MigrationOptions) (state : σ) : Option (Result MigrationReport) × σ :=
  if direction = [] ∨ options.batchSize = 0 ∨ options.batchSize > 10000 ∨
      options.sampleSearches > 1000 then
    (some (fail .invalidArgument "migration options are invalid"),state)
  else match beginMigration bits turns source destination state direction options with
  | none => (none,state)
  | some (.error e) => (some (.error e),state)
  | some (.ok begun) =>
    match copyBatches source destination begun.report.id begun.report.sourceAudit options.batchSize
      turns begun.progress 0 state with
    | (none,state) => (none,state)
    | (some (.error e),state) => (some (.error e),state)
    | (some (.ok (progress,batches)),state) =>
      match destination.finish begun.report.id begun.report.sourceAudit progress state with
      | (none,state) => (none,state)
      | (some (.error e),state) => (some (.error e),state)
      | (some (.ok ()),state) =>
        (endMigration bits turns source (destination.endpoint state) options
          begun.samples { begun.report with batches },state)

end

/-- What every write to the destination keeps. -/
structure Destination.Keeps {σ : Type} (destination : Destination σ) (I : σ → Prop) : Prop where
  writeBatch : ∀ run audit batch progress d result d', I d →
    destination.writeBatch run audit batch progress d = (result,d') → I d'
  finish : ∀ run audit progress d result d', I d →
    destination.finish run audit progress d = (result,d') → I d'

section
variable {σ : Type} {destination : Destination σ} {I : σ → Prop} {source : Endpoint} {d d' : σ}
  {turns : ℕ}

lemma Destination.Keeps.copyBatches (h : destination.Keeps I) {run : Bytes} {audit : CorpusAudit}
    {limit batches : ℕ} {progress : MigrationProgress}
    {result : Option (Result (MigrationProgress × ℕ))} (hd : I d)
    (hcopy : copyBatches source destination run audit limit turns progress batches d =
      (result,d')) :
    I d' := by
  induction turns generalizing progress batches d with
  | zero =>
    cases hcopy
    exact hd
  | succ turns ih =>
    unfold Migration.copyBatches at hcopy
    split_ifs at hcopy
    · cases hcopy
      exact hd
    · cases hread : source.readBatch progress.lastDocument limit with
      | error e =>
        rw [hread] at hcopy
        cases hcopy
        exact hd
      | ok batch =>
        rw [hread] at hcopy
        dsimp only at hcopy
        cases hwrite : destination.writeBatch run audit batch
          { progress.count batch.documents with
            lastDocument := batch.nextCursor
            complete := batch.complete } d with
        | mk outcome next =>
          have hnext := h.writeBatch _ _ _ _ _ _ _ hd hwrite
          rw [hwrite] at hcopy
          rcases outcome with _ | _ | u
          · cases hcopy
            exact hnext
          · cases hcopy
            exact hnext
          · exact ih hnext hcopy

/-- What every write keeps, a migration keeps. -/
theorem Destination.Keeps.migrate (h : destination.Keeps I) {bits : ℚ → ℕ} {direction : Bytes}
    {options : MigrationOptions} {result : Option (Result MigrationReport)} (hd : I d)
    (hmigrate : migrate bits turns source destination direction options d = (result,d')) :
    I d' := by
  unfold Migration.migrate at hmigrate
  split_ifs at hmigrate
  · cases hmigrate
    exact hd
  · rcases hbegin : beginMigration bits turns source destination d direction options with
      _ | _ | begun
    · rw [hbegin] at hmigrate
      cases hmigrate
      exact hd
    · rw [hbegin] at hmigrate
      cases hmigrate
      exact hd
    · rw [hbegin] at hmigrate
      dsimp only at hmigrate
      cases hcopy : Migration.copyBatches source destination begun.report.id
        begun.report.sourceAudit options.batchSize turns begun.progress 0 d with
      | mk copied next =>
        have hnext := h.copyBatches hd hcopy
        rw [hcopy] at hmigrate
        rcases copied with _ | _ | ⟨progress,batches⟩
        · cases hmigrate
          exact hnext
        · cases hmigrate
          exact hnext
        · dsimp only at hmigrate
          cases hlast : destination.finish begun.report.id begun.report.sourceAudit progress
            next with
          | mk outcome last =>
            have hdone := h.finish _ _ _ _ _ _ hnext hlast
            rw [hlast] at hmigrate
            rcases outcome with _ | _ | u
            · cases hmigrate
              exact hdone
            · cases hmigrate
              exact hdone
            · cases hmigrate
              exact hdone

end

end RagRuntime.Migration
