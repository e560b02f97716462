import Mathlib.Data.Finset.Basic
import RagRuntime.Store.Wal
import RagRuntime.Text.Chunker

/-! The corpus as the write-ahead log sees it: documents, chunks and tombstones under the
logged mutations, and the replay of a log. Embeddings and the search indexes are functions of
these and do not decide any of the calls. -/
namespace RagRuntime.Index
open RagRuntime.Base RagRuntime.Core RagRuntime.Text RagRuntime.Store

structure Corpus where
  chunkOptions : ChunkOptions
  docs : List Document
  chunks : List Chunk
  deletedDocs : Finset ℕ
  wal : Wal
  replaying : Bool
  epoch : ℕ

namespace Corpus

def addRecord (uri text : Bytes) (metadata : Metadata) (title : Bytes) : WalRecord :=
  ⟨.addDocument,uri,title,text,metadata,0⟩

def removeRecord (id : UInt32) : WalRecord := ⟨.removeDocument,[],[],[],∅,id⟩

/-- Append to the log, unless there is none or it is being replayed. -/
def logRecord (c : Corpus) (rec : WalRecord) (outcome : WriteOutcome) : Result Unit × Corpus :=
  if c.wal.isOpen = true ∧ c.replaying = false then
    let called := c.wal.append rec outcome
    (called.1,{ c with wal := called.2 })
  else (.ok (),c)

/-- The first live document of a uri; documents without a uri are not found by it. -/
def findByUriLocked (c : Corpus) (uri : Bytes) : Option ℕ :=
  if uri = [] then none
  else (c.docs.find? fun d => d.id ∉ c.deletedDocs ∧ d.uri = uri).map Document.id

/-- The checks an add makes before it is logged. -/
def checkLimits (c : Corpus) (uri text : Bytes) (metadata : Metadata) (title : Bytes) :
    Result Unit :=
  if c.docs.length ≥ kMaxDocuments ∨ c.docs.length ≥ uint32Max then
    fail .invalidArgument "document limit exceeded"
  else if uri.length > uint32Max ∨ text.length > uint32Max ∨ title.length > uint32Max ∨
      metadata.size > kMaxMetadataEntries then
    fail .invalidArgument "document field limit exceeded"
  else if metadata.entries.any fun e => e.1.length > uint32Max ∨ e.2.length > uint32Max then
    fail .invalidArgument "metadata field limit exceeded"
  else .ok ()

/-- The chunks of a text that is about to become the next document. -/
def newChunks (c : Corpus) (text : Bytes) : List Chunk :=
  chunkDocument c.docs.length text c.chunkOptions

/-- The check an add makes after it is logged. -/
def chunkLimitExceeded (c : Corpus) (text : Bytes) : Bool :=
  (c.newChunks text).length > kMaxChunks - min c.chunks.length kMaxChunks ∨
    (c.newChunks text).length > uint32Max - min c.chunks.length uint32Max

def numbered (first : ℕ) (chunks : List Chunk) : List Chunk :=
  (chunks.zipIdx first).map fun entry => { entry.1 with id := entry.2 }

def storeDocument (c : Corpus) (uri text : Bytes) (metadata : Metadata) (title : Bytes) : Corpus :=
  { c with
    docs := c.docs ++ [⟨c.docs.length,uri,title,text,metadata⟩]
    chunks := c.chunks ++ numbered c.chunks.length (c.newChunks text)
    epoch := c.epoch+1 }

def addDocumentLocked (c : Corpus) (uri text : Bytes) (metadata : Metadata) (title : Bytes)
    (outcome : WriteOutcome) : Result ℕ × Corpus :=
  match c.checkLimits uri text metadata title with
  | .error e => (.error e,c)
  | .ok () =>
    match c.logRecord (addRecord uri text metadata title) outcome with
    | (.error e,c) => (.error e,c)
    | (.ok (),c) =>
      if c.chunkLimitExceeded text then (fail .invalidArgument "chunk limit exceeded",c)
      else (.ok c.docs.length,c.storeDocument uri text metadata title)

def tombstone (c : Corpus) (id : ℕ) : Corpus :=
  { c with deletedDocs := insert id c.deletedDocs, epoch := c.epoch+1 }

def removeDocumentLocked (c : Corpus) (id : UInt32) (outcome : WriteOutcome) :
    Result Unit × Corpus :=
  if id.toNat ≥ c.docs.length ∨ id.toNat ∈ c.deletedDocs then
    (fail .notFound "remove_document: unknown or already-deleted id",c)
  else
    match c.logRecord (removeRecord id) outcome with
    | (.error e,c) => (.error e,c)
    | (.ok (),c) => (.ok (),c.tombstone id.toNat)

/-- Remove the document an upsert or a replayed add supersedes, whatever comes of it. -/
def removeExisting (c : Corpus) (uri : Bytes) (outcome : WriteOutcome) : Corpus :=
  match c.findByUriLocked uri with
  | none => c
  | some id => (c.removeDocumentLocked (UInt32.ofNat id) outcome).2

def addDocument (c : Corpus) (uri text : Bytes) (metadata : Metadata) (title : Bytes)
    (outcome : WriteOutcome) : Result ℕ × Corpus :=
  c.addDocumentLocked uri text metadata title outcome

def upsertDocument (c : Corpus) (uri text : Bytes) (metadata : Metadata) (title : Bytes)
    (removal addition : WriteOutcome) : Result ℕ × Corpus :=
  (c.removeExisting uri removal).addDocumentLocked uri text metadata title addition

def removeDocument (c : Corpus) (id : UInt32) (outcome : WriteOutcome) : Result Unit × Corpus :=
  c.removeDocumentLocked id outcome

/-- One record of the log as `open_wal` applies it: an add is replayed as an upsert. -/
def replayRecord (c : Corpus) (rec : WalRecord) : Result Corpus :=
  match rec.op with
  | .addDocument =>
    match (c.removeExisting rec.uri .synced).addDocumentLocked rec.uri rec.text rec.metadata
      rec.title .synced with
    | (.error e,_) => .error e
    | (.ok _,c) => .ok c
  | .removeDocument => .ok (c.removeDocumentLocked rec.docId .synced).2

def replayRecords (c : Corpus) (records : List WalRecord) : Result Corpus :=
  records.foldlM replayRecord c

/-- Replay the log file, then open it for appending. `build` is the outcome of `build_locked`,
which embeds the chunks and builds the indexes. -/
def openWal (build : Corpus → Result Unit) (c : Corpus) (file : Option Bytes) : Result Corpus := do
  let records ← Wal.replay file
  let c ←
    if records = [] then pure c
    else do
      let c ← replayRecords { c with replaying := true } records
      let c := { c with replaying := false }
      build c
      pure { c with epoch := c.epoch+1 }
  return { c with wal := Wal.openAt { c.wal with file := file } }

def liveDocuments (c : Corpus) : List Document := c.docs.filter fun d => d.id ∉ c.deletedDocs

end Corpus
end RagRuntime.Index
