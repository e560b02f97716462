import RagRuntime.Backend.Reopened
import RagRuntime.Dense.NativeHnsw
import RagRuntime.Preparation.DocumentPreparer

/-! The index of a mobile client: a backend in memory, and the checkpoint file that it is published
to after each write. -/
namespace RagRuntime.Mobile
open RagRuntime.Base RagRuntime.Core RagRuntime.Store RagRuntime.Text RagRuntime.Lexical
  RagRuntime.Index RagRuntime.Dense RagRuntime.Backend RagRuntime.Preparation

/-- What is left open of the platform: the parser of the metadata, inverse document frequencies, the
orders of hash tables and of an unstable sort, the arithmetic and the links of the graph index, and
the square root. -/
structure Platform where
  parser : JsonParser
  readsMetadata : EmbeddedCheckpointStore.ReadsMetadata parser
  idf : ℕ → ℕ → ℚ
  hash : HashOrder
  order : OffsetSort
  similarity : Similarity
  wiring : List VectorRecord → Wiring
  sqrt : ℚ → ℚ

/-- The graph index as the platform builds it. -/
def GraphIndex (_ : Platform) : Type := NativeHnswIndex

instance (p : Platform) : ApproximateIndex (GraphIndex p) where
  build source := NativeHnswIndex.build p.similarity {} source (p.wiring source)
  search index := NativeHnswIndex.search p.similarity index

abbrev PortableBackend (p : Platform) : Type := EmbeddedBackend (GraphIndex p)

def Platform.analysis (p : Platform) : Analysis := ⟨Tokenizer.tokenize {},p.idf⟩

/-- `lrs_mobile_index` with the file at its path, as far as it has a backend. -/
structure MobileIndex (p : Platform) where
  backend : PortableBackend p
  file : Option Bytes

def corpusConfig : ChunkOptions where
  maxLines := 40
  maxChars := 384
  overlapLines := 4
  headingContext := false
  policy := {
    modelIdentity := latin "default"
    tokenizerIdentity := latin "conservative-utf8-bytes-v1"
    targetTokens := 320
    maxTokens := 384
    overlapTokens := 32
    countingMode := .conservativeUtf8Bytes }

def chunkContent (content : Bytes) : List Chunk :=
  chunkDocument 0 (normalizeSourceText content) corpusConfig

section preparation

/-- Scale a vector to unit length; a value that is not finite is `none`. There is no vector where
the scaled values are not finite. -/
def normalizedVector (sqrt : ℚ → ℚ) (values : List (Option ℚ)) : Except String (Option Vec) :=
  match values.mapM id with
  | none => .error "embedding contains a non-finite value"
  | some v =>
    if dot v v ≤ 0 then .error "embedding must have a non-zero norm"
    else .ok ((Single.round (1/sqrt (dot v v))).bind fun inverse =>
      v.mapM fun x => Single.round (x*inverse))

/-- A prepared document, and whether all its vectors are finite. -/
structure Prepared where
  document : PreparedDocument
  finite : Bool

def requirePortableMode {β : Type} (b : EmbeddedBackend β) (vectors : Bool) (dimension : ℕ) :
    Except String Unit :=
  if b.active.chunks.size = 0 then .ok ()
  else if vectors ∧ b.active.dimension = 0 then
    .error "cannot add vectors to an index containing lexical-only chunks"
  else if vectors = false ∧ b.active.dimension ≠ 0 then
    .error "cannot mix lexical-only documents into a vector index"
  else if vectors ∧ b.active.dimension ≠ dimension then
    .error "embedding dimension does not match the persisted index"
  else .ok ()

variable {p : Platform}

def prepareLexical (index : MobileIndex p) (documentId title content : Option Bytes) :
    Except String Prepared := do
  match documentId,title,content with
  | some documentId,some title,some content =>
    requirePortableMode index.backend false 0
    let prepared ← (prepareDocument p.sqrt documentId content ∅ title corpusConfig 32
      none).mapError Error.message
    return ⟨prepared,true⟩
  | _,_,_ => .error "invalid lexical upsert arguments"

/-- The chunks with their vectors; a vector that is not finite is left out. -/
def withVectors (prepared : PreparedDocument) (dimension : ℕ) (vectors : List (Option Vec)) :
    Prepared :=
  ⟨{ prepared with
      embeddingIdentity := latin "lrs-precomputed-f32-v1:" ++ decimal dimension
      chunks := List.zipWith (fun chunk v => { chunk with embedding := v.getD [] })
        prepared.chunks vectors },
    vectors.all Option.isSome⟩

def prepareVectors (index : MobileIndex p) (documentId title content : Option Bytes)
    (embeddings : Option (ℕ → Option ℚ)) (count dimension : ℕ) : Except String Prepared := do
  match documentId,title,content,embeddings with
  | some documentId,some title,some content,some embeddings =>
    if count = 0 ∨ dimension = 0 ∨ count > (2^64-1)/dimension then
      .error "invalid vector upsert arguments"
    else
      let normalized := normalizeSourceText content
      if (chunkContent normalized).length ≠ count then
        .error "embedding count does not match prepared chunk count"
      else do
        requirePortableMode index.backend true dimension
        let prepared ← (prepareChunks documentId normalized ∅ title corpusConfig).mapError
          Error.message
        if prepared.chunks.length ≠ count then
          .error "embedding count does not match prepared chunk count"
        else do
          let vectors ← (List.range prepared.chunks.length).mapM fun position =>
            normalizedVector p.sqrt ((List.range dimension).map fun i =>
              embeddings (position*dimension + i))
          return withVectors prepared dimension vectors
  | _,_,_,_ => .error "invalid vector upsert arguments"

/-- `lrs_mobile_upsert_lexical` and `lrs_mobile_upsert_vectors`. A null pointer is `none`. -/
inductive Upsert
  | lexical (documentId title content : Option Bytes)
  | vectors (documentId title content : Option Bytes) (embeddings : Option (ℕ → Option ℚ))
    (count dimension : ℕ)

def MobileIndex.prepare (index : MobileIndex p) : Upsert → Except String Prepared
  | .lexical documentId title content => prepareLexical index documentId title content
  | .vectors documentId title content embeddings count dimension =>
    prepareVectors index documentId title content embeddings count dimension

end preparation

/-- What ends the publication of a checkpoint: its directory cannot be made, the file is not
written, or an exception comes after the file is in its place. -/
inductive PublicationFault
  | directories (what : String)
  | unwritten (what : String)
  | written (what : String)

/-- What happens during a call: exceptions while a document is prepared and while it is activated, a
compaction before the checkpoint is taken, and what ends its publication. -/
structure During where
  preparation : Option String := none
  activation : Option String := none
  maintained : Bool := false
  publication : Option PublicationFault := none

namespace MobileIndex

variable {p : Platform}

def publish (index : MobileIndex p) (fault : Option PublicationFault) :
    Except String Unit × MobileIndex p :=
  match fault,EmbeddedCheckpointStore.save p.idf p.hash (index.backend.snapshot 0) with
  | some (.directories what),_ => (.error what,index)
  | _,.error e => (.error e.message,index)
  | some (.unwritten what),.ok _ => (.error what,index)
  | some (.written what),.ok file => (.error what,{ index with file := some file })
  | none,.ok file => (.ok (),⟨{ index.backend with checkpointWalPosition := 0 },some file⟩)

/-- `document_state`: the revision and the content hash of an active document. -/
def documentState (index : MobileIndex p) (key : Bytes) : Option (ℕ × Bytes) :=
  (index.backend.active.documents.find? key).map fun a => (a.revision,a.prepared.contentHash)

def holds (index : MobileIndex p) (document : PreparedDocument) : Bool :=
  (index.documentState document.key).any fun state => state.2 = document.contentHash

/-- Revisions are counted in 64 bits. -/
def nextRevision (index : MobileIndex p) (key : Bytes) : ℕ :=
  match index.documentState key with
  | some state => (state.1+1) % 2^64
  | none => 1

/-- The activation, and the backend that is published after it. -/
def activate (index : MobileIndex p) (prepared : Prepared) (during : During) :
    Except String (PortableBackend p) :=
  match during.activation with
  | some what => .error what
  | none =>
    if prepared.finite = false then .error "embedding contains non-finite values"
    else match index.backend.activate prepared.document
        (index.nextRevision prepared.document.key) with
      | (.error e,_) => .error e.message
      | (.ok (),next) => .ok (if during.maintained then (next.compact false).2 else next)

/-- The document that a call goes on with. -/
def prepared (index : MobileIndex p) (call : Upsert) (during : During) : Except String Prepared :=
  match during.preparation with
  | some what => .error what
  | none => index.prepare call

/-- An upsert says whether the document was unchanged. -/
def upsert (index : MobileIndex p) (call : Upsert) (during : During) :
    Except String Bool × MobileIndex p :=
  match index.prepared call during with
  | .error what => (.error what,index)
  | .ok prepared =>
    if index.holds prepared.document then (.ok true,index)
    else match index.activate prepared during with
      | .error what => (.error what,index)
      | .ok next =>
        let published := publish { index with backend := next } during.publication
        (published.1.map fun _ => false,published.2)

end MobileIndex

/-- Open what is at a path. The files that are no checkpoints are those of the engine. -/
def reopen (p : Platform) : Option Bytes → Result (PortableBackend p)
  | none => .ok (EmbeddedBackend.start p.analysis {})
  | some file => EmbeddedBackend.openCheckpoint p.parser p.idf p.order p.analysis {} file

def mobileOpen (p : Platform) (file : Option Bytes) : Result (MobileIndex p) := do
  let backend ← reopen p file
  return ⟨backend,file⟩

end RagRuntime.Mobile
