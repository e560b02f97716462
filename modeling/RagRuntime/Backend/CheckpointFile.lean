import RagRuntime.Backend.CheckpointStore
import RagRuntime.Core.Json
import RagRuntime.Lexical.Bm25Growth
import RagRuntime.Store.Container
import RagRuntime.Store.Rows

/-! A checkpoint as a file: sections that older readers know, and one of the runtime's own. -/
namespace RagRuntime.Backend
open RagRuntime.Base RagRuntime.Core RagRuntime.Store RagRuntime.Text RagRuntime.Lexical
  RagRuntime.Dense Decoder

namespace EmbeddedCheckpointStore

def kRuntimeVersion : ℕ := 1

/-- What the JSON library makes of an object with the one member. -/
def metadataText : Bytes := latin "\x7b\"runtime_checkpoint\":1\x7d"

/-- The documents of a checkpoint as a corpus has them, their keys for uris. -/
def corpusDocuments (documents : List ActiveDocument) : List Document :=
  documents.zipIdx.map fun x => ⟨x.2,x.1.prepared.key,x.1.prepared.title,x.1.prepared.content,
    x.1.prepared.metadata⟩

/-- The chunks of a checkpoint, each with the number of its document. -/
def ownedRows (documents : List ActiveDocument) : List (ℕ × PreparedChunk) :=
  documents.zipIdx.flatMap fun x => x.1.prepared.chunks.map fun chunk => (x.2,chunk)

def corpusChunks (documents : List ActiveDocument) : List Chunk :=
  (ownedRows documents).zipIdx.map fun x => ⟨x.2,x.1.1,x.1.2.text,x.1.2.context,x.1.2.startLine,
    x.1.2.endLine⟩

def corpusEmbeddings (documents : List ActiveDocument) : List Vec :=
  (rows documents).map PreparedChunk.embedding

def corpusTexts (documents : List ActiveDocument) : List Bytes :=
  (rows documents).map PreparedChunk.indexedText

def documentsSection (documents : List ActiveDocument) : Bytes :=
  leBytes 4 documents.length ++ encodeFrom putDocument 0 (corpusDocuments documents)

def chunksSection (documents : List ActiveDocument) : Bytes :=
  leBytes 4 (rows documents).length ++ encodeFrom putChunk 0 (corpusChunks documents)

def embeddingsSection (documents : List ActiveDocument) : Bytes :=
  encodeFrom putEmbedding 0 (corpusEmbeddings documents)

def anyEmbeddings (documents : List ActiveDocument) : Bool :=
  (rows documents).any fun chunk => chunk.embedding ≠ []

/-- The index that is written, with the default tokenizer. -/
def lexicalIndex (idf : ℕ → ℕ → ℚ) (documents : List ActiveDocument) : Bm25Index :=
  (Bm25Index.added ⟨Tokenizer.tokenize {},idf⟩ (corpusTexts documents)).finalize

def putRuntimeChunk (_ : ℕ) (chunk : PreparedChunk) : Bytes :=
  str chunk.key ++ (leBytes 8 chunk.ordinal ++ str chunk.indexedText)

def putRuntimeDocument (_ : ℕ) (entry : ActiveDocument) : Bytes :=
  str entry.prepared.key ++ (leBytes 8 entry.revision ++ (str entry.prepared.contentHash ++
    (str entry.prepared.chunkingFingerprint ++ (str entry.prepared.embeddingIdentity ++
      (leBytes 4 entry.prepared.chunks.length ++
        encodeFrom putRuntimeChunk 0 entry.prepared.chunks)))))

def putRevision (_ : ℕ) (e : Bytes × ℕ) : Bytes := str e.1 ++ leBytes 8 e.2

def runtimeSection (checkpoint : EmbeddedCheckpoint) : Bytes :=
  leBytes 4 kRuntimeVersion ++ (leBytes 8 checkpoint.generation ++
    (leBytes 8 checkpoint.walPosition ++ (leBytes 4 checkpoint.documents.length ++
      (encodeFrom putRuntimeDocument 0 checkpoint.documents ++
        (leBytes 4 checkpoint.revisions.size ++
          encodeFrom putRevision 0 checkpoint.revisions.entries)))))

def container (idf : ℕ → ℕ → ℚ) (order : HashOrder) (checkpoint : EmbeddedCheckpoint) : Container :=
  let plain := (((Container.empty.put .«meta» metadataText).put .docs
    (documentsSection checkpoint.documents)).put .chunks
      (chunksSection checkpoint.documents)).put .bm25
        ((lexicalIndex idf checkpoint.documents).serialize order)
  let embedded := anyEmbeddings checkpoint.documents
  ((if embedded then plain.put .embed (embeddingsSection checkpoint.documents) else plain).put
    .runtime (runtimeSection checkpoint)).setFlags (if embedded then kHasEmbeddings else 0)

/-- A file that is too long for a string cannot be put together. -/
def save (idf : ℕ → ℕ → ℚ) (order : HashOrder) (checkpoint : EmbeddedCheckpoint) :
    Result Bytes := do
  validateForSave checkpoint
  let file := (container idf order checkpoint).serialize
  if file.length < 256^8 then return file
  else fail .ioError "checkpoint save failed: basic_string::append"

lemma save_eq_ok {idf : ℕ → ℕ → ℚ} {order : HashOrder} {checkpoint : EmbeddedCheckpoint}
    (hvalid : validateForSave checkpoint = .ok ())
    (hfile : (container idf order checkpoint).serialize.length < 256^8) :
    save idf order checkpoint = .ok (container idf order checkpoint).serialize := by
  unfold save
  rw [hvalid]
  exact if_pos hfile

def readDocuments : Decoder Error (List Document) := do
  let n ← number (corrupt "checkpoint document count is invalid") 4
  ensure (corrupt "checkpoint document count is invalid") (n ≤ kMaxDocuments)
  repeatFrom (readDocument (corrupt "checkpoint document row is invalid")
    (corrupt "checkpoint metadata count is invalid")
    (corrupt "checkpoint metadata row is invalid") true) n 0 []

def readChunks (documents : ℕ) : Decoder Error (List Chunk) := do
  let n ← number (corrupt "checkpoint chunk count is invalid") 4
  ensure (corrupt "checkpoint chunk count is invalid") (n ≤ kMaxChunks)
  repeatFrom (readChunk (corrupt "checkpoint chunk identity is invalid")
    (corrupt "checkpoint chunk row is invalid") documents) n 0 []

/-- The vector of one chunk, behind the dimension and the vectors of those before it. -/
def readEmbedding (_ : ℕ) (seen : ℕ × List Vec) : Decoder Error (ℕ × List Vec) := do
  let dim ← number (corrupt "checkpoint embedding dimension is invalid") 4
  ensure (corrupt "checkpoint embedding dimension is invalid")
    (dim ≤ kMaxVectorDimension ∧ (seen.1 = 0 ∨ dim = seen.1))
  let v ← readVector (corrupt "checkpoint embedding row is truncated")
    (corrupt "checkpoint embedding is non-finite") dim
  ensure (corrupt "checkpoint embedding is not normalized") (v ≠ [] → |dot v v - 1| ≤ 1/1000)
  pure (if dim ≠ 0 then dim else seen.1,seen.2 ++ [v])

def readEmbeddings (chunks : ℕ) : Option Bytes → Result (List Vec)
  | none => .ok (List.replicate chunks [])
  | some blob => ((repeatFrom readEmbedding chunks 0 (0,[])).whole
      (corrupt "checkpoint has trailing embedding data") blob).map Prod.snd

/-- The key of a chunk and its indexed text. -/
def readRuntimeChunk (i : ℕ) (chunks : List (Bytes × Bytes)) :
    Decoder Error (List (Bytes × Bytes)) := do
  let key ← string (corrupt "checkpoint runtime chunk is invalid")
  let ordinal ← number (corrupt "checkpoint runtime chunk is invalid") 8
  ensure (corrupt "checkpoint runtime chunk is invalid") (ordinal = i)
  let indexedText ← string (corrupt "checkpoint runtime chunk is invalid")
  pure (chunks ++ [(key,indexedText)])

def preparedChunk (row : Chunk × Vec) (ordinal : ℕ) (runtime : Bytes × Bytes) : PreparedChunk :=
  ⟨runtime.1,ordinal,row.1.text,runtime.2,row.1.context,row.1.startLine,row.1.endLine,row.2⟩

/-- The chunk rows of a document that stand before the runtime section. -/
def rowsOf (rows : List (Chunk × Vec)) (document : ℕ) : List (Chunk × Vec) :=
  rows.filter fun row => row.1.doc = document

/-- A document, from its row, the rows of its chunks and its part of the runtime section. -/
def readRuntimeDocument (rows : List (Chunk × Vec)) (d : Document) :
    Decoder Error ActiveDocument := do
  let chunkRows := rowsOf rows d.id
  let key ← string (corrupt "checkpoint runtime document is invalid")
  ensure (corrupt "checkpoint runtime document is invalid") (key = d.uri)
  let revision ← number (corrupt "checkpoint runtime document is invalid") 8
  ensure (corrupt "checkpoint runtime document is invalid") (revision ≠ 0)
  let contentHash ← string (corrupt "checkpoint runtime document is invalid")
  let chunkingFingerprint ← string (corrupt "checkpoint runtime document is invalid")
  let embeddingIdentity ← string (corrupt "checkpoint runtime document is invalid")
  let n ← number (corrupt "checkpoint runtime document is invalid") 4
  ensure (corrupt "checkpoint runtime document is invalid") (n = chunkRows.length)
  let chunks ← repeatFrom readRuntimeChunk n 0 []
  pure ⟨revision,⟨d.uri,d.title,d.text,d.metadata,contentHash,chunkingFingerprint,
    embeddingIdentity,(chunkRows.zip chunks).zipIdx.map fun x => preparedChunk x.1.1 x.2 x.1.2⟩⟩

def readRevision (_ : ℕ) (revisions : OrdMap Bytes ℕ) : Decoder Error (OrdMap Bytes ℕ) := do
  let document ← string (corrupt "checkpoint revision row is invalid")
  ensure (corrupt "checkpoint revision row is invalid") (document ≠ [])
  let revision ← number (corrupt "checkpoint revision row is invalid") 8
  ensure (corrupt "checkpoint revision row is invalid")
    (revision ≠ 0 ∧ revisions.contains document = false)
  pure (revisions.insert document revision)

/-- The numbers before the documents of the runtime section. -/
def readRuntimeHeader (documents : ℕ) : Decoder Error (ℕ × ℕ) := do
  let version ← number (corrupt "checkpoint runtime header is invalid") 4
  ensure (corrupt "checkpoint runtime header is invalid") (version = kRuntimeVersion)
  let generation ← number (corrupt "checkpoint runtime header is invalid") 8
  let walPosition ← number (corrupt "checkpoint runtime header is invalid") 8
  let n ← number (corrupt "checkpoint runtime header is invalid") 4
  ensure (corrupt "checkpoint runtime header is invalid") (n = documents)
  pure (generation,walPosition)

def readRevisions : Decoder Error (OrdMap Bytes ℕ) := do
  let n ← number (corrupt "checkpoint revision count is invalid") 4
  ensure (corrupt "checkpoint revision count is invalid") (n ≤ kMaxDocuments)
  repeatFrom readRevision n 0 ∅

def readRuntime (docs : List Document) (rows : List (Chunk × Vec)) :
    Decoder Error EmbeddedCheckpoint := do
  let header ← readRuntimeHeader docs.length
  let documents ← docs.mapM (readRuntimeDocument rows)
  let revisions ← readRevisions
  ensure (corrupt "checkpoint active revision is inconsistent") (∀ entry ∈ documents,
    revisions.find? entry.prepared.key = some entry.revision)
  pure ⟨documents,revisions,header.1,header.2⟩

/-- The one member that the metadata has to have. -/
def checkMetadata (parser : JsonParser) (text : Bytes) : Result Unit :=
  match parser text with
  | none => fail .corruptIndex "checkpoint metadata is invalid"
  | some metadata =>
    if metadata.isObject = false then fail .corruptIndex "checkpoint metadata is invalid"
    else match metadata.value (Json.getUnsigned 32) (latin "runtime_checkpoint") 0 with
      | .error what => fail .corruptIndex ("checkpoint load failed: " ++ what)
      | .ok version =>
        if version ≠ kRuntimeVersion then fail .corruptIndex "checkpoint metadata is invalid"
        else .ok ()

/-- The index of the file has as many texts as there are chunks; it is not used further. -/
def checkLexical (idf : ℕ → ℕ → ℚ) (chunks : ℕ) (blob : Bytes) : Result Unit :=
  match Bm25Index.deserialize ⟨Tokenizer.tokenize {},idf⟩ blob with
  | .error _ => fail .corruptIndex "checkpoint lexical index is invalid"
  | .ok index =>
    if index.docLen.size ≠ chunks then fail .corruptIndex "checkpoint lexical index is invalid"
    else .ok ()

def load (parser : JsonParser) (idf : ℕ → ℕ → ℚ) (order : OffsetSort) (file : Bytes) :
    Result EmbeddedCheckpoint := do
  let view ← ContainerView.openFile order file
  match view.get .«meta»,view.get .docs,view.get .chunks,view.get .bm25,view.get .runtime with
  | some metadata,some docs,some chunks,some bm25,some runtime =>
    if (view.flags &&& kHasEmbeddings.val ≠ 0) ≠ view.has .embed then
      fail .corruptIndex "checkpoint embedding flag is inconsistent"
    else do
      checkMetadata parser metadata
      let docs ← readDocuments.whole (corrupt "checkpoint has trailing document data") docs
      let chunks ← (readChunks docs.length).whole
        (corrupt "checkpoint has trailing chunk data") chunks
      let embeddings ← readEmbeddings chunks.length (view.get .embed)
      checkLexical idf chunks.length bm25
      (readRuntime docs (chunks.zip embeddings)).whole
        (corrupt "checkpoint has trailing runtime data") runtime
  | _,_,_,_,_ => fail .corruptIndex "checkpoint is missing required sections"

end EmbeddedCheckpointStore
end RagRuntime.Backend
