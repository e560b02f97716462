import RagRuntime.Core.Json
import RagRuntime.Index.IndexedCorpus
import RagRuntime.Lexical.Bm25Codec
import RagRuntime.Store.Container
import RagRuntime.Store.Rows
import RagRuntime.Text.Tokenizer

/-! A corpus file as it is loaded: the configuration in its metadata, the rows of its documents and
chunks, and the sections that are optional. -/
namespace RagRuntime.Index
open RagRuntime.Base RagRuntime.Core RagRuntime.Store RagRuntime.Text RagRuntime.Lexical
  RagRuntime.Dense RagRuntime.Backend Decoder

/-- What of its configuration a corpus file carries. -/
structure PersistedConfig where
  chunk : ChunkOptions := {}
  bm25 : Bm25Params := {}
  hnswThreshold : ℕ := 2000
  embedBatch : ℕ := 32

/-- A corpus that was just loaded; the graph is kept in a form of its own. -/
structure LoadedCorpus (γ : Type) where
  config : PersistedConfig
  docs : List Document
  chunks : List Chunk
  embeddings : List Vec
  bm25 : Bm25Index
  hnsw : Option γ
  deletedDocs : Finset ℕ

namespace CorpusFile

/-- An exception of the JSON library ends the load. -/
def caught {α : Type} : Except String α → Result α
  | .ok a => .ok a
  | .error what => fail .corruptIndex ("index parse failed: " ++ what)

def member {α : Type} (get : Json → Except String α) (j : Json) (key : String) (default : α) :
    Result α := caught (j.value get (latin key) default)

def size (j : Json) (key : String) (default : ℕ) : Result ℕ :=
  member (Json.getUnsigned 64) j key default

def readPolicy (p : Json) : Result EmbeddingPolicy := do
  let model ← member Json.getString p "model" []
  let tokenizer ← member Json.getString p "tokenizer" []
  let dimension ← size p "dimension" 0
  let targetTokens ← size p "target_tokens" 0
  let maxTokens ← size p "max_tokens" 0
  let overlapTokens ← size p "overlap_tokens" 0
  let reservedTokens ← size p "reserved_tokens" 0
  let documentPrefix ← member Json.getString p "document_prefix" []
  let queryPrefix ← member Json.getString p "query_prefix" []
  let countingMode ← member Json.getInt p "counting_mode" 1
  let invalidUtf8 ← member Json.getInt p "invalid_utf8" 0
  if countingMode < 0 ∨ countingMode > 1 ∨ invalidUtf8 < 0 ∨ invalidUtf8 > 1 then
    fail .corruptIndex "invalid persisted chunking enum"
  else return ⟨model,tokenizer,dimension,targetTokens,maxTokens,overlapTokens,reservedTokens,
    documentPrefix,queryPrefix,if countingMode = 0 then .exact else .conservativeUtf8Bytes,
    if invalidUtf8 = 0 then .replace else .reject⟩

def readChunkOptions (ck : Json) : Result ChunkOptions := do
  let defaults : ChunkOptions := {}
  let maxLines ← size ck "max_lines" defaults.maxLines
  let maxChars ← size ck "max_chars" defaults.maxChars
  let overlapLines ← size ck "overlap_lines" defaults.overlapLines
  let headingContext ← member Json.getBoolean ck "heading_context" defaults.headingContext
  let policy ← match ck.find? (latin "policy") with
    | some p => readPolicy p
    | none => .ok defaults.policy
  return ⟨maxLines,maxChars,overlapLines,headingContext,policy,none⟩

/-- The parameters of the ranking; a number that is not finite is none. -/
def readBm25 (m : Json) : Result (Option ℚ × Option ℚ) := do
  let defaults : Bm25Params := {}
  match m.find? (latin "bm25") with
  | none => return (some defaults.k1,some defaults.b)
  | some params =>
    let k1 ← member Json.getFloat params "k1" (some defaults.k1)
    let b ← member Json.getFloat params "b" (some defaults.b)
    return (k1,b)

/-- The limits that a configuration has to keep. -/
def ConfigWithin (c : PersistedConfig) : Prop :=
  c.embedBatch ≠ 0 ∧ c.embedBatch ≤ kMaxChunks ∧ c.hnswThreshold ≤ kMaxChunks ∧
  c.chunk.policy.dimension ≤ kMaxVectorDimension ∧ c.chunk.maxLines ≤ kMaxChunks ∧
  c.chunk.maxChars ≤ kMaxWalRecordBytes ∧ c.chunk.overlapLines ≤ c.chunk.maxLines ∧
  c.chunk.policy.overlapTokens ≤ c.chunk.policy.maxTokens ∧
  c.chunk.policy.reservedTokens ≤ c.chunk.policy.maxTokens ∧
  0 ≤ c.bm25.k1 ∧ 0 ≤ c.bm25.b ∧ c.bm25.b ≤ 1

instance : DecidablePred ConfigWithin := fun c => by unfold ConfigWithin; infer_instance

def readConfig (parser : JsonParser) (blob : Bytes) : Result PersistedConfig :=
  match parser blob with
  | none => fail .corruptIndex "malformed metadata JSON"
  | some m =>
    if m.isObject = false then fail .corruptIndex "malformed metadata JSON"
    else do
      let defaults : PersistedConfig := {}
      let hnswThreshold ← size m "hnsw_threshold" defaults.hnswThreshold
      let embedBatch ← size m "embed_batch" defaults.embedBatch
      let chunk ← match m.find? (latin "chunk") with
        | some ck => readChunkOptions ck
        | none => .ok defaults.chunk
      match ← readBm25 m with
      | (some k1,some b) =>
        let config := ⟨chunk,⟨k1,b⟩,hnswThreshold,embedBatch⟩
        if ConfigWithin config then return config
        else fail .corruptIndex "invalid persisted configuration"
      | _ => fail .corruptIndex "invalid persisted configuration"

def readDocuments : Decoder Error (List Document) := do
  let n ← number (corrupt "docs count") 4
  ensure (corrupt "docs count") (n ≤ kMaxDocuments)
  room (corrupt "docs count") n 20
  repeatFrom (readDocument (corrupt "doc") (corrupt "doc meta") (corrupt "doc meta kv") false)
    n 0 []

def readChunks (documents : ℕ) : Decoder Error (List Chunk) := do
  let n ← number (corrupt "chunk count") 4
  ensure (corrupt "chunk count") (n ≤ kMaxChunks)
  room (corrupt "chunk count") n 24
  repeatFrom (readChunk (corrupt "chunk") (corrupt "chunk") documents) n 0 []

/-- The vector of one chunk, behind the dimension and the vectors of those before it. -/
def readEmbedding (_ : ℕ) (seen : ℕ × List Vec) : Decoder Error (ℕ × List Vec) := do
  let dim ← number (corrupt "embedding count") 4
  if dim = 0 then pure (seen.1,seen.2 ++ [[]])
  else do
    ensure (corrupt "mixed embedding dimensions")
      (dim ≤ kMaxVectorDimension ∧ (seen.1 = 0 ∨ dim = seen.1))
    let v ← readVector (corrupt "embedding") (corrupt "non-finite embedding") dim
    ensure (corrupt "embedding is not normalized") (kMinNorm < dot v v ∧ |dot v v - 1| ≤ 1/100)
    pure (dim,seen.2 ++ [v])

/-- Without the section no chunk has a vector. -/
def readEmbeddings (chunks : ℕ) : Option Bytes → Result (List Vec)
  | none => .ok (List.replicate chunks [])
  | some blob => ((repeatFrom readEmbedding chunks 0 (0,[])).whole
      (corrupt "trailing embedding data") blob).map Prod.snd

def readTombstone (documents : ℕ) (_ : ℕ) (deleted : Finset ℕ) : Decoder Error (Finset ℕ) := do
  let id ← number (corrupt "tomb id") 4
  ensure (corrupt "tomb id") (id < documents)
  ensure (corrupt "duplicate tomb id") (id ∉ deleted)
  pure (insert id deleted)

def readTombstones (documents : ℕ) : Option Bytes → Result (Finset ℕ)
  | none => .ok ∅
  | some blob => Decoder.whole (do
      let n ← number (corrupt "tomb count") 4
      ensure (corrupt "tomb count") (n ≤ kMaxDocuments)
      room (corrupt "tomb count") n 4
      repeatFrom (readTombstone documents) n 0 ∅) (corrupt "trailing tomb data") blob

def hasFlag (c : Container) (flag : Word) : Bool := c.flags.val &&& flag.val ≠ 0

def readHnsw {γ : Type} (readGraph : Bytes → Result γ) : Option Bytes → Result (Option γ)
  | none => .ok none
  | some blob => (readGraph blob).map some

/-- The sections of a container, read and held against each other. -/
def readSections {γ : Type} (parser : JsonParser) (idf : ℕ → ℕ → ℚ)
    (readGraph : Bytes → Result γ) (c : Container) : Result (LoadedCorpus γ) :=
  match c.get .«meta»,c.get .docs,c.get .chunks,c.get .bm25 with
  | some metadata,some docs,some chunks,some bm25 =>
    if hasFlag c kHasEmbeddings ≠ (c.get .embed).isSome ∨
        hasFlag c kHasHnsw ≠ (c.get .hnsw).isSome then
      fail .corruptIndex "section flags are inconsistent"
    else do
      let config ← readConfig parser metadata
      let docs ← readDocuments.whole (corrupt "trailing document data") docs
      let chunks ← (readChunks docs.length).whole (corrupt "trailing chunk data") chunks
      let embeddings ← readEmbeddings chunks.length (c.get .embed)
      let bm25 ← Bm25Index.deserialize ⟨Tokenizer.tokenize {},idf⟩ bm25
      let hnsw ← readHnsw readGraph (c.get .hnsw)
      let deletedDocs ← readTombstones docs.length (c.get .tomb)
      return ⟨config,docs,chunks,embeddings,bm25,hnsw,deletedDocs⟩
  | _,_,_,_ => fail .corruptIndex "missing required section"

def load {γ : Type} (parser : JsonParser) (idf : ℕ → ℕ → ℚ) (readGraph : Bytes → Result γ)
    (order : OffsetSort) (file : Bytes) : Result (LoadedCorpus γ) := do
  let c ← Container.parse order file
  readSections parser idf readGraph c

end CorpusFile
end RagRuntime.Index
