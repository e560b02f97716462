import Mathlib.Data.Finset.Card
import RagRuntime.Dense.ExactIndex
import RagRuntime.Index.Hnsw
import RagRuntime.Index.Publication

/-! The corpus with what its searches read: embeddings, the inverted index and the graph. -/
namespace RagRuntime.Index
open RagRuntime.Base RagRuntime.Core RagRuntime.Text RagRuntime.Store RagRuntime.Backend
  RagRuntime.Lexical RagRuntime.Dense

/-- A predicate over a document's metadata; a search may have none. -/
abbrev MetaFilter := Option (Metadata → Bool)

/-- Every chunk borrows the metadata of its document by a pointer. They are right, or known to be
stale, or the documents have moved and nothing says so. -/
inductive MetaLinks where
  | linked
  | stale
  | dangling
  deriving DecidableEq

/-- What is known to be stale is linked again. -/
def MetaLinks.ensured : MetaLinks → MetaLinks
  | .stale => .linked
  | links => links

/-- `embeddings` goes with the chunks and is empty where there is none yet; of the embedder only the
dimension is kept, its answers come from outside. -/
structure IndexedCorpus where
  core : Corpus
  links : MetaLinks
  embeddings : List Vec
  bm25 : Bm25Index
  hnsw : Option HnswIndex
  embedder : Option ℕ
  hnswConfig : HnswConfig
  hnswThreshold : ℕ
  embedBatch : ℕ

/-- The answers of the embedder to the batches of a build. Once a batch has failed, others may not
be sent. -/
structure EmbedRun where
  answer : ℕ → Result (List Vec)
  sent : ℕ → Bool

/-- The sections of a saved corpus. -/
structure CorpusImage where
  core : Snapshot
  embeddings : List Vec
  bm25 : Bm25Index
  hnsw : Option HnswIndex
  hnswThreshold : ℕ
  embedBatch : ℕ

/-- The smallest positive normal double. -/
def kMinNorm : ℚ := 1/2^1022

namespace IndexedCorpus

def start (analysis : Analysis) (chunkOptions : ChunkOptions) (bm25 : Bm25Params)
    (hnswConfig : HnswConfig) (hnswThreshold embedBatch : ℕ) : IndexedCorpus :=
  ⟨⟨chunkOptions,[],[],∅,Wal.empty,false,0⟩,.linked,[],
    { Bm25Index.empty analysis with params := bm25 },none,
    none,hnswConfig,hnswThreshold,embedBatch⟩

def ensureLinked (c : IndexedCorpus) : IndexedCorpus := { c with links := c.links.ensured }

/-- The chunks that `next` has gained are indexed and wait for their embeddings. -/
def extend (c : IndexedCorpus) (next : Corpus) : IndexedCorpus :=
  let added := next.chunks.drop c.core.chunks.length
  { c with
    core := next
    embeddings := c.embeddings ++ added.map fun _ => []
    bm25 := added.foldl (fun index ch => index.add ch.id (indexedText ch.context ch.text)) c.bm25 }

/-- The chunk limit refuses the document when it has been pushed to the others. -/
def Withdraws (c : IndexedCorpus) (uri text : Bytes) (metadata : Metadata) (title : Bytes)
    (outcome : WriteOutcome) : Prop :=
  (c.core.checkLimits uri text metadata title).isOk = true ∧
    (c.core.logRecord (Corpus.addRecord uri text metadata title) outcome).1.isOk = true ∧
      c.core.chunkLimitExceeded text = true

instance (c : IndexedCorpus) (uri text : Bytes) (metadata : Metadata) (title : Bytes)
    (outcome : WriteOutcome) : Decidable (c.Withdraws uri text metadata title outcome) := by
  unfold Withdraws
  infer_instance

/-- The pointers behind an addition. `moves` says that there is no room for one more document where
the others are. -/
def linksAfter (c : IndexedCorpus) (uri text : Bytes) (metadata : Metadata) (title : Bytes)
    (outcome : WriteOutcome) (moves : Bool) : MetaLinks :=
  if (c.core.addDocumentLocked uri text metadata title outcome).1.isOk = true then .stale
  else if c.Withdraws uri text metadata title outcome ∧ moves = true ∧ c.links = .linked then
    .dangling
  else c.links

def addDocumentLocked (c : IndexedCorpus) (uri text : Bytes) (metadata : Metadata) (title : Bytes)
    (outcome : WriteOutcome) (moves : Bool) : Result ℕ × IndexedCorpus :=
  let called := c.core.addDocumentLocked uri text metadata title outcome
  (called.1,
    { c.extend called.2 with links := c.linksAfter uri text metadata title outcome moves })

/-- The graph marks the chunks of a document as removed. -/
def unlink (chunks : List Chunk) (id : ℕ) (g : HnswIndex) : HnswIndex :=
  (chunks.filter fun ch => ch.doc = id).foldl (fun g ch => g.remove ch.id) g

def removeDocumentLocked (c : IndexedCorpus) (id : UInt32) (outcome : WriteOutcome) :
    Result Unit × IndexedCorpus :=
  let c := c.ensureLinked
  match c.core.removeDocumentLocked id outcome with
  | (.error e,core) => (.error e,{ c with core := core })
  | (.ok (),core) =>
    (.ok (),{ c with core := core, hnsw := c.hnsw.map (unlink core.chunks id.toNat) })

def removeExisting (c : IndexedCorpus) (uri : Bytes) (outcome : WriteOutcome) : IndexedCorpus :=
  match c.core.findByUriLocked uri with
  | none => c
  | some id => (c.removeDocumentLocked (UInt32.ofNat id) outcome).2

def upsertDocument (c : IndexedCorpus) (uri text : Bytes) (metadata : Metadata) (title : Bytes)
    (removal addition : WriteOutcome) (moves : Bool) : Result ℕ × IndexedCorpus :=
  (c.removeExisting uri removal).addDocumentLocked uri text metadata title addition moves

/-- The checks on one vector of the embedder, and its normalisation. -/
def checkVector (similarity : Similarity) (dimension : ℕ) (v : Vec) : Result Vec :=
  if dimension = 0 ∨ dimension > kMaxVectorDimension ∨ v.length ≠ dimension then
    fail .dimensionMismatch "embedding response dimension mismatch"
  else if dot v v ≤ kMinNorm then
    fail .invalidArgument "embedding must have a finite non-zero norm"
  else .ok (similarity.normalize v)

def embedBatchOf (similarity : Similarity) (dimension : ℕ) (batch : List ℕ)
    (answer : Result (List Vec)) : Result (List Vec) := do
  let vecs ← answer
  if vecs.length ≠ batch.length then
    fail .dimensionMismatch "embedding response count mismatch"
  else vecs.mapM (checkVector similarity dimension)

/-- The positions of the chunks without an embedding, batch by batch. -/
def batches (c : IndexedCorpus) : List (List ℕ) :=
  ((List.range c.embeddings.length).filter fun i => c.embeddings[i]? = some []).toChunks
    (if c.embedBatch = 0 then 1 else c.embedBatch)

/-- The vectors of a batch go to its positions. -/
def storeVectors (embeddings : List Vec) (batch : List ℕ) (vecs : List Vec) : List Vec :=
  (batch.zip vecs).foldl (fun embeddings entry => embeddings.set entry.1 entry.2) embeddings

/-- Each batch is stored as a whole or not at all. The error of the first failing batch stands for
whichever fails first. -/
def embedPending (similarity : Similarity) (c : IndexedCorpus) (run : EmbedRun) :
    Result Unit × IndexedCorpus :=
  match c.embedder with
  | none => (.ok (),c)
  | some dimension =>
    let results := c.batches.zipIdx.map fun entry =>
      (entry,embedBatchOf similarity dimension entry.1 (run.answer entry.2))
    let error := results.findSome? fun r => match r.2 with
      | .error e => some e
      | .ok _ => none
    let stored := results.foldl (fun embeddings r => match r.2 with
      | .error _ => embeddings
      | .ok vecs =>
        if error = none ∨ run.sent r.1.2 = true then storeVectors embeddings r.1.1 vecs
        else embeddings) c.embeddings
    (match error with
      | some e => .error e
      | none => .ok (),{ c with embeddings := stored })

/-- The embedded chunks, as the graph is built from them. -/
def graphRows (c : IndexedCorpus) : List (ℕ × Vec) :=
  ((c.core.chunks.zip c.embeddings).filter fun entry => entry.2 ≠ []).map
    fun entry => (entry.1.id,entry.2)

/-- A corpus of this size gets a graph. -/
def withGraph (similarity : Similarity) (c : IndexedCorpus) (wiring : Wiring) : IndexedCorpus :=
  if c.core.chunks.length ≥ c.hnswThreshold then
    { c with hnsw :=
               some ((HnswIndex.empty c.hnswConfig).buildBatch similarity c.graphRows wiring) }
  else c

def buildLocked (similarity : Similarity) (c : IndexedCorpus) (run : EmbedRun) (wiring : Wiring) :
    Result Unit × IndexedCorpus :=
  let c := { c.ensureLinked with bm25 := c.bm25.finalize }
  match c.embedder with
  | none => (.ok (),{ c with core.epoch := c.core.epoch+1 })
  | some _ =>
    match c.embedPending similarity run with
    | (.error e,c) => (.error e,c)
    | (.ok (),c) =>
      let c := c.withGraph similarity wiring
      (.ok (),{ c with core.epoch := c.core.epoch+1 })

/-- A chunk that is there belongs to a live document. -/
def live (c : IndexedCorpus) (chunk : ℕ) : Bool :=
  (c.core.chunks[chunk]?).all fun ch => ch.doc ∉ c.core.deletedDocs

/-- The metadata of the document that a chunk is of, and what its pointer leads to where that is
right. -/
def metaOf (c : IndexedCorpus) (chunk : ℕ) : Option Metadata :=
  (c.core.chunks[chunk]?).bind fun ch => (c.core.docs[ch.doc]?).map Document.metadata

/-- To ask a filter about these chunks is to follow a pointer to where the documents were. -/
def ReadsFreed (c : IndexedCorpus) (chunks : List ℕ) : Prop :=
  c.links = .dangling ∧ ∃ chunk ∈ chunks, chunk < c.core.chunks.length

instance (c : IndexedCorpus) : DecidablePred c.ReadsFreed := fun chunks => by
  unfold ReadsFreed
  infer_instance

/-- A chunk without metadata passes where there is no filter. None where freed memory is read. -/
def passes (c : IndexedCorpus) (filter : MetaFilter) (chunk : ℕ) : Option Bool :=
  match filter with
  | none => some true
  | some filter => if c.ReadsFreed [chunk] then none else some ((c.metaOf chunk).any filter)

/-- The index as a search without a build reads it. -/
def lexicalIndex (c : IndexedCorpus) : Bm25Index :=
  if c.bm25.finalized then c.bm25 else c.bm25.finalize

/-- How many hits are asked for where some are to be dropped; the sum is a `size_t`. -/
def overfetch (c : IndexedCorpus) (k : ℕ) : ℕ := (k + c.core.deletedDocs.card*2 + k) % 2^64

section lexical
-- What the index finds for a number of hits, and the chunk of a hit.
variable {α : Type*} (chunk : α → ℕ) (find : ℕ → List α)

/-- The hits of live chunks; the loop stops only behind the hit that it has taken. -/
def liveHits (c : IndexedCorpus) (k : ℕ) : List α :=
  if c.core.deletedDocs = ∅ then find k
  else ((find (c.overfetch k)).filter fun hit => c.live (chunk hit)).take (max k 1)

/-- With a filter all lexical matches are ranked first, and it is asked about one after the other.
None where freed memory is read. -/
def passingHits (c : IndexedCorpus) (k : ℕ) (filter : MetaFilter) : Option (List α) :=
  match filter with
  | none => some (c.liveHits chunk find k)
  | some filter =>
    let ranked := c.liveHits chunk find c.bm25.docLen.size
    let passing := ranked.filter fun hit => (c.metaOf (chunk hit)).any filter
    if c.ReadsFreed (ranked.map chunk) then none
    else some (if k = 0 then passing else passing.take k)

end lexical

def lexicalSearch (c : IndexedCorpus) (query : Bytes) (k : ℕ) (filter : MetaFilter) :
    Option (List Hit) :=
  c.passingHits Hit.chunk (c.lexicalIndex.search query) k filter

def hitOrder (a b : Hit) : Prop := b.score < a.score ∨ a.score = b.score ∧ a.chunk ≤ b.chunk

instance : DecidableRel hitOrder := fun a b => by unfold hitOrder; infer_instance

/-- The scan over the embedded chunks of live documents. -/
def scanHits (c : IndexedCorpus) (query : Vec) (allow : ℕ → Bool) : List Hit :=
  ((c.core.chunks.zip c.embeddings).filter fun entry =>
    entry.2 ≠ [] ∧ entry.1.doc ∉ c.core.deletedDocs ∧ allow entry.1.id = true).map
      fun entry => ⟨entry.1.id,dot entry.2 query⟩

/-- What is allowed of a chunk by the filter, if there is one. -/
def allow (c : IndexedCorpus) (filter : MetaFilter) (id : ℕ) : Bool :=
  filter.all fun filter => (c.metaOf id).any filter

/-- The chunks that a search of the graph asks a filter about; of removed ones too. -/
def graphAsks (similarity : Similarity) (g : HnswIndex) (query : Vec) (k : ℕ) : List ℕ :=
  if g.nodes = [] ∨ g.dim = 0 then []
  else ((g.widened k).elim [] fun ef =>
    g.candidates similarity (g.prepareQuery similarity query) ef).filterMap fun node =>
      (g.nodes[node]?).map HnswNode.id

/-- The search of a graph, none where freed memory is read or the beam has no width. -/
def graphHits (similarity : Similarity) (c : IndexedCorpus) (g : HnswIndex) (query : Vec) (k : ℕ)
    (filter : MetaFilter) : Option (List Hit) :=
  if filter.isNone then some (g.search similarity query k)
  else if c.ReadsFreed (graphAsks similarity g query k) then none
  else g.searchFiltered similarity query k (c.allow filter)

/-- The rows that a scan asks a filter about. -/
def scanAsks (c : IndexedCorpus) : List ℕ :=
  ((c.core.chunks.zip c.embeddings).filter fun entry =>
    entry.2 ≠ [] ∧ entry.1.doc ∉ c.core.deletedDocs).map fun entry => entry.1.id

/-- `answer` is what the embedder makes of the query. None where the source has no defined
result. -/
def denseSearch (similarity : Similarity) (c : IndexedCorpus) (answer : Result Vec) (k : ℕ)
    (filter : MetaFilter) : Option (Result (List Hit)) :=
  if c.embedder = none then some (fail .unavailable "no embedder")
  else
    match answer with
    | .error e => some (.error e)
    | .ok query =>
      let query := similarity.normalize query
      match c.hnsw with
      | some g => (c.graphHits similarity g query k filter).map .ok
      | none =>
        if filter.isSome ∧ c.ReadsFreed c.scanAsks then none
        else some (.ok (((c.scanHits query (c.allow filter)).insertionSort hitOrder).take k))

def imageLocked (c : IndexedCorpus) : CorpusImage :=
  ⟨c.core.snapshotLocked,c.embeddings,c.bm25,c.hnsw,c.hnswThreshold,c.embedBatch⟩

/-- What `load` makes of a file whose sections it accepts. The graph configuration for later builds,
the token measure and the embedder are not in the file, and the tokenizer is the default one. -/
def ofImage (analysis : Analysis) (p : PathState) (image : CorpusImage) : IndexedCorpus where
  core :=
    { Corpus.loaded p image.core with
      chunkOptions := { image.core.chunkOptions with measureTokens := none } }
  links := .linked
  embeddings := image.embeddings
  bm25 := { image.bm25 with analysis := analysis }.finalize
  hnsw := image.hnsw.map HnswIndex.reloaded
  embedder := none
  hnswConfig := {}
  hnswThreshold := image.hnswThreshold
  embedBatch := image.embedBatch

end IndexedCorpus
end RagRuntime.Index
