import RagRuntime.Backend.EmbeddedBackend

/-! The reads of the embedded backend. Each of them is of one generation. -/
namespace RagRuntime.Backend
open RagRuntime.Base RagRuntime.Core RagRuntime.Dense RagRuntime.Lexical

structure LexicalRequest where
  query : Bytes
  filter : MetadataFilter
  k : ℕ

structure DenseRequest where
  query : Vec
  filter : MetadataFilter
  k : ℕ

namespace Generation

variable {β : Type}

/-- The hits of the lexical index in rank order, until `room` candidates are found. -/
def collectHits (g : Generation β) (filter : MetadataFilter) :
    ℕ → List Hit → Result CandidateList
  | _,[] => .ok []
  | room,hit::hits =>
    match g.ordinalKeys[hit.chunk]? with
    | none => fail .corruptIndex "lexical ordinal is out of range"
    | some key =>
      match g.chunks.find? key with
      | none => fail .corruptIndex "lexical chunk is missing"
      | some stored =>
        if filter.passes stored.metadata = false then collectHits g filter room hits
        else if room ≤ 1 then .ok [⟨key,hit.score,.bm25⟩]
        else do
          let rest ← collectHits g filter (room-1) hits
          return ⟨key,hit.score,.bm25⟩::rest

def lexicalCandidates (g : Generation β) (request : LexicalRequest) : Result CandidateList :=
  if request.k = 0 then .ok []
  else collectHits g request.filter request.k (g.lexical.search request.query g.ordinalKeys.length)

/-- The keys of the chunks that pass the filter and that a tier holds. -/
def allowedKeys (g : Generation β) (filter : MetadataFilter) (held : Bytes → Bool) : List Bytes :=
  (g.chunks.entries.filter fun e => filter.passes e.2.metadata ∧ held e.1).map Prod.fst

def denseCandidates [ApproximateIndex β] (g : Generation β) (request : DenseRequest) :
    Result CandidateList :=
  if request.k = 0 then .ok []
  else if g.chunks.entries = [] then .ok []
  else if g.dimension = 0 then fail .unavailable "embedded backend has no dense vectors"
  else g.dense.search request.query (g.allowedKeys request.filter g.dense.containsBase)
    (g.allowedKeys request.filter g.dense.containsDelta) request.k

/-- One chunk of a fetch, as the options ask for it. -/
def fetchOne (g : Generation β) (options : FetchOptions) (key : Bytes) (stored : StoredChunk) :
    Result StoredChunk :=
  let output := if options.includeText then stored else { stored with text := [], context := [] }
  if options.includeEmbedding = false then .ok output
  else
    match g.documents.find? stored.document with
    | none => fail .corruptIndex "chunk embedding source is missing"
    | some document =>
      match document.prepared.chunks[stored.ordinal]? with
      | none => fail .corruptIndex "chunk embedding source is missing"
      | some prepared =>
        if prepared.key ≠ key then
          fail .corruptIndex "chunk embedding source does not match catalog"
        else .ok { output with embedding := prepared.embedding }

/-- The chunks of the keys that are there, in the order asked for. -/
def fetch (g : Generation β) (options : FetchOptions) : List Bytes → Result (List StoredChunk)
  | [] => .ok []
  | key::keys =>
    match g.chunks.find? key with
    | none => fetch g options keys
    | some stored => do
      let output ← g.fetchOne options key stored
      let rest ← fetch g options keys
      return output::rest

end Generation
end RagRuntime.Backend
