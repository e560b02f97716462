import Mathlib.Algebra.Order.Ring.Unbundled.Rat
import Mathlib.Data.Finset.Basic
import RagRuntime.Core.Document

/-! Backend-neutral records and the candidate retrieval contract. Embeddings are vectors of
rationals. -/
namespace RagRuntime.Backend
open RagRuntime.Base RagRuntime.Core

abbrev Vec := List ℚ

/-- Keys are combined with AND and the values of a key with OR. -/
structure MetadataFilter where
  required : OrdMap Bytes (Finset Bytes)
  supplied : Bool
  deriving DecidableEq

namespace MetadataFilter

def none : MetadataFilter := ⟨∅,false⟩

def keyMatches (actual : Metadata) (entry : Bytes × Finset Bytes) : Bool :=
  match actual.find? entry.1 with
  | .none => false
  | .some value => value ∈ entry.2

def passes (filter : MetadataFilter) (actual : Metadata) : Bool :=
  if filter.supplied = false then true
  else if filter.required.entries = [] then false
  else filter.required.entries.all (keyMatches actual)

end MetadataFilter

structure PreparedChunk where
  key : Bytes
  ordinal : ℕ
  text : Bytes
  indexedText : Bytes
  context : Bytes
  startLine : ℕ
  endLine : ℕ
  embedding : Vec
  deriving DecidableEq

structure PreparedDocument where
  key : Bytes
  title : Bytes
  content : Bytes
  metadata : Metadata
  contentHash : Bytes
  chunkingFingerprint : Bytes
  embeddingIdentity : Bytes
  chunks : List PreparedChunk
  deriving DecidableEq

inductive ScoreType where
  | bm25
  | cosine
  deriving DecidableEq, Repr

structure Candidate where
  chunk : Bytes
  rawScore : ℚ
  scoreType : ScoreType
  deriving DecidableEq

abbrev CandidateList := List Candidate

structure StoredChunk where
  key : Bytes
  document : Bytes
  revision : ℕ
  ordinal : ℕ
  title : Bytes
  text : Bytes
  context : Bytes
  metadata : Metadata
  startLine : ℕ
  endLine : ℕ
  embedding : Vec
  deriving DecidableEq

structure FetchOptions where
  includeText : Bool := true
  includeEmbedding : Bool := false

end RagRuntime.Backend
