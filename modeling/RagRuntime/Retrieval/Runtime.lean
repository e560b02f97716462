import RagRuntime.Backend.Candidates
import RagRuntime.Base.Selection
import RagRuntime.Retrieval.Stitch
import RagRuntime.Text.Tokenizer

/-! The search of the runtime: fusion, reranking, diversity and folding over the candidates of a
backend. -/
namespace RagRuntime.Retrieval
open RagRuntime.Base RagRuntime.Base.Folding RagRuntime.Core RagRuntime.Backend RagRuntime.Dense
  RagRuntime.Text

inductive SearchMode where
  | lexical
  | dense
  | hybrid
  deriving DecidableEq, Repr

structure SearchRequest where
  query : Bytes
  embedding : Option Vec
  mode : SearchMode
  topK : ℕ
  candidatePool : ℕ
  filter : MetadataFilter
  profile : Bytes

structure RuntimeConfig where
  bm25Weight : ℚ := 1
  denseWeight : ℚ := 1
  mmrLambda : ℚ := 1/2
  rrfRankConstant : ℕ := 60
  adjacentLineGap : ℕ := 1

structure CandidateBatch where
  lexical : CandidateList
  dense : CandidateList

/-- What a search asks of a backend. -/
structure CandidateBackend where
  lexicalCandidates : LexicalRequest → Result CandidateList
  denseCandidates : DenseRequest → Result CandidateList
  hybridCandidates : LexicalRequest → DenseRequest → Result CandidateBatch
  fetch : List Bytes → FetchOptions → Result (List StoredChunk)

structure SearchResult where
  chunkKey : Bytes
  documentKey : Bytes
  revision : ℕ
  score : ℚ
  text : Bytes
  context : Bytes
  uri : Bytes
  title : Bytes
  metadata : Metadata
  startLine : ℕ
  endLine : ℕ
  deriving DecidableEq

/-- The `float`s nearest to 0.6, 0.4 and 1.0e-9. -/
def kBaseShare : ℚ := 5033165/8388608
def kCoverageShare : ℚ := 13421773/33554432
def kFlatRange : ℚ := 9007199/9007199254740992

def quality : Bytes := latin "quality"

section stages

def creditRanks (config : RuntimeConfig) (weight : ℚ) (scores : OrdMap Bytes ℚ)
    (candidates : CandidateList) : OrdMap Bytes ℚ :=
  candidates.zipIdx.foldl (fun scores entry => scores.insert entry.1.chunk
    ((scores.find? entry.1.chunk).getD 0 + weight/(config.rrfRankConstant+entry.2+1))) scores

def rrf (lexical dense : CandidateList) (config : RuntimeConfig) (limit : ℕ) : CandidateList :=
  let scores := creditRanks config config.denseWeight
    (creditRanks config config.bm25Weight ∅ lexical) dense
  ((scores.entries.map fun e => ⟨e.1,e.2,.cosine⟩).insertionSort CandidateOrder).take limit

variable (chunks : OrdMap Bytes StoredChunk)

def lowScore (candidates : CandidateList) : ℚ :=
  (candidates.map Candidate.rawScore).foldl min ((candidates.head?.map Candidate.rawScore).getD 0)

def highScore (candidates : CandidateList) : ℚ :=
  (candidates.map Candidate.rawScore).foldl max ((candidates.head?.map Candidate.rawScore).getD 0)

/-- The score of the retrieval, spread over the candidates, and the share of the terms that the
chunk has. -/
def rerankOne (terms : List Bytes) (low range : ℚ) (candidate : Candidate) : Candidate :=
  match chunks.find? candidate.chunk with
  | none => candidate
  | some stored =>
    let present := Tokenizer.tokenize {} (stored.context ++ ascii ['\n'] ++ stored.text)
    let covered := (terms.filter fun term => term ∈ present).length
    let base := if range > kFlatRange then (candidate.rawScore - low)/range else 1
    { candidate with
      rawScore := kBaseShare*base + kCoverageShare*((covered : ℚ)/terms.length) }

def featureRerank (query : Bytes) (candidates : CandidateList) : CandidateList :=
  let terms := (Tokenizer.tokenize {} query).dedup
  if terms = [] ∨ candidates = [] then candidates
  else
    let low := lowScore candidates
    (candidates.map (rerankOne chunks terms low (highScore candidates - low))).insertionSort
      CandidateOrder

/-- The share of common terms, if there are no embeddings to compare. -/
def similarity (a b : StoredChunk) : ℚ :=
  if a.embedding ≠ [] ∧ a.embedding.length = b.embedding.length then dot a.embedding b.embedding
  else
    let x := (Tokenizer.tokenize {} a.text).dedup
    let y := (Tokenizer.tokenize {} b.text).dedup
    let intersection := (x.filter fun term => term ∈ y).length
    let unionSize := x.length + y.length - intersection
    if unionSize = 0 then 0 else (intersection : ℚ)/unionSize

def mmrScore (candidates : CandidateList) (lambda : ℚ) (selected : List ℕ) (index : ℕ) : ℚ :=
  let low := lowScore candidates
  let span := highScore candidates - low
  let range := if span > kFlatRange then span else 1
  let at' := fun i => (candidates[i]?).bind (placeOf chunks)
  let redundancy := (selected.map fun chosen =>
    match at' index,at' chosen with
    | some a,some b => similarity a b
    | _,_ => 0).foldl max 0
  let relevance := (((candidates[index]?).map Candidate.rawScore).getD 0 - low)/range
  lambda*relevance - (1-lambda)*redundancy

/-- The first of the unused candidates with the best score. -/
def mmrBest (score : ℕ → ℚ) (used : List ℕ) (n : ℕ) : Option ℕ :=
  (List.range n).foldl (fun best index =>
    if index ∈ used then best
    else match best with
      | none => some index
      | some b => if score index > score b then some index else best) none

def mmrNext (candidates : CandidateList) (lambda : ℚ) (selected : List ℕ) : Option ℕ :=
  mmrBest (mmrScore chunks candidates (max 0 (min 1 lambda)) selected) selected candidates.length

/-- The first `k` choices. -/
def mmrRanked (candidates : CandidateList) (lambda : ℚ) (k : ℕ) : CandidateList :=
  pick candidates (select (mmrNext chunks candidates lambda) (min k candidates.length) [])

/-- The second choice looks up every candidate, and throws at one that is not there. -/
def mmr (candidates : CandidateList) (k : ℕ) (lambda : ℚ) : Option CandidateList :=
  if 2 ≤ min k candidates.length ∧
      ¬(candidates.all fun candidate => (placeOf chunks candidate).isSome) = true then none
  else some (mmrRanked chunks candidates lambda k)

end stages

section search

variable (backend : CandidateBackend) (request : SearchRequest) (config : RuntimeConfig)

/-- The candidates of the retrievers that the mode asks for. -/
def fusedCandidates : Result CandidateList :=
  if request.query = [] ∨ request.topK = 0 then
    fail .invalidArgument "query and non-zero top-k are required"
  else
    let pool := max request.topK request.candidatePool
    let lexical : LexicalRequest := ⟨request.query,request.filter,pool⟩
    match request.mode,request.embedding with
    | .lexical,_ => backend.lexicalCandidates lexical
    | .dense,none => fail .invalidArgument "dense retrieval requires a query embedding"
    | .dense,some v => backend.denseCandidates ⟨v,request.filter,pool⟩
    | .hybrid,none => fail .invalidArgument "dense retrieval requires a query embedding"
    | .hybrid,some v => do
      let batch ← backend.hybridCandidates lexical ⟨v,request.filter,pool⟩
      return rrf batch.lexical batch.dense config pool

/-- The candidates with their chunks. -/
def resolvedCandidates : Result (CandidateList × OrdMap Bytes StoredChunk) := do
  let candidates ← fusedCandidates backend request config
  let fetched ← backend.fetch (candidates.map Candidate.chunk)
    ⟨true,decide (request.profile = quality)⟩
  let chunks := fetched.foldl (fun chunks stored => chunks.emplace stored.key stored) ∅
  if chunks.size ≠ candidates.length then
    fail .corruptIndex "backend did not resolve every candidate"
  else return (candidates,chunks)

/-- The order of the results, in the quality profile with diversity and folding. -/
def rankedCandidates (chunks : OrdMap Bytes StoredChunk) (candidates : CandidateList) :
    Option CandidateList :=
  let reranked := featureRerank chunks request.query candidates
  let ranked :=
    if request.profile = quality then
      (mmr chunks reranked request.topK config.mmrLambda).bind
        (stitch chunks config.adjacentLineGap)
    else some reranked
  ranked.map (List.take request.topK)

def resultOf (candidate : Candidate) (stored : StoredChunk) : SearchResult :=
  ⟨stored.key,stored.document,stored.revision,candidate.rawScore,stored.text,stored.context,
    stored.document,stored.title,stored.metadata,stored.startLine,stored.endLine⟩

/-- There is no answer if a candidate is looked up that was not resolved. -/
def search : Option (Result (List SearchResult)) :=
  match resolvedCandidates backend request config with
  | .error e => some (.error e)
  | .ok (candidates,chunks) => do
    let ranked ← rankedCandidates request config chunks candidates
    let results ← ranked.mapM fun candidate =>
      (placeOf chunks candidate).map (resultOf candidate)
    return .ok results

end search

end RagRuntime.Retrieval
