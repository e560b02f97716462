import RagRuntime.Retrieval.Runtime

/-! The pipelines over a corpus that fold adjacent chunks, stage by stage. What the retrievers
find comes from outside. -/
namespace RagRuntime.Retrieval
open RagRuntime.Base RagRuntime.Base.Folding RagRuntime.Core RagRuntime.Backend RagRuntime.Index
  RagRuntime.Lexical RagRuntime.Dense

/-- The `float` nearest to 1e30. -/
def kFar : ℚ := 1000000015047466219876688855040

/-- A composable transformation, and its name in the trace. -/
structure Stage where
  name : String
  process : Context → Result Context

section coverage

/-- The postings of a term and the slots of the documents, both ascending, walked together. -/
def creditSlots : List Posting → List (ℕ × ℕ) → List ℕ → List ℕ
  | [],_,out => out
  | _,[],out => out
  | p::postings,(doc,slot)::slots,out =>
    if p.doc < doc then creditSlots postings ((doc,slot)::slots) out
    else if doc < p.doc then creditSlots (p::postings) slots out
    else creditSlots postings slots (out.modify slot (· + 1))
  termination_by postings slots => postings.length + slots.length

/-- How many of the different terms each document has. -/
def termCoverage (index : Bm25Index) (terms : List Bytes) (docs : List ℕ) : List ℕ :=
  let slots := docs.zipIdx.insertionSort fun a b => a.1 < b.1 ∨ a.1 = b.1 ∧ a.2 ≤ b.2
  terms.dedup.foldl (fun out term =>
    match index.postings.find? term with
    | none => out
    | some postings => creditSlots postings slots out) (docs.map fun _ => 0)

end coverage

section stages

variable (corpus : IndexedCorpus)

/-- `Corpus::passes`, where the pointer to the metadata is right. -/
def passes (filter : MetaFilter) (chunk : ℕ) : Bool :=
  match corpus.metaOf chunk,filter with
  | none,none => true
  | none,some _ => false
  | some _,none => true
  | some actual,some passing => passing actual

/-- The scores of the reranker; the order is still the one before. -/
def rescore (query : Bytes) (hits : List Hit) : List Hit :=
  let terms := (corpus.bm25.analysis.tokenize query).dedup
  if terms = [] then hits
  else
    let low := (hits.map Hit.score).foldl min kFar
    let range := (hits.map Hit.score).foldl max (-kFar) - low
    let covered := termCoverage corpus.bm25 terms (hits.map Hit.chunk)
    List.zipWith (fun hit covered =>
      let base := if range > kFlatRange then (hit.score - low)/range else 1
      { hit with score := kBaseShare*base + kCoverageShare*((covered : ℚ)/terms.length) }) hits
      covered

def relevance (hits : List Hit) (i : ℕ) : ℚ :=
  let low := (hits.map Hit.score).foldl min ((hits.head?.map Hit.score).getD 0)
  let high := (hits.map Hit.score).foldl max ((hits.head?.map Hit.score).getD 0)
  let span := if high - low > kFlatRange then high - low else 1
  (((hits[i]?).map Hit.score).getD 0 - low)/span

def embeddingOf (hit : Hit) : Vec := (corpus.embeddings[hit.chunk]?).getD []

/-- The different terms of a hit. -/
def bagOf (hit : Hit) : List Bytes :=
  match chunkOf corpus hit with
  | none => []
  | some chunk => (corpus.bm25.analysis.tokenize chunk.text).dedup

/-- The bags are there only if some hit has no embedding. -/
def hitSimilarity (hits : List Hit) (a b : ℕ) : ℚ :=
  let dense := hits.all fun hit => embeddingOf corpus hit ≠ []
  match hits[a]?,hits[b]? with
  | some x,some y =>
    if dense = true then
      if (embeddingOf corpus x).length = (embeddingOf corpus y).length then
        dot (embeddingOf corpus x) (embeddingOf corpus y)
      else 0
    else
      let small := bagOf corpus x
      let big := bagOf corpus y
      if small = [] ∨ big = [] then 0
      else
        let inter := (small.filter fun term => term ∈ big).length
        (inter : ℚ)/(small.length + big.length - inter : ℕ)
  | _,_ => 0

def hitScore (hits : List Hit) (lambda : ℚ) (order : List ℕ) (i : ℕ) : ℚ :=
  lambda*relevance hits i -
    (1-lambda)*(order.map (hitSimilarity corpus hits i)).foldl max 0

/-- The first hit with the best score, if one is above the floor that the search starts from. -/
def hitBest (score : ℕ → ℚ) (chosen : List ℕ) (n : ℕ) : Option ℕ :=
  ((List.range n).foldl (fun (best : Option ℕ × ℚ) i =>
    if i ∈ chosen then best
    else if score i > best.2 then (some i,score i)
    else best) (none,-kFar)).1

def hitNext (hits : List Hit) (lambda : ℚ) (order : List ℕ) : Option ℕ :=
  hitBest (hitScore corpus hits (max 0 (min 1 lambda)) order) order hits.length

/-- `rerank::mmr`; all hits are asked for with a zero. -/
def mmrHits (hits : List Hit) (lambda : ℚ) (k : ℕ) : List Hit :=
  pick hits (select (hitNext corpus hits lambda)
    (min (if k = 0 then hits.length else k) hits.length) [])

end stages

/-- The hits of the retrievers, and what they say of themselves. -/
def hybridRetrieveStage (retrieve : Context → Result (List Hit × List String)) : Stage :=
  ⟨"hybrid_retrieve",fun ctx => do
    let found ← retrieve ctx
    return { ctx with candidates := found.1, trace := ctx.trace ++ found.2 }⟩

def filterStage : Stage :=
  ⟨"filter",fun ctx => .ok <|
    match ctx.corpus with
    | none => ctx
    | some corpus =>
      if ctx.filter.isNone then ctx
      else { ctx with
        candidates := ctx.candidates.filter fun hit => passes corpus ctx.filter hit.chunk }⟩

def featureRerankStage : Stage :=
  ⟨"feature_rerank",fun ctx => .ok <|
    match ctx.corpus with
    | none => ctx
    | some corpus =>
      if ctx.candidates = [] then ctx
      else { ctx with
        candidates := (rescore corpus ctx.query ctx.candidates).insertionSort
          IndexedCorpus.hitOrder }⟩

def mmrStage (lambda : ℚ) : Stage :=
  ⟨"mmr",fun ctx => .ok <|
    match ctx.corpus with
    | none => ctx
    | some corpus =>
      if ctx.candidates = [] then ctx
      else
        let k := if ctx.k = 0 then ctx.candidates.length else ctx.k
        { ctx with candidates := mmrHits corpus ctx.candidates lambda k }⟩

def parentStitchStage (maxGap : ℕ) : Stage :=
  ⟨"parent_stitch",fun ctx => .ok (parentStitch maxGap ctx)⟩

def topKStage : Stage :=
  ⟨"top_k",fun ctx => .ok { ctx with candidates := ctx.candidates.take ctx.k }⟩

/-- The stages one after the other; the first that fails ends the run. -/
def runStages : List Stage → Context → Result Context
  | [],ctx => .ok ctx
  | stage::stages,ctx => do
    let next ← stage.process ctx
    runStages stages { next with trace := next.trace ++ ["→ " ++ stage.name] }

def runPipeline (stages : List Stage) (corpus : IndexedCorpus) (query : Bytes) (k : ℕ)
    (filter : MetaFilter) : Result (List Hit) := do
  let ctx ← runStages stages ⟨query,[],k,some corpus,filter,[]⟩
  return ctx.candidates

variable (retrieve : Context → Result (List Hit × List String))

def contextWith (maxGap : ℕ) : List Stage :=
  [hybridRetrieveStage retrieve,filterStage,featureRerankStage,parentStitchStage maxGap,topKStage]

def qualityContextWith (lambda : ℚ) (maxGap : ℕ) : List Stage :=
  [hybridRetrieveStage retrieve,filterStage,featureRerankStage,mmrStage lambda,
    parentStitchStage maxGap,topKStage]

end RagRuntime.Retrieval
