import Mathlib.Algebra.Field.Rat
import Mathlib.Algebra.Order.Ring.Unbundled.Rat
import Mathlib.Data.List.Sort
import RagRuntime.Core.Types

/-! Okapi BM25 over an inverted index, in rational arithmetic. -/
namespace RagRuntime.Lexical
open RagRuntime.Base RagRuntime.Core

/-- The tokenizer, and the smoothed idf of a term as a function of the number of documents and
of those with the term; the source takes a logarithm there. -/
structure Analysis where
  tokenize : Bytes → List Bytes
  idf : ℕ → ℕ → ℚ

structure Posting where
  doc : ℕ
  tf : ℕ
  deriving DecidableEq, Repr

/-- The defaults are the `float` nearest to 1.2, and 0.75. -/
structure Bm25Params where
  k1 : ℚ := 5033165/4194304
  b : ℚ := 3/4

structure Hit where
  chunk : ℕ
  score : ℚ
  deriving DecidableEq

/-- `weights` mirrors `postings`; both it and `denseLen` are derived by `finalize`. -/
structure Bm25Index where
  params : Bm25Params
  analysis : Analysis
  postings : OrdMap Bytes (List Posting)
  docLen : OrdMap ℕ ℕ
  totalLen : ℕ
  avgdl : ℚ
  denseLen : List ℕ
  weights : OrdMap Bytes (List ℚ)
  finalized : Bool

namespace Bm25Index

def empty (analysis : Analysis) : Bm25Index := ⟨{},analysis,∅,∅,0,0,[],∅,false⟩

/-- Postings stay sorted by document; a posting that is there is overwritten. -/
def insertPosting (p : Posting) : List Posting → List Posting
  | [] => [p]
  | q::rest =>
    if q.doc < p.doc then q::insertPosting p rest
    else if q.doc = p.doc then p::rest
    else p::q::rest

def countTerms (terms : List Bytes) : OrdMap Bytes ℕ :=
  terms.foldl (fun tf term => tf.insert term ((tf.find? term).getD 0 + 1)) ∅

def add (index : Bm25Index) (id : ℕ) (text : Bytes) : Bm25Index :=
  let terms := index.analysis.tokenize text
  if terms = [] then { index with docLen := index.docLen.insert id 0 }
  else
    { index with
      postings := (countTerms terms).entries.foldl (fun postings entry =>
        postings.insert entry.1
          (insertPosting ⟨id,entry.2⟩ ((postings.find? entry.1).getD []))) index.postings
      docLen := index.docLen.insert id terms.length
      totalLen := index.totalLen + terms.length
      finalized := false }

/-- A length of zero stands for the average one. -/
def lengthOr (avgdl : ℚ) (len : ℕ) : ℚ := if len = 0 then avgdl else len

def denseLengths (docLen : OrdMap ℕ ℕ) : List ℕ :=
  let maxDoc := docLen.keys.foldl max 0
  if docLen.size ≠ 0 ∧ maxDoc < docLen.size*2 then
    (List.range (maxDoc+1)).map fun d => (docLen.find? d).getD 0
  else []

/-- The average length that scores divide by. -/
def scoringLength (avgdl : ℚ) : ℚ := if avgdl > 0 then avgdl else 1

def saturation (params : Bm25Params) (avgdl dl : ℚ) (tf : ℕ) : ℚ × ℚ :=
  (tf * (params.k1+1),tf + params.k1 * (1 - params.b + params.b * dl * (1/avgdl)))

def weight (params : Bm25Params) (avgdl : ℚ) (denseLen : List ℕ) (docLen : OrdMap ℕ ℕ)
    (p : Posting) : ℚ :=
  let dl :=
    if p.doc < denseLen.length then lengthOr avgdl (denseLen.getD p.doc 0)
    else match docLen.find? p.doc with
      | some len => (len : ℚ)
      | none => avgdl
  let s := saturation params avgdl dl p.tf
  if s.2 > 0 then s.1/s.2 else 0

def finalize (index : Bm25Index) : Bm25Index :=
  let avgdl := if index.docLen.size = 0 then 0 else (index.totalLen : ℚ) / index.docLen.size
  let denseLen := denseLengths index.docLen
  let weights := index.postings.entries.foldl (fun weights entry => weights.insert entry.1
    (entry.2.map (weight index.params (scoringLength avgdl) denseLen index.docLen))) ∅
  { index with avgdl := avgdl, denseLen := denseLen, weights := weights, finalized := true }

section scores

-- The idf, and with it the scores, may lie in any field over the rational numbers.
variable {K : Type*} [DivisionRing K] [DecidableEq K]

/-- The accumulator of a search: the scores and the documents touched, in order. -/
structure Accumulator (K : Type*) where
  scores : ℕ → K
  touched : List ℕ

/-- A document is touched again while its score is still zero. -/
def Accumulator.credit (limit : ℕ) (acc : Accumulator K) (entry : ℕ × K) : Accumulator K :=
  if entry.1 ≥ limit then acc
  else ⟨fun d => if d = entry.1 then acc.scores d + entry.2 else acc.scores d,
    if acc.scores entry.1 = 0 then acc.touched ++ [entry.1] else acc.touched⟩

/-- The contributions of one query term with the precomputed weights. -/
def precomputedTerm (idf : ℕ → ℕ → K) (index : Bm25Index) (term : Bytes) : List (ℕ × K) :=
  match index.postings.find? term,index.weights.find? term with
  | some postings,some weights =>
    let idf := idf index.docLen.size postings.length
    List.zipWith (fun p w => (p.doc,idf * (w : ℚ))) postings weights
  | _,_ => []

/-- The contributions of one query term, computed for each posting. -/
def computedTerm (idf : ℕ → ℕ → K) (index : Bm25Index) (length : ℕ → ℚ) (term : Bytes) :
    List (ℕ × K) :=
  match index.postings.find? term with
  | some postings =>
    let idf := idf index.docLen.size postings.length
    postings.map fun p =>
      let s := saturation index.params (scoringLength index.avgdl) (length p.doc) p.tf
      (p.doc,idf * (s.1/s.2 : ℚ))
  | none => []

def accumulate (limit : ℕ) (contributions : List (ℕ × K)) : Accumulator K :=
  contributions.foldl (Accumulator.credit limit) ⟨fun _ => 0,[]⟩

def Accumulator.hits (acc : Accumulator K) : List (ℕ × K) :=
  acc.touched.map fun d => (d,acc.scores d)

/-- The fallback for ids that are not dense; the source iterates a hash map here. -/
def accumulateSparse (contributions : List (ℕ × K)) : OrdMap ℕ K :=
  contributions.foldl (fun acc entry =>
    acc.insert entry.1 ((acc.find? entry.1).getD 0 + entry.2)) ∅

/-- The length of a document in the array, where zero stands for the average. -/
def denseLength (index : Bm25Index) (d : ℕ) : ℚ :=
  lengthOr (scoringLength index.avgdl) (index.denseLen.getD d 0)

def sparseLength (index : Bm25Index) (d : ℕ) : ℚ :=
  match index.docLen.find? d with
  | some len => (len : ℚ)
  | none => scoringLength index.avgdl

/-- The three ways of a search. -/
inductive Path
  | precomputed
  | dense
  | sparse
  deriving DecidableEq, Repr

/-- The way that the ids and the weights allow. -/
def path (index : Bm25Index) : Path :=
  if index.denseLen ≠ [] ∧ (index.weights.values.any (· ≠ [])) then .precomputed
  else if index.denseLen ≠ [] then .dense
  else .sparse

def contributions (idf : ℕ → ℕ → K) (index : Bm25Index) (terms : List Bytes) :
    Path → List (ℕ × K)
  | .precomputed => terms.flatMap (index.precomputedTerm idf)
  | .dense => terms.flatMap (index.computedTerm idf index.denseLength)
  | .sparse => terms.flatMap (index.computedTerm idf index.sparseLength)

/-- The documents that a path reports with their scores. -/
def reported (idf : ℕ → ℕ → K) (index : Bm25Index) (terms : List Bytes) (path : Path) :
    List (ℕ × K) :=
  let contributions := index.contributions idf terms path
  match path with
  | .precomputed | .dense => (accumulate index.denseLen.length contributions).hits
  | .sparse => (accumulateSparse contributions).entries

/-- What a path has in its accumulator for a document. -/
def pathScore (idf : ℕ → ℕ → K) (index : Bm25Index) (terms : List Bytes) (path : Path) (d : ℕ) :
    K :=
  let contributions := index.contributions idf terms path
  match path with
  | .precomputed | .dense => (accumulate index.denseLen.length contributions).scores d
  | .sparse => ((accumulateSparse contributions).find? d).getD 0

/-- The contribution of one term to one document, whose posting is looked up by bisection. -/
def termScore (idf : ℕ → ℕ → K) (index : Bm25Index) (dl : ℚ) (d : ℕ) (term : Bytes) : K :=
  match index.postings.find? term with
  | none => 0
  | some postings =>
    match postings.dropWhile fun p => p.doc < d with
    | [] => 0
    | p::_ =>
      if p.doc ≠ d then 0
      else
        let avgdl := scoringLength index.avgdl
        let num : ℚ := p.tf * (index.params.k1+1)
        let den : ℚ := p.tf + index.params.k1 *
          (1 - index.params.b + index.params.b * dl / avgdl)
        idf index.docLen.size postings.length * (num/den : ℚ)

def scoreDoc (idf : ℕ → ℕ → K) (index : Bm25Index) (terms : List Bytes) (d : ℕ) : K :=
  match index.docLen.find? d with
  | none => 0
  | some len => (terms.map (index.termScore idf len d)).sum

/-- The best of the reported documents. -/
def ranked [LE K] [DecidableLE K] (idf : ℕ → ℕ → K) (index : Bm25Index) (query : Bytes) (k : ℕ) :
    List (ℕ × K) :=
  let terms := index.analysis.tokenize query
  if index.docLen.size = 0 ∨ terms = [] then []
  else ((index.reported idf terms index.path).insertionSort fun a b => b.2 ≤ a.2).take k

end scores

def search (index : Bm25Index) (query : Bytes) (k : ℕ) : List Hit :=
  (index.ranked index.analysis.idf query k).map fun hit => ⟨hit.1,hit.2⟩

end Bm25Index
end RagRuntime.Lexical
