import RagRuntime.Base.PartialSort
import RagRuntime.Lexical.Bm25Upkeep
import RagRuntime.Lexical.FloatScores

/-! The order in which a search of a lexical index returns its hits, which `std::partial_sort` cuts
and sorts by their scores alone. -/
namespace RagRuntime.Lexical
open RagRuntime.Base RagRuntime.Core

namespace Bm25Index

/-- The hits of a path before they are sorted, without rounding. -/
def scored {K : Type*} [Field K] [DecidableEq K] (idf : ℕ → ℕ → K) (index : Bm25Index)
    (query : Bytes) (path : Path) : List (ℕ × K) :=
  let terms := index.analysis.tokenize query
  if index.docLen.size = 0 ∨ terms = [] then [] else index.reported idf terms path

end Bm25Index

namespace Arithmetic
open Bm25Index

section order

variable {K : Type*} [LinearOrder K] [Zero K]

/-- A search on one of the paths. -/
def topOn (sort : PartialSort (Prod.snd : ℕ × K → K)) (A : Arithmetic K) (index : Bm25Index)
    (query : Bytes) (path : Path) (k : ℕ) : List (ℕ × K) := sort.top k (A.scored index query path)

/-- A search for fewer hits has the first hits of a search for more, and hits with one score come in
the order of their ids. -/
def OrderedHits (A : Arithmetic K) (index : Bm25Index) (query : Bytes) (path : Path) : Prop :=
  ∀ sort : PartialSort (Prod.snd : ℕ × K → K), ∀ k k', k ≤ k' →
    topOn sort A index query path k = (topOn sort A index query path k').take k ∧
      (topOn sort A index query path k').Pairwise fun a b => a.2 = b.2 → a.1 < b.1

/-- No two documents with a term of the query have one score. -/
def DistinctScores (A : Arithmetic K) (index : Bm25Index) (docs : List (ℕ × Bytes))
    (terms : List Bytes) : Prop :=
  ∀ d d', Matches index.analysis.tokenize docs terms d →
    Matches index.analysis.tokenize docs terms d' →
      A.scoreDoc index terms d = A.scoreDoc index terms d' → d = d'

/-- In an index that is up to date the hits are the documents that match, each once. -/
theorem Settled.distinct_iff {A : Arithmetic K} {index : Bm25Index} {docs : List (ℕ × Bytes)}
    (h : A.Settled index docs) (hgains : A.Gains index) {path : Path}
    (hpath : path.Available index) (query : Bytes) :
    PartialSort.Distinct Prod.snd (A.scored index query path) ↔
      A.DistinctScores index docs (index.analysis.tokenize query) := by
  obtain ⟨hnodup,hmem⟩ := h.scored_spec hgains hpath query
  constructor
  · intro hdistinct d d' hd hd' heq
    have hin := (hmem d _).mpr ⟨hd,rfl⟩
    have hin' := (hmem d' _).mpr ⟨hd',rfl⟩
    exact congrArg Prod.fst (hdistinct.eq_of_score hin hin' heq)
  · intro hinj
    apply List.Pairwise.imp_of_mem _ (List.pairwise_map.mp hnodup)
    intro a b ha hb hne heq
    obtain ⟨hd,hs⟩ := (hmem a.1 a.2).mp ha
    obtain ⟨hd',hs'⟩ := (hmem b.1 b.2).mp hb
    exact hne (hinj _ _ hd hd' (by rw [← hs,← hs',heq]))

end order

section exact
variable {K : Type*} [Field K] [LinearOrder K] (idf : ℕ → ℕ → K) (index : Bm25Index)

lemma exact_scored (query : Bytes) (path : Path) :
    (exact idf).scored index query path = index.scored idf query path := by
  unfold scored Bm25Index.scored
  dsimp only
  rw [exact_reported]

/-- The search whose sort keeps ties as they are, without rounding. -/
theorem ranked_eq_topOn (query : Bytes) (k : ℕ) : index.ranked idf query k =
    topOn (PartialSort.stable Prod.snd) (exact idf) index query index.path k := by
  rw [topOn,PartialSort.top_stable,exact_scored]
  unfold ranked Bm25Index.scored
  dsimp only
  split_ifs
  · rw [List.insertionSort_nil,List.take_nil]
  · rfl

end exact

/-- The comparison of scores alone orders the hits of a search just when no two of them have one
score; in an index that is up to date, when no two documents that match have one. -/
theorem orderedHits_iff {K : Type*} [LinearOrder K] [Zero K] (A : Arithmetic K) (index : Bm25Index)
    (query : Bytes) (path : Path) :
    (A.OrderedHits index query path ↔
      PartialSort.Distinct Prod.snd (A.scored index query path)) ∧
    ∀ docs, A.Settled index docs → A.Gains index → path.Available index →
      (A.OrderedHits index query path ↔
        A.DistinctScores index docs (index.analysis.tokenize query)) := by
  have hiff : A.OrderedHits index query path ↔
      PartialSort.Distinct Prod.snd (A.scored index query path) :=
    PartialSort.consistent_iff Prod.fst _
  refine ⟨hiff,?_⟩
  intro docs h hgains hpath
  exact hiff.trans (h.distinct_iff hgains hpath query)

/-- Every byte is a term. -/
def eachByte : Analysis := ⟨fun text => text.map fun b => [b],fun _ _ => 1⟩

/-- The second document has the term of the first one three times. -/
def onceAndThrice : Bm25Index := entered eachByte ⟨3,0⟩ [(0,[97]),(1,[97,97,97])]

/-- The operations with the `float` of the idf of a term that both of two documents have; with these
parameters nothing else is rounded in scores of the two. -/
def ofBoth : Arithmetic ℚ := exact fun _ _ => 12235393/67108864

/-- With a `k1` of three and a `b` of zero the second document has twice the score. -/
theorem onceAndThrice_ordered :
    ofBoth.OrderedHits (ofBoth.finalize onceAndThrice) [97] .precomputed := by
  have hindexes : onceAndThrice.Indexes [(0,[97]),(1,[97,97,97])] :=
    indexes_entered _ _ (by decide)
  have hproper : onceAndThrice.finalize.params.Proper :=
    ⟨by decide +kernel,by decide +kernel,by decide +kernel⟩
  have hsettled : ofBoth.Settled (ofBoth.finalize onceAndThrice) [(0,[97]),(1,[97,97,97])] :=
    settled_finalize ofBoth hindexes
  have hgains : ofBoth.Gains (ofBoth.finalize onceAndThrice) :=
    exact_gains hindexes.settled hproper (fun _ _ _ => by norm_num)
  have hlengths : (ofBoth.finalize onceAndThrice).denseLen ≠ [] := by decide +kernel
  have hpath : Path.precomputed.Available (ofBoth.finalize onceAndThrice) := hlengths
  refine ((orderedHits_iff _ _ _ _).2 _ hsettled hgains hpath).mpr ?_
  have hscores : ofBoth.scoreDoc (ofBoth.finalize onceAndThrice) [[97]] 0 ≠
      ofBoth.scoreDoc (ofBoth.finalize onceAndThrice) [[97]] 1 := by decide +kernel
  have hid : ∀ d, Matches eachByte.tokenize [(0,[97]),(1,[97,97,97])] [[97]] d → d = 0 ∨ d = 1 := by
    rintro d ⟨text,hmem,-⟩
    simp only [List.mem_cons,Prod.mk.injEq,List.not_mem_nil,or_false] at hmem
    exact hmem.imp And.left And.left
  intro d d' hd hd' heq
  obtain rfl | rfl := hid d hd <;> obtain rfl | rfl := hid d' hd'
  · rfl
  · exact absurd heq hscores
  · exact absurd heq.symm hscores
  · rfl

/-- Two documents of the same single term. -/
def twoAlike : Bm25Index := entered wholeTerm {} [(0,[97]),(1,[97])]

/-- However a platform rounds, the two have one score. -/
lemma alike_unordered (A : Arithmetic ℚ) :
    ¬A.OrderedHits (A.finalize twoAlike) [97] (A.finalize twoAlike).path := by
  intro hordered
  have hdistinct := (PartialSort.consistent_iff Prod.fst _).mp hordered
  have hscored : ∃ s, A.scored (A.finalize twoAlike) [97] (A.finalize twoAlike).path =
      [(0,s),(1,s)] := ⟨_,rfl⟩
  obtain ⟨s,hs⟩ := hscored
  rw [hs] at hdistinct
  exact (List.pairwise_cons.mp hdistinct).1 (1,s) (by simp) rfl

theorem twoAlike_unordered :
    ¬ofBoth.OrderedHits (ofBoth.finalize twoAlike) [97] (ofBoth.finalize twoAlike).path :=
  alike_unordered ofBoth

end Arithmetic
end RagRuntime.Lexical
