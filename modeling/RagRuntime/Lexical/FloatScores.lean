import RagRuntime.Base.KeyedSteps
import RagRuntime.Lexical.OkapiIdf

/-! The scores of a search as a platform computes them, each operation with its rounding. -/
namespace RagRuntime.Lexical
open RagRuntime.Base RagRuntime.Core

/-- The expressions of the source that numbers go through, as a platform evaluates them. The scores
are `float`s that can be compared. -/
structure Arithmetic (K : Type*) where
  /-- The average length from the total and the number of documents. -/
  average : ℕ → ℕ → ℚ
  ofCount : ℕ → ℚ
  idf : ℕ → ℕ → K
  /-- `num` and `den` from the average length, the length and the frequency. -/
  saturation : Bm25Params → ℚ → ℚ → ℚ → ℚ × ℚ
  divide : ℚ → ℚ → ℚ
  /-- `acc += idf * weight`. -/
  credit : K → ℚ → K → K

namespace Arithmetic
open Bm25Index

section definitions
variable {K : Type*} (A : Arithmetic K) (index : Bm25Index)

def lengthOr (avgdl : ℚ) (len : ℕ) : ℚ := if len = 0 then avgdl else A.ofCount len

def weight (params : Bm25Params) (avgdl : ℚ) (denseLen : List ℕ) (docLen : OrdMap ℕ ℕ)
    (p : Posting) : ℚ :=
  let dl :=
    if p.doc < denseLen.length then A.lengthOr avgdl (denseLen.getD p.doc 0)
    else match docLen.find? p.doc with
      | some len => A.ofCount len
      | none => avgdl
  let s := A.saturation params avgdl dl (A.ofCount p.tf)
  if s.2 > 0 then A.divide s.1 s.2 else 0

def finalize : Bm25Index :=
  let avgdl := if index.docLen.size = 0 then 0 else A.average index.totalLen index.docLen.size
  let denseLen := denseLengths index.docLen
  let weights := index.postings.entries.foldl (fun weights entry => weights.insert entry.1
    (entry.2.map (A.weight index.params (scoringLength avgdl) denseLen index.docLen))) ∅
  { index with avgdl := avgdl, denseLen := denseLen, weights := weights, finalized := true }

/-- What one query term adds to the accumulator, with the precomputed weights. -/
def precomputedTerm (term : Bytes) : List (ℕ × (K → K)) :=
  match index.postings.find? term,index.weights.find? term with
  | some postings,some weights =>
    let idf := A.idf index.docLen.size postings.length
    List.zipWith (fun p w => (p.doc,A.credit idf w)) postings weights
  | _,_ => []

/-- What one query term adds to the accumulator, computed for each posting. -/
def computedTerm (length : ℕ → ℚ) (term : Bytes) : List (ℕ × (K → K)) :=
  match index.postings.find? term with
  | some postings =>
    let idf := A.idf index.docLen.size postings.length
    postings.map fun p =>
      let s := A.saturation index.params (scoringLength index.avgdl) (length p.doc)
        (A.ofCount p.tf)
      (p.doc,A.credit idf (A.divide s.1 s.2))
  | none => []

def denseLength (d : ℕ) : ℚ :=
  A.lengthOr (scoringLength index.avgdl) (index.denseLen.getD d 0)

def sparseLength (d : ℕ) : ℚ :=
  match index.docLen.find? d with
  | some len => A.ofCount len
  | none => scoringLength index.avgdl

def additions (terms : List Bytes) : Path → List (ℕ × (K → K))
  | .precomputed => terms.flatMap (A.precomputedTerm index)
  | .dense => terms.flatMap (A.computedTerm index (A.denseLength index))
  | .sparse => terms.flatMap (A.computedTerm index (A.sparseLength index))

variable [Zero K] [DecidableEq K]

/-- A document is touched again while its score is still zero. -/
def credited (limit : ℕ) (acc : Accumulator K) (entry : ℕ × (K → K)) : Accumulator K :=
  if entry.1 ≥ limit then acc
  else ⟨fun d => if d = entry.1 then entry.2 (acc.scores d) else acc.scores d,
    if acc.scores entry.1 = 0 then acc.touched ++ [entry.1] else acc.touched⟩

def accumulate (limit : ℕ) (additions : List (ℕ × (K → K))) : Accumulator K :=
  additions.foldl (credited limit) ⟨fun _ => 0,[]⟩

omit [DecidableEq K] in
/-- The fallback for ids that are not dense. -/
def accumulateSparse (additions : List (ℕ × (K → K))) : OrdMap ℕ K :=
  additions.foldl (fun acc entry =>
    acc.insert entry.1 (entry.2 ((acc.find? entry.1).getD 0))) ∅

def reported (terms : List Bytes) (path : Path) : List (ℕ × K) :=
  let additions := A.additions index terms path
  match path with
  | .precomputed | .dense => (accumulate index.denseLen.length additions).hits
  | .sparse => (accumulateSparse additions).entries

/-- The hits of a path before they are sorted. -/
def scored (query : Bytes) (path : Path) : List (ℕ × K) :=
  let terms := index.analysis.tokenize query
  if index.docLen.size = 0 ∨ terms = [] then [] else A.reported index terms path

end definitions

section exact
variable {K : Type*} [Field K]

/-- The operations without any rounding. -/
def exact (idf : ℕ → ℕ → K) : Arithmetic K where
  average total n := total / n
  ofCount n := n
  idf := idf
  saturation params avgdl dl f :=
    (f * (params.k1+1),f + params.k1 * (1 - params.b + params.b * dl * (1/avgdl)))
  divide := (· / ·)
  credit idf w score := score + idf * (w : ℚ)

variable (idf : ℕ → ℕ → K) (index : Bm25Index)

variable [DecidableEq K]

lemma accumulate_add (limit : ℕ) (l : List (ℕ × K)) :
    accumulate limit (l.map fun e => (e.1,fun score => score + e.2)) =
      Bm25Index.accumulate limit l := by
  rw [accumulate,List.foldl_map]
  rfl

omit [DecidableEq K] in
lemma accumulateSparse_add (l : List (ℕ × K)) :
    accumulateSparse (l.map fun e => (e.1,fun score => score + e.2)) =
      Bm25Index.accumulateSparse l := by
  rw [accumulateSparse,List.foldl_map]
  rfl

omit [DecidableEq K] in
lemma exact_additions (terms : List Bytes) (path : Path) :
    (exact idf).additions index terms path =
      (index.contributions idf terms path).map fun e => (e.1,fun score => score + e.2) := by
  have hcomputed : ∀ length : ℕ → ℚ, (exact idf).computedTerm index length =
      fun t => (index.computedTerm idf length t).map fun e => (e.1,fun score => score + e.2) := by
    intro length
    funext t
    unfold computedTerm Bm25Index.computedTerm
    cases index.postings.find? t with
    | none => rfl
    | some plist =>
      rw [List.map_map]
      rfl
  cases path with
  | precomputed =>
    rw [additions,contributions,List.map_flatMap]
    congr 1
    funext t
    unfold precomputedTerm Bm25Index.precomputedTerm
    cases index.postings.find? t with
    | none => rfl
    | some plist =>
      cases index.weights.find? t with
      | none => rfl
      | some weights =>
        rw [List.map_zipWith]
        rfl
  | dense =>
    rw [additions,contributions,List.map_flatMap,hcomputed]
    rfl
  | sparse =>
    rw [additions,contributions,List.map_flatMap,hcomputed]
    rfl

/-- Without rounding the scores are those of the index. -/
theorem exact_reported (terms : List Bytes) (path : Path) :
    (exact idf).reported index terms path = index.reported idf terms path := by
  unfold reported Bm25Index.reported
  rw [exact_additions]
  cases path with
  | precomputed => exact congrArg Accumulator.hits (accumulate_add _ _)
  | dense => exact congrArg Accumulator.hits (accumulate_add _ _)
  | sparse => exact congrArg OrdMap.entries (accumulateSparse_add _)

end exact

section settled
variable {K : Type*} {A : Arithmetic K} {index : Bm25Index} {docs : List (ℕ × Bytes)}

/-- An index whose derived data fit its documents and were computed with this arithmetic. -/
structure Settled (A : Arithmetic K) (index : Bm25Index) (docs : List (ℕ × Bytes)) : Prop
    extends index.Indexes docs where
  dense : index.denseLen ≠ [] → ∀ d len, index.docLen.find? d = some len → 0 < len →
    d < index.denseLen.length ∧ index.denseLen.getD d 0 = len
  weights : index.denseLen ≠ [] → ∀ t, index.weights.find? t =
    (index.postings.find? t).map (List.map
      (A.weight index.params (scoringLength index.avgdl) index.denseLen index.docLen))

variable (A) in
/-- The weight of a posting, from the length of its document. -/
def fraction (index : Bm25Index) (p : Posting) : ℚ :=
  let s := A.saturation index.params (scoringLength index.avgdl) (A.sparseLength index p.doc)
    (A.ofCount p.tf)
  A.divide s.1 s.2

variable (A) in
/-- The score of a document: the terms of the query that it has, one after the other. -/
def scoreDoc (index : Bm25Index) [Zero K] (terms : List Bytes) (d : ℕ) : K :=
  terms.foldl (fun score t =>
    match (index.postingList t).find? fun p => p.doc = d with
    | some p => A.credit (A.idf index.docLen.size (index.postingList t).length)
      (A.fraction index p) score
    | none => score) 0

/-- What is relied on of the arithmetic: no denominator is rounded to zero or less, and a term that
a document has raises its score above zero. -/
structure Gains [Preorder K] [Zero K] (A : Arithmetic K) (index : Bm25Index) : Prop where
  denominator : ∀ t, ∀ p ∈ index.postingList t, 0 < (A.saturation index.params
    (scoringLength index.avgdl) (A.sparseLength index p.doc) (A.ofCount p.tf)).2
  credit : ∀ t, ∀ p ∈ index.postingList t, ∀ score, 0 ≤ score →
    0 < A.credit (A.idf index.docLen.size (index.postingList t).length) (A.fraction index p) score

lemma find?_weights_finalize (A : Arithmetic K) (index : Bm25Index) (t : Bytes) :
    (A.finalize index).weights.find? t = (index.postings.find? t).map (List.map
      (A.weight index.params (scoringLength (A.finalize index).avgdl) (A.finalize index).denseLen
        index.docLen)) := by
  ext ws
  rw [finalize,OrdMap.find?_foldl_insert Prod.fst
    (fun e : Bytes × List Posting => e.2.map (A.weight index.params _ _ index.docLen))
    index.postings.keys_nodup]
  simp only [OrdMap.find?_empty,reduceCtorEq,false_and,or_false,Option.map_eq_some_iff]
  constructor
  · rintro ⟨e,he,rfl,rfl⟩
    exact ⟨e.2,OrdMap.find?_eq_some.mpr he,rfl⟩
  · rintro ⟨plist,hfound,rfl⟩
    exact ⟨(t,plist),OrdMap.find?_eq_some.mp hfound,rfl,rfl⟩

theorem settled_finalize (A : Arithmetic K) (h : index.Indexes docs) :
    A.Settled (A.finalize index) docs :=
  { h with
    dense := fun hd _ _ hlen _ => getD_denseLengths hd hlen
    weights := fun _ => A.find?_weights_finalize index }

lemma sparseLength_eq {d len : ℕ} (hlen : index.docLen.find? d = some len) :
    A.sparseLength index d = A.ofCount len := by
  simp [sparseLength,hlen]

/-- What a posting of a term does to the score of its document. -/
def addition (A : Arithmetic K) (index : Bm25Index) (t : Bytes) (p : Posting) : ℕ × (K → K) :=
  (p.doc,A.credit (A.idf index.docLen.size (index.postingList t).length) (A.fraction index p))

lemma computedTerm_eq (length : ℕ → ℚ) (t : Bytes) : A.computedTerm index length t =
    (index.postingList t).map fun p =>
      let s := A.saturation index.params (scoringLength index.avgdl) (length p.doc)
        (A.ofCount p.tf)
      (p.doc,A.credit (A.idf index.docLen.size (index.postingList t).length)
        (A.divide s.1 s.2)) := by
  unfold computedTerm postingList
  cases index.postings.find? t <;> rfl

section facts
variable (h : A.Settled index docs)
include h

lemma Settled.doc_lt (hd : index.denseLen ≠ []) {t : Bytes} {p : Posting}
    (hp : p ∈ index.postingList t) : p.doc < index.denseLen.length := by
  obtain ⟨-,len,hlen,hpos⟩ := h.length_pos hp
  exact (h.dense hd _ _ hlen hpos).1

lemma Settled.denseLength_eq (hd : index.denseLen ≠ []) {t : Bytes} {p : Posting}
    (hp : p ∈ index.postingList t) : A.denseLength index p.doc = A.sparseLength index p.doc := by
  obtain ⟨-,len,hlen,hpos⟩ := h.length_pos hp
  rw [sparseLength_eq hlen,denseLength,(h.dense hd _ _ hlen hpos).2,lengthOr,if_neg hpos.ne']

lemma Settled.mem_additions {terms : List Bytes} {d : ℕ} :
    d ∈ (terms.flatMap fun t => (index.postingList t).map (A.addition index t)).map Prod.fst ↔
      Matches index.analysis.tokenize docs terms d := by
  simp only [List.mem_map,List.mem_flatMap]
  constructor
  · rintro ⟨e,⟨t,ht,p,hp,rfl⟩,rfl⟩
    obtain ⟨text,hmem,hin,-⟩ := (h.posting t p).mp hp
    exact ⟨text,hmem,t,ht,hin⟩
  · rintro ⟨text,hmem,t,ht,hin⟩
    have hp : (⟨d,(index.analysis.tokenize text).count t⟩ : Posting) ∈ index.postingList t :=
      (h.posting t _).mpr ⟨text,hmem,hin,rfl⟩
    exact ⟨_,⟨t,ht,_,hp,rfl⟩,rfl⟩

/-- The score of a document is what the additions make of zero. -/
lemma Settled.scoreDoc_eq [Zero K] (terms : List Bytes) (d : ℕ) : A.scoreDoc index terms d =
    passed (terms.flatMap fun t => (index.postingList t).map (A.addition index t)) d 0 := by
  rw [passed_flatMap,scoreDoc]
  congr 1
  funext score t
  have hpassed := passed_map Posting.doc (fun p => A.credit (A.idf index.docLen.size
    (index.postingList t).length) (A.fraction index p)) (h.ascending t).nodup d score
  unfold addition
  rw [hpassed]
  cases (index.postingList t).find? fun p => p.doc = d <;> rfl

variable [LinearOrder K] [Zero K] (hgains : A.Gains index)
include hgains

/-- The precomputed weight is the fraction that the other paths compute. -/
lemma Settled.weight_eq (hd : index.denseLen ≠ []) {t : Bytes} {p : Posting}
    (hp : p ∈ index.postingList t) :
    A.weight index.params (scoringLength index.avgdl) index.denseLen index.docLen p =
      A.fraction index p := by
  have hlength : A.lengthOr (scoringLength index.avgdl) (index.denseLen.getD p.doc 0) =
      A.sparseLength index p.doc := h.denseLength_eq hd hp
  rw [weight,if_pos (h.doc_lt hd hp),hlength]
  exact if_pos (hgains.denominator t p hp)

/-- Every path that can be taken makes the same additions in the same order. -/
theorem Settled.additions_eq {path : Path} (hpath : path.Available index) (terms : List Bytes) :
    A.additions index terms path =
      terms.flatMap fun t => (index.postingList t).map (A.addition index t) := by
  cases path with
  | precomputed =>
    rw [additions]
    congr 1
    funext t
    rw [precomputedTerm,h.weights hpath]
    cases hfound : index.postings.find? t with
    | none => simp [postingList,hfound]
    | some plist =>
      have hlist : index.postingList t = plist := by simp [postingList,hfound]
      rw [hlist,Option.map_some]
      dsimp only
      rw [List.zipWith_map_right,List.zipWith_self]
      apply List.map_congr_left
      intro p hp
      rw [h.weight_eq hgains hpath (hlist ▸ hp)]
      simp only [addition,hlist]
  | dense =>
    rw [additions]
    congr 1
    funext t
    rw [computedTerm_eq]
    apply List.map_congr_left
    intro p hp
    rw [h.denseLength_eq hpath hp]
    rfl
  | sparse =>
    rw [additions]
    congr 1
    funext t
    rw [computedTerm_eq]
    rfl

omit h in
lemma Gains.addition (terms : List Bytes) :
    ∀ e ∈ terms.flatMap fun t => (index.postingList t).map (A.addition index t),
      ∀ score, 0 ≤ score → 0 < e.2 score := by
  intro e he
  obtain ⟨t,-,he⟩ := List.mem_flatMap.mp he
  obtain ⟨p,hp,rfl⟩ := List.mem_map.mp he
  exact hgains.credit t p hp

omit [LinearOrder K] [Zero K] hgains in
lemma Settled.additions_below (hd : index.denseLen ≠ []) (terms : List Bytes) :
    ∀ e ∈ terms.flatMap fun t => (index.postingList t).map (A.addition index t),
      e.1 < index.denseLen.length := by
  intro e he
  obtain ⟨t,-,he⟩ := List.mem_flatMap.mp he
  obtain ⟨p,hp,rfl⟩ := List.mem_map.mp he
  exact h.doc_lt hd hp

end facts

section accumulators
variable [LinearOrder K] [Zero K]

/-- The accumulator has every document's score, and has touched each that a step was for once. -/
lemma accumulate_spec {limit : ℕ} {l : List (ℕ × (K → K))} (hlimit : ∀ e ∈ l, e.1 < limit)
    (hgain : ∀ e ∈ l, ∀ score, 0 ≤ score → 0 < e.2 score) :
    (∀ d, (accumulate limit l).scores d = passed l d 0) ∧ (accumulate limit l).touched.Nodup ∧
      ∀ d, d ∈ (accumulate limit l).touched ↔ d ∈ l.map Prod.fst := by
  induction l using List.reverseRecOn with
  | nil => simp [accumulate]
  | append_singleton l e ih =>
    have hbefore : ∀ e ∈ l, ∀ score, 0 ≤ score → 0 < e.2 score :=
      fun a ha => hgain a (List.mem_append_left _ ha)
    obtain ⟨hscores,hnodup,hmem⟩ := ih (fun a ha => hlimit a (List.mem_append_left _ ha)) hbefore
    have he := hlimit e (by simp)
    have hstep : accumulate limit (l ++ [e]) = credited limit (accumulate limit l) e := by
      simp [accumulate]
    -- a score of zero means that the document is new
    have hzero : (accumulate limit l).scores e.1 = 0 ↔ e.1 ∉ (accumulate limit l).touched := by
      rw [hscores,hmem]
      exact passed_eq_zero hbefore
    rw [hstep,credited,if_neg (by omega)]
    refine ⟨?_,?_,?_⟩
    · intro d
      rw [passed_append,passed_cons,passed_nil,← hscores]
      by_cases hd : d = e.1
      · simp [hd]
      · simp [hd,Ne.symm hd]
    · dsimp only
      split_ifs with hnew
      · exact List.nodup_append.mpr ⟨hnodup,List.nodup_singleton _,by
          rintro a ha b hb rfl
          rw [List.mem_singleton] at hb
          exact hzero.mp hnew (hb ▸ ha)⟩
      · exact hnodup
    · intro d
      rw [List.map_append,List.mem_append,List.map_singleton,List.mem_singleton,← hmem]
      dsimp only
      split_ifs with hnew
      · rw [List.mem_append,List.mem_singleton]
      · have hold : e.1 ∈ (accumulate limit l).touched := by
          by_contra hnot
          exact hnew (hzero.mpr hnot)
        constructor
        · exact Or.inl
        · rintro (hd | rfl)
          · exact hd
          · exact hold

/-- The documents that the steps were for are reported, each once with its score. -/
structure Reports (l : List (ℕ × (K → K))) (hits : List (ℕ × K)) : Prop where
  nodup : (hits.map Prod.fst).Nodup
  mem_iff : ∀ d s, (d,s) ∈ hits ↔ d ∈ l.map Prod.fst ∧ s = passed l d 0

lemma accumulate_reports {limit : ℕ} {l : List (ℕ × (K → K))} (hlimit : ∀ e ∈ l, e.1 < limit)
    (hgain : ∀ e ∈ l, ∀ score, 0 ≤ score → 0 < e.2 score) :
    Reports l (accumulate limit l).hits := by
  obtain ⟨hscores,hnodup,hmem⟩ := accumulate_spec hlimit hgain
  refine ⟨by simpa [Accumulator.hits,Function.comp_def] using hnodup,?_⟩
  intro d s
  simp only [Accumulator.hits,List.mem_map,Prod.mk.injEq]
  constructor
  · rintro ⟨d',hd',rfl,rfl⟩
    exact ⟨List.mem_map.mp ((hmem _).mp hd'),hscores _⟩
  · rintro ⟨hd,rfl⟩
    exact ⟨d,(hmem d).mpr (List.mem_map.mpr hd),rfl,hscores d⟩

omit [LinearOrder K] in
lemma accumulateSparse_reports (l : List (ℕ × (K → K))) :
    Reports l (accumulateSparse l).entries := by
  refine ⟨OrdMap.keys_nodup _,?_⟩
  intro d s
  rw [← OrdMap.find?_eq_some,accumulateSparse,find?_foldl_passed]
  split_ifs with hd
  · simp only [hd,true_and,Option.some.injEq,eq_comm]
  · simp [hd]

variable (h : A.Settled index docs) (hgains : A.Gains index)
include h hgains

/-- A path that can be taken reports the documents that match, each once with its score. -/
theorem Settled.reported_spec {path : Path} (hpath : path.Available index) (terms : List Bytes) :
    ((A.reported index terms path).map Prod.fst).Nodup ∧
    ∀ d s, (d,s) ∈ A.reported index terms path ↔
      Matches index.analysis.tokenize docs terms d ∧ s = A.scoreDoc index terms d := by
  have hreports : Reports (terms.flatMap fun t => (index.postingList t).map (A.addition index t))
      (A.reported index terms path) := by
    unfold reported
    rw [h.additions_eq hgains hpath]
    cases path with
    | precomputed =>
      exact accumulate_reports (h.additions_below hpath terms) (hgains.addition terms)
    | dense =>
      exact accumulate_reports (h.additions_below hpath terms) (hgains.addition terms)
    | sparse => exact accumulateSparse_reports _
  refine ⟨hreports.nodup,?_⟩
  intro d s
  rw [hreports.mem_iff,h.mem_additions,h.scoreDoc_eq]

/-- The same of a search, which does not look further without documents or terms. -/
theorem Settled.scored_spec {path : Path} (hpath : path.Available index) (query : Bytes) :
    ((A.scored index query path).map Prod.fst).Nodup ∧
    ∀ d s, (d,s) ∈ A.scored index query path ↔
      Matches index.analysis.tokenize docs (index.analysis.tokenize query) d ∧
        s = A.scoreDoc index (index.analysis.tokenize query) d := by
  unfold scored
  dsimp only
  split_ifs with hempty
  · refine ⟨List.nodup_nil,?_⟩
    intro d s
    refine iff_of_false List.not_mem_nil ?_
    rintro ⟨⟨text,hin,t,ht,-⟩,-⟩
    obtain hsize | hterms := hempty
    · have hlen := (h.length d _).mpr ⟨text,hin,rfl⟩
      rw [OrdMap.size,List.length_eq_zero_iff] at hsize
      have hentry := OrdMap.find?_eq_some.mp hlen
      rw [hsize] at hentry
      cases hentry
    · rw [hterms] at ht
      cases ht
  · exact h.reported_spec hgains hpath _

end accumulators

section exact
variable {K : Type*} [Field K] [LinearOrder K] [IsStrictOrderedRing K] {idf : ℕ → ℕ → K}

/-- The exact operations meet what is relied on. -/
lemma exact_gains (h : index.Settled docs) (hproper : index.params.Proper)
    (hidf : PositiveIdf idf) : (exact idf).Gains index := by
  constructor
  · intro t p hp
    exact (h.fraction_pos hproper hp).2
  · intro t p hp score hscore
    exact add_pos_of_nonneg_of_pos hscore (h.contribution_pos hproper hidf hp)

end exact

end settled
end Arithmetic
end RagRuntime.Lexical
