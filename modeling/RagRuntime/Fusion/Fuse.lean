import Mathlib.Algebra.Order.Field.Basic
import Mathlib.Tactic.Positivity
import RagRuntime.Base.RankFusion
import RagRuntime.Index.IndexedCorpus
import RagRuntime.Retrieval.Runtime

/-! Weighted reciprocal rank fusion, of the candidates of a backend and of the hits of a corpus. -/
namespace RagRuntime.Fusion
open RagRuntime.Base RagRuntime.Backend RagRuntime.Dense RagRuntime.Lexical RagRuntime.Index
  RagRuntime.Retrieval

structure RankedList where
  hits : List Hit
  weight : ℚ := 1

structure RrfParams where
  k : ℚ := 60

/-- A list of negative weight is skipped. -/
def creditList (k : ℚ) (accumulated : OrdMap ℕ ℚ) (list : RankedList) : OrdMap ℕ ℚ :=
  if list.weight < 0 then accumulated
  else list.hits.zipIdx.foldl (fun accumulated entry => accumulated.insert entry.1.chunk
    ((accumulated.find? entry.1.chunk).getD 0 + list.weight/(k+entry.2+1))) accumulated

/-- All hits are asked for with a zero. -/
def rrf (lists : List RankedList) (params : RrfParams) (topK : ℕ) : List Hit :=
  if params.k < 0 then []
  else
    let accumulated := lists.foldl (creditList params.k) ∅
    let output := (accumulated.entries.map fun e => (⟨e.1,e.2⟩ : Hit)).insertionSort
      IndexedCorpus.hitOrder
    if topK ≠ 0 ∧ output.length > topK then output.take topK else output

section reciprocal
variable {ι : Type} {weight k : ℚ} {members : List ι}

/-- The ranking whose place `n` counts `weight/(k+n+1)`. -/
def reciprocal (weight k : ℚ) (members : List ι) : Ranking ι ℚ :=
  ⟨members,fun rank => weight/(k+rank+1)⟩

lemma reciprocal_pos (hweight : 0 < weight) (hk : 0 ≤ k) (n : ℕ) :
    0 < (reciprocal weight k members).credit n := by
  change 0 < weight/(k+n+1)
  positivity

lemma reciprocal_strictAnti (hweight : 0 < weight) (hk : 0 ≤ k) :
    StrictAnti (reciprocal weight k members).credit := by
  intro m n hlt
  have hcast : (m : ℚ) < n := Nat.cast_lt.mpr hlt
  exact div_lt_div_of_pos_left hweight (by positivity) (by linarith)

lemma foldl_credits {α κ : Type} [LinearOrder κ] (key : α → κ) (l : List α) (m : OrdMap κ ℚ) :
    l.zipIdx.foldl (fun m entry => m.insert (key entry.1)
      ((m.find? (key entry.1)).getD 0 + weight/(k+entry.2+1))) m =
    (reciprocal weight k (l.map key)).credits.foldl (fun m e =>
      m.insert e.1 ((m.find? e.1).getD 0 + e.2)) m := by
  rw [Ranking.credits,reciprocal,List.zipIdx_map,List.map_map,List.foldl_map]
  rfl

end reciprocal

section rankings

/-- The rankings that the fusion of a search adds up. -/
def candidateRankings (lexical dense : CandidateList) (config : RuntimeConfig) :
    List (Ranking Bytes ℚ) :=
  [reciprocal config.bm25Weight config.rrfRankConstant (lexical.map Candidate.chunk),
    reciprocal config.denseWeight config.rrfRankConstant (dense.map Candidate.chunk)]

def hitRankings (lists : List RankedList) (params : RrfParams) : List (Ranking ℕ ℚ) :=
  (lists.filter fun list => 0 ≤ list.weight).map fun list =>
    reciprocal list.weight params.k (list.hits.map Hit.chunk)

lemma candidates_rrf (lexical dense : CandidateList) (config : RuntimeConfig) (limit : ℕ) :
    Retrieval.rrf lexical dense config limit =
      ((fused (candidateRankings lexical dense config)).take limit).map
        fun e => ⟨e.1,e.2,.cosine⟩ := by
  have hscores : creditRanks config config.denseWeight
      (creditRanks config config.bm25Weight ∅ lexical) dense =
      (allCredits (candidateRankings lexical dense config)).foldl (fun m e =>
        m.insert e.1 ((m.find? e.1).getD 0 + e.2)) ∅ := by
    rw [creditRanks,creditRanks,foldl_credits Candidate.chunk,foldl_credits Candidate.chunk,
      ← List.foldl_append,allCredits,candidateRankings,List.flatMap_cons,List.flatMap_cons,
      List.flatMap_nil,List.append_nil]
  rw [Retrieval.rrf,hscores,← insertionSort_entries_foldl,List.map_take,
    List.map_insertionSort (r := FusedOrder) (s := CandidateOrder)]
  exact fun a _ b _ => Iff.rfl

lemma accumulated_eq (params : RrfParams) (lists : List RankedList) (m : OrdMap ℕ ℚ) :
    lists.foldl (creditList params.k) m = (allCredits (hitRankings lists params)).foldl (fun m e =>
      m.insert e.1 ((m.find? e.1).getD 0 + e.2)) m := by
  induction lists generalizing m with
  | nil => rfl
  | cons list lists ih =>
    rw [List.foldl_cons,ih,creditList]
    by_cases hneg : list.weight < 0
    · rw [if_pos hneg,hitRankings,hitRankings,List.filter_cons_of_neg]
      simpa using hneg
    · rw [if_neg hneg,foldl_credits Hit.chunk,hitRankings,hitRankings,List.filter_cons_of_pos,
        List.map_cons,allCredits,allCredits,List.flatMap_cons,List.foldl_append]
      simpa using hneg

lemma hits_rrf {params : RrfParams} (hk : 0 ≤ params.k) (lists : List RankedList) {topK : ℕ}
    (htopK : topK ≠ 0) : rrf lists params topK =
      ((fused (hitRankings lists params)).take topK).map fun e => ⟨e.1,e.2⟩ := by
  have hsorted : ((lists.foldl (creditList params.k) ∅).entries.map fun e =>
      (⟨e.1,e.2⟩ : Hit)).insertionSort IndexedCorpus.hitOrder =
      (fused (hitRankings lists params)).map fun e => ⟨e.1,e.2⟩ := by
    rw [accumulated_eq,← insertionSort_entries_foldl,
      List.map_insertionSort (r := FusedOrder) (s := IndexedCorpus.hitOrder)]
    exact fun a _ b _ => Iff.rfl
  rw [rrf,if_neg hk.not_gt]
  dsimp only
  rw [hsorted]
  split_ifs with hlong
  · rw [List.map_take]
  · rw [List.take_of_length_le]
    simp only [List.length_map] at hlong
    omega

end rankings

/-- What a fusion keeps of rankings without repetitions: the best of all members, each once, and
whatever the rankings agree on. -/
structure Fuses {ι : Type} [LinearOrder ι] (rankings : List (List ι)) (limit : ℕ) (out : List ι) :
    Prop where
  nodup : out.Nodup
  length : out.length = min limit rankings.flatten.dedup.length
  found : ∀ i ∈ out, ∃ l ∈ rankings, i ∈ l
  agreed : ∀ i j, (∀ l ∈ rankings, j ∈ l → i ∈ l ∧ l.idxOf i < l.idxOf j) → j ∈ out →
    i ∈ out ∧ out.idxOf i < out.idxOf j

lemma fuses_take {ι : Type} [LinearOrder ι] {rs : List (Ranking ι ℚ)}
    (hnodup : ∀ r ∈ rs, r.members.Nodup) (hanti : ∀ r ∈ rs, StrictAnti r.credit)
    (hpos : ∀ r ∈ rs, ∀ n, 0 < r.credit n) (limit : ℕ) :
    Fuses (rs.map Ranking.members) limit (((fused rs).take limit).map Prod.fst) where
  nodup := (nodup_fused rs).sublist ((List.take_sublist _ _).map _)
  length := by
    have hall : (allCredits rs).map Prod.fst = (rs.map Ranking.members).flatten := by
      rw [allCredits,List.map_flatMap,List.flatMap_def]
      exact congrArg List.flatten (List.map_congr_left fun r _ => r.map_fst_credits)
    rw [List.length_map,List.length_take,(fused_perm rs).length_eq,List.length_map,hall]
  found i hi := by
    obtain ⟨r,hr,hmem⟩ := mem_map_fst_fused.mp (List.map_subset _ (List.take_subset _ _) hi)
    exact ⟨r.members,List.mem_map_of_mem hr,hmem⟩
  agreed i j hagreed hj :=
    outranks_take hnodup hanti hpos (fun r hr => hagreed _ (List.mem_map_of_mem hr)) hj

/-- The fusion of a search has each candidate once and keeps what both retrievers agree on; fewer
results are the first ones of more. -/
theorem candidates_fuses {lexical dense : CandidateList}
    (hlexical : (lexical.map Candidate.chunk).Nodup)
    (hdense : (dense.map Candidate.chunk).Nodup) {config : RuntimeConfig}
    (hbm25Weight : 0 < config.bm25Weight) (hdenseWeight : 0 < config.denseWeight) (limit : ℕ) :
    Fuses [lexical.map Candidate.chunk,dense.map Candidate.chunk] limit
        ((Retrieval.rrf lexical dense config limit).map Candidate.chunk) ∧
      ∀ k ≤ limit, Retrieval.rrf lexical dense config k =
        (Retrieval.rrf lexical dense config limit).take k := by
  constructor
  · rw [candidates_rrf,List.map_map]
    have hk : (0 : ℚ) ≤ config.rrfRankConstant := Nat.cast_nonneg _
    refine @fuses_take _ _ (candidateRankings lexical dense config) ?_ ?_ ?_ limit
    · exact List.forall_mem_cons.mpr ⟨hlexical,List.forall_mem_singleton.mpr hdense⟩
    · exact List.forall_mem_cons.mpr ⟨reciprocal_strictAnti hbm25Weight hk,
        List.forall_mem_singleton.mpr (reciprocal_strictAnti hdenseWeight hk)⟩
    · exact List.forall_mem_cons.mpr ⟨reciprocal_pos hbm25Weight hk,
        List.forall_mem_singleton.mpr (reciprocal_pos hdenseWeight hk)⟩
  · intro k hk
    rw [candidates_rrf,candidates_rrf,← List.map_take,List.take_take,Nat.min_eq_left hk]

def lexicalPair : CandidateList := [⟨ascii ['b'],2,.bm25⟩,⟨ascii ['c'],1,.bm25⟩]
def denseTriple : CandidateList :=
  [⟨ascii ['a'],1,.cosine⟩,⟨ascii ['b'],1/2,.cosine⟩,⟨ascii ['c'],0,.cosine⟩]

/-- Both retrievers have `b` ahead of `c`; one of them finds `a` too. -/
theorem pair_and_triple_fuse :
    Fuses [lexicalPair.map Candidate.chunk,denseTriple.map Candidate.chunk] 2
        ((Retrieval.rrf lexicalPair denseTriple {} 2).map Candidate.chunk) ∧
      ∀ k ≤ 2, Retrieval.rrf lexicalPair denseTriple {} k =
        (Retrieval.rrf lexicalPair denseTriple {} 2).take k :=
  candidates_fuses (by decide) (by decide) (by decide) (by decide) 2

/-- For chunk keys that are ordered like the numbers of the chunks, the fusion of a search and that
of a corpus are one. -/
theorem fusions_agree {φ : ℕ → Bytes} (hφ : StrictMono φ) (lexical dense : List Hit)
    {config : RuntimeConfig} (hbm25Weight : 0 ≤ config.bm25Weight)
    (hdenseWeight : 0 ≤ config.denseWeight) {limit : ℕ} (hlimit : limit ≠ 0) :
    Retrieval.rrf (lexical.map fun hit => ⟨φ hit.chunk,hit.score,.bm25⟩)
        (dense.map fun hit => ⟨φ hit.chunk,hit.score,.cosine⟩) config limit =
      (rrf [⟨lexical,config.bm25Weight⟩,⟨dense,config.denseWeight⟩] ⟨config.rrfRankConstant⟩
        limit).map fun hit => ⟨φ hit.chunk,hit.score,.cosine⟩ := by
  have hrename : candidateRankings (lexical.map fun hit => ⟨φ hit.chunk,hit.score,.bm25⟩)
      (dense.map fun hit => ⟨φ hit.chunk,hit.score,.cosine⟩) config =
      (hitRankings [⟨lexical,config.bm25Weight⟩,⟨dense,config.denseWeight⟩]
        ⟨config.rrfRankConstant⟩).map (Ranking.rename φ) := by
    simp [candidateRankings,hitRankings,reciprocal,Ranking.rename,hbm25Weight,
      hdenseWeight,Function.comp_def]
  rw [candidates_rrf,hrename,fused_rename hφ,hits_rrf (Nat.cast_nonneg _) _ hlimit,List.map_map,
    ← List.map_take,List.map_map]
  rfl

/-- Longer runs of one byte are greater keys. -/
lemma strictMono_replicate (c : Byte) : StrictMono fun n => List.replicate n c := by
  refine strictMono_nat_of_lt_succ fun n => ?_
  induction n with
  | zero => exact List.Lex.nil
  | succ n ih => exact List.Lex.cons ih

def twoHits : List Hit := [⟨2,1⟩,⟨1,1/2⟩]
def oneHit : List Hit := [⟨1,1⟩]

theorem replicated_agree :
    Retrieval.rrf (twoHits.map fun hit => ⟨List.replicate hit.chunk 0,hit.score,.bm25⟩)
        (oneHit.map fun hit => ⟨List.replicate hit.chunk 0,hit.score,.cosine⟩) {} 1 =
      (rrf [⟨twoHits,({} : RuntimeConfig).bm25Weight⟩,⟨oneHit,({} : RuntimeConfig).denseWeight⟩]
        ⟨({} : RuntimeConfig).rrfRankConstant⟩ 1).map
          fun hit => ⟨List.replicate hit.chunk 0,hit.score,.cosine⟩ :=
  fusions_agree (strictMono_replicate 0) twoHits oneHit (by decide) (by decide) (by decide)

end RagRuntime.Fusion
