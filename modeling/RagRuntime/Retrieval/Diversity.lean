import Mathlib.Tactic.Linarith
import RagRuntime.Base.Greedy
import RagRuntime.Retrieval.FreedSlots

/-! The choice of diverse results: it is greedy, and the one over the candidates of a backend and
the one over the hits of a corpus choose alike. -/
namespace RagRuntime.Retrieval
open RagRuntime.Base RagRuntime.Base.Folding RagRuntime.Core RagRuntime.Backend RagRuntime.Index
  RagRuntime.Lexical RagRuntime.Dense

section best
variable {score : ℕ → ℚ} {used : List ℕ} {n : ℕ}

lemma mmrBest_succ (score : ℕ → ℚ) (used : List ℕ) (n : ℕ) :
    mmrBest score used (n+1) =
      if n ∈ used then mmrBest score used n
      else match mmrBest score used n with
        | none => some n
        | some b => if score n > score b then some n else some b := by
  rw [mmrBest,List.range_succ,List.foldl_append,List.foldl_cons,List.foldl_nil]
  change (if n ∈ used then mmrBest score used n
    else match mmrBest score used n with
      | none => some n
      | some b => if score n > score b then some n else mmrBest score used n) = _
  cases mmrBest score used n <;> rfl

/-- The loop finds the first best position that is left, if one is. -/
lemma mmrBest_spec (score : ℕ → ℚ) (used : List ℕ) (n : ℕ) :
    (∀ i, mmrBest score used n = some i → FirstBest score used n i) ∧
      (mmrBest score used n = none → ∀ j < n, j ∈ used) := by
  induction n with
  | zero => exact ⟨nofun,fun _ j hj => absurd hj (Nat.not_lt_zero j)⟩
  | succ n ih =>
    rw [mmrBest_succ]
    obtain ⟨hsome,hnone⟩ := ih
    by_cases hn : n ∈ used
    · rw [if_pos hn]
      constructor
      · intro i hi
        obtain ⟨hlt,hunused,hbest,hfirst⟩ := hsome i hi
        refine ⟨by omega,hunused,?_,hfirst⟩
        intro j hj hleft
        obtain rfl | hlt' : j = n ∨ j < n := by omega
        · exact absurd hn hleft
        · exact hbest j hlt' hleft
      · intro h j hj
        obtain rfl | hlt' : j = n ∨ j < n := by omega
        · exact hn
        · exact hnone h j hlt'
    · rw [if_neg hn]
      cases hbest : mmrBest score used n with
      | none =>
        have hall := hnone hbest
        constructor
        · rintro i ⟨⟩
          refine ⟨by omega,hn,?_,fun j hj hleft => absurd (hall j hj) hleft⟩
          intro j hj hleft
          obtain rfl | hlt' : j = n ∨ j < n := by omega
          · exact le_rfl
          · exact absurd (hall j hlt') hleft
        · exact nofun
      | some b =>
        obtain ⟨hlt,hunused,hbest,hfirst⟩ := hsome b hbest
        dsimp only
        split_ifs with hgt
        · constructor
          · rintro i ⟨⟩
            refine ⟨by omega,hn,?_,fun j hj hleft => (hbest j hj hleft).trans_lt hgt⟩
            intro j hj hleft
            obtain rfl | hlt' : j = n ∨ j < n := by omega
            · exact le_rfl
            · exact (hbest j hlt' hleft).trans hgt.le
          · exact nofun
        · constructor
          · rintro i ⟨⟩
            refine ⟨by omega,hunused,?_,hfirst⟩
            intro j hj hleft
            obtain rfl | hlt' : j = n ∨ j < n := by omega
            · exact not_lt.mp hgt
            · exact hbest j hlt' hleft
          · exact nofun

/-- The floor is no obstacle to scores above it. -/
lemma hitBest_eq_mmrBest (h : ∀ j < n, j ∉ used → -kFar < score j) :
    hitBest score used n = mmrBest score used n := by
  have hloop : ∀ m ≤ n, (List.range m).foldl (fun (best : Option ℕ × ℚ) i =>
      if i ∈ used then best
      else if score i > best.2 then (some i,score i)
      else best) (none,-kFar) =
      match mmrBest score used m with
      | none => (none,-kFar)
      | some b => (some b,score b) := by
    intro m hm
    induction m with
    | zero => rfl
    | succ m ih =>
      rw [List.range_succ,List.foldl_append,List.foldl_cons,List.foldl_nil,ih (by omega),
        mmrBest_succ]
      by_cases hused : m ∈ used
      · rw [if_pos hused,if_pos hused]
      · rw [if_neg hused,if_neg hused]
        cases mmrBest score used m with
        | none => exact if_pos (h m (by omega) hused)
        | some b =>
          dsimp only
          split_ifs <;> rfl
  rw [hitBest,hloop n le_rfl]
  cases mmrBest score used n <;> rfl

end best

section candidates
variable (chunks : OrdMap Bytes StoredChunk) (candidates : CandidateList) (lambda : ℚ)

/-- The positions of the choices. -/
def mmrOrder (k : ℕ) : List ℕ :=
  select (mmrNext chunks candidates lambda) (min k candidates.length) []

lemma greedy_mmrOrder (k : ℕ) :
    Greedy (mmrScore chunks candidates (max 0 (min 1 lambda))) candidates.length
        (mmrOrder chunks candidates lambda k) ∧
      (mmrOrder chunks candidates lambda k).length = min k candidates.length := by
  set score := mmrScore chunks candidates (max 0 (min 1 lambda))
  have hsome : ∀ chosen i, Greedy score candidates.length chosen →
      mmrNext chunks candidates lambda chosen = some i →
      FirstBest (score chosen) chosen candidates.length i :=
    fun chosen i _ => (mmrBest_spec (score chosen) chosen candidates.length).1 i
  have hnone : ∀ chosen, Greedy score candidates.length chosen →
      mmrNext chunks candidates lambda chosen = none → ∀ j < candidates.length, j ∈ chosen :=
    fun chosen _ => (mmrBest_spec (score chosen) chosen candidates.length).2
  obtain ⟨hgreedy,hlength⟩ := greedy_select hsome hnone (min k candidates.length) greedy_nil
  refine ⟨hgreedy,hlength.trans ?_⟩
  rw [List.length_nil]
  omega

variable {chunks candidates lambda}

lemma le_of_pairwise_score (hranked : candidates.Pairwise fun a b => b.rawScore ≤ a.rawScore)
    {i j : ℕ} (hij : i ≤ j) (hj : j < candidates.length) :
    ((candidates[j]?).map Candidate.rawScore).getD 0 ≤
      ((candidates[i]?).map Candidate.rawScore).getD 0 := by
  obtain rfl | hlt := hij.eq_or_lt
  · exact le_rfl
  · have hi : i < candidates.length := hlt.trans hj
    rw [List.getElem?_eq_getElem hi,List.getElem?_eq_getElem hj]
    exact List.pairwise_iff_getElem.mp hranked i j hi hj hlt

/-- Without diversity the candidates are chosen in their order. -/
lemma greedy_range (hranked : candidates.Pairwise fun a b => b.rawScore ≤ a.rawScore) {k : ℕ}
    (hk : k ≤ candidates.length) :
    Greedy (mmrScore chunks candidates 1) candidates.length (List.range k) := by
  intro m i hi
  obtain ⟨hm,hi⟩ := List.getElem?_eq_some_iff.mp hi
  rw [List.length_range] at hm
  rw [List.getElem_range] at hi
  subst hi
  rw [List.take_range,Nat.min_eq_left hm.le]
  have hspan : 0 < if highScore candidates - lowScore candidates > kFlatRange then
      highScore candidates - lowScore candidates else 1 := by
    split_ifs with hwide
    · exact lt_trans (by norm_num [kFlatRange]) hwide
    · exact one_pos
  refine ⟨by omega,by simp,?_,?_⟩
  · intro j hj hleft
    have hmj : m ≤ j := by simpa using hleft
    rw [mmrScore,mmrScore,sub_self,zero_mul,zero_mul,one_mul,one_mul,sub_zero,sub_zero]
    exact div_le_div_of_nonneg_right
      (sub_le_sub_right (le_of_pairwise_score hranked hmj hj) _) hspan.le
  · intro j hj hleft
    exact absurd (List.mem_range.mpr hj) hleft

/-- The choice is greedy and takes as many candidates as there are to choose; fewer are the first
ones of more, and at full weight of the relevance it is the ranking itself. -/
theorem mmr_greedy {k : ℕ} {output : CandidateList}
    (h : mmr chunks candidates k lambda = some output) :
    (∃ order, Greedy (mmrScore chunks candidates (max 0 (min 1 lambda))) candidates.length order ∧
      order.length = min k candidates.length ∧ output = pick candidates order) ∧
    (∀ m ≤ k, mmr chunks candidates m lambda = some (output.take m)) ∧
    (1 ≤ lambda → (candidates.Pairwise fun a b => b.rawScore ≤ a.rawScore) →
      output = candidates.take k) := by
  have hresolved : ¬(2 ≤ min k candidates.length ∧
      ¬(candidates.all fun candidate => (placeOf chunks candidate).isSome) = true) := by
    intro hbad
    rw [mmr,if_pos hbad] at h
    cases h
  rw [mmr,if_neg hresolved,Option.some.injEq] at h
  obtain ⟨hgreedy,hlength⟩ := greedy_mmrOrder chunks candidates lambda k
  refine ⟨⟨_,hgreedy,hlength,h.symm⟩,?_,?_⟩
  · intro m hm
    have hfewer : ¬(2 ≤ min m candidates.length ∧
        ¬(candidates.all fun candidate => (placeOf chunks candidate).isSome) = true) :=
      fun hbad => hresolved ⟨hbad.1.trans (by omega),hbad.2⟩
    rw [mmr,if_neg hfewer,Option.some.injEq,← h,mmrRanked_take chunks candidates lambda m,
      mmrRanked_take chunks candidates lambda k,List.take_take,Nat.min_eq_left hm]
  · intro hlambda hranked
    have hone : max 0 (min 1 lambda) = 1 := by
      rw [min_eq_left hlambda,max_eq_right zero_le_one]
    rw [hone] at hgreedy
    have horder := hgreedy.unique (greedy_range hranked (Nat.min_le_right k _))
      (hlength.trans List.length_range.symm)
    rw [← h,mmrRanked]
    change pick candidates (mmrOrder chunks candidates lambda k) = _
    rw [horder,← List.take_range,pick_take (fun i hi => List.mem_range.mp hi),pick_range]

end candidates

section neighbours

/-- All three are alike, and the first two are chosen. -/
theorem mmr_neighboured : ∃ order,
    Greedy (mmrScore neighbouredChunks neighbouredCandidates (max 0 (min 1 (1/2))))
      neighbouredCandidates.length order ∧ order.length = min 2 neighbouredCandidates.length ∧
        neighbouredCandidates.take 2 = pick neighbouredCandidates order :=
  have h : mmr neighbouredChunks neighbouredCandidates 2 (1/2) =
      some (neighbouredCandidates.take 2) := by decide +kernel
  (mmr_greedy h).1

end neighbours

section bounds

lemma dot_cons (x y : ℚ) (a b : Vec) : dot (x::a) (y::b) = x*y + dot a b := by
  rw [dot,List.zipWith_cons_cons,List.sum_cons]
  rfl

lemma dot_self_nonneg (a : Vec) : 0 ≤ dot a a := by
  induction a with
  | nil => exact le_rfl
  | cons x a ih =>
    rw [dot_cons]
    exact add_nonneg (mul_self_nonneg x) ih

/-- Twice a product is at most the squares. -/
lemma two_mul_dot_le (a b : Vec) : 2*dot a b ≤ dot a a + dot b b := by
  induction a generalizing b with
  | nil =>
    rw [dot,List.zipWith_nil_left,List.sum_nil,mul_zero]
    exact add_nonneg (dot_self_nonneg []) (dot_self_nonneg b)
  | cons x a ih =>
    cases b with
    | nil =>
      rw [dot,List.zipWith_nil_right,List.sum_nil,mul_zero]
      exact add_nonneg (dot_self_nonneg (x::a)) (dot_self_nonneg [])
    | cons y b =>
      rw [dot_cons,dot_cons,dot_cons]
      have := ih b
      nlinarith only [this,sq_nonneg (x-y)]

lemma dot_self_le {v : Vec} (h : normalized v = true) : dot v v ≤ 2 := by
  obtain ⟨-,hunit⟩ := of_decide_eq_true h
  have hle := (abs_le.mp hunit).2
  norm_num [kUnitTolerance] at hle
  linarith

lemma foldl_max_lt {l : List ℚ} {x bound : ℚ} (hx : x < bound) (h : ∀ y ∈ l, y < bound) :
    l.foldl max x < bound := by
  induction l generalizing x with
  | nil => exact hx
  | cons y l ih =>
    exact ih (max_lt hx (h y List.mem_cons_self)) fun z hz => h z (List.mem_cons_of_mem _ hz)

lemma foldl_min_le {l : List ℚ} {x y : ℚ} (hy : y ∈ x::l) : l.foldl min x ≤ y := by
  induction l generalizing x y with
  | nil => exact (List.mem_singleton.mp hy).ge
  | cons z l ih =>
    rw [List.foldl_cons]
    obtain rfl | hy := List.mem_cons.mp hy
    · exact (ih List.mem_cons_self).trans (min_le_left y z)
    · obtain rfl | hy := List.mem_cons.mp hy
      · exact (ih List.mem_cons_self).trans (min_le_right x y)
      · exact ih (List.mem_cons_of_mem _ hy)

end bounds

section agreement
variable {chunks : OrdMap Bytes StoredChunk} {candidates : CandidateList} {corpus : IndexedCorpus}
  {hits : List Hit} {lambda : ℚ}

/-- A candidate and a hit with one score, whose chunks have one embedding. -/
def SameChunk (chunks : OrdMap Bytes StoredChunk) (corpus : IndexedCorpus) (candidate : Candidate)
    (hit : Hit) : Prop :=
  candidate.rawScore = hit.score ∧
    ∃ stored, placeOf chunks candidate = some stored ∧ stored.embedding = embeddingOf corpus hit

lemma map_rawScore (h : List.Forall₂ (SameChunk chunks corpus) candidates hits) :
    candidates.map Candidate.rawScore = hits.map Hit.score := by
  induction h with
  | nil => rfl
  | cons hsame _ ih => rw [List.map_cons,List.map_cons,hsame.1,ih]

/-- Unit vectors of one dimension. -/
structure UnitHits (corpus : IndexedCorpus) (hits : List Hit) (dimension : ℕ) : Prop where
  length : ∀ hit ∈ hits, (embeddingOf corpus hit).length = dimension
  normalized : ∀ hit ∈ hits, normalized (embeddingOf corpus hit) = true

lemma UnitHits.dense {dimension : ℕ} (h : UnitHits corpus hits dimension) :
    (hits.all fun hit => embeddingOf corpus hit ≠ []) = true := by
  rw [List.all_eq_true]
  intro hit hmem
  exact decide_eq_true (of_decide_eq_true (h.normalized hit hmem)).1

/-- Below the bound, both compare the embeddings. -/
lemma similarity_eq (h : List.Forall₂ (SameChunk chunks corpus) candidates hits) {dimension : ℕ}
    (hunit : UnitHits corpus hits dimension) {i j : ℕ} (hi : i < hits.length)
    (hj : j < hits.length) :
    (∃ a b, (candidates[i]?).bind (placeOf chunks) = some a ∧
      (candidates[j]?).bind (placeOf chunks) = some b ∧
      similarity a b = hitSimilarity corpus hits i j) ∧ hitSimilarity corpus hits i j ≤ 2 := by
  obtain ⟨hlength,hsame⟩ := List.forall₂_iff_get.mp h
  obtain ⟨-,a,ha,hax⟩ := hsame i (hlength ▸ hi) hi
  obtain ⟨-,b,hb,hby⟩ := hsame j (hlength ▸ hj) hj
  rw [List.get_eq_getElem] at ha hax hb hby
  have hx := hunit.normalized _ (List.getElem_mem hi)
  have hy := hunit.normalized _ (List.getElem_mem hj)
  have hdims : (embeddingOf corpus hits[i]).length = (embeddingOf corpus hits[j]).length :=
    (hunit.length _ (List.getElem_mem hi)).trans (hunit.length _ (List.getElem_mem hj)).symm
  have hhits : hitSimilarity corpus hits i j =
      dot (embeddingOf corpus hits[i]) (embeddingOf corpus hits[j]) := by
    rw [hitSimilarity,List.getElem?_eq_getElem hi,List.getElem?_eq_getElem hj]
    dsimp only
    rw [if_pos hunit.dense,if_pos hdims]
  constructor
  · refine ⟨a,b,?_,?_,?_⟩
    · rw [List.getElem?_eq_getElem (hlength ▸ hi)]
      exact ha
    · rw [List.getElem?_eq_getElem (hlength ▸ hj)]
      exact hb
    · rw [hhits,similarity,hax,hby,if_pos ⟨(of_decide_eq_true hx).1,hdims⟩]
  · rw [hhits]
    have htwo := two_mul_dot_le (embeddingOf corpus hits[i]) (embeddingOf corpus hits[j])
    have := dot_self_le hx
    have := dot_self_le hy
    linarith

lemma mmrScore_eq_hitScore (h : List.Forall₂ (SameChunk chunks corpus) candidates hits)
    {dimension : ℕ} (hunit : UnitHits corpus hits dimension) {chosen : List ℕ}
    (hchosen : ∀ j ∈ chosen, j < hits.length) {i : ℕ} (hi : i < hits.length) :
    mmrScore chunks candidates lambda chosen i = hitScore corpus hits lambda chosen i := by
  have hscores := map_rawScore h
  unfold mmrScore hitScore relevance lowScore highScore
  dsimp only
  rw [← List.head?_map,← List.head?_map,← List.getElem?_map,← List.getElem?_map,hscores]
  congr 3
  refine List.map_congr_left fun j hj => ?_
  obtain ⟨⟨a,b,ha,hb,heq⟩,-⟩ := similarity_eq h hunit hi (hchosen j hj)
  rw [ha,hb]
  exact heq

lemma relevance_nonneg {i : ℕ} (hi : i < hits.length) : 0 ≤ relevance hits i := by
  have hmem : hits[i].score ∈ hits.map Hit.score := List.mem_map_of_mem (List.getElem_mem hi)
  have hlow := foldl_min_le (x := ((hits.map Hit.score).head?.getD 0))
    (List.mem_cons_of_mem _ hmem)
  unfold relevance
  dsimp only
  rw [List.getElem?_eq_getElem hi,Option.map_some,Option.getD_some,← List.head?_map]
  refine div_nonneg (sub_nonneg.mpr hlow) ?_
  split_ifs with hwide
  · exact (lt_trans (by norm_num [kFlatRange]) hwide).le
  · exact zero_le_one

/-- No score is below the floor. -/
lemma neg_kFar_lt_hitScore (h : List.Forall₂ (SameChunk chunks corpus) candidates hits)
    {dimension : ℕ} (hunit : UnitHits corpus hits dimension) (hlambda : 0 ≤ lambda)
    (hlambda' : lambda ≤ 1) {chosen : List ℕ} (hchosen : ∀ j ∈ chosen, j < hits.length) {i : ℕ}
    (hi : i < hits.length) : -kFar < hitScore corpus hits lambda chosen i := by
  have hred : (chosen.map (hitSimilarity corpus hits i)).foldl max 0 < 3 := by
    refine foldl_max_lt (by norm_num) ?_
    intro y hy
    obtain ⟨j,hj,rfl⟩ := List.mem_map.mp hy
    linarith [(similarity_eq h hunit hi (hchosen j hj)).2]
  have hrel := relevance_nonneg hi
  have hfar : (3 : ℚ) < kFar := by norm_num [kFar]
  rw [hitScore]
  nlinarith [mul_nonneg hlambda hrel]

/-- Over chunks with unit vectors of one dimension, both choose the same positions. -/
theorem mmrs_agree (h : List.Forall₂ (SameChunk chunks corpus) candidates hits) {dimension : ℕ}
    (hunit : UnitHits corpus hits dimension) {k : ℕ} (hk : k ≠ 0) :
    ∃ order, mmr chunks candidates k lambda = some (pick candidates order) ∧
      mmrHits corpus hits lambda k = pick hits order := by
  have hlength := h.length_eq
  have hclamp : 0 ≤ max 0 (min 1 lambda) ∧ max 0 (min 1 lambda) ≤ 1 :=
    ⟨le_max_left _ _,max_le zero_le_one (min_le_left _ _)⟩
  have hresolved : (candidates.all fun candidate => (placeOf chunks candidate).isSome) = true := by
    rw [List.all_eq_true]
    intro candidate hmem
    obtain ⟨m,hm,rfl⟩ := List.mem_iff_getElem.mp hmem
    obtain ⟨-,stored,hstored,-⟩ := (List.forall₂_iff_get.mp h).2 m hm (hlength ▸ hm)
    rw [List.get_eq_getElem] at hstored
    rw [hstored]
    rfl
  obtain ⟨hgreedy,hcount⟩ := greedy_mmrOrder chunks candidates lambda k
  refine ⟨mmrOrder chunks candidates lambda k,?_,?_⟩
  · rw [mmr,if_neg fun hbad => hbad.2 hresolved]
    rfl
  · -- Both orders are greedy for the scores of the hits.
    set score := hitScore corpus hits (max 0 (min 1 lambda))
    have hsame : Greedy score hits.length (mmrOrder chunks candidates lambda k) := by
      rw [← hlength]
      exact hgreedy.congr fun chosen hchosen i hi _ => mmrScore_eq_hitScore h hunit
        (fun j hj => hlength ▸ hchosen j hj) (hlength ▸ hi)
    have hbest : ∀ chosen, Greedy score hits.length chosen → hitNext corpus hits lambda chosen =
        mmrBest (score chosen) chosen hits.length := fun chosen hchosen =>
      hitBest_eq_mmrBest fun j hj _ =>
        neg_kFar_lt_hitScore h hunit hclamp.1 hclamp.2 hchosen.lt hj
    have hsome : ∀ chosen i, Greedy score hits.length chosen →
        hitNext corpus hits lambda chosen = some i →
          FirstBest (score chosen) chosen hits.length i :=
      fun chosen i hchosen hi =>
        (mmrBest_spec (score chosen) chosen hits.length).1 i (hbest chosen hchosen ▸ hi)
    have hnone : ∀ chosen, Greedy score hits.length chosen →
        hitNext corpus hits lambda chosen = none → ∀ j < hits.length, j ∈ chosen :=
      fun chosen hchosen hi =>
        (mmrBest_spec (score chosen) chosen hits.length).2 (hbest chosen hchosen ▸ hi)
    obtain ⟨horder,hcount'⟩ := greedy_select hsome hnone (min k hits.length) greedy_nil
    have heq := horder.unique hsame (hcount'.trans (by rw [hcount,hlength,List.length_nil]; omega))
    rw [mmrHits,if_neg hk,heq]

end agreement

section unit

/-- A corpus of three chunks with one embedding. -/
def unitCorpus : IndexedCorpus :=
  { IndexedCorpus.start ⟨fun _ => [],fun _ _ => 0⟩ {} {} {} 0 32 with embeddings := [[1],[1],[1]] }

def unitHits : List Hit := [⟨0,1⟩,⟨1,1⟩,⟨2,1⟩]

theorem unit_mmrs_agree : ∃ order,
    mmr neighbouredChunks neighbouredCandidates 2 (1/2) = some (pick neighbouredCandidates order) ∧
      mmrHits unitCorpus unitHits (1/2) 2 = pick unitHits order :=
  have hsame : List.Forall₂ (SameChunk neighbouredChunks unitCorpus) neighbouredCandidates
      unitHits :=
    .cons ⟨rfl,_,rfl,rfl⟩ (.cons ⟨rfl,_,rfl,rfl⟩ (.cons ⟨rfl,_,rfl,rfl⟩ .nil))
  have hunit : UnitHits unitCorpus unitHits 1 := ⟨by decide,by decide +kernel⟩
  mmrs_agree hsame hunit (by decide)

end unit

end RagRuntime.Retrieval
