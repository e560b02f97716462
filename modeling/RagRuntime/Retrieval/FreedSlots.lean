import RagRuntime.Base.Fallible
import RagRuntime.Retrieval.Pipeline

/-! How many results a search has whose hits are folded: where the choice of the first `k` comes
before the folding, the slots that folding frees stay empty. -/
namespace RagRuntime.Retrieval
open RagRuntime.Base RagRuntime.Base.Folding RagRuntime.Core RagRuntime.Backend RagRuntime.Index
  RagRuntime.Lexical RagRuntime.Text

/-- A slot that folding frees is filled again as long as something is left. -/
def Refilled {α γ : Type} (place : α → Option γ) (into : γ → γ → Bool) (ranked : List α) (k : ℕ)
    (results : ℕ) : Prop := results = min k (folded place into ranked).length

/-- No two of the first `k` hits are folded, or none behind them survives. -/
def NoneFreed {α γ : Type} (place : α → Option γ) (into : γ → γ → Bool) (ranked : List α) (k : ℕ) :
    Prop :=
  (∀ i j, i < j → j < k → nearAt place into ranked i j = false) ∨
    ∀ i ∈ kept (nearAt place into ranked) ranked.length, i < k

section selection

/-- The choices of more are the first ones, wherever they are looked up. -/
lemma pick_select_min {α : Type} {next : List ℕ → Option ℕ} {l : List α}
    (h : ∀ chosen i, next chosen = some i → i < l.length) (k : ℕ) :
    pick l (select next (min k l.length) []) = (pick l (select next l.length [])).take k := by
  have hbounded : ∀ i ∈ select next l.length [], i < l.length :=
    forall_mem_select h l.length fun i hi => (List.not_mem_nil hi).elim
  have hlength : (select next l.length []).length ≤ ([] : List ℕ).length + l.length :=
    length_select_le _ _
  rw [List.length_nil,Nat.zero_add] at hlength
  rw [select_take (Nat.min_le_right k l.length),List.length_nil,Nat.zero_add,pick_take hbounded]
  rcases Nat.le_total k l.length with hk | hk
  · rw [Nat.min_eq_left hk]
  · rw [Nat.min_eq_right hk,List.take_of_length_le (by rw [length_pick hbounded]; omega),
      List.take_of_length_le (by rw [length_pick hbounded]; omega)]

lemma mmrBest_lt {score : ℕ → ℚ} {used : List ℕ} {n i : ℕ} (h : mmrBest score used n = some i) :
    i < n := by
  have hall : ∀ b ∈ mmrBest score used n, b < n := by
    apply List.foldlRecOn (motive := fun best : Option ℕ => ∀ b ∈ best, b < n)
    · intro b hb
      cases hb
    · intro best hbest r hr
      split_ifs
      · exact hbest
      · cases best with
        | none =>
          rintro b ⟨⟩
          exact List.mem_range.mp hr
        | some b =>
          dsimp only
          split_ifs
          · rintro c ⟨⟩
            exact List.mem_range.mp hr
          · exact hbest
  exact hall i h

lemma hitBest_lt {score : ℕ → ℚ} {chosen : List ℕ} {n i : ℕ}
    (h : hitBest score chosen n = some i) : i < n := by
  have hall : ∀ b ∈ hitBest score chosen n, b < n := by
    apply List.foldlRecOn (motive := fun best : Option ℕ × ℚ => ∀ b ∈ best.1, b < n)
    · intro b hb
      cases hb
    · intro best hbest r hr
      split_ifs
      · exact hbest
      · rintro b ⟨⟩
        exact List.mem_range.mp hr
      · exact hbest
  exact hall i h

/-- The first `k` choices of the ranking of all candidates. -/
lemma mmrRanked_take (chunks : OrdMap Bytes StoredChunk) (candidates : CandidateList) (lambda : ℚ)
    (k : ℕ) : mmrRanked chunks candidates lambda k =
      (mmrRanked chunks candidates lambda candidates.length).take k := by
  rw [mmrRanked,mmrRanked,Nat.min_self]
  exact pick_select_min (fun _ _ h => mmrBest_lt h) k

lemma mmrHits_take (corpus : IndexedCorpus) (hits : List Hit) (lambda : ℚ) {k : ℕ} (hk : k ≠ 0) :
    mmrHits corpus hits lambda k = (mmrHits corpus hits lambda hits.length).take k := by
  rw [mmrHits,mmrHits,if_neg hk,ite_self,Nat.min_self]
  exact pick_select_min (fun _ _ h => hitBest_lt h) k

end selection

section counts

variable {α γ : Type} {place : α → Option γ} {into : γ → γ → Bool}

lemma length_folded_le (l : List α) : (folded place into l).length ≤ l.length :=
  (folded_sublist l).length_le

/-- The last cut finds nothing to do. -/
lemma length_take_folded_take (l : List α) (k : ℕ) :
    ((folded place into (l.take k)).take k).length = (folded place into (l.take k)).length := by
  have hle : (folded place into (l.take k)).length ≤ (l.take k).length := length_folded_le _
  rw [List.length_take] at hle ⊢
  omega

lemma refilled_iff (l : List α) (k : ℕ) :
    Refilled place into l k ((folded place into (l.take k)).take k).length ↔
      NoneFreed place into l k := by
  rw [Refilled,length_take_folded_take,length_folded_take_iff]
  rfl

end counts

section ranking

variable (corpus : IndexedCorpus)

def passing (filter : MetaFilter) (hits : List Hit) : List Hit :=
  if filter.isNone then hits else hits.filter fun hit => passes corpus filter hit.chunk

def reranked (query : Bytes) (hits : List Hit) : List Hit :=
  if hits = [] then hits else (rescore corpus query hits).insertionSort IndexedCorpus.hitOrder

/-- The ranking of all hits that are found, before those to be returned are chosen. -/
def rankedPool (retrieve : Context → Result (List Hit × List String)) (query : Bytes) (k : ℕ)
    (filter : MetaFilter) : Result (List Hit) :=
  (retrieve ⟨query,[],k,some corpus,filter,[]⟩).map fun found =>
    reranked corpus query (passing corpus filter found.1)

end ranking

section pipelines

variable {retrieve : Context → Result (List Hit × List String)} {corpus : IndexedCorpus}
  {query : Bytes} {k : ℕ} {filter : MetaFilter} {hits ranked : List Hit} {trace : List String}

lemma runStages_cons {stage : Stage} {ctx next : Context} (h : stage.process ctx = .ok next)
    (stages : List Stage) : runStages (stage::stages) ctx =
      runStages stages { next with trace := next.trace ++ ["→ " ++ stage.name] } := by
  rw [runStages,h]
  rfl

lemma process_filterStage :
    filterStage.process ⟨query,hits,k,some corpus,filter,trace⟩ =
      .ok ⟨query,passing corpus filter hits,k,some corpus,filter,trace⟩ := by
  unfold filterStage passing
  dsimp only
  split_ifs <;> rfl

lemma process_featureRerankStage :
    featureRerankStage.process ⟨query,hits,k,some corpus,filter,trace⟩ =
      .ok ⟨query,reranked corpus query hits,k,some corpus,filter,trace⟩ := by
  unfold featureRerankStage reranked
  dsimp only
  split_ifs <;> rfl

/-- Diversity leaves what it chooses; with no hits there is nothing to choose from. -/
lemma process_mmrStage {lambda : ℚ} :
    (mmrStage lambda).process ⟨query,hits,k,some corpus,filter,trace⟩ =
      .ok ⟨query,mmrHits corpus hits lambda k,k,some corpus,filter,trace⟩ := by
  unfold mmrStage
  dsimp only
  by_cases hnone : hits = []
  · have hempty : mmrHits corpus hits lambda k = hits := by
      rw [hnone,mmrHits,List.length_nil,Nat.min_zero]
      rfl
    rw [if_pos hnone,hempty]
  · have hsame : mmrHits corpus hits lambda (if k = 0 then hits.length else k) =
        mmrHits corpus hits lambda k := by
      unfold mmrHits
      split_ifs <;> rfl
    rw [if_neg hnone,hsame]

lemma process_parentStitchStage {ctx : Context} (h : ctx.corpus = some corpus) (maxGap : ℕ) :
    ∃ trace', (parentStitchStage maxGap).process ctx = .ok { ctx with
      candidates := folded (chunkOf corpus) (parentFoldsInto maxGap) ctx.candidates
      trace := trace' } := by
  refine ⟨(parentStitch maxGap ctx).trace,?_⟩
  rw [← candidates_parentStitch h]
  obtain ⟨query,hits,k,found,filter,trace⟩ := ctx
  dsimp only at h
  subst h
  unfold parentStitchStage parentStitch
  dsimp only
  split_ifs <;> rfl

/-- What the first stages leave is the ranking. -/
lemma runStages_ranked (stages : List Stage)
    (hranked : rankedPool corpus retrieve query k filter = .ok ranked) :
    ∃ trace, runStages (hybridRetrieveStage retrieve::filterStage::featureRerankStage::stages)
      ⟨query,[],k,some corpus,filter,[]⟩ =
        runStages stages ⟨query,ranked,k,some corpus,filter,trace⟩ := by
  unfold rankedPool at hranked
  cases hfound : retrieve ⟨query,[],k,some corpus,filter,[]⟩ with
  | error e =>
    rw [hfound] at hranked
    cases hranked
  | ok found =>
    rw [hfound] at hranked
    have hranked := Except.ok.inj hranked
    have hretrieve : (hybridRetrieveStage retrieve).process ⟨query,[],k,some corpus,filter,[]⟩ =
        .ok ⟨query,found.1,k,some corpus,filter,[] ++ found.2⟩ := by
      unfold hybridRetrieveStage
      dsimp only
      rw [hfound]
      rfl
    refine ⟨[] ++ found.2 ++ ["→ " ++ "hybrid_retrieve"] ++ ["→ " ++ "filter"] ++
      ["→ " ++ "feature_rerank"],?_⟩
    rw [runStages_cons hretrieve,runStages_cons process_filterStage,
      runStages_cons process_featureRerankStage,← hranked]
    rfl

/-- Folding and the cut end every pipeline. -/
lemma runStages_folded {ctx : Context} (h : ctx.corpus = some corpus) (maxGap : ℕ) :
    ∃ last, runStages [parentStitchStage maxGap,topKStage] ctx = .ok last ∧ last.candidates =
      (folded (chunkOf corpus) (parentFoldsInto maxGap) ctx.candidates).take ctx.k := by
  obtain ⟨trace,hstitch⟩ := process_parentStitchStage h maxGap
  exact ⟨_,runStages_cons hstitch [topKStage],rfl⟩

/-- Without diversity all of the ranking is folded. -/
lemma run_contextWith {maxGap : ℕ}
    (hranked : rankedPool corpus retrieve query k filter = .ok ranked) :
    runPipeline (contextWith retrieve maxGap) corpus query k filter =
      .ok ((folded (chunkOf corpus) (parentFoldsInto maxGap) ranked).take k) := by
  obtain ⟨trace,hrun⟩ := runStages_ranked [parentStitchStage maxGap,topKStage] hranked
  obtain ⟨last,hlast,hcandidates⟩ := runStages_folded
    (show (⟨query,ranked,k,some corpus,filter,trace⟩ : Context).corpus =
      some corpus from rfl) maxGap
  rw [runPipeline,contextWith,hrun,hlast,← hcandidates]
  rfl

/-- With diversity what it has chosen is folded. -/
lemma run_qualityContextWith {lambda : ℚ} {maxGap : ℕ}
    (hranked : rankedPool corpus retrieve query k filter = .ok ranked) :
    runPipeline (qualityContextWith retrieve lambda maxGap) corpus query k filter =
      .ok ((folded (chunkOf corpus) (parentFoldsInto maxGap)
        (mmrHits corpus ranked lambda k)).take k) := by
  obtain ⟨trace,hrun⟩ := runStages_ranked
    [mmrStage lambda,parentStitchStage maxGap,topKStage] hranked
  set diverse : Context := ⟨query,mmrHits corpus ranked lambda k,k,some corpus,filter,
    trace ++ ["→ " ++ "mmr"]⟩
  have hdiverse : runStages [mmrStage lambda,parentStitchStage maxGap,topKStage]
      ⟨query,ranked,k,some corpus,filter,trace⟩ =
        runStages [parentStitchStage maxGap,topKStage] diverse :=
    runStages_cons process_mmrStage _
  obtain ⟨last,hlast,hcandidates⟩ := runStages_folded
    (show diverse.corpus = some corpus from rfl) maxGap
  rw [runPipeline,qualityContextWith,hrun,hdiverse,hlast,← hcandidates]
  rfl

end pipelines

section results

variable {backend : CandidateBackend} {request : SearchRequest} {config : RuntimeConfig}
  {candidates : CandidateList} {chunks : OrdMap Bytes StoredChunk} {results : List SearchResult}

/-- The order that diversity gives to all candidates. -/
def diversePool (config : RuntimeConfig) (request : SearchRequest)
    (chunks : OrdMap Bytes StoredChunk) (candidates : CandidateList) : CandidateList :=
  let reranked := featureRerank chunks request.query candidates
  mmrRanked chunks reranked config.mmrLambda reranked.length

/-- The quality profile folds what diversity has chosen. -/
lemma length_search (hquality : request.profile = quality)
    (hresolved : resolvedCandidates backend request config = .ok (candidates,chunks))
    (hsearch : search backend request config = some (.ok results)) :
    results.length = ((folded (placeOf chunks) (foldsInto config.adjacentLineGap)
      ((diversePool config request chunks candidates).take request.topK)).take
        request.topK).length := by
  unfold search at hsearch
  rw [hresolved] at hsearch
  obtain ⟨ranked,hranked,hsearch⟩ := Option.bind_eq_some_iff.mp hsearch
  obtain ⟨found,hfound,hsearch⟩ := Option.bind_eq_some_iff.mp hsearch
  cases hsearch
  rw [← (mapM_eq_some.mp hfound).length_eq]
  unfold rankedCandidates at hranked
  dsimp only at hranked
  rw [if_pos hquality] at hranked
  obtain ⟨output,houtput,rfl⟩ := Option.map_eq_some_iff.mp hranked
  obtain ⟨chosen,hchosen,hstitch⟩ := Option.bind_eq_some_iff.mp houtput
  unfold mmr at hchosen
  split_ifs at hchosen
  rw [Option.some.injEq] at hchosen
  subst hchosen
  unfold stitch at hstitch
  split_ifs at hstitch
  rw [Option.some.injEq,stitchPositions_eq] at hstitch
  subst hstitch
  rw [diversePool,← mmrRanked_take]
  rfl

end results

/-- The search without diversity before the folding fills every slot. The others fill as many as
they can just when no two of the first `k` are folded or nothing else is left. -/
theorem freed_slots (retrieve : Context → Result (List Hit × List String)) (corpus : IndexedCorpus)
    (query : Bytes) (k : ℕ) (filter : MetaFilter) (lambda : ℚ) (maxGap : ℕ)
    (backend : CandidateBackend) (request : SearchRequest) (config : RuntimeConfig) :
    (∀ ranked hits, rankedPool corpus retrieve query k filter = .ok ranked →
      runPipeline (contextWith retrieve maxGap) corpus query k filter = .ok hits →
      Refilled (chunkOf corpus) (parentFoldsInto maxGap) ranked k hits.length) ∧
    (∀ ranked hits, rankedPool corpus retrieve query k filter = .ok ranked →
      runPipeline (qualityContextWith retrieve lambda maxGap) corpus query k filter = .ok hits →
      let pool := mmrHits corpus ranked lambda ranked.length
      Refilled (chunkOf corpus) (parentFoldsInto maxGap) pool k hits.length ↔
        NoneFreed (chunkOf corpus) (parentFoldsInto maxGap) pool k) ∧
    ∀ candidates chunks results, request.profile = quality →
      resolvedCandidates backend request config = .ok (candidates,chunks) →
      search backend request config = some (.ok results) →
      let pool := diversePool config request chunks candidates
      Refilled (placeOf chunks) (foldsInto config.adjacentLineGap) pool request.topK
          results.length ↔
        NoneFreed (placeOf chunks) (foldsInto config.adjacentLineGap) pool request.topK := by
  refine ⟨?_,?_,?_⟩
  · intro ranked hits hranked hrun
    rw [run_contextWith hranked] at hrun
    cases hrun
    exact List.length_take
  · intro ranked hits hranked hrun
    rw [run_qualityContextWith hranked] at hrun
    cases hrun
    by_cases hk : k = 0
    · subst hk
      have hrefilled : Refilled (chunkOf corpus) (parentFoldsInto maxGap)
          (mmrHits corpus ranked lambda ranked.length) 0 0 := (Nat.zero_min _).symm
      have hnone : NoneFreed (chunkOf corpus) (parentFoldsInto maxGap)
          (mmrHits corpus ranked lambda ranked.length) 0 :=
        .inl fun _ _ _ hj => absurd hj (Nat.not_lt_zero _)
      exact iff_of_true hrefilled hnone
    · rw [mmrHits_take corpus ranked lambda hk]
      exact refilled_iff _ k
  · intro candidates chunks results hquality hresolved hsearch
    rw [length_search hquality hresolved hsearch]
    exact refilled_iff _ request.topK

section unfilled

def neighbouredBackend : CandidateBackend where
  lexicalCandidates _ := .ok (neighboured.map fun stored => ⟨stored.key,1,.bm25⟩)
  denseCandidates _ := .ok (neighboured.map fun stored => ⟨stored.key,1,.cosine⟩)
  hybridCandidates _ _ := .ok ⟨[],[]⟩
  fetch _ _ := .ok neighboured

def twoOfThree : SearchRequest :=
  ⟨latin "fox",none,.lexical,2,3,⟨∅,false⟩,quality⟩

/-- What the reranker makes of them. -/
def reshelved : List Hit := [⟨0,kBaseShare⟩,⟨1,kBaseShare/2⟩,⟨2,0⟩]

def retrieveShelved (_ : Context) : Result (List Hit × List String) := .ok (shelved,[])

/-- The neighbour leaves its slot to the other document, unless the choice has been made before. -/
theorem freed_slots_shelved :
    (∃ ranked hits, rankedPool shelf retrieveShelved (latin "fox") 2 none = .ok ranked ∧
      runPipeline (contextWith retrieveShelved 1) shelf (latin "fox") 2 none = .ok hits ∧
      hits.map Hit.chunk = [0,2] ∧
      Refilled (chunkOf shelf) (parentFoldsInto 1) ranked 2 hits.length) ∧
    (∃ ranked hits, rankedPool shelf retrieveShelved (latin "fox") 3 none = .ok ranked ∧
      runPipeline (qualityContextWith retrieveShelved 1 1) shelf (latin "fox") 3 none = .ok hits ∧
      hits.map Hit.chunk = [0,2] ∧
      NoneFreed (chunkOf shelf) (parentFoldsInto 1) (mmrHits shelf ranked 1 ranked.length) 3) ∧
    ∃ candidates chunks results,
      resolvedCandidates neighbouredBackend { twoOfThree with topK := 3 } {} =
        .ok (candidates,chunks) ∧
      search neighbouredBackend { twoOfThree with topK := 3 } {} = some (.ok results) ∧
      results.length = 2 ∧
      NoneFreed (placeOf chunks) (foldsInto ({} : RuntimeConfig).adjacentLineGap)
        (diversePool {} { twoOfThree with topK := 3 } chunks candidates) 3 := by
  obtain ⟨hcontext,-,-⟩ :=
    freed_slots retrieveShelved shelf (latin "fox") 2 none 1 1 neighbouredBackend twoOfThree {}
  obtain ⟨-,hquality,hsearch⟩ := freed_slots retrieveShelved shelf (latin "fox") 3 none 1 1
    neighbouredBackend { twoOfThree with topK := 3 } {}
  have hpool : rankedPool shelf retrieveShelved (latin "fox") 2 none = .ok reshelved ∧
      rankedPool shelf retrieveShelved (latin "fox") 3 none = .ok reshelved ∧
      runPipeline (contextWith retrieveShelved 1) shelf (latin "fox") 2 none =
        .ok [⟨0,kBaseShare⟩,⟨2,0⟩] ∧
      runPipeline (qualityContextWith retrieveShelved 1 1) shelf (latin "fox") 3 none =
        .ok [⟨0,kBaseShare⟩,⟨2,0⟩] := by
    decide +kernel
  obtain ⟨htwo,hthree,hfilled,hkept⟩ := hpool
  obtain ⟨hfound,hfilled'⟩ : search neighbouredBackend { twoOfThree with topK := 3 } {} = some (.ok
      [⟨latin "a0",latin "a",1,kBaseShare + kCoverageShare,latin "fox",[],latin "a",[],∅,1,1⟩,
        ⟨latin "b0",latin "b",1,kBaseShare + kCoverageShare,latin "fox",[],latin "b",[],∅,1,1⟩]) ∧
      (resolvedCandidates neighbouredBackend { twoOfThree with topK := 3 } {}).toOption.any
        (fun resolved => 2 = min 3 (folded (placeOf resolved.2)
          (foldsInto ({} : RuntimeConfig).adjacentLineGap)
          (diversePool {} { twoOfThree with topK := 3 } resolved.2 resolved.1)).length) = true := by
    decide +kernel
  refine ⟨⟨_,_,htwo,hfilled,rfl,hcontext _ _ htwo hfilled⟩,⟨_,_,hthree,hkept,rfl,?_⟩,?_⟩
  · exact (hquality _ _ hthree hkept).mp (by unfold Refilled; decide +kernel)
  · cases hresolved : resolvedCandidates neighbouredBackend { twoOfThree with topK := 3 } {} with
    | error e =>
      rw [hresolved] at hfilled'
      cases hfilled'
    | ok resolved =>
      rw [hresolved,Except.toOption,Option.any_some,decide_eq_true_iff] at hfilled'
      exact ⟨_,_,_,rfl,hfound,rfl,(hsearch _ _ _ rfl hresolved hfound).mp hfilled'⟩

/-- The second choice is the neighbour of the first; it is folded, and the other document is not
looked at again. -/
theorem twoOfThree_unfilled :
    ¬∀ backend request config candidates chunks results, request.profile = quality →
      resolvedCandidates backend request config = .ok (candidates,chunks) →
      search backend request config = some (.ok results) →
      Refilled (placeOf chunks) (foldsInto config.adjacentLineGap)
        (diversePool config request chunks candidates) request.topK results.length := by
  intro h
  obtain ⟨hsearch,hunfilled⟩ : search neighbouredBackend twoOfThree {} = some (.ok
      [⟨latin "a0",latin "a",1,kBaseShare + kCoverageShare,latin "fox",[],latin "a",[],∅,1,1⟩]) ∧
      (resolvedCandidates neighbouredBackend twoOfThree {}).toOption.any (fun resolved =>
        1 ≠ min 2 (folded (placeOf resolved.2) (foldsInto ({} : RuntimeConfig).adjacentLineGap)
          (diversePool {} twoOfThree resolved.2 resolved.1)).length) = true := by
    decide +kernel
  cases hresolved : resolvedCandidates neighbouredBackend twoOfThree {} with
  | error e =>
    rw [hresolved] at hunfilled
    cases hunfilled
  | ok resolved =>
    rw [hresolved,Except.toOption,Option.any_some,decide_eq_true_iff] at hunfilled
    exact hunfilled (h neighbouredBackend twoOfThree
      {} resolved.1 resolved.2 _ rfl hresolved hsearch)

end unfilled

end RagRuntime.Retrieval
