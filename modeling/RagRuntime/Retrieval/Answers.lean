import RagRuntime.Backend.LexicalView
import RagRuntime.Dense.NativeHnsw
import RagRuntime.Fusion.Fuse
import RagRuntime.Retrieval.Diversity

/-! A search whose reads see different generations of one backend. It answers with active chunks of
the generation that the chunks are fetched from, each once, or it does not answer. -/
namespace RagRuntime.Retrieval
open RagRuntime.Base RagRuntime.Base.Folding RagRuntime.Core RagRuntime.Backend RagRuntime.Dense
  RagRuntime.Lexical RagRuntime.Fusion

section fetched

variable {β : Type}

def liveAt (xs : List LiveChunk) (key : Bytes) : Option LiveChunk :=
  xs.find? fun x => x.chunk.key = key

/-- A live chunk as a fetch gives it. -/
def fetchedChunk (options : FetchOptions) (x : LiveChunk) : StoredChunk :=
  { x.stored with
    text := if options.includeText then x.chunk.text else []
    context := if options.includeText then x.chunk.context else []
    embedding := if options.includeEmbedding then x.chunk.embedding else [] }

lemma liveAt_eq_some {xs : List LiveChunk} (h : (xs.map fun x => x.chunk.key).Nodup) {key : Bytes}
    {x : LiveChunk} : liveAt xs key = some x ↔ x ∈ xs ∧ x.chunk.key = key := by
  constructor
  · intro hx
    exact ⟨List.mem_of_find?_eq_some hx,
      of_decide_eq_true (List.find?_some (p := fun x : LiveChunk => x.chunk.key = key) hx)⟩
  · rintro ⟨hx,rfl⟩
    cases hfound : liveAt xs x.chunk.key with
    | none => exact absurd (decide_eq_true rfl) (List.find?_eq_none.mp hfound x hx)
    | some y =>
      have hkey := of_decide_eq_true
        (List.find?_some (p := fun y : LiveChunk => y.chunk.key = x.chunk.key) hfound)
      rw [live_eq_of_key h (List.mem_of_find?_eq_some hfound) hx hkey]

variable {b : EmbeddedBackend β}

/-- The chunk is found where its record says. -/
lemma fetchOne_eq (h : b.Formed) (options : FetchOptions) {x : LiveChunk}
    (hx : x ∈ liveChunks b.active.documents.entries) :
    b.active.fetchOne options x.chunk.key x.stored = .ok (fetchedChunk options x) := by
  obtain ⟨hactive,hchunk⟩ := mem_liveChunks.mp hx
  obtain ⟨-,hvalid,-⟩ := h.filed _ _ hactive
  obtain ⟨i,hi⟩ := List.mem_iff_getElem?.mp hchunk
  have hplace : x.active.prepared.chunks[x.stored.ordinal]? = some x.chunk := by
    have hordinal : x.stored.ordinal = i := (hvalid.chunks i _ hi).ordinal
    rw [hordinal,hi]
  have hdocument : b.active.documents.find? x.stored.document = some x.active := hactive
  unfold Generation.fetchOne
  rw [hdocument]
  dsimp only
  rw [hplace]
  dsimp only
  rw [if_neg (not_not.mpr rfl)]
  obtain ⟨includeText,includeEmbedding⟩ := options
  cases includeText <;> cases includeEmbedding <;> rfl

/-- A fetch gives the live chunks among those asked for, and never fails. -/
lemma fetch_eq (h : b.Formed) (options : FetchOptions) (keys : List Bytes) :
    b.active.fetch options keys =
      .ok ((keys.filterMap (liveAt (liveChunks b.active.documents.entries))).map
        (fetchedChunk options)) := by
  obtain ⟨dense,inDelta,tombstones,hbuilt⟩ := h.built
  induction keys with
  | nil => rfl
  | cons key keys ih =>
    rw [Generation.fetch]
    cases hlive : liveAt (liveChunks b.active.documents.entries) key with
    | none =>
      have hnone : b.active.chunks.find? key = none := by
        rw [Option.eq_none_iff_forall_not_mem]
        intro s hs
        obtain ⟨x,hx,hkey,-⟩ := (hbuilt.chunks _ _).mp hs
        rw [(liveAt_eq_some hbuilt.keys).mpr ⟨hx,hkey⟩] at hlive
        cases hlive
      rw [hnone,List.filterMap_cons_none hlive]
      exact ih
    | some x =>
      obtain ⟨hx,rfl⟩ := (liveAt_eq_some hbuilt.keys).mp hlive
      rw [(hbuilt.chunks _ _).mpr ⟨x,hx,rfl,rfl⟩,List.filterMap_cons_some hlive]
      dsimp only
      rw [fetchOne_eq h options hx,ih]
      rfl

end fetched

section emplaced

variable {κ ν : Type} [LinearOrder κ]

lemma size_foldl_emplace (key : ν → κ) {l : List ν} (hl : (l.map key).Nodup) {m : OrdMap κ ν}
    (hm : ∀ s ∈ l, m.find? (key s) = none) :
    (l.foldl (fun m s => m.emplace (key s) s) m).size = m.size+l.length := by
  induction l generalizing m with
  | nil => rfl
  | cons s l ih =>
    obtain ⟨hnot,hl⟩ := List.nodup_cons.mp hl
    have hnew := hm s List.mem_cons_self
    have hinsert : m.emplace (key s) s = m.insert (key s) s := by
      rw [OrdMap.emplace,OrdMap.contains_eq_false.mpr hnew]
      rfl
    rw [List.foldl_cons,ih hl,hinsert,OrdMap.size_insert _ hnew,List.length_cons]
    · omega
    · intro t ht
      rw [hinsert,OrdMap.find?_insert,if_neg,hm t (List.mem_cons_of_mem _ ht)]
      intro hkey
      exact hnot (hkey ▸ List.mem_map_of_mem ht)

/-- Records of different keys are found under their keys, in whatever order they are emplaced. -/
lemma find?_foldl_emplace (key : ν → κ) {l : List ν} (hl : (l.map key).Nodup) {k : κ} {s : ν} :
    (l.foldl (fun m s => m.emplace (key s) s) (∅ : OrdMap κ ν)).find? k = some s ↔
      s ∈ l ∧ key s = k := by
  have hpairs : ((l.map fun s => (key s,s)).map Prod.fst).Nodup := by rwa [List.map_map]
  have hinsert : l.foldl (fun m s => m.emplace (key s) s) (∅ : OrdMap κ ν) =
      (l.map fun s => (key s,s)).foldl (fun m e => m.insert e.1 e.2) ∅ := by
    rw [← OrdMap.foldl_emplace_eq hpairs fun _ _ => OrdMap.find?_empty _,List.foldl_map]
  rw [hinsert,OrdMap.find?_foldl_insert Prod.fst Prod.snd hpairs]
  simp only [List.mem_map,OrdMap.find?_empty,reduceCtorEq,false_and,or_false]
  constructor
  · rintro ⟨-,⟨s,hs,rfl⟩,rfl,rfl⟩
    exact ⟨hs,rfl⟩
  · rintro ⟨hs,rfl⟩
    exact ⟨_,⟨s,hs,rfl⟩,rfl,rfl⟩

end emplaced

section ranked

variable {chunks : OrdMap Bytes StoredChunk} {candidates : CandidateList}

lemma chunk_rerankOne (terms : List Bytes) (low range : ℚ) (candidate : Candidate) :
    (rerankOne chunks terms low range candidate).chunk = candidate.chunk := by
  unfold rerankOne
  cases chunks.find? candidate.chunk with
  | none => rfl
  | some stored => rfl

/-- Reranking changes the scores and the order. -/
lemma featureRerank_perm (chunks : OrdMap Bytes StoredChunk) (query : Bytes)
    (candidates : CandidateList) : ((featureRerank chunks query candidates).map
      Candidate.chunk).Perm (candidates.map Candidate.chunk) := by
  unfold featureRerank
  dsimp only
  split_ifs with hnone
  · exact List.Perm.refl _
  · refine ((List.perm_insertionSort _ _).map _).trans (List.Perm.of_eq ?_)
    rw [List.map_map]
    exact List.map_congr_left fun c _ => chunk_rerankOne _ _ _ c

lemma placeOf_isSome_iff (c : Candidate) :
    (placeOf chunks c).isSome = true ↔ c.chunk ∈ chunks.keys := by
  rw [placeOf,OrdMap.mem_keys,Option.isSome_iff_exists]

/-- Elements at different positions. -/
lemma pick_subperm {α : Type} {l : List α} {positions : List ℕ} (hnodup : positions.Nodup)
    (hlt : ∀ i ∈ positions, i < l.length) : (pick l positions).Subperm l := by
  obtain ⟨order,hperm,hsublist⟩ := List.subperm_of_subset hnodup
    (fun i hi => List.mem_range.mpr (hlt i hi) : positions ⊆ List.range l.length)
  have hall : (pick l order).Sublist (pick l (List.range l.length)) := hsublist.filterMap _
  rw [pick_range] at hall
  exact ⟨pick l order,hperm.filterMap _,hall⟩

lemma subperm_map {α γ : Type} {l m : List α} (f : α → γ) (h : l.Subperm m) :
    (l.map f).Subperm (m.map f) := by
  obtain ⟨order,hperm,hsublist⟩ := h
  exact ⟨order.map f,hperm.map f,hsublist.map f⟩

lemma folded_ne_nil {α γ : Type} (place : α → Option γ) (into : γ → γ → Bool) {l : List α}
    (h : l ≠ []) : folded place into l ≠ [] := by
  have hpos := List.length_pos_of_ne_nil h
  have hzero : 0 ∈ kept (nearAt place into l) l.length :=
    (mem_kept_iff hpos).mpr fun i _ hi => absurd hi (Nat.not_lt_zero i)
  rw [← List.length_pos_iff,length_folded]
  exact List.length_pos_of_mem hzero

variable {request : SearchRequest} {config : RuntimeConfig}

/-- What is shown of resolved candidates: each at most once, as many as asked for without diversity,
and something unless there are none. -/
lemma rankedCandidates_spec (hall : ∀ c ∈ candidates, c.chunk ∈ chunks.keys)
    (htopK : request.topK ≠ 0) :
    ∃ ranked, rankedCandidates request config chunks candidates = some ranked ∧
      (ranked.map Candidate.chunk).Subperm (candidates.map Candidate.chunk) ∧
      ranked.length ≤ request.topK ∧
      (request.profile ≠ quality → ranked.length = min request.topK candidates.length) ∧
      (ranked = [] ↔ candidates = []) := by
  set reranked := featureRerank chunks request.query candidates with hreranked
  have hperm := featureRerank_perm chunks request.query candidates
  rw [← hreranked] at hperm
  have hlength : reranked.length = candidates.length := by
    simpa using hperm.length_eq
  have hplaced : ∀ c ∈ reranked, (placeOf chunks c).isSome = true := by
    intro c hc
    obtain ⟨d,hd,hkey⟩ := List.mem_map.mp (hperm.mem_iff.mp (List.mem_map_of_mem hc))
    rw [placeOf_isSome_iff,← hkey]
    exact hall d hd
  unfold rankedCandidates
  dsimp only
  rw [← hreranked]
  by_cases hquality : request.profile = quality
  · rw [if_pos hquality]
    obtain ⟨hgreedy,hcount⟩ := greedy_mmrOrder chunks reranked config.mmrLambda request.topK
    set order := mmrOrder chunks reranked config.mmrLambda request.topK
    have hchosen : mmr chunks reranked request.topK config.mmrLambda =
        some (pick reranked order) := by
      rw [mmr,if_neg]
      · rfl
      · exact fun h => h.2 (List.all_eq_true.mpr hplaced)
    have hsub := pick_subperm hgreedy.nodup hgreedy.lt
    have hstitch := stitch_eq (fun c hc => hplaced c (hsub.subset hc)) config.adjacentLineGap
    rw [hchosen,Option.bind_some,hstitch]
    set shown := folded (placeOf chunks) (foldsInto config.adjacentLineGap) (pick reranked order)
    have hshown : shown.Sublist (pick reranked order) := folded_sublist _
    refine ⟨_,rfl,?_,List.length_take_le _ _,fun h => absurd hquality h,?_⟩
    · have htake := ((List.take_sublist request.topK shown).trans hshown).map Candidate.chunk
      exact htake.subperm.trans ((subperm_map _ hsub).trans hperm.subperm)
    · rw [List.take_eq_nil_iff]
      refine ⟨fun h => ?_,fun h => Or.inr ?_⟩
      · by_contra hne
        refine folded_ne_nil _ _ (fun hnil => ?_) (h.resolve_left htopK)
        have hpick := length_pick hgreedy.lt
        have hpos := List.length_pos_of_ne_nil hne
        rw [hnil,List.length_nil,hcount] at hpick
        omega
      · have hnone : pick reranked order = [] :=
          List.eq_nil_of_length_eq_zero (Nat.le_zero.mp (hsub.length_le.trans_eq (by
            rw [hlength,h,List.length_nil])))
        exact List.sublist_nil.mp (hnone ▸ hshown)
  · rw [if_neg hquality]
    refine ⟨_,rfl,((List.take_sublist _ _).map _).subperm.trans hperm.subperm,
      List.length_take_le _ _,fun _ => ?_,?_⟩
    · rw [List.length_take,hlength]
    · rw [← List.length_eq_zero_iff,List.length_take,hlength,← List.length_eq_zero_iff]
      omega

end ranked

section reads

variable {β : Type} [ApproximateIndex β]

/-- A backend of which each read may see another generation. The two lists of a hybrid request are
read at the same time, and the failure of the lexical one is reported first. -/
def readsOver (lexical dense chunks : Generation β) : CandidateBackend where
  lexicalCandidates := lexical.lexicalCandidates
  denseCandidates := dense.denseCandidates
  hybridCandidates lexicalRequest denseRequest := do
    let lexicalList ← lexical.lexicalCandidates lexicalRequest
    let denseList ← dense.denseCandidates denseRequest
    return ⟨lexicalList,denseList⟩
  fetch keys options := chunks.fetch options keys

lemma nodup_dedup (l : CandidateList) (seen : List Bytes) :
    ((TieredDenseIndex.dedup l seen).map Candidate.chunk).Nodup ∧
      ∀ c ∈ TieredDenseIndex.dedup l seen, c ∈ l ∧ c.chunk ∉ seen := by
  induction l generalizing seen with
  | nil => exact ⟨List.nodup_nil,fun c hc => absurd hc List.not_mem_nil⟩
  | cons c l ih =>
    rw [TieredDenseIndex.dedup]
    split_ifs with hseen
    · exact ⟨(ih seen).1,fun d hd =>
        ⟨List.mem_cons_of_mem _ ((ih seen).2 d hd).1,((ih seen).2 d hd).2⟩⟩
    · obtain ⟨hnodup,hrest⟩ := ih (c.chunk::seen)
      constructor
      · rw [List.map_cons,List.nodup_cons]
        refine ⟨fun hmem => ?_,hnodup⟩
        obtain ⟨d,hd,hkey⟩ := List.mem_map.mp hmem
        exact (hrest d hd).2 (hkey ▸ List.mem_cons_self)
      · intro d hd
        obtain rfl | hd := List.mem_cons.mp hd
        · exact ⟨List.mem_cons_self,hseen⟩
        · exact ⟨List.mem_cons_of_mem _ (hrest d hd).1,
            fun hmem => (hrest d hd).2 (List.mem_cons_of_mem _ hmem)⟩

lemma nodup_denseCandidates {g : Generation β} {request : DenseRequest} {out : CandidateList}
    (h : g.denseCandidates request = .ok out) : (out.map Candidate.chunk).Nodup := by
  unfold Generation.denseCandidates at h
  split_ifs at h
  · cases h
    exact List.nodup_nil
  · cases h
    exact List.nodup_nil
  · cases h
  · unfold TieredDenseIndex.search at h
    obtain ⟨base,-,h⟩ := bind_eq_ok.mp h
    obtain ⟨delta,-,h⟩ := bind_eq_ok.mp h
    cases h
    have hnodup := (nodup_dedup ((base ++ delta).insertionSort CandidateOrder) []).1
    rw [if_neg (by assumption)]
    exact hnodup.sublist ((List.take_sublist _ _).map _)

omit [ApproximateIndex β] in
lemma nodup_lexicalCandidates {b : EmbeddedBackend β} (h : b.Formed)
    (hidf : Bm25Index.PositiveIdf b.analysis.idf) {request : LexicalRequest} {out : CandidateList}
    (hout : b.active.lexicalCandidates request = .ok out) : (out.map Candidate.chunk).Nodup := by
  by_cases hk : request.k = 0
  · rw [Generation.lexicalCandidates,if_pos hk] at hout
    cases hout
    exact List.nodup_nil
  · obtain ⟨candidates,hcandidates,hnodup,-⟩ := h.lexicalCandidates hidf hk
    rw [hcandidates] at hout
    cases hout
    exact hnodup

lemma nodup_rrf (lexical dense : CandidateList) (config : RuntimeConfig) (limit : ℕ) :
    ((rrf lexical dense config limit).map Candidate.chunk).Nodup := by
  rw [candidates_rrf,List.map_map]
  exact (nodup_fused _).sublist ((List.take_sublist _ _).map _)

variable {a c : EmbeddedBackend β} {dense : Generation β} {request : SearchRequest}
  {config : RuntimeConfig} {candidates : CandidateList}

lemma nodup_fusedCandidates (ha : a.Formed) (hidf : Bm25Index.PositiveIdf a.analysis.idf)
    {chunks : Generation β}
    (h : fusedCandidates (readsOver a.active dense chunks) request config = .ok candidates) :
    (candidates.map Candidate.chunk).Nodup := by
  unfold fusedCandidates at h
  split_ifs at h
  · cases h
  · dsimp only at h
    split at h
    · exact nodup_lexicalCandidates ha hidf h
    · cases h
    · exact nodup_denseCandidates h
    · cases h
    · obtain ⟨batch,-,h⟩ := bind_eq_ok.mp h
      cases h
      exact nodup_rrf _ _ _ _

/-- What a search shows of its candidates: active chunks of one generation, each once. -/
structure Answers (documents : Catalog) (request : SearchRequest) (candidates : CandidateList)
    (results : List SearchResult) : Prop where
  keys : (results.map SearchResult.chunkKey).Nodup
  live : ∀ r ∈ results, ∃ x ∈ liveChunks documents.entries, ∃ candidate : Candidate,
    candidate.chunk = x.chunk.key ∧ candidate.chunk ∈ candidates.map Candidate.chunk ∧
      r = resultOf candidate x.stored
  count : results.length ≤ request.topK
  filled : request.profile ≠ quality → results.length = min request.topK candidates.length
  nothing : results = [] ↔ candidates = []

lemma map_key_fetched {xs : List LiveChunk} (h : (xs.map fun x => x.chunk.key).Nodup)
    (options : FetchOptions) (keys : List Bytes) :
    ((keys.filterMap (liveAt xs)).map (fetchedChunk options)).map StoredChunk.key =
      keys.filter fun key => (liveAt xs key).isSome := by
  induction keys with
  | nil => rfl
  | cons key keys ih =>
    cases hlive : liveAt xs key with
    | none =>
      rw [List.filterMap_cons_none hlive,ih,List.filter_cons_of_neg]
      rw [hlive]
      exact Bool.false_ne_true
    | some x =>
      obtain ⟨-,rfl⟩ := (liveAt_eq_some h).mp hlive
      rw [List.filterMap_cons_some hlive,List.map_cons,List.map_cons,ih,List.filter_cons_of_pos]
      · rfl
      · rw [hlive]
        rfl

/-- The candidates are resolved if the chunk of each of them is still there. -/
lemma resolvedCandidates_eq (hc : c.Formed)
    (hfused : fusedCandidates (readsOver a.active dense c.active) request config =
      .ok candidates) (hnodup : (candidates.map Candidate.chunk).Nodup) :
    let xs := liveChunks c.active.documents.entries
    let fetched := ((candidates.map Candidate.chunk).filterMap (liveAt xs)).map
      (fetchedChunk ⟨true,decide (request.profile = quality)⟩)
    resolvedCandidates (readsOver a.active dense c.active) request config =
      if ∀ key ∈ candidates.map Candidate.chunk, (liveAt xs key).isSome = true then
        .ok (candidates,fetched.foldl (fun chunks stored => chunks.emplace stored.key stored) ∅)
      else fail .corruptIndex "backend did not resolve every candidate" := by
  intro xs fetched
  have hkeys := map_key_fetched hc.keys ⟨true,decide (request.profile = quality)⟩
    (candidates.map Candidate.chunk)
  have hsize := size_foldl_emplace StoredChunk.key (l := fetched) (m := ∅)
    (hkeys ▸ hnodup.filter _) (fun s _ => OrdMap.find?_empty _)
  have hlength : fetched.length = ((candidates.map Candidate.chunk).filter fun key =>
      (liveAt xs key).isSome).length := by
    rw [← hkeys,List.length_map,List.length_map,List.length_map]
  have hfetch : (readsOver a.active dense c.active).fetch (candidates.map Candidate.chunk)
      ⟨true,decide (request.profile = quality)⟩ = .ok fetched := fetch_eq hc _ _
  unfold resolvedCandidates
  rw [hfused]
  simp only [bind,Except.bind,hfetch]
  rw [hsize,hlength]
  by_cases hall : ∀ key ∈ candidates.map Candidate.chunk, (liveAt xs key).isSome = true
  · rw [if_pos hall,if_neg]
    · rfl
    · rw [List.filter_eq_self.mpr hall,List.length_map,not_not]
      exact Nat.zero_add _
  · rw [if_neg hall,if_pos]
    intro hcount
    refine hall (List.filter_eq_self.mp (List.filter_sublist.eq_of_length ?_))
    rw [List.length_map,← hcount]
    exact (Nat.zero_add _).symm

lemma exists_forall₂_of_forall {α γ : Type} {R : α → γ → Prop} {l : List α}
    (h : ∀ x ∈ l, ∃ y, R x y) : ∃ m, List.Forall₂ R l m := by
  induction l with
  | nil => exact ⟨[],.nil⟩
  | cons x l ih =>
    obtain ⟨y,hy⟩ := h x List.mem_cons_self
    obtain ⟨m,hm⟩ := ih fun z hz => h z (List.mem_cons_of_mem _ hz)
    exact ⟨y::m,.cons hy hm⟩

/-- Resolved candidates are answered with. -/
lemma search_resolved (hc : c.Formed) (htopK : request.topK ≠ 0)
    (hfused : fusedCandidates (readsOver a.active dense c.active) request config =
      .ok candidates) (hnodup : (candidates.map Candidate.chunk).Nodup)
    (hall : ∀ key ∈ candidates.map Candidate.chunk,
      (liveAt (liveChunks c.active.documents.entries) key).isSome = true) :
    ∃ results, search (readsOver a.active dense c.active) request config = some (.ok results) ∧
      Answers c.active.documents request candidates results := by
  set xs := liveChunks c.active.documents.entries with hxs
  set options : FetchOptions := ⟨true,decide (request.profile = quality)⟩
  set fetched := ((candidates.map Candidate.chunk).filterMap (liveAt xs)).map
    (fetchedChunk options)
  have hresolved := resolvedCandidates_eq hc hfused hnodup
  dsimp only at hresolved
  rw [← hxs,if_pos hall] at hresolved
  have hkeys := map_key_fetched hc.keys options (candidates.map Candidate.chunk)
  have hfind : ∀ {k s}, (fetched.foldl (fun chunks stored => chunks.emplace stored.key stored)
      (∅ : OrdMap Bytes StoredChunk)).find? k = some s ↔ s ∈ fetched ∧ s.key = k :=
    find?_foldl_emplace StoredChunk.key (hkeys ▸ hnodup.filter _)
  set chunks := fetched.foldl (fun chunks stored => chunks.emplace stored.key stored)
    (∅ : OrdMap Bytes StoredChunk)
  have hplace : ∀ k ∈ candidates.map Candidate.chunk, ∃ x ∈ xs, x.chunk.key = k ∧
      chunks.find? k = some (fetchedChunk options x) := by
    intro k hk
    obtain ⟨x,hx⟩ := Option.isSome_iff_exists.mp (hall k hk)
    obtain ⟨hmem,hkey⟩ := (liveAt_eq_some hc.keys).mp hx
    exact ⟨x,hmem,hkey,hfind.mpr
      ⟨List.mem_map_of_mem (List.mem_filterMap.mpr ⟨k,hk,hx⟩),hkey⟩⟩
  have hfound : ∀ d ∈ candidates, d.chunk ∈ chunks.keys := fun d hd => OrdMap.mem_keys.mpr
    ((hplace _ (List.mem_map_of_mem hd)).elim fun x hx => ⟨_,hx.2.2⟩)
  obtain ⟨ranked,hranked,hsub,hcount,hfilled,hnothing⟩ :=
    @rankedCandidates_spec chunks candidates request config hfound htopK
  have hshown : ∀ d ∈ ranked, ∃ r, (∃ x ∈ xs, d.chunk = x.chunk.key ∧ r = resultOf d x.stored) ∧
      (placeOf chunks d).map (resultOf d) = some r := by
    intro d hd
    obtain ⟨x,hx,hkey,hfound⟩ := hplace d.chunk (hsub.subset (List.mem_map_of_mem hd))
    exact ⟨_,⟨x,hx,hkey.symm,rfl⟩,by rw [placeOf,hfound]; rfl⟩
  obtain ⟨results,hresults⟩ := exists_forall₂_of_forall hshown
  have hresultKeys : results.map SearchResult.chunkKey = ranked.map Candidate.chunk := by
    clear hranked hsub hcount hfilled hnothing hshown
    induction hresults with
    | nil => rfl
    | cons hr _ ih =>
      obtain ⟨⟨x,-,hkey,rfl⟩,-⟩ := hr
      rw [List.map_cons,List.map_cons,ih,hkey]
      rfl
  have hlength : results.length = ranked.length := hresults.length_eq.symm
  refine ⟨results,?_,?_⟩
  · unfold search
    rw [hresolved]
    dsimp only
    rw [hranked]
    have hmap := mapM_eq_some.mpr (hresults.imp fun d r h => h.2)
    simp only [Option.bind_eq_bind,Option.bind_some,hmap]
    rfl
  · refine ⟨?_,?_,?_,?_,?_⟩
    · rw [hresultKeys]
      obtain ⟨l,hperm,hsublist⟩ := hsub
      exact hperm.nodup_iff.mp (hnodup.sublist hsublist)
    · intro r hr
      obtain ⟨d,hd,⟨x,hx,hkey,rfl⟩,-⟩ := exists_of_forall₂ hresults hr
      exact ⟨x,hx,d,hkey,hsub.subset (List.mem_map_of_mem hd),rfl⟩
    · rw [hlength]
      exact hcount
    · rw [hlength]
      exact hfilled
    · rw [← List.length_eq_zero_iff,hlength,List.length_eq_zero_iff]
      exact hnothing

end reads

section live

variable {β : Type} {b : EmbeddedBackend β}

/-- The candidate is an active chunk that passes the filter. -/
def Passes (documents : Catalog) (filter : MetadataFilter) (candidate : Candidate) : Prop :=
  ∃ x ∈ Backend.passing documents.entries filter, x.chunk.key = candidate.chunk

lemma passes_lexical (h : b.Formed) (hidf : Bm25Index.PositiveIdf b.analysis.idf)
    {request : LexicalRequest} {out : CandidateList}
    (hout : b.active.lexicalCandidates request = .ok out) :
    ∀ candidate ∈ out, Passes b.active.documents request.filter candidate := by
  by_cases hk : request.k = 0
  · rw [Generation.lexicalCandidates,if_pos hk] at hout
    cases hout
    exact fun candidate hcandidate => absurd hcandidate List.not_mem_nil
  · obtain ⟨found,hfound,-,hleads⟩ := h.lexicalCandidates hidf hk
    rw [hfound] at hout
    cases hout
    intro candidate hcandidate
    obtain ⟨⟨x,i⟩,hx,rfl⟩ := List.mem_map.mp (hleads.members.subset hcandidate)
    obtain ⟨hmem,hanswers⟩ := List.mem_filter.mp hx
    exact ⟨x,List.mem_filter.mpr ⟨List.fst_mem_of_mem_zipIdx hmem,(of_decide_eq_true hanswers).1⟩,
      rfl⟩

/-- The approximate index finds only what is allowed. -/
def Obedient (β : Type) [ApproximateIndex β] : Prop :=
  ∀ (index : β) (query : Vec) (allowed : List Bytes) (k : ℕ) (found : CandidateList),
    allowed ≠ [] → ApproximateIndex.search index query allowed k = .ok found →
      ∀ candidate ∈ found, candidate.chunk ∈ allowed

/-- The native graph names only rows that are allowed. -/
lemma obedient_nativeGraph (similarity : Index.Similarity) (policy : NativeHnswPolicy)
    (wiring : List VectorRecord → Index.Wiring) :
    Obedient (NativeGraph similarity policy wiring) := by
  intro (index : NativeHnswIndex) query allowed k found hallowed hfound
  change NativeHnswIndex.search similarity index query allowed k = .ok found at hfound
  have hnamed : ∀ (allow : ℕ → Bool) (hits : List Hit), index.named allow hits = .ok found →
      (∀ (row : ℕ) key, index.keys[row]? = some key → allow row = true → key ∈ allowed) →
      ∀ candidate ∈ found, candidate.chunk ∈ allowed := by
    intro allow hits hnamed hallow candidate hcandidate
    obtain ⟨named,hhits,heq⟩ := bind_eq_ok.mp hnamed
    cases heq
    obtain ⟨hit,-,hone⟩ := exists_of_forall₂ (mapM_eq_ok.mp hhits)
      (List.mem_insertionSort _ |>.mp hcandidate)
    split at hone
    · cases hone
    · rename_i key hkey
      split_ifs at hone with hallows
      · cases hone
      · cases hone
        exact hallow _ _ hkey (Bool.eq_true_of_not_eq_false hallows)
  unfold NativeHnswIndex.search at hfound
  by_cases hnone : k = 0 ∨ index.keys = []
  · rw [if_pos hnone] at hfound
    cases hfound
    exact fun candidate hcandidate => absurd hcandidate List.not_mem_nil
  rw [if_neg hnone] at hfound
  cases hgraph : index.graph with
  | none =>
    rw [hgraph] at hfound
    cases hfound
  | some graph =>
    rw [hgraph] at hfound
    dsimp only at hfound
    split_ifs at hfound with hlength hnorm hall hwanted
    · cases hfound
    · cases hfound
    · exact hnamed _ _ hfound fun row key hkey _ => hall ▸ List.mem_of_getElem? hkey
    · cases hfound
      exact fun candidate hcandidate => absurd hcandidate List.not_mem_nil
    · refine hnamed _ _ hfound fun row key hkey hrow => ?_
      rw [NativeHnswIndex.allowsRow,hkey] at hrow
      exact (of_decide_eq_true hrow).resolve_left hallowed

lemma search_exact_allowed {index : NativeExactIndex} {query : Vec} {allowed : List Bytes} {k : ℕ}
    {found : CandidateList} (hallowed : allowed ≠ [])
    (h : index.search query allowed k = .ok found) :
    ∀ candidate ∈ found, candidate.chunk ∈ allowed := by
  unfold NativeExactIndex.search at h
  split_ifs at h
  · cases h
    exact fun candidate hcandidate => absurd hcandidate List.not_mem_nil
  · cases h
  · cases h
  · cases h
    intro candidate hcandidate
    obtain ⟨row,hrow,rfl⟩ := List.mem_map.mp (topK_subset _ _ hcandidate)
    exact (of_decide_eq_true (List.mem_filter.mp hrow).2).resolve_left hallowed

lemma searchTier_allowed {search : List Bytes → Result CandidateList} {allowed : List Bytes}
    {found : CandidateList} (h : TieredDenseIndex.searchTier search allowed = .ok found)
    (hsearch : allowed ≠ [] → search allowed = .ok found →
      ∀ candidate ∈ found, candidate.chunk ∈ allowed) :
    ∀ candidate ∈ found, candidate.chunk ∈ allowed := by
  unfold TieredDenseIndex.searchTier at h
  split_ifs at h with hnone
  · cases h
    exact fun candidate hcandidate => absurd hcandidate List.not_mem_nil
  · exact hsearch hnone h

variable [ApproximateIndex β]

lemma passes_dense (hobedient : Obedient β) (h : b.Formed) {request : DenseRequest}
    {out : CandidateList} (hout : b.active.denseCandidates request = .ok out) :
    ∀ candidate ∈ out, Passes b.active.documents request.filter candidate := by
  obtain ⟨dense,inDelta,tombstones,hbuilt⟩ := h.built
  have hpasses : ∀ held, ∀ candidate : Candidate,
      candidate.chunk ∈ b.active.allowedKeys request.filter held →
      Passes b.active.documents request.filter candidate := by
    intro held candidate hallowed
    obtain ⟨⟨key,stored⟩,hentry,hkey⟩ := List.mem_map.mp hallowed
    obtain ⟨hentry,hcond⟩ := List.mem_filter.mp hentry
    obtain ⟨x,hx,rfl,rfl⟩ := (hbuilt.chunks _ _).mp (OrdMap.find?_eq_some.mpr hentry)
    exact ⟨x,List.mem_filter.mpr ⟨hx,(of_decide_eq_true hcond).1⟩,hkey⟩
  unfold Generation.denseCandidates at hout
  split_ifs at hout
  · cases hout
    exact fun candidate hcandidate => absurd hcandidate List.not_mem_nil
  · cases hout
    exact fun candidate hcandidate => absurd hcandidate List.not_mem_nil
  · cases hout
  · unfold TieredDenseIndex.search at hout
    obtain ⟨base,hbase,hout⟩ := bind_eq_ok.mp hout
    obtain ⟨delta,hdelta,hout⟩ := bind_eq_ok.mp hout
    cases hout
    intro candidate hcandidate
    rw [if_neg (by assumption)] at hcandidate
    have hmem := ((nodup_dedup _ _).2 _ (List.mem_of_mem_take hcandidate)).1
    rw [List.mem_insertionSort,List.mem_append] at hmem
    obtain hmem | hmem := hmem
    · refine hpasses _ _ (searchTier_allowed hbase (fun hne hsearch => ?_) _ hmem)
      unfold DenseIndex.search at hsearch
      split at hsearch
      · exact search_exact_allowed hne hsearch
      · exact hobedient _ _ _ _ _ hne hsearch
    · exact hpasses _ _ (searchTier_allowed hdelta search_exact_allowed _ hmem)

/-- Both lists are of active chunks that pass the filter, and so is what is fused of them. -/
lemma passes_fused {c : EmbeddedBackend β} (hb : b.Formed) (hc : c.Formed)
    (hidf : Bm25Index.PositiveIdf b.analysis.idf) (hobedient : Obedient β)
    (hsame : b.active.documents = c.active.documents) {chunks : Generation β}
    {request : SearchRequest} {config : RuntimeConfig} {candidates : CandidateList}
    (h : fusedCandidates (readsOver b.active c.active chunks) request config = .ok candidates) :
    ∀ candidate ∈ candidates, Passes b.active.documents request.filter candidate := by
  unfold fusedCandidates at h
  split_ifs at h
  · cases h
  · dsimp only at h
    split at h
    · exact passes_lexical hb hidf h
    · cases h
    · rw [hsame]
      exact passes_dense hobedient hc h
    · cases h
    · obtain ⟨batch,hbatch,h⟩ := bind_eq_ok.mp h
      cases h
      obtain ⟨lexical,hlexical,hbatch⟩ := bind_eq_ok.mp hbatch
      obtain ⟨dense,hdense,hbatch⟩ := bind_eq_ok.mp hbatch
      cases hbatch
      intro candidate hcandidate
      rw [candidates_rrf] at hcandidate
      obtain ⟨e,he,rfl⟩ := List.mem_map.mp hcandidate
      obtain ⟨ranking,hranking,hmem⟩ :=
        mem_map_fst_fused.mp (List.mem_map_of_mem (List.mem_of_mem_take he))
      have hchunk : ∀ l : CandidateList, e.1 ∈ l.map Candidate.chunk →
          (∀ d ∈ l, Passes b.active.documents request.filter d) →
          Passes b.active.documents request.filter ⟨e.1,e.2,.cosine⟩ := by
        intro l hl hall
        obtain ⟨d,hd,hkey⟩ := List.mem_map.mp hl
        obtain ⟨x,hx,hxd⟩ := hall d hd
        exact ⟨x,hx,hxd.trans hkey⟩
      obtain rfl | hranking := List.mem_cons.mp hranking
      · exact hchunk lexical hmem (passes_lexical hb hidf hlexical)
      · obtain rfl := List.mem_singleton.mp hranking
        exact hchunk dense hmem (hsame ▸ passes_dense hobedient hc hdense)

end live

section runs

variable {β : Type} [ApproximateIndex β] {analysis : Analysis} {policy : EmbeddedMaintenancePolicy}
  {b : EmbeddedBackend β} {request : SearchRequest} {config : RuntimeConfig}

/-- No write comes between the two states; compactions may. -/
def Quiet (s t : Maintained β) : Prop :=
  ∃ es, Machine.run Maintained.step s es = some t ∧ ∀ e ∈ es, e.isWrite = false

/-- Compactions leave the documents as they are. -/
lemma Quiet.documents {s t : Maintained β} (h : Quiet s t) (hs : s.Running) :
    t.backend.active.documents = s.backend.active.documents := by
  obtain ⟨es,hrun,hquiet⟩ := h
  induction es generalizing s with
  | nil =>
    cases hrun
    rfl
  | cons e es ih =>
    obtain ⟨u,hstep,hrun⟩ := Machine.run_cons_eq_some.mp hrun
    rw [ih (hs.step hstep) hrun fun f hf => hquiet f (List.mem_cons_of_mem _ hf)]
    cases hs.compacted (hquiet e List.mem_cons_self) hstep with
    | kept e thread c hc => rfl
    | published thread next hrebuilt hbuilt =>
      obtain ⟨dense,hbuilt⟩ := hbuilt
      exact hbuilt.documents

lemma Quiet.running (hopened : EmbeddedBackend.Opened analysis policy b)
    {es : List Maintained.Step} {s t : Maintained β}
    (hrun : Machine.run Maintained.step (Maintained.start b) es = some s) (h : Quiet s t) :
    t.Running ∧ t.backend.analysis = analysis := by
  obtain ⟨fs,hfs,-⟩ := h
  have hall : Machine.run Maintained.step (Maintained.start b) (es ++ fs) = some t := by
    rw [Machine.run_append,hrun,Option.bind_some,hfs]
  exact Maintained.running_of_run hopened hall

/-- The chunks that a lexical search is to find. -/
def answeringChunks (g : Generation β) (request : SearchRequest) : List LiveChunk :=
  (liveChunks g.documents.entries).filter fun x =>
    g.Answers ⟨request.query,request.filter,max request.topK request.candidatePool⟩ x

lemma length_filter_zipIdx {α : Type} (p : α → Bool) (l : List α) :
    (l.zipIdx.filter fun x => p x.1).length = (l.filter p).length := by
  have hfst := congrArg (List.countP p) (List.zipIdx_map_fst 0 l)
  rw [List.countP_map] at hfst
  rw [← List.countP_eq_length_filter,← List.countP_eq_length_filter,← hfst]
  rfl

end runs

section letter
open Machine Maintained

/-- A search for the letter of the one document. -/
def letterSearch : SearchRequest :=
  ⟨ascii ['x'],none,.lexical,2,2,MetadataFilter.none,[]⟩

def activated : List Maintained.Step := [.write (.activate (EmbeddedBackend.headed 'A' [1,0]) 1)]

lemma obedient_unit : Obedient Unit := fun _ _ _ _ _ _ hfound => by cases hfound

end letter
end RagRuntime.Retrieval
