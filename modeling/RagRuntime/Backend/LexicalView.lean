import RagRuntime.Backend.Candidates
import RagRuntime.Backend.Compaction
import RagRuntime.Base.Overfetch
import RagRuntime.Base.PartialSort
import RagRuntime.Lexical.Bm25Paths

/-! What a lexical search of the embedded backend sees: the active chunks that pass the filter and
have a term of the query. -/
namespace RagRuntime.Backend
open RagRuntime.Base RagRuntime.Core RagRuntime.Dense RagRuntime.Lexical

/-- The texts of the live chunks, numbered in the order of the catalog. -/
def numberedTexts (xs : List LiveChunk) : List (ℕ × Bytes) :=
  xs.zipIdx.map fun x => (x.2,x.1.chunk.indexedText)

lemma map_fst_numberedTexts (xs : List LiveChunk) :
    (numberedTexts xs).map Prod.fst = List.range xs.length := by
  rw [numberedTexts,List.map_map,List.range_eq_range',← List.zipIdx_map_snd 0 xs]
  rfl

lemma mem_numberedTexts {xs : List LiveChunk} {i : ℕ} {text : Bytes} :
    (i,text) ∈ numberedTexts xs ↔ ∃ x, xs[i]? = some x ∧ x.chunk.indexedText = text := by
  simp only [numberedTexts,List.mem_map,Prod.mk.injEq,Prod.exists,List.mem_zipIdx_iff_getElem?]
  constructor
  · rintro ⟨x,j,hx,rfl,rfl⟩
    exact ⟨x,hx,rfl⟩
  · rintro ⟨x,hx,rfl⟩
    exact ⟨x,i,hx,rfl,rfl⟩

namespace Generation
variable {β : Type}

/-- The live chunk `x` with the number `i` answers the request. -/
def Answers (g : Generation β) (request : LexicalRequest) (x : LiveChunk) : Prop :=
  request.filter.passes x.active.prepared.metadata = true ∧
    ∃ term ∈ g.lexical.analysis.tokenize request.query,
      term ∈ g.lexical.analysis.tokenize x.chunk.indexedText

instance (g : Generation β) (request : LexicalRequest) (x : LiveChunk) :
    Decidable (g.Answers request x) := by
  unfold Answers
  infer_instance

/-- All candidates, scored one document at a time. -/
def answering (g : Generation β) (request : LexicalRequest) : CandidateList :=
  ((liveChunks g.documents.entries).zipIdx.filter fun x => g.Answers request x.1).map fun x =>
    ⟨x.1.chunk.key,g.lexical.scoreDoc g.lexical.analysis.idf
      (g.lexical.analysis.tokenize request.query) x.2,.bm25⟩

/-- What the hits are resolved to. -/
structure Resolves (g : Generation β) (xs : List LiveChunk) : Prop where
  ordinalKeys : g.ordinalKeys = xs.map fun x => x.chunk.key
  chunks : ∀ x ∈ xs, g.chunks.find? x.chunk.key = some x.stored

/-- The candidate of a hit, if its chunk passes the filter. -/
def candidateOf (xs : List LiveChunk) (filter : MetadataFilter) (hit : Hit) : Option Candidate :=
  (xs[hit.chunk]?).bind fun x =>
    if filter.passes x.active.prepared.metadata = true then some ⟨x.chunk.key,hit.score,.bm25⟩
    else none

lemma candidateOf_eq_some {xs : List LiveChunk} {filter : MetadataFilter} {hit : Hit}
    {c : Candidate} : candidateOf xs filter hit = some c ↔ ∃ x, xs[hit.chunk]? = some x ∧
      filter.passes x.active.prepared.metadata = true ∧ c = ⟨x.chunk.key,hit.score,.bm25⟩ := by
  rw [candidateOf,Option.bind_eq_some_iff]
  simp only [Option.ite_none_right_eq_some,Option.some.injEq,@eq_comm _ c]

/-- Hits of live chunks are collected in their order until there is no room. -/
lemma collectHits_eq {g : Generation β} {xs : List LiveChunk} (h : g.Resolves xs)
    (filter : MetadataFilter) {hits : List Hit} (hhits : ∀ hit ∈ hits, hit.chunk < xs.length)
    {room : ℕ} (hroom : room ≠ 0) : g.collectHits filter room hits =
      .ok ((hits.filterMap (candidateOf xs filter)).take room) := by
  induction hits generalizing room with
  | nil => simp [collectHits]
  | cons hit hits ih =>
    obtain ⟨x,hx⟩ : ∃ x, xs[hit.chunk]? = some x :=
      ⟨_,List.getElem?_eq_getElem (hhits hit List.mem_cons_self)⟩
    have hrest : ∀ {room : ℕ}, room ≠ 0 → g.collectHits filter room hits =
        .ok ((hits.filterMap (candidateOf xs filter)).take room) := fun hroom =>
      ih (fun e he => hhits e (List.mem_cons_of_mem _ he)) hroom
    rw [collectHits,h.ordinalKeys,List.getElem?_map,hx,Option.map_some]
    dsimp only
    rw [h.chunks x (List.mem_of_getElem? hx)]
    dsimp only
    by_cases hpass : filter.passes x.active.prepared.metadata = true
    · have hfound : candidateOf xs filter hit = some ⟨x.chunk.key,hit.score,.bm25⟩ :=
        candidateOf_eq_some.mpr ⟨x,hx,hpass,rfl⟩
      rw [if_neg (by simpa [LiveChunk.stored] using hpass),List.filterMap_cons_some hfound]
      obtain ⟨room,rfl⟩ := Nat.exists_eq_succ_of_ne_zero hroom
      rw [List.take_succ_cons]
      by_cases hlast : room = 0
      · subst hlast
        rfl
      · rw [if_neg (by omega),Nat.succ_sub_one,hrest hlast]
        rfl
    · have hnone : candidateOf xs filter hit = none := by
        rw [candidateOf,hx,Option.bind_some,if_neg hpass]
      rw [if_pos (by simpa [LiveChunk.stored] using hpass),List.filterMap_cons_none hnone,
        hrest hroom]

end Generation

namespace EmbeddedBackend
variable {β : Type} {b : EmbeddedBackend β}

lemma Formed.resolves (h : b.Formed) :
    b.active.Resolves (liveChunks b.active.documents.entries) := by
  obtain ⟨dense,inDelta,tombstones,hbuilt⟩ := h.built
  exact ⟨hbuilt.ordinalKeys,fun x hx => (hbuilt.chunks _ _).mpr ⟨x,hx,rfl,rfl⟩⟩

lemma Formed.keys (h : b.Formed) :
    ((liveChunks b.active.documents.entries).map fun x => x.chunk.key).Nodup := by
  obtain ⟨dense,inDelta,tombstones,hbuilt⟩ := h.built
  exact hbuilt.keys

lemma Formed.lexical_eq (h : b.Formed) : b.active.lexical =
    (Bm25Index.entered b.analysis {} (numberedTexts
      (liveChunks b.active.documents.entries))).finalize := by
  obtain ⟨dense,inDelta,tombstones,hbuilt⟩ := h.built
  rw [hbuilt.lexical,Bm25Index.entered,numberedTexts,List.foldl_map]
  rfl

lemma Formed.analysis_lexical (h : b.Formed) : b.active.lexical.analysis = b.analysis := by
  rw [h.lexical_eq,Bm25Index.analysis_finalize,Bm25Index.analysis_entered]

lemma Formed.params_lexical (h : b.Formed) : b.active.lexical.params = {} := by
  rw [h.lexical_eq,Bm25Index.params_finalize,Bm25Index.params_entered]

lemma Formed.settled (h : b.Formed) : b.active.lexical.Settled
    (numberedTexts (liveChunks b.active.documents.entries)) := by
  rw [h.lexical_eq]
  refine (Bm25Index.indexes_entered b.analysis {} ?_).settled
  rw [map_fst_numberedTexts]
  exact List.nodup_range

lemma proper_default : ({} : Bm25Params).Proper := ⟨by norm_num,by norm_num,by norm_num⟩

/-- The index reports its matching documents once, each with its own score. -/
lemma Formed.search_eq (h : b.Formed) (hidf : Bm25Index.PositiveIdf b.analysis.idf)
    (query : Bytes) : ∃ reported : List (ℕ × ℚ), (reported.map Prod.fst).Nodup ∧
      (∀ d s, (d,s) ∈ reported ↔ Bm25Index.Matches b.analysis.tokenize
        (numberedTexts (liveChunks b.active.documents.entries)) (b.analysis.tokenize query) d ∧
          s = b.active.lexical.scoreDoc b.analysis.idf (b.analysis.tokenize query) d) ∧
      b.active.lexical.search query b.active.ordinalKeys.length =
        (reported.insertionSort fun a b => b.2 ≤ a.2).map fun e => ⟨e.1,e.2⟩ := by
  have hproper : b.active.lexical.params.Proper := by
    rw [h.params_lexical]
    exact proper_default
  have hpath := Bm25Index.available_path b.active.lexical
  obtain ⟨-,hnodup,hmem⟩ := h.settled.path_spec hproper hidf hpath (b.analysis.tokenize query)
  have hlength := h.settled.length_reported hproper hidf hpath (b.analysis.tokenize query)
  rw [h.analysis_lexical] at hmem
  refine ⟨_,hnodup,hmem,?_⟩
  rw [Bm25Index.search,h.analysis_lexical,h.settled.ranked_eq hproper hidf,h.analysis_lexical,
    List.take_of_length_le]
  rw [List.length_insertionSort,h.resolves.ordinalKeys,List.length_map]
  exact hlength.trans_eq (by rw [numberedTexts,List.length_map,List.length_zipIdx])

lemma matches_iff {xs : List LiveChunk} {tokenize : Bytes → List Bytes} {terms : List Bytes}
    {d : ℕ} : Bm25Index.Matches tokenize (numberedTexts xs) terms d ↔
      ∃ x, xs[d]? = some x ∧ ∃ t ∈ terms, t ∈ tokenize x.chunk.indexedText := by
  simp only [Bm25Index.Matches,mem_numberedTexts]
  constructor
  · rintro ⟨text,⟨x,hx,rfl⟩,hterm⟩
    exact ⟨x,hx,hterm⟩
  · rintro ⟨x,hx,hterm⟩
    exact ⟨_,⟨x,hx,rfl⟩,hterm⟩

/-- One live chunk has one place. -/
lemma Formed.place (h : b.Formed) {i j : ℕ} {x y : LiveChunk}
    (hx : (liveChunks b.active.documents.entries)[i]? = some x)
    (hy : (liveChunks b.active.documents.entries)[j]? = some y)
    (hkey : x.chunk.key = y.chunk.key) : i = j := by
  have hlt := (List.getElem?_eq_some_iff.mp hx).1
  refine (List.getElem?_inj (by simpa using hlt) h.keys).mp ?_
  rw [List.getElem?_map,List.getElem?_map,hx,hy,Option.map_some,Option.map_some,hkey]

lemma Formed.nodup_answering (h : b.Formed) (request : LexicalRequest) :
    ((b.active.answering request).map Candidate.chunk).Nodup := by
  rw [Generation.answering,List.map_map]
  have hall :
      ((liveChunks b.active.documents.entries).zipIdx.map fun x => x.1.chunk.key).Nodup := by
    have hfst := List.zipIdx_map_fst 0 (liveChunks b.active.documents.entries)
    have hkeys := h.keys
    rw [← hfst,List.map_map] at hkeys
    exact hkeys
  exact hall.sublist (List.filter_sublist.map _)

/-- Lexical candidates are the best of the active chunks that pass the filter and share a term with
the query. -/
theorem Formed.lexicalCandidates (h : b.Formed) (hidf : Bm25Index.PositiveIdf b.analysis.idf)
    {request : LexicalRequest} (hk : request.k ≠ 0) :
    ∃ candidates, b.active.lexicalCandidates request = .ok candidates ∧
      (candidates.map Candidate.chunk).Nodup ∧
      Leads Candidate.rawScore (b.active.answering request) request.k candidates := by
  obtain ⟨reported,hnodup,hmem,hsearch⟩ := h.search_eq hidf request.query
  set xs := liveChunks b.active.documents.entries with hxs
  set hits : List Hit := (reported.insertionSort fun a b => b.2 ≤ a.2).map fun e => ⟨e.1,e.2⟩
  have hsorted : (reported.insertionSort fun a b => b.2 ≤ a.2).Perm reported :=
    List.perm_insertionSort _ _
  have hfound : ∀ hit, hit ∈ hits ↔ (∃ x, xs[hit.chunk]? = some x ∧
      ∃ t ∈ b.analysis.tokenize request.query, t ∈ b.analysis.tokenize x.chunk.indexedText) ∧
      hit.score = b.active.lexical.scoreDoc b.analysis.idf (b.analysis.tokenize request.query)
        hit.chunk := by
    intro hit
    rw [← matches_iff,← hmem,← hsorted.mem_iff,List.mem_map]
    constructor
    · rintro ⟨e,he,rfl⟩
      exact he
    · exact fun he => ⟨_,he,rfl⟩
  have hids : hits.Pairwise fun a b => a.chunk ≠ b.chunk := by
    have hperm := (hsorted.map Prod.fst).nodup_iff.mpr hnodup
    rw [List.pairwise_map]
    rwa [List.nodup_iff_pairwise_ne,List.pairwise_map] at hperm
  have hdescending : hits.Pairwise fun a b => b.score ≤ a.score := by
    have := PartialSort.isTotal_score (Prod.snd : ℕ × ℚ → ℚ)
    have := PartialSort.isTrans_score (Prod.snd : ℕ × ℚ → ℚ)
    rw [List.pairwise_map]
    exact List.pairwise_insertionSort (fun a b : ℕ × ℚ => b.2 ≤ a.2) reported
  set ranking := hits.filterMap (Generation.candidateOf xs request.filter)
  have hchunks : (ranking.map Candidate.chunk).Nodup := by
    rw [List.nodup_iff_pairwise_ne,List.pairwise_map,List.pairwise_filterMap]
    refine hids.imp fun hne c hc c' hc' heq => ?_
    obtain ⟨x,hx,-,rfl⟩ := Generation.candidateOf_eq_some.mp hc
    obtain ⟨y,hy,-,rfl⟩ := Generation.candidateOf_eq_some.mp hc'
    exact hne (h.place hx hy heq)
  have hperm : ranking.Perm (b.active.answering request) := by
    rw [List.perm_ext_iff_of_nodup hchunks.of_map (h.nodup_answering request).of_map]
    intro c
    simp only [ranking,List.mem_filterMap,Generation.candidateOf_eq_some,hfound,
      Generation.answering,Generation.Answers,List.mem_map,List.mem_filter,decide_eq_true_eq,
      Prod.exists,List.mem_zipIdx_iff_getElem?,h.analysis_lexical,← hxs]
    constructor
    · rintro ⟨hit,⟨⟨x,hx,hterm⟩,hscore⟩,y,hy,hpass,rfl⟩
      obtain rfl := Option.some.inj (hx.symm.trans hy)
      exact ⟨x,hit.chunk,⟨hx,hpass,hterm⟩,by rw [hscore]⟩
    · rintro ⟨x,i,⟨hx,hpass,hterm⟩,rfl⟩
      exact ⟨⟨i,_⟩,⟨⟨x,hx,hterm⟩,rfl⟩,x,hx,hpass,rfl⟩
  refine ⟨ranking.take request.k,?_,hchunks.sublist ((List.take_sublist _ _).map _),
    leads_take hperm ?_ request.k⟩
  · rw [Generation.lexicalCandidates,if_neg hk,hsearch,
      Generation.collectHits_eq h.resolves request.filter _ hk]
    intro hit hhit
    obtain ⟨⟨x,hx,-⟩,-⟩ := (hfound hit).mp hhit
    exact (List.getElem?_eq_some_iff.mp hx).1
  · rw [Descending,List.pairwise_filterMap]
    refine hdescending.imp fun hle c hc c' hc' => ?_
    obtain ⟨x,-,-,rfl⟩ := Generation.candidateOf_eq_some.mp hc
    obtain ⟨y,-,-,rfl⟩ := Generation.candidateOf_eq_some.mp hc'
    exact hle

lemma Opened.analysis_eq [ApproximateIndex β] {analysis : Analysis}
    {policy : EmbeddedMaintenancePolicy} (h : Opened analysis policy b) :
    b.analysis = analysis := by
  cases h with
  | fresh => rfl
  | restored checkpoint b h =>
    unfold restoreCheckpoint at h
    split_ifs at h with hrevisions
    · cases h
    · cases hdocuments : restoreDocuments checkpoint.revisions checkpoint.documents ∅ with
      | error e =>
        rw [hdocuments] at h
        cases h
      | ok documents =>
        simp only [hdocuments,bind,Except.bind] at h
        split at h
        · cases h
        · split at h
          · cases h
          · cases h
            rfl

end EmbeddedBackend

namespace Maintained
open EmbeddedBackend Preparation

variable {β : Type} [ApproximateIndex β]

lemma analysis_step {s s' : Maintained β} (h : s.Running) {e : Step}
    (hstep : step s e = some s') : s'.backend.analysis = s.backend.analysis := by
  cases hw : e.isWrite with
  | true =>
    cases e with
    | write w =>
      cases hstep
      exact (s.backend.deliver_active w).1
    | _ => cases hw
  | false =>
    cases h.compacted hw hstep with
    | kept e thread c hc => rfl
    | published thread next hrebuilt hbuilt => rfl

lemma running_of_run {analysis : Analysis} {policy : EmbeddedMaintenancePolicy}
    {b : EmbeddedBackend β} (hopened : Opened analysis policy b) {es : List Step}
    {s : Maintained β} (hrun : Machine.run step (Maintained.start b) es = some s) :
    s.Running ∧ s.backend.analysis = analysis := by
  have hstart : (Maintained.start b).Running ∧ (Maintained.start b).backend.analysis = analysis :=
    ⟨⟨hopened.formed,fun thread c hc => by cases hc⟩,hopened.analysis_eq⟩
  exact Machine.run_invariant'
    (I := fun s : Maintained β => s.Running ∧ s.backend.analysis = analysis)
    (fun _ _ _ hi hs => ⟨Running.step hi.1 hs,(analysis_step hi.1 hs).trans hi.2⟩) hstart hrun

/-- Every byte is a term. -/
def byteTerms : Analysis := ⟨fun text => text.map fun c => [c],fun _ _ => 1⟩

def bytewiseUnit : Maintained Unit :=
  Maintained.start (EmbeddedBackend.start byteTerms exactPolicy)

/-- One document is activated and the generation compacted. -/
def compactedOnce : List Step :=
  [.write (.activate (headed 'A' [1,0]) 1),.take 0 true,.rebuild 0,.publish 0]

end Maintained
end RagRuntime.Backend
