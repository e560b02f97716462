import RagRuntime.Base.Overfetch
import RagRuntime.Index.SearchedCorpus
import RagRuntime.Lexical.RankedTies

/-! What a lexical search of a corpus with removed documents returns, and when that is complete, in
the arithmetic of any platform. -/
namespace RagRuntime.Index
open RagRuntime.Base RagRuntime.Core RagRuntime.Text RagRuntime.Store RagRuntime.Lexical

section finds

variable {K : Type*} [LinearOrder K] [Zero K]

/-- A search of the index returns the first of the documents that it scores, on one of its paths.
The source sorts them partially by score, so that documents with the same score may come in any
order. -/
def Finds (A : Arithmetic K) (index : Bm25Index) (query : Bytes) (find : ℕ → List (ℕ × K)) : Prop :=
  ∀ k, ∃ path : Bm25Index.Path, path.Available index ∧ ∃ ranking : List (ℕ × K),
    ranking.Perm (A.scored index query path) ∧ Descending Prod.snd ranking ∧
      find k = ranking.take k

/-- The search with a stable sort is one of them. -/
theorem finds_stable (A : Arithmetic K) (index : Bm25Index) (query : Bytes) :
    Finds A index query
      (Arithmetic.topOn (PartialSort.stable Prod.snd) A index query index.path) := by
  intro k
  have := PartialSort.isTotal_score (Prod.snd : ℕ × K → K)
  have := PartialSort.isTrans_score (Prod.snd : ℕ × K → K)
  exact ⟨index.path,Bm25Index.available_path index,_,
    List.perm_insertionSort (fun a b : ℕ × K => b.2 ≤ a.2) _,
    List.pairwise_insertionSort (fun a b : ℕ × K => b.2 ≤ a.2) _,PartialSort.top_stable k _⟩

end finds

namespace IndexedCorpus

section answers

variable {K : Type*} (A : Arithmetic K)

/-- The index that is searched: a build or else the search itself has derived the rest from the
postings, here in the arithmetic of a platform. -/
def searched (c : IndexedCorpus) : Bm25Index := A.finalize c.bm25

variable [Zero K]

/-- The score that the index searched gives to a chunk. -/
def score (c : IndexedCorpus) (query : Bytes) (d : ℕ) : K :=
  A.scoreDoc (c.searched A) (c.bm25.analysis.tokenize query) d

/-- The chunk has a term of the query. -/
def hasTerm (c : IndexedCorpus) (query : Bytes) (ch : Chunk) : Bool :=
  (c.bm25.analysis.tokenize query).any fun t =>
    t ∈ c.bm25.analysis.tokenize (indexedText ch.context ch.text)

/-- The chunk is of a live document that the filter, if any, allows. -/
def qualifies (c : IndexedCorpus) (filter : MetaFilter) (ch : Chunk) : Bool :=
  ch.doc ∉ c.core.deletedDocs ∧
    filter.all fun filter => (c.core.docs[ch.doc]?).any fun d => filter d.metadata

/-- The chunks with a term of the query, those of removed documents among them, with their
scores. -/
def matching (c : IndexedCorpus) (query : Bytes) : List (ℕ × K) :=
  (c.core.chunks.filter (c.hasTerm query)).map fun ch => (ch.id,c.score A query ch.id)

/-- The chunks that are asked for. -/
def wanted (c : IndexedCorpus) (query : Bytes) (filter : MetaFilter) : List (ℕ × K) :=
  (c.core.chunks.filter fun ch => c.hasTerm query ch && c.qualifies filter ch).map
    fun ch => (ch.id,c.score A query ch.id)

variable [LinearOrder K]

/-- The hits are distinct chunks that are asked for, as many as `k` and these allow, with the
greatest scores and in order. -/
structure Complete (c : IndexedCorpus) (query : Bytes) (k : ℕ) (filter : MetaFilter)
    (hits : List (ℕ × K)) : Prop where
  length : hits.length = min k (c.wanted A query filter).length
  once : (hits.map Prod.fst).Nodup
  members : ∀ hit ∈ hits, hit ∈ c.wanted A query filter
  descending : hits.Pairwise fun a b => b.2 ≤ a.2
  greatest : ∀ hit ∈ hits, ∀ other ∈ c.wanted A query filter, other ∉ hits → other.2 ≤ hit.2

/-- A filter can be asked about the live chunks with a term of the query. Without one, as many hits
are asked for as there are removed chunks that fewer than the hits due are ahead of, and the hits
due. -/
def Fetches (c : IndexedCorpus) (query : Bytes) (k : ℕ) (filter : MetaFilter) : Prop :=
  if filter.isSome = true then c.links = .dangling → c.wanted A query none = []
  else
    c.core.deletedDocs = ∅ ∨
      let due := min k (c.wanted A query none).length
      ahead Prod.snd (fun hit => c.live hit.1) (c.matching A query) due + due ≤ c.overfetch k

/-- The search has a result, and it is complete. -/
def Answers (c : IndexedCorpus) (query : Bytes) (k : ℕ) (filter : MetaFilter)
    (found : Option (List (ℕ × K))) : Prop := ∃ hits ∈ found, c.Complete A query k filter hits

end answers

section complete

variable {K : Type*} [Zero K] {A : Arithmetic K} {params : Bm25Params} {c : IndexedCorpus}
  {query : Bytes}

lemma Searchable.getElem?_id (h : c.Searchable params) {ch : Chunk}
    (hch : ch ∈ c.core.chunks) :
    c.core.chunks[ch.id]? = some ch := by
  obtain ⟨i,hi⟩ := List.mem_iff_getElem?.mp hch
  rw [(h.placed.positions i ch hi).1,hi]

lemma nodup_matching (h : c.Searchable params) :
    ((c.matching A query).map Prod.fst).Nodup := by
  have hsub : ((c.core.chunks.filter (c.hasTerm query)).map Chunk.id).Sublist
      (c.core.chunks.map Chunk.id) := List.filter_sublist.map _
  have hids : (c.core.chunks.map Chunk.id).Nodup := by
    rw [h.placed.ids]
    exact List.nodup_range
  rw [matching,List.map_map]
  exact hids.sublist hsub

/-- What a search reads of a chunk that it finds. -/
lemma Searchable.wanted_eq (h : c.Searchable params) (query : Bytes)
    (filter : MetaFilter) :
    c.wanted A query filter = (c.matching A query).filter fun hit => c.live hit.1 &&
      filter.all fun filter => (c.metaOf hit.1).any filter := by
  rw [wanted,matching,List.filter_map,List.filter_filter]
  congr 1
  apply List.filter_congr
  intro ch hch
  have hfound := h.getElem?_id hch
  simp only [Function.comp_apply,live,metaOf,hfound,qualifies,Option.all_some,Option.bind_some]
  rw [Bool.and_comm (c.hasTerm query ch)]
  congr 1
  rw [Bool.decide_and]
  congr 1
  cases filter with
  | none => rfl
  | some filter => cases c.core.docs[ch.doc]? <;> simp

lemma Searchable.wanted_none (h : c.Searchable params) (query : Bytes) :
    c.wanted A query none = (c.matching A query).filter fun hit => c.live hit.1 := by
  rw [h.wanted_eq]
  simp

variable [LinearOrder K]

/-- The index reports the chunks with a term of the query. -/
theorem Searchable.scored_perm (h : c.Searchable params) (hgains : A.Gains (c.searched A))
    {path : Bm25Index.Path} (hpath : path.Available (c.searched A)) (query : Bytes) :
    (A.scored (c.searched A) query path).Perm (c.matching A query) := by
  unfold searched at hgains hpath ⊢
  obtain ⟨hnodup,hmem⟩ := (Arithmetic.settled_finalize A h.follows.indexes).scored_spec hgains
    hpath query
  rw [List.perm_ext_iff_of_nodup hnodup.of_map (nodup_matching h).of_map]
  rintro ⟨d,s⟩
  rw [hmem]
  simp only [matching,List.mem_map,List.mem_filter,Prod.mk.injEq,hasTerm,List.any_eq_true,
    decide_eq_true_eq,Bm25Index.Matches,indexedTexts,score,searched]
  constructor
  · rintro ⟨⟨text,⟨ch,hch,rfl,rfl⟩,hterm⟩,rfl⟩
    exact ⟨ch,⟨hch,hterm⟩,rfl,rfl⟩
  · rintro ⟨ch,⟨hch,hterm⟩,rfl,rfl⟩
    exact ⟨⟨_,⟨ch,hch,rfl,rfl⟩,hterm⟩,rfl⟩

lemma Searchable.complete (h : c.Searchable params) {k : ℕ} {filter : MetaFilter}
    {hits : List (ℕ × K)} (hleads : Leads Prod.snd (c.wanted A query filter) k hits) :
    c.Complete A query k filter hits := by
  refine ⟨hleads.length,?_,fun hit hhit => hleads.members.subset hhit,hleads.descending,
    hleads.greatest⟩
  have hnodup : ((c.wanted A query filter).map Prod.fst).Nodup := by
    rw [h.wanted_eq]
    exact (nodup_matching h).sublist (List.filter_sublist.map _)
  obtain ⟨l,hperm,hsub⟩ := hleads.members
  exact (hperm.map Prod.fst).nodup_iff.mp (hnodup.sublist (hsub.map _))

/-- Where no document is removed every chunk is live. -/
lemma live_of_empty (hnone : c.core.deletedDocs = ∅) (d : ℕ) : c.live d = true := by
  unfold live
  rw [hnone]
  cases c.core.chunks[d]? <;> simp

lemma Searchable.ranking (h : c.Searchable params) (hgains : A.Gains (c.searched A))
    {find : ℕ → List (ℕ × K)}
    (hfind : Finds A (c.searched A) query find) (k : ℕ) :
    ∃ ranking, ranking.Perm (c.matching A query) ∧ Descending Prod.snd ranking ∧
      find k = ranking.take k := by
  obtain ⟨path,hpath,ranking,hperm,hdescending,htake⟩ := hfind k
  exact ⟨ranking,hperm.trans (h.scored_perm hgains hpath query),hdescending,htake⟩

/-- Asked for as many hits as there are chunks, a search finds all of live documents. -/
lemma Searchable.liveHits_all (h : c.Searchable params) (hgains : A.Gains (c.searched A))
    {find : ℕ → List (ℕ × K)}
    (hfind : Finds A (c.searched A) query find) :
    ∃ ranking, ranking.Perm (c.matching A query) ∧ Descending Prod.snd ranking ∧
      c.liveHits Prod.fst find c.bm25.docLen.size = ranking.filter fun hit => c.live hit.1 := by
  have hsize : c.bm25.docLen.size = c.core.chunks.length :=
    (h.follows.indexes.size_docLen h.placed.nodup_ids).trans (length_indexedTexts _)
  have hmatching : (c.matching A query).length ≤ c.core.chunks.length := by
    rw [matching,List.length_map]
    exact List.length_filter_le _ _
  unfold liveHits
  split_ifs with hnone
  · obtain ⟨ranking,hperm,hdescending,htake⟩ := h.ranking hgains hfind c.bm25.docLen.size
    refine ⟨ranking,hperm,hdescending,?_⟩
    rw [htake,List.take_of_length_le (by rw [hperm.length_eq,hsize]; exact hmatching)]
    exact (List.filter_eq_self.mpr fun hit _ => live_of_empty hnone hit.1).symm
  · obtain ⟨ranking,hperm,hdescending,htake⟩ :=
    h.ranking hgains hfind (c.overfetch c.bm25.docLen.size)
    have hremoved : c.core.deletedDocs.card ≤ kMaxDocuments := by
      have hsub : c.core.deletedDocs ⊆ Finset.range c.core.docs.length := fun i hi =>
        Finset.mem_range.mpr (h.valid.deleted i hi)
      have hcard := Finset.card_le_card hsub
      rw [Finset.card_range] at hcard
      exact hcard.trans h.valid.documents
    have hchunks := h.valid.chunks
    have hfetched : c.core.chunks.length ≤ c.overfetch c.bm25.docLen.size := by
      simp only [kMaxDocuments,kMaxChunks] at hremoved hchunks
      rw [overfetch,hsize,Nat.mod_eq_of_lt (by omega)]
      omega
    refine ⟨ranking,hperm,hdescending,?_⟩
    have hlength := hperm.length_eq
    have hcut : ranking.take (c.overfetch c.bm25.docLen.size) = ranking :=
      List.take_of_length_le (by omega)
    rw [htake,hcut,List.take_of_length_le]
    have hfilter := List.length_filter_le (fun hit : ℕ × K => c.live hit.1) ranking
    omega

/-- Asked for fewer hits, it finds as many as its over-fetch allows. -/
lemma Searchable.complete_unfiltered_iff (h : c.Searchable params)
    (hgains : A.Gains (c.searched A)) {k : ℕ} (hk : 1 ≤ k)
    (hsome : c.core.deletedDocs ≠ ∅) :
    (∀ find, Finds A (c.searched A) query find →
      c.Complete A query k none (c.liveHits Prod.fst find k)) ↔
    let due := min k (c.wanted A query none).length
    ahead Prod.snd (fun hit => c.live hit.1) (c.matching A query) due + due ≤ c.overfetch k := by
  have hwanted := h.wanted_none (A := A) query
  have hcount : (c.wanted A query none).length =
      (c.matching A query).countP fun hit => c.live hit.1 := by
    rw [hwanted,List.countP_eq_length_filter]
  dsimp only
  rw [hcount]
  constructor
  · intro hall
    apply ahead_le_of_forall
    intro ranking hperm hdescending
    have hpath := Bm25Index.available_path (c.searched A)
    have hcomplete := hall (fun k => ranking.take k) fun k =>
      ⟨_,hpath,ranking,hperm.trans (h.scored_perm hgains hpath query).symm,hdescending,rfl⟩
    have hlength := hcomplete.length
    rw [liveHits,if_neg hsome,hcount,List.length_take] at hlength
    simp only [List.countP_eq_length_filter] at hlength ⊢
    omega
  · intro hfetched find hfind
    obtain ⟨ranking,hperm,hdescending,htake⟩ := h.ranking hgains hfind (c.overfetch k)
    have hfound := le_countP_take hperm hdescending (min_le_right _ _) hfetched
    rw [liveHits,if_neg hsome,htake,max_eq_left hk]
    rw [take_filter_take (by rw [hperm.countP_eq]; exact hfound)]
    apply h.complete
    rw [hwanted]
    exact leads_take (hperm.filter _) (List.Pairwise.filter _ hdescending) k

omit [LinearOrder K] in
/-- A filter is asked about the live chunks with a term of the query. -/
lemma Searchable.readsFreed_iff (h : c.Searchable params) {ranking : List (ℕ × K)}
    (hperm : ranking.Perm (c.matching A query)) :
    c.ReadsFreed ((ranking.filter fun hit => c.live hit.1).map Prod.fst) ↔
      c.links = .dangling ∧ c.wanted A query none ≠ [] := by
  have hwanted : (ranking.filter fun hit => c.live hit.1).Perm (c.wanted A query none) := by
    rw [h.wanted_none]
    exact hperm.filter _
  refine and_congr Iff.rfl ?_
  constructor
  · rintro ⟨id,hid,-⟩ hnone
    rw [hnone] at hwanted
    rw [hwanted.eq_nil] at hid
    cases hid
  · intro hsome
    obtain ⟨hit,hhit⟩ := List.exists_mem_of_ne_nil _ hsome
    refine ⟨hit.1,List.mem_map_of_mem (hwanted.mem_iff.mpr hhit),?_⟩
    rw [h.wanted_none,matching] at hhit
    obtain ⟨ch,hch,rfl⟩ := List.mem_map.mp (List.mem_filter.mp hhit).1
    exact (List.getElem?_eq_some_iff.mp (h.getElem?_id (List.mem_filter.mp hch).1)).1

/-- Which searches are complete whatever order documents with the same score are found in. -/
theorem Searchable.complete_iff (h : c.Searchable params) (hgains : A.Gains (c.searched A))
    {k : ℕ} (hk : 1 ≤ k) (filter : MetaFilter) :
    (∀ find, Finds A (c.searched A) query find →
      c.Answers A query k filter (c.passingHits Prod.fst find k filter)) ↔
        c.Fetches A query k filter := by
  cases filter with
  | none =>
    simp only [passingHits,Answers,Fetches,Option.isSome_none,Bool.false_eq_true,if_false,
      Option.mem_some_iff,exists_eq_left']
    by_cases hnone : c.core.deletedDocs = ∅
    · refine ⟨fun _ => .inl hnone,fun _ find hfind => ?_⟩
      obtain ⟨ranking,hperm,hdescending,htake⟩ := h.ranking hgains hfind k
      apply h.complete
      rw [h.wanted_none,List.filter_eq_self.mpr fun hit _ => live_of_empty hnone hit.1,liveHits,
        if_pos hnone,htake]
      exact leads_take hperm hdescending k
    · rw [h.complete_unfiltered_iff hgains hk hnone,or_iff_right hnone]
  | some filter =>
    simp only [passingHits,Fetches,Option.isSome_some,if_true]
    constructor
    · intro hall hlinks
      by_contra hsome
      have hfind := finds_stable A (c.searched A) query
      obtain ⟨ranking,hperm,-,hlive⟩ := h.liveHits_all hgains hfind
      obtain ⟨hits,hhits,-⟩ := hall _ hfind
      rw [hlive,if_pos ((h.readsFreed_iff hperm).mpr ⟨hlinks,hsome⟩)] at hhits
      cases hhits
    · intro hlinks find hfind
      obtain ⟨ranking,hperm,hdescending,hall⟩ := h.liveHits_all hgains hfind
      have hreads : ¬ c.ReadsFreed ((ranking.filter fun hit => c.live hit.1).map Prod.fst) :=
        fun hreads => ((h.readsFreed_iff hperm).mp hreads).2
          (hlinks ((h.readsFreed_iff hperm).mp hreads).1)
      rw [hall,if_neg hreads]
      refine ⟨_,rfl,h.complete ?_⟩
      rw [if_neg (by omega),List.filter_filter,h.wanted_eq]
      have hsame : (fun hit : ℕ × K => (c.metaOf hit.1).any filter && c.live hit.1) = fun hit =>
          c.live hit.1 && (some filter).all fun filter => (c.metaOf hit.1).any filter := by
        funext hit
        rw [Bool.and_comm]
        rfl
      rw [hsame]
      exact leads_take (hperm.filter _) (List.Pairwise.filter _ hdescending) k

end complete

/-- Every byte is a term. -/
def bytewise : Analysis := ⟨fun text => text.map fun b => [b],fun _ _ => 1⟩

def lineByLine : Session := ⟨start bytewise { maxLines := 1 } {} {} 1 32,[]⟩

/-- A document of four chunks is removed, and one of a single chunk is not. -/
def crowded : List Call :=
  [.addDocument (ascii ['u']) (ascii ['a','\n','a','\n','a','\n','a']) ∅ [] .synced false,
    .addDocument (ascii ['v']) (ascii ['a','b']) ∅ [] .synced false,.removeDocument 0 .synced]

lemma crowded_keepsTerms :
    Machine.Meets (Session.step cosine bytewise) (Session.KeepsTerms bytewise) lineByLine crowded :=
  ⟨trivial,fun _ _ => ⟨trivial,fun _ _ => ⟨trivial,fun _ _ => trivial⟩⟩⟩

/-- Scores with the real logarithm. -/
noncomputable def okapi : Arithmetic ℝ := Arithmetic.exact Bm25Index.okapiIdf

lemma Searchable.okapi_gains {params : Bm25Params} {c : IndexedCorpus} (h : c.Searchable params)
    (hproper : params.Proper) : okapi.Gains (c.searched okapi) := by
  have hparams : c.bm25.finalize.params.Proper := by
    rw [Bm25Index.params_finalize,h.params]
    exact hproper
  exact Arithmetic.exact_gains h.follows.indexes.settled hparams Bm25Index.okapiIdf_pos

lemma default_proper : ({} : Bm25Params).Proper := ⟨by norm_num,by norm_num,by norm_num⟩

/-- The score for a single term is the idf times a rational number. -/
lemma scoreDoc_single (idf : ℕ → ℕ → ℝ) (index : Bm25Index) (t : Bytes) (d : ℕ) :
    (Arithmetic.exact idf).scoreDoc index [t] d =
      idf index.docLen.size (index.postingList t).length *
        ((Arithmetic.exact fun _ _ => (1 : ℚ)).scoreDoc index [t] d : ℚ) := by
  rw [Arithmetic.scoreDoc,Arithmetic.scoreDoc,List.foldl_cons,List.foldl_nil,List.foldl_cons,
    List.foldl_nil]
  cases (index.postingList t).find? fun p => p.doc = d with
  | none => simp
  | some p =>
    change (0 : ℝ) + idf _ _ * ((Arithmetic.exact idf).fraction index p : ℚ) = _
    change _ = _ * (((0 : ℚ) + 1 * (Arithmetic.exact idf).fraction index p : ℚ) : ℝ)
    rw [zero_add,zero_add,one_mul]

/-- What a removal leaves of the chunks: four that are not live, and a live one with a lower
score. -/
lemma crowded_chunks : ∀ s ∈ Machine.run (Session.step cosine bytewise) lineByLine crowded,
    s.corpus.bm25.analysis.tokenize (ascii ['a']) = [ascii ['a']] ∧
    s.corpus.core.deletedDocs ≠ ∅ ∧
    (s.corpus.core.chunks.filter (s.corpus.hasTerm (ascii ['a']))).map Chunk.id = [0,1,2,3,4] ∧
    (List.range 5).map s.corpus.live = [false,false,false,false,true] ∧
    s.corpus.overfetch 1 = 4 ∧
    (s.corpus.bm25.postingList (ascii ['a'])).length ≤ s.corpus.bm25.docLen.size ∧
    ∀ d < 4, (Arithmetic.exact fun _ _ => (1 : ℚ)).scoreDoc s.corpus.bm25.finalize
        [ascii ['a']] 4 <
      (Arithmetic.exact fun _ _ => (1 : ℚ)).scoreDoc s.corpus.bm25.finalize [ascii ['a']] d := by
  decide +kernel

end IndexedCorpus
end RagRuntime.Index
