import RagRuntime.Index.BlockedScan
import RagRuntime.Index.GraphedCorpus
import RagRuntime.Index.HnswReach
import RagRuntime.Index.HnswRun

/-! How many hits a dense search of a corpus returns, over the graph or by a scan of its workers. -/
namespace RagRuntime.Index
open RagRuntime.Base RagRuntime.Core RagRuntime.Text RagRuntime.Store RagRuntime.Backend
  RagRuntime.Lexical RagRuntime.Dense RagRuntime.Util

/-- How many hits of eight bytes a vector can hold. -/
def kMaxHits : ℕ := (2^63-1)/8

namespace IndexedCorpus

/-- The scan of the workers. A block that wants room for more hits than a vector can hold throws. -/
def workerScan (c : IndexedCorpus) (workers : ℕ) (query : Vec) (allow : ℕ → Bool) :
    Option (List Hit) :=
  if ∀ b ∈ parallelBlocks c.core.chunks.length workers, reserved b ≤ kMaxHits then
    some (c.blockedScan workers query allow)
  else none

/-- A dense search with a number of workers, none where it throws or has no defined result. -/
def denseSearchWith (similarity : Similarity) (c : IndexedCorpus) (workers : ℕ)
    (answer : Result Vec) (k : ℕ) (filter : MetaFilter) : Option (Result (List Hit)) :=
  if c.embedder = none then some (fail .unavailable "no embedder")
  else
    match answer with
    | .error e => some (.error e)
    | .ok query =>
      let query := similarity.normalize query
      match c.hnsw with
      | some g => (c.graphHits similarity g query k filter).map .ok
      | none =>
        if filter.isSome ∧ c.ReadsFreed c.scanAsks then none
        else (c.workerScan workers query (c.allow filter)).map fun hits =>
          .ok ((hits.insertionSort hitOrder).take k)

/-- The embedded chunks of live documents that the filter allows. -/
def eligible (c : IndexedCorpus) (filter : MetaFilter) : List ℕ :=
  ((c.core.chunks.zip c.embeddings).filter fun entry =>
    entry.2 ≠ [] ∧ entry.1.doc ∉ c.core.deletedDocs ∧ c.allow filter entry.1.id = true).map
      fun entry => entry.1.id

/-- As many different hits as `k` and the chunks there are allow, each of one of them, best
first. -/
structure Full (c : IndexedCorpus) (k : ℕ) (filter : MetaFilter) (hits : List Hit) : Prop where
  length : hits.length = min k (c.eligible filter).length
  once : (hits.map Hit.chunk).Nodup
  members : ∀ hit ∈ hits, hit.chunk ∈ c.eligible filter
  descending : hits.Pairwise fun a b => b.score ≤ a.score

/-- The width of the beam over the base layer, which a filter boosts. -/
def beamWidth (g : HnswIndex) (k : ℕ) (filter : MetaFilter) : Option ℕ :=
  if filter.isSome then g.widened k else some (max g.config.efSearch k)

/-- How many hits are due. -/
def due (c : IndexedCorpus) (k : ℕ) (filter : MetaFilter) : ℕ := min k (c.eligible filter).length

/-- No node of a removed document that the filter allows is unmarked. -/
def MarksRemoved (c : IndexedCorpus) (g : HnswIndex) (filter : MetaFilter) : Prop :=
  ∀ nd ∈ g.nodes, nd.id ∉ g.deleted → c.allow filter nd.id = true → c.live nd.id = true

/-- The nodes can be asked for, there is one if a hit is due, and the beam gets at as many as are
due. -/
structure GraphServes (similarity : Similarity) (c : IndexedCorpus) (g : HnswIndex) (query : Vec)
    (k : ℕ) (filter : MetaFilter) : Prop where
  marked : c.MarksRemoved g filter
  linked : filter.isSome → c.links = .dangling → g.nodes = []
  empty : g.nodes = [] → c.due k filter = 0
  serves : g.nodes ≠ [] → ∃ ef, beamWidth g k filter = some ef ∧
    g.Serves similarity (g.prepareQuery similarity query) (c.allow filter) (c.due k filter) ef

/-- Without a graph the blocks end behind their starts and the rows can be asked for, and a graph
serves. -/
structure Serves (similarity : Similarity) (c : IndexedCorpus) (workers : ℕ) (query : Vec) (k : ℕ)
    (filter : MetaFilter) : Prop where
  blocks : c.hnsw = none → FitsBlocks c.core.chunks.length workers
  linked : c.hnsw = none → filter.isSome → c.links = .dangling → c.eligible none = []
  graph : ∀ g, c.hnsw = some g → c.GraphServes similarity g query k filter

/-- The graph marks the nodes of removed documents, and the beam has room for what is due beside
all the nodes that may not be returned. -/
structure GraphRoomy (c : IndexedCorpus) (g : HnswIndex) (k : ℕ) (filter : MetaFilter) : Prop where
  entry : g.nodes ≠ [] → g.entry < g.nodes.length
  marked : c.MarksRemoved g filter
  width : ∀ ef, beamWidth g k filter = some ef → g.Roomy (c.allow filter) (c.due k filter) ef

def Roomy (c : IndexedCorpus) (k : ℕ) (filter : MetaFilter) : Prop :=
  ∀ g, c.hnsw = some g → c.GraphRoomy g k filter

/-- The search returns, with as many hits as are due. -/
def Answered (similarity : Similarity) (c : IndexedCorpus) (workers : ℕ) (query : Vec) (k : ℕ)
    (filter : MetaFilter) : Prop :=
  ∃ hits, c.denseSearchWith similarity workers (.ok query) k filter = some (.ok hits) ∧
    c.Full k filter hits

variable {c : IndexedCorpus}

/-- Just where the blocks end behind their starts is there room for what they reserve. -/
lemma Stocked.workerScan_eq_some_iff (h : c.Stocked) {workers : ℕ} (hworkers : workers < 2^32)
    {query : Vec} {allow : ℕ → Bool} {hits : List Hit} :
    c.workerScan workers query allow = some hits ↔
      FitsBlocks c.core.chunks.length workers ∧ c.scanHits query allow = hits := by
  have hchunks := h.valid.chunks
  simp only [kMaxChunks] at hchunks
  have hsize : c.core.chunks.length + workers < 2^64 := by omega
  have hroom : (∀ b ∈ parallelBlocks c.core.chunks.length workers, reserved b ≤ kMaxHits) ↔
      FitsBlocks c.core.chunks.length workers := by
    rw [← ordered_iff hsize]
    refine forall₂_congr fun b hb => ?_
    obtain ⟨hlo,hhi⟩ := parallelBlocks_bounds hsize hb
    unfold reserved extent wrap kMaxHits
    omega
  rw [workerScan,blockedScan_eq c hsize,← hroom]
  by_cases hfits : ∀ b ∈ parallelBlocks c.core.chunks.length workers, reserved b ≤ kMaxHits
  · rw [if_pos hfits,Option.some.injEq]
    exact (and_iff_right hfits).symm
  · rw [if_neg hfits]
    exact ⟨fun hnone => absurd hnone (Option.some_ne_none _).symm,fun h => absurd h.1 hfits⟩

/-- Where it does not throw, the number of workers does not matter. -/
theorem Stocked.denseSearchWith_eq (h : c.Stocked) {workers : ℕ} (hworkers : workers < 2^32)
    (similarity : Similarity) (answer : Result Vec) (k : ℕ) (filter : MetaFilter)
    {result : Result (List Hit)}
    (hresult : c.denseSearchWith similarity workers answer k filter = some result) :
    c.denseSearch similarity answer k filter = some result := by
  unfold denseSearchWith at hresult
  unfold denseSearch
  by_cases hembedder : c.embedder = none
  · rw [if_pos hembedder] at hresult ⊢
    exact hresult
  · rw [if_neg hembedder] at hresult ⊢
    cases answer with
    | error e => exact hresult
    | ok query =>
      cases hg : c.hnsw with
      | some g =>
        simp only [hg] at hresult ⊢
        exact hresult
      | none =>
        simp only [hg] at hresult ⊢
        split_ifs at hresult ⊢
        obtain ⟨hits,hscan,rfl⟩ := Option.map_eq_some_iff.mp hresult
        rw [((h.workerScan_eq_some_iff hworkers).mp hscan).2]

lemma eligible_eq (c : IndexedCorpus) (query : Vec) (filter : MetaFilter) :
    (c.scanHits query (c.allow filter)).map Hit.chunk = c.eligible filter := by
  rw [scanHits,eligible,List.map_map]
  rfl

lemma Stocked.nodup_eligible (h : c.Stocked) (filter : MetaFilter) :
    (c.eligible filter).Nodup := h.nodup_zip.sublist (List.filter_sublist.map _)

lemma Stocked.mem_eligible (h : c.Stocked) {filter : MetaFilter} {id : ℕ} :
    id ∈ c.eligible filter ↔ (∃ v, c.embeddings[id]? = some v ∧ v ≠ []) ∧ c.live id = true ∧
      c.allow filter id = true := by
  unfold eligible
  simp only [List.mem_map,List.mem_filter,decide_eq_true_eq]
  constructor
  · rintro ⟨entry,⟨hzip,hne,hlive,hallow⟩,rfl⟩
    obtain ⟨i,hi⟩ := List.mem_iff_getElem?.mp hzip
    obtain ⟨hch,hv⟩ := List.getElem?_zip_eq_some.mp hi
    have hid := (h.placed.positions i _ hch).1
    refine ⟨⟨_,hid.symm ▸ hv,hne⟩,?_,hallow⟩
    rw [live,hid,hch]
    simpa using hlive
  · rintro ⟨⟨v,hv,hne⟩,hlive,hallow⟩
    have hlt := (List.getElem?_eq_some_iff.mp hv).1
    rw [h.embedded] at hlt
    have hch := List.getElem?_eq_getElem hlt
    have hid := (h.placed.positions _ _ hch).1
    refine ⟨(c.core.chunks[id],v),⟨?_,hne,live_eq_true hlive hch,hid.symm ▸ hallow⟩,hid⟩
    exact List.mem_of_getElem? (List.getElem?_zip_eq_some.mpr ⟨hch,hv⟩)

instance : Std.Total hitOrder where
  total a b := by
    unfold hitOrder
    rcases lt_trichotomy a.score b.score with h | h | h
    · exact .inr (.inl h)
    · rcases le_total a.chunk b.chunk with hle | hle
      · exact .inl (.inr ⟨h,hle⟩)
      · exact .inr (.inr ⟨h.symm,hle⟩)
    · exact .inl (.inl h)

instance : IsTrans Hit hitOrder where
  trans a b c := by
    rintro (hab | ⟨hab,hle⟩) (hbc | ⟨hbc,hle'⟩)
    · exact .inl (hbc.trans hab)
    · exact .inl (hbc ▸ hab)
    · exact .inl (hab ▸ hbc)
    · exact .inr ⟨hab.trans hbc,hle.trans hle'⟩

lemma score_le_of_hitOrder {a b : Hit} (h : hitOrder a b) : b.score ≤ a.score := by
  rcases h with hlt | ⟨heq,-⟩
  · exact hlt.le
  · exact heq.ge

/-- The scan finds all that are eligible. -/
theorem Stocked.full_scan (h : c.Stocked) (query : Vec) (k : ℕ) (filter : MetaFilter) :
    c.Full k filter (((c.scanHits query (c.allow filter)).insertionSort hitOrder).take k) := by
  have hsub := List.take_sublist k ((c.scanHits query (c.allow filter)).insertionSort hitOrder)
  have hids : (((c.scanHits query (c.allow filter)).insertionSort hitOrder).map Hit.chunk).Perm
      (c.eligible filter) := by
    rw [← eligible_eq c query filter]
    exact (List.perm_insertionSort hitOrder _).map _
  refine ⟨?_,?_,?_,?_⟩
  · rw [List.length_take,← hids.length_eq,List.length_map]
  · exact (hids.nodup_iff.mpr (h.nodup_eligible filter)).sublist (hsub.map _)
  · exact fun hit hhit => hids.subset (List.mem_map_of_mem (hsub.subset hhit))
  · have hsorted := List.pairwise_insertionSort hitOrder (c.scanHits query (c.allow filter))
    exact (hsorted.imp score_le_of_hitOrder).sublist hsub

lemma Stocked.lt_of_mem_eligible (h : c.Stocked) {filter : MetaFilter} {id : ℕ}
    (hid : id ∈ c.eligible filter) : id < c.core.chunks.length := by
  obtain ⟨⟨v,hv,-⟩,-⟩ := h.mem_eligible.mp hid
  exact h.embedded ▸ (List.getElem?_eq_some_iff.mp hv).1

lemma Stocked.readsFreed_scanAsks (h : c.Stocked) :
    c.ReadsFreed c.scanAsks ↔ c.links = .dangling ∧ c.eligible none ≠ [] := by
  have hasks : c.scanAsks = c.eligible none := by simp [scanAsks,eligible,allow]
  rw [ReadsFreed,hasks]
  refine and_congr_right fun _ => ⟨?_,fun hsome => ?_⟩
  · rintro ⟨id,hid,-⟩
    exact List.ne_nil_of_mem hid
  · obtain ⟨id,hid⟩ := List.exists_mem_of_ne_nil _ hsome
    exact ⟨id,hid,h.lt_of_mem_eligible hid⟩

/-- A scan answers where it can ask for the rows and its blocks end behind their starts. -/
theorem Stocked.scan_answered_iff (h : c.Stocked) {similarity : Similarity} {workers : ℕ}
    (hworkers : workers < 2^32) (hembedder : c.embedder ≠ none) (hg : c.hnsw = none) (query : Vec)
    {k : ℕ} {filter : MetaFilter} : c.Answered similarity workers query k filter ↔
      FitsBlocks c.core.chunks.length workers ∧
        (filter.isSome → c.links = .dangling → c.eligible none = []) := by
  unfold Answered denseSearchWith
  simp only [if_neg hembedder,hg]
  by_cases hfreed : filter.isSome ∧ c.ReadsFreed c.scanAsks
  · rw [if_pos hfreed]
    obtain ⟨hsome,hreads⟩ := hfreed
    obtain ⟨hdangling,hrows⟩ := h.readsFreed_scanAsks.mp hreads
    constructor
    · rintro ⟨hits,hnone,-⟩
      cases hnone
    · rintro ⟨-,hlinked⟩
      exact absurd (hlinked hsome hdangling) hrows
  · rw [if_neg hfreed]
    have hlinked : filter.isSome → c.links = .dangling → c.eligible none = [] := by
      intro hsome hdangling
      by_contra hrows
      exact hfreed ⟨hsome,h.readsFreed_scanAsks.mpr ⟨hdangling,hrows⟩⟩
    constructor
    · rintro ⟨hits,hresult,-⟩
      obtain ⟨found,hscan,-⟩ := Option.map_eq_some_iff.mp hresult
      exact ⟨((h.workerScan_eq_some_iff hworkers).mp hscan).1,hlinked⟩
    · rintro ⟨hfits,-⟩
      rw [(h.workerScan_eq_some_iff hworkers).mpr ⟨hfits,rfl⟩]
      exact ⟨_,rfl,h.full_scan _ k filter⟩

section graph
variable {similarity : Similarity} {g : HnswIndex} {k : ℕ} {filter : MetaFilter} {query : Vec}

/-- With right pointers a filter does no more than allow. -/
lemma graphHits_of_linked (hnodes : ¬ (g.nodes = [] ∨ g.dim = 0))
    (hlinked : filter.isSome → c.links ≠ .dangling) :
    c.graphHits similarity g query k filter =
      (beamWidth g k filter).map (g.beamSearch similarity query k (c.allow filter)) := by
  unfold graphHits beamWidth
  cases filter with
  | none => rfl
  | some filter =>
    have hreads : ¬ c.ReadsFreed (graphAsks similarity g query k) := fun hfreed =>
      hlinked rfl hfreed.1
    simp only [Option.isNone_some,Bool.false_eq_true,if_false,Option.isSome_some,if_true,
      if_neg hreads,HnswIndex.searchFiltered,if_neg hnodes]
    refine congrArg (fun found => (g.widened k).map found) (funext fun ef => ?_)
    rw [HnswIndex.beamSearch,if_neg hnodes]

/-- A beam comes upon a node, and a filter is asked about it. -/
lemma Stocked.graphHits_of_dangling (h : c.Stocked) (hgraph : c.Graphed) (hg : c.hnsw = some g)
    (hentry : g.entry < g.nodes.length) (hsome : filter.isSome = true)
    (hdangling : c.links = .dangling) : c.graphHits similarity g query k filter = none := by
  have hne : g.nodes ≠ [] := List.ne_nil_of_length_pos (Nat.zero_lt_of_lt hentry)
  have hnodes : ¬ (g.nodes = [] ∨ g.dim = 0) := not_or.mpr ⟨hne,hgraph.dim g hg hne⟩
  have hnone : filter.isNone = false := by
    rw [← Option.not_isSome,hsome]
    rfl
  rw [graphHits,hnone,if_neg Bool.false_ne_true]
  cases hwidth : g.widened k with
  | none =>
    have hreads : ¬ c.ReadsFreed (graphAsks similarity g query k) := by
      simp [ReadsFreed,graphAsks,hwidth]
    rw [if_neg hreads,HnswIndex.searchFiltered,if_neg hnodes,hwidth]
    rfl
  | some ef =>
    obtain ⟨i,hi⟩ := List.exists_mem_of_ne_nil _ (HnswIndex.searchLayer_ne_nil (g := g)
      (g.nearness similarity (g.prepareQuery similarity query))
      (g.landing similarity (g.prepareQuery similarity query)) 0 ef)
    have hlt : i < g.nodes.length :=
      HnswIndex.searchLayer_lt _ 0 ef (HnswIndex.descend_lt _ _ hentry) i hi
    obtain ⟨v,hv,-⟩ := hgraph.embedded g hg _ (List.getElem_mem hlt)
    have hchunk := (List.getElem?_eq_some_iff.mp hv).1
    rw [h.embedded] at hchunk
    have hreads : c.ReadsFreed (graphAsks similarity g query k) := by
      refine ⟨hdangling,g.nodes[i].id,?_,hchunk⟩
      rw [graphAsks,if_neg hnodes,hwidth]
      exact List.mem_filterMap.mpr ⟨i,hi,by rw [List.getElem?_eq_getElem hlt]; rfl⟩
    rw [if_pos hreads]

/-- The hits of a marked graph are full when there are as many as are due. -/
theorem Stocked.full_ranked_iff (h : c.Stocked) (hgraph : c.Graphed) (hg : c.hnsw = some g)
    (hmarked : c.MarksRemoved g filter) {nodes : List ℕ} (hn : nodes.Nodup) :
    c.Full k filter (HnswIndex.ranked k (g.hits similarity query (c.allow filter) nodes)) ↔
      c.due k filter ≤ (g.hits similarity query (c.allow filter) nodes).length := by
  set found := g.hits similarity query (c.allow filter) nodes
  have hmembers : ∀ hit ∈ found, hit.chunk ∈ c.eligible filter := by
    intro hit hhit
    obtain ⟨nd,hnd,hid,hlive,hallow⟩ := HnswIndex.mem_hits hhit
    rw [← hid,h.mem_eligible]
    exact ⟨hgraph.embedded g hg nd hnd,hmarked nd hnd hlive hallow,hallow⟩
  have honce : (found.map Hit.chunk).Nodup := HnswIndex.nodup_hits (hgraph.distinct g hg) hn
  have hmost : found.length ≤ (c.eligible filter).length := by
    have hsub : found.map Hit.chunk ⊆ c.eligible filter := by
      intro id hid
      obtain ⟨hit,hhit,rfl⟩ := List.mem_map.mp hid
      exact hmembers hit hhit
    simpa using (List.subperm_of_subset honce hsub).length_le
  have hperm := List.perm_insertionSort (fun a b : Hit => b.score ≤ a.score) found
  have hsub := List.take_sublist k (found.insertionSort fun a b => b.score ≤ a.score)
  have hlength : (HnswIndex.ranked k found).length = min k found.length := by
    rw [HnswIndex.ranked,List.length_take,List.length_insertionSort]
  constructor
  · intro hfull
    have hfound := hfull.length
    rw [hlength] at hfound
    unfold due
    omega
  · intro hdue
    unfold due at hdue
    refine ⟨by rw [hlength]; omega,?_,?_,?_⟩
    · exact ((hperm.map Hit.chunk).nodup_iff.mpr honce).sublist (hsub.map _)
    · exact fun hit hhit => hmembers hit (hperm.subset (hsub.subset hhit))
    · exact (List.pairwise_insertionSort (fun a b : Hit => b.score ≤ a.score) found).sublist hsub

/-- A graph without nodes gives no hits, whatever the pointers are. -/
lemma graphHits_of_empty (hnone : g.nodes = []) :
    c.graphHits similarity g query k filter = some [] := by
  have hreads : ¬ c.ReadsFreed (graphAsks similarity g query k) := by
    simp [ReadsFreed,graphAsks,hnone]
  simp [graphHits,hreads,HnswIndex.search,HnswIndex.searchFiltered,hnone]

lemma full_nil_iff : c.Full k filter [] ↔ c.due k filter = 0 := by
  constructor
  · intro hfull
    exact hfull.length.symm
  · intro hdue
    exact ⟨hdue.symm,List.nodup_nil,fun hit hhit => absurd hhit List.not_mem_nil,
      List.Pairwise.nil⟩

/-- A graph that serves gives as many hits as are due. -/
theorem Stocked.full_graph (h : c.Stocked) (hgraph : c.Graphed) (hg : c.hnsw = some g)
    (hserves : c.GraphServes similarity g query k filter) :
    ∃ hits, c.graphHits similarity g query k filter = some hits ∧ c.Full k filter hits := by
  by_cases hne : g.nodes = []
  · exact ⟨[],graphHits_of_empty hne,full_nil_iff.mpr (hserves.empty hne)⟩
  · have hnodes : ¬ (g.nodes = [] ∨ g.dim = 0) := not_or.mpr ⟨hne,hgraph.dim g hg hne⟩
    obtain ⟨ef,hwidth,hreach⟩ := hserves.serves hne
    rw [graphHits_of_linked hnodes fun hsome hdangling => hne (hserves.linked hsome hdangling),
      hwidth]
    refine ⟨_,rfl,?_⟩
    rw [HnswIndex.beamSearch,if_neg hnodes]
    exact (h.full_ranked_iff hgraph hg hserves.marked
      (HnswIndex.candidates_nodup _ _ _ _)).mpr hreach.le_length_hits

/-- A roomy graph that gives as many hits as are due serves. -/
theorem Stocked.serves_of_full (h : c.Stocked) (hgraph : c.Graphed) (hg : c.hnsw = some g)
    (hroomy : c.GraphRoomy g k filter) {hits : List Hit}
    (hhits : c.graphHits similarity g query k filter = some hits) (hfull : c.Full k filter hits) :
    c.GraphServes similarity g query k filter := by
  by_cases hne : g.nodes = []
  · rw [graphHits_of_empty hne,Option.some.injEq] at hhits
    exact ⟨hroomy.marked,fun _ _ => hne,fun _ => full_nil_iff.mp (hhits ▸ hfull),
      fun hsome => absurd hne hsome⟩
  · have hnodes : ¬ (g.nodes = [] ∨ g.dim = 0) := not_or.mpr ⟨hne,hgraph.dim g hg hne⟩
    have hlinked : filter.isSome → c.links ≠ .dangling := by
      intro hsome hdangling
      rw [h.graphHits_of_dangling hgraph hg (hroomy.entry hne) hsome hdangling] at hhits
      cases hhits
    rw [graphHits_of_linked hnodes hlinked] at hhits
    obtain ⟨ef,hwidth,rfl⟩ := Option.map_eq_some_iff.mp hhits
    rw [HnswIndex.beamSearch,if_neg hnodes] at hfull
    have hdue := (h.full_ranked_iff hgraph hg hroomy.marked
      (HnswIndex.candidates_nodup _ _ _ _)).mp hfull
    exact ⟨hroomy.marked,fun hsome hdangling => absurd hdangling (hlinked hsome),
      fun hnone => absurd hnone hne,fun _ => ⟨ef,hwidth,
        (HnswIndex.le_length_hits_iff_serves (hroomy.width ef hwidth)).mp hdue⟩⟩

end graph

lemma answered_graph {similarity : Similarity} {workers : ℕ} {query : Vec} {k : ℕ}
    {filter : MetaFilter} (hembedder : c.embedder ≠ none) {g : HnswIndex} (hg : c.hnsw = some g) :
    c.Answered similarity workers query k filter ↔ ∃ hits,
      c.graphHits similarity g (similarity.normalize query) k filter = some hits ∧
        c.Full k filter hits := by
  unfold Answered denseSearchWith
  simp only [if_neg hembedder,hg,Option.map_eq_some_iff,Except.ok.injEq,exists_eq_right]

/-- A beam of one node, and of four under a filter. -/
def narrow : Session := ⟨start wholeText { maxLines := 1 } {} { efSearch := 1 } 1 32,[]⟩

/-- Five chunks point one way, and the one with metadata the other. -/
def sixVectors : EmbedRun := ⟨fun _ => .ok (List.replicate 5 [1,0] ++ [[0,1]]),fun _ => true⟩

/-- Every node is linked with all. -/
def linked : Wiring := ⟨fun _ => [List.range 6],0,0⟩

def sixNodes : List Call :=
  [.setEmbedder 2,.addDocument (ascii ['u']) (ascii ['a','\n','a','\n','a','\n','a','\n','a']) ∅ []
      .synced false,
    .addDocument (ascii ['v']) (ascii ['b']) ((∅ : Metadata).insert (ascii ['k']) (ascii ['x'])) []
      .synced false,
    .build sixVectors linked]

/-- The one that wants metadata. -/
def tagged : MetaFilter := some fun m => m.size ≠ 0

/-- The graph of the six nodes. -/
def sixGraph : HnswIndex :=
  ⟨{ efSearch := 1 },2,0,0,(List.range 6).map fun i =>
    ⟨i,false,if i < 5 then [1,0] else [0,1],[List.range 6]⟩,∅⟩

end IndexedCorpus
end RagRuntime.Index
