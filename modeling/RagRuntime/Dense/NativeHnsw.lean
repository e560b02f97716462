import RagRuntime.Dense.Sidecar
import RagRuntime.Index.HnswLinking
import RagRuntime.Index.HnswReach

/-! The native graph index: vectors under their keys, a graph over them, and the scan of the same
vectors where the graph finds too few. -/
namespace RagRuntime.Dense
open RagRuntime.Base RagRuntime.Core RagRuntime.Backend RagRuntime.Lexical RagRuntime.Index

structure NativeHnswPolicy where
  neighbors : ℕ := 16
  efConstruction : ℕ := 200
  efSearch : ℕ := 64
  seed : ℕ := 0x9E3779B97F4A7C15

structure NativeHnswIndex where
  graph : Option LiveGraph
  keys : List Bytes
  dimension : ℕ

namespace NativeHnswIndex

def validatePolicy (policy : NativeHnswPolicy) : Result Unit :=
  if policy.neighbors < 2 ∨ policy.neighbors > 128 ∨ policy.efConstruction < 4 ∨
      policy.efConstruction < policy.neighbors ∨ policy.efSearch = 0 then
    fail .invalidArgument "native HNSW policy is invalid"
  else .ok ()

/-- The checks of `build` on the rows from one on; `seen` are the keys before it. -/
def checkRows (dimension : ℕ) : List VectorRecord → List Bytes → Result Unit
  | [],_ => .ok ()
  | row::rows,seen =>
    if row.key = [] ∨ row.key ∈ seen then fail .invalidArgument "native HNSW keys are invalid"
    else if row.vector.length ≠ dimension then
      fail .dimensionMismatch "native HNSW dimensions differ"
    else if normalizedDouble row.vector = false then
      fail .invalidArgument "native HNSW vector is not normalized"
    else checkRows dimension rows (row.key::seen)

/-- With a prefix of full length there are no codes beside the vectors. -/
def graphConfig (policy : NativeHnswPolicy) (dimension : ℕ) : HnswConfig :=
  { m := policy.neighbors
    efConstruction := policy.efConstruction
    efSearch := policy.efSearch
    seed := policy.seed
    matryoshkaDim := dimension }

/-- The rows are numbered, and the numbers are the ids of the nodes. -/
def batch (source : List VectorRecord) : List (ℕ × Vec) :=
  source.zipIdx.map fun row => (row.2,row.1.vector)

def build (similarity : Similarity) (policy : NativeHnswPolicy) (source : List VectorRecord)
    (wiring : Wiring) : Result NativeHnswIndex := do
  validatePolicy policy
  if source.length ≥ uint32Max then fail .invalidArgument "native HNSW row limit exceeded"
  else
    let dimension := NativeExactIndex.firstDimension source
    checkRows dimension source []
    let graph := (LiveGraph.start (graphConfig policy dimension)).buildBatch similarity
      (batch source) wiring
    return ⟨some graph,source.map VectorRecord.key,dimension⟩

section search

variable (similarity : Similarity) (index : NativeHnswIndex)

/-- The candidates of hits on rows, in order; `allow` is what is checked of a row. -/
def named (allow : ℕ → Bool) (hits : List Hit) : Result CandidateList := do
  let found ← hits.mapM fun hit =>
    match index.keys[hit.chunk]? with
    | none => fail .corruptIndex "native HNSW returned an invalid row"
    | some key =>
      if allow hit.chunk = false then fail .corruptIndex "native HNSW returned an invalid row"
      else (.ok ⟨key,hit.score,.cosine⟩ : Result Candidate)
  return found.insertionSort CandidateOrder

def allowsRow (allowed : List Bytes) (row : ℕ) : Bool :=
  match index.keys[row]? with
  | none => false
  | some key => allowed = [] ∨ key ∈ allowed

def allowedCount (allowed : List Bytes) : ℕ :=
  (List.range index.keys.length).countP (index.allowsRow allowed)

/-- The beam is widened by the share of the rows that are allowed, at least fourfold. -/
def boostedWidth (g : HnswIndex) (rows count wanted : ℕ) : ℕ :=
  let boost : ℚ := max 4 ((rows : ℚ)/count)
  min ⌊max ((max g.config.efSearch wanted : ℕ)*max 1 boost) wanted⌋₊ g.nodes.length

/-- The hits on allowed rows; the scan answers where the graph finds too few. -/
def allowedHits (graph : LiveGraph) (query : Vec) (allowed : List Bytes) (wanted : ℕ) : List Hit :=
  let count := index.allowedCount allowed
  let allow := index.allowsRow allowed
  let hits :=
    if count = index.keys.length then graph.graph.search similarity query wanted
    else graph.graph.beamSearch similarity query wanted allow
      (boostedWidth graph.graph index.keys.length count wanted)
  if hits.length < wanted then graph.searchExactFiltered similarity query wanted allow else hits

/-- An allow-list that is the catalog of the keys is answered by the graph alone. -/
def search (query : Vec) (allowed : List Bytes) (k : ℕ) : Result CandidateList :=
  if k = 0 ∨ index.keys = [] then .ok []
  else
    match index.graph with
    | none => fail .unavailable "native HNSW is not built"
    | some graph =>
      if query.length ≠ index.dimension then
        fail .dimensionMismatch "query dimension does not match native HNSW"
      else if normalizedDouble query = false then
        fail .invalidArgument "native HNSW query is not normalized"
      else if allowed = index.keys then
        index.named (fun _ => true)
          (graph.graph.search similarity query (min k index.keys.length))
      else
        let wanted := min k (index.allowedCount allowed)
        if wanted = 0 then .ok []
        else index.named (index.allowsRow allowed)
          (index.allowedHits similarity graph query allowed wanted)

end search

/-- The keys that an allow-list allows; an empty one allows all. -/
def allowedKeys (index : NativeHnswIndex) (allowed : List Bytes) : List Bytes :=
  index.keys.filter fun key => allowed = [] ∨ key ∈ allowed

/-- What is promised of an answer. -/
structure Answers (index : NativeHnswIndex) (allowed : List Bytes) (k : ℕ)
    (found : CandidateList) : Prop where
  length : found.length = min k (index.allowedKeys allowed).length
  distinct : (found.map Candidate.chunk).Nodup
  allowed : ∀ candidate ∈ found, candidate.chunk ∈ index.allowedKeys allowed
  sorted : found.Pairwise CandidateOrder

/-- So many rows can be reached from where the graph is searched for a query. -/
def Reachable (similarity : Similarity) (index : NativeHnswIndex) (query : Vec) (need : ℕ) : Prop :=
  ∀ graph, index.graph = some graph → graph.graph.Reaches
    (graph.graph.landing similarity (graph.graph.prepareQuery similarity query)) need

end NativeHnswIndex

/-- The graph indexes of one policy, as one platform builds them. -/
def NativeGraph (_ : Similarity) (_ : NativeHnswPolicy) (_ : List VectorRecord → Wiring) : Type :=
  NativeHnswIndex

instance (similarity : Similarity) (policy : NativeHnswPolicy)
    (wiring : List VectorRecord → Wiring) :
    ApproximateIndex (NativeGraph similarity policy wiring) where
  build source := NativeHnswIndex.build similarity policy source (wiring source)
  search index := NativeHnswIndex.search similarity index

section built

variable {similarity : Similarity} {source : List VectorRecord} {dimension n : ℕ}

/-- A graph over so many rows, each a node with the number of the row as the id. -/
structure Over (n dimension : ℕ) (live : LiveGraph) : Prop where
  ids : live.graph.nodes.map HnswNode.id = List.range n
  current : ∀ nd ∈ live.graph.nodes, nd.superseded = false
  deleted : live.graph.deleted = ∅
  dim : live.graph.dim = dimension
  floats : live.floatsDropped = false

lemma batch_ids (source : List VectorRecord) :
    (NativeHnswIndex.batch source).map Prod.fst = List.range source.length := by
  rw [NativeHnswIndex.batch,List.map_map]
  exact (List.zipIdx_map_snd 0 source).trans List.range_eq_range'.symm

/-- Nothing is dropped that is to be kept. -/
lemma floatsDropped_sealed {s : LiveGraph} (h : s.floatsDropped = false)
    (hdrop : s.graph.config.dropFloats = false) : s.sealed.floatsDropped = false := by
  unfold LiveGraph.sealed
  split_ifs
  · exact h
  · simp [h,hdrop]

/-- A batch of rows of one dimension is staged as a whole. -/
lemma graph_buildBatch {config : HnswConfig}
    (hrows : ∀ row ∈ source, row.vector.length = dimension) (hne : source ≠ [])
    (hpos : 0 < dimension) (wiring : Wiring) : ∃ graph : HnswIndex,
      (LiveGraph.start config).buildBatch similarity (NativeHnswIndex.batch source) wiring =
        LiveGraph.sealed ⟨graph,none,false,false⟩ ∧
      graph = { HnswIndex.empty config with
        dim := dimension
        deleted := ∅ \ ((NativeHnswIndex.batch source).map Prod.fst).toFinset
        nodes := ((NativeHnswIndex.batch source).map fun row =>
          (⟨row.1,false,similarity.normalize row.2,[]⟩ : HnswNode)).mapIdx fun i nd =>
            { nd with links := wiring.links i }
        entry := wiring.entry
        maxLayer := wiring.maxLayer } := by
  obtain ⟨first,rest,rfl⟩ := List.exists_cons_of_ne_nil hne
  set rows := NativeHnswIndex.batch (first::rest)
  have hdim : (HnswIndex.empty config).batchDim rows = dimension := hrows first List.mem_cons_self
  have hstaged : (HnswIndex.empty config).stagedRows rows = rows := by
    rw [HnswIndex.stagedRows,hdim]
    apply List.filter_eq_self.mpr
    intro row hrow
    obtain ⟨entry,hentry,rfl⟩ := List.mem_map.mp hrow
    exact decide_eq_true (hrows _ (List.fst_mem_of_mem_zipIdx hentry))
  have hsome : rows ≠ [] := List.cons_ne_nil _ _
  refine ⟨(HnswIndex.empty config).buildBatch similarity rows wiring,?_,?_⟩
  · unfold LiveGraph.buildBatch
    rw [if_neg hsome]
    have hdim' : ((LiveGraph.start config).unsealed).graph.batchDim rows ≠ 0 := by
      change (HnswIndex.empty config).batchDim rows ≠ 0
      rw [hdim]
      exact hpos.ne'
    have hstaged' : ((LiveGraph.start config).unsealed).graph.stagedRows rows ≠ [] := by
      change (HnswIndex.empty config).stagedRows rows ≠ []
      rwa [hstaged]
    dsimp only
    rw [if_neg hdim',if_neg hstaged']
    rfl
  · unfold HnswIndex.buildBatch
    rw [if_neg (by rw [hdim]; exact hpos.ne')]
    dsimp only
    rw [hstaged,if_neg hsome,hdim]
    rfl

lemma over_buildBatch {config : HnswConfig} (hdrop : config.dropFloats = false)
    (hrows : ∀ row ∈ source, row.vector.length = dimension) (hne : source ≠ [])
    (hpos : 0 < dimension) (wiring : Wiring) : Over source.length dimension
      ((LiveGraph.start config).buildBatch similarity (NativeHnswIndex.batch source) wiring) := by
  obtain ⟨graph,hlive,hgraph⟩ := @graph_buildBatch similarity source dimension config
    hrows hne hpos wiring
  have hsealed := (WatchedGraph.sealed_graph ⟨graph,none,false,false⟩).1
  rw [hlive]
  refine ⟨?_,?_,?_,?_,?_⟩
  · rw [hsealed,hgraph]
    dsimp only
    rw [WatchedGraph.mapIdx_links_ids,List.map_map]
    exact batch_ids _
  · rw [hsealed,hgraph]
    intro nd hnd
    obtain ⟨i,hi⟩ := List.mem_iff_getElem?.mp hnd
    rw [List.getElem?_mapIdx,List.getElem?_map] at hi
    cases hrow : (NativeHnswIndex.batch source)[i]? with
    | none =>
      rw [hrow] at hi
      cases hi
    | some row =>
      rw [hrow] at hi
      cases hi
      rfl
  · rw [hsealed,hgraph]
    exact Finset.empty_sdiff _
  · rw [hsealed,hgraph]
  · apply floatsDropped_sealed rfl
    dsimp only
    rw [hgraph]
    exact hdrop

/-- The nodes hold the vectors of the rows, as they are normalised. -/
lemma vectors_buildBatch {config : HnswConfig}
    (hrows : ∀ row ∈ source, row.vector.length = dimension) (hpos : source ≠ [] → 0 < dimension)
    (wiring : Wiring) :
    ((LiveGraph.start config).buildBatch similarity (NativeHnswIndex.batch source)
      wiring).graph.nodes.map HnswNode.vector =
        source.map fun row => similarity.normalize row.vector := by
  by_cases hne : source = []
  · subst hne
    rfl
  obtain ⟨graph,hlive,hgraph⟩ := @graph_buildBatch similarity source dimension config
    hrows hne (hpos hne) wiring
  rw [hlive,(WatchedGraph.sealed_graph ⟨graph,none,false,false⟩).1,hgraph]
  dsimp only
  have hplain : ∀ nodes : List HnswNode, (nodes.mapIdx fun i nd =>
      { nd with links := wiring.links i }).map HnswNode.vector = nodes.map HnswNode.vector := by
    intro nodes
    apply List.ext_getElem?
    intro i
    simp [List.getElem?_mapIdx,Function.comp_def]
  have hrow : (source.zipIdx.map fun row => similarity.normalize row.1.vector) =
      source.map fun row => similarity.normalize row.vector := by
    conv_rhs => rw [← List.zipIdx_map_fst 0 source,List.map_map]
    rfl
  rw [hplain,List.map_map,NativeHnswIndex.batch,List.map_map]
  exact hrow

/-- Hits on different rows, all allowed. -/
structure Found (n : ℕ) (allow : ℕ → Bool) (hits : List Hit) : Prop where
  once : (hits.map Hit.chunk).Nodup
  allowed : ∀ hit ∈ hits, hit.chunk < n ∧ allow hit.chunk = true

variable {live : LiveGraph} {allow : ℕ → Bool} {hits : List Hit}

lemma Found.of_subperm (h : Found n allow hits) {hits' : List Hit} (hs : hits'.Subperm hits) :
    Found n allow hits' := by
  refine ⟨?_,fun hit hhit => h.allowed hit (hs.subset hhit)⟩
  obtain ⟨l,hl,hsub⟩ := hs
  exact (hl.map Hit.chunk).nodup_iff.mp (h.once.sublist (hsub.map Hit.chunk))

namespace Over

lemma length_nodes (h : Over n dimension live) : live.graph.nodes.length = n := by
  rw [← List.length_map HnswNode.id,h.ids,List.length_range]

lemma id_lt (h : Over n dimension live) {nd : HnswNode} (hnd : nd ∈ live.graph.nodes) :
    nd.id < n := by
  have hid : nd.id ∈ live.graph.nodes.map HnswNode.id := List.mem_map_of_mem hnd
  rw [h.ids] at hid
  exact List.mem_range.mp hid

lemma distinct (h : Over n dimension live) : (live.graph.nodes.map HnswNode.id).Nodup := by
  rw [h.ids]
  exact List.nodup_range

/-- Every row can be returned. -/
lemma returnable (h : Over n dimension live) {i : ℕ} (hi : i < live.graph.nodes.length) :
    live.graph.returnable (fun _ => true) i = true := by
  unfold HnswIndex.returnable
  rw [List.getElem?_eq_getElem hi,Option.any_some,h.current _ (List.getElem_mem hi),h.deleted]
  rfl

lemma survivors (h : Over n dimension live) : live.survivors = live.graph.nodes := by
  apply List.filter_eq_self.mpr
  intro nd hnd
  rw [h.deleted]
  exact decide_eq_true ⟨Finset.notMem_empty _,h.current nd hnd⟩

lemma found_hits (h : Over n dimension live) (similarity : Similarity) (query : Vec)
    (allow : ℕ → Bool) (ef : ℕ) : Found n allow (live.graph.hits similarity query allow
      (live.graph.candidates similarity query ef)) := by
  refine ⟨HnswIndex.nodup_hits h.distinct (HnswIndex.candidates_nodup _ _ _ _),?_⟩
  intro hit hhit
  obtain ⟨nd,hnd,hid,-,hallow⟩ := HnswIndex.mem_hits hhit
  rw [← hid]
  exact ⟨h.id_lt hnd,hallow⟩

lemma found_beam (h : Over n dimension live) (similarity : Similarity) (query : Vec) (k : ℕ)
    (allow : ℕ → Bool) (ef : ℕ) :
    Found n allow (live.graph.beamSearch similarity query k allow ef) := by
  unfold HnswIndex.beamSearch
  split_ifs
  · exact ⟨List.nodup_nil,fun _ hhit => absurd hhit List.not_mem_nil⟩
  · exact (h.found_hits similarity _ allow ef).of_subperm
      (WatchedGraph.subperm_take_insertionSort k _)

lemma length_beam_le (graph : HnswIndex) (query : Vec) (k : ℕ) (allow : ℕ → Bool) (ef : ℕ) :
    (graph.beamSearch similarity query k allow ef).length ≤ k := by
  unfold HnswIndex.beamSearch
  split_ifs
  · exact Nat.zero_le k
  · exact List.length_take_le k _

/-- The scan finds all that is allowed. -/
lemma found_exact (h : Over n dimension live) (similarity : Similarity) (hn : 0 < n) {query : Vec}
    (hquery : query.length = dimension) (hpos : 0 < dimension) (k : ℕ) (allow : ℕ → Bool) :
    Found n allow (live.searchExactFiltered similarity query k allow) ∧
      (live.searchExactFiltered similarity query k allow).length =
        min k ((List.range n).countP allow) := by
  have hids : (live.graph.nodes.filter fun nd => allow nd.id).map HnswNode.id =
      (List.range n).filter allow := by
    rw [← h.ids,List.filter_map]
    rfl
  unfold LiveGraph.searchExactFiltered
  dsimp only
  by_cases hk : k = 0
  · rw [if_pos (.inl hk),hk,Nat.zero_min]
    exact ⟨⟨List.nodup_nil,fun _ hhit => absurd hhit List.not_mem_nil⟩,rfl⟩
  · have hnodes : live.graph.nodes ≠ [] := List.length_pos_iff.mp (h.length_nodes ▸ hn)
    have hready : ¬(k = 0 ∨ live.graph.nodes = [] ∨ live.graph.dim = 0 ∨
        live.floatsDropped = true ∨ query.length ≠ live.graph.dim) := by
      rw [h.floats,h.dim,hquery]
      simp [hk,hnodes,hpos.ne']
    rw [if_neg hready,h.survivors]
    constructor
    · apply Found.of_subperm _ (WatchedGraph.subperm_take_insertionSort k _)
      refine ⟨?_,?_⟩
      · rw [List.map_map]
        change ((live.graph.nodes.filter fun nd => allow nd.id).map HnswNode.id).Nodup
        rw [hids]
        exact List.nodup_range.filter _
      · intro hit hhit
        obtain ⟨nd,hnd,rfl⟩ := List.mem_map.mp hhit
        obtain ⟨hmem,hallow⟩ := List.mem_filter.mp hnd
        exact ⟨h.id_lt hmem,hallow⟩
    · rw [List.length_take,List.length_insertionSort,List.length_map,
        ← List.length_map HnswNode.id,hids,List.countP_eq_length_filter]

end Over
end built

namespace NativeHnswIndex

variable {similarity : Similarity} {source : List VectorRecord} {index : NativeHnswIndex}

lemma checkRows_ok {dimension : ℕ} {rows : List VectorRecord} {seen : List Bytes}
    (h : checkRows dimension rows seen = .ok ()) :
    ((rows.map VectorRecord.key).Nodup ∧ ∀ row ∈ rows, row.key ∉ seen) ∧
      ∀ row ∈ rows, row.vector.length = dimension ∧ normalizedDouble row.vector = true := by
  induction rows generalizing seen with
  | nil => simp
  | cons row rows ih =>
    rw [checkRows] at h
    split_ifs at h with hkey hdim hnorm
    all_goals first | cases h | skip
    obtain ⟨⟨hnodup,hseen⟩,hrows⟩ := ih h
    refine ⟨⟨?_,?_⟩,?_⟩
    · rw [List.map_cons,List.nodup_cons]
      refine ⟨?_,hnodup⟩
      intro hmem
      obtain ⟨other,hother,heq⟩ := List.mem_map.mp hmem
      exact hseen other hother (heq ▸ List.mem_cons_self)
    · intro other hother
      rcases List.mem_cons.mp hother with rfl | hother
      · exact (not_or.mp hkey).2
      · exact fun hmem => hseen other hother (List.mem_cons_of_mem _ hmem)
    · intro other hother
      rcases List.mem_cons.mp hother with rfl | hother
      · exact ⟨not_ne_iff.mp hdim,Bool.eq_true_of_not_eq_false hnorm⟩
      · exact hrows other hother

lemma checkRows_of {dimension : ℕ} {rows : List VectorRecord} {seen : List Bytes}
    (hkeys : ∀ row ∈ rows, row.key ≠ [] ∧ row.key ∉ seen)
    (hnodup : (rows.map VectorRecord.key).Nodup)
    (hvectors : ∀ row ∈ rows, row.vector.length = dimension ∧ normalizedDouble row.vector = true) :
    checkRows dimension rows seen = .ok () := by
  induction rows generalizing seen with
  | nil => rfl
  | cons row rows ih =>
    obtain ⟨⟨hkey,hseen⟩,hkeys⟩ := List.forall_mem_cons.mp hkeys
    obtain ⟨⟨hlength,hnorm⟩,hvectors⟩ := List.forall_mem_cons.mp hvectors
    obtain ⟨hnew,hnodup⟩ := List.nodup_cons.mp hnodup
    rw [checkRows,if_neg (not_or.mpr ⟨hkey,hseen⟩),if_neg (not_ne_iff.mpr hlength),
      if_neg (by simp [hnorm])]
    refine ih ?_ hnodup hvectors
    intro other hother
    obtain ⟨hne,hnot⟩ := hkeys other hother
    refine ⟨hne,?_⟩
    intro hmem
    rcases List.mem_cons.mp hmem with heq | hmem
    · exact hnew (heq ▸ List.mem_map_of_mem hother)
    · exact hnot hmem

/-- Rows of unit vectors are built with a policy that is valid, unless they are too many. -/
lemma build_iff (policy : NativeHnswPolicy) {rows : List VectorRecord}
    (hvalid : ValidRows rows (NativeExactIndex.firstDimension rows))
    (hdouble : ∀ row ∈ rows, normalizedDouble row.vector = true)
    (hcount : rows.length < uint32Max) (similarity : Similarity) (wiring : Wiring) :
    (∃ index, build similarity policy rows wiring = .ok index) ↔
      validatePolicy policy = .ok () := by
  have hrows : checkRows (NativeExactIndex.firstDimension rows) rows [] = .ok () :=
    checkRows_of (fun row hrow => ⟨hvalid.keys row hrow,List.not_mem_nil⟩) hvalid.nodup
      fun row hrow => ⟨hvalid.dimension row hrow,hdouble row hrow⟩
  unfold build
  cases hpolicy : validatePolicy policy with
  | error e =>
    constructor
    · rintro ⟨index,hindex⟩
      cases hindex
    · intro hnever
      cases hnever
  | ok u =>
    simp only [bind,Except.bind,if_neg (not_le.mpr hcount),hrows]
    exact ⟨fun _ => trivial,fun _ => ⟨_,rfl⟩⟩

/-- An index over different keys, with a graph over the rows where it has any. -/
structure Built (index : NativeHnswIndex) : Prop where
  distinct : index.keys.Nodup
  graph : index.keys ≠ [] → ∃ graph, index.graph = some graph ∧
    Over index.keys.length index.dimension graph ∧ 0 < index.dimension

/-- What was checked of rows that an index is built from, and what it becomes. -/
lemma build_spec {policy : NativeHnswPolicy} {wiring : Wiring}
    (h : build similarity policy source wiring = .ok index) :
    checkRows (NativeExactIndex.firstDimension source) source [] = .ok () ∧
      index = ⟨some ((LiveGraph.start (graphConfig policy
        (NativeExactIndex.firstDimension source))).buildBatch similarity (batch source) wiring),
          source.map VectorRecord.key,NativeExactIndex.firstDimension source⟩ := by
  unfold build at h
  cases hpolicy : validatePolicy policy with
  | error e =>
    rw [hpolicy] at h
    cases h
  | ok u =>
    rw [hpolicy] at h
    change (if source.length ≥ uint32Max then _ else _) = _ at h
    split_ifs at h
    · cases h
    · cases hrows : checkRows (NativeExactIndex.firstDimension source) source [] with
      | error e =>
        dsimp only at h
        rw [hrows] at h
        cases h
      | ok u =>
        dsimp only at h
        rw [hrows] at h
        cases h
        exact ⟨rfl,rfl⟩

/-- A row has a number at least. -/
lemma dimension_pos
    (hrows : checkRows (NativeExactIndex.firstDimension source) source [] = .ok ())
    (hsome : source ≠ []) : 0 < NativeExactIndex.firstDimension source := by
  obtain ⟨first,rest,rfl⟩ := List.exists_cons_of_ne_nil hsome
  obtain ⟨hlength,hnorm⟩ := (checkRows_ok hrows).2 first List.mem_cons_self
  rw [← hlength]
  simp only [normalizedDouble,decide_eq_true_eq] at hnorm
  exact List.length_pos_of_ne_nil hnorm.1

lemma built_of_build {policy : NativeHnswPolicy} {wiring : Wiring}
    (h : build similarity policy source wiring = .ok index) : Built index := by
  obtain ⟨hrows,rfl⟩ := build_spec h
  obtain ⟨⟨hnodup,-⟩,hgood⟩ := checkRows_ok hrows
  refine ⟨hnodup,fun hne => ?_⟩
  have hsome : source ≠ [] := fun hnil => hne (by rw [hnil]; rfl)
  have hpos := dimension_pos hrows hsome
  refine ⟨_,rfl,?_,hpos⟩
  rw [List.length_map]
  exact over_buildBatch rfl (fun row hrow => (hgood row hrow).1) hsome hpos wiring

/-- Rows that are allowed are those of the keys that are. -/
lemma countP_rows (keys : List Bytes) (p : Bytes → Bool) :
    (List.range keys.length).countP (fun row => (keys[row]?).any p) = (keys.filter p).length := by
  rw [← List.countP_eq_length_filter]
  have hkeys : keys.map some = (List.range keys.length).map fun row => keys[row]? := by
    apply List.ext_getElem?
    intro i
    rw [List.getElem?_map,List.getElem?_map]
    by_cases hi : i < keys.length
    · rw [List.getElem?_range hi,Option.map_some,List.getElem?_eq_getElem hi]
      rfl
    · rw [List.getElem?_eq_none (not_lt.mp hi),List.getElem?_eq_none (by simpa using hi)]
      rfl
  calc (List.range keys.length).countP (fun row => (keys[row]?).any p)
      = ((List.range keys.length).map fun row => keys[row]?).countP (Option.any p) := by
        rw [List.countP_map]
        rfl
    _ = (keys.map some).countP (Option.any p) := by rw [hkeys]
    _ = keys.countP p := by
        rw [List.countP_map]
        rfl

lemma allowsRow_eq (index : NativeHnswIndex) (allowed : List Bytes) (row : ℕ) :
    index.allowsRow allowed row =
      (index.keys[row]?).any fun key => decide (allowed = [] ∨ key ∈ allowed) := by
  unfold allowsRow
  cases index.keys[row]? <;> rfl

lemma allowedCount_eq (index : NativeHnswIndex) (allowed : List Bytes) :
    index.allowedCount allowed = (index.allowedKeys allowed).length := by
  rw [allowedCount,allowedKeys,← countP_rows]
  apply congrArg (fun p => (List.range index.keys.length).countP p)
  funext row
  exact index.allowsRow_eq allowed row

/-- The candidates of hits on different rows. -/
lemma named_ok (hkeys : index.keys.Nodup) {allow : ℕ → Bool} {hits : List Hit}
    (h : Found index.keys.length allow hits) : ∃ found, index.named allow hits = .ok found ∧
      found.length = hits.length ∧ (found.map Candidate.chunk).Nodup ∧
      (∀ candidate ∈ found, ∃ row, index.keys[row]? = some candidate.chunk ∧ allow row = true) ∧
      found.Pairwise CandidateOrder := by
  let name : Hit → Candidate := fun hit => ⟨(index.keys[hit.chunk]?).getD [],hit.score,.cosine⟩
  have hname : ∀ hit ∈ hits, index.keys[hit.chunk]? = some (name hit).chunk := by
    intro hit hhit
    obtain ⟨hlt,-⟩ := h.allowed hit hhit
    simp only [name,List.getElem?_eq_getElem hlt,Option.getD_some]
  have hmap : index.named allow hits =
      .ok ((hits.map name).insertionSort CandidateOrder) := by
    unfold named
    rw [mapM_ok (g := name)]
    · rfl
    · intro hit hhit
      rw [hname hit hhit]
      dsimp only
      rw [if_neg (by rw [(h.allowed hit hhit).2]; decide)]
  have hperm := List.perm_insertionSort CandidateOrder (hits.map name)
  refine ⟨_,hmap,?_,?_,?_,List.pairwise_insertionSort CandidateOrder _⟩
  · rw [hperm.length_eq,List.length_map]
  · rw [(hperm.map Candidate.chunk).nodup_iff,List.map_map]
    apply List.Nodup.map_on _ h.once.of_map
    intro a ha b hb heq
    have hrow : a.chunk = b.chunk := by
      apply (List.getElem?_inj (h.allowed a ha).1 hkeys).mp
      rw [hname a ha,hname b hb]
      exact congrArg some heq
    exact List.inj_on_of_nodup_map h.once ha hb hrow
  · intro candidate hcandidate
    obtain ⟨hit,hhit,rfl⟩ := List.mem_map.mp (hperm.subset hcandidate)
    exact ⟨hit.chunk,hname hit hhit,(h.allowed hit hhit).2⟩

/-- A whole catalog is allowed as a whole. -/
lemma allowedKeys_self (index : NativeHnswIndex) : index.allowedKeys index.keys = index.keys :=
  List.filter_eq_self.mpr fun _ hkey => decide_eq_true (.inr hkey)

/-- Where an empty answer is due. -/
lemma answers_nil {allowed : List Bytes} {k : ℕ}
    (h : min k (index.allowedKeys allowed).length = 0) : index.Answers allowed k [] :=
  ⟨h.symm,List.nodup_nil,fun _ hcandidate => absurd hcandidate List.not_mem_nil,
    List.Pairwise.nil⟩

/-- On any list but the catalog the scan makes up for what the graph does not find. -/
lemma found_allowedHits (similarity : Similarity) {graph : LiveGraph}
    (h : Over index.keys.length index.dimension graph) (hsome : index.keys ≠ [])
    (hpos : 0 < index.dimension) {query : Vec} (hquery : query.length = index.dimension)
    {allowed : List Bytes} {wanted : ℕ} (hwanted : wanted ≤ index.allowedCount allowed) :
    Found index.keys.length (index.allowsRow allowed)
        (index.allowedHits similarity graph query allowed wanted) ∧
      (index.allowedHits similarity graph query allowed wanted).length = wanted := by
  have hexact := h.found_exact similarity (List.length_pos_of_ne_nil hsome) hquery
    hpos wanted (index.allowsRow allowed)
  have hfull : min wanted (index.allowedCount allowed) = wanted := min_eq_left hwanted
  unfold allowedHits
  dsimp only
  split_ifs with hall hfew hfew
  · exact ⟨hexact.1,hexact.2.trans hfull⟩
  · rw [HnswIndex.search_eq] at hfew ⊢
    have hfound := h.found_beam similarity query wanted (fun _ => true)
      (max graph.graph.config.efSearch wanted)
    have hrows := List.countP_eq_length.mp (hall.trans List.length_range.symm)
    refine ⟨⟨hfound.once,?_⟩,le_antisymm (Over.length_beam_le ..) (not_lt.mp hfew)⟩
    intro hit hhit
    obtain ⟨hlt,-⟩ := hfound.allowed hit hhit
    exact ⟨hlt,hrows hit.chunk (List.mem_range.mpr hlt)⟩
  · exact ⟨hexact.1,hexact.2.trans hfull⟩
  · exact ⟨h.found_beam similarity query wanted _ _,
      le_antisymm (Over.length_beam_le ..) (not_lt.mp hfew)⟩

/-- A search of the graph alone finds as many rows as are wanted just where as many can be
reached. -/
lemma length_search_iff (similarity : Similarity) {graph : LiveGraph}
    (h : Over index.keys.length index.dimension graph) (hsome : index.keys ≠ [])
    (hpos : 0 < index.dimension) (hgraph : index.graph = some graph) (query : Vec) (wanted : ℕ) :
    (graph.graph.search similarity query wanted).length = wanted ↔
      index.Reachable similarity query wanted := by
  have hready : ¬(graph.graph.nodes = [] ∨ graph.graph.dim = 0) := by
    rw [h.dim,← List.length_eq_zero_iff,h.length_nodes,List.length_eq_zero_iff]
    exact not_or.mpr ⟨hsome,hpos.ne'⟩
  have hreach : index.Reachable similarity query wanted ↔ graph.graph.Reaches
      (graph.graph.landing similarity (graph.graph.prepareQuery similarity query)) wanted := by
    refine ⟨fun hall => hall graph hgraph,?_⟩
    intro hone other hother
    cases hgraph.symm.trans hother
    exact hone
  rw [hreach,← HnswIndex.le_length_hits_iff (fun i hi => h.returnable hi)
    (le_max_right graph.graph.config.efSearch wanted),HnswIndex.search_eq,HnswIndex.beamSearch,
    if_neg hready]
  dsimp only
  rw [HnswIndex.ranked,List.length_take,List.length_insertionSort,min_eq_left_iff]

/-- A search gives what is promised just when it is not answered by the graph alone, or as many rows
as are wanted can be reached in it. -/
theorem search_answers_iff {policy : NativeHnswPolicy} {wiring : Wiring}
    (hbuild : build similarity policy source wiring = .ok index) {query : Vec}
    (hnorm : normalizedDouble query = true)
    (hdim : index.keys = [] ∨ query.length = index.dimension) (allowed : List Bytes) (k : ℕ) :
    (∃ found, index.search similarity query allowed k = .ok found ∧
        index.Answers allowed k found) ↔
      (allowed = index.keys →
        index.Reachable similarity query (min k index.keys.length)) := by
  have hbuilt := built_of_build hbuild
  by_cases hnothing : k = 0 ∨ index.keys = []
  · have hzero : min k index.keys.length = 0 := by
      rcases hnothing with hk | hkeys
      · rw [hk,Nat.zero_min]
      · rw [hkeys,List.length_nil,Nat.min_zero]
    have hnone : min k (index.allowedKeys allowed).length = 0 := by
      have hle : (index.allowedKeys allowed).length ≤ index.keys.length := List.length_filter_le ..
      omega
    refine ⟨fun _ _ graph _ => ?_,fun _ => ⟨[],?_,answers_nil hnone⟩⟩
    · rw [hzero]
      exact ⟨[],List.nodup_nil,le_rfl,fun _ hi => absurd hi List.not_mem_nil⟩
    · rw [search,if_pos hnothing]
  · have hsome := (not_or.mp hnothing).2
    obtain ⟨graph,hgraph,hover,hpos⟩ := hbuilt.graph hsome
    have hquery := hdim.resolve_left hsome
    have hsearch : index.search similarity query allowed k = if allowed = index.keys then
        index.named (fun _ => true)
          (graph.graph.search similarity query (min k index.keys.length))
      else if min k (index.allowedCount allowed) = 0 then .ok []
      else index.named (index.allowsRow allowed) (index.allowedHits similarity graph query allowed
        (min k (index.allowedCount allowed))) := by
      rw [search,if_neg hnothing,hgraph]
      dsimp only
      rw [if_neg (not_ne_iff.mpr hquery),if_neg (by rw [hnorm]; decide)]
    by_cases hwhole : allowed = index.keys
    · have hfound : Found index.keys.length (fun _ => true)
          (graph.graph.search similarity query (min k index.keys.length)) :=
        hover.found_beam similarity query _ _ _
      obtain ⟨found,hok,hlength,honce,hrows,hsorted⟩ := named_ok hbuilt.distinct hfound
      rw [hsearch,if_pos hwhole,hok]
      have hiff := length_search_iff similarity hover hsome hpos hgraph query
        (min k index.keys.length)
      rw [hwhole]
      constructor
      · rintro ⟨other,hother,hanswers⟩ -
        cases hother
        rw [← hiff,← hlength,hanswers.length,allowedKeys_self]
      · intro hreach
        refine ⟨found,rfl,?_,honce,?_,hsorted⟩
        · rw [hlength,hiff.mpr (hreach rfl),allowedKeys_self]
        · intro candidate hcandidate
          obtain ⟨row,hrow,-⟩ := hrows candidate hcandidate
          rw [allowedKeys_self]
          exact List.mem_of_getElem? hrow
    · refine ⟨fun _ heq => absurd heq hwhole,fun _ => ?_⟩
      rw [hsearch,if_neg hwhole]
      split_ifs with hwanted
      · exact ⟨[],rfl,answers_nil (index.allowedCount_eq allowed ▸ hwanted)⟩
      · obtain ⟨hfound,hfull⟩ := found_allowedHits similarity hover hsome hpos
          hquery (min_le_right k (index.allowedCount allowed))
        obtain ⟨found,hok,hlength,honce,hrows,hsorted⟩ := named_ok hbuilt.distinct hfound
        refine ⟨found,hok,?_,honce,?_,hsorted⟩
        · rw [hlength,hfull,allowedCount_eq]
        · intro candidate hcandidate
          obtain ⟨row,hrow,hallow⟩ := hrows candidate hcandidate
          rw [allowsRow_eq,hrow,Option.any_some] at hallow
          exact List.mem_filter.mpr ⟨List.mem_of_getElem? hrow,hallow⟩

section catalog

/-- Six directions. -/
def sixRows : List VectorRecord :=
  [⟨ascii ['a'],[3/128,1]⟩,⟨ascii ['b'],[-29/32,27/64]⟩,⟨ascii ['c'],[7/8,31/64]⟩,
    ⟨ascii ['d'],[1/4,31/32]⟩,⟨ascii ['e'],[31/64,7/8]⟩,⟨ascii ['f'],[-1/32,1]⟩]

def sparsePolicy : NativeHnswPolicy := { neighbors := 2, efConstruction := 4 }

/-- The linking of the six rows, with the levels that the seed of the policy draws. -/
def sixWiring : Wiring :=
  HnswIndex.serialWiring WatchedGraph.unscaled (graphConfig sparsePolicy 2)
    (sixRows.map VectorRecord.vector) [0,0,0,1,6,0]

def sixIndex : NativeHnswIndex :=
  ⟨some ((LiveGraph.start (graphConfig sparsePolicy 2)).buildBatch WatchedGraph.unscaled
    (batch sixRows) sixWiring),sixRows.map VectorRecord.key,2⟩

lemma build_sixRows :
    build WatchedGraph.unscaled sparsePolicy sixRows sixWiring = .ok sixIndex := by
  have hrows : checkRows (NativeExactIndex.firstDimension sixRows) sixRows [] = .ok () := by
    decide +kernel
  unfold build
  change ((checkRows (NativeExactIndex.firstDimension sixRows) sixRows []) >>= fun _ => _) = _
  rw [hrows]
  rfl

/-- The allow-list that names no key asks for all rows, and gets them. -/
theorem unlisted_answers : ∃ found,
    sixIndex.search WatchedGraph.unscaled [1,0] [] 6 = .ok found ∧ sixIndex.Answers [] 6 found :=
  (search_answers_iff build_sixRows (by decide +kernel) (.inr rfl) [] 6).mpr
    fun hkeys => absurd hkeys (List.cons_ne_nil _ _).symm

/-- The keys of five of the six rows. -/
def fiveFound : List Bytes := [ascii ['c'],ascii ['e'],ascii ['d'],ascii ['a'],ascii ['f']]

/-- The allow-list that names all six gets five: every link to the sixth row has been pruned. -/
theorem catalog_short : ∃ found,
    build WatchedGraph.unscaled sparsePolicy sixRows sixWiring = .ok sixIndex ∧
    normalizedDouble [1,0] = true ∧
    sixIndex.search WatchedGraph.unscaled [1,0] sixIndex.keys 6 = .ok found ∧
    found.map Candidate.chunk = fiveFound ∧ ¬ sixIndex.Answers sixIndex.keys 6 found := by
  have hfive : ((sixIndex.search WatchedGraph.unscaled [1,0] sixIndex.keys 6).toOption.map
      fun found => found.map Candidate.chunk) = some fiveFound := by
    decide +kernel
  cases hfound : sixIndex.search WatchedGraph.unscaled [1,0] sixIndex.keys 6 with
  | error e =>
    rw [hfound] at hfive
    cases hfive
  | ok found =>
    rw [hfound] at hfive
    have hchunks : found.map Candidate.chunk = fiveFound := Option.some.inj hfive
    refine ⟨found,build_sixRows,by decide +kernel,rfl,hchunks,?_⟩
    intro hanswers
    have hlength := hanswers.length
    rw [← List.length_map Candidate.chunk,hchunks,allowedKeys_self] at hlength
    cases hlength

end catalog
end NativeHnswIndex
end RagRuntime.Dense
