import Mathlib.Data.List.DropRight
import Mathlib.Data.List.Induction
import Mathlib.Logic.Function.Iterate
import RagRuntime.Base.Machine
import RagRuntime.Dense.ExactIndex
import RagRuntime.Index.HnswWalk

/-! A graph under insertions, removals and compactions: what its searches return is identified by
the vectors that it was given. -/
namespace RagRuntime.Index
open RagRuntime.Base RagRuntime.Core RagRuntime.Backend RagRuntime.Lexical RagRuntime.Dense

/-- A search with a beam of any width, as a call or a boost may ask for. -/
def HnswIndex.beamSearch (similarity : Similarity) (g : HnswIndex) (query : Vec) (k : ℕ)
    (allow : ℕ → Bool) (ef : ℕ) : List Hit :=
  if g.nodes = [] ∨ g.dim = 0 then []
  else
    let query := g.prepareQuery similarity query
    HnswIndex.ranked k (g.hits similarity query allow (g.candidates similarity query ef))

lemma HnswIndex.search_eq (similarity : Similarity) (g : HnswIndex) (query : Vec) (k : ℕ) :
    g.search similarity query k =
      g.beamSearch similarity query k (fun _ => true) (max g.config.efSearch k) := rfl

lemma HnswIndex.searchFiltered_eq_some {similarity : Similarity} {g : HnswIndex} {query : Vec}
    {k : ℕ} {allow : ℕ → Bool} {found : List Hit}
    (h : g.searchFiltered similarity query k allow = some found) :
    ∃ ef, found = g.beamSearch similarity query k allow ef := by
  unfold searchFiltered at h
  unfold beamSearch
  split_ifs at h ⊢
  · cases h
    exact ⟨0,rfl⟩
  · obtain ⟨ef,-,rfl⟩ := Option.map_eq_some_iff.mp h
    exact ⟨ef,rfl⟩

/-- A graph with the id map of single insertions, which is built on demand, and the layout of its
data: sealed for searching, and with or without the exact vectors. -/
structure LiveGraph where
  graph : HnswIndex
  idToOrd : Option (OrdMap ℕ ℕ)
  isSealed : Bool
  floatsDropped : Bool

namespace LiveGraph

def start (config : HnswConfig) : LiveGraph := ⟨HnswIndex.empty config,none,false,false⟩

/-- Later nodes win. -/
def idIndex (nodes : List HnswNode) : OrdMap ℕ ℕ :=
  nodes.zipIdx.foldl (fun m x => m.insert x.1.id x.2) ∅

/-- Behind the last layer on which a node has neighbours nothing is restored. -/
def unpackLinks (nd : HnswNode) : HnswNode :=
  { nd with links := nd.links.rdropWhile fun layer => layer = [] }

def unsealed (s : LiveGraph) : LiveGraph :=
  if s.isSealed then
    { s with graph.nodes := s.graph.nodes.map unpackLinks, isSealed := false }
  else s

/-- There are codes that stand in for the vectors unless walks go by signs or prefixes. -/
def sealed (s : LiveGraph) : LiveGraph :=
  if s.isSealed = true ∨ s.graph.nodes.all (fun nd => nd.links = []) then s
  else
    { s with
      isSealed := true
      floatsDropped := s.floatsDropped || (s.graph.config.dropFloats &&
        !s.graph.config.binary && s.graph.config.matryoshkaDim == 0) }

/-- A new node of this level is linked on a layer that the entry node has no list for: the search
finds the entry node, and its list there is indexed. Unpacking leaves out empty lists behind the
others. -/
def Lacks (g : HnswIndex) (level : ℕ) : Prop :=
  0 ≤ g.maxLayer ∧ g.config.m ≠ 0 ∧
    ((g.nodes[g.entry]?).elim [] HnswNode.links).length ≤ min level g.maxLayer.toNat

instance (g : HnswIndex) : DecidablePred (Lacks g) := fun level => by
  unfold Lacks
  infer_instance

/-- The node that the id map has for the id, if any, becomes a waypoint. -/
def supersede (nodes : List HnswNode) : Option ℕ → List HnswNode
  | some ord => nodes.modify ord fun nd => { nd with superseded := true }
  | none => nodes

variable (similarity : Similarity)

/-- The new node goes behind the others, and the one that its id had is superseded. -/
def insert (s : LiveGraph) (id : ℕ) (vec : Vec) (wiring : Wiring) : LiveGraph :=
  let g := s.graph
  let idToOrd := s.idToOrd.getD (idIndex g.nodes)
  let nodes := supersede g.nodes (idToOrd.find? id) ++
    [⟨id,false,similarity.normalize vec,[]⟩]
  { s with
    graph := { g with
      nodes := nodes.mapIdx fun i nd => { nd with links := wiring.links i }
      deleted := g.deleted.erase id
      entry := wiring.entry
      maxLayer := wiring.maxLayer }
    idToOrd := some (idToOrd.insert id g.nodes.length) }

def add (s : LiveGraph) (id : ℕ) (vec : Vec) (wiring : Wiring) : LiveGraph :=
  let s := if s.graph.dim = 0 then { s with graph.dim := vec.length } else s
  if vec.length ≠ s.graph.dim ∨ s.graph.dim = 0 then s
  else s.unsealed.insert similarity id vec wiring

/-- The id map is dropped, and a batch that adds nodes leaves the graph sealed. -/
def buildBatch (s : LiveGraph) (rows : List (ℕ × Vec)) (wiring : Wiring) : LiveGraph :=
  if rows = [] then s
  else
    let s := s.unsealed
    if s.graph.batchDim rows = 0 then s
    else
      let next : LiveGraph :=
        { s with graph := s.graph.buildBatch similarity rows wiring, idToOrd := none }
      if s.graph.stagedRows rows = [] then next else next.sealed

def remove (s : LiveGraph) (id : ℕ) : LiveGraph := { s with graph := s.graph.remove id }

/-- The nodes that a search may return. -/
def survivors (s : LiveGraph) : List HnswNode :=
  s.graph.nodes.filter fun nd => nd.id ∉ s.graph.deleted ∧ nd.superseded = false

def compact (s : LiveGraph) (wiring : Wiring) : LiveGraph :=
  if s.graph.deleted = ∅ ∧ s.graph.nodes.any HnswNode.superseded = false then s
  else
    (start s.graph.config).buildBatch similarity (s.survivors.map fun nd =>
      (nd.id,nd.vector)) wiring

/-- The order of an exact search. -/
def exactOrder (a b : Hit) : Prop := b.score < a.score ∨ a.score = b.score ∧ a.chunk ≤ b.chunk

instance : DecidableRel exactOrder := fun a b => by unfold exactOrder; infer_instance

/-- The scan of the exact vectors. -/
def searchExactFiltered (s : LiveGraph) (query : Vec) (k : ℕ) (allow : ℕ → Bool) : List Hit :=
  let g := s.graph
  if k = 0 ∨ g.nodes = [] ∨ g.dim = 0 ∨ s.floatsDropped = true ∨ query.length ≠ g.dim then []
  else
    let query := similarity.normalize query
    let hits := (s.survivors.filter fun nd => allow nd.id).map fun nd =>
      (⟨nd.id,dot nd.vector query⟩ : Hit)
    (hits.insertionSort exactOrder).take k

/-- A call, with the levels that are drawn for new nodes; a search seals the graph. -/
inductive Op
  | add (id : ℕ) (vec : Vec) (level : ℕ) (wiring : Wiring)
  | buildBatch (rows : List (ℕ × Vec)) (levels : List ℕ) (wiring : Wiring)
  | remove (id : ℕ)
  | compact (wiring : Wiring)
  | search

end LiveGraph

/-- A graph, and for each id that was added and not removed since the vector given for it last. -/
structure WatchedGraph where
  live : LiveGraph
  latest : OrdMap ℕ Vec

namespace WatchedGraph
open LiveGraph

variable (similarity : Similarity)

def start (config : HnswConfig) : WatchedGraph := ⟨LiveGraph.start config,∅⟩

/-- The dimension is fixed by the first vector; vectors of another one are ignored. -/
def accepts (g : HnswIndex) (vec : Vec) : Bool :=
  vec.length ≠ 0 ∧ (g.dim = 0 ∨ vec.length = g.dim)

/-- The levels of nodes that a batch links. -/
def linkedLevels (g : HnswIndex) (rows : List (ℕ × Vec)) (levels : List ℕ) : List ℕ :=
  if g.batchDim rows = 0 then [] else levels.take (g.stagedRows rows).length

/-- None where linking indexes a list that is not there. -/
def step (s : WatchedGraph) : Op → Option WatchedGraph
  | .add id vec level wiring =>
    if accepts s.live.graph vec = true ∧ Lacks s.live.unsealed.graph level then none
    else some ⟨s.live.add similarity id vec wiring,
      if accepts s.live.graph vec then s.latest.insert id vec else s.latest⟩
  | .buildBatch rows levels wiring =>
    if ∃ level ∈ linkedLevels s.live.graph rows levels, Lacks s.live.unsealed.graph level then none
    else some ⟨s.live.buildBatch similarity rows wiring,
      if s.live.graph.batchDim rows = 0 then s.latest
      else (s.live.graph.stagedRows rows).foldl (fun m row => m.insert row.1 row.2) s.latest⟩
  | .remove id => some ⟨s.live.remove id,s.latest.erase id⟩
  | .compact wiring => some ⟨s.live.compact similarity wiring,s.latest⟩
  | .search => some { s with live := s.live.sealed }

/-- No row of a batch has the id of another one, or of a node that is not superseded. -/
def FreshRows (g : HnswIndex) (rows : List (ℕ × Vec)) : Prop :=
  ((g.stagedRows rows).map Prod.fst).Nodup ∧
    ∀ row ∈ g.stagedRows rows, ∀ nd ∈ g.nodes, nd.superseded = false → nd.id ≠ row.1

instance (g : HnswIndex) (rows : List (ℕ × Vec)) : Decidable (FreshRows g rows) := by
  unfold FreshRows
  infer_instance

/-- Batches bring new ids only, vectors that were dropped are not needed, and the entry node has its
lists on the layers of new nodes. -/
def Admits (s : WatchedGraph) : Op → Prop
  | .add _ vec level _ => accepts s.live.graph vec = true →
      s.live.floatsDropped = false ∧ ¬ Lacks s.live.unsealed.graph level
  | .buildBatch rows levels _ => (rows ≠ [] → s.live.graph.batchDim rows ≠ 0 →
      s.live.floatsDropped = false ∧ FreshRows s.live.graph rows) ∧
      ∀ level ∈ linkedLevels s.live.graph rows levels, ¬ Lacks s.live.unsealed.graph level
  | .compact _ => s.live.floatsDropped = true →
      s.live.graph.deleted = ∅ ∧ s.live.graph.nodes.any HnswNode.superseded = false
  | _ => True

instance (s : WatchedGraph) (op : Op) : Decidable (s.Admits op) := by
  cases op <;> unfold Admits <;> infer_instance

/-- Every id once, and of the ids that are there with the vectors given for them: normalised when it
was given and by every compaction since. -/
structure Names (latest : OrdMap ℕ Vec) (score : Vec → ℚ) (hits : List Hit) : Prop where
  once : (hits.map Hit.chunk).Nodup
  given : ∀ hit ∈ hits, ∃ n v, latest.find? hit.chunk = some v ∧
    hit.score = score (similarity.normalize^[n+1] v)

structure Identified (s : WatchedGraph) : Prop where
  search : ∀ query k, Names similarity s.latest
    (fun v => similarity.rescore s.live.graph.config v (s.live.graph.prepareQuery similarity query))
    (s.live.graph.search similarity query k)
  filtered : ∀ query k allow, ∀ hits ∈ s.live.graph.searchFiltered similarity query k allow,
    Names similarity s.latest
      (fun v => similarity.rescore s.live.graph.config v
        (s.live.graph.prepareQuery similarity query)) hits
  beam : ∀ query k allow ef, Names similarity s.latest
    (fun v => similarity.rescore s.live.graph.config v (s.live.graph.prepareQuery similarity query))
    (s.live.graph.beamSearch similarity query k allow ef)
  exact : ∀ query k allow, Names similarity s.latest
    (fun v => dot v (similarity.normalize query))
    (s.live.searchExactFiltered similarity query k allow)

/-- A node that is not superseded is the last one of its id, and has the vector of the id unless the
id is removed. -/
structure Owned (g : HnswIndex) (latest : OrdMap ℕ Vec) : Prop where
  last : ∀ (i : ℕ) (nd : HnswNode), g.nodes[i]? = some nd → nd.superseded = false →
    ∀ (j : ℕ) (nd' : HnswNode), g.nodes[j]? = some nd' → nd'.id = nd.id → j ≤ i
  current : ∀ nd ∈ g.nodes, nd.superseded = false → nd.id ∉ g.deleted →
    ∃ n v, latest.find? nd.id = some v ∧ nd.vector = similarity.normalize^[n+1] v

variable {similarity} {g : HnswIndex} {latest : OrdMap ℕ Vec}

lemma Owned.unique (h : Owned similarity g latest) {i j : ℕ} {nd nd' : HnswNode}
    (hi : g.nodes[i]? = some nd) (hj : g.nodes[j]? = some nd') (hs : nd.superseded = false)
    (hs' : nd'.superseded = false) (hid : nd.id = nd'.id) : i = j :=
  le_antisymm (h.last j nd' hj hs' i nd hi hid) (h.last i nd hi hs j nd' hj hid.symm)

lemma Names.of_subperm {score : Vec → ℚ} {hits hits' : List Hit}
    (h : Names similarity latest score hits) (hs : hits'.Subperm hits) :
    Names similarity latest score hits' := by
  refine ⟨?_,fun hit hhit => h.given hit (hs.subset hhit)⟩
  obtain ⟨l,hl,hsub⟩ := hs
  exact (hl.map Hit.chunk).nodup_iff.mp (h.once.sublist (hsub.map Hit.chunk))

lemma Names.nil {score : Vec → ℚ} : Names similarity latest score [] :=
  ⟨List.nodup_nil,fun _ hhit => absurd hhit List.not_mem_nil⟩

lemma subperm_take_insertionSort {r : Hit → Hit → Prop} [DecidableRel r] (k : ℕ) (l : List Hit) :
    ((l.insertionSort r).take k).Subperm l :=
  (List.take_sublist k _).subperm.trans (List.perm_insertionSort r l).subperm

/-- Different nodes that may be returned have different ids. -/
theorem Owned.names_hits (h : Owned similarity g latest) (query : Vec) (allow : ℕ → Bool)
    {nodes : List ℕ} (hn : nodes.Nodup) : Names similarity latest
      (fun v => similarity.rescore g.config v query) (g.hits similarity query allow nodes) := by
  have hfound : ∀ (node : ℕ) (hit : Hit), ((g.nodes[node]?).bind fun nd =>
      if allow nd.id = false ∨ nd.id ∈ g.deleted ∨ nd.superseded = true then none
      else some (⟨nd.id,similarity.rescore g.config nd.vector query⟩ : Hit)) = some hit →
      ∃ nd, g.nodes[node]? = some nd ∧ nd.superseded = false ∧ nd.id ∉ g.deleted ∧
        hit = ⟨nd.id,similarity.rescore g.config nd.vector query⟩ := by
    intro node hit hhit
    obtain ⟨nd,hnd,hhit⟩ := Option.bind_eq_some_iff.mp hhit
    split_ifs at hhit with hout
    obtain ⟨-,hout⟩ := not_or.mp hout
    obtain ⟨hlive,hnot⟩ := not_or.mp hout
    exact ⟨nd,hnd,Bool.eq_false_of_not_eq_true hnot,hlive,(Option.some.inj hhit).symm⟩
  constructor
  · rw [HnswIndex.hits,List.map_filterMap]
    apply hn.filterMap
    intro i j id hi hj
    obtain ⟨hit,hhit,rfl⟩ := Option.map_eq_some_iff.mp hi
    obtain ⟨hit',hhit',hid⟩ := Option.map_eq_some_iff.mp hj
    obtain ⟨nd,hnd,hs,-,rfl⟩ := hfound i hit hhit
    obtain ⟨nd',hnd',hs',-,rfl⟩ := hfound j hit' hhit'
    exact h.unique hnd hnd' hs hs' hid.symm
  · intro hit hhit
    obtain ⟨node,-,hnode⟩ := List.mem_filterMap.mp hhit
    obtain ⟨nd,hnd,hs,hlive,rfl⟩ := hfound node hit hnode
    obtain ⟨n,v,hv,hvec⟩ := h.current nd (List.mem_of_getElem? hnd) hs hlive
    exact ⟨n,v,hv,by rw [hvec]⟩

theorem Owned.names_beamSearch (h : Owned similarity g latest) (query : Vec) (k : ℕ)
    (allow : ℕ → Bool) (ef : ℕ) : Names similarity latest
      (fun v => similarity.rescore g.config v (g.prepareQuery similarity query))
      (g.beamSearch similarity query k allow ef) := by
  unfold HnswIndex.beamSearch
  split_ifs
  · exact Names.nil
  · exact (h.names_hits _ allow (HnswIndex.candidates_nodup _ _ _ _)).of_subperm
      (subperm_take_insertionSort k _)

/-- The nodes that are not superseded have different ids. -/
lemma Owned.pairwise (h : Owned similarity g latest) : g.nodes.Pairwise fun a b =>
    a.superseded = false → b.superseded = false → a.id ≠ b.id := by
  rw [List.pairwise_iff_getElem]
  intro i j hi hj hlt hs hs' hid
  have hij := h.unique (List.getElem?_eq_getElem hi) (List.getElem?_eq_getElem hj) hs hs' hid
  omega

lemma mem_survivors {s : LiveGraph} {nd : HnswNode} : nd ∈ s.survivors ↔
    nd ∈ s.graph.nodes ∧ nd.id ∉ s.graph.deleted ∧ nd.superseded = false := by
  simp [survivors]

lemma Owned.nodup_survivors {s : LiveGraph} (h : Owned similarity s.graph latest) :
    (s.survivors.map HnswNode.id).Nodup := by
  apply List.pairwise_map.mpr
  apply (h.pairwise.filter _).imp_of_mem
  intro a b ha hb hab
  exact hab (mem_survivors.mp ha).2.2 (mem_survivors.mp hb).2.2

theorem Owned.names_exact {s : LiveGraph} (h : Owned similarity s.graph latest) (query : Vec)
    (k : ℕ)
    (allow : ℕ → Bool) : Names similarity latest (fun v => dot v (similarity.normalize query))
      (s.searchExactFiltered similarity query k allow) := by
  unfold searchExactFiltered
  dsimp only
  split_ifs
  · exact Names.nil
  · apply Names.of_subperm _ (subperm_take_insertionSort k _)
    constructor
    · have hsub : (s.survivors.filter fun nd => allow nd.id).Sublist s.survivors :=
        List.filter_sublist
      rw [List.map_map]
      exact h.nodup_survivors.sublist (hsub.map HnswNode.id)
    · intro hit hhit
      obtain ⟨nd,hnd,rfl⟩ := List.mem_map.mp hhit
      obtain ⟨hmem,hlive,hs⟩ := mem_survivors.mp (List.mem_of_mem_filter hnd)
      obtain ⟨n,v,hv,hvec⟩ := h.current nd hmem hs hlive
      exact ⟨n,v,hv,by rw [hvec]⟩

theorem Owned.identified {s : WatchedGraph} (h : Owned similarity s.live.graph s.latest) :
    Identified similarity s where
  search query k := h.names_beamSearch query k _ _
  filtered query k allow hits hhits := by
    obtain ⟨ef,rfl⟩ := HnswIndex.searchFiltered_eq_some hhits
    exact h.names_beamSearch query k allow ef
  beam query k allow ef := h.names_beamSearch query k allow ef
  exact query k allow := h.names_exact query k allow

section index

lemma idIndex_eq (nodes : List HnswNode) : idIndex nodes =
    (nodes.map HnswNode.id).zipIdx.foldl (fun m x => m.insert x.1 x.2) ∅ := by
  rw [List.zipIdx_map,List.foldl_map]
  rfl

lemma idIndex_congr {nodes nodes' : List HnswNode}
    (h : nodes.map HnswNode.id = nodes'.map HnswNode.id) : idIndex nodes = idIndex nodes' := by
  rw [idIndex_eq,idIndex_eq,h]

lemma idIndex_snoc (nodes : List HnswNode) (nd : HnswNode) :
    idIndex (nodes ++ [nd]) = (idIndex nodes).insert nd.id nodes.length := by
  simp [idIndex,List.zipIdx_append]

/-- The map leads to the last node of an id. -/
lemma find?_idIndex {nodes : List HnswNode} {i : ℕ} {nd : HnswNode} (hi : nodes[i]? = some nd)
    (hlast : ∀ (j : ℕ) (nd' : HnswNode), nodes[j]? = some nd' → nd'.id = nd.id → j ≤ i) :
    (idIndex nodes).find? nd.id = some i := by
  induction nodes using List.reverseRecOn with
  | nil => simp at hi
  | append_singleton nodes x ih =>
    have hend : (nodes ++ [x])[nodes.length]? = some x := by simp
    rw [idIndex_snoc,OrdMap.find?_insert]
    by_cases hlen : i = nodes.length
    · subst hlen
      rw [hend] at hi
      cases hi
      rw [if_pos rfl]
    · have hlt : i < nodes.length := by
        have := (List.getElem?_eq_some_iff.mp hi).1
        rw [List.length_append,List.length_singleton] at this
        omega
      have hne : nd.id ≠ x.id := by
        intro heq
        have := hlast nodes.length x hend heq.symm
        omega
      rw [if_neg hne]
      rw [List.getElem?_append_left hlt] at hi
      apply ih hi
      intro j nd' hj hid
      have hjlt := (List.getElem?_eq_some_iff.mp hj).1
      exact hlast j nd' (by rw [List.getElem?_append_left hjlt,hj]) hid

end index

/-- A graph that gets the rows as its last nodes. -/
structure Extends (similarity : Similarity) (g g' : HnswIndex) (rows : List (ℕ × Vec)) : Prop where
  ids : g'.nodes.map HnswNode.id = g.nodes.map HnswNode.id ++ rows.map Prod.fst
  nodes : ∀ (i : ℕ) (nd' : HnswNode), g'.nodes[i]? = some nd' → nd'.superseded = false →
    (∃ nd, g.nodes[i]? = some nd ∧ nd.superseded = false ∧ nd.id = nd'.id ∧
      nd.vector = nd'.vector ∧ nd.id ∉ rows.map Prod.fst) ∨
    g.nodes.length ≤ i ∧ ∃ row, rows[i - g.nodes.length]? = some row ∧ nd'.id = row.1 ∧
      nd'.vector = similarity.normalize row.2
  deleted : ∀ id ∉ rows.map Prod.fst, id ∈ g.deleted → id ∈ g'.deleted

theorem Owned.extended {g' : HnswIndex} {latest' : OrdMap ℕ Vec} {rows : List (ℕ × Vec)}
    (h : Owned similarity g latest) (he : Extends similarity g g' rows)
    (hrows : (rows.map Prod.fst).Nodup)
    (hkept : ∀ id ∉ rows.map Prod.fst, latest'.find? id = latest.find? id)
    (hgiven : ∀ row ∈ rows, ∃ n v, latest'.find? row.1 = some v ∧
      row.2 = similarity.normalize^[n] v) : Owned similarity g' latest' := by
  constructor
  · intro i nd' hi hs j nd'' hj hid
    have hjid : (g.nodes.map HnswNode.id ++ rows.map Prod.fst)[j]? = some nd''.id := by
      rw [← he.ids,List.getElem?_map,hj]
      rfl
    by_cases hlt : j < g.nodes.length
    · rw [List.getElem?_append_left (by simpa using hlt),List.getElem?_map,
        Option.map_eq_some_iff] at hjid
      obtain ⟨old,hold,holdid⟩ := hjid
      rcases he.nodes i nd' hi hs with ⟨nd,hnd,hlive,hndid,-,-⟩ | ⟨hle,-⟩
      · exact h.last i nd hnd hlive j old hold (by rw [holdid,hid,hndid])
      · omega
    · rw [List.getElem?_append_right (by simpa using hlt),List.length_map] at hjid
      rcases he.nodes i nd' hi hs with ⟨nd,-,-,hndid,-,hnot⟩ | ⟨hle,row,hrow,hrowid,-⟩
      · rw [hndid,← hid] at hnot
        exact absurd (List.mem_of_getElem? hjid) hnot
      · have hiid : (rows.map Prod.fst)[i - g.nodes.length]? = some nd''.id := by
          rw [List.getElem?_map,hrow,hid,hrowid]
          rfl
        have hbound := (List.getElem?_eq_some_iff.mp hjid).1
        have hsame := (List.getElem?_inj hbound hrows).mp (hjid.trans hiid.symm)
        omega
  · intro nd' hmem hs hlive
    obtain ⟨i,hi⟩ := List.mem_iff_getElem?.mp hmem
    rcases he.nodes i nd' hi hs with ⟨nd,hnd,hold,hid,hvec,hnot⟩ | ⟨-,row,hrow,hid,hvec⟩
    · have hndlive : nd.id ∉ g.deleted := fun hdel => hlive (hid ▸ he.deleted _ hnot hdel)
      obtain ⟨n,v,hv,hvector⟩ := h.current nd (List.mem_of_getElem? hnd) hold hndlive
      rw [← hid,← hvec]
      exact ⟨n,v,by rw [hkept _ hnot,hv],hvector⟩
    · obtain ⟨n,v,hv,hvector⟩ := hgiven row (List.mem_of_getElem? hrow)
      rw [hid,hvec,hvector]
      exact ⟨n,v,hv,(Function.iterate_succ_apply' _ _ _).symm⟩

/-- The id map of a graph is that of its nodes. -/
structure Sound (similarity : Similarity) (s : WatchedGraph) : Prop where
  owned : Owned similarity s.live.graph s.latest
  index : ∀ m, s.live.idToOrd = some m → m = idIndex s.live.graph.nodes

/-- A graph whose nodes are found with other links. -/
lemma Owned.relinked {g' : HnswIndex} (h : Owned similarity g latest)
    (hnodes : ∀ (i : ℕ) (nd' : HnswNode), g'.nodes[i]? = some nd' →
      ∃ nd, g.nodes[i]? = some nd ∧ nd.id = nd'.id ∧ nd.superseded = nd'.superseded ∧
        nd.vector = nd'.vector)
    (hdeleted : g'.deleted = g.deleted) : Owned similarity g' latest := by
  constructor
  · intro i nd' hi hs j nd'' hj hid
    obtain ⟨nd,hnd,hndid,hnds,-⟩ := hnodes i nd' hi
    obtain ⟨other,hother,hotherid,-,-⟩ := hnodes j nd'' hj
    exact h.last i nd hnd (hnds.trans hs) j other hother (by rw [hotherid,hid,hndid])
  · intro nd' hmem hs hlive
    obtain ⟨i,hi⟩ := List.mem_iff_getElem?.mp hmem
    obtain ⟨nd,hnd,hndid,hnds,hvec⟩ := hnodes i nd' hi
    rw [hdeleted,← hndid] at hlive
    rw [← hndid,← hvec]
    exact h.current nd (List.mem_of_getElem? hnd) (hnds.trans hs) hlive

@[simp] lemma unsealed_deleted (s : LiveGraph) : s.unsealed.graph.deleted = s.graph.deleted := by
  unfold unsealed
  split_ifs <;> rfl

@[simp] lemma unsealed_dim (s : LiveGraph) : s.unsealed.graph.dim = s.graph.dim := by
  unfold unsealed
  split_ifs <;> rfl

@[simp] lemma unsealed_batchDim (s : LiveGraph) (rows : List (ℕ × Vec)) :
    s.unsealed.graph.batchDim rows = s.graph.batchDim rows := by
  simp only [HnswIndex.batchDim,unsealed_dim]

@[simp] lemma unsealed_stagedRows (s : LiveGraph) (rows : List (ℕ × Vec)) :
    s.unsealed.graph.stagedRows rows = s.graph.stagedRows rows := by
  simp only [HnswIndex.stagedRows,unsealed_batchDim]

@[simp] lemma unsealed_idToOrd (s : LiveGraph) : s.unsealed.idToOrd = s.idToOrd := by
  unfold unsealed
  split_ifs <;> rfl

lemma unsealed_ids (s : LiveGraph) :
    s.unsealed.graph.nodes.map HnswNode.id = s.graph.nodes.map HnswNode.id := by
  unfold unsealed
  split_ifs
  · rw [List.map_map]
    rfl
  · rfl

lemma Owned.unsealed {s : LiveGraph} (h : Owned similarity s.graph latest) :
    Owned similarity s.unsealed.graph latest := by
  apply h.relinked _ (unsealed_deleted s)
  intro i nd' hi
  unfold LiveGraph.unsealed at hi
  split_ifs at hi
  · rw [List.getElem?_map,Option.map_eq_some_iff] at hi
    obtain ⟨nd,hnd,rfl⟩ := hi
    exact ⟨nd,hnd,rfl,rfl,rfl⟩
  · exact ⟨nd',hi,rfl,rfl,rfl⟩

lemma sealed_graph (s : LiveGraph) : s.sealed.graph = s.graph ∧ s.sealed.idToOrd = s.idToOrd := by
  unfold LiveGraph.sealed
  split_ifs <;> exact ⟨rfl,rfl⟩

lemma getElem?_supersede (nodes : List HnswNode) (found : Option ℕ) (i : ℕ) :
    (supersede nodes found)[i]? = (nodes[i]?).map fun nd =>
      if found = some i then { nd with superseded := true } else nd := by
  cases found with
  | none => simp [supersede]
  | some ord =>
    rw [supersede,List.getElem?_modify]
    cases nodes[i]? with
    | none => rfl
    | some nd =>
      by_cases h : ord = i <;> simp [h]

@[simp] lemma length_supersede (nodes : List HnswNode) (found : Option ℕ) :
    (supersede nodes found).length = nodes.length := by
  cases found <;> simp [supersede]

lemma supersede_ids (nodes : List HnswNode) (found : Option ℕ) :
    (supersede nodes found).map HnswNode.id = nodes.map HnswNode.id := by
  apply List.ext_getElem?
  intro i
  rw [List.getElem?_map,List.getElem?_map,getElem?_supersede,Option.map_map]
  congr 1
  funext nd
  by_cases h : found = some i <;> simp [h]

lemma mapIdx_links_ids (nodes : List HnswNode) (links : ℕ → List (List ℕ)) :
    (nodes.mapIdx fun i nd => { nd with links := links i }).map HnswNode.id =
      nodes.map HnswNode.id := by
  apply List.ext_getElem?
  intro i
  simp [List.getElem?_mapIdx,Function.comp_def]

lemma getD_idToOrd {s : LiveGraph} (hindex : ∀ m, s.idToOrd = some m → m = idIndex s.graph.nodes) :
    s.idToOrd.getD (idIndex s.graph.nodes) = idIndex s.graph.nodes := by
  cases hm : s.idToOrd with
  | none => rfl
  | some m => exact hindex m hm

/-- A single insertion supersedes the node of its id, which the map leads to. -/
lemma insert_extends {s : LiveGraph} (h : Owned similarity s.graph latest)
    (hindex : ∀ m, s.idToOrd = some m → m = idIndex s.graph.nodes) (id : ℕ) (vec : Vec)
    (wiring : Wiring) :
    Extends similarity s.graph (s.insert similarity id vec wiring).graph [(id,vec)] := by
  have hmap := getD_idToOrd hindex
  constructor
  · simp only [LiveGraph.insert]
    rw [mapIdx_links_ids,List.map_append,supersede_ids]
    rfl
  · intro i nd' hi hs
    simp only [LiveGraph.insert,hmap,List.getElem?_mapIdx,Option.map_eq_some_iff] at hi
    obtain ⟨x,hx,rfl⟩ := hi
    by_cases hlt : i < s.graph.nodes.length
    · left
      rw [List.getElem?_append_left (by simpa using hlt),getElem?_supersede,
        Option.map_eq_some_iff] at hx
      obtain ⟨nd,hnd,rfl⟩ := hx
      by_cases hfound : (idIndex s.graph.nodes).find? id = some i
      · simp [hfound] at hs
      · rw [if_neg hfound] at hs ⊢
        refine ⟨nd,hnd,hs,rfl,rfl,?_⟩
        intro hid
        have hid : nd.id = id := by simpa using hid
        exact hfound (hid ▸ find?_idIndex hnd (h.last i nd hnd hs))
    · right
      rw [List.getElem?_append_right (by simpa using hlt),length_supersede] at hx
      refine ⟨by omega,(id,vec),?_⟩
      have hzero : i - s.graph.nodes.length = 0 := by
        have := (List.getElem?_eq_some_iff.mp hx).1
        rw [List.length_singleton] at this
        omega
      rw [hzero] at hx ⊢
      cases hx
      exact ⟨rfl,rfl,rfl⟩
  · intro other hnot hdel
    simp only [List.map_cons,List.map_nil,List.mem_singleton] at hnot
    exact Finset.mem_erase.mpr ⟨hnot,hdel⟩

lemma Sound.insert {s : LiveGraph} (h : Sound similarity ⟨s,latest⟩) (id : ℕ) (vec : Vec)
    (wiring : Wiring) :
    Sound similarity ⟨s.insert similarity id vec wiring,latest.insert id vec⟩ := by
  have he := insert_extends h.owned h.index id vec wiring
  constructor
  · apply h.owned.extended he (by simp)
    · intro other hnot
      rw [OrdMap.find?_insert,if_neg (by simpa using hnot)]
    · intro row hrow
      rw [List.mem_singleton.mp hrow]
      exact ⟨0,vec,by simp,rfl⟩
  · intro m hm
    simp only [LiveGraph.insert,getD_idToOrd h.index] at hm
    have hsnoc := idIndex_snoc s.graph.nodes ⟨id,false,[],[]⟩
    rw [← Option.some.inj hm,← hsnoc]
    apply idIndex_congr
    rw [he.ids,List.map_append]
    rfl

lemma Sound.unsealed {s : LiveGraph} (h : Sound similarity ⟨s,latest⟩) :
    Sound similarity ⟨s.unsealed,latest⟩ := by
  refine ⟨h.owned.unsealed,?_⟩
  intro m hm
  rw [unsealed_idToOrd] at hm
  rw [h.index m hm]
  exact idIndex_congr (unsealed_ids s).symm

lemma Sound.sealed {s : LiveGraph} (h : Sound similarity ⟨s,latest⟩) :
    Sound similarity ⟨s.sealed,latest⟩ := by
  obtain ⟨hgraph,hindex⟩ := sealed_graph s
  constructor
  · rw [hgraph]
    exact h.owned
  · intro m hm
    rw [hgraph]
    exact h.index m (hindex ▸ hm)

lemma Sound.add {s : LiveGraph} (h : Sound similarity ⟨s,latest⟩) (id : ℕ) (vec : Vec)
    (wiring : Wiring) : Sound similarity ⟨s.add similarity id vec wiring,
      if accepts s.graph vec then latest.insert id vec else latest⟩ := by
  unfold LiveGraph.add
  by_cases hdim : s.graph.dim = 0
  · have hfirst : Sound similarity ⟨{ s with graph.dim := vec.length },latest⟩ :=
      ⟨h.owned.relinked (fun i nd hi => ⟨nd,hi,rfl,rfl,rfl⟩) rfl,h.index⟩
    rw [if_pos hdim]
    by_cases hvec : vec.length = 0
    · rw [if_pos (.inr hvec),if_neg (by simp [accepts,hvec])]
      exact hfirst
    · rw [if_neg (by simpa using hvec),if_pos (by simp [accepts,hvec,hdim])]
      exact hfirst.unsealed.insert id vec wiring
  · rw [if_neg hdim]
    by_cases hvec : vec.length = s.graph.dim
    · rw [if_neg (by simp [hvec,hdim]),if_pos (by simp [accepts,hvec,hdim])]
      exact h.unsealed.insert id vec wiring
    · rw [if_pos (.inl hvec),if_neg (by simp [accepts,hvec,hdim])]
      exact h

/-- A batch of fresh rows supersedes nothing and needs not to. -/
lemma buildBatch_extends {rows : List (ℕ × Vec)} (hdim : g.batchDim rows ≠ 0)
    (hfresh : FreshRows g rows) (wiring : Wiring) :
    Extends similarity g (g.buildBatch similarity rows wiring) (g.stagedRows rows) := by
  by_cases hstaged : g.stagedRows rows = []
  · unfold HnswIndex.buildBatch
    rw [if_neg hdim]
    dsimp only
    rw [if_pos hstaged,hstaged]
    refine ⟨by simp,?_,by simp⟩
    intro i nd' hi hs
    exact .inl ⟨nd',hi,hs,rfl,rfl,by simp⟩
  · unfold HnswIndex.buildBatch
    rw [if_neg hdim]
    dsimp only
    rw [if_neg hstaged]
    refine ⟨?_,?_,?_⟩
    · dsimp only
      rw [mapIdx_links_ids,List.map_append,List.map_map]
      rfl
    · intro i nd' hi hs
      simp only [List.getElem?_mapIdx,Option.map_eq_some_iff] at hi
      obtain ⟨x,hx,rfl⟩ := hi
      by_cases hlt : i < g.nodes.length
      · left
        rw [List.getElem?_append_left hlt] at hx
        refine ⟨x,hx,hs,rfl,rfl,?_⟩
        intro hmem
        obtain ⟨row,hrow,hid⟩ := List.mem_map.mp hmem
        exact hfresh.2 row hrow x (List.mem_of_getElem? hx) hs hid.symm
      · right
        rw [List.getElem?_append_right (by omega),List.getElem?_map,Option.map_eq_some_iff] at hx
        obtain ⟨row,hrow,rfl⟩ := hx
        exact ⟨by omega,row,hrow,rfl,rfl⟩
    · intro id hnot hdel
      exact Finset.mem_sdiff.mpr ⟨hdel,by simpa using hnot⟩

lemma FreshRows.unsealed {s : LiveGraph} {rows : List (ℕ × Vec)} (h : FreshRows s.graph rows) :
    FreshRows s.unsealed.graph rows := by
  refine ⟨(unsealed_stagedRows s rows).symm ▸ h.1,?_⟩
  intro row hrow nd' hnd hs
  rw [unsealed_stagedRows] at hrow
  unfold LiveGraph.unsealed at hnd
  split_ifs at hnd
  · obtain ⟨nd,hmem,rfl⟩ := List.mem_map.mp hnd
    exact h.2 row hrow nd hmem hs
  · exact h.2 row hrow nd' hnd hs

/-- A batch leaves the searches to its rows and to the other ids as they were. -/
lemma Owned.buildBatch (h : Owned similarity g latest) {latest' : OrdMap ℕ Vec}
    {rows : List (ℕ × Vec)} (hdim : g.batchDim rows ≠ 0) (hfresh : FreshRows g rows)
    (wiring : Wiring)
    (hkept : ∀ id ∉ (g.stagedRows rows).map Prod.fst, latest'.find? id = latest.find? id)
    (hgiven : ∀ row ∈ g.stagedRows rows, ∃ n v, latest'.find? row.1 = some v ∧
      row.2 = similarity.normalize^[n] v) :
    Owned similarity (g.buildBatch similarity rows wiring) latest' :=
  h.extended (buildBatch_extends hdim hfresh wiring) hfresh.1 hkept hgiven

/-- Behind a batch the id map is built anew. -/
lemma sound_buildBatch {s : LiveGraph} {latest' : OrdMap ℕ Vec} {rows : List (ℕ × Vec)}
    (hrows : rows ≠ []) (hdim : s.graph.batchDim rows ≠ 0) (wiring : Wiring)
    (h : Owned similarity (s.unsealed.graph.buildBatch similarity rows wiring) latest') :
    Sound similarity ⟨s.buildBatch similarity rows wiring,latest'⟩ := by
  have hnext : Sound similarity ⟨{ s.unsealed with
      graph := s.unsealed.graph.buildBatch similarity rows wiring, idToOrd := none },latest'⟩ :=
    ⟨h,fun m hm => by cases hm⟩
  unfold LiveGraph.buildBatch
  rw [if_neg hrows]
  dsimp only
  rw [unsealed_batchDim,if_neg hdim]
  split_ifs
  · exact hnext
  · exact hnext.sealed

lemma Sound.buildBatch {s : LiveGraph} (h : Sound similarity ⟨s,latest⟩) {rows : List (ℕ × Vec)}
    (hfresh : rows ≠ [] → s.graph.batchDim rows ≠ 0 → FreshRows s.graph rows) (wiring : Wiring) :
    Sound similarity ⟨s.buildBatch similarity rows wiring,
      if s.graph.batchDim rows = 0 then latest
      else (s.graph.stagedRows rows).foldl (fun m row => m.insert row.1 row.2) latest⟩ := by
  by_cases hrows : rows = []
  · subst hrows
    simpa [LiveGraph.buildBatch,HnswIndex.stagedRows] using h
  by_cases hdim : s.graph.batchDim rows = 0
  · unfold LiveGraph.buildBatch
    rw [if_pos hdim,if_neg hrows]
    dsimp only
    rw [unsealed_batchDim,if_pos hdim]
    exact h.unsealed
  · have hf := hfresh hrows hdim
    rw [if_neg hdim]
    apply sound_buildBatch hrows hdim wiring
    apply h.owned.unsealed.buildBatch (by rwa [unsealed_batchDim]) hf.unsealed wiring
    · intro id hnot
      rw [unsealed_stagedRows] at hnot
      ext v
      rw [OrdMap.find?_foldl_insert Prod.fst Prod.snd hf.1]
      constructor
      · rintro (⟨row,hrow,rfl,-⟩ | ⟨hv,-⟩)
        · exact absurd (List.mem_map_of_mem hrow) hnot
        · exact hv
      · intro hv
        refine .inr ⟨hv,?_⟩
        rintro row hrow rfl
        exact hnot (List.mem_map_of_mem hrow)
    · intro row hrow
      rw [unsealed_stagedRows] at hrow
      exact ⟨0,row.2,(OrdMap.find?_foldl_insert Prod.fst Prod.snd hf.1).mpr
        (.inl ⟨row,hrow,rfl,rfl⟩),rfl⟩

lemma Sound.remove {s : LiveGraph} (h : Sound similarity ⟨s,latest⟩) (id : ℕ) :
    Sound similarity ⟨s.remove id,latest.erase id⟩ := by
  refine ⟨⟨h.owned.last,?_⟩,h.index⟩
  intro nd hmem hs hlive
  obtain ⟨hne,hlive⟩ := not_or.mp fun hor => hlive (Finset.mem_insert.mpr hor)
  rw [OrdMap.find?_erase,if_neg hne]
  exact h.owned.current nd hmem hs hlive

/-- The survivors of a compaction are the rows of a graph that starts from nothing. -/
lemma Sound.compact {s : LiveGraph} (h : Sound similarity ⟨s,latest⟩) (wiring : Wiring) :
    Sound similarity ⟨s.compact similarity wiring,latest⟩ := by
  unfold LiveGraph.compact
  by_cases hclean : s.graph.deleted = ∅ ∧ s.graph.nodes.any HnswNode.superseded = false
  · rw [if_pos hclean]
    exact h
  · rw [if_neg hclean]
    have hempty : Owned similarity (LiveGraph.start s.graph.config).unsealed.graph latest :=
      ⟨fun i nd hi => by simp [LiveGraph.start,LiveGraph.unsealed,HnswIndex.empty] at hi,
        fun nd hnd => by simp [LiveGraph.start,LiveGraph.unsealed,HnswIndex.empty] at hnd⟩
    have hstart : Sound similarity ⟨LiveGraph.start s.graph.config,latest⟩ :=
      ⟨hempty,fun m hm => by cases hm⟩
    set rows := s.survivors.map fun nd => (nd.id,nd.vector)
    set g := (LiveGraph.start s.graph.config).graph
    have hids : ((g.stagedRows rows).map Prod.fst).Nodup := by
      have hall : (rows.map Prod.fst).Nodup := by
        rw [List.map_map]
        exact h.owned.nodup_survivors
      exact hall.sublist (List.filter_sublist.map Prod.fst)
    have hfresh : FreshRows g rows :=
      ⟨hids,fun row _ nd hnd => by simp [g,LiveGraph.start,HnswIndex.empty] at hnd⟩
    by_cases hrows : rows = []
    · rw [LiveGraph.buildBatch,if_pos hrows]
      exact hstart
    by_cases hdim : g.batchDim rows = 0
    · have hadmitted : rows ≠ [] → g.batchDim rows ≠ 0 → FreshRows g rows := fun _ _ => hfresh
      have hsame := hstart.buildBatch hadmitted wiring
      rwa [if_pos hdim] at hsame
    · apply sound_buildBatch hrows hdim wiring
      apply hempty.buildBatch (by rwa [unsealed_batchDim]) hfresh.unsealed wiring (fun _ _ => rfl)
      intro row hrow
      obtain ⟨nd,hnd,rfl⟩ := List.mem_map.mp (List.mem_of_mem_filter hrow)
      obtain ⟨hmem,hlive,hs⟩ := mem_survivors.mp hnd
      obtain ⟨n,v,hv,hvec⟩ := h.owned.current nd hmem hs hlive
      exact ⟨n+1,v,hv,hvec⟩

/-- An admitted call has a result. -/
theorem Sound.step {s : WatchedGraph} {op : Op} (h : Sound similarity s) (ha : s.Admits op) :
    ∃ t, s.step similarity op = some t ∧ Sound similarity t := by
  cases op with
  | add id vec level wiring =>
    have hlinked : ¬ (accepts s.live.graph vec = true ∧ Lacks s.live.unsealed.graph level) :=
      fun hbad => (ha hbad.1).2 hbad.2
    exact ⟨_,if_neg hlinked,h.add id vec wiring⟩
  | buildBatch rows levels wiring =>
    have hlinked : ¬ ∃ level ∈ linkedLevels s.live.graph rows levels,
        Lacks s.live.unsealed.graph level := fun ⟨level,hlevel,hbad⟩ => ha.2 level hlevel hbad
    exact ⟨_,if_neg hlinked,h.buildBatch (fun hrows hdim => (ha.1 hrows hdim).2) wiring⟩
  | remove id => exact ⟨_,rfl,h.remove id⟩
  | compact wiring => exact ⟨_,rfl,h.compact wiring⟩
  | search => exact ⟨_,rfl,h.sealed⟩

/-- Every run of admitted calls goes through, and the results are identified. -/
theorem identified_of_run {config : HnswConfig} {ops : List Op}
    (hmeets : Machine.Meets (step similarity) Admits (start config) ops) :
    ∃ s, Machine.run (step similarity) (start config) ops = some s ∧ Identified similarity s := by
  have hstart : Sound similarity (start config) :=
    ⟨⟨fun i nd hi => by simp [start,LiveGraph.start,HnswIndex.empty] at hi,
      fun nd hnd => by simp [start,LiveGraph.start,HnswIndex.empty] at hnd⟩,
      fun m hm => by cases hm⟩
  obtain ⟨s,hs,hsound⟩ := Machine.exists_run (fun _ _ hi hc => hi.step hc) hstart hmeets
  exact ⟨s,hs,hsound.owned.identified⟩

/-- For vectors that are taken as they are. -/
def unscaled : Similarity := ⟨id,fun _ => dot,fun _ => dot⟩

/-- Two nodes that are each other's neighbours. -/
def pair : Wiring := ⟨fun node => [[1-node]],0,0⟩

/-- A batch, an id that is added again, a removal and the compaction. -/
def upserted : List Op :=
  [.buildBatch [(1,[1]),(2,[2])] [0,0] pair,.search,.add 1 [3] 0 pair,.remove 2,.compact pair]

theorem upserted_identified : ∃ s, Machine.run (step unscaled) (start {}) upserted = some s ∧
    Identified unscaled s :=
  identified_of_run
    (show Machine.Meets (step unscaled) Admits (start {}) upserted by decide +kernel)

/-- A batch brings the vector of an id that is there. -/
def batchedAgain : List Op := [.add 7 [1] 0 pair,.buildBatch [(7,[2])] [0] pair]

/-- Both vectors of the id are found. -/
theorem both_vectors_found : ∃ s, Machine.run (step unscaled) (start {}) batchedAgain = some s ∧
    s.live.graph.search unscaled [1] 2 = [⟨7,2⟩,⟨7,1⟩] ∧ ¬ Identified unscaled s := by
  obtain ⟨s,hrun,hsearch⟩ : ∃ s, Machine.run (step unscaled) (start {}) batchedAgain = some s ∧
      s.live.graph.search unscaled [1] 2 = [⟨7,2⟩,⟨7,1⟩] := ⟨_,rfl,by decide +kernel⟩
  refine ⟨s,hrun,hsearch,?_⟩
  intro h
  have honce := (h.search [1] 2).once
  rw [hsearch] at honce
  exact absurd honce (by decide)

/-- A batch of one node, which has no neighbours, is sealed; linking the next node indexes the list
that has not been unpacked. -/
theorem linked_out_of_range :
    Machine.run (step unscaled) (start {})
      [.buildBatch [(1,[1])] [0] ⟨fun _ => [[]],0,0⟩] ≠ none ∧
    Machine.run (step unscaled) (start {})
      [.buildBatch [(1,[1])] [0] ⟨fun _ => [[]],0,0⟩,.search,.add 2 [1] 0 pair] = none :=
  ⟨by decide +kernel,by decide +kernel⟩

end WatchedGraph
end RagRuntime.Index
