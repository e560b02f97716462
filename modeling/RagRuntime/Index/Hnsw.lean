import Mathlib.Data.Finset.Basic
import RagRuntime.Backend.Types
import RagRuntime.Base.Single
import RagRuntime.Lexical.Bm25

/-! The navigable small-world graph of a corpus: its nodes, the beam search over them, and what a
bulk construction stages. -/
namespace RagRuntime.Index
open RagRuntime.Base RagRuntime.Core RagRuntime.Backend RagRuntime.Lexical

structure HnswConfig where
  m : ℕ := 16
  efConstruction : ℕ := 200
  efSearch : ℕ := 64
  ml : ℚ := 0
  matryoshkaDim : ℕ := 0
  binary : Bool := false
  pqCodes : ℕ := 0
  dropFloats : Bool := false
  seed : ℕ := 0x9E3779B97F4A7C15
  deriving DecidableEq

/-- The arithmetic on vectors that the graph leaves to the codecs: how a vector is normalised, the
similarity that orders a walk and the one that candidates are ranked by. -/
structure Similarity where
  normalize : Vec → Vec
  walk : HnswConfig → Vec → Vec → ℚ
  rescore : HnswConfig → Vec → Vec → ℚ

/-- A node and its neighbours on each of its layers. A superseded node is a waypoint only. -/
structure HnswNode where
  id : ℕ
  superseded : Bool
  vector : Vec
  links : List (List ℕ)
  deriving DecidableEq

/-- `maxLayer` is negative while there is no node. -/
structure HnswIndex where
  config : HnswConfig
  dim : ℕ
  maxLayer : ℤ
  entry : ℕ
  nodes : List HnswNode
  deleted : Finset ℕ
  deriving DecidableEq

/-- What the concurrent linking of a bulk construction leaves. -/
structure Wiring where
  links : ℕ → List (List ℕ)
  entry : ℕ
  maxLayer : ℤ

namespace HnswIndex

def empty (config : HnswConfig) : HnswIndex := ⟨config,0,-1,0,[],∅⟩

def neighbours (g : HnswIndex) (node layer : ℕ) : List ℕ :=
  match g.nodes[node]? with
  | none => []
  | some nd => nd.links.getD layer []

/-- A candidate of a walk: its similarity and its node. -/
abbrev Scored := ℚ × ℕ

def best : List Scored → Option Scored
  | [] => none
  | c::cs => some (cs.foldl (fun b d => if b.1 < d.1 then d else b) c)

def weakest : List Scored → Option Scored
  | [] => none
  | c::cs => some (cs.foldl (fun b d => if d.1 < b.1 then d else b) c)

/-- The frontier, the running best and the nodes seen. -/
structure Beam where
  cand : List Scored
  result : List Scored
  visited : List ℕ

def Beam.offer (b : Beam) (ef : ℕ) (c : Scored) : Beam :=
  if b.result.length < ef then { b with cand := c::b.cand, result := c::b.result }
  else
    match weakest b.result with
    | none => b
    | some w =>
      if w.1 < c.1 then { b with cand := c::b.cand, result := c::b.result.erase w } else b

/-- A neighbour that has not been seen is scored. -/
def visit (g : HnswIndex) (sim : ℕ → ℚ) (ef : ℕ) (b : Beam) (nb : ℕ) : Beam :=
  if nb ≥ g.nodes.length ∨ nb ∈ b.visited then b
  else { b with visited := nb::b.visited }.offer ef (sim nb,nb)

/-- The walk on one layer; every turn takes a node that no other turn takes. -/
def walkLayer (g : HnswIndex) (sim : ℕ → ℚ) (layer ef : ℕ) : ℕ → Beam → Beam
  | 0,b => b
  | fuel+1,b =>
    match best b.cand with
    | none => b
    | some c =>
      if b.result.length ≥ ef ∧ (weakest b.result).any (fun w => c.1 < w.1) then b
      else walkLayer g sim layer ef fuel
        ((g.neighbours c.2 layer).foldl (g.visit sim ef) { b with cand := b.cand.erase c })

def searchLayer (g : HnswIndex) (sim : ℕ → ℚ) (entry layer ef : ℕ) : List ℕ :=
  let start := (sim entry,entry)
  let b := g.walkLayer sim layer ef (g.nodes.length+1) ⟨[start],[start],[entry]⟩
  (b.result.insertionSort fun a b => b.1 ≤ a.1).map Prod.snd

/-- The greedy descent from the top layer to the one above the base. -/
def descend (g : HnswIndex) (sim : ℕ → ℚ) : ℕ → ℕ → ℕ
  | 0,current => current
  | layer+1,current =>
    descend g sim layer ((g.searchLayer sim current (layer+1) 1).headD current)

/-- The nodes that a search looks at on the base layer. -/
def candidates (similarity : Similarity) (g : HnswIndex) (query : Vec) (ef : ℕ) : List ℕ :=
  let sim := fun node => similarity.walk g.config
    ((g.nodes[node]?).elim [] HnswNode.vector) query
  g.searchLayer sim (g.descend sim g.maxLayer.toNat g.entry) 0 ef

/-- A query is brought to the dimension of the graph and normalised. -/
def prepareQuery (similarity : Similarity) (g : HnswIndex) (query : Vec) : Vec :=
  similarity.normalize ((query ++ List.replicate (g.dim - query.length) 0).take g.dim)

/-- The candidates that may be returned, rescored; `allow` is true where there is no filter. -/
def hits (similarity : Similarity) (g : HnswIndex) (query : Vec) (allow : ℕ → Bool)
    (nodes : List ℕ) : List Hit :=
  nodes.filterMap fun node => (g.nodes[node]?).bind fun nd =>
    if allow nd.id = false ∨ nd.id ∈ g.deleted ∨ nd.superseded = true then none
    else some ⟨nd.id,similarity.rescore g.config nd.vector query⟩

def ranked (k : ℕ) (found : List Hit) : List Hit :=
  (found.insertionSort fun a b => b.score ≤ a.score).take k

def search (similarity : Similarity) (g : HnswIndex) (query : Vec) (k : ℕ) : List Hit :=
  if g.nodes = [] ∨ g.dim = 0 then []
  else
    let query := g.prepareQuery similarity query
    ranked k (g.hits similarity query (fun _ => true)
      (g.candidates similarity query (max g.config.efSearch k)))

/-- A `size_t` as a `float`. -/
def toFloat (n : ℕ) : ℕ := Single.roundEven (n/2^(n.log2-23)) * 2^(n.log2-23)

/-- The beam under a filter is widened fourfold, so that a selective one still finds `k`. The width
is a `float`, and none where it is too large for a `size_t`. -/
def widened (g : HnswIndex) (k : ℕ) : Option ℕ :=
  let ef := max (toFloat (max g.config.efSearch k) * 4) (toFloat k)
  if ef < 2^64 then some (min ef g.nodes.length) else none

def searchFiltered (similarity : Similarity) (g : HnswIndex) (query : Vec) (k : ℕ)
    (allow : ℕ → Bool) : Option (List Hit) :=
  if g.nodes = [] ∨ g.dim = 0 then some []
  else (g.widened k).map fun ef =>
    let query := g.prepareQuery similarity query
    ranked k (g.hits similarity query allow (g.candidates similarity query ef))

def remove (g : HnswIndex) (id : ℕ) : HnswIndex := { g with deleted := insert id g.deleted }

/-- The dimension that a bulk construction from `rows` has. -/
def batchDim (g : HnswIndex) (rows : List (ℕ × Vec)) : ℕ :=
  if g.dim = 0 then (rows.head?.elim 0 fun row => row.2.length) else g.dim

/-- The rows that become nodes; rows of another dimension are skipped. -/
def stagedRows (g : HnswIndex) (rows : List (ℕ × Vec)) : List (ℕ × Vec) :=
  rows.filter fun row => row.2.length = g.batchDim rows

/-- Staging brings a removed id back. -/
def buildBatch (similarity : Similarity) (g : HnswIndex) (rows : List (ℕ × Vec))
    (wiring : Wiring) : HnswIndex :=
  if g.batchDim rows = 0 then g
  else
    let staged := g.stagedRows rows
    let g := { g with dim := g.batchDim rows,
                      deleted := g.deleted \ (staged.map Prod.fst).toFinset }
    if staged = [] then g
    else
      let nodes := g.nodes ++ staged.map fun row => ⟨row.1,false,similarity.normalize row.2,[]⟩
      { g with
        nodes := nodes.mapIdx fun i nd => { nd with links := wiring.links i }
        entry := wiring.entry
        maxLayer := wiring.maxLayer }

/-- What loading gives back of a graph: removed ids and superseded nodes are not written. -/
def reloaded (g : HnswIndex) : HnswIndex :=
  { g with nodes := g.nodes.map fun nd => { nd with superseded := false }, deleted := ∅ }

/-- A search returns the ids of nodes that are neither removed nor superseded. -/
lemma mem_hits {similarity : Similarity} {g : HnswIndex} {query : Vec} {allow : ℕ → Bool}
    {nodes : List ℕ} {hit : Hit} (h : hit ∈ g.hits similarity query allow nodes) :
    ∃ nd ∈ g.nodes, nd.id = hit.chunk ∧ nd.id ∉ g.deleted ∧ allow nd.id = true := by
  obtain ⟨node,-,hnode⟩ := List.mem_filterMap.mp h
  obtain ⟨nd,hnd,hhit⟩ := Option.bind_eq_some_iff.mp hnode
  split_ifs at hhit with hout
  cases hhit
  obtain ⟨hallow,hout⟩ := not_or.mp hout
  exact ⟨nd,List.mem_of_getElem? hnd,rfl,(not_or.mp hout).1,Bool.eq_true_of_not_eq_false hallow⟩

lemma mem_of_mem_ranked {k : ℕ} {found : List Hit} {hit : Hit} (h : hit ∈ ranked k found) :
    hit ∈ found :=
  (List.mem_insertionSort _).mp (List.mem_of_mem_take h)

theorem mem_search {similarity : Similarity} {g : HnswIndex} {query : Vec} {k : ℕ} {hit : Hit}
    (h : hit ∈ g.search similarity query k) :
    ∃ nd ∈ g.nodes, nd.id = hit.chunk ∧ nd.id ∉ g.deleted := by
  unfold search at h
  split_ifs at h
  · cases h
  · obtain ⟨nd,hnd,hid,hlive,-⟩ := mem_hits (mem_of_mem_ranked h)
    exact ⟨nd,hnd,hid,hlive⟩

theorem mem_searchFiltered {similarity : Similarity} {g : HnswIndex} {query : Vec} {k : ℕ}
    {allow : ℕ → Bool} {found : List Hit}
    (h : g.searchFiltered similarity query k allow = some found) {hit : Hit} (hhit : hit ∈ found) :
    ∃ nd ∈ g.nodes, nd.id = hit.chunk ∧ nd.id ∉ g.deleted := by
  unfold searchFiltered at h
  split_ifs at h
  · cases h
    cases hhit
  · obtain ⟨ef,-,rfl⟩ := Option.map_eq_some_iff.mp h
    obtain ⟨nd,hnd,hid,hlive,-⟩ := mem_hits (mem_of_mem_ranked hhit)
    exact ⟨nd,hnd,hid,hlive⟩

/-- The nodes of a graph built from nothing are the staged rows. -/
theorem mem_buildBatch_empty {similarity : Similarity} {config : HnswConfig}
    {rows : List (ℕ × Vec)} {wiring : Wiring} {nd : HnswNode}
    (h : nd ∈ ((empty config).buildBatch similarity rows wiring).nodes) :
    ∃ row ∈ (empty config).stagedRows rows, row.1 = nd.id := by
  unfold buildBatch at h
  dsimp only at h
  split_ifs at h
  · cases h
  · cases h
  · obtain ⟨i,hi⟩ := List.mem_iff_getElem?.mp h
    rw [List.getElem?_mapIdx,Option.map_eq_some_iff] at hi
    obtain ⟨nd',hnd',rfl⟩ := hi
    have hmem := List.mem_of_getElem? hnd'
    rw [show (empty config).nodes = [] from rfl,List.nil_append] at hmem
    obtain ⟨row,hrow,rfl⟩ := List.mem_map.mp hmem
    exact ⟨row,hrow,rfl⟩

end HnswIndex
end RagRuntime.Index
