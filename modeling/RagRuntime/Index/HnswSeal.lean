import RagRuntime.Base.Ragged
import RagRuntime.Index.HnswRun

/-! The two layouts of a graph's links: lists at the nodes while it is built, and one flat list a
layer once it is sealed. -/
namespace RagRuntime.Index
open RagRuntime.Base RagRuntime.Core RagRuntime.Backend RagRuntime.Lexical

/-- Offsets and neighbours, layer by layer. -/
structure PackedLinks where
  off : List (List ℕ)
  nbr : List (List ℕ)

namespace PackedLinks

def layerCount (nodes : List HnswNode) : ℕ := nodes.foldl (fun n nd => max n nd.links.length) 0

def onLayer (nodes : List HnswNode) (layer : ℕ) : List (List ℕ) :=
  nodes.map fun nd => nd.links.getD layer []

def pack (nodes : List HnswNode) : PackedLinks where
  off := (List.range (layerCount nodes)).map fun layer => offsets 0 (onLayer nodes layer)
  nbr := (List.range (layerCount nodes)).map fun layer => (onLayer nodes layer).flatten

def neighbours (p : PackedLinks) (node layer : ℕ) : List ℕ :=
  if layer ≥ p.off.length then [] else slice (p.off.getD layer []) (p.nbr.getD layer []) node

/-- The number of layers that a node reaches. -/
def reached (p : PackedLinks) (node : ℕ) : ℕ :=
  (List.range p.off.length).foldl (fun top layer =>
    let off := p.off.getD layer []
    if node+1 < off.length ∧ off.getD (node+1) 0 > off.getD node 0 then layer+1 else top) 0

def unpack (p : PackedLinks) (node : ℕ) : List (List ℕ) :=
  (List.range (p.reached node)).map (p.neighbours node)

section packed

variable {nodes : List HnswNode}

lemma length_le_layerCount {nd : HnswNode} (h : nd ∈ nodes) :
    nd.links.length ≤ layerCount nodes := by
  rw [layerCount]
  induction nodes using List.reverseRecOn with
  | nil => cases h
  | append_singleton nodes last ih =>
    rw [List.foldl_append,List.foldl_cons,List.foldl_nil]
    obtain h | h := List.mem_append.mp h
    · exact (ih h).trans (le_max_left _ _)
    · rw [List.mem_singleton.mp h]
      exact le_max_right _ _

lemma length_off (nodes : List HnswNode) : (pack nodes).off.length = layerCount nodes := by
  rw [pack,List.length_map,List.length_range]

lemma getD_off {layer : ℕ} (h : layer < layerCount nodes) :
    (pack nodes).off.getD layer [] = offsets 0 (onLayer nodes layer) ∧
      (pack nodes).nbr.getD layer [] = (onLayer nodes layer).flatten := by
  constructor
  · rw [pack,List.getD_eq_getElem _ _ (by simpa using h),List.getElem_map,List.getElem_range]
  · rw [pack,List.getD_eq_getElem _ _ (by simpa using h),List.getElem_map,List.getElem_range]

/-- The flat lists have the neighbours that stood at the nodes. -/
theorem neighbours_pack {i : ℕ} {nd : HnswNode} (hi : nodes[i]? = some nd) (layer : ℕ) :
    (pack nodes).neighbours i layer = nd.links.getD layer [] := by
  rw [neighbours,length_off]
  split_ifs with hlayer
  · exact (List.getD_eq_default _ _
      ((length_le_layerCount (List.mem_of_getElem? hi)).trans hlayer)).symm
  · obtain ⟨hoff,hnbr⟩ := getD_off (not_le.mp hlayer)
    rw [hoff,hnbr,slice_offsets,onLayer,List.getD_eq_getElem?_getD,List.getElem?_map,hi]
    rfl

/-- A node reaches the last layer on which it has neighbours. -/
lemma reached_pack {i : ℕ} {nd : HnswNode} (hi : nodes[i]? = some nd) :
    (pack nodes).reached i = height (fun layer => nd.links.getD layer []) (layerCount nodes) := by
  rw [reached,height,length_off]
  refine List.foldl_ext _ _ _ fun top layer hlayer => ?_
  have hlt := (List.getElem?_eq_some_iff.mp hi).1
  have hlength : (onLayer nodes layer).length = nodes.length := List.length_map ..
  have hrow : (onLayer nodes layer)[i]? = some (nd.links.getD layer []) := by
    rw [onLayer,List.getElem?_map,hi]
    rfl
  obtain ⟨hbound,hget⟩ := List.getElem?_eq_some_iff.mp hrow
  dsimp only
  rw [(getD_off (List.mem_range.mp hlayer)).1,length_offsets,hlength,getD_offsets 0 _ (by omega),
    getD_offsets 0 _ (by omega),List.take_succ_eq_append_getElem hbound,hget,List.flatten_append,
    List.length_append,List.flatten_singleton]
  by_cases hnone : nd.links.getD layer [] = []
  · rw [hnone,if_pos rfl,if_neg]
    simp
  · have hsome := List.length_pos_of_ne_nil hnone
    rw [if_neg hnone,if_pos ⟨by omega,by omega⟩]

/-- What is restored at a node are its links but for empty layers at the end. -/
theorem unpack_pack {i : ℕ} {nd : HnswNode} (hi : nodes[i]? = some nd) :
    (pack nodes).unpack i = (LiveGraph.unpackLinks nd).links := by
  rw [unpack,reached_pack hi,LiveGraph.unpackLinks,
    ← map_range_height nd.links (length_le_layerCount (List.mem_of_getElem? hi))]
  exact List.map_congr_left fun layer _ => neighbours_pack hi layer

end packed
end PackedLinks

namespace HnswIndex

/-- Graphs that differ in their lists of links only, and not in what is read from them. -/
structure Alike (g g' : HnswIndex) : Prop where
  config : g'.config = g.config
  dim : g'.dim = g.dim
  maxLayer : g'.maxLayer = g.maxLayer
  entry : g'.entry = g.entry
  deleted : g'.deleted = g.deleted
  nodes : g'.nodes.map (fun nd => { nd with links := [] }) =
    g.nodes.map fun nd => { nd with links := [] }
  neighbours : ∀ node layer, g'.neighbours node layer = g.neighbours node layer

section alike

variable {similarity : Similarity} {g g' : HnswIndex}

lemma Alike.length (h : Alike g g') : g'.nodes.length = g.nodes.length := by
  simpa using congrArg List.length h.nodes

/-- A node is the same but for its links. -/
lemma Alike.node (h : Alike g g') {α : Type} (f : HnswNode → α)
    (hf : ∀ nd : HnswNode, f { nd with links := [] } = f nd) (i : ℕ) :
    (g'.nodes[i]?).map f = (g.nodes[i]?).map f := by
  have hi := congrArg (fun nodes : List HnswNode => (nodes[i]?).map f) h.nodes
  simp only [List.getElem?_map,Option.map_map] at hi
  have hcomp : (f ∘ fun nd : HnswNode => { nd with links := [] }) = f := funext hf
  rwa [hcomp] at hi

lemma Alike.walkLayer (h : Alike g g') (sim : ℕ → ℚ) (layer ef fuel : ℕ) (b : Beam) :
    g'.walkLayer sim layer ef fuel b = g.walkLayer sim layer ef fuel b := by
  have hvisit : g'.visit sim ef = g.visit sim ef := by
    funext b nb
    rw [visit,visit,h.length]
  induction fuel generalizing b with
  | zero => rfl
  | succ fuel ih =>
    rw [HnswIndex.walkLayer,HnswIndex.walkLayer]
    cases best b.cand with
    | none => rfl
    | some c =>
      dsimp only
      rw [h.neighbours,hvisit,ih]

lemma Alike.searchLayer (h : Alike g g') (sim : ℕ → ℚ) (entry layer ef : ℕ) :
    g'.searchLayer sim entry layer ef = g.searchLayer sim entry layer ef := by
  rw [HnswIndex.searchLayer,HnswIndex.searchLayer,h.length,h.walkLayer]

lemma Alike.descend (h : Alike g g') (sim : ℕ → ℚ) (layer current : ℕ) :
    g'.descend sim layer current = g.descend sim layer current := by
  induction layer generalizing current with
  | zero => rfl
  | succ layer ih => rw [HnswIndex.descend,HnswIndex.descend,h.searchLayer,ih]

/-- Searches do not tell the graphs from each other. -/
theorem Alike.beamSearch (h : Alike g g') (query : Vec) (k : ℕ) (allow : ℕ → Bool) (ef : ℕ) :
    g'.beamSearch similarity query k allow ef = g.beamSearch similarity query k allow ef := by
  have hnil : (g'.nodes = [] ∨ g'.dim = 0) = (g.nodes = [] ∨ g.dim = 0) := by
    rw [← List.length_eq_zero_iff,h.length,List.length_eq_zero_iff,h.dim]
  have hvector : ∀ node : ℕ, (g'.nodes[node]?).elim [] HnswNode.vector =
      (g.nodes[node]?).elim [] HnswNode.vector := by
    intro node
    have hnode := h.node HnswNode.vector (fun _ => rfl) node
    cases hg : g.nodes[node]? <;> cases hg' : g'.nodes[node]? <;> simp_all
  have hprepare : g'.prepareQuery similarity query = g.prepareQuery similarity query := by
    rw [prepareQuery,prepareQuery,h.dim]
  have hcandidates : ∀ query, g'.candidates similarity query ef =
      g.candidates similarity query ef := by
    intro query
    rw [candidates,candidates,h.searchLayer,h.descend,h.config,h.entry,h.maxLayer]
    simp only [hvector]
  have hhits : ∀ query nodes, g'.hits similarity query allow nodes =
      g.hits similarity query allow nodes := by
    intro query nodes
    refine List.filterMap_congr fun node _ => ?_
    have hnode := h.node (fun nd => if allow nd.id = false ∨ nd.id ∈ g.deleted ∨
      nd.superseded = true then none
      else some (⟨nd.id,similarity.rescore g.config nd.vector query⟩ : Hit)) (fun _ => rfl) node
    rw [h.deleted,h.config]
    cases hg : g.nodes[node]? <;> cases hg' : g'.nodes[node]? <;> simp_all
  rw [HnswIndex.beamSearch,HnswIndex.beamSearch]
  simp only [hnil]
  split_ifs
  · rfl
  · rw [hprepare,hcandidates,hhits]

/-- The graph as a sealed one is read. -/
def packed (g : HnswIndex) : HnswIndex :=
  let links := PackedLinks.pack g.nodes
  { g with nodes := g.nodes.mapIdx fun i nd =>
      { nd with links := (List.range links.off.length).map (links.neighbours i) } }

/-- The graph as its links are restored. -/
def unpacked (g : HnswIndex) : HnswIndex :=
  let links := PackedLinks.pack g.nodes
  { g with nodes := g.nodes.mapIdx fun i nd => { nd with links := links.unpack i } }

lemma alike_packed (g : HnswIndex) : Alike g g.packed where
  config := rfl
  dim := rfl
  maxLayer := rfl
  entry := rfl
  deleted := rfl
  nodes := by
    apply List.ext_getElem
    · simp [packed]
    intro i hi _
    simp [packed]
  neighbours node layer := by
    rw [neighbours,neighbours,packed,List.getElem?_mapIdx]
    cases hnode : g.nodes[node]? with
    | none => rfl
    | some nd =>
      dsimp only [Option.map_some]
      have hread := PackedLinks.neighbours_pack hnode layer
      by_cases hlayer : layer < (PackedLinks.pack g.nodes).off.length
      · rw [List.getD_eq_getElem _ _ (by simpa using hlayer),List.getElem_map,List.getElem_range,
          hread]
      · rw [List.getD_eq_default _ _ (by simpa using hlayer),← hread,PackedLinks.neighbours,
          if_pos (not_lt.mp hlayer)]

lemma getD_rdropWhile {α : Type*} (rows : List (List α)) (i : ℕ) :
    (rows.rdropWhile fun row => row = []).getD i [] = rows.getD i [] := by
  induction rows using List.reverseRecOn with
  | nil => rfl
  | append_singleton rows row ih =>
    by_cases hrow : row = []
    · rw [List.rdropWhile_concat_pos _ _ _ (by simpa using hrow),ih,hrow,
        List.getD_eq_getElem?_getD,List.getD_eq_getElem?_getD]
      by_cases hi : i < rows.length
      · rw [List.getElem?_append_left hi]
      · rw [List.getElem?_append_right (not_lt.mp hi),List.getElem?_eq_none (not_lt.mp hi)]
        cases i-rows.length <;> simp
    · rw [List.rdropWhile_concat_neg _ _ _ (by simpa using hrow)]

lemma unpacked_eq (g : HnswIndex) :
    g.unpacked = { g with nodes := g.nodes.map LiveGraph.unpackLinks } := by
  rw [unpacked]
  congr 1
  apply List.ext_getElem
  · simp
  intro i hi _
  have hi : i < g.nodes.length := by simpa using hi
  rw [List.getElem_mapIdx,List.getElem_map,
    PackedLinks.unpack_pack (List.getElem?_eq_getElem hi)]
  rfl

lemma alike_unpacked (g : HnswIndex) : Alike g g.unpacked where
  config := rfl
  dim := rfl
  maxLayer := rfl
  entry := rfl
  deleted := rfl
  nodes := by
    rw [unpacked_eq,List.map_map]
    rfl
  neighbours node layer := by
    rw [unpacked_eq,neighbours,neighbours,List.getElem?_map]
    cases g.nodes[node]? with
    | none => rfl
    | some nd => exact getD_rdropWhile nd.links layer

/-- No search tells whether a graph is sealed, or was sealed before. -/
theorem sealing_unseen (g : HnswIndex) (query : Vec) (k : ℕ) (allow : ℕ → Bool) (ef : ℕ) :
    g.packed.beamSearch similarity query k allow ef = g.beamSearch similarity query k allow ef ∧
      g.unpacked.beamSearch similarity query k allow ef =
        g.beamSearch similarity query k allow ef :=
  ⟨(alike_packed g).beamSearch query k allow ef,(alike_unpacked g).beamSearch query k allow ef⟩

end alike
end HnswIndex
end RagRuntime.Index
