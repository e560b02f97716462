import RagRuntime.Index.HnswRun

/-! How a batch is linked by one worker, which is all that a batch of fewer than 512 nodes has: each
node is connected with what a search for it finds, and every list of neighbours is pruned. -/
namespace RagRuntime.Index
open RagRuntime.Base RagRuntime.Core RagRuntime.Backend RagRuntime.Lexical RagRuntime.Dense

/-- How many neighbours a node may have on a layer. -/
def HnswConfig.maxM (config : HnswConfig) (layer : ℕ) : ℕ :=
  if layer = 0 then config.m*2 else config.m

namespace HnswIndex

/-- Malkov and Yashunin's selection: what is nearer to a picked neighbour than to the node itself is
passed over, and taken only to fill up. -/
def selectNeighboursHeuristic (scored : List Scored) (m : ℕ) (between : ℕ → ℕ → ℚ) : List ℕ :=
  let picked := scored.foldl (fun picked c =>
    if picked.length ≥ m ∨ picked.any (fun p => between c.2 p > c.1) then picked
    else picked ++ [c.2]) []
  scored.foldl (fun picked c =>
    if picked.length ≥ m ∨ c.2 ∈ picked then picked else picked ++ [c.2]) picked

section linking

variable (g : HnswIndex)

def vectorOf (node : ℕ) : Vec := (g.nodes[node]?).elim [] HnswNode.vector
def simNodes (a b : ℕ) : ℚ := dot (g.vectorOf a) (g.vectorOf b)

/-- On how many layers the node has a list. -/
def layers (node : ℕ) : ℕ := ((g.nodes[node]?).elim [] HnswNode.links).length

def scoreAndSort (node : ℕ) (cands : List ℕ) : List Scored :=
  (cands.map fun c => (g.simNodes node c,c)).insertionSort fun a b => b.1 ≤ a.1

def setLinks (node layer : ℕ) (links : List ℕ) : HnswIndex :=
  { g with nodes := g.nodes.modify node fun nd => { nd with links := nd.links.set layer links } }

/-- The neighbour gets a link back, and is pruned if it has too many. -/
def backLink (node layer nb : ℕ) : HnswIndex :=
  let held := g.neighbours nb layer
  let held := if node ∈ held then held else held ++ [node]
  g.setLinks nb layer <|
    if held.length > g.config.maxM layer then
      selectNeighboursHeuristic (g.scoreAndSort nb held) (g.config.maxM layer) g.simNodes
    else held

def connectLocked (node layer : ℕ) (neighbours : List ℕ) : HnswIndex :=
  let keep := selectNeighboursHeuristic (g.scoreAndSort node neighbours) (g.config.maxM layer)
    g.simNodes
  keep.foldl (fun g nb => g.backLink node layer nb) (g.setLinks node layer keep)

/-- One node of the batch: by single steps down to its own level, and from there on with links. -/
def linkNode (similarity : Similarity) (ordinal level : ℕ) : HnswIndex :=
  let sim := fun node => similarity.walk g.config (g.vectorOf node) (g.vectorOf ordinal)
  let top := g.maxLayer.toNat
  let current := (List.range' (level+1) (top-level)).foldr (fun layer current =>
    (g.searchLayer sim current layer 1).headD current) g.entry
  let linked := (List.range (min level top + 1)).foldr (fun layer (state : HnswIndex × ℕ) =>
    let hop := state.1.searchLayer sim state.2 layer g.config.efConstruction
    (state.1.connectLocked ordinal layer hop,hop.headD state.2)) (g,current)
  if level > top then { linked.1 with entry := ordinal, maxLayer := level } else linked.1

end linking

/-- A batch of vectors with the levels that were drawn for its nodes, before it is linked. The first
node is where searches start. -/
def stagedBatch (similarity : Similarity) (config : HnswConfig) (vectors : List Vec)
    (levels : List ℕ) : HnswIndex where
  config := config
  dim := (vectors.head?.map List.length).getD 0
  maxLayer := levels.headD 0
  entry := 0
  nodes := (vectors.zip levels).mapIdx fun i row =>
    ⟨i,false,similarity.normalize row.1,List.replicate (row.2+1) []⟩
  deleted := ∅

def linkedBatch (similarity : Similarity) (config : HnswConfig) (vectors : List Vec)
    (levels : List ℕ) : HnswIndex :=
  (levels.zipIdx.drop 1).foldl (fun g row => g.linkNode similarity row.2 row.1)
    (stagedBatch similarity config vectors levels)

/-- What the linking of a batch leaves. -/
def serialWiring (similarity : Similarity) (config : HnswConfig) (vectors : List Vec)
    (levels : List ℕ) : Wiring :=
  let linked := linkedBatch similarity config vectors levels
  ⟨fun i => (linked.nodes[i]?).elim [] HnswNode.links,linked.entry,linked.maxLayer⟩

section bounds

variable {config : HnswConfig} {g : HnswIndex}

/-- No node has more neighbours on a layer than are allowed there. -/
structure Bounded (config : HnswConfig) (g : HnswIndex) : Prop where
  same : g.config = config
  lists : ∀ node layer, (g.neighbours node layer).length ≤ config.maxM layer

lemma length_foldl_unless_le {α : Type} (m : ℕ) (skip : List ℕ → α → Prop)
    [∀ picked c, Decidable (skip picked c)] (item : α → ℕ) (l : List α) {picked : List ℕ}
    (h : picked.length ≤ m) : (l.foldl (fun picked c =>
      if picked.length ≥ m ∨ skip picked c then picked else picked ++ [item c]) picked).length ≤
        m := by
  induction l generalizing picked with
  | nil => exact h
  | cons c l ih =>
    rw [List.foldl_cons]
    apply ih
    split_ifs with hskip
    · exact h
    · rw [List.length_append,List.length_singleton]
      have := (not_or.mp hskip).1
      omega

lemma length_selectNeighboursHeuristic_le (scored : List Scored) (m : ℕ) (between : ℕ → ℕ → ℚ) :
    (selectNeighboursHeuristic scored m between).length ≤ m := by
  have hnone : ([] : List ℕ).length ≤ m := Nat.zero_le m
  have hpicked := length_foldl_unless_le m
    (fun picked (c : Scored) => (picked.any fun p => decide (between c.2 p > c.1)) = true)
    Prod.snd scored hnone
  exact length_foldl_unless_le m (fun picked (c : Scored) => c.2 ∈ picked) Prod.snd scored hpicked

lemma neighbours_eq (g : HnswIndex) (node layer : ℕ) :
    g.neighbours node layer = ((g.nodes[node]?).elim [] HnswNode.links).getD layer [] := by
  unfold neighbours
  cases g.nodes[node]? <;> rfl

lemma lt_layers {node layer : ℕ} (h : g.neighbours node layer ≠ []) : layer < g.layers node := by
  by_contra hnot
  apply h
  rw [neighbours_eq,List.getD_eq_getElem?_getD,List.getElem?_eq_none (not_lt.mp hnot),
    Option.getD_none]

/-- Only a list that is there is set. -/
lemma neighbours_setLinks (g : HnswIndex) (node layer : ℕ) (links : List ℕ) (node' layer' : ℕ) :
    (g.setLinks node layer links).neighbours node' layer' =
      if node' = node ∧ layer' = layer ∧ layer < g.layers node then links
      else g.neighbours node' layer' := by
  simp only [neighbours_eq,layers,setLinks,List.getElem?_modify]
  by_cases hsame : node' = node
  · subst hsame
    cases g.nodes[node']? with
    | none => simp
    | some nd =>
      simp only [if_true,Option.map_eq_map,Option.map_some,Option.elim_some,true_and,
        List.getD_eq_getElem?_getD,List.getElem?_set]
      by_cases hlayer : layer' = layer
      · subst hlayer
        by_cases hroom : layer' < nd.links.length
        · simp [hroom]
        · simp [hroom]
      · simp [hlayer,Ne.symm hlayer]
  · rw [if_neg fun h => hsame h.1]
    cases g.nodes[node']? <;> simp [Ne.symm hsame]

lemma Bounded.setLinks (h : Bounded config g) (node : ℕ) {layer : ℕ} {links : List ℕ}
    (hlinks : links.length ≤ config.maxM layer) : Bounded config (g.setLinks node layer links) := by
  refine ⟨h.same,?_⟩
  intro node' layer'
  rw [neighbours_setLinks]
  split_ifs with hset
  · rw [hset.2.1]
    exact hlinks
  · exact h.lists node' layer'

lemma Bounded.backLink (h : Bounded config g) (node layer nb : ℕ) :
    Bounded config (g.backLink node layer nb) := by
  unfold HnswIndex.backLink
  apply h.setLinks
  rw [h.same]
  split_ifs with hin hlong hlong
  · exact length_selectNeighboursHeuristic_le _ _ _
  · exact not_lt.mp hlong
  · exact length_selectNeighboursHeuristic_le _ _ _
  · exact not_lt.mp hlong

lemma Bounded.connectLocked (h : Bounded config g) (node layer : ℕ) (neighbours : List ℕ) :
    Bounded config (g.connectLocked node layer neighbours) := by
  unfold HnswIndex.connectLocked
  rw [h.same]
  apply List.foldlRecOn (motive := Bounded config)
  · exact h.setLinks node (length_selectNeighboursHeuristic_le _ _ _)
  · exact fun g hg nb _ => hg.backLink node layer nb

/-- Linking a node keeps the bounds. -/
lemma Bounded.linkNode (h : Bounded config g) (similarity : Similarity) (ordinal level : ℕ) :
    Bounded config (g.linkNode similarity ordinal level) := by
  have hlinked : ∀ (layers : List ℕ) (sim : ℕ → ℚ) (current : ℕ),
      Bounded config (layers.foldr (fun layer (state : HnswIndex × ℕ) =>
        (state.1.connectLocked ordinal layer
          (state.1.searchLayer sim state.2 layer g.config.efConstruction),
        (state.1.searchLayer sim state.2 layer g.config.efConstruction).headD state.2))
        (g,current)).1 := by
    intro layers sim current
    induction layers with
    | nil => exact h
    | cons layer layers ih => exact ih.connectLocked ordinal layer _
  unfold HnswIndex.linkNode
  dsimp only
  split_ifs
  · exact ⟨(hlinked _ _ _).same,(hlinked _ _ _).lists⟩
  · exact hlinked _ _ _

lemma bounded_stagedBatch (similarity : Similarity) (config : HnswConfig) (vectors : List Vec)
    (levels : List ℕ) : Bounded config (stagedBatch similarity config vectors levels) := by
  refine ⟨rfl,?_⟩
  intro node layer
  unfold neighbours stagedBatch
  dsimp only
  rw [List.getElem?_mapIdx]
  cases (vectors.zip levels)[node]? with
  | none => exact Nat.zero_le _
  | some row =>
    rw [Option.map_some]
    dsimp only
    rw [List.getD_eq_getElem?_getD,List.getElem?_replicate]
    split_ifs <;> exact Nat.zero_le _

lemma bounded_linkedBatch (similarity : Similarity) (config : HnswConfig) (vectors : List Vec)
    (levels : List ℕ) : Bounded config (linkedBatch similarity config vectors levels) := by
  unfold linkedBatch
  apply List.foldlRecOn (motive := Bounded config)
  · exact bounded_stagedBatch similarity config vectors levels
  · exact fun g hg row _ => hg.linkNode similarity row.2 row.1

end bounds

/-- A batch leaves no list of neighbours that is too long. What was pruned may have been the only
link to its node. -/
theorem length_serialWiring_le (similarity : Similarity) (config : HnswConfig) (vectors : List Vec)
    (levels : List ℕ) (i layer : ℕ) :
    (((serialWiring similarity config vectors levels).links i).getD layer []).length ≤
      config.maxM layer := by
  have hlists := (bounded_linkedBatch similarity config vectors levels).lists i layer
  unfold neighbours at hlists
  unfold serialWiring
  dsimp only
  cases hnode : (linkedBatch similarity config vectors levels).nodes[i]? with
  | none => exact Nat.zero_le _
  | some nd =>
    rw [hnode] at hlists
    exact hlists

end HnswIndex
end RagRuntime.Index
