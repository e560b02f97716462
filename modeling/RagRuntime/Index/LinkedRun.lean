import RagRuntime.Index.HnswLayers

/-! Calls on a graph that link as one worker does, each list that is written to looked up: they are
the calls with the wiring that linking leaves, and fail where those do. -/
namespace RagRuntime.Index
open RagRuntime.Base RagRuntime.Core RagRuntime.Backend RagRuntime.Lexical

namespace LiveGraph
open HnswIndex
open WatchedGraph (sealed_graph getElem?_supersede)

section calls

variable (similarity : Similarity) (s : LiveGraph)

/-- The new node before it is linked. -/
def stagedNode (id : ℕ) (vec : Vec) (level : ℕ) : HnswIndex :=
  let g := s.graph
  let idToOrd := s.idToOrd.getD (idIndex g.nodes)
  { g with
    nodes := supersede g.nodes (idToOrd.find? id) ++
      [⟨id,false,similarity.normalize vec,List.replicate (level+1) []⟩]
    deleted := g.deleted.erase id }

def linkedInsert (id : ℕ) (vec : Vec) (level : ℕ) : Option LiveGraph :=
  let ordinal := s.graph.nodes.length
  ((s.stagedNode similarity id vec level).linkFresh similarity ordinal [level]).map fun linked =>
    { s with
      graph := linked
      idToOrd := some ((s.idToOrd.getD (idIndex s.graph.nodes)).insert id ordinal) }

/-- An insertion with its links. -/
def linkedAdd (id : ℕ) (vec : Vec) (level : ℕ) : Option LiveGraph :=
  let s := if s.graph.dim = 0 then { s with graph.dim := vec.length } else s
  if vec.length ≠ s.graph.dim ∨ s.graph.dim = 0 then some s
  else s.unsealed.linkedInsert similarity id vec level

/-- The rows of a batch before they are linked, each with the lists of the level drawn for it. -/
def stagedBatch (rows : List (ℕ × Vec)) (levels : ℕ → ℕ) : HnswIndex :=
  let g := s.graph
  let staged := g.stagedRows rows
  { g with
    dim := g.batchDim rows
    deleted := g.deleted \ (staged.map Prod.fst).toFinset
    nodes := g.nodes ++ staged.mapIdx fun i row =>
      ⟨row.1,false,similarity.normalize row.2,List.replicate (levels i + 1) []⟩ }

/-- A batch with its links, made by one worker. -/
def linkedBuildBatch (rows : List (ℕ × Vec)) (levels : ℕ → ℕ) : Option LiveGraph :=
  if rows = [] then some s
  else
    let s := s.unsealed
    let count := (s.graph.stagedRows rows).length
    if s.graph.batchDim rows = 0 then some s
    else if count = 0 then
      some { s with graph := s.stagedBatch similarity rows levels, idToOrd := none }
    else
      ((s.stagedBatch similarity rows levels).linkFresh similarity s.graph.nodes.length
        ((List.range count).map levels)).map fun linked =>
          LiveGraph.sealed { s with graph := linked, idToOrd := none }

/-- Calls with the levels that the nodes draw. -/
inductive Call
  | add (id : ℕ) (vec : Vec) (level : ℕ)
  | buildBatch (rows : List (ℕ × Vec)) (levels : ℕ → ℕ)
  | remove (id : ℕ)
  | compact (levels : ℕ → ℕ)
  | search

/-- A call that links as the code does; none where a list is written to that is not there. -/
def call : Call → Option LiveGraph
  | .add id vec level => s.linkedAdd similarity id vec level
  | .buildBatch rows levels => s.linkedBuildBatch similarity rows levels
  | .remove id => some (s.remove id)
  | .compact levels =>
    if s.graph.deleted = ∅ ∧ s.graph.nodes.any HnswNode.superseded = false then some s
    else (start s.graph.config).linkedBuildBatch similarity
      (s.survivors.map fun nd => (nd.id,nd.vector)) levels
  | .search => some s.sealed

/-- The call with this wiring in place of the linking. -/
def Call.wired (w : Wiring) : Call → Op
  | .add id vec level => .add id vec level w
  | .buildBatch rows levels => .buildBatch rows ((List.range rows.length).map levels) w
  | .remove id => .remove id
  | .compact _ => .compact w
  | .search => .search

end calls

variable {similarity : Similarity} {s t : LiveGraph}

/-- What linking keeps between calls. -/
structure Linked (s : LiveGraph) : Prop where
  layered : s.graph.Layered
  entry : 0 ≤ s.graph.maxLayer → s.graph.entry < s.graph.nodes.length

lemma Linked.congr (h : s.Linked) (hlinks : ∀ i layer,
    t.graph.neighbours i layer = s.graph.neighbours i layer)
    (hconfig : t.graph.config = s.graph.config) (hmax : t.graph.maxLayer = s.graph.maxLayer)
    (hentry : t.graph.entry = s.graph.entry)
    (hlength : t.graph.nodes.length = s.graph.nodes.length) : t.Linked := by
  refine ⟨⟨?_,?_⟩,?_⟩
  · intro i layer nb hnb
    rw [hlinks] at hnb ⊢
    exact h.layered.back i layer nb hnb
  · intro hm i layer
    rw [hlinks]
    exact h.layered.alone (hconfig ▸ hm) i layer
  · rw [hmax,hentry,hlength]
    exact h.entry

/-- Unpacking drops empty lists only. -/
lemma Linked.unsealed (h : s.Linked) : s.unsealed.Linked := by
  unfold LiveGraph.unsealed
  split_ifs
  · refine h.congr ?_ rfl rfl rfl (List.length_map ..)
    intro i layer
    rw [neighbours_eq,neighbours_eq]
    dsimp only
    rw [List.getElem?_map]
    cases s.graph.nodes[i]? with
    | none => rfl
    | some nd => exact getD_rdropWhile nd.links layer
  · exact h

lemma Linked.sealed (h : s.Linked) : s.sealed.Linked := by
  have hgraph := (sealed_graph s).1
  exact ⟨hgraph.symm ▸ h.layered,hgraph.symm ▸ h.entry⟩

lemma linked_start (config : HnswConfig) : (start config).Linked := by
  have hnone : ∀ i layer, (start config).graph.neighbours i layer = [] := by
    intro i layer
    simp [start,HnswIndex.empty,neighbours]
  refine ⟨⟨?_,fun _ => hnone⟩,?_⟩
  · intro i layer nb hnb
    rw [hnone] at hnb
    cases hnb
  · intro hmax
    exact absurd (show (0 : ℤ) ≤ -1 from hmax) (by decide)

lemma staged_stagedNode (similarity : Similarity) (s : LiveGraph) (id : ℕ) (vec : Vec) (level : ℕ) :
    Staged s.graph (s.stagedNode similarity id vec level)
      [⟨id,false,similarity.normalize vec,List.replicate (level+1) []⟩] := by
  refine ⟨?_,?_,rfl,rfl,rfl⟩
  · unfold stagedNode
    dsimp only
    rw [List.map_append]
    congr 1
    apply List.ext_getElem?
    intro i
    rw [List.getElem?_map,List.getElem?_map,getElem?_supersede,Option.map_map]
    congr 1
    funext nd
    dsimp only [Function.comp_apply]
    split_ifs <;> rfl
  · intro nd hnd layer
    rw [List.mem_singleton.mp hnd,List.getD_eq_getElem?_getD,List.getElem?_replicate]
    split_ifs <;> rfl

lemma staged_stagedBatch (similarity : Similarity) (s : LiveGraph) (rows : List (ℕ × Vec))
    (levels : ℕ → ℕ) :
    Staged s.graph (s.stagedBatch similarity rows levels)
      ((s.graph.stagedRows rows).mapIdx fun i row =>
        ⟨row.1,false,similarity.normalize row.2,List.replicate (levels i + 1) []⟩) := by
  refine ⟨List.map_append,?_,rfl,rfl,rfl⟩
  intro nd hnd layer
  obtain ⟨i,hi,rfl⟩ := List.mem_mapIdx.mp hnd
  rw [List.getD_eq_getElem?_getD,List.getElem?_replicate]
  split_ifs <;> rfl

/-- With the links of a linked graph, an insertion gives that graph. -/
lemma insert_linked (s : LiveGraph) (id : ℕ) (vec : Vec) (level : ℕ) {linked : HnswIndex}
    (h : SameNodes (s.stagedNode similarity id vec level) linked) :
    s.insert similarity id vec linked.wiring = { s with
      graph := linked
      idToOrd := some ((s.idToOrd.getD (idIndex s.graph.nodes)).insert id
        s.graph.nodes.length) } := by
  conv_rhs => rw [← h.same]
  unfold LiveGraph.insert stagedNode relinked
  dsimp only
  congr 2
  apply List.ext_getElem?
  intro i
  rw [List.getElem?_mapIdx,List.getElem?_mapIdx,List.getElem?_append,List.getElem?_append]
  split_ifs
  · rfl
  · cases hi : i - (supersede s.graph.nodes
      ((s.idToOrd.getD (idIndex s.graph.nodes)).find? id)).length <;> simp

/-- With the links of a linked graph, a batch gives that graph. -/
lemma buildBatch_linked (s : LiveGraph) {rows : List (ℕ × Vec)} (levels : ℕ → ℕ)
    (hdim : s.graph.batchDim rows ≠ 0) (hrows : s.graph.stagedRows rows ≠ []) {linked : HnswIndex}
    (h : SameNodes (s.stagedBatch similarity rows levels) linked) :
    s.graph.buildBatch similarity rows linked.wiring = linked := by
  conv_rhs => rw [← h.same]
  unfold HnswIndex.buildBatch LiveGraph.stagedBatch relinked
  rw [if_neg hdim]
  dsimp only
  rw [if_neg hrows]
  congr 1
  apply List.ext_getElem?
  intro i
  rw [List.getElem?_mapIdx,List.getElem?_mapIdx,List.getElem?_append,List.getElem?_append]
  split_ifs
  · rfl
  · rw [List.getElem?_map,List.getElem?_mapIdx]
    cases (s.graph.stagedRows rows)[i - s.graph.nodes.length]? <;> rfl

/-- A batch that has no row of the dimension adds no node. -/
lemma buildBatch_unlinked (s : LiveGraph) {rows : List (ℕ × Vec)} (levels : ℕ → ℕ)
    (hdim : s.graph.batchDim rows ≠ 0) (hrows : s.graph.stagedRows rows = []) (w : Wiring) :
    s.graph.buildBatch similarity rows w = s.stagedBatch similarity rows levels := by
  unfold HnswIndex.buildBatch LiveGraph.stagedBatch
  rw [if_neg hdim]
  dsimp only
  rw [if_pos hrows,hrows,List.mapIdx_nil,List.append_nil]

/-- A new node is inserted with some links, or the entry node lacks a list for it. -/
lemma Linked.insert (h : s.Linked) (similarity : Similarity) (id : ℕ) (vec : Vec) (level : ℕ) :
    (s.linkedInsert similarity id vec level = none ↔ Lacks s.graph level) ∧
      ∀ t ∈ s.linkedInsert similarity id vec level, t.Linked ∧
        ∃ w, t = s.insert similarity id vec w := by
  obtain ⟨hnone,hsome⟩ := (staged_stagedNode similarity s id vec level).linkFresh h.layered h.entry
    similarity (show _ = [level].map (· + 1) by simp) (List.cons_ne_nil _ _)
  refine ⟨Option.map_eq_none_iff.trans (hnone.trans (by simp)),?_⟩
  intro t ht
  obtain ⟨linked,hlinked,rfl⟩ := Option.map_eq_some_iff.mp ht
  obtain ⟨hlayered,hsame,-,hentry⟩ := hsome linked hlinked
  exact ⟨⟨hlayered,fun _ => hentry⟩,linked.wiring,(insert_linked s id vec level hsame).symm⟩

/-- An insertion that is linked is one with some wiring. -/
lemma Linked.add (h : s.Linked) (similarity : Similarity) (id : ℕ) (vec : Vec) (level : ℕ) :
    (s.linkedAdd similarity id vec level = none ↔
      WatchedGraph.accepts s.graph vec = true ∧ Lacks s.unsealed.graph level) ∧
    ∀ t ∈ s.linkedAdd similarity id vec level, t.Linked ∧
      ∃ w, t = s.add similarity id vec w := by
  unfold linkedAdd LiveGraph.add
  by_cases hdim : s.graph.dim = 0
  · have hfirst : LiveGraph.Linked { s with graph.dim := vec.length } :=
      h.congr (fun _ _ => rfl) rfl rfl rfl rfl
    have hlacks : Lacks (LiveGraph.unsealed { s with graph.dim := vec.length }).graph level ↔
        Lacks s.unsealed.graph level := by
      unfold LiveGraph.unsealed
      split_ifs <;> rfl
    rw [if_pos hdim]
    by_cases hvec : vec.length = 0
    · rw [if_pos (.inr hvec)]
      refine ⟨by simp [WatchedGraph.accepts,hvec],?_⟩
      rintro t ⟨⟩
      exact ⟨hfirst,⟨fun _ => [],0,0⟩,(if_pos (.inr hvec)).symm⟩
    · have hgoes : ¬(vec.length ≠ vec.length ∨ vec.length = 0) := by simpa using hvec
      rw [if_neg hgoes]
      obtain ⟨hnone,hsome⟩ := hfirst.unsealed.insert similarity id vec level
      refine ⟨hnone.trans (hlacks.trans (by simp [WatchedGraph.accepts,hvec,hdim])),?_⟩
      intro t ht
      obtain ⟨ht,w,rfl⟩ := hsome t ht
      exact ⟨ht,w,(if_neg hgoes).symm⟩
  · rw [if_neg hdim]
    by_cases hvec : vec.length = s.graph.dim
    · have hgoes : ¬(vec.length ≠ s.graph.dim ∨ s.graph.dim = 0) := by simp [hvec,hdim]
      rw [if_neg hgoes]
      obtain ⟨hnone,hsome⟩ := h.unsealed.insert similarity id vec level
      refine ⟨hnone.trans (by simp [WatchedGraph.accepts,hvec,hdim]),?_⟩
      intro t ht
      obtain ⟨ht,w,rfl⟩ := hsome t ht
      exact ⟨ht,w,(if_neg hgoes).symm⟩
    · rw [if_pos (.inl hvec)]
      refine ⟨by simp [WatchedGraph.accepts,hvec,hdim],?_⟩
      rintro t ⟨⟩
      exact ⟨h,⟨fun _ => [],0,0⟩,(if_pos (.inl hvec)).symm⟩

/-- The levels of the nodes of a batch, of those drawn for its rows. -/
lemma linkedLevels_eq (g : HnswIndex) (rows : List (ℕ × Vec)) (levels : ℕ → ℕ)
    (hdim : g.batchDim rows ≠ 0) :
    WatchedGraph.linkedLevels g rows ((List.range rows.length).map levels) =
      (List.range (g.stagedRows rows).length).map levels := by
  have hle : (g.stagedRows rows).length ≤ rows.length := List.length_filter_le _ _
  rw [WatchedGraph.linkedLevels,if_neg hdim,← List.map_take,List.take_range,min_eq_left hle]

/-- A batch that is linked is one with some wiring. -/
lemma Linked.buildBatch (h : s.Linked) (similarity : Similarity) (rows : List (ℕ × Vec))
    (levels : ℕ → ℕ) :
    (s.linkedBuildBatch similarity rows levels = none ↔
      ∃ level ∈ WatchedGraph.linkedLevels s.graph rows ((List.range rows.length).map levels),
        Lacks s.unsealed.graph level) ∧
    ∀ t ∈ s.linkedBuildBatch similarity rows levels, t.Linked ∧
      ∃ w, t = s.buildBatch similarity rows w := by
  unfold linkedBuildBatch LiveGraph.buildBatch
  by_cases hrows : rows = []
  · rw [if_pos hrows]
    refine ⟨by simp [hrows,WatchedGraph.linkedLevels,HnswIndex.stagedRows],?_⟩
    rintro t ⟨⟩
    exact ⟨h,⟨fun _ => [],0,0⟩,(if_pos hrows).symm⟩
  rw [if_neg hrows]
  dsimp only
  by_cases hdim : s.graph.batchDim rows = 0
  · rw [if_pos ((WatchedGraph.unsealed_batchDim s rows).trans hdim)]
    refine ⟨by simp [hdim,WatchedGraph.linkedLevels],?_⟩
    rintro t ⟨⟩
    refine ⟨h.unsealed,⟨fun _ => [],0,0⟩,?_⟩
    rw [if_neg hrows,if_pos ((WatchedGraph.unsealed_batchDim s rows).trans hdim)]
  have hdim' : s.unsealed.graph.batchDim rows ≠ 0 := by rwa [WatchedGraph.unsealed_batchDim]
  have hdrawn : WatchedGraph.linkedLevels s.graph rows ((List.range rows.length).map levels) =
      (List.range (s.unsealed.graph.stagedRows rows).length).map levels := by
    rw [WatchedGraph.unsealed_stagedRows]
    exact linkedLevels_eq s.graph rows levels hdim
  rw [if_neg hdim',hdrawn]
  by_cases hnone : s.unsealed.graph.stagedRows rows = []
  · have hstaged := staged_stagedBatch similarity s.unsealed rows levels
    rw [if_pos (by rw [hnone]; rfl)]
    refine ⟨by simp [hnone],?_⟩
    rintro t ⟨⟩
    refine ⟨?_,⟨fun _ => [],0,0⟩,?_⟩
    · refine h.unsealed.congr hstaged.neighbours rfl rfl rfl ?_
      rw [hstaged.length,hnone]
      rfl
    · rw [if_neg hrows,if_neg hdim',if_pos hnone,
        buildBatch_unlinked s.unsealed levels hdim' hnone]
  · have hlevels : ((s.unsealed.graph.stagedRows rows).mapIdx fun i row =>
        (⟨row.1,false,similarity.normalize row.2,List.replicate (levels i + 1) []⟩ :
          HnswNode)).map (fun nd => nd.links.length) =
        ((List.range (s.unsealed.graph.stagedRows rows).length).map levels).map (· + 1) := by
      apply List.ext_getElem
      · simp
      · intro i hi hi'
        simp
    obtain ⟨hfails,hsome⟩ := (staged_stagedBatch similarity s.unsealed rows levels).linkFresh
      h.unsealed.layered h.unsealed.entry similarity hlevels (by simpa using hnone)
    rw [if_neg (by rwa [List.length_eq_zero_iff])]
    refine ⟨Option.map_eq_none_iff.trans hfails,?_⟩
    intro t ht
    obtain ⟨linked,hlinked,rfl⟩ := Option.map_eq_some_iff.mp ht
    obtain ⟨hlayered,hsame,-,hentry⟩ := hsome linked hlinked
    refine ⟨Linked.sealed ⟨hlayered,fun _ => hentry⟩,linked.wiring,?_⟩
    rw [if_neg hrows,if_neg hdim',if_neg hnone,
      buildBatch_linked s.unsealed levels hdim' hnone hsame]

/-- No list is missing where there is no node. -/
lemma not_lacks_start (config : HnswConfig) (level : ℕ) :
    ¬Lacks (start config).unsealed.graph level :=
  fun h => absurd (show (0 : ℤ) ≤ -1 from h.1) (by decide)

/-- A call that links is the call with some wiring, the failing ones included. -/
theorem Linked.call (h : s.Linked) (similarity : Similarity) (c : Call) :
    (∃ w, ∀ latest, (WatchedGraph.step similarity ⟨s,latest⟩ (c.wired w)).map WatchedGraph.live =
      s.call similarity c) ∧ ∀ t ∈ s.call similarity c, t.Linked := by
  cases c with
  | add id vec level =>
    obtain ⟨hnone,hsome⟩ := h.add similarity id vec level
    refine ⟨?_,fun t ht => (hsome t ht).1⟩
    cases hcall : s.linkedAdd similarity id vec level with
    | none =>
      refine ⟨⟨fun _ => [],0,0⟩,fun latest => ?_⟩
      rw [LiveGraph.call,hcall,Call.wired,WatchedGraph.step,if_pos (hnone.mp hcall)]
      rfl
    | some t =>
      obtain ⟨-,w,rfl⟩ := hsome t hcall
      refine ⟨w,fun latest => ?_⟩
      rw [LiveGraph.call,hcall,Call.wired,WatchedGraph.step,if_neg fun hbad => by
        rw [hnone.mpr hbad] at hcall
        cases hcall]
      rfl
  | buildBatch rows levels =>
    obtain ⟨hnone,hsome⟩ := h.buildBatch similarity rows levels
    refine ⟨?_,fun t ht => (hsome t ht).1⟩
    cases hcall : s.linkedBuildBatch similarity rows levels with
    | none =>
      refine ⟨⟨fun _ => [],0,0⟩,fun latest => ?_⟩
      rw [LiveGraph.call,hcall,Call.wired,WatchedGraph.step,if_pos (hnone.mp hcall)]
      rfl
    | some t =>
      obtain ⟨-,w,rfl⟩ := hsome t hcall
      refine ⟨w,fun latest => ?_⟩
      rw [LiveGraph.call,hcall,Call.wired,WatchedGraph.step,if_neg fun hbad => by
        rw [hnone.mpr hbad] at hcall
        cases hcall]
      rfl
  | remove id =>
    refine ⟨⟨⟨fun _ => [],0,0⟩,fun _ => rfl⟩,?_⟩
    rintro t ⟨⟩
    exact h.congr (fun _ _ => rfl) rfl rfl rfl rfl
  | compact levels =>
    obtain ⟨hnone,hsome⟩ := (linked_start s.graph.config).buildBatch similarity
      (s.survivors.map fun nd => (nd.id,nd.vector)) levels
    rw [LiveGraph.call]
    by_cases hclean : s.graph.deleted = ∅ ∧ s.graph.nodes.any HnswNode.superseded = false
    · rw [if_pos hclean]
      refine ⟨⟨⟨fun _ => [],0,0⟩,fun latest => congrArg some (if_pos hclean)⟩,?_⟩
      rintro t ⟨⟩
      exact h
    · rw [if_neg hclean]
      refine ⟨?_,fun t ht => (hsome t ht).1⟩
      cases hcall : (start s.graph.config).linkedBuildBatch similarity
          (s.survivors.map fun nd => (nd.id,nd.vector)) levels with
      | none =>
        obtain ⟨level,-,hbad⟩ := hnone.mp hcall
        exact absurd hbad (not_lacks_start s.graph.config level)
      | some t =>
        obtain ⟨-,w,rfl⟩ := hsome t hcall
        exact ⟨w,fun latest => congrArg some (if_neg hclean)⟩
  | search =>
    refine ⟨⟨⟨fun _ => [],0,0⟩,fun _ => rfl⟩,?_⟩
    rintro t ⟨⟩
    exact h.sealed

/-- A run of calls that link is a run of calls with some wirings: it goes through or fails with
it, and leaves the same graph. -/
theorem run_wired (similarity : Similarity) (config : HnswConfig) (calls : List Call) :
    ∃ ops, List.Forall₂ (fun c op => ∃ w, op = Call.wired w c) calls ops ∧
      (Machine.run (WatchedGraph.step similarity) (WatchedGraph.start config) ops).map
        WatchedGraph.live = Machine.run (LiveGraph.call similarity) (start config) calls := by
  suffices hall : ∀ (s : LiveGraph) (latest : OrdMap ℕ Vec), s.Linked →
      ∃ ops, List.Forall₂ (fun c op => ∃ w, op = Call.wired w c) calls ops ∧
        (Machine.run (WatchedGraph.step similarity) ⟨s,latest⟩ ops).map WatchedGraph.live =
          Machine.run (LiveGraph.call similarity) s calls from
    hall (start config) ∅ (linked_start config)
  induction calls with
  | nil => exact fun s latest _ => ⟨[],.nil,rfl⟩
  | cons c calls ih =>
    intro s latest h
    obtain ⟨⟨w,hw⟩,hnext⟩ := h.call similarity c
    cases hstep : WatchedGraph.step similarity ⟨s,latest⟩ (c.wired w) with
    | none =>
      refine ⟨c.wired w::calls.map (Call.wired w),.cons ⟨w,rfl⟩ ?_,?_⟩
      · exact List.forall₂_map_right_iff.mpr (List.forall₂_same.mpr fun c _ => ⟨w,rfl⟩)
      · rw [Machine.run,Machine.run,hstep,← hw latest,hstep]
        rfl
    | some t =>
      have hcall : s.call similarity c = some t.live := by rw [← hw latest,hstep]; rfl
      obtain ⟨ops,hops,hrun⟩ := ih t.live t.latest (hnext t.live hcall)
      refine ⟨c.wired w::ops,.cons ⟨w,rfl⟩ hops,?_⟩
      rw [Machine.run,Machine.run,hstep,hcall]
      exact hrun

end LiveGraph
end RagRuntime.Index
