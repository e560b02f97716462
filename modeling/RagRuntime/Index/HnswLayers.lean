import RagRuntime.Base.Fallible
import RagRuntime.Index.HnswLinking
import RagRuntime.Index.HnswReach
import RagRuntime.Index.HnswSeal

/-! Linking that looks up every list it writes to. Where whoever is a neighbour on a layer has
neighbours there, a node is linked unless the entry node has no list on the layer that it is linked
on first. -/
namespace RagRuntime.Index
open RagRuntime.Base RagRuntime.Core RagRuntime.Backend RagRuntime.Lexical

namespace HnswIndex
open LiveGraph

section checked

variable (g : HnswIndex)

/-- None if the neighbour has no list on the layer. -/
def checkedBackLink (node layer nb : ℕ) : Option HnswIndex :=
  if layer < g.layers nb then some (g.backLink node layer nb) else none

def checkedConnect (node layer : ℕ) (neighbours : List ℕ) : Option HnswIndex :=
  if layer < g.layers node then
    let keep := selectNeighboursHeuristic (g.scoreAndSort node neighbours) (g.config.maxM layer)
      g.simNodes
    keep.foldlM (fun g nb => g.checkedBackLink node layer nb) (g.setLinks node layer keep)
  else none

def checkedLinkNode (similarity : Similarity) (ordinal level : ℕ) : Option HnswIndex :=
  let sim := fun node => similarity.walk g.config (g.vectorOf node) (g.vectorOf ordinal)
  let top := g.maxLayer.toNat
  let current := (List.range' (level+1) (top-level)).foldr (fun layer current =>
    (g.searchLayer sim current layer 1).headD current) g.entry
  let linked := (List.range (min level top + 1)).foldrM (fun layer (state : HnswIndex × ℕ) =>
    let hop := state.1.searchLayer sim state.2 layer g.config.efConstruction
    (state.1.checkedConnect ordinal layer hop).map fun next => (next,hop.headD state.2))
    (g,current)
  linked.map fun linked =>
    if level > top then { linked.1 with entry := ordinal, maxLayer := level } else linked.1

/-- Who is a neighbour on a layer has neighbours there, and nobody is where none are allowed. -/
structure Layered : Prop where
  back : ∀ i layer, ∀ nb ∈ g.neighbours i layer, g.neighbours nb layer ≠ []
  alone : g.config.m = 0 → ∀ i layer, g.neighbours i layer = []

/-- The graph with other links. -/
def relinked (w : Wiring) : HnswIndex :=
  { g with
    nodes := g.nodes.mapIdx fun i nd => { nd with links := w.links i }
    entry := w.entry
    maxLayer := w.maxLayer }

def wiring : Wiring := ⟨fun i => (g.nodes[i]?).elim [] HnswNode.links,g.entry,g.maxLayer⟩

end checked

variable {g g' : HnswIndex}

lemma relinked_relinked (g : HnswIndex) (w w' : Wiring) :
    (g.relinked w).relinked w' = g.relinked w' := by
  unfold relinked
  dsimp only
  rw [List.mapIdx_mapIdx]
  rfl

lemma relinked_wiring (g : HnswIndex) : g.relinked g.wiring = g := by
  unfold relinked wiring
  dsimp only
  congr 1
  apply List.ext_getElem?
  intro i
  rw [List.getElem?_mapIdx]
  cases hnode : g.nodes[i]? <;> rfl

/-- Two graphs that differ in links only, with the same numbers of lists. -/
structure SameNodes (g g' : HnswIndex) : Prop where
  same : g.relinked g'.wiring = g'
  layers : ∀ i, g'.layers i = g.layers i

/-- Two graphs that differ in the neighbours on their lists only. -/
structure SameLists (g g' : HnswIndex) : Prop extends SameNodes g g' where
  entry : g'.entry = g.entry
  maxLayer : g'.maxLayer = g.maxLayer

lemma SameNodes.config (h : SameNodes g g') : g'.config = g.config := by
  rw [← h.same]
  rfl

lemma SameNodes.length (h : SameNodes g g') : g'.nodes.length = g.nodes.length := by
  rw [← h.same]
  exact List.length_mapIdx

lemma SameNodes.refl (g : HnswIndex) : SameNodes g g := ⟨relinked_wiring g,fun _ => rfl⟩

lemma SameNodes.trans {g'' : HnswIndex} (h : SameNodes g g') (h' : SameNodes g' g'') :
    SameNodes g g'' := by
  refine ⟨?_,fun i => (h'.layers i).trans (h.layers i)⟩
  calc g.relinked g''.wiring = (g.relinked g'.wiring).relinked g''.wiring :=
        (relinked_relinked ..).symm
    _ = g'.relinked g''.wiring := by rw [h.same]
    _ = g'' := h'.same

/-- The search may start elsewhere. -/
lemma SameNodes.entered (h : SameNodes g g') (entry : ℕ) (maxLayer : ℤ) :
    SameNodes g { g' with entry := entry, maxLayer := maxLayer } := by
  refine ⟨?_,h.layers⟩
  calc g.relinked (HnswIndex.wiring { g' with entry := entry, maxLayer := maxLayer })
      = { g.relinked g'.wiring with entry := entry, maxLayer := maxLayer } := rfl
    _ = { g' with entry := entry, maxLayer := maxLayer } := by rw [h.same]

lemma SameLists.refl (g : HnswIndex) : SameLists g g := ⟨SameNodes.refl g,rfl,rfl⟩

lemma SameLists.trans {g'' : HnswIndex} (h : SameLists g g') (h' : SameLists g' g'') :
    SameLists g g'' :=
  ⟨h.toSameNodes.trans h'.toSameNodes,h'.entry.trans h.entry,h'.maxLayer.trans h.maxLayer⟩

lemma sameLists_setLinks (g : HnswIndex) (node layer : ℕ) (links : List ℕ) :
    SameLists g (g.setLinks node layer links) := by
  refine ⟨⟨?_,?_⟩,rfl,rfl⟩
  · unfold relinked wiring setLinks
    dsimp only
    congr 1
    apply List.ext_getElem?
    intro i
    rw [List.getElem?_mapIdx,List.getElem?_modify]
    cases hnode : g.nodes[i]? with
    | none => rfl
    | some nd => by_cases hi : node = i <;> simp [hi]
  · intro i
    unfold layers setLinks
    dsimp only
    rw [List.getElem?_modify]
    cases g.nodes[i]? with
    | none => rfl
    | some nd => by_cases hi : node = i <;> simp [hi]

lemma sameLists_backLink (g : HnswIndex) (node layer nb : ℕ) :
    SameLists g (g.backLink node layer nb) := sameLists_setLinks g nb layer _

lemma sameLists_connectLocked (g : HnswIndex) (node layer : ℕ) (neighbours : List ℕ) :
    SameLists g (g.connectLocked node layer neighbours) := by
  unfold connectLocked
  apply List.foldlRecOn (motive := SameLists g)
  · exact sameLists_setLinks g node layer _
  · exact fun next h nb _ => h.trans (sameLists_backLink next node layer nb)

section selection

variable {scored : List Scored} {m : ℕ} {between : ℕ → ℕ → ℚ}

lemma foldl_unless_subset {α : Type} (m : ℕ) (skip : List ℕ → α → Prop)
    [∀ picked c, Decidable (skip picked c)] (item : α → ℕ) (l : List α) (picked : List ℕ) :
    ∀ i ∈ l.foldl (fun picked c =>
      if picked.length ≥ m ∨ skip picked c then picked else picked ++ [item c]) picked,
        i ∈ picked ∨ ∃ c ∈ l, i = item c := by
  induction l generalizing picked with
  | nil => exact fun i hi => .inl hi
  | cons c l ih =>
    intro i hi
    rw [List.foldl_cons] at hi
    rcases ih _ i hi with hold | ⟨d,hd,rfl⟩
    · split_ifs at hold
      · exact .inl hold
      · rcases List.mem_append.mp hold with hold | hnew
        · exact .inl hold
        · exact .inr ⟨c,List.mem_cons_self,List.mem_singleton.mp hnew⟩
    · exact .inr ⟨d,List.mem_cons_of_mem _ hd,rfl⟩

lemma foldl_unless_ne_nil {α : Type} (m : ℕ) (skip : List ℕ → α → Prop)
    [∀ picked c, Decidable (skip picked c)] (item : α → ℕ) (l : List α) {picked : List ℕ}
    (h : picked ≠ []) : l.foldl (fun picked c =>
      if picked.length ≥ m ∨ skip picked c then picked else picked ++ [item c]) picked ≠ [] := by
  induction l generalizing picked with
  | nil => exact h
  | cons c l ih =>
    rw [List.foldl_cons]
    apply ih
    split_ifs
    · exact h
    · simp

/-- What is selected is among the candidates. -/
lemma mem_selectNeighboursHeuristic {i : ℕ}
    (h : i ∈ selectNeighboursHeuristic scored m between) : ∃ c ∈ scored, i = c.2 := by
  rcases foldl_unless_subset m (fun picked (c : Scored) => c.2 ∈ picked) Prod.snd scored _ i h with
    hpicked | hfilled
  · have hfirst := foldl_unless_subset m
      (fun picked (c : Scored) => (picked.any fun p => decide (between c.2 p > c.1)) = true)
      Prod.snd scored [] i hpicked
    exact hfirst.resolve_left List.not_mem_nil
  · exact hfilled

/-- One candidate is always taken. -/
lemma selectNeighboursHeuristic_ne_nil (hm : m ≠ 0) (h : scored ≠ []) :
    selectNeighboursHeuristic scored m between ≠ [] := by
  obtain ⟨c,rest,rfl⟩ := List.exists_cons_of_ne_nil h
  unfold selectNeighboursHeuristic
  dsimp only
  generalize (c::rest).foldl _ [] = picked
  rw [List.foldl_cons]
  apply foldl_unless_ne_nil m (fun picked (c : Scored) => c.2 ∈ picked) Prod.snd rest
  split_ifs with hskip
  · rintro rfl
    simp [hm] at hskip
  · simp

end selection

lemma mem_scoreAndSort {node : ℕ} {cands : List ℕ} {c : Scored}
    (h : c ∈ g.scoreAndSort node cands) : c.2 ∈ cands := by
  obtain ⟨i,hi,rfl⟩ := List.mem_map.mp ((List.mem_insertionSort _).mp h)
  exact hi

lemma scoreAndSort_ne_nil {node : ℕ} {cands : List ℕ} (h : cands ≠ []) :
    g.scoreAndSort node cands ≠ [] := by
  rw [Ne,← List.length_eq_zero_iff]
  unfold scoreAndSort
  rw [List.length_insertionSort,List.length_map,List.length_eq_zero_iff]
  exact h

lemma maxM_ne_zero {config : HnswConfig} (h : config.m ≠ 0) (layer : ℕ) :
    config.maxM layer ≠ 0 := by
  unfold HnswConfig.maxM
  split_ifs <;> omega

lemma maxM_eq_zero {config : HnswConfig} (h : config.m = 0) (layer : ℕ) :
    config.maxM layer = 0 := by
  unfold HnswConfig.maxM
  split_ifs <;> omega

/-- A link back leaves the neighbour with neighbours, its old ones and the new one. -/
lemma backLink_eq (g : HnswIndex) (node layer nb : ℕ) :
    ∃ links, g.backLink node layer nb = g.setLinks nb layer links ∧
      (g.config.m ≠ 0 → links ≠ []) ∧ ∀ i ∈ links, i ∈ g.neighbours nb layer ∨ i = node := by
  refine ⟨_,rfl,?_,?_⟩
  · intro hm
    have hheld : (if node ∈ g.neighbours nb layer then g.neighbours nb layer
        else g.neighbours nb layer ++ [node]) ≠ [] := by
      split_ifs with hin
      · exact List.ne_nil_of_mem hin
      · simp
    generalize (if node ∈ g.neighbours nb layer then g.neighbours nb layer
        else g.neighbours nb layer ++ [node]) = held at hheld ⊢
    split_ifs
    · exact selectNeighboursHeuristic_ne_nil (maxM_ne_zero hm layer) (scoreAndSort_ne_nil hheld)
    · exact hheld
  · intro i hi
    have hheld : ∀ j ∈ (if node ∈ g.neighbours nb layer then g.neighbours nb layer
        else g.neighbours nb layer ++ [node]), j ∈ g.neighbours nb layer ∨ j = node := by
      intro j hj
      split_ifs at hj
      · exact .inl hj
      · rcases List.mem_append.mp hj with hj | hj
        · exact .inl hj
        · exact .inr (List.mem_singleton.mp hj)
    generalize (if node ∈ g.neighbours nb layer then g.neighbours nb layer
        else g.neighbours nb layer ++ [node]) = held at hheld hi
    apply hheld
    split_ifs at hi
    · obtain ⟨c,hc,rfl⟩ := mem_selectNeighboursHeuristic hi
      exact mem_scoreAndSort hc
    · exact hi

/-- Links back to `node` on a layer: no list gets empty, and only `node` is added. -/
structure LinkedBack (node layer : ℕ) (g g' : HnswIndex) : Prop where
  filled : ∀ i l, g.neighbours i l ≠ [] → g'.neighbours i l ≠ []
  added : ∀ i l, ∀ nb ∈ g'.neighbours i l, nb ∈ g.neighbours i l ∨ nb = node ∧ l = layer

lemma linkedBack_backLink (hm : g.config.m ≠ 0) (node layer nb : ℕ) :
    LinkedBack node layer g (g.backLink node layer nb) := by
  obtain ⟨links,heq,hne,hmem⟩ := backLink_eq g node layer nb
  rw [heq]
  constructor
  · intro i l h
    rw [neighbours_setLinks]
    split_ifs
    · exact hne hm
    · exact h
  · intro i l j hj
    rw [neighbours_setLinks] at hj
    split_ifs at hj with hset
    · obtain ⟨rfl,rfl,-⟩ := hset
      exact (hmem j hj).imp_right fun h => ⟨h,rfl⟩
    · exact .inl hj

lemma filled_backLink (hm : g.config.m ≠ 0) (node : ℕ) {layer nb : ℕ} (hnb : layer < g.layers nb) :
    (g.backLink node layer nb).neighbours nb layer ≠ [] := by
  obtain ⟨links,heq,hne,-⟩ := backLink_eq g node layer nb
  rw [heq,neighbours_setLinks,if_pos ⟨rfl,rfl,hnb⟩]
  exact hne hm

/-- All neighbours get their links back. -/
lemma linkedBack_foldl (hm : g.config.m ≠ 0) (node layer : ℕ) (keep : List ℕ)
    (hkeep : ∀ nb ∈ keep, layer < g.layers nb) :
    LinkedBack node layer g (keep.foldl (fun g nb => g.backLink node layer nb) g) ∧
      ∀ nb ∈ keep,
        (keep.foldl (fun g nb => g.backLink node layer nb) g).neighbours nb layer ≠ [] := by
  induction keep generalizing g with
  | nil => exact ⟨⟨fun _ _ h => h,fun _ _ _ h => .inl h⟩,fun nb hnb => absurd hnb (by simp)⟩
  | cons nb keep ih =>
    obtain ⟨hnb,hrest⟩ := List.forall_mem_cons.mp hkeep
    have hsame := sameLists_backLink g node layer nb
    have hone := linkedBack_backLink hm node layer nb
    obtain ⟨hall,hfilled⟩ := ih (by rwa [hsame.config])
      (fun i hi => (hrest i hi).trans_eq (hsame.layers i).symm)
    refine ⟨⟨fun i l h => hall.filled i l (hone.filled i l h),?_⟩,?_⟩
    · intro i l j hj
      rcases hall.added i l j hj with hj | hj
      · exact hone.added i l j hj
      · exact .inr hj
    · intro i hi
      rcases List.mem_cons.mp hi with rfl | hi
      · exact hall.filled _ layer (filled_backLink hm node hnb)
      · exact hfilled i hi

/-- The neighbours that a node keeps are among those offered. -/
lemma mem_kept {node layer : ℕ} {offered : List ℕ} {i : ℕ}
    (h : i ∈ selectNeighboursHeuristic (g.scoreAndSort node offered) (g.config.maxM layer)
      g.simNodes) : g.config.m ≠ 0 ∧ i ∈ offered := by
  constructor
  · intro hm
    have hlength := length_selectNeighboursHeuristic_le (g.scoreAndSort node offered)
      (g.config.maxM layer) g.simNodes
    rw [maxM_eq_zero hm layer,Nat.le_zero,List.length_eq_zero_iff] at hlength
    rw [maxM_eq_zero hm layer,hlength] at h
    cases h
  · obtain ⟨c,hc,rfl⟩ := mem_selectNeighboursHeuristic h
    exact mem_scoreAndSort hc

/-- A node that is connected on a layer gets neighbours there, and so do they. -/
lemma Layered.connectLocked (h : g.Layered) {node layer : ℕ} {offered : List ℕ}
    (hnode : layer < g.layers node) (hoffered : offered ≠ [])
    (hlists : g.config.m ≠ 0 → ∀ nb ∈ offered, layer < g.layers nb) :
    (g.connectLocked node layer offered).Layered := by
  unfold HnswIndex.connectLocked
  dsimp only
  have hmem : ∀ i ∈ selectNeighboursHeuristic (g.scoreAndSort node offered) (g.config.maxM layer)
      g.simNodes, g.config.m ≠ 0 ∧ i ∈ offered := fun i hi => mem_kept hi
  have hsome : g.config.m ≠ 0 → selectNeighboursHeuristic (g.scoreAndSort node offered)
      (g.config.maxM layer) g.simNodes ≠ [] := fun hm =>
    selectNeighboursHeuristic_ne_nil (maxM_ne_zero hm layer) (scoreAndSort_ne_nil hoffered)
  generalize selectNeighboursHeuristic (g.scoreAndSort node offered) (g.config.maxM layer)
    g.simNodes = keep at hmem hsome
  have hset := sameLists_setLinks g node layer keep
  by_cases hm : g.config.m = 0
  · have hnil : keep = [] := List.eq_nil_iff_forall_not_mem.mpr fun i hi => (hmem i hi).1 hm
    have hnone : ∀ i l, (g.setLinks node layer keep).neighbours i l = [] := by
      intro i l
      rw [neighbours_setLinks,hnil,h.alone hm]
      split_ifs <;> rfl
    rw [hnil,List.foldl_nil,← hnil]
    refine ⟨?_,fun _ => hnone⟩
    intro i l nb hnb
    rw [hnone] at hnb
    cases hnb
  · obtain ⟨hback,hfilled⟩ := linkedBack_foldl (g := g.setLinks node layer keep)
      (by rwa [hset.config]) node layer keep
      (fun nb hnb => (hlists hm nb (hmem nb hnb).2).trans_eq (hset.layers nb).symm)
    have hconfig : (keep.foldl (fun g nb => g.backLink node layer nb)
        (g.setLinks node layer keep)).config.m ≠ 0 := by
      have hall : SameLists g (keep.foldl (fun g nb => g.backLink node layer nb)
          (g.setLinks node layer keep)) := by
        apply List.foldlRecOn (motive := SameLists g)
        · exact hset
        · exact fun next h nb _ => h.trans (sameLists_backLink next node layer nb)
      rwa [hall.config]
    refine ⟨?_,fun hzero => absurd hzero hconfig⟩
    intro i l nb hnb
    rcases hback.added i l nb hnb with hnb | ⟨rfl,rfl⟩
    · rw [neighbours_setLinks] at hnb
      split_ifs at hnb with hown
      · rw [hown.2.1]
        exact hfilled nb hnb
      · apply hback.filled
        rw [neighbours_setLinks]
        split_ifs
        · exact hsome hm
        · exact h.back i l nb hnb
    · apply hback.filled
      rw [neighbours_setLinks,if_pos ⟨rfl,rfl,hnode⟩]
      exact hsome hm

/-- What is kept has its lists: each of them is found. -/
lemma checkedConnect_eq_some {node layer : ℕ} {offered : List ℕ} (hnode : layer < g.layers node)
    (hlists : g.config.m ≠ 0 → ∀ nb ∈ offered, layer < g.layers nb) :
    g.checkedConnect node layer offered = some (g.connectLocked node layer offered) := by
  unfold checkedConnect HnswIndex.connectLocked
  rw [if_pos hnode]
  dsimp only
  have hmem : ∀ i ∈ selectNeighboursHeuristic (g.scoreAndSort node offered) (g.config.maxM layer)
      g.simNodes, layer < g.layers i := fun i hi => hlists (mem_kept hi).1 i (mem_kept hi).2
  refine (foldlM_eq_some (fun next => SameLists g next) ?_ (sameLists_setLinks g node layer _)).1
  intro next hnext nb hnb
  refine ⟨if_pos ?_,hnext.trans (sameLists_backLink next node layer nb)⟩
  rw [hnext.layers]
  exact hmem nb hnb

/-- The one node that is offered has no list. -/
lemma checkedConnect_eq_none {node layer nb : ℕ} (hm : g.config.m ≠ 0)
    (hnb : g.layers nb ≤ layer) : g.checkedConnect node layer [nb] = none := by
  unfold checkedConnect
  split_ifs
  · dsimp only
    have hmem : ∀ i ∈ selectNeighboursHeuristic (g.scoreAndSort node [nb]) (g.config.maxM layer)
        g.simNodes, i = nb := fun i hi => List.mem_singleton.mp (mem_kept hi).2
    have hsome : selectNeighboursHeuristic (g.scoreAndSort node [nb]) (g.config.maxM layer)
        g.simNodes ≠ [] := selectNeighboursHeuristic_ne_nil (maxM_ne_zero hm layer)
      (scoreAndSort_ne_nil (List.cons_ne_nil nb []))
    obtain ⟨i,rest,hkeep⟩ := List.exists_cons_of_ne_nil hsome
    rw [hkeep] at hmem ⊢
    obtain rfl := hmem i List.mem_cons_self
    rw [List.foldlM_cons,checkedBackLink,if_neg]
    · rfl
    · rw [(sameLists_setLinks g node layer _).layers]
      exact not_lt.mpr hnb
  · rfl

/-- A search on a layer finds the node that it enters at and nodes with neighbours there. -/
lemma Layered.of_mem_searchLayer (h : g.Layered) {sim : ℕ → ℚ} {current layer ef i : ℕ}
    (hi : i ∈ g.searchLayer sim current layer ef) : i = current ∨ layer < g.layers i := by
  rcases Relation.ReflTransGen.cases_tail (reach_of_mem_searchLayer sim layer ef current i hi) with
    rfl | ⟨j,-,hedge⟩
  · exact .inl rfl
  · exact .inr (lt_layers (h.back j layer i hedge.1))

lemma searchLayer_isolated {sim : ℕ → ℚ} {current layer ef : ℕ}
    (h : g.neighbours current layer = []) : g.searchLayer sim current layer ef = [current] := by
  have hall : ∀ i ∈ g.searchLayer sim current layer ef, i = current := by
    intro i hi
    have hreach := reach_of_mem_searchLayer sim layer ef current i hi
    rcases Relation.ReflTransGen.cases_head hreach with rfl | ⟨j,hedge,-⟩
    · rfl
    · have hj := hedge.1
      rw [h] at hj
      cases hj
  have hnodup := searchLayer_nodup g sim current layer ef
  obtain ⟨i,rest,hfound⟩ := List.exists_cons_of_ne_nil
    (searchLayer_ne_nil (g := g) sim current layer ef)
  rw [hfound] at hall hnodup ⊢
  obtain rfl := hall i List.mem_cons_self
  cases rest with
  | nil => rfl
  | cons j rest =>
    obtain rfl := hall j (by simp)
    simp at hnodup

lemma headD_mem {l : List ℕ} (h : l ≠ []) (d : ℕ) : l.headD d ∈ l := by
  obtain ⟨i,rest,rfl⟩ := List.exists_cons_of_ne_nil h
  exact List.mem_cons_self

/-- On the way down nothing is entered that has no list on the layer below. -/
lemma Layered.lt_layers_descent (h : g.Layered) {sim : ℕ → ℚ} {entry bound : ℕ}
    (hentry : bound < g.layers entry) {steps : List ℕ} (hsteps : ∀ layer ∈ steps, bound < layer) :
    bound < g.layers (steps.foldr (fun layer current =>
      (g.searchLayer sim current layer 1).headD current) entry) := by
  induction steps with
  | nil => exact hentry
  | cons layer steps ih =>
    obtain ⟨hlayer,hrest⟩ := List.forall_mem_cons.mp hsteps
    rw [List.foldr_cons]
    rcases h.of_mem_searchLayer (headD_mem (searchLayer_ne_nil sim _ layer 1) _) with heq | hlt
    · rw [heq]
      exact ih hrest
    · exact hlayer.trans hlt

/-- Where the entry node has no neighbours, the search goes down with it. -/
lemma descent_isolated {sim : ℕ → ℚ} {entry : ℕ} {steps : List ℕ}
    (hsteps : ∀ layer ∈ steps, g.neighbours entry layer = []) :
    steps.foldr (fun layer current => (g.searchLayer sim current layer 1).headD current) entry =
      entry := by
  induction steps with
  | nil => rfl
  | cons layer steps ih =>
    obtain ⟨hlayer,hrest⟩ := List.forall_mem_cons.mp hsteps
    rw [List.foldr_cons,ih hrest,searchLayer_isolated hlayer]
    rfl

/-- Between two layers, `n` of which are left: the node to be linked has lists on them, and so has
the one that the search goes on from. -/
structure Linkable (ordinal n : ℕ) (state : HnswIndex × ℕ) : Prop where
  layered : state.1.Layered
  node : n ≤ state.1.layers ordinal
  entered : state.1.config.m ≠ 0 → n ≤ state.1.layers state.2

/-- On all layers that are left the lists are there. -/
lemma Linkable.link {ordinal n : ℕ} {state : HnswIndex × ℕ} (h : Linkable ordinal n state)
    (sim : ℕ → ℚ) (ef : ℕ) :
    let linked := (List.range n).foldr (fun layer (state : HnswIndex × ℕ) =>
      (state.1.connectLocked ordinal layer (state.1.searchLayer sim state.2 layer ef),
        (state.1.searchLayer sim state.2 layer ef).headD state.2)) state
    (List.range n).foldrM (fun layer (state : HnswIndex × ℕ) =>
      (state.1.checkedConnect ordinal layer (state.1.searchLayer sim state.2 layer ef)).map
        fun next => (next,(state.1.searchLayer sim state.2 layer ef).headD state.2)) state =
          some linked ∧ linked.1.Layered ∧ SameLists state.1 linked.1 := by
  induction n generalizing state with
  | zero => exact ⟨rfl,h.layered,SameLists.refl state.1⟩
  | succ n ih =>
    have hlists : state.1.config.m ≠ 0 → ∀ nb ∈ state.1.searchLayer sim state.2 n ef,
        n < state.1.layers nb := by
      intro hm nb hnb
      rcases h.layered.of_mem_searchLayer hnb with rfl | hlt
      · exact h.entered hm
      · exact hlt
    have hfound := searchLayer_ne_nil (g := state.1) sim state.2 n ef
    have hsame := sameLists_connectLocked state.1 ordinal n
      (state.1.searchLayer sim state.2 n ef)
    have hnext : Linkable ordinal n (state.1.connectLocked ordinal n
        (state.1.searchLayer sim state.2 n ef),
        (state.1.searchLayer sim state.2 n ef).headD state.2) := by
      refine ⟨h.layered.connectLocked h.node hfound hlists,?_,?_⟩
      · rw [hsame.layers]
        exact (Nat.le_succ n).trans h.node
      · intro hm
        rw [hsame.config] at hm
        rw [hsame.layers]
        exact (hlists hm _ (headD_mem hfound _)).le
    obtain ⟨hchecked,hlayered,hrest⟩ := ih hnext
    dsimp only at hchecked hlayered hrest ⊢
    rw [List.range_succ,List.foldrM_append,List.foldr_append]
    refine ⟨?_,hlayered,hsame.trans hrest⟩
    rw [List.foldrM_cons,List.foldrM_nil,pure_bind,checkedConnect_eq_some h.node hlists]
    exact hchecked

lemma mem_descent {level top layer : ℕ} (h : layer ∈ List.range' (level+1) (top-level)) :
    min level top < layer := by
  obtain ⟨hle,-⟩ := List.mem_range'_1.mp h
  omega

lemma lacks_iff (hmax : 0 ≤ g.maxLayer) {level : ℕ} :
    Lacks g level ↔ g.config.m ≠ 0 ∧ g.layers g.entry ≤ min level g.maxLayer.toNat :=
  and_iff_right hmax

/-- Down to the layer that the node is linked on first, an entry node with a list there leads to
nodes with a list there. -/
lemma Layered.linkable (h : g.Layered) (similarity : Similarity) {ordinal level : ℕ}
    (hnode : level < g.layers ordinal) (hmax : 0 ≤ g.maxLayer) (hlinked : ¬Lacks g level) :
    Linkable ordinal (min level g.maxLayer.toNat + 1) (g,
      (List.range' (level+1) (g.maxLayer.toNat-level)).foldr (fun layer current =>
        (g.searchLayer (fun node => similarity.walk g.config (g.vectorOf node)
          (g.vectorOf ordinal)) current layer 1).headD current) g.entry) := by
  refine ⟨h,Nat.succ_le_of_lt ((min_le_left _ _).trans_lt hnode),fun hm => ?_⟩
  have hentry : min level g.maxLayer.toNat < g.layers g.entry :=
    not_le.mp fun hle => hlinked ((lacks_iff hmax).mpr ⟨hm,hle⟩)
  exact h.lt_layers_descent hentry fun layer => mem_descent

/-- Every list that linking writes to is there, unless it begins with an entry node without one. -/
theorem Layered.checkedLinkNode (h : g.Layered) (similarity : Similarity) {ordinal level : ℕ}
    (hnode : level < g.layers ordinal) (hmax : 0 ≤ g.maxLayer) :
    g.checkedLinkNode similarity ordinal level =
      if Lacks g level then none else some (g.linkNode similarity ordinal level) := by
  unfold HnswIndex.checkedLinkNode linkNode
  dsimp only
  by_cases hbad : Lacks g level
  · rw [if_pos hbad]
    obtain ⟨-,hm,hentry⟩ := hbad
    have hisolated : ∀ layer, min level g.maxLayer.toNat ≤ layer →
        g.neighbours g.entry layer = [] := by
      intro layer hlayer
      by_contra hsome
      exact absurd (lt_layers hsome) (not_lt.mpr (hentry.trans hlayer))
    rw [descent_isolated fun layer hlayer => hisolated layer (mem_descent hlayer).le,
      List.range_succ,List.foldrM_append,List.foldrM_cons,List.foldrM_nil,pure_bind,
      searchLayer_isolated (hisolated _ le_rfl),checkedConnect_eq_none hm hentry]
    rfl
  · rw [if_neg hbad]
    have hstart := h.linkable similarity hnode hmax hbad
    rw [(hstart.link _ g.config.efConstruction).1]
    split_ifs <;> rfl

/-- A node that is linked: its neighbours have neighbours, nothing but links has changed, and the
node is the entry if it is the highest. -/
lemma Layered.linkNode (h : g.Layered) (similarity : Similarity) {ordinal level : ℕ}
    (hnode : level < g.layers ordinal) (hmax : 0 ≤ g.maxLayer) (hlinked : ¬Lacks g level) :
    (g.linkNode similarity ordinal level).Layered ∧
      SameNodes g (g.linkNode similarity ordinal level) ∧
      ((g.linkNode similarity ordinal level).entry,(g.linkNode similarity ordinal level).maxLayer) =
        if level > g.maxLayer.toNat then (ordinal,(level : ℤ)) else (g.entry,g.maxLayer) := by
  obtain ⟨-,hlayered,hsame⟩ := (h.linkable similarity hnode hmax hlinked).link
    (fun node => similarity.walk g.config (g.vectorOf node) (g.vectorOf ordinal))
    g.config.efConstruction
  unfold HnswIndex.linkNode
  dsimp only at hlayered hsame ⊢
  split_ifs
  · exact ⟨⟨hlayered.back,hlayered.alone⟩,hsame.toSameNodes.entered ordinal level,rfl⟩
  · exact ⟨hlayered,hsame.toSameNodes,Prod.ext hsame.entry hsame.maxLayer⟩

/-- The linking of nodes one after the other, each given with its level. -/
def checkedLinkAll (similarity : Similarity) (g : HnswIndex) (nodes : List (ℕ × ℕ)) :
    Option HnswIndex :=
  nodes.foldlM (fun g node => g.checkedLinkNode similarity node.1 node.2) g

/-- Once the entry node of a batch has a list, all have: it is the one of the graph or a new one. -/
theorem Layered.checkedLinkAll (h : g.Layered) (similarity : Similarity) {nodes : List (ℕ × ℕ)}
    (hnodes : ∀ node ∈ nodes, g.layers node.1 = node.2+1) (hmax : 0 ≤ g.maxLayer)
    (hentry : ∀ node ∈ nodes, node.1 < g.nodes.length) (hwithin : g.entry < g.nodes.length) :
    (g.checkedLinkAll similarity nodes = none ↔ ∃ node ∈ nodes, Lacks g node.2) ∧
      ∀ linked ∈ g.checkedLinkAll similarity nodes, linked.Layered ∧ SameNodes g linked ∧
        0 ≤ linked.maxLayer ∧ linked.entry < linked.nodes.length := by
  induction nodes generalizing g with
  | nil =>
    refine ⟨by simp [HnswIndex.checkedLinkAll],?_⟩
    rintro linked hlinked
    cases hlinked
    exact ⟨h,SameNodes.refl g,hmax,hwithin⟩
  | cons node nodes ih =>
    obtain ⟨hnode,hrest⟩ := List.forall_mem_cons.mp hnodes
    obtain ⟨hin,hinside⟩ := List.forall_mem_cons.mp hentry
    have hlevel : node.2 < g.layers node.1 := by omega
    rw [HnswIndex.checkedLinkAll,List.foldlM_cons,h.checkedLinkNode similarity hlevel hmax]
    by_cases hbad : Lacks g node.2
    · rw [if_pos hbad]
      exact ⟨iff_of_true rfl ⟨node,List.mem_cons_self,hbad⟩,fun linked hlinked => by cases hlinked⟩
    · rw [if_neg hbad]
      obtain ⟨hlayered,hsame,hplace⟩ := h.linkNode similarity hlevel hmax hbad
      generalize g.linkNode similarity node.1 node.2 = next at hlayered hsame hplace
      have hlength : next.nodes.length = g.nodes.length := hsame.length
      have hfits : 0 ≤ next.maxLayer ∧ next.entry < next.nodes.length ∧
          ∀ level, Lacks next level ↔ Lacks g level := by
        rw [lacks_iff hmax] at hbad
        split_ifs at hplace with hhigh
        · obtain ⟨hentry,hlayer⟩ := Prod.mk.inj hplace
          refine ⟨by omega,by rw [hentry,hlength]; exact hin,fun level => ?_⟩
          rw [lacks_iff (by omega),lacks_iff hmax,hsame.config,hentry,hsame.layers,hnode,hlayer]
          constructor
          · rintro ⟨hm,hle⟩
            omega
          · rintro ⟨hm,hle⟩
            exact absurd ⟨hm,by omega⟩ hbad
        · obtain ⟨hentry,hlayer⟩ := Prod.mk.inj hplace
          refine ⟨by rwa [hlayer],by rwa [hentry,hlength],fun level => ?_⟩
          rw [lacks_iff (by rwa [hlayer]),lacks_iff hmax,hsame.config,hentry,hsame.layers,hlayer]
      obtain ⟨hnone,hsome⟩ := ih hlayered
        (fun other hother => (hsame.layers other.1).trans (hrest other hother)) hfits.1
        (fun other hother => hlength.symm ▸ hinside other hother) hfits.2.1
      constructor
      · rw [Option.bind_eq_bind,Option.bind_some]
        refine hnone.trans ?_
        simp only [hfits.2.2,List.exists_mem_cons_iff,hbad,false_or]
      · intro linked hlinked
        obtain ⟨hlinks,hnodes,hplaced⟩ := hsome linked hlinked
        exact ⟨hlinks,hsame.trans hnodes,hplaced⟩

/-- New nodes with empty lists up to their levels, behind nodes that keep their links. -/
structure Staged (g g' : HnswIndex) (fresh : List HnswNode) : Prop where
  nodes : g'.nodes.map HnswNode.links = g.nodes.map HnswNode.links ++ fresh.map HnswNode.links
  blank : ∀ nd ∈ fresh, ∀ layer, nd.links.getD layer [] = []
  config : g'.config = g.config
  entry : g'.entry = g.entry
  maxLayer : g'.maxLayer = g.maxLayer

lemma links_eq (g : HnswIndex) (i : ℕ) :
    (g.nodes[i]?).elim [] HnswNode.links = ((g.nodes.map HnswNode.links)[i]?).getD [] := by
  rw [List.getElem?_map]
  cases g.nodes[i]? <;> rfl

lemma Staged.length {fresh : List HnswNode} (h : Staged g g' fresh) :
    g'.nodes.length = g.nodes.length + fresh.length := by
  simpa using congrArg List.length h.nodes

lemma Staged.neighbours {fresh : List HnswNode} (h : Staged g g' fresh) (i layer : ℕ) :
    g'.neighbours i layer = g.neighbours i layer := by
  rw [neighbours_eq,neighbours_eq,links_eq,links_eq,h.nodes]
  by_cases hi : i < g.nodes.length
  · rw [List.getElem?_append_left (by simpa using hi)]
  · have hnone : (g.nodes.map HnswNode.links)[i]? = none :=
      List.getElem?_eq_none (by simpa using not_lt.mp hi)
    rw [List.getElem?_append_right (by simpa using not_lt.mp hi),hnone,List.getElem?_map]
    cases hnd : fresh[i - (g.nodes.map HnswNode.links).length]? with
    | none => rfl
    | some nd => exact h.blank nd (List.mem_of_getElem? hnd) layer

lemma Staged.layers_old {fresh : List HnswNode} (h : Staged g g' fresh) {i : ℕ}
    (hi : i < g.nodes.length) : g'.layers i = g.layers i := by
  unfold layers
  rw [links_eq,links_eq,h.nodes,List.getElem?_append_left (by simpa using hi)]

lemma Staged.layers_new {fresh : List HnswNode} (h : Staged g g' fresh) {i : ℕ} {nd : HnswNode}
    (hi : fresh[i]? = some nd) : g'.layers (g.nodes.length + i) = nd.links.length := by
  unfold layers
  rw [links_eq,h.nodes,List.getElem?_append_right (by simp)]
  simp [hi]

lemma Staged.layered {fresh : List HnswNode} (h : Staged g g' fresh) (hg : g.Layered) :
    g'.Layered := by
  constructor
  · intro i layer nb hnb
    rw [h.neighbours] at hnb ⊢
    exact hg.back i layer nb hnb
  · intro hm i layer
    rw [h.neighbours]
    exact hg.alone (h.config ▸ hm) i layer

lemma Staged.lacks {fresh : List HnswNode} (h : Staged g g' fresh) (hmax : 0 ≤ g.maxLayer)
    (hentry : g.entry < g.nodes.length) (level : ℕ) : Lacks g' level ↔ Lacks g level := by
  rw [lacks_iff (h.maxLayer.symm ▸ hmax),lacks_iff hmax,h.config,h.entry,h.maxLayer,
    h.layers_old hentry]

/-- What linking a batch leaves, the first node of a graph being where searches start. -/
def linkFresh (similarity : Similarity) (g : HnswIndex) (base : ℕ) (levels : List ℕ) :
    Option HnswIndex :=
  let nodes := levels.mapIdx fun i level => (base+i,level)
  if g.maxLayer < 0 then
    HnswIndex.checkedLinkAll similarity
      { g with entry := base, maxLayer := levels.headD 0 } (nodes.drop 1)
  else g.checkedLinkAll similarity nodes

/-- New nodes are linked unless the entry node of the graph lacks a list for one of them. -/
theorem Staged.linkFresh {fresh : List HnswNode} (h : Staged g g' fresh) (hg : g.Layered)
    (hwithin : 0 ≤ g.maxLayer → g.entry < g.nodes.length) (similarity : Similarity)
    {levels : List ℕ} (hlevels : fresh.map (fun nd => nd.links.length) = levels.map (· + 1))
    (hfresh : fresh ≠ []) :
    (g'.linkFresh similarity g.nodes.length levels = none ↔ ∃ level ∈ levels, Lacks g level) ∧
      ∀ linked ∈ g'.linkFresh similarity g.nodes.length levels, linked.Layered ∧
        SameNodes g' linked ∧ 0 ≤ linked.maxLayer ∧ linked.entry < linked.nodes.length := by
  have hlength : fresh.length = levels.length := by simpa using congrArg List.length hlevels
  have hnodes : ∀ node ∈ levels.mapIdx (fun i level => (g.nodes.length + i,level)),
      g'.layers node.1 = node.2+1 ∧ node.1 < g'.nodes.length := by
    intro node hnode
    obtain ⟨i,hi,rfl⟩ := List.mem_mapIdx.mp hnode
    have hnd := List.getElem?_eq_getElem (hlength.symm ▸ hi : i < fresh.length)
    refine ⟨?_,by rw [h.length]; omega⟩
    rw [h.layers_new hnd]
    have hget := congrArg (fun l : List ℕ => l[i]?) hlevels
    simpa [hnd,List.getElem?_eq_getElem hi] using hget
  unfold HnswIndex.linkFresh
  dsimp only
  rw [h.maxLayer]
  by_cases hmax : g.maxLayer < 0
  · rw [if_pos hmax]
    obtain ⟨level,rest,rfl⟩ := List.exists_cons_of_ne_nil (l := levels) (by
      rintro rfl
      exact hfresh (List.length_eq_zero_iff.mp hlength))
    have hfirst := hnodes (g.nodes.length,level) (by simp)
    set start : HnswIndex := { g' with entry := g.nodes.length, maxLayer := level } with hstart
    have hlayered : start.Layered := ⟨(h.layered hg).back,(h.layered hg).alone⟩
    have hlinks : ∀ l, ¬Lacks start l := by
      intro l hbad
      obtain ⟨-,hle⟩ := (lacks_iff (Int.natCast_nonneg level)).mp hbad
      have hfull : start.layers start.entry = level+1 := hfirst.1
      rw [hfull,Int.toNat_natCast] at hle
      omega
    have hrest : ∀ node ∈ ((level::rest).mapIdx fun i level => (g.nodes.length + i,level)).drop 1,
        start.layers node.1 = node.2+1 ∧ node.1 < start.nodes.length :=
      fun node hnode => hnodes node (List.mem_of_mem_drop hnode)
    obtain ⟨hnone,hsome⟩ := hlayered.checkedLinkAll similarity
      (fun node hnode => (hrest node hnode).1) (Int.natCast_nonneg level)
      (fun node hnode => (hrest node hnode).2) hfirst.2
    refine ⟨hnone.trans (iff_of_false ?_ ?_),?_⟩
    · rintro ⟨node,-,hbad⟩
      exact hlinks node.2 hbad
    · rintro ⟨l,-,hbad⟩
      exact absurd hbad.1 (not_le.mpr hmax)
    · intro linked hlinked
      obtain ⟨hlayered',hsame,hplaced⟩ := hsome linked hlinked
      exact ⟨hlayered',((SameNodes.refl g').entered g.nodes.length level).trans hsame,hplaced⟩
  · rw [if_neg hmax]
    have hmax := not_lt.mp hmax
    obtain ⟨hnone,hsome⟩ := (h.layered hg).checkedLinkAll similarity
      (fun node hnode => (hnodes node hnode).1) (h.maxLayer.symm ▸ hmax)
      (fun node hnode => (hnodes node hnode).2)
      (by rw [h.entry,h.length]; exact Nat.lt_add_right _ (hwithin hmax))
    refine ⟨hnone.trans ?_,hsome⟩
    simp only [h.lacks hmax (hwithin hmax)]
    constructor
    · rintro ⟨node,hnode,hbad⟩
      obtain ⟨i,hi,rfl⟩ := List.mem_mapIdx.mp hnode
      exact ⟨_,List.getElem_mem hi,hbad⟩
    · rintro ⟨level,hlevel,hbad⟩
      obtain ⟨i,hi,rfl⟩ := List.getElem_of_mem hlevel
      exact ⟨_,List.mem_mapIdx.mpr ⟨i,hi,rfl⟩,hbad⟩

end HnswIndex
end RagRuntime.Index
