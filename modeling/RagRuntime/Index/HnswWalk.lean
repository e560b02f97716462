import RagRuntime.Index.Hnsw

/-! A walk over the graph comes upon no node twice. -/
namespace RagRuntime.Index
open RagRuntime.Base RagRuntime.Core RagRuntime.Backend RagRuntime.Lexical

namespace HnswIndex

/-- The results are different nodes, and all of them have been seen. -/
structure Beam.Tidy (b : Beam) : Prop where
  nodup : (b.result.map Prod.snd).Nodup
  seen : ∀ c ∈ b.result, c.2 ∈ b.visited

variable {g : HnswIndex} {sim : ℕ → ℚ} {layer ef : ℕ}

lemma Beam.Tidy.offer {b : Beam} (h : b.Tidy) {c : Scored} (hc : c.2 ∉ b.visited) :
    ({ b with visited := c.2::b.visited }.offer ef c).Tidy := by
  have hnew : c.2 ∉ b.result.map Prod.snd := by
    intro hmem
    obtain ⟨d,hd,hdc⟩ := List.mem_map.mp hmem
    exact hc (hdc ▸ h.seen d hd)
  have hsame : Beam.Tidy { b with visited := c.2::b.visited } :=
    ⟨h.nodup,fun d hd => List.mem_cons_of_mem _ (h.seen d hd)⟩
  unfold Beam.offer
  split_ifs with hroom
  · refine ⟨List.nodup_cons.mpr ⟨hnew,h.nodup⟩,?_⟩
    intro d hd
    rcases List.mem_cons.mp hd with rfl | hd
    · exact List.mem_cons_self
    · exact hsame.seen d hd
  · cases weakest b.result with
    | none => exact hsame
    | some w =>
      dsimp only
      split_ifs
      · have hsub : (b.result.erase w).Sublist b.result := List.erase_sublist
        refine ⟨List.nodup_cons.mpr ⟨fun hmem => hnew ((hsub.map _).subset hmem),
          h.nodup.sublist (hsub.map _)⟩,?_⟩
        intro d hd
        rcases List.mem_cons.mp hd with rfl | hd
        · exact List.mem_cons_self
        · exact hsame.seen d (hsub.subset hd)
      · exact hsame

lemma Beam.Tidy.visit {b : Beam} (h : b.Tidy) (nb : ℕ) : (g.visit sim ef b nb).Tidy := by
  unfold HnswIndex.visit
  split_ifs with hskip
  · exact h
  · exact h.offer (c := (sim nb,nb)) fun hmem => hskip (.inr hmem)

lemma Beam.Tidy.visitAll {b : Beam} (h : b.Tidy) (nbs : List ℕ) :
    (nbs.foldl (g.visit sim ef) b).Tidy := by
  induction nbs generalizing b with
  | nil => exact h
  | cons nb nbs ih => exact ih (h.visit nb)

theorem Beam.Tidy.walkLayer (fuel : ℕ) {b : Beam} (h : b.Tidy) :
    (g.walkLayer sim layer ef fuel b).Tidy := by
  induction fuel generalizing b with
  | zero => exact h
  | succ fuel ih =>
    rw [HnswIndex.walkLayer]
    cases best b.cand with
    | none => exact h
    | some c =>
      dsimp only
      split_ifs
      · exact h
      · have htake : Beam.Tidy { b with cand := b.cand.erase c } := ⟨h.nodup,h.seen⟩
        exact ih (htake.visitAll _)

/-- The nodes that a layer is searched for are different ones. -/
theorem searchLayer_nodup (g : HnswIndex) (sim : ℕ → ℚ) (entry layer ef : ℕ) :
    (g.searchLayer sim entry layer ef).Nodup := by
  have hstart : Beam.Tidy ⟨[(sim entry,entry)],[(sim entry,entry)],[entry]⟩ :=
    ⟨List.nodup_singleton _,by simp⟩
  have htidy : (g.walkLayer sim layer ef (g.nodes.length+1) _).Tidy := hstart.walkLayer _
  have hperm := (List.perm_insertionSort (fun a b : Scored => b.1 ≤ a.1)
    (g.walkLayer sim layer ef (g.nodes.length+1)
      ⟨[(sim entry,entry)],[(sim entry,entry)],[entry]⟩).result).map Prod.snd
  exact hperm.nodup_iff.mpr htidy.nodup

lemma candidates_nodup (similarity : Similarity) (g : HnswIndex) (query : Vec) (ef : ℕ) :
    (g.candidates similarity query ef).Nodup := searchLayer_nodup _ _ _ _ _

/-- Different nodes of one id each give different hits. -/
lemma nodup_hits {similarity : Similarity} {g : HnswIndex} {query : Vec} {allow : ℕ → Bool}
    (hdistinct : (g.nodes.map HnswNode.id).Nodup) {nodes : List ℕ} (hn : nodes.Nodup) :
    ((g.hits similarity query allow nodes).map Hit.chunk).Nodup := by
  have hfound : ∀ (node id : ℕ), (((g.nodes[node]?).bind fun nd =>
      if allow nd.id = false ∨ nd.id ∈ g.deleted ∨ nd.superseded = true then none
      else some (⟨nd.id,similarity.rescore g.config nd.vector query⟩ : Hit)).map Hit.chunk) =
        some id → (g.nodes.map HnswNode.id)[node]? = some id := by
    intro node id hid
    obtain ⟨hit,hhit,rfl⟩ := Option.map_eq_some_iff.mp hid
    obtain ⟨nd,hnd,hnode⟩ := Option.bind_eq_some_iff.mp hhit
    split_ifs at hnode
    cases hnode
    rw [List.getElem?_map,hnd]
    rfl
  rw [hits,List.map_filterMap]
  apply hn.filterMap
  intro i j id hi hj
  have hsome := hfound i id hi
  have hlt := (List.getElem?_eq_some_iff.mp hsome).1
  exact (List.getElem?_inj hlt hdistinct).mp (hsome.trans (hfound j id hj).symm)

end HnswIndex
end RagRuntime.Index
