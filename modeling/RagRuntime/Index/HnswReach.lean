import Mathlib.Data.Finset.Image
import Mathlib.Data.Finset.Order
import Mathlib.Logic.Relation
import RagRuntime.Base.Overfetch
import RagRuntime.Index.HnswWalk

/-! A walk that does not fill its beam finds all nodes that the one it enters at is connected to. -/
namespace RagRuntime.Index
open RagRuntime.Base RagRuntime.Core RagRuntime.Backend RagRuntime.Lexical

namespace HnswIndex

lemma foldl_choice_mem {α : Type*} (choose : α → α → Prop) [DecidableRel choose] (a : α)
    (l : List α) : l.foldl (fun b d => if choose b d then d else b) a ∈ a::l := by
  induction l generalizing a with
  | nil => exact List.mem_singleton_self a
  | cons d l ih =>
    rw [List.foldl_cons]
    split_ifs
    · exact List.mem_cons_of_mem _ (ih d)
    · rcases List.mem_cons.mp (ih a) with heq | hmem
      · rw [heq]
        exact List.mem_cons_self
      · exact List.mem_cons_of_mem _ (List.mem_cons_of_mem _ hmem)

lemma mem_of_best {l : List Scored} {c : Scored} (h : best l = some c) : c ∈ l := by
  cases l with
  | nil => cases h
  | cons a l =>
    rw [best,Option.some.injEq] at h
    exact h ▸ foldl_choice_mem (fun b d : Scored => b.1 < d.1) a l

lemma mem_of_weakest {l : List Scored} {c : Scored} (h : weakest l = some c) : c ∈ l := by
  cases l with
  | nil => cases h
  | cons a l =>
    rw [weakest,Option.some.injEq] at h
    exact h ▸ foldl_choice_mem (fun b d : Scored => d.1 < b.1) a l

lemma eq_nil_of_best {l : List Scored} (h : best l = none) : l = [] := by
  cases l with
  | nil => rfl
  | cons a l => cases h

lemma foldl_choice_least {α : Type*} (f : α → ℚ) (a : α) (l : List α) :
    ∀ d ∈ a::l, f (l.foldl (fun b d => if f d < f b then d else b) a) ≤ f d := by
  induction l generalizing a with
  | nil =>
    intro d hd
    rw [List.mem_singleton.mp hd]
    exact le_rfl
  | cons e l ih =>
    rw [List.foldl_cons]
    intro d hd
    have hleast := ih (if f e < f a then e else a)
    have hfirst := hleast _ List.mem_cons_self
    rcases List.mem_cons.mp hd with rfl | hd
    · refine hfirst.trans ?_
      split_ifs with hless
      · exact hless.le
      · exact le_rfl
    rcases List.mem_cons.mp hd with rfl | hd
    · refine hfirst.trans ?_
      split_ifs with hless
      · exact le_rfl
      · exact not_lt.mp hless
    · exact hleast d (List.mem_cons_of_mem _ hd)

lemma le_of_weakest {l : List Scored} {w : Scored} (h : weakest l = some w) :
    ∀ d ∈ l, w.1 ≤ d.1 := by
  cases l with
  | nil => cases h
  | cons a l =>
    rw [weakest,Option.some.injEq] at h
    exact h ▸ foldl_choice_least Prod.fst a l

lemma le_best {l : List Scored} {c : Scored} (h : best l = some c) : ∀ d ∈ l, d.1 ≤ c.1 := by
  cases l with
  | nil => cases h
  | cons a l =>
    rw [best,Option.some.injEq] at h
    have hleast := foldl_choice_least (fun d : Scored => -d.1) a l
    simp only [neg_lt_neg_iff,neg_le_neg_iff] at hleast
    exact h ▸ hleast

variable {g : HnswIndex} {sim : ℕ → ℚ} {layer ef : ℕ} {s : ℚ}

/-- A beam with room takes what it is offered, and a full one that and not its weakest member, or
nothing. -/
lemma offer_cases (b : Beam) (ef : ℕ) (c : Scored) :
    b.result.length < ef ∧
      b.offer ef c = { b with cand := c::b.cand, result := c::b.result } ∨
    ef ≤ b.result.length ∧
      ((∃ w, weakest b.result = some w ∧ w.1 < c.1 ∧
        b.offer ef c = { b with cand := c::b.cand, result := c::b.result.erase w }) ∨
      (∀ d ∈ b.result, c.1 ≤ d.1) ∧ b.offer ef c = b) := by
  unfold Beam.offer
  split_ifs with hroom
  · exact .inl ⟨hroom,rfl⟩
  · right
    rw [not_lt] at hroom
    refine ⟨hroom,?_⟩
    cases hw : weakest b.result with
    | none =>
      have hnone : b.result = [] := by
        cases hresult : b.result with
        | nil => rfl
        | cons a l =>
          rw [hresult] at hw
          cases hw
      exact .inr ⟨fun d hd => absurd (hnone ▸ hd) List.not_mem_nil,rfl⟩
    | some w =>
      dsimp only
      split_ifs with hless
      · exact .inl ⟨w,rfl,hless,rfl⟩
      · exact .inr ⟨fun d hd => (not_lt.mp hless).trans (le_of_weakest hw d hd),rfl⟩

/-- The beam is full of nodes that are as near as `s`. -/
def Beam.Settled (b : Beam) (ef : ℕ) (s : ℚ) : Prop :=
  ef ≤ b.result.length ∧ ∀ d ∈ b.result, s ≤ d.1

/-- Until the beam is full of near ones, every near node seen is kept, and is waiting, held or has
all its neighbours seen. -/
structure Beam.Explores (g : HnswIndex) (sim : ℕ → ℚ) (layer ef : ℕ) (s : ℚ) (held : List ℕ)
    (b : Beam) : Prop where
  inside : ∀ i ∈ b.visited, i < g.nodes.length
  distinct : b.visited.Nodup
  queued : ∀ c ∈ b.cand, c.2 ∈ b.visited ∧ c.1 = sim c.2
  scored : ∀ c ∈ b.result, c.1 = sim c.2
  kept : ¬ b.Settled ef s → ∀ i ∈ b.visited, s ≤ sim i → i ∈ b.result.map Prod.snd
  closed : ¬ b.Settled ef s → ∀ i ∈ b.visited, s ≤ sim i → i ∈ held ∨ i ∈ b.cand.map Prod.snd ∨
    ∀ nb ∈ g.neighbours i layer, nb < g.nodes.length → nb ∈ b.visited

/-- What the visits of a turn add to a beam. -/
structure Beam.Grows (b d : Beam) : Prop where
  seen : b.visited ⊆ d.visited
  waiting : d.cand.length + b.visited.length ≤ b.cand.length + d.visited.length

lemma Beam.Grows.refl (b : Beam) : b.Grows b := ⟨List.Subset.refl _,le_rfl⟩

lemma Beam.Grows.trans {b d e : Beam} (h : b.Grows d) (h' : d.Grows e) : b.Grows e :=
  ⟨List.Subset.trans h.seen h'.seen,by have := h.waiting; have := h'.waiting; omega⟩

/-- A beam that takes what it is offered. -/
lemma Beam.Explores.take {held : List ℕ} {b : Beam} (h : b.Explores g sim layer ef s held) {nb : ℕ}
    (hlt : nb < g.nodes.length) (hnew : nb ∉ b.visited) {result : List Scored}
    (hsub : result ⊆ b.result)
    (hbefore : b.Settled ef s → Beam.Settled ⟨[],(sim nb,nb)::result,[]⟩ ef s)
    (hkept : ¬ b.Settled ef s → ∀ d ∈ b.result, s ≤ d.1 → d ∈ result) :
    Beam.Explores g sim layer ef s held
      ⟨(sim nb,nb)::b.cand,(sim nb,nb)::result,nb::b.visited⟩ := by
  refine ⟨?_,List.nodup_cons.mpr ⟨hnew,h.distinct⟩,?_,?_,?_,?_⟩
  · intro i hi
    rcases List.mem_cons.mp hi with rfl | hi
    · exact hlt
    · exact h.inside i hi
  · intro c hc
    rcases List.mem_cons.mp hc with rfl | hc
    · exact ⟨List.mem_cons_self,rfl⟩
    · exact ⟨List.mem_cons_of_mem _ (h.queued c hc).1,(h.queued c hc).2⟩
  · intro c hc
    rcases List.mem_cons.mp hc with rfl | hc
    · rfl
    · exact h.scored c (hsub hc)
  · intro hopen i hi hnear
    have hopen' : ¬ b.Settled ef s := fun hsettled => hopen (hbefore hsettled)
    rcases List.mem_cons.mp hi with rfl | hi
    · exact List.mem_cons_self
    · obtain ⟨d,hd,rfl⟩ := List.mem_map.mp (h.kept hopen' i hi hnear)
      have hdnear : s ≤ d.1 := (h.scored d hd).symm ▸ hnear
      exact List.mem_cons_of_mem _ (List.mem_map_of_mem (hkept hopen' d hd hdnear))
  · intro hopen i hi hnear
    rcases List.mem_cons.mp hi with rfl | hi
    · exact .inr (.inl List.mem_cons_self)
    · rcases h.closed (fun hsettled => hopen (hbefore hsettled)) i hi hnear with
        hheld | hwaits | hall
      · exact .inl hheld
      · exact .inr (.inl (List.mem_cons_of_mem _ hwaits))
      · exact .inr (.inr fun j hj hlt => List.mem_cons_of_mem _ (hall j hj hlt))

/-- A full beam that refuses what it is offered. -/
lemma Beam.Explores.refuse {held : List ℕ} {b : Beam} (h : b.Explores g sim layer ef s held)
    {nb : ℕ} (hlt : nb < g.nodes.length) (hnew : nb ∉ b.visited) (hfull : ef ≤ b.result.length)
    (hworse : ∀ d ∈ b.result, sim nb ≤ d.1) :
    Beam.Explores g sim layer ef s held { b with visited := nb::b.visited } := by
  have hfar : ¬ b.Settled ef s → ¬ s ≤ sim nb := fun hopen hnear =>
    hopen ⟨hfull,fun d hd => hnear.trans (hworse d hd)⟩
  refine ⟨?_,List.nodup_cons.mpr ⟨hnew,h.distinct⟩,?_,h.scored,?_,?_⟩
  · intro i hi
    rcases List.mem_cons.mp hi with rfl | hi
    · exact hlt
    · exact h.inside i hi
  · exact fun c hc => ⟨List.mem_cons_of_mem _ (h.queued c hc).1,(h.queued c hc).2⟩
  · intro hopen i hi hnear
    rcases List.mem_cons.mp hi with rfl | hi
    · exact absurd hnear (hfar hopen)
    · exact h.kept hopen i hi hnear
  · intro hopen i hi hnear
    rcases List.mem_cons.mp hi with rfl | hi
    · exact absurd hnear (hfar hopen)
    · exact (h.closed hopen i hi hnear).imp_right (Or.imp_right fun hall j hj hlt =>
        List.mem_cons_of_mem _ (hall j hj hlt))

lemma Beam.Explores.visit {held : List ℕ} {b : Beam} (h : b.Explores g sim layer ef s held)
    (nb : ℕ) : (g.visit sim ef b nb).Explores g sim layer ef s held ∧
      b.Grows (g.visit sim ef b nb) ∧
      (nb < g.nodes.length → nb ∈ (g.visit sim ef b nb).visited) := by
  unfold HnswIndex.visit
  split_ifs with hskip
  · exact ⟨h,Beam.Grows.refl b,fun hlt => hskip.resolve_left (by omega)⟩
  · obtain ⟨hlt,hnew⟩ := not_or.mp hskip
    rw [not_le] at hlt
    have hseen : b.visited ⊆ nb::b.visited := List.subset_cons_self nb b.visited
    rcases offer_cases { b with visited := nb::b.visited } ef (sim nb,nb) with
      ⟨hroom,hoffer⟩ | ⟨hfull,⟨w,hw,hless,hoffer⟩ | ⟨hworse,hoffer⟩⟩
    · rw [hoffer]
      refine ⟨h.take hlt hnew (List.Subset.refl _) ?_ fun _ d hd _ => hd,
        ⟨hseen,by simp only [List.length_cons]; omega⟩,fun _ => List.mem_cons_self⟩
      exact fun hsettled => absurd hsettled.1 (not_le.mpr hroom)
    · rw [hoffer]
      have hmem := mem_of_weakest hw
      have hleast := le_of_weakest hw
      refine ⟨h.take hlt hnew List.erase_subset ?_ ?_,
        ⟨hseen,by simp only [List.length_cons]; omega⟩,fun _ => List.mem_cons_self⟩
      · rintro ⟨-,hnear⟩
        have hpos := List.length_pos_of_mem hmem
        refine ⟨?_,fun d hd => ?_⟩
        · rw [List.length_cons,List.length_erase_of_mem hmem]
          dsimp only at hfull hpos ⊢
          omega
        · rcases List.mem_cons.mp hd with rfl | hd
          · exact (hnear w hmem).trans hless.le
          · exact hnear d (List.mem_of_mem_erase hd)
      · intro hopen d hd hnear
        refine (List.mem_erase_of_ne ?_).mpr hd
        -- were it the weakest one, all would be near
        rintro rfl
        exact hopen ⟨hfull,fun e he => hnear.trans (hleast e he)⟩
    · rw [hoffer]
      exact ⟨h.refuse hlt hnew hfull hworse,⟨hseen,by simp only [List.length_cons]; omega⟩,
        fun _ => List.mem_cons_self⟩

lemma Beam.Explores.visitAll {held : List ℕ} {b : Beam} (h : b.Explores g sim layer ef s held)
    (nbs : List ℕ) : (nbs.foldl (g.visit sim ef) b).Explores g sim layer ef s held ∧
      b.Grows (nbs.foldl (g.visit sim ef) b) ∧
      ∀ nb ∈ nbs, nb < g.nodes.length → nb ∈ (nbs.foldl (g.visit sim ef) b).visited := by
  induction nbs generalizing b with
  | nil => exact ⟨h,Beam.Grows.refl b,fun nb hnb => absurd hnb List.not_mem_nil⟩
  | cons nb nbs ih =>
    obtain ⟨hfirst,hgrows,hseen⟩ := h.visit nb
    obtain ⟨hrest,hgrows',hseen'⟩ := ih hfirst
    refine ⟨hrest,hgrows.trans hgrows',fun i hi hlt => ?_⟩
    rcases List.mem_cons.mp hi with rfl | hi
    · exact hgrows'.seen (hseen hlt)
    · exact hseen' i hi hlt

/-- A turn that has taken a node is over when its neighbours have been seen. -/
lemma Beam.Explores.turn {b : Beam} {i : ℕ} (h : b.Explores g sim layer ef s [i]) :
    ((g.neighbours i layer).foldl (g.visit sim ef) b).Explores g sim layer ef s [] := by
  obtain ⟨hafter,-,hall⟩ := h.visitAll (g.neighbours i layer)
  refine ⟨hafter.inside,hafter.distinct,hafter.queued,hafter.scored,hafter.kept,?_⟩
  intro hopen j hj hnear
  rcases hafter.closed hopen j hj hnear with hheld | hwaits | hneighbours
  · rw [List.mem_singleton.mp hheld]
    exact .inr (.inr hall)
  · exact .inr (.inl hwaits)
  · exact .inr (.inr hneighbours)

/-- A beam that is full of near nodes, or has all near ones that its own lead to. -/
def Beam.Exhausts (g : HnswIndex) (sim : ℕ → ℚ) (layer ef : ℕ) (s : ℚ) (b : Beam) : Prop :=
  b.Settled ef s ∨ ∀ i ∈ b.visited, s ≤ sim i → i ∈ b.result.map Prod.snd ∧
    ∀ nb ∈ g.neighbours i layer, nb < g.nodes.length → nb ∈ b.visited

/-- No near node waits. -/
lemma Beam.Explores.exhausts {b : Beam} (h : b.Explores g sim layer ef s [])
    (hfar : ¬ b.Settled ef s → ∀ c ∈ b.cand, c.1 < s) : b.Exhausts g sim layer ef s := by
  by_cases hopen : b.Settled ef s
  · exact .inl hopen
  · refine .inr fun i hi hnear => ⟨h.kept hopen i hi hnear,?_⟩
    rcases h.closed hopen i hi hnear with hheld | hwaits | hall
    · cases hheld
    · obtain ⟨c,hc,rfl⟩ := List.mem_map.mp hwaits
      rw [← (h.queued c hc).2] at hnear
      exact absurd hnear (not_le.mpr (hfar hopen c hc))
    · exact hall

/-- Every turn takes a candidate, and a node waits at most once. -/
theorem Beam.Explores.walkLayer (fuel : ℕ) {b : Beam} (h : b.Explores g sim layer ef s [])
    (hfuel : b.cand.length + g.nodes.length ≤ fuel + b.visited.length) :
    (g.walkLayer sim layer ef fuel b).Explores g sim layer ef s [] ∧
      (g.walkLayer sim layer ef fuel b).Exhausts g sim layer ef s ∧
      b.visited ⊆ (g.walkLayer sim layer ef fuel b).visited := by
  have hseen : b.visited.length ≤ g.nodes.length := by
    have hsub : b.visited ⊆ List.range g.nodes.length := fun i hi =>
      List.mem_range.mpr (h.inside i hi)
    simpa using (List.subperm_of_subset h.distinct hsub).length_le
  induction fuel generalizing b with
  | zero =>
    have hempty : b.cand = [] := List.length_eq_zero_iff.mp (by omega)
    exact ⟨h,h.exhausts fun _ c hc => absurd (hempty ▸ hc) List.not_mem_nil,List.Subset.refl _⟩
  | succ fuel ih =>
    rw [HnswIndex.walkLayer]
    cases hbest : best b.cand with
    | none =>
      have hempty := eq_nil_of_best hbest
      exact ⟨h,h.exhausts fun _ c hc => absurd (hempty ▸ hc) List.not_mem_nil,List.Subset.refl _⟩
    | some c =>
      dsimp only
      split_ifs with hstop
      · refine ⟨h,h.exhausts fun hopen d hd => ?_,List.Subset.refl _⟩
        obtain ⟨w,hw,hworse⟩ := (Option.any_eq_true _ _).mp hstop.2
        rw [decide_eq_true_iff] at hworse
        have hfar : w.1 < s := by
          by_contra hnear
          exact hopen ⟨hstop.1,fun e he => (not_lt.mp hnear).trans (le_of_weakest hw e he)⟩
        exact ((le_best hbest d hd).trans_lt hworse).trans hfar
      · have hmem := mem_of_best hbest
        have htake : Beam.Explores g sim layer ef s [c.2] { b with cand := b.cand.erase c } := by
          refine ⟨h.inside,h.distinct,fun d hd => h.queued d (List.mem_of_mem_erase hd),h.scored,
            h.kept,?_⟩
          intro hopen i hi hnear
          rcases h.closed hopen i hi hnear with hheld | hwaits | hall
          · cases hheld
          · by_cases hic : i = c.2
            · exact .inl (List.mem_singleton.mpr hic)
            · obtain ⟨d,hd,rfl⟩ := List.mem_map.mp hwaits
              have hne : d ≠ c := fun heq => hic (heq ▸ rfl)
              exact .inr (.inl (List.mem_map_of_mem ((List.mem_erase_of_ne hne).mpr hd)))
          · exact .inr (.inr hall)
        have hgrows := (htake.visitAll (g.neighbours c.2 layer)).2.1
        have hexplores := htake.turn
        have hwaiting := hgrows.waiting
        dsimp only at hwaiting
        rw [List.length_erase_of_mem hmem] at hwaiting
        have hpos := List.length_pos_of_mem hmem
        have hseen' := (List.subperm_of_subset hexplores.distinct
          (fun i hi => List.mem_range.mpr (hexplores.inside i hi))).length_le
        rw [List.length_range] at hseen'
        obtain ⟨hkeeps,hdone,hsub⟩ := ih hexplores (by omega) hseen'
        exact ⟨hkeeps,hdone,List.Subset.trans hgrows.seen hsub⟩

/-- An edge of a layer. -/
def Edge (g : HnswIndex) (layer i j : ℕ) : Prop := j ∈ g.neighbours i layer ∧ j < g.nodes.length

/-- An edge to a node that is as near as `s`. -/
def NearEdge (g : HnswIndex) (sim : ℕ → ℚ) (s : ℚ) (layer i j : ℕ) : Prop :=
  g.Edge layer i j ∧ s ≤ sim j

/-- A layer that is searched gives near nodes only and as many as the beam holds, or all that can be
reached over near ones. The node that it is entered at is always taken. -/
theorem searchLayer_near (sim : ℕ → ℚ) (s : ℚ) (layer ef : ℕ) {entry : ℕ}
    (hentry : entry < g.nodes.length) :
    ef ≤ (g.searchLayer sim entry layer ef).length ∧
        (∀ i ∈ g.searchLayer sim entry layer ef, s ≤ sim i) ∨
      ∀ i, Relation.ReflTransGen (g.NearEdge sim s layer) entry i → s ≤ sim i →
        i ∈ g.searchLayer sim entry layer ef := by
  set first : Beam := ⟨[],[(sim entry,entry)],[entry]⟩
  have hfirst : first.Explores g sim layer ef s [entry] := by
    refine ⟨?_,List.nodup_singleton _,?_,?_,?_,?_⟩
    · intro i hi
      rw [List.mem_singleton.mp hi]
      exact hentry
    · exact fun c hc => absurd hc List.not_mem_nil
    · intro c hc
      rw [List.mem_singleton.mp hc]
    · exact fun _ i hi _ => hi
    · exact fun _ i hi _ => .inl hi
  obtain ⟨-,hgrows,hentered⟩ := hfirst.visitAll (g.neighbours entry layer)
  have hwaiting : ((g.neighbours entry layer).foldl (g.visit sim ef) first).cand.length + 1 ≤
      0 + ((g.neighbours entry layer).foldl (g.visit sim ef) first).visited.length :=
    hgrows.waiting
  obtain ⟨hkeeps,hdone,hseen⟩ := hfirst.turn.walkLayer g.nodes.length (by omega)
  have hwalk : g.walkLayer sim layer ef (g.nodes.length+1)
      ⟨[(sim entry,entry)],[(sim entry,entry)],[entry]⟩ = g.walkLayer sim layer ef g.nodes.length
        ((g.neighbours entry layer).foldl (g.visit sim ef) first) := by
    rw [HnswIndex.walkLayer]
    simp [best,weakest,first]
  unfold searchLayer
  dsimp only
  rw [hwalk]
  rcases hdone with ⟨hfull,hnear⟩ | hall
  · left
    refine ⟨by rwa [List.length_map,List.length_insertionSort],?_⟩
    intro i hi
    obtain ⟨c,hc,rfl⟩ := List.mem_map.mp hi
    rw [List.mem_insertionSort] at hc
    exact (hkeeps.scored c hc) ▸ hnear c hc
  · right
    intro i hi hnear
    have hvisited : i ∈ (g.walkLayer sim layer ef g.nodes.length
        ((g.neighbours entry layer).foldl (g.visit sim ef) first)).visited := by
      induction hi with
      | refl => exact hseen (hgrows.seen (List.mem_singleton_self _))
      | tail hpath hedge ih =>
        rcases Relation.ReflTransGen.cases_tail hpath with rfl | ⟨k,-,-,hjnear⟩
        · exact hseen (hentered _ hedge.1.1 hedge.1.2)
        · exact (hall _ (ih hjnear) hjnear).2 _ hedge.1.1 hedge.1.2
    obtain ⟨c,hc,rfl⟩ := List.mem_map.mp (hall i hvisited hnear).1
    exact List.mem_map_of_mem ((List.mem_insertionSort _).mpr hc)

@[simp] lemma visited_offer (b : Beam) (ef : ℕ) (c : Scored) :
    (b.offer ef c).visited = b.visited := by
  rcases offer_cases b ef c with ⟨-,hoffer⟩ | ⟨-,⟨_,-,-,hoffer⟩ | ⟨-,hoffer⟩⟩ <;> rw [hoffer]

lemma visit_inside {b : Beam} (h : ∀ i ∈ b.visited, i < g.nodes.length) (nb : ℕ) :
    ∀ i ∈ (g.visit sim ef b nb).visited, i < g.nodes.length := by
  unfold visit
  split_ifs with hskip
  · exact h
  · rw [visited_offer]
    intro i hi
    rcases List.mem_cons.mp hi with rfl | hi
    · exact not_le.mp (not_or.mp hskip).1
    · exact h i hi

lemma walkLayer_inside (fuel : ℕ) {b : Beam} (h : ∀ i ∈ b.visited, i < g.nodes.length) :
    ∀ i ∈ (g.walkLayer sim layer ef fuel b).visited, i < g.nodes.length := by
  induction fuel generalizing b with
  | zero => exact h
  | succ fuel ih =>
    rw [walkLayer]
    cases best b.cand with
    | none => exact h
    | some c =>
      dsimp only
      split_ifs
      · exact h
      · apply ih
        apply List.foldlRecOn (motive := fun d : Beam => ∀ i ∈ d.visited, i < g.nodes.length)
        · exact h
        · exact fun d hd nb _ => visit_inside hd nb

/-- Only nodes of the graph are found. -/
lemma searchLayer_lt (sim : ℕ → ℚ) (layer ef : ℕ) {entry : ℕ} (hentry : entry < g.nodes.length) :
    ∀ i ∈ g.searchLayer sim entry layer ef, i < g.nodes.length := by
  intro i hi
  obtain ⟨c,hc,rfl⟩ := List.mem_map.mp hi
  have hstart : Beam.Tidy ⟨[(sim entry,entry)],[(sim entry,entry)],[entry]⟩ :=
    ⟨List.nodup_singleton _,by simp⟩
  apply walkLayer_inside (g.nodes.length+1)
    (b := ⟨[(sim entry,entry)],[(sim entry,entry)],[entry]⟩)
  · intro j hj
    rw [List.mem_singleton.mp hj]
    exact hentry
  · exact (hstart.walkLayer _).seen c ((List.mem_insertionSort _).mp hc)

lemma descend_lt (sim : ℕ → ℚ) (layers : ℕ) {current : ℕ} (h : current < g.nodes.length) :
    g.descend sim layers current < g.nodes.length := by
  induction layers generalizing current with
  | zero => exact h
  | succ layers ih =>
    apply ih
    cases hfound : g.searchLayer sim current (layers+1) 1 with
    | nil => exact h
    | cons i rest =>
      exact searchLayer_lt sim (layers+1) 1 h i (hfound ▸ List.mem_cons_self)

lemma visit_ne_nil {b : Beam} (h : b.result ≠ []) (nb : ℕ) :
    (g.visit sim ef b nb).result ≠ [] := by
  unfold visit
  split_ifs with hskip
  · exact h
  · rcases offer_cases { b with visited := nb::b.visited } ef (sim nb,nb) with
      ⟨-,hoffer⟩ | ⟨-,⟨_,-,-,hoffer⟩ | ⟨-,hoffer⟩⟩
    · rw [hoffer]
      exact List.cons_ne_nil _ _
    · rw [hoffer]
      exact List.cons_ne_nil _ _
    · rw [hoffer]
      exact h

lemma walkLayer_ne_nil (fuel : ℕ) {b : Beam} (h : b.result ≠ []) :
    (g.walkLayer sim layer ef fuel b).result ≠ [] := by
  induction fuel generalizing b with
  | zero => exact h
  | succ fuel ih =>
    rw [walkLayer]
    cases best b.cand with
    | none => exact h
    | some c =>
      dsimp only
      split_ifs
      · exact h
      · apply ih
        apply List.foldlRecOn (motive := fun d : Beam => d.result ≠ [])
        · exact h
        · exact fun d hd nb _ => visit_ne_nil hd nb

/-- A walk takes at least one node. -/
lemma searchLayer_ne_nil (sim : ℕ → ℚ) (entry layer ef : ℕ) :
    g.searchLayer sim entry layer ef ≠ [] := by
  unfold searchLayer
  dsimp only
  rw [Ne,List.map_eq_nil_iff,← List.length_eq_zero_iff,List.length_insertionSort,
    List.length_eq_zero_iff]
  exact walkLayer_ne_nil _ (List.cons_ne_nil _ _)

/-- What has been seen is connected to where the walk began. -/
structure Beam.Connected (g : HnswIndex) (layer start : ℕ) (b : Beam) : Prop where
  seen : ∀ i ∈ b.visited, Relation.ReflTransGen (g.Edge layer) start i
  queued : ∀ c ∈ b.cand, c.2 ∈ b.visited

lemma Beam.Connected.visit {start : ℕ} {b : Beam} (h : b.Connected g layer start) {nb : ℕ}
    (hnb : nb < g.nodes.length → Relation.ReflTransGen (g.Edge layer) start nb) :
    (g.visit sim ef b nb).Connected g layer start := by
  unfold HnswIndex.visit
  split_ifs with hskip
  · exact h
  · have hlt : nb < g.nodes.length := not_le.mp (not_or.mp hskip).1
    refine ⟨?_,?_⟩
    · rw [visited_offer]
      intro i hi
      rcases List.mem_cons.mp hi with rfl | hi
      · exact hnb hlt
      · exact h.seen i hi
    · rw [visited_offer]
      intro c hc
      have hfrom : c ∈ (sim nb,nb)::b.cand := by
        rcases offer_cases { b with visited := nb::b.visited } ef (sim nb,nb) with
          ⟨-,hoffer⟩ | ⟨-,⟨_,-,-,hoffer⟩ | ⟨-,hoffer⟩⟩
        · rwa [hoffer] at hc
        · rwa [hoffer] at hc
        · rw [hoffer] at hc
          exact List.mem_cons_of_mem _ hc
      rcases List.mem_cons.mp hfrom with rfl | hc
      · exact List.mem_cons_self
      · exact List.mem_cons_of_mem _ (h.queued c hc)

lemma Beam.Connected.visitAll {start : ℕ} {b : Beam} (h : b.Connected g layer start)
    {nbs : List ℕ}
    (hnbs : ∀ nb ∈ nbs, nb < g.nodes.length → Relation.ReflTransGen (g.Edge layer) start nb) :
    (nbs.foldl (g.visit sim ef) b).Connected g layer start := by
  induction nbs generalizing b with
  | nil => exact h
  | cons nb nbs ih =>
    obtain ⟨hnb,hrest⟩ := List.forall_mem_cons.mp hnbs
    exact ih (h.visit hnb) hrest

/-- A turn goes on from a node that has been seen. -/
lemma Beam.Connected.walkLayer {start : ℕ} (fuel : ℕ) {b : Beam} (h : b.Connected g layer start) :
    (g.walkLayer sim layer ef fuel b).Connected g layer start := by
  induction fuel generalizing b with
  | zero => exact h
  | succ fuel ih =>
    rw [HnswIndex.walkLayer]
    cases hbest : best b.cand with
    | none => exact h
    | some c =>
      dsimp only
      split_ifs
      · exact h
      · have htake : Beam.Connected g layer start { b with cand := b.cand.erase c } :=
          ⟨h.seen,fun d hd => h.queued d (List.mem_of_mem_erase hd)⟩
        have hfrom := h.seen c.2 (h.queued c (mem_of_best hbest))
        exact ih (htake.visitAll fun nb hnb hlt => hfrom.tail ⟨hnb,hlt⟩)

/-- Only nodes that are connected to the entry are found. -/
theorem reach_of_mem_searchLayer (sim : ℕ → ℚ) (layer ef entry : ℕ) :
    ∀ i ∈ g.searchLayer sim entry layer ef, Relation.ReflTransGen (g.Edge layer) entry i := by
  have hstart : Beam.Connected g layer entry ⟨[(sim entry,entry)],[(sim entry,entry)],[entry]⟩ := by
    refine ⟨?_,?_⟩
    · intro i hi
      rw [List.mem_singleton.mp hi]
    · intro c hc
      rw [List.mem_singleton.mp hc]
      exact List.mem_singleton_self _
  have htidy : Beam.Tidy ⟨[(sim entry,entry)],[(sim entry,entry)],[entry]⟩ :=
    ⟨List.nodup_singleton _,by simp⟩
  intro i hi
  obtain ⟨c,hc,rfl⟩ := List.mem_map.mp hi
  have hseen := (htidy.walkLayer (g.nodes.length+1)).seen c ((List.mem_insertionSort _).mp hc)
  exact (hstart.walkLayer (g.nodes.length+1)).seen c.2 hseen

/-- The node is one that a search may return. -/
def returnable (g : HnswIndex) (allow : ℕ → Bool) (i : ℕ) : Bool :=
  (g.nodes[i]?).any fun nd => allow nd.id && decide (nd.id ∉ g.deleted) && !nd.superseded

lemma length_hits (similarity : Similarity) (g : HnswIndex) (query : Vec) (allow : ℕ → Bool)
    (nodes : List ℕ) :
    (g.hits similarity query allow nodes).length = nodes.countP (g.returnable allow) := by
  unfold hits
  induction nodes with
  | nil => rfl
  | cons i nodes ih =>
    rw [List.filterMap_cons,List.countP_cons]
    cases hnode : g.nodes[i]? with
    | none => simp [returnable,hnode,ih]
    | some nd =>
      by_cases hout : allow nd.id = false ∨ nd.id ∈ g.deleted ∨ nd.superseded = true
      · have hnot : g.returnable allow i = false := by
          simp only [returnable,hnode,Option.any_some]
          rcases hout with h | h | h <;> simp [h]
        simp [hout,hnot,ih]
      · have hyes : g.returnable allow i = true := by
          obtain ⟨ha,hrest⟩ := not_or.mp hout
          obtain ⟨hd,hs⟩ := not_or.mp hrest
          simp [returnable,hnode,ha,hd,hs]
        simp [hout,hyes,ih]

/-- So many nodes are connected to the one that a search starts from. -/
def Reaches (g : HnswIndex) (start need : ℕ) : Prop := ∃ l : List ℕ, l.Nodup ∧ need ≤ l.length ∧
  ∀ i ∈ l, i < g.nodes.length ∧ Relation.ReflTransGen (g.Edge 0) start i

/-- The node on the base layer that the descent for a prepared query ends in. -/
def landing (similarity : Similarity) (g : HnswIndex) (query : Vec) : ℕ :=
  g.descend (fun node => similarity.walk g.config
    ((g.nodes[node]?).elim [] HnswNode.vector) query) g.maxLayer.toNat g.entry

/-- How near a walk takes a node to be to a prepared query. -/
def nearness (similarity : Similarity) (g : HnswIndex) (query : Vec) (node : ℕ) : ℚ :=
  similarity.walk g.config ((g.nodes[node]?).elim [] HnswNode.vector) query

/-- How many nodes that are as near as `s` may not be returned. -/
def inTheWay (similarity : Similarity) (g : HnswIndex) (query : Vec) (allow : ℕ → Bool) (s : ℚ) :
    ℕ :=
  (List.range g.nodes.length).countP fun i =>
    !g.returnable allow i && decide (s ≤ g.nearness similarity query i)

/-- For some distance the beam has room for `need` nodes beside all as near that may not be
returned, and over near ones that many can be reached that may. -/
def Serves (similarity : Similarity) (g : HnswIndex) (query : Vec) (allow : ℕ → Bool)
    (need ef : ℕ) : Prop :=
  ∃ s, g.inTheWay similarity query allow s + need ≤ ef ∧
    ∃ l : List ℕ, l.Nodup ∧ need ≤ l.length ∧ ∀ i ∈ l, g.returnable allow i = true ∧
      s ≤ g.nearness similarity query i ∧ Relation.ReflTransGen
        (g.NearEdge (g.nearness similarity query) s 0) (g.landing similarity query) i

/-- The beam has room for `need` nodes beside all that may not be returned. -/
def Roomy (g : HnswIndex) (allow : ℕ → Bool) (need ef : ℕ) : Prop :=
  (List.range g.nodes.length).countP (fun i => !g.returnable allow i) + need ≤ ef

variable {similarity : Similarity} {query : Vec} {allow : ℕ → Bool} {need : ℕ}

lemma lt_of_returnable {i : ℕ} (h : g.returnable allow i = true) : i < g.nodes.length := by
  by_contra hnot
  rw [returnable,List.getElem?_eq_none (not_lt.mp hnot)] at h
  cases h

/-- Nothing leads on from what is no node. -/
lemma eq_of_reach {start i : ℕ} (hstart : g.nodes.length ≤ start)
    (h : Relation.ReflTransGen (g.Edge layer) start i) : i = start := by
  induction h with
  | refl => rfl
  | tail _ hedge ih =>
    obtain ⟨hnb,-⟩ := hedge
    rw [ih,neighbours,List.getElem?_eq_none hstart] at hnb
    cases hnb

/-- What a search of such a graph looks at is enough. -/
theorem Serves.le_length_hits (h : g.Serves similarity query allow need ef) :
    need ≤ (g.hits similarity query allow (g.candidates similarity query ef)).length := by
  obtain ⟨s,hwidth,l,hl,hneed,hmem⟩ := h
  rw [length_hits,candidates]
  change need ≤ (g.searchLayer (g.nearness similarity query) (g.landing similarity query) 0
    ef).countP (g.returnable allow)
  set found := g.searchLayer (g.nearness similarity query) (g.landing similarity query) 0 ef
  by_cases hstart : g.landing similarity query < g.nodes.length
  · rcases searchLayer_near (g.nearness similarity query) s 0 ef hstart with ⟨hfull,hnear⟩ | hall
    · -- the near nodes found that may not be returned are not more than there are
      have hout : found.countP (fun i => !g.returnable allow i) ≤
          g.inTheWay similarity query allow s := by
        calc found.countP (fun i => !g.returnable allow i)
            = found.countP fun i =>
                !g.returnable allow i && decide (s ≤ g.nearness similarity query i) := by
              refine List.countP_congr fun i hi => ?_
              simp [hnear i hi]
          _ ≤ g.inTheWay similarity query allow s :=
              (List.subperm_of_subset (searchLayer_nodup _ _ _ _ _) fun i hi =>
                List.mem_range.mpr (searchLayer_lt _ 0 ef hstart i hi)).countP_le _
      have hcount := countP_not (p := g.returnable allow) found
      change ef ≤ found.length at hfull
      omega
    · have hsub : l.Subperm found := List.subperm_of_subset hl fun i hi =>
        hall i (hmem i hi).2.2 (hmem i hi).2.1
      calc need ≤ l.length := hneed
        _ = l.countP (g.returnable allow) :=
          (List.countP_eq_length.mpr fun i hi => (hmem i hi).1).symm
        _ ≤ found.countP (g.returnable allow) := hsub.countP_le _
  · -- every node of the list would be where the search starts, which is none
    have hnone : l = [] := by
      apply List.eq_nil_iff_forall_not_mem.mpr
      intro i hi
      obtain ⟨hreturn,-,hpath⟩ := hmem i hi
      have heq := eq_of_reach (not_lt.mp hstart)
        (Relation.ReflTransGen.mono (fun _ _ hedge => hedge.1) _ _ hpath)
      exact hstart (heq ▸ lt_of_returnable hreturn)
    rw [hnone] at hneed
    exact hneed.trans (Nat.zero_le _)

/-- A beam with room does not ask which nodes are near. -/
lemma serves_iff_reach (hroom : g.Roomy allow need ef) :
    g.Serves similarity query allow need ef ↔ ∃ l : List ℕ, l.Nodup ∧ need ≤ l.length ∧
      ∀ i ∈ l, g.returnable allow i = true ∧
        Relation.ReflTransGen (g.Edge 0) (g.landing similarity query) i := by
  constructor
  · rintro ⟨s,-,l,hl,hneed,hmem⟩
    refine ⟨l,hl,hneed,fun i hi => ?_⟩
    obtain ⟨hreturn,-,hpath⟩ := hmem i hi
    exact ⟨hreturn,Relation.ReflTransGen.mono (fun _ _ hedge => hedge.1) _ _ hpath⟩
  · rintro ⟨l,hl,hneed,hmem⟩
    obtain ⟨s,hs⟩ := ((Finset.range g.nodes.length).image
      fun i => -g.nearness similarity query i).exists_le
    have hnear : ∀ i < g.nodes.length, -s ≤ g.nearness similarity query i := fun i hi =>
      neg_le.mp (hs _ (Finset.mem_image_of_mem _ (Finset.mem_range.mpr hi)))
    refine ⟨-s,?_,l,hl,hneed,fun i hi => ?_⟩
    · refine le_trans ?_ hroom
      refine Nat.add_le_add_right (List.countP_mono_left fun i _ hi => ?_) need
      exact (Bool.and_eq_true_iff.mp hi).1
    · obtain ⟨hreturn,hpath⟩ := hmem i hi
      exact ⟨hreturn,hnear i (lt_of_returnable hreturn),
        Relation.ReflTransGen.mono (fun _ j hedge => ⟨hedge,hnear j hedge.2⟩) _ _ hpath⟩

/-- A beam with room finds so many nodes just where they can be reached. -/
theorem le_length_hits_iff_serves (hroom : g.Roomy allow need ef) :
    need ≤ (g.hits similarity query allow (g.candidates similarity query ef)).length ↔
      g.Serves similarity query allow need ef := by
  refine ⟨fun hfound => (serves_iff_reach hroom).mpr ?_,Serves.le_length_hits⟩
  rw [length_hits,List.countP_eq_length_filter] at hfound
  refine ⟨_,(candidates_nodup similarity g query ef).filter _,hfound,fun i hi => ?_⟩
  obtain ⟨hmem,hreturn⟩ := List.mem_filter.mp hi
  exact ⟨hreturn,reach_of_mem_searchLayer _ 0 ef _ i hmem⟩

/-- Where all nodes may be returned, a beam that has room for so many finds them just when they can
be reached. -/
theorem le_length_hits_iff {allow : ℕ → Bool} {need : ℕ}
    (hall : ∀ i < g.nodes.length, g.returnable allow i = true) (hef : need ≤ ef)
    (similarity : Similarity) (query : Vec) :
    need ≤ (g.hits similarity query allow (g.candidates similarity query ef)).length ↔
      g.Reaches (g.landing similarity query) need := by
  have hroom : g.Roomy allow need ef := by
    have hnone : (List.range g.nodes.length).countP (fun i => !g.returnable allow i) = 0 :=
      List.countP_eq_zero.mpr fun i hi => by simp [hall i (List.mem_range.mp hi)]
    rw [Roomy,hnone,Nat.zero_add]
    exact hef
  rw [le_length_hits_iff_serves hroom,serves_iff_reach hroom]
  exact exists_congr fun l => and_congr_right fun _ => and_congr_right fun _ =>
    forall₂_congr fun i _ => and_congr_left fun _ => ⟨lt_of_returnable,hall i⟩

end HnswIndex
end RagRuntime.Index
