import Mathlib.Algebra.Order.BigOperators.Group.List
import RagRuntime.Base.Tally
import RagRuntime.Base.TopK

/-! Fusing rankings: each of them credits its members by their places, and the members are ordered
by what they are credited in all. -/
namespace RagRuntime.Base

/-- A ranking, and what it credits at each place. -/
structure Ranking (ι K : Type*) where
  members : List ι
  credit : ℕ → K

variable {ι K : Type*}

def Ranking.credits (r : Ranking ι K) : List (ι × K) :=
  r.members.zipIdx.map fun e => (e.1,r.credit e.2)

lemma Ranking.map_fst_credits (r : Ranking ι K) : r.credits.map Prod.fst = r.members := by
  rw [Ranking.credits,List.map_map]
  exact List.zipIdx_map_fst 0 r.members

/-- The credits of all rankings. -/
def allCredits (rs : List (Ranking ι K)) : List (ι × K) := rs.flatMap Ranking.credits

lemma mem_map_fst_allCredits {rs : List (Ranking ι K)} {i : ι} :
    i ∈ (allCredits rs).map Prod.fst ↔ ∃ r ∈ rs, i ∈ r.members := by
  rw [allCredits,List.map_flatMap,List.mem_flatMap]
  simp only [Ranking.map_fst_credits]

/-- `i` is in every ranking that has `j`, and ahead of it. -/
def Outranks [DecidableEq ι] (rs : List (Ranking ι K)) (i j : ι) : Prop :=
  ∀ r ∈ rs, j ∈ r.members → i ∈ r.members ∧ r.members.idxOf i < r.members.idxOf j

section scores
variable [DecidableEq ι] [AddCommGroup K]

def fusedScore (rs : List (Ranking ι K)) (i : ι) : K := tally (allCredits rs) i

/-- A member that is not repeated is credited for its place. -/
lemma Ranking.tally_credits {r : Ranking ι K} (h : r.members.Nodup) (i : ι) :
    tally r.credits i = if i ∈ r.members then r.credit (r.members.idxOf i) else 0 := by
  split_ifs with hi
  · have hplace : (i,r.members.idxOf i) ∈ r.members.zipIdx := by
      rw [List.mk_mem_zipIdx_iff_getElem?]
      exact List.getElem?_idxOf hi
    have hcredit : (i,r.credit (r.members.idxOf i)) ∈ r.credits :=
      List.mem_map.mpr ⟨_,hplace,rfl⟩
    exact tally_of_mem (by rwa [r.map_fst_credits]) hcredit
  · exact tally_of_not_mem (by rwa [r.map_fst_credits])

variable [LinearOrder K] [IsOrderedAddMonoid K]

/-- What is ahead in every ranking is ahead in all. -/
theorem fusedScore_lt {rs : List (Ranking ι K)} (hnodup : ∀ r ∈ rs, r.members.Nodup)
    (hanti : ∀ r ∈ rs, StrictAnti r.credit) (hpos : ∀ r ∈ rs, ∀ n, 0 < r.credit n) {i j : ι}
    (h : Outranks rs i j) (hj : ∃ r ∈ rs, j ∈ r.members) : fusedScore rs j < fusedScore rs i := by
  have hlt : ∀ r ∈ rs, j ∈ r.members → tally r.credits j < tally r.credits i := by
    intro r hr hmem
    obtain ⟨hi,hahead⟩ := h r hr hmem
    rw [r.tally_credits (hnodup r hr),r.tally_credits (hnodup r hr),if_pos hmem,if_pos hi]
    exact hanti r hr hahead
  rw [fusedScore,fusedScore,allCredits,tally_flatMap,tally_flatMap]
  apply List.sum_lt_sum
  · intro r hr
    by_cases hmem : j ∈ r.members
    · exact (hlt r hr hmem).le
    · rw [r.tally_credits (hnodup r hr),r.tally_credits (hnodup r hr),if_neg hmem]
      split_ifs
      · exact (hpos r hr _).le
      · exact le_rfl
  · obtain ⟨r,hr,hmem⟩ := hj
    exact ⟨r,hr,hlt r hr hmem⟩

end scores

section order
variable [LinearOrder ι] [LinearOrder K]

/-- Score descending, then by the members' own order. -/
def FusedOrder (a b : ι × K) : Prop := b.2 < a.2 ∨ a.2 = b.2 ∧ a.1 ≤ b.1

instance : DecidableRel (FusedOrder (ι := ι) (K := K)) := fun a b => by
  unfold FusedOrder
  infer_instance

instance : Std.Total (FusedOrder (ι := ι) (K := K)) := ⟨fun a b => by
  unfold FusedOrder
  obtain h | h | h := lt_trichotomy a.2 b.2
  · exact Or.inr (Or.inl h)
  · exact (le_total a.1 b.1).imp (fun hk => Or.inr ⟨h,hk⟩) (fun hk => Or.inr ⟨h.symm,hk⟩)
  · exact Or.inl (Or.inl h)⟩

instance : IsTrans (ι × K) FusedOrder := ⟨fun a b c hab hbc => by
  unfold FusedOrder at *
  obtain hab | ⟨hab,hkab⟩ := hab <;> obtain hbc | ⟨hbc,hkbc⟩ := hbc
  · exact Or.inl (hbc.trans hab)
  · exact Or.inl (hbc ▸ hab)
  · exact Or.inl (hab ▸ hbc)
  · exact Or.inr ⟨hab.trans hbc,hkab.trans hkbc⟩⟩

lemma strict_fusedOrder (l : List (ι × K)) : Strict FusedOrder l := by
  intro a _ b _ hab hba
  obtain hab | ⟨hab,hkab⟩ := hab <;> obtain hba | ⟨hba,hkba⟩ := hba
  · exact absurd hab hba.asymm
  · exact absurd hba hab.ne
  · exact absurd hab hba.ne
  · exact Prod.ext (le_antisymm hkab hkba) hab

end order

section fused
variable [LinearOrder ι] [LinearOrder K] [AddCommGroup K]

/-- All members once, with their scores and in the order of them. -/
def fused (rs : List (Ranking ι K)) : List (ι × K) :=
  (((allCredits rs).map Prod.fst).dedup.map fun i => (i,fusedScore rs i)).insertionSort FusedOrder

lemma fused_perm (rs : List (Ranking ι K)) : (fused rs).Perm
    (((allCredits rs).map Prod.fst).dedup.map fun i => (i,fusedScore rs i)) :=
  List.perm_insertionSort _ _

omit [LinearOrder K] in
lemma nodup_map_fst_score (rs : List (Ranking ι K)) :
    ((((allCredits rs).map Prod.fst).dedup.map fun i => (i,fusedScore rs i)).map
      Prod.fst).Nodup := by
  rw [List.map_map]
  exact (List.nodup_dedup _).map fun _ _ h => h

lemma nodup_fused (rs : List (Ranking ι K)) : ((fused rs).map Prod.fst).Nodup :=
  ((fused_perm rs).map Prod.fst).nodup_iff.mpr (nodup_map_fst_score rs)

lemma mem_fused {rs : List (Ranking ι K)} {e : ι × K} :
    e ∈ fused rs ↔ (∃ r ∈ rs, e.1 ∈ r.members) ∧ e.2 = fusedScore rs e.1 := by
  rw [(fused_perm rs).mem_iff,List.mem_map]
  constructor
  · rintro ⟨i,hi,rfl⟩
    exact ⟨mem_map_fst_allCredits.mp (List.mem_dedup.mp hi),rfl⟩
  · rintro ⟨hmem,hscore⟩
    exact ⟨e.1,List.mem_dedup.mpr (mem_map_fst_allCredits.mpr hmem),Prod.ext rfl hscore.symm⟩

lemma mem_map_fst_fused {rs : List (Ranking ι K)} {i : ι} :
    i ∈ (fused rs).map Prod.fst ↔ ∃ r ∈ rs, i ∈ r.members := by
  rw [List.mem_map]
  constructor
  · rintro ⟨e,he,rfl⟩
    exact (mem_fused.mp he).1
  · intro h
    exact ⟨(i,fusedScore rs i),mem_fused.mpr ⟨h,rfl⟩,rfl⟩

/-- The map of all credits, put in order. -/
theorem insertionSort_entries_foldl (rs : List (Ranking ι K)) :
    ((allCredits rs).foldl (fun (m : OrdMap ι K) e =>
      m.insert e.1 ((m.find? e.1).getD 0 + e.2)) ∅).entries.insertionSort FusedOrder =
        fused rs := by
  refine insertionSort_eq_of_perm (strict_fusedOrder _) ?_
  rw [List.perm_ext_iff_of_nodup (List.Nodup.of_map Prod.fst (OrdMap.keys_nodup _))
    (List.Nodup.of_map Prod.fst (nodup_map_fst_score rs))]
  rintro ⟨i,s⟩
  rw [← OrdMap.find?_eq_some,find?_foldl_add]
  split_ifs with hi
  · constructor
    · intro heq
      cases heq
      exact List.mem_map.mpr ⟨i,List.mem_dedup.mpr hi,rfl⟩
    · intro hmem
      obtain ⟨j,-,heq⟩ := List.mem_map.mp hmem
      cases heq
      rfl
  · refine iff_of_false (fun h => by cases h) ?_
    intro hmem
    obtain ⟨j,hj,heq⟩ := List.mem_map.mp hmem
    cases heq
    exact hi (List.mem_dedup.mp hj)

/-- Members stand in the order of their scores. -/
lemma pairwise_fused (rs : List (Ranking ι K)) :
    ((fused rs).map Prod.fst).Pairwise fun i j => fusedScore rs j ≤ fusedScore rs i := by
  rw [List.pairwise_map]
  refine (List.pairwise_insertionSort FusedOrder _).imp_of_mem ?_
  intro a b ha hb hab
  rw [← (mem_fused.mp ha).2,← (mem_fused.mp hb).2]
  exact hab.elim le_of_lt fun h => h.1.ge

omit [AddCommGroup K] in
/-- In a list that is ordered by scores a higher score is ahead. -/
lemma idxOf_lt_of_score {l : List ι} {score : ι → K} (h : l.Pairwise fun i j => score j ≤ score i)
    {i j : ι} (hi : i ∈ l) (hlt : score j < score i) : l.idxOf i < l.idxOf j := by
  by_contra hnot
  have hplace := List.idxOf_lt_length_of_mem hi
  obtain heq | hahead := (not_lt.mp hnot).eq_or_lt
  · have hj : j ∈ l := List.idxOf_lt_length_iff.mp (heq ▸ hplace)
    exact hlt.ne (congrArg score ((List.idxOf_inj hj).mp heq))
  · have hle := List.pairwise_iff_getElem.mp h _ _ (hahead.trans hplace) hplace hahead
    rw [List.getElem_idxOf,List.getElem_idxOf] at hle
    exact absurd hlt hle.not_gt

/-- A member among the first is there with everything that outranks it, and behind it. -/
theorem outranks_take [IsOrderedAddMonoid K] {rs : List (Ranking ι K)}
    (hnodup : ∀ r ∈ rs, r.members.Nodup) (hanti : ∀ r ∈ rs, StrictAnti r.credit)
    (hpos : ∀ r ∈ rs, ∀ n, 0 < r.credit n) {i j : ι} (h : Outranks rs i j) {k : ℕ}
    (hj : j ∈ ((fused rs).take k).map Prod.fst) :
    i ∈ ((fused rs).take k).map Prod.fst ∧ (((fused rs).take k).map Prod.fst).idxOf i <
      (((fused rs).take k).map Prod.fst).idxOf j := by
  rw [List.map_take] at hj ⊢
  have hmem := List.mem_of_mem_take hj
  obtain ⟨r,hr,hin⟩ := mem_map_fst_fused.mp hmem
  have hlt : fusedScore rs j < fusedScore rs i := fusedScore_lt hnodup hanti hpos h ⟨r,hr,hin⟩
  have hi : i ∈ (fused rs).map Prod.fst := mem_map_fst_fused.mpr ⟨r,hr,(h r hr hin).1⟩
  have hsorted := pairwise_fused rs
  have htake : i ∈ ((fused rs).map Prod.fst).take k := by
    rw [List.mem_take_iff_idxOf_lt hi]
    exact (idxOf_lt_of_score hsorted hi hlt).trans ((List.mem_take_iff_idxOf_lt hmem).mp hj)
  exact ⟨htake,idxOf_lt_of_score (hsorted.sublist (List.take_sublist _ _)) htake hlt⟩

end fused

section names
variable {κ : Type*}

def Ranking.rename (φ : ι → κ) (r : Ranking ι K) : Ranking κ K := ⟨r.members.map φ,r.credit⟩

lemma allCredits_rename (φ : ι → κ) (rs : List (Ranking ι K)) :
    allCredits (rs.map (Ranking.rename φ)) = (allCredits rs).map (Prod.map φ id) := by
  rw [allCredits,allCredits,List.flatMap_map,List.map_flatMap]
  congr 1
  funext r
  rw [Ranking.credits,Ranking.credits,Ranking.rename,List.zipIdx_map,List.map_map,List.map_map]
  rfl

variable [LinearOrder ι] [LinearOrder κ] [AddCommGroup K]

lemma fusedScore_rename {φ : ι → κ} (hφ : Function.Injective φ) (rs : List (Ranking ι K)) (i : ι) :
    fusedScore (rs.map (Ranking.rename φ)) (φ i) = fusedScore rs i := by
  rw [fusedScore,fusedScore,allCredits_rename,tally,tally,List.filter_map,List.map_map]
  simp only [Function.comp_def,Prod.map_fst,hφ.eq_iff,Prod.map_snd,id_eq]

/-- Names that keep the order of the members keep the order of the ranking. -/
theorem fused_rename [LinearOrder K] {φ : ι → κ} (hφ : StrictMono φ) (rs : List (Ranking ι K)) :
    fused (rs.map (Ranking.rename φ)) = (fused rs).map (Prod.map φ id) := by
  have hperm : (fused (rs.map (Ranking.rename φ))).Perm ((fused rs).map (Prod.map φ id)) := by
    refine (fused_perm _).trans (List.Perm.trans (.of_eq ?_) ((fused_perm rs).symm.map _))
    have hfst : (allCredits (rs.map (Ranking.rename φ))).map Prod.fst =
        ((allCredits rs).map Prod.fst).map φ := by
      rw [allCredits_rename,List.map_map,List.map_map]
      rfl
    rw [hfst,List.dedup_map_of_injective hφ.injective,List.map_map,List.map_map]
    refine List.map_congr_left fun i _ => ?_
    exact Prod.ext rfl (fusedScore_rename hφ.injective rs i)
  refine hperm.eq_of_pairwise (fun a b ha hb => strict_fusedOrder _ a ha b (hperm.mem_iff.mpr hb))
    (List.pairwise_insertionSort _ _) ?_
  rw [List.pairwise_map]
  refine (List.pairwise_insertionSort FusedOrder _).imp ?_
  rintro a b (hlt | ⟨heq,hle⟩)
  · exact Or.inl hlt
  · exact Or.inr ⟨heq,hφ.monotone hle⟩

end names

end RagRuntime.Base
