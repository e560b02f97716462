import Mathlib.Algebra.BigOperators.Group.Finset.Basic
import Mathlib.Algebra.Order.Monoid.Unbundled.Basic
import Mathlib.Data.List.Induction
import RagRuntime.Base.OrdMap

/-! Adding up the values of a list of entries key by key. -/
namespace RagRuntime.Base

variable {ι K : Type*} [DecidableEq ι]

section sums
variable [AddCommMonoid K]

/-- What the entries of a key add up to. -/
def tally (l : List (ι × K)) (i : ι) : K := ((l.filter fun e => e.1 = i).map Prod.snd).sum

@[simp] lemma tally_nil (i : ι) : tally ([] : List (ι × K)) i = 0 := rfl

lemma tally_cons (e : ι × K) (l : List (ι × K)) (i : ι) :
    tally (e::l) i = (if e.1 = i then e.2 else 0) + tally l i := by
  by_cases h : e.1 = i <;> simp [tally,h]

lemma tally_append (l l' : List (ι × K)) (i : ι) : tally (l ++ l') i = tally l i + tally l' i := by
  simp [tally]

lemma tally_flatMap {α : Type*} (f : α → List (ι × K)) (as : List α) (i : ι) :
    tally (as.flatMap f) i = (as.map fun a => tally (f a) i).sum := by
  induction as with
  | nil => rfl
  | cons a as ih => rw [List.flatMap_cons,tally_append,ih,List.map_cons,List.sum_cons]

lemma tally_of_not_mem {l : List (ι × K)} {i : ι} (h : i ∉ l.map Prod.fst) : tally l i = 0 := by
  have hnone : (l.filter fun e => e.1 = i) = [] := by
    rw [List.filter_eq_nil_iff]
    intro e he hi
    exact h (List.mem_map.mpr ⟨e,he,by simpa using hi⟩)
  rw [tally,hnone]
  rfl

/-- With one entry for a key its value is the tally. -/
lemma tally_of_mem {l : List (ι × K)} (hl : (l.map Prod.fst).Nodup) {e : ι × K} (he : e ∈ l) :
    tally l e.1 = e.2 := by
  induction l with
  | nil => cases he
  | cons a l ih =>
    obtain ⟨hnot,hl⟩ := List.nodup_cons.mp hl
    rw [tally_cons]
    obtain rfl | he := List.mem_cons.mp he
    · rw [if_pos rfl,tally_of_not_mem hnot,add_zero]
    · have hne : a.1 ≠ e.1 := fun h => hnot (h ▸ List.mem_map_of_mem he)
      rw [if_neg hne,ih hl he,zero_add]

/-- Elements that count for nothing do not matter to a sum. -/
lemma sum_map_congr_count [inst : BEq ι] [LawfulBEq ι] {f : ι → K} {l l' : List ι}
    (h : ∀ t, f t ≠ 0 → l.count t = l'.count t) : (l.map f).sum = (l'.map f).sum := by
  obtain rfl : inst = instBEqOfDecidableEq := lawful_beq_subsingleton _ _
  have hzero : ∀ l : List ι, ∀ t ∉ l.toFinset, l.count t • f t = 0 := by
    intro l t ht
    rw [List.count_eq_zero.mpr (fun hin => ht (List.mem_toFinset.mpr hin)),zero_nsmul]
  calc (l.map f).sum = ∑ t ∈ l.toFinset, l.count t • f t := Finset.sum_list_map_count l f
    _ = ∑ t ∈ l.toFinset ∪ l'.toFinset, l.count t • f t :=
        Finset.sum_subset Finset.subset_union_left fun t _ ht => hzero l t ht
    _ = ∑ t ∈ l.toFinset ∪ l'.toFinset, l'.count t • f t := by
        apply Finset.sum_congr rfl
        intro t _
        by_cases hf : f t = 0
        · rw [hf,nsmul_zero,nsmul_zero]
        · rw [h t hf]
    _ = ∑ t ∈ l'.toFinset, l'.count t • f t :=
        (Finset.sum_subset Finset.subset_union_right fun t _ ht => hzero l' t ht).symm
    _ = (l'.map f).sum := (Finset.sum_list_map_count l' f).symm

end sums

section signs
variable [AddCommMonoid K] [PartialOrder K] [AddLeftMono K]

lemma tally_nonneg {l : List (ι × K)} (h : ∀ e ∈ l, 0 < e.2) (i : ι) : 0 ≤ tally l i := by
  induction l with
  | nil => exact le_rfl
  | cons a l ih =>
    rw [tally_cons]
    have htail := ih fun e he => h e (List.mem_cons_of_mem _ he)
    split_ifs
    · exact add_nonneg (h a List.mem_cons_self).le htail
    · rwa [zero_add]

/-- Positive entries leave a trace. -/
lemma tally_pos {l : List (ι × K)} (h : ∀ e ∈ l, 0 < e.2) {i : ι} (hi : i ∈ l.map Prod.fst) :
    0 < tally l i := by
  induction l with
  | nil => cases hi
  | cons a l ih =>
    have htail : ∀ e ∈ l, 0 < e.2 := fun e he => h e (List.mem_cons_of_mem _ he)
    rw [tally_cons]
    split_ifs with hai
    · exact add_pos_of_pos_of_nonneg (h a List.mem_cons_self) (tally_nonneg htail i)
    · rw [List.map_cons,List.mem_cons] at hi
      rw [zero_add]
      exact ih htail (hi.resolve_left (Ne.symm hai))

lemma tally_eq_zero {l : List (ι × K)} (h : ∀ e ∈ l, 0 < e.2) {i : ι} :
    tally l i = 0 ↔ i ∉ l.map Prod.fst :=
  ⟨fun hzero hi => (tally_pos h hi).ne' hzero,tally_of_not_mem⟩

end signs

/-- The map that is filled entry by entry has the tallies of the keys that occur. -/
theorem find?_foldl_add {ι : Type*} [LinearOrder ι] [AddCommMonoid K] (l : List (ι × K)) (i : ι) :
    (l.foldl (fun (m : OrdMap ι K) e => m.insert e.1 ((m.find? e.1).getD 0 + e.2)) ∅).find? i =
      if i ∈ l.map Prod.fst then some (tally l i) else none := by
  induction l using List.reverseRecOn with
  | nil => rfl
  | append_singleton l e ih =>
    rw [List.foldl_append,List.foldl_cons,List.foldl_nil,OrdMap.find?_insert]
    have hmem : i ∈ (l ++ [e]).map Prod.fst ↔ i ∈ l.map Prod.fst ∨ i = e.1 := by simp
    by_cases hi : i = e.1
    · subst hi
      rw [if_pos rfl,if_pos (hmem.mpr (.inr rfl)),tally_append,tally_cons,if_pos rfl,ih]
      by_cases hold : e.1 ∈ l.map Prod.fst
      · rw [if_pos hold]
        simp
      · rw [if_neg hold,tally_of_not_mem hold]
        simp
    · rw [if_neg hi,ih,tally_append,tally_cons,if_neg (Ne.symm hi)]
      simp only [hmem,hi,or_false,tally_nil,add_zero]

end RagRuntime.Base
