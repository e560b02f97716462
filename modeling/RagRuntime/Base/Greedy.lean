import Mathlib.Data.List.Perm.Subperm
import Mathlib.Data.Nat.Basic
import Mathlib.Order.Lattice
import RagRuntime.Base.Selection

/-! Choosing greedily: every choice is the first of the best positions that are left, in view of the
choices before it. -/
namespace RagRuntime.Base

variable {K : Type*} [LinearOrder K] {n : ℕ}

/-- The first of the positions below `n` with the best score, leaving out those that are used. -/
structure FirstBest (score : ℕ → K) (used : List ℕ) (n i : ℕ) : Prop where
  lt : i < n
  unused : i ∉ used
  best : ∀ j < n, j ∉ used → score j ≤ score i
  first : ∀ j < i, j ∉ used → score j < score i

lemma FirstBest.unique {score : ℕ → K} {used : List ℕ} {i j : ℕ} (hi : FirstBest score used n i)
    (hj : FirstBest score used n j) : i = j := by
  obtain hlt | heq | hlt := lt_trichotomy i j
  · exact absurd (hj.first i hlt hi.unused) (hi.best j hj.lt hj.unused).not_gt
  · exact heq
  · exact absurd (hi.first j hlt hj.unused) (hj.best i hi.lt hi.unused).not_gt

/-- Only the scores of positions that are left matter. -/
lemma FirstBest.congr {score score' : ℕ → K} {used : List ℕ} {i : ℕ}
    (h : FirstBest score used n i) (heq : ∀ j < n, j ∉ used → score j = score' j) :
    FirstBest score' used n i where
  lt := h.lt
  unused := h.unused
  best j hj hunused := by
    rw [← heq j hj hunused,← heq i h.lt h.unused]
    exact h.best j hj hunused
  first j hj hunused := by
    rw [← heq j (hj.trans h.lt) hunused,← heq i h.lt h.unused]
    exact h.first j hj hunused

/-- Every choice is the first best one in view of those before it. -/
def Greedy (score : List ℕ → ℕ → K) (n : ℕ) (order : List ℕ) : Prop :=
  ∀ m i, order[m]? = some i → FirstBest (score (order.take m)) (order.take m) n i

variable {score score' : List ℕ → ℕ → K} {order order' : List ℕ}

lemma greedy_nil : Greedy score n [] := fun _ _ h => nomatch h

lemma Greedy.lt (h : Greedy score n order) : ∀ i ∈ order, i < n := by
  intro i hi
  obtain ⟨m,hm⟩ := List.mem_iff_getElem?.mp hi
  exact (h m i hm).lt

lemma Greedy.nodup (h : Greedy score n order) : order.Nodup := by
  rw [List.nodup_iff_pairwise_ne,List.pairwise_iff_getElem]
  intro a b ha hb hab heq
  refine (h b _ (List.getElem?_eq_getElem hb)).unused ?_
  rw [← heq]
  exact List.mem_take_iff_getElem.mpr ⟨a,by omega,rfl⟩

lemma Greedy.length_le (h : Greedy score n order) : order.length ≤ n := by
  have hsub : order ⊆ List.range n := fun i hi => List.mem_range.mpr (h.lt i hi)
  simpa using (h.nodup.subperm hsub).length_le

lemma Greedy.append (h : Greedy score n order) {i : ℕ} (hi : FirstBest (score order) order n i) :
    Greedy score n (order ++ [i]) := by
  intro m j hj
  obtain hlt | hle := lt_or_ge m order.length
  · rw [List.getElem?_append_left hlt] at hj
    rw [List.take_append_of_le_length hlt.le]
    exact h m j hj
  · rw [List.getElem?_append_right hle,List.getElem?_singleton] at hj
    split_ifs at hj with hm
    obtain rfl := Option.some.inj hj
    have heq : m = order.length := by omega
    rw [heq,List.take_left']
    · exact hi
    · rfl

lemma Greedy.congr (h : Greedy score n order)
    (heq : ∀ chosen, (∀ i ∈ chosen, i < n) → ∀ j < n, j ∉ chosen →
      score chosen j = score' chosen j) : Greedy score' n order := by
  intro m i hi
  refine (h m i hi).congr (heq _ ?_)
  exact fun j hj => h.lt j (List.mem_of_mem_take hj)

/-- There is one greedy order of each length. -/
theorem Greedy.unique (h : Greedy score n order) (h' : Greedy score n order')
    (hlength : order.length = order'.length) : order = order' := by
  have htake : ∀ m, order.take m = order'.take m := by
    intro m
    induction m with
    | zero => rfl
    | succ m ih =>
      rw [List.take_add_one,List.take_add_one,ih]
      congr 1
      cases hm : order[m]? with
      | none =>
        rw [List.getElem?_eq_none_iff,hlength] at hm
        rw [List.getElem?_eq_none_iff.mpr hm]
      | some i =>
        obtain ⟨j,hj⟩ : ∃ j, order'[m]? = some j := by
          have hlt := (List.getElem?_eq_some_iff.mp hm).1
          exact ⟨order'[m],List.getElem?_eq_getElem (hlength ▸ hlt)⟩
        have hbest := h m i hm
        rw [ih] at hbest
        rw [hj,hbest.unique (h' m j hj)]
  have hall := htake order.length
  rwa [List.take_length,hlength,List.take_length] at hall

/-- A choice that finds the first best position as long as one is left makes a greedy order of as
many positions as there are to choose. -/
theorem greedy_select {next : List ℕ → Option ℕ}
    (hsome : ∀ chosen i, Greedy score n chosen → next chosen = some i →
      FirstBest (score chosen) chosen n i)
    (hnone : ∀ chosen, Greedy score n chosen → next chosen = none → ∀ j < n, j ∈ chosen) (k : ℕ)
    (h : Greedy score n order) :
    Greedy score n (select next k order) ∧
      (select next k order).length = min (order.length+k) n := by
  induction k generalizing order with
  | zero => exact ⟨h,(Nat.min_eq_left h.length_le).symm⟩
  | succ k ih =>
    rw [select]
    cases hnext : next order with
    | none =>
      have hall : List.range n ⊆ order := fun j hj => hnone order h hnext j (List.mem_range.mp hj)
      have hle := (List.nodup_range.subperm hall).length_le
      rw [List.length_range] at hle
      refine ⟨h,?_⟩
      have := h.length_le
      dsimp only
      omega
    | some i =>
      obtain ⟨hgreedy,hlength⟩ := ih (h.append (hsome order i h hnext))
      refine ⟨hgreedy,hlength.trans ?_⟩
      rw [List.length_append,List.length_singleton]
      congr 1
      omega

end RagRuntime.Base
