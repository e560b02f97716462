import Mathlib.Data.List.Nodup
import Mathlib.Data.List.Sort
import Mathlib.Tactic.Common

/-! The first `k` elements of a list in a total order, and how they are put together from the
first `k` of its parts. Ties are excluded by an order that is antisymmetric on the members. -/
namespace RagRuntime.Base

variable {α : Type*} (r : α → α → Prop)

/-- No two different members are ranked alike. -/
def Strict (l : List α) : Prop := ∀ a ∈ l, ∀ b ∈ l, r a b → r b a → a = b

variable {r} in
lemma Strict.subset {l l' : List α} (h : Strict r l) (hs : l' ⊆ l) : Strict r l' :=
  fun a ha b hb => h a (hs ha) b (hs hb)

variable [DecidableRel r]

def topK (k : ℕ) (l : List α) : List α := (l.insertionSort r).take k

variable {r}

lemma topK_length (k : ℕ) (l : List α) : (topK r k l).length = min k l.length := by
  simp [topK]

lemma topK_subset (k : ℕ) (l : List α) : topK r k l ⊆ l := by
  intro a ha
  exact (List.mem_insertionSort r).mp (List.mem_of_mem_take ha)

lemma topK_nodup {k : ℕ} {l : List α} (h : l.Nodup) : (topK r k l).Nodup :=
  ((List.perm_insertionSort r l).nodup_iff.mpr h).sublist (List.take_sublist _ _)

variable [Std.Total r] [IsTrans α r]

lemma insertionSort_eq_of_perm {l l' : List α} (h : Strict r l) (hp : l.Perm l') :
    l.insertionSort r = l'.insertionSort r := by
  have hperm : (l.insertionSort r).Perm (l'.insertionSort r) :=
    (List.perm_insertionSort r l).trans (hp.trans (List.perm_insertionSort r l').symm)
  apply hperm.eq_of_pairwise _ (List.pairwise_insertionSort r l) (List.pairwise_insertionSort r l')
  intro a b ha hb
  exact h a ((List.mem_insertionSort r).mp ha) b (hp.mem_iff.mpr ((List.mem_insertionSort r).mp hb))

theorem topK_of_perm (k : ℕ) {l l' : List α} (h : Strict r l) (hp : l.Perm l') :
    topK r k l = topK r k l' := by
  rw [topK,topK,insertionSort_eq_of_perm h hp]

lemma insertionSort_filter {l : List α} (h : Strict r l) (p : α → Bool) :
    (l.filter p).insertionSort r = (l.insertionSort r).filter p := by
  have hperm : ((l.filter p).insertionSort r).Perm ((l.insertionSort r).filter p) :=
    (List.perm_insertionSort r _).trans ((List.perm_insertionSort r l).symm.filter p)
  apply hperm.eq_of_pairwise _ (List.pairwise_insertionSort r _)
    ((List.pairwise_insertionSort r l).filter p)
  intro a b ha hb
  have ha := List.mem_of_mem_filter ((List.mem_insertionSort r).mp ha)
  have hb := (List.mem_insertionSort r).mp (List.mem_of_mem_filter hb)
  exact h a ha b hb

/-- What is not among the first `k` can be left out. -/
theorem topK_filter {k : ℕ} {l : List α} (h : Strict r l) {p : α → Bool}
    (hp : ∀ a ∈ topK r k l, p a) : topK r k (l.filter p) = topK r k l := by
  rw [topK,insertionSort_filter h,topK]
  generalize hs : l.insertionSort r = s
  have hp : ∀ a ∈ s.take k, p a := by
    rw [← hs]
    exact hp
  conv_lhs => rw [← List.take_append_drop k s]
  rw [List.filter_append,List.filter_eq_self.mpr hp]
  by_cases hk : k ≤ s.length
  · rw [List.take_append_of_le_length (by simp [hk]),List.take_take,min_self]
  · rw [List.drop_eq_nil_of_le (by omega),List.filter_nil,List.append_nil,List.take_take,min_self]

/-- A member of a part that is among the first `k` of the whole is among the first `k` of the
part. -/
lemma mem_topK_filter {k : ℕ} {l : List α} (h : Strict r l) {p : α → Bool} {a : α}
    (ha : a ∈ topK r k l) (hpa : p a) : a ∈ topK r k (l.filter p) := by
  rw [topK,insertionSort_filter h]
  have hbegins : ((l.insertionSort r).take k).filter p <+: (l.insertionSort r).filter p :=
    (List.take_prefix k _).filter p
  have hlen : (((l.insertionSort r).take k).filter p).length ≤ k :=
    (List.length_filter_le _ _).trans (List.length_take_le _ _)
  have hmem : a ∈ ((l.insertionSort r).take k).filter p := List.mem_filter.mpr ⟨ha,hpa⟩
  obtain ⟨rest,hrest⟩ := hbegins
  rw [← hrest,List.take_append]
  apply List.mem_append_left
  rwa [List.take_of_length_le hlen]

/-- The first `k` of two disjoint parts are the first `k` of the first `k` of each. -/
theorem topK_append [DecidableEq α] {k : ℕ} {a b : List α} (h : Strict r (a ++ b))
    (hnodup : (a ++ b).Nodup) : topK r k (topK r k a ++ topK r k b) = topK r k (a ++ b) := by
  obtain ⟨ha,hb,hdisjoint⟩ := List.nodup_append.mp hnodup
  have hparts : a = (a ++ b).filter (· ∈ a) ∧ b = (a ++ b).filter (· ∈ b) := by
    constructor
    · rw [List.filter_append,List.filter_eq_self.mpr (by simp),List.filter_eq_nil_iff.mpr,
        List.append_nil]
      intro x hx
      simpa using fun hxa => hdisjoint x hxa x hx rfl
    · rw [List.filter_append,List.filter_eq_nil_iff.mpr,List.nil_append,
        List.filter_eq_self.mpr (by simp)]
      intro x hx
      simpa using fun hxb => hdisjoint x hx x hxb rfl
  have hkept : ∀ x ∈ topK r k (a ++ b), decide (x ∈ topK r k a ++ topK r k b) = true := by
    intro x hx
    rw [decide_eq_true_eq,List.mem_append]
    obtain hxa | hxb := List.mem_append.mp (topK_subset k _ hx)
    · left
      rw [hparts.1]
      exact mem_topK_filter h hx (by simpa using hxa)
    · right
      rw [hparts.2]
      exact mem_topK_filter h hx (by simpa using hxb)
  rw [← topK_filter h hkept]
  apply topK_of_perm k
  · exact h.subset (List.append_subset.mpr ⟨List.subset_append_of_subset_left _ (topK_subset k a),
      List.subset_append_of_subset_right _ (topK_subset k b)⟩)
  · rw [List.perm_ext_iff_of_nodup _ (hnodup.filter _)]
    · intro x
      simp only [List.mem_filter,List.mem_append,decide_eq_true_eq]
      exact ⟨fun hx => ⟨hx.imp (fun h => topK_subset k a h) (fun h => topK_subset k b h),hx⟩,
        fun hx => hx.2⟩
    · rw [List.nodup_append]
      exact ⟨topK_nodup ha,topK_nodup hb,
        fun x hx y hy => hdisjoint x (topK_subset k a hx) y (topK_subset k b hy)⟩

end RagRuntime.Base
