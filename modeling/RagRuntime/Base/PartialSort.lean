import Mathlib.Data.List.Sort
import Mathlib.Order.Basic

/-! `std::partial_sort` by descending scores, as far as the C++ standard says what it does: which of
several elements with one score come first, or come at all, is not said. -/
namespace RagRuntime.Base

variable {α K ι : Type*} [LinearOrder K] [LinearOrder ι]

/-- The first `k` elements are the best ones in order. The order of the others is left open. -/
structure PartialSort (score : α → K) where
  sort : ℕ → List α → List α
  perm : ∀ k l, (sort k l).Perm l
  sorted : ∀ k l, ((sort k l).take k).Pairwise fun a b => score b ≤ score a
  best : ∀ k l, ∀ a ∈ (sort k l).take k, ∀ b ∈ (sort k l).drop k, score b ≤ score a

namespace PartialSort

lemma isTotal_score (score : α → K) : Std.Total fun a b => score b ≤ score a :=
  ⟨fun a b => le_total (score b) (score a)⟩

lemma isTrans_score (score : α → K) : IsTrans α fun a b => score b ≤ score a :=
  ⟨fun _ _ _ hab hbc => hbc.trans hab⟩

variable {score : α → K}

/-- The elements in front, as a caller keeps them. -/
def top (s : PartialSort score) (k : ℕ) (l : List α) : List α :=
  (s.sort (min k l.length) l).take (min k l.length)

lemma length_top (s : PartialSort score) (k : ℕ) (l : List α) :
    (s.top k l).length = min k l.length := by
  rw [top,List.length_take,(s.perm _ l).length_eq]
  omega

/-- A full sort that keeps ties in their order. -/
def stable (score : α → K) : PartialSort score where
  sort _ l := l.insertionSort fun a b => score b ≤ score a
  perm _ l := List.perm_insertionSort _ l
  sorted k l := by
    have := isTotal_score score
    have := isTrans_score score
    exact (List.pairwise_insertionSort _ l).sublist (List.take_sublist k _)
  best k l := by
    have := isTotal_score score
    have := isTrans_score score
    have hsorted := List.pairwise_insertionSort (fun a b => score b ≤ score a) l
    rw [← List.take_append_drop k (l.insertionSort _),List.pairwise_append] at hsorted
    exact hsorted.2.2

lemma top_stable (k : ℕ) (l : List α) :
    (stable score).top k l = (l.insertionSort fun a b => score b ≤ score a).take k := by
  have hlength := List.length_insertionSort (fun a b => score b ≤ score a) l
  change (l.insertionSort fun a b => score b ≤ score a).take (min k l.length) = _
  rw [← hlength,← List.take_take,List.take_length]

/-- No two elements have one score. -/
def Distinct (score : α → K) (l : List α) : Prop := l.Pairwise fun a b => score a ≠ score b

omit [LinearOrder K] in
lemma Distinct.perm {l l' : List α} (h : Distinct score l) (hp : l.Perm l') : Distinct score l' :=
  (hp.pairwise_iff fun hne => hne.symm).mp h

omit [LinearOrder K] in
lemma Distinct.eq_of_score {l : List α} (h : Distinct score l) {a b : α} (ha : a ∈ l) (hb : b ∈ l)
    (hscore : score a = score b) : a = b := by
  have hall : l.Pairwise fun a b => score a = score b → a = b :=
    h.imp fun hne heq => absurd heq hne
  have hflip : l.Pairwise (flip fun a b => score a = score b → a = b) :=
    h.imp fun hne heq => absurd heq.symm hne
  exact hall.forall_of_forall_of_flip (fun _ _ _ => rfl) hflip ha hb hscore

section full
-- A full sort, in which ties come in the opposite order of `id`.
variable (score) (id : α → ι)

def precedes (a b : α) : Prop := score b < score a ∨ score a = score b ∧ id b ≤ id a

instance : DecidableRel (precedes score id) := fun a b => by unfold precedes; infer_instance

instance : Std.Total (precedes score id) := by
  constructor
  intro a b
  unfold precedes
  obtain hlt | heq | hgt := lt_trichotomy (score a) (score b)
  · exact Or.inr (Or.inl hlt)
  · obtain hid | hid := le_total (id a) (id b)
    · exact Or.inr (Or.inr ⟨heq.symm,hid⟩)
    · exact Or.inl (Or.inr ⟨heq,hid⟩)
  · exact Or.inl (Or.inl hgt)

instance : IsTrans α (precedes score id) := by
  constructor
  rintro a b c (hab | ⟨hab,hid⟩) (hbc | ⟨hbc,hid'⟩)
  · exact Or.inl (hbc.trans hab)
  · exact Or.inl (hbc ▸ hab)
  · exact Or.inl (hab ▸ hbc)
  · exact Or.inr ⟨hab.trans hbc,hid'.trans hid⟩

lemma score_le_of_precedes {a b : α} (h : precedes score id a b) : score b ≤ score a :=
  h.elim le_of_lt fun heq => heq.1.ge

def byDescendingId : PartialSort score where
  sort _ l := l.insertionSort (precedes score id)
  perm _ l := List.perm_insertionSort _ l
  sorted k l := ((List.pairwise_insertionSort _ l).sublist (List.take_sublist k _)).imp
    fun h => score_le_of_precedes score id h
  best k l := by
    have hsorted := List.pairwise_insertionSort (precedes score id) l
    rw [← List.take_append_drop k (l.insertionSort _),List.pairwise_append] at hsorted
    exact fun a ha b hb => score_le_of_precedes score id (hsorted.2.2 a ha b hb)

end full

/-- Without ties there is one order to put the elements in. -/
lemma Distinct.top_eq {l : List α} (h : Distinct score l) (s : PartialSort score) (id : α → ι)
    (k : ℕ) : s.top k l = (l.insertionSort (precedes score id)).take k := by
  set sorted := l.insertionSort (precedes score id)
  set m := min k l.length
  -- what is cut off is put in order behind what is kept
  have hperm : (s.top k l ++ ((s.sort m l).drop m).insertionSort (precedes score id)).Perm
    sorted := by
    have hsplit := (List.perm_insertionSort (precedes score id) ((s.sort m l).drop m)).append_left
      (s.top k l)
    rw [top,List.take_append_drop] at hsplit
    exact hsplit.trans ((s.perm m l).trans (List.perm_insertionSort _ l).symm)
  have hordered : (s.top k l ++ ((s.sort m l).drop m).insertionSort
      (precedes score id)).Pairwise fun a b => score b ≤ score a := by
    rw [List.pairwise_append]
    refine ⟨s.sorted m l,?_,?_⟩
    · exact (List.pairwise_insertionSort _ _).imp fun h => score_le_of_precedes score id h
    · intro a ha b hb
      exact s.best m l a ha b ((List.mem_insertionSort _).mp hb)
  have hsorted : sorted.Pairwise fun a b => score b ≤ score a :=
    (List.pairwise_insertionSort _ l).imp fun h => score_le_of_precedes score id h
  have heq : s.top k l ++ ((s.sort m l).drop m).insertionSort (precedes score id) = sorted := by
    apply hperm.eq_of_pairwise _ hordered hsorted
    intro a b ha hb hab hba
    have hmem : ∀ x ∈ sorted, x ∈ l := fun x hx => (List.mem_insertionSort _).mp hx
    exact h.eq_of_score (hmem a (hperm.mem_iff.mp ha)) (hmem b hb) (le_antisymm hba hab)
  rw [← heq]
  have hlength : (s.top k l).length = m := s.length_top k l
  obtain hle | hlt := le_or_gt k l.length
  · rw [List.take_append_of_le_length (by omega),List.take_of_length_le (by omega)]
  · have hdrop : (s.sort m l).drop m = [] := by
      apply List.drop_eq_nil_of_le
      rw [(s.perm m l).length_eq]
      omega
    rw [hdrop,List.insertionSort_nil,List.append_nil,List.take_of_length_le (by omega)]

/-- Whatever a partial sort does with ties, fewer elements are the first ones of more and ties are
ordered by `id`, just when there are no ties. -/
theorem consistent_iff (id : α → ι) (l : List α) :
    (∀ s : PartialSort score, ∀ k k', k ≤ k' → s.top k l = (s.top k' l).take k ∧
      (s.top k' l).Pairwise fun a b => score a = score b → id a < id b) ↔ Distinct score l := by
  constructor
  · intro h
    obtain ⟨-,hties⟩ := h (byDescendingId score id) l.length l.length le_rfl
    have hfull : (byDescendingId score id).top l.length l =
        l.insertionSort (precedes score id) := by
      rw [top,min_self]
      exact List.take_of_length_le (List.length_insertionSort (precedes score id) l).le
    rw [hfull] at hties
    have hboth := hties.and (List.pairwise_insertionSort (precedes score id) l)
    have hdistinct : Distinct score (l.insertionSort (precedes score id)) := by
      apply hboth.imp
      rintro a b ⟨htie,hprecedes⟩ heq
      obtain hlt | ⟨-,hid⟩ := hprecedes
      · exact absurd heq hlt.ne'
      · exact absurd (htie heq) (not_lt.mpr hid)
    exact hdistinct.perm (List.perm_insertionSort _ l)
  · intro h s k k' hk
    rw [h.top_eq s id,h.top_eq s id,List.take_take,min_eq_left hk]
    refine ⟨rfl,?_⟩
    have hdistinct := h.perm (List.perm_insertionSort (precedes score id) l).symm
    exact (hdistinct.sublist (List.take_sublist k' _)).imp fun hne heq => absurd heq hne

end PartialSort
end RagRuntime.Base
