import Mathlib.Data.List.Perm.Basic
import Mathlib.Data.List.Sort
import Mathlib.Data.List.Count
import Mathlib.Tactic.Common

/-! The best of a list of which some members are dropped: how many of all must be fetched, where the
order of members with the same score is left open. -/
namespace RagRuntime.Base

variable {α β : Type*} [LinearOrder β] (s : α → β) (p : α → Bool)

/-- Higher scores come first. -/
def Descending (l : List α) : Prop := l.Pairwise fun a b => s b ≤ s a

/-- The members to drop that fewer than `n` of the others beat. -/
def ahead (l : List α) (n : ℕ) : ℕ :=
  l.countP fun r => !p r && decide (l.countP (fun d => p d && decide (s r < s d)) < n)

variable {s p}

lemma ahead_perm {l l' : List α} (h : l.Perm l') (n : ℕ) : ahead s p l n = ahead s p l' n := by
  unfold ahead
  rw [h.countP_eq]
  congr 1
  funext r
  rw [h.countP_eq]

lemma Descending.append {l l' : List α} (h : Descending s (l ++ l')) :
    ∀ a ∈ l, ∀ b ∈ l', s b ≤ s a := (List.pairwise_append.mp h).2.2

lemma countP_not (l : List α) : l.countP (fun a => !p a) + l.countP p = l.length := by
  induction l with
  | nil => rfl
  | cons a l ih => cases ha : p a <;> simp [ha] <;> omega

/-- Fetching what may be ahead of `n` members that are kept, and these, fetches `n` of them. -/
theorem le_countP_take {l ranking : List α} (hp : ranking.Perm l) (hs : Descending s ranking)
    {n k : ℕ} (hn : n ≤ l.countP p) (h : ahead s p l n + n ≤ k) :
    n ≤ (ranking.take k).countP p := by
  by_contra hfew
  rw [not_le] at hfew
  have hsplit := List.take_append_drop k ranking
  have hlen : (ranking.take k).length = k := by
    rw [List.length_take,min_eq_left]
    by_contra hshort
    rw [List.take_of_length_le (by omega),hp.countP_eq] at hfew
    omega
  have hkept : ∀ r ∈ ranking.take k,
      l.countP (fun d => p d && decide (s r < s d)) < n := by
    intro r hr
    rw [← hp.countP_eq,← hsplit,List.countP_append]
    have hlater : (ranking.drop k).countP (fun d => p d && decide (s r < s d)) = 0 := by
      rw [List.countP_eq_zero]
      intro d hd
      have hle : s d ≤ s r := Descending.append (hsplit.symm ▸ hs) r hr d hd
      simp [not_lt.mpr hle]
    have hearlier : (ranking.take k).countP (fun d => p d && decide (s r < s d)) ≤
        (ranking.take k).countP p := List.countP_mono_left fun d _ hd => by
      simp only [Bool.and_eq_true] at hd
      exact hd.1
    omega
  have hdropped : (ranking.take k).countP (fun a => !p a) ≤ ahead s p l n := by
    calc (ranking.take k).countP (fun a => !p a)
        ≤ (ranking.take k).countP (fun r => !p r &&
            decide (l.countP (fun d => p d && decide (s r < s d)) < n)) :=
          List.countP_mono_left fun r hr hnot => by simp [hnot,hkept r hr]
      _ ≤ ranking.countP (fun r => !p r &&
            decide (l.countP (fun d => p d && decide (s r < s d)) < n)) :=
          (List.take_sublist k ranking).countP_le
      _ = ahead s p l n := hp.countP_eq _
  have hcount := countP_not (p := p) (ranking.take k)
  omega

/-- The order that puts members to drop before others of the same score. -/
def DroppedFirst (s : α → β) (p : α → Bool) (a b : α) : Prop :=
  s b < s a ∨ s a = s b ∧ (p a = false ∨ p b = true)

instance : DecidableRel (DroppedFirst s p) := fun a b => by
  unfold DroppedFirst
  infer_instance

instance : Std.Total (DroppedFirst s p) where
  total a b := by
    unfold DroppedFirst
    rcases lt_trichotomy (s a) (s b) with h | h | h
    · exact .inr (.inl h)
    · cases ha : p a with
      | false => exact .inl (.inr ⟨h,.inl rfl⟩)
      | true => exact .inr (.inr ⟨h.symm,.inr rfl⟩)
    · exact .inl (.inl h)

instance : IsTrans α (DroppedFirst s p) where
  trans a b c := by
    rintro (hab | ⟨hab,hp⟩) (hbc | ⟨hbc,hq⟩)
    · exact .inl (hbc.trans hab)
    · exact .inl (hbc ▸ hab)
    · exact .inl (hab ▸ hbc)
    · refine .inr ⟨hab.trans hbc,?_⟩
      rcases hp with ha | hb
      · exact .inl ha
      · rcases hq with hb' | hc
        · rw [hb] at hb'
          cases hb'
        · exact .inr hc

lemma descending_of_pairwise {l : List α} (h : l.Pairwise (DroppedFirst s p)) : Descending s l := by
  apply h.imp
  rintro a b (hlt | ⟨heq,-⟩)
  · exact hlt.le
  · exact heq.ge

/-- If `n` members that are kept are fetched in every order, enough are fetched. -/
theorem ahead_le_of_forall {l : List α} {n k : ℕ}
    (h : ∀ ranking, ranking.Perm l → Descending s ranking → n ≤ (ranking.take k).countP p) :
    ahead s p l n + n ≤ k := by
  set ranking := l.insertionSort (DroppedFirst s p)
  have hperm : ranking.Perm l := List.perm_insertionSort _ l
  have hsorted : ranking.Pairwise (DroppedFirst s p) := List.pairwise_insertionSort _ l
  have hfetched := h ranking hperm (descending_of_pairwise hsorted)
  have hsplit := List.take_append_drop k ranking
  -- a member behind the first `k` is beaten by all that are kept of these
  have hbehind : (ranking.drop k).countP (fun r => !p r &&
      decide (ranking.countP (fun d => p d && decide (s r < s d)) < n)) = 0 := by
    rw [List.countP_eq_zero]
    intro r hr hahead
    simp only [Bool.and_eq_true,Bool.not_eq_true',decide_eq_true_eq] at hahead
    obtain ⟨hdrop,hfew⟩ := hahead
    have hbeaten : (ranking.take k).countP p ≤
        (ranking.take k).countP (fun d => p d && decide (s r < s d)) := by
      apply List.countP_mono_left
      intro d hd hkeep
      have hbefore := (List.pairwise_append.mp (hsplit.symm ▸ hsorted)).2.2 d hd r hr
      rcases hbefore with hlt | ⟨-,hd' | hr'⟩
      · simp [hkeep,hlt]
      · rw [hkeep] at hd'
        cases hd'
      · rw [hdrop] at hr'
        cases hr'
    have hall := (List.take_sublist k ranking).countP_le
      (p := fun d => p d && decide (s r < s d))
    omega
  have hahead : ahead s p l n ≤ (ranking.take k).countP (fun a => !p a) := by
    have hcut : ahead s p ranking n = (ranking.take k).countP (fun r => !p r &&
          decide (ranking.countP (fun d => p d && decide (s r < s d)) < n)) +
        (ranking.drop k).countP (fun r => !p r &&
          decide (ranking.countP (fun d => p d && decide (s r < s d)) < n)) := by
      rw [← List.countP_append,hsplit]
      rfl
    rw [← ahead_perm hperm n,hcut,hbehind,Nat.add_zero]
    apply List.countP_mono_left
    intro r _ hr
    exact (Bool.and_eq_true_iff.mp hr).1
  have hcount := countP_not (p := p) (ranking.take k)
  have hlen := List.length_take_le k ranking
  omega

/-- Where enough members to drop beat all that are kept, these are not fetched. -/
lemma filter_take_eq_nil {l ranking : List α} (hp : ranking.Perm l) (hs : Descending s ranking)
    {k : ℕ} (h : k ≤ l.countP fun r => !p r && l.all fun d => !p d || decide (s d < s r)) :
    (ranking.take k).filter p = [] := by
  rw [List.filter_eq_nil_iff]
  intro d hd hkeep
  have hsplit := List.take_append_drop k ranking
  have hmem : d ∈ l := hp.mem_iff.mp (List.mem_of_mem_take hd)
  -- what beats `d` is in front of it
  have hbehind : (ranking.drop k).countP (fun r => !p r && l.all fun d =>
    !p d || decide (s d < s r)) =
      0 := by
    rw [List.countP_eq_zero]
    intro r hr hbeats
    have hle : s r ≤ s d := Descending.append (hsplit.symm ▸ hs) d hd r hr
    have hlt := List.all_eq_true.mp (Bool.and_eq_true_iff.mp hbeats).2 d hmem
    simp [hkeep,not_lt.mpr hle] at hlt
  have hfront : (ranking.take k).countP (fun r => !p r && l.all fun d =>
    !p d || decide (s d < s r)) <
      (ranking.take k).length := by
    rw [List.countP_lt_length_iff]
    exact ⟨d,hd,by simp [hkeep]⟩
  have hcut := hp.countP_eq fun r => !p r && l.all fun d => !p d || decide (s d < s r)
  rw [← hsplit,List.countP_append,hbehind] at hcut
  have hlen := List.length_take_le k ranking
  omega

section first

/-- The `k` members with the highest scores, or all of them, in order. -/
structure Leads (s : α → β) (l : List α) (k : ℕ) (top : List α) : Prop where
  length : top.length = min k l.length
  members : top.Subperm l
  descending : Descending s top
  greatest : ∀ a ∈ top, ∀ b ∈ l, b ∉ top → s b ≤ s a

lemma leads_take {l ranking : List α} (hp : ranking.Perm l) (hs : Descending s ranking) (k : ℕ) :
    Leads s l k (ranking.take k) := by
  refine ⟨?_,?_,?_,?_⟩
  · rw [List.length_take,hp.length_eq]
  · exact (List.take_sublist k ranking).subperm.trans hp.subperm
  · exact hs.sublist (List.take_sublist k ranking)
  · intro a ha b hb hnot
    have hsplit := List.take_append_drop k ranking
    have hlater : b ∈ ranking.drop k := by
      have hmem := hp.mem_iff.mpr hb
      rw [← hsplit,List.mem_append] at hmem
      exact hmem.resolve_left hnot
    exact Descending.append (hsplit.symm ▸ hs) a ha b hlater

/-- What is kept of the first `m` begins what is kept of all. -/
lemma take_filter_take {ranking : List α} {k m : ℕ}
    (h : min k (ranking.countP p) ≤ (ranking.take m).countP p) :
    ((ranking.take m).filter p).take k = (ranking.filter p).take k := by
  have hbegins : (ranking.take m).filter p <+: ranking.filter p := (List.take_prefix m _).filter p
  rw [List.countP_eq_length_filter,List.countP_eq_length_filter] at h
  have hlength := hbegins.length_le
  rw [List.prefix_iff_eq_take.mp hbegins,List.take_take]
  by_cases hk : k ≤ ((ranking.take m).filter p).length
  · rw [min_eq_left hk]
  · have hall : ((ranking.take m).filter p).length = (ranking.filter p).length := by omega
    rw [hall,min_eq_right (by omega),List.take_of_length_le le_rfl,List.take_of_length_le
      (by omega)]

end first

end RagRuntime.Base
