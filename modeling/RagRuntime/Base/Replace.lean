import Mathlib.Data.List.Basic
import Mathlib.Data.List.Count
import Mathlib.Data.List.Perm.Basic
import Mathlib.Tactic.Common

/-! Lists in which a new element replaces the oldest one of its key. Elements without a key
are only ever added. -/
namespace RagRuntime.Base

variable {α κ : Type*} [DecidableEq κ] (key : α → Option κ)

/-- Drop the oldest element of `a`'s key, if it has one, and put `a` at the end. -/
def replaceOldest (l : List α) (a : α) : List α :=
  if key a = none then l ++ [a] else l.eraseP (fun b => key b = key a) ++ [a]

/-- The elements of one key, oldest first. -/
def ofKey (k : Option κ) (l : List α) : List α := l.filter fun a => key a = k

variable {key}

@[simp] lemma ofKey_append (k : Option κ) (l l' : List α) :
    ofKey key k (l ++ l') = ofKey key k l ++ ofKey key k l' := List.filter_append ..

@[simp] lemma ofKey_nil (k : Option κ) : ofKey key k ([] : List α) = [] := rfl

lemma ofKey_cons (k : Option κ) (a : α) (l : List α) :
    ofKey key k (a::l) = if key a = k then a::ofKey key k l else ofKey key k l := by
  unfold ofKey
  by_cases h : key a = k <;> simp [h]

/-- Erasing the oldest of a key is taking the head of that key's queue. -/
lemma ofKey_eraseP (k k' : Option κ) (l : List α) :
    ofKey key k' (l.eraseP fun b => key b = k) =
      if k' = k then (ofKey key k' l).tail else ofKey key k' l := by
  induction l with
  | nil => simp
  | cons a l ih =>
    by_cases ha : key a = k
    · subst ha
      rw [List.eraseP_cons_of_pos (by simp),ofKey_cons]
      by_cases hk : k' = key a
      · subst hk
        simp
      · rw [if_neg hk,if_neg (Ne.symm hk)]
    · rw [List.eraseP_cons_of_neg (by simpa using ha),ofKey_cons,ofKey_cons,ih]
      split_ifs with h1 h2
      · exact absurd (h1.trans h2) ha
      · rfl
      · rfl
      · rfl

lemma ofKey_replaceOldest (k : Option κ) (l : List α) (a : α) :
    ofKey key k (replaceOldest key l a) =
      if key a = k then (if k = none then ofKey key k l else (ofKey key k l).tail) ++ [a]
      else ofKey key k l := by
  unfold replaceOldest
  by_cases hn : key a = none
  · rw [if_pos hn,ofKey_append,ofKey_cons]
    by_cases hk : key a = k
    · rw [if_pos hk,if_pos hk,if_pos (hk ▸ hn),ofKey_nil]
    · rw [if_neg hk,if_neg hk,ofKey_nil,List.append_nil]
  · rw [if_neg hn,ofKey_append,ofKey_cons,ofKey_eraseP]
    by_cases hk : key a = k
    · rw [if_pos hk,if_pos hk,if_pos hk.symm,if_neg (hk ▸ hn),ofKey_nil]
    · rw [if_neg hk,if_neg hk,if_neg (Ne.symm hk),ofKey_nil,List.append_nil]

/-- The queue of one key under a run of replacements. -/
def runQueue (q as : List α) : List α := as.foldl (fun q a => q.tail ++ [a]) q

lemma runQueue_of_ne_nil {q : List α} (h : q ≠ []) (as : List α) :
    runQueue q as = (q ++ as).drop as.length := by
  induction as generalizing q with
  | nil => simp [runQueue]
  | cons a as ih =>
    obtain ⟨x,q,rfl⟩ := List.exists_cons_of_ne_nil h
    have htail := ih (q := q ++ [a]) (by simp)
    simp only [runQueue,List.foldl_cons,List.tail_cons] at htail ⊢
    rw [htail]
    simp

lemma runQueue_ne_nil {as : List α} (h : as ≠ []) (q : List α) : runQueue q as ≠ [] := by
  induction as generalizing q with
  | nil => exact absurd rfl h
  | cons a as ih =>
    by_cases has : as = []
    · subst has
      simp [runQueue]
    · exact ih has _

lemma ofKey_none_foldl (l as : List α) :
    ofKey key none (as.foldl (replaceOldest key) l) = ofKey key none l ++ ofKey key none as := by
  induction as generalizing l with
  | nil => simp
  | cons a as ih =>
    rw [List.foldl_cons,ih,ofKey_replaceOldest,ofKey_cons]
    split_ifs <;> simp_all

lemma ofKey_some_foldl (k : κ) (l as : List α) :
    ofKey key (some k) (as.foldl (replaceOldest key) l) =
      runQueue (ofKey key (some k) l) (ofKey key (some k) as) := by
  induction as generalizing l with
  | nil => rfl
  | cons a as ih =>
    rw [List.foldl_cons,ih,ofKey_replaceOldest,ofKey_cons]
    split_ifs with h1 h2
    · cases h2
    · rfl
    · rfl

lemma perm_iff_ofKey [DecidableEq α] (key : α → Option κ) {l l' : List α} :
    l.Perm l' ↔ ∀ k, (ofKey key k l).Perm (ofKey key k l') := by
  constructor
  · intro h k
    exact h.filter _
  · intro h
    rw [List.perm_iff_count]
    intro a
    have hcount := (h (key a)).count_eq a
    rwa [ofKey,ofKey,List.count_filter (by simp),List.count_filter (by simp)] at hcount

/-- A run of replacements brings back what was there if and only if it adds nothing without a
key, and the queue of every key it touches was not empty and is rotated onto itself. -/
theorem foldl_replaceOldest_perm_iff [DecidableEq α] (l as : List α) :
    (as.foldl (replaceOldest key) l).Perm l ↔
      ofKey key none as = [] ∧ ∀ k, ofKey key (some k) as ≠ [] → ofKey key (some k) l ≠ [] ∧
        ((ofKey key (some k) l ++ ofKey key (some k) as).drop (ofKey key (some k) as).length).Perm
          (ofKey key (some k) l) := by
  rw [perm_iff_ofKey key]
  constructor
  · intro h
    refine ⟨?_,fun k hk => ?_⟩
    · have hlen := (h none).length_eq
      rw [ofKey_none_foldl,List.length_append] at hlen
      exact List.eq_nil_of_length_eq_zero (by omega)
    · have hperm := h (some k)
      rw [ofKey_some_foldl] at hperm
      have hne : ofKey key (some k) l ≠ [] := by
        intro hnil
        rw [hnil] at hperm
        exact runQueue_ne_nil hk _ hperm.eq_nil
      exact ⟨hne,runQueue_of_ne_nil hne _ ▸ hperm⟩
  · rintro ⟨hnone,hsome⟩ (_ | k)
    · rw [ofKey_none_foldl,hnone,List.append_nil]
    · rw [ofKey_some_foldl]
      by_cases hk : ofKey key (some k) as = []
      · rw [hk]
        exact List.Perm.refl _
      · obtain ⟨hne,hperm⟩ := hsome k hk
        rwa [runQueue_of_ne_nil hne]

end RagRuntime.Base
