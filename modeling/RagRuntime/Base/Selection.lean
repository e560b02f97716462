import Mathlib.Data.List.Basic

/-! Choosing one element after the other, each in view of those chosen before it. -/
namespace RagRuntime.Base

/-- At most `n` more choices. -/
def select {α : Type*} (next : List α → Option α) : ℕ → List α → List α
  | 0,chosen => chosen
  | n+1,chosen =>
    match next chosen with
    | none => chosen
    | some a => select next n (chosen ++ [a])

variable {α : Type*} {next : List α → Option α}

lemma prefix_select (n : ℕ) (chosen : List α) : chosen <+: select next n chosen := by
  induction n generalizing chosen with
  | zero => exact List.prefix_rfl
  | succ n ih =>
    rw [select]
    cases next chosen with
    | none => exact List.prefix_rfl
    | some a => exact (List.prefix_append chosen [a]).trans (ih _)

/-- Fewer choices are the first ones of more. -/
theorem select_take {m n : ℕ} (h : m ≤ n) (chosen : List α) :
    select next m chosen = (select next n chosen).take (chosen.length+m) := by
  induction m generalizing n chosen with
  | zero => exact List.prefix_iff_eq_take.mp (prefix_select n chosen)
  | succ m ih =>
    obtain ⟨n,rfl⟩ := Nat.exists_eq_succ_of_ne_zero (show n ≠ 0 by omega)
    rw [select,select]
    cases next chosen with
    | none =>
      dsimp only
      rw [List.take_of_length_le (by omega)]
    | some a =>
      have hrest := ih (Nat.le_of_succ_le_succ h) (chosen ++ [a])
      rw [List.length_append,List.length_singleton,Nat.add_assoc,Nat.add_comm 1] at hrest
      exact hrest

lemma length_select_le (n : ℕ) (chosen : List α) :
    (select next n chosen).length ≤ chosen.length+n := by
  rw [select_take (Nat.le_refl n) chosen]
  exact List.length_take_le _ _

lemma forall_mem_select {p : α → Prop} (h : ∀ chosen a, next chosen = some a → p a) (n : ℕ)
    {chosen : List α} (hchosen : ∀ a ∈ chosen, p a) : ∀ a ∈ select next n chosen, p a := by
  induction n generalizing chosen with
  | zero => exact hchosen
  | succ n ih =>
    rw [select]
    cases hnext : next chosen with
    | none => exact hchosen
    | some a =>
      apply ih
      intro b hb
      rcases List.mem_append.mp hb with hb | hb
      · exact hchosen b hb
      · rw [List.mem_singleton.mp hb]
        exact h chosen a hnext

end RagRuntime.Base
