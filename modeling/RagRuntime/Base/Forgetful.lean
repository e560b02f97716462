import Mathlib.Data.List.Basic
import Mathlib.Order.Nat
import Mathlib.Tactic.SplitIfs

/-! A register that takes stamped writes in any order and forgets the stamp of what it removes. -/
namespace RagRuntime.Base

inductive StampedWrite (α : Type*) where
  | put (a : α)
  | remove (n : ℕ)

namespace Forgetful

section
variable {α : Type*} (stamp : α → ℕ)

/-- An empty register has stamp zero, also after a removal. -/
def held : Option α → ℕ
  | none => 0
  | some a => stamp a

def take (register : Option α) : StampedWrite α → Option α
  | .put a => if stamp a ≤ held stamp register then register else some a
  | .remove n => if n ≤ held stamp register then register else none

def stampOf : StampedWrite α → ℕ
  | .put a => stamp a
  | .remove n => n

/-- Whatever is put is removed by a later write of a greater stamp. -/
def Undone : List (StampedWrite α) → Prop
  | [] => True
  | .put a::ws => (∃ n, .remove n ∈ ws ∧ stamp a < n) ∧ Undone ws
  | .remove _::ws => Undone ws

variable {stamp} {register : Option α} {ws : List (StampedWrite α)} {w : StampedWrite α} {a : α}

lemma take_of_le (h : stampOf stamp w ≤ held stamp register) :
    take stamp register w = register := by
  cases w with
  | put a => exact if_pos h
  | remove n => exact if_pos h

/-- What is held stays when nothing has a greater stamp. -/
theorem foldl_take_of_le (h : ∀ w ∈ ws, stampOf stamp w ≤ held stamp register) :
    ws.foldl (take stamp) register = register := by
  induction ws with
  | nil => rfl
  | cons w ws ih =>
    rw [List.foldl_cons,take_of_le (h w List.mem_cons_self)]
    exact ih fun x hx => h x (List.mem_cons_of_mem _ hx)

/-- The register ends empty exactly if what it held and all that was put has been removed. -/
theorem foldl_take_eq_none_iff (hpositive : ∀ w ∈ ws, 0 < stampOf stamp w) :
    ws.foldl (take stamp) register = none ↔
      (∀ a, register = some a → ∃ n, .remove n ∈ ws ∧ stamp a < n) ∧ Undone stamp ws := by
  induction ws generalizing register with
  | nil =>
    cases register with
    | none => simp [Undone]
    | some a => simp [Undone]
  | cons w ws ih =>
    have hw := hpositive w List.mem_cons_self
    have ih : ∀ {register : Option α}, ws.foldl (take stamp) register = none ↔
        (∀ a, register = some a → ∃ n, .remove n ∈ ws ∧ stamp a < n) ∧ Undone stamp ws :=
      ih fun x hx => hpositive x (List.mem_cons_of_mem _ hx)
    rw [List.foldl_cons]
    by_cases hle : stampOf stamp w ≤ held stamp register
    · rw [take_of_le hle,ih]
      cases register with
      | none => exact absurd (lt_of_lt_of_le hw hle) (lt_irrefl 0)
      | some a =>
        have hsame : (∃ n, .remove n ∈ w::ws ∧ stamp a < n) ↔
          ∃ n, .remove n ∈ ws ∧ stamp a < n := by
          constructor
          · rintro ⟨n,hn,hlt⟩
            obtain rfl | hn := List.mem_cons.mp hn
            · exact absurd hlt (not_lt.mpr hle)
            · exact ⟨n,hn,hlt⟩
          · rintro ⟨n,hn,hlt⟩
            exact ⟨n,List.mem_cons_of_mem _ hn,hlt⟩
        simp only [Option.some.injEq,forall_eq',hsame]
        refine and_congr_right fun hlater => ?_
        cases w with
        | remove n => rfl
        | put b =>
          obtain ⟨n,hn,hlt⟩ := hlater
          exact (and_iff_right ⟨n,hn,lt_of_le_of_lt hle hlt⟩).symm
    · have hlt := not_le.mp hle
      cases w with
      | remove n =>
        have htake : take stamp register (.remove n) = none := if_neg hle
        rw [htake,ih]
        simp only [Undone,reduceCtorEq,false_implies,implies_true,true_and,iff_and_self]
        rintro - b rfl
        exact ⟨n,List.mem_cons_self,hlt⟩
      | put a =>
        have htake : take stamp register (.put a) = some a := if_neg hle
        rw [htake,ih]
        simp only [Option.some.injEq,forall_eq',Undone]
        refine ⟨fun h => ⟨?_,h⟩,And.right⟩
        rintro b rfl
        obtain ⟨⟨n,hn,hlater⟩,-⟩ := h
        exact ⟨n,List.mem_cons_of_mem _ hn,hlt.trans hlater⟩

/-- What is put under the greatest stamp stays, and of several of these the first. -/
theorem foldl_take_greatest (hle : ∀ w ∈ ws, stampOf stamp w ≤ stamp a)
    (hregister : held stamp register < stamp a)
    (hfirst : ∃ before after, ws = before ++ .put a::after ∧ ∀ b, .put b ∈ before →
      stamp b < stamp a) :
    ws.foldl (take stamp) register = some a := by
  obtain ⟨before,after,rfl,hbefore⟩ := hfirst
  have hheld : held stamp (before.foldl (take stamp) register) < stamp a := by
    clear hle
    induction before generalizing register with
    | nil => exact hregister
    | cons w before ih =>
      rw [List.foldl_cons]
      apply ih
      · cases w with
        | put b =>
          simp only [take]
          split_ifs
          · exact hregister
          · exact hbefore b List.mem_cons_self
        | remove n =>
          simp only [take]
          split_ifs
          · exact hregister
          · exact lt_of_le_of_lt (Nat.zero_le _) hregister
      · exact fun b hb => hbefore b (List.mem_cons_of_mem _ hb)
  have htake : take stamp (before.foldl (take stamp) register) (.put a) = some a :=
    if_neg (not_le.mpr hheld)
  rw [List.foldl_append,List.foldl_cons,htake]
  exact foldl_take_of_le fun w hw => hle w (List.mem_append_right _ (List.mem_cons_of_mem _ hw))

end
end Forgetful
end RagRuntime.Base
