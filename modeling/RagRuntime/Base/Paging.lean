import Mathlib.Order.Lattice
import Mathlib.Tactic.Common

/-! Reading a list in the order of its keys page by page, from behind a cursor. -/
namespace RagRuntime.Base

variable {α κ : Type*} [LinearOrder κ]

/-- What a page holds, the cursor behind it, and whether nothing is left there. -/
structure Page (α κ : Type*) where
  items : List α
  cursor : κ
  complete : Bool

/-- What is behind a cursor; `first` is the cursor before everything. -/
def behind (key : α → κ) (first : κ) (l : List α) (cursor : κ) : List α :=
  if cursor = first then l else l.filter fun a => cursor < key a

def page (key : α → κ) (first : κ) (l : List α) (cursor : κ) (limit : ℕ) : Page α κ :=
  let rest := behind key first l cursor
  ⟨rest.take limit,((rest.take limit).getLast?.map key).getD cursor,rest.length ≤ limit⟩

/-- The list in ascending order of keys, none of which is the first cursor. -/
structure Ascending (key : α → κ) (first : κ) (l : List α) : Prop where
  sorted : l.Pairwise fun a b => key a < key b
  named : ∀ a ∈ l, key a ≠ first

/-- The cursor is behind `seen` and before `rest`. -/
structure Between (key : α → κ) (first : κ) (l seen rest : List α) (cursor : κ) : Prop where
  split : l = seen ++ rest
  cursor : cursor = (seen.getLast?.map key).getD first

namespace Between

variable {key : α → κ} {first cursor : κ} {l seen rest : List α} {limit : ℕ}

omit [LinearOrder κ] in
lemma start (key : α → κ) (first : κ) (l : List α) : Between key first l [] l first := ⟨rfl,rfl⟩

/-- The cursor finds what is behind it. -/
theorem behind_eq (h : Between key first l seen rest cursor) (hl : Ascending key first l) :
    behind key first l cursor = rest := by
  obtain ⟨rfl,hcursor⟩ := h
  unfold behind
  cases hlast : seen.getLast? with
  | none =>
    rw [hlast,Option.map_none,Option.getD_none] at hcursor
    rw [if_pos hcursor,List.getLast?_eq_none_iff.mp hlast,List.nil_append]
  | some last =>
    rw [hlast,Option.map_some,Option.getD_some] at hcursor
    subst hcursor
    have hmem := List.mem_of_getLast? hlast
    obtain ⟨hseen,hrest,hcross⟩ := List.pairwise_append.mp hl.sorted
    rw [if_neg (hl.named last (List.mem_append_left _ hmem)),List.filter_append]
    have hnone : seen.filter (fun a => key last < key a) = [] := by
      apply List.filter_eq_nil_iff.mpr
      intro a ha
      obtain ⟨init,rfl⟩ := List.getLast?_eq_some_iff.mp hlast
      obtain ⟨-,-,hinit⟩ := List.pairwise_append.mp hseen
      obtain ha | ha := List.mem_append.mp ha
      · simpa using (hinit a ha last (List.mem_singleton_self last)).le
      · rw [List.mem_singleton.mp ha]
        simp
    have hall : rest.filter (fun a => key last < key a) = rest := by
      apply List.filter_eq_self.mpr
      intro a ha
      simpa using hcross last hmem a ha
    rw [hnone,hall,List.nil_append]

/-- A page moves the cursor on. -/
theorem page (h : Between key first l seen rest cursor) (hl : Ascending key first l) (limit : ℕ) :
    (Base.page key first l cursor limit).items = rest.take limit ∧
      ((Base.page key first l cursor limit).complete = true ↔ rest.length ≤ limit) ∧
      Between key first l (seen ++ rest.take limit) (rest.drop limit)
        (Base.page key first l cursor limit).cursor := by
  have hbehind := h.behind_eq hl
  unfold Base.page
  dsimp only
  rw [hbehind]
  refine ⟨rfl,decide_eq_true_iff,?_,?_⟩
  · rw [List.append_assoc,List.take_append_drop]
    exact h.split
  · cases hlast : (rest.take limit).getLast? with
    | none =>
      rw [List.getLast?_eq_none_iff.mp hlast,List.append_nil]
      exact h.cursor
    | some last =>
      rw [List.getLast?_append,hlast]
      rfl

end Between
end RagRuntime.Base
