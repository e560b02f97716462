import Mathlib.Algebra.BigOperators.Group.Multiset.Basic
import Mathlib.Algebra.BigOperators.Group.Finset.Basic
import Mathlib.Algebra.Group.Int.Defs

/-! Orders in which the members of a family are summed, with an accumulator that may overflow. -/
namespace RagRuntime.Base

/-- A sum as it is carried out: a tree of additions over positions. -/
inductive SumTree
  | zero
  | term (i : ℕ)
  | add (x y : SumTree)

namespace SumTree

def positions : SumTree → Multiset ℕ
  | zero => 0
  | term i => {i}
  | add x y => x.positions + y.positions

/-- The value of a tree; `none` when a sum is not in the range of the accumulator. -/
def run (fits : ℤ → Prop) [DecidablePred fits] (f : ℕ → ℤ) : SumTree → Option ℤ
  | zero => some 0
  | term i => if fits (f i) then some (f i) else none
  | add x y => do
    let s ← run fits f x
    let t ← run fits f y
    if fits (s+t) then some (s+t) else none

/-- The terms of a list, added to a tree one by one. -/
def sequence (x : SumTree) (l : List ℕ) : SumTree := l.foldl (fun s i => .add s (.term i)) x

/-- The first tree, to which the others are added one by one. -/
def total : List SumTree → SumTree
  | [] => .zero
  | x::l => l.foldl .add x

lemma positions_sequence (x : SumTree) (l : List ℕ) :
    (sequence x l).positions = x.positions + (l : Multiset ℕ) := by
  induction l generalizing x with
  | nil => simp [sequence]
  | cons i l ih =>
    have := ih (.add x (.term i))
    rw [sequence] at this ⊢
    rw [List.foldl_cons,this,positions,positions,add_assoc]
    rfl

lemma positions_foldl_add (x : SumTree) (l : List SumTree) :
    (l.foldl .add x).positions = x.positions + (l.map positions).sum := by
  induction l generalizing x with
  | nil => simp
  | cons y l ih => rw [List.foldl_cons,ih,positions,List.map_cons,List.sum_cons,add_assoc]

lemma positions_total (l : List SumTree) : (total l).positions = (l.map positions).sum := by
  cases l with
  | nil => rfl
  | cons x l => rw [total,positions_foldl_add,List.map_cons,List.sum_cons]

/-- Where the sum over any set of positions is in range, every order of different positions gives
the sum. -/
theorem run_of_nodup {fits : ℤ → Prop} [DecidablePred fits] {f : ℕ → ℤ}
    (h : ∀ s : Finset ℕ, fits (∑ i ∈ s, f i)) (x : SumTree) (hx : x.positions.Nodup) :
    x.run fits f = some (x.positions.map f).sum := by
  induction x with
  | zero => rfl
  | term i =>
    have hi : fits (f i) := by simpa using h {i}
    rw [run,if_pos hi,positions,Multiset.map_singleton,Multiset.sum_singleton]
  | add x y ihx ihy =>
    obtain ⟨hnx,hny,-⟩ := Multiset.nodup_add.mp hx
    have hsum : fits ((x.positions.map f).sum + (y.positions.map f).sum) := by
      have hall : fits ((x.positions + y.positions).map f).sum := h ⟨_,hx⟩
      rwa [Multiset.map_add,Multiset.sum_add] at hall
    rw [run,ihx hnx,ihy hny,positions,Multiset.map_add,Multiset.sum_add]
    exact if_pos hsum

end SumTree
end RagRuntime.Base
