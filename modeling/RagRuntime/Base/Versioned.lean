import Mathlib.Logic.Function.Basic
import Mathlib.Order.Nat
import Mathlib.Tactic.Common

/-! Registers that are written with ascending revisions, and when one state of them is older than
another. -/
namespace RagRuntime.Base

/-- What each key was last written with, and at which revision. -/
def Versioned (κ ν : Type*) := κ → Option (ℕ × ν)

namespace Versioned

variable {κ ν : Type*} {u v w : Versioned κ ν} {k : κ} {r : ℕ} {x y : ν}

/-- The key has been written at revision `r` or later. -/
def Reaches (v : Versioned κ ν) (k : κ) (r : ℕ) : Prop := ∃ r' y, v k = some (r',y) ∧ r ≤ r'

/-- Revision `r` of the key is later than anything it has been written with. -/
def Ahead (v : Versioned κ ν) (k : κ) (r : ℕ) : Prop := ∀ r' y, v k = some (r',y) → r' < r

/-- Each key of `v` has the same in `w`, or has been written since. -/
def Older (v w : Versioned κ ν) : Prop :=
  ∀ k r x, v k = some (r,x) → ∃ r' y, w k = some (r',y) ∧ (r < r' ∨ r = r' ∧ x = y)

theorem Older.refl (v : Versioned κ ν) : v.Older v :=
  fun _ r x h => ⟨r,x,h,Or.inr ⟨rfl,rfl⟩⟩

theorem Older.trans (huv : u.Older v) (hvw : v.Older w) : u.Older w := by
  intro k r x h
  obtain ⟨r',y,hv,hlater⟩ := huv k r x h
  obtain ⟨r'',z,hw,hlater'⟩ := hvw k r' y hv
  refine ⟨r'',z,hw,?_⟩
  obtain hlt | ⟨rfl,rfl⟩ := hlater
  · left
    obtain hlt' | ⟨rfl,-⟩ := hlater'
    · exact hlt.trans hlt'
    · exact hlt
  · exact hlater'

theorem Reaches.not_ahead (h : v.Reaches k r) : ¬v.Ahead k r := by
  intro hahead
  obtain ⟨r',y,hv,hle⟩ := h
  exact absurd (hahead r' y hv) (Nat.not_lt.mpr hle)

theorem Ahead.of_older (h : w.Ahead k r) (hvw : v.Older w) : v.Ahead k r := by
  intro r' y hv
  obtain ⟨r'',z,hw,hlater⟩ := hvw k r' y hv
  have hlt := h r'' z hw
  obtain hlt' | ⟨rfl,-⟩ := hlater
  · exact hlt'.trans hlt
  · exact hlt

section
variable [DecidableEq κ]

def write (v : Versioned κ ν) (k : κ) (r : ℕ) (x : ν) : Versioned κ ν :=
  Function.update v k (some (r,x))

@[simp] theorem write_self (v : Versioned κ ν) (k : κ) (r : ℕ) (x : ν) :
    v.write k r x k = some (r,x) := Function.update_self ..

theorem write_of_ne {k' : κ} (h : k' ≠ k) (v : Versioned κ ν) (r : ℕ) (x : ν) :
    v.write k r x k' = v k' := Function.update_of_ne h ..

theorem older_write (h : v.Ahead k r) (x : ν) : v.Older (v.write k r x) := by
  intro k' r' y hv
  by_cases hk : k' = k
  · subst hk
    exact ⟨r,x,write_self .., Or.inl (h r' y hv)⟩
  · exact ⟨r',y,(write_of_ne hk ..).trans hv,Or.inr ⟨rfl,rfl⟩⟩

end

end Versioned
end RagRuntime.Base
