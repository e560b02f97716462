import Mathlib.Data.Set.Insert
import Mathlib.Order.Basic

/-! Snapshots of a value that only grows and of the counter that every change of it advances.
The counter alone orders them. -/
namespace RagRuntime.Base

/-- The value, and how often it had changed. -/
abbrev Stamped (α : Type*) := ℕ × α

namespace Stamped

variable {α : Type*} [Preorder α] {a b c : Stamped α} {kept kept' : Set (Stamped α)}

/-- `b` is `a`, or a later state of the same value. -/
def Before (a b : Stamped α) : Prop := a = b ∨ a.1 < b.1 ∧ a.2 ≤ b.2

theorem Before.refl (a : Stamped α) : a.Before a := Or.inl rfl

theorem Before.trans (hab : a.Before b) (hbc : b.Before c) : a.Before c := by
  obtain rfl | ⟨hlt,hle⟩ := hab
  · exact hbc
  · right
    obtain rfl | ⟨hlt',hle'⟩ := hbc
    · exact ⟨hlt,hle⟩
    · exact ⟨hlt.trans hlt',hle.trans hle'⟩

theorem Before.le (h : a.Before b) : a.2 ≤ b.2 := by
  obtain rfl | ⟨-,hle⟩ := h
  · exact le_refl _
  · exact hle

theorem Before.eq_of_stamp_le (h : a.Before b) (hle : b.1 ≤ a.1) : a = b := by
  obtain rfl | ⟨hlt,-⟩ := h
  · rfl
  · omega

theorem before_succ (h : a.2 ≤ b.2) (hstamp : b.1 = a.1+1) : a.Before b :=
  Or.inr ⟨by omega,h⟩

/-- The snapshots that are kept are earlier states of the one value `current`. -/
structure Chronicle (current : Stamped α) (kept : Set (Stamped α)) : Prop where
  past : ∀ a ∈ kept, a.Before current
  chain : ∀ a ∈ kept, ∀ b ∈ kept, a.Before b ∨ b.Before a

namespace Chronicle

theorem empty (current : Stamped α) : Chronicle current ∅ :=
  ⟨fun _ h => h.elim,fun _ h => h.elim⟩

theorem mono (h : Chronicle c kept) (hsub : kept' ⊆ kept) : Chronicle c kept' :=
  ⟨fun a ha => h.past a (hsub ha),fun a ha b hb => h.chain a (hsub ha) b (hsub hb)⟩

/-- The value changes. -/
theorem advance (h : Chronicle b kept) (hbc : b.Before c) : Chronicle c kept :=
  ⟨fun a ha => (h.past a ha).trans hbc,h.chain⟩

/-- The value as it is becomes a snapshot. -/
theorem record (h : Chronicle c kept) : Chronicle c (insert c kept) := by
  constructor
  · intro a ha
    obtain rfl | ha := Set.mem_insert_iff.mp ha
    · exact Before.refl a
    · exact h.past a ha
  · intro a ha b hb
    obtain rfl | hka := Set.mem_insert_iff.mp ha
    · obtain rfl | hkb := Set.mem_insert_iff.mp hb
      · exact Or.inl (Before.refl _)
      · exact Or.inr (h.past b hkb)
    · obtain rfl | hkb := Set.mem_insert_iff.mp hb
      · exact Or.inl (h.past a hka)
      · exact h.chain a hka b hkb

/-- The snapshot with the greater counter holds what the other does. -/
theorem le_of_stamp_le (h : Chronicle c kept) (ha : a ∈ kept) (hb : b ∈ kept) (hle : a.1 ≤ b.1) :
    a.2 ≤ b.2 := by
  obtain hab | hba := h.chain a ha b hb
  · exact hab.le
  · rw [hba.eq_of_stamp_le hle]

end Chronicle
end Stamped
end RagRuntime.Base
