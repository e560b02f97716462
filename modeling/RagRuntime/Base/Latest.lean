import Mathlib.Data.List.MinMax

/-! Writes that carry a key and a stamp, and the latest of them for each key. Where no two writes of
a key share a stamp, it does not depend on their order or on repetitions. -/
namespace RagRuntime.Base

section
variable {ω κ : Type*} [DecidableEq κ] (key : ω → κ) (stamp : ω → ℕ)

/-- The write of the greatest stamp to a key. -/
def latestWrite (ws : List ω) (k : κ) : Option ω := (ws.filter fun w => key w = k).argmax stamp

/-- Writes of one key differ in their stamps. -/
def DistinctStamps (ws : List ω) : Prop :=
  ∀ v ∈ ws, ∀ w ∈ ws, key v = key w → stamp v = stamp w → v = w

variable {key stamp} {ws vs : List ω} {w v : ω} {k : κ}

@[simp] theorem latestWrite_nil : latestWrite key stamp [] k = none := rfl

theorem mem_of_latestWrite (h : latestWrite key stamp ws k = some w) : w ∈ ws ∧ key w = k := by
  have hmem := List.mem_filter.mp (List.argmax_mem h)
  exact ⟨hmem.1,of_decide_eq_true hmem.2⟩

theorem stamp_le_of_latestWrite (h : latestWrite key stamp ws k = some w) (hv : v ∈ ws)
    (hkey : key v = k) :
    stamp v ≤ stamp w := by
  have hmem : v ∈ ws.filter fun w => key w = k := List.mem_filter.mpr ⟨hv,decide_eq_true hkey⟩
  exact not_lt.mp (List.not_lt_of_mem_argmax hmem h)

theorem latestWrite_eq_none : latestWrite key stamp ws k = none ↔ ∀ w ∈ ws, key w ≠ k := by
  rw [latestWrite,List.argmax_eq_none,List.filter_eq_nil_iff]
  simp

/-- Another key keeps its latest write. -/
theorem latestWrite_append_of_ne (h : key w ≠ k) :
    latestWrite key stamp (ws ++ [w]) k = latestWrite key stamp ws k := by
  rw [latestWrite,List.filter_append,List.filter_singleton]
  simp [h,latestWrite]

theorem latestWrite_append_first (h : latestWrite key stamp ws (key w) = none) :
    latestWrite key stamp (ws ++ [w]) (key w) = some w := by
  rw [latestWrite] at h ⊢
  rw [List.filter_append,List.filter_singleton]
  simp only [decide_true,cond_true,List.argmax_concat,h]

theorem latestWrite_append_later (h : latestWrite key stamp ws (key w) = some v)
    (hlt : stamp v < stamp w) :
    latestWrite key stamp (ws ++ [w]) (key w) = some w := by
  rw [latestWrite] at h ⊢
  rw [List.filter_append,List.filter_singleton]
  simp only [decide_true,cond_true,List.argmax_concat,h,if_pos hlt]

theorem latestWrite_append_stale (h : latestWrite key stamp ws (key w) = some v)
    (hle : stamp w ≤ stamp v) :
    latestWrite key stamp (ws ++ [w]) (key w) = some v := by
  rw [latestWrite] at h ⊢
  rw [List.filter_append,List.filter_singleton]
  simp only [decide_true,cond_true,List.argmax_concat,h,if_neg (not_lt.mpr hle)]

/-- Only which writes there are decides the latest. -/
theorem latestWrite_congr (hws : DistinctStamps key stamp ws) (hmem : ∀ w, w ∈ vs ↔ w ∈ ws)
    (k : κ) :
    latestWrite key stamp vs k = latestWrite key stamp ws k := by
  cases hl : latestWrite key stamp ws k with
  | none =>
    rw [latestWrite_eq_none] at hl ⊢
    exact fun w hw => hl w ((hmem w).mp hw)
  | some w =>
    obtain ⟨hw,hk⟩ := mem_of_latestWrite hl
    cases hv : latestWrite key stamp vs k with
    | none => exact absurd hk (latestWrite_eq_none.mp hv w ((hmem w).mpr hw))
    | some v =>
      obtain ⟨hv',hk'⟩ := mem_of_latestWrite hv
      have hle := stamp_le_of_latestWrite hl ((hmem v).mp hv') hk'
      have hge := stamp_le_of_latestWrite hv ((hmem w).mpr hw) hk
      rw [hws v ((hmem v).mp hv') w hw (hk'.trans hk.symm) (le_antisymm hle hge)]

end

end RagRuntime.Base
