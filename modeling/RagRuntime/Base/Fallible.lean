import Mathlib.Data.List.Forall2

/-! Computations that may fail. What succeeds as a whole has succeeded in its parts. -/
namespace RagRuntime.Base

variable {ε α β : Type} {l : List α} {m : List β}

lemma bind_eq_ok {x : Except ε α} {f : α → Except ε β} {b : β} :
    x >>= f = .ok b ↔ ∃ a, x = .ok a ∧ f a = .ok b := by
  cases x with
  | error e =>
    constructor
    · intro h
      cases h
    · rintro ⟨a,h,-⟩
      cases h
  | ok a =>
    constructor
    · exact fun h => ⟨a,rfl,h⟩
    · rintro ⟨a',h,hf⟩
      cases h
      exact hf

/-- Each item of the second list belongs to one of the first. -/
lemma exists_of_forall₂ {R : α → β → Prop} (h : List.Forall₂ R l m) {b : β} (hb : b ∈ m) :
    ∃ a ∈ l, R a b := by
  induction h with
  | nil => cases hb
  | cons hhead _ ih =>
    rcases List.mem_cons.mp hb with rfl | hb
    · exact ⟨_,List.mem_cons_self,hhead⟩
    · obtain ⟨a,ha,hab⟩ := ih hb
      exact ⟨a,List.mem_cons_of_mem _ ha,hab⟩

theorem mapM_eq_ok {f : α → Except ε β} :
    l.mapM f = .ok m ↔ List.Forall₂ (fun a b => f a = .ok b) l m := by
  induction l generalizing m with
  | nil =>
    rw [List.mapM_nil,List.forall₂_nil_left_iff]
    exact ⟨fun h => (Except.ok.inj h).symm,fun h => congrArg Except.ok h.symm⟩
  | cons a l ih =>
    rw [List.mapM_cons,List.forall₂_cons_left_iff]
    simp only [bind_eq_ok,ih]
    constructor
    · rintro ⟨b,hb,rest,hrest,h⟩
      exact ⟨b,rest,hb,hrest,(Except.ok.inj h).symm⟩
    · rintro ⟨b,rest,hb,hrest,rfl⟩
      exact ⟨b,hb,rest,hrest,rfl⟩

theorem mapM_eq_some {f : α → Option β} :
    l.mapM f = some m ↔ List.Forall₂ (fun a b => f a = some b) l m := by
  induction l generalizing m with
  | nil =>
    rw [List.mapM_nil,List.forall₂_nil_left_iff]
    exact ⟨fun h => (Option.some.inj h).symm,fun h => congrArg some h.symm⟩
  | cons a l ih =>
    rw [List.mapM_cons,List.forall₂_cons_left_iff]
    simp only [Option.bind_eq_bind,Option.bind_eq_some_iff,ih]
    constructor
    · rintro ⟨b,hb,rest,hrest,h⟩
      exact ⟨b,rest,hb,hrest,(Option.some.inj h).symm⟩
    · rintro ⟨b,rest,hb,hrest,rfl⟩
      exact ⟨b,hb,rest,hrest,rfl⟩

lemma mapM_ok {f : α → Except ε β} {g : α → β} (h : ∀ a ∈ l, f a = .ok (g a)) :
    l.mapM f = .ok (l.map g) :=
  mapM_eq_ok.mpr (List.forall₂_map_right_iff.mpr (List.forall₂_same.mpr h))

/-- Items that are read back one by one are read back together. -/
lemma mapM_map {get : β → Except ε α} {f : α → β} (h : ∀ a ∈ l, get (f a) = .ok a) :
    (l.map f).mapM get = .ok l :=
  mapM_eq_ok.mpr (List.forall₂_map_left_iff.mpr (List.forall₂_same.mpr h))

/-- A fold of steps that an invariant keeps from failing. -/
lemma foldlM_eq_some {f : α → β → α} {checked : α → β → Option α} (P : α → Prop) {l : List β}
    (hstep : ∀ a, P a → ∀ b ∈ l, checked a b = some (f a b) ∧ P (f a b)) {a : α} (h : P a) :
    l.foldlM checked a = some (l.foldl f a) ∧ P (l.foldl f a) := by
  induction l generalizing a with
  | nil => exact ⟨rfl,h⟩
  | cons b l ih =>
    obtain ⟨hchecked,hnext⟩ := hstep a h b List.mem_cons_self
    rw [List.foldlM_cons,hchecked,List.foldl_cons]
    exact ih (fun a' ha b' hb => hstep a' ha b' (List.mem_cons_of_mem _ hb)) hnext

end RagRuntime.Base
