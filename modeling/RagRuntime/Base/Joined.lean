import Mathlib.Data.List.Basic

/-! Fields joined by a separator, of which the first and the last may contain it. -/
namespace RagRuntime.Base

section split
variable {α : Type*} {sep : α} {a a' r r' : List α}

/-- Two ways to cut a list at a separator: at the same place, or one behind the other. -/
lemma append_cons_eq_append_cons : a ++ sep::r = a' ++ sep::r' ↔ (a = a' ∧ r = r') ∨
    (∃ z, a = a' ++ sep::z ∧ r' = z ++ sep::r) ∨ ∃ z, a' = a ++ sep::z ∧ r = z ++ sep::r' := by
  constructor
  · intro h
    rcases List.append_eq_append_iff.mp h with ⟨z,ha,hr⟩ | ⟨z,ha,hr⟩
    · cases z with
      | nil => exact Or.inl ⟨by simpa using ha.symm,by simpa using hr⟩
      | cons c z =>
        obtain ⟨rfl,hrest⟩ := List.cons.inj hr
        exact Or.inr (Or.inr ⟨z,ha,hrest⟩)
    · cases z with
      | nil => exact Or.inl ⟨by simpa using ha,by simpa using hr.symm⟩
      | cons c z =>
        obtain ⟨rfl,hrest⟩ := List.cons.inj hr
        exact Or.inr (Or.inl ⟨z,ha,hrest⟩)
  · rintro (⟨rfl,rfl⟩ | ⟨z,rfl,rfl⟩ | ⟨z,rfl,rfl⟩)
    · rfl
    · simp
    · simp

/-- The part before the first separator is determined by the whole. -/
lemma append_cons_inj (ha : sep ∉ a) (ha' : sep ∉ a') (h : a ++ sep::r = a' ++ sep::r') :
    a = a' ∧ r = r' := by
  rcases append_cons_eq_append_cons.mp h with h | ⟨z,rfl,-⟩ | ⟨z,rfl,-⟩
  · exact h
  · simp at ha
  · simp at ha'

/-- So is the part behind the last one. -/
lemma append_cons_inj_right (hr : sep ∉ r) (hr' : sep ∉ r') (h : a ++ sep::r = a' ++ sep::r') :
    a = a' ∧ r = r' := by
  rcases append_cons_eq_append_cons.mp h with h | ⟨z,-,rfl⟩ | ⟨z,-,rfl⟩
  · exact h
  · simp at hr'
  · simp at hr

end split

section joined
variable {α : Type*} (sep : α)

/-- The fields, each with a separator behind it, and what comes last. -/
def joined : List (List α) → List α → List α
  | [],last => last
  | f::fields,last => f ++ sep::joined fields last

/-- The fields, each behind a separator. -/
def trail (fields : List (List α)) : List α := fields.flatMap (sep::·)

/-- The text before the fields has taken some or all of them, and more: those that are left move to
the front, and the last text gives back as many. -/
def Slides (a : List α) (fields : List (List α)) (last a' : List α) (fields' : List (List α))
    (last' : List α) : Prop :=
  (∃ taken kept given, taken ≠ [] ∧ fields' = taken ++ kept ∧ fields = kept ++ given ∧
    a = a' ++ trail sep taken ∧ last' = joined sep given last) ∨
  ∃ z, a = a' ++ trail sep (fields' ++ [z]) ∧ last' = joined sep (z::fields) last

variable {sep} {fields fields' : List (List α)} {a a' last last' : List α}

lemma joined_append (fields fields' : List (List α)) (last : List α) :
    joined sep (fields ++ fields') last = joined sep fields (joined sep fields' last) := by
  induction fields with
  | nil => rfl
  | cons f fields ih => rw [List.cons_append,joined,ih,joined]

@[simp] lemma trail_cons (f : List α) (fields : List (List α)) :
    trail sep (f::fields) = sep::(f ++ trail sep fields) := rfl

lemma append_trail (a : List α) (fields : List (List α)) (last : List α) :
    joined sep (a::fields) last = a ++ trail sep fields ++ sep::last := by
  induction fields generalizing a with
  | nil => simp [joined,trail]
  | cons f fields ih =>
    rw [joined,ih,trail_cons]
    simp

/-- Fields without separators are determined by the whole, and the last text with them. -/
lemma joined_inj (hfields : ∀ f ∈ fields, sep ∉ f) (hfields' : ∀ f ∈ fields', sep ∉ f)
    (hlength : fields.length = fields'.length)
    (h : joined sep fields last = joined sep fields' last') : fields = fields' ∧ last = last' := by
  induction fields generalizing fields' with
  | nil =>
    obtain rfl := List.length_eq_zero_iff.mp hlength.symm
    exact ⟨rfl,h⟩
  | cons f fields ih =>
    cases fields' with
    | nil => cases hlength
    | cons f' fields' =>
      obtain ⟨hf,hrest⟩ := List.forall_mem_cons.mp hfields
      obtain ⟨hf',hrest'⟩ := List.forall_mem_cons.mp hfields'
      obtain ⟨rfl,hjoin⟩ := append_cons_inj hf hf' h
      obtain ⟨rfl,hlast⟩ := ih hrest hrest' (by simpa using hlength) hjoin
      exact ⟨rfl,hlast⟩

/-- Where a join of clean fields is cut at a separator: behind some of them, or in the last text. -/
lemma joined_eq_append_cons {z r : List α} (hfields : ∀ f ∈ fields, sep ∉ f)
    (h : joined sep fields last = z ++ sep::r) :
    (∃ taken kept, taken ≠ [] ∧ fields = taken ++ kept ∧ sep::z = trail sep taken ∧
      r = joined sep kept last) ∨
    ∃ w, sep::z = trail sep (fields ++ [w]) ∧ last = w ++ sep::r := by
  induction fields generalizing z with
  | nil => exact Or.inr ⟨z,by simp [trail],h⟩
  | cons f fields ih =>
    obtain ⟨hf,hrest⟩ := List.forall_mem_cons.mp hfields
    rcases append_cons_eq_append_cons.mp h with ⟨rfl,hr⟩ | ⟨w,rfl,-⟩ | ⟨w,rfl,hr⟩
    · exact Or.inl ⟨[f],fields,List.cons_ne_nil _ _,rfl,by simp [trail],hr.symm⟩
    · simp at hf
    · rcases ih hrest hr with ⟨taken,kept,-,rfl,hz,hr⟩ | ⟨last',hz,hlast⟩
      · exact Or.inl ⟨f::taken,kept,List.cons_ne_nil _ _,rfl,by rw [trail_cons,← hz],hr⟩
      · exact Or.inr ⟨last',by rw [List.cons_append,trail_cons,← hz],hlast⟩

lemma slides_of_longer {z : List α} (hfields : ∀ f ∈ fields, sep ∉ f)
    (hfields' : ∀ f ∈ fields', sep ∉ f) (hlength : fields.length = fields'.length)
    (ha : a = a' ++ sep::z) (h : joined sep fields' last' = z ++ sep::joined sep fields last) :
    Slides sep a fields last a' fields' last' := by
  rcases joined_eq_append_cons hfields' h with ⟨taken,kept,htaken,rfl,hz,hjoin⟩ | ⟨w,hz,hlast⟩
  · -- what is left of the fields is the beginning of the other ones
    rw [List.length_append] at hlength
    have hsplit := List.take_append_drop kept.length fields
    rw [← hsplit,joined_append] at hjoin
    obtain ⟨hkept,hlast⟩ := joined_inj (fun f hf => hfields f (List.mem_of_mem_take hf))
      (fun f hf => hfields' f (List.mem_append_right _ hf))
      (by rw [List.length_take]; omega) hjoin
    rw [hkept] at hsplit
    exact Or.inl ⟨taken,kept,fields.drop kept.length,htaken,rfl,hsplit.symm,by rw [ha,hz],
      hlast.symm⟩
  · exact Or.inr ⟨w,by rw [ha,hz],hlast⟩

lemma joined_of_slides (h : Slides sep a fields last a' fields' last') :
    joined sep (a::fields) last = joined sep (a'::fields') last' := by
  rcases h with ⟨taken,kept,given,-,rfl,rfl,rfl,rfl⟩ | ⟨z,rfl,rfl⟩
  · rw [append_trail,append_trail]
    cases given with
    | nil => simp [trail,joined]
    | cons f given => simp [append_trail,trail]
  · rw [append_trail,append_trail,append_trail]
    simp [trail]

/-- Two joins of equally many clean fields agree if all agrees, or if one slides over the other. -/
theorem joined_eq_joined_iff (hfields : ∀ f ∈ fields, sep ∉ f) (hfields' : ∀ f ∈ fields', sep ∉ f)
    (hlength : fields.length = fields'.length) :
    joined sep (a::fields) last = joined sep (a'::fields') last' ↔
      (a = a' ∧ fields = fields' ∧ last = last') ∨ Slides sep a fields last a' fields' last' ∨
        Slides sep a' fields' last' a fields last := by
  constructor
  · intro h
    rcases append_cons_eq_append_cons.mp h with ⟨rfl,hsame⟩ | ⟨z,ha,h⟩ | ⟨z,ha,h⟩
    · exact Or.inl ⟨rfl,joined_inj hfields hfields' hlength hsame⟩
    · exact Or.inr (Or.inl (slides_of_longer hfields hfields' hlength ha h))
    · exact Or.inr (Or.inr (slides_of_longer hfields' hfields hlength.symm ha h))
  · rintro (⟨rfl,rfl,rfl⟩ | h | h)
    · rfl
    · exact joined_of_slides h
    · exact (joined_of_slides h).symm

/-- A slide makes the first text longer. -/
lemma Slides.length_lt (h : Slides sep a fields last a' fields' last') : a'.length < a.length := by
  rcases h with ⟨taken,kept,given,htaken,-,-,rfl,-⟩ | ⟨z,rfl,-⟩
  · cases taken with
    | nil => exact absurd rfl htaken
    | cons f taken =>
      simp only [trail_cons,List.length_append,List.length_cons]
      omega
  · cases fields' with
    | nil =>
      simp only [List.nil_append,trail_cons,List.length_append,List.length_cons]
      omega
    | cons f fields' =>
      simp only [List.cons_append,trail_cons,List.length_append,List.length_cons]
      omega

end joined
end RagRuntime.Base
