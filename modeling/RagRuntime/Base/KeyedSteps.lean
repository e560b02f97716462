import RagRuntime.Base.Tally

/-! A list of steps, each for a key, of which every key has a value taken through its own ones. -/
namespace RagRuntime.Base

variable {ι K : Type*} [DecidableEq ι]

/-- What the steps of a key make of a value, one after the other. -/
def passed (l : List (ι × (K → K))) (i : ι) (start : K) : K :=
  l.foldl (fun value e => if e.1 = i then e.2 value else value) start

@[simp] lemma passed_nil (i : ι) (start : K) : passed [] i start = start := rfl

lemma passed_append (l l' : List (ι × (K → K))) (i : ι) (start : K) :
    passed (l ++ l') i start = passed l' i (passed l i start) := by
  rw [passed,List.foldl_append]
  rfl

lemma passed_cons (e : ι × (K → K)) (l : List (ι × (K → K))) (i : ι) (start : K) :
    passed (e::l) i start = passed l i (if e.1 = i then e.2 start else start) := rfl

lemma passed_of_not_mem {l : List (ι × (K → K))} {i : ι} (h : i ∉ l.map Prod.fst) (start : K) :
    passed l i start = start := by
  induction l with
  | nil => rfl
  | cons e l ih =>
    rw [List.map_cons,List.mem_cons,not_or] at h
    rw [passed_cons,if_neg (Ne.symm h.1),ih h.2]

lemma passed_flatMap {α : Type*} (f : α → List (ι × (K → K))) (as : List α) (i : ι) (start : K) :
    passed (as.flatMap f) i start = as.foldl (fun value a => passed (f a) i value) start := by
  induction as generalizing start with
  | nil => rfl
  | cons a as ih => rw [List.flatMap_cons,passed_append,ih,List.foldl_cons]

/-- With one step for each key, a value takes the one of its key. -/
lemma passed_map {α : Type*} (key : α → ι) (step : α → K → K) {as : List α}
    (has : (as.map key).Nodup) (i : ι) (start : K) :
    passed (as.map fun a => (key a,step a)) i start =
      match as.find? fun a => key a = i with
      | some a => step a start
      | none => start := by
  induction as with
  | nil => rfl
  | cons a as ih =>
    obtain ⟨hnot,has⟩ := List.nodup_cons.mp has
    rw [List.map_cons,passed_cons]
    by_cases hi : key a = i
    · rw [if_pos hi,List.find?_cons_of_pos (by simpa using hi),passed_of_not_mem]
      rw [List.map_map,← hi]
      exact hnot
    · rw [if_neg hi,List.find?_cons_of_neg (by simpa using hi),ih has]

section signs
variable [Preorder K] [Zero K]

/-- A key with steps that only add has more than nothing. -/
lemma passed_pos {l : List (ι × (K → K))} (h : ∀ e ∈ l, ∀ x, 0 ≤ x → 0 < e.2 x) {i : ι}
    (hi : i ∈ l.map Prod.fst) : 0 < passed l i 0 := by
  induction l using List.reverseRecOn with
  | nil => cases hi
  | append_singleton l e ih =>
    have hbefore : ∀ e ∈ l, ∀ x, 0 ≤ x → 0 < e.2 x := fun a ha => h a (List.mem_append_left _ ha)
    rw [passed_append,passed_cons,passed_nil]
    by_cases hold : i ∈ l.map Prod.fst
    · split_ifs
      · exact h e (by simp) _ (ih hbefore hold).le
      · exact ih hbefore hold
    · rw [List.map_append,List.mem_append] at hi
      have heq : i = e.1 := by simpa using hi.resolve_left hold
      rw [passed_of_not_mem hold,if_pos heq.symm]
      exact h e (by simp) 0 le_rfl

lemma passed_eq_zero {l : List (ι × (K → K))} (h : ∀ e ∈ l, ∀ x, 0 ≤ x → 0 < e.2 x) {i : ι} :
    passed l i 0 = 0 ↔ i ∉ l.map Prod.fst :=
  ⟨fun hzero hi => (passed_pos h hi).ne' hzero,fun hi => passed_of_not_mem hi 0⟩

end signs

/-- The map whose values are stepped entry by entry, from zero for a key that is new. -/
theorem find?_foldl_passed {ι : Type*} [LinearOrder ι] [Zero K] (l : List (ι × (K → K))) (i : ι) :
    (l.foldl (fun (m : OrdMap ι K) e => m.insert e.1 (e.2 ((m.find? e.1).getD 0))) ∅).find? i =
      if i ∈ l.map Prod.fst then some (passed l i 0) else none := by
  induction l using List.reverseRecOn with
  | nil => rfl
  | append_singleton l e ih =>
    rw [List.foldl_append,List.foldl_cons,List.foldl_nil,OrdMap.find?_insert,passed_append,
      passed_cons,passed_nil]
    have hmem : i ∈ (l ++ [e]).map Prod.fst ↔ i ∈ l.map Prod.fst ∨ i = e.1 := by simp
    by_cases hi : i = e.1
    · subst hi
      rw [if_pos rfl,if_pos (hmem.mpr (.inr rfl)),if_pos rfl,ih]
      by_cases hold : e.1 ∈ l.map Prod.fst
      · rw [if_pos hold,Option.getD_some]
      · rw [if_neg hold,passed_of_not_mem hold,Option.getD_none]
    · rw [if_neg hi,ih,if_neg (Ne.symm hi)]
      simp only [hmem,hi,or_false]

end RagRuntime.Base
