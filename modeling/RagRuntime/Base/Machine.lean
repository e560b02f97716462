import Mathlib.Tactic.Common

/-! Runs of a machine whose steps are chosen by its environment. A step that is not
enabled gives `none`. Conditions are put on steps; what a step preserves under its
condition, a run whose steps all meet the condition preserves. -/
namespace RagRuntime.Base.Machine

variable {σ ε : Type*}

def run (step : σ → ε → Option σ) : σ → List ε → Option σ
  | s,[] => some s
  | s,e::es => (step s e).bind fun t => run step t es

/-- Every step of the run is taken in a state and with a choice that meet `C`. -/
def Meets (step : σ → ε → Option σ) (C : σ → ε → Prop) : σ → List ε → Prop
  | _,[] => True
  | s,e::es => C s e ∧ ∀ t, step s e = some t → Meets step C t es

/-- A condition that can be decided can be decided along a run. -/
instance decidableMeets (step : σ → ε → Option σ) (C : σ → ε → Prop) [∀ s e, Decidable (C s e)] :
    ∀ s es, Decidable (Meets step C s es)
  | _,[] => isTrue trivial
  | s,e::es =>
    match h : step s e with
    | none => decidable_of_iff (C s e)
        ⟨fun hc => ⟨hc,fun t ht => by rw [h] at ht; cases ht⟩,And.left⟩
    | some t =>
      have := decidableMeets step C t es
      decidable_of_iff (C s e ∧ Meets step C t es)
        ⟨fun hc => ⟨hc.1,fun u hu => by rw [h] at hu; cases hu; exact hc.2⟩,
          fun hc => ⟨hc.1,hc.2 t h⟩⟩

@[simp] theorem run_nil (step : σ → ε → Option σ) (s : σ) : run step s [] = some s := rfl

theorem run_cons_eq_some {step : σ → ε → Option σ} {s u : σ} {e : ε} {es : List ε} :
    run step s (e::es) = some u ↔ ∃ t, step s e = some t ∧ run step t es = some u := by
  simp [run,Option.bind_eq_some_iff]

theorem run_of_isSome {step : σ → ε → Option σ} {s : σ} {es : List ε} (d : σ)
    (h : (run step s es).isSome) : run step s es = some ((run step s es).getD d) := by
  obtain ⟨t,ht⟩ := Option.isSome_iff_exists.mp h
  rw [ht,Option.getD_some]

theorem run_append {step : σ → ε → Option σ} (s : σ) (es fs : List ε) :
    run step s (es ++ fs) = (run step s es).bind fun t => run step t fs := by
  induction es generalizing s with
  | nil => rfl
  | cons e es ih =>
    simp only [List.cons_append,run,Option.bind_assoc]
    congr 1
    funext t
    exact ih t

/-- What is asked of a run is asked of its later part. -/
theorem Meets.behind {step : σ → ε → Option σ} {C : σ → ε → Prop} {s t : σ} {es fs : List ε}
    (h : Meets step C s (es ++ fs)) (hr : run step s es = some t) : Meets step C t fs := by
  induction es generalizing s with
  | nil =>
    cases hr
    exact h
  | cons e es ih =>
    obtain ⟨u,hu,hr⟩ := run_cons_eq_some.mp hr
    exact ih (h.2 u hu) hr

/-- The invariant rule. -/
theorem run_invariant {step : σ → ε → Option σ} {C : σ → ε → Prop} {I : σ → Prop}
    (hstep : ∀ s e t, I s → C s e → step s e = some t → I t) {s t : σ} {es : List ε}
    (h0 : I s) (hc : Meets step C s es) (hr : run step s es = some t) : I t := by
  induction es generalizing s with
  | nil => cases hr; exact h0
  | cons e es ih =>
    obtain ⟨u,hu,hr⟩ := run_cons_eq_some.mp hr
    exact ih (hstep s e u h0 hc.1 hu) (hc.2 u hu) hr

/-- Where the condition enables the steps, a run that meets it goes through. -/
theorem exists_run {step : σ → ε → Option σ} {C : σ → ε → Prop} {I : σ → Prop}
    (hstep : ∀ s e, I s → C s e → ∃ t, step s e = some t ∧ I t) {s : σ} {es : List ε} (h0 : I s)
    (hc : Meets step C s es) : ∃ t, run step s es = some t ∧ I t := by
  induction es generalizing s with
  | nil => exact ⟨s,rfl,h0⟩
  | cons e es ih =>
    obtain ⟨t,ht,hi⟩ := hstep s e h0 hc.1
    obtain ⟨u,hu,hi'⟩ := ih hi (hc.2 t ht)
    exact ⟨u,run_cons_eq_some.mpr ⟨t,ht,hu⟩,hi'⟩

/-- What holds of the steps of a run because an invariant holds where they are taken. -/
theorem meets_of_invariant {step : σ → ε → Option σ} {C P : σ → ε → Prop} {I : σ → Prop}
    (hstep : ∀ s e t, I s → C s e → step s e = some t → I t) (hmeets : ∀ s e, I s → C s e → P s e)
    {s : σ} {es : List ε} (h0 : I s) (hc : Meets step C s es) : Meets step P s es := by
  induction es generalizing s with
  | nil => trivial
  | cons e es ih =>
    exact ⟨hmeets s e h0 hc.1,fun t ht => ih (hstep s e t h0 hc.1 ht) (hc.2 t ht)⟩

theorem meets_of_forall {step : σ → ε → Option σ} {p : ε → Prop} (s : σ) {es : List ε}
    (h : ∀ e ∈ es, p e) : Meets step (fun _ e => p e) s es := by
  induction es generalizing s with
  | nil => trivial
  | cons e es ih =>
    exact ⟨h e List.mem_cons_self,fun t _ => ih t fun x hx => h x (List.mem_cons_of_mem e hx)⟩

theorem Meets.and {step : σ → ε → Option σ} {C P : σ → ε → Prop} {s : σ} {es : List ε}
    (hc : Meets step C s es) (hp : Meets step P s es) :
    Meets step (fun s e => C s e ∧ P s e) s es := by
  induction es generalizing s with
  | nil => trivial
  | cons e es ih => exact ⟨⟨hc.1,hp.1⟩,fun t ht => ih (hc.2 t ht) (hp.2 t ht)⟩

theorem meets_true {step : σ → ε → Option σ} (s : σ) (es : List ε) :
    Meets step (fun _ _ => True) s es := by
  induction es generalizing s with
  | nil => trivial
  | cons e es ih => exact ⟨trivial,fun t _ => ih t⟩

/-- The invariant rule without a condition on the steps. -/
theorem run_invariant' {step : σ → ε → Option σ} {I : σ → Prop}
    (hstep : ∀ s e t, I s → step s e = some t → I t) {s t : σ} {es : List ε}
    (h0 : I s) (hr : run step s es = some t) : I t :=
  run_invariant (fun s e t hi _ hs => hstep s e t hi hs) h0 (meets_true s es) hr

/-- Runs of which one leaves out steps stay related, if the steps left out do not matter and the
others are matched. -/
theorem run_filter {step : σ → ε → Option σ} {C : σ → ε → Prop} {R : σ → σ → Prop} {p : ε → Bool}
    (hkeep : ∀ s t e s', R s t → p e = true → C s e → C t e → step s e = some s' →
      ∃ t', step t e = some t' ∧ R s' t')
    (hdrop : ∀ s t e s', R s t → p e = false → step s e = some s' → R s' t)
    {s t u : σ} {es : List ε} (h0 : R s t) (hs : Meets step C s es)
    (ht : Meets step C t (es.filter p)) (hr : run step s es = some u) :
    ∃ v, run step t (es.filter p) = some v ∧ R u v := by
  induction es generalizing s t with
  | nil =>
    cases hr
    exact ⟨t,rfl,h0⟩
  | cons e es ih =>
    obtain ⟨s',hs',hr⟩ := run_cons_eq_some.mp hr
    cases hp : p e with
    | false =>
      rw [List.filter_cons_of_neg (by simp [hp])] at ht ⊢
      exact ih (hdrop s t e s' h0 hp hs') (hs.2 s' hs') ht hr
    | true =>
      rw [List.filter_cons_of_pos hp] at ht ⊢
      obtain ⟨t',ht',hrel⟩ := hkeep s t e s' h0 hp hs.1 ht.1 hs'
      obtain ⟨v,hv,hrel⟩ := ih hrel (hs.2 s' hs') (ht.2 t' ht') hr
      exact ⟨v,run_cons_eq_some.mpr ⟨t',ht',hv⟩,hrel⟩

end RagRuntime.Base.Machine
