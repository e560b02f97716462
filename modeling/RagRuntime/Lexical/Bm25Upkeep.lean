import RagRuntime.Base.Machine
import RagRuntime.Lexical.Bm25Growth

/-! When the derived data of a lexical index are up to date, over all of its calls. -/
namespace RagRuntime.Lexical
open RagRuntime.Base RagRuntime.Core RagRuntime.Store Decoder

namespace Bm25Index

/-- The cached quantities are those that `finalize` would compute. -/
structure UpToDate (index : Bm25Index) : Prop where
  avgdl : index.avgdl = index.finalize.avgdl
  denseLen : index.denseLen = index.finalize.denseLen
  weights : index.weights = index.finalize.weights

inductive Call where
  | add (id : ℕ) (text : Bytes)
  | finalize
  | search (query : Bytes) (k : ℕ)
  | serialize
  | deserialize (blob : Bytes)

/-- What is read from a blob takes the place of the index; a search and a `serialize` are
`const`. -/
def step (analysis : Analysis) (index : Bm25Index) : Call → Option Bm25Index
  | .add id text => some (index.add id text)
  | .finalize => some index.finalize
  | .search _ _ => some index
  | .serialize => some index
  | .deserialize blob =>
    match Bm25Index.deserialize analysis blob with
    | .ok next => some next
    | .error _ => some index

/-- A text without terms finds the index open, or its document without terms. -/
def Timely (index : Bm25Index) : Call → Prop
  | .add id text => index.analysis.tokenize text = [] → index.finalized = true →
      index.docLen.find? id = some 0
  | _ => True

instance (index : Bm25Index) (call : Call) : Decidable (index.Timely call) := by
  cases call <;> unfold Timely <;> infer_instance

def Kept (index : Bm25Index) : Prop := index.finalized = true → index.UpToDate

variable {index : Bm25Index}

lemma upToDate_finalize (index : Bm25Index) : index.finalize.UpToDate := ⟨rfl,rfl,rfl⟩

/-- A length that is there already changes nothing. -/
lemma insert_length_self {docLen : OrdMap ℕ ℕ} {id len : ℕ} (h : docLen.find? id = some len) :
    docLen.insert id len = docLen := by
  ext d
  rw [OrdMap.find?_insert]
  split_ifs with hd
  · rw [hd,h]
  · rfl

lemma Kept.add (h : index.Kept) {id : ℕ} {text : Bytes} (htimely : index.Timely (.add id text)) :
    (index.add id text).Kept := by
  intro hfinal
  unfold Bm25Index.add at hfinal ⊢
  dsimp only at hfinal ⊢
  split_ifs at hfinal ⊢ with hterms
  have hsame := insert_length_self (htimely hterms hfinal)
  rw [hsame]
  exact h hfinal

lemma Kept.step {analysis : Analysis} {call : Call} {next : Bm25Index} (h : index.Kept)
    (htimely : index.Timely call) (hstep : index.step analysis call = some next) : next.Kept := by
  cases call with
  | add id text =>
    cases hstep
    exact h.add htimely
  | finalize =>
    cases hstep
    exact fun _ => upToDate_finalize index
  | search query k =>
    cases hstep
    exact h
  | serialize =>
    cases hstep
    exact h
  | deserialize blob =>
    unfold Bm25Index.step at hstep
    cases hread : Bm25Index.deserialize analysis blob with
    | error e =>
      simp only [hread] at hstep
      cases hstep
      exact h
    | ok found =>
      simp only [hread] at hstep
      cases hstep
      unfold Bm25Index.deserialize at hread
      cases hwhole : (readIndex analysis).whole (corrupt "trailing bm25 data") blob with
      | error e =>
        rw [hwhole] at hread
        cases hread
      | ok front =>
        rw [hwhole] at hread
        cases hread
        exact fun _ => upToDate_finalize front

/-- An index that says it is finalised is up to date, as long as no text without terms comes to one
that is finalised. -/
theorem upToDate_of_run {analysis analysis' : Analysis} {params : Bm25Params} {calls : List Call}
    {next : Bm25Index}
    (hmeets : Machine.Meets (step analysis') Timely { empty analysis with params := params } calls)
    (hrun : Machine.run (step analysis') { empty analysis with params := params } calls =
      some next) (hfinal : next.finalized = true) : next.UpToDate := by
  have hstart : Kept { empty analysis with params := params } := fun h => by cases h
  have hkept := Machine.run_invariant (I := Kept) (fun _ _ _ h hc hs => Kept.step h hc hs) hstart
    hmeets hrun
  exact hkept hfinal

/-- A text is a single term. -/
def wholeTerm : Analysis := ⟨fun text => if text = [] then [] else [text],fun _ _ => 1⟩

def refinalised : List Call := [.add 0 [97],.finalize,.add 1 [98],.search [97] 1,.finalize]

theorem refinalised_upToDate : ∃ next,
    Machine.run (step wholeTerm) (empty wholeTerm) refinalised = some next ∧ next.UpToDate := by
  have hmeets : Machine.Meets (step wholeTerm) Timely
      { empty wholeTerm with params := {} } refinalised := by decide +kernel
  exact ⟨_,rfl,upToDate_of_run hmeets rfl rfl⟩

/-- The second document has no terms, and halves the average length all the same. -/
theorem empty_text_unnoticed : ∃ next,
    Machine.run (step wholeTerm) (empty wholeTerm) [.add 0 [97],.finalize,.add 1 []] = some next ∧
      next.finalized = true ∧ ¬ next.UpToDate := by
  refine ⟨_,rfl,rfl,fun h => ?_⟩
  exact absurd h.avgdl (by decide +kernel)

end Bm25Index
end RagRuntime.Lexical
