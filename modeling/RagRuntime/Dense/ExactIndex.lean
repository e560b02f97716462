import Mathlib.Algebra.Order.Group.Unbundled.Abs
import Mathlib.Algebra.Order.Ring.Abs
import Mathlib.Data.Rat.Defs
import RagRuntime.Backend.Types
import RagRuntime.Base.TopK

/-! The exact inner-product index over rational vectors. -/
namespace RagRuntime.Dense
open RagRuntime.Base RagRuntime.Core RagRuntime.Backend

structure VectorRecord where
  key : Bytes
  vector : Vec
  deriving DecidableEq

def dot (a b : Vec) : ℚ := (List.zipWith (· * ·) a b).sum

/-- The `float` nearest to 1.0e-3. -/
def kUnitTolerance : ℚ := 8589935/8589934592

def normalized (v : Vec) : Bool := v ≠ [] ∧ |dot v v - 1| ≤ kUnitTolerance

/-- Score descending, chunk key ascending. -/
def CandidateOrder (a b : Candidate) : Prop :=
  b.rawScore < a.rawScore ∨ a.rawScore = b.rawScore ∧ a.chunk ≤ b.chunk

instance : DecidableRel CandidateOrder := fun a b => by
  unfold CandidateOrder
  infer_instance

instance : Std.Total CandidateOrder := ⟨fun a b => by
  unfold CandidateOrder
  obtain h | h | h := lt_trichotomy a.rawScore b.rawScore
  · exact Or.inr (Or.inl h)
  · exact (le_total a.chunk b.chunk).imp (fun hk => Or.inr ⟨h,hk⟩) (fun hk => Or.inr ⟨h.symm,hk⟩)
  · exact Or.inl (Or.inl h)⟩

instance : IsTrans Candidate CandidateOrder := ⟨fun a b c hab hbc => by
  unfold CandidateOrder at *
  obtain hab | ⟨hab,hkab⟩ := hab <;> obtain hbc | ⟨hbc,hkbc⟩ := hbc
  · exact Or.inl (hbc.trans hab)
  · exact Or.inl (hbc ▸ hab)
  · exact Or.inl (hab ▸ hbc)
  · exact Or.inr ⟨hab.trans hbc,hkab.trans hkbc⟩⟩

/-- The rows in the order they were built from. -/
structure NativeExactIndex where
  rows : List VectorRecord
  dimension : ℕ
  deriving DecidableEq

namespace NativeExactIndex

def empty : NativeExactIndex := ⟨[],0⟩

/-- The checks of `build` on the rows from one on; `seen` are the keys before it. -/
def checkRows (dimension : ℕ) : List VectorRecord → List Bytes → Result Unit
  | [],_ => .ok ()
  | row::rows,seen =>
    if row.key = [] then fail .invalidArgument "dense vector key must not be empty"
    else if row.key ∈ seen then fail .alreadyExists "duplicate dense vector key"
    else if row.vector.length ≠ dimension then
      fail .dimensionMismatch "dense vector dimensions differ"
    else if normalized row.vector = false then
      fail .invalidArgument "dense vector is not unit normalized"
    else checkRows dimension rows (row.key::seen)

def firstDimension : List VectorRecord → ℕ
  | [] => 0
  | row::_ => row.vector.length

def build (source : List VectorRecord) : Result NativeExactIndex :=
  if source ≠ [] ∧ firstDimension source = 0 then
    fail .invalidArgument "dense vectors must not be empty"
  else do
    checkRows (firstDimension source) source []
    return ⟨source,firstDimension source⟩

def candidate (query : Vec) (row : VectorRecord) : Candidate :=
  ⟨row.key,dot query row.vector,.cosine⟩

/-- An empty allow-list allows all rows. -/
def search (index : NativeExactIndex) (query : Vec) (allowed : List Bytes) (k : ℕ) :
    Result CandidateList :=
  if k = 0 ∨ index.rows = [] then .ok []
  else if query.length ≠ index.dimension then
    fail .dimensionMismatch "query dimension does not match dense index"
  else if normalized query = false then
    fail .invalidArgument "dense query is not unit normalized"
  else .ok (topK CandidateOrder k
    ((index.rows.filter fun row => allowed = [] ∨ row.key ∈ allowed).map (candidate query)))

end NativeExactIndex

/-- Rows an index can be built from. -/
structure ValidRows (rows : List VectorRecord) (dimension : ℕ) : Prop where
  keys : ∀ row ∈ rows, row.key ≠ []
  nodup : (rows.map VectorRecord.key).Nodup
  dimension : ∀ row ∈ rows, row.vector.length = dimension
  normalized : ∀ row ∈ rows, normalized row.vector = true

lemma ValidRows.nil (dimension : ℕ) : ValidRows [] dimension :=
  ⟨by simp,by simp,by simp,by simp⟩

lemma normalized_length_pos {v : Vec} (h : normalized v = true) : 0 < v.length := by
  simp only [normalized,decide_eq_true_eq] at h
  exact List.length_pos_of_ne_nil h.1

namespace NativeExactIndex

lemma checkRows_eq_ok {dimension : ℕ} {rows : List VectorRecord} {seen : List Bytes} :
    checkRows dimension rows seen = .ok () ↔
      ValidRows rows dimension ∧ ∀ row ∈ rows, row.key ∉ seen := by
  induction rows generalizing seen with
  | nil => simp [checkRows,ValidRows.nil]
  | cons row rows ih =>
    simp only [checkRows]
    constructor
    · intro h
      split_ifs at h with h1 h2 h3 h4
      all_goals first | cases h | skip
      obtain ⟨hrows,hseen⟩ := ih.mp h
      refine ⟨⟨?_,?_,?_,?_⟩,?_⟩
      · simpa using ⟨h1,hrows.keys⟩
      · rw [List.map_cons,List.nodup_cons]
        refine ⟨?_,hrows.nodup⟩
        intro hmem
        obtain ⟨other,hother,hkey⟩ := List.mem_map.mp hmem
        exact hseen other hother (by simp [hkey])
      · simpa using ⟨not_ne_iff.mp h3,hrows.dimension⟩
      · simpa using ⟨by simpa using h4,hrows.normalized⟩
      · intro other hother
        obtain rfl | hother := List.mem_cons.mp hother
        · exact h2
        · exact fun hmem => hseen other hother (List.mem_cons_of_mem _ hmem)
    · rintro ⟨hvalid,hseen⟩
      obtain ⟨hnot,hnodup⟩ := List.nodup_cons.mp hvalid.nodup
      rw [if_neg (hvalid.keys row (by simp)),if_neg (hseen row (by simp)),
        if_neg (not_ne_iff.mpr (hvalid.dimension row (by simp))),
        if_neg (by simp [hvalid.normalized row (by simp)])]
      apply ih.mpr
      refine ⟨⟨fun r hr => hvalid.keys r (by simp [hr]),hnodup,
        fun r hr => hvalid.dimension r (by simp [hr]),
        fun r hr => hvalid.normalized r (by simp [hr])⟩,?_⟩
      intro other hother hmem
      obtain heq | hmem := List.mem_cons.mp hmem
      · exact hnot (heq ▸ List.mem_map_of_mem hother)
      · exact hseen other (by simp [hother]) hmem

theorem build_eq_ok {source : List VectorRecord} {index : NativeExactIndex} :
    build source = .ok index ↔
      ValidRows source (firstDimension source) ∧ index = ⟨source,firstDimension source⟩ := by
  unfold build
  constructor
  · intro h
    split_ifs at h with hempty
    · cases h
    · cases hcheck : checkRows (firstDimension source) source [] with
      | error e =>
        rw [hcheck] at h
        cases h
      | ok u =>
        rw [hcheck] at h
        cases h
        exact ⟨(checkRows_eq_ok.mp hcheck).1,rfl⟩
  · rintro ⟨hvalid,rfl⟩
    have hzero : ¬(source ≠ [] ∧ firstDimension source = 0) := by
      rintro ⟨hne,hdim⟩
      obtain ⟨row,rows,rfl⟩ := List.exists_cons_of_ne_nil hne
      have := normalized_length_pos (hvalid.normalized row (by simp))
      rw [firstDimension] at hdim
      omega
    rw [if_neg hzero,checkRows_eq_ok.mpr ⟨hvalid,by simp⟩]
    rfl

end NativeExactIndex

lemma firstDimension_eq {rows : List VectorRecord} {dimension : ℕ} (hne : rows ≠ [])
    (h : ∀ row ∈ rows, row.vector.length = dimension) :
    NativeExactIndex.firstDimension rows = dimension := by
  cases rows with
  | nil => exact absurd rfl hne
  | cons row rows => exact h row (by simp)

lemma ValidRows.firstDimension {rows : List VectorRecord} {dimension : ℕ}
    (h : ValidRows rows dimension) : ValidRows rows (NativeExactIndex.firstDimension rows) := by
  by_cases hne : rows = []
  · rw [hne]
    exact ValidRows.nil _
  · rwa [firstDimension_eq hne h.dimension]

end RagRuntime.Dense
