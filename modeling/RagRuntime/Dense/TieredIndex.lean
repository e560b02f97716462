import Mathlib.Data.Finset.Lattice.Basic
import RagRuntime.Dense.ExactIndex

/-! The two-tier dense index: a replaceable base, an exact delta, and tombstones that hide
rows of the base. -/
namespace RagRuntime.Dense
open RagRuntime.Base RagRuntime.Core RagRuntime.Backend

inductive DenseAlgorithm where
  | automatic
  | exact
  | hnsw
  deriving DecidableEq, Repr

structure DensePolicy where
  algorithm : DenseAlgorithm := .automatic
  exactThreshold : ℕ := 2000
  deriving DecidableEq

def resolveDenseAlgorithm (policy : DensePolicy) (vectorCount : ℕ) : Result DenseAlgorithm :=
  if policy.exactThreshold = 0 then
    fail .invalidArgument "dense exact threshold must be non-zero"
  else match policy.algorithm with
    | .automatic => .ok (if vectorCount < policy.exactThreshold then .exact else .hnsw)
    | algorithm => .ok algorithm

/-- The approximate index that a policy other than the exact one builds. -/
class ApproximateIndex (β : Type) where
  build : List VectorRecord → Result β
  search : β → Vec → List Bytes → ℕ → Result CandidateList

inductive DenseIndex (β : Type) where
  | exact (index : NativeExactIndex)
  | approximate (index : β)

variable {β : Type}

def buildDenseIndex [ApproximateIndex β] (policy : DensePolicy) (source : List VectorRecord) :
    Result (DenseIndex β) := do
  match ← resolveDenseAlgorithm policy source.length with
  | .hnsw => return .approximate (← ApproximateIndex.build source)
  | _ => return .exact (← NativeExactIndex.build source)

def DenseIndex.search [ApproximateIndex β] (index : DenseIndex β) (query : Vec)
    (allowed : List Bytes) (k : ℕ) : Result CandidateList :=
  match index with
  | .exact index => index.search query allowed k
  | .approximate index => ApproximateIndex.search index query allowed k

structure DenseBase (β : Type) where
  index : DenseIndex β
  keys : Finset Bytes
  dimension : ℕ

structure TieredDenseIndex (β : Type) where
  base : DenseBase β
  delta : NativeExactIndex
  deltaKeys : Finset Bytes
  tombstones : Finset Bytes
  dimension : ℕ

def rowKeys (rows : List VectorRecord) : Finset Bytes := (rows.map VectorRecord.key).toFinset

namespace TieredDenseIndex

def empty : TieredDenseIndex β :=
  ⟨⟨.exact NativeExactIndex.empty,∅,0⟩,NativeExactIndex.empty,∅,∅,0⟩

def containsBase (t : TieredDenseIndex β) (key : Bytes) : Bool :=
  key ∈ t.base.keys ∧ key ∉ t.tombstones

def containsDelta (t : TieredDenseIndex β) (key : Bytes) : Bool := key ∈ t.deltaKeys

/-- The checks of `with_delta` on the rows of the new delta. -/
def checkDelta (base : DenseBase β) (tombstones : Finset Bytes) (dimension : ℕ) :
    List VectorRecord → Result Unit
  | [] => .ok ()
  | row::rows =>
    if row.vector.length ≠ dimension then
      fail .dimensionMismatch "dense delta row dimension is invalid"
    else if row.key ∈ base.keys ∧ row.key ∉ tombstones then
      fail .alreadyExists "dense row is already represented by base"
    else checkDelta base tombstones dimension rows

def withDelta (t : TieredDenseIndex β) (liveDelta : List VectorRecord) (tombstones : Finset Bytes)
    (dimension : ℕ) : Result (TieredDenseIndex β) :=
  if t.base.dimension ≠ 0 ∧ dimension ≠ 0 ∧ t.base.dimension ≠ dimension then
    fail .dimensionMismatch "dense delta dimension is incompatible with base"
  else if ¬tombstones ⊆ t.base.keys then
    fail .invalidArgument "dense tombstone does not belong to base"
  else do
    checkDelta t.base tombstones dimension liveDelta
    let delta ← NativeExactIndex.build liveDelta
    return ⟨t.base,delta,rowKeys liveDelta,tombstones,dimension⟩

def compact [ApproximateIndex β] (liveVectors : List VectorRecord) (dimension : ℕ)
    (policy : DensePolicy) : Result (TieredDenseIndex β) :=
  if liveVectors.any fun row => row.vector.length ≠ dimension then
    fail .dimensionMismatch "dense base row dimension is invalid"
  else do
    let index ← buildDenseIndex policy liveVectors
    return ⟨⟨index,rowKeys liveVectors,dimension⟩,NativeExactIndex.empty,∅,∅,dimension⟩

/-- Keep the first candidate of every chunk. -/
def dedup : CandidateList → List Bytes → CandidateList
  | [],_ => []
  | c::rest,seen => if c.chunk ∈ seen then dedup rest seen else c::dedup rest (c.chunk::seen)

/-- A tier is searched unless none of its rows is allowed. -/
def searchTier (search : List Bytes → Result CandidateList) (allowed : List Bytes) :
    Result CandidateList := if allowed = [] then .ok [] else search allowed

def search [ApproximateIndex β] (t : TieredDenseIndex β) (query : Vec)
    (baseAllowed deltaAllowed : List Bytes) (k : ℕ) : Result CandidateList := do
  let base ← searchTier (t.base.index.search query · k) baseAllowed
  let delta ← searchTier (t.delta.search query · k) deltaAllowed
  let merged := dedup ((base ++ delta).insertionSort CandidateOrder) []
  return if k = 0 then merged else merged.take k

lemma checkDelta_eq_ok {base : DenseBase β} {tombstones : Finset Bytes} {dimension : ℕ}
    {rows : List VectorRecord} : checkDelta base tombstones dimension rows = .ok () ↔
      ∀ row ∈ rows, row.vector.length = dimension ∧
      (row.key ∈ base.keys → row.key ∈ tombstones) := by
  induction rows with
  | nil => simp [checkDelta]
  | cons row rows ih =>
    simp only [checkDelta,List.forall_mem_cons]
    split_ifs with h1 h2
    · simp only [fail,reduceCtorEq,false_iff]
      exact fun h => h1 h.1.1
    · simp only [fail,reduceCtorEq,false_iff]
      exact fun h => h2.2 (h.1.2 h2.1)
    · rw [ih]
      constructor
      · intro h
        exact ⟨⟨not_ne_iff.mp h1,fun hk => by_contra fun hn => h2 ⟨hk,hn⟩⟩,h⟩
      · exact And.right

lemma dedup_of_nodup {l : CandidateList} (h : (l.map Candidate.chunk).Nodup) {seen : List Bytes}
    (hseen : ∀ c ∈ l, c.chunk ∉ seen) : dedup l seen = l := by
  induction l generalizing seen with
  | nil => rfl
  | cons c l ih =>
    obtain ⟨hnot,hnodup⟩ := List.nodup_cons.mp h
    rw [dedup,if_neg (hseen c (by simp)),ih hnodup]
    intro d hd hmem
    obtain heq | hmem := List.mem_cons.mp hmem
    · exact hnot (heq ▸ List.mem_map_of_mem hd)
    · exact hseen d (by simp [hd]) hmem

/-- A tier that is an exact index gives the first `k` of its allowed rows. -/
lemma searchTier_exact (index : NativeExactIndex) {query : Vec} (allowed : List Bytes) {k : ℕ}
    (hk : k ≠ 0) (hquery : normalized query = true)
    (hdim : allowed ≠ [] → index.rows ≠ [] → query.length = index.dimension) :
    searchTier (index.search query · k) allowed =
      .ok (topK CandidateOrder k ((index.rows.filter fun row => row.key ∈ allowed).map
        (NativeExactIndex.candidate query))) := by
  unfold searchTier
  split_ifs with hallowed
  · rw [hallowed]
    simp [topK]
  · unfold NativeExactIndex.search
    split_ifs with hempty hlen hnorm
    · rw [hempty.resolve_left hk]
      simp [topK]
    · exact absurd (hdim hallowed fun h => hempty (Or.inr h)) hlen
    · rw [hquery] at hnorm
      cases hnorm
    · simp only [hallowed,false_or]

lemma strict_of_chunk_nodup {l : CandidateList} (h : (l.map Candidate.chunk).Nodup) :
    Strict CandidateOrder l := by
  intro a ha b hb hab hba
  obtain hlt | ⟨hscore,hle⟩ := hab
  · obtain hlt' | ⟨hscore',-⟩ := hba
    · exact absurd (hlt.trans hlt') (lt_irrefl _)
    · exact absurd hlt (hscore' ▸ lt_irrefl _)
  · obtain hlt' | ⟨-,hle'⟩ := hba
    · exact absurd hlt' (hscore ▸ lt_irrefl _)
    · exact List.inj_on_of_nodup_map h ha hb (le_antisymm hle hle')

/-- The best of two tiers that share no chunk are the best of their union. -/
lemma merge_topK {k : ℕ} {a b l : CandidateList} (hperm : (a ++ b).Perm l)
    (hnodup : (l.map Candidate.chunk).Nodup) :
    (dedup ((topK CandidateOrder k a ++ topK CandidateOrder k b).insertionSort CandidateOrder)
      []).take k = topK CandidateOrder k l := by
  have hparts := (hperm.map Candidate.chunk).nodup_iff.mpr hnodup
  have hstrict := strict_of_chunk_nodup hparts
  have hmerged : (topK CandidateOrder k a ++ topK CandidateOrder k b).Sublist
      (a.insertionSort CandidateOrder ++ b.insertionSort CandidateOrder) :=
    (List.take_sublist _ _).append (List.take_sublist _ _)
  have hsorted : ((a.insertionSort CandidateOrder ++ b.insertionSort CandidateOrder).map
      Candidate.chunk).Nodup :=
    (((List.perm_insertionSort _ a).append (List.perm_insertionSort _ b)).map _).nodup_iff.mpr
      hparts
  rw [dedup_of_nodup]
  · rw [← topK_of_perm k hstrict hperm]
    exact topK_append hstrict hparts.of_map
  · rw [((List.perm_insertionSort _ _).map _).nodup_iff]
    exact hsorted.sublist (hmerged.map _)
  · simp

@[simp] lemma containsBase_eq_true {t : TieredDenseIndex β} {key : Bytes} :
    t.containsBase key = true ↔ key ∈ t.base.keys ∧ key ∉ t.tombstones := by
  simp [containsBase]

@[simp] lemma containsDelta_eq_true {t : TieredDenseIndex β} {key : Bytes} :
    t.containsDelta key = true ↔ key ∈ t.deltaKeys := by
  simp [containsDelta]

/-- What a successful `withDelta` has checked, and what it makes. -/
theorem withDelta_eq_ok {t u : TieredDenseIndex β} {rows : List VectorRecord}
    {tombstones : Finset Bytes} {dimension : ℕ} :
    t.withDelta rows tombstones dimension = .ok u ↔
      (t.base.dimension = 0 ∨ dimension = 0 ∨ t.base.dimension = dimension) ∧
      tombstones ⊆ t.base.keys ∧
      (∀ row ∈ rows, row.vector.length = dimension ∧
        (row.key ∈ t.base.keys → row.key ∈ tombstones)) ∧
      ValidRows rows (NativeExactIndex.firstDimension rows) ∧
      u = ⟨t.base,⟨rows,NativeExactIndex.firstDimension rows⟩,rowKeys rows,tombstones,
        dimension⟩ := by
  unfold withDelta
  split_ifs with h1 h2
  · simp only [fail,reduceCtorEq,false_iff]
    tauto
  · have hdims : t.base.dimension = 0 ∨ dimension = 0 ∨ t.base.dimension = dimension := by tauto
    cases hcheck : checkDelta t.base tombstones dimension rows with
    | error e =>
      simp only [bind,Except.bind,reduceCtorEq,false_iff]
      intro h
      rw [checkDelta_eq_ok.mpr h.2.2.1] at hcheck
      cases hcheck
    | ok _ =>
      have hrows := checkDelta_eq_ok.mp hcheck
      cases hbuild : NativeExactIndex.build rows with
      | error e =>
        simp only [bind,Except.bind,reduceCtorEq,false_iff]
        intro h
        rw [NativeExactIndex.build_eq_ok.mpr ⟨h.2.2.2.1,rfl⟩] at hbuild
        cases hbuild
      | ok index =>
        obtain ⟨hvalid,rfl⟩ := NativeExactIndex.build_eq_ok.mp hbuild
        simp only [bind,Except.bind,pure,Except.pure,Except.ok.injEq]
        constructor
        · rintro rfl
          exact ⟨hdims,h2,hrows,hvalid,rfl⟩
        · rintro ⟨-,-,-,-,rfl⟩
          rfl
  · simp only [fail,reduceCtorEq,false_iff]
    exact fun h => h2 h.2.1

end TieredDenseIndex
end RagRuntime.Dense
