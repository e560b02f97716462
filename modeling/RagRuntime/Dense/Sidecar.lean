import RagRuntime.Base.Fallible
import RagRuntime.Base.Single
import RagRuntime.Core.Keys
import RagRuntime.Dense.TieredIndex
import RagRuntime.Store.Format

/-! The cache files of a dense base: an exact matrix that is searched in place, and a graph.
Each carries a fingerprint of the vectors of the checkpoint it was written for. -/
namespace RagRuntime.Dense
open RagRuntime.Base RagRuntime.Core RagRuntime.Backend RagRuntime.Store

structure DenseCacheIdentity where
  implementation : Bytes
  algorithm : Bytes
  version : ℕ
  parameters : Bytes

def vectorBytes (v : Vec) : Bytes := v.flatMap fun x => leBytes 4 (Single.bits x)

def denseCacheFingerprint (source : List VectorRecord) (embeddingIdentity : Bytes)
    (identity : DenseCacheIdentity) : Bytes :=
  let hash := hashField (hashField (hashField (hashField fnvOffset identity.implementation)
    identity.algorithm) (decimal identity.version)) identity.parameters
  let hash := hashField (hashField (hashField hash embeddingIdentity) (decimal source.length))
    (decimal (NativeExactIndex.firstDimension source))
  ascii ['f','n','v','1','a','6','4',':'] ++ hex64 (source.foldl (fun hash row =>
    hashField (hashField hash row.key) (vectorBytes row.vector)) hash)

def kSidecarVersion : ℕ := 1

def exactSidecarFingerprint (source : List VectorRecord) (embeddingIdentity : Bytes) : Bytes :=
  denseCacheFingerprint source embeddingIdentity
    ⟨ascii ['n','a','t','i','v','e'],ascii ['e','x','a','c','t'],kSidecarVersion,[]⟩

/-- `parameters` is the text of the graph's policy. -/
def hnswSidecarFingerprint (parameters : Bytes) (source : List VectorRecord)
    (embeddingIdentity : Bytes) : Bytes :=
  denseCacheFingerprint source embeddingIdentity
    ⟨ascii ['n','a','t','i','v','e'],ascii ['h','n','s','w'],kSidecarVersion,parameters⟩

/-- The sidecars compare with the `double` 1.0e-3, the index in memory with the `float`. -/
def normalizedDouble (v : Vec) : Bool := v ≠ [] ∧ |dot v v - 1| ≤ 1/1000

structure ExactSidecar where
  fingerprint : Bytes
  dimension : ℕ
  rows : List VectorRecord
  deriving DecidableEq

/-- The checks of the writer on the rows from one on; `seen` are the keys before it. -/
def checkSidecarRows (dimension : ℕ) : List VectorRecord → List Bytes → Result Unit
  | [],_ => .ok ()
  | row::rows,seen =>
    if row.key = [] ∨ row.key ∈ seen then fail .invalidArgument "dense sidecar keys are invalid"
    else if row.vector.length ≠ dimension ∨ normalizedDouble row.vector = false then
      fail .invalidArgument "dense sidecar vector is invalid"
    else checkSidecarRows dimension rows (row.key::seen)

def writeExactSidecar (fingerprint : Bytes) (source : List VectorRecord) : Result ExactSidecar :=
  if fingerprint = [] then fail .invalidArgument "dense sidecar fingerprint is required"
  else do
    checkSidecarRows (NativeExactIndex.firstDimension source) source []
    return ⟨fingerprint,NativeExactIndex.firstDimension source,source⟩

structure MappedExactIndex where
  rows : List VectorRecord
  dimension : ℕ
  deriving DecidableEq

namespace MappedExactIndex

def checkRows : List VectorRecord → List Bytes → Result Unit
  | [],_ => .ok ()
  | row::rows,seen =>
    if row.key = [] ∨ row.key ∈ seen then fail .corruptIndex "dense sidecar key is invalid"
    else if normalizedDouble row.vector = false then
      fail .corruptIndex "dense sidecar vector is invalid"
    else checkRows rows (row.key::seen)

/-- Open a file that the writer made. -/
def «open» (file : Option ExactSidecar) (expectedFingerprint : Bytes) : Result MappedExactIndex :=
  match file with
  | none => fail .ioError "dense sidecar cannot be opened"
  | some file =>
    if file.fingerprint ≠ expectedFingerprint ∨ file.rows.length > kMaxChunks ∨
        file.dimension > kMaxVectorDimension ∨ file.rows ≠ [] ∧ file.dimension = 0 then
      fail .corruptIndex "dense sidecar metadata is invalid"
    else if file.rows.any fun row => row.vector.length ≠ file.dimension then
      fail .corruptIndex "dense sidecar matrix size is invalid"
    else do
      checkRows file.rows []
      return ⟨file.rows,file.dimension⟩

def search (index : MappedExactIndex) (query : Vec) (allowed : List Bytes) (k : ℕ) :
    Result CandidateList :=
  if k = 0 ∨ index.rows = [] then .ok []
  else if query.length ≠ index.dimension then
    fail .dimensionMismatch "query dimension does not match dense sidecar"
  else if normalizedDouble query = false then
    fail .invalidArgument "dense query is not unit normalized"
  else .ok (topK CandidateOrder k ((index.rows.filter fun row =>
    allowed = [] ∨ row.key ∈ allowed).map (NativeExactIndex.candidate query)))

end MappedExactIndex

/-- A query whose norm one tolerance takes and the other does not. -/
def BetweenTolerances (query : Vec) : Prop := normalized query ≠ normalizedDouble query

instance : DecidablePred BetweenTolerances := fun query => by
  unfold BetweenTolerances
  infer_instance

/-- The approximate index of the native policy: a graph that holds each vector as `stored` scales
it, and that can be taken to a file and back. -/
class GraphIndex (β : Type) extends ApproximateIndex β where
  rows : β → List VectorRecord
  dimension : β → ℕ
  stored : Vec → Vec
  reload : β → List Bytes → Result β

def GraphIndex.keys {β : Type} [GraphIndex β] (graph : β) : List Bytes :=
  (GraphIndex.rows graph).map VectorRecord.key

/-- How a graph holds a row. -/
def GraphIndex.image (β : Type) [GraphIndex β] (row : VectorRecord) : VectorRecord :=
  ⟨row.key,GraphIndex.stored β row.vector⟩

/-- What is relied on of the graph: it holds the rows that it is built from, and a reload gives
them back. -/
class LawfulGraphIndex (β : Type) [GraphIndex β] : Prop where
  build {source : List VectorRecord} {graph : β} : ApproximateIndex.build source = .ok graph →
    GraphIndex.rows graph = source.map (GraphIndex.image β)
  reload {graph loaded : β} : GraphIndex.reload graph (GraphIndex.keys graph) = .ok loaded →
    GraphIndex.rows loaded = GraphIndex.rows graph

structure HnswSidecar (β : Type) where
  fingerprint : Bytes
  keys : List Bytes
  dimension : ℕ
  graph : β

section
variable {β : Type} [GraphIndex β]

def writeHnswSidecar (fingerprint : Bytes) (graph : β) : Result (HnswSidecar β) :=
  if fingerprint = [] then fail .invalidArgument "HNSW sidecar fingerprint is required"
  else .ok ⟨fingerprint,GraphIndex.keys graph,GraphIndex.dimension graph,graph⟩

def loadHnswSidecar (file : Option (HnswSidecar β)) (expectedFingerprint : Bytes)
    (expectedKeys : List Bytes) : Result β :=
  match file with
  | none => fail .ioError "HNSW sidecar cannot be opened"
  | some file =>
    if file.fingerprint ≠ expectedFingerprint then
      fail .corruptIndex "HNSW sidecar metadata is invalid"
    else if file.keys ≠ expectedKeys then
      fail .corruptIndex "HNSW sidecar key catalog is invalid"
    else
      match GraphIndex.reload file.graph expectedKeys with
      | .error _ => fail .corruptIndex "HNSW sidecar graph is invalid"
      | .ok loaded =>
        if GraphIndex.dimension loaded ≠ file.dimension then
          fail .corruptIndex "HNSW sidecar graph is invalid"
        else .ok loaded

/-- The bases that are not exact indexes in memory. -/
inductive NativeBase (β : Type) where
  | mapped (index : MappedExactIndex)
  | graph (index : β)

instance : ApproximateIndex (NativeBase β) where
  build rows := (ApproximateIndex.build rows).map .graph
  search base query allowed k :=
    match base with
    | .mapped index => index.search query allowed k
    | .graph index => ApproximateIndex.search index query allowed k

/-- The rows a base holds. -/
def DenseIndex.held : DenseIndex (NativeBase β) → List VectorRecord
  | .exact index => index.rows
  | .approximate (.mapped index) => index.rows
  | .approximate (.graph index) => GraphIndex.rows index

/-- How a base holds a row. -/
def DenseIndex.image : DenseIndex (NativeBase β) → VectorRecord → VectorRecord
  | .approximate (.graph _),row => GraphIndex.image β row
  | _,row => row

def NativeBase.dimension : NativeBase β → ℕ
  | .mapped index => index.dimension
  | .graph index => GraphIndex.dimension index

def NativeBase.size : NativeBase β → ℕ
  | .mapped index => index.rows.length
  | .graph index => (GraphIndex.keys index).length

/-- The tiers around a base that was read from a file. -/
def TieredDenseIndex.fromBase (base : NativeBase β) (keys : List Bytes) (dimension : ℕ) :
    Result (TieredDenseIndex (NativeBase β)) :=
  if base.size ≠ keys.length ∨ base.dimension ≠ dimension then
    fail .dimensionMismatch "dense base index does not match its key catalog"
  else if [] ∈ keys ∨ ¬keys.Nodup then
    fail .invalidArgument "dense base key catalog is invalid"
  else .ok ⟨⟨.approximate base,keys.toFinset,dimension⟩,NativeExactIndex.empty,∅,∅,dimension⟩

lemma writeExactSidecar_ok {fingerprint : Bytes} {source : List VectorRecord} {file : ExactSidecar}
    (h : writeExactSidecar fingerprint source = .ok file) :
    file = ⟨fingerprint,NativeExactIndex.firstDimension source,source⟩ := by
  unfold writeExactSidecar at h
  split_ifs at h
  · cases h
  · cases hcheck : checkSidecarRows (NativeExactIndex.firstDimension source) source [] with
    | error e =>
      rw [hcheck] at h
      cases h
    | ok u =>
      rw [hcheck] at h
      cases h
      rfl

lemma MappedExactIndex.open_ok {file : Option ExactSidecar} {fingerprint : Bytes}
    {index : MappedExactIndex} (h : MappedExactIndex.open file fingerprint = .ok index) :
    ∃ f, file = some f ∧ f.fingerprint = fingerprint ∧ index = ⟨f.rows,f.dimension⟩ := by
  cases file with
  | none => cases h
  | some f =>
    unfold MappedExactIndex.open at h
    dsimp only at h
    split_ifs at h with hmeta hsize
    · cases h
    · cases h
    · cases hcheck : MappedExactIndex.checkRows f.rows [] with
      | error e =>
        rw [hcheck] at h
        cases h
      | ok u =>
        rw [hcheck] at h
        cases h
        exact ⟨f,rfl,not_ne_iff.mp (not_or.mp hmeta).1,rfl⟩

lemma loadHnswSidecar_ok {file : Option (HnswSidecar β)} {fingerprint : Bytes} {keys : List Bytes}
    {loaded : β} (h : loadHnswSidecar file fingerprint keys = .ok loaded) :
    ∃ f, file = some f ∧ f.fingerprint = fingerprint ∧ f.keys = keys ∧
      GraphIndex.reload f.graph keys = .ok loaded := by
  cases file with
  | none => cases h
  | some f =>
    unfold loadHnswSidecar at h
    dsimp only at h
    split_ifs at h with hfingerprint hkeys
    · cases h
    · cases h
    · cases hreload : GraphIndex.reload f.graph keys with
      | error e =>
        simp only [hreload] at h
        cases h
      | ok l =>
        simp only [hreload] at h
        split_ifs at h
        · cases h
        · cases h
          exact ⟨f,rfl,not_ne_iff.mp hfingerprint,not_ne_iff.mp hkeys,hreload⟩

lemma TieredDenseIndex.fromBase_ok {base : NativeBase β} {keys : List Bytes} {dimension : ℕ}
    {t : TieredDenseIndex (NativeBase β)} (h : fromBase base keys dimension = .ok t) :
    t = ⟨⟨.approximate base,keys.toFinset,dimension⟩,NativeExactIndex.empty,∅,∅,dimension⟩ := by
  unfold fromBase at h
  split_ifs at h
  · cases h
  · cases h
  · cases h
    rfl

end

namespace TieredDenseIndex

variable {β : Type}

/-- The same tiers on another index at the base. -/
def onIndex (t : TieredDenseIndex β) (index : DenseIndex β) : TieredDenseIndex β :=
  { t with base := { t.base with index := index } }

lemma checkDelta_onIndex (t : TieredDenseIndex β) (index : DenseIndex β) (tombstones : Finset Bytes)
    (dimension : ℕ) (rows : List VectorRecord) :
    checkDelta (t.onIndex index).base tombstones dimension rows =
      checkDelta t.base tombstones dimension rows := by
  induction rows with
  | nil => rfl
  | cons row rows ih =>
    rw [checkDelta,checkDelta,ih]
    rfl

lemma withDelta_onIndex (t : TieredDenseIndex β) (index : DenseIndex β) (rows : List VectorRecord)
    (tombstones : Finset Bytes) (dimension : ℕ) :
    (t.onIndex index).withDelta rows tombstones dimension =
      (t.withDelta rows tombstones dimension).map fun t => t.onIndex index := by
  unfold withDelta
  rw [checkDelta_onIndex]
  change (if t.base.dimension ≠ 0 ∧ dimension ≠ 0 ∧ t.base.dimension ≠ dimension then _
    else if ¬tombstones ⊆ t.base.keys then _ else _) = _
  split_ifs
  · rfl
  · cases checkDelta t.base tombstones dimension rows with
    | error e => rfl
    | ok u =>
      cases NativeExactIndex.build rows with
      | error e => rfl
      | ok delta => rfl
  · rfl

end TieredDenseIndex

/-- A matrix in a file answers like one in memory, but for queries of another dimension, which it
rejects in other words, and for those whose norm only one of the two tolerances takes. -/
theorem MappedExactIndex.search_eq_iff {rows : List VectorRecord} {dimension : ℕ} {query : Vec}
    {allowed : List Bytes} {k : ℕ} : search ⟨rows,dimension⟩ query allowed k =
      NativeExactIndex.search ⟨rows,dimension⟩ query allowed k ↔
        k = 0 ∨ rows = [] ∨ query.length = dimension ∧ ¬BetweenTolerances query := by
  unfold search NativeExactIndex.search BetweenTolerances
  dsimp only
  split_ifs with hnone hlen hdouble hfloat hfloat
  · simp only [true_iff]
    tauto
  · simp only [fail,Except.error.injEq,Error.mk.injEq,true_and]
    constructor
    · exact fun h => absurd h (by decide)
    · exact fun h => absurd (h.elim Or.inl fun h => h.elim Or.inr fun h => absurd h.1 hlen) hnone
  · simp only [true_iff,hdouble,hfloat]
    exact Or.inr (Or.inr ⟨not_ne_iff.mp hlen,by simp⟩)
  · simp only [fail,reduceCtorEq,false_iff,hdouble]
    intro h
    obtain h | h | h := h
    · exact hnone (Or.inl h)
    · exact hnone (Or.inr h)
    · exact h.2 hfloat
  · simp only [fail,reduceCtorEq,false_iff,hfloat]
    intro h
    obtain h | h | h := h
    · exact hnone (Or.inl h)
    · exact hnone (Or.inr h)
    · exact h.2 fun heq => hdouble heq.symm
  · simp only [true_iff]
    have hd := Bool.eq_true_of_not_eq_false hdouble
    have hf := Bool.eq_true_of_not_eq_false hfloat
    exact Or.inr (Or.inr ⟨not_ne_iff.mp hlen,by rw [hd,hf]; simp⟩)

/-- When both answer, they answer the same. -/
lemma MappedExactIndex.search_ok_unique {rows : List VectorRecord} {dimension : ℕ} {query : Vec}
    {allowed : List Bytes} {k : ℕ} {a b : CandidateList}
    (ha : search ⟨rows,dimension⟩ query allowed k = .ok a)
    (hb : NativeExactIndex.search ⟨rows,dimension⟩ query allowed k = .ok b) : a = b := by
  unfold search at ha
  unfold NativeExactIndex.search at hb
  dsimp only at ha hb
  split_ifs at ha hb
  all_goals cases ha
  all_goals cases hb
  all_goals rfl

end RagRuntime.Dense
