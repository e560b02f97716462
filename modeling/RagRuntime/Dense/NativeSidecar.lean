import RagRuntime.Dense.NativeHnsw
import RagRuntime.Index.HnswCodec

/-! The native graph index in a file: what is written of it, what is looked at when it is read, and
the rows that it has then. -/
namespace RagRuntime.Dense
open RagRuntime.Base RagRuntime.Core RagRuntime.Backend RagRuntime.Lexical RagRuntime.Index

/-- What a file can hold of a node. -/
def SaveableNode (dim n : ℕ) (nd : HnswNode) : Prop :=
  nd.id < 256^4 ∧ nd.vector.length = dim ∧ (∀ x ∈ nd.vector, Single.round x = some x) ∧
    |dot nd.vector nd.vector - 1| ≤ 1/100 ∧ nd.links.length ≤ 64 ∧
      ∀ layer ∈ nd.links, layer.length ≤ n ∧ ∀ nb ∈ layer, nb < n

instance (dim n : ℕ) (nd : HnswNode) : Decidable (SaveableNode dim n nd) := by
  unfold SaveableNode
  infer_instance

/-- What a file can hold of a graph. What is beyond the limits is refused when it is read, and
nothing else can be where numbers are of 64 bits, ids of 32 and entries are floats. -/
def Saveable (s : LiveGraph) : Prop :=
  HnswCodec.FitsLimits s.graph.config s.graph.dim s.graph.maxLayer s.graph.entry
      s.graph.nodes.length ∧
    (Single.round s.graph.config.ml = some s.graph.config.ml ∧ 0 < s.graph.config.ml) ∧
    (s.graph.config.matryoshkaDim < 256^8 ∧ s.graph.config.pqCodes < 256^8 ∧
      s.graph.config.seed < 256^8) ∧ s.floatsDropped = false ∧
    ∀ nd ∈ s.graph.nodes, SaveableNode s.graph.dim s.graph.nodes.length nd

instance (s : LiveGraph) : Decidable (Saveable s) := by
  unfold Saveable
  infer_instance

lemma storedPart_none (s : LiveGraph) : HnswCodec.storedPart s none = none := by
  rw [HnswCodec.storedPart]
  split_ifs <;> rfl

lemma Saveable.writable {s : LiveGraph} (h : Saveable s) : HnswCodec.Writable s none := by
  obtain ⟨hlimits,hml,hnumbers,hfloats,hnodes⟩ := h
  refine ⟨hlimits,⟨Single.isFloat_round hml.1,hml.2⟩,hnumbers,fun nd hnd => ?_,fun p hp => ?_,
    fun hdropped => ?_⟩
  · obtain ⟨hid,hlength,hvector,hnorm,hlayers,hlinks⟩ := hnodes nd hnd
    exact ⟨hid,fun _ => hlength,fun _ x hx => Single.isFloat_round (hvector x hx),fun _ => hnorm,
      hlayers,fun layer hlayer => (hlinks layer hlayer).1,
      fun layer hlayer => (hlinks layer hlayer).2⟩
  · rw [storedPart_none] at hp
    cases hp
  · rw [hfloats] at hdropped
    cases hdropped

/-- The vectors are read back as they were. -/
lemma vectors_loaded (s : LiveGraph) : (HnswCodec.loaded s none).1.graph.nodes.map HnswNode.vector =
    s.graph.nodes.map HnswNode.vector := by
  rw [HnswCodec.loaded,storedPart_none]
  dsimp only [Option.isSome_none]
  rw [List.map_map,LiveGraph.unsealed]
  split_ifs
  · dsimp only
    rw [List.map_map]
    rfl
  · rfl

/-- The keys of rows are put to the same vectors again. -/
lemma zipWith_keys (keys : List Bytes) (vectors : List Vec) : List.zipWith VectorRecord.mk
    ((List.zipWith VectorRecord.mk keys vectors).map VectorRecord.key) vectors =
      List.zipWith VectorRecord.mk keys vectors := by
  induction keys generalizing vectors with
  | nil => rfl
  | cons key keys ih =>
    cases vectors with
    | nil => rfl
    | cons v vectors => exact congrArg _ (ih vectors)

namespace NativeHnswIndex

/-- The rows, with the vectors as the graph holds them. -/
def rows (index : NativeHnswIndex) : List VectorRecord :=
  match index.graph with
  | none => []
  | some graph => List.zipWith VectorRecord.mk index.keys (graph.graph.nodes.map HnswNode.vector)

def serialize (index : NativeHnswIndex) : Result Bytes :=
  match index.graph with
  | none => fail .unavailable "native HNSW is not built"
  | some graph => .ok (HnswCodec.serialize graph none)

/-- The graph is one that the policy builds over so many rows. -/
def FitsPolicy (policy : NativeHnswPolicy) (g : HnswIndex) (rows : ℕ) : Prop :=
  (g.config.m = policy.neighbors ∧ g.config.efConstruction = policy.efConstruction ∧
    g.config.efSearch = policy.efSearch ∧ g.config.seed = policy.seed) ∧
  (g.config.binary = false ∧ g.config.pqCodes = 0 ∧ g.config.dropFloats = false ∧
    g.config.matryoshkaDim = g.dim) ∧ g.nodes.length = rows ∧ g.deleted = ∅ ∧
  ∀ entry ∈ g.nodes.zipIdx, entry.1.superseded = false ∧ entry.1.id = entry.2

instance (policy : NativeHnswPolicy) (g : HnswIndex) (rows : ℕ) :
    Decidable (FitsPolicy policy g rows) := by
  unfold FitsPolicy
  infer_instance

def checkKeys : List Bytes → List Bytes → Result Unit
  | [],_ => .ok ()
  | key::keys,seen =>
    if key = [] ∨ key ∈ seen then fail .corruptIndex "native HNSW cache keys are invalid"
    else checkKeys keys (key::seen)

/-- What is looked at once the graph is read. -/
def accept (graph : LiveGraph) (part : Option PqPart) (keys : List Bytes)
    (policy : NativeHnswPolicy) : Result NativeHnswIndex :=
  if ¬FitsPolicy policy graph.graph keys.length then
    fail .corruptIndex "native HNSW cache policy is invalid"
  else if part.isSome then fail .corruptIndex "native HNSW cache has duplicate vectors"
  else do
    checkKeys keys []
    return ⟨some graph,keys,graph.graph.dim⟩

/-- There is no result where the graph is read out of its vectors. -/
def fromSerialized (blob : Bytes) (keys : List Bytes) (policy : NativeHnswPolicy) :
    Option (Result NativeHnswIndex) :=
  match validatePolicy policy with
  | .error e => some (.error e)
  | .ok () => (HnswCodec.deserialize blob).map fun found =>
      found.bind fun graph => accept graph.1 graph.2 keys policy

lemma accept_eq_ok {graph : LiveGraph} {part : Option PqPart} {keys : List Bytes}
    {policy : NativeHnswPolicy} {index : NativeHnswIndex}
    (h : accept graph part keys policy = .ok index) :
    index = ⟨some graph,keys,graph.graph.dim⟩ := by
  rw [accept] at h
  split_ifs at h
  · cases h
  · cases hkeys : checkKeys keys [] with
    | error e =>
      rw [hkeys] at h
      cases h
    | ok u =>
      rw [hkeys] at h
      exact (Except.ok.inj h).symm
  · cases h

/-- An index that is read back has the keys that it is given and the graph that was written. -/
lemma fromSerialized_serialize {graph : LiveGraph} (hsave : Saveable graph) {keys : List Bytes}
    {policy : NativeHnswPolicy} {index : NativeHnswIndex}
    (h : fromSerialized (HnswCodec.serialize graph none) keys policy = some (.ok index)) :
    index = ⟨some (HnswCodec.loaded graph none).1,keys,
      (HnswCodec.loaded graph none).1.graph.dim⟩ := by
  rw [fromSerialized,HnswCodec.deserialize_saved hsave.writable] at h
  cases hpolicy : validatePolicy policy with
  | error e =>
    rw [hpolicy] at h
    cases h
  | ok u =>
    rw [hpolicy] at h
    dsimp only [Option.map_some] at h
    split_ifs at h
    · exact accept_eq_ok (Option.some.inj h)
    · cases h

end NativeHnswIndex

/-- What one platform builds graphs with: its arithmetic, the policy, the level multiplier that the
graph computes from it, and the linking. -/
structure GraphPlatform where
  similarity : Similarity
  policy : NativeHnswPolicy
  ml : ℚ
  wiring : List VectorRecord → Wiring

def PlatformGraph (_ : GraphPlatform) : Type := NativeHnswIndex

namespace PlatformGraph

variable (p : GraphPlatform)

/-- The multiplier matters to the levels, which are part of the linking, and to the file. -/
def levelled (index : NativeHnswIndex) : NativeHnswIndex :=
  { index with graph := index.graph.map fun s => { s with graph.config.ml := p.ml } }

def reload (index : NativeHnswIndex) (keys : List Bytes) : Result NativeHnswIndex :=
  if ∀ graph ∈ index.graph, Saveable graph then do
    let blob ← index.serialize
    (NativeHnswIndex.fromSerialized blob keys p.policy).getD
      (fail .corruptIndex "HNSW sidecar graph is invalid")
  else fail .corruptIndex "HNSW sidecar graph is invalid"

instance : GraphIndex (PlatformGraph p) where
  build source :=
    (NativeHnswIndex.build p.similarity p.policy source (p.wiring source)).map (levelled p)
  search index := NativeHnswIndex.search p.similarity index
  rows index := NativeHnswIndex.rows index
  dimension index := NativeHnswIndex.dimension index
  stored v := p.similarity.normalize v
  reload index keys := reload p index keys

variable {p}

lemma rows_levelled (index : NativeHnswIndex) : (levelled p index).rows = index.rows := by
  obtain ⟨graph,keys,dimension⟩ := index
  cases graph <;> rfl

lemma rows_build {source : List VectorRecord} {index : NativeHnswIndex}
    (h : NativeHnswIndex.build p.similarity p.policy source (p.wiring source) = .ok index) :
    index.rows = source.map fun row => ⟨row.key,p.similarity.normalize row.vector⟩ := by
  obtain ⟨hrows,rfl⟩ := NativeHnswIndex.build_spec h
  have hvectors := @vectors_buildBatch p.similarity source
    (NativeExactIndex.firstDimension source)
    (NativeHnswIndex.graphConfig p.policy (NativeExactIndex.firstDimension source))
    (fun row hrow => ((NativeHnswIndex.checkRows_ok hrows).2 row hrow).1)
    (NativeHnswIndex.dimension_pos hrows) (p.wiring source)
  rw [NativeHnswIndex.rows]
  dsimp only
  rw [hvectors,List.zipWith_map,List.zipWith_self]

lemma rows_reload {index loaded : NativeHnswIndex}
    (h : reload p index (index.rows.map VectorRecord.key) = .ok loaded) :
    loaded.rows = index.rows := by
  obtain ⟨graph,keys,dimension⟩ := index
  rw [reload] at h
  split_ifs at h with hsave
  · cases graph with
    | none => cases h
    | some graph =>
      change (NativeHnswIndex.fromSerialized (HnswCodec.serialize graph none) _ p.policy).getD _ =
        _ at h
      cases hread : NativeHnswIndex.fromSerialized (HnswCodec.serialize graph none)
          ((NativeHnswIndex.rows ⟨some graph,keys,dimension⟩).map VectorRecord.key) p.policy with
      | none =>
        rw [hread] at h
        cases h
      | some found =>
        rw [hread] at h
        cases (h : found = .ok loaded)
        rw [NativeHnswIndex.fromSerialized_serialize (hsave graph rfl) hread,NativeHnswIndex.rows,
          NativeHnswIndex.rows]
        dsimp only
        rw [vectors_loaded,zipWith_keys]
  · cases h

/-- The index holds the rows that it is built from, and a file gives them back. -/
instance : LawfulGraphIndex (PlatformGraph p) where
  build {source graph} h := by
    simp only [ApproximateIndex.build] at h
    cases hbuild : NativeHnswIndex.build p.similarity p.policy source (p.wiring source) with
    | error e =>
      rw [hbuild] at h
      cases h
    | ok index =>
      rw [hbuild] at h
      rw [← Except.ok.inj h]
      exact (rows_levelled index).trans (rows_build hbuild)
  reload h := rows_reload h

end PlatformGraph

/-- Vectors as they are, and every row linked with all others. -/
def allLinked : GraphPlatform where
  similarity := ⟨fun v => v,fun _ a b => dot a b,fun _ a b => dot a b⟩
  policy := {}
  ml := 12102203/2^25
  wiring source := ⟨fun i => [(List.range source.length).erase i],0,0⟩

abbrev LinkedGraph : Type := PlatformGraph allLinked

end RagRuntime.Dense
