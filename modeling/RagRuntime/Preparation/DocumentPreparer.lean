import Mathlib.Tactic.FieldSimp
import Mathlib.Tactic.Linarith
import Mathlib.Tactic.Ring
import RagRuntime.Backend.EmbeddedBackend
import RagRuntime.Text.Chunker

/-! Preparing a source document: cut it into chunks, key them, embed them. -/
namespace RagRuntime.Preparation
open RagRuntime.Base RagRuntime.Core RagRuntime.Dense RagRuntime.Backend RagRuntime.Text

/-- The embedding model; it is reached through a transport and may fail. -/
structure Embedder where
  dimension : ℕ
  identity : Bytes
  embed : List Bytes → Result (List Vec)

def prepareChunk (document : Bytes) (ordinal : ℕ) (chunk : Chunk) : PreparedChunk where
  key := stableChunkKey document chunk.startLine chunk.endLine chunk.text
  ordinal := ordinal
  text := chunk.text
  indexedText := indexedText chunk.context chunk.text
  context := chunk.context
  startLine := chunk.startLine
  endLine := chunk.endLine
  embedding := []

def prepareChunks (key content : Bytes) (metadata : Metadata) (title : Bytes)
    (options : ChunkOptions) : Result PreparedDocument :=
  if key = [] then fail .invalidArgument "document key must not be empty"
  else if content = [] then fail .invalidArgument "document content must not be empty"
  else
    let normalized := normalizeSourceText content
    .ok {
      key := key
      title := title
      content := normalized
      metadata := metadata
      contentHash := documentContentHash title normalized metadata
      chunkingFingerprint := chunkingFingerprint options
      embeddingIdentity := []
      chunks := (chunkDocument 0 normalized options).mapIdx (prepareChunk key) }

/-- Scale a vector to unit length; `sqrt` is the square root of the platform. -/
def normalize (sqrt : ℚ → ℚ) (v : Vec) : Vec :=
  let norm := sqrt (dot v v)
  if norm ≤ 1/10^12 then v else v.map (· * (1/norm))

def acceptVector (sqrt : ℚ → ℚ) (dimension : ℕ) (v : Vec) : Result Vec :=
  if v.length ≠ dimension then
    fail .dimensionMismatch "embedding dimension does not match policy"
  else if dot v v ≤ 0 then fail .invalidArgument "embedding has zero norm"
  else .ok (normalize sqrt v)

/-- Embed the texts batch by batch. -/
def embedTexts (sqrt : ℚ → ℚ) (embedder : Embedder) (batchSize : ℕ) (texts : List Bytes) :
    Result (List Vec) :=
  if _h : texts = [] then .ok []
  else do
    let batch := texts.take (max 1 batchSize)
    let vectors ← embedder.embed batch
    if vectors.length ≠ batch.length then
      fail .transportError "embedding result count does not match input"
    else do
      let accepted ← vectors.mapM (acceptVector sqrt embedder.dimension)
      let rest ← embedTexts sqrt embedder batchSize (texts.drop (max 1 batchSize))
      return accepted ++ rest
termination_by texts.length
decreasing_by
  have := List.length_pos_of_ne_nil _h
  rw [List.length_drop]
  omega

def embedDocument (sqrt : ℚ → ℚ) (embedder : Embedder) (batchSize : ℕ)
    (prepared : PreparedDocument) : Result PreparedDocument := do
  let vectors ← embedTexts sqrt embedder batchSize (prepared.chunks.map (·.indexedText))
  return { prepared with
    chunks := List.zipWith (fun chunk v => { chunk with embedding := v }) prepared.chunks vectors
    embeddingIdentity := embedder.identity }

def prepareDocument (sqrt : ℚ → ℚ) (key content : Bytes) (metadata : Metadata) (title : Bytes)
    (options : ChunkOptions) (batchSize : ℕ) (embedder : Option Embedder) :
    Result PreparedDocument := do
  let prepared ← prepareChunks key content metadata title options
  match embedder with
  | none => return prepared
  | some embedder => embedDocument sqrt embedder batchSize prepared

/-- One normalised vector of the embedder's dimension for each text. -/
def Embedder.Normalised (embedder : Embedder) : Prop :=
  ∀ texts, ∃ vectors, embedder.embed texts = .ok vectors ∧ vectors.length = texts.length ∧
    ∀ v ∈ vectors, v.length = embedder.dimension ∧ UnitNorm v

/-- A square root that is accurate where it is taken of a number close to one. -/
def AccurateNearOne (sqrt : ℚ → ℚ) : Prop :=
  ∀ x, |x - 1| ≤ 1/1000 → 1/10^12 < sqrt x ∧ |x / sqrt x ^ 2 - 1| ≤ 1/1000

lemma dot_map_mul (c : ℚ) (v : Vec) : dot (v.map (· * c)) (v.map (· * c)) = dot v v * c^2 := by
  induction v with
  | nil => simp [dot]
  | cons x v ih =>
    simp only [dot,List.map_cons,List.zipWith_cons_cons,List.sum_cons] at ih ⊢
    rw [ih]
    ring

lemma unitNorm_normalize {sqrt : ℚ → ℚ} (hsqrt : AccurateNearOne sqrt) {v : Vec}
    (h : UnitNorm v) : UnitNorm (normalize sqrt v) := by
  obtain ⟨hpos,hclose⟩ := hsqrt _ h
  unfold normalize
  dsimp only
  rw [if_neg (not_le.mpr hpos),UnitNorm,dot_map_mul]
  rwa [one_div,inv_pow,← div_eq_mul_inv]

lemma length_normalize (sqrt : ℚ → ℚ) (v : Vec) : (normalize sqrt v).length = v.length := by
  unfold normalize
  dsimp only
  split_ifs
  · rfl
  · rw [List.length_map]

/-- A vector of the dimension that is close to unit length. -/
def GoodVector (dimension : ℕ) (v : Vec) : Prop := v.length = dimension ∧ UnitNorm v

lemma mapM_acceptVector {sqrt : ℚ → ℚ} (hsqrt : AccurateNearOne sqrt) {dimension : ℕ}
    {vectors : List Vec} (h : ∀ v ∈ vectors, GoodVector dimension v) :
    ∃ accepted, vectors.mapM (acceptVector sqrt dimension) = .ok accepted ∧
      accepted.length = vectors.length ∧ ∀ v ∈ accepted, GoodVector dimension v := by
  induction vectors with
  | nil => exact ⟨[],rfl,rfl,by simp⟩
  | cons v vectors ih =>
    obtain ⟨accepted,hok,hlen,hgood⟩ := ih fun w hw => h w (by simp [hw])
    obtain ⟨hdim,hunit⟩ := h v (by simp)
    refine ⟨normalize sqrt v::accepted,?_,by simp [hlen],?_⟩
    · rw [List.mapM_cons,acceptVector,if_neg (not_ne_iff.mpr hdim),if_neg
      (not_le.mpr hunit.dot_pos),
        hok]
      rfl
    · intro w hw
      obtain rfl | hw := List.mem_cons.mp hw
      · exact ⟨(length_normalize sqrt v).trans hdim,unitNorm_normalize hsqrt hunit⟩
      · exact hgood w hw

lemma embedTexts_ok {sqrt : ℚ → ℚ} (hsqrt : AccurateNearOne sqrt) {embedder : Embedder}
    (h : embedder.Normalised) (batchSize : ℕ) (texts : List Bytes) :
    ∃ vectors, embedTexts sqrt embedder batchSize texts = .ok vectors ∧
      vectors.length = texts.length ∧ ∀ v ∈ vectors, GoodVector embedder.dimension v := by
  induction texts using embedTexts.induct batchSize with
  | case1 => exact ⟨[],by rw [embedTexts]; rfl,rfl,by simp⟩
  | case2 texts hne ih =>
    obtain ⟨rest,hrest,hrestLen,hrestGood⟩ := ih []
    obtain ⟨vectors,hembed,hlen,hgood⟩ := h (texts.take (max 1 batchSize))
    obtain ⟨accepted,hok,hacceptedLen,hacceptedGood⟩ := mapM_acceptVector hsqrt hgood
    refine ⟨accepted ++ rest,?_,?_,?_⟩
    · rw [embedTexts,dif_neg hne]
      simp only [hembed,hlen,hok,hrest,bind,Except.bind,pure,Except.pure,ne_eq,not_true,if_false]
    · rw [List.length_append,hacceptedLen,hlen,hrestLen,← List.length_append,List.take_append_drop]
    · intro v hv
      exact (List.mem_append.mp hv).elim (hacceptedGood v) (hrestGood v)

end RagRuntime.Preparation
