import RagRuntime.Core.Keys
import RagRuntime.Dense.ExactIndex

/-! The checks every prepared document passes before the embedded backend takes it in. -/
namespace RagRuntime.Backend
open RagRuntime.Base RagRuntime.Core RagRuntime.Dense

/-- What `validate` has seen of the embeddings so far. -/
structure EmbeddingTally where
  dimension : ℕ
  anyEmbedding : Bool
  anyEmpty : Bool
  deriving DecidableEq

def EmbeddingTally.add (tally : EmbeddingTally) (embedding : Vec) : Result EmbeddingTally :=
  if embedding = [] then .ok { tally with anyEmpty := true }
  else
    let dimension := if tally.dimension = 0 then embedding.length else tally.dimension
    if embedding.length ≠ dimension then
      fail .dimensionMismatch "prepared embedding dimensions differ"
    else if |dot embedding embedding - 1| > 1/1000 then
      fail .invalidArgument "prepared embedding is not normalized"
    else .ok { tally with dimension := dimension, anyEmbedding := true }

/-- The loop of `validate` over the chunks from position `index` on. -/
def validateChunks (document : Bytes) :
    List PreparedChunk → ℕ → List Bytes → EmbeddingTally → Result EmbeddingTally
  | [],_,_,tally => .ok tally
  | chunk::rest,index,keys,tally =>
    if chunk.key = [] ∨ chunk.key ∈ keys then
      fail .invalidArgument "chunk keys must be non-empty and unique"
    else if chunk.ordinal ≠ index ∨ chunk.startLine > chunk.endLine then
      fail .invalidArgument "chunk ordering or source lines are invalid"
    else if chunk.text = [] ∨ chunk.indexedText = [] then
      fail .invalidArgument "prepared chunk text must not be empty"
    else if chunk.indexedText ≠ indexedText chunk.context chunk.text ∨
        chunk.key ≠ stableChunkKey document chunk.startLine chunk.endLine chunk.text then
      fail .invalidArgument "prepared chunk fingerprint is invalid"
    else do
      let tally ← tally.add chunk.embedding
      validateChunks document rest (index+1) (chunk.key::keys) tally

def validate (document : PreparedDocument) (revision : ℕ) : Result Unit :=
  if document.key = [] ∨ revision = 0 then
    fail .invalidArgument "document key and revision are required"
  else if document.contentHash = [] ∨ document.chunkingFingerprint = [] then
    fail .invalidArgument "document preparation fingerprints are required"
  else if document.content ≠ normalizeSourceText document.content ∨ document.contentHash ≠
      documentContentHash document.title document.content document.metadata then
    fail .invalidArgument "document content hash is invalid"
  else do
    let tally ← validateChunks document.key document.chunks 0 [] ⟨0,false,false⟩
    if tally.anyEmbedding ∧ tally.anyEmpty then
      fail .invalidArgument "prepared document has partial embeddings"
    else if tally.anyEmbedding ∧ document.embeddingIdentity = [] then
      fail .invalidArgument "embedding identity is required"
    else .ok ()

/-- A vector `validate` takes for normalised. -/
def UnitNorm (v : Vec) : Prop := |dot v v - 1| ≤ 1/1000

/-- A chunk that stands at position `index` of a valid document. -/
structure ValidChunk (document : Bytes) (index : ℕ) (chunk : PreparedChunk) : Prop where
  ordinal : chunk.ordinal = index
  lines : chunk.startLine ≤ chunk.endLine
  text : chunk.text ≠ []
  indexed : chunk.indexedText = indexedText chunk.context chunk.text
  key : chunk.key = stableChunkKey document chunk.startLine chunk.endLine chunk.text

/-- Either no chunk carries an embedding, or all do, of one dimension and normalised. -/
def EmbeddingsAgree (chunks : List PreparedChunk) (dimension : ℕ) : Prop :=
  (∀ c ∈ chunks, c.embedding = []) ∨
    ∀ c ∈ chunks, c.embedding ≠ [] ∧ c.embedding.length = dimension ∧ UnitNorm c.embedding

structure ValidDocument (document : PreparedDocument) : Prop where
  key : document.key ≠ []
  fingerprint : document.chunkingFingerprint ≠ []
  content : document.content = normalizeSourceText document.content
  contentHash : document.contentHash =
    documentContentHash document.title document.content document.metadata
  keys : (document.chunks.map PreparedChunk.key).Nodup
  chunks : ∀ i c, document.chunks[i]? = some c → ValidChunk document.key i c
  embeddings : ∃ dimension, EmbeddingsAgree document.chunks dimension
  identity : (∃ c ∈ document.chunks, c.embedding ≠ []) → document.embeddingIdentity ≠ []

lemma ValidChunk.key_ne_nil {document : Bytes} {index : ℕ} {chunk : PreparedChunk}
    (h : ValidChunk document index chunk) : chunk.key ≠ [] := by
  rw [h.key]
  exact stableChunkKey_ne_nil _ _ _ _

lemma indexedText_ne_nil {context text : Bytes} (h : text ≠ []) :
    indexedText context text ≠ [] := by
  unfold indexedText
  split_ifs
  · exact h
  · simp [h]

lemma UnitNorm.dot_pos {v : Vec} (h : UnitNorm v) : 0 < dot v v := by
  have := (abs_le.mp h).1
  linarith

lemma UnitNorm.ne_nil {v : Vec} (h : UnitNorm v) : v ≠ [] := by
  intro hnil
  have := h.dot_pos
  rw [hnil] at this
  exact lt_irrefl _ this

lemma UnitNorm.normalized {v : Vec} (hne : v ≠ []) (h : UnitNorm v) : normalized v = true := by
  have : (1/1000 : ℚ) ≤ kUnitTolerance := by
    unfold kUnitTolerance
    norm_num
  simp only [Dense.normalized,decide_eq_true_eq]
  exact ⟨hne,h.trans this⟩

/-- One turn of the loop. -/
lemma validateChunks_cons {document : Bytes} {chunk : PreparedChunk} {rest : List PreparedChunk}
    {index : ℕ} {keys : List Bytes} {tally out : EmbeddingTally} :
    validateChunks document (chunk::rest) index keys tally = .ok out ↔
      ValidChunk document index chunk ∧ chunk.key ∉ keys ∧
        ∃ next, tally.add chunk.embedding = .ok next ∧
          validateChunks document rest (index+1) (chunk.key::keys) next = .ok out := by
  simp only [validateChunks]
  split_ifs with h1 h2 h3 h4
  · simp only [fail,reduceCtorEq,false_iff]
    rintro ⟨hc,hnot,-⟩
    exact h1.elim hc.key_ne_nil hnot
  · simp only [fail,reduceCtorEq,false_iff]
    rintro ⟨hc,-⟩
    exact h2.elim (fun h => h hc.ordinal) (fun h => absurd hc.lines (not_le.mpr h))
  · simp only [fail,reduceCtorEq,false_iff]
    rintro ⟨hc,-⟩
    exact h3.elim hc.text (fun h => indexedText_ne_nil hc.text (hc.indexed ▸ h))
  · simp only [fail,reduceCtorEq,false_iff]
    rintro ⟨hc,-⟩
    exact h4.elim (fun h => h hc.indexed) (fun h => h hc.key)
  · have hvalid : ValidChunk document index chunk := by
      obtain ⟨ho,hl⟩ := not_or.mp h2
      obtain ⟨hi,hk⟩ := not_or.mp h4
      exact ⟨not_ne_iff.mp ho,not_lt.mp hl,(not_or.mp h3).1,not_ne_iff.mp hi,not_ne_iff.mp hk⟩
    cases htally : tally.add chunk.embedding with
    | error e => simp [bind,Except.bind]
    | ok next =>
      simp only [bind,Except.bind,Except.ok.injEq,exists_eq_left']
      exact ⟨fun h => ⟨hvalid,(not_or.mp h1).2,h⟩,fun h => h.2.2⟩

/-- The embeddings of a document, tallied in order. -/
def tallyAll (tally : EmbeddingTally) (chunks : List PreparedChunk) : Result EmbeddingTally :=
  chunks.foldlM (fun tally c => tally.add c.embedding) tally

lemma validateChunks_eq_ok {document : Bytes} {chunks : List PreparedChunk} {index : ℕ}
    {keys : List Bytes} {tally out : EmbeddingTally} :
    validateChunks document chunks index keys tally = .ok out ↔
      (∀ i c, chunks[i]? = some c → ValidChunk document (index+i) c) ∧
        (chunks.map PreparedChunk.key).Nodup ∧ (∀ c ∈ chunks, c.key ∉ keys) ∧
          tallyAll tally chunks = .ok out := by
  induction chunks generalizing index keys tally with
  | nil => simp [validateChunks,tallyAll,pure,Except.pure]
  | cons chunk rest ih =>
    rw [validateChunks_cons]
    constructor
    · rintro ⟨hc,hnot,next,hnext,hrest⟩
      obtain ⟨hvalid,hnodup,hfresh,htally⟩ := ih.mp hrest
      refine ⟨?_,?_,?_,?_⟩
      · rintro (_ | i) c hi
        · cases hi
          exact hc
        · have := hvalid i c hi
          rwa [show index + (i+1) = index + 1 + i by omega]
      · rw [List.map_cons,List.nodup_cons]
        refine ⟨?_,hnodup⟩
        intro hmem
        obtain ⟨c,hc,hkey⟩ := List.mem_map.mp hmem
        exact hfresh c hc (by simp [hkey])
      · intro c hcmem
        obtain rfl | hcmem := List.mem_cons.mp hcmem
        · exact hnot
        · exact fun hk => hfresh c hcmem (List.mem_cons_of_mem _ hk)
      · rw [tallyAll,List.foldlM_cons,hnext]
        exact htally
    · rintro ⟨hvalid,hnodup,hfresh,htally⟩
      obtain ⟨hnot,hnodup⟩ := List.nodup_cons.mp hnodup
      rw [tallyAll,List.foldlM_cons] at htally
      cases hnext : tally.add chunk.embedding with
      | error e =>
        rw [hnext] at htally
        cases htally
      | ok next =>
        rw [hnext] at htally
        refine ⟨hvalid 0 chunk rfl,hfresh chunk (by simp),next,rfl,ih.mpr ⟨?_,hnodup,?_,htally⟩⟩
        · intro i c hi
          have := hvalid (i+1) c hi
          rwa [show index + (i+1) = index + 1 + i by omega] at this
        · intro c hc hk
          obtain heq | hk := List.mem_cons.mp hk
          · exact hnot (heq ▸ List.mem_map_of_mem hc)
          · exact hfresh c (by simp [hc]) hk

/-- What a tally records of the embeddings it has taken in. -/
structure EmbeddingTally.Describes (tally : EmbeddingTally)
    (chunks : List PreparedChunk) : Prop where
  embedded : tally.anyEmbedding = true ↔ ∃ c ∈ chunks, c.embedding ≠ []
  empty : tally.anyEmpty = true ↔ ∃ c ∈ chunks, c.embedding = []
  agree : ∀ c ∈ chunks, c.embedding ≠ [] →
    c.embedding.length = tally.dimension ∧ UnitNorm c.embedding

lemma EmbeddingTally.describes_nil : EmbeddingTally.Describes ⟨0,false,false⟩ [] :=
  ⟨by simp,by simp,by simp⟩

lemma EmbeddingTally.Describes.add {tally next : EmbeddingTally} {chunks : List PreparedChunk}
    {c : PreparedChunk} (h : tally.Describes chunks) (hnext : tally.add c.embedding = .ok next) :
    next.Describes (chunks ++ [c]) := by
  unfold EmbeddingTally.add at hnext
  by_cases hc : c.embedding = []
  · rw [if_pos hc] at hnext
    cases hnext
    refine ⟨?_,?_,?_⟩
    · simp [h.embedded,hc,or_and_right,exists_or]
    · simp only [true_iff]
      exact ⟨c,by simp,hc⟩
    · intro d hd hne
      obtain hd | hd := List.mem_append.mp hd
      · exact h.agree d hd hne
      · rw [List.mem_singleton.mp hd] at hne
        exact absurd hc hne
  · rw [if_neg hc] at hnext
    dsimp only at hnext
    generalize hd : (if tally.dimension = 0 then c.embedding.length else tally.dimension) = dim
      at hnext
    split_ifs at hnext with hlen hnorm
    · cases hnext
    · cases hnext
    · cases hnext
      refine ⟨?_,?_,?_⟩
      · simp only [true_iff]
        exact ⟨c,by simp,hc⟩
      · simp [h.empty,hc,or_and_right,exists_or]
      · intro e he hne
        obtain he | he := List.mem_append.mp he
        · obtain ⟨hlen',hnorm'⟩ := h.agree e he hne
          have hzero : tally.dimension ≠ 0 := fun h0 =>
            hne (List.eq_nil_of_length_eq_zero (hlen'.trans h0))
          rw [if_neg hzero] at hd
          exact ⟨hlen'.trans hd,hnorm'⟩
        · rw [List.mem_singleton.mp he]
          exact ⟨not_ne_iff.mp hlen,not_lt.mp hnorm⟩

lemma tallyAll_describes {tally out : EmbeddingTally} {before chunks : List PreparedChunk}
    (h : tally.Describes before) (hout : tallyAll tally chunks = .ok out) :
    out.Describes (before ++ chunks) := by
  induction chunks generalizing tally before with
  | nil =>
    cases hout
    rwa [List.append_nil]
  | cons c rest ih =>
    rw [tallyAll,List.foldlM_cons] at hout
    cases hnext : tally.add c.embedding with
    | error e =>
      rw [hnext] at hout
      cases hout
    | ok next =>
      rw [hnext] at hout
      have := ih (h.add hnext) hout
      rwa [List.append_assoc,List.singleton_append] at this

/-- Embeddings that agree are tallied without an error. -/
lemma tallyAll_of_agree (tally : EmbeddingTally) {chunks : List PreparedChunk} {dimension : ℕ}
    (hdim : tally.dimension = 0 ∨ tally.dimension = dimension)
    (h : ∀ c ∈ chunks, c.embedding ≠ [] → c.embedding.length = dimension ∧ UnitNorm c.embedding) :
    ∃ out, tallyAll tally chunks = .ok out := by
  induction chunks generalizing tally with
  | nil => exact ⟨tally,rfl⟩
  | cons c rest ih =>
    have hrest : ∀ d ∈ rest, d.embedding ≠ [] →
        d.embedding.length = dimension ∧ UnitNorm d.embedding := fun d hd => h d (by simp [hd])
    have hnext : ∃ next, tally.add c.embedding = .ok next ∧
        (next.dimension = 0 ∨ next.dimension = dimension) := by
      unfold EmbeddingTally.add
      by_cases hc : c.embedding = []
      · rw [if_pos hc]
        exact ⟨_,rfl,hdim⟩
      · obtain ⟨hlen,hnorm⟩ := h c (by simp) hc
        have hd : (if tally.dimension = 0 then c.embedding.length else tally.dimension) =
            dimension := by
          split_ifs with h0
          · exact hlen
          · exact hdim.resolve_left h0
        rw [if_neg hc]
        dsimp only
        rw [hd,if_neg (not_ne_iff.mpr hlen),if_neg (not_lt.mpr hnorm)]
        exact ⟨_,rfl,Or.inr rfl⟩
    obtain ⟨next,hnext,hdim'⟩ := hnext
    obtain ⟨out,hout⟩ := ih _ hdim' hrest
    refine ⟨out,?_⟩
    rw [tallyAll,List.foldlM_cons,hnext]
    exact hout

/-- `validate` accepts exactly the valid documents. -/
theorem validate_eq_ok {document : PreparedDocument} {revision : ℕ} :
    validate document revision = .ok () ↔ ValidDocument document ∧ revision ≠ 0 := by
  unfold validate
  split_ifs with h1 h2 h3
  · simp only [fail,reduceCtorEq,false_iff]
    rintro ⟨hv,hr⟩
    exact h1.elim hv.key hr
  · simp only [fail,reduceCtorEq,false_iff]
    rintro ⟨hv,-⟩
    refine h2.elim (fun h => ?_) hv.fingerprint
    rw [hv.contentHash] at h
    exact documentContentHash_ne_nil _ _ _ h
  · simp only [fail,reduceCtorEq,false_iff]
    rintro ⟨hv,-⟩
    exact h3.elim (fun h => h hv.content) (fun h => h hv.contentHash)
  · obtain ⟨hkey,hrev⟩ := not_or.mp h1
    obtain ⟨hcontent,hhash⟩ := not_or.mp h3
    cases hloop : validateChunks document.key document.chunks 0 [] ⟨0,false,false⟩ with
    | error e =>
      simp only [bind,Except.bind,reduceCtorEq,false_iff]
      rintro ⟨hv,-⟩
      obtain ⟨dimension,hagree⟩ := hv.embeddings
      have hone : ∀ c ∈ document.chunks, c.embedding ≠ [] →
          c.embedding.length = dimension ∧ UnitNorm c.embedding := by
        obtain hnone | hall := hagree
        · exact fun c hc hne => absurd (hnone c hc) hne
        · exact fun c hc _ => (hall c hc).2
      obtain ⟨out,hout⟩ := tallyAll_of_agree ⟨0,false,false⟩ (Or.inl rfl) hone
      rw [validateChunks_eq_ok.mpr ⟨by simpa using hv.chunks,hv.keys,by simp,hout⟩] at hloop
      cases hloop
    | ok tally =>
      obtain ⟨hchunks,hnodup,-,htally⟩ := validateChunks_eq_ok.mp hloop
      have hdesc := tallyAll_describes EmbeddingTally.describes_nil htally
      rw [List.nil_append] at hdesc
      simp only [bind,Except.bind]
      constructor
      · intro h
        split_ifs at h with hpartial hidentity
        · cases h
        · cases h
        · refine ⟨⟨hkey,(not_or.mp h2).2,not_ne_iff.mp hcontent,not_ne_iff.mp hhash,hnodup,
            by simpa using hchunks,⟨tally.dimension,?_⟩,?_⟩,hrev⟩
          · by_cases hany : tally.anyEmbedding = true
            · right
              intro c hc
              have hne : c.embedding ≠ [] := fun hnil =>
                hpartial ⟨hany,hdesc.empty.mpr ⟨c,hc,hnil⟩⟩
              exact ⟨hne,hdesc.agree c hc hne⟩
            · left
              intro c hc
              by_contra hne
              exact hany (hdesc.embedded.mpr ⟨c,hc,hne⟩)
          · intro hex hnil
            exact hidentity ⟨hdesc.embedded.mpr hex,hnil⟩
      · rintro ⟨hv,-⟩
        rw [if_neg,if_neg]
        · rintro ⟨hany,hnil⟩
          exact hv.identity (hdesc.embedded.mp hany) hnil
        · rintro ⟨hany,hempty⟩
          obtain ⟨c,hc,hne⟩ := hdesc.embedded.mp hany
          obtain ⟨d,hd,hnil⟩ := hdesc.empty.mp hempty
          obtain ⟨dimension,hnone | hall⟩ := hv.embeddings
          · exact hne (hnone c hc)
          · exact (hall d hd).1 hnil

end RagRuntime.Backend
