import RagRuntime.Preparation.DocumentPreparer
import RagRuntime.Text.WholeSpans

/-! Which prepared documents the embedded backend takes in. -/
namespace RagRuntime.Preparation
open RagRuntime.Base RagRuntime.Core RagRuntime.Dense RagRuntime.Backend RagRuntime.Text
open RagRuntime.Lexical

/-- The lines and the text that tell the chunks of one document apart. -/
def identifying (c : Chunk) : ℕ × ℕ × Bytes := (c.startLine,c.endLine,normalizeSourceText c.text)

def chunkKey (document : Bytes) (c : Chunk) : Bytes :=
  stableChunkKey document c.startLine c.endLine c.text

/-- No two of the chunks have the same lines and text, no line range is reversed, the chunks can
be numbered, and what embeds them has a name. -/
structure Distinguishable (chunks : List Chunk) (identity : Bytes) : Prop where
  distinct : (chunks.map identifying).Nodup
  lines : ∀ c ∈ chunks, c.startLine ≤ c.endLine
  count : chunks.length ≤ uint32Max
  identity : chunks ≠ [] → identity ≠ []

/-- Different chunks of the document are hashed to different keys. -/
def CollisionFree (document : Bytes) (chunks : List Chunk) : Prop :=
  ∀ c ∈ chunks, ∀ c' ∈ chunks, chunkKey document c = chunkKey document c' →
    chunkIdentity document c.startLine c.endLine c.text =
      chunkIdentity document c'.startLine c'.endLine c'.text

def chunksOfContent (content : Bytes) (options : ChunkOptions) : List Chunk :=
  chunkDocument 0 (normalizeSourceText content) options

/-- The lines of the content, each in the pieces that the options leave of it. -/
def contentSpans (content : Bytes) (options : ChunkOptions) : List Span :=
  spansOf options (normalizeSourceText content)

/-- No piece is cut again under a heading, no two of one line are the same up to white space at
their ends, the pieces can be numbered, and what embeds them has a name. -/
structure Separable (content : Bytes) (options : ChunkOptions) (identity : Bytes) : Prop where
  whole : TakenWhole options (contentSpans content options)
  apart : (contentSpans content options).Pairwise Apart
  count : (contentSpans content options).length ≤ uint32Max
  identity : contentSpans content options ≠ [] → identity ≠ []

/-- The document can be prepared, is valid, and is active afterwards with its chunks. -/
def TakenIn (β : Type) (analysis : Analysis) (policy : EmbeddedMaintenancePolicy)
    (prepared : Result PreparedDocument) (revision : ℕ) (chunks : List Chunk) : Prop :=
  ∃ document, prepared = .ok document ∧ validate document revision = .ok () ∧
    ∃ b : EmbeddedBackend β,
      (EmbeddedBackend.start analysis policy).activate document revision = (.ok (),b) ∧
      b.active.chunks.size = chunks.length ∧
      ∀ (i : ℕ) c, chunks[i]? = some c → ∃ s,
        b.active.chunks.find? (chunkKey document.key c) = some s ∧ s.revision = revision ∧
        s.ordinal = i ∧ s.text = c.text ∧ s.startLine = c.startLine ∧ s.endLine = c.endLine

lemma chunkingFingerprint_ne_nil (options : ChunkOptions) : chunkingFingerprint options ≠ [] := by
  unfold chunkingFingerprint
  intro h
  simp only [List.append_eq_nil_iff] at h
  exact absurd h.1.2 (by decide)

lemma map_identifying_nodup {document : Bytes} {chunks : List Chunk}
    (h : CollisionFree document chunks) :
    (chunks.map (chunkKey document)).Nodup ↔ (chunks.map identifying).Nodup := by
  have hsame : ∀ c ∈ chunks, ∀ c' ∈ chunks,
      chunkKey document c = chunkKey document c' ↔ identifying c = identifying c' := by
    intro c hc c' hc'
    constructor
    · intro hkey
      obtain ⟨hs,he,ht⟩ := chunkIdentity_inj (h c hc c' hc' hkey)
      rw [identifying,identifying,hs,he,ht]
    · intro hid
      obtain ⟨hs,he,ht⟩ : c.startLine = c'.startLine ∧ c.endLine = c'.endLine ∧
          normalizeSourceText c.text = normalizeSourceText c'.text := by
        simpa [identifying] using hid
      rw [chunkKey,chunkKey,stableChunkKey,stableChunkKey,chunkIdentity,chunkIdentity,hs,he,ht]
  rw [List.Nodup,List.Nodup,List.pairwise_map,List.pairwise_map]
  apply List.Pairwise.iff_of_mem
  intro c c' hc hc'
  exact not_congr (hsame c hc c' hc')

/-- The chunks of the prepared document, each with its vector. -/
def embeddedChunks (document : Bytes) (chunks : List Chunk) (vectors : List Vec) :
    List PreparedChunk :=
  List.zipWith (fun chunk v => { chunk with embedding := v })
    (chunks.mapIdx (prepareChunk document)) vectors

section
variable {document : Bytes} {chunks : List Chunk} {vectors : List Vec}

lemma embeddedChunks_length (document : Bytes) (h : vectors.length = chunks.length) :
    (embeddedChunks document chunks vectors).length = chunks.length := by
  simp [embeddedChunks,h]

lemma embeddedChunks_getElem? (document : Bytes) {i : ℕ} {c : PreparedChunk} :
    (embeddedChunks document chunks vectors)[i]? = some c ↔ ∃ chunk v, chunks[i]? = some chunk ∧
      vectors[i]? = some v ∧ c = { prepareChunk document i chunk with embedding := v } := by
  rw [embeddedChunks,List.getElem?_zipWith',List.getElem?_mapIdx]
  cases chunks[i]? <;> cases vectors[i]? <;> simp [eq_comm]

lemma embeddedChunks_map_key (h : vectors.length = chunks.length) :
    (embeddedChunks document chunks vectors).map PreparedChunk.key =
      chunks.map (chunkKey document) := by
  apply List.ext_getElem?
  intro i
  simp only [List.getElem?_map,embeddedChunks,List.getElem?_zipWith',List.getElem?_mapIdx]
  cases hc : chunks[i]? with
  | none => rfl
  | some chunk =>
    have hi : i < vectors.length := by
      rw [h]
      exact (List.getElem?_eq_some_iff.mp hc).1
    simp [List.getElem?_eq_getElem hi,prepareChunk,chunkKey]

lemma embeddedChunks_embedding (document : Bytes) (chunks : List Chunk) {dimension : ℕ}
    (hgood : ∀ v ∈ vectors, GoodVector dimension v) :
    ∀ c ∈ embeddedChunks document chunks vectors, GoodVector dimension c.embedding := by
  intro c hc
  obtain ⟨i,hi⟩ := List.mem_iff_getElem?.mp hc
  obtain ⟨chunk,v,-,hv,rfl⟩ := (embeddedChunks_getElem? _).mp hi
  exact hgood v (List.mem_of_getElem? hv)

end

/-- The document that preparing with an embedder gives. -/
def embeddedDocument (key content : Bytes) (metadata : Metadata) (title : Bytes)
    (options : ChunkOptions) (embedder : Embedder) (vectors : List Vec) : PreparedDocument where
  key := key
  title := title
  content := normalizeSourceText content
  metadata := metadata
  contentHash := documentContentHash title (normalizeSourceText content) metadata
  chunkingFingerprint := chunkingFingerprint options
  embeddingIdentity := embedder.identity
  chunks := embeddedChunks key (chunksOfContent content options) vectors

section
variable {key content title : Bytes} {metadata : Metadata} {options : ChunkOptions}
  {embedder : Embedder} {vectors : List Vec}

lemma prepareDocument_ok (title : Bytes) (metadata : Metadata) (options : ChunkOptions)
    {sqrt : ℚ → ℚ} (hsqrt : AccurateNearOne sqrt)
    (hembedder : embedder.Normalised) (hkey : key ≠ []) (hcontent : content ≠ [])
    (batchSize : ℕ) : ∃ vectors, vectors.length = (chunksOfContent content options).length ∧
      (∀ v ∈ vectors, GoodVector embedder.dimension v) ∧
      prepareDocument sqrt key content metadata title options batchSize (some embedder) =
        .ok (embeddedDocument key content metadata title options embedder vectors) := by
  obtain ⟨vectors,hok,hlen,hgood⟩ := embedTexts_ok hsqrt hembedder batchSize
    (((chunksOfContent content options).mapIdx (prepareChunk key)).map (·.indexedText))
  refine ⟨vectors,by simpa using hlen,hgood,?_⟩
  rw [chunksOfContent] at hok
  simp only [prepareDocument,prepareChunks,if_neg hkey,if_neg hcontent,bind,Except.bind,
    embedDocument,hok,pure,Except.pure,embeddedDocument,embeddedChunks,chunksOfContent]

/-- A prepared document is valid when its chunks can be told apart. -/
lemma validDocument_embedded (title : Bytes) (metadata : Metadata) (hkey : key ≠ [])
    (hlen : vectors.length = (chunksOfContent content options).length)
    (hgood : ∀ v ∈ vectors, GoodVector embedder.dimension v)
    (hfree : CollisionFree key (chunksOfContent content options)) :
    ValidDocument (embeddedDocument key content metadata title options embedder vectors) ↔
      ((chunksOfContent content options).map identifying).Nodup ∧
      (∀ c ∈ chunksOfContent content options, c.startLine ≤ c.endLine) ∧
      (chunksOfContent content options ≠ [] → embedder.identity ≠ []) := by
  have hnil : chunksOfContent content options ≠ [] ↔
      ∃ c ∈ embeddedChunks key (chunksOfContent content options) vectors, c.embedding ≠ [] := by
    rw [← List.length_pos_iff_ne_nil,← embeddedChunks_length key hlen,
      List.length_pos_iff_exists_mem]
    constructor
    · intro h
      obtain ⟨c,hc⟩ := h
      exact ⟨c,hc,(embeddedChunks_embedding _ _ hgood c hc).2.ne_nil⟩
    · intro h
      obtain ⟨c,hc,-⟩ := h
      exact ⟨c,hc⟩
  constructor
  · intro h
    refine ⟨?_,?_,fun hne => h.identity (hnil.mp hne)⟩
    · rw [← map_identifying_nodup hfree,← embeddedChunks_map_key hlen]
      exact h.keys
    · intro chunk hchunk
      obtain ⟨i,hi⟩ := List.mem_iff_getElem?.mp hchunk
      have hlt : i < vectors.length := by
        rw [hlen]
        exact (List.getElem?_eq_some_iff.mp hi).1
      exact (h.chunks i _ ((embeddedChunks_getElem? _).mpr
        ⟨chunk,_,hi,List.getElem?_eq_getElem hlt,rfl⟩)).lines
  · intro h
    obtain ⟨hdistinct,hlines,hidentity⟩ := h
    refine ⟨hkey,chunkingFingerprint_ne_nil options,?_,rfl,?_,?_,?_,?_⟩
    · exact (normalizeSourceText_idem content).symm
    · change ((embeddedChunks key _ vectors).map PreparedChunk.key).Nodup
      rw [embeddedChunks_map_key hlen,map_identifying_nodup hfree]
      exact hdistinct
    · intro i c hc
      obtain ⟨chunk,v,hchunk,-,rfl⟩ := (embeddedChunks_getElem? _).mp hc
      have hmem := List.mem_of_getElem? hchunk
      exact ⟨rfl,hlines chunk hmem,(chunkDocument_text chunk hmem).1,rfl,rfl⟩
    · refine ⟨embedder.dimension,Or.inr ?_⟩
      intro c hc
      have hgoodc := embeddedChunks_embedding _ _ hgood c hc
      exact ⟨hgoodc.2.ne_nil,hgoodc⟩
    · exact fun hex => hidentity (hnil.mpr hex)

end

section
variable {β : Type} {document : PreparedDocument} {revision dimension : ℕ}

lemma liveChunks_single :
    liveChunks ((∅ : Catalog).insert document.key ⟨revision,document⟩).entries =
      chunksOf (document.key,⟨revision,document⟩) := by
  change liveChunks [(document.key,(⟨revision,document⟩ : ActiveDocument))] = _
  simp [liveChunks]

/-- Into an empty backend every valid embedded document goes whose chunks can be numbered. -/
lemma activate_start (analysis : Analysis) (policy : EmbeddedMaintenancePolicy)
    (hvalid : ValidDocument document) (hrevision : revision ≠ 0)
    (hgood : ∀ c ∈ document.chunks, GoodVector dimension c.embedding) :
    (∃ b : EmbeddedBackend β,
      (EmbeddedBackend.start analysis policy).activate document revision = (.ok (),b)) ↔
      document.chunks.length ≤ uint32Max := by
  have hlen : (liveChunks ((∅ : Catalog).insert document.key
      ⟨revision,document⟩).entries).length = document.chunks.length := by
    rw [liveChunks_single,chunksOf,List.length_map]
  constructor
  · intro h
    obtain ⟨b,hb⟩ := h
    have hcases := (EmbeddedBackend.start (β := β) analysis policy).activate_activated
      document revision
    rw [hb] at hcases
    cases hcases with
    | already h => simp [EmbeddedBackend.alreadyActive,EmbeddedBackend.start,Generation.empty] at h
    | published _ _ _ next hbuilt =>
      rw [← hlen]
      exact hbuilt.count
  · intro hcount
    have hlive : ∀ x ∈ liveChunks ((∅ : Catalog).insert document.key
        ⟨revision,document⟩).entries, GoodVector dimension x.chunk.embedding := by
      intro x hx
      rw [liveChunks_single,chunksOf] at hx
      obtain ⟨c,hc,rfl⟩ := List.mem_map.mp hx
      exact hgood c hc
    have hkeys : ((liveChunks ((∅ : Catalog).insert document.key
        ⟨revision,document⟩).entries).map fun x => x.chunk.key).Nodup := by
      rw [liveChunks_single,chunksOf,List.map_map]
      exact hvalid.keys
    have hne : ∀ x ∈ liveChunks ((∅ : Catalog).insert document.key ⟨revision,document⟩).entries,
        x.chunk.key ≠ [] := by
      intro x hx
      rw [liveChunks_single,chunksOf] at hx
      obtain ⟨c,hc,rfl⟩ := List.mem_map.mp hx
      obtain ⟨i,hi⟩ := List.mem_iff_getElem?.mp hc
      exact (hvalid.chunks i c hi).key_ne_nil
    have hbuild : ∃ g : Generation β, buildGeneration analysis
        ((∅ : Catalog).insert document.key ⟨revision,document⟩) TieredDenseIndex.empty
        (insert document.key ∅) ∅ 1 = .ok g := by
      have hsame : ∀ e ∈ ((∅ : Catalog).insert document.key ⟨revision,document⟩).entries,
          e.2.prepared.chunkingFingerprint = document.chunkingFingerprint ∧
            e.2.prepared.embeddingIdentity = document.embeddingIdentity := by
        intro e he
        cases List.mem_singleton.mp he
        exact ⟨rfl,rfl⟩
      apply buildGeneration_of hsame
      · exact hkeys
      · rwa [hlen]
      · exact Or.inr fun x hx => ⟨(hlive x hx).2.ne_nil,(hlive x hx).1⟩
      · intro d hd _
        have hrows : ValidRows (deltaRows ((∅ : Catalog).insert document.key ⟨revision,document⟩)
            (TieredDenseIndex.empty : TieredDenseIndex β) (insert document.key ∅)) d := by
          apply validRows_of_live
          · exact hkeys.sublist (List.filter_sublist.map _)
          · exact fun x hx => hne x (List.mem_of_mem_filter hx)
          · intro x hx
            have hx := List.mem_of_mem_filter hx
            have hunit := (hlive x hx).2
            exact ⟨hd x hx hunit.ne_nil,hunit.normalized hunit.ne_nil⟩
        refine ⟨_,TieredDenseIndex.withDelta_eq_ok.mpr
          ⟨Or.inl rfl,Finset.empty_subset _,?_,hrows.firstDimension,rfl⟩⟩
        intro row hrow
        exact ⟨hrows.dimension row hrow,fun h => absurd h (Finset.notMem_empty _)⟩
    obtain ⟨g,hg⟩ := hbuild
    exact ⟨_,EmbeddedBackend.activate_of_build hvalid hrevision rfl hg⟩

/-- What is active after an activation on an empty backend. -/
lemma active_start {analysis : Analysis} {policy : EmbeddedMaintenancePolicy}
    {b : EmbeddedBackend β}
    (h : (EmbeddedBackend.start analysis policy).activate document revision = (.ok (),b)) :
    b.active.chunks.size = document.chunks.length ∧
      ∀ c ∈ document.chunks, b.active.chunks.find? c.key =
        some (LiveChunk.stored ⟨document.key,⟨revision,document⟩,c⟩) := by
  have hcases := (EmbeddedBackend.start (β := β) analysis policy).activate_activated
    document revision
  rw [h] at hcases
  cases hcases with
  | already halready =>
    simp [EmbeddedBackend.alreadyActive,EmbeddedBackend.start,Generation.empty] at halready
  | published _ _ _ next hbuilt =>
    have hlive : liveChunks ((EmbeddedBackend.start
      (β := β) analysis policy).active.documents.insert
        document.key ⟨revision,document⟩).entries = chunksOf (document.key,⟨revision,document⟩) :=
      liveChunks_single
    refine ⟨?_,?_⟩
    · rw [hbuilt.size,hlive,chunksOf,List.length_map]
    · intro c hc
      rw [hbuilt.chunks,hlive]
      exact ⟨_,List.mem_map_of_mem hc,rfl,rfl⟩

end

/-- A document with content that an embedder of normalised vectors embeds is taken in by an
empty backend exactly when its chunks can be told apart and numbered. -/
theorem takenIn_iff_distinguishable {β : Type} (analysis : Analysis)
    (policy : EmbeddedMaintenancePolicy) {sqrt : ℚ → ℚ} (hsqrt : AccurateNearOne sqrt)
    {embedder : Embedder} (hembedder : embedder.Normalised) {key content : Bytes} (hkey : key ≠ [])
    (hcontent : content ≠ [])
    (metadata : Metadata) (title : Bytes) (options : ChunkOptions) (batchSize : ℕ)
    {revision : ℕ} (hrevision : revision ≠ 0)
    (hfree : CollisionFree key (chunksOfContent content options)) :
    TakenIn β analysis policy
        (prepareDocument sqrt key content metadata title options batchSize (some embedder)) revision
        (chunksOfContent content options) ↔
      Distinguishable (chunksOfContent content options) embedder.identity := by
  obtain ⟨vectors,hlen,hgood,hprepared⟩ := prepareDocument_ok title metadata
    options hsqrt hembedder hkey hcontent batchSize
  have hvalid := validDocument_embedded title metadata hkey hlen hgood hfree
  have hembedded := embeddedChunks_embedding key (chunksOfContent content options) hgood
  have hcount := embeddedChunks_length key hlen
  generalize hdoc : embeddedDocument key content metadata title options embedder vectors = document
    at hprepared hvalid
  have hchunks : document.chunks = embeddedChunks key
    (chunksOfContent content options) vectors := by
    rw [← hdoc]
    rfl
  rw [← hchunks] at hembedded hcount
  constructor
  · intro h
    obtain ⟨document',hok,hvalidated,b,hb,-⟩ := h
    obtain rfl : document = document' := Except.ok.inj (hprepared.symm.trans hok)
    have hdocument := (validate_eq_ok.mp hvalidated).1
    obtain ⟨hdistinct,hlines,hidentity⟩ := hvalid.mp hdocument
    refine ⟨hdistinct,hlines,?_,hidentity⟩
    rw [← hcount]
    exact (activate_start analysis policy hdocument hrevision hembedded).mp ⟨b,hb⟩
  · intro h
    have hdocument := hvalid.mpr ⟨h.distinct,h.lines,h.identity⟩
    obtain ⟨b,hb⟩ := (activate_start (β := β) analysis policy hdocument hrevision hembedded).mpr
      (hcount ▸ h.count)
    obtain ⟨hsize,hfind⟩ := active_start hb
    refine ⟨document,hprepared,validate_eq_ok.mpr ⟨hdocument,hrevision⟩,b,hb,hsize.trans hcount,?_⟩
    intro i c hi
    have hlt : i < vectors.length := by
      rw [hlen]
      exact (List.getElem?_eq_some_iff.mp hi).1
    have hget := (embeddedChunks_getElem? key).mpr ⟨c,_,hi,List.getElem?_eq_getElem hlt,rfl⟩
    rw [← hchunks] at hget
    have hdocKey : document.key = key := by
      rw [← hdoc]
      rfl
    rw [hdocKey]
    exact ⟨_,hfind _ (List.mem_of_getElem? hget),rfl,rfl,rfl,rfl,rfl⟩

/-- Pieces that can be told apart give chunks that can. -/
lemma Separable.distinguishable {content identity : Bytes} {options : ChunkOptions}
    (h : Separable content options identity) :
    Distinguishable (chunksOfContent content options) identity := by
  refine ⟨?_,chunkDocument_lines_of_count h.count,
    (length_chunkDocument_le h.whole).trans h.count,fun hne => h.identity fun hnone => ?_⟩
  · have hdiffer : (chunksOfContent content options).Pairwise fun c c' =>
        c.startLine = c'.startLine → opening c.text ≠ opening c'.text :=
      chunkDocument_apart h.whole h.apart h.count
    rw [List.Nodup,List.pairwise_map]
    refine hdiffer.imp_of_mem fun {c c'} hc hc' hopen hsame => ?_
    obtain ⟨hstart,-,htext⟩ : c.startLine = c'.startLine ∧ c.endLine = c'.endLine ∧
        normalizeSourceText c.text = normalizeSourceText c'.text := by
      simpa [identifying] using hsame
    rw [normalizeSourceText_of_not_mem (carriageReturn_not_mem_chunk c hc),
      normalizeSourceText_of_not_mem (carriageReturn_not_mem_chunk c' hc')] at htext
    exact hopen hstart (congrArg opening htext)
  · have hlength : (chunksOfContent content options).length ≤
        (contentSpans content options).length := length_chunkDocument_le h.whole
    rw [hnone] at hlength
    exact hne (List.length_eq_zero_iff.mp (Nat.le_zero.mp hlength))

/-- Where each chunk is one piece, equal pieces of a line give chunks that cannot be told apart,
unless they are blank. -/
lemma apart_of_distinct {content : Bytes} {options : ChunkOptions} (hlines : options.maxLines ≤ 1)
    (hwhole : TakenWhole options (contentSpans content options))
    (hdistinct : ((chunksOfContent content options).map identifying).Nodup) :
    (contentSpans content options).Pairwise fun s s' =>
      Apart s s' ∨ s.text.rdropWhile isSpace = [] := by
  have hplaces : (chunksOfContent content options).map identifying =
      ((contentSpans content options).filter fun s => s.text.rdropWhile isSpace ≠ []).map
        fun s => (s.line,s.line,s.text.rdropWhile isSpace) := by
    rw [contentSpans,← @chunkDocument_single options 0 hlines _ hwhole]
    refine List.map_congr_left fun c hc => ?_
    rw [identifying,normalizeSourceText_of_not_mem (carriageReturn_not_mem_chunk c hc)]
  rw [hplaces,List.Nodup,List.pairwise_map,List.pairwise_filter] at hdistinct
  refine hdistinct.imp fun {s s'} hdiffer => ?_
  by_cases hblank : s.text.rdropWhile isSpace = []
  · exact .inr hblank
  · refine .inl fun hline htrim => ?_
    have hblank' : s'.text.rdropWhile isSpace ≠ [] := htrim ▸ hblank
    exact hdiffer (by simpa using hblank) (by simpa using hblank') (by rw [hline,htrim])

/-- One Newton step from the number itself. -/
def heron (x : ℚ) : ℚ := (x + 1) / 2

lemma heron_accurate : AccurateNearOne heron := by
  intro x hx
  obtain ⟨hlo,hhi⟩ := abs_le.mp hx
  have hpos : 0 < x + 1 := by linarith
  refine ⟨by unfold heron; linarith,?_⟩
  have hsq : 0 < (x+1)^2 := by positivity
  have heq : x / heron x ^ 2 - 1 = -((x-1)^2 / (x+1)^2) := by
    unfold heron
    field_simp
    ring
  rw [heq,abs_neg,abs_of_nonneg (div_nonneg (sq_nonneg _) hsq.le),div_le_iff₀ hsq]
  nlinarith

/-- An embedder of one dimension that gives every text the same vector. -/
def unitEmbedder : Embedder := ⟨1,ascii ['u','n','i','t'],fun texts => .ok (texts.map fun _ => [1])⟩

lemma unitEmbedder_normalised : unitEmbedder.Normalised := by
  intro texts
  refine ⟨_,rfl,List.length_map ..,?_⟩
  intro v hv
  obtain ⟨text,-,rfl⟩ := List.mem_map.mp hv
  exact ⟨rfl,by norm_num [UnitNorm,dot]⟩

/-- An analysis that finds no terms. -/
def noTerms : Analysis := ⟨fun _ => [],fun _ _ => 0⟩

/-- Chunks of one byte. -/
def bytewise : ChunkOptions := { maxChars := 1 }

def prepareBytewise (content : Bytes) : Result PreparedDocument :=
  prepareDocument heron (ascii ['d']) content ∅ [] bytewise 1 (some unitEmbedder)

/-- The two pieces of the line differ. -/
lemma two_letters_separable : Separable (ascii ['a','b']) bytewise unitEmbedder.identity :=
  ⟨takenWhole_of_plain (by decide +kernel) (by decide +kernel),by decide +kernel,by decide +kernel,
    by decide +kernel⟩

end RagRuntime.Preparation
