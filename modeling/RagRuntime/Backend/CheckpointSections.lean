import RagRuntime.Backend.CheckpointFile
import RagRuntime.Store.ContainerRoundTrip

/-! The sections of a checkpoint file: which there are, and that their rows can be read. -/
namespace RagRuntime.Backend
open RagRuntime.Base RagRuntime.Core RagRuntime.Store RagRuntime.Text RagRuntime.Lexical
  RagRuntime.Dense Decoder

/-- The numbers of a document are of the types that hold them. -/
def PreparedDocument.WellTyped (document : PreparedDocument) : Prop :=
  ∀ chunk ∈ document.chunks, chunk.startLine < 256^4 ∧ chunk.endLine < 256^4 ∧
    ∀ x ∈ chunk.embedding, Single.IsFloat x

namespace EmbeddedCheckpointStore

/-- Records that fit the rows they are written to. -/
structure Fitting (checkpoint : EmbeddedCheckpoint) (dimension : ℕ) : Prop where
  savable : Savable checkpoint
  typed : ∀ entry ∈ checkpoint.documents, entry.prepared.WellTyped
  lines : ∀ chunk ∈ rows checkpoint.documents, chunk.startLine ≤ chunk.endLine
  agree : EmbeddingsAgree (rows checkpoint.documents) dimension

section rows

variable {documents : List ActiveDocument}

@[simp] lemma length_corpusDocuments : (corpusDocuments documents).length = documents.length := by
  simp [corpusDocuments]

lemma corpusDocuments_getElem? {i : ℕ} {d : Document}
    (h : (corpusDocuments documents)[i]? = some d) :
    ∃ entry, documents[i]? = some entry ∧ d = ⟨i,entry.prepared.key,entry.prepared.title,
      entry.prepared.content,entry.prepared.metadata⟩ := by
  rw [corpusDocuments,List.getElem?_map,List.getElem?_zipIdx] at h
  cases hentry : documents[i]? with
  | none =>
    rw [hentry] at h
    cases h
  | some entry =>
    rw [hentry] at h
    cases h
    exact ⟨entry,rfl,by simp⟩

lemma map_snd_ownedRows (documents : List ActiveDocument) :
    (ownedRows documents).map Prod.snd = rows documents := by
  have h : ∀ n, ((documents.zipIdx n).flatMap fun x =>
      x.1.prepared.chunks.map fun chunk => (x.2,chunk)).map Prod.snd = rows documents := by
    induction documents with
    | nil => exact fun _ => rfl
    | cons entry rest ih =>
      intro n
      rw [List.zipIdx_cons,List.flatMap_cons,List.map_append,List.map_map,ih (n+1)]
      simp [rows,Function.comp_def]
  exact h 0

lemma length_ownedRows : (ownedRows documents).length = (rows documents).length := by
  rw [← map_snd_ownedRows,List.length_map]

@[simp] lemma length_corpusChunks : (corpusChunks documents).length = (rows documents).length := by
  simp [corpusChunks,length_ownedRows]

lemma corpusChunks_getElem? {i : ℕ} {ch : Chunk} (h : (corpusChunks documents)[i]? = some ch) :
    ∃ doc chunk, (ownedRows documents)[i]? = some (doc,chunk) ∧ ch = ⟨i,doc,chunk.text,
      chunk.context,chunk.startLine,chunk.endLine⟩ := by
  rw [corpusChunks,List.getElem?_map,List.getElem?_zipIdx] at h
  cases hrow : (ownedRows documents)[i]? with
  | none =>
    rw [hrow] at h
    cases h
  | some row =>
    rw [hrow] at h
    cases h
    exact ⟨row.1,row.2,rfl,by simp⟩

lemma mem_ownedRows {row : ℕ × PreparedChunk} (h : row ∈ ownedRows documents) :
    ∃ entry, documents[row.1]? = some entry ∧ row.2 ∈ entry.prepared.chunks := by
  obtain ⟨x,hx,hrow⟩ := List.mem_flatMap.mp h
  obtain ⟨chunk,hchunk,rfl⟩ := List.mem_map.mp hrow
  exact ⟨x.1,List.mem_zipIdx_iff_getElem?.mp hx,hchunk⟩

lemma mem_rows {chunk : PreparedChunk} :
    chunk ∈ rows documents ↔ ∃ entry ∈ documents, chunk ∈ entry.prepared.chunks :=
  List.mem_flatMap

end rows

section reads

variable {checkpoint : EmbeddedCheckpoint} {dimension : ℕ} {row count entry identity : Error}

lemma Savable.chunk (h : Savable checkpoint) {chunk : PreparedChunk}
    (hmem : chunk ∈ rows checkpoint.documents) : SavableChunk chunk := by
  obtain ⟨entry,hentry,hchunk⟩ := mem_rows.mp hmem
  exact (h.documents entry hentry).chunks chunk hchunk

lemma Fitting.chunk (h : Fitting checkpoint dimension) {chunk : PreparedChunk}
    (hmem : chunk ∈ rows checkpoint.documents) : chunk.startLine < 256^4 ∧
      chunk.endLine < 256^4 ∧ ∀ x ∈ chunk.embedding, Single.IsFloat x := by
  obtain ⟨entry,hentry,hchunk⟩ := mem_rows.mp hmem
  exact h.typed entry hentry chunk hchunk

lemma lt_of_le_uint32Max {n : ℕ} (h : n ≤ uint32Max) : n < 256^4 := by
  simp only [uint32Max] at h
  omega

lemma Savable.documentCount_lt (h : Savable checkpoint) : checkpoint.documents.length < 256^4 := by
  have := h.documentCount
  simp only [kMaxDocuments] at this
  omega

lemma Savable.chunkCount_lt (h : Savable checkpoint) :
    (rows checkpoint.documents).length < 256^4 := by
  have := h.chunkCount
  simp only [kMaxChunks] at this
  omega

/-- The rows of the documents are read by either loader. -/
lemma Fitting.reads_documents (h : Fitting checkpoint dimension) {unique : Bool} :
    Reads (repeatFrom (readDocument row count entry unique) checkpoint.documents.length 0 [])
      (encodeFrom putDocument 0 (corpusDocuments checkpoint.documents))
      (corpusDocuments checkpoint.documents) := by
  rw [← @length_corpusDocuments checkpoint.documents]
  apply Store.reads_documents
  · intro d hd
    obtain ⟨i,hi⟩ := List.mem_iff_getElem?.mp hd
    obtain ⟨e,he,rfl⟩ := corpusDocuments_getElem? hi
    have hlt := (List.getElem?_eq_some_iff.mp he).1
    have hsavable := h.savable.documents e (List.mem_of_getElem? he)
    exact ⟨hlt.trans h.savable.documentCount_lt,lt_of_le_uint32Max hsavable.keySize,
      lt_of_le_uint32Max hsavable.title,lt_of_le_uint32Max hsavable.content,hsavable.metadataSize,
      fun p hp => ⟨lt_of_le_uint32Max (hsavable.metadata p hp).1,
        lt_of_le_uint32Max (hsavable.metadata p hp).2⟩⟩
  · intro i d hd
    obtain ⟨e,-,rfl⟩ := corpusDocuments_getElem? hd
    rfl

lemma Fitting.reads_chunks (h : Fitting checkpoint dimension) :
    Reads (repeatFrom (readChunk identity row checkpoint.documents.length)
      (rows checkpoint.documents).length 0 [])
      (encodeFrom putChunk 0 (corpusChunks checkpoint.documents))
      (corpusChunks checkpoint.documents) := by
  rw [← @length_corpusChunks checkpoint.documents]
  apply Store.reads_chunks h.savable.documentCount_lt.le
  · intro ch hch
    obtain ⟨i,hi⟩ := List.mem_iff_getElem?.mp hch
    obtain ⟨doc,chunk,hrow,rfl⟩ := corpusChunks_getElem? hi
    have hlt := (List.getElem?_eq_some_iff.mp hrow).1
    rw [length_ownedRows] at hlt
    obtain ⟨e,he,hchunk⟩ := mem_ownedRows (List.mem_of_getElem? hrow)
    have hmem : chunk ∈ rows checkpoint.documents :=
      mem_rows.mpr ⟨e,List.mem_of_getElem? he,hchunk⟩
    have hsavable := h.savable.chunk hmem
    exact ⟨hlt.trans h.savable.chunkCount_lt,(List.getElem?_eq_some_iff.mp he).1,
      lt_of_le_uint32Max hsavable.text,lt_of_le_uint32Max hsavable.context,(h.chunk hmem).2.1,
      h.lines chunk hmem⟩
  · intro i ch hch
    obtain ⟨doc,chunk,-,rfl⟩ := corpusChunks_getElem? hch
    rfl

/-- The index that is written holds one text for each chunk. -/
lemma Fitting.writable (h : Fitting checkpoint dimension) (idf : ℕ → ℕ → ℚ) :
    (lexicalIndex idf checkpoint.documents).Writable := by
  have hcount : (corpusTexts checkpoint.documents).length ≤ kMaxChunks := by
    rw [corpusTexts,List.length_map]
    exact h.savable.chunkCount
  have hlong : ∀ text ∈ corpusTexts checkpoint.documents, text.length ≤ uint32Max := by
    intro text htext
    obtain ⟨chunk,hchunk,rfl⟩ := List.mem_map.mp htext
    exact (h.savable.chunk hchunk).indexed
  have := @Bm25Index.writable_added idf _ hcount hlong
  exact ⟨this.k1,this.b,this.total,this.docCount,this.docs,this.terms⟩

end reads

section container

variable (idf : ℕ → ℕ → ℚ) (order : HashOrder) (checkpoint : EmbeddedCheckpoint)

lemma serialize_ne_nil (index : Bm25Index) : index.serialize order ≠ [] := by
  intro h
  have := congrArg List.length h
  simp [Bm25Index.serialize,Bm25Index.header] at this

lemma documentsSection_ne_nil : documentsSection checkpoint.documents ≠ [] := by
  intro h
  have := congrArg List.length h
  simp [documentsSection] at this

lemma chunksSection_ne_nil : chunksSection checkpoint.documents ≠ [] := by
  intro h
  have := congrArg List.length h
  simp [chunksSection] at this

lemma runtimeSection_ne_nil : runtimeSection checkpoint ≠ [] := by
  intro h
  have := congrArg List.length h
  simp [runtimeSection] at this

lemma embeddingsSection_ne_nil (h : anyEmbeddings checkpoint.documents = true) :
    embeddingsSection checkpoint.documents ≠ [] := by
  obtain ⟨chunk,hchunk,-⟩ := List.any_eq_true.mp h
  obtain ⟨c,rest,hrows⟩ := List.exists_cons_of_ne_nil (List.ne_nil_of_mem hchunk)
  intro hnil
  have := congrArg List.length hnil
  rw [embeddingsSection,corpusEmbeddings,hrows] at this
  simp [encodeFrom,putEmbedding] at this

lemma filled_container : (container idf order checkpoint).Filled := by
  have hplain := (((Container.filled_empty.put .«meta» (by decide : metadataText ≠ [])).put .docs
    (documentsSection_ne_nil checkpoint)).put .chunks (chunksSection_ne_nil checkpoint)).put .bm25
      (serialize_ne_nil order (lexicalIndex idf checkpoint.documents))
  unfold container
  dsimp only
  by_cases h : anyEmbeddings checkpoint.documents = true
  · rw [if_pos h]
    exact (hplain.put .embed (embeddingsSection_ne_nil checkpoint h)).put .runtime
      (runtimeSection_ne_nil checkpoint)
  · rw [if_neg h]
    exact hplain.put .runtime (runtimeSection_ne_nil checkpoint)

lemma size_container_le : (container idf order checkpoint).sections.size ≤ kMaxSections := by
  unfold container
  dsimp only
  have hsize : ∀ c : Container, ∀ flags, (c.setFlags flags).sections.size = c.sections.size :=
    fun _ _ => rfl
  rw [hsize]
  have hempty : Container.empty.sections.size = 0 := rfl
  have h1 := Container.empty.size_put_le .«meta» metadataText
  have h2 := (Container.empty.put .«meta» metadataText).size_put_le .docs
    (documentsSection checkpoint.documents)
  have h3 := ((Container.empty.put .«meta» metadataText).put .docs
    (documentsSection checkpoint.documents)).size_put_le .chunks
      (chunksSection checkpoint.documents)
  have h4 := (((Container.empty.put .«meta» metadataText).put .docs
    (documentsSection checkpoint.documents)).put .chunks
      (chunksSection checkpoint.documents)).size_put_le .bm25
        ((lexicalIndex idf checkpoint.documents).serialize order)
  set plain := (((Container.empty.put .«meta» metadataText).put .docs
    (documentsSection checkpoint.documents)).put .chunks
      (chunksSection checkpoint.documents)).put .bm25
        ((lexicalIndex idf checkpoint.documents).serialize order)
  have h5 := plain.size_put_le .embed (embeddingsSection checkpoint.documents)
  have h6 : (if anyEmbeddings checkpoint.documents = true then
      plain.put .embed (embeddingsSection checkpoint.documents) else plain).sections.size ≤ 5 := by
    split_ifs <;> omega
  have h7 := (if anyEmbeddings checkpoint.documents = true then
      plain.put .embed (embeddingsSection checkpoint.documents) else plain).size_put_le .runtime
        (runtimeSection checkpoint)
  simp only [kMaxSections]
  omega

/-- The length of a file is that of its sections, and of a table that cannot be long. -/
lemma length_container_le : (container idf order checkpoint).serialize.length ≤
    1312 + metadataText.length + (documentsSection checkpoint.documents).length +
      (chunksSection checkpoint.documents).length +
      ((lexicalIndex idf checkpoint.documents).serialize order).length +
      (embeddingsSection checkpoint.documents).length + (runtimeSection checkpoint).length := by
  have hsize := size_container_le idf order checkpoint
  have hpayloads : (Container.payloads (container idf order checkpoint).sections.entries).length ≤
      metadataText.length + (documentsSection checkpoint.documents).length +
        (chunksSection checkpoint.documents).length +
        ((lexicalIndex idf checkpoint.documents).serialize order).length +
        (embeddingsSection checkpoint.documents).length + (runtimeSection checkpoint).length := by
    unfold container
    dsimp only
    have hflags : ∀ c : Container, ∀ flags, (c.setFlags flags).sections = c.sections :=
      fun _ _ => rfl
    rw [hflags]
    have hempty : (Container.payloads Container.empty.sections.entries).length = 0 := rfl
    have h1 := Container.empty.length_payloads_put_le .«meta» metadataText
    have h2 := (Container.empty.put .«meta» metadataText).length_payloads_put_le .docs
      (documentsSection checkpoint.documents)
    have h3 := ((Container.empty.put .«meta» metadataText).put .docs
      (documentsSection checkpoint.documents)).length_payloads_put_le .chunks
        (chunksSection checkpoint.documents)
    have h4 := (((Container.empty.put .«meta» metadataText).put .docs
      (documentsSection checkpoint.documents)).put .chunks
        (chunksSection checkpoint.documents)).length_payloads_put_le .bm25
          ((lexicalIndex idf checkpoint.documents).serialize order)
    set plain := (((Container.empty.put .«meta» metadataText).put .docs
      (documentsSection checkpoint.documents)).put .chunks
        (chunksSection checkpoint.documents)).put .bm25
          ((lexicalIndex idf checkpoint.documents).serialize order)
    have h5 := plain.length_payloads_put_le .embed (embeddingsSection checkpoint.documents)
    have h6 : (Container.payloads (if anyEmbeddings checkpoint.documents = true then
        plain.put .embed (embeddingsSection checkpoint.documents)
          else plain).sections.entries).length ≤
        (Container.payloads plain.sections.entries).length +
          (embeddingsSection checkpoint.documents).length := by
      split_ifs <;> omega
    have h7 := (if anyEmbeddings checkpoint.documents = true then
        plain.put .embed (embeddingsSection checkpoint.documents)
          else plain).length_payloads_put_le .runtime (runtimeSection checkpoint)
    omega
  rw [Container.serialize_length,Container.body_length,Container.payloadBegin]
  simp only [kMaxSections,kContainerHeaderBytes,kEntryBytes,
    kTrailerBytes] at hsize ⊢
  omega

end container

end EmbeddedCheckpointStore
end RagRuntime.Backend
