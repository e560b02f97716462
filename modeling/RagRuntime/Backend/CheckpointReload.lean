import RagRuntime.Backend.LegacyReader
import RagRuntime.Base.Fallible
import RagRuntime.Store.ContainerFile

/-! A checkpoint file in the hands of the runtime: it is loaded as the checkpoint that was saved,
unless its lexical index is too large. -/
namespace RagRuntime.Base.Decoder

variable {ε α β : Type}

/-- Records that are read by what belongs to each of them. -/
theorem reads_mapM {f : α → Decoder ε β} {encode : ℕ → β → Bytes} {as : List α} {bs : List β}
    (h : List.Forall₂ (fun a b => ∀ i, Reads (f a) (encode i b) b) as bs) (index : ℕ) :
    Reads (as.mapM f) (encodeFrom encode index bs) bs := by
  induction h generalizing index with
  | nil => exact .pure _
  | cons hab _ ih =>
    rw [List.mapM_cons]
    exact (hab index).bind ((ih (index+1)).last (.pure _))

/-- What holds of each record that is read. -/
theorem yields_mapM {f : α → Decoder ε β} {post : β → Prop} {as : List α}
    (h : ∀ a ∈ as, Yields (f a) post) : Yields (as.mapM f) fun bs => ∀ b ∈ bs, post b := by
  induction as with
  | nil => exact yields_pure fun b hb => absurd hb List.not_mem_nil
  | cons a as ih =>
    obtain ⟨ha,has⟩ := List.forall_mem_cons.mp h
    rw [List.mapM_cons]
    refine ha.bind fun b hb => (ih has).bind fun bs hbs => yields_pure ?_
    exact List.forall_mem_cons.mpr ⟨hb,hbs⟩

/-- A number that is too large for its bytes is cut. -/
theorem reads_number_mod {e : ε} (w n : ℕ) : Reads (number e w) (leBytes w n) (n % 256^w) := by
  intro rest
  have htake : takeNumber w (leBytes w n ++ rest) = some (n % 256^w,rest) := by
    simp [takeNumber,leValue_leBytes]
  simp [number,htake]

end RagRuntime.Base.Decoder

namespace RagRuntime.Backend
open RagRuntime.Base RagRuntime.Core RagRuntime.Store RagRuntime.Text RagRuntime.Lexical
  RagRuntime.Dense Decoder

namespace EmbeddedCheckpointStore

/-- Records that the loader of the runtime accepts: chunks are numbered, and revisions are of the
type that holds them. -/
structure Reloadable (checkpoint : EmbeddedCheckpoint) (dimension : ℕ) : Prop where
  fitting : Fitting checkpoint dimension
  ordinals : ∀ entry ∈ checkpoint.documents,
    entry.prepared.chunks.map PreparedChunk.ordinal = List.range entry.prepared.chunks.length
  revisions : ∀ e ∈ checkpoint.revisions.entries, e.2 < 256^8

variable {checkpoint : EmbeddedCheckpoint} {dimension : ℕ}

section rows

variable {documents : List ActiveDocument}

/-- A row of the file and the chunk that it was written for. -/
def RowOf (row : Chunk × Vec) (chunk : PreparedChunk) : Prop :=
  row.1.text = chunk.text ∧ row.1.context = chunk.context ∧ row.1.startLine = chunk.startLine ∧
    row.1.endLine = chunk.endLine ∧ row.2 = chunk.embedding

lemma filter_numbered (chunks : List PreparedChunk) (n i : ℕ) :
    (chunks.map fun chunk => (n,chunk)).filter (fun row => row.1 = i) =
      if n = i then chunks.map fun chunk => (n,chunk) else [] := by
  rw [List.filter_map]
  split_ifs with h
  · rw [List.filter_eq_self.mpr fun _ _ => by simp [h]]
  · rw [List.filter_eq_nil_iff.mpr fun _ _ => by simp [h],List.map_nil]

/-- The rows of a document are those of its chunks, in their order. -/
lemma filter_ownedRows {i : ℕ} {entry : ActiveDocument} (h : documents[i]? = some entry) :
    (ownedRows documents).filter (fun row => row.1 = i) =
      entry.prepared.chunks.map fun chunk => (i,chunk) := by
  have hfrom : ∀ n, ((documents.zipIdx n).flatMap fun x =>
      (x.1.prepared.chunks.map fun chunk => (x.2,chunk)).filter fun row => row.1 = n+i) =
        entry.prepared.chunks.map fun chunk => (n+i,chunk) := by
    induction documents generalizing i with
    | nil => cases h
    | cons d rest ih =>
      intro n
      rw [List.zipIdx_cons,List.flatMap_cons,filter_numbered]
      cases i with
      | zero =>
        cases h
        have hrest : ((rest.zipIdx (n+1)).flatMap fun x =>
            (x.1.prepared.chunks.map fun chunk => (x.2,chunk)).filter fun row => row.1 = n+0) =
              [] := by
          apply List.flatMap_eq_nil_iff.mpr
          intro x hx
          rw [filter_numbered,if_neg]
          have := List.le_snd_of_mem_zipIdx hx
          omega
        rw [if_pos (Nat.add_zero n).symm,hrest,List.append_nil]
        rfl
      | succ i =>
        have hrest := ih h (n+1)
        rw [Nat.add_assoc,Nat.add_comm 1 i] at hrest
        rw [if_neg (by omega),List.nil_append,hrest]
  have := hfrom 0
  rwa [Nat.zero_add,← List.filter_flatMap] at this

/-- What the file has of the chunks of one document. -/
lemma rowsOf_document {i : ℕ} {entry : ActiveDocument} (h : documents[i]? = some entry) :
    List.Forall₂ RowOf (rowsOf ((corpusChunks documents).zip (corpusEmbeddings documents)) i)
      entry.prepared.chunks := by
  have hzip : (corpusChunks documents).zip (corpusEmbeddings documents) =
      (ownedRows documents).zipIdx.map fun x => ((⟨x.2,x.1.1,x.1.2.text,x.1.2.context,
        x.1.2.startLine,x.1.2.endLine⟩ : Chunk),x.1.2.embedding) := by
    have hembeddings : corpusEmbeddings documents =
        (ownedRows documents).zipIdx.map fun x => x.1.2.embedding := by
      rw [corpusEmbeddings,← map_snd_ownedRows,List.map_map]
      conv_lhs => rw [← List.zipIdx_map_fst 0 (ownedRows documents)]
      rw [List.map_map]
      rfl
    rw [hembeddings,corpusChunks,List.zip_map']
  have hchunks : entry.prepared.chunks =
      ((ownedRows documents).zipIdx.filter fun x => x.1.1 = i).map fun x => x.1.2 := by
    have hfilter := filter_ownedRows h
    have hfst := List.zipIdx_map_fst 0 (ownedRows documents)
    rw [← hfst,List.filter_map] at hfilter
    have hsnd := congrArg (List.map Prod.snd) hfilter
    rw [List.map_map,List.map_map,List.map_id''] at hsnd
    · exact hsnd.symm
    · exact fun _ => rfl
  rw [rowsOf,hzip,List.filter_map,hchunks,List.forall₂_map_left_iff,List.forall₂_map_right_iff]
  apply List.forall₂_same.mpr
  exact fun x _ => ⟨rfl,rfl,rfl,rfl,rfl⟩

/-- The chunks of a document come back from their rows and what the runtime section has of them. -/
lemma preparedChunks_eq {found : List (Chunk × Vec)} {chunks : List PreparedChunk}
    (h : List.Forall₂ RowOf found chunks)
    (hordinals : chunks.map PreparedChunk.ordinal = List.range chunks.length) :
    ((found.zip (chunks.map fun chunk => (chunk.key,chunk.indexedText))).zipIdx.map fun x =>
      preparedChunk x.1.1 x.2 x.1.2) = chunks := by
  have hlength := h.length_eq
  have hnumbered : ∀ (c : PreparedChunk) i, c.ordinal = i → (⟨c.key,i,c.text,c.indexedText,
      c.context,c.startLine,c.endLine,c.embedding⟩ : PreparedChunk) = c := by
    rintro c i rfl
    rfl
  apply List.ext_getElem
  · simp [hlength]
  · intro i hi hi'
    obtain ⟨htext,hcontext,hstart,hend,hembedding⟩ :=
      (List.forall₂_iff_get.mp h).2 i (by omega) hi'
    have hordinal : chunks[i].ordinal = i := by
      have := congrArg (fun l => l[i]?) hordinals
      simpa [hi'] using this
    simp only [List.get_eq_getElem] at htext hcontext hstart hend hembedding
    simp only [List.getElem_map,List.getElem_zipIdx,List.getElem_zip,preparedChunk,Nat.zero_add,
      htext,hcontext,hstart,hend,hembedding]
    exact hnumbered _ i hordinal

end rows

section runtime

/-- The runtime section has the keys and the indexed texts of the chunks. -/
lemma reads_runtimeChunks {chunks : List PreparedChunk}
    (hfits : ∀ chunk ∈ chunks, chunk.key.length < 256^4 ∧ chunk.indexedText.length < 256^4)
    (hcount : chunks.length < 256^4)
    (hordinals : chunks.map PreparedChunk.ordinal = List.range chunks.length) :
    Reads (repeatFrom readRuntimeChunk chunks.length 0 [])
      (encodeFrom putRuntimeChunk 0 chunks)
      (chunks.map fun chunk => (chunk.key,chunk.indexedText)) := by
  refine reads_repeatFrom putRuntimeChunk
    (fun pre => pre.map fun chunk => (chunk.key,chunk.indexedText)) [] ?_
  intro pre chunk post hsplit
  obtain ⟨hkey,htext⟩ := hfits chunk (by simp [← hsplit])
  have hordinal : chunk.ordinal = pre.length := by
    have := congrArg (fun l => l[pre.length]?) hordinals
    simpa [← hsplit] using this
  have hsmall : chunk.ordinal < 256^8 := by
    have hlen : pre.length < chunks.length := by
      rw [← hsplit,List.length_append,List.length_cons]
      omega
    omega
  rw [List.nil_append,List.map_append,List.length_nil,Nat.zero_add]
  exact (reads_string hkey).bind ((reads_number hsmall).bind ((reads_ensure hordinal).after
    ((reads_string htext).last (.pure _))))

variable (h : Reloadable checkpoint dimension)
include h

lemma Reloadable.reads_runtimeDocument {i : ℕ} {entry : ActiveDocument}
    (hentry : checkpoint.documents[i]? = some entry) {found : List (Chunk × Vec)} {d : Document}
    (hd : d = ⟨i,entry.prepared.key,entry.prepared.title,entry.prepared.content,
      entry.prepared.metadata⟩)
    (hfound : List.Forall₂ RowOf (rowsOf found i) entry.prepared.chunks) (j : ℕ) :
    Reads (readRuntimeDocument found d) (putRuntimeDocument j entry) entry := by
  have hmem := List.mem_of_getElem? hentry
  have hsavable := h.fitting.savable.documents entry hmem
  have hordinals := h.ordinals entry hmem
  have hrevision : entry.revision < 256^8 :=
    h.revisions _ (OrdMap.find?_eq_some.mp hsavable.catalog)
  have hcount : entry.prepared.chunks.length < 256^4 := by
    have hsub := (List.sublist_flatten_of_mem (List.mem_map_of_mem
      (f := fun e : ActiveDocument => e.prepared.chunks) hmem)).length_le
    exact lt_of_le_of_lt hsub h.fitting.savable.chunkCount_lt
  have hchunks : ∀ chunk ∈ entry.prepared.chunks,
      chunk.key.length < 256^4 ∧ chunk.indexedText.length < 256^4 := fun chunk hchunk =>
    ⟨lt_of_le_uint32Max (hsavable.chunks chunk hchunk).keySize,
      lt_of_le_uint32Max (hsavable.chunks chunk hchunk).indexed⟩
  have hlength : entry.prepared.chunks.length = (rowsOf found d.id).length := by
    rw [hd]
    exact hfound.length_eq.symm
  subst hd
  refine (reads_string (lt_of_le_uint32Max hsavable.keySize)).bind ((reads_ensure rfl).after
    ((reads_number hrevision).bind ((reads_ensure hsavable.revision).after
      ((reads_string (lt_of_le_uint32Max hsavable.contentHash)).bind
        ((reads_string (lt_of_le_uint32Max hsavable.fingerprint)).bind
          ((reads_string (lt_of_le_uint32Max hsavable.identity)).bind
            ((reads_number hcount).bind ((reads_ensure hlength).after
              ((reads_runtimeChunks hchunks hcount hordinals).last ?_)))))))))
  rw [preparedChunks_eq hfound hordinals]
  exact .pure _

lemma Reloadable.reads_runtime : Reads
    (readRuntime (corpusDocuments checkpoint.documents)
      ((corpusChunks checkpoint.documents).zip (corpusEmbeddings checkpoint.documents)))
    (runtimeSection checkpoint) { checkpoint with
      generation := checkpoint.generation % 256^8
      walPosition := checkpoint.walPosition % 256^8 } := by
  have hcount := h.fitting.savable.documentCount_lt
  have hheader : Reads (readRuntimeHeader (corpusDocuments checkpoint.documents).length)
      (leBytes 4 kRuntimeVersion ++ (leBytes 8 checkpoint.generation ++
        (leBytes 8 checkpoint.walPosition ++ leBytes 4 checkpoint.documents.length)))
      (checkpoint.generation % 256^8,checkpoint.walPosition % 256^8) :=
    (reads_number (by decide)).bind ((reads_ensure rfl).after ((reads_number_mod 8 _).bind
      ((reads_number_mod 8 _).bind ((reads_number hcount).last
        ((reads_ensure length_corpusDocuments.symm).after (.pure _))))))
  have hdocuments : Reads ((corpusDocuments checkpoint.documents).mapM (readRuntimeDocument
      ((corpusChunks checkpoint.documents).zip (corpusEmbeddings checkpoint.documents))))
      (encodeFrom putRuntimeDocument 0 checkpoint.documents) checkpoint.documents := by
    apply reads_mapM
    apply List.forall₂_iff_get.mpr ⟨length_corpusDocuments,?_⟩
    intro i hi hi' j
    have hentry := List.getElem?_eq_getElem hi'
    obtain ⟨entry,hsame,hd⟩ := corpusDocuments_getElem? (List.getElem?_eq_getElem hi)
    cases hentry.symm.trans hsame
    exact h.reads_runtimeDocument hentry hd (rowsOf_document hentry) j
  have hrevisions : Reads readRevisions (leBytes 4 checkpoint.revisions.size ++
      encodeFrom putRevision 0 checkpoint.revisions.entries) checkpoint.revisions := by
    have hsize := h.fitting.savable.revisionCount
    have hfits : checkpoint.revisions.size < 256^4 := by
      simp only [kMaxDocuments] at hsize
      omega
    refine (reads_number hfits).bind ((reads_ensure hsize).after (reads_map (.refl _) ?_))
    intro e he m i hnew
    obtain ⟨hkey,hlong,hzero⟩ := h.fitting.savable.revisions e he
    exact (reads_string (lt_of_le_uint32Max hlong)).bind ((reads_ensure hkey).after
      ((reads_number (h.revisions e he)).last ((reads_ensure ⟨hzero,hnew⟩).after (.pure _))))
  have hsection : runtimeSection checkpoint = (leBytes 4 kRuntimeVersion ++
      (leBytes 8 checkpoint.generation ++ (leBytes 8 checkpoint.walPosition ++
        leBytes 4 checkpoint.documents.length))) ++
          (encodeFrom putRuntimeDocument 0 checkpoint.documents ++
            (leBytes 4 checkpoint.revisions.size ++
              encodeFrom putRevision 0 checkpoint.revisions.entries)) := by
    simp only [runtimeSection,List.append_assoc]
  rw [hsection]
  refine hheader.bind (hdocuments.bind (hrevisions.last ((reads_ensure ?_).after (.pure _))))
  exact fun entry hentry => (h.fitting.savable.documents entry hentry).catalog

end runtime

section sections

lemma Fitting.reads_documentsSection (h : Fitting checkpoint dimension) :
    EmbeddedCheckpointStore.readDocuments.whole
    (corrupt "checkpoint has trailing document data") (documentsSection checkpoint.documents) =
      .ok (corpusDocuments checkpoint.documents) := by
  apply Reads.whole
  exact (reads_number h.savable.documentCount_lt).bind
    ((reads_ensure h.savable.documentCount).after h.reads_documents)

lemma Fitting.reads_chunksSection (h : Fitting checkpoint dimension) :
    (EmbeddedCheckpointStore.readChunks (corpusDocuments checkpoint.documents).length).whole
      (corrupt "checkpoint has trailing chunk data") (chunksSection checkpoint.documents) =
        .ok (corpusChunks checkpoint.documents) := by
  rw [length_corpusDocuments]
  apply Reads.whole
  exact (reads_number h.savable.chunkCount_lt).bind
    ((reads_ensure h.savable.chunkCount).after h.reads_chunks)

/-- The vectors of a section, all of one dimension. -/
lemma reads_vectors {vectors : List Vec}
    (h : ∀ v ∈ vectors, v ≠ [] ∧ v.length = dimension ∧ v.length ≤ kMaxVectorDimension ∧
      (∀ x ∈ v, Single.IsFloat x) ∧ UnitNorm v) :
    Reads (repeatFrom readEmbedding vectors.length 0 (0,[])) (encodeFrom putEmbedding 0 vectors)
      (if vectors = [] then 0 else dimension,vectors) := by
  refine reads_repeatFrom putEmbedding
    (fun pre => (if pre = [] then 0 else dimension,pre)) [] ?_
  intro pre v post hsplit
  obtain ⟨hne,hdimension,hmax,hfloats,hunit⟩ := h v (by rw [← hsplit]; simp)
  have hfits : v.length < 256^4 := by
    simp only [kMaxVectorDimension] at hmax
    omega
  have hzero : v.length ≠ 0 := fun h0 => hne (List.length_eq_zero_iff.mp h0)
  have hseen : (if [] ++ pre = [] then 0 else dimension) = 0 ∨
      v.length = if [] ++ pre = [] then 0 else dimension := by
    split_ifs
    · exact Or.inl rfl
    · exact Or.inr hdimension
  have hnext : (if [] ++ pre ++ [v] = [] then 0 else dimension) = v.length := by
    rw [if_neg (by simp),hdimension]
  rw [hnext]
  refine (reads_number hfits).bind ((reads_ensure ⟨hmax,hseen⟩).after
    ((reads_vector hfloats).last ((reads_ensure (show v ≠ [] → |dot v v - 1| ≤ 1/1000
      from fun _ => hunit)).after ?_)))
  rw [if_pos hzero]
  exact .pure _

lemma Fitting.reads_embeddingsSection (h : Fitting checkpoint dimension) (idf : ℕ → ℕ → ℚ)
    (order : HashOrder) : EmbeddedCheckpointStore.readEmbeddings
      (corpusChunks checkpoint.documents).length
      (sectionAt idf order checkpoint .embed) = .ok (corpusEmbeddings checkpoint.documents) := by
  have hlength : (corpusChunks checkpoint.documents).length =
      (corpusEmbeddings checkpoint.documents).length := by
    rw [length_corpusChunks,corpusEmbeddings,List.length_map]
  unfold sectionAt
  by_cases hany : anyEmbeddings checkpoint.documents = true
  · obtain ⟨chunk,hchunk,hne⟩ := List.any_eq_true.mp hany
    rw [if_pos hany]
    obtain hnone | hall := h.agree
    · simp [hnone chunk hchunk] at hne
    · have hread := (@reads_vectors dimension (corpusEmbeddings checkpoint.documents) (by
        intro v hv
        obtain ⟨c,hc,rfl⟩ := List.mem_map.mp hv
        obtain ⟨hne,hdimension,hunit⟩ := hall c hc
        exact ⟨hne,hdimension,(h.savable.chunk hc).dimension,(h.chunk hc).2.2,hunit⟩)).whole
          (corrupt "checkpoint has trailing embedding data")
      rw [← hlength] at hread
      unfold EmbeddedCheckpointStore.readEmbeddings
      dsimp only
      rw [embeddingsSection,hread]
      rfl
  · rw [if_neg hany]
    have hnone : ∀ c ∈ rows checkpoint.documents, c.embedding = [] := by
      intro c hc
      by_contra hne
      exact hany (List.any_eq_true.mpr ⟨c,hc,by simpa using hne⟩)
    have hempty : corpusEmbeddings checkpoint.documents =
        List.replicate (corpusChunks checkpoint.documents).length [] := by
      rw [hlength]
      exact List.eq_replicate_of_mem fun v hv => by
        obtain ⟨c,hc,rfl⟩ := List.mem_map.mp hv
        exact hnone c hc
    unfold EmbeddedCheckpointStore.readEmbeddings
    dsimp only
    rw [← hempty]

lemma checkMetadata_text {parser : JsonParser} (h : ReadsMetadata parser) :
    checkMetadata parser metadataText = .ok () := by
  unfold checkMetadata
  rw [h]
  rfl

/-- The index of a file has as many texts as there are chunks. -/
lemma docLen_lexicalIndex (idf : ℕ → ℕ → ℚ) (analysis : Analysis) :
    ({ lexicalIndex idf checkpoint.documents with analysis := analysis } :
      Bm25Index).finalize.docLen.size = (corpusChunks checkpoint.documents).length := by
  have hsame : ({ lexicalIndex idf checkpoint.documents with analysis := analysis } :
      Bm25Index).finalize.docLen = (Bm25Index.added ⟨Tokenizer.tokenize {},idf⟩
        (corpusTexts checkpoint.documents)).docLen := by
    rfl
  rw [hsame,OrdMap.size,Bm25Index.docLen_added,List.length_map,List.length_zipIdx,
    length_corpusChunks,corpusTexts,List.length_map]

lemma checkLexical_ok {idf : ℕ → ℕ → ℚ} {chunks : ℕ} {blob : Bytes} {index : Bm25Index}
    (hread : Bm25Index.deserialize ⟨Tokenizer.tokenize {},idf⟩ blob = .ok index)
    (hsize : index.docLen.size = chunks) : checkLexical idf chunks blob = .ok () := by
  unfold checkLexical
  rw [hread]
  dsimp only
  rw [if_neg (not_ne_iff.mpr hsize)]

lemma checkLexical_error {idf : ℕ → ℕ → ℚ} {chunks : ℕ} {blob : Bytes} {e : Error}
    (hread : Bm25Index.deserialize ⟨Tokenizer.tokenize {},idf⟩ blob = .error e) :
    checkLexical idf chunks blob ≠ .ok () := by
  unfold checkLexical
  rw [hread]
  intro hok
  cases hok

/-- Of the lexical index it is only in question whether it has too many terms. -/
lemma Fitting.checkLexical_iff (h : Fitting checkpoint dimension) (idf : ℕ → ℕ → ℚ)
    (order : HashOrder) : checkLexical idf (corpusChunks checkpoint.documents).length
      ((lexicalIndex idf checkpoint.documents).serialize order) = .ok () ↔
        (terms checkpoint.documents).card ≤ kMaxPostings := by
  have hterms : (lexicalIndex idf checkpoint.documents).postings.size =
      (terms checkpoint.documents).card :=
    Bm25Index.size_postings_added
  rw [← hterms]
  constructor
  · intro hok
    by_contra hmany
    obtain ⟨e,he⟩ := Bm25Index.deserialize_serialize_error order ⟨Tokenizer.tokenize {},idf⟩
      (h.writable idf) (not_le.mp hmany)
    exact checkLexical_error he hok
  · intro hcount
    exact checkLexical_ok (Bm25Index.deserialize_serialize order ⟨Tokenizer.tokenize {},idf⟩
      (h.writable idf) hcount) (docLen_lexicalIndex idf _)

end sections

/-- A saved file is loaded as the checkpoint that was saved, exactly if its texts have not too many
terms. -/
theorem Reloadable.load_iff (h : Reloadable checkpoint dimension) {parser : JsonParser}
    (hparser : ReadsMetadata parser) (idf : ℕ → ℕ → ℚ) (hash : HashOrder) (order : OffsetSort)
    {file : Bytes} (hsave : save idf hash checkpoint = .ok file) {loaded : EmbeddedCheckpoint} :
    load parser idf order file = .ok loaded ↔
      loaded = { checkpoint with
        generation := checkpoint.generation % 256^8
        walPosition := checkpoint.walPosition % 256^8 } ∧
      (terms checkpoint.documents).card ≤ kMaxPostings := by
  have hwritten : file = (container idf hash checkpoint).serialize ∧ file.length < 256^8 := by
    unfold save at hsave
    rw [validateForSave_eq_ok.mpr h.fitting.savable] at hsave
    simp only [bind,Except.bind] at hsave
    split_ifs at hsave with hsize
    · cases hsave
      exact ⟨rfl,hsize⟩
    · cases hsave
  obtain ⟨rfl,hsize⟩ := hwritten
  obtain ⟨view,hview,hget,hflags⟩ := Container.openFile_writeFile order
    (container idf hash checkpoint) (size_container_le idf hash checkpoint) hsize
    ((filled_container idf hash checkpoint).emptyLast.before order)
  rw [Container.writeFile_eq] at hview
  have hflag : ¬((view.flags &&& kHasEmbeddings.val ≠ 0) ≠ view.has .embed) := by
    have hset : (container idf hash checkpoint).flags =
        if anyEmbeddings checkpoint.documents then kHasEmbeddings else 0 := rfl
    rw [hflags,ContainerView.has,hget,get_container,hset]
    cases hany : anyEmbeddings checkpoint.documents <;> simp [sectionAt,hany,kHasEmbeddings]
  rw [← h.fitting.checkLexical_iff idf hash]
  unfold load
  rw [hview,ok_bind]
  simp only [hget,get_container]
  simp only [sectionAt]
  rw [if_neg hflag,checkMetadata_text hparser,ok_bind,h.fitting.reads_documentsSection,ok_bind,
    h.fitting.reads_chunksSection,ok_bind]
  have hembeddings := h.fitting.reads_embeddingsSection idf hash
  simp only [sectionAt] at hembeddings
  rw [hembeddings,ok_bind]
  have hruntime := h.reads_runtime.whole (corrupt "checkpoint has trailing runtime data")
  cases hlexical : checkLexical idf (corpusChunks checkpoint.documents).length
    ((lexicalIndex idf checkpoint.documents).serialize hash) with
  | error e =>
    constructor
    · intro hload
      cases hload
    · rintro ⟨-,hok⟩
      cases hok
  | ok u =>
    rw [ok_bind,hruntime]
    constructor
    · intro hload
      cases hload
      exact ⟨rfl,rfl⟩
    · rintro ⟨rfl,-⟩
      rfl

section typed

/-- The numbers of a row are of the types that hold them. -/
def TypedRow (row : Chunk × Vec) : Prop :=
  row.1.startLine < 256^4 ∧ row.1.endLine < 256^4 ∧ ∀ x ∈ row.2, Single.IsFloat x

lemma yields_readChunk {identity row : Error} {documents i : ℕ} {chunks : List Chunk}
    (h : ∀ ch ∈ chunks, ch.startLine < 256^4 ∧ ch.endLine < 256^4) :
    Yields (readChunk identity row documents i chunks) fun found =>
      ∀ ch ∈ found, ch.startLine < 256^4 ∧ ch.endLine < 256^4 := by
  refine (yields_true _).bind fun _ _ => (yields_true _).bind fun _ _ =>
    (yields_true _).bind fun _ _ => (yields_true _).bind fun _ _ => (yields_true _).bind fun _ _ =>
      (yields_true _).bind fun _ _ => (yields_number row 4).bind fun startLine hstart =>
        (yields_number row 4).bind fun endLine hend => (yields_true _).bind fun _ _ =>
          yields_pure ?_
  intro ch hch
  rcases List.mem_append.mp hch with hch | hch
  · exact h ch hch
  · rw [List.mem_singleton.mp hch]
    exact ⟨hstart,hend⟩

lemma yields_readChunks (documents : ℕ) : Yields (readChunks documents) fun found =>
    ∀ ch ∈ found, ch.startLine < 256^4 ∧ ch.endLine < 256^4 := by
  refine (yields_true _).bind fun n _ => (yields_true _).bind fun _ _ => ?_
  apply yields_repeatFrom fun _ (found : List Chunk) =>
    ∀ ch ∈ found, ch.startLine < 256^4 ∧ ch.endLine < 256^4
  · exact fun i found h => yields_readChunk h
  · exact fun ch hch => absurd hch List.not_mem_nil

lemma yields_readVector (truncated nonFinite : Error) (n : ℕ) :
    Yields (readVector truncated nonFinite n) fun v => ∀ x ∈ v, Single.IsFloat x := by
  refine (yields_true _).bind fun _ _ => ?_
  apply yields_repeatFrom fun _ (v : List ℚ) => ∀ x ∈ v, Single.IsFloat x
  · intro i v h
    refine (yields_number truncated 4).bind fun bits hbits => ?_
    cases hvalue : Single.ofBits bits with
    | none => exact fun _ _ _ hfail => by cases hfail
    | some x =>
      refine yields_pure ?_
      intro y hy
      rcases List.mem_append.mp hy with hy | hy
      · exact h y hy
      · rw [List.mem_singleton.mp hy]
        exact ⟨bits,by omega,hvalue⟩
  · exact fun x hx => absurd hx List.not_mem_nil

lemma yields_readEmbedding {i : ℕ} {seen : ℕ × List Vec}
    (h : ∀ v ∈ seen.2, ∀ x ∈ v, Single.IsFloat x) : Yields (readEmbedding i seen) fun found =>
      ∀ v ∈ found.2, ∀ x ∈ v, Single.IsFloat x := by
  refine (yields_true _).bind fun _ _ => (yields_true _).bind fun _ _ =>
    (yields_readVector _ _ _).bind fun v hv => (yields_true _).bind fun _ _ => yields_pure ?_
  intro w hw
  rcases List.mem_append.mp hw with hw | hw
  · exact h w hw
  · rw [List.mem_singleton.mp hw]
    exact hv

lemma floats_readEmbeddings {chunks : ℕ} {blob : Option Bytes} {vectors : List Vec}
    (h : readEmbeddings chunks blob = .ok vectors) : ∀ v ∈ vectors, ∀ x ∈ v, Single.IsFloat x := by
  cases blob with
  | none =>
    cases h
    intro v hv
    rw [List.eq_of_mem_replicate hv]
    exact fun x hx => absurd hx List.not_mem_nil
  | some blob =>
    cases hread : (repeatFrom readEmbedding chunks 0 (0,[])).whole
      (corrupt "checkpoint has trailing embedding data") blob with
    | error e =>
      rw [readEmbeddings,hread] at h
      cases h
    | ok found =>
      rw [readEmbeddings,hread] at h
      cases h
      have hyields : Yields (repeatFrom readEmbedding chunks 0 (0,[])) fun found : ℕ × List Vec =>
          ∀ v ∈ found.2, ∀ x ∈ v, Single.IsFloat x :=
        yields_repeatFrom (fun _ (found : ℕ × List Vec) => ∀ v ∈ found.2, ∀ x ∈ v, Single.IsFloat x)
          (fun i seen h => yields_readEmbedding h) fun v hv => absurd hv List.not_mem_nil
      exact hyields.whole hread

lemma yields_readRuntimeDocument {found : List (Chunk × Vec)} (h : ∀ row ∈ found, TypedRow row)
    (d : Document) : Yields (readRuntimeDocument found d) fun entry =>
      entry.prepared.WellTyped := by
  refine (yields_true _).bind fun _ _ => (yields_true _).bind fun _ _ =>
    (yields_true _).bind fun _ _ => (yields_true _).bind fun _ _ => (yields_true _).bind fun _ _ =>
      (yields_true _).bind fun _ _ => (yields_true _).bind fun _ _ =>
        (yields_true _).bind fun _ _ => (yields_true _).bind fun _ _ =>
          (yields_true _).bind fun chunks _ => yields_pure ?_
  intro chunk hchunk
  obtain ⟨x,hx,rfl⟩ := List.mem_map.mp hchunk
  have hrow : x.1.1 ∈ rowsOf found d.id :=
    (List.of_mem_zip (List.fst_mem_of_mem_zipIdx hx)).1
  exact h x.1.1 (List.mem_of_mem_filter hrow)

lemma yields_readRevisions : Yields readRevisions fun revisions : OrdMap Bytes ℕ =>
    ∀ e ∈ revisions.entries, e.2 < 256^8 := by
  refine (yields_true _).bind fun n _ => (yields_true _).bind fun _ _ => ?_
  apply yields_repeatFrom fun _ (revisions : OrdMap Bytes ℕ) => ∀ e ∈ revisions.entries, e.2 < 256^8
  · intro i revisions h
    refine (yields_true _).bind fun document _ => (yields_true _).bind fun _ _ =>
      (yields_number _ 8).bind fun revision hrevision => (yields_true _).bind fun _ _ =>
        yields_pure ?_
    intro e he
    have hfind := OrdMap.find?_eq_some.mpr he
    rw [OrdMap.find?_insert] at hfind
    split_ifs at hfind
    · rw [← Option.some.inj hfind]
      exact hrevision
    · exact h e (OrdMap.find?_eq_some.mp hfind)
  · exact fun e he => absurd he List.not_mem_nil

lemma yields_readRuntime {docs : List Document} {found : List (Chunk × Vec)}
    (h : ∀ row ∈ found, TypedRow row) : Yields (readRuntime docs found) fun checkpoint =>
      (∀ entry ∈ checkpoint.documents, entry.prepared.WellTyped) ∧
        ∀ e ∈ checkpoint.revisions.entries, e.2 < 256^8 :=
  (yields_true _).bind fun _ _ =>
    (yields_mapM fun d _ => yields_readRuntimeDocument h d).bind fun _ hdocuments =>
      yields_readRevisions.bind fun _ hrevisions => (yields_true _).bind fun _ _ =>
        yields_pure ⟨hdocuments,hrevisions⟩

/-- What is loaded is well typed. -/
theorem typed_of_load {parser : JsonParser} {idf : ℕ → ℕ → ℚ} {order : OffsetSort} {file : Bytes}
    (h : load parser idf order file = .ok checkpoint) :
    (∀ entry ∈ checkpoint.documents, entry.prepared.WellTyped) ∧
      ∀ e ∈ checkpoint.revisions.entries, e.2 < 256^8 := by
  obtain ⟨view,-,h⟩ := bind_eq_ok.mp h
  split at h
  · split_ifs at h with hflag
    · cases h
    · obtain ⟨_,-,h⟩ := bind_eq_ok.mp h
      obtain ⟨docs,-,h⟩ := bind_eq_ok.mp h
      obtain ⟨chunks,hchunks,h⟩ := bind_eq_ok.mp h
      obtain ⟨embeddings,hembeddings,h⟩ := bind_eq_ok.mp h
      obtain ⟨_,-,h⟩ := bind_eq_ok.mp h
      refine (yields_readRuntime ?_).whole h
      intro row hrow
      obtain ⟨hchunk,hvector⟩ := List.of_mem_zip (a := row.1) (b := row.2) hrow
      obtain ⟨hstart,hend⟩ := (yields_readChunks docs.length).whole hchunks _ hchunk
      exact ⟨hstart,hend,floats_readEmbeddings hembeddings _ hvector⟩
  · cases h

end typed

end EmbeddedCheckpointStore
end RagRuntime.Backend
