import RagRuntime.Index.CorpusCheckpoint
import RagRuntime.Index.IndexedCorpus

/-! What hides the chunks of removed documents from the searches of a corpus, over its mutations,
builds, saves and loads. -/
namespace RagRuntime.Index
open RagRuntime.Base RagRuntime.Core RagRuntime.Text RagRuntime.Store RagRuntime.Backend
  RagRuntime.Lexical RagRuntime.Dense

namespace Corpus

/-- Chunk ids are positions, and chunks and tombstones are of documents that are there. -/
structure Placed (docs : List Document) (chunks : List Chunk) (deletedDocs : Finset ℕ) : Prop where
  positions : ∀ (i : ℕ) (ch : Chunk), chunks[i]? = some ch → ch.id = i ∧ ch.doc < docs.length
  tombstones : ∀ i ∈ deletedDocs, i < docs.length

variable {c : Corpus}

@[simp] lemma logRecord_same (c : Corpus) (rec : WalRecord) (outcome : WriteOutcome) :
    (c.logRecord rec outcome).2.docs = c.docs ∧ (c.logRecord rec outcome).2.chunks = c.chunks ∧
      (c.logRecord rec outcome).2.deletedDocs = c.deletedDocs ∧
      (c.logRecord rec outcome).2.chunkOptions = c.chunkOptions := by
  unfold logRecord
  split_ifs
  · exact ⟨rfl,rfl,rfl,rfl⟩
  · exact ⟨rfl,rfl,rfl,rfl⟩

/-- An add leaves the documents, or appends one with its chunks. -/
theorem addDocumentLocked_shape (c : Corpus) (uri text : Bytes) (metadata : Metadata)
    (title : Bytes) (outcome : WriteOutcome) :
    let d := (c.addDocumentLocked uri text metadata title outcome).2
    d.deletedDocs = c.deletedDocs ∧ (d.docs = c.docs ∧ d.chunks = c.chunks ∨
      d.docs = c.docs ++ [⟨c.docs.length,uri,title,text,metadata⟩] ∧
        d.chunks = c.chunks ++ numbered c.chunks.length (c.newChunks text)) := by
  have hlog := logRecord_same c (addRecord uri text metadata title) outcome
  unfold addDocumentLocked
  cases c.checkLimits uri text metadata title with
  | error e => exact ⟨rfl,Or.inl ⟨rfl,rfl⟩⟩
  | ok u =>
    revert hlog
    obtain ⟨_ | _,d⟩ := c.logRecord (addRecord uri text metadata title) outcome
    · rintro ⟨hdocs,hchunks,hdeleted,-⟩
      exact ⟨hdeleted,Or.inl ⟨hdocs,hchunks⟩⟩
    · rintro ⟨hdocs,hchunks,hdeleted,hoptions⟩
      dsimp only at hdocs hchunks hdeleted hoptions ⊢
      split_ifs
      · exact ⟨hdeleted,Or.inl ⟨hdocs,hchunks⟩⟩
      · refine ⟨hdeleted,Or.inr ⟨?_,?_⟩⟩
        · simp only [storeDocument,hdocs]
        · simp only [storeDocument,newChunks,hdocs,hchunks,hoptions]

/-- A removal that succeeds adds a tombstone, and nothing else changes documents and chunks. -/
theorem removeDocumentLocked_shape (c : Corpus) (id : UInt32) (outcome : WriteOutcome) :
    let called := c.removeDocumentLocked id outcome
    called.2.docs = c.docs ∧ called.2.chunks = c.chunks ∧
      ((∃ e, called.1 = .error e) ∧ called.2.deletedDocs = c.deletedDocs ∨
        called.1 = .ok () ∧ id.toNat < c.docs.length ∧
          called.2.deletedDocs = insert id.toNat c.deletedDocs) := by
  have hlog := logRecord_same c (removeRecord id) outcome
  unfold removeDocumentLocked
  split_ifs with hid
  · exact ⟨rfl,rfl,Or.inl ⟨⟨_,rfl⟩,rfl⟩⟩
  · revert hlog
    obtain ⟨_ | _,d⟩ := c.logRecord (removeRecord id) outcome
    · rintro ⟨hdocs,hchunks,hdeleted,-⟩
      exact ⟨hdocs,hchunks,Or.inl ⟨⟨_,rfl⟩,hdeleted⟩⟩
    · rintro ⟨hdocs,hchunks,hdeleted,-⟩
      dsimp only at hdocs hchunks hdeleted ⊢
      refine ⟨hdocs,hchunks,Or.inr ⟨rfl,by omega,?_⟩⟩
      simp only [tombstone,hdeleted]

/-- The chunks that an add appends are those of the new document. -/
lemma Placed.append (h : Placed c.docs c.chunks c.deletedDocs) (d : Document) (text : Bytes) :
    Placed (c.docs ++ [d]) (c.chunks ++ numbered c.chunks.length (c.newChunks text))
      c.deletedDocs := by
  constructor
  · intro i ch hch
    rw [List.length_append,List.length_singleton]
    by_cases hi : i < c.chunks.length
    · rw [List.getElem?_append_left hi] at hch
      obtain ⟨hid,hdoc⟩ := h.positions i ch hch
      exact ⟨hid,by omega⟩
    · rw [List.getElem?_append_right (by omega)] at hch
      obtain ⟨ch',hch',rfl⟩ := getElem?_numbered hch
      have hdoc := (chunkDocument_text ch' hch').2
      dsimp only
      omega
  · intro i hi
    have := h.tombstones i hi
    rw [List.length_append,List.length_singleton]
    omega

lemma Placed.tombstone (h : Placed c.docs c.chunks c.deletedDocs) {id : ℕ}
    (hid : id < c.docs.length) : Placed c.docs c.chunks (insert id c.deletedDocs) := by
  refine ⟨h.positions,fun i hi => ?_⟩
  obtain rfl | hi := Finset.mem_insert.mp hi
  · exact hid
  · exact h.tombstones i hi

end Corpus

namespace IndexedCorpus

/-- The nodes of the graph stand for chunks, and those of removed documents are marked. -/
structure Marked (c : IndexedCorpus) : Prop where
  placed : Corpus.Placed c.core.docs c.core.chunks c.core.deletedDocs
  nodes : ∀ g, c.hnsw = some g → ∀ nd ∈ g.nodes, nd.id < c.core.chunks.length
  marked : ∀ g, c.hnsw = some g → ∀ nd ∈ g.nodes, nd.id ∉ g.deleted →
    ∀ ch, c.core.chunks[nd.id]? = some ch → ch.doc ∉ c.core.deletedDocs

/-- No search returns a chunk of a removed document. -/
def TombstonesHold (similarity : Similarity) (c : IndexedCorpus) : Prop :=
  (∀ query k filter hits, c.lexicalSearch query k filter = some hits → ∀ hit ∈ hits, ∀ ch,
    c.core.chunks[hit.chunk]? = some ch → ch.doc ∉ c.core.deletedDocs) ∧
  ∀ answer k filter hits, c.denseSearch similarity answer k filter = some (.ok hits) →
    ∀ hit ∈ hits, ∀ ch, c.core.chunks[hit.chunk]? = some ch → ch.doc ∉ c.core.deletedDocs

variable {c : IndexedCorpus}

lemma live_eq_true {chunk : ℕ} (h : c.live chunk = true) {ch : Chunk}
    (hch : c.core.chunks[chunk]? = some ch) : ch.doc ∉ c.core.deletedDocs := by
  unfold live at h
  rw [hch] at h
  simpa using h

section lexical
variable {α : Type*} {chunk : α → ℕ} {find : ℕ → List α}

lemma liveHits_live {k : ℕ} {hit : α} (h : hit ∈ c.liveHits chunk find k) {ch : Chunk}
    (hch : c.core.chunks[chunk hit]? = some ch) : ch.doc ∉ c.core.deletedDocs := by
  unfold liveHits at h
  by_cases hnone : c.core.deletedDocs = ∅
  · rw [hnone]
    exact Finset.notMem_empty _
  · rw [if_neg hnone] at h
    exact live_eq_true (List.mem_filter.mp (List.mem_of_mem_take h)).2 hch

lemma passingHits_live {k : ℕ} {filter : MetaFilter} {hits : List α}
    (h : c.passingHits chunk find k filter = some hits) {hit : α} (hhit : hit ∈ hits) {ch : Chunk}
    (hch : c.core.chunks[chunk hit]? = some ch) : ch.doc ∉ c.core.deletedDocs := by
  cases filter with
  | none =>
    cases h
    exact liveHits_live hhit hch
  | some filter =>
    unfold passingHits at h
    dsimp only at h
    split_ifs at h
    · cases h
      exact liveHits_live (List.mem_filter.mp hhit).1 hch
    · cases h
      exact liveHits_live (List.mem_filter.mp (List.mem_of_mem_take hhit)).1 hch

end lexical

lemma Marked.scanHits_live (h : c.Marked) {query : Vec} {allow : ℕ → Bool} {hit : Hit}
    (hhit : hit ∈ c.scanHits query allow) {ch : Chunk}
    (hch : c.core.chunks[hit.chunk]? = some ch) : ch.doc ∉ c.core.deletedDocs := by
  obtain ⟨entry,hentry,rfl⟩ := List.mem_map.mp hhit
  obtain ⟨hzip,hcond⟩ := List.mem_filter.mp hentry
  obtain ⟨-,hlive,-⟩ := of_decide_eq_true hcond
  obtain ⟨i,hi⟩ := List.mem_iff_getElem?.mp (List.of_mem_zip hzip).1
  rw [(h.placed.positions i _ hi).1,hi] at hch
  cases hch
  exact hlive

lemma graphHits_mem {similarity : Similarity} {g : HnswIndex} {query : Vec} {k : ℕ}
    {filter : MetaFilter} {hits : List Hit}
    (h : c.graphHits similarity g query k filter = some hits) {hit : Hit} (hhit : hit ∈ hits) :
    ∃ nd ∈ g.nodes, nd.id = hit.chunk ∧ nd.id ∉ g.deleted := by
  unfold graphHits at h
  split_ifs at h
  · cases h
    exact HnswIndex.mem_search hhit
  · exact HnswIndex.mem_searchFiltered h hhit

/-- Where the graph is marked, tombstones hold. -/
theorem Marked.tombstonesHold (h : c.Marked) (similarity : Similarity) :
    c.TombstonesHold similarity := by
  refine ⟨fun query k filter hits hok hit hhit ch hch => passingHits_live hok hhit hch,?_⟩
  intro answer k filter hits hok hit hhit ch hch
  unfold denseSearch at hok
  by_cases hembedder : c.embedder = none
  · rw [if_pos hembedder] at hok
    cases hok
  · rw [if_neg hembedder] at hok
    cases answer with
    | error e => cases hok
    | ok query =>
      dsimp only at hok
      cases hg : c.hnsw with
      | none =>
        rw [hg] at hok
        dsimp only at hok
        split_ifs at hok
        cases hok
        exact h.scanHits_live ((List.mem_insertionSort _).mp (List.mem_of_mem_take hhit)) hch
      | some g =>
        rw [hg] at hok
        obtain ⟨found,hfound,hsame⟩ := Option.map_eq_some_iff.mp hok
        cases hsame
        obtain ⟨nd,hnd,hid,hlive⟩ := graphHits_mem hfound hhit
        rw [← hid] at hch
        exact h.marked g hg nd hnd hlive ch hch

/-- New documents and chunks do not disturb the marks. -/
lemma Marked.grow (h : c.Marked) {d : IndexedCorpus} (hhnsw : d.hnsw = c.hnsw)
    (hplaced : Corpus.Placed d.core.docs d.core.chunks d.core.deletedDocs)
    (hchunks : ∃ new, d.core.chunks = c.core.chunks ++ new)
    (hdeleted : d.core.deletedDocs = c.core.deletedDocs) : d.Marked := by
  obtain ⟨new,hnew⟩ := hchunks
  refine ⟨hplaced,?_,?_⟩
  · intro g hg nd hnd
    have := h.nodes g (hhnsw ▸ hg) nd hnd
    rw [hnew,List.length_append]
    omega
  · intro g hg nd hnd hlive ch hch
    have hlt := h.nodes g (hhnsw ▸ hg) nd hnd
    rw [hnew,List.getElem?_append_left hlt] at hch
    rw [hdeleted]
    exact h.marked g (hhnsw ▸ hg) nd hnd hlive ch hch

lemma Marked.addDocumentLocked (h : c.Marked) (uri text : Bytes) (metadata : Metadata)
    (title : Bytes) (outcome : WriteOutcome) (moves : Bool) :
    (c.addDocumentLocked uri text metadata title outcome moves).2.Marked := by
  obtain ⟨hdeleted,⟨hdocs,hchunks⟩ | ⟨hdocs,hchunks⟩⟩ :=
    c.core.addDocumentLocked_shape uri text metadata title outcome
  · apply h.grow (d := (c.addDocumentLocked uri text metadata title outcome moves).2) rfl
    · simp only [IndexedCorpus.addDocumentLocked,extend,hdocs,hchunks,hdeleted]
      exact h.placed
    · exact ⟨[],by simp only [IndexedCorpus.addDocumentLocked,extend,hchunks,List.append_nil]⟩
    · exact hdeleted
  · apply h.grow (d := (c.addDocumentLocked uri text metadata title outcome moves).2) rfl
    · simp only [IndexedCorpus.addDocumentLocked,extend,hdocs,hchunks,hdeleted]
      exact h.placed.append _ text
    · exact ⟨_,hchunks⟩
    · exact hdeleted

lemma mem_unlink_deleted (chunks : List Chunk) (id : ℕ) (g : HnswIndex) (k : ℕ) :
    k ∈ (unlink chunks id g).deleted ↔ k ∈ g.deleted ∨ ∃ ch ∈ chunks, ch.doc = id ∧ ch.id = k := by
  unfold unlink
  induction chunks generalizing g with
  | nil => simp
  | cons ch chunks ih =>
    by_cases hdoc : ch.doc = id
    · rw [List.filter_cons_of_pos (by simpa using hdoc),List.foldl_cons,ih]
      simp only [HnswIndex.remove,Finset.mem_insert,List.exists_mem_cons_iff,hdoc,true_and]
      tauto
    · rw [List.filter_cons_of_neg (by simpa using hdoc),ih]
      simp only [List.exists_mem_cons_iff,hdoc,false_and,false_or]

lemma unlink_nodes (chunks : List Chunk) (id : ℕ) (g : HnswIndex) :
    (unlink chunks id g).nodes = g.nodes := by
  unfold unlink
  induction chunks.filter (fun ch => ch.doc = id) generalizing g with
  | nil => rfl
  | cons ch chunks ih =>
    rw [List.foldl_cons,ih]
    rfl

lemma Marked.removeDocumentLocked (h : c.Marked) (id : UInt32) (outcome : WriteOutcome) :
    (c.removeDocumentLocked id outcome).2.Marked := by
  have hshape := c.core.removeDocumentLocked_shape id outcome
  unfold IndexedCorpus.removeDocumentLocked ensureLinked
  revert hshape
  dsimp only
  obtain ⟨_ | _,core⟩ := c.core.removeDocumentLocked id outcome
  · rintro ⟨hdocs,hchunks,⟨-,hdeleted⟩ | ⟨hok,-⟩⟩
    · dsimp only at hdocs hchunks hdeleted
      apply h.grow (d := { c with links := c.links.ensured, core := core }) rfl
      · simp only [hdocs,hchunks,hdeleted]
        exact h.placed
      · exact ⟨[],by simp only [hchunks,List.append_nil]⟩
      · exact hdeleted
    · cases hok
  · rintro ⟨hdocs,hchunks,⟨⟨e,he⟩,-⟩ | ⟨-,hid,hdeleted⟩⟩
    · cases he
    · dsimp only at hdocs hchunks hdeleted ⊢
      refine ⟨?_,?_,?_⟩
      · simp only [hdocs,hchunks,hdeleted]
        exact h.placed.tombstone hid
      · intro g hg nd hnd
        obtain ⟨g',hg',rfl⟩ := Option.map_eq_some_iff.mp hg
        rw [unlink_nodes] at hnd
        rw [hchunks]
        exact h.nodes g' hg' nd hnd
      · intro g hg nd hnd hlive ch hch
        obtain ⟨g',hg',rfl⟩ := Option.map_eq_some_iff.mp hg
        rw [unlink_nodes] at hnd
        rw [mem_unlink_deleted,not_or] at hlive
        dsimp only at hch
        rw [hdeleted,Finset.mem_insert,not_or]
        refine ⟨fun hdoc => hlive.2 ⟨ch,List.mem_of_getElem? hch,hdoc,?_⟩,?_⟩
        · rw [hchunks] at hch
          exact (h.placed.positions _ _ hch).1
        · rw [hchunks] at hch
          exact h.marked g' hg' nd hnd hlive.1 ch hch

lemma Marked.removeExisting (h : c.Marked) (uri : Bytes) (outcome : WriteOutcome) :
    (c.removeExisting uri outcome).Marked := by
  unfold IndexedCorpus.removeExisting
  cases c.core.findByUriLocked uri with
  | none => exact h
  | some id => exact h.removeDocumentLocked _ outcome

lemma embedPending_core (similarity : Similarity) (c : IndexedCorpus) (run : EmbedRun) :
    (c.embedPending similarity run).2.core = c.core ∧
      (c.embedPending similarity run).2.hnsw = c.hnsw := by
  unfold embedPending
  cases c.embedder with
  | none => exact ⟨rfl,rfl⟩
  | some dimension => exact ⟨rfl,rfl⟩

lemma embedPending_config (similarity : Similarity) (c : IndexedCorpus) (run : EmbedRun) :
    let d := (c.embedPending similarity run).2
    d.hnswThreshold = c.hnswThreshold ∧ d.core = c.core ∧ d.hnswConfig = c.hnswConfig := by
  unfold embedPending
  cases c.embedder with
  | none => exact ⟨rfl,rfl,rfl⟩
  | some dimension => exact ⟨rfl,rfl,rfl⟩

/-- A graph built here has no node of a removed document. -/
def BuildsLive (similarity : Similarity) (c : IndexedCorpus) (run : EmbedRun) : Prop :=
  c.embedder ≠ none → (c.embedPending similarity run).1 = .ok () →
    c.hnswThreshold ≤ c.core.chunks.length →
      ∀ row ∈ (HnswIndex.empty c.hnswConfig).stagedRows (c.embedPending similarity run).2.graphRows,
        c.live row.1 = true

instance (similarity : Similarity) (c : IndexedCorpus) (run : EmbedRun) :
    Decidable (c.BuildsLive similarity run) := by
  unfold BuildsLive
  infer_instance

/-- The graph of a file has no node of a document that the file lists as removed. -/
def GraphLive (image : CorpusImage) : Prop :=
  ∀ g ∈ image.hnsw, ∀ nd ∈ g.nodes, ∀ ch ∈ image.core.chunks[nd.id]?,
    ch.doc ∉ image.core.deletedDocs

instance (image : CorpusImage) : Decidable (GraphLive image) := by
  unfold GraphLive
  infer_instance

lemma embedPending_framed (similarity : Similarity) (c : IndexedCorpus) (run : EmbedRun)
    (links : MetaLinks) (index : Bm25Index) :
    ({ c with links := links, bm25 := index } : IndexedCorpus).embedPending similarity run =
      ((c.embedPending similarity run).1,
        { (c.embedPending similarity run).2 with links := links, bm25 := index }) := by
  obtain ⟨core,_,embeddings,_,hnsw,_ | dimension,hnswConfig,hnswThreshold,embedBatch⟩ := c
  · rfl
  · rfl

/-- The rows of a graph are chunks of the corpus. -/
lemma graphRows_lt (hplaced : Corpus.Placed c.core.docs c.core.chunks c.core.deletedDocs)
    {row : ℕ × Vec} (h : row ∈ c.graphRows) : row.1 < c.core.chunks.length := by
  obtain ⟨entry,hentry,rfl⟩ := List.mem_map.mp h
  obtain ⟨i,hi⟩ := List.mem_iff_getElem?.mp (List.of_mem_zip (List.mem_filter.mp hentry).1).1
  rw [(hplaced.positions i _ hi).1]
  exact (List.getElem?_eq_some_iff.mp hi).1

/-- A graph over live chunks is marked. -/
lemma Marked.withGraph (h : c.Marked) (similarity : Similarity) (wiring : Wiring)
    (hlive : c.hnswThreshold ≤ c.core.chunks.length →
      ∀ row ∈ (HnswIndex.empty c.hnswConfig).stagedRows c.graphRows, c.live row.1 = true) :
    (c.withGraph similarity wiring).Marked := by
  unfold IndexedCorpus.withGraph
  split_ifs with hthreshold
  · refine ⟨h.placed,?_,?_⟩
    · rintro g hg nd hnd
      cases hg
      obtain ⟨row,hrow,hid⟩ := HnswIndex.mem_buildBatch_empty hnd
      rw [← hid]
      exact graphRows_lt h.placed (List.mem_filter.mp hrow).1
    · rintro g hg nd hnd - ch hch
      cases hg
      obtain ⟨row,hrow,hid⟩ := HnswIndex.mem_buildBatch_empty hnd
      rw [← hid] at hch
      exact live_eq_true (hlive hthreshold row hrow) hch
  · exact h

lemma Marked.of_same (h : c.Marked) {d : IndexedCorpus} (hdocs : d.core.docs = c.core.docs)
    (hchunks : d.core.chunks = c.core.chunks) (hdeleted : d.core.deletedDocs = c.core.deletedDocs)
    (hhnsw : d.hnsw = c.hnsw) : d.Marked := by
  apply h.grow hhnsw
  · rw [hdocs,hchunks,hdeleted]
    exact h.placed
  · exact ⟨[],by rw [hchunks,List.append_nil]⟩
  · exact hdeleted

/-- A build over live chunks keeps the marks. -/
lemma Marked.buildLocked (h : c.Marked) {similarity : Similarity} {run : EmbedRun}
    (hlive : c.BuildsLive similarity run) (wiring : Wiring) :
    (c.buildLocked similarity run wiring).2.Marked := by
  obtain ⟨hcore,hhnsw⟩ := embedPending_core similarity c run
  have hembedded : (c.embedPending similarity run).2.Marked :=
    h.of_same (by rw [hcore]) (by rw [hcore]) (by rw [hcore]) hhnsw
  unfold BuildsLive at hlive
  unfold IndexedCorpus.buildLocked ensureLinked
  dsimp only
  rw [embedPending_framed]
  cases hembedder : c.embedder with
  | none => exact h.of_same rfl rfl rfl rfl
  | some dimension =>
    have hstaged := hlive (by rw [hembedder]; exact Option.some_ne_none dimension)
    have hsame := embedPending_config similarity c run
    revert hembedded hstaged hsame
    obtain ⟨_ | _,d⟩ := c.embedPending similarity run
    · rintro hembedded - -
      exact hembedded.of_same rfl rfl rfl rfl
    · intro hembedded hstaged hsame
      dsimp only at hembedded hstaged hsame ⊢
      have hfinalized : ({ d with links := c.links.ensured, bm25 := c.bm25.finalize } :
          IndexedCorpus).Marked :=
        hembedded.of_same rfl rfl rfl rfl
      have hgraph := hfinalized.withGraph similarity wiring (by
          obtain ⟨hkept,hcore,hconfig⟩ := hsame
          intro hthreshold row hrow
          rw [hconfig] at hrow
          have hrowLive := hstaged rfl (by rw [← hkept,← hcore]; exact hthreshold) row hrow
          unfold live at hrowLive ⊢
          rw [← hcore] at hrowLive
          exact hrowLive)
      exact hgraph.of_same rfl rfl rfl rfl

lemma marked_start (analysis : Analysis) (chunkOptions : ChunkOptions) (bm25 : Bm25Params)
    (hnswConfig : HnswConfig) (hnswThreshold embedBatch : ℕ) :
    (start analysis chunkOptions bm25 hnswConfig hnswThreshold embedBatch).Marked := by
  refine ⟨⟨?_,?_⟩,?_,?_⟩
  · rintro i ch hch
    rw [show (start analysis chunkOptions bm25 hnswConfig hnswThreshold embedBatch).core.chunks = []
      from rfl,List.getElem?_nil] at hch
    cases hch
  · exact fun i hi => absurd hi (Finset.notMem_empty i)
  · exact fun g hg => by cases hg
  · exact fun g hg => by cases hg

/-- What holds of a file: it was saved from a corpus whose graph stands for chunks. -/
structure Sound (image : CorpusImage) : Prop where
  placed : Corpus.Placed image.core.docs image.core.chunks image.core.deletedDocs
  nodes : ∀ g, image.hnsw = some g → ∀ nd ∈ g.nodes, nd.id < image.core.chunks.length

lemma Marked.sound (h : c.Marked) : Sound c.imageLocked := ⟨h.placed,h.nodes⟩

/-- Loading a file whose graph has live nodes only keeps the marks. -/
lemma Sound.marked_ofImage {image : CorpusImage} (h : Sound image) (hlive : GraphLive image)
    (analysis : Analysis) (p : PathState) : (ofImage analysis p image).Marked := by
  refine ⟨h.placed,?_,?_⟩
  · intro g hg nd hnd
    obtain ⟨g',hg',rfl⟩ := Option.map_eq_some_iff.mp hg
    obtain ⟨nd',hnd',rfl⟩ := List.mem_map.mp hnd
    exact h.nodes g' hg' nd' hnd'
  · rintro g hg nd hnd - ch hch
    obtain ⟨g',hg',rfl⟩ := Option.map_eq_some_iff.mp hg
    obtain ⟨nd',hnd',rfl⟩ := List.mem_map.mp hnd
    exact hlive g' hg' nd' hnd' ch hch

/-- A corpus and the files saved from it and from those it was before its loads. -/
structure Session where
  corpus : IndexedCorpus
  files : List CorpusImage

/-- A call on the corpus; what reads chunks has their pointers linked. A load that fails changes
nothing and is left out. -/
inductive Call where
  | setEmbedder (dimension : ℕ)
  | addDocument (uri text : Bytes) (metadata : Metadata) (title : Bytes) (outcome : WriteOutcome)
      (moves : Bool)
  | upsertDocument (uri text : Bytes) (metadata : Metadata) (title : Bytes)
      (removal addition : WriteOutcome) (moves : Bool)
  | removeDocument (id : UInt32) (outcome : WriteOutcome)
  | build (run : EmbedRun) (wiring : Wiring)
  | read
  | save
  | load (file : ℕ) (p : PathState)

variable (similarity : Similarity) (analysis : Analysis)

/-- `analysis` is the default one, which a load leaves. -/
def Session.step (s : Session) : Call → Option Session
  | .setEmbedder dimension => some { s with corpus.embedder := some dimension }
  | .addDocument uri text metadata title outcome moves =>
    some { s with corpus := (s.corpus.addDocumentLocked uri text metadata title outcome moves).2 }
  | .upsertDocument uri text metadata title removal addition moves =>
    some { s with
      corpus := (s.corpus.upsertDocument uri text metadata title removal addition moves).2 }
  | .removeDocument id outcome =>
    some { s with corpus := (s.corpus.removeDocumentLocked id outcome).2 }
  | .build run wiring => some { s with corpus := (s.corpus.buildLocked similarity run wiring).2 }
  | .read => some { s with corpus := s.corpus.ensureLinked }
  | .save => some ⟨s.corpus.ensureLinked,s.files ++ [s.corpus.imageLocked]⟩
  | .load file p => (s.files[file]?).map fun image => { s with corpus := ofImage analysis p image }

/-- No graph gets a node of a removed document: a build finds none among its rows, and a load none
in its file. -/
def Session.KeepsMarks (s : Session) : Call → Prop
  | .build run _ => s.corpus.BuildsLive similarity run
  | .load file _ => ∀ image ∈ s.files[file]?, GraphLive image
  | _ => True

def Session.Holds (s : Session) : Prop := s.corpus.Marked ∧ ∀ image ∈ s.files, Sound image

variable {similarity analysis}

lemma Session.Holds.step {s t : Session} {call : Call} (h : s.Holds)
    (hkeeps : s.KeepsMarks similarity call) (hs : s.step similarity analysis call = some t) :
    t.Holds := by
  obtain ⟨hmarked,hfiles⟩ := h
  cases call with
  | setEmbedder dimension =>
    cases hs
    exact ⟨hmarked.of_same rfl rfl rfl rfl,hfiles⟩
  | addDocument uri text metadata title outcome moves =>
    cases hs
    exact ⟨hmarked.addDocumentLocked uri text metadata title outcome moves,hfiles⟩
  | upsertDocument uri text metadata title removal addition moves =>
    cases hs
    exact ⟨(hmarked.removeExisting uri removal).addDocumentLocked uri text metadata title addition
      moves,hfiles⟩
  | removeDocument id outcome =>
    cases hs
    exact ⟨hmarked.removeDocumentLocked id outcome,hfiles⟩
  | build run wiring =>
    cases hs
    exact ⟨hmarked.buildLocked hkeeps wiring,hfiles⟩
  | read =>
    cases hs
    exact ⟨hmarked.of_same rfl rfl rfl rfl,hfiles⟩
  | save =>
    cases hs
    refine ⟨hmarked.of_same rfl rfl rfl rfl,fun image himage => ?_⟩
    obtain himage | himage := List.mem_append.mp himage
    · exact hfiles image himage
    · rw [List.mem_singleton.mp himage]
      exact hmarked.sound
  | load file p =>
    obtain ⟨image,himage,rfl⟩ := Option.map_eq_some_iff.mp hs
    exact ⟨(hfiles image (List.mem_of_getElem? himage)).marked_ofImage (hkeeps image himage)
      analysis p,hfiles⟩

instance (s : Session) (call : Call) : Decidable (s.KeepsMarks similarity call) := by
  cases call <;> unfold Session.KeepsMarks <;> infer_instance

/-- Along every run that gives no graph a node of a removed document, tombstones hold. -/
theorem Session.run_tombstonesHold {own : Analysis} {chunkOptions : ChunkOptions}
    {bm25 : Bm25Params} {hnswConfig : HnswConfig} {hnswThreshold embedBatch : ℕ}
    {calls : List Call} {s : Session}
    (hmeets : Machine.Meets (Session.step similarity analysis)
      (Session.KeepsMarks similarity)
      ⟨start own chunkOptions bm25 hnswConfig hnswThreshold embedBatch,[]⟩ calls)
    (hrun : Machine.run (Session.step similarity analysis)
      ⟨start own chunkOptions bm25 hnswConfig hnswThreshold embedBatch,[]⟩ calls = some s) :
    s.corpus.TombstonesHold similarity := by
  have hstart : Session.Holds
      ⟨start own chunkOptions bm25 hnswConfig hnswThreshold embedBatch,[]⟩ :=
    ⟨marked_start own chunkOptions bm25 hnswConfig hnswThreshold embedBatch,
      fun image himage => absurd himage (List.not_mem_nil)⟩
  exact (Machine.run_invariant (fun _ _ _ hi hc hs => hi.step hc hs) hstart hmeets hrun).1
    |>.tombstonesHold similarity

/-- For vectors that are of length one as they are. -/
def cosine : Similarity := ⟨id,fun _ => dot,fun _ => dot⟩

/-- The text is one term. -/
def wholeText : Analysis := ⟨fun text => [text],fun _ _ => 1⟩

/-- The graph is built from the first chunk on. -/
def small : Session := ⟨start wholeText {} {} {} 1 32,[]⟩

def embedOne : EmbedRun := ⟨fun _ => .ok [[1]],fun _ => true⟩

def single : Wiring := ⟨fun _ => [[]],0,0⟩

def addOne : List Call :=
  [.setEmbedder 1,.addDocument (ascii ['u']) (ascii ['a']) ∅ [] .synced false]

/-- The document is removed behind the build of the graph. -/
def removedBehindBuild : List Call :=
  addOne ++ [Call.build embedOne single,.removeDocument 0 .synced]

theorem removedBehindBuild_tombstonesHold :
    ∃ s, Machine.run (Session.step cosine wholeText) small removedBehindBuild = some s ∧
      s.corpus.core.deletedDocs = {0} ∧ s.corpus.TombstonesHold cosine :=
  ⟨_,rfl,by decide +kernel,Session.run_tombstonesHold
    (show Machine.Meets (Session.step cosine wholeText) (Session.KeepsMarks cosine) small
      removedBehindBuild by decide +kernel) rfl⟩

/-- The document is removed, and then the graph is built. -/
def removedBeforeBuild : List Call :=
  addOne ++ [Call.removeDocument 0 .synced,.build embedOne single]

/-- The document is removed behind the build, and the corpus is saved and loaded. -/
def removedAndReloaded : List Call :=
  removedBehindBuild ++ [Call.save,.load 0 ⟨0,false⟩,.setEmbedder 1]

/-- Both times the dense search returns the chunk of the removed document. -/
theorem removed_chunk_found :
    (∃ s, Machine.run (Session.step cosine wholeText) small removedBeforeBuild = some s ∧
      ¬ s.corpus.TombstonesHold cosine) ∧
    ∃ s, Machine.run (Session.step cosine wholeText) small removedAndReloaded = some s ∧
      ¬ s.corpus.TombstonesHold cosine := by
  have hfound : ∀ s : Session,
      (s.corpus.denseSearch cosine (.ok [1]) 1 none).map Except.toOption = some (some [⟨0,1⟩]) →
      (s.corpus.core.chunks[0]?).map Chunk.doc = some 0 → 0 ∈ s.corpus.core.deletedDocs →
        ¬ s.corpus.TombstonesHold cosine := by
    rintro s hsearch hchunk hremoved ⟨-,hdense⟩
    obtain ⟨ch,hch,hdoc⟩ := Option.map_eq_some_iff.mp hchunk
    obtain ⟨result,hresult,hfound⟩ := Option.map_eq_some_iff.mp hsearch
    cases result with
    | error e => cases hfound
    | ok hits =>
      cases hfound
      apply hdense (.ok [1]) 1 none _ hresult ⟨0,1⟩ (List.mem_singleton_self _) ch hch
      rw [hdoc]
      exact hremoved
  constructor
  · exact ⟨_,rfl,hfound _ (by decide +kernel) (by decide +kernel) (by decide +kernel)⟩
  · exact ⟨_,rfl,hfound _ (by decide +kernel) (by decide +kernel) (by decide +kernel)⟩

end IndexedCorpus
end RagRuntime.Index
