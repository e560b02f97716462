import RagRuntime.Index.SearchedCorpus

/-! What the graph of a corpus stands for, over its mutations, builds, saves and loads: its nodes
are different embedded chunks, and those that it marks are of removed documents. -/
namespace RagRuntime.Index
open RagRuntime.Base RagRuntime.Core RagRuntime.Text RagRuntime.Store RagRuntime.Backend
  RagRuntime.Lexical

lemma flatten_toChunks_go {α : Type*} (n : ℕ) (xs : List α) (acc₁ : Array α)
    (acc₂ : Array (List α)) : (List.toChunks.go n xs acc₁ acc₂).flatten =
      acc₂.toList.flatten ++ acc₁.toList ++ xs := by
  induction xs generalizing acc₁ acc₂ with
  | nil => simp [List.toChunks.go]
  | cons x xs ih =>
    rw [List.toChunks.go]
    split_ifs <;> rw [ih] <;> simp

/-- The batches are all that is cut into them. -/
lemma flatten_toChunks {α : Type*} (n : ℕ) (xs : List α) : (xs.toChunks n).flatten = xs := by
  cases xs with
  | nil => rfl
  | cons x xs =>
    cases n with
    | zero => simp [List.toChunks]
    | succ n =>
      rw [List.toChunks,flatten_toChunks_go]
      · simp
      · exact Nat.succ_ne_zero n

namespace IndexedCorpus

variable {c : IndexedCorpus}

/-- What is sent for embedding has none yet. -/
lemma mem_batches {batch : List ℕ} (h : batch ∈ c.batches) {i : ℕ} (hi : i ∈ batch) :
    c.embeddings[i]? = some [] := by
  have hmem : i ∈ c.batches.flatten := List.mem_flatten_of_mem h hi
  rw [batches,flatten_toChunks,List.mem_filter] at hmem
  simpa using hmem.2

lemma storeVectors_other (embeddings : List Vec) {batch : List ℕ} (vecs : List Vec) {i : ℕ}
    (hi : i ∉ batch) : (storeVectors embeddings batch vecs)[i]? = embeddings[i]? := by
  have hzip : ∀ entry ∈ batch.zip vecs, entry.1 ≠ i := fun entry hentry heq =>
    hi (heq ▸ (List.of_mem_zip hentry).1)
  unfold storeVectors
  apply List.foldlRecOn (motive := fun stored : List Vec => stored[i]? = embeddings[i]?)
  · rfl
  · intro stored hstored entry hentry
    rw [List.getElem?_set_ne (hzip entry hentry),hstored]

/-- An embedding that is there stays. -/
lemma embedPending_keeps (similarity : Similarity) (run : EmbedRun) {i : ℕ} {v : Vec}
    (h : c.embeddings[i]? = some v) (hv : v ≠ []) :
    (c.embedPending similarity run).2.embeddings[i]? = some v := by
  unfold embedPending
  cases c.embedder with
  | none => exact h
  | some dimension =>
    dsimp only
    apply List.foldlRecOn (motive := fun embeddings : List Vec => embeddings[i]? = some v)
    · exact h
    · intro embeddings hsame r hr
      have hother : i ∉ r.1.1 := by
        obtain ⟨entry,hentry,rfl⟩ := List.mem_map.mp hr
        intro hi
        have hempty := mem_batches (List.mem_zipIdx' hentry |>.2 ▸ List.getElem_mem _) hi
        rw [h] at hempty
        exact hv (Option.some.inj hempty)
      cases r.2 with
      | error e => exact hsame
      | ok vecs =>
        dsimp only
        split_ifs
        · rw [storeVectors_other _ _ hother,hsame]
        · exact hsame

/-- The nodes of the graph are different chunks with embeddings, and what it marks is removed. -/
structure Graphed (c : IndexedCorpus) : Prop where
  distinct : ∀ g, c.hnsw = some g → (g.nodes.map HnswNode.id).Nodup
  current : ∀ g, c.hnsw = some g → ∀ nd ∈ g.nodes, nd.superseded = false
  embedded : ∀ g, c.hnsw = some g → ∀ nd ∈ g.nodes, ∃ v, c.embeddings[nd.id]? = some v ∧ v ≠ []
  removed : ∀ g, c.hnsw = some g → ∀ id ∈ g.deleted, ∃ ch, c.core.chunks[id]? = some ch ∧
    ch.doc ∈ c.core.deletedDocs
  dim : ∀ g, c.hnsw = some g → g.nodes ≠ [] → g.dim ≠ 0

lemma Graphed.of_hnsw_eq_none (h : c.hnsw = none) : c.Graphed := by
  constructor <;> intro g hg <;> rw [h] at hg <;> cases hg

/-- A graph stays good while embeddings, chunks and tombstones are kept. -/
lemma Graphed.grow (h : c.Graphed) {d : IndexedCorpus} (hhnsw : d.hnsw = c.hnsw)
    (hembeddings : ∀ (i : ℕ) (v : Vec), c.embeddings[i]? = some v → v ≠ [] →
      d.embeddings[i]? = some v)
    (hchunks : ∀ (i : ℕ) (ch : Chunk), c.core.chunks[i]? = some ch → d.core.chunks[i]? = some ch)
    (hdeleted : c.core.deletedDocs ⊆ d.core.deletedDocs) : d.Graphed := by
  constructor
  · exact fun g hg => h.distinct g (hhnsw ▸ hg)
  · exact fun g hg => h.current g (hhnsw ▸ hg)
  · intro g hg nd hnd
    obtain ⟨v,hv,hne⟩ := h.embedded g (hhnsw ▸ hg) nd hnd
    exact ⟨v,hembeddings _ v hv hne,hne⟩
  · intro g hg id hid
    obtain ⟨ch,hch,hdoc⟩ := h.removed g (hhnsw ▸ hg) id hid
    exact ⟨ch,hchunks _ ch hch,hdeleted hdoc⟩
  · exact fun g hg => h.dim g (hhnsw ▸ hg)

lemma Graphed.withLinks (h : c.Graphed) (links : MetaLinks) :
    ({ c with links := links } : IndexedCorpus).Graphed :=
  h.grow rfl (fun _ _ hv _ => hv) (fun _ _ hch => hch) (Finset.Subset.refl _)

lemma Graphed.extend (h : c.Graphed) {next : Corpus}
    (hchunks : ∃ new, next.chunks = c.core.chunks ++ new)
    (hdeleted : next.deletedDocs = c.core.deletedDocs) : (c.extend next).Graphed := by
  obtain ⟨new,hnew⟩ := hchunks
  apply h.grow (d := c.extend next) rfl
  · intro i v hv _
    exact List.getElem?_append_left (List.getElem?_eq_some_iff.mp hv).1 ▸ hv
  · intro i ch hch
    change next.chunks[i]? = some ch
    rw [hnew,List.getElem?_append_left (List.getElem?_eq_some_iff.mp hch).1,hch]
  · exact hdeleted.ge

lemma Graphed.addDocumentLocked (h : c.Graphed) (uri text : Bytes) (metadata : Metadata)
    (title : Bytes) (outcome : WriteOutcome) (moves : Bool) :
    (c.addDocumentLocked uri text metadata title outcome moves).2.Graphed := by
  obtain ⟨hdeleted,⟨-,hchunks⟩ | ⟨-,hchunks⟩⟩ :=
    c.core.addDocumentLocked_shape uri text metadata title outcome
  · exact (h.extend ⟨[],by rw [hchunks,List.append_nil]⟩ hdeleted).withLinks _
  · exact (h.extend ⟨_,hchunks⟩ hdeleted).withLinks _

@[simp] lemma unlink_dim (chunks : List Chunk) (id : ℕ) (g : HnswIndex) :
    (unlink chunks id g).dim = g.dim := by
  unfold unlink
  induction chunks.filter (fun ch => ch.doc = id) generalizing g with
  | nil => rfl
  | cons ch chunks ih =>
    rw [List.foldl_cons,ih]
    rfl

lemma Graphed.removeDocumentLocked (h : c.Graphed)
    (hs : c.Stocked) (id : UInt32) (outcome : WriteOutcome) :
    (c.removeDocumentLocked id outcome).2.Graphed := by
  have hshape := c.core.removeDocumentLocked_shape id outcome
  unfold IndexedCorpus.removeDocumentLocked ensureLinked
  revert hshape
  dsimp only
  obtain ⟨_ | _,core⟩ := c.core.removeDocumentLocked id outcome
  · rintro ⟨-,hchunks,⟨-,hdeleted⟩ | ⟨hok,-⟩⟩
    · dsimp only at hchunks hdeleted
      apply h.grow (d := { c with links := c.links.ensured, core := core }) rfl
      · exact fun i v hv _ => hv
      · exact fun i ch hch => hchunks ▸ hch
      · exact hdeleted.ge
    · cases hok
  · rintro ⟨-,hchunks,⟨⟨e,he⟩,-⟩ | ⟨-,-,hdeleted⟩⟩
    · cases he
    · dsimp only at hchunks hdeleted ⊢
      constructor
      · intro g hg
        obtain ⟨g',hg',rfl⟩ := Option.map_eq_some_iff.mp hg
        rw [unlink_nodes]
        exact h.distinct g' hg'
      · intro g hg
        obtain ⟨g',hg',rfl⟩ := Option.map_eq_some_iff.mp hg
        rw [unlink_nodes]
        exact h.current g' hg'
      · intro g hg
        obtain ⟨g',hg',rfl⟩ := Option.map_eq_some_iff.mp hg
        rw [unlink_nodes]
        exact h.embedded g' hg'
      · intro g hg k hk
        obtain ⟨g',hg',rfl⟩ := Option.map_eq_some_iff.mp hg
        dsimp only
        rw [hdeleted,hchunks]
        rcases (mem_unlink_deleted _ _ _ _).mp hk with hk | ⟨ch,hch,hdoc,rfl⟩
        · obtain ⟨ch,hch,hdoc⟩ := h.removed g' hg' k hk
          exact ⟨ch,hch,Finset.mem_insert_of_mem hdoc⟩
        · rw [hchunks] at hch
          obtain ⟨i,hi⟩ := List.mem_iff_getElem?.mp hch
          rw [(hs.placed.positions i ch hi).1,hi]
          exact ⟨ch,rfl,hdoc ▸ Finset.mem_insert_self _ _⟩
      · intro g hg
        obtain ⟨g',hg',rfl⟩ := Option.map_eq_some_iff.mp hg
        rw [unlink_nodes,unlink_dim]
        exact h.dim g' hg'

lemma Graphed.removeExisting (h : c.Graphed) (hs : c.Stocked)
    (uri : Bytes) (outcome : WriteOutcome) : (c.removeExisting uri outcome).Graphed := by
  unfold IndexedCorpus.removeExisting
  cases c.core.findByUriLocked uri with
  | none => exact h
  | some id => exact h.removeDocumentLocked hs _ outcome

/-- Row by row the graph is built from the embedded chunks. -/
lemma Stocked.graphRow (h : c.Stocked) {row : ℕ × Vec} :
    row ∈ c.graphRows ↔ c.embeddings[row.1]? = some row.2 ∧ row.2 ≠ [] := by
  constructor
  · intro hrow
    obtain ⟨entry,hentry,rfl⟩ := List.mem_map.mp hrow
    obtain ⟨hzip,hne⟩ := List.mem_filter.mp hentry
    obtain ⟨i,hi⟩ := List.mem_iff_getElem?.mp hzip
    obtain ⟨hch,hv⟩ := List.getElem?_zip_eq_some.mp hi
    refine ⟨?_,by simpa using hne⟩
    rw [(h.placed.positions i _ hch).1]
    exact hv
  · rintro ⟨hv,hne⟩
    have hlt := (List.getElem?_eq_some_iff.mp hv).1
    rw [h.embedded] at hlt
    have hch := List.getElem?_eq_getElem hlt
    have hid := (h.placed.positions _ _ hch).1
    refine List.mem_map.mpr ⟨(c.core.chunks[row.1],row.2),?_,by rw [hid]⟩
    apply List.mem_filter.mpr ⟨?_,by simpa using hne⟩
    exact List.mem_of_getElem? (List.getElem?_zip_eq_some.mpr ⟨hch,hv⟩)

/-- Chunks and embeddings come in pairs. -/
lemma Stocked.nodup_zip (h : c.Stocked) :
    ((c.core.chunks.zip c.embeddings).map fun entry => entry.1.id).Nodup := by
  have hmap : ((c.core.chunks.zip c.embeddings).map fun entry => entry.1.id) =
      ((c.core.chunks.zip c.embeddings).map Prod.fst).map Chunk.id := by simp
  rw [hmap,List.map_fst_zip (by rw [h.embedded]),h.placed.ids]
  exact List.nodup_range

lemma Stocked.nodup_graphRows (h : c.Stocked) :
    (c.graphRows.map Prod.fst).Nodup := by
  have hsub : ((c.core.chunks.zip c.embeddings).filter fun entry => entry.2 ≠ []).Sublist
      (c.core.chunks.zip c.embeddings) := List.filter_sublist
  rw [graphRows,List.map_map]
  exact h.nodup_zip.sublist (hsub.map _)

/-- A graph that is built from nothing has the rows of its dimension as nodes. -/
lemma buildBatch_empty_nodes (similarity : Similarity) (config : HnswConfig)
    (rows : List (ℕ × Vec)) (wiring : Wiring) :
    let g := (HnswIndex.empty config).buildBatch similarity rows wiring
    (g.nodes = [] ∨ (HnswIndex.empty config).batchDim rows ≠ 0 ∧
      g.dim = (HnswIndex.empty config).batchDim rows ∧
      g.nodes.map HnswNode.id = ((HnswIndex.empty config).stagedRows rows).map Prod.fst ∧
      ∀ nd ∈ g.nodes, nd.superseded = false) ∧ g.deleted = ∅ := by
  unfold HnswIndex.buildBatch
  dsimp only
  split_ifs with hdim hstaged
  · exact ⟨.inl rfl,rfl⟩
  · exact ⟨.inl rfl,by simp [HnswIndex.empty]⟩
  · refine ⟨.inr ⟨hdim,rfl,?_,?_⟩,by simp [HnswIndex.empty]⟩
    · simp only [HnswIndex.empty,List.nil_append]
      apply List.ext_getElem?
      intro i
      simp only [List.getElem?_map,List.getElem?_mapIdx,Option.map_map]
      rfl
    · intro nd hnd
      obtain ⟨i,hi⟩ := List.mem_iff_getElem?.mp hnd
      rw [List.getElem?_mapIdx,Option.map_eq_some_iff] at hi
      obtain ⟨nd',hnd',rfl⟩ := hi
      have hmem := List.mem_of_getElem? hnd'
      simp only [HnswIndex.empty,List.nil_append] at hmem
      obtain ⟨row,-,rfl⟩ := List.mem_map.mp hmem
      rfl

lemma Graphed.withGraph (h : c.Graphed) (hs : c.Stocked)
    (similarity : Similarity) (wiring : Wiring) : (c.withGraph similarity wiring).Graphed := by
  unfold IndexedCorpus.withGraph
  split_ifs
  · obtain ⟨hnodes,hdeleted⟩ := buildBatch_empty_nodes similarity c.hnswConfig c.graphRows wiring
    have hids : (((HnswIndex.empty c.hnswConfig).stagedRows c.graphRows).map Prod.fst).Nodup :=
      hs.nodup_graphRows.sublist (List.filter_sublist.map _)
    constructor
    · rintro g hg
      cases hg
      rcases hnodes with hnone | ⟨-,-,hsame,-⟩
      · rw [hnone]
        exact List.nodup_nil
      · rw [hsame]
        exact hids
    · rintro g hg nd hnd
      cases hg
      rcases hnodes with hnone | ⟨-,-,-,hcurrent⟩
      · rw [hnone] at hnd
        cases hnd
      · exact hcurrent nd hnd
    · rintro g hg nd hnd
      cases hg
      obtain ⟨row,hrow,hid⟩ := HnswIndex.mem_buildBatch_empty hnd
      obtain ⟨hv,hne⟩ := hs.graphRow.mp (List.mem_filter.mp hrow).1
      exact ⟨row.2,hid ▸ hv,hne⟩
    · rintro g hg id hid
      cases hg
      rw [hdeleted] at hid
      exact absurd hid (Finset.notMem_empty id)
    · rintro g hg hsome
      cases hg
      rcases hnodes with hnone | ⟨hdim,hsame,-⟩
      · exact absurd hnone hsome
      · rw [hsame]
        exact hdim
  · exact h

/-- What a build works on behind the embedding. -/
lemma Stocked.embedded_build (h : c.Stocked) (similarity : Similarity) (run : EmbedRun) : Stocked
    { (c.embedPending similarity run).2 with
      links := c.links.ensured
      bm25 := c.bm25.finalize } := by
  obtain ⟨hlength,-,hcore⟩ := embedPending_rest similarity c run
  apply h.of_same
  · exact hcore ▸ h.valid
  · exact hcore ▸ h.placed
  · exact congrArg Corpus.chunks hcore
  · exact hlength

lemma Graphed.buildLocked (h : c.Graphed) (hs : c.Stocked)
    (similarity : Similarity) (run : EmbedRun) (wiring : Wiring) :
    (c.buildLocked similarity run wiring).2.Graphed := by
  have hsearch := hs.embedded_build similarity run
  have hcore := (embedPending_rest similarity c run).2.2
  have hembedded : Graphed { (c.embedPending similarity run).2 with
      links := c.links.ensured, bm25 := c.bm25.finalize } := by
    apply h.grow (d := { (c.embedPending similarity run).2 with
      links := c.links.ensured, bm25 := c.bm25.finalize }) (embedPending_core similarity c run).2
    · exact fun i v hv hne => embedPending_keeps similarity run hv hne
    · exact fun i ch hch => (congrArg Corpus.chunks hcore).symm ▸ hch
    · exact (congrArg Corpus.deletedDocs hcore).ge
  unfold IndexedCorpus.buildLocked ensureLinked
  dsimp only
  rw [embedPending_framed]
  cases c.embedder with
  | none =>
    exact h.grow rfl (fun i v hv _ => hv) (fun i ch hch => hch) (Finset.Subset.refl _)
  | some dimension =>
    revert hsearch hembedded
    obtain ⟨_ | _,d⟩ := c.embedPending similarity run
    · exact fun _ hembedded => hembedded
    · intro hsearch hembedded
      exact (hembedded.withGraph hsearch similarity wiring).grow rfl (fun i v hv _ => hv)
        (fun i ch hch => hch) (Finset.Subset.refl _)

lemma Graphed.ofImage (h : c.Graphed) (analysis : Analysis) (p : PathState) :
    (IndexedCorpus.ofImage analysis p c.imageLocked).Graphed := by
  have hnodes : ∀ g : HnswIndex, g.reloaded.nodes.map HnswNode.id = g.nodes.map HnswNode.id := by
    intro g
    simp [HnswIndex.reloaded]
  constructor
  · intro g hg
    obtain ⟨g',hg',rfl⟩ := Option.map_eq_some_iff.mp hg
    rw [hnodes]
    exact h.distinct g' hg'
  · intro g hg nd hnd
    obtain ⟨g',hg',rfl⟩ := Option.map_eq_some_iff.mp hg
    obtain ⟨nd',-,rfl⟩ := List.mem_map.mp hnd
    rfl
  · intro g hg nd hnd
    obtain ⟨g',hg',rfl⟩ := Option.map_eq_some_iff.mp hg
    obtain ⟨nd',hnd',rfl⟩ := List.mem_map.mp hnd
    exact h.embedded g' hg' nd' hnd'
  · intro g hg id hid
    obtain ⟨g',hg',rfl⟩ := Option.map_eq_some_iff.mp hg
    exact absurd hid (Finset.notMem_empty id)
  · intro g hg hsome
    obtain ⟨g',hg',rfl⟩ := Option.map_eq_some_iff.mp hg
    exact h.dim g' hg' fun hnone => hsome (by simp [HnswIndex.reloaded,hnone])

/-- The corpus of a session, and each that a file of it gives. -/
def Session.Graphed (s : Session) : Prop :=
  s.Stocked ∧ s.corpus.Graphed ∧
    ∀ image ∈ s.files, ∀ analysis p, (IndexedCorpus.ofImage analysis p image).Graphed

lemma Session.Graphed.step {similarity : Similarity} {analysis : Analysis} {s t : Session}
    {call : Call} (h : s.Graphed) (hs : s.step similarity analysis call = some t) : t.Graphed := by
  obtain ⟨hstocked,hgraph,hfiles⟩ := h
  refine ⟨hstocked.step hs,?_⟩
  cases call with
  | setEmbedder dimension =>
    cases hs
    exact ⟨hgraph.grow rfl (fun i v hv _ => hv) (fun i ch hch => hch) (Finset.Subset.refl _),hfiles⟩
  | addDocument uri text metadata title outcome moves =>
    cases hs
    exact ⟨hgraph.addDocumentLocked uri text metadata title outcome moves,hfiles⟩
  | upsertDocument uri text metadata title removal addition moves =>
    cases hs
    exact ⟨(hgraph.removeExisting hstocked.1 uri removal).addDocumentLocked uri text metadata title
      addition moves,hfiles⟩
  | removeDocument id outcome =>
    cases hs
    exact ⟨hgraph.removeDocumentLocked hstocked.1 id outcome,hfiles⟩
  | build run wiring =>
    cases hs
    exact ⟨hgraph.buildLocked hstocked.1 similarity run wiring,hfiles⟩
  | read =>
    cases hs
    exact ⟨hgraph.withLinks _,hfiles⟩
  | save =>
    cases hs
    refine ⟨hgraph.withLinks _,fun image himage analysis p => ?_⟩
    obtain himage | himage := List.mem_append.mp himage
    · exact hfiles image himage analysis p
    · rw [List.mem_singleton.mp himage]
      exact hgraph.ofImage analysis p
  | load file p =>
    obtain ⟨image,himage,rfl⟩ := Option.map_eq_some_iff.mp hs
    exact ⟨hfiles image (List.mem_of_getElem? himage) analysis p,hfiles⟩

theorem Session.run_graphed {similarity : Similarity} {analysis loaded : Analysis}
    {chunkOptions : ChunkOptions} {bm25 : Bm25Params} {hnswConfig : HnswConfig}
    {hnswThreshold embedBatch : ℕ} {calls : List Call} {s : Session}
    (hrun : Machine.run (Session.step similarity loaded)
      ⟨start analysis chunkOptions bm25 hnswConfig hnswThreshold embedBatch,[]⟩ calls = some s) :
    s.corpus.Stocked ∧ s.corpus.Graphed := by
  have hstart : Session.Graphed
      ⟨start analysis chunkOptions bm25 hnswConfig hnswThreshold embedBatch,[]⟩ :=
    ⟨⟨(searchable_start analysis chunkOptions bm25 hnswConfig hnswThreshold embedBatch).toStocked,
      fun image himage => absurd himage List.not_mem_nil⟩,Graphed.of_hnsw_eq_none rfl,
      fun image himage => absurd himage List.not_mem_nil⟩
  have hend := Machine.run_invariant' (fun _ _ _ h hs => h.step hs) hstart hrun
  exact ⟨hend.1.1,hend.2.1⟩

end IndexedCorpus
end RagRuntime.Index
