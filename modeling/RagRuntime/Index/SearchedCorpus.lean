import RagRuntime.Index.Tombstones
import RagRuntime.Lexical.Bm25Paths

/-! What the searches of a corpus rely on, over its mutations, builds, saves and loads: chunks and
embeddings in step, and an inverted index of all chunks. -/
namespace RagRuntime.Index
open RagRuntime.Base RagRuntime.Core RagRuntime.Text RagRuntime.Store RagRuntime.Backend
  RagRuntime.Lexical

/-- The texts of chunks as the inverted index is given them. -/
def indexedTexts (chunks : List Chunk) : List (ℕ × Bytes) :=
  chunks.map fun ch => (ch.id,indexedText ch.context ch.text)

@[simp] lemma indexedTexts_append (chunks chunks' : List Chunk) :
    indexedTexts (chunks ++ chunks') = indexedTexts chunks ++ indexedTexts chunks' :=
  List.map_append

@[simp] lemma length_indexedTexts (chunks : List Chunk) :
    (indexedTexts chunks).length = chunks.length := List.length_map _

/-- An index of some texts whose derived data fit wherever it says so. -/
structure Follows (index : Bm25Index) (docs : List (ℕ × Bytes)) : Prop where
  indexes : index.Indexes docs
  settled : index.finalized = true → index.Settled docs

section follows
variable {index : Bm25Index} {docs : List (ℕ × Bytes)}

lemma Follows.finalize (h : Follows index docs) : Follows index.finalize docs :=
  ⟨h.indexes.finalize,fun _ => h.indexes.settled⟩

/-- A text with terms makes the derived data stale, and one without leaves them. -/
lemma Follows.add (h : Follows index docs) {n : ℕ} (hn : n ∉ docs.map Prod.fst) (text : Bytes) :
    Follows (index.add n text) (docs ++ [(n,text)]) := by
  refine ⟨h.indexes.add hn text,fun hfinal => ?_⟩
  by_cases hempty : index.analysis.tokenize text = []
  · have hbefore : index.finalized = true := by
      rw [Bm25Index.add,if_pos hempty] at hfinal
      exact hfinal
    exact (h.settled hbefore).add_empty hn hempty
  · rw [Bm25Index.add,if_neg hempty] at hfinal
    cases hfinal

/-- The index of the chunks that are added one after the other. -/
def addChunks (index : Bm25Index) (chunks : List Chunk) : Bm25Index :=
  chunks.foldl (fun index ch => index.add ch.id (indexedText ch.context ch.text)) index

@[simp] lemma params_addChunks (index : Bm25Index) (chunks : List Chunk) :
    (addChunks index chunks).params = index.params := by
  induction chunks generalizing index with
  | nil => rfl
  | cons ch chunks ih =>
    rw [addChunks,List.foldl_cons,← addChunks,ih,Bm25Index.params_add]

lemma Follows.addChunks (h : Follows index docs) {chunks : List Chunk}
    (hids : ((docs ++ indexedTexts chunks).map Prod.fst).Nodup) :
    Follows (addChunks index chunks) (docs ++ indexedTexts chunks) := by
  induction chunks generalizing index docs with
  | nil => simpa [Index.addChunks,indexedTexts] using h
  | cons ch chunks ih =>
    have hcons : docs ++ indexedTexts (ch::chunks) =
        (docs ++ [(ch.id,indexedText ch.context ch.text)]) ++ indexedTexts chunks := by
      simp [indexedTexts]
    rw [hcons] at hids ⊢
    have hfirst : (docs.map Prod.fst ++ [ch.id]).Nodup := by
      rw [List.map_append] at hids
      simpa using (List.nodup_append.mp hids).1
    have hnew : ch.id ∉ docs.map Prod.fst := fun hmem =>
      (List.nodup_append.mp hfirst).2.2 _ hmem _ (List.mem_singleton.mpr rfl) rfl
    exact ih (h.add hnew _) hids

end follows

namespace Corpus

variable {c : Corpus}

/-- An add keeps ids positions and the limits. -/
lemma Valid.addDocumentLocked (h : c.Valid) (uri text : Bytes) (metadata : Metadata)
    (title : Bytes) (outcome : WriteOutcome) :
    (c.addDocumentLocked uri text metadata title outcome).2.Valid := by
  have hlimits := checkLimits_eq_ok c uri text metadata title
  have hlogged := h.of_logRecord (addRecord uri text metadata title) outcome
  have hsame := logRecord_same c (addRecord uri text metadata title) outcome
  unfold Corpus.addDocumentLocked
  cases hok : c.checkLimits uri text metadata title with
  | error e => exact h
  | ok u =>
    have hroom := (hlimits.mp hok).1
    revert hlogged hsame
    obtain ⟨_ | _,d⟩ := c.logRecord (addRecord uri text metadata title) outcome
    · exact fun hlogged _ => hlogged
    · intro hlogged hsame
      dsimp only at hlogged hsame ⊢
      split_ifs with hlimit
      · exact hlogged
      · exact hlogged.storeDocument uri metadata title (by rw [hsame.1]; exact hroom)
          (Bool.eq_false_of_not_eq_true hlimit)

lemma Valid.removeDocumentLocked (h : c.Valid) (id : UInt32) (outcome : WriteOutcome) :
    (c.removeDocumentLocked id outcome).2.Valid := by
  have hlogged := h.of_logRecord (removeRecord id) outcome
  have hsame := logRecord_same c (removeRecord id) outcome
  unfold Corpus.removeDocumentLocked
  split_ifs with hid
  · exact h
  · revert hlogged hsame
    obtain ⟨_ | _,d⟩ := c.logRecord (removeRecord id) outcome
    · exact fun hlogged _ => hlogged
    · intro hlogged hsame
      dsimp only at hlogged hsame ⊢
      exact hlogged.tombstone (by rw [hsame.1]; omega)

lemma Placed.ids (h : Placed c.docs c.chunks c.deletedDocs) :
    c.chunks.map Chunk.id = List.range c.chunks.length := by
  apply List.ext_getElem (by simp)
  intro i hi hi'
  rw [List.length_map] at hi
  rw [List.getElem_map,List.getElem_range]
  exact (h.positions i _ (List.getElem?_eq_getElem hi)).1

lemma Placed.nodup_ids (h : Placed c.docs c.chunks c.deletedDocs) :
    ((indexedTexts c.chunks).map Prod.fst).Nodup := by
  have hmap : (indexedTexts c.chunks).map Prod.fst = c.chunks.map Chunk.id := by
    simp [indexedTexts]
  rw [hmap,h.ids]
  exact List.nodup_range

end Corpus

namespace IndexedCorpus

/-- Ids are positions, and every chunk has its place among the embeddings. -/
structure Stocked (c : IndexedCorpus) : Prop where
  valid : c.core.Valid
  placed : Corpus.Placed c.core.docs c.core.chunks c.core.deletedDocs
  embedded : c.embeddings.length = c.core.chunks.length

/-- What the lexical searches of a corpus rely on. -/
structure Searchable (params : Bm25Params) (c : IndexedCorpus) : Prop extends c.Stocked where
  params : c.bm25.params = params
  follows : Follows c.bm25 (indexedTexts c.core.chunks)

variable {params : Bm25Params} {c : IndexedCorpus}

lemma searchable_start (analysis : Analysis) (chunkOptions : ChunkOptions) (bm25 : Bm25Params)
    (hnswConfig : HnswConfig) (hnswThreshold embedBatch : ℕ) :
    (start analysis chunkOptions bm25 hnswConfig hnswThreshold embedBatch).Searchable bm25 where
  valid := ⟨rfl,fun i hi => absurd hi (Finset.notMem_empty i),by simp [start],by simp [start]⟩
  placed := (marked_start analysis chunkOptions bm25 hnswConfig hnswThreshold embedBatch).placed
  embedded := rfl
  params := rfl
  follows := ⟨Bm25Index.indexes_empty analysis bm25,fun hfinal => by cases hfinal⟩

lemma Stocked.withLinks (h : c.Stocked) (links : MetaLinks) :
    ({ c with links := links } : IndexedCorpus).Stocked := ⟨h.valid,h.placed,h.embedded⟩

lemma Searchable.withLinks (h : c.Searchable params) (links : MetaLinks) :
    ({ c with links := links } : IndexedCorpus).Searchable params :=
  ⟨h.toStocked.withLinks links,h.params,h.follows⟩

/-- The graph, the epoch and the log are not in it. -/
lemma Stocked.of_same (h : c.Stocked) {d : IndexedCorpus} (hvalid : d.core.Valid)
    (hplaced : Corpus.Placed d.core.docs d.core.chunks d.core.deletedDocs)
    (hchunks : d.core.chunks = c.core.chunks)
    (hembedded : d.embeddings.length = c.embeddings.length) : d.Stocked := by
  refine ⟨hvalid,hplaced,?_⟩
  rw [hembedded,h.embedded,hchunks]

lemma Searchable.of_same (h : c.Searchable params) {d : IndexedCorpus} (hstocked : d.Stocked)
    (hchunks : d.core.chunks = c.core.chunks) (hbm25 : d.bm25 = c.bm25) :
    d.Searchable params := by
  refine ⟨hstocked,?_,?_⟩
  · rw [hbm25]
    exact h.params
  · rw [hbm25,hchunks]
    exact h.follows

lemma Stocked.extend (h : c.Stocked) {next : Corpus} (hvalid : next.Valid)
    (hplaced : Corpus.Placed next.docs next.chunks next.deletedDocs)
    (hchunks : ∃ new, next.chunks = c.core.chunks ++ new) : (c.extend next).Stocked := by
  obtain ⟨new,hnew⟩ := hchunks
  have hadded : (c.core.chunks ++ new).drop c.core.chunks.length = new := List.drop_left
  refine ⟨hvalid,hplaced,?_⟩
  simp only [IndexedCorpus.extend,hnew,hadded,List.length_append,List.length_map,h.embedded]

/-- The chunks that the corpus has gained are indexed. -/
lemma Searchable.extend (h : c.Searchable params) {next : Corpus} (hvalid : next.Valid)
    (hplaced : Corpus.Placed next.docs next.chunks next.deletedDocs)
    (hchunks : ∃ new, next.chunks = c.core.chunks ++ new) :
    (c.extend next).Searchable params := by
  have hstocked := h.toStocked.extend hvalid hplaced hchunks
  obtain ⟨new,hnew⟩ := hchunks
  have hids := hplaced.nodup_ids
  rw [hnew,indexedTexts_append] at hids
  have hadded : (c.core.chunks ++ new).drop c.core.chunks.length = new := List.drop_left
  refine ⟨hstocked,?_,?_⟩
  · exact (params_addChunks c.bm25 (next.chunks.drop c.core.chunks.length)) ▸ h.params
  · have hfollows := h.follows.addChunks hids
    simp only [IndexedCorpus.extend,hnew,hadded,indexedTexts_append]
    exact hfollows

/-- The corpus behind an addition has its chunks behind the others. -/
lemma Stocked.added (h : c.Stocked) (uri text : Bytes) (metadata : Metadata) (title : Bytes)
    (outcome : WriteOutcome) :
    let next := (c.core.addDocumentLocked uri text metadata title outcome).2
    next.Valid ∧ Corpus.Placed next.docs next.chunks next.deletedDocs ∧
      ∃ new, next.chunks = c.core.chunks ++ new := by
  refine ⟨h.valid.addDocumentLocked uri text metadata title outcome,?_⟩
  obtain ⟨hdeleted,⟨hdocs,hchunks⟩ | ⟨hdocs,hchunks⟩⟩ :=
    c.core.addDocumentLocked_shape uri text metadata title outcome
  · rw [hdocs,hchunks,hdeleted]
    exact ⟨h.placed,[],(List.append_nil _).symm⟩
  · rw [hdocs,hchunks,hdeleted]
    exact ⟨h.placed.append _ text,_,rfl⟩

lemma Stocked.addDocumentLocked (h : c.Stocked) (uri text : Bytes) (metadata : Metadata)
    (title : Bytes) (outcome : WriteOutcome) (moves : Bool) :
    (c.addDocumentLocked uri text metadata title outcome moves).2.Stocked := by
  obtain ⟨hvalid,hplaced,hchunks⟩ := h.added uri text metadata title outcome
  exact (h.extend hvalid hplaced hchunks).withLinks _

lemma Searchable.addDocumentLocked (h : c.Searchable params) (uri text : Bytes)
    (metadata : Metadata) (title : Bytes) (outcome : WriteOutcome) (moves : Bool) :
    (c.addDocumentLocked uri text metadata title outcome moves).2.Searchable params := by
  obtain ⟨hvalid,hplaced,hchunks⟩ := h.toStocked.added uri text metadata title outcome
  exact (h.extend hvalid hplaced hchunks).withLinks _

/-- What a removal does to the rest of the corpus. -/
lemma removeDocumentLocked_rest (c : IndexedCorpus) (id : UInt32) (outcome : WriteOutcome) :
    let d := (c.removeDocumentLocked id outcome).2
    d.core = (c.core.removeDocumentLocked id outcome).2 ∧ d.embeddings = c.embeddings ∧
      d.bm25 = c.bm25 := by
  unfold IndexedCorpus.removeDocumentLocked ensureLinked
  dsimp only
  obtain ⟨_ | _,core⟩ := c.core.removeDocumentLocked id outcome
  · exact ⟨rfl,rfl,rfl⟩
  · exact ⟨rfl,rfl,rfl⟩

lemma Stocked.removeDocumentLocked (h : c.Stocked) (id : UInt32) (outcome : WriteOutcome) :
    (c.removeDocumentLocked id outcome).2.Stocked := by
  obtain ⟨hcore,hembeddings,-⟩ := c.removeDocumentLocked_rest id outcome
  obtain ⟨hdocs,hchunks,hdeleted⟩ := c.core.removeDocumentLocked_shape id outcome
  apply h.of_same
  · rw [hcore]
    exact h.valid.removeDocumentLocked id outcome
  · rw [hcore,hdocs,hchunks]
    rcases hdeleted with ⟨-,hdeleted⟩ | ⟨-,hid,hdeleted⟩
    · rw [hdeleted]
      exact h.placed
    · rw [hdeleted]
      exact h.placed.tombstone hid
  · rw [hcore,hchunks]
  · rw [hembeddings]

lemma Searchable.removeDocumentLocked (h : c.Searchable params) (id : UInt32)
    (outcome : WriteOutcome) : (c.removeDocumentLocked id outcome).2.Searchable params := by
  obtain ⟨hcore,-,hbm25⟩ := c.removeDocumentLocked_rest id outcome
  apply h.of_same (h.toStocked.removeDocumentLocked id outcome)
  · rw [hcore]
    exact (c.core.removeDocumentLocked_shape id outcome).2.1
  · exact hbm25

lemma Stocked.removeExisting (h : c.Stocked) (uri : Bytes) (outcome : WriteOutcome) :
    (c.removeExisting uri outcome).Stocked := by
  unfold IndexedCorpus.removeExisting
  cases c.core.findByUriLocked uri with
  | none => exact h
  | some id => exact h.removeDocumentLocked _ outcome

lemma Searchable.removeExisting (h : c.Searchable params) (uri : Bytes)
    (outcome : WriteOutcome) : (c.removeExisting uri outcome).Searchable params := by
  unfold IndexedCorpus.removeExisting
  cases c.core.findByUriLocked uri with
  | none => exact h
  | some id => exact h.removeDocumentLocked _ outcome

@[simp] lemma length_storeVectors (embeddings : List Vec) (batch : List ℕ) (vecs : List Vec) :
    (storeVectors embeddings batch vecs).length = embeddings.length := by
  unfold storeVectors
  induction batch.zip vecs generalizing embeddings with
  | nil => rfl
  | cons entry rest ih => rw [List.foldl_cons,ih,List.length_set]

/-- Embedding keeps everything but the embeddings, and there one for each chunk. -/
lemma embedPending_rest (similarity : Similarity) (c : IndexedCorpus) (run : EmbedRun) :
    let d := (c.embedPending similarity run).2
    d.embeddings.length = c.embeddings.length ∧ d.bm25 = c.bm25 ∧ d.core = c.core := by
  unfold embedPending
  cases c.embedder with
  | none => exact ⟨rfl,rfl,rfl⟩
  | some dimension =>
    refine ⟨?_,rfl,rfl⟩
    dsimp only
    apply List.foldlRecOn (motive := fun embeddings : List Vec =>
      embeddings.length = c.embeddings.length)
    · rfl
    · rintro embeddings hlength ⟨⟨batch,i⟩,_ | vecs⟩ -
      · exact hlength
      · dsimp only
        split_ifs
        · rw [length_storeVectors,hlength]
        · exact hlength

/-- What a build does besides building a graph. -/
lemma buildLocked_rest (similarity : Similarity) (c : IndexedCorpus) (run : EmbedRun)
    (wiring : Wiring) :
    let d := (c.buildLocked similarity run wiring).2
    (∃ epoch, d.core = { c.core with epoch := epoch }) ∧
      d.embeddings.length = c.embeddings.length ∧ d.bm25 = c.bm25.finalize := by
  obtain ⟨hlength,-,hcore⟩ := embedPending_rest similarity c run
  unfold IndexedCorpus.buildLocked ensureLinked
  dsimp only
  rw [embedPending_framed]
  cases c.embedder with
  | none => exact ⟨⟨_,rfl⟩,rfl,rfl⟩
  | some dimension =>
    revert hlength hcore
    obtain ⟨_ | _,d⟩ := c.embedPending similarity run
    · intro hlength hcore
      exact ⟨⟨c.core.epoch,hcore⟩,hlength,rfl⟩
    · intro hlength hcore
      dsimp only at hlength hcore ⊢
      unfold withGraph
      split_ifs
      · exact ⟨⟨_,by rw [hcore]⟩,hlength,rfl⟩
      · exact ⟨⟨_,by rw [hcore]⟩,hlength,rfl⟩

lemma Stocked.buildLocked (h : c.Stocked) (similarity : Similarity) (run : EmbedRun)
    (wiring : Wiring) : (c.buildLocked similarity run wiring).2.Stocked := by
  obtain ⟨⟨epoch,hcore⟩,hlength,-⟩ := buildLocked_rest similarity c run wiring
  apply h.of_same
  · rw [hcore]
    exact ⟨h.valid.ids,h.valid.deleted,h.valid.documents,h.valid.chunks⟩
  · rw [hcore]
    exact h.placed
  · rw [hcore]
  · exact hlength

lemma Searchable.buildLocked (h : c.Searchable params) (similarity : Similarity) (run : EmbedRun)
    (wiring : Wiring) : (c.buildLocked similarity run wiring).2.Searchable params := by
  obtain ⟨⟨epoch,hcore⟩,-,hbm25⟩ := buildLocked_rest similarity c run wiring
  refine ⟨h.toStocked.buildLocked similarity run wiring,?_,?_⟩
  · rw [hbm25]
    exact h.params
  · rw [hbm25,hcore]
    exact h.follows.finalize

lemma Stocked.ofImage (h : c.Stocked) (analysis : Analysis) (p : PathState) :
    (IndexedCorpus.ofImage analysis p c.imageLocked).Stocked :=
  ⟨⟨h.valid.ids,h.valid.deleted,h.valid.documents,h.valid.chunks⟩,h.placed,h.embedded⟩

/-- The corpus of a session, and each that a file of it gives. -/
def Session.Stocked (s : Session) : Prop :=
  s.corpus.Stocked ∧
    ∀ image ∈ s.files, ∀ analysis p, (IndexedCorpus.ofImage analysis p image).Stocked

lemma Session.Stocked.step {similarity : Similarity} {analysis : Analysis} {s t : Session}
    {call : Call} (h : s.Stocked) (hs : s.step similarity analysis call = some t) :
    t.Stocked := by
  obtain ⟨hcorpus,hfiles⟩ := h
  cases call with
  | setEmbedder dimension =>
    cases hs
    exact ⟨hcorpus.of_same hcorpus.valid hcorpus.placed rfl rfl,hfiles⟩
  | addDocument uri text metadata title outcome moves =>
    cases hs
    exact ⟨hcorpus.addDocumentLocked uri text metadata title outcome moves,hfiles⟩
  | upsertDocument uri text metadata title removal addition moves =>
    cases hs
    exact ⟨(hcorpus.removeExisting uri removal).addDocumentLocked uri text metadata title addition
      moves,hfiles⟩
  | removeDocument id outcome =>
    cases hs
    exact ⟨hcorpus.removeDocumentLocked id outcome,hfiles⟩
  | build run wiring =>
    cases hs
    exact ⟨hcorpus.buildLocked similarity run wiring,hfiles⟩
  | read =>
    cases hs
    exact ⟨hcorpus.withLinks _,hfiles⟩
  | save =>
    cases hs
    refine ⟨hcorpus.withLinks _,fun image himage analysis p => ?_⟩
    obtain himage | himage := List.mem_append.mp himage
    · exact hfiles image himage analysis p
    · rw [List.mem_singleton.mp himage]
      exact hcorpus.ofImage analysis p
  | load file p =>
    obtain ⟨image,himage,rfl⟩ := Option.map_eq_some_iff.mp hs
    exact ⟨hfiles image (List.mem_of_getElem? himage) analysis p,hfiles⟩

/-- A load has the default tokenizer. It is to be the one that the texts of the file were indexed
with. -/
def Session.KeepsTerms (analysis : Analysis) (s : Session) : Call → Prop
  | .load file _ => ∀ image ∈ s.files[file]?, image.bm25.analysis = analysis
  | _ => True

/-- What a file is good for. -/
structure Indexed (params : Bm25Params) (image : CorpusImage) : Prop where
  stocked : ∀ analysis p, (IndexedCorpus.ofImage analysis p image).Stocked
  params : image.bm25.params = params
  follows : Follows image.bm25 (indexedTexts image.core.chunks)

lemma Searchable.indexed (h : c.Searchable params) : Indexed params c.imageLocked :=
  ⟨h.toStocked.ofImage,h.params,h.follows⟩

/-- With the tokenizer of the texts, the derived data are what they were. -/
lemma Indexed.searchable {image : CorpusImage} (h : Indexed params image) (p : PathState) :
    (IndexedCorpus.ofImage image.bm25.analysis p image).Searchable params :=
  ⟨h.stocked _ p,h.params,h.follows.finalize⟩

/-- The corpus of a session can be searched, and so can each that a file of it gives. -/
def Session.Searchable (params : Bm25Params) (s : Session) : Prop :=
  s.corpus.Searchable params ∧ ∀ image ∈ s.files, Indexed params image

lemma Session.Searchable.step {similarity : Similarity} {analysis : Analysis} {s t : Session}
    {call : Call} (h : s.Searchable params) (hkeeps : s.KeepsTerms analysis call)
    (hs : s.step similarity analysis call = some t) : t.Searchable params := by
  obtain ⟨hcorpus,hfiles⟩ := h
  cases call with
  | setEmbedder dimension =>
    cases hs
    exact ⟨⟨⟨hcorpus.valid,hcorpus.placed,hcorpus.embedded⟩,hcorpus.params,hcorpus.follows⟩,hfiles⟩
  | addDocument uri text metadata title outcome moves =>
    cases hs
    exact ⟨hcorpus.addDocumentLocked uri text metadata title outcome moves,hfiles⟩
  | upsertDocument uri text metadata title removal addition moves =>
    cases hs
    exact ⟨(hcorpus.removeExisting uri removal).addDocumentLocked uri text metadata title addition
      moves,hfiles⟩
  | removeDocument id outcome =>
    cases hs
    exact ⟨hcorpus.removeDocumentLocked id outcome,hfiles⟩
  | build run wiring =>
    cases hs
    exact ⟨hcorpus.buildLocked similarity run wiring,hfiles⟩
  | read =>
    cases hs
    exact ⟨hcorpus.withLinks _,hfiles⟩
  | save =>
    cases hs
    refine ⟨hcorpus.withLinks _,fun image himage => ?_⟩
    obtain himage | himage := List.mem_append.mp himage
    · exact hfiles image himage
    · rw [List.mem_singleton.mp himage]
      exact hcorpus.indexed
  | load file p =>
    obtain ⟨image,himage,rfl⟩ := Option.map_eq_some_iff.mp hs
    obtain rfl := hkeeps image himage
    exact ⟨(hfiles image (List.mem_of_getElem? himage)).searchable p,hfiles⟩

/-- Every corpus that calls lead to can be searched, if the terms are kept. -/
theorem Session.run_searchable {similarity : Similarity} {analysis loaded : Analysis}
    {chunkOptions : ChunkOptions} {bm25 : Bm25Params} {hnswConfig : HnswConfig}
    {hnswThreshold embedBatch : ℕ} {calls : List Call} {s : Session}
    (hmeets : Machine.Meets (Session.step similarity loaded) (Session.KeepsTerms loaded)
      ⟨start analysis chunkOptions bm25 hnswConfig hnswThreshold embedBatch,[]⟩ calls)
    (hrun : Machine.run (Session.step similarity loaded)
      ⟨start analysis chunkOptions bm25 hnswConfig hnswThreshold embedBatch,[]⟩ calls = some s) :
    s.corpus.Searchable bm25 := by
  have hstart : Session.Searchable bm25
      ⟨start analysis chunkOptions bm25 hnswConfig hnswThreshold embedBatch,[]⟩ :=
    ⟨searchable_start analysis chunkOptions bm25 hnswConfig hnswThreshold embedBatch,
      fun image himage => absurd himage List.not_mem_nil⟩
  exact (Machine.run_invariant (fun _ _ _ h hc hs => h.step hc hs) hstart hmeets hrun).1

end IndexedCorpus
end RagRuntime.Index
