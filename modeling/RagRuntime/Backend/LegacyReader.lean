import RagRuntime.Backend.CheckpointSections
import RagRuntime.Backend.Compaction
import RagRuntime.Index.CorpusFile

/-! Checkpoint files in the hands of the corpus loader, which does not know the runtime section. -/
namespace RagRuntime.Store

namespace Container

lemma Tag.value_injective : Function.Injective Tag.value := by
  intro a b h
  cases a <;> cases b <;> first | rfl | exact absurd h (by decide)

@[simp] lemma get_put (c : Container) (tag tag' : Tag) (payload : RagRuntime.Base.Bytes) :
    (c.put tag payload).get tag' = if tag' = tag then some payload else c.get tag' := by
  rw [get,put,putRaw,RagRuntime.Base.OrdMap.find?_insert]
  simp only [Tag.value_injective.eq_iff]
  rfl

@[simp] lemma get_setFlags (c : Container) (flags : Word) (tag : Tag) :
    (c.setFlags flags).get tag = c.get tag := rfl

@[simp] lemma get_empty (tag : Tag) : empty.get tag = none := rfl

end Container
end RagRuntime.Store

namespace RagRuntime.Backend
open RagRuntime.Base RagRuntime.Core RagRuntime.Store RagRuntime.Text RagRuntime.Lexical
  RagRuntime.Dense RagRuntime.Index Decoder

namespace EmbeddedCheckpointStore

section sections

variable (idf : ℕ → ℕ → ℚ) (order : HashOrder) (checkpoint : EmbeddedCheckpoint)

/-- The section of a checkpoint file under each tag. -/
def sectionAt : Tag → Option Bytes
  | .«meta» => some metadataText
  | .docs => some (documentsSection checkpoint.documents)
  | .chunks => some (chunksSection checkpoint.documents)
  | .embed => if anyEmbeddings checkpoint.documents then
      some (embeddingsSection checkpoint.documents) else none
  | .bm25 => some ((lexicalIndex idf checkpoint.documents).serialize order)
  | .hnsw => none
  | .tomb => none
  | .runtime => some (runtimeSection checkpoint)

lemma get_container (tag : Tag) :
    (container idf order checkpoint).get tag = sectionAt idf order checkpoint tag := by
  unfold container
  dsimp only
  rw [Container.get_setFlags,Container.get_put]
  cases h : anyEmbeddings checkpoint.documents with
  | false =>
    simp only [Bool.false_eq_true,if_false]
    rw [Container.get_put,Container.get_put,Container.get_put,Container.get_put,
      Container.get_empty]
    cases tag <;> simp only [reduceCtorEq,if_false,if_true,sectionAt,h,Bool.false_eq_true]
  | true =>
    simp only [if_true]
    rw [Container.get_put,Container.get_put,Container.get_put,Container.get_put,
      Container.get_put,Container.get_empty]
    cases tag <;> simp only [reduceCtorEq,if_false,if_true,sectionAt,h]

lemma hasFlag_container : CorpusFile.hasFlag (container idf order checkpoint) kHasEmbeddings =
      anyEmbeddings checkpoint.documents ∧
    CorpusFile.hasFlag (container idf order checkpoint) kHasHnsw = false := by
  have hflags : (container idf order checkpoint).flags =
      if anyEmbeddings checkpoint.documents then kHasEmbeddings else 0 := rfl
  unfold CorpusFile.hasFlag
  rw [hflags]
  cases anyEmbeddings checkpoint.documents <;> decide

end sections

/-- What the JSON library makes of the metadata of a checkpoint file. -/
def ReadsMetadata (parser : JsonParser) : Prop :=
  parser metadataText = some (.object [(latin "runtime_checkpoint",.unsigned kRuntimeVersion)])

/-- A member that an object does not have is the default. -/
lemma member_absent {α : Type} (get : Json → Except String α) {j : Json} {key : String}
    (default : α) (hobject : j.isObject = true) (habsent : j.find? (latin key) = none) :
    CorpusFile.member get j key default = .ok default := by
  unfold CorpusFile.member Json.value
  rw [hobject,habsent]
  rfl

/-- Metadata with nothing of a configuration stands for the default one. -/
lemma readConfig_absent {parser : JsonParser} {blob : Bytes} {j : Json} (hj : parser blob = some j)
    (hobject : j.isObject = true) (hthreshold : j.find? (latin "hnsw_threshold") = none)
    (hbatch : j.find? (latin "embed_batch") = none) (hchunk : j.find? (latin "chunk") = none)
    (hbm25 : j.find? (latin "bm25") = none) : CorpusFile.readConfig parser blob = .ok {} := by
  have hwithin : CorpusFile.ConfigWithin {} := by
    unfold CorpusFile.ConfigWithin
    refine ⟨?_,?_,?_,?_,?_,?_,?_,?_,?_,?_,?_,?_⟩ <;> first | decide | norm_num
  unfold CorpusFile.readConfig
  rw [hj]
  dsimp only
  rw [hobject,if_neg (by decide)]
  simp only [CorpusFile.size,member_absent _ _ hobject hthreshold,member_absent _ _ hobject hbatch,
    hchunk,CorpusFile.readBm25,hbm25,bind,Except.bind,pure,Except.pure]
  exact if_pos hwithin

lemma readConfig_metadata {parser : JsonParser} (h : ReadsMetadata parser) :
    CorpusFile.readConfig parser metadataText = .ok {} := by
  have habsent : ∀ key, latin "runtime_checkpoint" ≠ latin key → Json.find? (latin key)
      (.object [(latin "runtime_checkpoint",.unsigned kRuntimeVersion)]) = none := by
    intro key hkey
    simp [Json.find?,hkey]
  exact readConfig_absent h rfl (habsent "hnsw_threshold" (by decide))
    (habsent "embed_batch" (by decide)) (habsent "chunk" (by decide)) (habsent "bm25" (by decide))

section reads

variable {checkpoint : EmbeddedCheckpoint} {dimension : ℕ}

lemma Fitting.readDocuments (h : Fitting checkpoint dimension) : CorpusFile.readDocuments.whole
    (corrupt "trailing document data") (documentsSection checkpoint.documents) =
      .ok (corpusDocuments checkpoint.documents) := by
  have hroom := length_putDocuments (corpusDocuments checkpoint.documents)
  rw [length_corpusDocuments] at hroom
  apply Reads.whole
  exact (reads_number h.savable.documentCount_lt).bind ((reads_ensure h.savable.documentCount).after
    (reads_room (by decide) hroom h.reads_documents))

lemma Fitting.readChunks (h : Fitting checkpoint dimension) :
    (CorpusFile.readChunks (corpusDocuments checkpoint.documents).length).whole
      (corrupt "trailing chunk data") (chunksSection checkpoint.documents) =
        .ok (corpusChunks checkpoint.documents) := by
  have hroom := length_putChunks (corpusChunks checkpoint.documents)
  rw [length_corpusChunks] at hroom
  rw [length_corpusDocuments]
  apply Reads.whole
  exact (reads_number h.savable.chunkCount_lt).bind ((reads_ensure h.savable.chunkCount).after
    (reads_room (by decide) hroom h.reads_chunks))

/-- The vectors of a written section, all of one dimension. -/
lemma reads_embeddings {vectors : List Vec}
    (h : ∀ v ∈ vectors, v ≠ [] ∧ v.length = dimension ∧ v.length ≤ kMaxVectorDimension ∧
      (∀ x ∈ v, Single.IsFloat x) ∧ UnitNorm v) :
    Reads (repeatFrom CorpusFile.readEmbedding vectors.length 0 (0,[]))
      (encodeFrom putEmbedding 0 vectors) (if vectors = [] then 0 else dimension,vectors) := by
  refine reads_repeatFrom putEmbedding
    (fun pre => (if pre = [] then 0 else dimension,pre)) [] ?_
  intro pre v post hsplit
  obtain ⟨hne,hdimension,hmax,hfloats,hunit⟩ := h v (by rw [← hsplit]; simp)
  have hfits : v.length < 256^4 := by
    simp only [kMaxVectorDimension] at hmax
    omega
  have hzero : v.length ≠ 0 := fun h0 => hne (List.length_eq_zero_iff.mp h0)
  have hseen : (if [] ++ pre = [] then 0 else dimension) = 0 ∨
      v.length = if [] ++ pre = [] then 0 else dimension := by
    split_ifs
    · exact Or.inl rfl
    · exact Or.inr hdimension
  have hnorm : kMinNorm < dot v v ∧ |dot v v - 1| ≤ 1/100 := by
    have habs := abs_le.mp hunit
    have hmin : kMinNorm ≤ 1/2 :=
      one_div_le_one_div_of_le (by norm_num)
        (le_self_pow₀ (by norm_num : (1 : ℚ) ≤ 2) (by decide))
    refine ⟨by linarith,abs_le.mpr ⟨?_,?_⟩⟩ <;> linarith
  have hnext : (if [] ++ pre ++ [v] = [] then 0 else dimension) = v.length := by
    rw [if_neg (by simp),hdimension]
  rw [hnext]
  refine (reads_number hfits).bind ?_
  rw [if_neg hzero]
  exact (reads_ensure ⟨hmax,hseen⟩).after ((reads_vector hfloats).last
    ((reads_ensure hnorm).after (.pure _)))

lemma Fitting.readEmbeddings (h : Fitting checkpoint dimension) (idf : ℕ → ℕ → ℚ)
    (order : HashOrder) : CorpusFile.readEmbeddings (corpusChunks checkpoint.documents).length
      (sectionAt idf order checkpoint .embed) = .ok (corpusEmbeddings checkpoint.documents) := by
  have hlength : (corpusChunks checkpoint.documents).length =
      (corpusEmbeddings checkpoint.documents).length := by
    rw [length_corpusChunks,corpusEmbeddings,List.length_map]
  unfold sectionAt
  by_cases hany : anyEmbeddings checkpoint.documents = true
  · obtain ⟨chunk,hchunk,hne⟩ := List.any_eq_true.mp hany
    rw [if_pos hany]
    obtain hnone | hall := h.agree
    · simp [hnone chunk hchunk] at hne
    · have hread := (@reads_embeddings dimension (corpusEmbeddings checkpoint.documents) (by
        intro v hv
        obtain ⟨c,hc,rfl⟩ := List.mem_map.mp hv
        obtain ⟨hne,hdimension,hunit⟩ := hall c hc
        exact ⟨hne,hdimension,(h.savable.chunk hc).dimension,(h.chunk hc).2.2,hunit⟩)).whole
          (corrupt "trailing embedding data")
      rw [← hlength] at hread
      unfold CorpusFile.readEmbeddings
      dsimp only
      rw [embeddingsSection,hread]
      rfl
  · rw [if_neg hany]
    have hnone : ∀ c ∈ rows checkpoint.documents, c.embedding = [] := by
      intro c hc
      by_contra hne
      exact hany (List.any_eq_true.mpr ⟨c,hc,by simpa using hne⟩)
    have hempty : corpusEmbeddings checkpoint.documents =
        List.replicate (corpusChunks checkpoint.documents).length [] := by
      rw [hlength]
      exact List.eq_replicate_of_mem fun v hv => by
        obtain ⟨c,hc,rfl⟩ := List.mem_map.mp hv
        exact hnone c hc
    unfold CorpusFile.readEmbeddings
    dsimp only
    rw [← hempty]

lemma ok_bind {α β : Type} (a : α) (f : α → Result β) : ((.ok a : Result α) >>= f) = f a := rfl

/-- The loader reads every section of a checkpoint file; only the lexical index is in question. -/
theorem Fitting.readSections (h : Fitting checkpoint dimension) {parser : JsonParser}
    (hparser : ReadsMetadata parser) (idf : ℕ → ℕ → ℚ) (order : HashOrder) {γ : Type}
    (readGraph : Bytes → Result γ) :
    CorpusFile.readSections parser idf readGraph (container idf order checkpoint) =
      (Bm25Index.deserialize ⟨Tokenizer.tokenize {},idf⟩
        ((lexicalIndex idf checkpoint.documents).serialize order)).map fun bm25 =>
          ⟨{},corpusDocuments checkpoint.documents,corpusChunks checkpoint.documents,
            corpusEmbeddings checkpoint.documents,bm25,none,∅⟩ := by
  obtain ⟨hembeddings,hhnsw⟩ := hasFlag_container idf order checkpoint
  have hflags : ¬(CorpusFile.hasFlag (container idf order checkpoint) kHasEmbeddings ≠
      ((container idf order checkpoint).get .embed).isSome ∨
        CorpusFile.hasFlag (container idf order checkpoint) kHasHnsw ≠
          ((container idf order checkpoint).get .hnsw).isSome) := by
    rw [hembeddings,hhnsw,get_container,get_container]
    cases hany : anyEmbeddings checkpoint.documents <;> simp [sectionAt,hany]
  have hmeta := get_container idf order checkpoint .«meta»
  have hdocs := get_container idf order checkpoint .docs
  have hchunks := get_container idf order checkpoint .chunks
  have hbm25 := get_container idf order checkpoint .bm25
  have hgraph := get_container idf order checkpoint .hnsw
  have htomb := get_container idf order checkpoint .tomb
  have hread := h.readEmbeddings idf order
  rw [← get_container] at hread
  unfold CorpusFile.readSections
  rw [hmeta,hdocs,hchunks,hbm25]
  simp only [sectionAt]
  rw [if_neg hflags]
  rw [readConfig_metadata hparser,ok_bind,h.readDocuments,ok_bind,h.readChunks,ok_bind,hread,
    ok_bind,
    hgraph,htomb]
  cases Bm25Index.deserialize ⟨Tokenizer.tokenize {},idf⟩
    ((lexicalIndex idf checkpoint.documents).serialize order) with
  | error e => rfl
  | ok index => rfl

end reads

/-- The corpus holds the records of the checkpoint. -/
structure Holds {γ : Type} (c : LoadedCorpus γ) (documents : List ActiveDocument) : Prop where
  docs : c.docs = corpusDocuments documents
  chunks : c.chunks = corpusChunks documents
  embeddings : c.embeddings = corpusEmbeddings documents

/-- The terms of the index that a checkpoint file carries. -/
def terms (documents : List ActiveDocument) : Finset Bytes :=
  Bm25Index.vocabulary (Tokenizer.tokenize {}) (corpusTexts documents)

/-- A file that was written is read exactly if its lexical index is not too large. -/
theorem Fitting.load_iff {checkpoint : EmbeddedCheckpoint} {dimension : ℕ}
    (h : Fitting checkpoint dimension) {parser : JsonParser} (hparser : ReadsMetadata parser)
    (idf : ℕ → ℕ → ℚ) (hash : HashOrder) {γ : Type} (readGraph : Bytes → Result γ)
    (order : OffsetSort) {file : Bytes} (hsave : save idf hash checkpoint = .ok file) :
    (∃ c, CorpusFile.load parser idf readGraph order file = .ok c ∧ Holds c checkpoint.documents) ↔
      (terms checkpoint.documents).card ≤ kMaxPostings := by
  have hwritten : file = (container idf hash checkpoint).serialize ∧ file.length < 256^8 := by
    unfold save at hsave
    rw [validateForSave_eq_ok.mpr h.savable] at hsave
    simp only [bind,Except.bind] at hsave
    split_ifs at hsave with hsize
    · cases hsave
      exact ⟨rfl,hsize⟩
    · cases hsave
  obtain ⟨rfl,hsize⟩ := hwritten
  have hparse := (Container.parse_serialize_iff _ (size_container_le idf hash checkpoint) hsize).mpr
    (filled_container idf hash checkpoint).emptyLast order
  have hterms : (lexicalIndex idf checkpoint.documents).postings.size =
      (terms checkpoint.documents).card :=
    Bm25Index.size_postings_added
  have hload : CorpusFile.load parser idf readGraph order
    (container idf hash checkpoint).serialize =
      CorpusFile.readSections parser idf readGraph (container idf hash checkpoint) := by
    unfold CorpusFile.load
    rw [hparse]
    rfl
  rw [hload,h.readSections hparser,← hterms]
  constructor
  · rintro ⟨c,hc,-⟩
    by_contra hmany
    obtain ⟨e,he⟩ := Bm25Index.deserialize_serialize_error hash ⟨Tokenizer.tokenize {},idf⟩
      (h.writable idf) (not_le.mp hmany)
    rw [he] at hc
    cases hc
  · intro hcount
    rw [Bm25Index.deserialize_serialize hash ⟨Tokenizer.tokenize {},idf⟩ (h.writable idf) hcount]
    exact ⟨_,rfl,rfl,rfl,rfl⟩

end EmbeddedCheckpointStore

/-- What is delivered is made of well-typed documents. -/
def Delivery.WellTyped : Delivery → Prop
  | .write (.activate document _) => document.WellTyped
  | _ => True

namespace EmbeddedBackend

variable {β : Type}

/-- What a checkpoint of the backend relies on. -/
structure Durable (b : EmbeddedBackend β) : Prop where
  formed : b.Formed
  typed : ∀ k a, b.active.documents.find? k = some a → a.prepared.WellTyped

lemma durable_start (analysis : Analysis) (policy : EmbeddedMaintenancePolicy) :
    (start analysis policy : EmbeddedBackend β).Durable :=
  ⟨formed_start analysis policy,fun k a h => by cases h⟩

lemma Durable.deliver {b : EmbeddedBackend β} (h : b.Durable) {w : Write}
    (htyped : (Delivery.write w).WellTyped) : (b.deliver w).2.Durable := by
  refine ⟨h.formed.deliver w,?_⟩
  cases w with
  | activate document revision =>
    have hcases := b.activate_activated document revision
    change ∀ k a, (b.activate document revision).2.active.documents.find? k = some a → _
    generalize b.activate document revision = out at hcases
    cases hcases with
    | failed e => exact h.typed
    | already _ => exact h.typed
    | published hvalid hrevision hfresh next hbuilt =>
      intro k a ha
      change next.documents.find? k = some a at ha
      rw [hbuilt.documents,OrdMap.find?_insert] at ha
      split_ifs at ha
      · rw [← Option.some.inj ha]
        exact htyped
      · exact h.typed k a ha
  | erase document revision =>
    have hcases := b.erase_erased document revision
    change ∀ k a, (b.erase document revision).2.active.documents.find? k = some a → _
    generalize b.erase document revision = out at hcases
    cases hcases with
    | failed e => exact h.typed
    | already _ _ => exact h.typed
    | published hdocument hrevision hfresh next hbuilt =>
      intro k a ha
      change next.documents.find? k = some a at ha
      rw [hbuilt.documents,OrdMap.find?_erase] at ha
      split_ifs at ha
      exact h.typed k a ha

lemma Durable.compact [ApproximateIndex β] {b : EmbeddedBackend β} (h : b.Durable)
    (overrideMemoryBudget : Bool) : (b.compact overrideMemoryBudget).2.Durable := by
  unfold EmbeddedBackend.compact
  split_ifs
  · exact h
  · cases hdense : TieredDenseIndex.compact (β := β) (liveRows b.active.documents.entries)
        b.active.dimension b.policy.dense with
    | error e => exact h
    | ok dense =>
      dsimp only
      cases hbuild : buildGeneration b.analysis b.active.documents dense ∅ ∅
          (b.active.number+1) with
      | error e => exact h
      | ok next =>
        have hbuilt := buildGeneration_ok hbuild
        dsimp only
        refine ⟨Formed.of_built h.formed.filed hbuilt,?_⟩
        intro k a ha
        change next.documents.find? k = some a at ha
        rw [hbuilt.documents] at ha
        exact h.typed k a ha

lemma durable_deliverAll [ApproximateIndex β] (analysis : Analysis)
    (policy : EmbeddedMaintenancePolicy) {ds : List Delivery} (h : ∀ d ∈ ds, d.WellTyped) :
    ((start analysis policy : EmbeddedBackend β).deliverAll ds).Durable := by
  induction ds using List.reverseRecOn with
  | nil => exact durable_start analysis policy
  | append_singleton ds d ih =>
    have hbefore := ih fun e he => h e (List.mem_append_left _ he)
    have hlast := h d (by simp)
    rw [deliverAll,List.foldl_append]
    cases d with
    | write w => exact hbefore.deliver hlast
    | compact overrideMemoryBudget => exact hbefore.compact overrideMemoryBudget

lemma rows_values (documents : Catalog) : EmbeddedCheckpointStore.rows documents.values =
    (liveChunks documents.entries).map LiveChunk.chunk := by
  simp [EmbeddedCheckpointStore.rows,OrdMap.values,liveChunks,chunksOf,List.flatMap_map,
    List.map_flatMap,Function.comp_def]

/-- A backend whose checkpoint can be written fits the file. -/
lemma Durable.fitting {b : EmbeddedBackend β} (h : b.Durable) {walPosition : ℕ}
    (hsavable : EmbeddedCheckpointStore.Savable (b.snapshot walPosition)) :
    EmbeddedCheckpointStore.Fitting (b.snapshot walPosition) b.active.dimension := by
  obtain ⟨dense,inDelta,tombstones,hbuilt⟩ := h.formed.built
  have hvalid : ∀ x ∈ liveChunks b.active.documents.entries,
      ValidDocument x.active.prepared ∧ x.chunk ∈ x.active.prepared.chunks := by
    intro x hx
    obtain ⟨hfind,hchunk⟩ := mem_liveChunks.mp hx
    exact ⟨(h.formed.filed _ _ hfind).2.1,hchunk⟩
  refine ⟨hsavable,?_,?_,?_⟩
  · intro entry hentry
    obtain ⟨k,hk⟩ := OrdMap.mem_values.mp hentry
    exact h.typed k entry hk
  · change ∀ chunk ∈ EmbeddedCheckpointStore.rows b.active.documents.values, _
    rw [rows_values]
    intro chunk hmem
    obtain ⟨x,hx,rfl⟩ := List.mem_map.mp hmem
    obtain ⟨hdocument,hchunk⟩ := hvalid x hx
    obtain ⟨i,hi⟩ := List.mem_iff_getElem?.mp hchunk
    exact (hdocument.chunks i x.chunk hi).lines
  · change EmbeddingsAgree (EmbeddedCheckpointStore.rows b.active.documents.values) _
    rw [rows_values]
    obtain hnone | hall := hbuilt.uniform
    · left
      intro chunk hmem
      obtain ⟨x,hx,rfl⟩ := List.mem_map.mp hmem
      exact hnone x hx
    · right
      intro chunk hmem
      obtain ⟨x,hx,rfl⟩ := List.mem_map.mp hmem
      obtain ⟨hdocument,hchunk⟩ := hvalid x hx
      exact ⟨hall x hx,hbuilt.dimension x hx (hall x hx),hdocument.unitNorm hchunk (hall x hx)⟩

/-- The checkpoint file of a backend is read by the corpus loader, with all it holds, exactly if
its texts have not too many terms. -/
theorem checkpoint_legacy_readable_iff [ApproximateIndex β] (analysis : Analysis)
    (policy : EmbeddedMaintenancePolicy) {ds : List Delivery} (htyped : ∀ d ∈ ds, d.WellTyped)
    {parser : JsonParser} (hparser : EmbeddedCheckpointStore.ReadsMetadata parser)
    (idf : ℕ → ℕ → ℚ) (hash : HashOrder) {γ : Type} (readGraph : Bytes → Result γ)
    (order : OffsetSort) (walPosition : ℕ) {file : Bytes}
    (hsave : EmbeddedCheckpointStore.save idf hash
      (((start analysis policy : EmbeddedBackend β).deliverAll ds).snapshot walPosition) =
        .ok file) :
    (∃ c, CorpusFile.load parser idf readGraph order file = .ok c ∧
      EmbeddedCheckpointStore.Holds c
        ((start analysis policy : EmbeddedBackend β).deliverAll ds).active.documents.values) ↔
      (EmbeddedCheckpointStore.terms ((start analysis policy : EmbeddedBackend β).deliverAll
        ds).active.documents.values).card ≤ kMaxPostings := by
  have hdurable := durable_deliverAll (β := β) analysis policy htyped
  have hsavable : EmbeddedCheckpointStore.Savable
      (((start analysis policy : EmbeddedBackend β).deliverAll ds).snapshot walPosition) := by
    rw [← EmbeddedCheckpointStore.validateForSave_eq_ok]
    unfold EmbeddedCheckpointStore.save at hsave
    cases hcheck : EmbeddedCheckpointStore.validateForSave
        (((start analysis policy : EmbeddedBackend β).deliverAll ds).snapshot walPosition) with
    | error e =>
      rw [hcheck] at hsave
      cases hsave
    | ok u => rfl
  exact (hdurable.fitting hsavable).load_iff hparser idf hash readGraph order hsave

end EmbeddedBackend

section crowded

/-- Words of seven letters and digits, different for different numbers. -/
def crowdedWord (i : ℕ) : Bytes :=
  [hexDigit (i/36^5 % 36),hexDigit (i/36^4 % 36),hexDigit (i/36^3 % 36),hexDigit (i/36^2 % 36),
    hexDigit (i/36 % 36),hexDigit (i % 36),48]

def crowdedWords (n : ℕ) : List Bytes := (List.range n).map crowdedWord

/-- The words with a blank behind each. -/
def crowdedText (n : ℕ) : Bytes := (crowdedWords n).flatMap fun w => w ++ [32]

/-- A document of one chunk with `n` different terms. -/
def crowded (n : ℕ) : PreparedDocument where
  key := ascii ['k']
  title := []
  content := ascii ['x']
  metadata := ∅
  contentHash := documentContentHash [] (ascii ['x']) ∅
  chunkingFingerprint := ascii ['f']
  embeddingIdentity := []
  chunks := [⟨stableChunkKey (ascii ['k']) 1 1 (crowdedText n),0,crowdedText n,crowdedText n,[],1,1,
    []⟩]

lemma hexDigit_inj {a b : ℕ} (ha : a < 36) (hb : b < 36) (h : hexDigit a = hexDigit b) : a = b := by
  have hval := congrArg Fin.val h
  simp only [hexDigit,Fin.val_ofNat] at hval
  split_ifs at hval <;> omega

lemma plain_hexDigit {d : ℕ} (h : d < 36) :
    isAlnum (hexDigit d) = true ∧ toLower (hexDigit d) = hexDigit d := by
  have hval : (hexDigit d).val = if d < 10 then 48+d else 87+d := by
    simp only [hexDigit,Fin.val_ofNat]
    split_ifs <;> omega
  unfold isAlnum toLower
  rw [hval]
  constructor
  · rw [decide_eq_true_eq]
    split_ifs <;> omega
  · rw [if_neg]
    split_ifs <;> omega

lemma plain_crowdedWord (i : ℕ) : Tokenizer.Plain (crowdedWord i) := by
  have hlt : ∀ m : ℕ, m % 36 < 36 := fun m => Nat.mod_lt _ (by decide)
  refine ⟨?_,⟨48,by simp [crowdedWord],by decide⟩,by simp [crowdedWord]⟩
  intro c hc
  simp only [crowdedWord,List.mem_cons,List.not_mem_nil,or_false] at hc
  obtain rfl | rfl | rfl | rfl | rfl | rfl | rfl := hc
  · exact plain_hexDigit (hlt _)
  · exact plain_hexDigit (hlt _)
  · exact plain_hexDigit (hlt _)
  · exact plain_hexDigit (hlt _)
  · exact plain_hexDigit (hlt _)
  · exact plain_hexDigit (hlt _)
  · decide

lemma crowdedWord_inj {i j : ℕ} (hi : i < 36^6) (hj : j < 36^6)
    (h : crowdedWord i = crowdedWord j) :
    i = j := by
  have hlt : ∀ m : ℕ, m % 36 < 36 := fun m => Nat.mod_lt _ (by decide)
  simp only [crowdedWord,List.cons.injEq] at h
  obtain ⟨h5,h4,h3,h2,h1,h0,-⟩ := h
  have h5 := hexDigit_inj (hlt _) (hlt _) h5
  have h4 := hexDigit_inj (hlt _) (hlt _) h4
  have h3 := hexDigit_inj (hlt _) (hlt _) h3
  have h2 := hexDigit_inj (hlt _) (hlt _) h2
  have h1 := hexDigit_inj (hlt _) (hlt _) h1
  have h0 := hexDigit_inj (hlt _) (hlt _) h0
  omega

variable {n : ℕ}

lemma tokenize_crowdedText (n : ℕ) : Tokenizer.tokenize {} (crowdedText n) = crowdedWords n := by
  apply Tokenizer.tokenize_plain
  intro w hw
  obtain ⟨i,-,rfl⟩ := List.mem_map.mp hw
  exact plain_crowdedWord i

lemma length_crowdedText (n : ℕ) : (crowdedText n).length = 8*n := by
  have hword : ∀ w ∈ crowdedWords n, (w ++ [(32 : Byte)]).length = 8 := by
    intro w hw
    obtain ⟨i,-,rfl⟩ := List.mem_map.mp hw
    rfl
  rw [crowdedText,List.length_flatMap,List.map_congr_left hword,List.map_const']
  simp [crowdedWords,Nat.mul_comm]

lemma nodup_crowdedWords (h : n ≤ 36^6) : (crowdedWords n).Nodup := by
  apply List.Nodup.map_on _ List.nodup_range
  intro i hi j hj
  exact crowdedWord_inj ((List.mem_range.mp hi).trans_le h) ((List.mem_range.mp hj).trans_le h)

lemma valid_crowded (h : 0 < n) : ValidDocument (crowded n) := by
  have hne : crowdedText n ≠ [] := by
    intro hnil
    have := length_crowdedText n
    rw [hnil,List.length_nil] at this
    omega
  refine ⟨by simp [crowded,ascii],by simp [crowded,ascii],?_,rfl,by simp [crowded],?_,?_,?_⟩
  · change ascii ['x'] = normalizeSourceText (ascii ['x'])
    decide
  · intro i c hi
    cases i with
    | zero =>
      cases hi
      exact ⟨rfl,le_rfl,hne,rfl,rfl⟩
    | succ i => cases hi
  · refine ⟨0,Or.inl ?_⟩
    intro c hc
    rw [List.mem_singleton.mp hc]
  · rintro ⟨c,hc,hembedding⟩
    rw [List.mem_singleton.mp hc] at hembedding
    exact absurd rfl hembedding

/-- Into an empty backend the document is taken as it is. -/
lemma activate_crowded (analysis : Analysis) (policy : EmbeddedMaintenancePolicy) (h : 0 < n) :
    ∃ b : EmbeddedBackend Unit, (EmbeddedBackend.start analysis policy).activate (crowded n) 1 =
      (.ok (),b) ∧ b.active.documents = (∅ : Catalog).insert (crowded n).key ⟨1,crowded n⟩ ∧
        b.latestRevisions = (∅ : OrdMap Bytes ℕ).insert (crowded n).key 1 ∧
          b.active.number = 1 := by
  have hlive : liveChunks ((∅ : Catalog).insert (crowded n).key ⟨1,crowded n⟩).entries =
      chunksOf ((crowded n).key,⟨1,crowded n⟩) := List.append_nil _
  have hempty : ∀ x ∈ liveChunks ((∅ : Catalog).insert (crowded n).key ⟨1,crowded n⟩).entries,
      x.chunk.embedding = [] := by
    rw [hlive]
    intro x hx
    obtain ⟨c,hc,rfl⟩ := List.mem_map.mp hx
    rw [List.mem_singleton.mp hc]
  have hbuild : ∃ g : Generation Unit, buildGeneration analysis
      ((∅ : Catalog).insert (crowded n).key ⟨1,crowded n⟩) TieredDenseIndex.empty
      (insert (crowded n).key ∅) ∅ 1 = .ok g := by
    have hsame : ∀ e ∈ ((∅ : Catalog).insert (crowded n).key ⟨1,crowded n⟩).entries,
        e.2.prepared.chunkingFingerprint = ascii ['f'] ∧ e.2.prepared.embeddingIdentity = [] := by
      intro e he
      cases List.mem_singleton.mp he
      exact ⟨rfl,rfl⟩
    apply @buildGeneration_of Unit _ _ _ _ _ _ _ _ 0 hsame
    · rw [hlive]
      exact List.nodup_singleton _
    · rw [hlive]
      exact Nat.le_of_ble_eq_true rfl
    · exact Or.inl hempty
    · intro d _ _
      have hrows : deltaRows ((∅ : Catalog).insert (crowded n).key ⟨1,crowded n⟩)
          (TieredDenseIndex.empty : TieredDenseIndex Unit) (insert (crowded n).key ∅) = [] := by
        rw [deltaRows,Assembly.deltaRows,List.map_eq_nil_iff,List.filter_eq_nil_iff]
        intro x hx
        simp [hempty x hx]
      rw [hrows]
      exact ⟨_,TieredDenseIndex.withDelta_eq_ok.mpr ⟨Or.inl rfl,Finset.empty_subset _,by simp,
        ValidRows.nil _,rfl⟩⟩
  obtain ⟨g,hg⟩ := hbuild
  have hbuilt := buildGeneration_ok hg
  exact ⟨_,EmbeddedBackend.activate_of_build (valid_crowded h) (by decide) rfl hg,hbuilt.documents,
    rfl,hbuilt.number⟩

/-- The checkpoint of a backend with the document alone. -/
def crowdedCheckpoint (n : ℕ) : EmbeddedCheckpoint :=
  ⟨[⟨1,crowded n⟩],(∅ : OrdMap Bytes ℕ).insert (crowded n).key 1,1,0⟩

lemma savable_crowded (hmax : 8*n ≤ uint32Max) :
    EmbeddedCheckpointStore.Savable (crowdedCheckpoint n) := by
  have htext : (crowdedText n).length ≤ uint32Max := (length_crowdedText n).trans_le hmax
  have hkeyLength : (stableChunkKey (ascii ['k']) 1 1 (crowdedText n)).length ≤ uint32Max := by
    simp [stableChunkKey,hex64,ascii,uint32Max]
  have hhash : (documentContentHash [] (ascii ['x']) ∅).length ≤ uint32Max := by
    simp [documentContentHash,hex64,ascii,uint32Max]
  have hsmall : ∀ k ≤ 100, k ≤ uint32Max := by
    intro k hk
    simp only [uint32Max]
    omega
  have hfew : ∀ {k : ℕ}, k ≤ 1 → k ≤ kMaxDocuments := fun hk => hk.trans (by decide)
  refine ⟨hfew le_rfl,?_,List.nodup_singleton _,?_,List.nodup_singleton _,hfew le_rfl,?_⟩
  · intro entry hentry
    rw [List.mem_singleton.mp hentry]
    refine ⟨Nat.one_ne_zero,by simp [crowded,ascii],rfl,Nat.zero_le _,
      hsmall 1 (by decide),hsmall 0 (by decide),hsmall 1 (by decide),hhash,hsmall 1 (by decide),
      hsmall 0 (by decide),?_,?_⟩
    · intro e he
      cases he
    · intro c hc
      rw [List.mem_singleton.mp hc]
      exact ⟨stableChunkKey_ne_nil _ _ _ _,hkeyLength,htext,hsmall 0 (by decide),htext,
        Nat.zero_le _⟩
  · change 1 ≤ kMaxChunks
    decide
  · intro e he
    rw [List.mem_singleton.mp he]
    exact ⟨by simp [crowded,ascii],hsmall 1 (by decide),Nat.one_ne_zero⟩

lemma terms_crowded (h : n ≤ 36^6) :
    (EmbeddedCheckpointStore.terms (crowdedCheckpoint n).documents).card = n := by
  have htexts : EmbeddedCheckpointStore.corpusTexts (crowdedCheckpoint n).documents =
      [crowdedText n] := rfl
  rw [EmbeddedCheckpointStore.terms,htexts,Bm25Index.vocabulary,List.flatMap_singleton,
    tokenize_crowdedText,List.toFinset_card_of_nodup (nodup_crowdedWords h),crowdedWords,
    List.length_map,List.length_range]

lemma length_crowded_runtimeSection (n : ℕ) :
    (EmbeddedCheckpointStore.runtimeSection (crowdedCheckpoint n)).length ≤ 300 + 8*n := by
  have hrevisions : (encodeFrom EmbeddedCheckpointStore.putRevision 0
      ((∅ : OrdMap Bytes ℕ).insert [107] 1).entries).length = 13 := rfl
  have htext := length_crowdedText n
  simp [EmbeddedCheckpointStore.runtimeSection,crowdedCheckpoint,crowded,encodeFrom,
    EmbeddedCheckpointStore.putRuntimeDocument,EmbeddedCheckpointStore.putRuntimeChunk,
    hrevisions,htext,stableChunkKey,documentContentHash,hex64,ascii]
  omega

lemma length_crowded_file (h : n ≤ 36^6) (idf : ℕ → ℕ → ℚ) (order : HashOrder) :
    (EmbeddedCheckpointStore.container idf order (crowdedCheckpoint n)).serialize.length <
      256^8 := by
  have hmeta : EmbeddedCheckpointStore.metadataText.length ≤ 100 := by decide
  have htext := length_crowdedText n
  have hdocs : (EmbeddedCheckpointStore.documentsSection
      (crowdedCheckpoint n).documents).length ≤ 100 := by
    simp [EmbeddedCheckpointStore.documentsSection,EmbeddedCheckpointStore.corpusDocuments,
      crowdedCheckpoint,crowded,encodeFrom,putDocument,OrdMap.size,ascii]
  have hchunks : (EmbeddedCheckpointStore.chunksSection
      (crowdedCheckpoint n).documents).length ≤ 100 + 8*n := by
    simp [EmbeddedCheckpointStore.chunksSection,EmbeddedCheckpointStore.corpusChunks,
      EmbeddedCheckpointStore.ownedRows,crowdedCheckpoint,crowded,encodeFrom,putChunk,htext]
    omega
  have hembeddings : (EmbeddedCheckpointStore.embeddingsSection
      (crowdedCheckpoint n).documents).length ≤ 100 := by
    simp [EmbeddedCheckpointStore.embeddingsSection,EmbeddedCheckpointStore.corpusEmbeddings,
      EmbeddedCheckpointStore.rows,crowdedCheckpoint,crowded,encodeFrom,putEmbedding]
  have hruntime := length_crowded_runtimeSection n
  have hlexical := @Bm25Index.length_serialize_added_le order idf [crowdedText n]
  have hterms := terms_crowded h
  change (Bm25Index.vocabulary (Tokenizer.tokenize {}) [crowdedText n]).card = n at hterms
  rw [hterms,List.length_singleton] at hlexical
  change ((EmbeddedCheckpointStore.lexicalIndex idf
    (crowdedCheckpoint n).documents).serialize order).length ≤ _ at hlexical
  calc (EmbeddedCheckpointStore.container idf order (crowdedCheckpoint n)).serialize.length
    _ ≤ _ := EmbeddedCheckpointStore.length_container_le idf order (crowdedCheckpoint n)
    _ ≤ 1312+100+100+(100+8*n)+(32+8*1+(48+8*1)*n)+100+(300+8*n) := by gcongr
    _ < 256^8 := by omega

/-- A JSON library that knows the metadata of checkpoint files. -/
def metadataParser : JsonParser := fun text =>
  if text = EmbeddedCheckpointStore.metadataText then
    some (.object [(latin "runtime_checkpoint",.unsigned EmbeddedCheckpointStore.kRuntimeVersion)])
  else none

lemma readsMetadata_metadataParser : EmbeddedCheckpointStore.ReadsMetadata metadataParser :=
  if_pos rfl

/-- Hash maps that are iterated in the order of their keys. -/
def keyOrder : HashOrder := ⟨id,id,List.Perm.refl,List.Perm.refl⟩

/-- An analysis without inverse frequencies. -/
def plainAnalysis : Analysis := ⟨Tokenizer.tokenize {},fun _ _ => 0⟩

lemma snapshot_crowded (h : 0 < n) (policy : EmbeddedMaintenancePolicy) :
    ((EmbeddedBackend.start plainAnalysis policy : EmbeddedBackend Unit).deliverAll
      [.write (.activate (crowded n) 1)]).snapshot 0 = crowdedCheckpoint n := by
  obtain ⟨b,hb,hdocuments,hrevisions,hnumber⟩ := activate_crowded plainAnalysis policy h
  have hafter : (EmbeddedBackend.start plainAnalysis policy : EmbeddedBackend Unit).deliverAll
      [.write (.activate (crowded n) 1)] = b := congrArg Prod.snd hb
  rw [hafter,EmbeddedBackend.snapshot,hdocuments,hrevisions,hnumber]
  rfl

lemma welltyped_crowded (n : ℕ) : (crowded n).WellTyped := by
  intro c hc
  rw [List.mem_singleton.mp hc]
  exact ⟨Nat.le_of_ble_eq_true rfl,Nat.le_of_ble_eq_true rfl,fun x hx => by cases hx⟩

lemma save_crowded (h : n ≤ 36^6) (hmax : 8*n ≤ uint32Max) :
    EmbeddedCheckpointStore.save (fun _ _ => 0) keyOrder (crowdedCheckpoint n) =
      .ok (EmbeddedCheckpointStore.container (fun _ _ => 0) keyOrder
        (crowdedCheckpoint n)).serialize :=
  EmbeddedCheckpointStore.save_eq_ok
    (EmbeddedCheckpointStore.validateForSave_eq_ok.mpr (savable_crowded hmax))
    (length_crowded_file h (fun _ _ => 0) keyOrder)

lemma crowded_unreadable (hpos : 0 < n) (h : n ≤ 36^6) (hmax : 8*n ≤ uint32Max)
    (hmany : kMaxPostings < n) : ∃ file,
    EmbeddedCheckpointStore.save (fun _ _ => 0) keyOrder
      (((EmbeddedBackend.start plainAnalysis {} : EmbeddedBackend Unit).deliverAll
        [.write (.activate (crowded n) 1)]).snapshot 0) = .ok file ∧
      ¬∃ c, CorpusFile.load metadataParser (fun _ _ => 0)
        (fun _ => (fail .corruptIndex "no graph" : Result Unit)) Container.longestFirst file =
          .ok c ∧
          EmbeddedCheckpointStore.Holds c ((EmbeddedBackend.start plainAnalysis {} :
            EmbeddedBackend Unit).deliverAll
              [.write (.activate (crowded n) 1)]).active.documents.values := by
  have hsnapshot := snapshot_crowded hpos {}
  have htyped : ∀ d ∈ [Delivery.write (.activate (crowded n) 1)], d.WellTyped := by
    intro d hd
    rw [List.mem_singleton.mp hd]
    exact welltyped_crowded n
  have hdurable := EmbeddedBackend.durable_deliverAll (β := Unit) plainAnalysis {} htyped
  have hsavable := savable_crowded hmax
  have hsave := save_crowded h hmax
  rw [← hsnapshot] at hsavable hsave
  refine ⟨_,hsave,?_⟩
  intro hload
  have hcard := ((hdurable.fitting hsavable).load_iff readsMetadata_metadataParser (fun _ _ => 0)
    keyOrder (fun _ => (fail .corruptIndex "no graph" : Result Unit)) Container.longestFirst
    hsave).mp hload
  rw [hsnapshot,terms_crowded h] at hcard
  exact absurd hcard (not_le.mpr hmany)

/-- One term more than a posting table may have: the checkpoint is written, and the corpus loader
does not read it. -/
theorem crowded_checkpoint_unreadable : ∃ file,
    EmbeddedCheckpointStore.save (fun _ _ => 0) keyOrder
      (((EmbeddedBackend.start plainAnalysis {} : EmbeddedBackend Unit).deliverAll
        [.write (.activate (crowded 500000001) 1)]).snapshot 0) = .ok file ∧
      ¬∃ c, CorpusFile.load metadataParser (fun _ _ => 0)
        (fun _ => (fail .corruptIndex "no graph" : Result Unit)) Container.longestFirst file =
          .ok c ∧
          EmbeddedCheckpointStore.Holds c ((EmbeddedBackend.start plainAnalysis {} :
            EmbeddedBackend Unit).deliverAll
              [.write (.activate (crowded 500000001) 1)]).active.documents.values :=
  crowded_unreadable (by omega) (by omega) (by unfold uint32Max; omega)
    (by unfold kMaxPostings; omega)

/-- One term: the checkpoint is written and read. -/
theorem lone_checkpoint_readable : ∃ file,
    EmbeddedCheckpointStore.save (fun _ _ => 0) keyOrder
      (((EmbeddedBackend.start plainAnalysis {} : EmbeddedBackend Unit).deliverAll
        [.write (.activate (crowded 1) 1)]).snapshot 0) = .ok file ∧
      ∃ c, CorpusFile.load metadataParser (fun _ _ => 0)
        (fun _ => (fail .corruptIndex "no graph" : Result Unit)) Container.longestFirst file =
          .ok c ∧
          EmbeddedCheckpointStore.Holds c ((EmbeddedBackend.start plainAnalysis {} :
            EmbeddedBackend Unit).deliverAll
              [.write (.activate (crowded 1) 1)]).active.documents.values := by
  have hsnapshot := snapshot_crowded Nat.one_pos {}
  have htyped : ∀ d ∈ [Delivery.write (.activate (crowded 1) 1)], d.WellTyped := by
    intro d hd
    rw [List.mem_singleton.mp hd]
    exact welltyped_crowded 1
  have hsave := save_crowded (n := 1) (by norm_num) (by decide)
  rw [← hsnapshot] at hsave
  refine ⟨_,hsave,(EmbeddedBackend.checkpoint_legacy_readable_iff plainAnalysis {} htyped
    readsMetadata_metadataParser (fun _ _ => 0) keyOrder
    (fun _ => (fail .corruptIndex "no graph" : Result Unit)) Container.longestFirst 0 hsave).mpr ?_⟩
  have hdocuments := congrArg EmbeddedCheckpoint.documents hsnapshot
  change (EmbeddedCheckpointStore.terms (((EmbeddedBackend.start plainAnalysis {} :
    EmbeddedBackend Unit).deliverAll [.write (.activate (crowded 1) 1)]).snapshot 0).documents).card
      ≤ kMaxPostings
  rw [hdocuments,terms_crowded (by norm_num)]
  decide

end crowded
end RagRuntime.Backend
