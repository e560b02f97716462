import Mathlib.Data.Finset.Lattice.Lemmas
import RagRuntime.Backend.EmbeddedBackend
import RagRuntime.Store.Format

/-! The checks around a checkpoint file: those made before it is written, and those its rows meet
again when it is loaded. -/
namespace RagRuntime.Backend
open RagRuntime.Base RagRuntime.Core RagRuntime.Store RagRuntime.Dense

namespace EmbeddedCheckpointStore

def validString (value : Bytes) : Bool := value.length ≤ uint32Max

/-- The document keys, the chunk keys and the number of chunks seen so far. -/
structure SaveTally where
  documents : Finset Bytes
  chunkKeys : Finset Bytes
  chunks : ℕ

def saveChunk (keys : Finset Bytes) (chunk : PreparedChunk) : Result (Finset Bytes) :=
  if chunk.key = [] ∨ chunk.key ∈ keys ∨ validString chunk.key = false ∨
      validString chunk.text = false ∨ validString chunk.context = false ∨
      validString chunk.indexedText = false ∨ chunk.embedding.length > kMaxVectorDimension then
    fail .invalidArgument "checkpoint chunk field is invalid"
  else .ok (insert chunk.key keys)

def saveDocument (revisions : OrdMap Bytes ℕ) (tally : SaveTally) (entry : ActiveDocument) :
    Result SaveTally :=
  let document := entry.prepared
  if entry.revision = 0 ∨ document.key = [] ∨ document.key ∈ tally.documents then
    fail .invalidArgument "checkpoint document identity or revision is invalid"
  else if revisions.find? document.key ≠ some entry.revision then
    fail .invalidArgument "checkpoint active revision is missing from revision catalog"
  else if document.metadata.size > kMaxMetadataEntries ∨ validString document.key = false ∨
      validString document.title = false ∨ validString document.content = false ∨
      validString document.contentHash = false ∨ validString document.chunkingFingerprint = false ∨
      validString document.embeddingIdentity = false then
    fail .invalidArgument "checkpoint document field exceeds limit"
  else if document.chunks.length > kMaxChunks - tally.chunks then
    fail .invalidArgument "checkpoint chunk limit exceeded"
  else if document.metadata.entries.any fun e =>
      validString e.1 = false ∨ validString e.2 = false then
    fail .invalidArgument "checkpoint metadata field exceeds limit"
  else do
    let keys ← document.chunks.foldlM saveChunk tally.chunkKeys
    return ⟨insert document.key tally.documents,keys,tally.chunks + document.chunks.length⟩

def validateForSave (checkpoint : EmbeddedCheckpoint) : Result Unit :=
  if checkpoint.documents.length > kMaxDocuments then
    fail .invalidArgument "checkpoint document limit exceeded"
  else do
    let _ ← checkpoint.documents.foldlM (saveDocument checkpoint.revisions) ⟨∅,∅,0⟩
    if checkpoint.revisions.size > kMaxDocuments then
      fail .invalidArgument "checkpoint revision limit exceeded"
    else if checkpoint.revisions.entries.any fun e =>
        e.1 = [] ∨ validString e.1 = false ∨ e.2 = 0 then
      fail .invalidArgument "checkpoint revision row is invalid"
    else .ok ()

/-- The chunks of a checkpoint in the order of the file. -/
def rows (documents : List ActiveDocument) : List PreparedChunk :=
  documents.flatMap fun entry => entry.prepared.chunks

/-- The embeddings agree in their dimension and are normalised; `dimension` is the one seen so
far. -/
def loadEmbeddings : List PreparedChunk → ℕ → Result Unit
  | [],_ => .ok ()
  | chunk::rest,dimension =>
    if chunk.embedding.length > kMaxVectorDimension ∨
        dimension ≠ 0 ∧ chunk.embedding.length ≠ dimension then
      fail .corruptIndex "checkpoint embedding dimension is invalid"
    else if chunk.embedding ≠ [] ∧ |dot chunk.embedding chunk.embedding - 1| > 1/1000 then
      fail .corruptIndex "checkpoint embedding is not normalized"
    else loadEmbeddings rest (if chunk.embedding.length ≠ 0 then chunk.embedding.length
      else dimension)

/-- The checks of `load` that the rows of a written checkpoint can fail. -/
def loadRows (checkpoint : EmbeddedCheckpoint) : Result Unit :=
  if (rows checkpoint.documents).any fun chunk => chunk.startLine > chunk.endLine then
    fail .corruptIndex "checkpoint chunk row is invalid"
  else do
    loadEmbeddings (rows checkpoint.documents) 0
    if checkpoint.documents.any fun entry =>
        entry.prepared.chunks.map PreparedChunk.ordinal ≠
          List.range entry.prepared.chunks.length then
      fail .corruptIndex "checkpoint runtime chunk is invalid"
    else .ok ()

/-- The revision catalog names every active document with its revision. -/
def loadRevisions (checkpoint : EmbeddedCheckpoint) : Result Unit :=
  if checkpoint.documents.any fun entry => entry.revision = 0 then
    fail .corruptIndex "checkpoint runtime document is invalid"
  else if checkpoint.revisions.entries.any fun e => e.1 = [] ∨ e.2 = 0 then
    fail .corruptIndex "checkpoint revision row is invalid"
  else if checkpoint.documents.any fun entry =>
      checkpoint.revisions.find? entry.prepared.key ≠ some entry.revision then
    fail .corruptIndex "checkpoint active revision is inconsistent"
  else .ok ()

/-- The checkpoint of a file that holds these records. -/
def readBack (checkpoint : EmbeddedCheckpoint) : Result EmbeddedCheckpoint := do
  loadRows checkpoint
  loadRevisions checkpoint
  return checkpoint

/-- What a chunk is asked before it is written. -/
structure SavableChunk (chunk : PreparedChunk) : Prop where
  key : chunk.key ≠ []
  keySize : chunk.key.length ≤ uint32Max
  text : chunk.text.length ≤ uint32Max
  context : chunk.context.length ≤ uint32Max
  indexed : chunk.indexedText.length ≤ uint32Max
  dimension : chunk.embedding.length ≤ kMaxVectorDimension

structure SavableDocument (revisions : OrdMap Bytes ℕ) (entry : ActiveDocument) : Prop where
  revision : entry.revision ≠ 0
  key : entry.prepared.key ≠ []
  catalog : revisions.find? entry.prepared.key = some entry.revision
  metadataSize : entry.prepared.metadata.size ≤ kMaxMetadataEntries
  keySize : entry.prepared.key.length ≤ uint32Max
  title : entry.prepared.title.length ≤ uint32Max
  content : entry.prepared.content.length ≤ uint32Max
  contentHash : entry.prepared.contentHash.length ≤ uint32Max
  fingerprint : entry.prepared.chunkingFingerprint.length ≤ uint32Max
  identity : entry.prepared.embeddingIdentity.length ≤ uint32Max
  metadata : ∀ e ∈ entry.prepared.metadata.entries, e.1.length ≤ uint32Max ∧ e.2.length ≤ uint32Max
  chunks : ∀ chunk ∈ entry.prepared.chunks, SavableChunk chunk

/-- Checkpoints that are written. -/
structure Savable (checkpoint : EmbeddedCheckpoint) : Prop where
  documentCount : checkpoint.documents.length ≤ kMaxDocuments
  documents : ∀ entry ∈ checkpoint.documents, SavableDocument checkpoint.revisions entry
  keys : (checkpoint.documents.map fun entry => entry.prepared.key).Nodup
  chunkCount : (rows checkpoint.documents).length ≤ kMaxChunks
  chunkKeys : ((rows checkpoint.documents).map PreparedChunk.key).Nodup
  revisionCount : checkpoint.revisions.size ≤ kMaxDocuments
  revisions : ∀ e ∈ checkpoint.revisions.entries, e.1 ≠ [] ∧ e.1.length ≤ uint32Max ∧ e.2 ≠ 0

@[simp] lemma validString_eq_false {value : Bytes} :
    validString value = false ↔ uint32Max < value.length := by simp [validString]

lemma saveChunk_eq_ok {keys keys' : Finset Bytes} {chunk : PreparedChunk} :
    saveChunk keys chunk = .ok keys' ↔
      SavableChunk chunk ∧ chunk.key ∉ keys ∧ keys' = insert chunk.key keys := by
  unfold saveChunk
  split_ifs with h
  · simp only [fail,reduceCtorEq,false_iff]
    rintro ⟨hc,hnot,-⟩
    simp only [validString_eq_false] at h
    obtain h | h | h | h | h | h | h := h
    · exact hc.key h
    · exact hnot h
    · exact absurd hc.keySize (not_le.mpr h)
    · exact absurd hc.text (not_le.mpr h)
    · exact absurd hc.context (not_le.mpr h)
    · exact absurd hc.indexed (not_le.mpr h)
    · exact absurd hc.dimension (not_le.mpr h)
  · simp only [validString_eq_false,not_or,not_lt] at h
    obtain ⟨h1,h2,h3,h4,h5,h6,h7⟩ := h
    simp only [Except.ok.injEq]
    constructor
    · rintro rfl
      exact ⟨⟨h1,h3,h4,h5,h6,h7⟩,h2,rfl⟩
    · rintro ⟨-,-,rfl⟩
      rfl

lemma saveChunks_eq_ok {chunks : List PreparedChunk} {keys keys' : Finset Bytes} :
    chunks.foldlM saveChunk keys = .ok keys' ↔
      (∀ chunk ∈ chunks, SavableChunk chunk) ∧ (chunks.map PreparedChunk.key).Nodup ∧
      (∀ chunk ∈ chunks, chunk.key ∉ keys) ∧
      keys' = keys ∪ (chunks.map PreparedChunk.key).toFinset := by
  induction chunks generalizing keys with
  | nil =>
    simp only [List.foldlM_nil,pure,Except.pure,Except.ok.injEq,List.map_nil,List.toFinset_nil,
      Finset.union_empty]
    simp [eq_comm]
  | cons chunk rest ih =>
    have hstep : List.foldlM saveChunk keys (chunk::rest) = .ok keys' ↔
        ∃ next, saveChunk keys chunk = .ok next ∧ rest.foldlM saveChunk next = .ok keys' := by
      rw [List.foldlM_cons]
      cases saveChunk keys chunk <;> simp [bind,Except.bind]
    rw [hstep]
    constructor
    · rintro ⟨next,hchunk,hrest⟩
      obtain ⟨hsavable,hnew,rfl⟩ := saveChunk_eq_ok.mp hchunk
      obtain ⟨hall,hnodup,hfresh,rfl⟩ := ih.mp hrest
      refine ⟨List.forall_mem_cons.mpr ⟨hsavable,hall⟩,?_,?_,?_⟩
      · rw [List.map_cons,List.nodup_cons]
        refine ⟨?_,hnodup⟩
        intro hmem
        obtain ⟨other,hother,hkey⟩ := List.mem_map.mp hmem
        exact hfresh other hother (hkey ▸ Finset.mem_insert_self _ _)
      · intro other hother
        obtain rfl | hother := List.mem_cons.mp hother
        · exact hnew
        · exact fun hmem => hfresh other hother (Finset.mem_insert_of_mem hmem)
      · ext key
        simp
    · rintro ⟨hall,hnodup,hfresh,rfl⟩
      obtain ⟨hsavable,hall⟩ := List.forall_mem_cons.mp hall
      have hnew := hfresh chunk List.mem_cons_self
      have hfresh := fun other hother => hfresh other (List.mem_cons_of_mem _ hother)
      obtain ⟨hnot,hnodup⟩ := List.nodup_cons.mp hnodup
      refine ⟨_,saveChunk_eq_ok.mpr ⟨hsavable,hnew,rfl⟩,ih.mpr ⟨hall,hnodup,?_,?_⟩⟩
      · intro other hother hmem
        obtain hkey | hmem := Finset.mem_insert.mp hmem
        · exact hnot (hkey ▸ List.mem_map_of_mem hother)
        · exact hfresh other hother hmem
      · ext key
        simp

lemma saveDocument_eq_ok {revisions : OrdMap Bytes ℕ} {tally tally' : SaveTally}
    {entry : ActiveDocument} (h : tally.chunks ≤ kMaxChunks) :
    saveDocument revisions tally entry = .ok tally' ↔
      SavableDocument revisions entry ∧ entry.prepared.key ∉ tally.documents ∧
      tally.chunks + entry.prepared.chunks.length ≤ kMaxChunks ∧
      (entry.prepared.chunks.map PreparedChunk.key).Nodup ∧
      (∀ chunk ∈ entry.prepared.chunks, chunk.key ∉ tally.chunkKeys) ∧
      tally' = ⟨insert entry.prepared.key tally.documents,
        tally.chunkKeys ∪ (entry.prepared.chunks.map PreparedChunk.key).toFinset,
        tally.chunks + entry.prepared.chunks.length⟩ := by
  unfold saveDocument
  dsimp only
  split_ifs with h1 h2 h3 h4 h5
  · simp only [fail,reduceCtorEq,false_iff]
    rintro ⟨hd,hnew,-⟩
    obtain h1 | h1 | h1 := h1
    · exact hd.revision h1
    · exact hd.key h1
    · exact hnew h1
  · simp only [fail,reduceCtorEq,false_iff]
    exact fun hd => h2 hd.1.catalog
  · simp only [fail,reduceCtorEq,false_iff]
    rintro ⟨hd,-⟩
    simp only [validString_eq_false] at h3
    obtain h3 | h3 | h3 | h3 | h3 | h3 | h3 := h3
    · exact absurd hd.metadataSize (not_le.mpr h3)
    · exact absurd hd.keySize (not_le.mpr h3)
    · exact absurd hd.title (not_le.mpr h3)
    · exact absurd hd.content (not_le.mpr h3)
    · exact absurd hd.contentHash (not_le.mpr h3)
    · exact absurd hd.fingerprint (not_le.mpr h3)
    · exact absurd hd.identity (not_le.mpr h3)
  · simp only [fail,reduceCtorEq,false_iff]
    rintro ⟨-,-,hcount,-⟩
    omega
  · simp only [fail,reduceCtorEq,false_iff]
    rintro ⟨hd,-⟩
    simp only [List.any_eq_true,validString_eq_false,decide_eq_true_eq] at h5
    obtain ⟨e,hmem,he⟩ := h5
    obtain ⟨hkey,hvalue⟩ := hd.metadata e hmem
    omega
  · obtain ⟨hrevision,hkey,hnew⟩ : entry.revision ≠ 0 ∧ entry.prepared.key ≠ [] ∧
        entry.prepared.key ∉ tally.documents := by simpa [not_or] using h1
    simp only [validString_eq_false,not_or,not_lt] at h3
    obtain ⟨hsize,hkeySize,htitle,hcontent,hhash,hfingerprint,hidentity⟩ := h3
    have hmetadata : ∀ e ∈ entry.prepared.metadata.entries,
        e.1.length ≤ uint32Max ∧ e.2.length ≤ uint32Max := by
      simpa [not_or] using h5
    constructor
    · intro hok
      cases hchunks : entry.prepared.chunks.foldlM saveChunk tally.chunkKeys with
      | error e =>
        rw [hchunks] at hok
        cases hok
      | ok keys =>
        rw [hchunks] at hok
        cases hok
        obtain ⟨hall,hnodup,hfresh,rfl⟩ := saveChunks_eq_ok.mp hchunks
        exact ⟨⟨hrevision,hkey,not_ne_iff.mp h2,hsize,hkeySize,htitle,hcontent,hhash,hfingerprint,
          hidentity,hmetadata,hall⟩,hnew,by omega,hnodup,hfresh,rfl⟩
    · rintro ⟨hd,-,-,hnodup,hfresh,rfl⟩
      rw [saveChunks_eq_ok.mpr ⟨hd.chunks,hnodup,hfresh,rfl⟩]
      rfl

lemma saveDocuments_eq_ok (revisions : OrdMap Bytes ℕ) (entries : List ActiveDocument)
    {tally : SaveTally} (h : tally.chunks ≤ kMaxChunks) :
    (∃ tally', entries.foldlM (saveDocument revisions) tally = .ok tally') ↔
      (∀ entry ∈ entries, SavableDocument revisions entry) ∧
      (entries.map fun entry => entry.prepared.key).Nodup ∧
      (∀ entry ∈ entries, entry.prepared.key ∉ tally.documents) ∧
      tally.chunks + (rows entries).length ≤ kMaxChunks ∧
      ((rows entries).map PreparedChunk.key).Nodup ∧
      ∀ chunk ∈ rows entries, chunk.key ∉ tally.chunkKeys := by
  induction entries generalizing tally with
  | nil => simpa [rows,pure,Except.pure] using h
  | cons entry rest ih =>
    have hstep : (∃ tally', (entry::rest).foldlM (saveDocument revisions) tally = .ok tally') ↔
        ∃ next, saveDocument revisions tally entry = .ok next ∧
          ∃ tally', rest.foldlM (saveDocument revisions) next = .ok tally' := by
      rw [List.foldlM_cons]
      cases saveDocument revisions tally entry <;> simp [bind,Except.bind]
    have hrows : rows (entry::rest) = entry.prepared.chunks ++ rows rest := rfl
    rw [hstep,hrows,List.map_append,List.length_append,List.nodup_append']
    constructor
    · rintro ⟨next,hentry,hrest⟩
      obtain ⟨hd,hnew,hcount,hnodup,hfresh,rfl⟩ := (saveDocument_eq_ok h).mp hentry
      obtain ⟨hall,hkeys,hunseen,hcounts,hrestKeys,hrestFresh⟩ := (ih hcount).mp hrest
      refine ⟨List.forall_mem_cons.mpr ⟨hd,hall⟩,?_,?_,?_,⟨hnodup,hrestKeys,?_⟩,?_⟩
      · rw [List.map_cons,List.nodup_cons]
        refine ⟨?_,hkeys⟩
        intro hmem
        obtain ⟨other,hother,hkey⟩ := List.mem_map.mp hmem
        exact hunseen other hother (hkey ▸ Finset.mem_insert_self _ _)
      · intro other hother
        obtain rfl | hother := List.mem_cons.mp hother
        · exact hnew
        · exact fun hmem => hunseen other hother (Finset.mem_insert_of_mem hmem)
      · dsimp only at hcounts
        omega
      · intro key hkey hmem
        obtain ⟨chunk,hchunk,rfl⟩ := List.mem_map.mp hmem
        exact hrestFresh chunk hchunk
          (Finset.mem_union_right _ (List.mem_toFinset.mpr hkey))
      · intro chunk hchunk
        obtain hchunk | hchunk := List.mem_append.mp hchunk
        · exact hfresh chunk hchunk
        · exact fun hmem => hrestFresh chunk hchunk (Finset.mem_union_left _ hmem)
    · rintro ⟨hall,hkeys,hunseen,hcounts,⟨hnodup,hrestKeys,hdisjoint⟩,hfresh⟩
      obtain ⟨hd,hall⟩ := List.forall_mem_cons.mp hall
      obtain ⟨hnot,hkeys⟩ := List.nodup_cons.mp hkeys
      have hcount : tally.chunks + entry.prepared.chunks.length ≤ kMaxChunks := by omega
      refine ⟨_,(saveDocument_eq_ok h).mpr ⟨hd,hunseen entry List.mem_cons_self,hcount,hnodup,
        fun chunk hchunk => hfresh chunk (List.mem_append_left _ hchunk),rfl⟩,
        (ih hcount).mpr ⟨hall,hkeys,?_,?_,hrestKeys,?_⟩⟩
      · intro other hother hmem
        obtain hkey | hmem := Finset.mem_insert.mp hmem
        · exact hnot (List.mem_map.mpr ⟨other,hother,hkey⟩)
        · exact hunseen other (List.mem_cons_of_mem _ hother) hmem
      · dsimp only
        omega
      · intro chunk hchunk hmem
        obtain hmem | hmem := Finset.mem_union.mp hmem
        · exact hfresh chunk (List.mem_append_right _ hchunk) hmem
        · exact hdisjoint (List.mem_toFinset.mp hmem) (List.mem_map_of_mem hchunk)

/-- Exactly these checkpoints are written. -/
theorem validateForSave_eq_ok {checkpoint : EmbeddedCheckpoint} :
    validateForSave checkpoint = .ok () ↔ Savable checkpoint := by
  have hempty : (⟨∅,∅,0⟩ : SaveTally).chunks ≤ kMaxChunks := Nat.zero_le _
  have hfold := saveDocuments_eq_ok checkpoint.revisions checkpoint.documents hempty
  unfold validateForSave
  by_cases hcount : checkpoint.documents.length > kMaxDocuments
  · rw [if_pos hcount]
    simp only [fail,reduceCtorEq,false_iff]
    exact fun h => absurd h.documentCount (not_le.mpr hcount)
  rw [if_neg hcount]
  cases hdocuments : checkpoint.documents.foldlM (saveDocument checkpoint.revisions) ⟨∅,∅,0⟩ with
  | error e =>
    change Except.error e = Except.ok () ↔ _
    simp only [reduceCtorEq,false_iff]
    intro h
    have := hfold.mpr ⟨h.documents,h.keys,by simp,by simpa using h.chunkCount,h.chunkKeys,by simp⟩
    rw [hdocuments] at this
    exact absurd this (by simp)
  | ok tally =>
    obtain ⟨hall,hkeys,-,hchunks,hchunkKeys,-⟩ := hfold.mp ⟨tally,hdocuments⟩
    change (if checkpoint.revisions.size > kMaxDocuments then _ else if _ then _ else _) = _ ↔ _
    split_ifs with hsize hrow
    · simp only [fail,reduceCtorEq,false_iff]
      exact fun h => absurd h.revisionCount (not_le.mpr hsize)
    · simp only [fail,reduceCtorEq,false_iff]
      intro h
      simp only [List.any_eq_true,validString_eq_false,decide_eq_true_eq] at hrow
      obtain ⟨e,hmem,he⟩ := hrow
      obtain ⟨hkey,hlength,hzero⟩ := h.revisions e hmem
      obtain he | he | he := he
      · exact hkey he
      · omega
      · exact hzero he
    · refine ⟨fun _ => ⟨not_lt.mp hcount,hall,hkeys,by simpa using hchunks,hchunkKeys,
        not_lt.mp hsize,?_⟩,fun _ => rfl⟩
      simpa [not_or] using hrow

lemma loadEmbeddings_empty {chunks : List PreparedChunk} (h : ∀ c ∈ chunks, c.embedding = []) :
    loadEmbeddings chunks 0 = .ok () := by
  induction chunks with
  | nil => rfl
  | cons chunk rest ih =>
    have hchunk := h chunk List.mem_cons_self
    simp [loadEmbeddings,hchunk,ih fun c hc => h c (List.mem_cons_of_mem _ hc)]

lemma loadEmbeddings_of {chunks : List PreparedChunk} {dimension : ℕ}
    (h : ∀ c ∈ chunks, c.embedding.length ≤ kMaxVectorDimension ∧ c.embedding ≠ [] ∧
      c.embedding.length = dimension ∧ UnitNorm c.embedding) {seen : ℕ}
    (hseen : seen = 0 ∨ seen = dimension) : loadEmbeddings chunks seen = .ok () := by
  induction chunks generalizing seen with
  | nil => rfl
  | cons chunk rest ih =>
    obtain ⟨hmax,hne,hdimension,hunit⟩ := h chunk List.mem_cons_self
    have hzero : chunk.embedding.length ≠ 0 := fun h0 => hne (List.length_eq_zero_iff.mp h0)
    rw [loadEmbeddings,if_neg (by omega),if_neg (fun hn => not_lt.mpr hunit hn.2),if_pos hzero]
    exact ih (fun c hc => h c (List.mem_cons_of_mem _ hc)) (Or.inr hdimension)

/-- Rows that are in order pass the checks. -/
lemma loadRows_of {checkpoint : EmbeddedCheckpoint} (dimension : ℕ)
    (hlines : ∀ c ∈ rows checkpoint.documents, c.startLine ≤ c.endLine)
    (hmax : ∀ c ∈ rows checkpoint.documents, c.embedding.length ≤ kMaxVectorDimension)
    (hagree : EmbeddingsAgree (rows checkpoint.documents) dimension)
    (hordinals : ∀ entry ∈ checkpoint.documents,
      entry.prepared.chunks.map PreparedChunk.ordinal = List.range entry.prepared.chunks.length) :
    loadRows checkpoint = .ok () := by
  have hembeddings : loadEmbeddings (rows checkpoint.documents) 0 = .ok () := by
    obtain hempty | hall := hagree
    · exact loadEmbeddings_empty hempty
    · exact loadEmbeddings_of (fun c hc => ⟨hmax c hc,hall c hc⟩) (Or.inl rfl)
  unfold loadRows
  rw [if_neg (by simpa using hlines),hembeddings]
  change (if _ then _ else _) = _
  rw [if_neg (by simpa using hordinals)]

lemma readBack_eq_ok {checkpoint loaded : EmbeddedCheckpoint} :
    readBack checkpoint = .ok loaded ↔
      loadRows checkpoint = .ok () ∧ loadRevisions checkpoint = .ok () ∧ loaded = checkpoint := by
  unfold readBack
  cases loadRows checkpoint <;> cases loadRevisions checkpoint <;>
    simp [bind,Except.bind,pure,Except.pure,eq_comm]

lemma loadRevisions_eq_ok {checkpoint : EmbeddedCheckpoint} :
    loadRevisions checkpoint = .ok () ↔
      (∀ entry ∈ checkpoint.documents, entry.revision ≠ 0) ∧
      (∀ e ∈ checkpoint.revisions.entries, e.1 ≠ [] ∧ e.2 ≠ 0) ∧
      ∀ entry ∈ checkpoint.documents,
        checkpoint.revisions.find? entry.prepared.key = some entry.revision := by
  unfold loadRevisions
  split_ifs with hzero hrow hactive
  · simp only [List.any_eq_true,decide_eq_true_eq] at hzero
    simp only [reduceCtorEq,false_iff,fail]
    rintro ⟨h,-⟩
    obtain ⟨entry,hmem,h0⟩ := hzero
    exact h entry hmem h0
  · simp only [List.any_eq_true,decide_eq_true_eq] at hrow
    simp only [reduceCtorEq,false_iff,fail]
    rintro ⟨-,h,-⟩
    obtain ⟨e,hmem,he⟩ := hrow
    exact he.elim (h e hmem).1 (h e hmem).2
  · simp only [List.any_eq_true,decide_eq_true_eq] at hactive
    simp only [reduceCtorEq,false_iff,fail]
    rintro ⟨-,-,h⟩
    obtain ⟨entry,hmem,he⟩ := hactive
    exact he (h entry hmem)
  · simpa [not_or] using ⟨by simpa using hzero,by simpa [not_or] using hrow,by simpa using hactive⟩

end EmbeddedCheckpointStore
end RagRuntime.Backend
