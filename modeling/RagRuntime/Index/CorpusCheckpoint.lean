import RagRuntime.Base.Replace
import RagRuntime.Index.CorpusFile
import RagRuntime.Index.CorpusReplay

/-! A checkpoint that stops between replacing the snapshot and truncating the log: the old log
is replayed on a snapshot that already contains it. -/
namespace RagRuntime.Index
open RagRuntime.Base RagRuntime.Core RagRuntime.Text RagRuntime.Store

namespace Corpus

/-- The configuration in a file of `c`; a token measure is not persisted. What is not of its
chunking is in `settings`. -/
def fileConfig (settings : PersistedConfig) (c : Corpus) : PersistedConfig :=
  { settings with chunk := { c.chunkOptions with measureTokens := none } }

/-- The corpus that loading a snapshot of `c` gives. -/
def reloaded (c : Corpus) : Corpus :=
  { c with
    chunkOptions := { c.chunkOptions with measureTokens := none }
    wal := Wal.empty
    replaying := false
    epoch := 0 }

/-- A chunk that `load` takes for the row of its number. -/
def RowFits (c : Corpus) (row : Chunk × ℕ) : Prop :=
  row.1.id = row.2 ∧ row.1.doc < c.docs.length ∧ row.1.startLine ≤ row.1.endLine

instance (c : Corpus) : DecidablePred c.RowFits := fun row => by unfold RowFits; infer_instance

/-- `load` on a file that `c` has been saved to. Neither a save nor the calls before it test the
configuration. -/
def reload (settings : PersistedConfig) (c : Corpus) : Result Corpus :=
  if ¬CorpusFile.ConfigWithin (c.fileConfig settings) then
    fail .corruptIndex "invalid persisted configuration"
  else if c.docs.length > kMaxDocuments then fail .corruptIndex "docs count"
  else if c.docs.map Document.id ≠ List.range c.docs.length then fail .corruptIndex "doc"
  else if c.docs.any fun d => d.metadata.size > kMaxMetadataEntries then
    fail .corruptIndex "doc meta"
  else if c.chunks.length > kMaxChunks then fail .corruptIndex "chunk count"
  else if ¬∀ row ∈ c.chunks.zipIdx, c.RowFits row then fail .corruptIndex "chunk"
  else if ¬∀ id ∈ c.deletedDocs, id < c.docs.length then fail .corruptIndex "tomb id"
  else .ok c.reloaded

/-- What a live document is compared by. -/
def liveText (d : Document) : Bytes × Bytes := (d.uri,d.text)

def liveTexts (c : Corpus) : List (Bytes × Bytes) := c.liveDocuments.map liveText

/-- An upsert finds a document by its uri, unless that is empty. -/
def uriKey (p : Bytes × Bytes) : Option Bytes := if p.1 = [] then none else some p.1

/-- Ids are positions, tombstones are ids, and the format's limits are kept. -/
structure Valid (c : Corpus) : Prop where
  ids : c.docs.map Document.id = List.range c.docs.length
  deleted : ∀ i ∈ c.deletedDocs, i < c.docs.length
  documents : c.docs.length ≤ kMaxDocuments
  chunks : c.chunks.length ≤ kMaxChunks

/-- What `load` demands of the rows of a corpus. -/
structure Storable (c : Corpus) : Prop extends c.Valid where
  metadata : ∀ d ∈ c.docs, d.metadata.size ≤ kMaxMetadataEntries
  rows : ∀ row ∈ c.chunks.zipIdx, c.RowFits row

/-- The rows that are saved are taken; what is left is the configuration. -/
lemma Storable.reload {c : Corpus} (h : c.Storable) (settings : PersistedConfig) :
    c.reload settings = if CorpusFile.ConfigWithin (c.fileConfig settings) then .ok c.reloaded
      else fail .corruptIndex "invalid persisted configuration" := by
  have hmetadata : (c.docs.any fun d => d.metadata.size > kMaxMetadataEntries) = false := by
    rw [List.any_eq_false]
    intro d hd
    simpa using h.metadata d hd
  unfold Corpus.reload
  rw [if_neg (not_lt.mpr h.documents),if_neg (not_not.mpr h.ids),hmetadata,
    if_neg Bool.false_ne_true,if_neg (not_lt.mpr h.chunks),if_neg (not_not.mpr h.rows),
    if_neg (not_not.mpr h.deleted),ite_not]

def FieldsFit (uri text : Bytes) (metadata : Metadata) (title : Bytes) : Prop :=
  (uri.length ≤ uint32Max ∧ text.length ≤ uint32Max ∧ title.length ≤ uint32Max ∧
    metadata.size ≤ kMaxMetadataEntries) ∧
    ∀ e ∈ metadata.entries, e.1.length ≤ uint32Max ∧ e.2.length ≤ uint32Max

lemma checkLimits_eq_ok (c : Corpus) (uri text : Bytes) (metadata : Metadata) (title : Bytes) :
    c.checkLimits uri text metadata title = .ok () ↔
      c.docs.length < kMaxDocuments ∧ FieldsFit uri text metadata title := by
  have hmax : kMaxDocuments ≤ uint32Max := by decide
  unfold checkLimits FieldsFit
  split_ifs with h1 h2 h3
  · simp only [fail,reduceCtorEq,false_iff]
    omega
  · simp only [fail,reduceCtorEq,false_iff]
    omega
  · simp only [fail,reduceCtorEq,false_iff]
    simp only [List.any_eq_true,decide_eq_true_eq] at h3
    obtain ⟨e,he,hlarge⟩ := h3
    rintro ⟨-,-,hentries⟩
    have := hentries e he
    omega
  · simp only [List.any_eq_true,decide_eq_true_eq,not_exists,not_and] at h3
    refine ⟨fun _ => ⟨by omega,by omega,fun e he => ?_⟩,fun _ => rfl⟩
    have := h3 e he
    omega

lemma Valid.of_logRecord {c : Corpus} (h : c.Valid) (rec : WalRecord) (outcome : WriteOutcome) :
    (c.logRecord rec outcome).2.Valid := by
  unfold logRecord
  split_ifs
  · exact ⟨h.ids,h.deleted,h.documents,h.chunks⟩
  · exact h

lemma Valid.tombstone {c : Corpus} (h : c.Valid) {id : ℕ} (hid : id < c.docs.length) :
    (c.tombstone id).Valid := by
  refine ⟨h.ids,?_,h.documents,h.chunks⟩
  intro i hi
  obtain rfl | hi := Finset.mem_insert.mp hi
  · exact hid
  · exact h.deleted i hi

@[simp] lemma numbered_length (first : ℕ) (chunks : List Chunk) :
    (numbered first chunks).length = chunks.length := by simp [numbered]

lemma chunkLimitExceeded_eq_false {c : Corpus} (h : c.Valid) (text : Bytes) :
    c.chunkLimitExceeded text = false ↔
      c.chunks.length + (c.newChunks text).length ≤ kMaxChunks := by
  have hchunks := h.chunks
  have hmax : kMaxChunks ≤ uint32Max := by decide
  simp only [chunkLimitExceeded,decide_eq_false_iff_not]
  omega

lemma Valid.storeDocument {c : Corpus} (h : c.Valid) (uri : Bytes) {text : Bytes}
    (metadata : Metadata) (title : Bytes) (hroom : c.docs.length < kMaxDocuments)
    (hlimit : c.chunkLimitExceeded text = false) :
    (c.storeDocument uri text metadata title).Valid := by
  refine ⟨?_,?_,?_,?_⟩
  · simp [Corpus.storeDocument,h.ids,List.range_succ]
  · intro i hi
    have := h.deleted i hi
    simp only [Corpus.storeDocument,List.length_append,List.length_singleton]
    omega
  · simp only [Corpus.storeDocument,List.length_append,List.length_singleton]
    omega
  · rw [chunkLimitExceeded_eq_false h] at hlimit
    simpa [Corpus.storeDocument] using hlimit

lemma getElem?_numbered {first : ℕ} {chunks : List Chunk} {i : ℕ} {ch : Chunk}
    (h : (numbered first chunks)[i]? = some ch) :
    ∃ ch' ∈ chunks, ch = { ch' with id := first+i } := by
  unfold numbered at h
  rw [List.getElem?_map,List.getElem?_zipIdx,Option.map_map,Option.map_eq_some_iff] at h
  obtain ⟨ch',hch',rfl⟩ := h
  exact ⟨ch',List.mem_of_getElem? hch',rfl⟩

lemma Storable.withWal {c : Corpus} (h : c.Storable) (w : Wal) :
    ({ c with wal := w } : Corpus).Storable :=
  ⟨⟨h.ids,h.deleted,h.documents,h.chunks⟩,h.metadata,h.rows⟩

lemma Storable.tombstone {c : Corpus} (h : c.Storable) {id : ℕ} (hid : id < c.docs.length) :
    (c.tombstone id).Storable :=
  ⟨h.toValid.tombstone hid,h.metadata,h.rows⟩

/-- The rows of a document that the limits let in. -/
lemma Storable.storeDocument {c : Corpus} (h : c.Storable) {uri text : Bytes}
    {metadata : Metadata} {title : Bytes} (hroom : c.docs.length < kMaxDocuments)
    (hfit : FieldsFit uri text metadata title) (hlimit : c.chunkLimitExceeded text = false) :
    (c.storeDocument uri text metadata title).Storable := by
  refine ⟨h.toValid.storeDocument uri metadata title hroom hlimit,?_,?_⟩
  · intro d hd
    obtain hd | hd := List.mem_append.mp hd
    · exact h.metadata d hd
    · rw [List.mem_singleton.mp hd]
      exact hfit.1.2.2.2
  · rintro ⟨ch,i⟩ hrow
    have hdocs : (c.storeDocument uri text metadata title).docs.length = c.docs.length+1 :=
      List.length_append
    have hch := List.mem_zipIdx_iff_getElem?.mp hrow
    change (c.chunks ++ numbered c.chunks.length (c.newChunks text))[i]? = some ch at hch
    unfold RowFits
    rw [hdocs]
    by_cases hi : i < c.chunks.length
    · rw [List.getElem?_append_left hi] at hch
      obtain ⟨hid,hdoc,hlines⟩ := h.rows (ch,i) (List.mem_zipIdx_iff_getElem?.mpr hch)
      exact ⟨hid,Nat.lt_succ_of_lt hdoc,hlines⟩
    · rw [List.getElem?_append_right (not_lt.mp hi)] at hch
      obtain ⟨ch',hch',rfl⟩ := getElem?_numbered hch
      have hlength : text.length < 2^32 := Nat.lt_succ_of_le hfit.1.2.1
      refine ⟨Nat.add_sub_cancel' (not_lt.mp hi),?_,
        chunkDocument_lines_of_length _ hlength ch' hch'⟩
      exact Nat.lt_succ_of_le (chunkDocument_text ch' hch').2.le

/-- Removing what a search finds is erasing the first match among what is kept. -/
lemma filter_and_ne_eq_eraseP {l : List Document} (hids : (l.map Document.id).Nodup)
    {p q : Document → Bool} {x : Document} (hx : (l.find? fun d => p d && q d) = some x) :
    (l.filter fun d => p d && decide (d.id ≠ x.id)) = (l.filter p).eraseP q := by
  induction l with
  | nil => cases hx
  | cons d l ih =>
    obtain ⟨hnot,hids⟩ := List.nodup_cons.mp hids
    by_cases hd : p d && q d
    · rw [List.find?_cons_of_pos (p := fun d => p d && q d) hd] at hx
      cases hx
      simp only [Bool.and_eq_true] at hd
      have hrest : (l.filter fun e => p e && decide (e.id ≠ x.id)) = l.filter p := by
        apply List.filter_congr
        intro e he
        have : e.id ≠ x.id := fun heq => hnot (List.mem_map.mpr ⟨e,he,heq⟩)
        simp [this]
      rw [List.filter_cons_of_neg (by simp),hrest,List.filter_cons_of_pos hd.1,
        List.eraseP_cons_of_pos hd.2]
    · rw [List.find?_cons_of_neg (p := fun d => p d && q d) hd] at hx
      have hne : d.id ≠ x.id := by
        intro heq
        exact hnot (heq ▸ List.mem_map_of_mem (List.mem_of_find?_eq_some hx))
      by_cases hp : p d
      · have hq : ¬q d := fun hq => hd (by simp [hp,hq])
        rw [List.filter_cons_of_pos (by simp [hp,hne]),List.filter_cons_of_pos hp,
          List.eraseP_cons_of_neg hq,ih hids hx]
      · rw [List.filter_cons_of_neg (by simp [hp]),List.filter_cons_of_neg hp,ih hids hx]

lemma Valid.ids_nodup {c : Corpus} (h : c.Valid) : (c.docs.map Document.id).Nodup := by
  rw [h.ids]
  exact List.nodup_range

lemma Valid.id_lt {c : Corpus} (h : c.Valid) {d : Document} (hd : d ∈ c.docs) :
    d.id < c.docs.length := by
  have hmem := List.mem_map_of_mem (f := Document.id) hd
  rw [h.ids] at hmem
  exact List.mem_range.mp hmem

/-- The removal before a replayed add takes the oldest live document of the uri away. -/
lemma removeExisting_replayed {c : Corpus} (h : c.Valid) (hflag : c.replaying = true)
    {uri : Bytes} (huri : uri ≠ []) (outcome : WriteOutcome) :
    let d := c.removeExisting uri outcome
    d.Valid ∧ d.replaying = true ∧ d.docs = c.docs ∧ d.chunks = c.chunks ∧
      d.chunkOptions = c.chunkOptions ∧ c.deletedDocs ⊆ d.deletedDocs ∧
      d.liveTexts = c.liveTexts.eraseP fun p => uriKey p = some uri := by
  have hkey : (fun p : Bytes × Bytes => decide (uriKey p = some uri)) ∘ liveText =
      fun d => decide (d.uri = uri) := by
    funext d
    simp only [Function.comp_apply,uriKey,liveText]
    by_cases hd : d.uri = []
    · simp [hd,Ne.symm huri]
    · simp [hd]
  simp only [removeExisting,findByUriLocked,if_neg huri]
  cases hfind : c.docs.find? fun d => d.id ∉ c.deletedDocs ∧ d.uri = uri with
  | none =>
    have hno : c.liveTexts.eraseP (fun p => uriKey p = some uri) = c.liveTexts := by
      rw [liveTexts,List.eraseP_map,hkey,List.eraseP_of_forall_not]
      intro d hd
      obtain ⟨hd,hlive⟩ := List.mem_filter.mp hd
      have hnot := List.find?_eq_none.mp hfind d hd
      simp_all
    exact ⟨h,hflag,rfl,rfl,rfl,Finset.Subset.refl _,hno.symm⟩
  | some x =>
    have hx := List.find?_some hfind
    have hmem := List.mem_of_find?_eq_some hfind
    have hlt := h.id_lt hmem
    have hdocs := h.documents
    have hid : (UInt32.ofNat x.id).toNat = x.id := by
      simp only [kMaxDocuments] at hdocs
      exact UInt32.toNat_ofNat_of_lt' (by simp only [UInt32.size]; omega)
    simp only [decide_eq_true_eq] at hx
    have hvalid : ¬(x.id ≥ c.docs.length ∨ x.id ∈ c.deletedDocs) :=
      not_or.mpr ⟨not_le.mpr hlt,hx.1⟩
    simp only [Option.map_some,removeDocumentLocked,hid,if_neg hvalid,logRecord_replaying hflag]
    refine ⟨h.tombstone hlt,hflag,rfl,rfl,rfl,Finset.subset_insert _ _,?_⟩
    have herase := filter_and_ne_eq_eraseP (p := fun d => decide (d.id ∉ c.deletedDocs))
      (q := fun d => decide (d.uri = uri)) h.ids_nodup
      (by simpa only [Bool.decide_and] using hfind)
    rw [liveTexts,liveTexts,List.eraseP_map,hkey,liveDocuments,liveDocuments,← herase]
    congr 1
    apply List.filter_congr
    intro d _
    simp [tombstone,Bool.and_comm]

/-- Every call keeps ids positions, and tombstones are never lifted. -/
lemma storeDocument_live {c : Corpus} (h : c.Valid) (uri text : Bytes) (metadata : Metadata)
    (title : Bytes) :
    (c.storeDocument uri text metadata title).liveTexts = c.liveTexts ++ [(uri,text)] := by
  have hnew : c.docs.length ∉ c.deletedDocs := fun hmem => lt_irrefl _ (h.deleted _ hmem)
  simp only [liveTexts,liveDocuments,storeDocument,List.filter_append,List.map_append]
  congr 1
  simp [hnew,liveText]

/-- There is room for one more document of `text`. -/
def Room (c : Corpus) (text : Bytes) : Prop :=
  c.docs.length < kMaxDocuments ∧ c.chunks.length + (c.newChunks text).length ≤ kMaxChunks

/-- A corpus that is replaying a log, and how far it has got from `c`. -/
structure Grown (c d : Corpus) (documents chunks : ℕ) : Prop where
  valid : d.Valid
  replaying : d.replaying = true
  docs : d.docs.length = c.docs.length + documents
  chunks : d.chunks.length = c.chunks.length + chunks
  chunkOptions : d.chunkOptions = c.chunkOptions
  deleted : c.deletedDocs ⊆ d.deletedDocs

lemma admitted_add {c : Corpus} (h : c.Valid) (hflag : c.replaying = true) {rec : WalRecord}
    (hfit : FieldsFit rec.uri rec.text rec.metadata rec.title) :
    (c.Room rec.text → c.addDocumentLocked rec.uri rec.text rec.metadata rec.title .synced =
      (.ok c.docs.length,c.storeDocument rec.uri rec.text rec.metadata rec.title)) ∧
    (¬c.Room rec.text → ∃ e d,
      c.addDocumentLocked rec.uri rec.text rec.metadata rec.title .synced = (.error e,d)) := by
  have hlimits := checkLimits_eq_ok c rec.uri rec.text rec.metadata rec.title
  have hlimit := chunkLimitExceeded_eq_false h rec.text
  unfold addDocumentLocked Room
  cases hok : c.checkLimits rec.uri rec.text rec.metadata rec.title with
  | error e =>
    rw [hok] at hlimits
    refine ⟨fun hroom => ?_,fun _ => ⟨e,c,rfl⟩⟩
    cases hlimits.mpr ⟨hroom.1,hfit⟩
  | ok u =>
    have hdocs := (hlimits.mp hok).1
    simp only [logRecord_replaying hflag]
    constructor
    · rintro ⟨-,hchunks⟩
      rw [hlimit.mpr hchunks]
      rfl
    · intro hroom
      have hexceeded : c.chunkLimitExceeded rec.text = true := by
        rw [← Bool.not_eq_false]
        exact fun hfalse => hroom ⟨hdocs,hlimit.mp hfalse⟩
      rw [hexceeded]
      exact ⟨_,_,rfl⟩

/-- A replayed add on a corpus with room puts its document in the place of the oldest live one
of its uri; without room it fails. -/
lemma replayRecord_add {c : Corpus} (h : c.Valid) (hflag : c.replaying = true) {rec : WalRecord}
    (hop : rec.op = .addDocument) (hfit : FieldsFit rec.uri rec.text rec.metadata rec.title) :
    (c.Room rec.text → ∃ d, c.replayRecord rec = .ok d ∧
      c.Grown d 1 (c.newChunks rec.text).length ∧
        d.liveTexts = replaceOldest uriKey c.liveTexts (rec.uri,rec.text)) ∧
    (¬c.Room rec.text → ∃ e, c.replayRecord rec = .error e) := by
  obtain ⟨d,hd,hvalid,hflag',hdocs,hchunks,hopts,hsub,hlive⟩ : ∃ d,
      c.removeExisting rec.uri .synced = d ∧ d.Valid ∧ d.replaying = true ∧ d.docs = c.docs ∧
        d.chunks = c.chunks ∧ d.chunkOptions = c.chunkOptions ∧ c.deletedDocs ⊆ d.deletedDocs ∧
          d.liveTexts ++ [(rec.uri,rec.text)] =
            replaceOldest uriKey c.liveTexts (rec.uri,rec.text) := by
    by_cases huri : rec.uri = []
    · refine ⟨c,by simp [removeExisting,findByUriLocked,huri],h,hflag,rfl,rfl,rfl,
        Finset.Subset.refl _,?_⟩
      simp [replaceOldest,uriKey,huri]
    · obtain ⟨h1,h2,h3,h4,h5,h6,h7⟩ := removeExisting_replayed h hflag huri .synced
      refine ⟨_,rfl,h1,h2,h3,h4,h5,h6,?_⟩
      rw [h7]
      simp [replaceOldest,uriKey,huri]
  have hroom : d.Room rec.text ↔ c.Room rec.text := by
    simp only [Room,newChunks,hdocs,hchunks,hopts]
  obtain ⟨hyes,hno⟩ := admitted_add hvalid hflag' hfit
  simp only [replayRecord,hop,hd]
  constructor
  · intro hr
    rw [hyes (hroom.mpr hr)]
    refine ⟨_,rfl,⟨?_,hflag',?_,?_,hopts,hsub⟩,?_⟩
    · exact hvalid.storeDocument _ _ _ (hroom.mpr hr).1
        ((chunkLimitExceeded_eq_false hvalid _).mpr (hroom.mpr hr).2)
    · simp [storeDocument,hdocs]
    · simp [storeDocument,hchunks,newChunks,hdocs,hopts]
    · rw [storeDocument_live hvalid,hlive]
  · intro hr
    obtain ⟨e,d',he⟩ := hno (fun hr' => hr (hroom.mp hr'))
    rw [he]
    exact ⟨e,rfl⟩

/-- The adds of a log, as what is compared of them. -/
def added (records : List WalRecord) : List (Bytes × Bytes) :=
  (records.filter fun r => r.op = .addDocument).map fun r => (r.uri,r.text)

/-- How many chunks the adds of a log make. -/
def addedChunks (opts : ChunkOptions) (records : List WalRecord) : ℕ :=
  ((added records).map fun p => (chunkDocument 0 p.2 opts).length).sum

/-- All adds of a log fit on top of `c`. -/
def RoomFor (c : Corpus) (records : List WalRecord) : Prop :=
  c.docs.length + (added records).length ≤ kMaxDocuments ∧
    c.chunks.length + addedChunks c.chunkOptions records ≤ kMaxChunks

/-- The records of a log that replay on a corpus of which they are part: their removals have
been made, and their adds passed the checks. -/
def Contained (c : Corpus) (records : List WalRecord) : Prop :=
  ∀ r ∈ records, match r.op with
    | .addDocument => FieldsFit r.uri r.text r.metadata r.title
    | .removeDocument => r.docId.toNat ∈ c.deletedDocs

lemma Contained.mono {c d : Corpus} {records : List WalRecord} (h : Contained c records)
    (hsub : c.deletedDocs ⊆ d.deletedDocs) : Contained d records := by
  intro r hr
  have := h r hr
  cases hop : r.op with
  | addDocument => simpa [hop] using this
  | removeDocument => exact hsub (by simpa [hop] using this)

/-- Replaying contained records: removals do nothing, adds replace the oldest of their uri. -/
lemma replayRecords_contained {records : List WalRecord} {c : Corpus} (h : c.Valid)
    (hflag : c.replaying = true) (hin : Contained c records) :
    (c.RoomFor records → ∃ d, replayRecords c records = .ok d ∧
      d.liveTexts = (added records).foldl (replaceOldest uriKey) c.liveTexts) ∧
    (¬c.RoomFor records → ∃ e, replayRecords c records = .error e) := by
  induction records generalizing c with
  | nil =>
    have hroom : c.RoomFor [] := ⟨h.documents,h.chunks⟩
    exact ⟨fun _ => ⟨c,rfl,rfl⟩,fun hno => absurd hroom hno⟩
  | cons r records ih =>
    have hhead := hin r (by simp)
    have htail : Contained c records := fun a ha => hin a (by simp [ha])
    rw [replayRecords,List.foldlM_cons]
    cases hop : r.op with
    | removeDocument =>
      have hnoop : c.replayRecord r = .ok c := by
        have : r.docId.toNat ∈ c.deletedDocs := by simpa [hop] using hhead
        simp [replayRecord,hop,removeDocumentLocked,this]
      have hskip : added (r::records) = added records := by simp [added,hop]
      rw [hnoop]
      simp only [RoomFor,addedChunks,hskip]
      exact ih h hflag htail
    | addDocument =>
      have hadded : added (r::records) = (r.uri,r.text)::added records := by simp [added,hop]
      have hlen : (c.newChunks r.text).length = (chunkDocument 0 r.text c.chunkOptions).length :=
        chunkDocument_length _ _ _ _
      obtain ⟨hyes,hno⟩ := replayRecord_add h hflag hop (by simpa [hop] using hhead)
      by_cases hroom : c.Room r.text
      · obtain ⟨d,hd,hgrown,hlive⟩ := hyes hroom
        have hiff : d.RoomFor records ↔ c.RoomFor (r::records) := by
          simp only [RoomFor,addedChunks,hadded,hgrown.docs,hgrown.chunks,hgrown.chunkOptions,
            hlen,List.length_cons,List.map_cons,List.sum_cons]
          omega
        obtain ⟨ihyes,ihno⟩ := ih hgrown.valid hgrown.replaying (htail.mono hgrown.deleted)
        rw [hd,hadded,List.foldl_cons,← hlive,← hiff]
        exact ⟨ihyes,ihno⟩
      · obtain ⟨e,he⟩ := hno hroom
        refine ⟨fun hall => absurd ?_ hroom,fun _ => ⟨e,by rw [he]; rfl⟩⟩
        simp only [RoomFor,addedChunks,hadded,List.length_cons,List.map_cons,
          List.sum_cons] at hall
        rw [Room,hlen]
        omega

lemma Same.liveTexts {a b : Corpus} (h : a.Same b) : a.liveTexts = b.liveTexts := by
  simp only [Corpus.liveTexts,liveDocuments,h.docs,h.deletedDocs]

/-- A log whose replay on the snapshot that already contains it changes no live document: the
snapshot is loaded, the log has no add without a uri, the queue of live documents of every added uri
is not empty and is rotated onto itself, and the limits leave room for every add once more. -/
structure Idempotent (settings : PersistedConfig) (c : Corpus) (records : List WalRecord) :
    Prop where
  config : CorpusFile.ConfigWithin (c.fileConfig settings)
  count : records.length ≤ kMaxWalRecords
  room : c.reloaded.RoomFor records
  named : ofKey uriKey none (added records) = []
  rotates : ∀ uri, ofKey uriKey (some uri) (added records) ≠ [] →
    ofKey uriKey (some uri) c.liveTexts ≠ [] ∧
      ((ofKey uriKey (some uri) c.liveTexts ++ ofKey uriKey (some uri) (added records)).drop
        (ofKey uriKey (some uri) (added records)).length).Perm
          (ofKey uriKey (some uri) c.liveTexts)

/-- What opening the old log on the new snapshot gives. -/
lemma openWal_contained {build : Corpus → Result Unit} (hbuild : ∀ c, build c = .ok ())
    {c : Corpus} (h : c.Valid) {file : Option Bytes} {records : List WalRecord}
    (hl : ∀ r ∈ records, r.Loggable)
    (hfile : file.getD [] = frames kRecordMagic (records.map Wal.encode))
    (hin : Contained c records) :
    (∃ t, openWal build c.reloaded file = .ok t ∧ t.liveTexts.Perm c.liveTexts) ↔
      records.length ≤ kMaxWalRecords ∧ c.reloaded.RoomFor records ∧
        ((added records).foldl (replaceOldest uriKey) c.liveTexts).Perm c.liveTexts := by
  by_cases hcount : records.length ≤ kMaxWalRecords
  · have hwhole : WholeLog file records := ⟨hl,hcount,hfile⟩
    have hvalid : ({ c.reloaded with replaying := true } : Corpus).Valid :=
      ⟨h.ids,h.deleted,h.documents,h.chunks⟩
    obtain ⟨hyes,hno⟩ := replayRecords_contained hvalid rfl (hin.mono (Finset.Subset.refl _))
    by_cases hroom : c.reloaded.RoomFor records
    · obtain ⟨d,hd,hlive⟩ := hyes hroom
      obtain ⟨t,ht,hsame⟩ := openWal_wholeLog hbuild hwhole hd
      have htexts : t.liveTexts = (added records).foldl (replaceOldest uriKey) c.liveTexts :=
        hsame.liveTexts.trans hlive
      constructor
      · rintro ⟨t',ht',hperm⟩
        rw [ht] at ht'
        cases ht'
        exact ⟨hcount,hroom,htexts ▸ hperm⟩
      · rintro ⟨-,-,hperm⟩
        exact ⟨t,ht,htexts ▸ hperm⟩
    · obtain ⟨e,he⟩ := hno hroom
      have hne : records ≠ [] := by
        rintro rfl
        cases he
      refine ⟨?_,fun hr => absurd hr.2.1 hroom⟩
      rintro ⟨t,ht,-⟩
      simp only [openWal,hwhole.replay,bind,Except.bind,if_neg hne,he] at ht
      cases ht
  · refine ⟨?_,fun hr => absurd hr.1 hcount⟩
    rintro ⟨t,ht,-⟩
    obtain ⟨e,he⟩ := Wal.replay_frames_full hl (not_le.mp hcount)
    have hreplay : Wal.replay file = .error e := by
      cases file with
      | some blob => rw [← he,← hfile]; rfl
      | none =>
        rw [← hfile] at he
        exact he
    rw [openWal,hreplay] at ht
    cases ht

/-- What the invariant says of a corpus and its log, which was empty when it was attached. -/
structure Logged (c : Corpus) : Prop where
  storable : c.Storable
  attached : c.Attached
  log : ∃ records, (∀ r ∈ records, r.Loggable) ∧
    c.wal.content = frames kRecordMagic (records.map Wal.encode) ∧ Contained c records

lemma Logged.append {c d : Corpus} (h : c.Logged) (hvalid : d.Storable) (hattached : d.Attached)
    (hsub : c.deletedDocs ⊆ d.deletedDocs) {rec : WalRecord} (hrec : rec.Loggable)
    (hcontent : d.wal.content = c.wal.content ++ Wal.recordFrame rec)
    (hin : Contained d [rec]) : d.Logged := by
  obtain ⟨records,hl,hc,hold⟩ := h.log
  refine ⟨hvalid,hattached,records ++ [rec],?_,?_,?_⟩
  · intro r hr
    obtain hr | hr := List.mem_append.mp hr
    · exact hl r hr
    · rw [List.mem_singleton.mp hr]
      exact hrec
  · rw [hcontent,hc,List.map_append,frames_append]
    simp [Wal.recordFrame]
  · intro r hr
    obtain hr | hr := List.mem_append.mp hr
    · exact hold.mono hsub r hr
    · exact hin r hr

lemma Logged.remove {c : Corpus} (h : c.Logged) (id : UInt32) :
    (c.removeDocumentLocked id .synced).2.Logged := by
  unfold removeDocumentLocked
  split_ifs with hid
  · exact h
  · obtain ⟨-,w,hlog,hopen,hcontent⟩ | ⟨hlarge,-⟩ := logRecord_attached h.attached (removeRecord id)
    · simp only [hlog]
      have hstorable : ({ c with wal := w } : Corpus).Storable := h.storable.withWal w
      refine h.append (hstorable.tombstone (by simpa using (not_or.mp hid).1)) ⟨hopen,h.attached.2⟩
        (Finset.subset_insert _ _) (removeRecord_loggable id) hcontent ?_
      intro r hr
      rw [List.mem_singleton.mp hr]
      exact Finset.mem_insert_self _ _
    · exact absurd (removeRecord_loggable id).1 (not_le.mpr hlarge)

lemma Logged.removeExisting {c : Corpus} (h : c.Logged) (uri : Bytes) :
    (c.removeExisting uri .synced).Logged := by
  unfold Corpus.removeExisting
  cases c.findByUriLocked uri with
  | none => exact h
  | some id => exact h.remove _

lemma Logged.add {c : Corpus} (h : c.Logged) (uri text : Bytes) (metadata : Metadata)
    (title : Bytes) : (c.addDocumentLocked uri text metadata title .synced).2.Logged := by
  unfold addDocumentLocked
  cases hlimits : c.checkLimits uri text metadata title with
  | error e => exact h
  | ok u =>
    obtain ⟨hdocs,hfit⟩ := (checkLimits_eq_ok _ _ _ _ _).mp hlimits
    obtain ⟨hlen,w,hlog,hopen,hcontent⟩ | ⟨hlarge,e,hlog⟩ :=
      logRecord_attached h.attached (addRecord uri text metadata title)
    · have hstorable : ({ c with wal := w } : Corpus).Storable := h.storable.withWal w
      have hrec : (addRecord uri text metadata title).Loggable :=
        ⟨hlen,checkLimits_metadata hlimits⟩
      simp only [hlog]
      split_ifs with hlimit
      · refine h.append hstorable ⟨hopen,h.attached.2⟩ (Finset.Subset.refl _) hrec hcontent ?_
        intro r hr
        rw [List.mem_singleton.mp hr]
        exact hfit
      · refine h.append (hstorable.storeDocument hdocs hfit (by simpa using hlimit))
          ⟨hopen,h.attached.2⟩ (Finset.Subset.refl _) hrec hcontent ?_
        intro r hr
        rw [List.mem_singleton.mp hr]
        exact hfit
    · simp only [hlog]
      exact h

lemma step_logged {c d : Corpus} {e : Call} (h : c.Logged) (hs : c.step e = some d) :
    d.Logged := by
  cases hs
  cases e with
  | add uri text metadata title => exact h.add uri text metadata title
  | upsert uri text metadata title => exact (h.removeExisting uri).add uri text metadata title
  | remove id => exact h.remove id

lemma freshAttached_storable : freshAttached.Storable :=
  ⟨⟨rfl,by simp [freshAttached,fresh],by decide,by decide⟩,fun d hd => absurd hd List.not_mem_nil,
    fun row hrow => absurd hrow List.not_mem_nil⟩

/-- A document is added and replaced. -/
def replacedOnce : List Call :=
  [.add (ascii ['u']) (ascii ['a']) ∅ [],.upsert (ascii ['u']) (ascii ['b']) ∅ []]

/-- A document is added and removed. -/
def addedAndRemoved : List Call := [.add (ascii ['u']) (ascii ['a']) ∅ [],.remove 0]

end Corpus
end RagRuntime.Index
