import RagRuntime.Index.Tombstones

/-! What an `upsert_document` that fails leaves in the corpus and in its log. -/
namespace RagRuntime.Index
open RagRuntime.Base RagRuntime.Core RagRuntime.Text RagRuntime.Store RagRuntime.Backend
  RagRuntime.Lexical

namespace Corpus

/-- The records whose append a call of `logRecord` acknowledges. -/
def acknowledged (c : Corpus) (rec : WalRecord) (outcome : WriteOutcome) : List WalRecord :=
  if c.wal.isOpen = true ∧ c.replaying = false ∧ (c.wal.append rec outcome).1.isOk = true then [rec]
  else []

def acknowledgedAdd (c : Corpus) (uri text : Bytes) (metadata : Metadata) (title : Bytes)
    (outcome : WriteOutcome) : List WalRecord :=
  match c.checkLimits uri text metadata title with
  | .error _ => []
  | .ok () => c.acknowledged (addRecord uri text metadata title) outcome

def acknowledgedRemoval (c : Corpus) (id : UInt32) (outcome : WriteOutcome) : List WalRecord :=
  if id.toNat ≥ c.docs.length ∨ id.toNat ∈ c.deletedDocs then []
  else c.acknowledged (removeRecord id) outcome

def acknowledgedExisting (c : Corpus) (uri : Bytes) (removal : WriteOutcome) : List WalRecord :=
  match c.findByUriLocked uri with
  | none => []
  | some id => c.acknowledgedRemoval (UInt32.ofNat id) removal

/-- The records whose append an upsert acknowledges, in their order. -/
def acknowledgedUpsert (c : Corpus) (uri text : Bytes) (metadata : Metadata) (title : Bytes)
    (removal addition : WriteOutcome) : List WalRecord :=
  c.acknowledgedExisting uri removal ++
    (c.removeExisting uri removal).acknowledgedAdd uri text metadata title addition

/-- The log takes the record and the append is acknowledged. -/
def Takes (rec : WalRecord) (outcome : WriteOutcome) : Prop :=
  (Wal.encode rec).length ≤ kMaxWalRecordBytes ∧ outcome = .synced

/-- A document is live under the uri, and its removal is logged where there is a log. -/
def Supersedes (c : Corpus) (uri : Bytes) (removal : WriteOutcome) : Prop :=
  ∃ id, c.findByUriLocked uri = some id ∧
    ¬ ((UInt32.ofNat id).toNat ≥ c.docs.length ∨ (UInt32.ofNat id).toNat ∈ c.deletedDocs) ∧
      (c.Attached → removal = .synced)

/-- The addition is acknowledged by the log. -/
def LogsAddition (c : Corpus) (uri text : Bytes) (metadata : Metadata) (title : Bytes)
    (addition : WriteOutcome) : Prop :=
  c.checkLimits uri text metadata title = .ok () ∧ c.Attached ∧
    Takes (addRecord uri text metadata title) addition

/-- The limits admit the document, and the log takes it where there is one. -/
def Admits (c : Corpus) (uri text : Bytes) (metadata : Metadata) (title : Bytes)
    (addition : WriteOutcome) : Prop :=
  c.checkLimits uri text metadata title = .ok () ∧
    (c.Attached → Takes (addRecord uri text metadata title) addition) ∧
      c.chunkLimitExceeded text = false

variable {c d : Corpus} {uri text : Bytes} {metadata : Metadata} {title : Bytes}
  {removal addition outcome : WriteOutcome} {rec : WalRecord}

/-- The sizes of records in the log. -/
def frameBytes (recs : List WalRecord) : ℕ := (recs.map fun rec => (Wal.recordFrame rec).length).sum

/-- An open log takes a record and counts its frame, or refuses it and counts nothing. -/
lemma append_cases {w : Wal} (hopen : w.isOpen = true) (rec : WalRecord) (outcome : WriteOutcome) :
    ∃ next : Wal, next.isOpen = true ∧
      (Takes rec outcome ∧ w.append rec outcome = (.ok (),next) ∧
          next.bytes = w.bytes + (Wal.recordFrame rec).length ∨
        ¬ Takes rec outcome ∧ (∃ e, w.append rec outcome = (.error e,next)) ∧
          next.bytes = w.bytes) := by
  unfold Wal.append Takes
  rw [if_neg (by simp [hopen])]
  have hlimit : kMaxWalRecordBytes ≤ uint32Max := by decide
  split_ifs with hlarge
  · exact ⟨w,hopen,Or.inr ⟨fun h => by omega,⟨_,rfl⟩,rfl⟩⟩
  · cases outcome with
    | synced =>
      exact ⟨⟨some (w.content ++ Wal.recordFrame rec),w.isOpen,
        w.bytes + (Wal.recordFrame rec).length⟩,hopen,Or.inl ⟨⟨by omega,rfl⟩,rfl,rfl⟩⟩
    | unsynced =>
      exact ⟨{ w with file := some (w.content ++ Wal.recordFrame rec) },hopen,
        Or.inr ⟨fun h => by simp at h,⟨_,rfl⟩,rfl⟩⟩
    | cut n reason =>
      exact ⟨{ w with file := some (w.content ++ (Wal.recordFrame rec).take n) },hopen,
        Or.inr ⟨fun h => by simp at h,⟨_,rfl⟩,rfl⟩⟩

/-- What a call of `logRecord` does, with what it acknowledges. -/
lemma logRecord_outcome (c : Corpus) (rec : WalRecord) (outcome : WriteOutcome) :
    ∃ w : Wal, w.isOpen = c.wal.isOpen ∧
      w.bytes = c.wal.bytes + frameBytes (c.acknowledged rec outcome) ∧
      ((c.Attached → Takes rec outcome) ∧ c.logRecord rec outcome = (.ok (),{ c with wal := w }) ∨
        (c.Attached ∧ ¬ Takes rec outcome) ∧
          ∃ e, c.logRecord rec outcome = (.error e,{ c with wal := w })) := by
  unfold logRecord acknowledged
  by_cases hattached : c.Attached
  · have hlogs : c.wal.isOpen = true ∧ c.replaying = false := hattached
    rw [if_pos hlogs]
    obtain ⟨w,hopen,⟨htakes,happend,hbytes⟩ | ⟨htakes,⟨e,happend⟩,hbytes⟩⟩ :=
      append_cases hlogs.1 rec outcome
    · refine ⟨w,hopen.trans hlogs.1.symm,?_,Or.inl ⟨fun _ => htakes,by rw [happend]⟩⟩
      rw [hbytes,happend,if_pos ⟨hlogs.1,hlogs.2,rfl⟩]
      simp [frameBytes]
    · refine ⟨w,hopen.trans hlogs.1.symm,?_,Or.inr ⟨⟨hattached,htakes⟩,e,by rw [happend]⟩⟩
      rw [hbytes,happend,if_neg (fun h => by cases h.2.2)]
      rfl
  · have hlogs : ¬ (c.wal.isOpen = true ∧ c.replaying = false) := hattached
    rw [if_neg hlogs,if_neg (fun h => hlogs ⟨h.1,h.2.1⟩)]
    exact ⟨c.wal,rfl,rfl,Or.inl ⟨fun h => absurd h hattached,rfl⟩⟩

lemma acknowledged_eq_nil_iff :
    c.acknowledged rec outcome = [] ↔ ¬ (c.Attached ∧ Takes rec outcome) := by
  unfold acknowledged
  by_cases hattached : c.Attached
  · obtain ⟨hopen,hreplaying⟩ : c.wal.isOpen = true ∧ c.replaying = false := hattached
    obtain ⟨w,-,⟨htakes,happend,-⟩ | ⟨htakes,⟨e,happend⟩,-⟩⟩ := append_cases hopen rec outcome
    · rw [if_pos ⟨hopen,hreplaying,by rw [happend]; rfl⟩]
      simp [htakes,Attached,hopen,hreplaying]
    · rw [if_neg (fun h => by rw [happend] at h; cases h.2.2)]
      simp [htakes]
  · rw [if_neg (fun h => hattached ⟨h.1,h.2.1⟩)]
    simp [hattached]

/-- A failing add has changed nothing but the log. -/
lemma addDocumentLocked_outcome (c : Corpus) (uri text : Bytes) (metadata : Metadata)
    (title : Bytes) (addition : WriteOutcome) :
    let called := c.addDocumentLocked uri text metadata title addition
    (called.1.isOk = true ↔ c.Admits uri text metadata title addition) ∧
      (called.1.isOk = false → ∃ w : Wal, called.2 = { c with wal := w }) ∧
      called.2.wal.bytes =
        c.wal.bytes + frameBytes (c.acknowledgedAdd uri text metadata title addition) := by
  unfold addDocumentLocked acknowledgedAdd Admits
  cases hchecks : c.checkLimits uri text metadata title with
  | error e => exact ⟨⟨(by cases ·),fun h => (by cases h.1)⟩,fun _ => ⟨c.wal,rfl⟩,rfl⟩
  | ok u =>
    obtain ⟨w,hopen,hbytes,⟨htakes,hlog⟩ | ⟨⟨hattached,htakes⟩,e,hlog⟩⟩ :=
      logRecord_outcome c (addRecord uri text metadata title) addition
    · dsimp only
      rw [hlog]
      dsimp only
      have hsame : ({ c with wal := w } : Corpus).chunkLimitExceeded text =
        c.chunkLimitExceeded text := rfl
      rw [hsame]
      split_ifs with hlimit
      · exact ⟨⟨(by cases ·),fun h => (by simp [hlimit] at h)⟩,fun _ => ⟨w,rfl⟩,hbytes⟩
      · exact ⟨⟨fun _ => ⟨rfl,htakes,by simpa using hlimit⟩,fun _ => rfl⟩,(by cases ·),hbytes⟩
    · dsimp only
      rw [hlog]
      exact ⟨⟨(by cases ·),fun h => absurd (h.2.1 hattached) htakes⟩,fun _ => ⟨w,rfl⟩,hbytes⟩

lemma takes_removeRecord (id : UInt32) : Takes (removeRecord id) outcome ↔ outcome = .synced :=
  ⟨And.right,fun h => ⟨(removeRecord_loggable id).1,h⟩⟩

/-- A removal that fails has changed nothing but the log and acknowledged nothing. -/
lemma removeDocumentLocked_outcome (c : Corpus) (id : UInt32) (removal : WriteOutcome) :
    ∃ w : Wal, w.isOpen = c.wal.isOpen ∧
      w.bytes = c.wal.bytes + frameBytes (c.acknowledgedRemoval id removal) ∧
      (¬ (id.toNat ≥ c.docs.length ∨ id.toNat ∈ c.deletedDocs) ∧
          (c.Attached → removal = .synced) ∧
          c.removeDocumentLocked id removal = (.ok (),tombstone { c with wal := w } id.toNat) ∨
        ¬ (¬ (id.toNat ≥ c.docs.length ∨ id.toNat ∈ c.deletedDocs) ∧
            (c.Attached → removal = .synced)) ∧ c.acknowledgedRemoval id removal = [] ∧
          ∃ e, c.removeDocumentLocked id removal = (.error e,{ c with wal := w })) := by
  unfold removeDocumentLocked acknowledgedRemoval
  split_ifs with hid
  · exact ⟨c.wal,rfl,rfl,Or.inr ⟨fun h => h.1 hid,rfl,_,rfl⟩⟩
  · obtain ⟨w,hopen,hbytes,⟨htakes,hlog⟩ | ⟨⟨hattached,htakes⟩,e,hlog⟩⟩ :=
      logRecord_outcome c (removeRecord id) removal
    · rw [takes_removeRecord] at htakes
      exact ⟨w,hopen,hbytes,Or.inl ⟨hid,htakes,by rw [hlog]⟩⟩
    · refine ⟨w,hopen,hbytes,Or.inr ⟨fun h => htakes ?_,?_,e,by rw [hlog]⟩⟩
      · exact (takes_removeRecord id).mpr (h.2 hattached)
      · exact acknowledged_eq_nil_iff.mpr fun h => htakes h.2

/-- Nothing but the log has changed, or a live document is tombstoned. -/
lemma removeExisting_outcome (c : Corpus) (uri : Bytes) (removal : WriteOutcome) :
    ∃ w : Wal, w.isOpen = c.wal.isOpen ∧
      w.bytes = c.wal.bytes + frameBytes (c.acknowledgedExisting uri removal) ∧
      ((c.Supersedes uri removal ∧ ∃ id ∉ c.deletedDocs,
          c.removeExisting uri removal = tombstone { c with wal := w } id) ∨
        ¬ c.Supersedes uri removal ∧ c.acknowledgedExisting uri removal = [] ∧
          c.removeExisting uri removal = { c with wal := w }) := by
  unfold removeExisting acknowledgedExisting Supersedes
  cases hfind : c.findByUriLocked uri with
  | none => exact ⟨c.wal,rfl,rfl,Or.inr ⟨fun ⟨_,hid,_⟩ => (by cases hid),rfl,rfl⟩⟩
  | some id =>
    obtain ⟨w,hopen,hbytes,⟨hid,hremoval,hcall⟩ | ⟨hnot,hnone,e,hcall⟩⟩ :=
      removeDocumentLocked_outcome c (UInt32.ofNat id) removal
    · refine ⟨w,hopen,hbytes,Or.inl ⟨⟨id,rfl,hid,hremoval⟩,_,fun h => hid (Or.inr h),?_⟩⟩
      dsimp only
      rw [hcall]
    · refine ⟨w,hopen,hbytes,Or.inr ⟨?_,hnone,?_⟩⟩
      · rintro ⟨id',hid',hrest⟩
        cases hid'
        exact hnot hrest
      · dsimp only
        rw [hcall]

/-- In a corpus that numbers its documents the one found is there to be removed. -/
lemma Valid.supersedes_iff (h : c.Valid) :
    c.Supersedes uri removal ↔
      (c.findByUriLocked uri).isSome = true ∧ (c.Attached → removal = .synced) := by
  constructor
  · rintro ⟨id,hfind,-,hremoval⟩
    exact ⟨by rw [hfind]; rfl,hremoval⟩
  · rintro ⟨hsome,hremoval⟩
    obtain ⟨id,hfind⟩ := Option.isSome_iff_exists.mp hsome
    refine ⟨id,hfind,?_,hremoval⟩
    unfold findByUriLocked at hfind
    split_ifs at hfind
    obtain ⟨doc,hdoc,rfl⟩ := Option.map_eq_some_iff.mp hfind
    have hlive := List.find?_some hdoc
    simp only [decide_eq_true_eq] at hlive
    have hid : doc.id ∈ List.range c.docs.length :=
      h.ids ▸ List.mem_map_of_mem (List.mem_of_find?_eq_some hdoc)
    rw [List.mem_range] at hid
    have hsmall : kMaxDocuments < UInt32.size := by decide
    have hnat : (UInt32.ofNat doc.id).toNat = doc.id :=
      UInt32.toNat_ofNat_of_lt (by have := h.documents; omega)
    rw [hnat]
    exact fun hbad => hbad.elim (by omega) hlive.1

section removed
-- A corpus behind the removal, with the log and the tombstones that it leaves.
variable {w : Wal} {deletedDocs : Finset ℕ} {epoch : ℕ}

lemma attached_removed (hopen : w.isOpen = c.wal.isOpen) :
    Attached { c with wal := w, deletedDocs := deletedDocs, epoch := epoch } ↔ c.Attached := by
  unfold Attached
  dsimp only
  rw [hopen]

lemma admits_removed (hopen : w.isOpen = c.wal.isOpen) :
    Admits { c with wal := w, deletedDocs := deletedDocs, epoch := epoch } uri text metadata title
      addition ↔ c.Admits uri text metadata title addition :=
  and_congr Iff.rfl (and_congr (imp_congr (attached_removed hopen) Iff.rfl) Iff.rfl)

lemma acknowledgedAdd_removed (hopen : w.isOpen = c.wal.isOpen) :
    acknowledgedAdd { c with wal := w, deletedDocs := deletedDocs, epoch := epoch } uri text
      metadata
      title addition = [] ↔ ¬ c.LogsAddition uri text metadata title addition := by
  have hsame : checkLimits { c with wal := w, deletedDocs := deletedDocs, epoch := epoch } uri text
      metadata title = c.checkLimits uri text metadata title := rfl
  unfold acknowledgedAdd LogsAddition
  rw [hsame]
  cases c.checkLimits uri text metadata title with
  | error e => simp
  | ok u => simp only [acknowledged_eq_nil_iff,attached_removed hopen,true_and]

end removed

/-- The log counts the bytes of the acknowledged records and no others. -/
theorem upsertDocument_bytes (c : Corpus) (uri text : Bytes) (metadata : Metadata) (title : Bytes)
    (removal addition : WriteOutcome) :
    (c.upsertDocument uri text metadata title removal addition).2.wal.bytes =
      c.wal.bytes +
        frameBytes (c.acknowledgedUpsert uri text metadata title removal addition) := by
  have hremoved : (c.removeExisting uri removal).wal.bytes =
      c.wal.bytes + frameBytes (c.acknowledgedExisting uri removal) := by
    obtain ⟨w,-,hbytes,⟨-,id,-,hcall⟩ | ⟨-,-,hcall⟩⟩ := c.removeExisting_outcome uri removal
    · rw [hcall]
      exact hbytes
    · rw [hcall]
      exact hbytes
  obtain ⟨-,-,hadded⟩ := (c.removeExisting uri removal).addDocumentLocked_outcome uri text metadata
    title addition
  unfold upsertDocument acknowledgedUpsert
  rw [hadded,hremoved,frameBytes,frameBytes,frameBytes,List.map_append,List.sum_append,
    Nat.add_assoc]

end Corpus

namespace IndexedCorpus
open Corpus

/-- What a call that fails is to leave as it was, where `acknowledged` are the records whose append
it has acknowledged. -/
structure Unaffected (c d : IndexedCorpus) (acknowledged : List WalRecord) : Prop where
  docs : d.core.docs = c.core.docs
  live : d.core.deletedDocs = c.core.deletedDocs
  stored : ∀ uri, d.core.findByUriLocked uri = c.core.findByUriLocked uri
  passes : ∀ filter chunk, d.passes filter chunk = c.passes filter chunk
  lexical : ∀ query k filter, d.lexicalSearch query k filter = c.lexicalSearch query k filter
  dense : ∀ similarity answer k filter,
    d.denseSearch similarity answer k filter = c.denseSearch similarity answer k filter
  log : acknowledged = []

/-- The chunk limit refuses a document that no log has taken. To push it has moved the others from
where the pointers of the chunks lead to, and nothing says so. -/
structure Unlinks (c : IndexedCorpus) (uri text : Bytes) (metadata : Metadata) (title : Bytes)
    (moves : Bool) : Prop where
  checked : c.core.checkLimits uri text metadata title = .ok ()
  unlogged : ¬ c.core.Attached
  exceeded : c.core.chunkLimitExceeded text = true
  moves : moves = true
  linked : c.links = .linked ∨ c.links = .stale ∧ (c.core.findByUriLocked uri).isSome = true
  chunks : c.core.chunks ≠ []

variable {c : IndexedCorpus} {uri text : Bytes} {metadata : Metadata} {title : Bytes}
  {removal addition : WriteOutcome} {moves : Bool}

lemma ensured_eq_dangling {links : MetaLinks} : links.ensured = .dangling ↔ links = .dangling := by
  cases links <;> simp [MetaLinks.ensured]

lemma ensured_eq_linked {links : MetaLinks} :
    links.ensured = .linked ↔ links = .linked ∨ links = .stale := by
  cases links <;> simp [MetaLinks.ensured]

/-- Searches tell neither another log nor other pointers, as long as these can be followed. -/
lemma unaffected_log (c : IndexedCorpus) (w : Wal) {links : MetaLinks}
    (hlinks : c.core.chunks = [] ∨ (links = .dangling ↔ c.links = .dangling)) :
    c.Unaffected { c with core.wal := w, links := links } [] := by
  have hreads : ∀ ids, ReadsFreed { c with core.wal := w, links := links } ids ↔
      c.ReadsFreed ids := by
    intro ids
    rcases hlinks with hnone | hsame
    · simp [ReadsFreed,hnone]
    · exact and_congr hsame Iff.rfl
  refine ⟨rfl,rfl,fun _ => rfl,?_,?_,?_,rfl⟩
  · intro filter chunk
    cases filter with
    | none => rfl
    | some filter => exact if_congr (hreads _) rfl rfl
  · intro query k filter
    cases filter with
    | none => rfl
    | some filter => exact if_congr (hreads _) rfl rfl
  · intro similarity answer k filter
    have hgraph : ∀ g query, graphHits similarity { c with core.wal := w, links := links } g query k
        filter = c.graphHits similarity g query k filter := by
      intro g query
      unfold graphHits
      cases filter with
      | none => rfl
      | some filter =>
        simp only [Option.isNone_some,Bool.false_eq_true,if_false]
        exact if_congr (hreads _) rfl rfl
    unfold denseSearch
    by_cases hembedder : c.embedder = none
    · rw [if_pos hembedder,if_pos hembedder]
    rw [if_neg hembedder,if_neg hembedder]
    cases answer with
    | error e => rfl
    | ok query =>
      dsimp only
      cases c.hnsw with
      | none => exact if_congr (and_congr Iff.rfl (hreads _)) rfl rfl
      | some g => exact congrArg (Option.map Except.ok) (hgraph g _)

lemma extend_log (c : IndexedCorpus) (w : Wal) :
    c.extend { c.core with wal := w } = { c with core.wal := w } := by
  simp [extend]

lemma removeExisting_core (c : IndexedCorpus) (uri : Bytes) (removal : WriteOutcome) :
    (c.removeExisting uri removal).core = c.core.removeExisting uri removal := by
  unfold removeExisting Corpus.removeExisting
  cases c.core.findByUriLocked uri with
  | none => rfl
  | some id =>
    dsimp only
    unfold removeDocumentLocked ensureLinked
    dsimp only
    obtain ⟨_ | _,core⟩ := c.core.removeDocumentLocked (UInt32.ofNat id) removal
    · rfl
    · rfl

/-- A removal that is tried has the pointers linked. -/
lemma removeExisting_links (c : IndexedCorpus) (uri : Bytes) (removal : WriteOutcome) :
    (c.removeExisting uri removal).links =
      if (c.core.findByUriLocked uri).isSome = true then c.links.ensured else c.links := by
  unfold removeExisting
  cases c.core.findByUriLocked uri with
  | none => rfl
  | some id =>
    dsimp only
    unfold removeDocumentLocked ensureLinked
    dsimp only
    obtain ⟨_ | _,core⟩ := c.core.removeDocumentLocked (UInt32.ofNat id) removal
    · rfl
    · rfl

/-- An upsert succeeds where the addition is admitted, whatever comes of the removal. -/
lemma upsertDocument_isOk :
    (c.upsertDocument uri text metadata title removal addition moves).1.isOk = true ↔
      c.core.Admits uri text metadata title addition := by
  have hadd :=
    ((c.removeExisting uri removal).core.addDocumentLocked_outcome uri text metadata title
    addition).1
  refine hadd.trans ?_
  rw [removeExisting_core]
  obtain ⟨w,hopen,-,⟨-,id,-,hcall⟩ | ⟨-,-,hcall⟩⟩ := c.core.removeExisting_outcome uri removal
  · rw [hcall]
    exact admits_removed hopen
  · rw [hcall]
    exact admits_removed hopen

/-- Where nothing is removed, only the log and the pointers have changed. -/
lemma removeExisting_of_not (h : ¬ c.core.Supersedes uri removal) :
    ∃ w : Wal, c.removeExisting uri removal =
      { c with core.wal := w, links := (c.removeExisting uri removal).links } := by
  obtain ⟨w,-,-,⟨hsup,-⟩ | ⟨-,-,hcall⟩⟩ := c.core.removeExisting_outcome uri removal
  · exact absurd hsup h
  refine ⟨w,?_⟩
  revert hcall
  unfold removeExisting Corpus.removeExisting
  cases hfind : c.core.findByUriLocked uri with
  | none =>
    dsimp only
    intro hcall
    rw [← hcall]
  | some id =>
    obtain ⟨w',-,-,⟨hid,hremoval,-⟩ | ⟨-,-,e,herror⟩⟩ :=
      c.core.removeDocumentLocked_outcome (UInt32.ofNat id) removal
    · exact absurd ⟨id,hfind,hid,hremoval⟩ h
    · dsimp only
      unfold removeDocumentLocked ensureLinked
      dsimp only
      rw [herror]
      intro hcall
      dsimp only at hcall ⊢
      rw [hcall]

/-- The chunk limit withdraws a document that has not been logged only where there is no log. -/
lemma withdraws_iff (hlogs : ¬ c.core.LogsAddition uri text metadata title addition) :
    c.Withdraws uri text metadata title addition ↔
      c.core.checkLimits uri text metadata title = .ok () ∧ ¬ c.core.Attached ∧
        c.core.chunkLimitExceeded text = true := by
  obtain ⟨w,-,-,hcase⟩ := c.core.logRecord_outcome (addRecord uri text metadata title) addition
  unfold Withdraws
  cases hchecks : c.core.checkLimits uri text metadata title with
  | error e => exact ⟨(by cases ·.1),(by cases ·.1)⟩
  | ok u =>
    rcases hcase with ⟨htakes,hlog⟩ | ⟨⟨hattached,htakes⟩,e,hlog⟩
    · have hfree : ¬ c.core.Attached := fun hattached => hlogs ⟨hchecks,hattached,htakes hattached⟩
      rw [hlog]
      exact and_congr (iff_of_true rfl rfl) (and_congr_left' (iff_of_true rfl hfree))
    · rw [hlog]
      exact ⟨(by cases ·.2.1),fun h => absurd hattached h.2.1⟩

/-- An upsert that fails without a removal has changed the log and the pointers. -/
lemma upsertDocument_of_fails (hsup : ¬ c.core.Supersedes uri removal)
    (hfails : (c.upsertDocument uri text metadata title removal addition moves).1.isOk = false) :
    ∃ w : Wal, (c.upsertDocument uri text metadata title removal addition moves).2 =
      { c with
        core.wal := w
        links := (c.upsertDocument uri text metadata title removal addition moves).2.links } := by
  obtain ⟨w₁,hremoved⟩ := removeExisting_of_not hsup
  obtain ⟨-,hcalled,-⟩ := (c.removeExisting uri removal).core.addDocumentLocked_outcome uri text
    metadata title addition
  obtain ⟨w₂,hadded⟩ := hcalled hfails
  refine ⟨w₂,?_⟩
  have hadd : ∀ d : IndexedCorpus, d.core.addDocumentLocked uri text metadata title addition =
      ((d.core.addDocumentLocked uri text metadata title addition).1,{ d.core with wal := w₂ }) →
      (d.addDocumentLocked uri text metadata title addition moves).2 = { d with
        core.wal := w₂
        links := (d.addDocumentLocked uri text metadata title addition moves).2.links } := by
    intro d hd
    unfold addDocumentLocked
    dsimp only
    rw [hd,extend_log]
  have hadded' := hadd _ (Prod.ext rfl hadded)
  rw [upsertDocument,hadded',hremoved]

/-- The pointers that dangle behind an upsert that fails without a removal. -/
lemma links_of_fails (hsup : ¬ c.core.Supersedes uri removal)
    (hlogs : ¬ c.core.LogsAddition uri text metadata title addition)
    (hfails : (c.upsertDocument uri text metadata title removal addition moves).1.isOk = false)
    (hchunks : c.core.chunks ≠ []) :
    (c.upsertDocument uri text metadata title removal addition moves).2.links = .dangling ↔
      c.links = .dangling ∨ c.Unlinks uri text metadata title moves := by
  obtain ⟨w,hremoved⟩ := removeExisting_of_not hsup
  have hlinks := c.removeExisting_links uri removal
  have hdangling : (c.removeExisting uri removal).links = .dangling ↔ c.links = .dangling := by
    rw [hlinks]
    split_ifs
    · exact ensured_eq_dangling
    · exact Iff.rfl
  have hlinked : (c.removeExisting uri removal).links = .linked ↔ c.links = .linked ∨
      c.links = .stale ∧ (c.core.findByUriLocked uri).isSome = true := by
    rw [hlinks]
    split_ifs with hfound
    · rw [ensured_eq_linked,and_iff_left hfound]
    · simp [hfound]
  have hwithdraws : (c.removeExisting uri removal).Withdraws uri text metadata title addition ↔
      c.core.checkLimits uri text metadata title = .ok () ∧ ¬ c.core.Attached ∧
        c.core.chunkLimitExceeded text = true := by
    have hopen : w.isOpen = c.core.wal.isOpen := by
      obtain ⟨w',hopen,-,⟨hsup',-⟩ | ⟨-,-,hcall⟩⟩ := c.core.removeExisting_outcome uri removal
      · exact absurd hsup' hsup
      · have hcore := c.removeExisting_core uri removal
        rw [hremoved,hcall] at hcore
        exact congrArg (fun d : Corpus => d.wal.isOpen) hcore |>.trans hopen
    have hattached : Corpus.Attached { c.core with wal := w } ↔ c.core.Attached :=
      attached_removed hopen
    rw [hremoved]
    exact (withdraws_iff (c := { c with core.wal := w, links := _ }) fun h =>
      hlogs ⟨h.1,hattached.mp h.2.1,h.2.2⟩).trans
        (and_congr Iff.rfl (and_congr (not_congr hattached) Iff.rfl))
  have hafter : (c.upsertDocument uri text metadata title removal addition moves).2.links =
      (c.removeExisting uri removal).linksAfter uri text metadata title addition moves := rfl
  have hnot : ¬ ((c.removeExisting uri removal).core.addDocumentLocked uri text metadata title
      addition).1.isOk = true := by
    intro hok
    exact absurd (hok.symm.trans hfails) (by decide)
  rw [hafter,linksAfter,if_neg hnot]
  split_ifs with hall
  · obtain ⟨hwithdrawn,hmoves,hpointers⟩ := hall
    obtain ⟨hchecked,hfree,hexceeded⟩ := hwithdraws.mp hwithdrawn
    exact iff_of_true rfl
      (Or.inr ⟨hchecked,hfree,hexceeded,hmoves,hlinked.mp hpointers,hchunks⟩)
  · rw [hdangling,or_iff_left]
    exact fun h => hall ⟨hwithdraws.mpr ⟨h.checked,h.unlogged,h.exceeded⟩,h.moves,
      hlinked.mpr h.linked⟩

/-- A failing upsert leaves documents, live set, searches and acknowledged records as they were
just when it has not removed the document it replaces, has not logged the one it refuses and has
not moved the documents in refusing it. -/
theorem upsert_atomic_iff (c : IndexedCorpus) (uri text : Bytes) (metadata : Metadata)
    (title : Bytes) (removal addition : WriteOutcome) (moves : Bool) :
    ((c.upsertDocument uri text metadata title removal addition moves).1.isOk = false →
        c.Unaffected (c.upsertDocument uri text metadata title removal addition moves).2
          (c.core.acknowledgedUpsert uri text metadata title removal addition)) ↔
      c.core.Admits uri text metadata title addition ∨
        ¬ c.core.Supersedes uri removal ∧
          ¬ c.core.LogsAddition uri text metadata title addition ∧
            ¬ c.Unlinks uri text metadata title moves := by
  have hok : (c.upsertDocument uri text metadata title removal addition moves).1.isOk = true ↔ _ :=
    upsertDocument_isOk
  obtain ⟨w,hopen,-,hcase⟩ := c.core.removeExisting_outcome uri removal
  by_cases hadmits : c.core.Admits uri text metadata title addition
  · rw [hok.mpr hadmits]
    simp [hadmits]
  have hfails : (c.upsertDocument uri text metadata title removal addition moves).1.isOk = false :=
    Bool.eq_false_of_not_eq_true fun h => hadmits (hok.mp h)
  have hshape := (c.removeExisting uri removal).core.addDocumentLocked_shape uri text metadata title
    addition
  constructor
  · intro hatomic
    have hkept := hatomic hfails
    have hsup : ¬ c.core.Supersedes uri removal := by
      intro hsup
      obtain ⟨-,id,hid,hcall⟩ | ⟨hnot,-⟩ := hcase
      · have hdeleted : id ∈ (c.upsertDocument uri text metadata title removal addition
            moves).2.core.deletedDocs := by
          change id ∈ ((c.removeExisting uri removal).core.addDocumentLocked uri text metadata title
            addition).2.deletedDocs
          rw [hshape.1,removeExisting_core,hcall]
          exact Finset.mem_insert_self _ _
        rw [hkept.live] at hdeleted
        exact hid hdeleted
      · exact hnot hsup
    have hlogs : ¬ c.core.LogsAddition uri text metadata title addition := by
      obtain ⟨hsup',-⟩ | ⟨-,-,hcall⟩ := hcase
      · exact absurd hsup' hsup
      · have hadded := (List.append_eq_nil_iff.mp hkept.log).2
        rw [hcall] at hadded
        exact (acknowledgedAdd_removed hopen).mp hadded
    refine Or.inr ⟨hsup,hlogs,fun hunlinks => ?_⟩
    obtain ⟨w',hcalled⟩ := upsertDocument_of_fails hsup hfails
    have hdangling := (links_of_fails hsup hlogs hfails hunlinks.chunks).mpr (Or.inr hunlinks)
    -- a filter may be asked about the first chunk before the call and not behind it
    have hpasses := hkept.passes (some fun _ => true) 0
    have hchunk : 0 < c.core.chunks.length := List.length_pos_of_ne_nil hunlinks.chunks
    have hbefore : ¬ c.ReadsFreed [0] := by
      rintro ⟨hlinks,-⟩
      rcases hunlinks.linked with hlinked | ⟨hstale,-⟩
      · rw [hlinked] at hlinks
        cases hlinks
      · rw [hstale] at hlinks
        cases hlinks
    have hbehind : (c.upsertDocument uri text metadata title removal addition
        moves).2.ReadsFreed [0] := by
      refine ⟨hdangling,0,List.mem_singleton_self 0,?_⟩
      rw [hcalled]
      exact hchunk
    rw [passes,passes,if_pos hbehind,if_neg hbefore] at hpasses
    cases hpasses
  · rintro (hadmitted | ⟨hsup,hlogs,hunlinks⟩) -
    · exact absurd hadmitted hadmits
    obtain ⟨hsup',-⟩ | ⟨-,hremoval,hcall⟩ := hcase
    · exact absurd hsup' hsup
    have hlog : c.core.acknowledgedUpsert uri text metadata title removal addition = [] := by
      unfold acknowledgedUpsert
      rw [hremoval,hcall]
      exact (acknowledgedAdd_removed hopen).mpr hlogs
    obtain ⟨w',hcalled⟩ := upsertDocument_of_fails hsup hfails
    rw [hlog,hcalled]
    apply c.unaffected_log
    by_cases hchunks : c.core.chunks = []
    · exact Or.inl hchunks
    · right
      rw [links_of_fails hsup hlogs hfails hchunks,or_iff_left hunlinks]

/-- A document stored under a uri, with an open log. -/
def storedNote : IndexedCorpus :=
  let c := start wholeText {} {} {} 1 32
  ({ c with core.wal := c.core.wal.openAt }.addDocumentLocked [1] [2] ∅ [] .synced false).2

def fullDisk : WriteOutcome := .cut 0 "No space left on device"

/-- The log takes the removal and is cut short in the addition: the document is gone. -/
theorem failed_upsert_removes :
    (storedNote.upsertDocument [1] [3] ∅ [] .synced fullDisk false).1.isOk = false ∧
      ¬ storedNote.Unaffected (storedNote.upsertDocument [1] [3] ∅ [] .synced fullDisk false).2
        (storedNote.core.acknowledgedUpsert [1] [3] ∅ [] .synced fullDisk) := by
  refine ⟨by decide +kernel,fun h => ?_⟩
  have hstored := h.stored [1]
  exact absurd hstored (by decide +kernel)

end IndexedCorpus
end RagRuntime.Index
