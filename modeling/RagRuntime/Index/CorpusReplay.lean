import RagRuntime.Base.Machine
import RagRuntime.Index.Corpus
import RagRuntime.Store.WalReplay

/-! Replaying the log of a corpus on the snapshot it started from. -/
namespace RagRuntime.Index
open RagRuntime.Base RagRuntime.Core RagRuntime.Text RagRuntime.Store

namespace Corpus

/-- The same documents under the same ids, the same chunks and the same live set. -/
structure Same (a b : Corpus) : Prop where
  chunkOptions : a.chunkOptions = b.chunkOptions
  docs : a.docs = b.docs
  chunks : a.chunks = b.chunks
  deletedDocs : a.deletedDocs = b.deletedDocs

namespace Same

variable {a b c : Corpus}

theorem trans (h : a.Same b) (h' : b.Same c) : a.Same c :=
  ⟨h.chunkOptions.trans h'.chunkOptions,h.docs.trans h'.docs,h.chunks.trans h'.chunks,
    h.deletedDocs.trans h'.deletedDocs⟩

theorem findByUriLocked (h : a.Same b) (uri : Bytes) :
    a.findByUriLocked uri = b.findByUriLocked uri := by
  simp only [Corpus.findByUriLocked,h.docs,h.deletedDocs]

theorem checkLimits (h : a.Same b) (uri text : Bytes) (metadata : Metadata) (title : Bytes) :
    a.checkLimits uri text metadata title = b.checkLimits uri text metadata title := by
  simp only [Corpus.checkLimits,h.docs]

theorem newChunks (h : a.Same b) (text : Bytes) : a.newChunks text = b.newChunks text := by
  simp only [Corpus.newChunks,h.docs,h.chunkOptions]

theorem chunkLimitExceeded (h : a.Same b) (text : Bytes) :
    a.chunkLimitExceeded text = b.chunkLimitExceeded text := by
  simp only [Corpus.chunkLimitExceeded,h.newChunks,h.chunks]

theorem storeDocument (h : a.Same b) (uri text : Bytes) (metadata : Metadata) (title : Bytes) :
    (a.storeDocument uri text metadata title).Same (b.storeDocument uri text metadata title) := by
  refine ⟨h.chunkOptions,?_,?_,h.deletedDocs⟩
  · simp only [Corpus.storeDocument,h.docs]
  · simp only [Corpus.storeDocument,h.chunks,h.newChunks]

theorem tombstone (h : a.Same b) (id : ℕ) : (a.tombstone id).Same (b.tombstone id) := by
  refine ⟨h.chunkOptions,h.docs,h.chunks,?_⟩
  simp only [Corpus.tombstone,h.deletedDocs]

end Same

/-- What a synced append does to an open log. -/
lemma append_synced {w : Wal} (hopen : w.isOpen = true) (rec : WalRecord) :
    ((Wal.encode rec).length ≤ kMaxWalRecordBytes ∧ ∃ w', w.append rec .synced = (.ok (),w') ∧
      w'.isOpen = true ∧ w'.content = w.content ++ Wal.recordFrame rec) ∨
    (kMaxWalRecordBytes < (Wal.encode rec).length ∧ ∃ e, w.append rec .synced = (.error e,w)) := by
  unfold Wal.append
  rw [if_neg (by simp [hopen])]
  split_ifs with hlarge
  · refine Or.inr ⟨?_,_,rfl⟩
    simp only [uint32Max,kMaxWalRecordBytes] at hlarge ⊢
    omega
  · exact Or.inl ⟨by omega,_,rfl,hopen,rfl⟩

/-- The log is open for a corpus that is not replaying it. -/
def Attached (c : Corpus) : Prop := c.wal.isOpen = true ∧ c.replaying = false

lemma logRecord_attached {c : Corpus} (h : c.Attached) (rec : WalRecord) :
    ((Wal.encode rec).length ≤ kMaxWalRecordBytes ∧ ∃ w, c.logRecord rec .synced =
      (.ok (),{ c with wal := w }) ∧ w.isOpen = true ∧
        w.content = c.wal.content ++ Wal.recordFrame rec) ∨
    (kMaxWalRecordBytes < (Wal.encode rec).length ∧
      ∃ e, c.logRecord rec .synced = (.error e,c)) := by
  unfold logRecord
  rw [if_pos (show c.wal.isOpen = true ∧ c.replaying = false from h)]
  obtain ⟨hfits,w,hw,hrest⟩ | ⟨hlarge,e,he⟩ := append_synced h.1 rec
  · exact Or.inl ⟨hfits,w,by simp [hw],hrest⟩
  · exact Or.inr ⟨hlarge,e,by simp [he]⟩

lemma logRecord_replaying {c : Corpus} (h : c.replaying = true) (rec : WalRecord)
    (outcome : WriteOutcome) : c.logRecord rec outcome = (.ok (),c) := by
  simp [logRecord,h]

/-- An add that will be logged meets no live document of its uri and is not one that the
chunk limit rejects afterwards. -/
def CleanAdd (c : Corpus) (uri text : Bytes) (metadata : Metadata) (title : Bytes) : Prop :=
  c.checkLimits uri text metadata title = .ok () →
    (Wal.encode (addRecord uri text metadata title)).length ≤ kMaxWalRecordBytes →
      c.findByUriLocked uri = none ∧ c.chunkLimitExceeded text = false

/-- What the invariant says of a corpus with its log: replaying the log on the snapshot gives
this corpus. -/
structure Reproducible (snap c : Corpus) : Prop where
  attached : c.Attached
  log : ∃ records replayed, (∀ r ∈ records, r.Loggable) ∧
    c.wal.content = frames kRecordMagic (records.map Wal.encode) ∧
    replayRecords { snap with replaying := true } records = .ok replayed ∧
    replayed.replaying = true ∧ replayed.Same c

/-- A record is logged and its replay does what the call did. -/
lemma Reproducible.logged {snap c d : Corpus} (h : Reproducible snap c) {rec : WalRecord}
    (hrec : rec.Loggable) (hattached : d.Attached)
    (hcontent : d.wal.content = c.wal.content ++ Wal.recordFrame rec)
    (hreplay : ∀ r : Corpus, r.replaying = true → r.Same c →
      ∃ r', r.replayRecord rec = .ok r' ∧ r'.replaying = true ∧ r'.Same d) :
    Reproducible snap d := by
  obtain ⟨records,replayed,hl,hc,hr,hflag,hsame⟩ := h.log
  obtain ⟨r',hr',hflag',hsame'⟩ := hreplay replayed hflag hsame
  refine ⟨hattached,records ++ [rec],r',?_,?_,?_,hflag',hsame'⟩
  · intro r hr
    obtain hr | hr := List.mem_append.mp hr
    · exact hl r hr
    · rw [List.mem_singleton.mp hr]
      exact hrec
  · rw [hcontent,hc,List.map_append,frames_append]
    simp [Wal.recordFrame]
  · rw [replayRecords] at hr ⊢
    simp only [List.foldlM_append,hr,List.foldlM_cons,List.foldlM_nil]
    change (replayed.replayRecord rec >>= pure) = _
    rw [hr']
    rfl

lemma removeRecord_loggable (id : UInt32) : (removeRecord id).Loggable := by
  constructor
  · simp [removeRecord,Wal.encode,Wal.encodeMetadata,kMaxWalRecordBytes]
  · exact Nat.zero_le _

lemma Reproducible.remove {snap c : Corpus} (h : Reproducible snap c) (id : UInt32) :
    Reproducible snap (c.removeDocumentLocked id .synced).2 := by
  unfold removeDocumentLocked
  split_ifs with hid
  · exact h
  · obtain ⟨-,w,hlog,hopen,hcontent⟩ | ⟨hlarge,-⟩ := logRecord_attached h.attached (removeRecord id)
    · simp only [hlog]
      refine h.logged (removeRecord_loggable id) ⟨hopen,h.attached.2⟩ hcontent ?_
      intro r hflag hsame
      refine ⟨r.tombstone id.toNat,?_,hflag,?_⟩
      · simp only [replayRecord,removeRecord,removeDocumentLocked,hsame.docs,hsame.deletedDocs,
          if_neg hid,logRecord_replaying hflag]
      · exact (hsame.tombstone _).trans ⟨rfl,rfl,rfl,rfl⟩
    · exact absurd (removeRecord_loggable id).1 (not_le.mpr hlarge)

lemma Reproducible.removeExisting {snap c : Corpus} (h : Reproducible snap c) (uri : Bytes) :
    Reproducible snap (c.removeExisting uri .synced) := by
  unfold Corpus.removeExisting
  cases c.findByUriLocked uri with
  | none => exact h
  | some id => exact h.remove _

lemma checkLimits_metadata {c : Corpus} {uri text : Bytes} {metadata : Metadata} {title : Bytes}
    (h : c.checkLimits uri text metadata title = .ok ()) : metadata.size ≤ kMaxMetadataEntries := by
  unfold checkLimits at h
  split_ifs at h with h1 h2
  all_goals first | omega | cases h

lemma Reproducible.add {snap c : Corpus} (h : Reproducible snap c) {uri text : Bytes}
    {metadata : Metadata} {title : Bytes} (hclean : c.CleanAdd uri text metadata title) :
    Reproducible snap (c.addDocumentLocked uri text metadata title .synced).2 := by
  unfold addDocumentLocked
  cases hlimits : c.checkLimits uri text metadata title with
  | error e => exact h
  | ok u =>
    obtain ⟨hfits,w,hlog,hopen,hcontent⟩ | ⟨hlarge,e,hlog⟩ :=
      logRecord_attached h.attached (addRecord uri text metadata title)
    · obtain ⟨hfind,hlimit⟩ := hclean hlimits hfits
      have hlimit' : ({ c with wal := w } : Corpus).chunkLimitExceeded text = false := hlimit
      simp only [hlog,hlimit',Bool.false_eq_true,if_false]
      refine h.logged ⟨hfits,checkLimits_metadata hlimits⟩ ⟨hopen,h.attached.2⟩ hcontent ?_
      intro r hflag hsame
      refine ⟨r.storeDocument uri text metadata title,?_,hflag,?_⟩
      · simp only [replayRecord,addRecord,Corpus.removeExisting,hsame.findByUriLocked,hfind,
          addDocumentLocked,hsame.checkLimits,hlimits,logRecord_replaying hflag,
          hsame.chunkLimitExceeded,hlimit,Bool.false_eq_true,if_false]
      · exact (hsame.storeDocument _ _ _ _).trans ⟨rfl,rfl,rfl,rfl⟩
    · simp only [hlog]
      exact h

/-- A mutation of the corpus; log writes succeed. -/
inductive Call where
  | add (uri text : Bytes) (metadata : Metadata) (title : Bytes)
  | upsert (uri text : Bytes) (metadata : Metadata) (title : Bytes)
  | remove (id : UInt32)

def call (c : Corpus) : Call → Corpus
  | .add uri text metadata title => (c.addDocument uri text metadata title .synced).2
  | .upsert uri text metadata title =>
    (c.upsertDocument uri text metadata title .synced .synced).2
  | .remove id => (c.removeDocument id .synced).2

def step (c : Corpus) (e : Call) : Option Corpus := some (c.call e)

/-- Every add, also the one an upsert makes after its removal, is clean. -/
def CleanCall (c : Corpus) : Call → Prop
  | .add uri text metadata title => c.CleanAdd uri text metadata title
  | .upsert uri text metadata title =>
    (c.removeExisting uri .synced).CleanAdd uri text metadata title
  | .remove _ => True

lemma step_reproducible {snap c d : Corpus} {e : Call} (h : Reproducible snap c)
    (hclean : c.CleanCall e) (hs : c.step e = some d) : Reproducible snap d := by
  cases hs
  cases e with
  | add uri text metadata title => exact h.add hclean
  | upsert uri text metadata title => exact (h.removeExisting uri).add hclean
  | remove id => exact h.remove id

/-- The file is a log of whole records, as clean appends leave it. -/
def WholeLog (file : Option Bytes) (records : List WalRecord) : Prop :=
  (∀ r ∈ records, r.Loggable) ∧ records.length ≤ kMaxWalRecords ∧
    file.getD [] = frames kRecordMagic (records.map Wal.encode)

lemma WholeLog.replay {file : Option Bytes} {records : List WalRecord}
    (h : WholeLog file records) : Wal.replay file = .ok records := by
  obtain ⟨hl,hcount,hfile⟩ := h
  have hreplay := Wal.replay_frames hl (cut_nil kRecordMagic) (by simpa using hcount)
  rw [List.append_nil,← hfile] at hreplay
  cases file with
  | some blob => exact hreplay
  | none => exact hreplay.symm ▸ rfl

/-- Opening a whole log replays its records. -/
lemma openWal_wholeLog {build : Corpus → Result Unit} (hbuild : ∀ c, build c = .ok ())
    {snap replayed : Corpus} {file : Option Bytes} {records : List WalRecord}
    (h : WholeLog file records)
    (hr : replayRecords { snap with replaying := true } records = .ok replayed) :
    ∃ t, openWal build snap file = .ok t ∧ t.Same replayed := by
  unfold openWal
  rw [h.replay]
  by_cases hnil : records = []
  · subst hnil
    cases hr
    exact ⟨_,rfl,⟨rfl,rfl,rfl,rfl⟩⟩
  · simp only [if_neg hnil,hr,bind,Except.bind,hbuild]
    exact ⟨_,rfl,⟨rfl,rfl,rfl,rfl⟩⟩

@[simp] lemma logRecord_replaying_eq (c : Corpus) (rec : WalRecord) (outcome : WriteOutcome) :
    (c.logRecord rec outcome).2.replaying = c.replaying := by
  unfold logRecord
  split_ifs <;> rfl

lemma removeDocumentLocked_replaying (c : Corpus) (id : UInt32) (outcome : WriteOutcome) :
    (c.removeDocumentLocked id outcome).2.replaying = c.replaying := by
  have hlog := logRecord_replaying_eq c (removeRecord id) outcome
  unfold removeDocumentLocked
  split_ifs
  · rfl
  · revert hlog
    obtain ⟨_ | _,d⟩ := c.logRecord (removeRecord id) outcome
    · intro hlog
      exact hlog
    · intro hlog
      exact hlog

lemma removeExisting_replaying (c : Corpus) (uri : Bytes) (outcome : WriteOutcome) :
    (c.removeExisting uri outcome).replaying = c.replaying := by
  unfold removeExisting
  cases c.findByUriLocked uri with
  | none => rfl
  | some id => exact removeDocumentLocked_replaying c _ outcome

lemma addDocumentLocked_replaying (c : Corpus) (uri text : Bytes) (metadata : Metadata)
    (title : Bytes) (outcome : WriteOutcome) :
    (c.addDocumentLocked uri text metadata title outcome).2.replaying = c.replaying := by
  have hlog := logRecord_replaying_eq c (addRecord uri text metadata title) outcome
  unfold addDocumentLocked
  cases c.checkLimits uri text metadata title with
  | error e => rfl
  | ok u =>
    revert hlog
    obtain ⟨_ | _,d⟩ := c.logRecord (addRecord uri text metadata title) outcome
    · exact id
    · intro hlog
      dsimp only
      split_ifs <;> exact hlog

lemma replayRecord_replaying {c d : Corpus} {rec : WalRecord} (h : c.replayRecord rec = .ok d) :
    d.replaying = c.replaying := by
  unfold replayRecord at h
  cases hop : rec.op with
  | removeDocument =>
    rw [hop] at h
    cases h
    exact removeDocumentLocked_replaying c _ _
  | addDocument =>
    simp only [hop] at h
    have hadd := addDocumentLocked_replaying (c.removeExisting rec.uri .synced) rec.uri rec.text
      rec.metadata rec.title .synced
    rw [removeExisting_replaying] at hadd
    revert h hadd
    obtain ⟨_ | _,d'⟩ := (c.removeExisting rec.uri .synced).addDocumentLocked rec.uri rec.text
      rec.metadata rec.title .synced
    · intro h
      cases h
    · intro h hadd
      cases h
      exact hadd

lemma replayRecords_replaying {records : List WalRecord} {c d : Corpus}
    (h : replayRecords c records = .ok d) : d.replaying = c.replaying := by
  induction records generalizing c with
  | nil => cases h; rfl
  | cons rec records ih =>
    rw [replayRecords,List.foldlM_cons] at h
    cases hrec : c.replayRecord rec with
    | error e => rw [hrec] at h; cases h
    | ok c' =>
      rw [hrec] at h
      exact (ih h).trans (replayRecord_replaying hrec)

/-- A corpus that has just replayed a log is what that log reproduces. -/
lemma openWal_reproducible {build : Corpus → Result Unit} {snap start : Corpus}
    {file : Option Bytes} {records : List WalRecord} (hsnap : snap.replaying = false)
    (hlog : WholeLog file records) (hstart : openWal build snap file = .ok start) :
    Reproducible snap start := by
  unfold openWal at hstart
  rw [hlog.replay] at hstart
  by_cases hnil : records = []
  · subst hnil
    cases hstart
    exact ⟨⟨rfl,hsnap⟩,[],{ snap with replaying := true },hlog.1,hlog.2.2,rfl,rfl,
      ⟨rfl,rfl,rfl,rfl⟩⟩
  · simp only [if_neg hnil,bind,Except.bind] at hstart
    cases hr : replayRecords { snap with replaying := true } records with
    | error e => rw [hr] at hstart; cases hstart
    | ok replayed =>
      simp only [hr] at hstart
      cases hb : build { replayed with replaying := false } with
      | error e => rw [hb] at hstart; cases hstart
      | ok u =>
        rw [hb] at hstart
        cases hstart
        exact ⟨⟨rfl,rfl⟩,records,replayed,hlog.1,hlog.2.2,hr,replayRecords_replaying hr,
          ⟨rfl,rfl,rfl,rfl⟩⟩

/-- Loading the snapshot again and replaying the log reproduces the corpus, after every run
whose adds are clean. -/
theorem openWal_reproduces {build : Corpus → Result Unit} (hbuild : ∀ c, build c = .ok ())
    {snap start c : Corpus} {file : Option Bytes} {records : List WalRecord}
    (hsnap : snap.replaying = false) (hlog : WholeLog file records)
    (hstart : openWal build snap file = .ok start)
    {calls : List Call} (hrun : Machine.run step start calls = some c)
    (hclean : Machine.Meets step CleanCall start calls)
    (hcount : ∀ records : List WalRecord,
      c.wal.content = frames kRecordMagic (records.map Wal.encode) →
        records.length ≤ kMaxWalRecords) :
    ∃ t, openWal build snap c.wal.file = .ok t ∧ t.Same c := by
  have hinv : Reproducible snap c := Machine.run_invariant
    (fun _ _ _ hi hc hs => step_reproducible hi hc hs)
      (openWal_reproducible hsnap hlog hstart) hclean hrun
  obtain ⟨records',replayed,hl,hcontent,hr,-,hsame⟩ := hinv.log
  have hwhole : WholeLog c.wal.file records' := ⟨hl,hcount _ hcontent,hcontent⟩
  obtain ⟨t,ht,hsame'⟩ := openWal_wholeLog hbuild hwhole hr
  exact ⟨t,ht,hsame'.trans hsame⟩

/-- A corpus that has just been opened on a log that does not exist yet. -/
def fresh : Corpus := ⟨{},[],[],∅,Wal.empty,false,0⟩

def freshAttached : Corpus := { fresh with wal := Wal.openAt Wal.empty }

/-- One document is added, replaced and removed. -/
def replacedAndRemoved : List Call :=
  [.add (ascii ['u']) (ascii ['a']) ∅ [],.upsert (ascii ['u']) (ascii ['b']) ∅ [],.remove 1]

theorem replacedAndRemoved_reproduced :
    ∃ c t, Machine.run step freshAttached replacedAndRemoved = some c ∧
      openWal (fun _ => .ok ()) fresh c.wal.file = .ok t ∧ t.Same c := by
  have hbuild : ∀ c : Corpus, (fun _ => .ok () : Corpus → Result Unit) c = .ok () := fun _ => rfl
  have hlog : WholeLog none [] := ⟨by simp,by simp,rfl⟩
  have hstart : openWal (fun _ => .ok ()) fresh none = .ok freshAttached := rfl
  obtain ⟨t,ht⟩ := openWal_reproduces hbuild (by rfl) hlog hstart
    (show Machine.run step freshAttached replacedAndRemoved = some _ from rfl)
    (by
      refine ⟨fun _ _ => ⟨by decide +kernel,by decide +kernel⟩,fun c hc => ?_⟩
      cases hc
      refine ⟨fun _ _ => ⟨by decide +kernel,by decide +kernel⟩,fun c hc => ?_⟩
      cases hc
      exact ⟨trivial,fun c hc => trivial⟩)
    (by
      intro records hrecords
      have hle := frames_length_ge kRecordMagic (records.map Wal.encode)
      rw [← hrecords,List.length_map] at hle
      exact hle.trans (by decide +kernel))
  exact ⟨_,t,rfl,ht⟩

/-- A replayed add removes the live document of its uri, which the call had kept. -/
theorem repeated_add_not_reproduced :
    ¬ ∀ (build : Corpus → Result Unit), (∀ c, build c = .ok ()) →
      ∀ (snap start : Corpus), openWal build snap none = .ok start → snap.replaying = false →
        ∀ calls c, Machine.run step start calls = some c →
          ∃ t, openWal build snap c.wal.file = .ok t ∧ t.Same c := by
  intro h
  obtain ⟨t,ht,hsame⟩ := h (fun _ => .ok ()) (fun _ => rfl) fresh freshAttached rfl rfl
    [.add (ascii ['u']) (ascii ['a']) ∅ [],.add (ascii ['u']) (ascii ['b']) ∅ []] _ rfl
  have hdeleted : ∀ c, Machine.run step freshAttached
      [.add (ascii ['u']) (ascii ['a']) ∅ [],.add (ascii ['u']) (ascii ['b']) ∅ []] = some c →
      ((openWal (fun _ => .ok ()) fresh c.wal.file).toOption.map (·.deletedDocs),c.deletedDocs) =
        (some {0},∅) := by
    intro c hc
    cases hc
    decide +kernel
  have h' := hdeleted _ rfl
  rw [ht,← hsame.deletedDocs] at h'
  obtain ⟨h0,hempty⟩ := Prod.mk.inj h'
  have h0 : t.deletedDocs = {0} := Option.some.inj h0
  rw [hempty] at h0
  exact absurd h0 (by decide)

end Corpus
end RagRuntime.Index
