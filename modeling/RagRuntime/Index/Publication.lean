import RagRuntime.Base.Stamped
import RagRuntime.Index.Corpus

/-! What `Corpus::save` and `Corpus::load` share between the corpora of one process: the snapshot a
file holds, and the publication counter of its path. -/
namespace RagRuntime.Index
open RagRuntime.Base RagRuntime.Core RagRuntime.Text RagRuntime.Store

/-- The sections of a saved corpus that its mutations write. -/
structure Snapshot where
  chunkOptions : ChunkOptions
  docs : List Document
  chunks : List Chunk
  deletedDocs : Finset ℕ

namespace Snapshot

/-- `b` holds every document, chunk and tombstone that `a` does. -/
instance : Preorder Snapshot where
  le a b := a.chunkOptions = b.chunkOptions ∧ a.docs <+: b.docs ∧ a.chunks <+: b.chunks ∧
    a.deletedDocs ⊆ b.deletedDocs
  le_refl a := ⟨rfl,List.prefix_refl _,List.prefix_refl _,fun _ h => h⟩
  le_trans a b c hab hbc := ⟨hab.1.trans hbc.1,hab.2.1.trans hbc.2.1,hab.2.2.1.trans hbc.2.2.1,
    fun _ h => hbc.2.2.2 (hab.2.2.2 h)⟩

end Snapshot

/-- The registry entry of a path: the newest epoch that has reached the file, if `any`. -/
structure PathState where
  published : ℕ
  any : Bool
  deriving DecidableEq

/-- The gate of `save`: a later epoch has been published at the path. -/
def PathState.Superseded (p : PathState) (atEpoch : ℕ) : Prop :=
    p.any = true ∧ p.published > atEpoch

instance (p : PathState) (atEpoch : ℕ) : Decidable (p.Superseded atEpoch) := by
  unfold PathState.Superseded
  infer_instance

namespace Corpus

def snapshotLocked (c : Corpus) : Snapshot := ⟨c.chunkOptions,c.docs,c.chunks,c.deletedDocs⟩

/-- What a save captures under the shared lock. -/
def stamped (c : Corpus) : Stamped Snapshot := (c.epoch,c.snapshotLocked)

/-- A corpus that `load` makes of a file; its epoch continues the path's. -/
def loaded (p : PathState) (s : Snapshot) : Corpus :=
  ⟨s.chunkOptions,s.docs,s.chunks,s.deletedDocs,Wal.empty,false,if p.any then p.published else 0⟩

/-- A call that mutates a corpus, with the outcomes of its log writes. A build fails when its
embedder does. -/
inductive Request where
  | addDocument (uri text : Bytes) (metadata : Metadata) (title : Bytes) (outcome : WriteOutcome)
  | upsertDocument (uri text : Bytes) (metadata : Metadata) (title : Bytes)
      (removal addition : WriteOutcome)
  | removeDocument (id : UInt32) (outcome : WriteOutcome)
  | build (embedded : Bool)

/-- Whether the call reports success, and the corpus it leaves. -/
def request (c : Corpus) : Request → Bool × Corpus
  | .addDocument uri text metadata title outcome =>
    let called := c.addDocument uri text metadata title outcome
    (called.1.isOk,called.2)
  | .upsertDocument uri text metadata title removal addition =>
    let called := c.upsertDocument uri text metadata title removal addition
    (called.1.isOk,called.2)
  | .removeDocument id outcome =>
    let called := c.removeDocument id outcome
    (called.1.isOk,called.2)
  | .build embedded => (embedded,if embedded then { c with epoch := c.epoch+1 } else c)

variable {c : Corpus}

@[simp] lemma stamped_logRecord (c : Corpus) (rec : WalRecord) (outcome : WriteOutcome) :
    (c.logRecord rec outcome).2.stamped = c.stamped := by
  unfold logRecord
  split_ifs
  · rfl
  · rfl

lemma before_storeDocument (c : Corpus) (uri text : Bytes) (metadata : Metadata) (title : Bytes) :
    c.stamped.Before (c.storeDocument uri text metadata title).stamped :=
  Stamped.before_succ
    ⟨rfl,List.prefix_append _ _,List.prefix_append _ _,fun _ h => h⟩ rfl

lemma before_tombstone (c : Corpus) (id : ℕ) : c.stamped.Before (c.tombstone id).stamped :=
  Stamped.before_succ
    ⟨rfl,List.prefix_refl _,List.prefix_refl _,Finset.subset_insert _ _⟩ rfl

lemma before_addDocumentLocked (c : Corpus) (uri text : Bytes) (metadata : Metadata) (title : Bytes)
    (outcome : WriteOutcome) :
    c.stamped.Before (c.addDocumentLocked uri text metadata title outcome).2.stamped := by
  have hlog := stamped_logRecord c (addRecord uri text metadata title) outcome
  unfold addDocumentLocked
  cases c.checkLimits uri text metadata title with
  | error e => exact Stamped.Before.refl _
  | ok u =>
    revert hlog
    obtain ⟨_ | _,d⟩ := c.logRecord (addRecord uri text metadata title) outcome
    · intro hlog
      exact Or.inl hlog.symm
    · intro hlog
      dsimp only at hlog ⊢
      split_ifs
      · exact Or.inl hlog.symm
      · rw [← hlog]
        exact before_storeDocument d uri text metadata title

lemma before_removeDocumentLocked (c : Corpus) (id : UInt32) (outcome : WriteOutcome) :
    c.stamped.Before (c.removeDocumentLocked id outcome).2.stamped := by
  have hlog := stamped_logRecord c (removeRecord id) outcome
  unfold removeDocumentLocked
  split_ifs
  · exact Stamped.Before.refl _
  · revert hlog
    obtain ⟨_ | _,d⟩ := c.logRecord (removeRecord id) outcome
    · intro hlog
      exact Or.inl hlog.symm
    · intro hlog
      dsimp only at hlog ⊢
      rw [← hlog]
      exact before_tombstone d id.toNat

lemma before_removeExisting (c : Corpus) (uri : Bytes) (outcome : WriteOutcome) :
    c.stamped.Before (c.removeExisting uri outcome).stamped := by
  unfold removeExisting
  cases c.findByUriLocked uri with
  | none => exact Stamped.Before.refl _
  | some id => exact before_removeDocumentLocked c _ outcome

/-- A mutation adds to the corpus and advances its epoch, or leaves both. -/
theorem before_request (c : Corpus) (r : Request) : c.stamped.Before (c.request r).2.stamped := by
  cases r with
  | addDocument uri text metadata title outcome =>
    exact before_addDocumentLocked c uri text metadata title outcome
  | upsertDocument uri text metadata title removal addition =>
    exact (before_removeExisting c uri removal).trans
      (before_addDocumentLocked _ uri text metadata title addition)
  | removeDocument id outcome => exact before_removeDocumentLocked c id outcome
  | build embedded =>
    cases embedded with
    | false => exact Stamped.Before.refl _
    | true => exact Stamped.before_succ (le_refl _) rfl

lemma before_replayRecord {d : Corpus} {rec : WalRecord} (h : c.replayRecord rec = .ok d) :
    c.stamped.Before d.stamped := by
  unfold replayRecord at h
  cases hop : rec.op with
  | removeDocument =>
    rw [hop] at h
    cases h
    exact before_removeDocumentLocked c _ _
  | addDocument =>
    simp only [hop] at h
    have hadd := (before_removeExisting c rec.uri .synced).trans
      (before_addDocumentLocked _ rec.uri rec.text rec.metadata rec.title .synced)
    revert h hadd
    obtain ⟨_ | _,e⟩ := (c.removeExisting rec.uri .synced).addDocumentLocked rec.uri rec.text
      rec.metadata rec.title .synced
    · intro h
      cases h
    · intro h hadd
      cases h
      exact hadd

lemma before_replayRecords {records : List WalRecord} {d : Corpus}
    (h : replayRecords c records = .ok d) : c.stamped.Before d.stamped := by
  induction records generalizing c with
  | nil => cases h; exact Stamped.Before.refl _
  | cons rec records ih =>
    rw [replayRecords,List.foldlM_cons] at h
    cases hrec : c.replayRecord rec with
    | error e => rw [hrec] at h; cases h
    | ok e =>
      rw [hrec] at h
      exact (before_replayRecord hrec).trans (ih h)

/-- Opening a log adds what it replays to the corpus and leaves the log open. -/
lemma openWal_cases {build : Corpus → Result Unit} {d : Corpus} {file : Option Bytes}
    (hc : c.replaying = false) (h : openWal build c file = .ok d) :
    d.wal.isOpen = true ∧ d.replaying = false ∧ c.stamped.Before d.stamped := by
  unfold openWal at h
  cases hreplay : Wal.replay file with
  | error e => rw [hreplay] at h; cases h
  | ok records =>
    simp only [hreplay,bind,Except.bind] at h
    split_ifs at h
    · cases h
      exact ⟨rfl,hc,Stamped.Before.refl _⟩
    · cases hr : replayRecords { c with replaying := true } records with
      | error e => rw [hr] at h; cases h
      | ok replayed =>
        simp only [hr] at h
        cases hb : build { replayed with replaying := false } with
        | error e => rw [hb] at h; cases h
        | ok u =>
          rw [hb] at h
          cases h
          refine ⟨rfl,rfl,(before_replayRecords hr).trans ?_⟩
          exact Stamped.before_succ (le_refl _) rfl

end Corpus
end RagRuntime.Index
