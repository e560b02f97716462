import Mathlib.Data.Finset.Sort
import RagRuntime.Index.CorpusReplay
import RagRuntime.Index.Publication

/-! `Corpus::checkpoint` by several threads while others mutate the corpus: what the snapshot file
and the write-ahead log hold between them. -/
namespace RagRuntime.Index
open RagRuntime.Base RagRuntime.Core RagRuntime.Text RagRuntime.Store

/-- What a mutation did to a corpus. -/
inductive Mutation where
  | added (d : Document)
  | removed (id : ℕ)
  deriving DecidableEq

namespace Mutation

def record : Mutation → WalRecord
  | .added d => Corpus.addRecord d.uri d.text d.metadata d.title
  | .removed id => Corpus.removeRecord (UInt32.ofNat id)

end Mutation

/-- The snapshot contains the mutation. -/
def Snapshot.Has (s : Snapshot) : Mutation → Prop
  | .added d => d ∈ s.docs
  | .removed id => id ∈ s.deletedDocs

theorem Snapshot.Has.mono {a b : Snapshot} {m : Mutation} (h : a.Has m) (hle : a ≤ b) :
    b.Has m := by
  cases m with
  | added d => exact hle.2.1.subset h
  | removed id => exact hle.2.2.2 h

/-- A stretch of the log: the frame of a record, or what a cut write has left. -/
inductive Stretch where
  | record (rec : WalRecord)
  | cut (bytes : Bytes)

def Stretch.bytes : Stretch → Bytes
  | .record rec => Wal.recordFrame rec
  | .cut bytes => bytes

/-- Replay can read the stretch, unless writes may be cut. -/
def Stretch.Readable (cuts : Prop) : Stretch → Prop
  | .record rec => rec.Loggable
  | .cut _ => cuts

/-- The log's bytes hold a whole frame of its own for each of the mutations, in their order. -/
def Logs (cuts : Prop) (content : Bytes) (ms : List Mutation) : Prop :=
  ∃ pieces : List Stretch, content = pieces.flatMap Stretch.bytes ∧
    (∀ piece ∈ pieces, piece.Readable cuts) ∧
    (ms.map fun m => Stretch.record m.record).Sublist pieces

variable {cuts : Prop} {content : Bytes} {ms : List Mutation}

lemma logs_nil (content : Bytes) : Logs True content [] :=
  ⟨[.cut content],by simp [Stretch.bytes],List.forall_mem_singleton.mpr trivial,
    List.nil_sublist _⟩

lemma Logs.eq_nil (h : Logs cuts [] ms) : ms = [] := by
  obtain ⟨pieces,hflat,-,hsub⟩ := h
  cases ms with
  | nil => rfl
  | cons m ms =>
    have hmem : Stretch.record m.record ∈ pieces := hsub.subset (List.mem_cons_self ..)
    exact absurd (List.flatMap_eq_nil_iff.mp hflat.symm _ hmem) (frame_ne_nil _ _)

lemma Logs.append (h : Logs cuts content ms) {piece : Stretch} (hpiece : piece.Readable cuts) :
    Logs cuts (content ++ piece.bytes) ms := by
  obtain ⟨pieces,rfl,hpieces,hsub⟩ := h
  refine ⟨pieces ++ [piece],by simp,?_,hsub.trans (List.sublist_append_left _ _)⟩
  exact List.forall_mem_append.mpr ⟨hpieces,List.forall_mem_singleton.mpr hpiece⟩

lemma Logs.logged (h : Logs cuts content ms) {m : Mutation} (hm : m.record.Loggable) :
    Logs cuts (content ++ Wal.recordFrame m.record) (ms ++ [m]) := by
  obtain ⟨pieces,rfl,hpieces,hsub⟩ := h
  refine ⟨pieces ++ [.record m.record],by simp [Stretch.bytes],?_,?_⟩
  · exact List.forall_mem_append.mpr ⟨hpieces,List.forall_mem_singleton.mpr hm⟩
  · rw [List.map_append]
    exact hsub.append (List.Sublist.refl _)

/-- Where no write has been cut, the log is whole frames, and those of the mutations among them. -/
lemma Logs.frames (h : Logs False content ms) : ∃ records : List WalRecord,
    (∀ r ∈ records, r.Loggable) ∧ content = frames kRecordMagic (records.map Wal.encode) ∧
      (ms.map Mutation.record).Sublist records := by
  obtain ⟨pieces,rfl,hpieces,hsub⟩ := h
  obtain ⟨records,hloggable,rfl⟩ : ∃ records : List WalRecord, (∀ r ∈ records, r.Loggable) ∧
      records.map Stretch.record = pieces := by
    clear hsub
    induction pieces with
    | nil => exact ⟨[],by simp,rfl⟩
    | cons piece pieces ih =>
      obtain ⟨hpiece,hrest⟩ := List.forall_mem_cons.mp hpieces
      obtain ⟨records,hloggable,rfl⟩ := ih hrest
      cases piece with
      | record rec => exact ⟨rec::records,List.forall_mem_cons.mpr ⟨hpiece,hloggable⟩,rfl⟩
      | cut bytes => exact hpiece.elim
  refine ⟨records,hloggable,?_,?_⟩
  · rw [Store.frames,List.flatMap_map,List.flatMap_map]
    rfl
  · have hmap : (ms.map fun m => Stretch.record m.record) =
        (ms.map Mutation.record).map Stretch.record := by simp
    rw [hmap] at hsub
    obtain ⟨kept,hkept,heq⟩ := List.sublist_map_iff.mp hsub
    rwa [List.map_injective_iff.mpr (fun _ _ h => Stretch.record.inj h) heq]

namespace Corpus

/-- The mutations that lead from one state of a corpus to a later one. -/
def performed (c d : Corpus) : List Mutation :=
  ((d.deletedDocs \ c.deletedDocs).sort (· ≤ ·)).map .removed ++
    (d.docs.drop c.docs.length).map .added

/-- From `c` to `d` nothing was done that is not in `new`, and all of `new` was logged. -/
structure Recorded (cuts : Prop) (c d : Corpus) (new : List Mutation) : Prop where
  attached : d.Attached
  docs : ∃ xs, d.docs = c.docs ++ xs ∧ ∀ x ∈ xs, .added x ∈ new
  deleted : ∀ i ∈ d.deletedDocs, i ∈ c.deletedDocs ∨ .removed i ∈ new
  log : ∀ ms, Logs cuts c.wal.content ms → Logs cuts d.wal.content (ms ++ new)

variable {c d e : Corpus} {new later : List Mutation}

/-- The log may have grown, the corpus has not changed. -/
lemma Attached.recorded_nil (h : c.Attached) {w : Wal} (hopen : w.isOpen = true)
    (hcontent : w.content = c.wal.content ∨ ∃ piece : Stretch, piece.Readable cuts ∧
      w.content = c.wal.content ++ piece.bytes) : Recorded cuts c { c with wal := w } [] := by
  refine ⟨⟨hopen,h.2⟩,⟨[],by simp,by simp⟩,fun i hi => Or.inl hi,?_⟩
  intro ms hms
  change Logs cuts w.content (ms ++ [])
  rw [List.append_nil]
  obtain hsame | ⟨piece,hpiece,hgrown⟩ := hcontent
  · rwa [hsame]
  · rw [hgrown]
    exact hms.append hpiece

lemma Attached.recorded_refl (h : c.Attached) : Recorded cuts c c [] :=
  h.recorded_nil h.1 (Or.inl rfl)

lemma Recorded.trans (hcd : Recorded cuts c d new) (hde : Recorded cuts d e later) :
    Recorded cuts c e (new ++ later) := by
  obtain ⟨xs,hxs,hxnew⟩ := hcd.docs
  obtain ⟨ys,hys,hylater⟩ := hde.docs
  refine ⟨hde.attached,⟨xs ++ ys,by rw [hys,hxs,List.append_assoc],?_⟩,?_,?_⟩
  · intro x hx
    obtain hx | hx := List.mem_append.mp hx
    · exact List.mem_append_left _ (hxnew x hx)
    · exact List.mem_append_right _ (hylater x hx)
  · intro i hi
    obtain hd | hlater := hde.deleted i hi
    · obtain hc | hnew := hcd.deleted i hd
      · exact Or.inl hc
      · exact Or.inr (List.mem_append_left _ hnew)
    · exact Or.inr (List.mem_append_right _ hlater)
  · intro ms hms
    rw [← List.append_assoc]
    exact hde.log _ (hcd.log ms hms)

lemma Recorded.performed (h : Recorded cuts c d new) {m : Mutation} (hm : m ∈ c.performed d) :
    m ∈ new := by
  obtain ⟨xs,hxs,hxnew⟩ := h.docs
  obtain hm | hm := List.mem_append.mp hm
  · obtain ⟨i,hi,rfl⟩ := List.mem_map.mp hm
    obtain ⟨hd,hc⟩ := Finset.mem_sdiff.mp ((Finset.mem_sort _).mp hi)
    obtain hc' | hnew := h.deleted i hd
    · exact absurd hc' hc
    · exact hnew
  · obtain ⟨x,hx,rfl⟩ := List.mem_map.mp hm
    rw [hxs,List.drop_left] at hx
    exact hxnew x hx

lemma has_of_performed {m : Mutation} (hm : m ∈ c.performed d) : d.snapshotLocked.Has m := by
  obtain hm | hm := List.mem_append.mp hm
  · obtain ⟨i,hi,rfl⟩ := List.mem_map.mp hm
    exact (Finset.mem_sdiff.mp ((Finset.mem_sort _).mp hi)).1
  · obtain ⟨x,hx,rfl⟩ := List.mem_map.mp hm
    exact List.mem_of_mem_drop hx

/-- The outcome leaves whole frames, unless writes may be cut. -/
def LeavesFrames (cuts : Prop) : WriteOutcome → Prop
  | .synced | .unsynced => True
  | .cut _ _ => cuts

/-- An append adds the whole frame and succeeds, or fails and adds some of it. -/
lemma logRecord_cases (h : c.Attached) (rec : WalRecord)
    (hmeta : rec.metadata.size ≤ kMaxMetadataEntries) {outcome : WriteOutcome}
    (hcuts : LeavesFrames cuts outcome) :
    ∃ w : Wal, w.isOpen = true ∧
      ((c.logRecord rec outcome = (.ok (),{ c with wal := w }) ∧ rec.Loggable ∧
          w.content = c.wal.content ++ Wal.recordFrame rec) ∨
        ∃ error, c.logRecord rec outcome = (.error error,{ c with wal := w }) ∧
          (w.content = c.wal.content ∨ ∃ piece : Stretch, piece.Readable cuts ∧
            w.content = c.wal.content ++ piece.bytes)) := by
  unfold logRecord
  rw [if_pos (show c.wal.isOpen = true ∧ c.replaying = false from h)]
  unfold Wal.append
  rw [if_neg (by simp [h.1])]
  split_ifs with hlarge
  · exact ⟨c.wal,h.1,Or.inr ⟨_,rfl,Or.inl rfl⟩⟩
  · have hrec : rec.Loggable := ⟨by omega,hmeta⟩
    cases outcome with
    | synced =>
      refine ⟨_,?_,Or.inl ⟨rfl,hrec,rfl⟩⟩
      exact h.1
    | unsynced =>
      refine ⟨_,?_,Or.inr ⟨_,rfl,Or.inr ⟨.record rec,hrec,rfl⟩⟩⟩
      exact h.1
    | cut n reason =>
      refine ⟨_,?_,Or.inr ⟨_,rfl,Or.inr ⟨.cut ((Wal.recordFrame rec).take n),hcuts,rfl⟩⟩⟩
      exact h.1

lemma Attached.recorded_addDocumentLocked (h : c.Attached) (uri text : Bytes) (metadata : Metadata)
    (title : Bytes) {outcome : WriteOutcome} (hcuts : LeavesFrames cuts outcome) :
    ∃ new, Recorded cuts c (c.addDocumentLocked uri text metadata title outcome).2 new := by
  unfold addDocumentLocked
  cases hlimits : c.checkLimits uri text metadata title with
  | error error => exact ⟨[],h.recorded_refl⟩
  | ok u =>
    obtain ⟨w,hopen,⟨hlog,hrec,hcontent⟩ | ⟨error,hlog,hcontent⟩⟩ :=
      logRecord_cases h (addRecord uri text metadata title) (checkLimits_metadata hlimits) hcuts
    · simp only [hlog]
      split_ifs
      · exact ⟨[],h.recorded_nil hopen (Or.inr ⟨.record _,hrec,hcontent⟩)⟩
      · refine ⟨[.added ⟨c.docs.length,uri,title,text,metadata⟩],⟨hopen,h.2⟩,
          ⟨_,rfl,?_⟩,fun i hi => Or.inl hi,?_⟩
        · intro x hx
          rw [List.mem_singleton.mp hx]
          exact List.mem_singleton.mpr rfl
        · intro ms hms
          change Logs cuts w.content _
          rw [hcontent]
          exact hms.logged (m := .added ⟨c.docs.length,uri,title,text,metadata⟩) hrec
    · simp only [hlog]
      exact ⟨[],h.recorded_nil hopen hcontent⟩

lemma Attached.recorded_removeDocumentLocked (h : c.Attached) (id : UInt32)
    {outcome : WriteOutcome} (hcuts : LeavesFrames cuts outcome) :
    ∃ new, Recorded cuts c (c.removeDocumentLocked id outcome).2 new := by
  unfold removeDocumentLocked
  split_ifs
  · exact ⟨[],h.recorded_refl⟩
  · obtain ⟨w,hopen,⟨hlog,hrec,hcontent⟩ | ⟨error,hlog,hcontent⟩⟩ :=
      logRecord_cases h (removeRecord id) (removeRecord_loggable id).2 hcuts
    · simp only [hlog]
      refine ⟨[.removed id.toNat],⟨hopen,h.2⟩,⟨[],by simp [tombstone],by simp⟩,?_,?_⟩
      · intro i hi
        obtain rfl | hi := Finset.mem_insert.mp hi
        · exact Or.inr (List.mem_singleton.mpr rfl)
        · exact Or.inl hi
      · intro ms hms
        have hrecord : (Mutation.removed id.toNat).record = removeRecord id := by
          simp [Mutation.record]
        change Logs cuts w.content _
        rw [hcontent,← hrecord]
        exact hms.logged (m := .removed id.toNat) (hrecord ▸ hrec)
    · simp only [hlog]
      exact ⟨[],h.recorded_nil hopen hcontent⟩

/-- The writes of a call leave whole frames, unless writes may be cut. -/
def Request.LeavesFrames (cuts : Prop) : Request → Prop
  | .addDocument _ _ _ _ outcome | .removeDocument _ outcome => Corpus.LeavesFrames cuts outcome
  | .upsertDocument _ _ _ _ removal addition =>
    Corpus.LeavesFrames cuts removal ∧ Corpus.LeavesFrames cuts addition
  | .build _ => True

lemma LeavesFrames.of_true (outcome : WriteOutcome) : LeavesFrames True outcome := by
  cases outcome <;> trivial

lemma Request.LeavesFrames.of_true (r : Request) : r.LeavesFrames True := by
  cases r with
  | addDocument uri text metadata title outcome => exact Corpus.LeavesFrames.of_true outcome
  | upsertDocument uri text metadata title removal addition =>
    exact ⟨Corpus.LeavesFrames.of_true removal,Corpus.LeavesFrames.of_true addition⟩
  | removeDocument id outcome => exact Corpus.LeavesFrames.of_true outcome
  | build embedded => trivial

lemma Attached.recorded_removeExisting (h : c.Attached) (uri : Bytes) {outcome : WriteOutcome}
    (hcuts : LeavesFrames cuts outcome) :
    ∃ new, Recorded cuts c (c.removeExisting uri outcome) new := by
  unfold removeExisting
  cases c.findByUriLocked uri with
  | none => exact ⟨[],h.recorded_refl⟩
  | some id => exact h.recorded_removeDocumentLocked _ hcuts

/-- Whatever a call does to an attached corpus is in its log before the call returns. -/
lemma Attached.recorded_request (h : c.Attached) {r : Request} (hcuts : r.LeavesFrames cuts) :
    ∃ new, Recorded cuts c (c.request r).2 new := by
  cases r with
  | addDocument uri text metadata title outcome =>
    exact h.recorded_addDocumentLocked uri text metadata title hcuts
  | upsertDocument uri text metadata title removal addition =>
    obtain ⟨new,hnew⟩ := h.recorded_removeExisting uri hcuts.1
    obtain ⟨later,hlater⟩ :=
      hnew.attached.recorded_addDocumentLocked uri text metadata title hcuts.2
    exact ⟨new ++ later,hnew.trans hlater⟩
  | removeDocument id outcome => exact h.recorded_removeDocumentLocked id hcuts
  | build embedded =>
    refine ⟨[],?_⟩
    cases embedded with
    | false => exact h.recorded_refl
    | true => exact ⟨h,⟨[],by simp [request],by simp⟩,fun i hi => Or.inl hi,by simp [request]⟩

end Corpus

/-- A thread inside `checkpoint`: in its `save`, past the shared lock, or before the exclusive
lock under which it truncates the log. -/
inductive CheckpointPhase where
  | saving (captured : Stamped Snapshot)
  | saved

/-- A corpus with an open log, the file it is checkpointed to, and the mutations whose calls have
returned success; no step reads these. -/
structure CheckpointRun where
  corpus : Corpus
  path : PathState
  file : Option Snapshot
  threads : ℕ → Option CheckpointPhase
  acknowledged : List Mutation

namespace CheckpointRun

inductive Action where
  | request (r : Corpus.Request)
  | serialise (thread : ℕ)
  | publish (thread : ℕ) (written : Bool)
  | truncate (thread : ℕ) (outcome : TruncateOutcome)

def withThread (s : CheckpointRun) (thread : ℕ) (phase : Option CheckpointPhase) : CheckpointRun :=
  { s with threads := Function.update s.threads thread phase }

def requested (s : CheckpointRun) (r : Corpus.Request) : CheckpointRun :=
  let called := s.corpus.request r
  { s with
    corpus := called.2
    acknowledged :=
      if called.1 then s.acknowledged ++ s.corpus.performed called.2 else s.acknowledged }

/-- The second half of `save`; a failed write ends the checkpoint. -/
def publish (s : CheckpointRun) (thread : ℕ) (captured : Stamped Snapshot) (written : Bool) :
    CheckpointRun :=
  if s.path.Superseded captured.1 then s.withThread thread (some .saved)
  else if written then
    { s.withThread thread (some .saved) with
      path := ⟨captured.1,true⟩, file := some captured.2 }
  else s.withThread thread none

def truncate (s : CheckpointRun) (thread : ℕ) (outcome : TruncateOutcome) : CheckpointRun :=
  let s := s.withThread thread none
  if s.corpus.wal.isOpen = false then s
  else { s with corpus := { s.corpus with wal := (s.corpus.wal.truncate outcome).2 } }

def step (s : CheckpointRun) : Action → Option CheckpointRun
  | .request r => some (s.requested r)
  | .serialise thread =>
    match s.threads thread with
    | none => some (s.withThread thread (some (.saving s.corpus.stamped)))
    | some _ => none
  | .publish thread written =>
    match s.threads thread with
    | some (.saving captured) => some (s.publish thread captured written)
    | _ => none
  | .truncate thread outcome =>
    match s.threads thread with
    | some .saved => some (s.truncate thread outcome)
    | _ => none

/-- Snapshot file and log together have every acknowledged mutation. -/
def Covered (s : CheckpointRun) : Prop :=
  ∃ logged, Logs True s.corpus.wal.content logged ∧
    ∀ m ∈ s.acknowledged, (∃ f, s.file = some f ∧ f.Has m) ∨ m ∈ logged

/-- A checkpoint cuts the log only while the snapshot file has all that the corpus has. -/
def Represented (s : CheckpointRun) : Action → Prop
  | .truncate _ (.refused _) => True
  | .truncate _ _ => ∃ f, s.file = some f ∧ s.corpus.snapshotLocked ≤ f
  | _ => True

/-- No call has returned yet. What the process has published at the path before, the corpus was
loaded from. -/
structure Start (s : CheckpointRun) : Prop where
  attached : s.corpus.Attached
  idle : ∀ thread, s.threads thread = none
  acknowledged : s.acknowledged = []
  published : s.path.any = true →
    ∃ f, s.file = some f ∧ Stamped.Before (s.path.published,f) s.corpus.stamped

/-- The snapshots of the corpus that the process has: the published one and the captured ones. -/
def kept (s : CheckpointRun) : Set (Stamped Snapshot) :=
  { x | (s.path.any = true ∧ s.path.published = x.1 ∧ s.file = some x.2) ∨
    ∃ thread, s.threads thread = some (.saving x) }

/-- The file holds the mutation, and is a snapshot of the corpus. -/
def Saved (s : CheckpointRun) (m : Mutation) : Prop :=
  s.path.any = true ∧ ∃ f, s.file = some f ∧ f.Has m

structure Sound (cuts : Prop) (s : CheckpointRun) : Prop where
  attached : s.corpus.Attached
  chronicle : Stamped.Chronicle s.corpus.stamped s.kept
  published : s.path.any = true → s.file.isSome
  saved : ∀ thread, s.threads thread = some .saved → s.path.any = true
  performed : ∀ m ∈ s.acknowledged, s.corpus.snapshotLocked.Has m
  covered : ∃ logged, Logs cuts s.corpus.wal.content logged ∧
    ∀ m ∈ s.acknowledged, s.Saved m ∨ m ∈ logged

lemma Sound.covers {s : CheckpointRun} (h : s.Sound True) : s.Covered := by
  obtain ⟨logged,hlogs,hcovered⟩ := h.covered
  refine ⟨logged,hlogs,fun m hm => ?_⟩
  obtain ⟨-,hsaved⟩ | hlogged := hcovered m hm
  · exact Or.inl hsaved
  · exact Or.inr hlogged

lemma Start.sound {s : CheckpointRun} (h : s.Start) (hlog : Logs cuts s.corpus.wal.content []) :
    s.Sound cuts := by
  have hkept : ∀ x ∈ s.kept, x.Before s.corpus.stamped ∧ s.path.published = x.1 ∧
      s.file = some x.2 := by
    rintro x (⟨hany,hstamp,hfile⟩ | ⟨thread,ht⟩)
    · obtain ⟨f,hf,hbefore⟩ := h.published hany
      have hx : x = (s.path.published,f) :=
        Prod.ext hstamp.symm (Option.some.inj (hfile.symm.trans hf))
      exact ⟨hx ▸ hbefore,hstamp,hfile⟩
    · rw [h.idle thread] at ht
      cases ht
  refine ⟨h.attached,⟨fun x hx => (hkept x hx).1,?_⟩,?_,?_,?_,[],hlog,?_⟩
  · intro a ha b hb
    obtain ⟨-,hsa,hfa⟩ := hkept a ha
    obtain ⟨-,hsb,hfb⟩ := hkept b hb
    have hab : a = b := Prod.ext (hsa.symm.trans hsb) (Option.some.inj (hfa.symm.trans hfb))
    exact Or.inl (Or.inl hab)
  · intro hany
    obtain ⟨f,hf,-⟩ := h.published hany
    rw [hf]
    rfl
  · intro thread ht
    rw [h.idle thread] at ht
    cases ht
  · rw [h.acknowledged]
    simp
  · rw [h.acknowledged]
    simp

/-- The log is opened on the corpus that was loaded from the file, or on a new one. -/
def opened (build : Corpus → Result Unit) (options : ChunkOptions) (path : PathState)
    (file : Option Snapshot) (log : Option Bytes) : Result CheckpointRun := do
  let corpus ← Corpus.openWal build
    (match file with
      | some f => Corpus.loaded path f
      | none => ⟨options,[],[],∅,Wal.empty,false,0⟩) log
  return ⟨corpus,path,file,fun _ => none,[]⟩

lemma opened_start {build : Corpus → Result Unit} {options : ChunkOptions} {path : PathState}
    {file : Option Snapshot} {log : Option Bytes} {s : CheckpointRun}
    (hpath : path.any = true → file.isSome) (h : opened build options path file log = .ok s) :
    s.Start := by
  unfold opened at h
  cases file with
  | none =>
    cases hopen : Corpus.openWal build ⟨options,[],[],∅,Wal.empty,false,0⟩ log with
    | error e => rw [hopen] at h; cases h
    | ok corpus =>
      rw [hopen] at h
      cases h
      obtain ⟨hwal,hreplaying,-⟩ := Corpus.openWal_cases (by rfl) hopen
      exact ⟨⟨hwal,hreplaying⟩,fun _ => rfl,rfl,fun hany => absurd (hpath hany) (by simp)⟩
  | some f =>
    cases hopen : Corpus.openWal build (Corpus.loaded path f) log with
    | error e => simp only [hopen] at h; cases h
    | ok corpus =>
      simp only [hopen] at h
      cases h
      obtain ⟨hwal,hreplaying,hbefore⟩ := Corpus.openWal_cases (by rfl) hopen
      refine ⟨⟨hwal,hreplaying⟩,fun _ => rfl,rfl,fun hany => ⟨f,rfl,?_⟩⟩
      have hany : path.any = true := hany
      have hstamp : (Corpus.loaded path f).stamped = (path.published,f) :=
        Prod.ext (by simp [Corpus.stamped,Corpus.loaded,hany]) rfl
      rw [hstamp] at hbefore
      exact hbefore

@[simp] lemma threads_withThread (s : CheckpointRun) (thread : ℕ) (phase : Option CheckpointPhase) :
    (s.withThread thread phase).threads thread = phase := by
  simp [withThread]

lemma threads_withThread_of_ne (s : CheckpointRun) {thread other : ℕ}
    (phase : Option CheckpointPhase) (h : other ≠ thread) :
    (s.withThread thread phase).threads other = s.threads other := by
  simp [withThread,h]

lemma mem_kept_withThread {s : CheckpointRun} {thread : ℕ} {phase : Option CheckpointPhase}
    {x : Stamped Snapshot} (h : x ∈ (s.withThread thread phase).kept) :
    x ∈ s.kept ∨ phase = some (.saving x) := by
  obtain h | ⟨other,h⟩ := h
  · exact Or.inl (Or.inl h)
  · by_cases ho : other = thread
    · subst ho
      rw [threads_withThread] at h
      exact Or.inr h
    · rw [threads_withThread_of_ne s phase ho] at h
      exact Or.inl (Or.inr ⟨other,h⟩)

/-- A thread goes on without capturing anything that the corpus is not or was not. -/
lemma Sound.withThread {s : CheckpointRun} (h : s.Sound cuts) (thread : ℕ)
    {phase : Option CheckpointPhase}
    (hphase : ∀ x, phase = some (.saving x) → x = s.corpus.stamped)
    (hsaved : phase = some .saved → s.path.any = true) :
    (s.withThread thread phase).Sound cuts := by
  refine ⟨h.attached,?_,h.published,?_,h.performed,h.covered⟩
  · refine h.chronicle.record.mono fun x hx => ?_
    obtain hx | hx := mem_kept_withThread hx
    · exact Set.mem_insert_of_mem _ hx
    · rw [hphase x hx]
      exact Set.mem_insert _ _
  · intro other ho
    by_cases heq : other = thread
    · subst heq
      rw [threads_withThread] at ho
      exact hsaved ho
    · rw [threads_withThread_of_ne s phase heq] at ho
      exact h.saved other ho

lemma Sound.requested {s : CheckpointRun} (h : s.Sound cuts) {r : Corpus.Request}
    (hcuts : r.LeavesFrames cuts) : (s.requested r).Sound cuts := by
  have hbefore := Corpus.before_request s.corpus r
  obtain ⟨new,hnew⟩ := h.attached.recorded_request hcuts
  obtain ⟨logged,hlogs,hcovered⟩ := h.covered
  have hack : ∀ m ∈ (s.requested r).acknowledged,
      m ∈ s.acknowledged ∨ m ∈ s.corpus.performed (s.corpus.request r).2 := by
    intro m hm
    unfold CheckpointRun.requested at hm
    dsimp only at hm
    split_ifs at hm
    · exact List.mem_append.mp hm
    · exact Or.inl hm
  refine ⟨hnew.attached,h.chronicle.advance hbefore,h.published,h.saved,?_,
    logged ++ new,hnew.log logged hlogs,?_⟩
  · intro m hm
    obtain hm | hm := hack m hm
    · exact (h.performed m hm).mono hbefore.le
    · exact Corpus.has_of_performed hm
  · intro m hm
    obtain hm | hm := hack m hm
    · obtain hsaved | hlogged := hcovered m hm
      · exact Or.inl hsaved
      · exact Or.inr (List.mem_append_left _ hlogged)
    · exact Or.inr (List.mem_append_right _ (hnew.performed hm))

/-- What is published holds all that the file held, if that was a snapshot of the corpus. -/
lemma Sound.publish {s : CheckpointRun} (h : s.Sound cuts) {thread : ℕ}
    {captured : Stamped Snapshot} (ht : s.threads thread = some (.saving captured))
    (written : Bool) : (s.publish thread captured written).Sound cuts := by
  have hmem : captured ∈ s.kept := Or.inr ⟨thread,ht⟩
  unfold CheckpointRun.publish
  split_ifs with hsuper hwritten
  · exact h.withThread thread (fun x hx => by cases hx) (fun _ => hsuper.1)
  · obtain ⟨logged,hlogs,hcovered⟩ := h.covered
    refine ⟨h.attached,h.chronicle.mono ?_,fun _ => rfl,fun _ _ => rfl,h.performed,
      logged,hlogs,?_⟩
    · rintro x (⟨-,hstamp,hfile⟩ | hx)
      · have hx : captured = x := Prod.ext hstamp (Option.some.inj hfile)
        rw [← hx]
        exact hmem
      · have hx' : x ∈ (s.withThread thread (some .saved)).kept := Or.inr hx
        obtain hx' | hx' := mem_kept_withThread hx'
        · exact hx'
        · cases hx'
    · intro m hm
      obtain ⟨hany,f,hf,hhas⟩ | hlogged := hcovered m hm
      · left
        have hle : s.path.published ≤ captured.1 := not_lt.mp fun hlt => hsuper ⟨hany,hlt⟩
        have hfile : (s.path.published,f) ∈ s.kept := Or.inl ⟨hany,rfl,hf⟩
        exact ⟨rfl,captured.2,rfl,hhas.mono (h.chronicle.le_of_stamp_le hfile hmem hle)⟩
      · exact Or.inr hlogged
  · exact h.withThread thread (fun x hx => by cases hx) (fun hs => by cases hs)

/-- A refused truncation leaves the log, and any other empties it. -/
lemma content_truncate {w : Wal} (hopen : w.isOpen = true) (outcome : TruncateOutcome) :
    (w.truncate outcome).2.isOpen = true ∧ (w.truncate outcome).2.content =
      match outcome with
      | .refused _ => w.content
      | _ => [] := by
  unfold Wal.truncate
  rw [if_neg (by simp [hopen])]
  cases outcome with
  | truncated => exact ⟨hopen,rfl⟩
  | unsynced => exact ⟨hopen,rfl⟩
  | refused reason => exact ⟨hopen,rfl⟩

lemma Sound.truncate {s : CheckpointRun} (h : s.Sound cuts) {thread : ℕ} (outcome : TruncateOutcome)
    (ht : s.threads thread = some .saved) (hfile : s.Represented (.truncate thread outcome)) :
    (s.truncate thread outcome).Sound cuts := by
  have hidle : (s.withThread thread none).Sound cuts :=
    h.withThread thread (fun x hx => by cases hx) (fun hs => by cases hs)
  obtain ⟨hopen,hcontent⟩ := content_truncate h.attached.1 outcome
  obtain ⟨logged,hlogs,hcovered⟩ := h.covered
  have hsaved : ∀ f, s.file = some f → s.corpus.snapshotLocked ≤ f →
      ∀ m ∈ s.acknowledged, s.Saved m ∨ m ∈ ([] : List Mutation) := fun f hf hle m hm =>
    Or.inl ⟨h.saved thread ht,f,hf,(h.performed m hm).mono hle⟩
  have hempty : Logs cuts [] [] := ⟨[],rfl,by simp,List.nil_sublist _⟩
  unfold CheckpointRun.truncate
  dsimp only
  split_ifs
  · exact hidle
  · refine ⟨⟨hopen,h.attached.2⟩,hidle.chronicle,hidle.published,hidle.saved,hidle.performed,?_⟩
    change ∃ logged, Logs cuts (s.corpus.wal.truncate outcome).2.content logged ∧ _
    rw [hcontent]
    cases outcome with
    | refused reason => exact ⟨logged,hlogs,hcovered⟩
    | truncated =>
      obtain ⟨f,hf,hle⟩ := hfile
      exact ⟨[],hempty,hsaved f hf hle⟩
    | unsynced =>
      obtain ⟨f,hf,hle⟩ := hfile
      exact ⟨[],hempty,hsaved f hf hle⟩

/-- The writes of the action leave whole frames, unless writes may be cut. -/
def Action.LeavesFrames (cuts : Prop) : Action → Prop
  | .request r => r.LeavesFrames cuts
  | _ => True

lemma step_sound {s t : CheckpointRun} {a : Action} (h : s.Sound cuts) (hcuts : a.LeavesFrames cuts)
    (hfile : s.Represented a) (hs : s.step a = some t) : t.Sound cuts := by
  cases a with
  | request r =>
    cases hs
    exact h.requested hcuts
  | serialise thread =>
    simp only [step] at hs
    split at hs
    case h_1 =>
      cases hs
      exact h.withThread thread (fun x hx => by cases hx; rfl) (fun hsaved => by cases hsaved)
    case h_2 => cases hs
  | publish thread written =>
    simp only [step] at hs
    split at hs
    case h_1 captured ht =>
      cases hs
      exact h.publish ht written
    case h_2 => cases hs
  | truncate thread outcome =>
    simp only [step] at hs
    split at hs
    case h_1 ht =>
      cases hs
      exact h.truncate outcome ht hfile
    case h_2 => cases hs

lemma Action.LeavesFrames.of_true (a : Action) : a.LeavesFrames True := by
  cases a with
  | request r => exact Corpus.Request.LeavesFrames.of_true r
  | serialise thread => trivial
  | publish thread written => trivial
  | truncate thread outcome => trivial

/-- At every moment of a run in which each checkpoint truncates a log that the snapshot file has
caught up with, file and log have every acknowledged mutation. -/
theorem covered_of_run {s t : CheckpointRun} {actions : List Action} (hstart : s.Start)
    (hrun : Machine.run step s actions = some t)
    (hfile : Machine.Meets step Represented s actions) : t.Covered :=
  (Machine.run_invariant (fun _ a _ hi hc hs => step_sound hi (.of_true a) hc hs)
    (hstart.sound (logs_nil _)) hfile hrun).covers

/-- The action meets the condition of `covered_of_run` and cuts no write. -/
def Whole (s : CheckpointRun) (a : Action) : Prop := s.Represented a ∧ a.LeavesFrames False

/-- While no write is cut, a replay of the log delivers every acknowledged mutation that the file
lacks, up to the number of records that it accepts. -/
theorem replayed_of_run {s t : CheckpointRun} {actions : List Action} (hstart : s.Start)
    (hlog : Logs False s.corpus.wal.content []) (hrun : Machine.run step s actions = some t)
    (hwhole : Machine.Meets step Whole s actions) :
    ∃ records : List WalRecord, (records.length ≤ kMaxWalRecords →
        Wal.replay (some t.corpus.wal.content) = .ok records) ∧
      ∀ m ∈ t.acknowledged, (∃ f, t.file = some f ∧ f.Has m) ∨ m.record ∈ records := by
  have hsound : t.Sound False :=
    Machine.run_invariant (fun _ _ _ hi hc hs => step_sound hi hc.2 hc.1 hs) (hstart.sound hlog)
      hwhole hrun
  obtain ⟨logged,hlogs,hcovered⟩ := hsound.covered
  obtain ⟨records,hloggable,hcontent,hsub⟩ := hlogs.frames
  refine ⟨records,fun hcount => ?_,fun m hm => ?_⟩
  · have hreplay := Wal.replay_frames hloggable (cut_nil kRecordMagic)
      (by rwa [if_pos rfl,Nat.add_zero])
    rwa [List.append_nil,← hcontent] at hreplay
  · obtain ⟨-,hsaved⟩ | hlogged := hcovered m hm
    · exact Or.inl hsaved
    · exact Or.inr (hsub.subset (List.mem_map_of_mem hlogged))

def added (x : Char) : Action := .request (.addDocument (ascii [x]) (ascii [x]) ∅ [] .synced)

/-- A new corpus with a new log. -/
def fresh : CheckpointRun :=
  ⟨⟨{},[],[],∅,Wal.openAt Wal.empty,false,0⟩,⟨0,false⟩,none,fun _ => none,[]⟩

lemma fresh_start : fresh.Start := by
  have h : opened (fun _ => .ok ()) {} ⟨0,false⟩ none none = .ok fresh := rfl
  exact opened_start (by simp) h

/-- A checkpoint between two mutations. -/
def quiet : List Action :=
  [added 'a',.serialise 0,.publish 0 true,.truncate 0 .truncated,added 'b']

theorem quiet_covered : ∃ t, Machine.run step fresh quiet = some t ∧ t.acknowledged.length = 2 ∧
    t.Covered := by
  have hrun : Machine.run step fresh quiet = some _ := rfl
  refine ⟨_,hrun,by decide +kernel,covered_of_run fresh_start hrun ?_⟩
  refine ⟨trivial,fun t ht => ?_⟩
  cases ht
  refine ⟨trivial,fun t ht => ?_⟩
  cases ht
  refine ⟨trivial,fun t ht => ?_⟩
  cases ht
  refine ⟨⟨_,rfl,le_refl _⟩,fun t ht => ?_⟩
  cases ht
  exact ⟨trivial,fun t ht => trivial⟩

def busy : List Action := [.serialise 0,added 'a',.publish 0 true,.truncate 0 .truncated]

/-- A document that is added while a checkpoint writes its snapshot is truncated from the log. -/
theorem added_during_checkpoint_lost :
    ¬ ∀ (s t : CheckpointRun) (actions : List Action), s.Start →
      Machine.run step s actions = some t → t.Covered := by
  intro h
  have hend : ∀ t, Machine.run step fresh busy = some t →
      t.corpus.wal.content = [] ∧ t.file.map Snapshot.docs = some [] ∧
        .added ⟨0,ascii ['a'],[],ascii ['a'],∅⟩ ∈ t.acknowledged := by
    intro t ht
    cases ht
    exact ⟨by decide +kernel,by decide +kernel,by decide +kernel⟩
  obtain ⟨t,ht⟩ : ∃ t, Machine.run step fresh busy = some t := ⟨_,rfl⟩
  obtain ⟨hcontent,hdocs,hacknowledged⟩ := hend t ht
  obtain ⟨logged,hlogs,hcovered⟩ := h fresh t busy fresh_start ht
  rw [hcontent] at hlogs
  obtain ⟨f,hf,hhas⟩ | hlogged := hcovered _ hacknowledged
  · rw [hf] at hdocs
    have hnone : f.docs = [] := Option.some.inj hdocs
    rw [Snapshot.Has,hnone] at hhas
    cases hhas
  · rw [hlogs.eq_nil] at hlogged
    cases hlogged

end CheckpointRun
end RagRuntime.Index
