import RagRuntime.Ingestion.Coordinator

/-! What one step of the coordinator can do, and the well-formedness that every step keeps. -/
namespace RagRuntime.Ingestion
open RagRuntime.Base RagRuntime.Core RagRuntime.Backend RagRuntime.Preparation RagRuntime.Text

namespace IngestionJob

/-- Two records of one job. -/
structure SameIdentity (a b : IngestionJob) : Prop where
  id : b.id = a.id
  operation : b.operation = a.operation
  document : b.input.document = a.input.document
  revision : b.revision = a.revision
  contentHash : b.contentHash = a.contentHash

/-- The prepared document is one of the job. -/
structure Prepares (job : IngestionJob) (prepared : PreparedDocument) : Prop where
  operation : job.operation = .upsert
  key : prepared.key = job.input.document
  contentHash : prepared.contentHash = job.contentHash

/-- A record as the coordinator writes it. -/
structure Sound (job : IngestionJob) : Prop where
  document : job.input.document ≠ []
  revision : job.revision ≠ 0
  hashed : job.operation = .upsert → job.input.content ≠ [] →
    normalizeSourceText job.input.content = job.input.content ∧
      job.contentHash = documentContentHash job.input.title job.input.content job.input.metadata
  prepared : job.status = .ready → job.operation = .upsert →
    ∃ prepared, job.prepared = some prepared ∧ ValidDocument prepared ∧ job.Prepares prepared

lemma SameIdentity.prepares {a b : IngestionJob} (h : a.SameIdentity b)
    {prepared : PreparedDocument}
    (hp : a.Prepares prepared) : b.Prepares prepared :=
  ⟨h.operation.trans hp.operation,hp.key.trans h.document.symm,
    hp.contentHash.trans h.contentHash.symm⟩

/-- Records that clear the content or leave the input alone, and are not ready. -/
lemma Sound.of_same {a b : IngestionJob} (h : a.Sound) (hsame : a.SameIdentity b)
    (hinput : b.input = a.input ∨ b.input.content = []) (hready : b.status ≠ .ready) : b.Sound := by
  refine ⟨hsame.document ▸ h.document,hsame.revision ▸ h.revision,?_,fun hr => absurd hr hready⟩
  intro hop hcontent
  obtain hinput | hcleared := hinput
  · rw [hinput] at hcontent ⊢
    rw [hsame.contentHash]
    exact h.hashed (hsame.operation ▸ hop) hcontent
  · exact absurd hcleared hcontent

lemma supersede_same (job : IngestionJob) (now : ℤ) : job.SameIdentity (job.supersede now) :=
  ⟨rfl,rfl,rfl,rfl,rfl⟩

end IngestionJob

namespace Progress

/-- The step fits the job it is a step of. -/
def Fits (job : IngestionJob) : Progress → Prop
  | .entered | .failing _ | .failingVolatile _ => True
  | .toChunking | .preparing => job.operation = .upsert
  | .toEmbedding prepared | .embedding prepared | .toPublishing prepared | .activating prepared =>
    job.Prepares prepared
  | .activated prepared => job.Prepares prepared ∧ ValidDocument prepared
  | .toErasing | .erasing | .erased _ => job.operation = .erase

/-- The backend has the job's effect already. -/
def Applied : Progress → Prop
  | .activated _ | .erased _ => True
  | _ => False

lemma Fits.of_same {a b : IngestionJob} {progress : Progress} (h : progress.Fits a)
    (hsame : a.SameIdentity b) : progress.Fits b := by
  cases progress with
  | entered => trivial
  | failing e => trivial
  | failingVolatile e => trivial
  | toChunking => exact hsame.operation.trans h
  | preparing => exact hsame.operation.trans h
  | toEmbedding d => exact hsame.prepares h
  | embedding d => exact hsame.prepares h
  | toPublishing d => exact hsame.prepares h
  | activating d => exact hsame.prepares h
  | activated d => exact ⟨hsame.prepares h.1,h.2⟩
  | toErasing => exact hsame.operation.trans h
  | erasing => exact hsame.operation.trans h
  | erased applied => exact hsame.operation.trans h

end Progress

namespace Coordinator

/-- What holds in every state of a coordinator. -/
structure Wf (s : Coordinator) : Prop where
  keyed : ∀ id job, s.jobs.find? id = some job → job.id = id
  latest : ∀ document id, s.latestJob.find? document = some id → ∃ job,
    s.jobs.find? id = some job ∧ job.input.document = document ∧
      s.latestRevision.find? document = some job.revision
  listed : ∀ document revision, s.latestRevision.find? document = some revision →
    ∃ id, s.latestJob.find? document = some id
  bounded : ∀ id job, s.jobs.find? id = some job → job.revision ≤ s.revisionOf job.input.document
  jobs : ∀ id job, s.jobs.find? id = some job → job.Sound
  frames : ∀ frame ∈ s.store.frames, frame.Sound
  executing : ∀ id progress, s.executing.find? id = some progress →
    ∃ job, s.jobs.find? id = some job ∧ progress.Fits job
  queue : s.queue.Nodup
  waiting : ∀ id ∈ s.queue, s.executing.find? id = none ∧ ∃ job, s.jobs.find? id = some job

/-- The job that a call creates if it gets as far as that. -/
def created (s : Coordinator) : Action → Option IngestionJob
  | .submit input _ clerk =>
    let input := { input with content := normalizeSourceText input.content }
    some (s.newJob .upsert input (documentContentHash input.title input.content input.metadata)
      clerk)
  | .erase document clerk => some (s.newJob .erase ⟨document,[],[],∅⟩ deletedHash clerk)
  | _ => none

/-- All writes of the action are acknowledged. -/
def Action.Synced : Action → Prop
  | .submit _ _ clerk | .erase _ clerk => clerk.saved = .synced ∧ clerk.savedOlder = .synced
  | .execute _ around => around.saved = .synced
  | _ => True

instance : ∀ a : Action, Decidable a.Synced
  | .submit _ _ clerk =>
    inferInstanceAs (Decidable (clerk.saved = .synced ∧ clerk.savedOlder = .synced))
  | .erase _ clerk =>
    inferInstanceAs (Decidable (clerk.saved = .synced ∧ clerk.savedOlder = .synced))
  | .execute _ around => inferInstanceAs (Decidable (around.saved = .synced))
  | .take => isTrue trivial
  | .compact => isTrue trivial
  | .shutdown => isTrue trivial

def Current (s : Coordinator) (job : IngestionJob) : Prop :=
  s.revisionOf job.input.document = job.revision

instance (s : Coordinator) (job : IngestionJob) : Decidable (s.Current job) := by
  unfold Current
  infer_instance

/-- A job that becomes ready has its effect, and an upsert records what it has activated. -/
structure BecomesReady (s : Coordinator) (next : IngestionJob) : Prop where
  current : s.Current next
  applied : ∃ progress : Progress, s.executing.find? next.id = some progress ∧ progress.Applied ∧
    ∀ prepared, progress = .activated prepared → next.prepared = some prepared

/-- What a transition writes about an open job. -/
structure Recorded (s : Coordinator) (job next : IngestionJob) : Prop where
  same : job.SameIdentity next
  sound : next.Sound
  ready : next.status = .ready → s.BecomesReady next
  superseded : next.status = .superseded → ¬s.Current next
  failed : next.status = .failed → ∃ e, s.executing.find? next.id = some (.failing e)
  status : next.status ≠ .cancelled

/-- A record that reaches the log: of a job in memory, or of the one that the action creates. -/
inductive Logged (s : Coordinator) (a : Action) (x : IngestionJob) : Prop
  | known (job : IngestionJob) (hjob : s.jobs.find? x.id = some job)
    (hopen : terminal job.status = false) (hsame : job.SameIdentity x) (hsound : x.Sound)
    (hready : x.status = .ready → s.BecomesReady x) : Logged s a x
  | created (hcreated : s.created a = some x) (hsound : x.Sound) (hfresh : s.Fresh x.id) :
    Logged s a x

/-- What a step does to the jobs, the log and the backend. -/
inductive Event (s : Coordinator) (a : Action) : Coordinator → Prop
  | quiet : Event s a s
  | recorded (id : JobId) (around : Surroundings) (ha : a = .execute id around)
    (job next : IngestionJob) (hjob : s.jobs.find? id = some job)
    (hopen : terminal job.status = false) (h : s.Recorded job next) (bytes : ℕ) :
    Event s a { s with jobs := s.jobs.insert id next, store := ⟨s.store.frames ++ [next],bytes⟩ }
  | spilled (extra : List IngestionJob) (h : ∀ x ∈ extra, s.Logged a x) (hlost : ¬a.Synced)
    (bytes : ℕ) : Event s a { s with store := ⟨s.store.frames ++ extra,bytes⟩ }
  | failedVolatile (id : JobId) (e : Error) (hid : s.executing.find? id = some (.failingVolatile e))
    (job next : IngestionJob) (hjob : s.jobs.find? id = some job)
    (hopen : terminal job.status = false) (hsame : job.SameIdentity next) (hsound : next.Sound)
    (hstatus : next.status = .failed ∨ next.status = .superseded) :
    Event s a { s with jobs := s.jobs.insert id next }
  | activated (id : JobId) (around : Surroundings) (ha : a = .execute id around)
    (job : IngestionJob) (prepared : PreparedDocument) (hjob : s.jobs.find? id = some job)
    (hid : s.executing.find? id = some (.activating prepared))
    (hopen : terminal job.status = false) (hcurrent : s.Current job) (backend : CatalogBackend)
    (h : s.backend.activate prepared job.revision around.built = (.ok (),backend)) :
    Event s a { s with backend := backend,
                       executing := s.executing.insert id (.activated prepared) }
  | erased (id : JobId) (around : Surroundings) (ha : a = .execute id around)
    (job : IngestionJob) (applied : Bool) (hjob : s.jobs.find? id = some job)
    (hid : s.executing.find? id = some .erasing) (backend : CatalogBackend)
    (h : s.backend.erase job.input.document job.revision around.built = (.ok applied,backend)) :
    Event s a { s with backend := backend, executing := s.executing.insert id (.erased applied) }
  | accepted (job : IngestionJob) (hcreated : s.created a = some job) (hsound : job.Sound)
    (hfresh : s.Fresh job.id) (hopen : ∀ older, s.latestOf job.input.document = some older →
      terminal older.status = true) (bytes : ℕ) :
    Event s a ({ s with store := ⟨s.store.frames ++ [job],bytes⟩ }.enlist job)
  | replaced (job older : IngestionJob) (later : ℤ) (hcreated : s.created a = some job)
    (hsound : job.Sound) (hfresh : s.Fresh job.id)
    (holder : s.latestOf job.input.document = some older) (hopen : terminal older.status = false)
    (bytes : ℕ) :
    Event s a (({ s with store :=
      ⟨s.store.frames ++ [job] ++ [older.supersede later],bytes⟩ }.setJob
        (older.supersede later)).enlist job)
  | compacted : Event s a { s with backend := s.backend.compact }

/-- What is left of a step: where the threads stand, the queue and the stop flag. -/
structure Moved (m t : Coordinator) : Prop where
  eq : t = { m with queue := t.queue, stopping := t.stopping, executing := t.executing }
  executing : ∀ id progress, t.executing.find? id = some progress →
    m.executing.find? id = some progress ∨
      ¬progress.Applied ∧ ∃ job, m.jobs.find? id = some job ∧ progress.Fits job
  queue : t.queue.Nodup
  waiting : ∀ id ∈ t.queue, t.executing.find? id = none ∧ ∃ job, m.jobs.find? id = some job

/-- What threads keep as long as writes are acknowledged: no thread with an open job whose effect it
has applied is lost, and no write has to be made up for. -/
structure Kept (m t : Coordinator) : Prop where
  applied : ∀ id progress job, m.executing.find? id = some progress → progress.Applied →
    m.jobs.find? id = some job → terminal job.status = false →
    t.executing.find? id = some progress
  written : ∀ id e, t.executing.find? id = some (.failingVolatile e) →
    m.executing.find? id = some (.failingVolatile e)

section
variable {s : Coordinator}

@[simp] lemma revisionOf_enlist (s : Coordinator) (job : IngestionJob) (document : Bytes) :
    (s.enlist job).revisionOf document =
      if document = job.input.document then job.revision else s.revisionOf document := by
  unfold revisionOf enlist
  rw [OrdMap.find?_insert]
  split_ifs <;> rfl

lemma Wf.withStore (h : s.Wf) {store : JobStore} (hframes : ∀ x ∈ store.frames, x.Sound) :
    { s with store := store }.Wf :=
  ⟨h.keyed,h.latest,h.listed,h.bounded,h.jobs,hframes,h.executing,h.queue,h.waiting⟩

lemma Wf.withBackend (h : s.Wf) (backend : CatalogBackend) : { s with backend := backend }.Wf :=
  ⟨h.keyed,h.latest,h.listed,h.bounded,h.jobs,h.frames,h.executing,h.queue,h.waiting⟩

/-- A new record of a known job. -/
lemma Wf.record (h : s.Wf) {id : JobId} {job next : IngestionJob}
    (hjob : s.jobs.find? id = some job) (hsame : job.SameIdentity next) (hsound : next.Sound) :
    { s with jobs := s.jobs.insert id next }.Wf where
  keyed := by
    intro id' x hx
    rw [OrdMap.find?_insert] at hx
    split_ifs at hx with hid
    · cases hx
      rw [hsame.id,h.keyed id job hjob,hid]
    · exact h.keyed id' x hx
  latest := by
    intro document id' hlatest
    obtain ⟨x,hx,hdocument,hrevision⟩ := h.latest document id' hlatest
    by_cases hid : id' = id
    · subst hid
      cases hjob.symm.trans hx
      exact ⟨next,by simp,hsame.document.trans hdocument,by rw [hsame.revision]; exact hrevision⟩
    · exact ⟨x,by simpa [hid] using hx,hdocument,hrevision⟩
  listed := h.listed
  bounded := by
    intro id' x hx
    rw [OrdMap.find?_insert] at hx
    split_ifs at hx with hid
    · cases hx
      change next.revision ≤ s.revisionOf next.input.document
      rw [hsame.revision,hsame.document]
      exact h.bounded id job hjob
    · exact h.bounded id' x hx
  jobs := by
    intro id' x hx
    rw [OrdMap.find?_insert] at hx
    split_ifs at hx with hid
    · cases hx
      exact hsound
    · exact h.jobs id' x hx
  frames := h.frames
  executing := by
    intro id' progress hprogress
    obtain ⟨x,hx,hfits⟩ := h.executing id' progress hprogress
    by_cases hid : id' = id
    · subst hid
      cases hjob.symm.trans hx
      exact ⟨next,by simp,hfits.of_same hsame⟩
    · exact ⟨x,by simpa [hid] using hx,hfits⟩
  queue := h.queue
  waiting := by
    intro id' hid'
    obtain ⟨hnone,x,hx⟩ := h.waiting id' hid'
    by_cases hid : id' = id
    · exact ⟨hnone,next,by simp [hid]⟩
    · exact ⟨hnone,x,by simpa [hid] using hx⟩

/-- A new job of a document. -/
lemma Wf.enlist (h : s.Wf) {job : IngestionJob} (hnew : s.jobs.find? job.id = none)
    (hsound : job.Sound) (hrevision : s.revisionOf job.input.document ≤ job.revision) :
    (s.enlist job).Wf := by
  have hother : ∀ {id x}, s.jobs.find? id = some x → (s.enlist job).jobs.find? id = some x := by
    intro id x hx
    have hne : id ≠ job.id := fun hid => by rw [hid,hnew] at hx; cases hx
    simpa [Coordinator.enlist,hne] using hx
  constructor
  · intro id x hx
    simp only [Coordinator.enlist,OrdMap.find?_insert] at hx
    split_ifs at hx with hid
    · cases hx
      exact hid.symm
    · exact h.keyed id x hx
  · intro document id hlatest
    simp only [Coordinator.enlist,OrdMap.find?_insert] at hlatest ⊢
    split_ifs at hlatest with hdocument
    · cases hlatest
      exact ⟨job,by simp,hdocument.symm,by rw [if_pos hdocument]⟩
    · obtain ⟨x,hx,hxdocument,hxrevision⟩ := h.latest document id hlatest
      exact ⟨x,by simpa [Coordinator.enlist] using hother hx,hxdocument,
        by rw [if_neg hdocument]; exact hxrevision⟩
  · intro document revision hlisted
    simp only [Coordinator.enlist,OrdMap.find?_insert] at hlisted ⊢
    split_ifs at hlisted ⊢ with hdocument
    · exact ⟨job.id,rfl⟩
    · exact h.listed document revision hlisted
  · intro id x hx
    simp only [Coordinator.enlist,OrdMap.find?_insert] at hx
    rw [revisionOf_enlist]
    split_ifs at hx with hid
    · cases hx
      rw [if_pos rfl]
    · have hbound := h.bounded id x hx
      split_ifs with hdocument
      · exact (hdocument ▸ hbound).trans hrevision
      · exact hbound
  · intro id x hx
    simp only [Coordinator.enlist,OrdMap.find?_insert] at hx
    split_ifs at hx with hid
    · cases hx
      exact hsound
    · exact h.jobs id x hx
  · exact h.frames
  · intro id progress hprogress
    obtain ⟨x,hx,hfits⟩ := h.executing id progress hprogress
    exact ⟨x,hother hx,hfits⟩
  · exact h.queue
  · intro id hid
    obtain ⟨hnone,x,hx⟩ := h.waiting id hid
    exact ⟨hnone,x,hother hx⟩

/-- A thread goes on. -/
lemma Wf.goOn (h : s.Wf) {id : JobId} {progress : Progress} {job : IngestionJob}
    (hwaiting : id ∉ s.queue) (hjob : s.jobs.find? id = some job) (hfits : progress.Fits job) :
    (s.setProgress id progress).Wf where
  keyed := h.keyed
  latest := h.latest
  listed := h.listed
  bounded := h.bounded
  jobs := h.jobs
  frames := h.frames
  executing := by
    intro id' progress' hprogress
    simp only [setProgress,OrdMap.find?_insert] at hprogress
    split_ifs at hprogress with hid
    · cases hprogress
      exact ⟨job,hid ▸ hjob,hfits⟩
    · exact h.executing id' progress' hprogress
  queue := h.queue
  waiting := by
    intro id' hid'
    have hne : id' ≠ id := fun hid => hwaiting (hid ▸ hid')
    simpa [setProgress,hne] using h.waiting id' hid'

lemma created_revision {a : Action} {job : IngestionJob} (h : s.created a = some job) :
    job.revision = s.revisionOf job.input.document + 1 := by
  cases a with
  | submit input asynchronous clerk => cases h; rfl
  | erase document clerk => cases h; rfl
  | take => cases h
  | execute id around => cases h
  | compact => cases h
  | shutdown => cases h

lemma created_status {a : Action} {job : IngestionJob} (h : s.created a = some job) :
    job.status = .queued := by
  cases a with
  | submit input asynchronous clerk => cases h; rfl
  | erase document clerk => cases h; rfl
  | take => cases h
  | execute id around => cases h
  | compact => cases h
  | shutdown => cases h

lemma not_waiting (h : s.Wf) {id : JobId} {progress : Progress}
    (hid : s.executing.find? id = some progress) : id ∉ s.queue := fun hmem => by
  rw [(h.waiting id hmem).1] at hid
  cases hid

lemma Wf.idle_of_fresh (h : s.Wf) {id : JobId} (hnew : s.jobs.find? id = none) :
    s.executing.find? id = none := by
  cases hid : s.executing.find? id with
  | none => rfl
  | some progress =>
    obtain ⟨job,hjob,-⟩ := h.executing id progress hid
    rw [hnew] at hjob
    cases hjob

lemma latestOf_spec (h : s.Wf) {document : Bytes} {older : IngestionJob}
    (holder : s.latestOf document = some older) :
    s.latestJob.find? document = some older.id ∧ s.jobs.find? older.id = some older ∧
      older.input.document = document ∧ s.revisionOf document = older.revision := by
  obtain ⟨id,hid,hjob⟩ := Option.bind_eq_some_iff.mp holder
  obtain ⟨job,hfound,hdocument,hrevision⟩ := h.latest document id hid
  cases hjob.symm.trans hfound
  have hkey := h.keyed id older hjob
  exact ⟨hkey ▸ hid,hkey ▸ hjob,hdocument,by rw [revisionOf,hrevision]; rfl⟩

/-- Every event keeps the coordinator well formed. -/
theorem Event.wf {a : Action} {m : Coordinator} (hevent : s.Event a m) (h : s.Wf) : m.Wf := by
  cases hevent with
  | quiet => exact h
  | recorded id around ha job next hjob hopen hrecorded bytes =>
    apply Wf.withStore (h.record hjob hrecorded.same hrecorded.sound)
    intro x hx
    obtain hx | hx := List.mem_append.mp hx
    · exact h.frames x hx
    · exact List.mem_singleton.mp hx ▸ hrecorded.sound
  | spilled extra hextra hlost bytes =>
    apply h.withStore
    intro x hx
    obtain hx | hx := List.mem_append.mp hx
    · exact h.frames x hx
    · cases hextra x hx with
      | known job hjob hopen hsame hsound hready => exact hsound
      | created hcreated hsound hfresh => exact hsound
  | failedVolatile id e hid job next hjob hopen hsame hsound hstatus =>
    exact h.record hjob hsame hsound
  | activated id around ha job prepared hjob hid hopen hcurrent backend hactivated =>
    obtain ⟨x,hx,hfits⟩ := h.executing id _ hid
    have hvalid : ValidDocument prepared := by
      have h := s.backend.activate_activated prepared job.revision around.built
      rw [hactivated] at h
      cases h with
      | already hvalid halready => exact hvalid
      | published hvalid hrevision hfresh => exact hvalid
    exact (h.withBackend backend).goOn (not_waiting h hid) hx ⟨hfits,hvalid⟩
  | erased id around ha job applied hjob hid backend herased =>
    obtain ⟨x,hx,hfits⟩ := h.executing id _ hid
    exact (h.withBackend backend).goOn (not_waiting h hid) hx hfits
  | accepted job hcreated hsound hfresh hopen bytes =>
    have hstore : { s with store := ⟨s.store.frames ++ [job],bytes⟩ }.Wf := by
      apply h.withStore
      intro x hx
      obtain hx | hx := List.mem_append.mp hx
      · exact h.frames x hx
      · exact List.mem_singleton.mp hx ▸ hsound
    exact hstore.enlist hfresh.1 hsound ((Nat.le_succ _).trans (created_revision hcreated).ge)
  | replaced job older later hcreated hsound hfresh holder hopen bytes =>
    obtain ⟨-,hfound,-,-⟩ := latestOf_spec h holder
    have hsame := older.supersede_same later
    have hsuperseded : (older.supersede later).Sound :=
      (h.jobs older.id older hfound).of_same hsame (.inr rfl) (by simp [IngestionJob.supersede])
    have hnew : job.id ≠ older.id := fun hid => by
      rw [← hid,hfresh.1] at hfound
      cases hfound
    have hstore : { s with store :=
        ⟨s.store.frames ++ [job] ++ [older.supersede later],bytes⟩ }.Wf := by
      apply h.withStore
      intro x hx
      simp only [List.mem_append,List.mem_singleton] at hx
      obtain (hx | hx) | hx := hx
      · exact h.frames x hx
      · exact hx ▸ hsound
      · exact hx ▸ hsuperseded
    have hset : ({ s with
        store := ⟨s.store.frames ++ [job] ++ [older.supersede later],bytes⟩ }.setJob
          (older.supersede later)).Wf := hstore.record hfound hsame hsuperseded
    refine hset.enlist ?_ hsound ((Nat.le_succ _).trans (created_revision hcreated).ge)
    have hid : (older.supersede later).id = older.id := rfl
    simpa [setJob,hid,hnew] using hfresh.1
  | compacted => exact h.withBackend _

/-- Threads, queue and stop flag move on without breaking well-formedness. -/
theorem Moved.wf {m t : Coordinator} (hmoved : Moved m t) (h : m.Wf) : t.Wf := by
  rw [hmoved.eq]
  refine ⟨h.keyed,h.latest,h.listed,h.bounded,h.jobs,h.frames,?_,hmoved.queue,hmoved.waiting⟩
  intro id progress hprogress
  obtain hold | ⟨-,hnew⟩ := hmoved.executing id progress hprogress
  · exact h.executing id progress hold
  · exact hnew

lemma wf_start (backend : CatalogBackend) : (start backend).Wf := by
  refine ⟨?_,?_,?_,?_,?_,?_,?_,List.nodup_nil,?_⟩
  · intro id job h
    cases h
  · intro document id h
    cases h
  · intro document revision h
    cases h
  · intro id job h
    cases h
  · intro id job h
    cases h
  · intro frame h
    cases h
  · intro id progress h
    cases h
  · intro id h
    cases h

end

end Coordinator
end RagRuntime.Ingestion
