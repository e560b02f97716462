import RagRuntime.Ingestion.Threads

/-! The books of a coordinator: which threads execute which jobs, and what the backend has taken.
The coordinator itself keeps neither; its state determines both. -/
namespace RagRuntime.Ingestion
open RagRuntime.Base RagRuntime.Core RagRuntime.Backend RagRuntime.Preparation

namespace Coordinator

/-- The mutation of a document that the backend takes in a step. -/
def mutation (s : Coordinator) : Action → Option (Bytes × ℕ)
  | .execute id around =>
    match s.executing.find? id,s.jobs.find? id with
    | some (.activating prepared),some job =>
      if terminal job.status ∨ s.revisionOf job.input.document ≠ job.revision then none
      else if (s.backend.activate prepared job.revision around.built).1.isOk then
        some (job.input.document,job.revision)
      else none
    | some .erasing,some job =>
      if (s.backend.erase job.input.document job.revision around.built).1.isOk then
        some (job.input.document,job.revision)
      else none
    | _,_ => none
  | _ => none

/-- The jobs of the threads behind a step: a thread takes the first of the queue or the job that a
call without a queue has created, and lets go of a job at the end of its execution. -/
def holdersAfter (s t : Coordinator) (holders : List JobId) : Action → List JobId
  | .submit _ false clerk | .erase _ clerk =>
    if t.executing.contains clerk.id then clerk.id::holders else holders
  | .take => s.queue.head?.toList ++ holders
  | .execute id _ => if t.executing.contains id then holders else holders.erase id
  | _ => holders

end Coordinator

/-- A coordinator with the job of each thread that executes one, and the mutations so far. -/
structure Ledger where
  coordinator : Coordinator
  holders : List JobId
  mutations : List (Bytes × ℕ)

namespace Ledger
open Coordinator

def start (backend : CatalogBackend) : Ledger := ⟨Coordinator.start backend,[],[]⟩

def step (cfg : CoordinatorConfig) (l : Ledger) (a : Action) : Option Ledger :=
  (l.coordinator.step cfg a).map fun t => ⟨t,l.coordinator.holdersAfter t l.holders a,
    l.mutations ++ (l.coordinator.mutation a).toList⟩

/-- The job whose mutation this is. It has been applied, and will not be again. -/
def Applied (s : Coordinator) (m : Bytes × ℕ) : Prop :=
  ∃ id job, s.jobs.find? id = some job ∧ job.input.document = m.1 ∧ job.revision = m.2 ∧
    id ∉ s.queue ∧ ∀ progress, s.executing.find? id = some progress → progress.Applied

/-- What holds of the books as long as all writes are acknowledged. -/
structure Balanced (l : Ledger) : Prop where
  serial : l.coordinator.Serial
  holders : ∀ id, l.holders.count id = if l.coordinator.executing.contains id then 1 else 0
  working : ∀ id job, l.coordinator.jobs.find? id = some job → terminal job.status = false →
    id ∈ l.coordinator.queue ∨ ∃ progress, l.coordinator.executing.find? id = some progress
  reached : ∀ m ∈ l.mutations, ∃ latest,
    l.coordinator.backend.latestRevisions.find? m.1 = some latest ∧ m.2 ≤ latest
  applied : ∀ m ∈ l.mutations, Applied l.coordinator m
  ascending : l.mutations.Pairwise fun m n => m.1 = n.1 → m.2 < n.2

/-- What a user of the coordinator may rely on. -/
structure InOrder (cfg : CoordinatorConfig) (l : Ledger) : Prop where
  oneOpen : ∀ i j a b, l.coordinator.jobs.find? i = some a → l.coordinator.jobs.find? j = some b →
    a.input.document = b.input.document → terminal a.status = false → terminal b.status = false →
    i = j
  latest : ∀ id job, l.coordinator.jobs.find? id = some job → terminal job.status = false →
    l.coordinator.latestJob.find? job.input.document = some id ∧
      l.coordinator.latestRevision.find? job.input.document = some job.revision
  closed : ∀ id job, l.coordinator.jobs.find? id = some job → terminal job.status = true →
    ∀ actions t, Machine.run (Coordinator.step cfg) l.coordinator actions = some t →
      t.jobs.find? id = some job
  /-- Either once in the queue or with one thread. -/
  working : ∀ id job, l.coordinator.jobs.find? id = some job → terminal job.status = false →
    l.coordinator.queue.count id + l.holders.count id = 1
  mutations : l.mutations.Pairwise fun m n => m.1 = n.1 → m.2 < n.2

section
variable {cfg : CoordinatorConfig} {s t : Coordinator} {a : Action} {id : JobId}
  {job : IngestionJob}

/-- A job that is known stays known, and nothing more happens to it once it has ended. -/
theorem step_jobs (h : s.Wf) (hstep : s.step cfg a = some t) (hjob : s.jobs.find? id = some job) :
    ∃ next, t.jobs.find? id = some next ∧ job.SameIdentity next ∧
      (terminal job.status = true → next = job) := by
  obtain ⟨m,hevent,hmoved,-⟩ := step_stepped h hstep
  have hsame : t.jobs = m.jobs := by rw [hmoved.eq]
  rw [hsame]
  have hkept : ∃ next, s.jobs.find? id = some next ∧ job.SameIdentity next ∧
      (terminal job.status = true → next = job) :=
    ⟨job,hjob,IngestionJob.SameIdentity.refl job,fun _ => rfl⟩
  have hrecord : ∀ i before next, s.jobs.find? i = some before → terminal before.status = false →
      before.SameIdentity next → ∃ x, (s.jobs.insert i next).find? id = some x ∧
        job.SameIdentity x ∧ (terminal job.status = true → x = job) := by
    intro i before next hbefore hopen hnext
    rw [OrdMap.find?_insert]
    split_ifs with hi
    · subst hi
      cases hjob.symm.trans hbefore
      exact ⟨next,rfl,hnext,fun hclosed => by rw [hopen] at hclosed; cases hclosed⟩
    · exact hkept
  have hnew : ∀ x : IngestionJob, s.Fresh x.id → id ≠ x.id := by
    rintro x hfresh rfl
    rw [hfresh.1] at hjob
    cases hjob
  cases hevent with
  | quiet => exact hkept
  | recorded i around ha before next hbefore hopen hrecorded bytes =>
    exact hrecord i before next hbefore hopen hrecorded.same
  | spilled extra hextra hlost bytes => exact hkept
  | failedVolatile i e hid before next hbefore hopen hnext hsound hstatus =>
    exact hrecord i before next hbefore hopen hnext
  | activated i around ha x prepared hx hid hopen hcurrent backend hactivated => exact hkept
  | erased i around ha x applied hx hid backend herased => exact hkept
  | accepted x hcreated hsound hfresh hopen bytes =>
    simp only [enlist,OrdMap.find?_insert,if_neg (hnew x hfresh)]
    exact hkept
  | replaced x older later hcreated hsound hfresh holder hopen bytes =>
    obtain ⟨-,hfound,-,-⟩ := latestOf_spec h holder
    have hrecorded := hrecord older.id older (older.supersede later) hfound hopen
      (older.supersede_same later)
    simp only [enlist,setJob,OrdMap.find?_insert,if_neg (hnew x hfresh)]
    rw [OrdMap.find?_insert] at hrecorded
    exact hrecorded
  | compacted => exact hkept

/-- The backend takes a revision only if it has none that is newer. -/
lemma activate_raises {b c : CatalogBackend} {document : PreparedDocument} {revision : ℕ}
    {built : Result Unit} (h : b.activate document revision built = (.ok (),c)) :
    (∀ latest, b.latestRevisions.find? document.key = some latest → latest ≤ revision) ∧
      c.latestRevisions.find? document.key = some revision ∧
      ∀ other, other ≠ document.key →
        c.latestRevisions.find? other = b.latestRevisions.find? other := by
  have hactivated := b.activate_activated document revision built
  rw [h] at hactivated
  cases hactivated with
  | already hvalid halready =>
    obtain ⟨hlatest,-⟩ := CatalogBackend.alreadyActive_eq_true.mp halready
    refine ⟨fun latest hfound => ?_,hlatest,fun _ _ => rfl⟩
    exact (Option.some.inj (hfound.symm.trans hlatest)).le
  | published hvalid hrevision hfresh =>
    refine ⟨fun latest hfound => (CatalogBackend.stale_eq_false.mp hfresh latest hfound).le,?_,?_⟩
    · simp [CatalogBackend.publish]
    · intro other hne
      simp [CatalogBackend.publish,hne]

lemma erase_raises {b c : CatalogBackend} {document : Bytes} {revision : ℕ} {built : Result Unit}
    {applied : Bool} (h : b.erase document revision built = (.ok applied,c)) :
    (∀ latest, b.latestRevisions.find? document = some latest → latest ≤ revision) ∧
      c.latestRevisions.find? document = some revision ∧
      ∀ other, other ≠ document →
        c.latestRevisions.find? other = b.latestRevisions.find? other := by
  have herased := b.erase_erased document revision built
  rw [h] at herased
  cases herased with
  | already hlatest hgone =>
    refine ⟨fun latest hfound => ?_,hlatest,fun _ _ => rfl⟩
    exact (Option.some.inj (hfound.symm.trans hlatest)).le
  | published hdocument hrevision hfresh =>
    refine ⟨fun latest hfound => (CatalogBackend.stale_eq_false.mp hfresh latest hfound).le,?_,?_⟩
    · simp [CatalogBackend.publish]
    · intro other hne
      simp [CatalogBackend.publish,hne]

/-- Latest revisions of the backend do not go back. -/
lemma step_reached (h : s.Wf) (hstep : s.step cfg a = some t) {document : Bytes} {latest : ℕ}
    (hlatest : s.backend.latestRevisions.find? document = some latest) :
    ∃ later, t.backend.latestRevisions.find? document = some later ∧ latest ≤ later := by
  obtain ⟨m,hevent,hmoved,-⟩ := step_stepped h hstep
  have hsame : t.backend = m.backend := by rw [hmoved.eq]
  rw [hsame]
  have hraised : ∀ {c : CatalogBackend} {key : Bytes} {revision : ℕ},
      (∀ latest, s.backend.latestRevisions.find? key = some latest → latest ≤ revision) →
      c.latestRevisions.find? key = some revision →
      (∀ other, other ≠ key → c.latestRevisions.find? other =
        s.backend.latestRevisions.find? other) →
      ∃ later, c.latestRevisions.find? document = some later ∧ latest ≤ later := by
    intro c key revision hbound hkey hothers
    by_cases hdocument : document = key
    · subst hdocument
      exact ⟨revision,hkey,hbound latest hlatest⟩
    · exact ⟨latest,(hothers document hdocument).trans hlatest,le_rfl⟩
  cases hevent with
  | quiet => exact ⟨latest,hlatest,le_rfl⟩
  | recorded i around ha before next hbefore hopen hrecorded bytes => exact ⟨latest,hlatest,le_rfl⟩
  | spilled extra hextra hlost bytes => exact ⟨latest,hlatest,le_rfl⟩
  | failedVolatile i e hid before next hbefore hopen hsame hsound hstatus =>
    exact ⟨latest,hlatest,le_rfl⟩
  | activated i around ha x prepared hx hid hopen hcurrent backend hactivated =>
    obtain ⟨hbound,hkey,hothers⟩ := activate_raises hactivated
    exact hraised hbound hkey hothers
  | erased i around ha x applied hx hid backend herased =>
    obtain ⟨hbound,hkey,hothers⟩ := erase_raises herased
    exact hraised hbound hkey hothers
  | accepted x hcreated hsound hfresh hopen bytes => exact ⟨latest,hlatest,le_rfl⟩
  | replaced x older later hcreated hsound hfresh holder hopen bytes =>
    exact ⟨latest,hlatest,le_rfl⟩
  | compacted => exact ⟨latest,hlatest,le_rfl⟩

/-- The backend has nothing new without a mutation. -/
theorem unmutated (h : s.Wf) (hstep : s.step cfg a = some t) (hnone : s.mutation a = none) :
    t.backend.documents = s.backend.documents ∧
      t.backend.latestRevisions = s.backend.latestRevisions := by
  obtain ⟨m,hevent,hmoved,-⟩ := step_stepped h hstep
  have hsame : t.backend = m.backend := by rw [hmoved.eq]
  rw [hsame]
  cases hevent with
  | quiet => exact ⟨rfl,rfl⟩
  | recorded i around ha before next hbefore hopen hrecorded bytes => exact ⟨rfl,rfl⟩
  | spilled extra hextra hlost bytes => exact ⟨rfl,rfl⟩
  | failedVolatile i e hid before next hbefore hopen hsame hsound hstatus => exact ⟨rfl,rfl⟩
  | activated i around ha x prepared hx hid hopen hcurrent backend hactivated =>
    subst ha
    have hleft : ¬(terminal x.status = true ∨ s.revisionOf x.input.document ≠ x.revision) := by
      rw [not_or,not_not]
      exact ⟨by rw [hopen]; exact Bool.false_ne_true,hcurrent⟩
    simp only [mutation,hid,hx,hactivated,if_neg hleft] at hnone
    cases hnone
  | erased i around ha x applied hx hid backend herased =>
    subst ha
    simp only [mutation,hid,hx,herased] at hnone
    cases hnone
  | accepted x hcreated hsound hfresh hopen bytes => exact ⟨rfl,rfl⟩
  | replaced x older later hcreated hsound hfresh holder hopen bytes => exact ⟨rfl,rfl⟩
  | compacted => exact ⟨rfl,rfl⟩

lemma setProgress_self (s : Coordinator) (id : JobId) (progress : Progress) :
    (s.setProgress id progress).executing.find? id = some progress := by
  rw [setProgress,OrdMap.find?_insert,if_pos rfl]

/-- A thread that has applied a mutation is done, or has to make up for a lost write. -/
lemma advance_none_executing (cfg : CoordinatorConfig) (s : Coordinator) (id : JobId)
    (change : Change) (around : Surroundings) :
    (s.advance cfg id change none around).executing.find? id = none ∨
      ∃ e, (s.advance cfg id change none around).executing.find? id = some
      (.failingVolatile e) := by
  unfold advance proceed
  dsimp only
  split
  · exact Or.inr ⟨_,setProgress_self _ id _⟩
  · exact Or.inl (by simp [finish])
  · exact Or.inl (by simp [finish])

lemma execute_applied (cfg : CoordinatorConfig) (s : Coordinator) (id : JobId)
    (around : Surroundings) {progress : Progress} (happlied : progress.Applied) :
    (s.execute cfg id around progress).executing.find? id = none ∨
      ∃ e, (s.execute cfg id around progress).executing.find? id = some (.failingVolatile e) := by
  cases progress with
  | activated prepared => exact advance_none_executing cfg s id _ around
  | erased applied => exact advance_none_executing cfg s id _ around
  | entered => cases happlied
  | toChunking => cases happlied
  | preparing => cases happlied
  | toEmbedding prepared => cases happlied
  | embedding prepared => cases happlied
  | toPublishing prepared => cases happlied
  | activating prepared => cases happlied
  | toErasing => cases happlied
  | erasing => cases happlied
  | failing e => cases happlied
  | failingVolatile e => cases happlied

/-- A mutation that has been applied stays so. -/
lemma Applied.step {m : Bytes × ℕ} (h : Applied s m) (hs : s.Wf) (ht : t.Serial)
    (hstep : s.step cfg a = some t) : Applied t m := by
  obtain ⟨id,job,hjob,hdocument,hrevision,hqueue,hprogress⟩ := h
  obtain ⟨next,hnext,hsame,-⟩ := step_jobs hs hstep hjob
  have hne : ∀ x : IngestionJob, s.Fresh x.id → id ≠ x.id := by
    rintro x hfresh rfl
    rw [hfresh.1] at hjob
    cases hjob
  refine ⟨id,next,hnext,hsame.document.trans hdocument,hsame.revision.trans hrevision,?_⟩
  cases step_threads hs hstep with
  | still hjobs hq hexecuting =>
    rw [hq,hexecuting]
    exact ⟨hqueue,hprogress⟩
  | enqueued x hcreated hfresh hjobs hq hexecuting =>
    rw [hq,hexecuting,List.mem_append,List.mem_singleton,not_or]
    exact ⟨⟨hqueue,hne x hfresh⟩,hprogress⟩
  | entered x hcreated hfresh hjobs hq hexecuting =>
    rw [hq,hexecuting,OrdMap.find?_insert,if_neg (hne x hfresh)]
    exact ⟨hqueue,hprogress⟩
  | taken other hjobs hq hexecuting =>
    rw [hq,List.mem_cons,not_or] at hqueue
    rw [hexecuting,OrdMap.find?_insert,if_neg hqueue.1]
    exact ⟨hqueue.2,hprogress⟩
  | continued other around progress ha hid hcontinues =>
    rw [hcontinues.spares.queue]
    refine ⟨hqueue,fun p hp => ?_⟩
    by_cases hother : id = other
    · subst hother
      subst ha
      obtain ⟨found,hfound,rfl⟩ := Option.map_eq_some_iff.mp hstep
      cases hid.symm.trans hfound
      obtain hnone | ⟨e,he⟩ := execute_applied cfg s id around (hprogress progress hid)
      · rw [hnone] at hp
        cases hp
      · exact absurd he (ht.written id e)
    · rw [hcontinues.spares.executing id hother] at hp
      exact hprogress p hp

/-- What it takes to mutate a document, and what it leaves. -/
structure Mutates (s : Coordinator) (t : Coordinator) (m : Bytes × ℕ) (id : JobId)
    (job : IngestionJob) : Prop where
  known : s.jobs.find? id = some job
  mutation : m = (job.input.document,job.revision)
  before : ∃ progress, s.executing.find? id = some progress ∧ ¬progress.Applied
  bound : ∀ latest, s.backend.latestRevisions.find? m.1 = some latest → latest ≤ m.2
  reached : t.backend.latestRevisions.find? m.1 = some m.2
  jobs : t.jobs = s.jobs
  queue : t.queue = s.queue
  after : ∃ progress, t.executing.find? id = some progress ∧ progress.Applied

lemma mutation_mutates {m : Bytes × ℕ} (hs : s.Wf) (hmutation : s.mutation a = some m)
    (hstep : s.step cfg a = some t) : ∃ id job, Mutates s t m id job := by
  cases a with
  | execute id around =>
    obtain ⟨progress,hid,rfl⟩ := Option.map_eq_some_iff.mp hstep
    obtain ⟨job,hjob,hfits⟩ := hs.executing id progress hid
    simp only [mutation,hid,hjob] at hmutation
    refine ⟨id,job,?_⟩
    cases progress with
    | activating prepared =>
      dsimp only at hmutation
      split_ifs at hmutation with hleft hok
      cases hmutation
      simp only [execute,hjob,if_neg hleft]
      cases hresult : s.backend.activate prepared job.revision around.built with
      | mk result backend =>
        rw [hresult] at hok
        cases result with
        | error e => cases hok
        | ok u =>
          obtain ⟨hbound,hreached,-⟩ := activate_raises hresult
          have hkey : prepared.key = job.input.document := hfits.key
          rw [hkey] at hbound hreached
          exact ⟨hjob,rfl,⟨_,hid,not_false⟩,hbound,hreached,rfl,rfl,_,
            setProgress_self _ id _,trivial⟩
    | erasing =>
      dsimp only at hmutation
      split_ifs at hmutation with hok
      cases hmutation
      simp only [execute,hjob]
      cases hresult : s.backend.erase job.input.document job.revision around.built with
      | mk result backend =>
        rw [hresult] at hok
        cases result with
        | error e => cases hok
        | ok applied =>
          obtain ⟨hbound,hreached,-⟩ := erase_raises hresult
          exact ⟨hjob,rfl,⟨_,hid,not_false⟩,hbound,hreached,rfl,rfl,_,
            setProgress_self _ id _,trivial⟩
    | entered => cases hmutation
    | toChunking => cases hmutation
    | preparing => cases hmutation
    | toEmbedding prepared => cases hmutation
    | embedding prepared => cases hmutation
    | toPublishing prepared => cases hmutation
    | activated prepared => cases hmutation
    | toErasing => cases hmutation
    | erased applied => cases hmutation
    | failing e => cases hmutation
    | failingVolatile e => cases hmutation
  | submit input asynchronous clerk => cases hmutation
  | erase document clerk => cases hmutation
  | take => cases hmutation
  | compact => cases hmutation
  | shutdown => cases hmutation

/-- A call without a queue that has created a job goes on to execute it. -/
lemma given_executing (hs : s.Wf) (hstep : s.step cfg a = some t) (hgiven : s.created a = some job)
    (hwaits : ∀ input clerk, a ≠ .submit input true clerk) :
    t.executing = s.executing ∨ t.executing = s.executing.insert job.id .entered := by
  cases step_threads hs hstep with
  | still hjobs hq hexecuting => exact Or.inl hexecuting
  | enqueued x hcreated hfresh hjobs hq hexecuting => exact Or.inl hexecuting
  | entered x hcreated hfresh hjobs hq hexecuting =>
    cases hgiven.symm.trans hcreated
    exact Or.inr hexecuting
  | taken other hjobs hq hexecuting ha =>
    subst ha
    cases hgiven
  | continued other around progress ha hid hcontinues =>
    subst ha
    cases hgiven

/-- The threads behind a step hold the jobs that are being executed, each one once. -/
lemma holders_after {l : List JobId} (hs : s.Wf)
    (hl : ∀ id, l.count id = if s.executing.contains id then 1 else 0)
    (hstep : s.step cfg a = some t) (id : JobId) :
    (s.holdersAfter t l a).count id = if t.executing.contains id then 1 else 0 := by
  have hinsert : ∀ {other : JobId}, s.executing.find? other = none →
      t.executing = s.executing.insert other .entered →
      (other::l).count id = if t.executing.contains id then 1 else 0 := by
    intro other hidle hexecuting
    simp only [List.count_cons,hl id,hexecuting,OrdMap.contains,OrdMap.find?_insert]
    by_cases hid : id = other
    · subst hid
      simp [hidle]
    · have hne : ¬(other == id) = true := by simpa using Ne.symm hid
      rw [if_neg hid,if_neg hne,Nat.add_zero]
      rfl
  have hgiven : ∀ {x : IngestionJob}, s.executing.find? x.id = none →
      t.executing = s.executing ∨ t.executing = s.executing.insert x.id .entered →
      (if t.executing.contains x.id then x.id::l else l).count id =
        if t.executing.contains id then 1 else 0 := by
    intro x hidle hexecuting
    obtain hsame | hinserted := hexecuting
    · rw [if_neg (by simp [hsame,OrdMap.contains,hidle]),hsame]
      exact hl id
    · rw [if_pos (by simp [hinserted])]
      exact hinsert hidle hinserted
  cases a with
  | submit input asynchronous clerk =>
    have hfresh : s.Fresh clerk.id := by
      simp only [Coordinator.step] at hstep
      split_ifs at hstep with hfresh
      exact hfresh
    cases asynchronous with
    | true =>
      have hsame : t.executing = s.executing := by
        cases step_threads hs hstep with
        | still hjobs hq hexecuting => exact hexecuting
        | enqueued x hcreated _ hjobs hq hexecuting => exact hexecuting
        | entered x hcreated _ hjobs hq hexecuting hwaits => exact absurd rfl (hwaits input clerk)
        | taken other hjobs hq hexecuting ha => cases ha
        | continued other around progress ha hid hcontinues => cases ha
      rw [hsame]
      exact hl id
    | false =>
      exact hgiven (hs.idle_of_fresh hfresh.1)
        (given_executing hs hstep rfl fun _ _ ha => by cases ha)
  | erase document clerk =>
    have hfresh : s.Fresh clerk.id := by
      simp only [Coordinator.step] at hstep
      split_ifs at hstep with hfresh
      exact hfresh
    exact hgiven (hs.idle_of_fresh hfresh.1)
      (given_executing hs hstep rfl fun _ _ ha => by cases ha)
  | take =>
    simp only [Coordinator.step] at hstep
    cases hqueue : s.queue with
    | nil =>
      rw [hqueue] at hstep
      cases hstep
    | cons first queue =>
      rw [hqueue] at hstep
      split_ifs at hstep
      cases hstep
      rw [holdersAfter,hqueue]
      exact hinsert (hs.waiting first (by rw [hqueue]; exact List.mem_cons_self)).1 rfl
  | execute other around =>
    obtain ⟨progress,hid,rfl⟩ := Option.map_eq_some_iff.mp hstep
    have hspares := (execute_continues cfg hs around hid).spares
    have hheld : l.count other = 1 := by
      rw [hl other,if_pos (OrdMap.contains_eq_true.mpr ⟨progress,hid⟩)]
    simp only [holdersAfter]
    by_cases hother : id = other
    · subst hother
      split_ifs with hleft
      · exact hheld
      · rw [List.count_erase_self,hheld]
    · have hsame : (s.execute cfg other around progress).executing.contains id =
          s.executing.contains id := by
        rw [OrdMap.contains,hspares.executing id hother,OrdMap.contains]
      rw [hsame,← hl id]
      split_ifs
      · rfl
      · exact List.count_erase_of_ne hother
  | compact =>
    cases hstep
    exact hl id
  | shutdown =>
    cases hstep
    exact hl id

/-- An open job waits, or a thread has it. -/
lemma working_after (h : s.Serial) (hworking : ∀ id job, s.jobs.find? id = some job →
      terminal job.status = false →
      id ∈ s.queue ∨ ∃ progress, s.executing.find? id = some progress)
    (hstep : s.step cfg a = some t) (hjob : t.jobs.find? id = some job)
    (hopen : terminal job.status = false) :
    id ∈ t.queue ∨ ∃ progress, t.executing.find? id = some progress := by
  have hinserted : ∀ {other : JobId}, t.executing = s.executing.insert other .entered →
      (id = other ∨ ∃ progress, s.executing.find? id = some progress) →
      ∃ progress, t.executing.find? id = some progress := by
    intro other hexecuting hheld
    rw [hexecuting,OrdMap.find?_insert]
    split_ifs with hid
    · exact ⟨_,rfl⟩
    · exact hheld.resolve_left hid
  cases step_threads h.wf hstep with
  | still hjobs hq hexecuting =>
    rw [hq,hexecuting]
    exact hworking id job (hjobs ▸ hjob) hopen
  | enqueued x hcreated hfresh hjobs hq hexecuting =>
    rw [hq,hexecuting,List.mem_append,List.mem_singleton]
    obtain hnew | hknown := hjobs id job hjob hopen
    · exact Or.inl (Or.inr hnew)
    · exact (hworking id job hknown hopen).imp_left Or.inl
  | entered x hcreated hfresh hjobs hq hexecuting =>
    rw [hq]
    obtain hnew | hknown := hjobs id job hjob hopen
    · exact Or.inr (hinserted hexecuting (Or.inl hnew))
    · exact (hworking id job hknown hopen).imp_right fun hheld =>
      hinserted hexecuting (Or.inr hheld)
  | taken other hjobs hq hexecuting =>
    have hknown := hworking id job (hjobs ▸ hjob) hopen
    rw [hq,List.mem_cons] at hknown
    obtain (hfirst | hwaits) | hheld := hknown
    · exact Or.inr (hinserted hexecuting (Or.inl hfirst))
    · exact Or.inl hwaits
    · exact Or.inr (hinserted hexecuting (Or.inr hheld))
  | continued other around progress ha hid hcontinues =>
    by_cases hother : id = other
    · subst hother
      right
      cases hleft : t.executing.find? id with
      | some p => exact ⟨p,rfl⟩
      | none =>
        have hclosed := hcontinues.ends (h.not_outdated id) hleft job hjob
        rw [hopen] at hclosed
        cases hclosed
    · rw [hcontinues.spares.queue,hcontinues.spares.executing id hother]
      rw [hcontinues.spares.jobs id hother] at hjob
      exact hworking id job hjob hopen

theorem Balanced.step {l l' : Ledger} (h : l.Balanced) (hsynced : a.Synced)
    (hstep : l.step cfg a = some l') : l'.Balanced := by
  obtain ⟨t,ht,rfl⟩ := Option.map_eq_some_iff.mp hstep
  have hs := h.serial
  have hserial : t.Serial := by
    obtain ⟨m,hevent,hmoved,hkept⟩ := step_stepped hs.wf ht
    exact (hs.event hevent hsynced).moved hmoved (hkept hsynced)
  refine ⟨hserial,holders_after hs.wf h.holders ht,
    fun id job => working_after hs h.working ht,?_,?_,?_⟩
  · intro m hm
    obtain hm | hm := List.mem_append.mp hm
    · obtain ⟨latest,hlatest,hle⟩ := h.reached m hm
      obtain ⟨later,hlater,hle'⟩ := step_reached hs.wf ht hlatest
      exact ⟨later,hlater,hle.trans hle'⟩
    · obtain ⟨id,job,hmutates⟩ := mutation_mutates hs.wf (Option.mem_toList.mp hm) ht
      exact ⟨m.2,hmutates.reached,le_rfl⟩
  · intro m hm
    obtain hm | hm := List.mem_append.mp hm
    · exact (h.applied m hm).step hs.wf hserial ht
    · obtain ⟨id,job,hmutates⟩ := mutation_mutates hs.wf (Option.mem_toList.mp hm) ht
      obtain ⟨progress,hid,-⟩ := hmutates.before
      obtain ⟨later,hlater,happlied⟩ := hmutates.after
      refine ⟨id,job,hmutates.jobs ▸ hmutates.known,by rw [hmutates.mutation],
        by rw [hmutates.mutation],?_,?_⟩
      · rw [hmutates.queue]
        exact not_waiting hs.wf hid
      · intro p hp
        cases hlater.symm.trans hp
        exact happlied
  · refine List.pairwise_append.mpr ⟨h.ascending,?_,?_⟩
    · cases l.coordinator.mutation a with
      | none => exact List.Pairwise.nil
      | some m => exact List.pairwise_singleton _ m
    · intro m hm n hn hdocument
      obtain ⟨id,job,hmutates⟩ := mutation_mutates hs.wf (Option.mem_toList.mp hn) ht
      obtain ⟨latest,hlatest,hle⟩ := h.reached m hm
      rw [hdocument] at hlatest
      apply lt_of_le_of_ne (hle.trans (hmutates.bound latest hlatest))
      -- The same revision would be the same job, which is not applied yet.
      intro hrevision
      obtain ⟨other,x,hx,hxdocument,hxrevision,-,hprogress⟩ := h.applied m hm
      have hsame : other = id := by
        apply hs.distinct other id x job hx hmutates.known
        · rw [hxdocument,hdocument,hmutates.mutation]
        · rw [hxrevision,hrevision,hmutates.mutation]
      obtain ⟨progress,hid,hnot⟩ := hmutates.before
      exact hnot (hprogress progress (hsame ▸ hid))

lemma balanced_start (backend : CatalogBackend) : (start backend).Balanced where
  serial := serial_start backend
  holders := fun _ => rfl
  working := fun id job hjob => by cases hjob
  reached := fun m hm => by cases hm
  applied := fun m hm => by cases hm
  ascending := List.Pairwise.nil

/-- A job that has ended keeps its record. -/
lemma closed_of_run (hs : s.Wf) (hclosed : terminal job.status = true) {actions : List Action}
    (hjob : s.jobs.find? id = some job)
    (hrun : Machine.run (Coordinator.step cfg) s actions = some t) :
    t.jobs.find? id = some job := by
  suffices h : t.Wf ∧ t.jobs.find? id = some job from h.2
  refine Machine.run_invariant' (I := fun s => s.Wf ∧ s.jobs.find? id = some job) ?_ ⟨hs,hjob⟩ hrun
  intro u a v hu hstep
  obtain ⟨next,hnext,-,hsame⟩ := step_jobs hu.1 hstep hu.2
  exact ⟨step_wf hu.1 hstep,hsame hclosed ▸ hnext⟩

lemma Balanced.inOrder {l : Ledger} (h : l.Balanced) : l.InOrder cfg := by
  refine ⟨?_,?_,?_,?_,h.ascending⟩
  · intro i j x y hx hy hdocument hxopen hyopen
    exact h.serial.open_unique hy hyopen hx hxopen hdocument
  · intro id job hjob hopen
    have hid := h.serial.current id job hjob hopen
    obtain ⟨x,hx,-,hrevision⟩ := h.serial.wf.latest _ id hid
    cases hjob.symm.trans hx
    exact ⟨hid,hrevision⟩
  · intro id job hjob hclosed actions t hrun
    exact closed_of_run h.serial.wf hclosed hjob hrun
  · intro id job hjob hopen
    obtain hwaits | ⟨progress,hid⟩ := h.working id job hjob hopen
    · rw [h.holders id,List.count_eq_one_of_mem h.serial.wf.queue hwaits,
        if_neg (by simp [OrdMap.contains,(h.serial.wf.waiting id hwaits).1])]
    · rw [h.holders id,List.count_eq_zero_of_not_mem (not_waiting h.serial.wf hid),
        if_pos (OrdMap.contains_eq_true.mpr ⟨progress,hid⟩)]

/-- One thread erases the document that another one has taken up, which then gives up its job. -/
def overtaking : List Action :=
  .submit (letter 'd' 'a') true (clerk '1')::.take::executed '1' 3 ++
    .erase (ascii ['d']) (clerk '2')::executed '2' 4 ++ executed '1' 1

end

end Ledger
end RagRuntime.Ingestion
