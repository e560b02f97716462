import RagRuntime.Ingestion.PendingWork

/-! Where the threads stand and what waits in the queue: what one step can change of it. -/
namespace RagRuntime.Ingestion
open RagRuntime.Base RagRuntime.Core RagRuntime.Backend

namespace Coordinator

/-- A thread is about to activate an open job that is not the latest of its document any more. -/
def outdated (s : Coordinator) (id : JobId) : Bool :=
  match s.executing.find? id,s.jobs.find? id with
  | some (.activating _),some job => terminal job.status = false ∧ ¬s.Current job
  | _,_ => false

/-- The thread that executes the job has left all others alone, and it lets go of the job only when
the job has ended or is outdated. -/
structure Continues (s t : Coordinator) (id : JobId) : Prop where
  spares : s.Spares t id
  ends : s.outdated id = false → t.executing.find? id = none →
    ∀ job, t.jobs.find? id = some job → terminal job.status = true

/-- The open jobs are those there were, and perhaps a new one. -/
def Enlists (s : Coordinator) (job : IngestionJob) (t : Coordinator) : Prop :=
  ∀ id x, t.jobs.find? id = some x → terminal x.status = false →
    id = job.id ∨ s.jobs.find? id = some x

/-- What a step does to the threads and to the queue. -/
inductive Threads (s : Coordinator) (a : Action) (t : Coordinator) : Prop
  | still (hjobs : t.jobs = s.jobs) (hqueue : t.queue = s.queue)
    (hexecuting : t.executing = s.executing) : Threads s a t
  | enqueued (job : IngestionJob) (hcreated : s.created a = some job) (hfresh : s.Fresh job.id)
    (hjobs : s.Enlists job t) (hqueue : t.queue = s.queue ++ [job.id])
    (hexecuting : t.executing = s.executing) : Threads s a t
  | entered (job : IngestionJob) (hcreated : s.created a = some job) (hfresh : s.Fresh job.id)
    (hjobs : s.Enlists job t) (hqueue : t.queue = s.queue)
    (hexecuting : t.executing = s.executing.insert job.id .entered)
    (hwaits : ∀ input clerk, a ≠ .submit input true clerk) : Threads s a t
  | taken (id : JobId) (hjobs : t.jobs = s.jobs) (hqueue : s.queue = id::t.queue)
    (hexecuting : t.executing = s.executing.insert id .entered) (ha : a = .take) : Threads s a t
  | continued (id : JobId) (around : Surroundings) (progress : Progress)
    (ha : a = .execute id around) (hid : s.executing.find? id = some progress)
    (h : s.Continues t id) : Threads s a t

section
variable {cfg : CoordinatorConfig} {s t : Coordinator} {a : Action} {id : JobId}
  {job : IngestionJob}

lemma Serial.not_outdated (h : s.Serial) (id : JobId) : s.outdated id = false := by
  unfold outdated
  split
  · rename_i prepared job hid hjob
    apply decide_eq_false
    rintro ⟨hopen,hnot⟩
    exact hnot (h.isCurrent hjob hopen)
  · rfl

lemma Spares.continues (h : s.Spares t id) (progress : Progress) :
    s.Continues (t.setProgress id progress) id := by
  refine ⟨h.setProgress progress,fun _ hnone => ?_⟩
  rw [Coordinator.setProgress,OrdMap.find?_insert,if_pos rfl] at hnone
  cases hnone

lemma Spares.ends (h : s.Spares t id)
    (hclosed : ∀ job, t.jobs.find? id = some job → terminal job.status = true) :
    s.Continues (t.finish id) id :=
  ⟨h.finish,fun _ _ => hclosed⟩

/-- A transition is about one job. What it says it has not done has been done before. -/
lemma transition_spares (cfg : CoordinatorConfig) (s : Coordinator)
    (hkeyed : ∀ job, s.jobs.find? id = some job → job.id = id) (change : Change) (now : ℤ)
    (saved : WriteOutcome) :
    let called := s.transition cfg id change now saved
    s.Spares called.2 id ∧
      (called.1 = .ok false → ∀ job, called.2.jobs.find? id = some job →
        terminal job.status = true) ∧
      (called.1 = .ok true → ∀ job, called.2.jobs.find? id = some job →
        job.status = change.status) := by
  cases hjob : s.jobs.find? id with
  | none =>
    have hcall : s.transition cfg id change now saved =
        (fail .notFound "ingestion job was not found",s) := by
      unfold transition
      rw [hjob]
    rw [hcall]
    exact ⟨Spares.refl s id,(fun h => by cases h),(fun h => by cases h)⟩
  | some job =>
    obtain ⟨hspares,next,hnext,-,hfalse,htrue⟩ :=
      transition_erasure cfg hjob (hkeyed job hjob) change now saved
    refine ⟨hspares,?_,?_⟩
    · intro h x hx
      cases hnext.symm.trans hx
      exact hfalse h
    · intro h x hx
      cases hnext.symm.trans hx
      exact htrue h

lemma advance_continues (cfg : CoordinatorConfig) (s : Coordinator)
    (hkeyed : ∀ job, s.jobs.find? id = some job → job.id = id) (change : Change)
    (next : Option Progress) (around : Surroundings)
    (hnone : next = none → terminal change.status = true) :
    s.Continues (s.advance cfg id change next around) id := by
  have htransition := transition_spares cfg s hkeyed change around.now around.saved
  unfold advance proceed
  revert htransition
  dsimp only
  obtain ⟨result,t⟩ := s.transition cfg id change around.now around.saved
  rintro ⟨hspares,hfalse,htrue⟩
  dsimp only at hspares hfalse htrue ⊢
  cases result with
  | error e => exact hspares.continues _
  | ok current =>
    cases current with
    | false => exact hspares.ends (hfalse rfl)
    | true =>
      cases next with
      | none =>
        apply hspares.ends
        intro job hjob
        rw [htrue rfl job hjob]
        exact hnone rfl
      | some progress => exact hspares.continues _

lemma failVolatile_spares (s : Coordinator)
    (hkeyed : ∀ job, s.jobs.find? id = some job → job.id = id) (e : Error) (now : ℤ) :
    s.Spares (s.failVolatile id e now) id ∧
      ∀ job, (s.failVolatile id e now).jobs.find? id = some job → terminal job.status = true := by
  unfold failVolatile
  cases hjob : s.jobs.find? id with
  | none =>
    refine ⟨Spares.refl s id,fun job h => ?_⟩
    rw [hjob] at h
    cases h
  | some job =>
    have hid := hkeyed job hjob
    have hset : ∀ next : IngestionJob, next.id = id → terminal next.status = true →
        s.Spares (s.setJob next) id ∧
          ∀ x, (s.setJob next).jobs.find? id = some x → terminal x.status = true := by
      intro next hnext hclosed
      refine ⟨Spares.setJob hnext s.store,fun x hx => ?_⟩
      rw [setJob,OrdMap.find?_insert,if_pos hnext.symm] at hx
      cases hx
      exact hclosed
    dsimp only
    by_cases hclosed : terminal job.status = true
    · rw [if_pos hclosed]
      refine ⟨Spares.refl s id,fun x hx => ?_⟩
      cases hjob.symm.trans hx
      exact hclosed
    · rw [if_neg hclosed]
      refine hset _ (show job.clearContent.id = id from hid) ?_
      dsimp only
      split_ifs
      · rfl
      · rfl

/-- One step of a thread. -/
theorem execute_continues (cfg : CoordinatorConfig) (h : s.Wf) (around : Surroundings)
    {progress : Progress} (hid : s.executing.find? id = some progress) :
    s.Continues (s.execute cfg id around progress) id := by
  have hkeyed := h.keyed id
  have hspares := Spares.refl s id
  have hunknown : s.jobs.find? id = none → s.Continues (s.finish id) id := fun hnone =>
    hspares.ends fun job hjob => by rw [hnone] at hjob; cases hjob
  have hwith : ∀ backend, s.Spares { s with backend := backend } id := fun _ =>
    ⟨fun _ _ => rfl,fun _ _ => rfl,rfl⟩
  unfold execute
  cases progress with
  | toChunking => exact advance_continues cfg s hkeyed _ _ around fun h => by cases h
  | toEmbedding prepared => exact advance_continues cfg s hkeyed _ _ around fun h => by cases h
  | toPublishing prepared => exact advance_continues cfg s hkeyed _ _ around fun h => by cases h
  | activated prepared => exact advance_continues cfg s hkeyed _ _ around fun _ => rfl
  | toErasing => exact advance_continues cfg s hkeyed _ _ around fun h => by cases h
  | erased applied => exact advance_continues cfg s hkeyed _ _ around fun _ => rfl
  | entered =>
    dsimp only
    cases hjob : s.jobs.find? id with
    | none => exact hunknown hjob
    | some job =>
      dsimp only
      by_cases hclosed : terminal job.status = true
      · rw [if_pos hclosed]
        apply hspares.ends
        intro x hx
        cases hjob.symm.trans hx
        exact hclosed
      · rw [if_neg hclosed]
        exact hspares.continues _
  | preparing =>
    dsimp only
    cases hjob : s.jobs.find? id with
    | none => exact hunknown hjob
    | some job =>
      dsimp only
      split
      · exact hspares.continues _
      · exact hspares.continues _
  | embedding prepared =>
    dsimp only
    cases cfg.embedder with
    | none => exact hspares.continues _
    | some embedder =>
      cases around.fault with
      | some e => exact hspares.continues _
      | none =>
        dsimp only
        split
        · exact hspares.continues _
        · exact hspares.continues _
  | activating prepared =>
    dsimp only
    cases hjob : s.jobs.find? id with
    | none => exact hunknown hjob
    | some job =>
      dsimp only
      split_ifs with hleft
      · refine ⟨hspares.finish,fun hcurrent _ x hx => ?_⟩
        cases hjob.symm.trans hx
        cases hclosed : terminal job.status with
        | true => rfl
        | false =>
          have hnot : ¬s.Current job := hleft.resolve_left (by simp [hclosed])
          simp [outdated,hid,hjob,hclosed,hnot] at hcurrent
      · obtain ⟨_ | _,backend⟩ := s.backend.activate prepared job.revision around.built
        · exact hspares.continues _
        · exact (hwith backend).continues _
  | erasing =>
    dsimp only
    cases hjob : s.jobs.find? id with
    | none => exact hunknown hjob
    | some job =>
      dsimp only
      obtain ⟨_ | _,backend⟩ := s.backend.erase job.input.document job.revision around.built
      · exact hspares.continues _
      · exact (hwith backend).continues _
  | failing e =>
    dsimp only
    have htransition := transition_spares cfg s hkeyed
      { status := .failed, error := some (boundedError e) } around.now around.saved
    revert htransition
    dsimp only
    obtain ⟨result,t⟩ := s.transition cfg id { status := .failed, error := some (boundedError e) }
      around.now around.saved
    rintro ⟨hcalled,hfalse,htrue⟩
    dsimp only at hcalled hfalse htrue ⊢
    cases result with
    | error e => exact hcalled.continues _
    | ok current =>
      apply hcalled.ends
      intro job hjob
      cases current with
      | false => exact hfalse rfl job hjob
      | true =>
        rw [htrue rfl job hjob]
        rfl
  | failingVolatile e =>
    obtain ⟨hcalled,hclosed⟩ := failVolatile_spares s hkeyed e around.now
    exact hcalled.ends hclosed

/-- Accepting a job does not concern the threads. A refused job is not in memory. -/
lemma accept_enlists (cfg : CoordinatorConfig) (s : Coordinator) (job : IngestionJob)
    (clerk : Clerk) :
    let called := s.accept cfg job clerk
    called.2.queue = s.queue ∧ called.2.executing = s.executing ∧
      ((∃ e, called.1 = .error e) ∧ called.2.jobs = s.jobs ∨
        called.1 = .ok () ∧ s.Enlists job called.2) := by
  have henlist : ∀ u : Coordinator, u.jobs = s.jobs → s.Enlists job (u.enlist job) := by
    intro u hu id x hx _
    simp only [enlist,OrdMap.find?_insert,hu] at hx
    split_ifs at hx with hid
    · exact Or.inl hid
    · exact Or.inr hx
  unfold accept
  cases clerk.saved with
  | refused e => exact ⟨rfl,rfl,Or.inl ⟨⟨e,rfl⟩,rfl⟩⟩
  | unsynced => exact ⟨rfl,rfl,Or.inl ⟨⟨_,rfl⟩,rfl⟩⟩
  | synced =>
    have hpersist : s.persist cfg job .synced = (.ok (),{ s with
        store := ⟨s.store.frames ++ [job],s.store.bytes + cfg.frameSize job⟩ }) := rfl
    simp only [hpersist]
    split
    · exact ⟨rfl,rfl,Or.inr ⟨rfl,henlist _ rfl⟩⟩
    · rename_i older _
      split_ifs
      · exact ⟨rfl,rfl,Or.inr ⟨rfl,henlist _ rfl⟩⟩
      · cases clerk.savedOlder with
        | refused e => exact ⟨rfl,rfl,Or.inl ⟨⟨e,rfl⟩,rfl⟩⟩
        | unsynced => exact ⟨rfl,rfl,Or.inl ⟨⟨_,rfl⟩,rfl⟩⟩
        | synced =>
          refine ⟨rfl,rfl,Or.inr ⟨rfl,fun id x hx hopen => ?_⟩⟩
          simp only [enlist,setJob,persist,JobStore.persist,OrdMap.find?_insert] at hx
          split_ifs at hx with hid holder
          · exact Or.inl hid
          · cases hx
            cases hopen
          · exact Or.inr hx

/-- Of a step only a thread that executes a job lets go of it, and only a thread that takes it up
has it. -/
theorem step_threads (h : s.Wf) (hstep : s.step cfg a = some t) : s.Threads a t := by
  cases a with
  | submit input asynchronous clerk =>
    simp only [step] at hstep
    split_ifs at hstep with hfresh
    cases hstep
    unfold submit
    dsimp only
    by_cases hargs : input.document = [] ∨ input.content = []
    · rw [if_pos hargs]
      exact .still rfl rfl rfl
    rw [if_neg hargs]
    by_cases hstopping : s.stopping = true
    · rw [if_pos hstopping]
      exact .still rfl rfl rfl
    rw [if_neg hstopping]
    split
    · exact .still rfl rfl rfl
    · by_cases hfull : asynchronous = true ∧ s.queue.length ≥ cfg.queueCapacity
      · rw [if_pos hfull]
        exact .still rfl rfl rfl
      rw [if_neg hfull]
      have haccept := accept_enlists cfg s (s.newJob .upsert
        { input with content := normalizeSourceText input.content }
        (documentContentHash input.title (normalizeSourceText input.content) input.metadata) clerk)
        clerk
      revert haccept
      dsimp only
      generalize s.accept cfg _ clerk = called
      obtain ⟨_ | _,u⟩ := called
      · rintro ⟨hqueue,hexecuting,⟨-,hjobs⟩ | ⟨hok,-⟩⟩
        · exact .still hjobs hqueue hexecuting
        · cases hok
      · rintro ⟨hqueue,hexecuting,⟨⟨e,he⟩,-⟩ | ⟨-,hjobs⟩⟩
        · cases he
        · dsimp only at hqueue hexecuting hjobs ⊢
          cases asynchronous with
          | true => exact .enqueued _ rfl hfresh hjobs (by rw [← hqueue]; rfl) hexecuting
          | false =>
            exact .entered _ rfl hfresh hjobs hqueue (by rw [← hexecuting]; rfl)
              fun _ _ ha => by cases ha
  | erase document clerk =>
    simp only [step] at hstep
    split_ifs at hstep with hfresh
    cases hstep
    unfold erase
    dsimp only
    by_cases hargs : document = []
    · rw [if_pos hargs]
      exact .still rfl rfl rfl
    rw [if_neg hargs]
    by_cases hstopping : s.stopping = true
    · rw [if_pos hstopping]
      exact .still rfl rfl rfl
    rw [if_neg hstopping]
    have haccept := accept_enlists cfg s
      (s.newJob .erase ⟨document,[],[],∅⟩ deletedHash clerk) clerk
    revert haccept
    dsimp only
    generalize s.accept cfg _ clerk = called
    obtain ⟨_ | _,u⟩ := called
    · rintro ⟨hqueue,hexecuting,⟨-,hjobs⟩ | ⟨hok,-⟩⟩
      · exact .still hjobs hqueue hexecuting
      · cases hok
    · rintro ⟨hqueue,hexecuting,⟨⟨e,he⟩,-⟩ | ⟨-,hjobs⟩⟩
      · cases he
      · exact .entered _ rfl hfresh hjobs hqueue (by rw [← hexecuting]; rfl)
          fun _ _ ha => by cases ha
  | take =>
    simp only [step] at hstep
    cases hqueue : s.queue with
    | nil =>
      rw [hqueue] at hstep
      cases hstep
    | cons id queue =>
      rw [hqueue] at hstep
      split_ifs at hstep
      cases hstep
      exact .taken id rfl hqueue rfl rfl
  | execute id around =>
    obtain ⟨progress,hid,rfl⟩ := Option.map_eq_some_iff.mp hstep
    exact .continued id around progress rfl hid (execute_continues cfg h around hid)
  | compact =>
    cases hstep
    exact .still rfl rfl rfl
  | shutdown =>
    cases hstep
    exact .still rfl rfl rfl

end

end Coordinator
end RagRuntime.Ingestion
