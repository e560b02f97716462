import RagRuntime.Ingestion.FailureRecord
import RagRuntime.Ingestion.Ledger

/-! Worker threads, and what the functions do to them that a user supplies: the token measurer, the
embedder and the backend. Nothing in a worker catches an exception, so one ends the process. -/
namespace RagRuntime.Ingestion
open RagRuntime.Base RagRuntime.Core RagRuntime.Backend RagRuntime.Preparation RagRuntime.Text

namespace Progress

/-- More than the number of steps that the thread still takes at most. -/
@[simp] def rank : Progress → ℕ
  | .entered => 9
  | .toChunking => 8
  | .preparing => 7
  | .toEmbedding _ => 6
  | .embedding _ => 5
  | .toPublishing _ | .toErasing => 4
  | .activating _ | .erasing => 3
  | .activated _ | .erased _ | .failing _ => 2
  | .failingVolatile _ => 1

end Progress

namespace Coordinator

/-- The next step of the thread calls a function that the user supplies. Chunking measures the
document prefix before anything else, unless there is nothing to chunk. -/
def calls (cfg : CoordinatorConfig) (s : Coordinator) (id : JobId) : Bool :=
  match s.executing.find? id,s.jobs.find? id with
  | some .preparing,some job => cfg.chunking.measureTokens.isSome ∧
      (normalizeInput cfg.chunking (normalizeSourceText job.input.content)).any (· ≠ [])
  | some (.embedding _),some _ => cfg.embedder.isSome
  | some (.activating _),some job => terminal job.status = false ∧ s.Current job
  | some .erasing,some _ => true
  | _,_ => false

/-- What workers take from the queue in a step. -/
def taking (s : Coordinator) : Action → List JobId
  | .take => s.queue.head?.toList
  | _ => []

/-- The job whose backend step returns success in a step. -/
def applying (s : Coordinator) : Action → List JobId
  | .execute id around => if (s.mutation (.execute id around)).isSome then [id] else []
  | _ => []

/-- A step of a thread that takes a job or goes on with one. -/
def Action.works : Action → Bool
  | .execute _ _ | .take => true
  | _ => false

/-- A call that may bring a new job. -/
def Action.submits : Action → Bool
  | .submit _ _ _ | .erase _ _ => true
  | _ => false

/-- The steps that the threads and the queue still ask for at most. -/
def potential (s : Coordinator) : ℕ := 10 * s.queue.length + s.executing.total Progress.rank

/-- No job in the queue is ready, and none is cancelled. -/
def Unready (s : Coordinator) : Prop :=
  ∀ id ∈ s.queue, ∀ job, s.jobs.find? id = some job → job.status ≠ .ready ∧ job.status ≠ .cancelled

section
variable {cfg : CoordinatorConfig} {s t : Coordinator} {a : Action} {id : JobId}
  {job : IngestionJob}

/-- Only a thread whose job has taken effect makes it ready, and nothing cancels a job. -/
lemma status_after (h : s.Wf) (hstep : s.step cfg a = some t) (hjob : t.jobs.find? id = some job) :
    s.jobs.find? id = some job ∨ job.status ≠ .cancelled ∧ (job.status = .ready →
      ∃ progress, s.executing.find? id = some progress ∧ progress.Applied) := by
  obtain ⟨m,hevent,hmoved,-⟩ := step_stepped h hstep
  have hsame : t.jobs = m.jobs := by rw [hmoved.eq]
  rw [hsame] at hjob
  have hother : job.status ≠ .cancelled → job.status ≠ .ready → s.jobs.find? id = some job ∨
      job.status ≠ .cancelled ∧ (job.status = .ready →
        ∃ progress, s.executing.find? id = some progress ∧ progress.Applied) :=
    fun hcancelled hready => Or.inr ⟨hcancelled,fun hnow => absurd hnow hready⟩
  cases hevent with
  | quiet => exact Or.inl hjob
  | recorded i around ha before next hbefore hopen hrecorded bytes =>
    rw [OrdMap.find?_insert] at hjob
    split_ifs at hjob with hi
    · cases hjob
      refine Or.inr ⟨hrecorded.status,fun hready => ?_⟩
      obtain ⟨progress,hid,happlied,-⟩ := (hrecorded.ready hready).applied
      rw [hrecorded.same.id,h.keyed i before hbefore,← hi] at hid
      exact ⟨progress,hid,happlied⟩
    · exact Or.inl hjob
  | spilled extra hextra hlost bytes => exact Or.inl hjob
  | failedVolatile i e hid before next hbefore hopen hsame hsound hstatus =>
    rw [OrdMap.find?_insert] at hjob
    split_ifs at hjob
    · cases hjob
      obtain hstatus | hstatus := hstatus
      · exact hother (by simp [hstatus]) (by simp [hstatus])
      · exact hother (by simp [hstatus]) (by simp [hstatus])
    · exact Or.inl hjob
  | activated i around ha x prepared hx hid hopen hcurrent backend hactivated => exact Or.inl hjob
  | erased i around ha x applied hx hid backend herased => exact Or.inl hjob
  | accepted x hcreated hsound hfresh hopen bytes =>
    have hstatus := created_status hcreated
    simp only [enlist,OrdMap.find?_insert] at hjob
    split_ifs at hjob
    · cases hjob
      exact hother (by simp [hstatus]) (by simp [hstatus])
    · exact Or.inl hjob
  | replaced x older later hcreated hsound hfresh holder hopen bytes =>
    have hstatus := created_status hcreated
    simp only [enlist,setJob,OrdMap.find?_insert] at hjob
    split_ifs at hjob
    · cases hjob
      exact hother (by simp [hstatus]) (by simp [hstatus])
    · cases hjob
      exact hother JobStatus.noConfusion JobStatus.noConfusion
    · exact Or.inl hjob
  | compacted => exact Or.inl hjob

/-- A thread that has applied the effect of its job had done so before, or does it in this step. -/
lemma applied_after (h : s.Wf) (hstep : s.step cfg a = some t) {progress : Progress}
    (hid : t.executing.find? id = some progress) (happlied : progress.Applied) :
    s.executing.find? id = some progress ∨ id ∈ s.applying a := by
  obtain ⟨m,hevent,hmoved,-⟩ := step_stepped h hstep
  have hm : m.executing.find? id = some progress :=
    (hmoved.executing id progress hid).resolve_right fun hnew => hnew.1 happlied
  cases hevent with
  | quiet => exact Or.inl hm
  | recorded i around ha before next hbefore hopen hrecorded bytes => exact Or.inl hm
  | spilled extra hextra hlost bytes => exact Or.inl hm
  | failedVolatile i e hid before next hbefore hopen hsame hsound hstatus => exact Or.inl hm
  | activated i around ha x prepared hx hi hopen hcurrent backend hactivated =>
    subst ha
    rw [OrdMap.find?_insert] at hm
    split_ifs at hm with hsame
    · right
      have hleft : ¬(terminal x.status = true ∨ s.revisionOf x.input.document ≠ x.revision) := by
        rw [not_or,not_not]
        exact ⟨by rw [hopen]; exact Bool.false_ne_true,hcurrent⟩
      have hmutation : (s.mutation (.execute i around)).isSome = true := by
        simp only [mutation,hi,hx,hactivated,if_neg hleft]
        rfl
      rw [applying,if_pos hmutation,hsame]
      exact List.mem_singleton_self i
    · exact Or.inl hm
  | erased i around ha x applied hx hi backend herased =>
    subst ha
    rw [OrdMap.find?_insert] at hm
    split_ifs at hm with hsame
    · right
      have hmutation : (s.mutation (.execute i around)).isSome = true := by
        simp only [mutation,hi,hx,herased]
        rfl
      rw [applying,if_pos hmutation,hsame]
      exact List.mem_singleton_self i
    · exact Or.inl hm
  | accepted x hcreated hsound hfresh hopen bytes => exact Or.inl hm
  | replaced x older later hcreated hsound hfresh holder hopen bytes => exact Or.inl hm
  | compacted => exact Or.inl hm

/-- Jobs in the queue do not become ready. -/
lemma Unready.step (h : s.Unready) (hs : s.Wf) (hstep : s.step cfg a = some t) : t.Unready := by
  intro id hmem job hjob
  have hidle : (∀ progress, s.executing.find? id ≠ some progress) →
      (s.jobs.find? id = some job → job.status ≠ .ready ∧ job.status ≠ .cancelled) →
        job.status ≠ .ready ∧ job.status ≠ .cancelled := by
    intro hidle hbefore
    obtain hsame | ⟨hcancelled,hready⟩ := status_after hs hstep hjob
    · exact hbefore hsame
    · refine ⟨fun hnow => ?_,hcancelled⟩
      obtain ⟨progress,hid,-⟩ := hready hnow
      exact hidle progress hid
  have hold : id ∈ s.queue → job.status ≠ .ready ∧ job.status ≠ .cancelled :=
    fun hwaits => hidle (fun _ hid => not_waiting hs hid hwaits) (h id hwaits job)
  cases step_threads hs hstep with
  | still hjobs hq hexecuting => exact hold (hq ▸ hmem)
  | enqueued x hcreated hfresh hjobs hq hexecuting =>
    rw [hq,List.mem_append,List.mem_singleton] at hmem
    obtain hmem | hnew := hmem
    · exact hold hmem
    · refine hidle (fun progress hid => ?_) (fun hbefore => ?_)
      · rw [hnew,hs.idle_of_fresh hfresh.1] at hid
        cases hid
      · rw [hnew,hfresh.1] at hbefore
        cases hbefore
  | entered x hcreated hfresh hjobs hq hexecuting => exact hold (hq ▸ hmem)
  | taken other hjobs hq hexecuting =>
    exact hold (by rw [hq]; exact List.mem_cons_of_mem other hmem)
  | continued other around progress ha hid hcontinues => exact hold (hcontinues.spares.queue ▸ hmem)

lemma accept_stopping (cfg : CoordinatorConfig) (s : Coordinator) (job : IngestionJob)
    (clerk : Clerk) : (s.accept cfg job clerk).2.stopping = s.stopping := by
  unfold accept persist JobStore.persist
  cases clerk.saved with
  | refused e => rfl
  | unsynced => rfl
  | synced =>
    dsimp only
    split
    · rfl
    · split_ifs
      · rfl
      · cases clerk.savedOlder with
        | refused e => rfl
        | unsynced => rfl
        | synced => rfl

lemma transition_stopping (cfg : CoordinatorConfig) (s : Coordinator) (id : JobId)
    (change : Change) (now : ℤ) (saved : WriteOutcome) :
    (s.transition cfg id change now saved).2.stopping = s.stopping := by
  have htransition := transition_transitioned cfg s id change now saved
  revert htransition
  generalize s.transition cfg id change now saved = called
  intro htransition
  cases htransition with
  | unknown h e => rfl
  | closed job hjob hclosed => rfl
  | lost job hjob hopen hsaved e extra hextra bytes => rfl
  | written job hjob hopen bytes => rfl

lemma execute_stopping (cfg : CoordinatorConfig) (s : Coordinator) (id : JobId)
    (around : Surroundings) (progress : Progress) :
    (s.execute cfg id around progress).stopping = s.stopping := by
  have hadvance : ∀ change next, (s.advance cfg id change next around).stopping = s.stopping := by
    intro change next
    rw [← transition_stopping cfg s id change around.now around.saved]
    unfold advance proceed
    dsimp only
    split
    · rfl
    · rfl
    · split
      · rfl
      · rfl
  unfold execute
  cases progress with
  | toChunking => exact hadvance _ _
  | toEmbedding prepared => exact hadvance _ _
  | toPublishing prepared => exact hadvance _ _
  | activated prepared => exact hadvance _ _
  | toErasing => exact hadvance _ _
  | erased applied => exact hadvance _ _
  | entered =>
    dsimp only
    split
    · rfl
    · split_ifs
      · rfl
      · rfl
      · rfl
  | preparing =>
    dsimp only
    split
    · rfl
    · split
      · rfl
      · rfl
  | embedding prepared =>
    dsimp only
    split
    · rfl
    · rfl
    · split
      · rfl
      · rfl
  | activating prepared =>
    dsimp only
    split
    · rfl
    · split_ifs
      · rfl
      · split
        · rfl
        · rfl
  | erasing =>
    dsimp only
    split
    · rfl
    · split
      · rfl
      · rfl
  | failing e =>
    rw [← transition_stopping cfg s id
      { status := .failed, error := some (boundedError e) } around.now around.saved]
    dsimp only
    split
    · rfl
    · rfl
  | failingVolatile e =>
    dsimp only
    unfold failVolatile
    split
    · rfl
    · dsimp only
      split_ifs
      · rfl
      · rfl
      · rfl

/-- Only a shutdown stops the workers. -/
lemma step_stopping (hstep : s.step cfg a = some t) (ha : a ≠ .shutdown) :
    t.stopping = s.stopping := by
  cases a with
  | submit input asynchronous clerk =>
    simp only [step] at hstep
    split_ifs at hstep
    cases hstep
    unfold submit
    dsimp only
    by_cases hargs : input.document = [] ∨ input.content = []
    · rw [if_pos hargs]
    rw [if_neg hargs]
    by_cases hstopping : s.stopping = true
    · rw [if_pos hstopping]
    rw [if_neg hstopping]
    split
    · rfl
    · by_cases hfull : asynchronous = true ∧ s.queue.length ≥ cfg.queueCapacity
      · rw [if_pos hfull]
      rw [if_neg hfull]
      have haccept := accept_stopping cfg s (s.newJob .upsert
        { input with content := normalizeSourceText input.content }
        (documentContentHash input.title (normalizeSourceText input.content) input.metadata) clerk)
        clerk
      revert haccept
      generalize s.accept cfg _ clerk = called
      intro haccept
      obtain ⟨_ | _,u⟩ := called
      · exact haccept
      · dsimp only
        split_ifs
        · exact haccept
        · exact haccept
  | erase document clerk =>
    simp only [step] at hstep
    split_ifs at hstep
    cases hstep
    unfold erase
    dsimp only
    split_ifs
    · rfl
    · rfl
    · have haccept := accept_stopping cfg s
        (s.newJob .erase ⟨document,[],[],∅⟩ deletedHash clerk) clerk
      revert haccept
      generalize s.accept cfg _ clerk = called
      intro haccept
      obtain ⟨_ | _,u⟩ := called
      · exact haccept
      · exact haccept
  | take =>
    simp only [step] at hstep
    split at hstep
    · cases hstep
    · split_ifs at hstep
      cases hstep
      rfl
  | execute id around =>
    obtain ⟨progress,-,rfl⟩ := Option.map_eq_some_iff.mp hstep
    exact execute_stopping cfg s id around progress
  | compact =>
    cases hstep
    rfl
  | shutdown => exact absurd rfl ha

/-- What the thread has still to do, if it has not let go of the job. -/
def Lower (t : Coordinator) (id : JobId) (n : ℕ) : Prop :=
  ∀ progress, t.executing.find? id = some progress → progress.rank < n

lemma lower_setProgress (t : Coordinator) (id : JobId) {progress : Progress} {n : ℕ}
    (h : progress.rank < n) : (t.setProgress id progress).Lower id n := by
  intro p hp
  rw [setProgress,OrdMap.find?_insert,if_pos rfl] at hp
  cases hp
  exact h

lemma lower_finish (t : Coordinator) (id : JobId) (n : ℕ) : (t.finish id).Lower id n := by
  intro p hp
  rw [finish,OrdMap.find?_erase,if_pos rfl] at hp
  cases hp

lemma advance_lower (cfg : CoordinatorConfig) (s : Coordinator) (id : JobId) (change : Change)
    {next : Option Progress} (around : Surroundings) {n : ℕ} (hn : 1 < n)
    (hnext : ∀ progress ∈ next, progress.rank < n) :
    (s.advance cfg id change next around).Lower id n := by
  unfold advance proceed
  dsimp only
  split
  · exact lower_setProgress _ id hn
  · exact lower_finish _ id n
  · cases next with
    | none => exact lower_finish _ id n
    | some progress => exact lower_setProgress _ id (hnext progress rfl)

/-- With each step of an execution there is less to do. -/
lemma execute_lower (cfg : CoordinatorConfig) (s : Coordinator) (id : JobId)
    (around : Surroundings) (progress : Progress) :
    (s.execute cfg id around progress).Lower id progress.rank := by
  have hnone : ∀ n : ℕ, ∀ progress ∈ (none : Option Progress), progress.rank < n :=
    fun n progress hp => by cases hp
  have hsome : ∀ {p : Progress} {n : ℕ}, p.rank < n → ∀ progress ∈ some p, progress.rank < n :=
    fun hp progress hmem => by cases hmem; exact hp
  unfold execute
  cases progress with
  | toChunking => exact advance_lower cfg s id _ around (by simp) (hsome (by simp))
  | toEmbedding prepared => exact advance_lower cfg s id _ around (by simp) (hsome (by simp))
  | toPublishing prepared => exact advance_lower cfg s id _ around (by simp) (hsome (by simp))
  | activated prepared => exact advance_lower cfg s id _ around (by simp) (hnone _)
  | toErasing => exact advance_lower cfg s id _ around (by simp) (hsome (by simp))
  | erased applied => exact advance_lower cfg s id _ around (by simp) (hnone _)
  | entered =>
    dsimp only
    split
    · exact lower_finish s id _
    · split_ifs
      · exact lower_finish s id _
      · exact lower_setProgress s id (by simp)
      · exact lower_setProgress s id (by simp)
  | preparing =>
    dsimp only
    split
    · exact lower_finish s id _
    · split
      · exact lower_setProgress s id (by simp)
      · exact lower_setProgress s id (by simp)
  | embedding prepared =>
    dsimp only
    split
    · exact lower_setProgress s id (by simp)
    · exact lower_setProgress s id (by simp)
    · split
      · exact lower_setProgress s id (by simp)
      · exact lower_setProgress s id (by simp)
  | activating prepared =>
    dsimp only
    split
    · exact lower_finish s id _
    · split_ifs
      · exact lower_finish s id _
      · split
        · exact lower_setProgress s id (by simp)
        · exact lower_setProgress _ id (by simp)
  | erasing =>
    dsimp only
    split
    · exact lower_finish s id _
    · split
      · exact lower_setProgress s id (by simp)
      · exact lower_setProgress _ id (by simp)
  | failing e =>
    dsimp only
    split
    · exact lower_setProgress _ id (by simp)
    · exact lower_finish _ id _
  | failingVolatile e => exact lower_finish _ id _

lemma potential_insert {executing : OrdMap JobId Progress} (hidle : executing.find? id = none) :
    (executing.insert id .entered).total Progress.rank = executing.total Progress.rank + 9 := by
  have h := OrdMap.total_insert Progress.rank executing id .entered
  rw [hidle] at h
  exact h

lemma potential_execute {progress : Progress} (hid : s.executing.find? id = some progress)
    (hspares : s.Spares t id) (hlower : t.Lower id progress.rank) :
    t.potential < s.potential := by
  have hlength : t.queue.length = s.queue.length := by rw [hspares.queue]
  unfold potential
  rw [hlength]
  apply Nat.add_lt_add_left
  cases hleft : t.executing.find? id with
  | none =>
    have hexecuting : t.executing = s.executing.erase id := by
      ext k : 1
      rw [OrdMap.find?_erase]
      split_ifs with hk
      · rw [hk,hleft]
      · exact hspares.executing k hk
    have htotal := OrdMap.total_erase Progress.rank s.executing id
    have hpos : 0 < progress.rank := by cases progress <;> simp
    rw [hid,Option.elim_some] at htotal
    rw [hexecuting]
    omega
  | some next =>
    have hexecuting : t.executing = s.executing.insert id next := by
      ext k : 1
      rw [OrdMap.find?_insert]
      split_ifs with hk
      · rw [hk,hleft]
      · exact hspares.executing k hk
    have htotal := OrdMap.total_insert Progress.rank s.executing id next
    have hless := hlower next hleft
    rw [hid,Option.elim_some] at htotal
    rw [hexecuting]
    omega

/-- What is taken has waited, and is executed from now on. -/
lemma taking_entered (hstep : s.step cfg a = some t) (hid : id ∈ s.taking a) :
    id ∈ s.queue ∧ t.jobs = s.jobs ∧ t.executing.find? id = some .entered := by
  cases a with
  | take =>
    simp only [step] at hstep
    cases hqueue : s.queue with
    | nil =>
      rw [hqueue] at hstep
      cases hstep
    | cons first queue =>
      rw [hqueue] at hstep
      split_ifs at hstep
      cases hstep
      rw [taking,hqueue] at hid
      cases List.mem_singleton.mp hid
      refine ⟨List.mem_cons_self,rfl,?_⟩
      simp [setProgress]
  | submit input asynchronous clerk => cases hid
  | erase document clerk => cases hid
  | execute other around => cases hid
  | compact => cases hid
  | shutdown => cases hid

/-- The queue loses what is taken, and grows at its end. -/
lemma taking_queue (hs : s.Wf) (hstep : s.step cfg a = some t) :
    s.queue <+: s.taking a ++ t.queue := by
  cases step_threads hs hstep with
  | still hjobs hq hexecuting =>
    rw [hq]
    cases a with
    | take =>
      simp only [step] at hstep
      cases hqueue : s.queue with
      | nil =>
        rw [hqueue] at hstep
        cases hstep
      | cons first queue =>
        rw [hqueue] at hstep
        split_ifs at hstep
        cases hstep
        rw [hqueue] at hq
        exact absurd hq (List.cons_ne_self first queue).symm
    | submit input asynchronous clerk => exact List.prefix_rfl
    | erase document clerk => exact List.prefix_rfl
    | execute other around => exact List.prefix_rfl
    | compact => exact List.prefix_rfl
    | shutdown => exact List.prefix_rfl
  | enqueued x hcreated hfresh hjobs hq hexecuting =>
    have hnone : s.taking a = [] := by
      cases a <;> first | rfl | cases hcreated
    rw [hnone,hq,List.nil_append]
    exact List.prefix_append s.queue [x.id]
  | entered x hcreated hfresh hjobs hq hexecuting =>
    have hnone : s.taking a = [] := by
      cases a <;> first | rfl | cases hcreated
    rw [hnone,hq,List.nil_append]
  | taken other hjobs hq hexecuting ha =>
    subst ha
    rw [taking,hq]
    exact List.prefix_rfl
  | continued other around progress ha hid hcontinues =>
    subst ha
    rw [hcontinues.spares.queue]
    exact List.prefix_rfl

/-- Work makes the potential smaller, and a call does not make it much greater. -/
lemma potential_step (hs : s.Wf) (hstep : s.step cfg a = some t) :
    t.potential + a.works.toNat ≤ s.potential + 10 * a.submits.toNat := by
  have hcalled : a.submits = true → t.potential ≤ s.potential + 10 := by
    intro hsubmits
    unfold potential
    cases step_threads hs hstep with
    | still hjobs hq hexecuting =>
      rw [hq,hexecuting]
      omega
    | enqueued x hcreated hfresh hjobs hq hexecuting =>
      rw [hq,hexecuting,List.length_append,List.length_singleton]
      omega
    | entered x hcreated hfresh hjobs hq hexecuting =>
      rw [hq,hexecuting,potential_insert (hs.idle_of_fresh hfresh.1)]
      omega
    | taken other hjobs hq hexecuting ha =>
      subst ha
      cases hsubmits
    | continued other around progress ha hid hcontinues =>
      subst ha
      cases hsubmits
  cases a with
  | submit input asynchronous clerk => exact hcalled rfl
  | erase document clerk => exact hcalled rfl
  | take =>
    simp only [step] at hstep
    cases hqueue : s.queue with
    | nil =>
      rw [hqueue] at hstep
      cases hstep
    | cons id queue =>
      rw [hqueue] at hstep
      split_ifs at hstep
      cases hstep
      have hidle := (hs.waiting id (by rw [hqueue]; exact List.mem_cons_self)).1
      have htotal := potential_insert hidle
      simp only [potential,setProgress,hqueue,List.length_cons,Action.works,Action.submits,
        Bool.toNat_true,Bool.toNat_false]
      omega
  | execute id around =>
    obtain ⟨progress,hid,rfl⟩ := Option.map_eq_some_iff.mp hstep
    exact potential_execute hid (execute_continues cfg hs around hid).spares
      (execute_lower cfg s id around progress)
  | compact =>
    cases hstep
    exact le_rfl
  | shutdown =>
    cases hstep
    exact le_rfl

end

end Coordinator

namespace Chronicle
open Coordinator

/-- No job in the queue of a process that runs is ready, and none is cancelled. -/
def Unready (c : Chronicle) : Prop := ∀ r, c.process = .running r → r.coordinator.Unready

section
variable {cfg : EmbeddedRuntimeConfig} {c d : Chronicle} {written : List IngestionJob}

lemma Unready.reopen {disk : Disk} (hholds : Holds ⟨.stopped disk,written⟩) {around : Opening}
    (horder : around.order.Perm (latestJobs disk.frames).keys) {r : EmbeddedRuntime}
    (hr : Process.reopen cfg disk around = .running r) : r.coordinator.Unready := by
  have hsound : ∀ x ∈ disk.frames, x.Sound := hholds.sound
  obtain ⟨backend,replaced,store,t,-,hopen,-,hresumed,hprocess⟩ | ⟨extra,hprocess,-⟩ :=
    Process.reopen_cases cfg hsound horder
  · have hframes : store.frames = disk.frames := by rw [(JobStore.openFile_cases hopen).2]
    obtain ⟨hloaded,-⟩ := hholds.load hframes backend
    cases hprocess.symm.trans hr
    intro id hmem job hjob
    have hqueue : t.queue = (Coordinator.load store backend).queue ++ _ := hresumed.queue
    rw [hloaded.queue,List.nil_append] at hqueue
    rw [hqueue,List.mem_filter] at hmem
    obtain ⟨before,hbefore,hopen,hcurrent,-⟩ := waits_eq_true.mp hmem.2
    rw [hresumed.jobs,if_pos hmem.1,hbefore,Option.map_some] at hjob
    cases hjob
    rw [settled,if_neg (by simp [hopen]),IngestionJob.reopened,if_pos (by simp [hcurrent])]
    exact ⟨JobStatus.noConfusion,JobStatus.noConfusion⟩
  · cases hprocess.symm.trans hr

lemma Unready.step (h : c.Unready) (hholds : c.Holds) {action : Process.Action}
    (hstep : c.step cfg action = some d) : d.Unready := by
  obtain ⟨process,written⟩ := c
  unfold Chronicle.step at hstep
  split_ifs at hstep with hunused
  obtain ⟨p,hp,rfl⟩ := Option.map_eq_some_iff.mp hstep
  cases process with
  | stopped disk =>
    cases action with
    | reopen around =>
      simp only [Process.step] at hp
      split_ifs at hp with horder
      cases hp
      exact fun r hr => Unready.reopen hholds horder hr
    | coordinate action => cases hp
    | checkpoint thread io => cases hp
    | stop => cases hp
  | running r =>
    cases action with
    | reopen around => cases hp
    | coordinate action =>
      obtain ⟨s,hs,rfl⟩ := Option.map_eq_some_iff.mp hp
      intro r' hr
      cases hr
      exact (h r rfl).step (hholds.running r rfl).1 hs
    | checkpoint thread io =>
      cases hp
      intro r' hr
      cases hr
      obtain hsame | ⟨position,store,-,hsame⟩ := checkpointEmbedded_cases cfg r thread io
      · rw [hsame]
        exact h r rfl
      · rw [hsame]
        exact h r rfl
    | stop =>
      cases hp
      intro r' hr
      cases hr

theorem unready_of_run {actions : List Process.Action}
    (hrun : Machine.run (Chronicle.step cfg) start actions = some c) : c.Holds ∧ c.Unready :=
  Machine.run_invariant' (I := fun c => c.Holds ∧ c.Unready)
    (fun _ _ _ h hstep => ⟨h.1.step hstep,h.2.step h.1 hstep⟩)
    ⟨holds_start,fun r hr => by cases hr⟩ hrun

end

end Chronicle

/-- A coordinator with what its workers have taken from the queue, the jobs whose backend step has
returned success, and the jobs whose execution an exception has left. -/
structure Workers where
  coordinator : Coordinator
  taken : List JobId
  applied : List JobId
  escaped : List JobId
  alive : Bool

namespace Workers
open Coordinator

inductive Action where
  | act (action : Coordinator.Action)
  /-- A called function throws in the next step of the thread that executes the job. -/
  | throw (id : JobId)

def start (s : Coordinator) : Workers := ⟨s,[],[],[],true⟩

/-- On the thread of a caller the exception ends the call, and on a worker the process. -/
def step (cfg : CoordinatorConfig) (w : Workers) : Action → Option Workers
  | .act a =>
    if w.alive then (w.coordinator.step cfg a).map fun t => { w with
      coordinator := t
      taken := w.taken ++ w.coordinator.taking a
      applied := w.applied ++ w.coordinator.applying a }
    else none
  | .throw id =>
    if w.alive ∧ w.coordinator.calls cfg id then some { w with
      coordinator := w.coordinator.finish id
      escaped := w.escaped ++ [id]
      alive := id ∉ w.taken }
    else none

def Action.works : Action → Bool
  | .act a => a.works
  | .throw _ => false

def Action.submits : Action → Bool
  | .act a => a.submits
  | .throw _ => false

/-- The action is not the shutdown. -/
def Action.Running : Action → Prop
  | .act .shutdown => False
  | _ => True

/-- All writes of the action are acknowledged. -/
def Action.Synced : Action → Prop
  | .act a => a.Synced
  | .throw _ => True

instance : ∀ a : Action, Decidable a.Running
  | .act .shutdown => isFalse id
  | .act (.submit _ _ _) => isTrue trivial
  | .act (.erase _ _) => isTrue trivial
  | .act .take => isTrue trivial
  | .act (.execute _ _) => isTrue trivial
  | .act .compact => isTrue trivial
  | .throw _ => isTrue trivial

instance : ∀ a : Action, Decidable a.Synced
  | .act a => inferInstanceAs (Decidable (Coordinator.Action.Synced a))
  | .throw _ => isTrue trivial

/-- Nothing throws, and nothing outdated is about to be activated. -/
def Calm (w : Workers) : Action → Prop
  | .act (.execute id _) => w.coordinator.outdated id = false
  | .act _ => True
  | .throw _ => False

instance (w : Workers) : ∀ a, Decidable (w.Calm a)
  | .act (.execute id _) => inferInstanceAs (Decidable (w.coordinator.outdated id = false))
  | .act (.submit _ _ _) => isTrue trivial
  | .act (.erase _ _) => isTrue trivial
  | .act .take => isTrue trivial
  | .act .compact => isTrue trivial
  | .act .shutdown => isTrue trivial
  | .throw _ => isFalse id

/-- Failures of ingestion stay contained: what a run from `s` has come to. -/
structure Contained (cfg : CoordinatorConfig) (s : Coordinator) (actions : List Action)
    (w : Workers) : Prop where
  alive : w.alive = true
  escaped : w.escaped = []
  /-- A job that has been taken and that no thread executes any more has ended. -/
  left : ∀ id ∈ w.taken, w.coordinator.executing.find? id = none →
    ∃ job, w.coordinator.jobs.find? id = some job ∧
      (job.status = .ready ∧ id ∈ w.applied ∨ job.status = .failed ∨ job.status = .superseded)
  /-- What was queued is taken in turn, -/
  behind : s.queue <+: w.taken ++ w.coordinator.queue
  /-- the next of the queue can be taken, -/
  goesOn : w.coordinator.queue ≠ [] → (step cfg w (.act .take)).isSome = true
  /-- a job that is executed goes on whatever the called functions return, -/
  continues : ∀ id progress, w.coordinator.executing.find? id = some progress →
    ∀ around, (step cfg w (.act (.execute id around))).isSome = true
  /-- and there is an end to it. -/
  ends : actions.countP Action.works ≤ s.potential + 10 * actions.countP Action.submits

/-- What holds of the workers as long as nothing throws. -/
structure Sheltered (s : Coordinator) (w : Workers) : Prop where
  wf : w.coordinator.Wf
  stopping : w.coordinator.stopping = false
  unready : w.coordinator.Unready
  alive : w.alive = true
  escaped : w.escaped = []
  taken : ∀ id ∈ w.taken, ∃ job, w.coordinator.jobs.find? id = some job ∧
    (w.coordinator.executing.find? id = none → terminal job.status = true) ∧
    (job.status = .ready → id ∈ w.applied) ∧ job.status ≠ .cancelled
  applied : ∀ id ∈ w.taken, ∀ progress, w.coordinator.executing.find? id = some progress →
    progress.Applied → id ∈ w.applied
  behind : s.queue <+: w.taken ++ w.coordinator.queue

section
variable {cfg : CoordinatorConfig} {s : Coordinator} {w v : Workers} {a : Action}

/-- A job that has been taken, behind a step. -/
lemma Sheltered.taken_step (h : Sheltered s w) {a : Coordinator.Action} {t : Coordinator}
    (hstep : w.coordinator.step cfg a = some t) (hcalm : w.Calm (.act a)) {id : JobId}
    (hid : id ∈ w.taken) : ∃ job, t.jobs.find? id = some job ∧
      (t.executing.find? id = none → terminal job.status = true) ∧
      (job.status = .ready → id ∈ w.applied) ∧ job.status ≠ .cancelled := by
  obtain ⟨job,hjob,hended,hready,huncancelled⟩ := h.taken id hid
  obtain ⟨next,hnext,-,hkept⟩ := Ledger.step_jobs h.wf hstep hjob
  have hnew : ∀ x : IngestionJob, w.coordinator.Fresh x.id → id ≠ x.id := by
    rintro x hfresh rfl
    rw [hfresh.1] at hjob
    cases hjob
  have hstill : w.coordinator.executing.find? id = none → terminal next.status = true :=
    fun hidle => by rw [hkept (hended hidle)]; exact hended hidle
  refine ⟨next,hnext,?_,?_,?_⟩
  · intro hidle
    cases step_threads h.wf hstep with
    | still hjobs hq hexecuting => exact hstill (hexecuting ▸ hidle)
    | enqueued x hcreated hfresh hjobs hq hexecuting => exact hstill (hexecuting ▸ hidle)
    | entered x hcreated hfresh hjobs hq hexecuting =>
      rw [hexecuting,OrdMap.find?_insert,if_neg (hnew x hfresh)] at hidle
      exact hstill hidle
    | taken other hjobs hq hexecuting ha =>
      rw [hexecuting,OrdMap.find?_insert] at hidle
      split_ifs at hidle
      exact hstill hidle
    | continued other around progress ha hother hcontinues =>
      subst ha
      by_cases hsame : id = other
      · subst hsame
        exact hcontinues.ends hcalm hidle next hnext
      · rw [hcontinues.spares.executing id hsame] at hidle
        exact hstill hidle
  · intro hnextReady
    obtain hbefore | ⟨-,happlies⟩ := status_after h.wf hstep hnext
    · cases hjob.symm.trans hbefore
      exact hready hnextReady
    · obtain ⟨progress,hprogress,happlied⟩ := happlies hnextReady
      exact h.applied id hid progress hprogress happlied
  · obtain hbefore | ⟨hkept,-⟩ := status_after h.wf hstep hnext
    · cases hjob.symm.trans hbefore
      exact huncancelled
    · exact hkept

theorem Sheltered.step (h : Sheltered s w) (hcalm : w.Calm a) (ha : a.Running)
    (hstep : w.step cfg a = some v) : Sheltered s v := by
  cases a with
  | throw id => cases hcalm
  | act a =>
    simp only [Workers.step,h.alive,if_true] at hstep
    obtain ⟨t,ht,rfl⟩ := Option.map_eq_some_iff.mp hstep
    have hact : a ≠ .shutdown := by
      rintro rfl
      exact ha
    have hentered : ∀ id ∈ w.coordinator.taking a, id ∈ w.coordinator.queue ∧
        t.jobs = w.coordinator.jobs ∧ t.executing.find? id = some .entered :=
      fun id => taking_entered ht
    refine ⟨step_wf h.wf ht,(step_stopping ht hact).trans h.stopping,h.unready.step h.wf ht,rfl,
      h.escaped,?_,?_,?_⟩
    · intro id hid
      obtain hid | hid := List.mem_append.mp hid
      · obtain ⟨job,hjob,hended,hready,huncancelled⟩ := h.taken_step ht hcalm hid
        exact ⟨job,hjob,hended,fun hr => List.mem_append_left _ (hready hr),huncancelled⟩
      · obtain ⟨hwaits,hjobs,hprogress⟩ := hentered id hid
        obtain ⟨job,hjob⟩ := (h.wf.waiting id hwaits).2
        obtain ⟨hready,huncancelled⟩ := h.unready id hwaits job hjob
        refine ⟨job,hjobs ▸ hjob,fun hidle => ?_,fun hnow => absurd hnow hready,huncancelled⟩
        rw [hprogress] at hidle
        cases hidle
    · intro id hid progress hprogress happlied
      obtain hbefore | hnow := applied_after h.wf ht hprogress happlied
      · obtain hid | hid := List.mem_append.mp hid
        · exact List.mem_append_left _ (h.applied id hid progress hbefore happlied)
        · exact absurd (hentered id hid).1 (not_waiting h.wf hbefore)
      · exact List.mem_append_right _ hnow
    · rw [List.append_assoc]
      exact h.behind.trans ((List.prefix_append_right_inj _).mpr (taking_queue h.wf ht))

lemma sheltered_start (hs : s.Wf) (hstopping : s.stopping = false) (hunready : s.Unready) :
    Sheltered s (start s) where
  wf := hs
  stopping := hstopping
  unready := hunready
  alive := rfl
  escaped := rfl
  taken := fun id hid => by cases hid
  applied := fun id hid => by cases hid
  behind := List.prefix_rfl

lemma Sheltered.contained (h : Sheltered s w) {actions : List Action}
    (hends : w.coordinator.potential + actions.countP Action.works ≤
      s.potential + 10 * actions.countP Action.submits) : Contained cfg s actions w := by
  refine ⟨h.alive,h.escaped,?_,h.behind,?_,?_,by omega⟩
  · intro id hid hidle
    obtain ⟨job,hjob,hended,hready,huncancelled⟩ := h.taken id hid
    refine ⟨job,hjob,?_⟩
    obtain hstatus | hstatus | hstatus | hstatus := of_decide_eq_true (hended hidle)
    · exact Or.inl ⟨hstatus,hready hstatus⟩
    · exact Or.inr (Or.inl hstatus)
    · exact Or.inr (Or.inr hstatus)
    · exact absurd hstatus huncancelled
  · intro hqueue
    obtain ⟨id,queue,hcons⟩ := List.exists_cons_of_ne_nil hqueue
    simp [Workers.step,Coordinator.step,h.alive,h.stopping,hcons]
  · intro id progress hid around
    simp [Workers.step,Coordinator.step,h.alive,hid]

/-- A run in which nothing throws, and its work and its calls against the potential. -/
lemma Sheltered.run {actions : List Action} (hw : Sheltered s w)
    (hcalm : Machine.Meets (Workers.step cfg) Calm w actions)
    (hrunning : ∀ a ∈ actions, a.Running)
    (hrun : Machine.run (Workers.step cfg) w actions = some v) :
    Sheltered s v ∧ v.coordinator.potential + actions.countP Action.works ≤
      w.coordinator.potential + 10 * actions.countP Action.submits := by
  induction actions generalizing w with
  | nil =>
    cases hrun
    exact ⟨hw,le_rfl⟩
  | cons a actions ih =>
    obtain ⟨u,hu,hrun⟩ := Machine.run_cons_eq_some.mp hrun
    have hnext := hw.step hcalm.1 (hrunning a List.mem_cons_self) hu
    obtain ⟨hv,hle⟩ := ih hnext (hcalm.2 u hu)
      (fun b hb => hrunning b (List.mem_cons_of_mem a hb)) hrun
    refine ⟨hv,?_⟩
    have hstep : u.coordinator.potential + a.works.toNat ≤
        w.coordinator.potential + 10 * a.submits.toNat := by
      cases a with
      | throw id => exact absurd hcalm.1 not_false
      | act a =>
        simp only [Workers.step,hw.alive,if_true] at hu
        obtain ⟨t,ht,rfl⟩ := Option.map_eq_some_iff.mp hu
        exact potential_step hw.wf ht
    have hcount : ∀ p : Action → Bool,
        (a::actions).countP p = actions.countP p + (p a).toNat := by
      intro p
      rw [List.countP_cons]
      cases p a <;> rfl
    rw [hcount,hcount]
    omega

/-- Of a run in which nothing throws, from any state of a coordinator that is not stopping, the
failures stay contained. -/
theorem contained_of_run (cfg : EmbeddedRuntimeConfig) {history : List Process.Action}
    {c : Chronicle} {r : EmbeddedRuntime}
    (hreached : Machine.run (Chronicle.step cfg) Chronicle.start history = some c)
    (hprocess : c.process = .running r) (hstopping : r.coordinator.stopping = false)
    {actions : List Action} {w : Workers} (hrunning : ∀ a ∈ actions, a.Running)
    (hcalm : Machine.Meets (step cfg.coordinator) Calm (start r.coordinator) actions)
    (hrun : Machine.run (step cfg.coordinator) (start r.coordinator) actions = some w) :
    Contained cfg.coordinator r.coordinator actions w := by
  obtain ⟨hholds,hunready⟩ := Chronicle.unready_of_run hreached
  obtain ⟨hw,hends⟩ := (sheltered_start (hholds.running r hprocess).1 hstopping
    (hunready r hprocess)).run hcalm hrunning hrun
  exact hw.contained hends

end

section
open Machine Chronicle

/-- Lines of one document, measured by a tokenizer. -/
def measured : EmbeddedRuntimeConfig :=
  { plainRuntime with
    coordinator := { plainConfig with chunking := { measureTokens := some List.length } } }

/-- A process has opened an empty store. -/
lemma opened_spec : ∃ c r, run (Chronicle.step measured) Chronicle.start [.reopen (smooth [])] =
    some c ∧ c.process = .running r ∧ r.coordinator = Coordinator.start .empty := by
  have hopened : (run (Chronicle.step measured) Chronicle.start [.reopen (smooth [])]).any
      (fun c => c.process.runsWith fun r => decide (r.coordinator = Coordinator.start .empty)) =
        true := by
    decide +kernel
  obtain ⟨⟨process,written⟩,hrun,hc⟩ := (Option.any_eq_true _ _).mp hopened
  cases process with
  | stopped disk => cases hc
  | running r => exact ⟨_,r,hrun,rfl,of_decide_eq_true hc⟩

/-- A worker ingests a document while another one is submitted, and takes that too. -/
def ingesting : List Action :=
  List.map .act (.submit (letter 'd' 'a') true (clerk '1')::.take::executed '1' 4 ++
    .submit (letter 'e' 'b') true (clerk '2')::executed '1' 4 ++ [Coordinator.Action.take])

theorem ingesting_contained : ∃ w,
    run (step measured.coordinator) (start (Coordinator.start .empty)) ingesting = some w ∧
      Contained measured.coordinator (Coordinator.start .empty) ingesting w := by
  obtain ⟨c,r,hreached,hprocess,hr⟩ := opened_spec
  have hsome : (run (step measured.coordinator) (start (Coordinator.start .empty))
      ingesting).isSome = true := by
    decide +kernel
  obtain ⟨w,hrun⟩ := Option.isSome_iff_exists.mp hsome
  have hcalm : Meets (step measured.coordinator) Calm (start (Coordinator.start .empty))
      ingesting := by
    decide +kernel
  have hrunning : ∀ a ∈ ingesting, a.Running := by decide +kernel
  have hcontained := contained_of_run measured hreached hprocess (by rw [hr]; rfl) hrunning
    (by rw [hr]; exact hcalm) (by rw [hr]; exact hrun)
  rw [hr] at hcontained
  exact ⟨w,hrun,hcontained⟩

/-- The tokenizer is not there when the first of two documents is chunked. -/
def unmeasured : List Action :=
  List.map .act (.submit (letter 'd' 'a') true (clerk '1')::
    .submit (letter 'e' 'b') true (clerk '2')::.take::executed '1' 2) ++
    [Action.throw (ascii ['1'])]

theorem exception_is_not_contained :
    ¬ ∀ (cfg : EmbeddedRuntimeConfig) (history : List Process.Action) (c : Chronicle)
      (r : EmbeddedRuntime) (actions : List Action) (w : Workers),
      run (Chronicle.step cfg) Chronicle.start history = some c → c.process = .running r →
      r.coordinator.stopping = false → (∀ a ∈ actions, a.Synced ∧ a.Running) →
      run (step cfg.coordinator) (start r.coordinator) actions = some w →
      Contained cfg.coordinator r.coordinator actions w := by
  intro h
  obtain ⟨c,r,hreached,hprocess,hr⟩ := opened_spec
  have hended : (run (step measured.coordinator) (start (Coordinator.start .empty))
      unmeasured).any (fun w => !w.alive) = true := by
    decide +kernel
  obtain ⟨w,hrun,hw⟩ := (Option.any_eq_true _ _).mp hended
  have hcontained := h measured _ c r unmeasured w hreached hprocess (by rw [hr]; rfl)
    (by decide +kernel) (by rw [hr]; exact hrun)
  rw [hcontained.alive] at hw
  cases hw

end

end Workers
end RagRuntime.Ingestion
