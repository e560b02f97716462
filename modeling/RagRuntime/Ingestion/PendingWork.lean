import RagRuntime.Ingestion.Chronicle

/-! Work that was pending when a process stopped is taken up again, and finished work is not. -/
namespace RagRuntime.Ingestion
open RagRuntime.Base RagRuntime.Core RagRuntime.Backend

namespace Progress

/-- How many steps an erasure still takes at most; other executions have none. -/
def erasureSteps : Progress → ℕ
  | .entered => 5
  | .toErasing => 4
  | .erasing => 3
  | .erased _ | .failing _ => 2
  | .failingVolatile _ => 1
  | _ => 0

end Progress

namespace Coordinator

/-- One thread executes a job until it is done with it, or for so many steps. -/
def perform (cfg : CoordinatorConfig) (around : ℕ → Surroundings) (id : JobId) :
    ℕ → Coordinator → Coordinator
  | 0,s => s
  | n+1,s =>
    match s.executing.find? id with
    | none => s
    | some progress => perform cfg around id n (s.execute cfg id (around n) progress)

/-- The open deletions are executed before the workers start. -/
def performDeletions (cfg : CoordinatorConfig) (around : JobId → ℕ → Surroundings)
    (deletions : List JobId) (s : Coordinator) : Coordinator :=
  deletions.foldl (fun s id => s.perform cfg (around id) id 5) s

/-- What executing one job leaves of the others. -/
structure Spares (s t : Coordinator) (id : JobId) : Prop where
  jobs : ∀ other, other ≠ id → t.jobs.find? other = s.jobs.find? other
  executing : ∀ other, other ≠ id → t.executing.find? other = s.executing.find? other
  queue : t.queue = s.queue

/-- The thread has come to the end of the job. -/
def Done (s : Coordinator) (id : JobId) (job : IngestionJob) : Prop :=
  s.executing.find? id = none ∧ ∃ last, s.jobs.find? id = some last ∧ job.SameIdentity last ∧
    terminal last.status = true

/-- A thread goes on with an erasure and has fewer steps left. -/
def GoesOn (s : Coordinator) (id : JobId) (job : IngestionJob) (steps : ℕ) : Prop :=
  ∃ progress next, s.executing.find? id = some progress ∧ 0 < progress.erasureSteps ∧
    progress.erasureSteps < steps ∧ s.jobs.find? id = some next ∧ job.SameIdentity next

section
variable {cfg : CoordinatorConfig} {s t u : Coordinator} {id : JobId} {job : IngestionJob}

lemma Spares.refl (s : Coordinator) (id : JobId) : s.Spares s id :=
  ⟨fun _ _ => rfl,fun _ _ => rfl,rfl⟩

lemma Spares.trans (h : s.Spares t id) (h' : t.Spares u id) : s.Spares u id :=
  ⟨fun other hne => (h'.jobs other hne).trans (h.jobs other hne),
    fun other hne => (h'.executing other hne).trans (h.executing other hne),h'.queue.trans h.queue⟩

lemma Spares.setProgress (h : s.Spares t id) (progress : Progress) :
    s.Spares (t.setProgress id progress) id := by
  refine ⟨h.jobs,fun other hne => ?_,h.queue⟩
  rw [Coordinator.setProgress,OrdMap.find?_insert,if_neg hne,h.executing other hne]

lemma Spares.finish (h : s.Spares t id) : s.Spares (t.finish id) id := by
  refine ⟨h.jobs,fun other hne => ?_,h.queue⟩
  rw [Coordinator.finish,OrdMap.find?_erase,if_neg hne,h.executing other hne]

lemma Spares.setJob {next : IngestionJob} (hid : next.id = id) (store : JobStore) :
    s.Spares ({ s with store := store }.setJob next) id := by
  refine ⟨fun other hne => ?_,fun _ _ => rfl,rfl⟩
  rw [Coordinator.setJob,OrdMap.find?_insert,if_neg (by rw [hid]; exact hne)]

lemma done_finish {last : IngestionJob} (hlast : t.jobs.find? id = some last)
    (hsame : job.SameIdentity last) (hclosed : terminal last.status = true) :
    (t.finish id).Done id job :=
  ⟨by rw [Coordinator.finish,OrdMap.find?_erase,if_pos rfl],last,hlast,hsame,hclosed⟩

lemma goesOn_setProgress {next : IngestionJob} {progress : Progress} {steps : ℕ}
    (hnext : t.jobs.find? id = some next) (hsame : job.SameIdentity next)
    (hsteps : 0 < progress.erasureSteps ∧ progress.erasureSteps < steps) :
    (t.setProgress id progress).GoesOn id job steps :=
  ⟨progress,next,by rw [Coordinator.setProgress,OrdMap.find?_insert,if_pos rfl],hsteps.1,hsteps.2,
    hnext,hsame⟩

/-- A transition of an erasure ends in a closed record, or goes on with an open one. -/
lemma transition_erasure (cfg : CoordinatorConfig) (hjob : s.jobs.find? id = some job)
    (hkey : job.id = id) (change : Change)
    (now : ℤ) (saved : WriteOutcome) :
    let called := s.transition cfg id change now saved
    s.Spares called.2 id ∧ ∃ next, called.2.jobs.find? id = some next ∧ job.SameIdentity next ∧
      (called.1 = .ok false → terminal next.status = true) ∧
      (called.1 = .ok true → next.status = change.status) := by
  have htransitioned := transition_transitioned cfg s id change now saved
  revert htransitioned
  generalize s.transition cfg id change now saved = called
  intro htransitioned
  cases htransitioned with
  | unknown hnone e => rw [hjob] at hnone; cases hnone
  | closed found hfound hclosed =>
    cases hjob.symm.trans hfound
    exact ⟨Spares.refl s id,job,hjob,IngestionJob.SameIdentity.refl job,fun _ => hclosed,
      fun h => by cases h⟩
  | lost found hfound hopen hsaved e extra hextra bytes =>
    cases hjob.symm.trans hfound
    exact ⟨⟨fun _ _ => rfl,fun _ _ => rfl,rfl⟩,job,hjob,IngestionJob.SameIdentity.refl job,
      (fun h => by cases h),(fun h => by cases h)⟩
  | written found hfound hopen bytes =>
    cases hjob.symm.trans hfound
    have hid : (s.nextRecord change job now).id = id := by rw [nextRecord_id,hkey]
    have hspares : s.Spares ({ s with store := ⟨s.store.frames ++ [s.nextRecord change job now],
        bytes⟩ }.setJob (s.nextRecord change job now)) id := Spares.setJob hid _
    refine ⟨hspares,s.nextRecord change job now,?_,nextRecord_same s change job now,?_,?_⟩
    · rw [← hid,OrdMap.find?_insert,if_pos rfl]
    · intro h
      have hnot : ¬s.revisionOf job.input.document = job.revision :=
        of_decide_eq_false (Except.ok.inj h)
      rw [nextRecord,if_neg hnot]
      rfl
    · intro h
      have hcurrent : s.revisionOf job.input.document = job.revision :=
        of_decide_eq_true (Except.ok.inj h)
      rw [nextRecord,if_pos hcurrent,apply_status]

lemma advance_erasure (hjob : s.jobs.find? id = some job) (hkey : job.id = id) (change : Change)
    {next : Option Progress} {steps : ℕ} (around : Surroundings) (hsteps : 1 < steps)
    (hnone : next = none → terminal change.status = true)
    (hsome : ∀ progress, next = some progress → 0 < progress.erasureSteps ∧
      progress.erasureSteps < steps) :
    let t := s.advance cfg id change next around
    s.Spares t id ∧ (t.Done id job ∨ t.GoesOn id job steps) := by
  have htransition := transition_erasure cfg hjob hkey change around.now around.saved
  unfold advance
  revert htransition
  dsimp only
  obtain ⟨result,t⟩ := s.transition cfg id change around.now around.saved
  rintro ⟨hspares,record,hrecord,hsame,hfalse,htrue⟩
  unfold proceed
  dsimp only at hspares hrecord hfalse htrue ⊢
  cases result with
  | error e => exact ⟨hspares.setProgress _,Or.inr (goesOn_setProgress hrecord hsame
      ⟨Nat.one_pos,hsteps⟩)⟩
  | ok current =>
    cases current with
    | false => exact ⟨hspares.finish,Or.inl (done_finish hrecord hsame (hfalse rfl))⟩
    | true =>
      cases next with
      | none =>
        refine ⟨hspares.finish,Or.inl (done_finish hrecord hsame ?_)⟩
        rw [htrue rfl]
        exact hnone rfl
      | some progress =>
        exact ⟨hspares.setProgress _,Or.inr (goesOn_setProgress hrecord hsame (hsome progress rfl))⟩

/-- One step of an erasure. -/
lemma execute_erasure (cfg : CoordinatorConfig) (hjob : s.jobs.find? id = some job)
    (hkey : job.id = id)
    (herase : job.operation = .erase) (around : Surroundings) {progress : Progress}
    (hprogress : 0 < progress.erasureSteps) :
    let t := s.execute cfg id around progress
    s.Spares t id ∧ (t.Done id job ∨ t.GoesOn id job progress.erasureSteps) := by
  have hsame := IngestionJob.SameIdentity.refl job
  have hspares := Spares.refl s id
  unfold execute
  cases progress with
  | toChunking => cases hprogress
  | preparing => cases hprogress
  | toEmbedding prepared => cases hprogress
  | embedding prepared => cases hprogress
  | toPublishing prepared => cases hprogress
  | activating prepared => cases hprogress
  | activated prepared => cases hprogress
  | entered =>
    simp only [hjob,herase,if_true]
    split_ifs with hclosed
    · exact ⟨hspares.finish,Or.inl (done_finish hjob hsame hclosed)⟩
    · exact ⟨hspares.setProgress _,Or.inr (goesOn_setProgress hjob hsame (by decide))⟩
  | toErasing =>
    apply advance_erasure hjob hkey _ around (by decide)
    · intro h
      cases h
    · intro progress h
      cases h
      decide
  | erasing =>
    simp only [hjob]
    obtain ⟨_ | _,backend⟩ := s.backend.erase job.input.document job.revision around.built
    · exact ⟨hspares.setProgress _,Or.inr (goesOn_setProgress hjob hsame
        ⟨Nat.succ_pos 1,Nat.lt_succ_self 2⟩)⟩
    · have hkept : s.Spares { s with backend := backend } id := ⟨fun _ _ => rfl,fun _ _ => rfl,rfl⟩
      exact ⟨hkept.setProgress _,Or.inr (goesOn_setProgress hjob hsame
        ⟨Nat.succ_pos 1,Nat.lt_succ_self 2⟩)⟩
  | erased applied =>
    apply advance_erasure hjob hkey _ around (Nat.lt_succ_self 1)
    · exact fun _ => rfl
    · intro progress h
      cases h
  | failing e =>
    have htransition := transition_erasure cfg hjob hkey
      { status := .failed, error := some (boundedError e) } around.now around.saved
    dsimp only
    revert htransition
    dsimp only
    obtain ⟨result,t⟩ := s.transition cfg id { status := .failed, error := some (boundedError e) }
      around.now around.saved
    rintro ⟨hspares,record,hrecord,hsame,hfalse,htrue⟩
    dsimp only at hspares hrecord hfalse htrue ⊢
    cases result with
    | error e => exact ⟨hspares.setProgress _,Or.inr (goesOn_setProgress hrecord hsame
        ⟨Nat.one_pos,Nat.lt_succ_self 1⟩)⟩
    | ok current =>
      refine ⟨hspares.finish,Or.inl (done_finish hrecord hsame ?_)⟩
      cases current with
      | false => exact hfalse rfl
      | true =>
        rw [htrue rfl]
        rfl
  | failingVolatile e =>
    dsimp only
    unfold failVolatile
    simp only [hjob]
    by_cases hclosed : terminal job.status = true
    · rw [if_pos hclosed]
      exact ⟨hspares.finish,Or.inl (done_finish hjob hsame hclosed)⟩
    · rw [if_neg hclosed]
      have hset : ∀ next : IngestionJob, next.id = id → job.SameIdentity next →
          terminal next.status = true →
          s.Spares ((s.setJob next).finish id) id ∧ ((s.setJob next).finish id).Done id job := by
        intro next hid hnext hend
        refine ⟨(Spares.setJob hid s.store).finish,done_finish ?_ hnext hend⟩
        rw [Coordinator.setJob,OrdMap.find?_insert,if_pos hid.symm]
      refine And.imp_right Or.inl (hset _ ?_ ?_ ?_)
      · exact hkey
      · exact ⟨rfl,rfl,rfl,rfl,rfl⟩
      · dsimp only
        split_ifs
        · rfl
        · rfl

/-- An erasure comes to its end. -/
theorem perform_erasure (cfg : CoordinatorConfig) (around : ℕ → Surroundings) {n : ℕ}
    (hgoes : s.GoesOn id job (n+1)) (hkey : job.id = id) (herase : job.operation = .erase) :
    s.Spares (s.perform cfg around id n) id ∧ (s.perform cfg around id n).Done id job := by
  induction n generalizing s with
  | zero =>
    obtain ⟨progress,next,-,hpos,hlt,-⟩ := hgoes
    omega
  | succ n ih =>
    obtain ⟨progress,next,hprogress,hpos,hlt,hnext,hsame⟩ := hgoes
    unfold perform
    rw [hprogress]
    obtain ⟨hspares,⟨hidle,last,hlast,hsameLast,hclosed⟩ | ⟨p,x,hp,hppos,hplt,hx,hsameX⟩⟩ :=
      execute_erasure cfg hnext (hsame.id.trans hkey) (hsame.operation.trans herase)
        (around n) hpos
    · have hstill : (s.execute cfg id (around n) progress).perform cfg around id n =
          s.execute cfg id (around n) progress := by
        cases n with
        | zero => rfl
        | succ n =>
          unfold perform
          rw [hidle]
      dsimp only
      rw [hstill]
      exact ⟨hspares,hidle,last,hlast,hsame.trans hsameLast,hclosed⟩
    · obtain ⟨hspares',hdone⟩ := ih ⟨p,x,hp,hppos,by omega,hx,hsame.trans hsameX⟩
      exact ⟨hspares.trans hspares',hdone⟩

/-- The deletions come to their ends, and the other jobs are left alone. -/
lemma performDeletions_spec (cfg : CoordinatorConfig) (around : JobId → ℕ → Surroundings)
    {deletions : List JobId}
    (hnodup : deletions.Nodup)
    (hentered : ∀ id ∈ deletions, s.executing.find? id = some .entered ∧
      ∃ job, s.jobs.find? id = some job ∧ job.id = id ∧ job.operation = .erase) :
    let u := s.performDeletions cfg around deletions
    (∀ id, id ∉ deletions → u.jobs.find? id = s.jobs.find? id ∧
      u.executing.find? id = s.executing.find? id) ∧ u.queue = s.queue ∧
    ∀ id ∈ deletions, ∀ job, s.jobs.find? id = some job → u.Done id job := by
  induction deletions generalizing s with
  | nil => exact ⟨fun _ _ => ⟨rfl,rfl⟩,rfl,fun id hid => by cases hid⟩
  | cons id rest ih =>
    obtain ⟨hnot,hrest⟩ := List.nodup_cons.mp hnodup
    obtain ⟨hid,job,hjob,hkey,herase⟩ := hentered id List.mem_cons_self
    obtain ⟨hspares,hdone⟩ := perform_erasure cfg (around id)
      ⟨.entered,job,hid,Nat.succ_pos 4,Nat.lt_succ_self 5,hjob,
        IngestionJob.SameIdentity.refl job⟩ hkey herase
    obtain ⟨hothers,hqueue,hall⟩ := ih hrest fun other hother => by
      have hne : other ≠ id := fun heq => hnot (heq ▸ hother)
      rw [hspares.executing other hne,hspares.jobs other hne]
      exact hentered other (List.mem_cons_of_mem id hother)
    refine ⟨?_,hqueue.trans hspares.queue,?_⟩
    · intro other hother
      rw [List.mem_cons,not_or] at hother
      obtain ⟨hjobs,hexecuting⟩ := hothers other hother.2
      exact ⟨hjobs.trans (hspares.jobs other hother.1),
        hexecuting.trans (hspares.executing other hother.1)⟩
    · intro other hother x hx
      obtain rfl | hother := List.mem_cons.mp hother
      · cases hjob.symm.trans hx
        obtain ⟨hjobs,hexecuting⟩ := hothers other hnot
        obtain ⟨hidle,last,hlast,hrest⟩ := hdone
        exact ⟨hexecuting.trans hidle,last,hjobs.trans hlast,hrest⟩
      · have hne : other ≠ id := fun heq => hnot (heq ▸ hother)
        exact hall other hother x ((hspares.jobs other hne).trans hx)

end

end Coordinator

namespace Chronicle
open Coordinator

variable {cfg : EmbeddedRuntimeConfig} {written : List IngestionJob} {disk : Disk}
  {around : Opening} {r : EmbeddedRuntime}

/-- The erasures that an opening finds open. -/
def recoveryDeletions (around : Opening) (s : Coordinator) : List JobId :=
  around.order.filter fun id => s.executing.contains id

/-- What a successful opening makes of a job that the log knows. -/
lemma Holds.resumed (h : Holds ⟨.stopped disk,written⟩)
    (horder : around.order.Perm (latestJobs disk.frames).keys)
    (hreopen : Process.reopen cfg disk around = .running r) :
    ∃ s : Coordinator, s.Resumed around around.order r.coordinator ∧ s.Wf ∧
      s.jobs = latestJobs disk.frames ∧ s.executing = ∅ ∧ s.queue = [] := by
  have hsound : ∀ x ∈ disk.frames, x.Sound := h.sound
  obtain ⟨backend,replaced,store,t,-,hopen,-,hresumed,hprocess⟩ | ⟨extra,hprocess,-⟩ :=
    Process.reopen_cases cfg hsound horder
  · have hframes : store.frames = disk.frames := by rw [(JobStore.openFile_cases hopen).2]
    obtain ⟨hloaded,-,-⟩ := h.load hframes backend
    cases hreopen.symm.trans hprocess
    exact ⟨_,hresumed,hloaded.wf.withBackend replaced,hloaded.jobs,hloaded.idle,hloaded.queue⟩
  · cases hreopen.symm.trans hprocess

/-- The newest job of a document that is open in the log is the latest one that the opening
finds. -/
lemma Holds.current (h : Holds ⟨.stopped disk,written⟩) {s : Coordinator} (hs : s.Wf)
    (hjobs : s.jobs = latestJobs disk.frames) {document : Bytes} {newest last : IngestionJob}
    (hnewest : newestAccepted written document = some newest)
    (hlast : (latestJobs written).find? newest.id = some last)
    (hopen : terminal last.status = false) :
    s.jobs.find? newest.id = some last ∧ newest.SameIdentity last ∧ last.input = newest.input ∧
      s.revisionOf last.input.document = last.revision := by
  obtain ⟨hmem,hdocument,hnewOpen⟩ := h.consistent.newest document newest hnewest
  obtain ⟨hlastMem,hid⟩ := latestJobs_mem hlast
  have hsame := h.consistent.same newest hmem last hlastMem hid.symm
  have hfound : s.jobs.find? newest.id = some last := by
    rw [hjobs]
    exact h.abridges.complete newest.id last hlast hopen
  refine ⟨hfound,hsame,h.consistent.input last hlastMem newest hmem hid hopen hnewOpen,?_⟩
  apply Nat.le_antisymm _ (hs.bounded newest.id last hfound)
  unfold revisionOf
  cases hrevision : s.latestRevision.find? last.input.document with
  | none => exact Nat.zero_le _
  | some revision =>
    obtain ⟨id,hlatest⟩ := hs.listed _ revision hrevision
    obtain ⟨job,hjob,hjobDocument,hjobRevision⟩ := hs.latest _ id hlatest
    rw [hjobs] at hjob
    obtain ⟨found,hfoundNewest,hbound⟩ := h.covered job (latestJobs_mem hjob).1
    rw [hjobDocument,hsame.document,hdocument,hnewest] at hfoundNewest
    cases hfoundNewest
    rw [hrevision] at hjobRevision
    cases hjobRevision
    rw [hsame.revision]
    exact hbound

/-- Whenever an opening succeeds, the newest job accepted for a document whose last record is open
is there as it was accepted, and is queued or, if it is an erasure, has been executed; jobs whose
last record is terminal are neither queued nor executed. -/
theorem pending_work_survives (cfg : EmbeddedRuntimeConfig) {actions : List Process.Action}
    {disk : Disk} {written : List IngestionJob} {around : Opening} {r : EmbeddedRuntime}
    (hrun : Machine.run (step cfg) start actions = some ⟨.stopped disk,written⟩)
    (horder : around.order.Perm (latestJobs disk.frames).keys)
    (hreopen : Process.reopen cfg disk around = .running r)
    (surroundings : JobId → ℕ → Surroundings) :
    let deletions := recoveryDeletions around r.coordinator
    let recovered := r.coordinator.performDeletions cfg.coordinator surroundings deletions
    (∀ document newest last, newestAccepted written document = some newest →
      (latestJobs written).find? newest.id = some last → terminal last.status = false →
      ∃ job, r.coordinator.jobs.find? newest.id = some job ∧ job.operation = newest.operation ∧
        job.input = newest.input ∧ job.revision = newest.revision ∧
        (newest.operation = .upsert → newest.id ∈ recovered.queue ∧
          recovered.jobs.find? newest.id = some job) ∧
        (newest.operation = .erase → newest.id ∈ deletions ∧ recovered.Done newest.id job)) ∧
    ∀ id last, (latestJobs written).find? id = some last → terminal last.status = true →
      id ∉ recovered.queue ∧ id ∉ deletions ∧ recovered.executing.find? id = none := by
  have hholds : Holds ⟨.stopped disk,written⟩ :=
    Machine.run_invariant' (fun _ _ _ hi hs => hi.step hs) holds_start hrun
  obtain ⟨s,hresumed,hs,hjobs,hidle,hqueue⟩ := hholds.resumed horder hreopen
  have hnodup := horder.nodup_iff.mpr (latestJobs disk.frames).keys_nodup
  have hknown : ∀ {id job}, s.jobs.find? id = some job → id ∈ around.order := by
    intro id job hjob
    rw [hjobs] at hjob
    exact horder.mem_iff.mpr (OrdMap.mem_keys.mpr ⟨job,hjob⟩)
  have hexecuting : ∀ id, r.coordinator.executing.find? id =
      if id ∈ around.order ∧ s.waits .erase id = true then some .entered else none := by
    intro id
    rw [hresumed.executing,hidle]
    rfl
  have hdeletions : ∀ id, id ∈ recoveryDeletions around r.coordinator ↔
      id ∈ around.order ∧ s.waits .erase id = true := by
    intro id
    unfold recoveryDeletions
    rw [List.mem_filter,OrdMap.contains_eq_true,hexecuting]
    split_ifs with hwaits
    · simp [hwaits.1,hwaits.2]
    · simp only [exists_false,and_false,false_iff]
      exact hwaits
  have hdistinct : (recoveryDeletions around r.coordinator).Nodup := hnodup.filter _
  have hspec := performDeletions_spec cfg.coordinator surroundings hdistinct (by
      intro id hid
      have hid := (hdeletions id).mp hid
      obtain ⟨job,hjob,-,-,herase⟩ := waits_eq_true.mp hid.2
      obtain ⟨next,hnext,hsame,-⟩ := hresumed.job hjob
      exact ⟨by rw [hexecuting,if_pos hid],next,hnext,hresumed.keyed hs.keyed id next hnext,
        hsame.operation.trans herase⟩)
  obtain ⟨hothers,hsameQueue,hdone⟩ := hspec
  have hkept : r.coordinator.queue = around.order.filter (s.waits .upsert) := by
    rw [hresumed.queue,hqueue,List.nil_append]
  refine ⟨?_,?_⟩
  · intro document newest last hnewest hlast hopen
    obtain ⟨hfound,hsame,hinput,hcurrent⟩ := hholds.current hs hjobs hnewest hlast hopen
    have hid := hknown hfound
    have hwaits : s.waits newest.operation newest.id = true :=
      waits_eq_true.mpr ⟨last,hfound,hopen,hcurrent,hsame.operation⟩
    have hjob : r.coordinator.jobs.find? newest.id = some (s.settled around last) := by
      rw [hresumed.jobs,if_pos hid,hfound,Option.map_some]
    have hsettled := settled_same s around last
    refine ⟨_,hjob,hsettled.operation.trans hsame.operation,?_,
      hsettled.revision.trans hsame.revision,?_,?_⟩
    · rw [settled_input,hinput]
    · intro hupsert
      have hnot : newest.id ∉ recoveryDeletions around r.coordinator := fun hmem => by
        obtain ⟨job,hjob,-,-,herase⟩ := waits_eq_true.mp ((hdeletions newest.id).mp hmem).2
        cases hfound.symm.trans hjob
        rw [hsame.operation,hupsert] at herase
        cases herase
      refine ⟨?_,(hothers newest.id hnot).1.trans hjob⟩
      rw [hsameQueue,hkept]
      exact List.mem_filter.mpr ⟨hid,hupsert ▸ hwaits⟩
    · intro herase
      have hmem := (hdeletions newest.id).mpr ⟨hid,herase ▸ hwaits⟩
      exact ⟨hmem,hdone newest.id hmem _ hjob⟩
  · intro id last hlast hclosed
    have hclosedHere : ∀ operation, s.waits operation id = false := by
      intro operation
      rw [← Bool.not_eq_true,waits_eq_true]
      rintro ⟨job,hjob,hopen,-⟩
      rw [hjobs] at hjob
      have hsame := hholds.abridges.sound id job hjob
      cases hlast.symm.trans hsame
      rw [hclosed] at hopen
      cases hopen
    have hnot : id ∉ recoveryDeletions around r.coordinator := fun hmem => by
      have := ((hdeletions id).mp hmem).2
      rw [hclosedHere] at this
      cases this
    refine ⟨?_,hnot,?_⟩
    · rw [hsameQueue,hkept]
      intro hmem
      have := (List.mem_filter.mp hmem).2
      rw [hclosedHere] at this
      cases this
    · rw [(hothers id hnot).2,hexecuting,if_neg]
      rintro ⟨-,hwaits⟩
      rw [hclosedHere] at hwaits
      cases hwaits

section
open Machine

/-- Terminal jobs are dropped from a represented prefix. -/
def plainRuntime : EmbeddedRuntimeConfig := ⟨plainConfig,⟨0,0⟩⟩

/-- Everything that the opening asks for succeeds. -/
def smooth (order : List JobId) : Opening :=
    ⟨fun _ => 0,.ok (),fun _ => .ok (),fun _ => .synced,order⟩

def checkpointed : List Process.Action := List.replicate 4 (.checkpoint 0 (.ok ()))

/-- One document is ingested, and its deletion is interrupted; another one is waiting. -/
def interrupted : List Process.Action :=
  [Process.Action.reopen (smooth []),
    .coordinate (.submit (letter 'd' 'a') false (clerk '1'))] ++
    (executed '1' 8).map Process.Action.coordinate ++
    [Process.Action.coordinate (.erase (ascii ['d']) (clerk '2'))] ++
    (executed '2' 2).map Process.Action.coordinate ++
    [Process.Action.coordinate (.submit (letter 'e' 'b') true (clerk '3'))] ++ checkpointed ++
    [Process.Action.stop]

/-- What is asked of the history: these are the newest jobs of the documents, and they are open. -/
def pending (written : List IngestionJob) (document : Bytes) (id : JobId)
    (operation : JobOperation) : Bool :=
  (newestAccepted written document).any fun newest => newest.id = id ∧
    newest.operation = operation ∧
      ((latestJobs written).find? newest.id).any fun last => terminal last.status = false

theorem interrupted_survives : ∃ disk written r,
    run (step plainRuntime) start interrupted = some ⟨.stopped disk,written⟩ ∧
      Process.reopen plainRuntime disk (smooth [ascii ['2'],ascii ['3']]) = .running r ∧
      let recovered := r.coordinator.performDeletions plainConfig (fun _ _ => calm)
        (recoveryDeletions (smooth [ascii ['2'],ascii ['3']]) r.coordinator)
      ascii ['3'] ∈ recovered.queue ∧ ∃ job, recovered.Done (ascii ['2']) job := by
  have h : (run (step plainRuntime) start interrupted).any (fun c => match c.process with
      | .running _ => false
      | .stopped disk => decide ([ascii ['2'],ascii ['3']].Perm (latestJobs disk.frames).keys) &&
        pending c.written (ascii ['e']) (ascii ['3']) .upsert &&
        pending c.written (ascii ['d']) (ascii ['2']) .erase &&
        match Process.reopen plainRuntime disk (smooth [ascii ['2'],ascii ['3']]) with
        | .running _ => true
        | .stopped _ => false) = true := by
    decide +kernel
  obtain ⟨⟨process,written⟩,hrun,hc⟩ := (Option.any_eq_true _ _).mp h
  cases process with
  | running r => cases hc
  | stopped disk =>
    cases hreopen : Process.reopen plainRuntime disk (smooth [ascii ['2'],ascii ['3']]) with
    | stopped left => simp [hreopen] at hc
    | running r =>
      simp only [hreopen,Bool.and_eq_true,decide_eq_true_eq,and_true] at hc
      obtain ⟨⟨horder,hqueued⟩,herased⟩ := hc
      obtain ⟨hopen,-⟩ := pending_work_survives plainRuntime hrun horder hreopen fun _ _ => calm
      obtain ⟨newest,hnewest,hthree⟩ := (Option.any_eq_true _ _).mp hqueued
      obtain ⟨erasure,herasure,htwo⟩ := (Option.any_eq_true _ _).mp herased
      obtain ⟨hid,hop,hlast⟩ := of_decide_eq_true hthree
      obtain ⟨hid',hop',hlast'⟩ := of_decide_eq_true htwo
      obtain ⟨last,hfound,hstatus⟩ := (Option.any_eq_true _ _).mp hlast
      obtain ⟨last',hfound',hstatus'⟩ := (Option.any_eq_true _ _).mp hlast'
      obtain ⟨_,-,-,-,-,hupsert,-⟩ := hopen _ newest last hnewest hfound (of_decide_eq_true hstatus)
      obtain ⟨job,-,-,-,-,-,herase⟩ :=
        hopen _ erasure last' herasure hfound' (of_decide_eq_true hstatus')
      exact ⟨disk,written,r,hrun,hreopen,hid ▸ (hupsert hop).1,job,hid' ▸ (herase hop').2⟩

end

end Chronicle
end RagRuntime.Ingestion
