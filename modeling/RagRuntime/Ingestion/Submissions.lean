import RagRuntime.Ingestion.PendingWork

/-! What submissions leave behind when records of theirs cannot be written: the new job is written
first, the end of the job that it replaces second, and memory follows only after that. -/
namespace RagRuntime.Ingestion
open RagRuntime.Base RagRuntime.Core RagRuntime.Backend

namespace Coordinator

/-- The id that a call gives to a job. -/
def Action.given : Action → Option JobId
  | .submit _ _ clerk | .erase _ clerk => some clerk.id
  | _ => none

/-- What a call answers: the job that it has accepted, or none where it refers to an earlier one. -/
def answer (cfg : CoordinatorConfig) (s : Coordinator) :
    Action → Option (Result (Option IngestionJob))
  | .submit input asynchronous clerk =>
    some ((s.submit cfg input asynchronous clerk).1.map fun submission =>
      if submission.unchanged || submission.existingPending then none else some submission.job)
  | .erase document clerk => some ((s.erase cfg document clerk).1.map some)
  | _ => none

/-- The record of a new job is written or leaves nothing in the log, and where a job is replaced the
record of its end is written. -/
def Undivided (s : Coordinator) (document : Bytes) (clerk : Clerk) : Prop :=
  clerk.saved ≠ .unsynced ∧
    (clerk.saved = .synced → s.busy document = true → clerk.savedOlder = .synced)

def Clean (s : Coordinator) : Action → Prop
  | .submit input _ clerk => s.Undivided input.document clerk
  | .erase document clerk => s.Undivided document clerk
  | _ => True

instance (s : Coordinator) (document : Bytes) (clerk : Clerk) :
    Decidable (s.Undivided document clerk) := by
  unfold Undivided
  infer_instance

instance (s : Coordinator) : ∀ a, Decidable (s.Clean a)
  | .submit input _ clerk => inferInstanceAs (Decidable (s.Undivided input.document clerk))
  | .erase document clerk => inferInstanceAs (Decidable (s.Undivided document clerk))
  | .take => isTrue trivial
  | .execute _ _ => isTrue trivial
  | .compact => isTrue trivial
  | .shutdown => isTrue trivial

/-- Memory or the log knows the record. -/
def Knows (s : Coordinator) (frames : List IngestionJob) (x : IngestionJob) : Prop :=
  x ∈ frames ∨ ∃ id, s.jobs.find? id = some x

/-- A document has one job of each revision, and none that is newer than memory says. -/
structure Unambiguous (s : Coordinator) (frames : List IngestionJob) : Prop where
  apart : ∀ x y, s.Knows frames x → s.Knows frames y → x.input.document = y.input.document →
    x.revision = y.revision → x.id = y.id
  bounded : ∀ x, s.Knows frames x → x.revision ≤ s.revisionOf x.input.document

section
variable {cfg : CoordinatorConfig} {s t : Coordinator} {a : Action} {job : IngestionJob}
  {frames later extra : List IngestionJob}

/-- Records of jobs that are known say nothing new. -/
lemma Unambiguous.mono (h : s.Unambiguous frames)
    (hknows : ∀ x, t.Knows later x → ∃ y, s.Knows frames y ∧ y.SameIdentity x)
    (hrevisions : ∀ document, s.revisionOf document ≤ t.revisionOf document) :
    t.Unambiguous later := by
  constructor
  · intro x y hx hy hdocument hrevision
    obtain ⟨x',hx',hxsame⟩ := hknows x hx
    obtain ⟨y',hy',hysame⟩ := hknows y hy
    rw [hxsame.id,hysame.id]
    apply h.apart x' y' hx' hy'
    · rw [← hxsame.document,hdocument,hysame.document]
    · rw [← hxsame.revision,hrevision,hysame.revision]
  · intro x hx
    obtain ⟨x',hx',hsame⟩ := hknows x hx
    rw [hsame.revision,hsame.document]
    exact (h.bounded x' hx').trans (hrevisions _)

/-- A new job with the next revision of its document. -/
lemma Unambiguous.new (h : s.Unambiguous frames)
    (hrevision : job.revision = s.revisionOf job.input.document + 1)
    (hknows : ∀ x, t.Knows later x → x = job ∨ ∃ y, s.Knows frames y ∧ y.SameIdentity x)
    (hrevisions : ∀ document, s.revisionOf document ≤ t.revisionOf document)
    (hraised : job.revision ≤ t.revisionOf job.input.document) : t.Unambiguous later := by
  have hbelow : ∀ x y, s.Knows frames y → y.SameIdentity x →
      x.input.document = job.input.document → x.revision ≠ job.revision := by
    intro x y hy hsame hdocument heq
    have hbound := h.bounded y hy
    rw [← hsame.document,← hsame.revision,hdocument] at hbound
    omega
  constructor
  · intro x y hx hy hdocument heq
    obtain rfl | ⟨x',hx',hxsame⟩ := hknows x hx <;> obtain rfl | ⟨y',hy',hysame⟩ := hknows y hy
    · rfl
    · exact absurd heq.symm (hbelow y y' hy' hysame hdocument.symm)
    · exact absurd heq (hbelow x x' hx' hxsame hdocument)
    · rw [hxsame.id,hysame.id]
      apply h.apart x' y' hx' hy'
      · rw [← hxsame.document,hdocument,hysame.document]
      · rw [← hxsame.revision,heq,hysame.revision]
  · intro x hx
    obtain rfl | ⟨x',hx',hsame⟩ := hknows x hx
    · exact hraised
    · rw [hsame.revision,hsame.document]
      exact (h.bounded x' hx').trans (hrevisions _)

/-- Memory and log know after a step what they knew, and the job that the step creates. -/
lemma Extends.knows (hframes : t.store.frames = s.store.frames ++ extra)
    (happends : s.Appends a extra)
    (hremembers : s.Remembers t extra) {x : IngestionJob} (hx : t.Knows t.store.frames x) :
    s.created a = some x ∨ ∃ y, s.Knows s.store.frames y ∧ y.SameIdentity x := by
  have hextra : x ∈ extra → s.created a = some x ∨
      ∃ y, s.Knows s.store.frames y ∧ y.SameIdentity x := by
    intro hmem
    cases happends with
    | nothing => cases hmem
    | record job next hjob hopen hsame hinput =>
      cases List.mem_singleton.mp hmem
      exact Or.inr ⟨job,Or.inr ⟨_,hjob⟩,hsame⟩
    | created job hcreated hfresh =>
      cases List.mem_singleton.mp hmem
      exact Or.inl hcreated
    | replaced job older later hcreated hfresh hjob hopen =>
      obtain rfl | hmem := List.mem_cons.mp hmem
      · exact Or.inl hcreated
      · cases List.mem_singleton.mp hmem
        exact Or.inr ⟨older,Or.inr ⟨_,hjob⟩,older.supersede_same later⟩
  have hrefl : s.Knows s.store.frames x → ∃ y, s.Knows s.store.frames y ∧ y.SameIdentity x :=
    fun hknown => ⟨x,hknown,IngestionJob.SameIdentity.refl x⟩
  obtain hmem | ⟨id,hid⟩ := hx
  · rw [hframes] at hmem
    obtain hmem | hmem := List.mem_append.mp hmem
    · exact Or.inr (hrefl (Or.inl hmem))
    · exact hextra hmem
  · obtain hold | hmem | ⟨-,before,hbefore,hsame⟩ := hremembers id x hid
    · exact Or.inr (hrefl (Or.inr ⟨id,hold⟩))
    · exact hextra hmem
    · exact Or.inr ⟨before,Or.inr ⟨id,hbefore⟩,hsame⟩

/-- A job is accepted whole or not at all. -/
lemma accept_undivided (cfg : CoordinatorConfig) (s : Coordinator) (job : IngestionJob)
    {clerk : Clerk}
    (hclean : s.Undivided job.input.document clerk) :
    (∃ e, s.accept cfg job clerk = (.error e,s)) ∨
      ∃ t, s.accept cfg job clerk = (.ok (),t) ∧ job ∈ t.store.frames ∧
        t.jobs.find? job.id = some job ∧ t.revisionOf job.input.document = job.revision := by
  obtain ⟨hsaved,holder⟩ := hclean
  have henlisted : ∀ u : Coordinator, job ∈ u.store.frames → job ∈ (u.enlist job).store.frames ∧
      (u.enlist job).jobs.find? job.id = some job ∧
      (u.enlist job).revisionOf job.input.document = job.revision := fun u hmem =>
    ⟨hmem,by simp [enlist],by simp⟩
  unfold accept
  cases houtcome : clerk.saved with
  | refused e => exact Or.inl ⟨e,rfl⟩
  | unsynced => exact absurd houtcome hsaved
  | synced =>
    have hpersist : s.persist cfg job .synced = (.ok (),{ s with
        store := ⟨s.store.frames ++ [job],s.store.bytes + cfg.frameSize job⟩ }) := rfl
    have hlatest : { s with
        store := ⟨s.store.frames ++ [job],s.store.bytes + cfg.frameSize job⟩ }.latestOf
          job.input.document = s.latestOf job.input.document := rfl
    simp only [hpersist,hlatest]
    refine Or.inr ?_
    cases hfound : s.latestOf job.input.document with
    | none => exact ⟨_,rfl,henlisted _ (by simp)⟩
    | some older =>
      dsimp only
      by_cases hclosed : terminal older.status = true
      · rw [if_pos hclosed]
        exact ⟨_,rfl,henlisted _ (by simp)⟩
      · have hbusy : s.busy job.input.document = true := by
          simp [busy,hfound,Bool.eq_false_of_not_eq_true hclosed]
        rw [if_neg hclosed,holder houtcome hbusy]
        exact ⟨_,rfl,henlisted _ (by simp [setJob,JobStore.persist])⟩

/-- A call that has accepted its job. -/
structure Accepts (s : Coordinator) (a : Action) (job : IngestionJob) (t : Coordinator) : Prop where
  created : s.created a = some job
  given : a.given = some job.id
  log : job ∈ t.store.frames
  memory : t.jobs.find? job.id = some job
  raised : t.revisionOf job.input.document = job.revision

/-- A call has accepted its job, or everything is as before. -/
theorem answer_cases {result : Result (Option IngestionJob)} (hclean : s.Clean a)
    (hanswer : s.answer cfg a = some result) (hstep : s.step cfg a = some t) :
    (∀ job, result ≠ .ok (some job)) ∧ t = s ∨ ∃ job, result = .ok (some job) ∧
      s.Accepts a job t := by
  cases a with
  | submit input asynchronous clerk =>
    simp only [step] at hstep
    split_ifs at hstep with hfresh
    simp only [answer,Option.some.injEq] at hanswer hstep
    subst hanswer hstep
    unfold submit
    dsimp only
    by_cases hargs : input.document = [] ∨ input.content = []
    · rw [if_pos hargs]
      exact Or.inl ⟨fun job => by simp [fail,Except.map],rfl⟩
    rw [if_neg hargs]
    by_cases hstopping : s.stopping = true
    · rw [if_pos hstopping]
      exact Or.inl ⟨fun job => by simp [fail,Except.map],rfl⟩
    rw [if_neg hstopping]
    split
    · rename_i latest hlatest
      refine Or.inl ⟨fun job => ?_,rfl⟩
      have hkept := (Option.filter_eq_some_iff.mp hlatest).2
      simp only [decide_eq_true_eq] at hkept
      obtain hready | hopen := hkept.2
      · simp [Except.map,hready]
      · simp [Except.map,hopen]
    · by_cases hfull : asynchronous = true ∧ s.queue.length ≥ cfg.queueCapacity
      · rw [if_pos hfull]
        exact Or.inl ⟨fun job => by simp [fail,Except.map],rfl⟩
      rw [if_neg hfull]
      have haccept := accept_undivided cfg s (s.newJob .upsert
        { input with content := normalizeSourceText input.content }
        (documentContentHash input.title (normalizeSourceText input.content) input.metadata) clerk)
        hclean
      obtain ⟨e,hrefused⟩ | ⟨u,haccepted,hlog,hmemory,hraised⟩ := haccept
      · rw [hrefused]
        exact Or.inl ⟨fun job => by simp [Except.map],rfl⟩
      · rw [haccepted]
        refine Or.inr ⟨_,rfl,?_⟩
        cases asynchronous with
        | true => exact ⟨rfl,rfl,hlog,hmemory,hraised⟩
        | false => exact ⟨rfl,rfl,hlog,hmemory,hraised⟩
  | erase document clerk =>
    simp only [step] at hstep
    split_ifs at hstep with hfresh
    simp only [answer,Option.some.injEq] at hanswer hstep
    subst hanswer hstep
    unfold erase
    dsimp only
    by_cases hargs : document = []
    · rw [if_pos hargs]
      exact Or.inl ⟨fun job => by simp [fail,Except.map],rfl⟩
    rw [if_neg hargs]
    by_cases hstopping : s.stopping = true
    · rw [if_pos hstopping]
      exact Or.inl ⟨fun job => by simp [fail,Except.map],rfl⟩
    rw [if_neg hstopping]
    have haccept := accept_undivided cfg s (s.newJob .erase ⟨document,[],[],∅⟩ deletedHash clerk)
      hclean
    obtain ⟨e,hrefused⟩ | ⟨u,haccepted,hlog,hmemory,hraised⟩ := haccept
    · rw [hrefused]
      exact Or.inl ⟨fun job => by simp [Except.map],rfl⟩
    · rw [haccepted]
      exact Or.inr ⟨_,rfl,rfl,rfl,hlog,hmemory,hraised⟩
  | take => cases hanswer
  | execute id around => cases hanswer
  | compact => cases hanswer
  | shutdown => cases hanswer

/-- A clean step keeps the log and memory unambiguous. -/
theorem Unambiguous.step (h : s.Unambiguous s.store.frames) (hs : s.Wf) (hclean : s.Clean a)
    (hstep : s.step cfg a = some t) : t.Unambiguous t.store.frames := by
  obtain ⟨extra,hframes,happends,hremembers⟩ := step_extends hs hstep
  have hknows := fun x => Extends.knows (x := x) hframes happends hremembers
  have hrevisions := step_revisionOf_le hs hstep
  cases hanswer : s.answer cfg a with
  | none =>
    have hcreated : s.created a = none := by
      cases a with
      | submit input asynchronous clerk => cases hanswer
      | erase document clerk => cases hanswer
      | take => rfl
      | execute id around => rfl
      | compact => rfl
      | shutdown => rfl
    refine h.mono (fun x hx => (hknows x hx).resolve_left ?_) hrevisions
    rw [hcreated]
    exact fun hnone => by cases hnone
  | some result =>
    obtain ⟨-,rfl⟩ | ⟨job,-,haccepts⟩ := answer_cases hclean hanswer hstep
    · exact h
    · refine h.new (created_revision haccepts.created) (fun x hx => ?_) hrevisions
        haccepts.raised.ge
      refine (hknows x hx).imp_left fun hcreated => ?_
      exact Option.some.inj (hcreated.symm.trans haccepts.created)

end

end Coordinator

def Process.Action.given : Process.Action → Option JobId
  | .coordinate a => a.given
  | _ => none

namespace Chronicle
open Coordinator

/-- The calls that the step makes are not divided. -/
def Clean (c : Chronicle) : Process.Action → Prop
  | .coordinate a =>
    match c.process with
    | .running r => r.coordinator.Clean a
    | .stopped _ => True
  | _ => True

instance : ∀ (c : Chronicle) (action : Process.Action), Decidable (c.Clean action)
  | ⟨.running r,_⟩,.coordinate a => inferInstanceAs (Decidable (r.coordinator.Clean a))
  | ⟨.stopped _,_⟩,.coordinate _ => isTrue trivial
  | _,.checkpoint _ _ => isTrue trivial
  | _,.stop => isTrue trivial
  | _,.reopen _ => isTrue trivial

/-- No two jobs of one document have the same revision. -/
def Distinct (frames : List IngestionJob) : Prop :=
  ∀ x ∈ frames, ∀ y ∈ frames, x.input.document = y.input.document → x.revision = y.revision →
    x.id = y.id

structure Tidy (c : Chronicle) : Prop where
  log : Distinct c.process.disk.frames
  running : ∀ r, c.process = .running r → r.coordinator.Unambiguous r.coordinator.store.frames

section
variable {cfg : EmbeddedRuntimeConfig} {c d : Chronicle} {written : List IngestionJob} {disk : Disk}
  {r : EmbeddedRuntime}

lemma tidy_running (h : r.coordinator.Unambiguous r.coordinator.store.frames) :
    Tidy ⟨.running r,written⟩ := by
  refine ⟨fun x hx y hy => h.apart x y (Or.inl hx) (Or.inl hy),?_⟩
  intro r' hr
  cases hr
  exact h

/-- A log without ambiguities, taken over. -/
lemma unambiguous_load (h : Holds ⟨.stopped disk,written⟩) (hlog : Distinct disk.frames)
    {store : JobStore} (hstore : store.frames = disk.frames) (backend : CatalogBackend) :
    (load store backend).Unambiguous disk.frames := by
  obtain ⟨hloaded,-,-⟩ := h.load hstore backend
  have hmem : ∀ x, (load store backend).Knows disk.frames x → x ∈ disk.frames := by
    intro x hx
    obtain hx | ⟨id,hid⟩ := hx
    · exact hx
    · rw [hloaded.jobs] at hid
      exact (latestJobs_mem hid).1
  refine ⟨fun x y hx hy => hlog x (hmem x hx) y (hmem y hy),fun x hx => ?_⟩
  have hx := hmem x hx
  obtain ⟨last,hlast⟩ := latestJobs_isSome hx
  obtain ⟨hmemLast,hid⟩ := latestJobs_mem hlast
  have hsame := h.consistent.same last (h.subset hmemLast) x (h.subset hx) hid
  rw [hsame.revision,hsame.document]
  exact hloaded.wf.bounded x.id last (by rw [hloaded.jobs]; exact hlast)

lemma Tidy.reopen (h : Tidy ⟨.stopped disk,written⟩) (hholds : Holds ⟨.stopped disk,written⟩)
    {around : Opening} (horder : around.order.Perm (latestJobs disk.frames).keys)
    (later : List IngestionJob) : Tidy ⟨Process.reopen cfg disk around,later⟩ := by
  have hsound : ∀ x ∈ disk.frames, x.Sound := hholds.sound
  obtain ⟨backend,replaced,store,t,-,hopen,-,hresumed,hprocess⟩ | ⟨extra,hprocess,hextra⟩ :=
    Process.reopen_cases cfg hsound horder
  · have hframes : store.frames = disk.frames := by rw [(JobStore.openFile_cases hopen).2]
    obtain ⟨hloaded,hsame,-⟩ := hholds.load hframes backend
    have hbefore := unambiguous_load hholds h.log hframes backend
    have hwf := hloaded.wf.withBackend replaced
    have hlog := hresumed.frames
    rw [show ({ Coordinator.load store backend with backend := replaced } : Coordinator).store =
      store from hsame,hframes] at hlog
    rw [hprocess]
    apply tidy_running
    apply hbefore.mono
    · intro x hx
      obtain hx | ⟨id,hid⟩ := hx
      · rw [hlog] at hx
        obtain hx | hx := List.mem_append.mp hx
        · exact ⟨x,Or.inl hx,IngestionJob.SameIdentity.refl x⟩
        · obtain ⟨job,hjob,-,hsame,-⟩ := records_rewritten hwf hx
          exact ⟨job,Or.inr ⟨_,hjob⟩,hsame⟩
      · obtain ⟨job,hjob,hsame,-⟩ := hresumed.origin hid
        exact ⟨job,Or.inr ⟨_,hjob⟩,hsame⟩
    · intro document
      rw [hresumed.revisionOf]
      exact le_rfl
  · rw [hprocess]
    refine ⟨?_,fun r hr => by cases hr⟩
    obtain rfl | ⟨store,backend,hframes,hbegins⟩ := hextra
    · change Distinct (disk.frames ++ [])
      rw [List.append_nil]
      exact h.log
    · obtain ⟨hloaded,-,-⟩ := hholds.load hframes backend
      have hbefore := unambiguous_load hholds h.log hframes backend
      have hafter : (Coordinator.load store backend).Unambiguous (disk.frames ++ extra) := by
        refine hbefore.mono (fun x hx => ?_) fun _ => le_rfl
        obtain hx | hid := hx
        · obtain hx | hx := List.mem_append.mp hx
          · exact ⟨x,Or.inl hx,IngestionJob.SameIdentity.refl x⟩
          · obtain ⟨job,hjob,-,hsame,-⟩ := records_rewritten hloaded.wf (hbegins.subset hx)
            exact ⟨job,Or.inr ⟨_,hjob⟩,hsame⟩
        · exact ⟨x,Or.inr hid,IngestionJob.SameIdentity.refl x⟩
      exact fun x hx y hy => hafter.apart x y (Or.inl hx) (Or.inl hy)

lemma Tidy.checkpoint (cfg : EmbeddedRuntimeConfig) (h : Tidy ⟨.running r,written⟩) (thread : ℕ)
    (io : Result Unit) : Tidy ⟨.running (r.checkpointEmbedded cfg thread io),written⟩ := by
  have hrunning := h.running r rfl
  obtain hsame | ⟨position,store,htruncate,hsame⟩ := checkpointEmbedded_cases cfg r thread io
  · apply tidy_running
    rw [hsame]
    exact hrunning
  · have hsubset := JobStore.truncatePrefix_subset htruncate
    apply tidy_running
    rw [hsame]
    refine hrunning.mono (fun x hx => ⟨x,?_,IngestionJob.SameIdentity.refl x⟩) fun _ => le_rfl
    exact hx.imp_left fun hmem => hsubset hmem

theorem Tidy.step (h : c.Tidy) (hholds : c.Holds) {action : Process.Action}
    (hclean : c.Clean action) (hstep : c.step cfg action = some d) : d.Tidy := by
  obtain ⟨process,written⟩ := c
  unfold Chronicle.step at hstep
  split_ifs at hstep with hunused
  obtain ⟨p,hp,rfl⟩ := Option.map_eq_some_iff.mp hstep
  cases process with
  | stopped disk =>
    cases action with
    | reopen around =>
      simp only [Process.step] at hp
      split_ifs at hp with horder
      cases hp
      exact h.reopen hholds horder _
    | coordinate action => cases hp
    | checkpoint thread io => cases hp
    | stop => cases hp
  | running r =>
    cases action with
    | reopen around => cases hp
    | coordinate action =>
      obtain ⟨s,hs,rfl⟩ := Option.map_eq_some_iff.mp hp
      apply tidy_running
      exact (h.running r rfl).step (hholds.running r rfl).1 hclean hs
    | checkpoint thread io =>
      cases hp
      have hkept := h.checkpoint cfg thread io
      exact tidy_running (hkept.running _ rfl)
    | stop =>
      cases hp
      exact ⟨h.log,fun r hr => by cases hr⟩

/-- The records of a call are about the job that it creates and about jobs that are known. -/
lemma given_or_known {s : Coordinator} {frames extra : List IngestionJob} {a : Coordinator.Action}
    (h : s.Chronicled frames written) (happends : s.Appends a extra) {x : IngestionJob}
    (hx : x ∈ extra) : x.id ∈ written.map IngestionJob.id ∨ a.given = some x.id := by
  have hgiven : ∀ job, s.created a = some job → a.given = some job.id := by
    intro job hcreated
    cases a with
    | submit input asynchronous clerk =>
      cases hcreated
      rfl
    | erase document clerk =>
      cases hcreated
      rfl
    | take => cases hcreated
    | execute id around => cases hcreated
    | compact => cases hcreated
    | shutdown => cases hcreated
  cases happends with
  | nothing => cases hx
  | record job next hjob hopen hsame hinput =>
    cases List.mem_singleton.mp hx
    exact Or.inl (h.known _ job hjob)
  | created job hcreated hfresh =>
    cases List.mem_singleton.mp hx
    exact Or.inr (hgiven x hcreated)
  | replaced job older later hcreated hfresh hjob hopen =>
    obtain rfl | hx := List.mem_cons.mp hx
    · exact Or.inr (hgiven x hcreated)
    · cases List.mem_singleton.mp hx
      exact Or.inl (h.known _ older hjob)

/-- Ids come into the history only by being given. -/
lemma Holds.step_ids (h : c.Holds) {action : Process.Action} (hstep : c.step cfg action = some d)
    {x : IngestionJob} (hx : x ∈ d.written) :
    x.id ∈ c.written.map IngestionJob.id ∨ action.given = some x.id := by
  obtain ⟨process,written⟩ := c
  unfold Chronicle.step at hstep
  split_ifs at hstep with hunused
  obtain ⟨p,hp,rfl⟩ := Option.map_eq_some_iff.mp hstep
  obtain hx | hx := List.mem_append.mp hx
  · exact Or.inl (List.mem_map_of_mem hx)
  cases process with
  | stopped disk =>
    cases action with
    | reopen around =>
      simp only [Process.step] at hp
      split_ifs at hp with horder
      cases hp
      have hrewritten : ∃ s : Coordinator, s.Wf ∧ s.Chronicled disk.frames written ∧
          x ∈ s.rewritten around around.order := by
        have hsound : ∀ x ∈ disk.frames, x.Sound := h.sound
        change x ∈ (Process.reopen cfg disk around).disk.frames.drop disk.frames.length at hx
        obtain ⟨backend,replaced,store,t,-,hopen,-,hresumed,hprocess⟩ | ⟨extra,hprocess,hextra⟩ :=
          Process.reopen_cases cfg hsound horder
        · have hframes : store.frames = disk.frames := by rw [(JobStore.openFile_cases hopen).2]
          obtain ⟨hloaded,hsame,hchronicled⟩ := h.load hframes backend
          have hlog := hresumed.frames
          rw [show ({ Coordinator.load store backend with backend := replaced } :
            Coordinator).store =
            store from hsame,hframes] at hlog
          rw [hprocess] at hx
          change x ∈ t.store.frames.drop _ at hx
          rw [hlog,List.drop_left] at hx
          exact ⟨_,hloaded.wf,hchronicled,hx⟩
        · rw [hprocess] at hx
          change x ∈ (disk.frames ++ extra).drop _ at hx
          rw [List.drop_left] at hx
          obtain rfl | ⟨store,backend,hframes,hbegins⟩ := hextra
          · cases hx
          · obtain ⟨hloaded,-,hchronicled⟩ := h.load hframes backend
            exact ⟨_,hloaded.wf,hchronicled,hbegins.subset hx⟩
      obtain ⟨s,hs,hchronicled,hx⟩ := hrewritten
      obtain ⟨job,hjob,-⟩ := records_rewritten hs hx
      exact Or.inl (hchronicled.known x.id job hjob)
    | coordinate action => cases hp
    | checkpoint thread io => cases hp
    | stop => cases hp
  | running r =>
    cases action with
    | reopen around => cases hp
    | coordinate action =>
      obtain ⟨s,hs,rfl⟩ := Option.map_eq_some_iff.mp hp
      obtain ⟨hwf,hchronicled⟩ := h.running r rfl
      obtain ⟨extra,hframes,happends,-⟩ := step_extends hwf hs
      change x ∈ s.store.frames.drop r.coordinator.store.frames.length at hx
      rw [hframes,List.drop_left] at hx
      exact given_or_known hchronicled happends hx
    | checkpoint thread io => cases hx
    | stop =>
      cases hp
      change x ∈ r.disk.frames.drop r.disk.frames.length at hx
      rw [List.drop_length] at hx
      cases hx

/-- Whatever happens from then on, as long as the id is not given again: the job is not in the
history, and a process that runs neither knows it nor executes it. -/
def Forgotten (cfg : EmbeddedRuntimeConfig) (c : Chronicle) (id : JobId) : Prop :=
  ∀ actions d, (∀ action ∈ actions, action.given ≠ some id) →
    Machine.run (step cfg) c actions = some d → id ∉ d.written.map IngestionJob.id ∧
      ∀ r, d.process = .running r → r.coordinator.jobs.find? id = none ∧ id ∉ r.coordinator.queue ∧
        r.coordinator.executing.find? id = none

lemma forgotten_of_unwritten (h : c.Holds) {id : JobId} (hid : id ∉ c.written.map IngestionJob.id) :
    Forgotten cfg c id := by
  intro actions d hothers hrun
  have hkept : d.Holds ∧ id ∉ d.written.map IngestionJob.id := by
    induction actions generalizing c with
    | nil =>
      cases hrun
      exact ⟨h,hid⟩
    | cons action actions ih =>
      obtain ⟨m,hstep,hrun⟩ := Machine.run_cons_eq_some.mp hrun
      refine ih (h.step hstep) (fun hmem => ?_)
        (fun a ha => hothers a (List.mem_cons_of_mem action ha)) hrun
      obtain ⟨x,hx,rfl⟩ := List.mem_map.mp hmem
      obtain hold | hgiven := h.step_ids hstep hx
      · exact hid hold
      · exact hothers action List.mem_cons_self hgiven
  refine ⟨hkept.2,fun r hr => ?_⟩
  obtain ⟨hwf,hchronicled⟩ := hkept.1.running r hr
  have hnone : r.coordinator.jobs.find? id = none := by
    apply Option.eq_none_iff_forall_not_mem.mpr
    exact fun job hjob => hkept.2 (hchronicled.known id job hjob)
  refine ⟨hnone,fun hmem => ?_,hwf.idle_of_fresh hnone⟩
  obtain ⟨-,job,hjob⟩ := hwf.waiting id hmem
  rw [hnone] at hjob
  cases hjob

/-- The call has accepted its job, which is in the log and in memory, or its job is forgotten. -/
def AllOrNothing (cfg : EmbeddedRuntimeConfig) (d : Chronicle) (id : JobId) :
    Result (Option IngestionJob) → Prop
  | .ok (some job) => job.id = id ∧ job ∈ d.process.disk.frames ∧
      ∃ r, d.process = .running r ∧ r.coordinator.jobs.find? id = some job
  | .ok none | .error _ => Forgotten cfg d id

/-- If the step is a call, it is all or nothing. -/
def Whole (cfg : EmbeddedRuntimeConfig) (c : Chronicle) (action : Process.Action) : Prop :=
  ∀ r a id result d, c.process = .running r → action = .coordinate a → a.given = some id →
    r.coordinator.answer cfg.coordinator a = some result → c.step cfg action = some d →
    AllOrNothing cfg d id result

lemma whole_of_clean (cfg : EmbeddedRuntimeConfig) (h : c.Holds) {action : Process.Action}
    (hclean : c.Clean action) : c.Whole cfg action := by
  rintro r a id result d hprocess rfl hgiven hanswer hstep
  have hd := h.step hstep
  obtain ⟨process,written⟩ := c
  cases hprocess
  unfold Chronicle.step at hstep
  split_ifs at hstep with hunused
  obtain ⟨p,hp,rfl⟩ := Option.map_eq_some_iff.mp hstep
  obtain ⟨s,hs,rfl⟩ := Option.map_eq_some_iff.mp hp
  have hfresh : id ∉ written.map IngestionJob.id := by
    cases a with
    | submit input asynchronous clerk =>
      cases hgiven
      exact hunused
    | erase document clerk =>
      cases hgiven
      exact hunused
    | take => cases hgiven
    | execute id around => cases hgiven
    | compact => cases hgiven
    | shutdown => cases hgiven
  obtain ⟨hnone,rfl⟩ | ⟨job,rfl,haccepts⟩ := answer_cases hclean hanswer hs
  · have hadded : added (.running r) (.running { r with coordinator := r.coordinator })
        (.coordinate a) = [] := List.drop_length
    rw [hadded] at hd ⊢
    have hforgotten : Forgotten cfg _ id := forgotten_of_unwritten hd (by simpa using hfresh)
    cases result with
    | error e => exact hforgotten
    | ok accepted =>
      cases accepted with
      | none => exact hforgotten
      | some job => exact absurd rfl (hnone job)
  · cases hgiven.symm.trans haccepts.given
    exact ⟨rfl,haccepts.log,_,rfl,haccepts.memory⟩

/-- In a run whose calls are not divided, every call is all or nothing, and the log has one job of a
document for each revision. -/
theorem calls_all_or_nothing (cfg : EmbeddedRuntimeConfig) {actions : List Process.Action}
    {c : Chronicle} (hclean : Machine.Meets (step cfg) Clean start actions)
    (hrun : Machine.run (step cfg) start actions = some c) :
    Machine.Meets (step cfg) (Whole cfg) start actions ∧ Distinct c.process.disk.frames := by
  have hstart : Tidy start := by
    constructor
    · intro x hx
      cases hx
    · intro r hr
      cases hr
  have hstep : ∀ s e t, (Holds s ∧ Tidy s) → s.Clean e → s.step cfg e = some t → Holds t ∧ Tidy t :=
    fun s e t hs hc ht => ⟨hs.1.step ht,hs.2.step hs.1 hc ht⟩
  refine ⟨?_,?_⟩
  · exact Machine.meets_of_invariant hstep (fun s e hs hc => whole_of_clean cfg hs.1 hc)
      ⟨holds_start,hstart⟩ hclean
  · exact (Machine.run_invariant hstep ⟨holds_start,hstart⟩ hclean hrun).2.log

end

section
open Machine

def waiting : List Process.Action :=
  [.reopen (smooth []),.coordinate (.submit (letter 'd' 'a') true (clerk '1'))]

/-- The record of the new job is written, and the disk is full then. -/
def dividedSubmission : Coordinator.Action :=
  .submit (letter 'd' 'b') true
    { clerk '2' with savedOlder := .refused ⟨.ioError,"job store write: No space left on device"⟩ }

def restarted : List Process.Action := [.stop,.reopen (smooth [ascii ['1'],ascii ['2']])]

/-- The submission fails, and a restart queues its job. -/
theorem refused_submission_is_taken_up :
    ¬ ∀ (cfg : EmbeddedRuntimeConfig) (actions : List Process.Action) (c : Chronicle),
      run (step cfg) start actions = some c →
        Meets (step cfg) (Whole cfg) start actions ∧ Distinct c.process.disk.frames := by
  intro h
  have hfacts : (run (step plainRuntime) start waiting).any (fun c => c.process.runsWith fun r =>
      (r.coordinator.answer plainConfig dividedSubmission).any (fun result => !result.isOk) &&
        (c.step plainRuntime (.coordinate dividedSubmission)).any fun d =>
          (run (step plainRuntime) d restarted).any fun f => f.process.runsWith fun r =>
            decide (ascii ['2'] ∈ r.coordinator.queue)) = true := by
    decide +kernel
  obtain ⟨⟨process,written⟩,hrun,hc⟩ := (Option.any_eq_true _ _).mp hfacts
  cases process with
  | stopped disk => cases hc
  | running r =>
    obtain ⟨hanswer,hc⟩ := (Bool.and_eq_true _ _).mp hc
    obtain ⟨d,hstep,hc⟩ := (Option.any_eq_true _ _).mp hc
    obtain ⟨⟨after,_⟩,hrestarted,hqueued⟩ := (Option.any_eq_true _ _).mp hc
    cases after with
    | stopped disk => cases hqueued
    | running r' =>
      have hall : run (step plainRuntime) start
          (waiting ++ [Process.Action.coordinate dividedSubmission]) = some d := by
        rw [run_append,hrun,Option.bind_some]
        exact run_cons_eq_some.mpr ⟨d,hstep,rfl⟩
      have hwhole := ((h plainRuntime _ d hall).1.behind hrun).1
      obtain ⟨result,hresult,hfailed⟩ := (Option.any_eq_true _ _).mp hanswer
      cases result with
      | ok id => cases hfailed
      | error e =>
        have hforgotten := hwhole r _ (ascii ['2']) _ d rfl rfl rfl hresult hstep
        exact ((hforgotten restarted _ (by simp [restarted,Process.Action.given]) hrestarted).2 r'
          rfl).2.1 (of_decide_eq_true hqueued)

/-- A submission replaces a waiting job, and one is refused before anything is written. -/
def undivided : List Process.Action :=
  waiting ++ [Process.Action.coordinate (.submit (letter 'd' 'b') true (clerk '2')),
    .coordinate (.erase (ascii ['d'])
      { clerk '3' with saved := .refused ⟨.ioError,"job store write"⟩ })]

theorem undivided_all_or_nothing :
    Meets (step plainRuntime) (Whole plainRuntime) start undivided := by
  exact (calls_all_or_nothing plainRuntime (by decide +kernel)
    (run_of_isSome start (by decide +kernel))).1

end

end Chronicle
end RagRuntime.Ingestion
