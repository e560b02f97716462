import RagRuntime.Ingestion.Quiescence
import RagRuntime.Ingestion.Resume
import RagRuntime.Ingestion.Retention

/-! The whole history of a job log over crashes and truncations: what has ever been written. -/
namespace RagRuntime.Ingestion
open RagRuntime.Base RagRuntime.Core RagRuntime.Backend

namespace Coordinator

/-- What a step writes: a record of a known job, or the job that it creates and the end of the one
before it. -/
inductive Appends (s : Coordinator) (a : Action) : List IngestionJob → Prop
  | nothing : Appends s a []
  | record (job next : IngestionJob) (hjob : s.jobs.find? next.id = some job)
    (hopen : terminal job.status = false) (hsame : job.SameIdentity next)
    (hinput : terminal next.status = false → next.input = job.input) : Appends s a [next]
  | created (job : IngestionJob) (hcreated : s.created a = some job) (hfresh : s.Fresh job.id) :
    Appends s a [job]
  | replaced (job older : IngestionJob) (later : ℤ) (hcreated : s.created a = some job)
    (hfresh : s.Fresh job.id) (hjob : s.jobs.find? older.id = some older)
    (hopen : terminal older.status = false) : Appends s a [job,older.supersede later]

/-- A job in memory has been there, or is in what is written, or has ended without a record. -/
def Remembers (s t : Coordinator) (extra : List IngestionJob) : Prop :=
  ∀ id job, t.jobs.find? id = some job → s.jobs.find? id = some job ∨ job ∈ extra ∨
    terminal job.status = true ∧ ∃ before, s.jobs.find? id = some before ∧ before.SameIdentity job

/-- The log grows, and memory follows it. -/
def Extends (s : Coordinator) (a : Action) (t : Coordinator) : Prop :=
  ∃ extra, t.store.frames = s.store.frames ++ extra ∧ s.Appends a extra ∧ s.Remembers t extra

variable {cfg : CoordinatorConfig} {s t : Coordinator} {a : Action} {id : JobId}

lemma extends_of_same (hframes : t.store.frames = s.store.frames) (hjobs : t.jobs = s.jobs) :
    s.Extends a t :=
  ⟨[],by rw [hframes,List.append_nil],.nothing,fun id job hjob => Or.inl (hjobs ▸ hjob)⟩

lemma Extends.of_same {u : Coordinator} (h : s.Extends a t) (hframes : u.store = t.store)
    (hjobs : u.jobs = t.jobs) : s.Extends a u := by
  unfold Extends Remembers at h ⊢
  rw [hframes,hjobs]
  exact h

lemma apply_input_of_open (change : Change) (job : IngestionJob) (now : ℤ)
    (h : terminal (change.apply job now).status = false) :
    (change.apply job now).input = job.input := by
  rw [apply_status] at h
  unfold Change.apply
  simp [h]

lemma nextRecord_same (s : Coordinator) (change : Change) (job : IngestionJob) (now : ℤ) :
    job.SameIdentity (s.nextRecord change job now) := by
  unfold nextRecord
  split_ifs
  · exact apply_same change job now
  · exact ⟨rfl,rfl,rfl,rfl,rfl⟩

lemma nextRecord_input (s : Coordinator) (change : Change) (job : IngestionJob) (now : ℤ)
    (h : terminal (s.nextRecord change job now).status = false) :
    (s.nextRecord change job now).input = job.input := by
  unfold nextRecord at h ⊢
  split_ifs at h ⊢
  · exact apply_input_of_open change job now h
  · cases h

lemma transition_extends (hkeyed : ∀ id job, s.jobs.find? id = some job → job.id = id)
    (change : Change) (now : ℤ) (saved : WriteOutcome) :
    s.Extends a (s.transition cfg id change now saved).2 := by
  unfold transition
  cases hjob : s.jobs.find? id with
  | none => exact extends_of_same rfl rfl
  | some job =>
    dsimp only
    by_cases hclosed : terminal job.status = true
    · rw [if_pos hclosed]
      exact extends_of_same rfl rfl
    · rw [if_neg hclosed]
      have hopen := Bool.eq_false_of_not_eq_true hclosed
      have hnext : (if decide (s.revisionOf job.input.document = job.revision) = true then
          change.apply job now else { job.supersede now with error := none }) =
          s.nextRecord change job now := by
        simp only [nextRecord,decide_eq_true_eq]
      have hrecord : s.Appends a [s.nextRecord change job now] := by
        apply Appends.record job _ _ hopen (nextRecord_same s change job now)
          (nextRecord_input s change job now)
        rw [nextRecord_id,hkeyed id job hjob,hjob]
      simp only [hnext]
      cases saved with
      | refused e => exact extends_of_same rfl rfl
      | unsynced => exact ⟨_,rfl,hrecord,fun _ _ hx => Or.inl hx⟩
      | synced =>
        refine ⟨_,rfl,hrecord,?_⟩
        intro id' x hx
        simp only [persist,JobStore.persist,setJob,OrdMap.find?_insert] at hx
        split_ifs at hx
        · cases hx
          exact Or.inr (Or.inl (List.mem_singleton_self _))
        · exact Or.inl hx

lemma proceed_same (s : Coordinator) (id : JobId) (next : Option Progress) (result : Result Bool) :
    (s.proceed id next result).store = s.store ∧ (s.proceed id next result).jobs = s.jobs := by
  unfold proceed
  cases result with
  | error e => exact ⟨rfl,rfl⟩
  | ok current =>
    cases current with
    | false => exact ⟨rfl,rfl⟩
    | true =>
      cases next with
      | none => exact ⟨rfl,rfl⟩
      | some progress => exact ⟨rfl,rfl⟩

lemma advance_extends (hkeyed : ∀ id job, s.jobs.find? id = some job → job.id = id)
    (change : Change) (next : Option Progress) (around : Surroundings) :
    s.Extends a (s.advance cfg id change next around) := by
  unfold advance
  have hsame := proceed_same (s.transition cfg id change around.now around.saved).2 id next
    (s.transition cfg id change around.now around.saved).1
  exact (transition_extends hkeyed change around.now around.saved).of_same hsame.1 hsame.2

lemma execute_extends (h : s.Wf) (around : Surroundings) (progress : Progress) :
    s.Extends a (s.execute cfg id around progress) := by
  have hsame : ∀ {u : Coordinator}, u.store = s.store → u.jobs = s.jobs → s.Extends a u :=
    fun hstore hjobs => extends_of_same (by rw [hstore]) hjobs
  unfold execute
  cases progress with
  | toChunking => exact advance_extends h.keyed _ _ around
  | toEmbedding prepared => exact advance_extends h.keyed _ _ around
  | toPublishing prepared => exact advance_extends h.keyed _ _ around
  | activated prepared => exact advance_extends h.keyed _ _ around
  | toErasing => exact advance_extends h.keyed _ _ around
  | erased applied => exact advance_extends h.keyed _ _ around
  | entered =>
    dsimp only
    cases s.jobs.find? id with
    | none => exact hsame rfl rfl
    | some job =>
      dsimp only
      split_ifs
      · exact hsame rfl rfl
      · exact hsame rfl rfl
      · exact hsame rfl rfl
  | preparing =>
    dsimp only
    cases s.jobs.find? id with
    | none => exact hsame rfl rfl
    | some job =>
      dsimp only
      split
      · exact hsame rfl rfl
      · exact hsame rfl rfl
  | embedding prepared =>
    dsimp only
    cases cfg.embedder with
    | none => exact hsame rfl rfl
    | some embedder =>
      cases around.fault with
      | some e => exact hsame rfl rfl
      | none =>
        dsimp only
        split
        · exact hsame rfl rfl
        · exact hsame rfl rfl
  | activating prepared =>
    dsimp only
    cases s.jobs.find? id with
    | none => exact hsame rfl rfl
    | some job =>
      dsimp only
      split_ifs
      · exact hsame rfl rfl
      · obtain ⟨_ | _,backend⟩ := s.backend.activate prepared job.revision around.built
        · exact hsame rfl rfl
        · exact hsame rfl rfl
  | erasing =>
    dsimp only
    cases s.jobs.find? id with
    | none => exact hsame rfl rfl
    | some job =>
      dsimp only
      obtain ⟨_ | _,backend⟩ := s.backend.erase job.input.document job.revision around.built
      · exact hsame rfl rfl
      · exact hsame rfl rfl
  | failing e =>
    dsimp only
    have htransition : s.Extends a (s.transition cfg id
        { status := .failed, error := some (boundedError e) } around.now around.saved).2 :=
      transition_extends h.keyed _ around.now around.saved
    split
    · exact htransition.of_same rfl rfl
    · exact htransition.of_same rfl rfl
  | failingVolatile e =>
    refine ⟨[],?_,.nothing,?_⟩
    · dsimp only
      unfold failVolatile
      cases s.jobs.find? id with
      | none => exact (List.append_nil _).symm
      | some job =>
        dsimp only
        split_ifs
        · exact (List.append_nil _).symm
        · exact (List.append_nil _).symm
        · exact (List.append_nil _).symm
    · intro id' x hx
      dsimp only at hx
      unfold failVolatile at hx
      cases hjob : s.jobs.find? id with
      | none => rw [hjob] at hx; exact Or.inl hx
      | some job =>
        rw [hjob] at hx
        dsimp only at hx
        split_ifs at hx
        · exact Or.inl hx
        · simp only [finish,setJob,OrdMap.find?_insert] at hx
          split_ifs at hx with hid
          · cases hx
            exact Or.inr (Or.inr ⟨rfl,job,hid.trans (h.keyed id job hjob) ▸ hjob,rfl,rfl,rfl,
              rfl,rfl⟩)
          · exact Or.inl hx
        · simp only [finish,setJob,OrdMap.find?_insert] at hx
          split_ifs at hx with hid
          · cases hx
            exact Or.inr (Or.inr ⟨rfl,job,hid.trans (h.keyed id job hjob) ▸ hjob,rfl,rfl,rfl,
              rfl,rfl⟩)
          · exact Or.inl hx

lemma accept_extends (cfg : CoordinatorConfig) (h : s.Wf) {job : IngestionJob}
    (hcreated : s.created a = some job)
    (hfresh : s.Fresh job.id) (clerk : Clerk) : s.Extends a (s.accept cfg job clerk).2 := by
  have hnew : s.Appends a [job] := .created job hcreated hfresh
  have hone : ∀ bytes, s.Extends a { s with store := ⟨s.store.frames ++ [job],bytes⟩ } :=
    fun bytes => ⟨_,rfl,hnew,fun _ _ hx => Or.inl hx⟩
  have henlisted : ∀ bytes, s.Extends a
      ({ s with store := ⟨s.store.frames ++ [job],bytes⟩ }.enlist job) := by
    intro bytes
    refine ⟨_,rfl,hnew,?_⟩
    intro id x hx
    simp only [enlist,OrdMap.find?_insert] at hx
    split_ifs at hx
    · cases hx
      exact Or.inr (Or.inl (List.mem_singleton_self _))
    · exact Or.inl hx
  unfold accept
  cases hsaved : clerk.saved with
  | refused e => exact extends_of_same rfl rfl
  | unsynced => exact hone _
  | synced =>
    have hpersist : s.persist cfg job .synced = (.ok (),{ s with
        store := ⟨s.store.frames ++ [job],s.store.bytes + cfg.frameSize job⟩ }) := rfl
    have hlatest : { s with
        store := ⟨s.store.frames ++ [job],s.store.bytes + cfg.frameSize job⟩ }.latestOf
          job.input.document = s.latestOf job.input.document := rfl
    simp only [hpersist,hlatest]
    cases holder : s.latestOf job.input.document with
    | none => exact henlisted _
    | some older =>
      dsimp only
      by_cases hclosed : terminal older.status = true
      · simp only [if_pos hclosed]
        exact henlisted _
      · simp only [if_neg hclosed]
        obtain ⟨-,hfound,-,-⟩ := latestOf_spec h holder
        have hboth : s.Appends a [job,older.supersede clerk.later] :=
          .replaced job older clerk.later hcreated hfresh hfound
            (Bool.eq_false_of_not_eq_true hclosed)
        have hframes : s.store.frames ++ [job] ++ [older.supersede clerk.later] =
            s.store.frames ++ [job,older.supersede clerk.later] := by simp
        cases clerk.savedOlder with
        | refused e => exact hone _
        | unsynced => exact ⟨_,hframes,hboth,fun _ _ hx => Or.inl hx⟩
        | synced =>
          refine ⟨_,hframes,hboth,?_⟩
          intro id x hx
          simp only [enlist,setJob,persist,JobStore.persist,OrdMap.find?_insert] at hx
          split_ifs at hx
          · cases hx
            exact Or.inr (Or.inl (by simp))
          · cases hx
            exact Or.inr (Or.inl (by simp))
          · exact Or.inl hx

/-- A job is acknowledged when its first record has been written. -/
theorem accept_ok_written {job : IngestionJob} {clerk : Clerk}
    (h : s.accept cfg job clerk = (.ok (),t)) : job ∈ t.store.frames := by
  unfold accept at h
  cases hsaved : clerk.saved with
  | refused e => rw [hsaved] at h; cases h
  | unsynced => rw [hsaved] at h; cases h
  | synced =>
    have hpersist : s.persist cfg job .synced = (.ok (),{ s with
        store := ⟨s.store.frames ++ [job],s.store.bytes + cfg.frameSize job⟩ }) := rfl
    simp only [hsaved,hpersist] at h
    split at h
    · cases h
      simp [enlist]
    · split_ifs at h
      · cases h
        simp [enlist]
      · cases holder : clerk.savedOlder with
        | refused e => rw [holder] at h; cases h
        | unsynced => rw [holder] at h; cases h
        | synced =>
          rw [holder] at h
          cases h
          simp [enlist,setJob,JobStore.persist]

/-- What a step writes, and what is open in memory. -/
theorem step_extends (h : s.Wf) (hstep : s.step cfg a = some t) : s.Extends a t := by
  cases a with
  | submit input asynchronous clerk =>
    simp only [step] at hstep
    split_ifs at hstep with hfresh
    cases hstep
    unfold submit
    dsimp only
    by_cases hargs : input.document = [] ∨ input.content = []
    · rw [if_pos hargs]
      exact extends_of_same rfl rfl
    rw [if_neg hargs]
    by_cases hstopping : s.stopping = true
    · rw [if_pos hstopping]
      exact extends_of_same rfl rfl
    rw [if_neg hstopping]
    split
    · exact extends_of_same rfl rfl
    · by_cases hfull : asynchronous = true ∧ s.queue.length ≥ cfg.queueCapacity
      · rw [if_pos hfull]
        exact extends_of_same rfl rfl
      rw [if_neg hfull]
      have haccept := accept_extends cfg (a := .submit input asynchronous clerk) h rfl hfresh clerk
      revert haccept
      generalize s.accept cfg _ clerk = called
      obtain ⟨_ | _,u⟩ := called
      · exact fun haccept => haccept
      · intro haccept
        dsimp only
        split_ifs
        · exact haccept.of_same rfl rfl
        · exact haccept.of_same rfl rfl
  | erase document clerk =>
    simp only [step] at hstep
    split_ifs at hstep with hfresh
    cases hstep
    unfold erase
    dsimp only
    by_cases hargs : document = []
    · rw [if_pos hargs]
      exact extends_of_same rfl rfl
    rw [if_neg hargs]
    by_cases hstopping : s.stopping = true
    · rw [if_pos hstopping]
      exact extends_of_same rfl rfl
    rw [if_neg hstopping]
    have haccept := accept_extends cfg (a := .erase document clerk) h rfl hfresh clerk
    revert haccept
    generalize s.accept cfg _ clerk = called
    obtain ⟨_ | _,u⟩ := called
    · exact fun haccept => haccept
    · intro haccept
      exact haccept.of_same rfl rfl
  | take =>
    simp only [step] at hstep
    split at hstep
    · cases hstep
    · split_ifs at hstep
      cases hstep
      exact extends_of_same rfl rfl
  | execute id around =>
    obtain ⟨progress,-,rfl⟩ := Option.map_eq_some_iff.mp hstep
    exact execute_extends h around progress
  | compact =>
    cases hstep
    exact extends_of_same rfl rfl
  | shutdown =>
    cases hstep
    exact extends_of_same rfl rfl

/-- Revisions do not go back. -/
lemma step_revisionOf_le (h : s.Wf) (hstep : s.step cfg a = some t) (document : Bytes) :
    s.revisionOf document ≤ t.revisionOf document := by
  obtain ⟨m,hevent,hmoved,-⟩ := step_stepped h hstep
  have hsame : t.revisionOf document = m.revisionOf document := by
    rw [hmoved.eq]
    rfl
  rw [hsame]
  have henlist : ∀ {u : Coordinator} {job : IngestionJob}, u.revisionOf = s.revisionOf →
      s.created a = some job → s.revisionOf document ≤ (u.enlist job).revisionOf document := by
    intro u job hu hcreated
    rw [revisionOf_enlist]
    split_ifs with hdocument
    · rw [created_revision hcreated,hdocument]
      exact Nat.le_succ _
    · rw [hu]
  cases hevent with
  | quiet => exact le_rfl
  | recorded id around ha job next hjob hopen hrecorded bytes => exact le_rfl
  | spilled extra hextra hlost bytes => exact le_rfl
  | failedVolatile id e hid job next hjob hopen hsame hsound hstatus => exact le_rfl
  | activated id around ha job prepared hjob hid hopen hcurrent backend hactivated => exact le_rfl
  | erased id around ha job applied hjob hid backend herased => exact le_rfl
  | accepted job hcreated hsound hfresh hopen bytes => exact henlist rfl hcreated
  | replaced job older later hcreated hsound hfresh holder hopen bytes =>
    exact henlist rfl hcreated
  | compacted => exact le_rfl

end Coordinator

/-- The first record of every job, in the order in which the jobs were accepted. -/
def firstRecords (written : List IngestionJob) : List IngestionJob :=
  written.foldl (fun firsts job =>
    if job.id ∈ firsts.map IngestionJob.id then firsts else firsts ++ [job]) []

/-- The newest job accepted for a document, as it was when it was accepted. -/
def newestAccepted (written : List IngestionJob) (document : Bytes) : Option IngestionJob :=
  ((firstRecords written).filter fun job => job.input.document = document).getLast?

section
variable {written extra frames : List IngestionJob} {x job : IngestionJob} {document : Bytes}

lemma firstRecords_concat (written : List IngestionJob) (x : IngestionJob) :
    firstRecords (written ++ [x]) = if x.id ∈ (firstRecords written).map IngestionJob.id then
      firstRecords written else firstRecords written ++ [x] := by
  rw [firstRecords,List.foldl_append]
  rfl

lemma mem_ids_firstRecords (written : List IngestionJob) (id : JobId) :
    id ∈ (firstRecords written).map IngestionJob.id ↔ id ∈ written.map IngestionJob.id := by
  induction written using List.reverseRecOn with
  | nil => rfl
  | append_singleton written x ih =>
    rw [firstRecords_concat,List.map_append,List.mem_append,← ih]
    split_ifs with hid
    · refine ⟨Or.inl,fun h => h.elim (fun h => h) fun h => ?_⟩
      rw [List.mem_singleton.mp h]
      exact hid
    · rw [List.map_append,List.mem_append]

/-- A record that is not the first of its job changes nothing. -/
lemma newestAccepted_known (h : x.id ∈ written.map IngestionJob.id) (document : Bytes) :
    newestAccepted (written ++ [x]) document = newestAccepted written document := by
  rw [newestAccepted,firstRecords_concat,if_pos ((mem_ids_firstRecords written x.id).mpr h)]
  rfl

/-- The first record of a job makes it the newest of its document. -/
lemma newestAccepted_new (h : x.id ∉ written.map IngestionJob.id) (document : Bytes) :
    newestAccepted (written ++ [x]) document =
      if x.input.document = document then some x else newestAccepted written document := by
  rw [newestAccepted,firstRecords_concat,if_neg fun hid =>
    h ((mem_ids_firstRecords written x.id).mp hid),
    List.filter_append]
  by_cases hdocument : x.input.document = document
  · rw [if_pos hdocument,List.filter_cons_of_pos (by simpa using hdocument),List.filter_nil,
      List.getLast?_concat]
  · rw [if_neg hdocument,List.filter_cons_of_neg (by simpa using hdocument),List.filter_nil,
      List.append_nil]
    rfl

/-- The newest accepted job of the document is at least as new. -/
def Covered (written : List IngestionJob) (x : IngestionJob) : Prop :=
  ∃ newest, newestAccepted written x.input.document = some newest ∧ x.revision ≤ newest.revision

lemma Covered.of_same (h : Covered written x) (hsame : x.SameIdentity job) :
    Covered written job := by
  obtain ⟨newest,hnewest,hrevision⟩ := h
  exact ⟨newest,by rw [hsame.document]; exact hnewest,by rw [hsame.revision]; exact hrevision⟩

lemma Covered.known (h : Covered written job) (hx : x.id ∈ written.map IngestionJob.id) :
    Covered (written ++ [x]) job := by
  unfold Covered
  rw [newestAccepted_known hx]
  exact h

/-- A history of records: those of a job are alike, its open ones have the same input, and a job is
open when it is accepted. -/
structure Consistent (written : List IngestionJob) : Prop where
  same : ∀ x ∈ written, ∀ y ∈ written, x.id = y.id → x.SameIdentity y
  input : ∀ x ∈ written, ∀ y ∈ written, x.id = y.id → terminal x.status = false →
    terminal y.status = false → x.input = y.input
  newest : ∀ document job, newestAccepted written document = some job →
    job ∈ written ∧ job.input.document = document ∧ terminal job.status = false

lemma consistent_nil : Consistent [] := by
  refine ⟨?_,?_,?_⟩
  · intro x hx
    cases hx
  · intro x hx
    cases hx
  · intro document job h
    cases h

/-- A further record of an open job. -/
def Continues (written : List IngestionJob) (x : IngestionJob) : Prop :=
  ∃ job ∈ written, job.id = x.id ∧ job.SameIdentity x ∧ terminal job.status = false ∧
    (terminal x.status = false → x.input = job.input)

lemma Consistent.record (h : Consistent written) (hx : Continues written x) :
    Consistent (written ++ [x]) := by
  obtain ⟨job,hjob,hid,hsame,hopen,hinput⟩ := hx
  have hknown : x.id ∈ written.map IngestionJob.id := List.mem_map.mpr ⟨job,hjob,hid⟩
  have hback : ∀ y ∈ written, x.id = y.id → x.SameIdentity y := fun y hy heq =>
    hsame.symm.trans (h.same job hjob y hy (hid.trans heq))
  have hbackInput : ∀ y ∈ written, x.id = y.id → terminal x.status = false →
      terminal y.status = false → x.input = y.input := fun y hy heq hxopen hyopen =>
    (hinput hxopen).trans (h.input job hjob y hy (hid.trans heq) hopen hyopen)
  refine ⟨?_,?_,?_⟩
  · intro a ha b hb heq
    obtain ha | ha := List.mem_append.mp ha
    · obtain hb | hb := List.mem_append.mp hb
      · exact h.same a ha b hb heq
      · cases List.mem_singleton.mp hb
        exact (hback a ha heq.symm).symm
    · cases List.mem_singleton.mp ha
      obtain hb | hb := List.mem_append.mp hb
      · exact hback b hb heq
      · cases List.mem_singleton.mp hb
        exact IngestionJob.SameIdentity.refl x
  · intro a ha b hb heq hao hbo
    obtain ha | ha := List.mem_append.mp ha
    · obtain hb | hb := List.mem_append.mp hb
      · exact h.input a ha b hb heq hao hbo
      · cases List.mem_singleton.mp hb
        exact (hbackInput a ha heq.symm hbo hao).symm
    · cases List.mem_singleton.mp ha
      obtain hb | hb := List.mem_append.mp hb
      · exact hbackInput b hb heq hao hbo
      · cases List.mem_singleton.mp hb
        rfl
  · intro document newest hnewest
    rw [newestAccepted_known hknown] at hnewest
    obtain ⟨hmem,hrest⟩ := h.newest document newest hnewest
    exact ⟨List.mem_append_left _ hmem,hrest⟩

/-- The first record of a new job. -/
lemma Consistent.new (h : Consistent written) (hx : x.id ∉ written.map IngestionJob.id)
    (hopen : terminal x.status = false) : Consistent (written ++ [x]) := by
  have hne : ∀ y ∈ written, y.id ≠ x.id := fun y hy heq => hx (List.mem_map.mpr ⟨y,hy,heq⟩)
  refine ⟨?_,?_,?_⟩
  · intro a ha b hb heq
    obtain ha | ha := List.mem_append.mp ha
    · obtain hb | hb := List.mem_append.mp hb
      · exact h.same a ha b hb heq
      · cases List.mem_singleton.mp hb
        exact absurd heq (hne a ha)
    · cases List.mem_singleton.mp ha
      obtain hb | hb := List.mem_append.mp hb
      · exact absurd heq.symm (hne b hb)
      · cases List.mem_singleton.mp hb
        exact IngestionJob.SameIdentity.refl x
  · intro a ha b hb heq hao hbo
    obtain ha | ha := List.mem_append.mp ha
    · obtain hb | hb := List.mem_append.mp hb
      · exact h.input a ha b hb heq hao hbo
      · cases List.mem_singleton.mp hb
        exact absurd heq (hne a ha)
    · cases List.mem_singleton.mp ha
      obtain hb | hb := List.mem_append.mp hb
      · exact absurd heq.symm (hne b hb)
      · cases List.mem_singleton.mp hb
        rfl
  · intro document newest hnewest
    rw [newestAccepted_new hx] at hnewest
    split_ifs at hnewest with hdocument
    · cases hnewest
      exact ⟨List.mem_append_right _ (List.mem_singleton_self x),hdocument,hopen⟩
    · obtain ⟨hmem,hrest⟩ := h.newest document newest hnewest
      exact ⟨List.mem_append_left _ hmem,hrest⟩

end

namespace Coordinator

/-- A coordinator and its log fit what has been written: memory and log know nothing that has not
been written, nothing in them is newer than the newest accepted job of its document, and the log is
at most one job ahead of memory. -/
structure Chronicled (s : Coordinator) (frames written : List IngestionJob) : Prop where
  consistent : Consistent written
  known : ∀ id job, s.jobs.find? id = some job → id ∈ written.map IngestionJob.id
  opened : ∀ id job, s.jobs.find? id = some job → terminal job.status = false → job ∈ written
  memory : ∀ id job, s.jobs.find? id = some job → Covered written job
  log : ∀ x ∈ frames, Covered written x
  ahead : ∀ x ∈ frames, x.revision ≤ s.revisionOf x.input.document + 1

/-- A record of a job that is open in memory. -/
def Records (s : Coordinator) (x : IngestionJob) : Prop :=
  ∃ job, s.jobs.find? x.id = some job ∧ terminal job.status = false ∧ job.SameIdentity x ∧
    (terminal x.status = false → x.input = job.input)

section
variable {s t : Coordinator} {frames written extra : List IngestionJob} {x : IngestionJob}

lemma Chronicled.record (h : s.Chronicled frames written) (hs : s.Wf) (hx : s.Records x) :
    s.Chronicled (frames ++ [x]) (written ++ [x]) := by
  obtain ⟨job,hjob,hopen,hsame,hinput⟩ := hx
  have hknown := h.known x.id job hjob
  have hid := hs.keyed x.id job hjob
  have hcovered : Covered (written ++ [x]) x :=
    ((h.memory x.id job hjob).of_same hsame).known hknown
  refine ⟨h.consistent.record ⟨job,h.opened x.id job hjob hopen,hid,hsame,hopen,hinput⟩,?_,?_,?_,
    ?_,?_⟩
  · intro id y hy
    rw [List.map_append]
    exact List.mem_append_left _ (h.known id y hy)
  · intro id y hy hyopen
    exact List.mem_append_left _ (h.opened id y hy hyopen)
  · intro id y hy
    exact (h.memory id y hy).known hknown
  · intro y hy
    obtain hy | hy := List.mem_append.mp hy
    · exact (h.log y hy).known hknown
    · cases List.mem_singleton.mp hy
      exact hcovered
  · intro y hy
    obtain hy | hy := List.mem_append.mp hy
    · exact h.ahead y hy
    · cases List.mem_singleton.mp hy
      have := hs.bounded x.id job hjob
      rw [hsame.revision,hsame.document]
      omega

lemma Chronicled.records (h : s.Chronicled frames written) (hs : s.Wf)
    (hextra : ∀ x ∈ extra, s.Records x) : s.Chronicled (frames ++ extra) (written ++ extra) := by
  induction extra using List.reverseRecOn with
  | nil => simpa using h
  | append_singleton extra x ih =>
    rw [← List.append_assoc,← List.append_assoc]
    exact (ih fun y hy => hextra y (List.mem_append_left _ hy)).record hs (hextra x (by simp))

/-- A job that is created is newer than all that memory and log know of its document. -/
lemma Chronicled.new (h : s.Chronicled frames written) (hs : s.Wf)
    (hunused : x.id ∉ written.map IngestionJob.id) (hopen : terminal x.status = false)
    (hrevision : x.revision = s.revisionOf x.input.document + 1) :
    s.Chronicled (frames ++ [x]) (written ++ [x]) := by
  have hcovers : ∀ y : IngestionJob, Covered written y →
      y.revision ≤ s.revisionOf y.input.document + 1 → Covered (written ++ [x]) y := by
    intro y hy hrev
    unfold Covered
    rw [newestAccepted_new hunused]
    split_ifs with hdocument
    · exact ⟨x,rfl,by rw [hrevision,hdocument]; exact hrev⟩
    · exact hy
  refine ⟨h.consistent.new hunused hopen,?_,?_,?_,?_,?_⟩
  · intro id y hy
    rw [List.map_append]
    exact List.mem_append_left _ (h.known id y hy)
  · intro id y hy hyopen
    exact List.mem_append_left _ (h.opened id y hy hyopen)
  · intro id y hy
    exact hcovers y (h.memory id y hy) ((hs.bounded id y hy).trans (Nat.le_succ _))
  · intro y hy
    obtain hy | hy := List.mem_append.mp hy
    · exact hcovers y (h.log y hy) (h.ahead y hy)
    · cases List.mem_singleton.mp hy
      exact ⟨x,by rw [newestAccepted_new hunused,if_pos rfl],le_rfl⟩
  · intro y hy
    obtain hy | hy := List.mem_append.mp hy
    · exact h.ahead y hy
    · cases List.mem_singleton.mp hy
      exact hrevision.le

/-- Writing what a step writes. -/
lemma Chronicled.appends (h : s.Chronicled frames written) (hs : s.Wf) {a : Action}
    (hunused : ∀ job, s.created a = some job → job.id ∉ written.map IngestionJob.id)
    (happends : s.Appends a extra) : s.Chronicled (frames ++ extra) (written ++ extra) := by
  cases happends with
  | nothing => simpa using h
  | record job next hjob hopen hsame hinput => exact h.record hs ⟨job,hjob,hopen,hsame,hinput⟩
  | created job hcreated hfresh =>
    exact h.new hs (hunused job hcreated) (by rw [created_status hcreated]; rfl)
      (created_revision hcreated)
  | replaced job older later hcreated hfresh hjob hopen =>
    have hnew := h.new hs (hunused job hcreated) (by rw [created_status hcreated]; rfl)
      (created_revision hcreated)
    have hboth := hnew.record hs (x := older.supersede later)
      ⟨older,hjob,hopen,older.supersede_same later,fun hclosed => by cases hclosed⟩
    rw [List.append_assoc,List.append_assoc] at hboth
    exact hboth

/-- Memory follows what is written. -/
lemma Chronicled.remembers (h : s.Chronicled frames (written ++ extra))
    (hsubset : extra ⊆ frames) (hmemory : s.Remembers t extra)
    (hkeyed : ∀ id job, t.jobs.find? id = some job → job.id = id)
    (hrevisions : ∀ document, s.revisionOf document ≤ t.revisionOf document) :
    t.Chronicled frames (written ++ extra) := by
  refine ⟨h.consistent,?_,?_,?_,h.log,?_⟩
  · intro id job hjob
    obtain hold | hnew | ⟨-,before,hbefore,-⟩ := hmemory id job hjob
    · exact h.known id job hold
    · exact List.mem_map.mpr ⟨job,List.mem_append_right _ hnew,hkeyed id job hjob⟩
    · exact h.known id before hbefore
  · intro id job hjob hopen
    obtain hold | hnew | ⟨hclosed,-⟩ := hmemory id job hjob
    · exact h.opened id job hold hopen
    · exact List.mem_append_right _ hnew
    · rw [hclosed] at hopen
      cases hopen
  · intro id job hjob
    obtain hold | hnew | ⟨-,before,hbefore,hsame⟩ := hmemory id job hjob
    · exact h.memory id job hold
    · exact h.log job (hsubset hnew)
    · exact (h.memory id before hbefore).of_same hsame
  · intro x hx
    exact (h.ahead x hx).trans (Nat.succ_le_succ (hrevisions x.input.document))

/-- A step of the coordinator writes its part of the history. -/
theorem Chronicled.step (h : s.Chronicled s.store.frames written) (hs : s.Wf)
    {cfg : CoordinatorConfig} {a : Action}
    (hunused : ∀ job, s.created a = some job → job.id ∉ written.map IngestionJob.id)
    (hstep : s.step cfg a = some t) :
    ∃ extra, t.store.frames = s.store.frames ++ extra ∧
      t.Chronicled t.store.frames (written ++ extra) := by
  obtain ⟨extra,hframes,happends,hmemory⟩ := step_extends hs hstep
  refine ⟨extra,hframes,?_⟩
  rw [hframes]
  exact (h.appends hs hunused happends).remembers (List.subset_append_right _ _) hmemory
    (step_wf hs hstep).keyed (step_revisionOf_le hs hstep)

/-- A log with a history, taken over. -/
lemma chronicled_load {store : JobStore} (backend : CatalogBackend)
    (hsound : ∀ x ∈ store.frames, x.Sound) (hconsistent : Consistent written)
    (hsubset : store.frames ⊆ written) (hcovered : ∀ x ∈ store.frames, Covered written x) :
    (load store backend).Chronicled store.frames written := by
  obtain ⟨hloaded,-⟩ := load_loaded backend hsound
  have hmem : ∀ id job, (load store backend).jobs.find? id = some job →
      job ∈ store.frames ∧ job.id = id := by
    intro id job hjob
    rw [hloaded.jobs] at hjob
    exact latestJobs_mem hjob
  refine ⟨hconsistent,?_,?_,?_,hcovered,?_⟩
  · intro id job hjob
    obtain ⟨hjob,hid⟩ := hmem id job hjob
    exact List.mem_map.mpr ⟨job,hsubset hjob,hid⟩
  · intro id job hjob hopen
    exact hsubset (hmem id job hjob).1
  · intro id job hjob
    exact hcovered job (hmem id job hjob).1
  · intro x hx
    obtain ⟨last,hlast⟩ := latestJobs_isSome hx
    obtain ⟨hmemLast,hid⟩ := latestJobs_mem hlast
    have hsame := hconsistent.same last (hsubset hmemLast) x (hsubset hx) hid
    have hbound := hloaded.wf.bounded x.id last (by rw [hloaded.jobs]; exact hlast)
    rw [hsame.revision,hsame.document]
    omega

lemma records_rewritten (hs : s.Wf) {around : Opening} {order : List JobId}
    (hx : x ∈ s.rewritten around order) : s.Records x := by
  obtain ⟨id,-,job,hjob,hopen,rfl⟩ := mem_rewritten hx
  exact ⟨job,by rw [settled_id,hs.keyed id job hjob,hjob],hopen,settled_same s around job,
    fun _ => settled_input s around job⟩

/-- Going through the open jobs writes its part of the history. -/
lemma Chronicled.resumed (h : s.Chronicled frames written) (hs : s.Wf) {around : Opening}
    {order : List JobId} (hresumed : s.Resumed around order t) :
    t.Chronicled (frames ++ s.rewritten around order) (written ++ s.rewritten around order) := by
  apply (h.records hs fun x hx => records_rewritten hs hx).remembers
    (List.subset_append_right _ _) _
    (hresumed.keyed hs.keyed) (fun document => by rw [hresumed.revisionOf])
  intro id job hjob
  rw [hresumed.jobs] at hjob
  split_ifs at hjob with hid
  · obtain ⟨before,hbefore,rfl⟩ := Option.map_eq_some_iff.mp hjob
    by_cases hclosed : terminal before.status = true
    · refine Or.inl ?_
      rw [hbefore,settled,if_pos hclosed]
    · refine Or.inr (Or.inl ?_)
      refine List.mem_filterMap.mpr ⟨id,hid,?_⟩
      rw [hbefore,Option.bind_some,if_neg hclosed]
  · exact Or.inl hjob

end

end Coordinator

/-- A process and all that has ever been written to its job log. -/
structure Chronicle where
  process : Process
  written : List IngestionJob

namespace Chronicle
open Coordinator

/-- New job ids have never been used. -/
def Unused (c : Chronicle) : Process.Action → Prop
  | .coordinate (.submit _ _ clerk) | .coordinate (.erase _ clerk) =>
    clerk.id ∉ c.written.map IngestionJob.id
  | _ => True

instance (c : Chronicle) : ∀ action, Decidable (c.Unused action)
  | .coordinate (.submit _ _ clerk) =>
    inferInstanceAs (Decidable (clerk.id ∉ c.written.map IngestionJob.id))
  | .coordinate (.erase _ clerk) =>
    inferInstanceAs (Decidable (clerk.id ∉ c.written.map IngestionJob.id))
  | .coordinate .take => isTrue trivial
  | .coordinate (.execute _ _) => isTrue trivial
  | .coordinate .compact => isTrue trivial
  | .coordinate .shutdown => isTrue trivial
  | .checkpoint _ _ => isTrue trivial
  | .stop => isTrue trivial
  | .reopen _ => isTrue trivial

/-- What a step has written to the log; truncating it writes nothing. -/
def added (p q : Process) : Process.Action → List IngestionJob
  | .checkpoint _ _ => []
  | _ => q.disk.frames.drop p.disk.frames.length

def step (cfg : EmbeddedRuntimeConfig) (c : Chronicle) (action : Process.Action) :
    Option Chronicle :=
  if c.Unused action then
    (c.process.step cfg action).map fun p => ⟨p,c.written ++ added c.process p action⟩
  else none

def start : Chronicle := ⟨Process.fresh,[]⟩

/-- What holds of a process and its history. -/
structure Holds (c : Chronicle) : Prop where
  abridges : Abridges c.process.disk.frames c.written
  subset : c.process.disk.frames ⊆ c.written
  consistent : Consistent c.written
  covered : ∀ x ∈ c.process.disk.frames, Covered c.written x
  sound : ∀ x ∈ c.process.disk.frames, x.Sound
  running : ∀ r, c.process = .running r →
    r.coordinator.Wf ∧ r.coordinator.Chronicled r.coordinator.store.frames c.written

section
variable {cfg : EmbeddedRuntimeConfig} {c d : Chronicle} {r : EmbeddedRuntime}

lemma holds_start : start.Holds := by
  refine ⟨Abridges.refl [],List.Subset.refl [],consistent_nil,?_,?_,?_⟩
  · intro x hx
    cases hx
  · intro x hx
    cases hx
  · intro r hr
    cases hr

/-- The parts of a running process determine the rest. -/
lemma holds_running {written : List IngestionJob}
    (habridges : Abridges r.coordinator.store.frames written)
    (hsubset : r.coordinator.store.frames ⊆ written) (hwf : r.coordinator.Wf)
    (hchronicled : r.coordinator.Chronicled r.coordinator.store.frames written) :
    Holds ⟨.running r,written⟩ := by
  refine ⟨habridges,hsubset,hchronicled.consistent,hchronicled.log,hwf.frames,?_⟩
  intro r' hr
  cases hr
  exact ⟨hwf,hchronicled⟩

lemma Holds.coordinate (h : Holds ⟨.running r,c.written⟩) {action : Coordinator.Action}
    (hunused : Unused ⟨.running r,c.written⟩ (.coordinate action)) {s : Coordinator}
    (hstep : r.coordinator.step cfg.coordinator action = some s) :
    Holds ⟨.running { r with coordinator := s },c.written ++
      added (.running r) (.running { r with coordinator := s }) (.coordinate action)⟩ := by
  obtain ⟨hwf,hchronicled⟩ := h.running r rfl
  have hfresh : ∀ job, r.coordinator.created action = some job →
      job.id ∉ c.written.map IngestionJob.id := by
    intro job hcreated
    cases action with
    | submit input asynchronous clerk =>
      cases hcreated
      exact hunused
    | erase document clerk =>
      cases hcreated
      exact hunused
    | take => cases hcreated
    | execute id around => cases hcreated
    | compact => cases hcreated
    | shutdown => cases hcreated
  obtain ⟨extra,hframes,hnext⟩ := hchronicled.step hwf hfresh hstep
  have hadded : added (.running r) (.running { r with coordinator := s }) (.coordinate action) =
      extra := by
    change s.store.frames.drop r.coordinator.store.frames.length = extra
    rw [hframes,List.drop_left]
  rw [hadded]
  apply holds_running
  · change Abridges s.store.frames _
    rw [hframes]
    exact h.abridges.append extra
  · change s.store.frames ⊆ _
    rw [hframes]
    exact List.append_subset.mpr ⟨List.Subset.trans h.subset (List.subset_append_left _ _),
      List.subset_append_right _ _⟩
  · exact step_wf hwf hstep
  · exact hnext

/-- Checkpointing leaves the coordinator, or truncates its log. -/
lemma checkpointEmbedded_cases (cfg : EmbeddedRuntimeConfig) (r : EmbeddedRuntime) (thread : ℕ)
    (io : Result Unit) :
    (r.checkpointEmbedded cfg thread io).coordinator = r.coordinator ∨
      ∃ position store, r.coordinator.store.truncatePrefix cfg.coordinator.frameSize position
        cfg.jobRetention = .ok store ∧
        (r.checkpointEmbedded cfg thread io).coordinator =
          { r.coordinator with store := store } := by
  unfold EmbeddedRuntime.checkpointEmbedded
  cases r.checkpointing.find? thread with
  | none => exact Or.inl rfl
  | some place =>
    cases place with
    | positioned position => exact Or.inl rfl
    | captured position backend =>
      cases io with
      | error e => exact Or.inl rfl
      | ok u => exact Or.inl rfl
    | saved position =>
      cases io with
      | error e => exact Or.inl rfl
      | ok u =>
        cases htruncate : r.coordinator.store.truncatePrefix cfg.coordinator.frameSize position
          cfg.jobRetention with
        | error e => exact Or.inl (by simp only [htruncate]; rfl)
        | ok store => exact Or.inr ⟨position,store,htruncate,by simp only [htruncate]; rfl⟩

lemma Holds.checkpoint (cfg : EmbeddedRuntimeConfig) (h : Holds ⟨.running r,c.written⟩) (thread : ℕ)
    (io : Result Unit) :
    Holds ⟨.running (r.checkpointEmbedded cfg thread io),c.written⟩ := by
  obtain ⟨hwf,hchronicled⟩ := h.running r rfl
  obtain hsame | ⟨position,store,htruncate,hsame⟩ := checkpointEmbedded_cases cfg r thread io
  · apply holds_running
    · rw [hsame]
      exact h.abridges
    · rw [hsame]
      exact h.subset
    · rw [hsame]
      exact hwf
    · rw [hsame]
      exact hchronicled
  · have hsubset := JobStore.truncatePrefix_subset htruncate
    apply holds_running
    · rw [hsame]
      exact (JobStore.abridges_truncatePrefix htruncate).trans h.abridges
    · rw [hsame]
      exact List.Subset.trans hsubset h.subset
    · rw [hsame]
      exact hwf.withStore fun x hx => hwf.frames x (hsubset hx)
    · rw [hsame]
      exact ⟨hchronicled.consistent,hchronicled.known,hchronicled.opened,hchronicled.memory,
        fun x hx => hchronicled.log x (hsubset hx),fun x hx => hchronicled.ahead x (hsubset hx)⟩

lemma Holds.stop (h : Holds ⟨.running r,c.written⟩) : Holds ⟨.stopped r.disk,c.written⟩ :=
  ⟨h.abridges,h.subset,h.consistent,h.covered,h.sound,fun _ hr => by cases hr⟩

/-- Opening a log with a history. -/
lemma Holds.load {disk : Disk} {written : List IngestionJob} (h : Holds ⟨.stopped disk,written⟩)
    {store : JobStore} (hstore : store.frames = disk.frames) (backend : CatalogBackend) :
    (Coordinator.load store backend).Loaded disk.frames backend ∧
      (Coordinator.load store backend).store = store ∧
      (Coordinator.load store backend).Chronicled disk.frames written := by
  have hsound : ∀ x ∈ store.frames, x.Sound := by rw [hstore]; exact h.sound
  obtain ⟨hloaded,hsame⟩ := load_loaded backend hsound
  have hchronicled := chronicled_load backend hsound h.consistent (by rw [hstore]; exact h.subset)
    (by rw [hstore]; exact h.covered)
  rw [hstore] at hloaded hchronicled
  exact ⟨hloaded,hsame,hchronicled⟩

lemma Holds.reopen {disk : Disk} {written : List IngestionJob} (h : Holds ⟨.stopped disk,written⟩)
    {around : Opening} (horder : around.order.Perm (latestJobs disk.frames).keys) :
    Holds ⟨Process.reopen cfg disk around,written ++
      (Process.reopen cfg disk around).disk.frames.drop disk.frames.length⟩ := by
  have hnodup := horder.nodup_iff.mpr (latestJobs disk.frames).keys_nodup
  have hsound : ∀ x ∈ disk.frames, x.Sound := h.sound
  obtain ⟨backend,replaced,store,t,-,hopen,-,hresumed,hprocess⟩ | ⟨extra,hprocess,hextra⟩ :=
    Process.reopen_cases cfg hsound horder
  · have hframes : store.frames = disk.frames := by rw [(JobStore.openFile_cases hopen).2]
    obtain ⟨hloaded,hsame,hchronicled⟩ := h.load hframes backend
    have hwf : { Coordinator.load store backend with backend := replaced }.Wf :=
      hloaded.wf.withBackend replaced
    have hbefore : { Coordinator.load store backend with backend := replaced }.Chronicled
        disk.frames written :=
      ⟨hchronicled.consistent,hchronicled.known,hchronicled.opened,hchronicled.memory,
        hchronicled.log,hchronicled.ahead⟩
    have hafter := hbefore.resumed hwf hresumed
    have hlog := hresumed.frames
    rw [show ({ Coordinator.load store backend with backend := replaced } : Coordinator).store =
      store from hsame,hframes] at hlog
    rw [← hlog] at hafter
    rw [hprocess]
    have hadded : t.store.frames.drop disk.frames.length =
        { Coordinator.load store backend with backend := replaced }.rewritten around
          around.order := by
      rw [hlog,List.drop_left]
    have hgoal : Holds ⟨.running ⟨disk.checkpoint,t,∅⟩,
        written ++ t.store.frames.drop disk.frames.length⟩ := by
      rw [hadded]
      apply holds_running
      · change Abridges t.store.frames _
        rw [hlog]
        exact h.abridges.append _
      · change t.store.frames ⊆ _
        rw [hlog]
        exact List.append_subset.mpr ⟨List.Subset.trans h.subset (List.subset_append_left _ _),
          List.subset_append_right _ _⟩
      · exact hresumed.wf hwf hloaded.queue hloaded.idle hnodup
      · exact hafter
    exact hgoal
  · rw [hprocess]
    have hrecords : ∃ s : Coordinator, s.Wf ∧ s.Chronicled disk.frames written ∧
        ∀ x ∈ extra, s.Records x ∧ x.Sound := by
      obtain rfl | ⟨store,backend,hframes,hbegins⟩ := hextra
      · obtain ⟨hloaded,-,hchronicled⟩ := h.load (show (⟨disk.frames,0⟩ : JobStore).frames =
          disk.frames from rfl) CatalogBackend.empty
        exact ⟨_,hloaded.wf,hchronicled,fun x hx => by cases hx⟩
      · obtain ⟨hloaded,-,hchronicled⟩ := h.load hframes backend
        refine ⟨_,hloaded.wf,hchronicled,fun x hx => ?_⟩
        have hx := hbegins.subset hx
        refine ⟨records_rewritten hloaded.wf hx,?_⟩
        obtain ⟨id,-,job,hjob,-,rfl⟩ := mem_rewritten hx
        exact settled_sound _ around (hloaded.wf.jobs id job hjob)
    obtain ⟨s,hs,hchronicled,hextra⟩ := hrecords
    have hafter := hchronicled.records hs fun x hx => (hextra x hx).1
    have hgoal : Holds ⟨.stopped ⟨disk.checkpoint,disk.frames ++ extra⟩,written ++ extra⟩ := by
      refine ⟨h.abridges.append extra,?_,hafter.consistent,hafter.log,?_,fun _ hr => by cases hr⟩
      · exact List.append_subset.mpr ⟨List.Subset.trans h.subset (List.subset_append_left _ _),
          List.subset_append_right _ _⟩
      · intro x hx
        obtain hx | hx := List.mem_append.mp hx
        · exact h.sound x hx
        · exact (hextra x hx).2
    change Holds ⟨_,written ++ (disk.frames ++ extra).drop disk.frames.length⟩
    rw [List.drop_left]
    exact hgoal

/-- A step keeps what holds of a process and its history. -/
theorem Holds.step (h : c.Holds) {action : Process.Action}
    (hstep : c.step cfg action = some d) : d.Holds := by
  obtain ⟨process,written⟩ := c
  unfold Chronicle.step at hstep
  split_ifs at hstep with hunused
  obtain ⟨p,hp,rfl⟩ := Option.map_eq_some_iff.mp hstep
  cases process with
  | stopped disk =>
    cases action with
    | reopen around =>
      simp only [Process.step] at hp
      split_ifs at hp with horder
      cases hp
      exact h.reopen horder
    | coordinate action => cases hp
    | checkpoint thread io => cases hp
    | stop => cases hp
  | running r =>
    cases action with
    | reopen around => cases hp
    | coordinate action =>
      obtain ⟨s,hs,rfl⟩ := Option.map_eq_some_iff.mp hp
      exact Holds.coordinate (c := ⟨.running r,written⟩) h hunused hs
    | checkpoint thread io =>
      cases hp
      have hsame := Holds.checkpoint cfg (c := ⟨.running r,written⟩) h thread io
      simpa [added] using hsame
    | stop =>
      cases hp
      have hsame := Holds.stop (c := ⟨.running r,written⟩) h
      simpa [added,Process.disk] using hsame

end

end Chronicle
end RagRuntime.Ingestion
