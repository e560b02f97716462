import RagRuntime.Ingestion.EmbeddedRuntime
import RagRuntime.Ingestion.RecoveryCases

/-! What an opening does to the jobs that it finds open. -/
namespace RagRuntime.Ingestion
open RagRuntime.Base RagRuntime.Core RagRuntime.Backend

namespace Coordinator

/-- The record of a job once the opening has been through with it. -/
def settled (s : Coordinator) (around : Opening) (job : IngestionJob) : IngestionJob :=
  if terminal job.status then job
  else job.reopened (s.revisionOf job.input.document = job.revision) (around.now job.id)

/-- An open job of this kind that is the latest of its document. -/
def waits (s : Coordinator) (operation : JobOperation) (id : JobId) : Bool :=
  (s.jobs.find? id).any fun job => terminal job.status = false ∧
    s.revisionOf job.input.document = job.revision ∧ job.operation = operation

/-- The records that the opening writes. -/
def rewritten (s : Coordinator) (around : Opening) (order : List JobId) : List IngestionJob :=
  order.filterMap fun id => (s.jobs.find? id).bind fun job =>
    if terminal job.status then none else some (s.settled around job)

/-- The opening has been through with these jobs. -/
structure Resumed (s : Coordinator) (around : Opening) (order : List JobId) (t : Coordinator) :
    Prop where
  latestRevision : t.latestRevision = s.latestRevision
  latestJob : t.latestJob = s.latestJob
  backend : t.backend = s.backend
  stopping : t.stopping = s.stopping
  jobs : ∀ id, t.jobs.find? id =
    if id ∈ order then (s.jobs.find? id).map (s.settled around) else s.jobs.find? id
  queue : t.queue = s.queue ++ order.filter (s.waits .upsert)
  executing : ∀ id, t.executing.find? id =
    if id ∈ order ∧ s.waits .erase id = true then some .entered else s.executing.find? id
  frames : t.store.frames = s.store.frames ++ s.rewritten around order

section
variable {s m t : Coordinator} {around : Opening} {id : JobId} {order : List JobId}

lemma settled_same (s : Coordinator) (around : Opening) (job : IngestionJob) :
    job.SameIdentity (s.settled around job) := by
  unfold Coordinator.settled
  split_ifs
  · exact IngestionJob.SameIdentity.refl job
  · exact job.reopened_same _ _

@[simp] lemma settled_id (s : Coordinator) (around : Opening) (job : IngestionJob) :
    (s.settled around job).id = job.id := (settled_same s around job).id

lemma settled_input (s : Coordinator) (around : Opening) (job : IngestionJob) :
    (s.settled around job).input = job.input := by
  unfold Coordinator.settled IngestionJob.reopened
  split_ifs
  · rfl
  · rfl
  · rfl

lemma Resumed.nil (s : Coordinator) (around : Opening) : s.Resumed around [] s :=
  ⟨rfl,rfl,rfl,rfl,fun _ => by simp,by simp,fun _ => by simp,by simp [rewritten]⟩

lemma Resumed.revisionOf (h : s.Resumed around order m) : m.revisionOf = s.revisionOf := by
  funext document
  unfold Coordinator.revisionOf
  rw [h.latestRevision]

lemma Resumed.settled (h : s.Resumed around order m) : m.settled around = s.settled around := by
  funext job
  unfold Coordinator.settled
  rw [h.revisionOf]

lemma Resumed.find?_of_notMem (h : s.Resumed around order m) (hid : id ∉ order) :
    m.jobs.find? id = s.jobs.find? id := by
  rw [h.jobs,if_neg hid]

lemma Resumed.waits (h : s.Resumed around order m) (operation : JobOperation) (hid : id ∉ order) :
    m.waits operation id = s.waits operation id := by
  unfold Coordinator.waits
  rw [h.find?_of_notMem hid,h.revisionOf]

lemma rewritten_cons (s : Coordinator) (around : Opening) (id : JobId) (order : List JobId) :
    s.rewritten around (id::order) = s.rewritten around [id] ++ s.rewritten around order := by
  unfold rewritten
  rw [← List.filterMap_append]
  rfl

lemma Resumed.rewritten_eq (h : s.Resumed around [id] m) (hnot : id ∉ order) :
    m.rewritten around order = s.rewritten around order := by
  unfold Coordinator.rewritten
  apply List.filterMap_congr
  intro id' hmem
  rw [h.find?_of_notMem (fun hid => hnot (List.mem_singleton.mp hid ▸ hmem)),h.settled]

/-- One job after the others. -/
lemma Resumed.cons (h : s.Resumed around [id] m) (hnot : id ∉ order)
    (hrest : m.Resumed around order t) : s.Resumed around (id::order) t := by
  have hother : ∀ {id'}, id' ∈ order → id' ∉ [id] := fun hmem hid =>
    hnot (List.mem_singleton.mp hid ▸ hmem)
  refine ⟨hrest.latestRevision.trans h.latestRevision,hrest.latestJob.trans h.latestJob,
    hrest.backend.trans h.backend,hrest.stopping.trans h.stopping,?_,?_,?_,?_⟩
  · intro id'
    rw [hrest.jobs,h.settled]
    by_cases hmem : id' ∈ order
    · rw [if_pos hmem,if_pos (List.mem_cons_of_mem id hmem),h.find?_of_notMem (hother hmem)]
    · rw [if_neg hmem,h.jobs]
      simp only [List.mem_cons,List.not_mem_nil,hmem,or_false]
  · rw [hrest.queue,h.queue,List.append_assoc,List.filter_congr (fun id' hmem =>
      h.waits .upsert (hother hmem)),← List.filter_append]
    rfl
  · intro id'
    rw [hrest.executing]
    by_cases hmem : id' ∈ order
    · have hne : id' ≠ id := fun hid => hnot (hid ▸ hmem)
      simp only [h.executing,h.waits .erase (hother hmem),List.mem_cons,List.not_mem_nil,hmem,hne,
        or_false,or_true,false_and,if_false]
    · rw [if_neg (fun hc => hmem hc.1),h.executing]
      simp only [List.mem_cons,List.not_mem_nil,hmem,or_false]
  · rw [hrest.frames,h.frames,List.append_assoc,h.rewritten_eq hnot,← rewritten_cons]

/-- A job that is not open, or not there, is left alone. -/
lemma Resumed.skip (hid : ∀ job, s.jobs.find? id = some job → terminal job.status = true) :
    s.Resumed around [id] s := by
  have hwaits : ∀ operation, s.waits operation id = false := by
    intro operation
    unfold Coordinator.waits
    cases hjob : s.jobs.find? id with
    | none => rfl
    | some job => simp [hid job hjob]
  refine ⟨rfl,rfl,rfl,rfl,?_,?_,?_,?_⟩
  · intro id'
    split_ifs with hmem
    · cases List.mem_singleton.mp hmem
      cases hjob : s.jobs.find? id with
      | none => rfl
      | some job => simp [Coordinator.settled,hid job hjob]
    · rfl
  · simp [hwaits]
  · intro id'
    rw [if_neg]
    rintro ⟨hmem,hw⟩
    rw [List.mem_singleton.mp hmem,hwaits] at hw
    cases hw
  · unfold rewritten
    cases hjob : s.jobs.find? id with
    | none => simp [hjob]
    | some job => simp [hjob,hid job hjob]

/-- An open job is written anew; if it is the latest of its document it begins again. -/
lemma Resumed.open_job (around : Opening) {job : IngestionJob} (hkey : job.id = id)
    (hjob : s.jobs.find? id = some job)
    (hopen : terminal job.status = false) (bytes : ℕ) :
    let next := s.settled around job
    let u := { s with store := ⟨s.store.frames ++ [next],bytes⟩ }.setJob next
    s.Resumed around [id] (
      if s.revisionOf job.input.document = job.revision then
        if job.operation = .erase then u.setProgress id .entered
        else { u with queue := u.queue ++ [id] }
      else u) := by
  have hid : (s.settled around job).id = id := (settled_id s around job).trans hkey
  have hwaits : ∀ operation, s.waits operation id =
      decide (s.revisionOf job.input.document = job.revision ∧ job.operation = operation) := by
    intro operation
    unfold Coordinator.waits
    rw [hjob]
    simp [hopen]
  have hjobs : ∀ id', (s.jobs.insert id (s.settled around job)).find? id' =
      if id' ∈ [id] then (s.jobs.find? id').map (s.settled around) else s.jobs.find? id' := by
    intro id'
    rw [OrdMap.find?_insert]
    by_cases heq : id' = id
    · subst heq
      simp [hjob]
    · simp [heq]
  have hframes : s.rewritten around [id] = [s.settled around job] := by
    simp [rewritten,hjob,hopen]
  dsimp only
  by_cases hcurrent : s.revisionOf job.input.document = job.revision
  · rw [if_pos hcurrent]
    by_cases herase : job.operation = .erase
    · rw [if_pos herase]
      refine ⟨rfl,rfl,rfl,rfl,?_,?_,?_,?_⟩
      · simpa only [setProgress,setJob,hid] using hjobs
      · simp [setProgress,setJob,hwaits,herase]
      · intro id'
        simp only [setProgress,setJob,OrdMap.find?_insert,List.mem_singleton]
        by_cases heq : id' = id
        · subst heq
          simp [hwaits,hcurrent,herase]
        · simp [heq]
      · simp only [setProgress,setJob,hframes]
    · rw [if_neg herase]
      have hupsert : job.operation = .upsert := by
        cases hop : job.operation with
        | upsert => rfl
        | erase => exact absurd hop herase
      refine ⟨rfl,rfl,rfl,rfl,?_,?_,?_,?_⟩
      · simpa only [setJob,hid] using hjobs
      · simp [setJob,hwaits,hcurrent,hupsert]
      · intro id'
        simp only [setJob]
        rw [if_neg]
        rintro ⟨hmem,hw⟩
        rw [List.mem_singleton.mp hmem,hwaits] at hw
        exact herase (of_decide_eq_true hw).2
      · simp only [setJob,hframes]
  · rw [if_neg hcurrent]
    refine ⟨rfl,rfl,rfl,rfl,?_,?_,?_,?_⟩
    · simpa only [setJob,hid] using hjobs
    · simp [setJob,hwaits,hcurrent]
    · intro id'
      simp only [setJob]
      rw [if_neg]
      rintro ⟨hmem,hw⟩
      rw [List.mem_singleton.mp hmem,hwaits] at hw
      exact hcurrent (of_decide_eq_true hw).1
    · simp only [setJob,hframes]

lemma Resumed.keyed (h : s.Resumed around order m)
    (hkeyed : ∀ id job, s.jobs.find? id = some job → job.id = id) :
    ∀ id job, m.jobs.find? id = some job → job.id = id := by
  intro id job hjob
  rw [h.jobs] at hjob
  split_ifs at hjob
  · obtain ⟨before,hbefore,rfl⟩ := Option.map_eq_some_iff.mp hjob
    rw [settled_id]
    exact hkeyed id before hbefore
  · exact hkeyed id job hjob

/-- What is asked of an opening that goes through these jobs: all that it writes by the time it
fails is a part of what it writes when it does not. -/
structure Resumes (s : Coordinator) (around : Opening) (order : List JobId)
    (called : Result Unit × Coordinator) : Prop where
  written : ∃ extra, extra <+: s.rewritten around order ∧
    called.2.store.frames = s.store.frames ++ extra
  ok : called.1 = .ok () → s.Resumed around order called.2

lemma Resumes.cons {called : Result Unit × Coordinator} (hrest : m.Resumes around order called)
    (h : s.Resumed around [id] m) (hnot : id ∉ order) :
    s.Resumes around (id::order) called := by
  obtain ⟨⟨extra,hbegins,hframes⟩,hok⟩ := hrest
  refine ⟨⟨s.rewritten around [id] ++ extra,?_,?_⟩,fun hsucceeds => h.cons hnot (hok hsucceeds)⟩
  · rw [rewritten_cons s around id order,← h.rewritten_eq hnot]
    exact (List.prefix_append_right_inj _).mpr hbegins
  · rw [hframes,h.frames,List.append_assoc]

theorem resume_resumes (cfg : CoordinatorConfig)
    (hkeyed : ∀ id job, s.jobs.find? id = some job → job.id = id) (hnodup : order.Nodup) :
    s.Resumes around order (resume cfg around order s) := by
  induction order generalizing s with
  | nil => exact ⟨⟨[],List.nil_prefix,by simp [resume]⟩,fun _ => Resumed.nil s around⟩
  | cons id order ih =>
    obtain ⟨hnot,hrest⟩ := List.nodup_cons.mp hnodup
    unfold resume
    cases hjob : s.jobs.find? id with
    | none =>
      have hskip : s.Resumed around [id] s :=
        Resumed.skip fun job hfound => by rw [hjob] at hfound; cases hfound
      exact (ih hkeyed hrest).cons hskip hnot
    | some job =>
      have hkey := hkeyed id job hjob
      dsimp only
      by_cases hopen : terminal job.status = true
      · rw [if_pos hopen]
        have hskip : s.Resumed around [id] s :=
          Resumed.skip fun x hfound => by rw [hjob] at hfound; cases hfound; exact hopen
        exact (ih hkeyed hrest).cons hskip hnot
      · rw [if_neg hopen]
        have hopen : terminal job.status = false := Bool.eq_false_of_not_eq_true hopen
        have hnext : job.reopened (s.revisionOf job.input.document = job.revision)
            (around.now id) = s.settled around job := by
          unfold Coordinator.settled
          rw [if_neg (by simp [hopen]),hkey]
        have hwritten : s.rewritten around (id::order) =
            s.settled around job::s.rewritten around order := by
          rw [rewritten_cons s around id order]
          simp [rewritten,hjob,hopen]
        have hone := Resumed.open_job around hkey hjob hopen
          (s.store.bytes + cfg.frameSize (s.settled around job))
        dsimp only at hone
        rw [hnext]
        cases hsaved : around.saved id with
        | refused e =>
          exact ⟨⟨[],List.nil_prefix,(List.append_nil _).symm⟩,fun hok => by cases hok⟩
        | unsynced =>
          refine ⟨⟨[s.settled around job],?_,rfl⟩,fun hok => by cases hok⟩
          rw [hwritten]
          exact ⟨_,rfl⟩
        | synced =>
          simp only [persist,JobStore.persist,Bool.not_eq_true',decide_eq_false_iff_not]
          by_cases hcurrent : s.revisionOf job.input.document = job.revision
          · rw [if_pos hcurrent] at hone
            rw [if_neg (not_not.mpr hcurrent)]
            by_cases herase : job.operation = .erase
            · rw [if_pos herase] at hone ⊢
              exact (ih (hone.keyed hkeyed) hrest).cons hone hnot
            · rw [if_neg herase] at hone ⊢
              exact (ih (hone.keyed hkeyed) hrest).cons hone hnot
          · rw [if_neg hcurrent] at hone
            rw [if_pos hcurrent]
            exact (ih (hone.keyed hkeyed) hrest).cons hone hnot

lemma settled_sound (s : Coordinator) (around : Opening) {job : IngestionJob} (h : job.Sound) :
    (s.settled around job).Sound := by
  unfold Coordinator.settled
  split_ifs
  · exact h
  · apply h.of_same (job.reopened_same _ _)
    · unfold IngestionJob.reopened
      split_ifs
      · exact Or.inl rfl
      · exact Or.inl rfl
    · rw [IngestionJob.reopened_status]
      split_ifs
      · exact JobStatus.noConfusion
      · exact JobStatus.noConfusion

lemma mem_rewritten {x : IngestionJob} (h : x ∈ s.rewritten around order) :
    ∃ id ∈ order, ∃ job, s.jobs.find? id = some job ∧ terminal job.status = false ∧
      x = s.settled around job := by
  obtain ⟨id,hid,hx⟩ := List.mem_filterMap.mp h
  obtain ⟨job,hjob,hx⟩ := Option.bind_eq_some_iff.mp hx
  split_ifs at hx with hclosed
  cases hx
  exact ⟨id,hid,job,hjob,Bool.eq_false_of_not_eq_true hclosed,rfl⟩

lemma waits_eq_true {operation : JobOperation} : s.waits operation id = true ↔
    ∃ job, s.jobs.find? id = some job ∧ terminal job.status = false ∧
      s.revisionOf job.input.document = job.revision ∧ job.operation = operation := by
  unfold waits
  cases hjob : s.jobs.find? id with
  | none => simp
  | some job => simp

/-- What is known of a job that the opening has been through with. -/
lemma Resumed.job (h : s.Resumed around order m) {job : IngestionJob}
    (hjob : s.jobs.find? id = some job) : ∃ next, m.jobs.find? id = some next ∧
      job.SameIdentity next ∧ (job.Sound → next.Sound) := by
  rw [h.jobs,hjob]
  split_ifs
  · exact ⟨_,rfl,settled_same s around job,settled_sound s around⟩
  · exact ⟨job,rfl,IngestionJob.SameIdentity.refl job,fun hsound => hsound⟩

/-- A job of the resumed coordinator was there before. -/
lemma Resumed.origin (h : s.Resumed around order m) {next : IngestionJob}
    (hnext : m.jobs.find? id = some next) : ∃ job, s.jobs.find? id = some job ∧
      job.SameIdentity next ∧ (job.Sound → next.Sound) := by
  cases hjob : s.jobs.find? id with
  | none =>
    rw [h.jobs,hjob,Option.map_none,ite_self] at hnext
    cases hnext
  | some job =>
    obtain ⟨next',hnext',hsame⟩ := h.job hjob
    cases hnext.symm.trans hnext'
    exact ⟨job,rfl,hsame⟩

/-- Going through the jobs keeps the coordinator well formed. -/
theorem Resumed.wf (hr : s.Resumed around order m) (h : s.Wf) (hqueue : s.queue = [])
    (hidle : s.executing = ∅) (hnodup : order.Nodup) : m.Wf := by
  constructor
  · exact hr.keyed h.keyed
  · intro document id hlatest
    rw [hr.latestJob] at hlatest
    obtain ⟨job,hjob,hdocument,hrevision⟩ := h.latest document id hlatest
    obtain ⟨next,hnext,hsame,-⟩ := hr.job hjob
    refine ⟨next,hnext,hsame.document.trans hdocument,?_⟩
    rw [hr.latestRevision,hrevision,hsame.revision]
  · intro document revision hlisted
    rw [hr.latestRevision] at hlisted
    rw [hr.latestJob]
    exact h.listed document revision hlisted
  · intro id next hnext
    obtain ⟨job,hjob,hsame,-⟩ := hr.origin hnext
    rw [hr.revisionOf,hsame.revision,hsame.document]
    exact h.bounded id job hjob
  · intro id next hnext
    obtain ⟨job,hjob,-,hsound⟩ := hr.origin hnext
    exact hsound (h.jobs id job hjob)
  · intro x hx
    rw [hr.frames] at hx
    obtain hx | hx := List.mem_append.mp hx
    · exact h.frames x hx
    · obtain ⟨id,-,job,hjob,-,rfl⟩ := mem_rewritten hx
      exact settled_sound s around (h.jobs id job hjob)
  · intro id progress hprogress
    rw [hr.executing,hidle] at hprogress
    split_ifs at hprogress with hwaits
    · cases hprogress
      obtain ⟨job,hjob,-⟩ := waits_eq_true.mp hwaits.2
      obtain ⟨next,hnext,-⟩ := hr.job hjob
      exact ⟨next,hnext,trivial⟩
    · cases hprogress
  · rw [hr.queue,hqueue]
    exact hnodup.filter _
  · intro id hid
    rw [hr.queue,hqueue] at hid
    obtain ⟨job,hjob,-,-,hupsert⟩ := waits_eq_true.mp (List.mem_filter.mp hid).2
    obtain ⟨next,hnext,-⟩ := hr.job hjob
    refine ⟨?_,next,hnext⟩
    rw [hr.executing,hidle,if_neg]
    · rfl
    · rintro ⟨-,hwaits⟩
      obtain ⟨job',hjob',-,-,herase⟩ := waits_eq_true.mp hwaits
      cases hjob.symm.trans hjob'
      rw [hupsert] at herase
      cases herase

end

/-- The coordinator on a log and a backend, before anything is replayed. -/
def load (store : JobStore) (backend : CatalogBackend) : Coordinator :=
  ((latestJobs store.frames).values.insertionSort OldestFirst).foldl remember
    { start backend with store := store }

/-- The jobs that an opening replays. -/
def replayed (frames : List IngestionJob) (order : List JobId) : List IngestionJob :=
  (activeReady (latestJobs frames) order).values.insertionSort ReplayOrder

lemma load_loaded {store : JobStore} (backend : CatalogBackend)
    (hsound : ∀ x ∈ store.frames, x.Sound) :
    (load store backend).Loaded store.frames backend ∧ (load store backend).store = store := by
  have hperm := List.perm_insertionSort OldestFirst (latestJobs store.frames).values
  have hnodup := (hperm.map IngestionJob.id).nodup_iff.mpr (latestJobs_values_nodup store.frames)
  obtain ⟨⟨hwf,hjobs,hbackend,hidle,hqueue⟩,hstore⟩ := loaded_remember backend hsound
    ((latestJobs store.frames).values.insertionSort OldestFirst) (by
      intro x hx
      obtain ⟨id,hid⟩ := OrdMap.mem_values.mp (hperm.mem_iff.mp hx)
      exact hsound x (latestJobs_mem hid).1) hnodup
  exact ⟨⟨hwf,by rw [load,hjobs,latestJobs_sorted],hbackend,hidle,hqueue⟩,hstore⟩

end Coordinator

lemma JobStore.openFile_cases {frameSize : IngestionJob → ℕ} {frames : List IngestionJob}
    {store : JobStore} (h : openFile frameSize frames = .ok store) :
    frames.length ≤ Store.kMaxWalRecords ∧ store = ⟨frames,totalSize frameSize frames⟩ := by
  unfold openFile at h
  by_cases hcount : frames.length > Store.kMaxWalRecords
  · rw [if_pos hcount] at h
    cases h
  · rw [if_neg hcount] at h
    cases h
    exact ⟨not_lt.mp hcount,rfl⟩

/-- What has been opened can be loaded. -/
lemma JobStore.openFile_loadLatest {frameSize : IngestionJob → ℕ} {frames : List IngestionJob}
    {store : JobStore} (h : openFile frameSize frames = .ok store) :
    store.loadLatest = .ok ((latestJobs store.frames).values.insertionSort OldestFirst) := by
  obtain ⟨hcount,rfl⟩ := openFile_cases h
  exact if_neg (not_lt.mpr hcount)

namespace Process
open Coordinator

/-- An opening that succeeds has replayed the ready jobs and been through the open ones; one that
fails may have written a part of what it writes. -/
theorem reopen_cases (cfg : EmbeddedRuntimeConfig) {disk : Disk} {around : Opening}
    (hsound : ∀ x ∈ disk.frames, x.Sound)
    (horder : around.order.Perm (latestJobs disk.frames).keys) :
    (∃ backend replaced store t, openBackend disk.checkpoint around.restored = .ok backend ∧
      JobStore.openFile cfg.coordinator.frameSize disk.frames = .ok store ∧
      replayAll around.built (replayed disk.frames around.order) backend = .ok replaced ∧
      { load store backend with backend := replaced }.Resumed around around.order t ∧
      reopen cfg disk around = .running ⟨disk.checkpoint,t,∅⟩) ∨
    ∃ extra, reopen cfg disk around = .stopped ⟨disk.checkpoint,disk.frames ++ extra⟩ ∧
      (extra = [] ∨ ∃ store backend, store.frames = disk.frames ∧
        extra <+: (load store backend).rewritten around around.order) := by
  unfold reopen
  cases hbackend : openBackend disk.checkpoint around.restored with
  | error e => exact Or.inr ⟨[],by simp,Or.inl rfl⟩
  | ok backend =>
    cases hstore : JobStore.openFile cfg.coordinator.frameSize disk.frames with
    | error e => exact Or.inr ⟨[],by simp,Or.inl rfl⟩
    | ok store =>
      have hlatest := JobStore.openFile_loadLatest hstore
      have hframes : store.frames = disk.frames := by rw [(JobStore.openFile_cases hstore).2]
      have hsound' : ∀ x ∈ store.frames, x.Sound := by rw [hframes]; exact hsound
      obtain ⟨hloaded,hsame⟩ := load_loaded backend hsound'
      dsimp only
      unfold recover
      simp only [hlatest]
      rw [show ((latestJobs store.frames).values.insertionSort OldestFirst).foldl remember
        { start backend with store := store } = load store backend from rfl]
      have hreplayed : (activeReady (load store backend).jobs around.order).values.insertionSort
          ReplayOrder = replayed disk.frames around.order := by
        rw [replayed,hloaded.jobs,hframes]
      rw [hreplayed,hloaded.backend]
      cases hreplay : replayAll around.built (replayed disk.frames around.order) backend with
      | error e =>
        exact Or.inr ⟨[],by simp [hsame,hframes],Or.inl rfl⟩
      | ok replaced =>
        dsimp only
        have hresumes : Resumes { load store backend with backend := replaced } around around.order
            (resume cfg.coordinator around around.order
              { load store backend with backend := replaced }) :=
          resume_resumes cfg.coordinator hloaded.wf.keyed
            (horder.nodup_iff.mpr (latestJobs disk.frames).keys_nodup)
        revert hresumes
        generalize resume cfg.coordinator around around.order
          { load store backend with backend := replaced } = called
        obtain ⟨e | u,t⟩ := called
        · rintro ⟨⟨extra,hbegins,hwritten⟩,-⟩
          refine Or.inr ⟨extra,?_,Or.inr ⟨store,backend,hframes,hbegins⟩⟩
          dsimp only at hwritten ⊢
          rw [hwritten,hsame,hframes]
        · rintro ⟨-,hok⟩
          exact Or.inl ⟨backend,replaced,store,t,rfl,rfl,hreplay,hok rfl,rfl⟩

end Process
end RagRuntime.Ingestion
