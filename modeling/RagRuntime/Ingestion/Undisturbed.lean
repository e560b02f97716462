import RagRuntime.Ingestion.Standstill

/-! Logs that an opening can take up without changing what is active. -/
namespace RagRuntime.Ingestion
open RagRuntime.Base RagRuntime.Core RagRuntime.Backend

/-- An open job of the log that is the newest of its document. -/
structure PendingIn (frames : List IngestionJob) (job : IngestionJob) : Prop where
  listed : (latestJobs frames).find? job.id = some job
  opened : terminal job.status = false
  newest : ∀ id other, (latestJobs frames).find? id = some other →
    other.input.document = job.input.document → other.revision ≤ job.revision

/-- The job has been applied, or it erases what is not there. -/
def Harmless (b : CatalogBackend) (job : IngestionJob) : Prop :=
  b.view job.input.document = some (job.revision,job.effect) ∨
    job.effect = none ∧ b.documents.find? job.input.document = none ∧
      b.view.Ahead job.input.document job.revision

/-- No job of the log can change what is active. -/
structure Undisturbed (cfg : CoordinatorConfig) (b : CatalogBackend) (frames : List IngestionJob) :
    Prop where
  readable : frames.length ≤ Store.kMaxWalRecords
  replayed : ∀ job, Newest frames job → Harmless b job
  pending : ∀ job, PendingIn frames job → (∀ ready, ReadyIn frames ready →
    ready.input.document = job.input.document → ready.revision < job.revision) →
      Powerless cfg b job

section
variable {b c : CatalogBackend} {job : IngestionJob} {jobs : List IngestionJob}
  {built : JobId → Result Unit}

lemma Harmless.replayable (h : Harmless b job) :
    b.view.Ahead job.input.document job.revision ∨
      b.view job.input.document = some (job.revision,job.effect) :=
  h.elim Or.inr fun h => Or.inl h.2.2

lemma Harmless.congr (h : Harmless b job)
    (hview : c.view job.input.document = b.view job.input.document)
    (hdocuments : c.documents = b.documents) : Harmless c job := by
  unfold Harmless Versioned.Ahead at *
  rwa [hview,hdocuments]

/-- A document that has been applied has not to be applied again. -/
lemma Harmless.not_ahead (h : Harmless b job) (heffect : job.effect ≠ none) :
    ¬b.view.Ahead job.input.document job.revision := by
  obtain hshown | ⟨hnone,-⟩ := h
  · exact Versioned.Reaches.not_ahead ⟨job.revision,_,hshown,le_rfl⟩
  · exact absurd hnone heffect

/-- Replaying a harmless job leaves the active documents as they are. -/
lemma Harmless.replay (h : Harmless b job) (hsound : job.Sound) (hready : job.status = .ready)
    {outcome : Result Unit} (hok : job.replay b outcome = .ok c) : c.documents = b.documents := by
  unfold IngestionJob.replay at hok
  cases hop : job.operation with
  | erase =>
    simp only [hop] at hok
    have herased := b.erase_erased job.input.document job.revision outcome
    cases hcall : b.erase job.input.document job.revision outcome with
    | mk result backend =>
      rw [hcall] at hok herased
      cases result with
      | error e => cases hok
      | ok applied =>
        cases hok
        cases herased with
        | already hlatest hgone => rfl
        | published hdocument hrevision hfresh =>
          obtain hshown | ⟨-,hgone,-⟩ := h
          · have hahead := CatalogBackend.ahead_iff.mpr hfresh
            exact absurd hahead (Versioned.Reaches.not_ahead ⟨job.revision,_,hshown,le_rfl⟩)
          · exact OrdMap.erase_of_find?_eq_none hgone
  | upsert =>
    obtain ⟨prepared,hprepared,-,hprepares⟩ := hsound.prepared hready hop
    simp only [hop,hprepared] at hok
    have hactivated := b.activate_activated prepared job.revision outcome
    cases hcall : b.activate prepared job.revision outcome with
    | mk result backend =>
      rw [hcall] at hok hactivated
      cases result with
      | error e => cases hok
      | ok u =>
        cases hok
        cases hactivated with
        | already hvalid halready => rfl
        | published hvalid hrevision hfresh =>
          have hahead := CatalogBackend.ahead_iff.mpr hfresh
          rw [hprepares.key] at hahead
          exact absurd hahead (h.not_ahead (by simp [IngestionJob.effect,hop]))

lemma replayAll_harmless (h : Replayable jobs) (hb : b.Coherent)
    (hharmless : ∀ job ∈ jobs, Harmless b job) (hok : replayAll built jobs b = .ok c) :
    c.documents = b.documents := by
  induction jobs generalizing b with
  | nil =>
    cases hok
    rfl
  | cons job rest ih =>
    obtain ⟨next,hnext,hrest⟩ := replayAll_cons.mp hok
    have hsound := h.sound job List.mem_cons_self
    have hready := h.ready job List.mem_cons_self
    have hsame := (hharmless job List.mem_cons_self).replay hsound hready hnext
    refine (ih h.tail (hsound.replay hready hb hnext).coherent (fun other hother => ?_) hrest).trans
      hsame
    exact (hharmless other (List.mem_cons_of_mem _ hother)).congr
      (hsound.replay_frame hready hb hnext (h.head_ne hother)).2 hsame

/-- What has been replayed without changing what is active is harmless. -/
lemma Replays.harmless (h : Replays jobs b c) (hb : b.Coherent) (hsame : c.documents = b.documents)
    (hjob : job ∈ jobs) (hreplayable : b.view.Ahead job.input.document job.revision ∨
      b.view job.input.document = some (job.revision,job.effect)) : Harmless b job := by
  obtain hahead | hshown := hreplayable
  · have hafter := h.shown job hjob
    cases heffect : job.effect with
    | none =>
      rw [heffect] at hafter
      refine Or.inr ⟨heffect,?_,hahead⟩
      rw [← hsame]
      exact CatalogBackend.absent_of_view hafter
    | some hash =>
      rw [heffect] at hafter
      obtain ⟨prepared,hactive,-⟩ := h.coherent.active hafter
      rw [hsame] at hactive
      obtain ⟨x,hx⟩ := CatalogBackend.latest_eq_some.mp (hb.documents _ _ hactive).2.2
      exact absurd (hahead job.revision x hx) (lt_irrefl _)
  · exact Or.inl hshown

end

namespace Coordinator
variable {frames : List IngestionJob} {b : CatalogBackend} {s t : Coordinator} {job : IngestionJob}
  {around : Opening} {order : List JobId}

/-- What is current after loading a log. -/
lemma Loaded.current_iff (h : s.Loaded frames b) {id : JobId} (hjob : s.jobs.find? id = some job) :
    s.revisionOf job.input.document = job.revision ↔
      ∀ id other, (latestJobs frames).find? id = some other →
        other.input.document = job.input.document → other.revision ≤ job.revision := by
  constructor
  · intro hcurrent id other hother hdocument
    rw [← hcurrent,← hdocument]
    exact h.wf.bounded id other (h.jobs ▸ hother)
  · intro hnewest
    apply le_antisymm
    · unfold revisionOf
      cases hlisted : s.latestRevision.find? job.input.document with
      | none => exact Nat.zero_le _
      | some revision =>
        obtain ⟨latest,hlatest⟩ := h.wf.listed _ _ hlisted
        obtain ⟨x,hx,hdocument,hrevision⟩ := h.wf.latest _ _ hlatest
        cases hlisted.symm.trans hrevision
        exact hnewest latest x (h.jobs ▸ hx) hdocument
    · exact h.wf.bounded id job hjob

lemma settled_eq_reopened (hopen : terminal job.status = false)
    (hcurrent : s.revisionOf job.input.document = job.revision) :
    s.settled around job = job.reopened true (around.now job.id) := by
  simp [Coordinator.settled,hopen,hcurrent]

/-- A job that lives on after an opening was open and the newest of its document. -/
lemma Resumed.live (h : s.Resumed around order t) (hidle : s.executing = ∅) (hqueue : s.queue = [])
    {id : JobId} {next : IngestionJob} (hid : id ∈ order) (hnext : t.jobs.find? id = some next)
    (hlive : t.Live id next) : ∃ job, s.jobs.find? id = some job ∧
      terminal job.status = false ∧ s.revisionOf job.input.document = job.revision ∧
      next = s.settled around job := by
  rw [h.jobs,if_pos hid] at hnext
  obtain ⟨job,hjob,rfl⟩ := Option.map_eq_some_iff.mp hnext
  have hwaits : ∀ operation, s.waits operation id = true →
      terminal job.status = false ∧ s.revisionOf job.input.document = job.revision := by
    intro operation hwaits
    obtain ⟨x,hx,hopen,hcurrent,-⟩ := waits_eq_true.mp hwaits
    cases hjob.symm.trans hx
    exact ⟨hopen,hcurrent⟩
  refine ⟨job,hjob,and_assoc.mp ⟨?_,rfl⟩⟩
  obtain hopen | ⟨progress,hprogress⟩ | hqueued := hlive
  · unfold Coordinator.settled at hopen
    split_ifs at hopen with hclosed
    · rw [hclosed] at hopen
      cases hopen
    · refine ⟨Bool.eq_false_of_not_eq_true hclosed,?_⟩
      by_contra hnot
      simp [IngestionJob.reopened,hnot] at hopen
  · rw [h.executing,hidle] at hprogress
    split_ifs at hprogress with hwaiting
    · exact hwaits .erase hwaiting.2
    · cases hprogress
  · rw [h.queue,hqueue,List.nil_append] at hqueued
    exact hwaits .upsert (List.mem_filter.mp hqueued).2

/-- When all writes are acknowledged, nothing stops an opening at the jobs. -/
lemma resume_ok (cfg : CoordinatorConfig) (hsaved : ∀ id, around.saved id = .synced)
    (order : List JobId) (s : Coordinator) : (resume cfg around order s).1 = .ok () := by
  induction order generalizing s with
  | nil => rfl
  | cons id order ih =>
    unfold resume
    cases s.jobs.find? id with
    | none => exact ih s
    | some job =>
      dsimp only
      split_ifs
      · exact ih s
      all_goals simp only [hsaved,persist,JobStore.persist,ih]

lemma foldl_remember_stopping (jobs : List IngestionJob) (s : Coordinator) :
    (jobs.foldl remember s).stopping = s.stopping := by
  induction jobs generalizing s with
  | nil => rfl
  | cons job jobs ih =>
    rw [List.foldl_cons,ih]
    obtain ⟨heq,-⟩ | ⟨heq,-⟩ := remember_cases s job
    · rw [heq]
      rfl
    · rw [heq]
      rfl

end Coordinator

/-- An opening in which nothing fails. -/
structure Opening.Favourable (around : Opening) (frames : List IngestionJob) : Prop where
  restored : around.restored = .ok ()
  built : ∀ id, around.built id = .ok ()
  saved : ∀ id, around.saved id = .synced
  order : around.order.Perm (latestJobs frames).keys

namespace Process
open Coordinator
variable {cfg : EmbeddedRuntimeConfig} {disk : Disk} {around : Opening} {b : CatalogBackend}

/-- What a favourable opening can still fail at. -/
lemma reopen_favourable (cfg : EmbeddedRuntimeConfig) (disk : Disk) {around : Opening}
    (hsound : ∀ x ∈ disk.frames, x.Sound)
    (h : around.Favourable disk.frames) : (∃ r, reopen cfg disk around = .running r) ↔
      disk.frames.length ≤ Store.kMaxWalRecords ∧ ∃ backend replaced,
        openBackend disk.checkpoint (.ok ()) = .ok backend ∧
        replayAll around.built (replayed disk.frames around.order) backend = .ok replaced := by
  constructor
  · rintro ⟨r,hr⟩
    obtain ⟨backend,replaced,store,t,hopen,hfile,hreplay,-⟩ | ⟨extra,hstopped,-⟩ :=
      reopen_cases cfg hsound h.order
    · rw [h.restored] at hopen
      exact ⟨(JobStore.openFile_cases hfile).1,backend,replaced,hopen,hreplay⟩
    · rw [hr] at hstopped
      cases hstopped
  · rintro ⟨hcount,backend,replaced,hopen,hreplay⟩
    obtain ⟨store,hfile⟩ : ∃ store, JobStore.openFile cfg.coordinator.frameSize disk.frames =
        .ok store := ⟨_,if_neg (not_lt.mpr hcount)⟩
    have hframes : store.frames = disk.frames := by rw [(JobStore.openFile_cases hfile).2]
    have hlatest := JobStore.openFile_loadLatest hfile
    obtain ⟨hloaded,-⟩ := load_loaded backend (by rw [hframes]; exact hsound)
    unfold reopen
    rw [h.restored,hopen,hfile]
    dsimp only
    unfold recover
    simp only [hlatest]
    rw [show ((latestJobs store.frames).values.insertionSort OldestFirst).foldl remember
      { start backend with store := store } = load store backend from rfl]
    have hreplayed : (activeReady (load store backend).jobs around.order).values.insertionSort
        ReplayOrder = replayed disk.frames around.order := by
      rw [replayed,hloaded.jobs,hframes]
    rw [hreplayed,hloaded.backend,hreplay]
    have hok := resume_ok cfg.coordinator h.saved around.order
      { load store backend with backend := replaced }
    revert hok
    dsimp only
    generalize resume cfg.coordinator around around.order _ = called
    obtain ⟨e | u,t⟩ := called
    · rintro ⟨⟩
    · exact fun _ => ⟨_,rfl⟩

/-- A log that has been replayed onto a catalog. -/
structure Replayed (b : CatalogBackend) (disk : Disk) (around : Opening) (c : CatalogBackend) :
    Prop where
  ok : replayAll around.built (replayed disk.frames around.order) b = .ok c
  replayable : Replayable (replayed disk.frames around.order)
  replays : Replays (replayed disk.frames around.order) b c

/-- A favourable opening that succeeds. -/
lemma reopen_running (hsound : ∀ x ∈ disk.frames, x.Sound) (hb : b.Coherent)
    (hopen : openBackend disk.checkpoint (.ok ()) = .ok b) (h : around.Favourable disk.frames)
    {r : EmbeddedRuntime} (hr : reopen cfg disk around = .running r) :
    ∃ store c, store.frames = disk.frames ∧ Replayed b disk around c ∧
      { load store b with backend := c }.Resumed around around.order r.coordinator := by
  obtain ⟨backend,c,store,t,hopen',hfile,hreplay,hresumed,hrunning⟩ | ⟨extra,hstopped,-⟩ :=
    reopen_cases cfg hsound h.order
  · rw [h.restored,hopen] at hopen'
    cases hopen'
    rw [hr] at hrunning
    cases hrunning
    have hreplayable := replayed_replayable hsound h.order
    exact ⟨store,c,by rw [(JobStore.openFile_cases hfile).2],
      ⟨hreplay,hreplayable,replayAll_replays hreplayable hb hreplay⟩,hresumed⟩
  · rw [hr] at hstopped
    cases hstopped

/-- A log that leaves the active documents alone leaves no job that could change them. -/
lemma still_of_undisturbed (hsound : ∀ x ∈ disk.frames, x.Sound) (hb : b.Coherent)
    (hopen : openBackend disk.checkpoint (.ok ()) = .ok b) (h : around.Favourable disk.frames)
    (hlog : Undisturbed cfg.coordinator b disk.frames) {r : EmbeddedRuntime}
    (hr : reopen cfg disk around = .running r) :
    r.coordinator.Still cfg.coordinator b.documents := by
  obtain ⟨store,c,hframes,⟨hreplay,hreplayable,hreplays⟩,hresumed⟩ :=
    reopen_running hsound hb hopen h hr
  obtain ⟨hloaded,-⟩ :=
    load_loaded b (show ∀ x ∈ store.frames, x.Sound by rw [hframes]; exact hsound)
  rw [hframes] at hloaded
  have hsame : c.documents = b.documents := replayAll_harmless hreplayable hb
    (fun job hjob => hlog.replayed job (mem_replayed h.order hjob)) hreplay
  have hbackend : r.coordinator.backend = c := hresumed.backend
  refine ⟨hresumed.wf (hloaded.wf.withBackend c) hloaded.queue hloaded.idle
    (h.order.nodup_iff.mpr (latestJobs disk.frames).keys_nodup),hbackend ▸ hreplays.coherent,
    hbackend ▸ hsame,?_,?_⟩
  · intro id next hnext hlive
    have hid : id ∈ around.order := by
      obtain ⟨job,hjob,-⟩ := hresumed.origin hnext
      have hjob : (load store b).jobs.find? id = some job := hjob
      rw [hloaded.jobs] at hjob
      exact h.order.mem_iff.mpr (OrdMap.mem_keys.mpr ⟨job,hjob⟩)
    obtain ⟨job,hjob,hopened,hcurrent,rfl⟩ :=
      hresumed.live hloaded.idle hloaded.queue hid hnext hlive
    have hjob : (load store b).jobs.find? id = some job := hjob
    have hkey := hloaded.wf.keyed id job hjob
    rw [hbackend]
    refine Powerless.follows ?_ ⟨settled_same _ around job,Or.inr
      ⟨hopened,settled_input _ around job⟩⟩
    intro hahead
    refine (Powerless.older (hlog.pending job
      ⟨?_,hopened,(hloaded.current_iff hjob).mp hcurrent⟩ ?_)
      hreplays.older hsame) hahead
    · rw [← hloaded.jobs,hkey]
      exact hjob
    · intro ready hready hdocument
      obtain ⟨found,hfound,hfoundDocument,hle⟩ := exists_replayed h.order hready
      have hshown := hreplays.shown found hfound
      rw [hfoundDocument,hdocument] at hshown
      exact hle.trans_lt (hahead found.revision _ hshown)
  · intro id progress job hprogress hjob
    rw [hresumed.executing] at hprogress
    split_ifs at hprogress
    · cases hprogress
      exact Or.inr trivial
    · have hidle : (load store b).executing.find? id = some progress := hprogress
      rw [hloaded.idle] at hidle
      cases hidle

/-- The opening and all that follows it without new submissions keep these documents. -/
def Keeps (cfg : EmbeddedRuntimeConfig) (disk : Disk) (documents : Catalog) : Prop :=
  ∀ around : Opening, around.Favourable disk.frames → ∃ r, reopen cfg disk around = .running r ∧
    ∀ actions : List Action, (∀ a ∈ actions, a.Quiet) → ∀ p,
      Machine.run (step cfg) (.running r) actions = some p →
        ∃ r', p = .running r' ∧ r'.coordinator.backend.documents = documents

theorem keeps_of_undisturbed (disk : Disk) (hsound : ∀ x ∈ disk.frames, x.Sound) (hb : b.Coherent)
    (hopen : openBackend disk.checkpoint (.ok ()) = .ok b)
    (hlog : Undisturbed cfg.coordinator b disk.frames) : Keeps cfg disk b.documents := by
  intro around h
  have hreplayable := replayed_replayable hsound h.order
  obtain ⟨c,hc⟩ := (replayAll_ok_iff hreplayable hb h.built).mpr fun job hjob =>
    (hlog.replayed job (mem_replayed h.order hjob)).replayable
  obtain ⟨r,hr⟩ := (reopen_favourable cfg _ hsound h).mpr ⟨hlog.readable,b,c,hopen,hc⟩
  refine ⟨r,hr,fun actions hquiet p hrun => ?_⟩
  obtain ⟨r',hp,hstill⟩ := still_run (still_of_undisturbed hsound hb hopen h hlog hr) hquiet hrun
  exact ⟨r',hp,hstill.documents⟩

/-- A thread stands at this place of an open job that is current. -/
structure Stands (s : Coordinator) (job : IngestionJob) (progress : Progress) : Prop where
  thread : s.executing.find? job.id = some progress
  record : ∃ x, s.jobs.find? job.id = some x ∧ job.SameIdentity x ∧ x.input = job.input ∧
    terminal x.status = false
  current : s.revisionOf job.input.document = job.revision

/-- By itself the process can get into a state that meets this. -/
def Leads (cfg : EmbeddedRuntimeConfig) (r : EmbeddedRuntime) (P : Coordinator → Prop) : Prop :=
  ∃ (actions : List Action) (r' : EmbeddedRuntime), (∀ a ∈ actions, a.Quiet) ∧
    Machine.run (step cfg) (.running r) actions = some (.running r') ∧ P r'.coordinator

section
variable {r : EmbeddedRuntime} {P Q : Coordinator → Prop} {job : IngestionJob}
  {progress next : Progress} {s : Coordinator}

lemma Leads.trans (h : Leads cfg r P) (hnext : ∀ r' : EmbeddedRuntime, P r'.coordinator →
    Leads cfg r' Q) :
    Leads cfg r Q := by
  obtain ⟨actions,r',hquiet,hrun,hP⟩ := h
  obtain ⟨more,r'',hmore,hrun',hQ⟩ := hnext r' hP
  refine ⟨actions ++ more,r'',fun a ha => (List.mem_append.mp ha).elim (hquiet a) (hmore a),?_,hQ⟩
  rw [Machine.run_append,hrun]
  exact hrun'

lemma leads_execute {id : JobId} (hid : r.coordinator.executing.find? id = some progress)
    (around : Surroundings)
    (h : P (r.coordinator.execute cfg.coordinator id around progress)) : Leads cfg r P := by
  refine ⟨[.coordinate (.execute id around)],
    { r with coordinator := r.coordinator.execute cfg.coordinator id around progress },?_,?_,h⟩
  · intro a ha
    cases List.mem_singleton.mp ha
    trivial
  · simp [Machine.run,step,Coordinator.step,hid]

/-- A worker takes the first job of the queue. -/
lemma leads_takeFirst {id : JobId} {queue : List JobId} (hqueue : r.coordinator.queue = id::queue)
    (hstopping : r.coordinator.stopping = false) (hwf : r.coordinator.Wf)
    (h : ({ r.coordinator with queue := queue }.setProgress id .entered).Wf →
      P ({ r.coordinator with queue := queue }.setProgress id .entered)) : Leads cfg r P := by
  have hstep : r.coordinator.step cfg.coordinator .take =
      some ({ r.coordinator with queue := queue }.setProgress id .entered) := by
    simp [Coordinator.step,hqueue,hstopping]
  refine ⟨[.coordinate .take],{ r with coordinator :=
    { r.coordinator with queue := queue }.setProgress id .entered },?_,?_,h (step_wf hwf hstep)⟩
  · intro a ha
    cases List.mem_singleton.mp ha
    trivial
  · simp [Machine.run,step,hstep]

/-- A job moves up in the queue until a worker takes it. -/
lemma leads_take {id : JobId} {pre post : List JobId}
    (hqueue : r.coordinator.queue = pre ++ id::post)
    (hstopping : r.coordinator.stopping = false) (hwf : r.coordinator.Wf)
    (h : ∀ s : Coordinator, s.Wf → s.jobs = r.coordinator.jobs →
      s.latestRevision = r.coordinator.latestRevision → s.backend = r.coordinator.backend →
      s.executing.find? id = some .entered → P s) : Leads cfg r P := by
  induction pre generalizing r with
  | nil =>
    refine leads_takeFirst hqueue hstopping hwf fun hwf => h _ hwf rfl rfl rfl ?_
    simp [setProgress]
  | cons first pre ih =>
    have htaken : Leads cfg r fun s => s.Wf ∧ s = { r.coordinator with
        queue := pre ++ id::post }.setProgress first .entered :=
      leads_takeFirst hqueue hstopping hwf fun hwf => ⟨hwf,rfl⟩
    refine htaken.trans fun r' hr' => ih (by rw [hr'.2]; rfl)
      (by rw [hr'.2]; exact hstopping) hr'.1 ?_
    intro s hwf hjobs hrevisions hbackend hid
    exact h s hwf (by rw [hjobs,hr'.2]; rfl) (by rw [hrevisions,hr'.2]; rfl)
      (by rw [hbackend,hr'.2]; rfl) hid

/-- What the surroundings answer when nothing fails. -/
def kindly (embed : List Bytes → Result (List Vec)) : Surroundings := ⟨0,.synced,none,embed,.ok ()⟩

variable {embed : List Bytes → Result (List Vec)}

lemma stands_setProgress (h : Stands s job progress) (next : Progress) :
    Stands (s.setProgress job.id next) job next :=
  ⟨by simp [setProgress],h.record,h.current⟩

/-- A transition to an open status succeeds. -/
lemma stands_advance (cfg : CoordinatorConfig)
    (hkeyed : ∀ id x, s.jobs.find? id = some x → x.id = id)
    (h : Stands s job progress) {change : Change} (hopen : terminal change.status = false)
    (next : Progress) :
    Stands (s.advance cfg job.id change (some next) (kindly embed)) job next ∧
      (s.advance cfg job.id change (some next) (kindly embed)).backend = s.backend := by
  obtain ⟨x,hx,hsame,hinput,hxopen⟩ := h.record
  have hcurrent : s.revisionOf x.input.document = x.revision := by
    rw [hsame.document,hsame.revision]
    exact h.current
  have hid := hkeyed _ x hx
  have happlied := apply_same change x 0
  have hadvance : s.advance cfg job.id change (some next) (kindly embed) =
      ({ s with store := (s.store.persist cfg.frameSize (change.apply x 0) .synced).2 }.setJob
        (change.apply x 0)).setProgress job.id next := by
    simp only [advance,transition,hx,hxopen,hcurrent,kindly,persist,JobStore.persist,proceed,
      Bool.false_eq_true,if_false,decide_true,if_true]
  rw [hadvance]
  refine ⟨⟨by simp [setProgress],⟨change.apply x 0,?_,hsame.trans happlied,?_,?_⟩,h.current⟩,rfl⟩
  · simp [setProgress,setJob,happlied.id,hid]
  · rw [apply_input_of_open change x 0 (by rw [apply_status]; exact hopen),hinput]
  · rw [apply_status]
    exact hopen

/-- A thread that nothing has disturbed. -/
structure Poised (b : CatalogBackend) (job : IngestionJob) (progress : Progress) (s : Coordinator) :
    Prop where
  wf : s.Wf
  stands : Stands s job progress
  backend : s.backend = b

/-- One step of the thread. -/
lemma Poised.leads (h : Poised b job progress r.coordinator) (around : Surroundings)
    (hP : (r.coordinator.execute cfg.coordinator job.id around progress).Wf →
      P (r.coordinator.execute cfg.coordinator job.id around progress)) : Leads cfg r P := by
  refine leads_execute h.stands.thread around (hP ?_)
  apply step_wf h.wf (show r.coordinator.step cfg.coordinator (.execute job.id around) =
    some _ from _)
  simp [Coordinator.step,h.stands.thread]

/-- A step that writes a record. -/
lemma Poised.advances (h : Poised b job progress r.coordinator) {change : Change}
    (embed : List Bytes → Result (List Vec)) (hopen : terminal change.status = false)
    (next : Progress)
    (hstep : r.coordinator.execute cfg.coordinator job.id (kindly embed) progress =
      r.coordinator.advance cfg.coordinator job.id change (some next) (kindly embed)) :
    Leads cfg r (Poised b job next) := by
  refine h.leads (kindly embed) fun hwf => ?_
  rw [hstep] at hwf ⊢
  obtain ⟨hstands,hbackend⟩ := stands_advance cfg.coordinator h.wf.keyed h.stands hopen next
  exact ⟨hwf,hstands,hbackend.trans h.backend⟩

/-- A step that only moves on. -/
lemma Poised.moves (h : Poised b job progress r.coordinator) (around : Surroundings)
    (next : Progress) (hstep : r.coordinator.execute cfg.coordinator job.id around progress =
      r.coordinator.setProgress job.id next) : Leads cfg r (Poised b job next) := by
  refine h.leads around fun hwf => ?_
  rw [hstep] at hwf ⊢
  exact ⟨hwf,stands_setProgress h.stands next,h.backend⟩

/-- An open deletion is carried out. -/
lemma leads_erased (h : Poised b job .entered r.coordinator) (hop : job.operation = .erase)
    (hkey : job.input.document ≠ []) (hrevision : job.revision ≠ 0)
    (hahead : b.view.Ahead job.input.document job.revision) :
    Leads cfg r fun s => s.backend.documents.find? job.input.document = none := by
  refine (h.moves (kindly fun _ => .ok []) .toErasing ?_).trans fun r h => ?_
  · obtain ⟨x,hx,hsame,-,hopen⟩ := h.stands.record
    simp [Coordinator.execute,hx,hopen,hsame.operation,hop]
  refine (h.advances (fun _ => .ok []) rfl .erasing rfl).trans fun r h => ?_
  refine h.leads (kindly fun _ => .ok []) fun _ => ?_
  obtain ⟨x,hx,hsame,-⟩ := h.stands.record
  have hfresh := CatalogBackend.ahead_iff.mp hahead
  simp [Coordinator.execute,hx,hsame.document,hsame.revision,h.backend,CatalogBackend.erase,hkey,
    hrevision,hfresh,kindly,CatalogBackend.publish,setProgress]

/-- An open upsert is carried out. -/
lemma leads_activated (h : Poised b job .entered r.coordinator) (hop : job.operation = .upsert)
    (hrevision : job.revision ≠ 0) {prepared : PreparedDocument}
    (hprepared : job.PreparedAs cfg.coordinator prepared) (hvalid : ValidDocument prepared)
    (hkey : prepared.key = job.input.document)
    (hahead : b.view.Ahead job.input.document job.revision) :
    Leads cfg r fun s => s.backend.documents.find? job.input.document =
      some ⟨job.revision,prepared⟩ := by
  obtain ⟨embed,chunked,hchunked,hembedded⟩ := hprepared.split
  refine (h.moves (kindly embed) .toChunking ?_).trans fun r h => ?_
  · obtain ⟨x,hx,hsame,-,hopen⟩ := h.stands.record
    simp [Coordinator.execute,hx,hopen,hsame.operation,hop]
  refine (h.advances embed rfl .preparing rfl).trans fun r h => ?_
  refine (h.moves (kindly embed) (.toEmbedding chunked) ?_).trans fun r h => ?_
  · obtain ⟨x,hx,-,hinput,-⟩ := h.stands.record
    unfold IngestionJob.ChunkedAs at hchunked
    simp [Coordinator.execute,hx,hinput,hchunked]
  refine (h.advances embed rfl (.embedding chunked) rfl).trans fun r h => ?_
  refine (h.moves (kindly embed) (.toPublishing prepared) ?_).trans fun r h => ?_
  · obtain ⟨hnone,rfl⟩ | ⟨embedder,hsome,hembedded⟩ := hembedded
    · simp [Coordinator.execute,hnone]
    · simp [Coordinator.execute,hsome,kindly,hembedded]
  refine (h.advances embed rfl (.activating prepared) rfl).trans fun r h => ?_
  refine h.leads (kindly embed) fun _ => ?_
  obtain ⟨x,hx,hsame,-,hopen⟩ := h.stands.record
  have hfresh := CatalogBackend.ahead_iff.mp hahead
  have hcurrent := h.stands.current
  simp [Coordinator.execute,hx,hopen,hsame.document,hsame.revision,hcurrent,h.backend,
    CatalogBackend.activate,validate_eq_ok.mpr ⟨hvalid,hrevision⟩,hfresh,kindly,
    CatalogBackend.publish,setProgress,hkey]

end

lemma smooth_favourable {frames : List IngestionJob} {order : List JobId}
    (h : order.Perm (latestJobs frames).keys) : (Chronicle.smooth order).Favourable frames :=
  ⟨rfl,fun _ => rfl,fun _ => rfl,h⟩

section
variable {c : CatalogBackend} {job : IngestionJob} {r : EmbeddedRuntime} {store : JobStore}

/-- A job that is newer than the ready ones is as much ahead as before. -/
lemma Replayed.ahead (h : Replayed b disk around c)
    (horder : around.order.Perm (latestJobs disk.frames).keys)
    (hbefore : ∀ ready, ReadyIn disk.frames ready →
      ready.input.document = job.input.document → ready.revision < job.revision)
    (hahead : b.view.Ahead job.input.document job.revision) :
    c.view.Ahead job.input.document job.revision := by
  by_cases hready : ∃ x ∈ replayed disk.frames around.order, x.input.document = job.input.document
  · obtain ⟨x,hx,hdocument⟩ := hready
    have hshown := h.replays.shown x hx
    intro revision y hy
    rw [← hdocument,hshown] at hy
    cases hy
    exact hbefore x (mem_replayed horder hx).1 hdocument
  · have hview := (h.replays.others job.input.document fun x hx hdocument =>
      hready ⟨x,hx,hdocument⟩).2
    unfold Versioned.Ahead
    rwa [hview]

/-- What the opening makes of a pending job. -/
lemma pending_resumed (hsound : ∀ x ∈ disk.frames, x.Sound) (hframes : store.frames = disk.frames)
    (horder : around.order.Perm (latestJobs disk.frames).keys) (hjob : PendingIn disk.frames job)
    (hresumed : { load store b with backend := c }.Resumed around around.order r.coordinator) :
    r.coordinator.Wf ∧ r.coordinator.backend = c ∧ r.coordinator.stopping = false ∧
      (∃ x, r.coordinator.jobs.find? job.id = some x ∧ job.SameIdentity x ∧ x.input = job.input ∧
        terminal x.status = false) ∧
      r.coordinator.revisionOf job.input.document = job.revision ∧
      (job.operation = .erase → r.coordinator.executing.find? job.id = some .entered) ∧
      (job.operation = .upsert → job.id ∈ r.coordinator.queue) := by
  obtain ⟨hloaded,-⟩ :=
    load_loaded b (show ∀ x ∈ store.frames, x.Sound by rw [hframes]; exact hsound)
  rw [hframes] at hloaded
  have hlisted : (load store b).jobs.find? job.id = some job := by
    rw [hloaded.jobs]
    exact hjob.listed
  have hmem : job.id ∈ around.order := horder.mem_iff.mpr (OrdMap.mem_keys.mpr ⟨job,hjob.listed⟩)
  have hcurrent := (hloaded.current_iff hlisted).mpr hjob.newest
  have hwaits : ∀ operation, job.operation = operation →
      { load store b with backend := c }.waits operation job.id = true := fun operation hop =>
    waits_eq_true.mpr ⟨job,hlisted,hjob.opened,hcurrent,hop⟩
  refine ⟨hresumed.wf (hloaded.wf.withBackend c) hloaded.queue hloaded.idle
    (horder.nodup_iff.mpr (latestJobs disk.frames).keys_nodup),hresumed.backend,?_,?_,?_,?_,?_⟩
  · rw [hresumed.stopping]
    exact foldl_remember_stopping _ _
  · refine ⟨_,by rw [hresumed.jobs,if_pos hmem]; exact congrArg _ hlisted,settled_same _ around job,
      settled_input _ around job,?_⟩
    have hsettled : ({ load store b with backend := c } : Coordinator).settled around job =
        job.reopened true (around.now job.id) := settled_eq_reopened hjob.opened hcurrent
    rw [hsettled,IngestionJob.reopened_status]
    rfl
  · rw [hresumed.revisionOf]
    exact hcurrent
  · intro hop
    rw [hresumed.executing,if_pos ⟨hmem,hwaits .erase hop⟩]
  · intro hop
    rw [hresumed.queue]
    exact List.mem_append_right _ (List.mem_filter.mpr ⟨hmem,hwaits .upsert hop⟩)

end

/-- A log that can be taken up without changing what is active is undisturbed. -/
theorem undisturbed_of_keeps (disk : Disk) (hsound : ∀ x ∈ disk.frames, x.Sound) (hb : b.Coherent)
    (hopen : openBackend disk.checkpoint (.ok ()) = .ok b) (h : Keeps cfg disk b.documents) :
    Undisturbed cfg.coordinator b disk.frames := by
  have hfavourable : (Chronicle.smooth (latestJobs disk.frames).keys).Favourable disk.frames :=
    smooth_favourable (List.Perm.refl _)
  obtain ⟨r,hr,hkeeps⟩ := h _ hfavourable
  refine ⟨((reopen_favourable cfg _ hsound hfavourable).mp ⟨r,hr⟩).1,?_,?_⟩
  · intro job hjob
    obtain ⟨order,horder,hmem⟩ := exists_order hjob
    have hfavourable := smooth_favourable horder
    obtain ⟨r,hr,hkeeps⟩ := h _ hfavourable
    obtain ⟨store,c,-,⟨hreplay,hreplayable,hreplays⟩,hresumed⟩ :=
      reopen_running hsound hb hopen hfavourable hr
    obtain ⟨r',hr',hsame⟩ := hkeeps [] (by simp) _ rfl
    cases hr'
    rw [show r.coordinator.backend = c from hresumed.backend] at hsame
    exact hreplays.harmless hb hsame hmem
      ((replayAll_ok_iff hreplayable hb fun _ => rfl).mp ⟨c,hreplay⟩ job hmem)
  · intro job hjob hbefore hahead
    obtain ⟨store,c,hframes,hreplayed,hresumed⟩ := reopen_running hsound hb hopen hfavourable hr
    obtain ⟨hwf,hbackend,hstopping,hrecord,hcurrent,herasing,hqueued⟩ :=
      pending_resumed hsound hframes hfavourable.order hjob hresumed
    have hstill := hreplayed.ahead hfavourable.order hbefore hahead
    have hjobSound := hsound job (latestJobs_mem hjob.listed).1
    have hdocuments : ∀ {P}, Leads cfg r P → ∃ s : Coordinator, P s ∧
        s.backend.documents = b.documents := by
      rintro P ⟨actions,r',hquiet,hrun,hP⟩
      obtain ⟨r'',hr'',hsame⟩ := hkeeps actions hquiet _ hrun
      cases hr''
      exact ⟨_,hP,hsame⟩
    cases hop : job.operation with
    | erase =>
      have hpoised : Poised c job .entered r.coordinator :=
        ⟨hwf,⟨herasing hop,hrecord,hcurrent⟩,hbackend⟩
      obtain ⟨s,hgone,hsame⟩ := hdocuments
        (leads_erased hpoised hop hjobSound.document hjobSound.revision hstill)
      rwa [hsame] at hgone
    | upsert =>
      intro _ prepared hprepared hvalid
      obtain ⟨pre,post,hqueue⟩ := List.append_of_mem (hqueued hop)
      have htaken : Leads cfg r (Poised c job .entered) := by
        refine leads_take hqueue hstopping hwf fun s hwf hjobs hrevisions hsame hid => ?_
        refine ⟨hwf,⟨hid,hjobs ▸ hrecord,?_⟩,hsame.trans hbackend⟩
        rw [← hcurrent,Coordinator.revisionOf,hrevisions]
        rfl
      have hkey := (hprepared.prepares hjobSound hop).key
      obtain ⟨s,hactive,hsame⟩ := hdocuments (htaken.trans fun r' hr' =>
        leads_activated hr' hop hjobSound.revision hprepared hvalid hkey hstill)
      rw [hsame] at hactive
      obtain ⟨x,hx⟩ := CatalogBackend.latest_eq_some.mp (hb.documents _ _ hactive).2.2
      exact absurd (hahead job.revision x hx) (lt_irrefl _)

end Process
end RagRuntime.Ingestion
