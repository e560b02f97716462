import RagRuntime.Base.Utf8
import RagRuntime.Ingestion.JobCodec
import RagRuntime.Ingestion.Threads

/-! What a failed job leaves in the log. Its error message is cut at a byte limit before it is
written, and the library refuses to write text that is not UTF-8. -/
namespace RagRuntime.Core.Json
open RagRuntime.Base RagRuntime.Text

/-- All strings in the value are UTF-8. -/
inductive Utf8 : Json → Prop
  | null : Utf8 .null
  | boolean (b : Bool) : Utf8 (.boolean b)
  | unsigned (n : ℕ) : Utf8 (.unsigned n)
  | integer (i : ℤ) : Utf8 (.integer i)
  | float (q : ℚ) : Utf8 (.float q)
  | string {s : Bytes} (h : ValidUtf8 s) : Utf8 (.string s)
  | array {items : List Json} (h : ∀ v ∈ items, Utf8 v) : Utf8 (.array items)
  | object {members : List (Bytes × Json)} (hkeys : ∀ e ∈ members, ValidUtf8 e.1)
    (h : ∀ e ∈ members, Utf8 e.2) : Utf8 (.object members)

lemma mem_ofMembers {l : List (Bytes × Json)} (hl : (l.map Prod.fst).Nodup) (e : Bytes × Json) :
    e ∈ (l.foldl (fun m e => m.emplace e.1 e.2) (∅ : OrdMap Bytes Json)).entries ↔ e ∈ l := by
  have hfind := find?_ofMembers (k := e.1) (v := e.2) hl
  rw [ofMembers,find?_object,OrdMap.find?_eq_some] at hfind
  exact hfind

lemma utf8_ofMembers {l : List (Bytes × Json)} (hl : (l.map Prod.fst).Nodup) :
    (ofMembers l).Utf8 ↔ ∀ e ∈ l, ValidUtf8 e.1 ∧ e.2.Utf8 := by
  constructor
  · intro h e he
    obtain hkeys | hvalues := h
    rename_i hkeys hvalues
    exact ⟨hkeys e ((mem_ofMembers hl e).mpr he),hvalues e ((mem_ofMembers hl e).mpr he)⟩
  · intro h
    exact .object (fun e he => (h e ((mem_ofMembers hl e).mp he)).1)
      fun e he => (h e ((mem_ofMembers hl e).mp he)).2

lemma utf8_ofInt (i : ℤ) : (ofInt i).Utf8 := by
  unfold ofInt
  split_ifs
  · exact .unsigned _
  · exact .integer _

lemma utf8_string {s : Bytes} : (string s).Utf8 ↔ ValidUtf8 s :=
  ⟨fun h => by cases h; assumption,.string⟩

end RagRuntime.Core.Json

namespace RagRuntime.Ingestion
open RagRuntime.Base RagRuntime.Core RagRuntime.Backend RagRuntime.Store RagRuntime.Text

/-- The record with which a job fails. -/
def IngestionJob.failedWith (job : IngestionJob) (e : Error) (now : ℤ) : IngestionJob :=
  ({ status := .failed, error := some (boundedError e) } : Coordinator.Change).apply job now

namespace JsonLibrary

/-- Exactly the values without broken text are written. -/
def Strict (lib : JsonLibrary) : Prop := ∀ v, (∃ text, lib.dump v = .ok text) ↔ v.Utf8

/-- What comes of writing a record to a file that can be written. -/
def saved (lib : JsonLibrary) (job : IngestionJob) : WriteOutcome :=
  match lib.dump (encode job) with
  | .error what => .refused ⟨.ioError,"job store append failed: " ++ what⟩
  | .ok payload =>
    if payload.length > kMaxWalRecordBytes ∨ payload.length > uint32Max then
      .refused ⟨.invalidArgument,"job record exceeds configured limit"⟩
    else .synced

/-- The text of the record is not too long for a frame. -/
def Small (lib : JsonLibrary) (job : IngestionJob) : Prop :=
  ∀ payload, lib.dump (encode job) = .ok payload → payload.length ≤ kMaxWalRecordBytes

end JsonLibrary

section
variable {lib : JsonLibrary} {job : IngestionJob} {e : Error} {now : ℤ}

lemma utf8_error (e : JobError) :
    (Json.ofMembers (errorMembers e)).Utf8 ↔ ValidUtf8 e.message := by
  have hkeys : ((errorMembers e).map Prod.fst).Nodup := by
    change (([("code" : String),"message"]).map latin).Nodup
    decide
  have hcode : ValidUtf8 (latin "code") := validUtf8_ascii (by decide +kernel)
  have hmessage : ValidUtf8 (latin "message") := validUtf8_ascii (by decide +kernel)
  rw [Json.utf8_ofMembers hkeys]
  simp only [errorMembers,List.forall_mem_cons,List.not_mem_nil,false_implies,implies_true,and_true,
    hcode,hmessage,true_and,Json.utf8_ofInt,Json.utf8_string]

/-- Failing changes none of the texts of a record but the content, which goes, and the message. -/
lemma utf8_failedWith (h : (encode job).Utf8) :
    (encode (job.failedWith e now)).Utf8 ↔ ValidUtf8 ((utf8 e.message).take kMaxErrorBytes) := by
  have hjob := (Json.utf8_ofMembers (members_nodup job)).mp h
  have hempty : ValidUtf8 [] := validUtf8_ascii (by decide +kernel)
  have hfixed : ∀ m ∈ fixedMembers (job.failedWith e now), ValidUtf8 m.1 ∧ m.2.Utf8 := by
    have hbefore : ∀ m ∈ fixedMembers job, ValidUtf8 m.1 ∧ m.2.Utf8 := fun m hm =>
      hjob m (List.mem_append_left _ hm)
    simp only [fixedMembers,List.forall_mem_cons,List.not_mem_nil,false_implies,implies_true,
      and_true] at hbefore ⊢
    obtain ⟨hversion,hid,hoperation,hdocument,htitle,⟨hcontent,-⟩,hmetadata,hrevision,hhash,
      ⟨hstatus,-⟩,hcreated,hupdated,-⟩ := hbefore
    exact ⟨hversion,hid,hoperation,hdocument,htitle,⟨hcontent,.string hempty⟩,
      hmetadata,hrevision,hhash,⟨hstatus,Json.utf8_ofInt _⟩,hcreated,hupdated,Json.utf8_ofInt _⟩
  have hoptional : optionalMembers (job.failedWith e now) =
      (latin "error",Json.ofMembers (errorMembers (boundedError e)))::
        (job.mutationApplied.map fun applied =>
          (latin "mutation_applied",Json.boolean applied)).toList := rfl
  have hname : ValidUtf8 (latin "error") := validUtf8_ascii (by decide +kernel)
  have happlied : ValidUtf8 (latin "mutation_applied") :=
    validUtf8_ascii (by decide +kernel)
  have herror := utf8_error (boundedError e)
  rw [encode,Json.utf8_ofMembers (members_nodup _),hoptional]
  constructor
  · intro hall
    exact herror.mp (hall _ (List.mem_append_right _ List.mem_cons_self)).2
  · intro hmessage m hm
    obtain hm | hm := List.mem_append.mp hm
    · exact hfixed m hm
    · obtain rfl | hm := List.mem_cons.mp hm
      · exact ⟨hname,herror.mpr hmessage⟩
      · obtain ⟨applied,-,rfl⟩ := Option.map_eq_some_iff.mp (Option.mem_toList.mp hm)
        exact ⟨happlied,.boolean applied⟩

lemma saved_ne_unsynced (lib : JsonLibrary) (job : IngestionJob) : lib.saved job ≠ .unsynced := by
  unfold JsonLibrary.saved
  split
  · exact WriteOutcome.noConfusion
  · split_ifs
    · exact WriteOutcome.noConfusion
    · exact WriteOutcome.noConfusion

/-- The record of a failed job is written exactly if its message is not cut inside a character. -/
lemma saved_failedWith (hlib : lib.Strict) (h : ∃ text, lib.dump (encode job) = .ok text)
    (hsmall : lib.Small (job.failedWith e now)) :
    lib.saved (job.failedWith e now) = .synced ↔ CutsBetween e.message kMaxErrorBytes := by
  rw [← validUtf8_take_iff,← utf8_failedWith ((hlib _).mp h),← hlib]
  unfold JsonLibrary.saved
  cases hdump : lib.dump (encode (job.failedWith e now)) with
  | error what => simp
  | ok payload =>
    have hlength := hsmall payload hdump
    have hfits : ¬(payload.length > kMaxWalRecordBytes ∨ payload.length > uint32Max) := by
      have hlimit : kMaxWalRecordBytes ≤ uint32Max := by decide
      omega
    dsimp only
    rw [if_neg hfits]
    simp

end

namespace Coordinator

/-- Whatever is known of the job has ended, and no thread has it or will take it. -/
structure Idle (s : Coordinator) (id : JobId) : Prop where
  closed : ∀ job, s.jobs.find? id = some job → terminal job.status = true
  queue : id ∉ s.queue
  executing : s.executing.find? id = none

section
variable {cfg : CoordinatorConfig} {s t : Coordinator} {a : Action} {id : JobId}
  {extra : List IngestionJob}

/-- Nothing is written about an idle job. -/
lemma Idle.appends (h : s.Idle id) (hnew : ∀ job, s.created a = some job → job.id ≠ id)
    (happends : s.Appends a extra) : ∀ x ∈ extra, x.id ≠ id := by
  have hother : ∀ {x job : IngestionJob}, s.jobs.find? x.id = some job →
      terminal job.status = false → x.id ≠ id := by
    intro x job hjob hopen heq
    rw [heq] at hjob
    rw [h.closed job hjob] at hopen
    cases hopen
  cases happends with
  | nothing =>
    intro x hx
    cases hx
  | record job next hjob hopen hsame hinput =>
    intro x hx
    cases List.mem_singleton.mp hx
    exact hother hjob hopen
  | created job hcreated hfresh =>
    intro x hx
    cases List.mem_singleton.mp hx
    exact hnew job hcreated
  | replaced job older later hcreated hfresh hjob hopen =>
    intro x hx
    obtain rfl | hx := List.mem_cons.mp hx
    · exact hnew x hcreated
    · cases List.mem_singleton.mp hx
      exact hother (x := older) hjob hopen

/-- An idle job stays idle. -/
theorem Idle.step (h : s.Idle id) (hs : s.Wf) (hstep : s.step cfg a = some t)
    (hnew : ∀ job, s.created a = some job → job.id ≠ id) : t.Idle id := by
  obtain ⟨extra,-,happends,hremembers⟩ := step_extends hs hstep
  have hother := h.appends hnew happends
  have hclosed : ∀ job, t.jobs.find? id = some job → terminal job.status = true := by
    intro job hjob
    obtain hold | hmem | ⟨hclosed,-⟩ := hremembers id job hjob
    · exact h.closed job hold
    · exact absurd ((step_wf hs hstep).keyed id job hjob) (hother job hmem)
    · exact hclosed
  cases step_threads hs hstep with
  | still hjobs hqueue hexecuting =>
    exact ⟨hclosed,hqueue ▸ h.queue,hexecuting ▸ h.executing⟩
  | enqueued job hcreated hfresh hjobs hqueue hexecuting =>
    refine ⟨hclosed,?_,hexecuting ▸ h.executing⟩
    rw [hqueue,List.mem_append,List.mem_singleton,not_or]
    exact ⟨h.queue,Ne.symm (hnew job hcreated)⟩
  | entered job hcreated hfresh hjobs hqueue hexecuting =>
    refine ⟨hclosed,hqueue ▸ h.queue,?_⟩
    rw [hexecuting,OrdMap.find?_insert,if_neg (Ne.symm (hnew job hcreated))]
    exact h.executing
  | taken other hjobs hqueue hexecuting =>
    have hqueued := h.queue
    rw [hqueue,List.mem_cons,not_or] at hqueued
    refine ⟨hclosed,hqueued.2,?_⟩
    rw [hexecuting,OrdMap.find?_insert,if_neg hqueued.1]
    exact h.executing
  | continued other around progress ha hid hcontinues =>
    have hne : id ≠ other := by
      rintro rfl
      rw [h.executing] at hid
      cases hid
    refine ⟨hclosed,hcontinues.spares.queue ▸ h.queue,?_⟩
    rw [hcontinues.spares.executing id hne]
    exact h.executing

/-- An opening leaves a job alone that it finds closed. -/
lemma Resumed.idle {around : Opening} {order : List JobId} (h : s.Resumed around order t)
    (hqueue : s.queue = []) (hexecuting : s.executing = ∅)
    (hclosed : ∀ job, s.jobs.find? id = some job → terminal job.status = true) : t.Idle id := by
  have hwaits : ∀ operation, s.waits operation id ≠ true := by
    intro operation hw
    obtain ⟨job,hjob,hopen,-⟩ := waits_eq_true.mp hw
    rw [hclosed job hjob] at hopen
    cases hopen
  refine ⟨?_,?_,?_⟩
  · intro job hjob
    rw [h.jobs] at hjob
    split_ifs at hjob
    · obtain ⟨before,hbefore,rfl⟩ := Option.map_eq_some_iff.mp hjob
      rw [Coordinator.settled,if_pos (hclosed before hbefore)]
      exact hclosed before hbefore
    · exact hclosed job hjob
  · rw [h.queue,hqueue,List.nil_append,List.mem_filter]
    exact fun hmem => hwaits _ hmem.2
  · rw [h.executing,if_neg fun hmem => hwaits _ hmem.2,hexecuting]
    rfl

/-- What an opening writes is not about a job that it finds closed. -/
lemma rewritten_other (hs : s.Wf) {around : Opening} {order : List JobId}
    (hclosed : ∀ job, s.jobs.find? id = some job → terminal job.status = true) :
    ∀ x ∈ s.rewritten around order, x.id ≠ id := by
  intro x hx heq
  obtain ⟨job,hjob,hopen,-⟩ := records_rewritten hs hx
  rw [heq] at hjob
  rw [hclosed job hjob] at hopen
  cases hopen

end

end Coordinator

namespace Chronicle
open Coordinator

/-- The job has ended for good: its last record says so, and a process that runs leaves it alone. -/
structure Rests (c : Chronicle) (id : JobId) : Prop where
  last : ∃ last, (latestJobs c.written).find? id = some last ∧ terminal last.status = true
  idle : ∀ r, c.process = .running r → r.coordinator.Idle id

section
variable {cfg : EmbeddedRuntimeConfig} {c d : Chronicle} {id : JobId} {written : List IngestionJob}

/-- Records of other jobs do not change what is said last of this one. -/
lemma last_append {extra : List IngestionJob} (hextra : ∀ x ∈ extra, x.id ≠ id)
    (h : ∃ last, (latestJobs written).find? id = some last ∧ terminal last.status = true) :
    ∃ last, (latestJobs (written ++ extra)).find? id = some last ∧ terminal last.status = true := by
  obtain ⟨last,hlast,hclosed⟩ := h
  have hnone : (latestJobs extra).find? id = none := by
    apply Option.eq_none_iff_forall_not_mem.mpr
    intro x hx
    obtain ⟨hmem,hid⟩ := latestJobs_mem hx
    exact hextra x hmem hid
  refine ⟨last,?_,hclosed⟩
  rw [latestJobs_append_find?,hnone,Option.none_or]
  exact hlast

lemma Rests.coordinate {r : EmbeddedRuntime} (h : Rests ⟨.running r,written⟩ id)
    (hholds : Holds ⟨.running r,written⟩) {action : Coordinator.Action}
    (hunused : Unused ⟨.running r,written⟩ (.coordinate action)) {s : Coordinator}
    (hstep : r.coordinator.step cfg.coordinator action = some s) :
    Rests ⟨.running { r with coordinator := s },written ++
      added (.running r) (.running { r with coordinator := s }) (.coordinate action)⟩ id := by
  obtain ⟨hwf,hchronicled⟩ := hholds.running r rfl
  have hidle := h.idle r rfl
  have hnew : ∀ job, r.coordinator.created action = some job → job.id ≠ id := by
    obtain ⟨last,hlast,-⟩ := h.last
    obtain ⟨hmem,hid⟩ := latestJobs_mem hlast
    have hknown : id ∈ written.map IngestionJob.id := List.mem_map.mpr ⟨last,hmem,hid⟩
    rintro job hcreated rfl
    cases action with
    | submit input asynchronous clerk =>
      cases hcreated
      exact hunused hknown
    | erase document clerk =>
      cases hcreated
      exact hunused hknown
    | take => cases hcreated
    | execute id around => cases hcreated
    | compact => cases hcreated
    | shutdown => cases hcreated
  obtain ⟨extra,hframes,happends,-⟩ := step_extends hwf hstep
  have hadded : added (.running r) (.running { r with coordinator := s }) (.coordinate action) =
      extra := by
    change s.store.frames.drop r.coordinator.store.frames.length = extra
    rw [hframes,List.drop_left]
  refine ⟨?_,?_⟩
  · rw [hadded]
    exact last_append (hidle.appends hnew happends) h.last
  · intro r' hr
    cases hr
    exact hidle.step hwf hstep hnew

lemma Rests.checkpoint {r : EmbeddedRuntime} (cfg : EmbeddedRuntimeConfig)
    (h : Rests ⟨.running r,written⟩ id) (thread : ℕ) (io : Result Unit) :
    Rests ⟨.running (r.checkpointEmbedded cfg thread io),written⟩ id := by
  obtain ⟨hclosed,hqueue,hexecuting⟩ := h.idle r rfl
  refine ⟨h.last,?_⟩
  intro r' hr
  cases hr
  obtain hsame | ⟨position,store,-,hsame⟩ := checkpointEmbedded_cases cfg r thread io
  · rw [hsame]
    exact h.idle r rfl
  · rw [hsame]
    exact ⟨hclosed,hqueue,hexecuting⟩

lemma Rests.reopen {disk : Disk} (h : Rests ⟨.stopped disk,written⟩ id)
    (hholds : Holds ⟨.stopped disk,written⟩) {around : Opening}
    (horder : around.order.Perm (latestJobs disk.frames).keys) :
    Rests ⟨Process.reopen cfg disk around,written ++
      (Process.reopen cfg disk around).disk.frames.drop disk.frames.length⟩ id := by
  have hsound : ∀ x ∈ disk.frames, x.Sound := hholds.sound
  obtain ⟨last,hlast,hend⟩ := h.last
  -- Where the log speaks of the job it says that the job has ended.
  have hclosed : ∀ {store : JobStore} (_ : store.frames = disk.frames) (backend : CatalogBackend)
      (job : IngestionJob), (Coordinator.load store backend).jobs.find? id = some job →
      terminal job.status = true := by
    intro store hframes backend job hjob
    rw [(hholds.load hframes backend).1.jobs] at hjob
    cases hlast.symm.trans (hholds.abridges.sound id job hjob)
    exact hend
  obtain ⟨backend,replaced,store,t,-,hopen,-,hresumed,hprocess⟩ | ⟨extra,hprocess,hextra⟩ :=
    Process.reopen_cases cfg hsound horder
  · have hframes : store.frames = disk.frames := by rw [(JobStore.openFile_cases hopen).2]
    obtain ⟨hloaded,hsame,-⟩ := hholds.load hframes backend
    have hlog := hresumed.frames
    rw [show ({ Coordinator.load store backend with backend := replaced } : Coordinator).store =
      store from hsame,hframes] at hlog
    have hadded : t.store.frames.drop disk.frames.length =
        { Coordinator.load store backend with backend := replaced }.rewritten around
          around.order := by
      rw [hlog,List.drop_left]
    rw [hprocess]
    refine ⟨?_,?_⟩
    · change ∃ last, (latestJobs (written ++ t.store.frames.drop disk.frames.length)).find? id =
        some last ∧ _
      rw [hadded]
      exact last_append (rewritten_other (hloaded.wf.withBackend replaced)
        (hclosed hframes backend)) h.last
    · intro r hr
      cases hr
      exact hresumed.idle hloaded.queue hloaded.idle (hclosed hframes backend)
  · rw [hprocess]
    refine ⟨?_,fun r hr => by cases hr⟩
    change ∃ last, (latestJobs (written ++ (disk.frames ++ extra).drop disk.frames.length)).find?
      id = some last ∧ _
    rw [List.drop_left]
    apply last_append _ h.last
    obtain rfl | ⟨store,backend,hframes,hbegins⟩ := hextra
    · intro x hx
      cases hx
    · intro x hx
      exact rewritten_other (hholds.load hframes backend).1.wf (hclosed hframes backend) x
        (hbegins.subset hx)

/-- A job that rests goes on to rest, whatever the process does, stops or opens. -/
theorem Rests.step (h : c.Rests id) (hholds : c.Holds) {action : Process.Action}
    (hstep : c.step cfg action = some d) : d.Rests id := by
  obtain ⟨process,written⟩ := c
  unfold Chronicle.step at hstep
  split_ifs at hstep with hunused
  obtain ⟨p,hp,rfl⟩ := Option.map_eq_some_iff.mp hstep
  cases process with
  | stopped disk =>
    cases action with
    | reopen around =>
      simp only [Process.step] at hp
      split_ifs at hp with horder
      cases hp
      exact h.reopen hholds horder
    | coordinate action => cases hp
    | checkpoint thread io => cases hp
    | stop => cases hp
  | running r =>
    cases action with
    | reopen around => cases hp
    | coordinate action =>
      obtain ⟨s,hs,rfl⟩ := Option.map_eq_some_iff.mp hp
      exact h.coordinate hholds hunused hs
    | checkpoint thread io =>
      cases hp
      dsimp only [added]
      rw [List.append_nil]
      exact h.checkpoint cfg thread io
    | stop =>
      cases hp
      have hsame : added (.running r) (.stopped r.disk) .stop = [] := List.drop_length
      rw [hsame,List.append_nil]
      exact ⟨h.last,fun r hr => by cases hr⟩

/-- The job is recorded as failed, and whatever happens from then on leaves it alone. -/
structure FailsForGood (cfg : EmbeddedRuntimeConfig) (c d : Chronicle) (id : JobId) : Prop where
  recorded : ∃ x : IngestionJob, d.written = c.written ++ [x] ∧ x.id = id ∧ x.status = .failed
  ended : ∀ actions f, Machine.run (step cfg) d actions = some f →
    ∀ r, f.process = .running r → r.coordinator.Idle id

variable {r : EmbeddedRuntime} {job : IngestionJob} {e : Error} {around : Surroundings}

/-- A thread that fails a job makes one step of the chronicle. -/
lemma step_execute {progress : Progress} (hprocess : c.process = .running r)
    (hid : r.coordinator.executing.find? id = some progress)
    (hstep : c.step cfg (.coordinate (.execute id around)) = some d) :
    d.process = .running { r with
      coordinator := r.coordinator.execute cfg.coordinator id around progress } ∧
    d.written = c.written ++
      (r.coordinator.execute cfg.coordinator id around progress).store.frames.drop
        r.coordinator.store.frames.length := by
  obtain ⟨process,written⟩ := c
  cases hprocess
  unfold Chronicle.step at hstep
  rw [if_pos (show Unused ⟨.running r,written⟩ (.coordinate (.execute id around)) from trivial)]
    at hstep
  simp only [Process.step,Coordinator.step,hid,Option.map_some,Option.some.injEq] at hstep
  subst hstep
  exact ⟨rfl,rfl⟩

lemma fails_recorded (h : c.Holds) (hprocess : c.process = .running r)
    (hjob : r.coordinator.jobs.find? id = some job) (hopen : terminal job.status = false)
    (hcurrent : r.coordinator.Current job)
    (hid : r.coordinator.executing.find? id = some (.failing e)) (hsaved : around.saved = .synced)
    (hstep : c.step cfg (.coordinate (.execute id around)) = some d) :
    d.written = c.written ++ [job.failedWith e around.now] ∧ d.Rests id := by
  obtain ⟨hrunning,hwritten⟩ := step_execute hprocess hid hstep
  obtain ⟨hwf,-⟩ := h.running r hprocess
  have hkey := hwf.keyed id job hjob
  have hexecute : r.coordinator.execute cfg.coordinator id around (.failing e) =
      ({ r.coordinator with store := ⟨r.coordinator.store.frames ++ [job.failedWith e around.now],
        r.coordinator.store.bytes + cfg.coordinator.frameSize (job.failedWith e around.now)⟩
          }.setJob
          (job.failedWith e around.now)).finish id := by
    have hnot : ¬terminal job.status = true := by simp [hopen]
    have hlatest : decide (r.coordinator.revisionOf job.input.document = job.revision) = true :=
      decide_eq_true hcurrent
    unfold execute transition
    simp only [hjob,if_neg hnot,hlatest,if_true,hsaved]
    rfl
  have hlog : d.written = c.written ++ [job.failedWith e around.now] := by
    rw [hwritten,hexecute]
    change _ ++ (r.coordinator.store.frames ++ [job.failedWith e around.now]).drop _ = _
    rw [List.drop_left]
  refine ⟨hlog,⟨job.failedWith e around.now,?_,rfl⟩,?_⟩
  · rw [hlog,latestJobs_concat,OrdMap.find?_insert,if_pos]
    exact hkey.symm
  · intro r' hr
    cases hrunning.symm.trans hr
    dsimp only
    rw [hexecute]
    refine ⟨?_,?_,?_⟩
    · intro x hx
      simp only [finish,setJob,OrdMap.find?_insert] at hx
      rw [if_pos (show id = (job.failedWith e around.now).id from hkey.symm)] at hx
      cases hx
      rfl
    · exact not_waiting hwf hid
    · simp only [finish,setJob,OrdMap.find?_erase,if_true]

/-- A record that is refused leaves the job open in the log. -/
lemma not_failsForGood (hprocess : c.process = .running r)
    (hjob : r.coordinator.jobs.find? id = some job) (hopen : terminal job.status = false)
    (hid : r.coordinator.executing.find? id = some (.failing e))
    {x : Error} (hsaved : around.saved = .refused x)
    (hstep : c.step cfg (.coordinate (.execute id around)) = some d) :
    ¬FailsForGood cfg c d id := by
  rintro ⟨⟨y,hy,-⟩,-⟩
  obtain ⟨-,hwritten⟩ := step_execute hprocess hid hstep
  have hexecute : (r.coordinator.execute cfg.coordinator id around (.failing e)).store =
      r.coordinator.store := by
    have hnot : ¬terminal job.status = true := by simp [hopen]
    unfold execute transition
    simp only [hjob,if_neg hnot,hsaved]
    rfl
  rw [hwritten,hexecute,List.drop_length] at hy
  have hlength := congrArg List.length hy
  simp at hlength

/-- A failure is recorded, and the job never executed again, exactly if the limit does not cut its
message inside a character. -/
theorem failsForGood_iff {lib : JsonLibrary} (hlib : lib.Strict) (cfg : EmbeddedRuntimeConfig)
    {actions : List Process.Action} {c d : Chronicle} {r : EmbeddedRuntime} {id : JobId}
    {job : IngestionJob} {e : Error} {around : Surroundings}
    (hrun : Machine.run (step cfg) start actions = some c)
    (hwritten : ∀ x ∈ c.written, ∃ text, lib.dump (encode x) = .ok text)
    (hprocess : c.process = .running r) (hjob : r.coordinator.jobs.find? id = some job)
    (hopen : terminal job.status = false) (hcurrent : r.coordinator.Current job)
    (hid : r.coordinator.executing.find? id = some (.failing e))
    (hsmall : lib.Small (job.failedWith e around.now))
    (hsaved : around.saved = lib.saved (job.failedWith e around.now))
    (hstep : c.step cfg (.coordinate (.execute id around)) = some d) :
    FailsForGood cfg c d id ↔ CutsBetween e.message kMaxErrorBytes := by
  have hholds : c.Holds :=
    Machine.run_invariant' (fun _ _ _ hi hs => hi.step hs) holds_start hrun
  obtain ⟨-,hchronicled⟩ := hholds.running r hprocess
  have hdumped := hwritten job (hchronicled.opened id job hjob hopen)
  rw [← saved_failedWith hlib hdumped hsmall,← hsaved]
  constructor
  · intro hgood
    cases houtcome : around.saved with
    | synced => rfl
    | unsynced =>
      rw [hsaved] at houtcome
      exact absurd houtcome (saved_ne_unsynced lib _)
    | refused x => exact absurd hgood (not_failsForGood hprocess hjob hopen hid houtcome hstep)
  · intro hsynced
    obtain ⟨hlog,hrests⟩ := fails_recorded hholds hprocess hjob hopen hcurrent hid hsynced hstep
    refine ⟨⟨_,hlog,(hholds.running r hprocess).1.keyed id job hjob,rfl⟩,?_⟩
    intro later f hlater s hs
    have hkept : f.Holds ∧ f.Rests id :=
      Machine.run_invariant' (I := fun x => x.Holds ∧ x.Rests id)
        (fun _ _ _ hi hs => ⟨hi.1.step hs,hi.2.step hi.1 hs⟩) ⟨hholds.step hstep,hrests⟩ hlater
    exact hkept.2.idle s hs

end

section
open Machine Classical

/-- Only what is not UTF-8 is refused. -/
noncomputable def strictLibrary : JsonLibrary :=
  ⟨fun v => if v.Utf8 then .ok [] else .error "invalid UTF-8 byte",fun _ => .error "not read"⟩

lemma strictLibrary_dump (v : Json) : (∃ text, strictLibrary.dump v = .ok text) ↔ v.Utf8 := by
  unfold strictLibrary
  dsimp only
  split_ifs with h
  · exact ⟨fun _ => h,fun _ => ⟨[],rfl⟩⟩
  · refine ⟨fun h' => ?_,fun h' => absurd h' h⟩
    obtain ⟨text,htext⟩ := h'
    cases htext

lemma strictLibrary_small (job : IngestionJob) : strictLibrary.Small job := by
  intro payload h
  unfold strictLibrary at h
  dsimp only at h
  split_ifs at h
  cases h
  exact Nat.zero_le _

/-- A record without errors and vectors, in ASCII. -/
def plainRecord (x : IngestionJob) : Bool :=
  x.error.isNone && x.prepared.isNone && x.input.metadata.entries.isEmpty &&
    [x.id,x.input.document,x.input.title,x.input.content,x.contentHash].all fun s =>
      s.all fun b => b.val < 128

lemma utf8_plainRecord {x : IngestionJob} (h : plainRecord x = true) : (encode x).Utf8 := by
  simp only [plainRecord,Bool.and_eq_true,List.all_eq_true,List.forall_mem_cons,
    Option.isNone_iff_eq_none,
    List.isEmpty_iff,decide_eq_true_eq] at h
  obtain ⟨⟨⟨herror,hprepared⟩,hmetadata⟩,hid,hdocument,htitle,hcontent,hhash,-⟩ := h
  have hkeys : ∀ k ∈ fixedKeys ++ optionalKeys, ValidUtf8 k := by
    have hall : (fixedKeys ++ optionalKeys).all (fun k => k.all fun b => b.val < 128) = true := by
      decide
    simp only [List.all_eq_true,decide_eq_true_eq] at hall
    exact fun k hk => validUtf8_ascii (hall k hk)
  have hnames : ∀ m ∈ fixedMembers x, ValidUtf8 m.1 := fun m hm =>
    hkeys m.1 (List.mem_append_left _ (show m.1 ∈ (fixedMembers x).map Prod.fst from
      List.mem_map_of_mem hm))
  have hvalues : ∀ m ∈ fixedMembers x, m.2.Utf8 := by
    have hempty : (Json.ofStrings x.input.metadata).Utf8 := by
      rw [Json.ofStrings,hmetadata]
      exact .object (fun e he => by cases he) (fun e he => by cases he)
    simp only [fixedMembers,List.forall_mem_cons,List.not_mem_nil,false_implies,implies_true,
      and_true]
    exact ⟨Json.utf8_ofInt _,.string (validUtf8_ascii hid),Json.utf8_ofInt _,
      .string (validUtf8_ascii hdocument),.string (validUtf8_ascii htitle),
      .string (validUtf8_ascii hcontent),hempty,.unsigned _,.string (validUtf8_ascii hhash),
      Json.utf8_ofInt _,Json.utf8_ofInt _,Json.utf8_ofInt _⟩
  rw [encode,Json.utf8_ofMembers (members_nodup x)]
  intro m hm
  obtain hm | hm := List.mem_append.mp hm
  · exact ⟨hnames m hm,hvalues m hm⟩
  · rw [optionalMembers,herror,hprepared] at hm
    obtain ⟨applied,-,rfl⟩ := Option.map_eq_some_iff.mp (Option.mem_toList.mp hm)
    exact ⟨hkeys _ (List.mem_append_right _ (by simp [optionalKeys])),.boolean applied⟩

/-- A model whose answers are errors. -/
def modelled : EmbeddedRuntimeConfig :=
  { plainRuntime with
    coordinator := { plainConfig with embedder := some ⟨1,ascii ['m'],fun _ => .ok []⟩ } }

def embeddingStarted : List Process.Action :=
  [Process.Action.reopen (smooth []),
    .coordinate (.submit (letter 'd' 'a') false (clerk '1'))] ++
    (executed '1' 4).map Process.Action.coordinate

def rejected (message : String) : Surroundings := { calm with fault := some ⟨.ioError,message⟩ }

def inEmbedding : Progress → Bool
  | .embedding _ => true
  | _ => false

/-- The model has answered, and the job is about to fail. -/
lemma rejected_spec (message : String) : ∃ c r job,
    run (step modelled) start (embeddingStarted ++
      [Process.Action.coordinate (.execute (ascii ['1']) (rejected message))]) = some c ∧
    (∀ x ∈ c.written, ∃ text, strictLibrary.dump (encode x) = .ok text) ∧
    c.process = .running r ∧ r.coordinator.jobs.find? (ascii ['1']) = some job ∧
    terminal job.status = false ∧ r.coordinator.Current job ∧
    r.coordinator.executing.find? (ascii ['1']) = some (.failing ⟨.ioError,message⟩) := by
  have hstarted : (run (step modelled) start embeddingStarted).any (fun c =>
      c.written.all plainRecord && c.process.runsWith fun r =>
        (r.coordinator.jobs.find? (ascii ['1'])).any (fun job =>
          decide (terminal job.status = false) && decide (r.coordinator.Current job)) &&
        (r.coordinator.executing.find? (ascii ['1'])).any inEmbedding) = true := by
    decide +kernel
  obtain ⟨⟨process,written⟩,hrun,hc⟩ := (Option.any_eq_true _ _).mp hstarted
  obtain ⟨hplain,hc⟩ := (Bool.and_eq_true _ _).mp hc
  cases process with
  | stopped disk => cases hc
  | running r =>
    obtain ⟨hjob,hembedding⟩ := (Bool.and_eq_true _ _).mp hc
    obtain ⟨job,hjob,hopen⟩ := (Option.any_eq_true _ _).mp hjob
    simp only [Bool.and_eq_true,decide_eq_true_eq] at hopen
    obtain ⟨hopen,hcurrent⟩ := hopen
    obtain ⟨progress,hprogress,hembedding⟩ := (Option.any_eq_true _ _).mp hembedding
    cases progress with
    | embedding prepared =>
      refine ⟨⟨.running { r with coordinator :=
        r.coordinator.setProgress (ascii ['1']) (.failing ⟨.ioError,message⟩) },written⟩,_,job,
          ?_,?_,
        rfl,hjob,hopen,hcurrent,?_⟩
      · have hstep : step modelled ⟨.running r,written⟩
            (.coordinate (.execute (ascii ['1']) (rejected message))) =
            some ⟨.running { r with coordinator :=
              r.coordinator.setProgress (ascii ['1']) (.failing ⟨.ioError,message⟩) },written ++
                r.coordinator.store.frames.drop r.coordinator.store.frames.length⟩ := by
          unfold step
          rw [if_pos (show Unused ⟨.running r,written⟩ (.coordinate (.execute (ascii ['1'])
            (rejected message))) from trivial)]
          simp only [Process.step,Coordinator.step,hprogress,Option.map_some]
          rfl
        rw [List.drop_length,List.append_nil] at hstep
        rw [run_append,hrun,Option.bind_some]
        exact run_cons_eq_some.mpr ⟨_,hstep,rfl⟩
      · intro x hx
        exact (strictLibrary_dump _).mpr (utf8_plainRecord (List.all_eq_true.mp hplain x hx))
      · simp [setProgress]
    | _ => cases hembedding

/-- The step in which the job fails, where the file can be written. -/
lemma rejected_fails {c : Chronicle} {r : EmbeddedRuntime} (job : IngestionJob) {message : String}
    (hprocess : c.process = .running r)
    (hid : r.coordinator.executing.find? (ascii ['1']) = some (.failing ⟨.ioError,message⟩)) :
    ∃ d, c.step modelled (.coordinate (.execute (ascii ['1'])
      { calm with saved := strictLibrary.saved (job.failedWith ⟨.ioError,message⟩ 0) })) =
        some d := by
  obtain ⟨process,written⟩ := c
  cases hprocess
  unfold step
  rw [if_pos (show Unused ⟨.running r,written⟩ (.coordinate (.execute _ _)) from trivial)]
  simp only [Process.step,Coordinator.step,hid,Option.map_some]
  exact ⟨_,rfl⟩

theorem short_message_failsForGood : ∃ actions c action d,
    run (step modelled) start actions = some c ∧ c.step modelled action = some d ∧
      FailsForGood modelled c d (ascii ['1']) := by
  obtain ⟨c,r,job,hrun,hwritten,hprocess,hjob,hopen,hcurrent,hid⟩ := rejected_spec "out of memory"
  obtain ⟨d,hstep⟩ := rejected_fails job hprocess hid
  have hcut : CutsBetween "out of memory" kMaxErrorBytes :=
    ⟨"out of memory","",by decide +kernel,by decide +kernel⟩
  exact ⟨_,c,_,d,hrun,hstep,(failsForGood_iff strictLibrary_dump modelled hrun hwritten hprocess
    hjob hopen
    hcurrent hid (strictLibrary_small _) rfl hstep).mpr hcut⟩

/-- The limit falls into the last character. -/
def cutMessage : String := String.ofList (List.replicate 1023 'a' ++ ['é'])

theorem cut_message_is_not_recorded :
    ¬ ∀ (lib : JsonLibrary) (_ : lib.Strict) (cfg : EmbeddedRuntimeConfig)
      (actions : List Process.Action) (c d : Chronicle) (r : EmbeddedRuntime) (id : JobId)
      (job : IngestionJob) (e : Error) (around : Surroundings),
      run (step cfg) start actions = some c →
      (∀ x ∈ c.written, ∃ text, lib.dump (encode x) = .ok text) →
      c.process = .running r → r.coordinator.jobs.find? id = some job →
      terminal job.status = false → r.coordinator.Current job →
      r.coordinator.executing.find? id = some (.failing e) →
      lib.Small (job.failedWith e around.now) →
      around.saved = lib.saved (job.failedWith e around.now) →
      c.step cfg (.coordinate (.execute id around)) = some d → FailsForGood cfg c d id := by
  intro h
  obtain ⟨message,hcut⟩ : ∃ message, ¬CutsBetween message kMaxErrorBytes :=
    ⟨cutMessage,fun hcuts => absurd (isValid_of_cutsBetween hcuts) (by decide +kernel)⟩
  obtain ⟨c,r,job,hrun,hwritten,hprocess,hjob,hopen,hcurrent,hid⟩ := rejected_spec message
  obtain ⟨d,hstep⟩ := rejected_fails job hprocess hid
  have hdumped : ∃ text, strictLibrary.dump (encode job) = .ok text := by
    have hholds : c.Holds :=
      Machine.run_invariant' (fun _ _ _ hi hs => hi.step hs) holds_start hrun
    exact hwritten job ((hholds.running r hprocess).2.opened _ job hjob hopen)
  have hunsaved : strictLibrary.saved (job.failedWith ⟨.ioError,message⟩ 0) ≠ .synced := fun hs =>
    hcut ((saved_failedWith strictLibrary_dump hdumped (strictLibrary_small _)).mp hs)
  have hgood := h strictLibrary strictLibrary_dump modelled _ c d r _ job _ _ hrun hwritten hprocess
    hjob hopen hcurrent hid (strictLibrary_small _) rfl hstep
  cases houtcome : strictLibrary.saved (job.failedWith ⟨.ioError,message⟩ 0) with
  | synced => exact hunsaved houtcome
  | unsynced => exact saved_ne_unsynced _ _ houtcome
  | refused x => exact not_failsForGood hprocess hjob hopen hid houtcome hstep hgood

end

end Chronicle
end RagRuntime.Ingestion
