import RagRuntime.Base.Machine
import RagRuntime.Ingestion.JobLog

/-! The job log over runs of openings, acknowledged writes and crashes in the middle of a write. -/
namespace RagRuntime.Ingestion
open RagRuntime.Base RagRuntime.Core RagRuntime.Store

/-- What happens to the log of one path. A crash ends the process when `written` bytes of the frame
of `job` are in the file. -/
inductive LogEvent where
  | openFile
  | persist (job : IngestionJob)
  | crash (job : IngestionJob) (written : ℕ)
  deriving DecidableEq

/-- A log under a run. `landed` lists the jobs whose writes were acknowledged, and those whose
frames a crash left complete; `begun` counts the frames of which a byte was written. -/
structure LogRun where
  log : JobLog
  landed : List IngestionJob
  begun : ℕ
  deriving DecidableEq

/-- The part of the frame of a job that is in the file when a crash comes. -/
def JobJson.cutFrame (json : JobJson) (job : IngestionJob) (written : ℕ) : Bytes :=
  match json.encodeFrame appendContext job with
  | .error _ => []
  | .ok frame => frame.take written

def JobJson.wholeFrame (json : JobJson) (job : IngestionJob) (written : ℕ) : Bool :=
  match json.encodeFrame appendContext job with
  | .error _ => false
  | .ok frame => frame.length ≤ written

namespace LogRun

def start : LogRun := ⟨JobLog.empty,[],0⟩

def persisted (json : JobJson) (s : LogRun) (job : IngestionJob) : LogRun :=
  let called := s.log.persist json job .synced
  ⟨called.2,if called.1.isOk then s.landed ++ [job] else s.landed,
    if called.1.isOk then s.begun + 1 else s.begun⟩

def crashed (json : JobJson) (s : LogRun) (job : IngestionJob) (written : ℕ) : LogRun :=
  ⟨(s.log.persist json job (.cut written "")).2.close,
    if json.wholeFrame job written then s.landed ++ [job] else s.landed,
    if json.cutFrame job written = [] then s.begun else s.begun + 1⟩

/-- A log is opened when it is closed, and written to when it is open. -/
def step (json : JobJson) (s : LogRun) : LogEvent → Option LogRun
  | .openFile =>
    if s.log.isOpen then none else some { s with log := (s.log.openFile json .opened).2 }
  | .persist job => if s.log.isOpen then some (s.persisted json job) else none
  | .crash job written => if s.log.isOpen then some (s.crashed json job written) else none

end LogRun

/-- The file ends at the end of a frame. -/
def JobLog.AtBoundary (log : JobLog) : Prop :=
  ∃ payloads : List Bytes, (∀ p ∈ payloads, p.length ≤ kMaxWalRecordBytes) ∧
    log.content = frames kJobMagic payloads

/-- The log is open at a frame boundary and loads the newest snapshots of `landed`. -/
structure JobLog.Recovered (json : JobJson) (landed : List IngestionJob) (log : JobLog) : Prop where
  isOpen : log.isOpen = true
  boundary : log.AtBoundary
  latest : log.loadLatest json = .ok ((latestJobs landed).values.insertionSort OldestFirst)

/-- The log is recovered while it is open, and by every opening. -/
structure LogRun.Lawful (json : JobJson) (s : LogRun) : Prop where
  whileOpen : s.log.isOpen = true → s.log.Recovered json s.landed
  opens : s.log.isOpen = false → (s.log.openFile json .opened).1 = .ok ()
  opened : s.log.isOpen = false → (s.log.openFile json .opened).2.Recovered json s.landed

/-- The jobs of the event pass the checks of the reader. -/
def LogEvent.Recordable : LogEvent → Prop
  | .openFile => True
  | .persist job | .crash job _ => job.Recordable

namespace LogRun

/-- The file is the landed frames and a cut one, and no more frames have been begun. -/
structure Sound (json : JobJson) (s : LogRun) : Prop where
  file : ∃ bytes tail, Framed json s.landed bytes ∧ Cut kJobMagic tail ∧
    s.log.content = bytes ++ tail ∧ (s.log.isOpen = true → tail = []) ∧
    s.landed.length + (if tail = [] then 0 else 1) ≤ s.begun

variable {json : JobJson} {s t : LogRun}

lemma start_sound (json : JobJson) : start.Sound json :=
  ⟨[],[],.nil,cut_nil _,rfl,fun _ => rfl,Nat.le_refl _⟩

/-- Opening a sound log cuts the tail off. -/
lemma Sound.openFile (h : s.Sound json) (hcount : s.begun ≤ kMaxWalRecords) :
    ∃ bytes, Framed json s.landed bytes ∧
      s.log.openFile json .opened = (.ok (),⟨some bytes,true,bytes.length⟩) := by
  obtain ⟨bytes,tail,hframed,hcut,hcontent,-,hroom⟩ := h.file
  refine ⟨bytes,hframed,?_⟩
  have hvalid := hframed.validPrefix hcut (hroom.trans hcount)
  unfold JobLog.openFile
  rw [hcontent,hvalid]
  dsimp only
  rw [List.take_left]

lemma recovered_of_framed {bytes : Bytes} (size : ℕ) {landed : List IngestionJob}
    (h : Framed json landed bytes) (hcount : landed.length ≤ kMaxWalRecords) :
    (⟨some bytes,true,size⟩ : JobLog).Recovered json landed := by
  have hload := h.loadJobs (cut_nil _) (show RoomFor landed [] by simpa [RoomFor] using hcount)
  rw [List.append_nil] at hload
  refine ⟨rfl,?_,hload⟩
  clear hload hcount
  induction h with
  | nil => exact ⟨[],by simp,rfl⟩
  | @cons job payload jobs bytes hlength hdecode hrest ih =>
    obtain ⟨payloads,hsizes,hbytes⟩ := ih
    refine ⟨payload::payloads,List.forall_mem_cons.mpr ⟨hlength,hsizes⟩,?_⟩
    change bytes = _ at hbytes
    change frame kJobMagic payload ++ bytes = _
    rw [frames_cons,hbytes]

lemma persist_open (log : JobLog) (hopen : log.isOpen = true) {job : IngestionJob} {bytes : Bytes}
    (hencode : json.encodeFrame appendContext job = .ok bytes) (written : ℕ) :
    log.persist json job .synced = (.ok (),{ log with
        file := some (log.content ++ bytes)
        bytes := log.bytes + bytes.length }) ∧
      (log.persist json job (.cut written "")).2 =
        { log with file := some (log.content ++ bytes.take written) } := by
  unfold JobLog.persist
  rw [hencode]
  dsimp only
  rw [if_neg (by simp [hopen]),if_neg (by simp [hopen])]
  exact ⟨rfl,rfl⟩

/-- The file after `written` bytes of one more frame. -/
lemma Sound.grown (h : s.Sound json) (hopen : s.log.isOpen = true) (hjson : json.RoundTrips)
    {job : IngestionJob} (hjob : job.Recordable) {payload : Bytes}
    (hdump : json.dump job.record = .ok payload) (hlength : payload.length ≤ kMaxWalRecordBytes)
    (log : JobLog) (written : ℕ)
    (hlog : log.content = s.log.content ++ (frame kJobMagic payload).take written)
    (hclosed : log.isOpen = true → (frame kJobMagic payload).length ≤ written) :
    (⟨log,if (frame kJobMagic payload).length ≤ written then s.landed ++ [job] else s.landed,
      if (frame kJobMagic payload).take written = [] then s.begun else s.begun + 1⟩ :
        LogRun).Sound json := by
  obtain ⟨bytes,tail,hframed,-,hcontent,htail,hroom⟩ := h.file
  obtain rfl := htail hopen
  rw [List.append_nil] at hcontent
  rw [if_pos rfl] at hroom
  by_cases hwhole : (frame kJobMagic payload).length ≤ written
  · have hone : Framed json [job] (frame kJobMagic payload ++ []) :=
      .cons hlength (hjson.decode hjob hdump) .nil
    rw [List.append_nil] at hone
    rw [List.take_of_length_le hwhole] at hlog ⊢
    rw [if_pos hwhole,if_neg (frame_ne_nil _ _)]
    refine ⟨_,[],hframed.append hone,cut_nil _,?_,fun _ => rfl,?_⟩
    · rw [hlog,hcontent,List.append_nil]
    · simp only [List.length_append,List.length_singleton,if_pos]
      omega
  · rw [if_neg hwhole]
    refine ⟨bytes,_,hframed,⟨payload,hlength,written,not_le.mp hwhole,rfl⟩,?_,
      fun hlogOpen => absurd (hclosed hlogOpen) hwhole,?_⟩
    · rw [hlog,hcontent]
    · dsimp only
      split_ifs <;> omega

lemma Sound.persisted (h : s.Sound json) (hopen : s.log.isOpen = true) (hjson : json.RoundTrips)
    {job : IngestionJob} (hjob : job.Recordable) : (s.persisted json job).Sound json := by
  unfold LogRun.persisted
  cases hencode : json.encodeFrame appendContext job with
  | error e =>
    rw [JobLog.persist,hencode]
    exact h
  | ok bytes =>
    obtain ⟨payload,hdump,hlength,rfl⟩ := JobJson.encodeFrame_eq_ok.mp hencode
    obtain ⟨hsynced,-⟩ := persist_open _ hopen hencode 0
    have hgrown := h.grown hopen hjson hjob hdump hlength
      { s.log with
        file := some (s.log.content ++ frame kJobMagic payload)
        bytes := s.log.bytes + (frame kJobMagic payload).length }
      (frame kJobMagic payload).length (by rw [List.take_length]; rfl) (fun _ => le_rfl)
    rw [List.take_length,if_pos le_rfl,if_neg (frame_ne_nil _ _)] at hgrown
    rw [hsynced]
    exact hgrown

lemma Sound.crashed (h : s.Sound json) (hopen : s.log.isOpen = true) (hjson : json.RoundTrips)
    {job : IngestionJob} (hjob : job.Recordable) (written : ℕ) :
    (s.crashed json job written).Sound json := by
  unfold LogRun.crashed JobJson.wholeFrame JobJson.cutFrame
  cases hencode : json.encodeFrame appendContext job with
  | error e =>
    obtain ⟨bytes,tail,hframed,hcut,hcontent,htail,hroom⟩ := h.file
    rw [JobLog.persist,hencode]
    exact ⟨bytes,tail,hframed,hcut,hcontent,fun _ => htail hopen,hroom⟩
  | ok bytes =>
    obtain ⟨payload,hdump,hlength,rfl⟩ := JobJson.encodeFrame_eq_ok.mp hencode
    obtain ⟨-,hcut⟩ := persist_open _ hopen hencode written
    have hgrown := h.grown hopen hjson hjob hdump hlength
      { s.log with
        file := some (s.log.content ++ (frame kJobMagic payload).take written)
        isOpen := false } written rfl (fun hfalse => by cases hfalse)
    rw [hcut]
    simp only [decide_eq_true_eq]
    exact hgrown

lemma step_begun {e : LogEvent} (h : s.step json e = some t) : s.begun ≤ t.begun := by
  cases e with
  | openFile =>
    simp only [step] at h
    split_ifs at h
    cases h
    exact le_rfl
  | persist job =>
    simp only [step] at h
    split_ifs at h
    cases h
    unfold LogRun.persisted
    dsimp only
    split_ifs <;> omega
  | crash job written =>
    simp only [step] at h
    split_ifs at h
    cases h
    unfold LogRun.crashed
    dsimp only
    split_ifs <;> omega

lemma step_sound (hjson : json.RoundTrips) {e : LogEvent} (h : s.Sound json)
    (hrecordable : e.Recordable) (hcount : s.begun ≤ kMaxWalRecords)
    (hstep : s.step json e = some t) : t.Sound json := by
  cases e with
  | openFile =>
    simp only [step] at hstep
    split_ifs at hstep with hopen
    cases hstep
    obtain ⟨bytes,hframed,hopened⟩ := h.openFile hcount
    obtain ⟨_,_,_,_,_,_,hroom⟩ := h.file
    rw [hopened]
    refine ⟨bytes,[],hframed,cut_nil _,(List.append_nil _).symm,fun _ => rfl,?_⟩
    rw [if_pos rfl]
    dsimp only
    omega
  | persist job =>
    simp only [step] at hstep
    split_ifs at hstep with hopen
    cases hstep
    exact h.persisted hopen hjson hrecordable
  | crash job written =>
    simp only [step] at hstep
    split_ifs at hstep with hopen
    cases hstep
    exact h.crashed hopen hjson hrecordable written

lemma run_begun {events : List LogEvent} (h : Machine.run (step json) s events = some t) :
    s.begun ≤ t.begun := by
  induction events generalizing s with
  | nil =>
    cases h
    exact le_rfl
  | cons e events ih =>
    obtain ⟨u,hu,hrun⟩ := Machine.run_cons_eq_some.mp h
    exact (step_begun hu).trans (ih hrun)

lemma run_sound (hjson : json.RoundTrips) {events : List LogEvent} (h : s.Sound json)
    (hrecordable : ∀ e ∈ events, e.Recordable) (hrun : Machine.run (step json) s events = some t)
    (hcount : t.begun ≤ kMaxWalRecords) : t.Sound json := by
  induction events generalizing s with
  | nil =>
    cases hrun
    exact h
  | cons e events ih =>
    obtain ⟨u,hu,hrest⟩ := Machine.run_cons_eq_some.mp hrun
    have hbefore := (step_begun hu).trans ((run_begun hrest).trans hcount)
    exact ih (step_sound hjson h (hrecordable e List.mem_cons_self) hbefore hu)
      (fun e' he' => hrecordable e' (List.mem_cons_of_mem _ he')) hrest

lemma Sound.lawful (h : s.Sound json) (hcount : s.begun ≤ kMaxWalRecords) : s.Lawful json := by
  obtain ⟨bytes,hframed,hopened⟩ := h.openFile hcount
  obtain ⟨front,tail,hfront,hcut,hcontent,htail,hroom⟩ := h.file
  have hlanded : s.landed.length ≤ kMaxWalRecords := by omega
  refine ⟨fun hopen => ?_,fun _ => by rw [hopened],fun _ => ?_⟩
  · have hfile := recovered_of_framed s.log.bytes hfront hlanded
    rw [htail hopen,List.append_nil] at hcontent
    refine ⟨hopen,?_,?_⟩
    · obtain ⟨payloads,hsizes,hbytes⟩ := hfile.boundary
      exact ⟨payloads,hsizes,hcontent.trans hbytes⟩
    · have hload := hfile.latest
      change json.loadJobs front = _ at hload
      change json.loadJobs s.log.content = _
      rw [hcontent,hload]
  · rw [hopened]
    exact recovered_of_framed _ hframed hlanded

/-- Over openings, writes and crashes in any order, the log opens and loads what was acknowledged
or written completely, as long as its reader accepts the jobs. -/
theorem lawful_of_run (hjson : json.RoundTrips) {events : List LogEvent}
    (hrecordable : ∀ e ∈ events, e.Recordable)
    (hrun : Machine.run (step json) start events = some s) (hcount : s.begun ≤ kMaxWalRecords) :
    s.Lawful json :=
  (run_sound hjson (start_sound json) hrecordable hrun hcount).lawful hcount

def sampleJob (id : Bytes) : IngestionJob :=
  ⟨id,.upsert,⟨ascii ['d'],[],[],∅⟩,1,ascii ['h'],.queued,1,1,none,none,none⟩

/-- The text of a sample job with the given characters for its id. -/
def sampleText (id : String) : Bytes := ascii
  ("\x7b\"content\":\"\",\"content_hash\":\"h\",\"created_at_ms\":1,\"document\":\"d\"," ++
    "\"id\":\"" ++ id ++ "\",\"metadata\":\x7b\x7d,\"operation\":0,\"revision\":1," ++
    "\"status\":0,\"title\":\"\",\"updated_at_ms\":1,\"version\":1\x7d").toList

/-- A job that is acknowledged, and a crash `written` bytes into its next frame. -/
def onceThenCrash (job : IngestionJob) (written : ℕ) : List LogEvent :=
  [.openFile,.persist job,.crash job written]

lemma run_onceThenCrash {job : IngestionJob} {payload : Bytes}
    (hdump : json.dump job.record = .ok payload) (hlength : payload.length ≤ kMaxWalRecordBytes)
    (written : ℕ) : Machine.run (step json) start (onceThenCrash job written) =
      some ⟨⟨some (frame kJobMagic payload ++ (frame kJobMagic payload).take written),false,
          (frame kJobMagic payload).length⟩,
        if (frame kJobMagic payload).length ≤ written then [job,job] else [job],
        if (frame kJobMagic payload).take written = [] then 1 else 2⟩ := by
  have hencode : json.encodeFrame appendContext job = .ok (frame kJobMagic payload) :=
    JobJson.encodeFrame_eq_ok.mpr ⟨payload,hdump,hlength,rfl⟩
  have hopen : step json start .openFile = some ⟨⟨some [],true,0⟩,[],0⟩ := rfl
  have hpersist : step json ⟨⟨some [],true,0⟩,[],0⟩ (.persist job) = some
      ⟨⟨some (frame kJobMagic payload),true,(frame kJobMagic payload).length⟩,[job],1⟩ := by
    obtain ⟨hsynced,-⟩ := persist_open ⟨some [],true,0⟩ rfl hencode 0
    simp only [step,if_true,LogRun.persisted,hsynced,JobLog.content,Option.getD_some,
      List.nil_append,Except.isOk,Except.toBool,Nat.zero_add]
  have hcrash : step json ⟨⟨some (frame kJobMagic payload),true,
      (frame kJobMagic payload).length⟩,[job],1⟩ (.crash job written) = some
        ⟨⟨some (frame kJobMagic payload ++ (frame kJobMagic payload).take written),false,
          (frame kJobMagic payload).length⟩,
        if (frame kJobMagic payload).length ≤ written then [job,job] else [job],
        if (frame kJobMagic payload).take written = [] then 1 else 2⟩ := by
    obtain ⟨-,hcut⟩ := persist_open ⟨some (frame kJobMagic payload),true,
      (frame kJobMagic payload).length⟩ rfl hencode written
    simp only [step,if_true,LogRun.crashed,hcut,JobLog.content,Option.getD_some,JobLog.close,
      JobJson.wholeFrame,JobJson.cutFrame,hencode,decide_eq_true_eq,List.singleton_append]
  simp only [onceThenCrash,Machine.run,hopen,hpersist,hcrash,Option.bind_some]

/-- A job that is acknowledged but does not come back from its text is cut off by the next
opening. -/
lemma not_lawful_onceThenCrash {job : IngestionJob} {payload : Bytes}
    (hdump : json.dump job.record = .ok payload) (hlength : payload.length ≤ kMaxWalRecordBytes)
    (what : String) (hdecode : json.decode payload = .error what) :
    ∃ s, Machine.run (step json) start (onceThenCrash job 0) = some s ∧
      s.begun ≤ kMaxWalRecords ∧ ¬s.Lawful json := by
  have hrun := run_onceThenCrash hdump hlength 0
  have hlong : ¬(frame kJobMagic payload).length ≤ 0 := by
    rw [frame_length,kHeaderBytes]
    omega
  rw [if_neg hlong,List.take_zero,List.append_nil,if_pos rfl] at hrun
  refine ⟨_,hrun,show 1 ≤ kMaxWalRecords by decide,?_⟩
  intro h
  have hvalid : json.validPrefix (frame kJobMagic payload) = .ok 0 := by
    have hread := readFrame_append kJobMagic_fits hlength []
    rw [List.append_nil] at hread
    have hroom : ¬0 ≥ kMaxWalRecords := by decide
    simp only [JobJson.validPrefix,scan,scanFrom,hread,hroom,if_false,JobJson.visitPosition,hdecode,
      if_true]
  have hopened : (⟨some (frame kJobMagic payload),false,(frame kJobMagic payload).length⟩ :
      JobLog).openFile json .opened = (.ok (),⟨some [],true,0⟩) := by
    simp only [JobLog.openFile,JobLog.content,Option.getD_some,hvalid,List.take_zero]
  have hload := (h.opened rfl).latest
  rw [hopened] at hload
  cases hload

def tableOf (id : String) : JobJson :=
  .ofTable [((sampleJob (ascii id.toList)).record,sampleText id)]

lemma tableOf_dump (id : String) :
    (tableOf id).dump (sampleJob (ascii id.toList)).record = .ok (sampleText id) := by
  simp [tableOf,JobJson.ofTable]

lemma sampleText_length (id : String) (h : id.toList.length ≤ 1) :
    (sampleText id).length ≤ kMaxWalRecordBytes := by
  simp only [sampleText,ascii,kMaxWalRecordBytes,List.length_map,String.toList_append,
    List.length_append,String.reduceToList,List.length_cons,List.length_nil]
  omega

/-- A crash in the middle of the second frame. -/
theorem lawful_of_cut : (tableOf "a").RoundTrips ∧ ∃ s,
    Machine.run (step (tableOf "a")) start (onceThenCrash (sampleJob (ascii "a".toList)) 20) =
      some s ∧ s.Lawful (tableOf "a") := by
  have hjson : (tableOf "a").RoundTrips := JobJson.ofTable_roundTrips (List.nodup_singleton _)
  have hjob : (sampleJob (ascii "a".toList)).Recordable := by
    refine ⟨by decide,by decide,by decide,?_,?_⟩
    · intro d hd
      cases hd
    · intro d hd
      cases hd
  have hrun := run_onceThenCrash (tableOf_dump "a")
    (sampleText_length "a" (by decide)) 20
  refine ⟨hjson,_,hrun,lawful_of_run hjson ?_ hrun ?_⟩
  · simp only [onceThenCrash,List.forall_mem_cons,LogEvent.Recordable,List.not_mem_nil,
      false_implies,implies_true,and_true,true_and]
    exact ⟨hjob,hjob⟩
  · dsimp only
    split_ifs <;> decide

/-- A job without an id is acknowledged, but its reader refuses the record. -/
theorem nameless_job_is_lost : (tableOf "").RoundTrips ∧
    ∃ s, Machine.run (step (tableOf "")) start (onceThenCrash (sampleJob (ascii "".toList)) 0) =
      some s ∧ s.begun ≤ kMaxWalRecords ∧ ¬s.Lawful (tableOf "") := by
  have hjson : (tableOf "").RoundTrips := JobJson.ofTable_roundTrips (List.nodup_singleton _)
  refine ⟨hjson,not_lawful_onceThenCrash (tableOf_dump "")
    (sampleText_length "" (by decide)) "job identity is invalid" ?_⟩
  unfold JobJson.decode
  rw [hjson _ _ (tableOf_dump "")]
  rfl

end LogRun
end RagRuntime.Ingestion
