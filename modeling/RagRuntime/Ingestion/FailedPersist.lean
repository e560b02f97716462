import RagRuntime.Ingestion.JobLogPrefix

/-! Calls of `persist` within one open store, some of which fail in the middle of a frame, and what
the next opening finds. -/
namespace RagRuntime.Ingestion
open RagRuntime.Base RagRuntime.Core RagRuntime.Store

/-- A call of `persist`, and how its write ends. -/
structure PersistCall where
  job : IngestionJob
  outcome : Store.WriteOutcome
  deriving DecidableEq

/-- An open store, and the snapshots that were there or that it has acknowledged, in order. -/
structure PersistRun where
  log : JobLog
  acknowledged : List IngestionJob
  deriving DecidableEq

/-- The bytes of its frame that a call leaves in the file. -/
def PersistCall.left (json : JobJson) (call : PersistCall) : Bytes :=
  match json.encodeFrame appendContext call.job with
  | .error _ => []
  | .ok frame =>
    match call.outcome with
    | .cut n _ => frame.take n
    | .synced | .unsynced => frame

namespace PersistRun

/-- Open the file of a path, and read what it holds. -/
def openOn (json : JobJson) (file : Option Bytes) : Result PersistRun :=
  match (⟨file,false,0⟩ : JobLog).openFile json .opened with
  | (.error e,_) => .error e
  | (.ok (),log) => (log.loadLatest json).map fun jobs => ⟨log,jobs⟩

def step (json : JobJson) (s : PersistRun) (call : PersistCall) : Option PersistRun :=
  let called := s.log.persist json call.job call.outcome
  some ⟨called.2,if called.1.isOk then s.acknowledged ++ [call.job] else s.acknowledged⟩

/-- The store opens again, and loads the last acknowledged snapshot of every id. -/
def Lasts (json : JobJson) (s : PersistRun) : Prop :=
  ∃ reopened jobs, s.log.close.openFile json .opened = (.ok (),reopened) ∧
    reopened.loadLatest json = .ok jobs ∧
      ∀ id job, (latestJobs s.acknowledged).find? id = some job → job ∈ jobs

/-- A call that writes to the file finds only whole frames there, and less of them than a log may
have; the reader accepts its job; and if it fails behind its whole frame, it does not put another
snapshot in the place of one that was acknowledged. -/
structure Clean (json : JobJson) (s : PersistRun) (call : PersistCall) : Prop where
  recordable : call.left json ≠ [] → call.job.Recordable
  boundary : call.left json ≠ [] → ∃ payloads : List Bytes,
    (∀ p ∈ payloads, p.length ≤ kMaxWalRecordBytes) ∧ payloads.length < kMaxWalRecords ∧
      s.log.content = frames kJobMagic payloads
  repeated : json.encodeFrame appendContext call.job = .ok (call.left json) →
    call.outcome ≠ .synced → ∀ job, (latestJobs s.acknowledged).find? call.job.id = some job →
      job = call.job

/-- The file is whole frames and a cut one, and the frames tell what was acknowledged. -/
structure Sound (json : JobJson) (s : PersistRun) : Prop where
  isOpen : s.log.isOpen = true
  file : ∃ jobs bytes tail, Framed json jobs bytes ∧ Cut kJobMagic tail ∧
    s.log.content = bytes ++ tail ∧ RoomFor jobs tail ∧
      ∀ id job, (latestJobs s.acknowledged).find? id = some job →
        (latestJobs jobs).find? id = some job

variable {json : JobJson} {s t : PersistRun} {call : PersistCall}

lemma framed_payloads {jobs : List IngestionJob} {bytes : Bytes} (h : Framed json jobs bytes) :
    ∃ payloads : List Bytes, (∀ p ∈ payloads, p.length ≤ kMaxWalRecordBytes) ∧
      payloads.length = jobs.length ∧ bytes = frames kJobMagic payloads := by
  induction h with
  | nil => exact ⟨[],by simp,rfl,rfl⟩
  | @cons job payload jobs bytes hlength hdecode hrest ih =>
    obtain ⟨payloads,hsizes,hcount,hbytes⟩ := ih
    refine ⟨payload::payloads,List.forall_mem_cons.mpr ⟨hlength,hsizes⟩,?_,?_⟩
    · rw [List.length_cons,List.length_cons,hcount]
    · rw [frames_cons,hbytes]

/-- Whole frames and a cut one are whole frames only if nothing is cut. -/
lemma tail_eq_nil {jobs : List IngestionJob} {bytes tail : Bytes} (h : Framed json jobs bytes)
    (hcut : Cut kJobMagic tail) {payloads : List Bytes}
    (hsizes : ∀ p ∈ payloads, p.length ≤ kMaxWalRecordBytes)
    (heq : bytes ++ tail = frames kJobMagic payloads) :
    tail = [] ∧ payloads.length = jobs.length := by
  obtain ⟨own,hown,hcount,rfl⟩ := framed_payloads h
  obtain ⟨rfl,rfl⟩ := frames_split_unique kJobMagic_fits hown hsizes hcut (cut_nil _)
    (by rw [heq,List.append_nil])
  exact ⟨rfl,hcount⟩

/-- A store that has just been opened has what its file tells. -/
lemma openOn_sound {file : Option Bytes} (h : openOn json file = .ok s) : s.Sound json := by
  unfold openOn JobLog.openFile at h
  cases hvalid : json.validPrefix (⟨file,false,0⟩ : JobLog).content with
  | error e =>
    rw [hvalid] at h
    cases h
  | ok intact =>
    obtain ⟨-,jobs,hframed,hcount⟩ := validPrefix_framed hvalid
    have hroom : RoomFor jobs [] := by simpa [RoomFor] using hcount
    have hload := hframed.loadJobs (cut_nil _) hroom
    rw [List.append_nil] at hload
    rw [hvalid] at h
    change (json.loadJobs ((⟨file,false,0⟩ : JobLog).content.take intact)).map _ = _ at h
    rw [hload] at h
    cases h
    refine ⟨rfl,jobs,_,[],hframed,cut_nil _,(List.append_nil _).symm,hroom,?_⟩
    intro id job hjob
    rwa [latestJobs_sorted] at hjob

/-- A clean call that writes finds the end of a frame. -/
lemma Sound.at_boundary (h : s.Sound json) (hclean : s.Clean json call)
    (hleft : call.left json ≠ []) :
    ∃ jobs, Framed json jobs s.log.content ∧ jobs.length < kMaxWalRecords ∧
      ∀ id job, (latestJobs s.acknowledged).find? id = some job →
        (latestJobs jobs).find? id = some job := by
  obtain ⟨jobs,bytes,tail,hframed,hcut,hcontent,-,htells⟩ := h.file
  obtain ⟨payloads,hsizes,hcount,hfile⟩ := hclean.boundary hleft
  obtain ⟨rfl,hlength⟩ := tail_eq_nil hframed hcut hsizes (hcontent.symm.trans hfile)
  rw [List.append_nil] at hcontent
  exact ⟨jobs,hcontent ▸ hframed,hlength ▸ hcount,htells⟩

/-- A call that leaves nothing in the file. -/
lemma Sound.unwritten (h : s.Sound json) {log : JobLog} (hopen : log.isOpen = true)
    (hlog : log.content = s.log.content) : (⟨log,s.acknowledged⟩ : PersistRun).Sound json := by
  obtain ⟨jobs,bytes,tail,hframed,hcut,hcontent,hroom,htells⟩ := h.file
  exact ⟨hopen,jobs,bytes,tail,hframed,hcut,hlog.trans hcontent,hroom,htells⟩

/-- A call that leaves a part of its frame. -/
lemma Sound.cut (h : s.Sound json) (hclean : s.Clean json call) (hleft : call.left json ≠ [])
    (hcut : Cut kJobMagic (call.left json)) {log : JobLog} (hopen : log.isOpen = true)
    (hlog : log.content = s.log.content ++ call.left json) :
    (⟨log,s.acknowledged⟩ : PersistRun).Sound json := by
  obtain ⟨jobs,hframed,hcount,htells⟩ := h.at_boundary hclean hleft
  refine ⟨hopen,jobs,_,_,hframed,hcut,hlog,?_,htells⟩
  rw [RoomFor,if_neg hleft]
  omega

/-- A call that leaves its whole frame. -/
lemma Sound.whole (h : s.Sound json) (hclean : s.Clean json call) (hjson : json.RoundTrips)
    {payload : Bytes} (hdump : json.dump call.job.record = .ok payload)
    (hlength : payload.length ≤ kMaxWalRecordBytes)
    (hleft : call.left json = frame kJobMagic payload) {log : JobLog} (hopen : log.isOpen = true)
    (hlog : log.content = s.log.content ++ call.left json) {acknowledged : List IngestionJob}
    (hacknowledged : ∀ id job, (latestJobs acknowledged).find? id = some job →
      if id = call.job.id then job = call.job
      else (latestJobs s.acknowledged).find? id = some job) :
    (⟨log,acknowledged⟩ : PersistRun).Sound json := by
  have hne : call.left json ≠ [] := by
    rw [hleft]
    exact frame_ne_nil _ _
  obtain ⟨jobs,hframed,hcount,htells⟩ := h.at_boundary hclean hne
  have hone : Framed json [call.job] (frame kJobMagic payload ++ []) :=
    .cons hlength (hjson.decode (hclean.recordable hne) hdump) .nil
  rw [List.append_nil,← hleft] at hone
  refine ⟨hopen,_,_,[],hframed.append hone,cut_nil _,?_,?_,?_⟩
  · rw [hlog,List.append_nil]
  · simp only [RoomFor,List.length_append,List.length_singleton,if_true]
    omega
  · intro id job hjob
    have hlast := hacknowledged id job hjob
    rw [latestJobs_concat,OrdMap.find?_insert]
    split_ifs at hlast ⊢ with hid
    · rw [hlast]
    · exact htells id job hlast

lemma persist_open {log : JobLog} (hopen : log.isOpen = true) {job : IngestionJob} {bytes : Bytes}
    (hencode : json.encodeFrame appendContext job = .ok bytes) (outcome : Store.WriteOutcome) :
    log.persist json job outcome = match outcome with
      | .synced => (.ok (),{ log with
          file := some (log.content ++ bytes)
          bytes := log.bytes + bytes.length })
      | .unsynced =>
        (fail .ioError "job store fsync failed",{ log with file := some (log.content ++ bytes) })
      | .cut n reason => (fail .ioError ("job store write: " ++ reason),
          { log with file := some (log.content ++ bytes.take n) }) := by
  unfold JobLog.persist
  rw [hencode]
  dsimp only
  exact (if_neg (by simp [hopen])).trans (by cases outcome <;> rfl)

/-- One clean call keeps a store sound. -/
lemma step_sound (hjson : json.RoundTrips) (h : s.Sound json) (hclean : s.Clean json call)
    (hstep : s.step json call = some t) : t.Sound json := by
  unfold step at hstep
  cases hencode : json.encodeFrame appendContext call.job with
  | error e =>
    rw [JobLog.persist,hencode] at hstep
    cases hstep
    exact h
  | ok bytes =>
    obtain ⟨payload,hdump,hlength,rfl⟩ := JobJson.encodeFrame_eq_ok.mp hencode
    have hleft : call.left json = match call.outcome with
        | .cut n _ => (frame kJobMagic payload).take n
        | .synced | .unsynced => frame kJobMagic payload := by
      rw [PersistCall.left,hencode]
    have hunnoticed : call.left json = frame kJobMagic payload → call.outcome ≠ .synced →
        ∀ id job, (latestJobs s.acknowledged).find? id = some job →
          if id = call.job.id then job = call.job
          else (latestJobs s.acknowledged).find? id = some job := by
      intro hwhole hfailed id job hjob
      split_ifs with hid
      · exact hclean.repeated (by rw [hwhole,hencode]) hfailed job (hid ▸ hjob)
      · exact hjob
    rw [persist_open h.isOpen hencode] at hstep
    cases houtcome : call.outcome with
    | synced =>
      rw [houtcome] at hleft hstep
      cases hstep
      refine h.whole hclean hjson hdump hlength hleft ?_ (by rw [hleft]; rfl) ?_
      · exact h.isOpen
      intro id job hjob
      change (latestJobs (s.acknowledged ++ [call.job])).find? id = some job at hjob
      rw [latestJobs_concat,OrdMap.find?_insert] at hjob
      split_ifs at hjob ⊢ with hid
      · exact (Option.some.inj hjob).symm
      · exact hjob
    | unsynced =>
      rw [houtcome] at hleft hunnoticed hstep
      cases hstep
      refine h.whole hclean hjson hdump hlength hleft ?_ (by rw [hleft]; rfl)
        (hunnoticed hleft (by simp))
      exact h.isOpen
    | cut n reason =>
      rw [houtcome] at hleft hunnoticed hstep
      cases hstep
      dsimp only at hleft
      by_cases hwhole : (frame kJobMagic payload).length ≤ n
      · have hall := hleft.trans (List.take_of_length_le hwhole)
        refine h.whole hclean hjson hdump hlength hall ?_ (by rw [hleft]; rfl)
          (hunnoticed hall (by simp))
        exact h.isOpen
      by_cases hnone : call.left json = []
      · refine h.unwritten (by exact h.isOpen) ?_
        change s.log.content ++ (frame kJobMagic payload).take n = _
        rw [← hleft,hnone,List.append_nil]
      · refine h.cut hclean hnone ?_ ?_ (by rw [hleft]; rfl)
        · exact hleft ▸ ⟨payload,hlength,n,not_le.mp hwhole,rfl⟩
        · exact h.isOpen

/-- The next opening of a sound store cuts off what is cut, and finds the rest. -/
lemma Sound.lasts (h : s.Sound json) : s.Lasts json := by
  obtain ⟨jobs,bytes,tail,hframed,hcut,hcontent,hroom,htells⟩ := h.file
  have hvalid := hframed.validPrefix hcut hroom
  have hload := hframed.loadJobs (cut_nil _) (show RoomFor jobs [] by
    have := hroom.whole
    simp only [RoomFor,if_true]
    omega)
  rw [List.append_nil] at hload
  have hopened : s.log.close.openFile json .opened = (.ok (),⟨some bytes,true,bytes.length⟩) := by
    unfold JobLog.openFile
    rw [show s.log.close.content = bytes ++ tail from hcontent,hvalid]
    dsimp only
    rw [List.take_left]
  refine ⟨_,_,hopened,hload,?_⟩
  intro id job hjob
  exact (List.mem_insertionSort _).mpr (OrdMap.mem_values.mpr ⟨id,htells id job hjob⟩)

/-- Over calls of which any may fail, on a file of any content that can be opened, the store opens
again with what it has acknowledged, as long as every call that writes is clean. -/
theorem lasts_of_clean (hjson : json.RoundTrips) {file : Option Bytes}
    (hopen : openOn json file = .ok s)
    {calls : List PersistCall} (hclean : Machine.Meets (step json) (Clean json) s calls)
    (hrun : Machine.run (step json) s calls = some t) : t.Lasts json :=
  (Machine.run_invariant (fun _ _ _ hs hc hstep => step_sound hjson hs hc hstep)
    (openOn_sound hopen) hclean hrun).lasts

open LogRun in
/-- A library that knows two sample jobs. -/
def sampleTable : JobJson := .ofTable
  [((sampleJob (ascii "a".toList)).record,sampleText "a"),
    ((sampleJob (ascii "b".toList)).record,sampleText "b")]

open LogRun in
def sampleCall (id : String) (outcome : Store.WriteOutcome) : PersistCall :=
  ⟨sampleJob (ascii id.toList),outcome⟩

lemma sampleText_inj {x y : String} (h : LogRun.sampleText x = LogRun.sampleText y) :
    ascii x.toList = ascii y.toList := by
  simp only [LogRun.sampleText,ascii,String.toList_append,List.map_append,List.append_assoc,
    List.append_right_inj,List.append_left_inj] at h
  exact h

lemma ofTable_pair {r₁ r₂ : JobRecord} {t₁ t₂ : Bytes} (hr : r₁ ≠ r₂) (ht : t₁ ≠ t₂) :
    (JobJson.ofTable [(r₁,t₁),(r₂,t₂)]).RoundTrips ∧
      (JobJson.ofTable [(r₁,t₁),(r₂,t₂)]).dump r₁ = .ok t₁ ∧
      (JobJson.ofTable [(r₁,t₁),(r₂,t₂)]).dump r₂ = .ok t₂ := by
  refine ⟨JobJson.ofTable_roundTrips (by simpa using ht),?_,?_⟩
  · simp [JobJson.ofTable]
  · simp [JobJson.ofTable,hr]

lemma sampleTable_knows : sampleTable.RoundTrips ∧
    sampleTable.dump (LogRun.sampleJob (ascii "a".toList)).record = .ok (LogRun.sampleText "a") ∧
    sampleTable.dump (LogRun.sampleJob (ascii "b".toList)).record = .ok
    (LogRun.sampleText "b") := by
  have hids : ascii "a".toList ≠ ascii "b".toList := by decide
  exact ofTable_pair (fun h => hids (congrArg JobRecord.id h)) (fun h => hids (sampleText_inj h))

lemma recordable_sampleJob {id : Bytes} (h : id ≠ []) : (LogRun.sampleJob id).Recordable := by
  refine ⟨h,by simp [LogRun.sampleJob,ascii],Nat.one_ne_zero,?_,?_⟩
  · intro d hd
    cases hd
  · intro d hd
    cases hd

lemma encode_sample {id : String} (hid : id.toList.length ≤ 1)
    (hdump : sampleTable.dump (LogRun.sampleJob (ascii id.toList)).record =
      .ok (LogRun.sampleText id)) :
    sampleTable.encodeFrame appendContext (LogRun.sampleJob (ascii id.toList)) =
      .ok (frame kJobMagic (LogRun.sampleText id)) :=
  JobJson.encodeFrame_eq_ok.mpr ⟨_,hdump,LogRun.sampleText_length id hid,rfl⟩

/-- A store on a file that does not exist yet. -/
lemma openOn_none (json : JobJson) : openOn json none = .ok ⟨⟨some [],true,0⟩,[]⟩ := rfl

section
variable {job : IngestionJob} {bytes file : Bytes} {n : ℕ} {acknowledged : List IngestionJob}

lemma step_synced (hencode : json.encodeFrame appendContext job = .ok bytes) :
    step json ⟨⟨some file,true,n⟩,acknowledged⟩ ⟨job,.synced⟩ =
      some ⟨⟨some (file ++ bytes),true,n + bytes.length⟩,acknowledged ++ [job]⟩ := by
  unfold step
  rw [persist_open rfl hencode]
  rfl

lemma step_cut (hencode : json.encodeFrame appendContext job = .ok bytes) (k : ℕ)
    (reason : String) : step json ⟨⟨some file,true,n⟩,acknowledged⟩ ⟨job,.cut k reason⟩ =
      some ⟨⟨some (file ++ bytes.take k),true,n⟩,acknowledged⟩ := by
  unfold step
  rw [persist_open rfl hencode]
  rfl

end

lemma openFile_invalid {blob : Bytes} {e : Error} (h : json.validPrefix blob = .error e) (n : ℕ) :
    ((⟨some blob,true,n⟩ : JobLog).close.openFile json .opened).1 = .error e := by
  unfold JobLog.openFile
  rw [show (⟨some blob,true,n⟩ : JobLog).close.content = blob from rfl,h]

/-- The next frame is read as the rest of the header that was cut off. -/
lemma readFrame_torn (payload next : Bytes) :
    readFrame kJobMagic ((frame kJobMagic payload).take 3 ++ frame kJobMagic next) = .badMagic := by
  have hlong : ¬((frame kJobMagic payload).take 3 ++ frame kJobMagic next).length <
    kHeaderBytes := by
    rw [List.length_append,frame_length]
    omega
  have hmagic : leValue (((frame kJobMagic payload).take 3 ++ frame kJobMagic next).take 4) ≠
      kJobMagic := by
    change leValue [(0x4A : Byte),0x4F,0x42,0x4A] ≠ kJobMagic
    decide
  unfold readFrame
  rw [if_neg hlong]
  exact if_pos hmagic

/-- The first call fails three bytes into its frame; the second is acknowledged, and the store does
not open again. -/
theorem persist_behind_torn_frame_is_lost : sampleTable.RoundTrips ∧ ∃ s t,
    openOn sampleTable none = .ok s ∧
      Machine.run (step sampleTable) s [sampleCall "a" (.cut 3 "disk full"),
        sampleCall "b" .synced] =
        some t ∧ t.acknowledged = [LogRun.sampleJob (ascii "b".toList)] ∧ ¬t.Lasts sampleTable := by
  obtain ⟨hjson,hdumpA,hdumpB⟩ := sampleTable_knows
  have hencodeA := encode_sample (by decide) hdumpA
  have hencodeB := encode_sample (by decide) hdumpB
  have hrun : Machine.run (step sampleTable) ⟨⟨some [],true,0⟩,[]⟩
      [sampleCall "a" (.cut 3 "disk full"),sampleCall "b" .synced] = some
        ⟨⟨some ((frame kJobMagic (LogRun.sampleText "a")).take 3 ++
          frame kJobMagic (LogRun.sampleText "b")),true,
          0 + (frame kJobMagic (LogRun.sampleText "b")).length⟩,
          [LogRun.sampleJob (ascii "b".toList)]⟩ :=
    Machine.run_cons_eq_some.mpr ⟨_,step_cut hencodeA 3 "disk full",
      Machine.run_cons_eq_some.mpr ⟨_,step_synced hencodeB,rfl⟩⟩
  refine ⟨hjson,_,_,openOn_none _,hrun,rfl,?_⟩
  intro hlasts
  obtain ⟨reopened,jobs,hopened,-⟩ := hlasts
  have hvalid : sampleTable.validPrefix ((frame kJobMagic (LogRun.sampleText "a")).take 3 ++
      frame kJobMagic (LogRun.sampleText "b")) =
        fail .corruptIndex "job record header is invalid" := by
    have hroom : ¬0 ≥ kMaxWalRecords := by decide
    simp only [JobJson.validPrefix,scan,scanFrom,readFrame_torn,hroom,if_false]
  have hrefused := openFile_invalid hvalid (0 + (frame kJobMagic (LogRun.sampleText "b")).length)
  rw [hopened] at hrefused
  cases hrefused

/-- An acknowledged call, and one that fails in the middle of its frame. -/
theorem lasts_of_cut : ∃ s t, openOn sampleTable none = .ok s ∧
    Machine.run (step sampleTable) s [sampleCall "a" .synced,sampleCall "b" (.cut 20 "disk full")] =
      some t ∧ t.Lasts sampleTable := by
  obtain ⟨hjson,hdumpA,hdumpB⟩ := sampleTable_knows
  have hencodeA := encode_sample (by decide) hdumpA
  have hencodeB := encode_sample (by decide) hdumpB
  have hfirst := @step_synced sampleTable _ _ [] 0 [] hencodeA
  have hsecond := @step_cut sampleTable _ _ ([] ++ frame kJobMagic (LogRun.sampleText "a"))
    (0 + (frame kJobMagic (LogRun.sampleText "a")).length)
    ([] ++ [LogRun.sampleJob (ascii "a".toList)]) hencodeB 20 "disk full"
  have hrun : Machine.run (step sampleTable) ⟨⟨some [],true,0⟩,[]⟩
      [sampleCall "a" .synced,sampleCall "b" (.cut 20 "disk full")] = some _ :=
    Machine.run_cons_eq_some.mpr ⟨_,hfirst,Machine.run_cons_eq_some.mpr ⟨_,hsecond,rfl⟩⟩
  refine ⟨_,_,openOn_none _,hrun,lasts_of_clean hjson (openOn_none _) ?_ hrun⟩
  refine ⟨⟨?_,?_,?_⟩,fun t ht => ?_⟩
  · exact fun _ => recordable_sampleJob (by decide)
  · exact fun _ => ⟨[],by simp,by decide,rfl⟩
  · exact fun _ h => absurd rfl h
  cases hfirst.symm.trans ht
  refine ⟨⟨?_,?_,?_⟩,fun t ht => trivial⟩
  · exact fun _ => recordable_sampleJob (by decide)
  · refine fun _ => ⟨[LogRun.sampleText "a"],?_,by decide,?_⟩
    · intro p hp
      rw [List.mem_singleton.mp hp]
      exact LogRun.sampleText_length "a" (by decide)
    · rw [frames_cons,frames_nil,List.append_nil]
      rfl
  · intro _ _ job hjob
    have hnone : (latestJobs ([] ++ [LogRun.sampleJob (ascii "a".toList)])).find?
        (ascii "b".toList) = none := by
      rw [latestJobs_concat,OrdMap.find?_insert,if_neg (by decide)]
      rfl
    cases hnone.symm.trans hjob

end PersistRun
end RagRuntime.Ingestion
