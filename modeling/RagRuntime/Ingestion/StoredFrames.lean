import RagRuntime.Ingestion.JobLogPrefix

/-! The store as a list of frames, and the bytes of its log. While every write is whole or leaves
nothing, a call on the bytes is a call on the list and gives the same result. -/
namespace RagRuntime.Ingestion
open RagRuntime.Base RagRuntime.Core RagRuntime.Store

section
variable {json : JobJson} {job : IngestionJob} {jobs jobs' : List IngestionJob}
  {bytes bytes' tail tail' : Bytes}

/-- The same jobs at the front of a file take the same bytes. -/
lemma Framed.front_unique (h : Framed json jobs bytes) (h' : Framed json jobs bytes')
    (heq : bytes ++ tail = bytes' ++ tail') : bytes = bytes' := by
  induction h generalizing bytes' with
  | nil =>
    cases h'
    rfl
  | @cons job payload jobs bytes hlength hdecode hrest ih =>
    cases h' with
    | @cons _ payload' _ rest hlength' hdecode' hrest' =>
      rw [List.append_assoc,List.append_assoc] at heq
      have hread := readFrame_append kJobMagic_fits hlength (bytes ++ tail)
      rw [heq,readFrame_append kJobMagic_fits hlength'] at hread
      obtain ⟨rfl,hbytes⟩ := FrameRead.payload.inj hread
      rw [ih hrest' hbytes.symm]

/-! ### What is too long, and where frames end -/

/-- A scan of more frames than a log may hold fails. -/
lemma scanFrom_excess {σ : Type} {visit : σ → Bytes → Bytes → Result (Visit σ)}
    (next : σ → List IngestionJob → Bytes → σ)
    (hscan : ∀ (fuel : ℕ) (jobs : List IngestionJob) (front back : Bytes) (s : σ) (records : ℕ),
      Framed json jobs front → records + jobs.length ≤ kMaxWalRecords →
        scanFrom visit (fuel + jobs.length) records s (front ++ back) =
          scanFrom visit fuel (records + jobs.length) (next s jobs front) back)
    (h : Framed json jobs bytes) (hmany : kMaxWalRecords < jobs.length) (s : σ) (tail : Bytes) :
    scan visit s (bytes ++ tail) = fail .corruptIndex "job record limit exceeded" := by
  obtain ⟨first,job,rest,rfl,hfirst⟩ : ∃ first job rest, jobs = first ++ job::rest ∧
      first.length = kMaxWalRecords := by
    refine ⟨jobs.take kMaxWalRecords,jobs[kMaxWalRecords],jobs.drop (kMaxWalRecords+1),?_,?_⟩
    · rw [← List.drop_eq_getElem_cons hmany,List.take_append_drop]
    · exact List.length_take_of_le hmany.le
  obtain ⟨front,payload,back,rfl,hfront,hlength⟩ : ∃ front payload back,
      bytes = front ++ (frame kJobMagic payload ++ back) ∧ Framed json first front ∧
        payload.length ≤ kMaxWalRecordBytes := by
    clear hmany hfirst hscan
    induction first generalizing bytes with
    | nil =>
      cases h with
      | @cons _ payload _ back hlength hdecode hrest => exact ⟨[],payload,back,rfl,.nil,hlength⟩
    | cons first firsts ih =>
      cases h with
      | @cons _ payload _ rest hlength hdecode hrest =>
        obtain ⟨front,next,back,rfl,hfront,hnext⟩ := ih hrest
        exact ⟨frame kJobMagic payload ++ front,next,back,(List.append_assoc _ _ _).symm,
          .cons hlength hdecode hfront,hnext⟩
  obtain ⟨fuel,hfuel⟩ := scan_fuel hfront (frame kJobMagic payload ++ back ++ tail)
  rw [List.append_assoc,scan,hfuel,hscan _ _ _ _ _ _ hfront (by omega),List.append_assoc]
  simp only [scanFrom,readFrame_append kJobMagic_fits hlength]
  rw [if_pos (by omega)]

lemma Framed.validPrefix_excess (h : Framed json jobs bytes)
    (hmany : kMaxWalRecords < jobs.length) (tail : Bytes) :
    json.validPrefix (bytes ++ tail) = fail .corruptIndex "job record limit exceeded" :=
  scanFrom_excess (fun position _ front => position + front.length)
    (fun fuel _ _ back position _ hframed hrecords =>
      hframed.scanPosition fuel back position hrecords) h hmany 0 tail

lemma Framed.loadJobs_excess (h : Framed json jobs bytes)
    (hmany : kMaxWalRecords < jobs.length) (tail : Bytes) :
    json.loadJobs (bytes ++ tail) = fail .corruptIndex "job record limit exceeded" := by
  rw [JobJson.loadJobs,scanFrom_excess (fun latest jobs _ =>
      jobs.foldl (fun latest job => latest.insert job.id job) latest)
    (fun fuel _ _ back latest _ hframed hrecords =>
      hframed.scanLatest fuel back latest hrecords) h hmany ∅ tail]
  rfl

lemma splitAtPosition_total (frameSize : IngestionJob → ℕ) {jobs : List IngestionJob}
    (hsizes : ∀ job ∈ jobs, 0 < frameSize job) (jobs' : List IngestionJob) :
    splitAtPosition frameSize (totalSize frameSize jobs) (jobs ++ jobs') = some (jobs,jobs') := by
  induction jobs with
  | nil => rw [totalSize,List.map_nil,List.sum_nil,List.nil_append,splitAtPosition]
  | cons job jobs ih =>
    obtain ⟨hjob,hjobs⟩ := List.forall_mem_cons.mp hsizes
    obtain ⟨p,hp⟩ : ∃ p, totalSize frameSize (job::jobs) = p+1 :=
      Nat.exists_eq_add_one.mpr (by rw [totalSize,List.map_cons,List.sum_cons]; omega)
    have hrest : p+1 - frameSize job = totalSize frameSize jobs := by
      rw [← hp,totalSize,totalSize,List.map_cons,List.sum_cons,Nat.add_sub_cancel_left]
    have hle : frameSize job ≤ p+1 := by
      rw [← hp,totalSize,List.map_cons,List.sum_cons]
      omega
    rw [hp,List.cons_append,splitAtPosition,if_pos hle,hrest,ih hjobs]
    rfl

lemma splitAtPosition_size {frameSize : IngestionJob → ℕ} {position : ℕ}
    {parts : List IngestionJob × List IngestionJob}
    (h : splitAtPosition frameSize position jobs = some parts) :
    totalSize frameSize parts.1 = position := by
  induction jobs generalizing position parts with
  | nil =>
    cases position with
    | zero =>
      rw [splitAtPosition] at h
      cases h
      rfl
    | succ p =>
      rw [splitAtPosition] at h
      cases h
  | cons job jobs ih =>
    cases position with
    | zero =>
      rw [splitAtPosition] at h
      cases h
      rfl
    | succ p =>
      rw [splitAtPosition] at h
      split_ifs at h with hle
      obtain ⟨rest,hrest,rfl⟩ := Option.map_eq_some_iff.mp h
      have htotal := ih hrest
      rw [totalSize] at htotal
      rw [totalSize,List.map_cons,List.sum_cons,htotal]
      omega

/-- A position is a boundary of the file when it is one of the list. -/
lemma splitAtPosition_encoded (hjson : json.RoundTrips)
    (hrecordable : ∀ job ∈ jobs, job.Recordable) (h : json.encodeAll jobs = .ok bytes)
    (hcount : jobs.length ≤ kMaxWalRecords) {position : ℕ} (hposition : position ≤ bytes.length) :
    json.validPrefix (bytes.take position) = .ok position ↔
      ∃ parts, splitAtPosition json.frameSize position jobs = some parts := by
  constructor
  · intro hvalid
    obtain ⟨-,before,hbefore,-⟩ := validPrefix_framed hvalid
    rw [List.take_take,min_self] at hbefore
    have hall := encodeAll_framed hjson hrecordable h
    rw [← List.take_append_drop position bytes] at hall
    obtain ⟨after,rfl,-⟩ := hbefore.split hall
    obtain ⟨front,hfront,back,hback,rfl⟩ := encodeAll_append_eq_ok.mp h
    have hsame := (encodeAll_framed hjson
      (fun job hjob => hrecordable job (List.mem_append_left _ hjob)) hfront).front_unique hbefore
        (List.take_append_drop position (front ++ back)).symm
    have htotal : totalSize json.frameSize before = position := by
      rw [encodeAll_length hfront,hsame,List.length_take_of_le hposition]
    refine ⟨(before,after),?_⟩
    rw [← htotal]
    refine splitAtPosition_total _ (fun job hjob => ?_) after
    obtain ⟨frame,hframe⟩ := encodeAll_writable hfront job hjob
    obtain ⟨payload,-,-,rfl⟩ := JobJson.encodeFrame_eq_ok.mp hframe
    rw [frameSize_eq hframe,frame_length,kHeaderBytes]
    omega
  · rintro ⟨parts,hparts⟩
    obtain rfl := splitAtPosition_append _ hparts
    obtain ⟨front,hfront,back,hback,rfl⟩ := encodeAll_append_eq_ok.mp h
    have hframed := encodeAll_framed hjson
      (fun job hjob => hrecordable job (List.mem_append_left _ hjob)) hfront
    have hroom : RoomFor parts.1 [] := by
      rw [RoomFor,if_pos rfl]
      rw [List.length_append] at hcount
      omega
    have hvalid := hframed.validPrefix (cut_nil kJobMagic) hroom
    rw [List.append_nil] at hvalid
    rw [← splitAtPosition_size hparts,encodeAll_length hfront,List.take_left,hvalid]

end

/-- An open log whose bytes are the frames of the store. -/
structure JobLog.Stores (json : JobJson) (log : JobLog) (s : JobStore) : Prop where
  isOpen : log.isOpen = true
  content : json.encodeAll s.frames = .ok log.content
  recordable : ∀ job ∈ s.frames, job.Recordable
  bytes : log.bytes = s.bytes

/-- A write that is cut leaves nothing of its frame. -/
def WholeWrite : Store.WriteOutcome → Prop
  | .synced | .unsynced => True
  | .cut n _ => n = 0

/-- The calls that change an open log. -/
inductive LogCall where
  | persist (job : IngestionJob) (outcome : Store.WriteOutcome)
  | truncatePrefix (position : ℕ) (retention : JobRetentionPolicy)

/-- The same calls on the list of frames. -/
inductive StoreCall where
  | persist (job : IngestionJob) (outcome : WriteOutcome)
  | truncatePrefix (position : ℕ) (retention : JobRetentionPolicy)

def JobLog.call (json : JobJson) (log : JobLog) : LogCall → Result Unit × JobLog
  | .persist job outcome => log.persist json job outcome
  | .truncatePrefix position retention =>
    log.truncatePrefix json position retention .compacted

def JobStore.call (frameSize : IngestionJob → ℕ) (s : JobStore) : StoreCall → Result Unit × JobStore
  | .persist job outcome => s.persist frameSize job outcome
  | .truncatePrefix position retention =>
    match s.truncatePrefix frameSize position retention with
    | .error e => (.error e,s)
    | .ok t => (.ok (),t)

def LogCall.Whole : LogCall → Prop
  | .persist job outcome => job.Recordable ∧ WholeWrite outcome
  | .truncatePrefix _ _ => True

/-- The results of calls, one after the other, and the state behind them. -/
def runCalls {σ γ : Type} (call : σ → γ → Result Unit × σ) : σ → List γ → List (Result Unit) × σ
  | s,[] => ([],s)
  | s,c::cs =>
    let called := call s c
    let rest := runCalls call called.2 cs
    (called.1::rest.1,rest.2)

namespace JobLog.Stores
variable {json : JobJson} {log : JobLog} {s : JobStore}

lemma framed (h : log.Stores json s) (hjson : json.RoundTrips) :
    Framed json s.frames log.content := encodeAll_framed hjson h.recordable h.content

/-- Opening counts the frames, and cuts off what a crash has left behind them. -/
theorem openFile (hjson : json.RoundTrips) {frames : List IngestionJob} {bytes tail : Bytes}
    (hrecordable : ∀ job ∈ frames, job.Recordable) (hbytes : json.encodeAll frames = .ok bytes)
    (hcut : Cut kJobMagic tail) (hroom : tail = [] ∨ frames.length ≠ kMaxWalRecords)
    (hcontent : log.content = bytes ++ tail) :
    match JobStore.openFile json.frameSize frames with
    | .error e => log.openFile json .opened = (.error e,log)
    | .ok s =>
      ∃ opened, log.openFile json .opened = (.ok (),opened) ∧ opened.Stores json s := by
  have hframed := encodeAll_framed hjson hrecordable hbytes
  unfold JobStore.openFile
  by_cases hcount : frames.length > kMaxWalRecords
  · rw [if_pos hcount]
    dsimp only [fail]
    rw [JobLog.openFile,hcontent,hframed.validPrefix_excess hcount]
    rfl
  rw [if_neg hcount]
  have hroom : RoomFor frames tail := by
    unfold RoomFor
    split_ifs with htail
    · omega
    · have := hroom.resolve_left htail
      omega
  refine ⟨⟨some bytes,true,bytes.length⟩,?_,rfl,hbytes,hrecordable,(encodeAll_length hbytes).symm⟩
  rw [JobLog.openFile,hcontent,hframed.validPrefix hcut hroom]
  dsimp only
  rw [List.take_left]

/-- What is loaded of the bytes is what is loaded of the list. -/
theorem loadLatest (h : log.Stores json s) (hjson : json.RoundTrips) :
    log.loadLatest json = s.loadLatest := by
  have hframed := h.framed hjson
  rw [JobLog.loadLatest,JobStore.loadLatest,← List.append_nil log.content]
  by_cases hcount : s.frames.length > kMaxWalRecords
  · rw [if_pos hcount,hframed.loadJobs_excess hcount]
  · rw [if_neg hcount,hframed.loadJobs (cut_nil kJobMagic)]
    rw [RoomFor,if_pos rfl]
    omega

lemma persist (h : log.Stores json s) {job : IngestionJob} (hjob : job.Recordable)
    {outcome : Store.WriteOutcome} (hwhole : WholeWrite outcome) :
    ∃ written, (log.persist json job outcome).1 = (s.persist json.frameSize job written).1 ∧
      (log.persist json job outcome).2.Stores json (s.persist json.frameSize job written).2 := by
  unfold JobLog.persist
  cases hencode : json.encodeFrame appendContext job with
  | error e => exact ⟨.refused e,rfl,h⟩
  | ok frame =>
    have hframe := encodeFrame_context.mp hencode
    dsimp only
    rw [if_neg (by simp [h.isOpen])]
    have hgrown : json.encodeAll (s.frames ++ [job]) = .ok (log.content ++ frame) :=
      encodeAll_append_eq_ok.mpr ⟨log.content,h.content,frame,
        encodeAll_cons_eq_ok.mpr ⟨frame,hframe,[],rfl,(List.append_nil _).symm⟩,rfl⟩
    have hrecordable : ∀ other ∈ s.frames ++ [job], other.Recordable :=
      List.forall_mem_append.mpr ⟨h.recordable,List.forall_mem_singleton.mpr hjob⟩
    cases outcome with
    | synced =>
      refine ⟨.synced,rfl,h.isOpen,hgrown,hrecordable,?_⟩
      change log.bytes + frame.length = s.bytes + json.frameSize job
      rw [h.bytes,frameSize_eq hframe]
    | unsynced => exact ⟨.unsynced,rfl,h.isOpen,hgrown,hrecordable,h.bytes⟩
    | cut n reason =>
      obtain rfl : n = 0 := hwhole
      refine ⟨.refused ⟨.ioError,"job store write: " ++ reason⟩,rfl,h.isOpen,?_,h.recordable,
        h.bytes⟩
      change _ = Except.ok (log.content ++ frame.take 0)
      rw [List.take_zero,List.append_nil,JobStore.persist,h.content]

lemma truncatePrefix (h : log.Stores json s) (hjson : json.RoundTrips) (position : ℕ)
    (retention : JobRetentionPolicy) :
    match s.truncatePrefix json.frameSize position retention with
    | .error e => log.truncatePrefix json position retention .compacted = (.error e,log)
    | .ok t => ∃ log', log.truncatePrefix json position retention .compacted = (.ok (),log') ∧
        log'.Stores json t := by
  have hframed := h.framed hjson
  have hopen : ¬log.isOpen = false := by simp [h.isOpen]
  unfold JobStore.truncatePrefix JobLog.truncatePrefix
  rw [if_neg hopen]
  by_cases hcount : s.frames.length > kMaxWalRecords
  · have hvalid := hframed.validPrefix_excess hcount []
    rw [List.append_nil] at hvalid
    rw [if_pos hcount,hvalid]
    rfl
  have hroom : RoomFor s.frames [] := by
    rw [RoomFor,if_pos rfl]
    omega
  have hvalid := hframed.validPrefix (cut_nil kJobMagic) hroom
  rw [List.append_nil] at hvalid
  rw [if_neg hcount,hvalid,encodeAll_length h.content]
  dsimp only
  by_cases hposition : position > log.content.length
  · rw [if_pos hposition,if_pos hposition]
    rfl
  rw [if_neg hposition,if_neg hposition]
  have hboundary := splitAtPosition_encoded hjson h.recordable h.content (not_lt.mp hcount)
    (not_lt.mp hposition)
  cases hparts : splitAtPosition json.frameSize position s.frames with
  | none =>
    have hinvalid : json.validPrefix (log.content.take position) ≠ .ok position := by
      intro hvalid
      obtain ⟨parts,hsome⟩ := hboundary.mp hvalid
      rw [hparts] at hsome
      cases hsome
    rw [if_pos hinvalid]
    rfl
  | some parts =>
    rw [if_neg (not_not.mpr (hboundary.mpr ⟨parts,hparts⟩))]
    dsimp only
    by_cases hzero : position = 0
    · rw [if_pos hzero,if_pos ⟨hzero,rfl⟩]
      exact ⟨log,rfl,h⟩
    rw [if_neg hzero,if_neg (fun hnone => hzero hnone.1)]
    have hframes := splitAtPosition_append _ hparts
    have hsize := splitAtPosition_size hparts
    have hall := h.content
    rw [← hframes] at hall
    obtain ⟨front,hfront,back,hback,hbytes⟩ := encodeAll_append_eq_ok.mp hall
    have hrecordable : ∀ job ∈ parts.1 ++ parts.2, job.Recordable := hframes ▸ h.recordable
    obtain ⟨compacted,hcompacted,hwritten⟩ := compactedLog_encoded retention hjson
      (fun job hjob => hrecordable job (List.mem_append_left _ hjob)) hfront hback []
    rw [List.append_nil,← hbytes,← encodeAll_length hfront,hsize] at hcompacted
    rw [hcompacted]
    refine ⟨⟨some compacted,true,compacted.length⟩,rfl,rfl,hwritten,?_,
      (encodeAll_length hwritten).symm⟩
    intro job hjob
    obtain hjob | hjob := List.mem_append.mp hjob
    · exact hrecordable job (List.mem_append_left _
        (latestJobs_mem ((mem_retainPrefix _ _ _).1 job hjob)).1)
    · exact hrecordable job (List.mem_append_right _ hjob)

/-- A call on the bytes is a call on the list. -/
lemma call (h : log.Stores json s) (hjson : json.RoundTrips) {c : LogCall} (hwhole : c.Whole) :
    ∃ stored, (log.call json c).1 = (s.call json.frameSize stored).1 ∧
      (log.call json c).2.Stores json (s.call json.frameSize stored).2 := by
  cases c with
  | persist job outcome =>
    obtain ⟨written,hresult,hstores⟩ := h.persist hwhole.1 hwhole.2
    exact ⟨.persist job written,hresult,hstores⟩
  | truncatePrefix position retention =>
    have htruncated := h.truncatePrefix hjson position retention
    refine ⟨.truncatePrefix position retention,?_⟩
    change (log.truncatePrefix json position retention .compacted).1 = _ ∧
      (log.truncatePrefix json position retention .compacted).2.Stores json _
    rw [JobStore.call]
    cases hstore : s.truncatePrefix json.frameSize position retention with
    | error e =>
      rw [hstore] at htruncated
      dsimp only at htruncated ⊢
      rw [htruncated]
      exact ⟨rfl,h⟩
    | ok t =>
      rw [hstore] at htruncated
      obtain ⟨log',hlog,hstores⟩ := htruncated
      dsimp only
      rw [hlog]
      exact ⟨rfl,hstores⟩

/-- Calls on the bytes are calls on the list: they end alike, and so does what is loaded then. -/
theorem run_stores (hjson : json.RoundTrips) (h : log.Stores json s) {calls : List LogCall}
    (hwhole : ∀ c ∈ calls, c.Whole) :
    ∃ stored : List StoreCall,
      (runCalls (JobLog.call json) log calls).1 =
        (runCalls (JobStore.call json.frameSize) s stored).1 ∧
      (runCalls (JobLog.call json) log calls).2.Stores json
        (runCalls (JobStore.call json.frameSize) s stored).2 ∧
      (runCalls (JobLog.call json) log calls).2.loadLatest json =
        (runCalls (JobStore.call json.frameSize) s stored).2.loadLatest := by
  induction calls generalizing log s with
  | nil => exact ⟨[],rfl,h,h.loadLatest hjson⟩
  | cons c calls ih =>
    obtain ⟨hcall,hcalls⟩ := List.forall_mem_cons.mp hwhole
    obtain ⟨stored,hresult,hstores⟩ := h.call hjson hcall
    obtain ⟨rest,hresults,hrest,hload⟩ := ih hstores hcalls
    refine ⟨stored::rest,?_,hrest,hload⟩
    change _::_ = _::_
    rw [hresult,hresults]

end JobLog.Stores
end RagRuntime.Ingestion
