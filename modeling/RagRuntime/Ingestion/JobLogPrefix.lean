import RagRuntime.Base.Fallible
import RagRuntime.Ingestion.JobLogRun
import RagRuntime.Ingestion.Retention

/-! The compaction of a represented prefix of the job log: which snapshots it leaves. -/
namespace RagRuntime.Ingestion
open RagRuntime.Base RagRuntime.Core RagRuntime.Store

/-- The size of the frame that compaction writes for a job. -/
def JobJson.frameSize (json : JobJson) (job : IngestionJob) : ℕ :=
  match json.encodeFrame compactContext job with
  | .error _ => 0
  | .ok frame => frame.length

/-- The terminal jobs of a prefix that are chosen, newest first, as far as the bounds go. -/
def JobJson.chosen (json : JobJson) (retention : JobRetentionPolicy)
    (before : List IngestionJob) : List IngestionJob :=
  retainTerminal json.frameSize retention
    (((latestJobs before).values.filter fun job => terminal job.status).insertionSort NewestFirst)
    0 0

/-- The last snapshot of a job in the prefix survives if it is not terminal, or chosen. -/
structure JobJson.Survives (json : JobJson) (retention : JobRetentionPolicy)
    (before : List IngestionJob) (job : IngestionJob) : Prop where
  latest : (latestJobs before).find? job.id = some job
  kept : terminal job.status = false ∨ job ∈ json.chosen retention before

/-- The position is the end of whole frames that can be read. -/
def JobJson.Boundary (json : JobJson) (blob : Bytes) (position : ℕ) : Prop :=
  position ≤ blob.length ∧ ∃ jobs, Framed json jobs (blob.take position)

/-- What is loaded after compaction: the last snapshots behind the position, and for the other ids
those that survive of the prefix. -/
structure JobLog.Compacts (json : JobJson) (retention : JobRetentionPolicy)
    (before after loaded : List IngestionJob) : Prop where
  sorted : loaded.Pairwise OldestFirst
  ids : (loaded.map IngestionJob.id).Nodup
  mem : ∀ job, job ∈ loaded ↔ (latestJobs after).find? job.id = some job ∨
    (latestJobs after).find? job.id = none ∧ json.Survives retention before job

section
variable {json : JobJson} {jobs : List IngestionJob} {bytes blob : Bytes}
  {retention : JobRetentionPolicy}

lemma scanPosition_framed {fuel records position n : ℕ} {input : Bytes}
    (h : scanFrom json.visitPosition fuel records position input = .ok n)
    (hrecords : records ≤ kMaxWalRecords) :
    ∃ jobs front back, input = front ++ back ∧ Framed json jobs front ∧
      n = position + front.length ∧ records + jobs.length ≤ kMaxWalRecords := by
  induction fuel generalizing records position input with
  | zero =>
    cases h
    exact ⟨[],[],input,rfl,.nil,rfl,hrecords⟩
  | succ fuel ih =>
    have hnone : ∃ jobs front back, input = front ++ back ∧ Framed json jobs front ∧
        position = position + front.length ∧ records + jobs.length ≤ kMaxWalRecords :=
      ⟨[],[],input,rfl,.nil,rfl,hrecords⟩
    simp only [scanFrom] at h
    cases hread : readFrame kJobMagic input with
    | short =>
      rw [hread] at h
      cases h
      exact hnone
    | badMagic =>
      simp only [hread] at h
      split_ifs at h <;> cases h
    | tooLarge =>
      simp only [hread] at h
      split_ifs at h <;> cases h
    | torn =>
      simp only [hread] at h
      split_ifs at h
      · cases h
      · cases h
        exact hnone
    | badCrc last =>
      simp only [hread] at h
      split_ifs at h
      · cases h
      · cases h
        exact hnone
      · cases h
    | payload payload rest =>
      simp only [hread] at h
      split_ifs at h with hlimit
      · cases h
      · obtain ⟨hinput,hlength⟩ := readFrame_payload hread
        unfold JobJson.visitPosition at h
        cases hdecode : json.decode payload with
        | error what =>
          rw [hdecode] at h
          dsimp only at h
          by_cases hrest : rest = []
          · rw [if_pos hrest] at h
            cases h
            exact hnone
          · rw [if_neg hrest] at h
            cases h
        | ok job =>
          rw [hdecode] at h
          obtain ⟨jobs,front,back,rfl,hframed,hn,hcount⟩ := ih h (by omega)
          refine ⟨job::jobs,frame kJobMagic payload ++ front,back,?_,.cons hlength hdecode hframed,
            ?_,?_⟩
          · rw [hinput,List.append_assoc]
          · rw [hn,List.length_append,frame_length]
            omega
          · rw [List.length_cons]
            omega

/-- What is intact of a file are whole frames. -/
theorem validPrefix_framed {n : ℕ} (h : json.validPrefix blob = .ok n) :
    n ≤ blob.length ∧ ∃ jobs, Framed json jobs (blob.take n) ∧ jobs.length ≤ kMaxWalRecords := by
  obtain ⟨jobs,front,back,rfl,hframed,hn,hcount⟩ := scanPosition_framed h (Nat.zero_le _)
  rw [Nat.zero_add] at hn hcount
  subst hn
  refine ⟨by rw [List.length_append]; omega,jobs,?_,hcount⟩
  rw [List.take_left]
  exact hframed

lemma Framed.recordable (h : Framed json jobs bytes) : ∀ job ∈ jobs, job.Recordable := by
  induction h with
  | nil => simp
  | cons hlength hdecode hrest ih =>
    exact List.forall_mem_cons.mpr ⟨JobJson.recordable_of_decode hdecode,ih⟩

lemma Framed.latestOfPrefix (h : Framed json jobs bytes) {fuel : ℕ} (hfuel : jobs.length < fuel)
    (latest : OrdMap JobId IngestionJob) : json.latestOfPrefix fuel bytes latest =
      .ok (jobs.foldl (fun latest job => latest.insert job.id job) latest) := by
  induction h generalizing fuel latest with
  | nil =>
    obtain ⟨fuel,rfl⟩ := Nat.exists_eq_add_of_lt hfuel
    rfl
  | @cons job payload jobs bytes hlength hdecode hrest ih =>
    rw [List.length_cons] at hfuel
    obtain ⟨fuel,rfl⟩ : ∃ n, fuel = n+1 := ⟨fuel-1,by omega⟩
    have hne : frame kJobMagic payload ++ bytes ≠ [] := by
      intro hnil
      exact frame_ne_nil _ _ (List.append_eq_nil_iff.mp hnil).1
    have hlong : ¬(frame kJobMagic payload ++ bytes).length < kHeaderBytes := by
      rw [List.length_append,frame_length]
      omega
    obtain ⟨-,hlen,-,hbody⟩ := frameHeader_fields kJobMagic_fits hlength (payload ++ bytes)
    rw [← List.append_assoc,← frame] at hlen hbody
    unfold JobJson.latestOfPrefix
    rw [if_neg hne,if_neg hlong]
    simp only [hlen,hbody,List.take_left,hdecode,List.drop_left]
    rw [ih (by omega),List.foldl_cons]

lemma retainFrames_eq {candidates kept : List IngestionJob} {count size : ℕ}
    (h : json.retainFrames retention candidates count size = .ok kept) :
    kept = retainTerminal json.frameSize retention candidates count size := by
  induction candidates generalizing count size kept with
  | nil =>
    cases h
    rfl
  | cons job rest ih =>
    unfold JobJson.retainFrames at h
    unfold retainTerminal
    by_cases hcount : count ≥ retention.maxTerminalJobs
    · rw [if_pos hcount] at h ⊢
      cases h
      rfl
    rw [if_neg hcount] at h ⊢
    cases hencode : json.encodeFrame compactContext job with
    | error e =>
      rw [hencode] at h
      cases h
    | ok frame =>
      have hframe : json.frameSize job = frame.length := by
        rw [JobJson.frameSize,hencode]
      rw [hencode] at h
      rw [hframe]
      dsimp only at h
      by_cases hsize : frame.length > retention.maxTerminalBytes - size
      · rw [if_pos hsize] at h ⊢
        exact ih h
      rw [if_neg hsize] at h ⊢
      cases hrest : json.retainFrames retention rest (count+1) (size + frame.length) with
      | error e =>
        rw [hrest] at h
        cases h
      | ok others =>
        rw [hrest] at h
        cases h
        rw [← ih hrest]

lemma encodeAll_framed (hjson : json.RoundTrips) (hjobs : ∀ job ∈ jobs, job.Recordable)
    (h : json.encodeAll jobs = .ok bytes) : Framed json jobs bytes := by
  induction jobs generalizing bytes with
  | nil =>
    cases h
    exact .nil
  | cons job rest ih =>
    unfold JobJson.encodeAll at h
    cases hencode : json.encodeFrame compactContext job with
    | error e =>
      rw [hencode] at h
      cases h
    | ok head =>
      cases htail : json.encodeAll rest with
      | error e =>
        rw [hencode,htail] at h
        cases h
      | ok tail =>
        rw [hencode,htail] at h
        cases h
        obtain ⟨payload,hdump,hlength,rfl⟩ := JobJson.encodeFrame_eq_ok.mp hencode
        exact .cons hlength (hjson.decode (hjobs job List.mem_cons_self) hdump)
          (ih (fun other hother => hjobs other (List.mem_cons_of_mem _ hother)) htail)

/-- The frames of what is retained of the prefix stand before those behind the position. -/
lemma compactedLog_framed (hjson : json.RoundTrips) {before after : List IngestionJob}
    {position intact : ℕ} {compacted : Bytes}
    (hbefore : Framed json before (blob.take position))
    (hafter : Framed json after ((blob.take intact).drop position))
    (h : json.compactedLog blob position intact retention = .ok compacted) :
    Framed json (retainPrefix json.frameSize retention before ++ after) compacted := by
  unfold JobJson.compactedLog at h
  have hfuel : before.length < position+1 := by
    have := hbefore.length_le
    rw [List.length_take] at this
    omega
  rw [hbefore.latestOfPrefix hfuel] at h
  change (do
    let kept ← json.retainFrames retention
      (((latestJobs before).values.filter
        fun job : IngestionJob => terminal job.status).insertionSort NewestFirst) 0 0
    let selected := (((latestJobs before).values.filter
      fun job : IngestionJob => terminal job.status = false) ++ kept).insertionSort OldestFirst
    let frames ← json.encodeAll selected
    return frames ++ (blob.take intact).drop position) = _ at h
  cases hkept : json.retainFrames retention
      (((latestJobs before).values.filter fun job => terminal job.status).insertionSort NewestFirst)
      0 0 with
  | error e =>
    rw [hkept] at h
    cases h
  | ok kept =>
    obtain rfl := retainFrames_eq hkept
    rw [hkept] at h
    change (do
      let frames ← json.encodeAll (retainPrefix json.frameSize retention before)
      return frames ++ (blob.take intact).drop position) = _ at h
    cases hencode : json.encodeAll (retainPrefix json.frameSize retention before) with
    | error e =>
      rw [hencode] at h
      cases h
    | ok frames =>
      rw [hencode] at h
      cases h
      refine (encodeAll_framed hjson ?_ hencode).append hafter
      intro job hjob
      exact hbefore.recordable job (latestJobs_mem ((mem_retainPrefix _ _ _).1 job hjob)).1

/-! ### What is loaded of a compacted log -/

lemma mem_retainPrefix_iff {before : List IngestionJob} {job : IngestionJob} :
    job ∈ retainPrefix json.frameSize retention before ↔ json.Survives retention before job := by
  constructor
  · intro h
    refine ⟨(mem_retainPrefix _ _ _).1 job h,?_⟩
    unfold retainPrefix at h
    dsimp only at h
    rw [List.mem_insertionSort,List.mem_append,List.mem_filter] at h
    exact h.imp (fun hopen => by simpa using hopen.2) id
  · intro h
    obtain hopen | hchosen := h.kept
    · exact (mem_retainPrefix _ _ _).2 job h.latest hopen
    · unfold retainPrefix
      dsimp only
      rw [List.mem_insertionSort,List.mem_append]
      exact Or.inr hchosen

lemma latestJobs_retainPrefix {before : List IngestionJob} {job : IngestionJob} :
    (latestJobs (retainPrefix json.frameSize retention before)).find? job.id = some job ↔
      json.Survives retention before job := by
  rw [← mem_retainPrefix_iff]
  constructor
  · exact fun h => (latestJobs_mem h).1
  · intro h
    obtain ⟨last,hlast⟩ := latestJobs_isSome h
    have hsame := (abridges_retainPrefix json.frameSize retention before).sound _ _ hlast
    rw [(mem_retainPrefix _ _ _).1 job h] at hsame
    rw [hlast,hsame]

lemma retainPrefix_nodup (before : List IngestionJob) :
    (retainPrefix json.frameSize retention before).Nodup := by
  have hvalues : (latestJobs before).values.Nodup := (latestJobs_values_nodup before).of_map _
  unfold retainPrefix
  dsimp only
  rw [(List.perm_insertionSort _ _).nodup_iff]
  have hsublist := retainTerminal_sublist json.frameSize retention
    (((latestJobs before).values.filter fun job => terminal job.status).insertionSort NewestFirst)
    0 0
  refine (hvalues.filter _).append (hsublist.nodup ?_) ?_
  · rw [(List.perm_insertionSort _ _).nodup_iff]
    exact hvalues.filter _
  · intro job hopen hkept
    have hterminal := (List.mem_insertionSort _).mp (hsublist.subset hkept)
    have h := (List.mem_filter.mp hopen).2
    rw [(List.mem_filter.mp hterminal).2] at h
    cases h

/-- Compaction writes no more frames than there were. -/
lemma retainPrefix_length_le (json : JobJson) (retention : JobRetentionPolicy)
    (before : List IngestionJob) :
    (retainPrefix json.frameSize retention before).length ≤ before.length := by
  apply List.Subperm.length_le
  apply List.subperm_of_subset (retainPrefix_nodup before)
  intro job hjob
  exact (latestJobs_mem ((mem_retainPrefix _ _ _).1 job hjob)).1

lemma compacts_sorted (before after : List IngestionJob) :
    JobLog.Compacts json retention before after
      ((latestJobs (retainPrefix json.frameSize retention before ++ after)).values.insertionSort
        OldestFirst) := by
  refine ⟨List.pairwise_insertionSort _ _,?_,?_⟩
  · rw [((List.perm_insertionSort _ _).map _).nodup_iff]
    exact latestJobs_values_nodup _
  · intro job
    rw [List.mem_insertionSort,mem_latestJobs_values,latestJobs_append_find?,Option.or_eq_some_iff,
      latestJobs_retainPrefix]

/-- The compacted log can be loaded. -/
lemma loadJobs_compacted (before : List IngestionJob) {after : List IngestionJob}
    {compacted : Bytes}
    (h : Framed json (retainPrefix json.frameSize retention before ++ after) compacted)
    (hcount : (before ++ after).length ≤ kMaxWalRecords) :
    ∃ loaded, json.loadJobs compacted = .ok loaded ∧
      JobLog.Compacts json retention before after loaded := by
  have hroom : RoomFor (retainPrefix json.frameSize retention before ++ after) [] := by
    have hlength := retainPrefix_length_le json retention before
    rw [RoomFor,if_pos rfl]
    rw [List.length_append] at hcount ⊢
    omega
  have hload := h.loadJobs (cut_nil kJobMagic) hroom
  rw [List.append_nil] at hload
  exact ⟨_,hload,compacts_sorted before after⟩

end

/-! ### What can be written -/

section
variable {json : JobJson} {job : IngestionJob} {jobs jobs' : List IngestionJob}
  {bytes bytes' : Bytes}

/-- A job that has a frame. -/
def JobJson.Writable (json : JobJson) (job : IngestionJob) : Prop :=
  ∃ frame, json.encodeFrame compactContext job = .ok frame

lemma encodeFrame_context {context : String} :
    json.encodeFrame context job = .ok bytes ↔ json.encodeFrame compactContext job = .ok bytes := by
  rw [JobJson.encodeFrame_eq_ok,JobJson.encodeFrame_eq_ok]

lemma frameSize_eq (h : json.encodeFrame compactContext job = .ok bytes) :
    json.frameSize job = bytes.length := by
  rw [JobJson.frameSize,h]

lemma encodeAll_cons_eq_ok : json.encodeAll (job::jobs) = .ok bytes ↔
    ∃ frame, json.encodeFrame compactContext job = .ok frame ∧
      ∃ frames, json.encodeAll jobs = .ok frames ∧ bytes = frame ++ frames := by
  rw [JobJson.encodeAll,bind_eq_ok]
  refine exists_congr fun frame => and_congr_right fun _ => ?_
  rw [bind_eq_ok]
  refine exists_congr fun frames => and_congr_right fun _ => ?_
  exact ⟨fun h => (Except.ok.inj h).symm,fun h => congrArg Except.ok h.symm⟩

lemma encodeAll_append_eq_ok : json.encodeAll (jobs ++ jobs') = .ok bytes ↔
    ∃ front, json.encodeAll jobs = .ok front ∧
      ∃ back, json.encodeAll jobs' = .ok back ∧ bytes = front ++ back := by
  induction jobs generalizing bytes with
  | nil => simp [JobJson.encodeAll]
  | cons job jobs ih =>
    rw [List.cons_append,encodeAll_cons_eq_ok]
    constructor
    · rintro ⟨frame,hframe,frames,hframes,rfl⟩
      obtain ⟨front,hfront,back,hback,rfl⟩ := ih.mp hframes
      exact ⟨frame ++ front,encodeAll_cons_eq_ok.mpr ⟨frame,hframe,front,hfront,rfl⟩,back,hback,
        (List.append_assoc _ _ _).symm⟩
    · rintro ⟨front,hfront,back,hback,rfl⟩
      obtain ⟨frame,hframe,frames,hframes,rfl⟩ := encodeAll_cons_eq_ok.mp hfront
      exact ⟨frame,hframe,frames ++ back,ih.mpr ⟨frames,hframes,back,hback,rfl⟩,
        List.append_assoc _ _ _⟩

lemma encodeAll_writable (h : json.encodeAll jobs = .ok bytes) :
    ∀ job ∈ jobs, json.Writable job := by
  induction jobs generalizing bytes with
  | nil => simp
  | cons job jobs ih =>
    obtain ⟨frame,hframe,frames,hframes,rfl⟩ := encodeAll_cons_eq_ok.mp h
    exact List.forall_mem_cons.mpr ⟨⟨frame,hframe⟩,ih hframes⟩

lemma encodeAll_of_writable (h : ∀ job ∈ jobs, json.Writable job) :
    ∃ bytes, json.encodeAll jobs = .ok bytes := by
  induction jobs with
  | nil => exact ⟨[],rfl⟩
  | cons job jobs ih =>
    obtain ⟨⟨frame,hframe⟩,hjobs⟩ := List.forall_mem_cons.mp h
    obtain ⟨frames,hframes⟩ := ih hjobs
    exact ⟨frame ++ frames,encodeAll_cons_eq_ok.mpr ⟨frame,hframe,frames,hframes,rfl⟩⟩

/-- The sizes of the frames add up to the length of the file. -/
lemma encodeAll_length (h : json.encodeAll jobs = .ok bytes) :
    totalSize json.frameSize jobs = bytes.length := by
  induction jobs generalizing bytes with
  | nil =>
    cases h
    rfl
  | cons job jobs ih =>
    obtain ⟨frame,hframe,frames,hframes,rfl⟩ := encodeAll_cons_eq_ok.mp h
    have hrest := ih hframes
    rw [totalSize] at hrest
    rw [totalSize,List.map_cons,List.sum_cons,hrest,frameSize_eq hframe,List.length_append]

lemma retainFrames_of_writable (retention : JobRetentionPolicy)
    (h : ∀ job ∈ jobs, json.Writable job) (count size : ℕ) :
    json.retainFrames retention jobs count size =
      .ok (retainTerminal json.frameSize retention jobs count size) := by
  suffices hsome : ∃ kept, json.retainFrames retention jobs count size = .ok kept by
    obtain ⟨kept,hkept⟩ := hsome
    rw [hkept,retainFrames_eq hkept]
  induction jobs generalizing count size with
  | nil => exact ⟨[],rfl⟩
  | cons job jobs ih =>
    obtain ⟨⟨frame,hframe⟩,hjobs⟩ := List.forall_mem_cons.mp h
    unfold JobJson.retainFrames
    by_cases hcount : count ≥ retention.maxTerminalJobs
    · exact ⟨[],if_pos hcount⟩
    rw [if_neg hcount,hframe]
    dsimp only
    by_cases hsize : frame.length > retention.maxTerminalBytes - size
    · rw [if_pos hsize]
      exact ih hjobs count size
    · rw [if_neg hsize]
      obtain ⟨kept,hkept⟩ := ih hjobs (count+1) (size + frame.length)
      rw [hkept]
      exact ⟨job::kept,rfl⟩

/-- Compaction does not fail on frames that have been written. -/
lemma compactedLog_encoded (retention : JobRetentionPolicy) (hjson : json.RoundTrips)
    (hrecordable : ∀ job ∈ jobs, job.Recordable)
    (hfront : json.encodeAll jobs = .ok bytes) (hback : json.encodeAll jobs' = .ok bytes')
    (tail : Bytes) :
    ∃ compacted, json.compactedLog (bytes ++ bytes' ++ tail) bytes.length
        (bytes ++ bytes').length retention = .ok compacted ∧
      json.encodeAll (retainPrefix json.frameSize retention jobs ++ jobs') = .ok compacted := by
  have hframed := encodeAll_framed hjson hrecordable hfront
  have hwritable := encodeAll_writable hfront
  have hvalues : ∀ job ∈ (latestJobs jobs).values, json.Writable job :=
    fun job hjob => hwritable job (latestJobs_mem (mem_latestJobs_values.mp hjob)).1
  have hretained : ∀ job ∈ retainPrefix json.frameSize retention jobs, json.Writable job :=
    fun job hjob => hwritable job (latestJobs_mem ((mem_retainPrefix _ _ _).1 job hjob)).1
  obtain ⟨frames,hframes⟩ := encodeAll_of_writable hretained
  refine ⟨frames ++ bytes',?_,encodeAll_append_eq_ok.mpr ⟨frames,hframes,bytes',hback,rfl⟩⟩
  have hlatest : json.latestOfPrefix (bytes.length+1) bytes ∅ = .ok (latestJobs jobs) :=
    hframed.latestOfPrefix (Nat.lt_succ_of_le hframed.length_le) ∅
  have hterminal : ∀ job ∈ ((latestJobs jobs).values.filter fun job =>
      terminal job.status).insertionSort NewestFirst, json.Writable job :=
    fun job hjob => hvalues job (List.mem_filter.mp ((List.mem_insertionSort _).mp hjob)).1
  unfold JobJson.compactedLog
  rw [List.take_left,List.append_assoc,List.take_left,hlatest,List.drop_left]
  change (do
    let kept ← json.retainFrames retention (((latestJobs jobs).values.filter
      fun job : IngestionJob => terminal job.status).insertionSort NewestFirst) 0 0
    let selected := (((latestJobs jobs).values.filter
      fun job : IngestionJob => terminal job.status = false) ++ kept).insertionSort OldestFirst
    let frames ← json.encodeAll selected
    return frames ++ bytes') = _
  rw [retainFrames_of_writable retention hterminal]
  change (do
    let frames ← json.encodeAll (retainPrefix json.frameSize retention jobs)
    return frames ++ bytes') = _
  rw [hframes]
  rfl

lemma encodeAll_texts {texts : List Bytes}
    (h : List.Forall₂ (fun job text => json.dump job.record = .ok text ∧
      text.length ≤ kMaxWalRecordBytes) jobs texts) :
    json.encodeAll jobs = .ok (frames kJobMagic texts) := by
  induction h with
  | nil => rfl
  | cons hjob hjobs ih =>
    rw [frames_cons]
    exact encodeAll_cons_eq_ok.mpr
      ⟨_,JobJson.encodeFrame_eq_ok.mpr ⟨_,hjob.1,hjob.2,rfl⟩,_,ih,rfl⟩

end

/-- What a truncation leaves: the frames before and behind the position, compacted. -/
def JobLog.Compacted (json : JobJson) (retention : JobRetentionPolicy) (position : ℕ)
    (blob blob' : Bytes) : Prop :=
  ∃ intact before after loaded, json.validPrefix blob = .ok intact ∧ position ≤ intact ∧
    Framed json before (blob.take position) ∧ Framed json after ((blob.take intact).drop position) ∧
    json.loadJobs blob' = .ok loaded ∧ JobLog.Compacts json retention before after loaded

section
variable {json : JobJson} {blob : Bytes} {retention : JobRetentionPolicy} {position intact : ℕ}

/-- A boundary cuts what is intact into the frames before and behind it. -/
lemma framed_at_boundary (hintact : json.validPrefix blob = .ok intact)
    (hposition : position ≤ intact)
    (hboundary : json.validPrefix (blob.take position) = .ok position) :
    ∃ before after, Framed json before (blob.take position) ∧
      Framed json after ((blob.take intact).drop position) ∧
      (before ++ after).length ≤ kMaxWalRecords := by
  obtain ⟨hle,all,hall,hcount⟩ := validPrefix_framed hintact
  obtain ⟨-,before,hbefore,-⟩ := validPrefix_framed hboundary
  rw [List.take_take,min_self] at hbefore
  have hsplit : blob.take intact = blob.take position ++ (blob.take intact).drop position := by
    have h := List.take_append_drop position (blob.take intact)
    rw [List.take_take,min_eq_left hposition] at h
    exact h.symm
  rw [hsplit] at hall
  obtain ⟨after,rfl,hafter⟩ := hbefore.split hall
  exact ⟨before,after,hbefore,hafter,hcount⟩

lemma boundary_iff (hintact : json.validPrefix blob = .ok intact) (hposition : position ≤ intact) :
    json.validPrefix (blob.take position) = .ok position ↔ json.Boundary blob position := by
  obtain ⟨hle,all,hall,hcount⟩ := validPrefix_framed hintact
  constructor
  · intro h
    obtain ⟨before,after,hbefore,-,-⟩ := framed_at_boundary hintact hposition h
    exact ⟨hposition.trans hle,before,hbefore⟩
  · rintro ⟨hlength,before,hbefore⟩
    have hsplit : blob.take intact = blob.take position ++ (blob.take intact).drop position := by
      have h := List.take_append_drop position (blob.take intact)
      rw [List.take_take,min_eq_left hposition] at h
      exact h.symm
    rw [hsplit] at hall
    obtain ⟨after,rfl,-⟩ := hbefore.split hall
    have hroom : RoomFor before [] := by
      rw [RoomFor,if_pos rfl]
      rw [List.length_append] at hcount
      omega
    have h := hbefore.validPrefix (cut_nil kJobMagic) hroom
    rwa [List.append_nil,List.length_take,min_eq_left hlength] at h

/-- A log that nothing is taken from is already compacted. -/
lemma compacted_of_zero (hintact : json.validPrefix blob = .ok blob.length) :
    JobLog.Compacted json retention 0 blob blob := by
  obtain ⟨-,all,hall,hcount⟩ := validPrefix_framed hintact
  have hnone : retainPrefix json.frameSize retention [] = [] := rfl
  have hframed : Framed json (retainPrefix json.frameSize retention [] ++ all) blob := by
    rwa [hnone,List.nil_append,← List.take_length (l := blob)]
  obtain ⟨loaded,hload,hcompacts⟩ := loadJobs_compacted [] hframed hcount
  refine ⟨blob.length,[],all,loaded,hintact,Nat.zero_le _,.nil,?_,hload,hcompacts⟩
  rwa [List.drop_zero]

lemma compacted_of_compactedLog (hjson : json.RoundTrips) {compacted : Bytes}
    (hintact : json.validPrefix blob = .ok intact) (hposition : position ≤ intact)
    (hboundary : json.validPrefix (blob.take position) = .ok position)
    (h : json.compactedLog blob position intact retention = .ok compacted) :
    JobLog.Compacted json retention position blob compacted := by
  obtain ⟨before,after,hbefore,hafter,hcount⟩ := framed_at_boundary hintact hposition hboundary
  obtain ⟨loaded,hload,hcompacts⟩ :=
    loadJobs_compacted before (compactedLog_framed hjson hbefore hafter h) hcount
  exact ⟨intact,before,after,loaded,hintact,hposition,hbefore,hafter,hload,hcompacts⟩

namespace JobLog
variable {log log' : JobLog} {outcome : CompactOutcome} {result : Result Unit}

/-- How a truncation ends: it fails before the file is replaced, or the file is compacted, and then
only reopening it can fail. -/
structure TruncatesTo (json : JobJson) (retention : JobRetentionPolicy) (position : ℕ)
    (log log' : JobLog) (outcome : CompactOutcome) (result : Result Unit) : Prop where
  compacted : result = .ok () → Compacted json retention position log.content log'.content
  failed : result ≠ .ok () → log' = log ∨ outcome = .unreopened ∧
    Compacted json retention position log.content log'.content
  boundary : ¬json.Boundary log.content position → result ≠ .ok () ∧ log' = log

lemma TruncatesTo.of_error (log : JobLog) (outcome : CompactOutcome) (e : Error) :
    TruncatesTo json retention position log log outcome (.error e) :=
  ⟨nofun,fun _ => Or.inl rfl,fun _ => ⟨nofun,rfl⟩⟩

lemma replaceBy_truncatesTo {compacted : Bytes}
    (hcompacted : Compacted json retention position log.content compacted)
    (hboundary : json.Boundary log.content position)
    (h : log.replaceBy compacted outcome = (result,log')) :
    TruncatesTo json retention position log log' outcome result := by
  cases outcome with
  | compacted =>
    cases h
    exact ⟨fun _ => hcompacted,fun hfail => absurd rfl hfail,fun hnot => absurd hboundary hnot⟩
  | unreopened =>
    cases h
    exact ⟨nofun,fun _ => Or.inr ⟨rfl,hcompacted⟩,fun hnot => absurd hboundary hnot⟩
  | unopened reason =>
    cases h
    exact .of_error _ _ _
  | unwritten reason =>
    cases h
    exact .of_error _ _ _
  | unsynced =>
    cases h
    exact .of_error _ _ _
  | unclosed =>
    cases h
    exact .of_error _ _ _
  | unrenamed reason =>
    cases h
    exact .of_error _ _ _

lemma truncatePrefix_truncatesTo (hjson : json.RoundTrips)
    (h : log.truncatePrefix json position retention outcome = (result,log')) :
    TruncatesTo json retention position log log' outcome result := by
  unfold truncatePrefix at h
  by_cases hopen : log.isOpen = false
  · rw [if_pos hopen] at h
    cases h
    exact .of_error _ _ _
  rw [if_neg hopen] at h
  cases hintact : json.validPrefix log.content with
  | error e =>
    rw [hintact] at h
    cases h
    exact .of_error _ _ _
  | ok intact =>
    rw [hintact] at h
    dsimp only at h
    by_cases hposition : position > intact
    · rw [if_pos hposition] at h
      cases h
      exact .of_error _ _ _
    rw [if_neg hposition] at h
    by_cases hvalid : json.validPrefix (log.content.take position) ≠ .ok position
    · rw [if_pos hvalid] at h
      cases h
      exact .of_error _ _ _
    rw [if_neg hvalid] at h
    have hvalid := not_not.mp hvalid
    have hboundary := (boundary_iff hintact (not_lt.mp hposition)).mp hvalid
    by_cases hzero : position = 0 ∧ intact = log.content.length
    · rw [if_pos hzero] at h
      cases h
      obtain ⟨rfl,rfl⟩ := hzero
      exact ⟨fun _ => compacted_of_zero hintact,fun hfail => absurd rfl hfail,
        fun hnot => absurd hboundary hnot⟩
    rw [if_neg hzero] at h
    cases hcompacted : json.compactedLog log.content position intact retention with
    | error e =>
      rw [hcompacted] at h
      cases h
      exact .of_error _ _ _
    | ok compacted =>
      rw [hcompacted] at h
      exact replaceBy_truncatesTo
        (compacted_of_compactedLog hjson hintact (not_lt.mp hposition) hvalid hcompacted)
        hboundary h

/-- What a truncation makes of the log, and that it leaves what is loaded alone when it fails
before the file is replaced. -/
theorem truncatePrefix_law (hjson : json.RoundTrips) (log : JobLog) (position : ℕ)
    (retention : JobRetentionPolicy) (outcome : CompactOutcome) :
    let called := log.truncatePrefix json position retention outcome
    (called.1 = .ok () → Compacted json retention position log.content called.2.content) ∧
      (¬json.Boundary log.content position →
        called.1 ≠ .ok () ∧ called.2.loadLatest json = log.loadLatest json) ∧
      (called.1 ≠ .ok () → outcome ≠ .unreopened →
        called.2.loadLatest json = log.loadLatest json) := by
  intro called
  have h := truncatePrefix_truncatesTo hjson (Prod.mk.eta (p := called)).symm
  refine ⟨h.compacted,?_,?_⟩
  · intro hboundary
    obtain ⟨hfailed,hlog⟩ := h.boundary hboundary
    exact ⟨hfailed,congrArg _ hlog⟩
  · intro hfailed houtcome
    obtain hlog | ⟨hunreopened,-⟩ := h.failed hfailed
    · exact congrArg _ hlog
    · exact absurd hunreopened houtcome

/-- A truncation behind the frames of `before` writes what it retains of them, and those behind. -/
lemma truncatePrefix_encoded (log : JobLog) (retention : JobRetentionPolicy)
    (hjson : json.RoundTrips) {before after : List IngestionJob}
    {front back tail : Bytes} (hrecordable : ∀ job ∈ before ++ after, job.Recordable)
    (hfront : json.encodeAll before = .ok front) (hback : json.encodeAll after = .ok back)
    (hcut : Cut kJobMagic tail) (hroom : RoomFor (before ++ after) tail) (hne : front ≠ [])
    (hopen : log.isOpen = true) (hcontent : log.content = front ++ back ++ tail) :
    ∃ compacted, log.truncatePrefix json front.length retention .compacted =
        (.ok (),⟨some compacted,true,compacted.length⟩) ∧
      json.encodeAll (retainPrefix json.frameSize retention before ++ after) = .ok compacted := by
  have hbefore := encodeAll_framed hjson
    (fun job hjob => hrecordable job (List.mem_append_left _ hjob)) hfront
  have hafter := encodeAll_framed hjson
    (fun job hjob => hrecordable job (List.mem_append_right _ hjob)) hback
  obtain ⟨compacted,hcompacted,hwritten⟩ := compactedLog_encoded retention hjson
    (fun job hjob => hrecordable job (List.mem_append_left _ hjob)) hfront hback tail
  refine ⟨compacted,?_,hwritten⟩
  have hintact := (hbefore.append hafter).validPrefix hcut hroom
  have hroom' : RoomFor before [] := by
    have := hroom.whole
    rw [List.length_append] at this
    rw [RoomFor,if_pos rfl]
    omega
  have hboundary := hbefore.validPrefix (cut_nil kJobMagic) hroom'
  rw [List.append_nil] at hboundary
  have hnotPast : ¬front.length > (front ++ back).length := by
    rw [List.length_append]
    omega
  have htake : (front ++ back ++ tail).take front.length = front := by
    rw [List.append_assoc,List.take_left]
  have hnonempty : ¬(front.length = 0 ∧ (front ++ back).length = (front ++ back ++ tail).length) :=
    fun h => hne (List.eq_nil_of_length_eq_zero h.1)
  unfold truncatePrefix
  rw [if_neg (by simp [hopen]),hcontent,hintact]
  dsimp only
  rw [if_neg hnotPast,htake,hboundary,if_neg (not_not.mpr rfl),if_neg hnonempty,hcompacted]
  rfl

/-- A job that a later one has superseded, and its text. -/
def supersededJob (id : String) (updatedAtMs : ℤ) : IngestionJob :=
  { LogRun.sampleJob (ascii id.toList) with status := .superseded, updatedAtMs }

def supersededText (id updatedAtMs : String) : Bytes := ascii
  ("\x7b\"content\":\"\",\"content_hash\":\"h\",\"created_at_ms\":1,\"document\":\"d\"," ++
    "\"id\":\"" ++ id ++ "\",\"metadata\":\x7b\x7d,\"operation\":0,\"revision\":1," ++
    "\"status\":6,\"title\":\"\",\"updated_at_ms\":" ++ updatedAtMs ++
    ",\"version\":1\x7d").toList

lemma supersededText_length (id updatedAtMs : String) (hid : id.toList.length ≤ 1)
    (hupdated : updatedAtMs.toList.length ≤ 1) :
    (supersededText id updatedAtMs).length ≤ 1024 := by
  simp only [supersededText,ascii,List.length_map,String.toList_append,List.length_append,
    String.reduceToList,List.length_cons,List.length_nil]
  omega

/-- What two superseded jobs and two queued ones are written as. -/
def mixedTexts : List (JobRecord × Bytes) :=
  [((supersededJob "a" 2).record,supersededText "a" "2"),
    ((supersededJob "b" 3).record,supersededText "b" "3"),
    ((LogRun.sampleJob (ascii "c".toList)).record,LogRun.sampleText "c"),
    ((LogRun.sampleJob (ascii "d".toList)).record,LogRun.sampleText "d")]

lemma mixedTexts_nodup : (mixedTexts.map Prod.fst).Nodup ∧ (mixedTexts.map Prod.snd).Nodup := by
  constructor
  · decide +kernel
  -- the texts agree up to the ids
  · simp only [mixedTexts,supersededText,LogRun.sampleText,List.map_cons,List.map_nil,ascii,
      String.toList_append,List.map_append,List.append_assoc,List.nodup_cons,List.mem_cons,
      List.append_right_inj,List.not_mem_nil,or_false,not_or,not_false_eq_true,List.nodup_nil,
      and_true]
    simp only [show "a".toList = ['a'] from rfl,show "b".toList = ['b'] from rfl,
      show "c".toList = ['c'] from rfl,show "d".toList = ['d'] from rfl,List.map_cons,List.map_nil,
      List.cons_append,List.nil_append,List.cons.injEq,not_and]
    refine ⟨⟨?_,?_,?_⟩,⟨?_,?_⟩,?_⟩ <;> exact fun h => absurd h (by decide)

lemma mixedTexts_length : ∀ e ∈ mixedTexts, e.2.length ≤ kMaxWalRecordBytes := by
  have hlong : 1024 ≤ kMaxWalRecordBytes := by decide
  simp only [mixedTexts,List.forall_mem_cons,List.not_mem_nil,false_implies,implies_true,and_true]
  exact ⟨(supersededText_length _ _ (by decide) (by decide)).trans hlong,
    (supersededText_length _ _ (by decide) (by decide)).trans hlong,
    LogRun.sampleText_length _ (by decide),LogRun.sampleText_length _ (by decide)⟩

lemma mixedTexts_written {record : JobRecord} {text : Bytes} (h : (record,text) ∈ mixedTexts) :
    (JobJson.ofTable mixedTexts).dump record = .ok text ∧ text.length ≤ kMaxWalRecordBytes :=
  ⟨JobJson.ofTable_dump mixedTexts_nodup.1 h,mixedTexts_length _ h⟩

lemma mixed_retained :
    retainPrefix (JobJson.ofTable mixedTexts).frameSize { maxTerminalJobs := 1 }
      [supersededJob "a" 2,supersededJob "b" 3,LogRun.sampleJob (ascii "c".toList)] =
        [supersededJob "b" 3,LogRun.sampleJob (ascii "c".toList)] := by
  have hwritten : (JobJson.ofTable mixedTexts).dump (supersededJob "b" 3).record =
      .ok (supersededText "b" "3") ∧ (supersededText "b" "3").length ≤ kMaxWalRecordBytes :=
    mixedTexts_written (by simp [mixedTexts])
  have hsize : (JobJson.ofTable mixedTexts).frameSize (supersededJob "b" 3) ≤ 16*1024*1024 := by
    have hlength := supersededText_length "b" "3" (by decide) (by decide)
    rw [frameSize_eq (JobJson.encodeFrame_eq_ok.mpr ⟨_,hwritten.1,hwritten.2,rfl⟩),frame_length,
      kHeaderBytes]
    omega
  have hended : ((latestJobs [supersededJob "a" 2,supersededJob "b" 3,
      LogRun.sampleJob (ascii "c".toList)]).values.filter
        fun job => terminal job.status).insertionSort NewestFirst =
          [supersededJob "b" 3,supersededJob "a" 2] := by
    decide +kernel
  have hkept : retainTerminal (JobJson.ofTable mixedTexts).frameSize { maxTerminalJobs := 1 }
      [supersededJob "b" 3,supersededJob "a" 2] 0 0 = [supersededJob "b" 3] := by
    simp [retainTerminal,hsize]
  unfold retainPrefix
  dsimp only
  rw [hended,hkept]
  decide +kernel

/-- Of two superseded jobs before the position the older one goes. The queued jobs on both sides
stay, and the cut frame behind them goes. -/
theorem truncatePrefix_law_mixed :
    let json := JobJson.ofTable mixedTexts
    let retention : JobRetentionPolicy := { maxTerminalJobs := 1 }
    let a := supersededJob "a" 2
    let b := supersededJob "b" 3
    let c := LogRun.sampleJob (ascii "c".toList)
    let d := LogRun.sampleJob (ascii "d".toList)
    let front := frames kJobMagic
      [supersededText "a" "2",supersededText "b" "3",LogRun.sampleText "c"]
    let back := frames kJobMagic [LogRun.sampleText "d"]
    let log : JobLog := ⟨some (front ++ back ++ back.dropLast),true,0⟩
    let truncated := log.truncatePrefix json front.length retention .compacted
    json.RoundTrips ∧ truncated.1 = .ok () ∧
      Compacted json retention front.length log.content truncated.2.content ∧
      log.loadLatest json = .ok [a,b,c,d] ∧ truncated.2.loadLatest json = .ok [b,c,d] := by
  intro json retention a b c d front back log truncated
  have hjson : json.RoundTrips := JobJson.ofTable_roundTrips mixedTexts_nodup.2
  have hfront : json.encodeAll [a,b,c] = .ok front :=
    encodeAll_texts (.cons (mixedTexts_written (by simp [mixedTexts,a]))
      (.cons (mixedTexts_written (by simp [mixedTexts,b]))
        (.cons (mixedTexts_written (by simp [mixedTexts,c])) .nil)))
  have hback : json.encodeAll [d] = .ok back :=
    encodeAll_texts (.cons (mixedTexts_written (by simp [mixedTexts,d])) .nil)
  have hrecordable : ∀ job ∈ [a,b,c] ++ [d], job.Recordable := by
    have hfields : ∀ job ∈ [a,b,c] ++ [d],
        job.id ≠ [] ∧ job.input.document ≠ [] ∧ job.revision ≠ 0 ∧ job.prepared = none := by
      decide +kernel
    intro job hjob
    obtain ⟨hid,hdocument,hrevision,hprepared⟩ := hfields job hjob
    exact ⟨hid,hdocument,hrevision,by simp [hprepared],by simp [hprepared]⟩
  have hcut : Cut kJobMagic back.dropLast := by
    refine ⟨LogRun.sampleText "d",LogRun.sampleText_length "d" (by decide),
      (frame kJobMagic (LogRun.sampleText "d")).length-1,?_,?_⟩
    · rw [frame_length,kHeaderBytes]
      omega
    · rw [← List.dropLast_eq_take]
      exact congrArg List.dropLast (List.append_nil _)
  have hroom : ∀ tail, RoomFor ([a,b,c] ++ [d]) tail := by
    intro tail
    unfold RoomFor
    split_ifs <;> decide
  have hne : front ≠ [] := fun h => frame_ne_nil _ _ (List.append_eq_nil_iff.mp h).1
  obtain ⟨compacted,htruncated,hcompacted⟩ := truncatePrefix_encoded log retention hjson
    hrecordable hfront hback hcut (hroom _) hne rfl rfl
  have htruncated : truncated = (.ok (),⟨some compacted,true,compacted.length⟩) := htruncated
  have hresult : truncated.1 = .ok () := by rw [htruncated]
  rw [mixed_retained] at hcompacted
  refine ⟨hjson,hresult,(truncatePrefix_law hjson log front.length retention .compacted).1 hresult,
    ?_,?_⟩
  · have hall : json.encodeAll ([a,b,c] ++ [d]) = .ok (front ++ back) :=
      encodeAll_append_eq_ok.mpr ⟨front,hfront,back,hback,rfl⟩
    have hframed : Framed json [a,b,c,d] (front ++ back) :=
      encodeAll_framed hjson hrecordable hall
    have hsorted : (latestJobs [a,b,c,d]).values.insertionSort OldestFirst = [a,b,c,d] := by
      decide +kernel
    have hload := hframed.loadJobs hcut (hroom _)
    rw [hsorted] at hload
    exact hload
  · have hframed : Framed json [b,c,d] compacted := encodeAll_framed hjson
      (fun job hjob => hrecordable job (List.mem_cons_of_mem _ hjob)) hcompacted
    have hload := hframed.loadJobs (cut_nil kJobMagic) (by unfold RoomFor; decide)
    have hsorted : (latestJobs [b,c,d]).values.insertionSort OldestFirst = [b,c,d] := by
      decide +kernel
    rw [List.append_nil,hsorted] at hload
    rw [htruncated]
    exact hload

end JobLog
end
end RagRuntime.Ingestion
