import RagRuntime.Ingestion.JobLogPrefix

/-! Loading the jobs of a log without opening it, beside opening it and loading them. -/
namespace RagRuntime.Ingestion
open RagRuntime.Base RagRuntime.Core RagRuntime.Store

/-- `load_ingestion_jobs_read_only` of the source. -/
def JobJson.loadReadOnly (json : JobJson) (file : Option Bytes) : Result (List IngestionJob) :=
  json.loadJobs (file.getD [])

/-- Open a log at the file, and load its jobs. -/
def JobJson.openAndLoad (json : JobJson) (file : Option Bytes) : Result (List IngestionJob) :=
  match (⟨file,false,0⟩ : JobLog).openFile json .opened with
  | (.error e,_) => .error e
  | (.ok (),log) => log.loadLatest json

/-- The log ends with a whole frame whose payload is as it was written, but cannot be decoded. -/
def JobJson.EndsUndecoded (json : JobJson) (blob : Bytes) : Prop :=
  ∃ jobs front payload what, Framed json jobs front ∧ jobs.length < kMaxWalRecords ∧
    payload.length ≤ kMaxWalRecordBytes ∧ json.decode payload = .error what ∧
      blob = front ++ frame kJobMagic payload

/-- How the two scans of a log end. -/
inductive ScansEnd (json : JobJson) (input : Bytes) (records position : ℕ)
    (latest : OrdMap JobId IngestionJob) :
    Result ℕ → Result (OrdMap JobId IngestionJob) → Prop
  | whole (jobs : List IngestionJob) (front back : Bytes) (hinput : input = front ++ back)
    (hframed : Framed json jobs front) (hcount : records + jobs.length ≤ kMaxWalRecords) :
    ScansEnd json input records position latest (.ok (position + front.length))
      (.ok (jobs.foldl (fun latest job => latest.insert job.id job) latest))
  | refused (e e' : Error) : ScansEnd json input records position latest (.error e) (.error e')
  | undecoded (jobs : List IngestionJob) (front payload : Bytes) (what : String)
    (hinput : input = front ++ frame kJobMagic payload) (hframed : Framed json jobs front)
    (hcount : records + jobs.length < kMaxWalRecords)
    (hlength : payload.length ≤ kMaxWalRecordBytes) (hdecode : json.decode payload = .error what)
    (e : Error) :
    ScansEnd json input records position latest (.ok (position + front.length)) (.error e)

section
variable {json : JobJson} {blob : Bytes}

lemma ScansEnd.nothing (input : Bytes) {records : ℕ} (position : ℕ)
    (latest : OrdMap JobId IngestionJob) (hcount : records ≤ kMaxWalRecords) :
    ScansEnd json input records position latest (.ok position) (.ok latest) :=
  .whole [] [] input rfl .nil hcount

/-- One more frame in front of a log. -/
lemma ScansEnd.cons {input payload : Bytes} {records position : ℕ} {job : IngestionJob}
    {latest : OrdMap JobId IngestionJob} {p : Result ℕ} {l : Result (OrdMap JobId IngestionJob)}
    (hlength : payload.length ≤ kMaxWalRecordBytes) (hdecode : json.decode payload = .ok job)
    (h : ScansEnd json input (records+1) (position + (kHeaderBytes + payload.length))
      (latest.insert job.id job) p l) :
    ScansEnd json (frame kJobMagic payload ++ input) records position latest p l := by
  have hposition : ∀ front : Bytes, position + (kHeaderBytes + payload.length) + front.length =
      position + (frame kJobMagic payload ++ front).length := by
    intro front
    rw [List.length_append,frame_length]
    omega
  cases h with
  | whole jobs front back hinput hframed hcount =>
    rw [hposition]
    refine .whole (job::jobs) _ back ?_ (.cons hlength hdecode hframed) ?_
    · rw [hinput,List.append_assoc]
    · rw [List.length_cons]
      omega
  | refused e e' => exact .refused e e'
  | undecoded jobs front last what hinput hframed hcount hlast hwhat e =>
    rw [hposition]
    refine .undecoded (job::jobs) _ last what ?_ (.cons hlength hdecode hframed) ?_ hlast hwhat e
    · rw [hinput,List.append_assoc]
    · rw [List.length_cons]
      omega

/-- Both scans of a log go over the same frames. -/
lemma scans_end (fuel : ℕ) {records : ℕ} (position : ℕ) (latest : OrdMap JobId IngestionJob)
    (input : Bytes) (hcount : records ≤ kMaxWalRecords) :
    ScansEnd json input records position latest
      (scanFrom json.visitPosition fuel records position input)
      (scanFrom json.visitLatest fuel records latest input) := by
  induction fuel generalizing records position latest input with
  | zero => exact .nothing input position latest hcount
  | succ fuel ih =>
    simp only [scanFrom]
    cases hread : readFrame kJobMagic input with
    | short => exact .nothing input position latest hcount
    | badMagic =>
      dsimp only
      split_ifs <;> exact .refused _ _
    | tooLarge =>
      dsimp only
      split_ifs <;> exact .refused _ _
    | torn =>
      dsimp only
      split_ifs
      · exact .refused _ _
      · exact .nothing input position latest hcount
    | badCrc last =>
      dsimp only
      split_ifs
      · exact .refused _ _
      · exact .nothing input position latest hcount
      · exact .refused _ _
    | payload payload rest =>
      obtain ⟨rfl,hlength⟩ := readFrame_payload hread
      dsimp only
      split_ifs with hlimit
      · exact .refused _ _
      · unfold JobJson.visitPosition JobJson.visitLatest
        cases hdecode : json.decode payload with
        | ok job => exact .cons hlength hdecode (ih _ _ _ (by omega))
        | error what =>
          dsimp only
          by_cases hrest : rest = []
          · rw [if_pos hrest,hrest,List.append_nil]
            exact .undecoded [] [] payload what rfl .nil (not_le.mp hlimit) hlength hdecode _
          · rw [if_neg hrest]
            exact .refused _ _

/-- Opening a log loads what is intact of it. -/
lemma openAndLoad_eq (json : JobJson) (file : Option Bytes) : json.openAndLoad file =
    (json.validPrefix (file.getD [])).bind fun n => json.loadJobs ((file.getD []).take n) := by
  unfold JobJson.openAndLoad JobLog.openFile
  rw [show (⟨file,false,0⟩ : JobLog).content = file.getD [] from rfl]
  cases json.validPrefix (file.getD []) <;> rfl

lemma loadReadOnly_eq (json : JobJson) (file : Option Bytes) : json.loadReadOnly file =
    (scan json.visitLatest ∅ (file.getD [])).map fun latest =>
      latest.values.insertionSort OldestFirst := rfl

lemma loadJobs_front {jobs : List IngestionJob} {front : Bytes} (h : Framed json jobs front)
    (hcount : jobs.length ≤ kMaxWalRecords) :
    json.loadJobs front = .ok ((latestJobs jobs).values.insertionSort OldestFirst) := by
  have hload := h.loadJobs (cut_nil _) (show RoomFor jobs [] by simpa [RoomFor] using hcount)
  rwa [List.append_nil] at hload

/-- What both ways of loading make of a log. -/
lemma loads_end (json : JobJson) (file : Option Bytes) :
    (∀ jobs, json.loadReadOnly file = .ok jobs ↔ json.openAndLoad file = .ok jobs) ∨
      json.EndsUndecoded (file.getD []) := by
  have hends := @scans_end json ((file.getD []).length+1) 0 0 ∅ (file.getD []) (Nat.zero_le _)
  change ScansEnd json _ 0 0 ∅ (json.validPrefix (file.getD []))
    (scan json.visitLatest ∅ (file.getD [])) at hends
  rw [loadReadOnly_eq,openAndLoad_eq]
  generalize json.validPrefix (file.getD []) = intact at hends ⊢
  generalize scan json.visitLatest ∅ (file.getD []) = latest at hends ⊢
  cases hends with
  | whole jobs front back hinput hframed hcount =>
    left
    intro loaded
    rw [hinput,Nat.zero_add]
    change _ ↔ json.loadJobs ((front ++ back).take front.length) = _
    rw [List.take_left,loadJobs_front hframed (by omega)]
    rfl
  | refused e e' =>
    left
    intro loaded
    constructor
    · intro h
      cases h
    · intro h
      cases h
  | undecoded jobs front payload what hinput hframed hcount hlength hdecode e =>
    right
    exact ⟨jobs,front,payload,what,hframed,by omega,hlength,hdecode,hinput⟩

/-- Opening cuts a last frame off that cannot be decoded; loading without opening refuses it. -/
lemma loads_differ {file : Option Bytes} (h : json.EndsUndecoded (file.getD [])) :
    (∃ jobs, json.openAndLoad file = .ok jobs) ∧ ∃ e, json.loadReadOnly file = .error e := by
  obtain ⟨jobs,front,payload,what,hframed,hcount,hlength,hdecode,hblob⟩ := h
  have hread := readFrame_append kJobMagic_fits hlength []
  rw [List.append_nil] at hread
  have hroom : ¬jobs.length ≥ kMaxWalRecords := not_le.mpr hcount
  obtain ⟨fuel,hfuel⟩ := scan_fuel hframed (frame kJobMagic payload)
  constructor
  · have hvalid : json.validPrefix (file.getD []) = .ok front.length := by
      rw [hblob,JobJson.validPrefix,scan,hfuel,hframed.scanPosition _ _ _ (by omega),Nat.zero_add,
        Nat.zero_add]
      simp only [scanFrom,hread,hroom,if_false,JobJson.visitPosition,hdecode,if_true]
    refine ⟨(latestJobs jobs).values.insertionSort OldestFirst,?_⟩
    rw [openAndLoad_eq,hvalid]
    change json.loadJobs ((file.getD []).take front.length) = _
    rw [hblob,List.take_left]
    exact loadJobs_front hframed (by omega)
  · refine ⟨⟨.corruptIndex,"job replay failed: " ++ what⟩,?_⟩
    rw [loadReadOnly_eq,hblob,scan,hfuel,hframed.scanLatest _ _ _ (by omega),Nat.zero_add]
    simp only [scanFrom,hread,hroom,if_false,JobJson.visitLatest,hdecode]
    rfl

/-- A log is loaded without opening it as it is by opening it exactly if it does not end with a
frame that cannot be decoded. -/
theorem loadReadOnly_agrees_iff (json : JobJson) (file : Option Bytes) :
    (∀ jobs, json.loadReadOnly file = .ok jobs ↔ json.openAndLoad file = .ok jobs) ↔
      ¬json.EndsUndecoded (file.getD []) := by
  constructor
  · intro hagree hends
    obtain ⟨⟨jobs,hjobs⟩,e,he⟩ := loads_differ hends
    rw [(hagree jobs).mpr hjobs] at he
    cases he
  · exact (loads_end json file).resolve_right

/-- A library that writes nothing, and of which the empty text is no value. -/
def emptyJson : JobJson where
  dump _ := .error "unknown object"
  parse text := .error (if text = [] then "unexpected end of input" else "unknown text")

/-- One frame without a payload. -/
theorem empty_frame_loads_differ :
    emptyJson.openAndLoad (some (frame kJobMagic [])) = .ok [] ∧
      emptyJson.loadReadOnly (some (frame kJobMagic [])) =
        fail .corruptIndex "job replay failed: unexpected end of input" := by
  decide

end
end RagRuntime.Ingestion
