import RagRuntime.Ingestion.RecoveryCases

/-! What truncating a job log keeps of it. -/
namespace RagRuntime.Ingestion
open RagRuntime.Base RagRuntime.Core

/-- Where the shortened log speaks of a job it says what the whole one says last, and it speaks of
every open job. -/
structure Abridges (log written : List IngestionJob) : Prop where
  sound : ∀ id job, (latestJobs log).find? id = some job → (latestJobs written).find? id = some job
  complete : ∀ id job, (latestJobs written).find? id = some job → terminal job.status = false →
    (latestJobs log).find? id = some job

section
variable {log written frames : List IngestionJob} {job : IngestionJob}

lemma Abridges.refl (log : List IngestionJob) : Abridges log log :=
  ⟨fun _ _ => id,fun _ _ h _ => h⟩

lemma Abridges.trans {longer : List IngestionJob} (h : Abridges log written)
    (h' : Abridges written longer) : Abridges log longer :=
  ⟨fun id job hjob => h'.sound id job (h.sound id job hjob),
    fun id job hjob hopen => h.complete id job (h'.complete id job hjob hopen) hopen⟩

/-- Both logs grow alike. -/
lemma Abridges.append (h : Abridges log written) (extra : List IngestionJob) :
    Abridges (log ++ extra) (written ++ extra) := by
  constructor
  · intro id job hjob
    rw [latestJobs_append_find?,Option.or_eq_some_iff] at hjob ⊢
    obtain hjob | ⟨hnone,hjob⟩ := hjob
    · exact Or.inl hjob
    · exact Or.inr ⟨hnone,h.sound id job hjob⟩
  · intro id job hjob hopen
    rw [latestJobs_append_find?,Option.or_eq_some_iff] at hjob ⊢
    obtain hjob | ⟨hnone,hjob⟩ := hjob
    · exact Or.inl hjob
    · exact Or.inr ⟨hnone,h.complete id job hjob hopen⟩

variable (frameSize : IngestionJob → ℕ) (retention : JobRetentionPolicy)

lemma retainTerminal_sublist (jobs : List IngestionJob) (count bytes : ℕ) :
    (retainTerminal frameSize retention jobs count bytes).Sublist jobs := by
  induction jobs generalizing count bytes with
  | nil => exact List.Sublist.slnil
  | cons job rest ih =>
    unfold retainTerminal
    split_ifs
    · exact List.nil_sublist _
    · exact (ih count bytes).cons job
    · exact (ih (count+1) (bytes+frameSize job)).cons_cons job

/-- A retained record is the newest of its job, and open jobs are retained. -/
lemma mem_retainPrefix (frames : List IngestionJob) :
    (∀ job ∈ retainPrefix frameSize retention frames,
      (latestJobs frames).find? job.id = some job) ∧
    ∀ job, (latestJobs frames).find? job.id = some job → terminal job.status = false →
      job ∈ retainPrefix frameSize retention frames := by
  unfold retainPrefix
  dsimp only
  constructor
  · intro job hjob
    rw [List.mem_insertionSort,List.mem_append] at hjob
    have hvalue : job ∈ (latestJobs frames).values := by
      obtain hopen | hkept := hjob
      · exact (List.mem_filter.mp hopen).1
      · exact (List.mem_filter.mp ((List.mem_insertionSort _).mp
          ((retainTerminal_sublist frameSize retention _ 0 0).subset hkept))).1
    obtain ⟨id,hid⟩ := OrdMap.mem_values.mp hvalue
    rwa [(latestJobs_mem hid).2]
  · intro job hjob hopen
    rw [List.mem_insertionSort,List.mem_append]
    exact Or.inl (List.mem_filter.mpr ⟨OrdMap.mem_values.mpr ⟨job.id,hjob⟩,by simpa using hopen⟩)

lemma latestJobs_isSome (h : job ∈ frames) :
    ∃ last, (latestJobs frames).find? job.id = some last := by
  induction frames using List.reverseRecOn with
  | nil => cases h
  | append_singleton frames last ih =>
    rw [latestJobs_concat,OrdMap.find?_insert]
    split_ifs with hid
    · exact ⟨last,rfl⟩
    · obtain hmem | hmem := List.mem_append.mp h
      · exact ih hmem
      · exact absurd (congrArg IngestionJob.id (List.mem_singleton.mp hmem)) hid

/-- What is retained of a prefix abridges it. -/
lemma abridges_retainPrefix (frames : List IngestionJob) :
    Abridges (retainPrefix frameSize retention frames) frames := by
  obtain ⟨hlatest,hkept⟩ := mem_retainPrefix frameSize retention frames
  constructor
  · intro id job hjob
    obtain ⟨hmem,hid⟩ := latestJobs_mem hjob
    exact hid ▸ hlatest job hmem
  · intro id job hjob hopen
    have hid := (latestJobs_mem hjob).2
    subst hid
    obtain ⟨last,hlast⟩ := latestJobs_isSome (hkept job hjob hopen)
    obtain ⟨hmem,hid⟩ := latestJobs_mem hlast
    have hsame := hlatest last hmem
    rw [hid,hjob] at hsame
    rw [hlast,hsame]

lemma splitAtPosition_append {position : ℕ} {parts : List IngestionJob × List IngestionJob}
    (h : splitAtPosition frameSize position frames = some parts) : parts.1 ++ parts.2 = frames := by
  induction frames generalizing position parts with
  | nil =>
    cases position with
    | zero =>
      rw [splitAtPosition] at h
      cases h
      rfl
    | succ p =>
      rw [splitAtPosition] at h
      cases h
  | cons frame frames ih =>
    cases position with
    | zero =>
      rw [splitAtPosition] at h
      cases h
      rfl
    | succ p =>
      rw [splitAtPosition] at h
      split_ifs at h
      obtain ⟨rest,hrest,rfl⟩ := Option.map_eq_some_iff.mp h
      rw [List.cons_append,ih hrest]

variable {frameSize retention} {s t : JobStore} {position : ℕ}

/-- Truncating leaves the log, or retains of a prefix what the policy says. -/
lemma JobStore.truncatePrefix_cases (h : s.truncatePrefix frameSize position retention = .ok t) :
    t = s ∨ ∃ parts, splitAtPosition frameSize position s.frames = some parts ∧
      t.frames = retainPrefix frameSize retention parts.1 ++ parts.2 := by
  unfold truncatePrefix at h
  by_cases hcount : s.frames.length > Store.kMaxWalRecords
  · rw [if_pos hcount] at h
    cases h
  rw [if_neg hcount] at h
  by_cases hposition : position > totalSize frameSize s.frames
  · rw [if_pos hposition] at h
    cases h
  rw [if_neg hposition] at h
  cases hparts : splitAtPosition frameSize position s.frames with
  | none => rw [hparts] at h; cases h
  | some parts =>
    simp only [hparts] at h
    split_ifs at h
    · cases h
      exact Or.inl rfl
    · cases h
      exact Or.inr ⟨parts,rfl,rfl⟩

/-- A truncated log abridges the log it was. -/
theorem JobStore.abridges_truncatePrefix
    (h : s.truncatePrefix frameSize position retention = .ok t) : Abridges t.frames s.frames := by
  obtain rfl | ⟨parts,hparts,hframes⟩ := truncatePrefix_cases h
  · exact Abridges.refl _
  · rw [hframes,← splitAtPosition_append frameSize hparts]
    exact (abridges_retainPrefix frameSize retention parts.1).append parts.2

/-- Every record of a truncated log is one of the log it was. -/
lemma JobStore.truncatePrefix_subset
    (h : s.truncatePrefix frameSize position retention = .ok t) : t.frames ⊆ s.frames := by
  obtain rfl | ⟨parts,hparts,hframes⟩ := truncatePrefix_cases h
  · exact List.Subset.refl _
  · rw [hframes,← splitAtPosition_append frameSize hparts]
    intro job hjob
    obtain hjob | hjob := List.mem_append.mp hjob
    · exact List.mem_append_left _
        (latestJobs_mem ((mem_retainPrefix frameSize retention parts.1).1 job hjob)).1
    · exact List.mem_append_right _ hjob

end
end RagRuntime.Ingestion
