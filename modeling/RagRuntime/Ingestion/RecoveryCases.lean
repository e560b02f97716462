import RagRuntime.Backend.CatalogView
import RagRuntime.Ingestion.CoordinatorSteps
import RagRuntime.Ingestion.Recovery

/-! What an opening does to the jobs, the log and the backend. -/
namespace RagRuntime.Ingestion
open RagRuntime.Base RagRuntime.Core RagRuntime.Backend

namespace IngestionJob

lemma SameIdentity.effect {a b : IngestionJob} (h : a.SameIdentity b) : b.effect = a.effect := by
  unfold IngestionJob.effect
  rw [h.operation,h.contentHash]

lemma SameIdentity.trans {a b c : IngestionJob} (hab : a.SameIdentity b) (hbc : b.SameIdentity c) :
    a.SameIdentity c :=
  ⟨hbc.id.trans hab.id,hbc.operation.trans hab.operation,hbc.document.trans hab.document,
    hbc.revision.trans hab.revision,hbc.contentHash.trans hab.contentHash⟩

lemma SameIdentity.symm {a b : IngestionJob} (h : a.SameIdentity b) : b.SameIdentity a :=
  ⟨h.id.symm,h.operation.symm,h.document.symm,h.revision.symm,h.contentHash.symm⟩

lemma SameIdentity.refl (a : IngestionJob) : a.SameIdentity a := ⟨rfl,rfl,rfl,rfl,rfl⟩

lemma reopened_same (job : IngestionJob) (current : Bool) (now : ℤ) :
    job.SameIdentity (job.reopened current now) := by
  cases current with
  | false => exact ⟨rfl,rfl,rfl,rfl,rfl⟩
  | true => exact ⟨rfl,rfl,rfl,rfl,rfl⟩

lemma reopened_status (job : IngestionJob) (current : Bool) (now : ℤ) :
    (job.reopened current now).status = if current then .queued else .superseded := by
  cases current <;> rfl

variable {job : IngestionJob} {b c : CatalogBackend} {built : Result Unit}

/-- A ready job that is replayed is written. -/
lemma Sound.replay (h : job.Sound) (hready : job.status = .ready) (hb : b.Coherent)
    (hok : job.replay b built = .ok c) :
    b.Written c job.input.document job.revision job.effect := by
  unfold IngestionJob.replay at hok
  unfold IngestionJob.effect
  cases hop : job.operation with
  | erase =>
    simp only [hop] at hok ⊢
    cases herase : b.erase job.input.document job.revision built with
    | mk result backend =>
      rw [herase] at hok
      cases result with
      | error e => cases hok
      | ok applied =>
        cases hok
        exact hb.erase herase
  | upsert =>
    obtain ⟨prepared,hprepared,-,hprepares⟩ := h.prepared hready hop
    simp only [hop,hprepared] at hok ⊢
    cases hactivate : b.activate prepared job.revision built with
    | mk result backend =>
      rw [hactivate] at hok
      cases result with
      | error e => cases hok
      | ok u =>
        cases hok
        have hwritten := (hb.activate hactivate).2
        rwa [hprepares.key,hprepares.contentHash] at hwritten

/-- Replaying succeeds unless the document has gone on. -/
lemma Sound.replay_ok_iff (h : job.Sound) (hready : job.status = .ready) (hb : b.Coherent) :
    (∃ c, job.replay b (.ok ()) = .ok c) ↔
      b.view.Ahead job.input.document job.revision ∨
        b.view job.input.document = some (job.revision,job.effect) := by
  unfold IngestionJob.replay IngestionJob.effect
  cases hop : job.operation with
  | erase =>
    rw [← hb.erase_ok_iff h.document h.revision]
    dsimp only
    cases herase : b.erase job.input.document job.revision (.ok ()) with
    | mk result backend =>
      cases result with
      | error e => simp
      | ok applied => simp
  | upsert =>
    obtain ⟨prepared,hprepared,hvalid,hprepares⟩ := h.prepared hready hop
    rw [← hprepares.key,← hprepares.contentHash,← hb.activate_ok_iff hvalid h.revision]
    simp only [hprepared]
    cases hactivate : b.activate prepared job.revision (.ok ()) with
    | mk result backend =>
      cases result with
      | error e => simp
      | ok u => simp

end IngestionJob

section Log
variable {frames : List IngestionJob}

/-- A job stands in the log as ready. -/
def ReadyIn (frames : List IngestionJob) (job : IngestionJob) : Prop :=
  (latestJobs frames).find? job.id = some job ∧ job.status = .ready

lemma latestJobs_values_nodup (frames : List IngestionJob) :
    ((latestJobs frames).values.map IngestionJob.id).Nodup := by
  have hids : (latestJobs frames).values.map IngestionJob.id = (latestJobs frames).keys := by
    rw [OrdMap.values,OrdMap.keys,List.map_map]
    apply List.map_congr_left
    intro e he
    exact (latestJobs_mem (OrdMap.find?_eq_some.mpr he)).2
  rw [hids]
  exact (latestJobs frames).keys_nodup

/-- Sorting the newest snapshots does not change which they are. -/
lemma latestJobs_sorted (frames : List IngestionJob) (r : IngestionJob → IngestionJob → Prop)
    [DecidableRel r] :
    latestJobs ((latestJobs frames).values.insertionSort r) = latestJobs frames := by
  have hperm := List.perm_insertionSort r (latestJobs frames).values
  have hnodup := (hperm.map IngestionJob.id).nodup_iff.mpr (latestJobs_values_nodup frames)
  ext id job
  constructor
  · intro h
    obtain ⟨hmem,hid⟩ := latestJobs_mem h
    obtain ⟨k,hk⟩ := OrdMap.mem_values.mp (hperm.mem_iff.mp hmem)
    have hkey := (latestJobs_mem hk).2
    rwa [← hid,hkey]
  · intro h
    have hmem := hperm.mem_iff.mpr (OrdMap.mem_values.mpr ⟨id,h⟩)
    have hfound := latestJobs_of_nodup hnodup hmem
    rwa [(latestJobs_mem h).2] at hfound

end Log

namespace Coordinator
variable {s t : Coordinator} {job : IngestionJob}

lemma remember_cases (s : Coordinator) (job : IngestionJob) :
    (s.remember job = s.enlist job ∧ s.revisionOf job.input.document ≤ job.revision) ∨
      (s.remember job = s.setJob job ∧ job.revision ≤ s.revisionOf job.input.document) := by
  unfold remember revisionOf
  cases hfound : s.latestRevision.find? job.input.document with
  | none => exact Or.inl ⟨rfl,Nat.zero_le _⟩
  | some found =>
    dsimp only [Option.getD_some]
    split_ifs with hlater
    · exact Or.inl ⟨rfl,hlater.le⟩
    · exact Or.inr ⟨rfl,not_lt.mp hlater⟩

/-- A job that is not the latest of its document. -/
lemma Wf.add (h : s.Wf) (hnew : s.jobs.find? job.id = none) (hsound : job.Sound)
    (hrevision : job.revision ≤ s.revisionOf job.input.document) : (s.setJob job).Wf := by
  have hother : ∀ {id x}, s.jobs.find? id = some x → (s.setJob job).jobs.find? id = some x := by
    intro id x hx
    have hne : id ≠ job.id := fun hid => by rw [hid,hnew] at hx; cases hx
    simpa [setJob,hne] using hx
  constructor
  · intro id x hx
    simp only [setJob,OrdMap.find?_insert] at hx
    split_ifs at hx with hid
    · cases hx
      exact hid.symm
    · exact h.keyed id x hx
  · intro document id hlatest
    obtain ⟨x,hx,hdocument,hxrevision⟩ := h.latest document id hlatest
    exact ⟨x,hother hx,hdocument,hxrevision⟩
  · exact h.listed
  · intro id x hx
    simp only [setJob,OrdMap.find?_insert] at hx
    split_ifs at hx with hid
    · cases hx
      exact hrevision
    · exact h.bounded id x hx
  · intro id x hx
    simp only [setJob,OrdMap.find?_insert] at hx
    split_ifs at hx with hid
    · cases hx
      exact hsound
    · exact h.jobs id x hx
  · exact h.frames
  · intro id progress hprogress
    obtain ⟨x,hx,hfits⟩ := h.executing id progress hprogress
    exact ⟨x,hother hx,hfits⟩
  · exact h.queue
  · intro id hid
    obtain ⟨hnone,x,hx⟩ := h.waiting id hid
    exact ⟨hnone,x,hother hx⟩

lemma Wf.remember (h : s.Wf) (hnew : s.jobs.find? job.id = none) (hsound : job.Sound) :
    (s.remember job).Wf := by
  obtain ⟨heq,hrevision⟩ | ⟨heq,hrevision⟩ := remember_cases s job
  · rw [heq]
    exact h.enlist hnew hsound hrevision
  · rw [heq]
    exact h.add hnew hsound hrevision

/-- Taking a job over changes the jobs and what is known of the latest ones, and nothing else. -/
lemma remember_spec (s : Coordinator) (job : IngestionJob) :
    (s.remember job).jobs = s.jobs.insert job.id job ∧ (s.remember job).store = s.store ∧
      (s.remember job).backend = s.backend ∧ (s.remember job).executing = s.executing ∧
      (s.remember job).queue = s.queue := by
  obtain ⟨heq,-⟩ | ⟨heq,-⟩ := remember_cases s job
  · rw [heq]
    exact ⟨rfl,rfl,rfl,rfl,rfl⟩
  · rw [heq]
    exact ⟨rfl,rfl,rfl,rfl,rfl⟩

/-- A coordinator that has taken over the jobs of a log and has not touched them yet. -/
structure Loaded (frames : List IngestionJob) (backend : CatalogBackend) (s : Coordinator) :
    Prop where
  wf : s.Wf
  jobs : s.jobs = latestJobs frames
  backend : s.backend = backend
  idle : s.executing = ∅
  queue : s.queue = []

lemma loaded_remember {store : JobStore} (backend : CatalogBackend)
    (hstore : ∀ x ∈ store.frames, x.Sound) (loaded : List IngestionJob)
    (hsound : ∀ x ∈ loaded, x.Sound) (hnodup : (loaded.map IngestionJob.id).Nodup) :
    (loaded.foldl remember { start backend with store := store }).Loaded loaded backend ∧
      (loaded.foldl remember { start backend with store := store }).store = store := by
  induction loaded using List.reverseRecOn with
  | nil => exact ⟨⟨(wf_start backend).withStore hstore,rfl,rfl,rfl,rfl⟩,rfl⟩
  | append_singleton loaded job ih =>
    rw [List.map_append,List.nodup_append] at hnodup
    obtain ⟨hrest,-,hdisjoint⟩ := hnodup
    obtain ⟨⟨hwf,hjobs,hbackend,hidle,hqueue⟩,hs⟩ :=
      ih (fun x hx => hsound x (List.mem_append_left _ hx)) hrest
    rw [List.foldl_append,List.foldl_cons,List.foldl_nil]
    obtain ⟨hjobs',hstore',hbackend',hidle',hqueue'⟩ :=
      remember_spec (loaded.foldl remember { start backend with store := store }) job
    have hnew : (loaded.foldl remember { start backend with store := store }).jobs.find? job.id =
        none := by
      rw [hjobs]
      cases hfound : (latestJobs loaded).find? job.id with
      | none => rfl
      | some x =>
        obtain ⟨hmem,hid⟩ := latestJobs_mem hfound
        exact absurd hid (hdisjoint x.id (List.mem_map_of_mem hmem) job.id (by simp))
    exact ⟨⟨hwf.remember hnew (hsound job (by simp)),by rw [hjobs',hjobs,latestJobs_concat],
      hbackend'.trans hbackend,hidle'.trans hidle,hqueue'.trans hqueue⟩,hstore'.trans hs⟩

end Coordinator
end RagRuntime.Ingestion
