import RagRuntime.Ingestion.Resume

/-! Which jobs an opening replays, and what replaying them does to the catalog. -/
namespace RagRuntime.Ingestion
open RagRuntime.Base RagRuntime.Core RagRuntime.Backend

section
variable {jobs : OrdMap JobId IngestionJob} {order rest : List JobId}
  {active : OrdMap Bytes IngestionJob} {job other : IngestionJob} {id : JobId} {document : Bytes}

/-- One turn of `activeReady`. -/
def takeReady (jobs : OrdMap JobId IngestionJob) (active : OrdMap Bytes IngestionJob) (id : JobId) :
    OrdMap Bytes IngestionJob :=
  match jobs.find? id with
  | none => active
  | some job =>
    if job.status ≠ .ready then active
    else match active.find? job.input.document with
      | none => active.insert job.input.document job
      | some found =>
        if found.revision < job.revision then active.insert job.input.document job else active

lemma activeReady_eq (jobs : OrdMap JobId IngestionJob) (order : List JobId) :
    activeReady jobs order = order.foldl (takeReady jobs) ∅ := rfl

/-- A ready job that the iteration comes to. -/
def ReadyAmong (jobs : OrdMap JobId IngestionJob) (order : List JobId)
    (job : IngestionJob) : Prop :=
  ∃ id ∈ order, jobs.find? id = some job ∧ job.status = .ready

/-- Of each document with ready jobs one of the newest has been taken. -/
structure Selects (jobs : OrdMap JobId IngestionJob) (order : List JobId)
    (active : OrdMap Bytes IngestionJob) : Prop where
  chosen : ∀ document job, active.find? document = some job → job.input.document = document ∧
    ReadyAmong jobs order job
  newest : ∀ other, ReadyAmong jobs order other → ∃ job,
    active.find? other.input.document = some job ∧ other.revision ≤ job.revision

lemma readyAmong_concat : ReadyAmong jobs (order ++ [id]) job ↔
    ReadyAmong jobs order job ∨ jobs.find? id = some job ∧ job.status = .ready := by
  unfold ReadyAmong
  simp only [List.mem_append,List.mem_singleton]
  constructor
  · rintro ⟨id',hid | rfl,h⟩
    · exact Or.inl ⟨id',hid,h⟩
    · exact Or.inr h
  · rintro (⟨id',hid,h⟩ | h)
    · exact ⟨id',Or.inl hid,h⟩
    · exact ⟨id,Or.inr rfl,h⟩

/-- A turn that takes nothing. -/
lemma Selects.skip (h : Selects jobs order active)
    (hold : ∀ job, jobs.find? id = some job → job.status = .ready →
      ∃ found, active.find? job.input.document = some found ∧ job.revision ≤ found.revision) :
    Selects jobs (order ++ [id]) active := by
  refine ⟨fun document job hjob => ?_,fun other hother => ?_⟩
  · obtain ⟨hdocument,hready⟩ := h.chosen document job hjob
    exact ⟨hdocument,readyAmong_concat.mpr (Or.inl hready)⟩
  · obtain hother | ⟨hfound,hready⟩ := readyAmong_concat.mp hother
    · exact h.newest other hother
    · exact hold other hfound hready

/-- A turn that takes its job. -/
lemma Selects.take (h : Selects jobs order active) (hjob : jobs.find? id = some job)
    (hready : job.status = .ready)
    (hnewer : ∀ found, active.find? job.input.document = some found →
      found.revision ≤ job.revision) :
    Selects jobs (order ++ [id]) (active.insert job.input.document job) := by
  refine ⟨fun document chosen hchosen => ?_,fun other hother => ?_⟩
  · rw [OrdMap.find?_insert] at hchosen
    split_ifs at hchosen with hdocument
    · cases hchosen
      exact ⟨hdocument.symm,readyAmong_concat.mpr (Or.inr ⟨hjob,hready⟩)⟩
    · obtain ⟨hkey,hamong⟩ := h.chosen document chosen hchosen
      exact ⟨hkey,readyAmong_concat.mpr (Or.inl hamong)⟩
  · rw [OrdMap.find?_insert]
    obtain hother | ⟨hfound,-⟩ := readyAmong_concat.mp hother
    · obtain ⟨found,hfound,hle⟩ := h.newest other hother
      split_ifs with hdocument
      · rw [hdocument] at hfound
        exact ⟨job,rfl,hle.trans (hnewer found hfound)⟩
      · exact ⟨found,hfound,hle⟩
    · cases hjob.symm.trans hfound
      exact ⟨job,if_pos rfl,le_rfl⟩

theorem activeReady_selects (jobs : OrdMap JobId IngestionJob) (order : List JobId) :
    Selects jobs order (activeReady jobs order) := by
  induction order using List.reverseRecOn with
  | nil => exact ⟨(fun _ _ h => by cases h),fun _ ⟨_,hmem,_⟩ => by cases hmem⟩
  | append_singleton order id ih =>
    rw [activeReady_eq] at ih ⊢
    rw [List.foldl_append,List.foldl_cons,List.foldl_nil]
    generalize order.foldl (takeReady jobs) ∅ = active at ih
    unfold takeReady
    cases hjob : jobs.find? id with
    | none => exact ih.skip fun job h => by rw [hjob] at h; cases h
    | some job =>
      dsimp only
      by_cases hready : job.status = .ready
      · rw [if_neg (not_not.mpr hready)]
        cases hfound : active.find? job.input.document with
        | none => exact ih.take hjob hready fun found h => by rw [hfound] at h; cases h
        | some found =>
          dsimp only
          split_ifs with hlater
          · apply ih.take hjob hready
            intro x hx
            cases hfound.symm.trans hx
            exact hlater.le
          · apply ih.skip
            intro x hx _
            cases hjob.symm.trans hx
            exact ⟨found,hfound,not_lt.mp hlater⟩
      · rw [if_pos hready]
        exact ih.skip fun x hx hxready => by
          cases hjob.symm.trans hx
          exact absurd hxready hready

/-- Of equally new jobs the one that the iteration comes to first has been taken. -/
def TakesFirst (jobs : OrdMap JobId IngestionJob) (order : List JobId)
    (active : OrdMap Bytes IngestionJob) : Prop :=
  ∀ document job, active.find? document = some job → ∀ other, ReadyAmong jobs order other →
    other.input.document = document → job.revision ≤ other.revision →
      order.idxOf job.id ≤ order.idxOf other.id

lemma ReadyAmong.mem (hkeyed : ∀ id job, jobs.find? id = some job → job.id = id)
    (h : ReadyAmong jobs order job) : job.id ∈ order := by
  obtain ⟨id,hid,hjob,-⟩ := h
  rwa [hkeyed id job hjob]

/-- The first `order` jobs keep their places when the iteration goes on. -/
lemma idxOf_concat_le (hjob : job.id ∈ order)
    (hother : other.id ∈ order → order.idxOf job.id ≤ order.idxOf other.id) :
    (order ++ [id]).idxOf job.id ≤ (order ++ [id]).idxOf other.id := by
  rw [List.idxOf_append_of_mem hjob]
  by_cases hmem : other.id ∈ order
  · rw [List.idxOf_append_of_mem hmem]
    exact hother hmem
  · rw [List.idxOf_append_of_notMem hmem]
    exact (List.idxOf_lt_length_of_mem hjob).le.trans (Nat.le_add_right _ _)

/-- A turn that takes nothing keeps what comes first. -/
lemma TakesFirst.skip (h : TakesFirst jobs order active) (hselects : Selects jobs order active)
    (hkeyed : ∀ id job, jobs.find? id = some job → job.id = id) :
    TakesFirst jobs (order ++ [id]) active := by
  intro document job hjob other hother hdocument hrevision
  apply idxOf_concat_le ((hselects.chosen document job hjob).2.mem hkeyed)
  intro hmem
  apply h document job hjob other _ hdocument hrevision
  obtain ⟨id',-,hfound,hready⟩ := hother
  have hid := hkeyed id' other hfound
  exact ⟨id',hid ▸ hmem,hfound,hready⟩

/-- A turn that takes its job has not come to one as new before. -/
lemma TakesFirst.take (h : TakesFirst jobs order active) (hselects : Selects jobs order active)
    (hkeyed : ∀ id job, jobs.find? id = some job → job.id = id) (hjob : jobs.find? id = some job)
    (hnewer : ∀ found, active.find? job.input.document = some found →
      found.revision < job.revision) :
    TakesFirst jobs (order ++ [id]) (active.insert job.input.document job) := by
  intro document chosen hchosen other hother hdocument hrevision
  rw [OrdMap.find?_insert] at hchosen
  split_ifs at hchosen with hsame
  · cases hchosen
    obtain hother | ⟨hfound,-⟩ := readyAmong_concat.mp hother
    · obtain ⟨found,hfound,hle⟩ := hselects.newest other hother
      rw [hdocument,hsame] at hfound
      exact absurd ((hnewer found hfound).trans_le hrevision) (not_lt.mpr hle)
    · cases hjob.symm.trans hfound
      exact le_rfl
  · exact h.skip hselects hkeyed document chosen hchosen other hother hdocument hrevision

theorem activeReady_takesFirst (hkeyed : ∀ id job, jobs.find? id = some job → job.id = id)
    (order : List JobId) : TakesFirst jobs order (activeReady jobs order) := by
  induction order using List.reverseRecOn with
  | nil =>
    intro document job hjob
    cases hjob
  | append_singleton order id ih =>
    have hselects := activeReady_selects jobs order
    rw [activeReady_eq] at ih hselects ⊢
    rw [List.foldl_append,List.foldl_cons,List.foldl_nil]
    generalize order.foldl (takeReady jobs) ∅ = active at ih hselects
    unfold takeReady
    cases hjob : jobs.find? id with
    | none => exact ih.skip hselects hkeyed
    | some job =>
      dsimp only
      split_ifs with hready
      · exact ih.skip hselects hkeyed
      · cases hfound : active.find? job.input.document with
        | none => exact ih.take hselects hkeyed hjob fun found h => by rw [hfound] at h; cases h
        | some found =>
          dsimp only
          split_ifs with hlater
          · apply ih.take hselects hkeyed hjob
            intro x hx
            cases hfound.symm.trans hx
            exact hlater
          · exact ih.skip hselects hkeyed

/-- A job that has been taken stays unless a newer one comes. -/
lemma foldl_takeReady_kept (hjob : active.find? document = some job)
    (hnewest : ∀ id other, jobs.find? id = some other → other.status = .ready →
      other.input.document = document → other.revision ≤ job.revision) :
    (rest.foldl (takeReady jobs) active).find? document = some job := by
  induction rest generalizing active with
  | nil => exact hjob
  | cons id rest ih =>
    rw [List.foldl_cons]
    apply ih
    unfold takeReady
    cases hfound : jobs.find? id with
    | none => exact hjob
    | some other =>
      dsimp only
      by_cases hready : other.status = .ready
      · rw [if_neg (not_not.mpr hready)]
        by_cases hdocument : other.input.document = document
        · rw [hdocument,hjob]
          dsimp only
          rw [if_neg (not_lt.mpr (hnewest id other hfound hready hdocument))]
          exact hjob
        · cases active.find? other.input.document with
          | none => simpa [Ne.symm hdocument] using hjob
          | some found =>
            dsimp only
            split_ifs
            · simpa [Ne.symm hdocument] using hjob
            · exact hjob
      · rw [if_pos hready]
        exact hjob

end

/-- No ready job of its document in the log is newer. -/
def Newest (frames : List IngestionJob) (job : IngestionJob) : Prop :=
  ReadyIn frames job ∧ ∀ other, ReadyIn frames other →
    other.input.document = job.input.document → other.revision ≤ job.revision

namespace Coordinator
variable {frames : List IngestionJob} {order : List JobId} {job : IngestionJob}

lemma readyAmong_latestJobs (horder : order.Perm (latestJobs frames).keys) :
    ReadyAmong (latestJobs frames) order job ↔ ReadyIn frames job := by
  constructor
  · rintro ⟨id,-,hjob,hready⟩
    have hid := (latestJobs_mem hjob).2
    exact ⟨hid ▸ hjob,hready⟩
  · rintro ⟨hjob,hready⟩
    exact ⟨job.id,horder.mem_iff.mpr (OrdMap.mem_keys.mpr ⟨job,hjob⟩),hjob,hready⟩

lemma mem_replayed_iff : job ∈ replayed frames order ↔
    ∃ document, (activeReady (latestJobs frames) order).find? document = some job := by
  unfold replayed
  rw [List.mem_insertionSort,OrdMap.mem_values]

/-- What is replayed of a document is one of its newest ready jobs. -/
lemma mem_replayed (horder : order.Perm (latestJobs frames).keys)
    (h : job ∈ replayed frames order) : Newest frames job := by
  obtain ⟨document,hjob⟩ := mem_replayed_iff.mp h
  have hselects := activeReady_selects (latestJobs frames) order
  obtain ⟨rfl,hamong⟩ := hselects.chosen document job hjob
  refine ⟨(readyAmong_latestJobs horder).mp hamong,fun other hother hdocument => ?_⟩
  obtain ⟨found,hfound,hle⟩ := hselects.newest other ((readyAmong_latestJobs horder).mpr hother)
  rw [hdocument,hjob] at hfound
  cases hfound
  exact hle

/-- A document with ready jobs is replayed. -/
lemma exists_replayed (horder : order.Perm (latestJobs frames).keys) (h : ReadyIn frames job) :
    ∃ found ∈ replayed frames order, found.input.document = job.input.document ∧
      job.revision ≤ found.revision := by
  have hselects := activeReady_selects (latestJobs frames) order
  obtain ⟨found,hfound,hle⟩ := hselects.newest job ((readyAmong_latestJobs horder).mpr h)
  exact ⟨found,mem_replayed_iff.mpr ⟨_,hfound⟩,(hselects.chosen _ found hfound).1,hle⟩

/-- Each document is replayed once. -/
lemma replayed_documents_nodup (frames : List IngestionJob) (order : List JobId) :
    ((replayed frames order).map fun job => job.input.document).Nodup := by
  have hperm := List.perm_insertionSort ReplayOrder
    (activeReady (latestJobs frames) order).values
  rw [replayed,(hperm.map _).nodup_iff]
  have hkeys : (activeReady (latestJobs frames) order).values.map
      (fun job => job.input.document) = (activeReady (latestJobs frames) order).keys := by
    rw [OrdMap.values,OrdMap.keys,List.map_map]
    apply List.map_congr_left
    intro e he
    exact ((activeReady_selects (latestJobs frames) order).chosen e.1 e.2
      (OrdMap.find?_eq_some.mpr he)).1
  rw [hkeys]
  exact OrdMap.keys_nodup _

/-- A newest ready job, and of several of one document the first in the iteration. -/
def Chosen (frames : List IngestionJob) (order : List JobId) (job : IngestionJob) : Prop :=
  Newest frames job ∧ ∀ other, Newest frames other →
    other.input.document = job.input.document → order.idxOf job.id ≤ order.idxOf other.id

/-- Exactly the chosen jobs are replayed. -/
theorem mem_replayed_iff_chosen (horder : order.Perm (latestJobs frames).keys) :
    job ∈ replayed frames order ↔ Chosen frames order job := by
  have hkeyed : ∀ id job, (latestJobs frames).find? id = some job → job.id = id :=
    fun id job h => (latestJobs_mem h).2
  have hchosen : ∀ {job}, job ∈ replayed frames order → Chosen frames order job := by
    intro job h
    refine ⟨mem_replayed horder h,fun other hother hdocument => ?_⟩
    obtain ⟨document,hjob⟩ := mem_replayed_iff.mp h
    have hselects := activeReady_selects (latestJobs frames) order
    obtain ⟨rfl,-⟩ := hselects.chosen document job hjob
    exact activeReady_takesFirst hkeyed order _ job hjob other
      ((readyAmong_latestJobs horder).mpr hother.1) hdocument
      (hother.2 job (mem_replayed horder h).1 hdocument.symm)
  refine ⟨hchosen,fun h => ?_⟩
  obtain ⟨found,hfound,hdocument,hrevision⟩ := exists_replayed horder h.1.1
  obtain ⟨hnewest,hfirst⟩ := hchosen hfound
  have hle := h.2 found hnewest hdocument
  have hge := hfirst job h.1 hdocument.symm
  have hmem : job.id ∈ order := ((readyAmong_latestJobs horder).mpr h.1.1).mem hkeyed
  have hid : job.id = found.id := (List.idxOf_inj hmem).mp (le_antisymm hle hge)
  have hsame := h.1.1.1
  rw [hid,hnewest.1.1] at hsame
  cases hsame
  exact hfound

/-- Any of the newest ready jobs may be the one that is replayed. -/
lemma exists_order (h : Newest frames job) :
    ∃ order : List JobId, order.Perm (latestJobs frames).keys ∧ job ∈ replayed frames order := by
  obtain ⟨⟨hjob,hready⟩,hnewest⟩ := h
  have hmem : job.id ∈ (latestJobs frames).keys := OrdMap.mem_keys.mpr ⟨job,hjob⟩
  refine ⟨job.id::(latestJobs frames).keys.erase job.id,(List.perm_cons_erase hmem).symm,?_⟩
  rw [mem_replayed_iff,activeReady_eq,List.foldl_cons]
  refine ⟨job.input.document,foldl_takeReady_kept ?_ ?_⟩
  · simp [takeReady,hjob,hready]
  · intro id other hother hotherReady hdocument
    have hid := (latestJobs_mem hother).2
    exact hnewest other ⟨hid ▸ hother,hotherReady⟩ hdocument

end Coordinator

section
variable {job : IngestionJob} {jobs : List IngestionJob} {b c : CatalogBackend}
  {built : JobId → Result Unit} {outcome : Result Unit} {key : Bytes}

/-- Replaying a job leaves the other documents alone. -/
lemma IngestionJob.Sound.replay_frame (h : job.Sound) (hready : job.status = .ready)
    (hb : b.Coherent) (hok : job.replay b outcome = .ok c) (hkey : key ≠ job.input.document) :
    c.documents.find? key = b.documents.find? key ∧ c.view key = b.view key := by
  have hwritten := h.replay hready hb hok
  have hview : c.view key = b.view key := by
    obtain hsame | ⟨-,hview⟩ := hwritten.view
    · rw [hsame]
    · rw [hview,Versioned.write_of_ne hkey]
  refine ⟨?_,hview⟩
  unfold IngestionJob.replay at hok
  cases hop : job.operation with
  | erase =>
    simp only [hop] at hok
    have herased := b.erase_erased job.input.document job.revision outcome
    cases hcall : b.erase job.input.document job.revision outcome with
    | mk result backend =>
      rw [hcall] at hok herased
      cases result with
      | error e => cases hok
      | ok applied =>
        cases hok
        cases herased with
        | already hlatest hgone => rfl
        | published hdocument hrevision hfresh =>
          simp [CatalogBackend.publish,hkey]
  | upsert =>
    obtain ⟨prepared,hprepared,-,hprepares⟩ := h.prepared hready hop
    simp only [hop,hprepared] at hok
    have hactivated := b.activate_activated prepared job.revision outcome
    cases hcall : b.activate prepared job.revision outcome with
    | mk result backend =>
      rw [hcall] at hok hactivated
      cases result with
      | error e => cases hok
      | ok u =>
        cases hok
        cases hactivated with
        | already hvalid halready => rfl
        | published hvalid hrevision hfresh =>
          have hne : key ≠ prepared.key := by rwa [hprepares.key]
          simp [CatalogBackend.publish,hne]

/-- Replaying an upsert leaves what is active at its revision already, or else what it prepared. -/
lemma IngestionJob.Sound.replay_document (h : job.Sound) (hready : job.status = .ready)
    (hok : job.replay b outcome = .ok c) (hop : job.operation = .upsert) :
    c.documents.find? job.input.document =
      if b.latestRevisions.find? job.input.document = some job.revision then
        b.documents.find? job.input.document
      else job.prepared.map (ActiveDocument.mk job.revision) := by
  obtain ⟨prepared,hprepared,-,hprepares⟩ := h.prepared hready hop
  unfold IngestionJob.replay at hok
  simp only [hop,hprepared] at hok
  have hactivated := b.activate_activated prepared job.revision outcome
  cases hcall : b.activate prepared job.revision outcome with
  | mk result backend =>
    rw [hcall] at hok hactivated
    cases result with
    | error e => cases hok
    | ok u =>
      cases hok
      rw [hprepared,← hprepares.key]
      cases hactivated with
      | already hvalid halready =>
        rw [if_pos (CatalogBackend.alreadyActive_eq_true.mp halready).1]
      | published hvalid hrevision hfresh =>
        have hbehind : b.latestRevisions.find? prepared.key ≠ some job.revision := fun hlatest =>
          lt_irrefl _ (CatalogBackend.stale_eq_false.mp hfresh _ hlatest)
        rw [if_neg hbehind]
        simp [CatalogBackend.publish]

lemma replayAll_cons {job : IngestionJob} {rest : List IngestionJob} :
    replayAll built (job::rest) b = .ok c ↔
      ∃ next, job.replay b (built job.id) = .ok next ∧ replayAll built rest next = .ok c := by
  unfold replayAll
  rw [List.foldlM_cons]
  cases job.replay b (built job.id) <;> simp [bind,Except.bind]

/-- Ready jobs of different documents. -/
structure Replayable (jobs : List IngestionJob) : Prop where
  sound : ∀ job ∈ jobs, job.Sound
  ready : ∀ job ∈ jobs, job.status = .ready
  documents : (jobs.map fun job => job.input.document).Nodup

lemma Replayable.tail {rest : List IngestionJob} (h : Replayable (job::rest)) : Replayable rest :=
  ⟨fun x hx => h.sound x (List.mem_cons_of_mem _ hx),
    fun x hx => h.ready x (List.mem_cons_of_mem _ hx),(List.nodup_cons.mp h.documents).2⟩

lemma Replayable.head_ne {rest : List IngestionJob} (h : Replayable (job::rest))
    {other : IngestionJob} (hother : other ∈ rest) :
    other.input.document ≠ job.input.document := fun heq =>
  (List.nodup_cons.mp h.documents).1 (List.mem_map.mpr ⟨other,hother,heq⟩)

/-- What replaying leaves behind. -/
structure Replays (jobs : List IngestionJob) (b c : CatalogBackend) : Prop where
  coherent : c.Coherent
  shown : ∀ job ∈ jobs, c.view job.input.document = some (job.revision,job.effect)
  others : ∀ key, (∀ job ∈ jobs, job.input.document ≠ key) →
    c.documents.find? key = b.documents.find? key ∧ c.view key = b.view key
  older : b.view.Older c.view

theorem replayAll_replays (h : Replayable jobs) (hb : b.Coherent)
    (hok : replayAll built jobs b = .ok c) : Replays jobs b c := by
  induction jobs generalizing b with
  | nil =>
    cases hok
    exact ⟨hb,by simp,fun _ _ => ⟨rfl,rfl⟩,Versioned.Older.refl _⟩
  | cons job rest ih =>
    obtain ⟨next,hnext,hrest⟩ := replayAll_cons.mp hok
    have hsound := h.sound job List.mem_cons_self
    have hready := h.ready job List.mem_cons_self
    have hwritten := hsound.replay hready hb hnext
    obtain ⟨hcoherent,hshown,hothers,holder⟩ := ih h.tail hwritten.coherent hrest
    refine ⟨hcoherent,?_,?_,hwritten.older.trans holder⟩
    · intro other hother
      obtain rfl | hother := List.mem_cons.mp hother
      · rw [(hothers _ fun x hx => h.head_ne hx).2]
        exact hwritten.shown
      · exact hshown other hother
    · intro key hkey
      obtain ⟨hdocuments,hview⟩ := hothers key fun x hx => hkey x (List.mem_cons_of_mem _ hx)
      have hframe := hsound.replay_frame hready hb hnext (hkey job List.mem_cons_self).symm
      exact ⟨hdocuments.trans hframe.1,hview.trans hframe.2⟩

/-- What replaying leaves of the documents that are upserted. -/
theorem replayAll_document (h : Replayable jobs) (hb : b.Coherent)
    (hok : replayAll built jobs b = .ok c) (hjob : job ∈ jobs) (hop : job.operation = .upsert) :
    c.documents.find? job.input.document =
      if b.latestRevisions.find? job.input.document = some job.revision then
        b.documents.find? job.input.document
      else job.prepared.map (ActiveDocument.mk job.revision) := by
  induction jobs generalizing b with
  | nil => cases hjob
  | cons first rest ih =>
    obtain ⟨next,hnext,hrest⟩ := replayAll_cons.mp hok
    have hsound := h.sound first List.mem_cons_self
    have hready := h.ready first List.mem_cons_self
    have hcoherent := (hsound.replay hready hb hnext).coherent
    obtain rfl | hjob := List.mem_cons.mp hjob
    · rw [((replayAll_replays h.tail hcoherent hrest).others _ fun x hx => h.head_ne hx).1]
      exact hsound.replay_document hready hnext hop
    · have hframe := hsound.replay_frame hready hb hnext (h.head_ne hjob)
      have hlatest : next.latestRevisions.find? job.input.document =
          b.latestRevisions.find? job.input.document := by
        have hview := congrArg (Option.map Prod.fst) hframe.2
        simpa [CatalogBackend.view,Function.comp_def] using hview
      rw [ih h.tail hcoherent hrest hjob,hlatest,hframe.1]

/-- With its indexes built, replaying succeeds unless a document has gone on. -/
theorem replayAll_ok_iff (h : Replayable jobs) (hb : b.Coherent)
    (hbuilt : ∀ id, built id = .ok ()) :
    (∃ c, replayAll built jobs b = .ok c) ↔ ∀ job ∈ jobs,
      b.view.Ahead job.input.document job.revision ∨
        b.view job.input.document = some (job.revision,job.effect) := by
  induction jobs generalizing b with
  | nil => simp [replayAll,pure,Except.pure]
  | cons job rest ih =>
    have hsound := h.sound job List.mem_cons_self
    have hready := h.ready job List.mem_cons_self
    have hfirst := hsound.replay_ok_iff hready hb
    have hsame : ∀ {next}, job.replay b (.ok ()) = .ok next → ∀ other ∈ rest,
        next.view other.input.document = b.view other.input.document := fun hnext other hother =>
      (hsound.replay_frame hready hb hnext (h.head_ne hother)).2
    constructor
    · rintro ⟨c,hc⟩
      obtain ⟨next,hnext,hrest⟩ := replayAll_cons.mp hc
      rw [hbuilt] at hnext
      have htail := (ih h.tail (hsound.replay hready hb hnext).coherent).mp ⟨c,hrest⟩
      intro other hother
      obtain rfl | hother := List.mem_cons.mp hother
      · exact hfirst.mp ⟨next,hnext⟩
      · have := htail other hother
        rwa [Versioned.Ahead,hsame hnext other hother] at this
    · intro hall
      obtain ⟨next,hnext⟩ := hfirst.mpr (hall job List.mem_cons_self)
      obtain ⟨c,hc⟩ :=
        (ih h.tail (hsound.replay hready hb hnext).coherent).mpr fun other hother => by
        have := hall other (List.mem_cons_of_mem _ hother)
        rwa [Versioned.Ahead,hsame hnext other hother]
      exact ⟨c,replayAll_cons.mpr ⟨next,by rw [hbuilt]; exact hnext,hc⟩⟩

end

lemma Coordinator.replayed_replayable {frames : List IngestionJob} {order : List JobId}
    (hsound : ∀ x ∈ frames, x.Sound) (horder : order.Perm (latestJobs frames).keys) :
    Replayable (Coordinator.replayed frames order) := by
  refine ⟨fun job hjob => ?_,fun job hjob => ?_,Coordinator.replayed_documents_nodup _ _⟩
  · exact hsound job (latestJobs_mem (Coordinator.mem_replayed horder hjob).1.1).1
  · exact (Coordinator.mem_replayed horder hjob).1.2

end RagRuntime.Ingestion
