import RagRuntime.Ingestion.CoordinatorSteps

/-! Every step of the coordinator is one event, followed by threads moving on. -/
namespace RagRuntime.Ingestion
open RagRuntime.Base RagRuntime.Core RagRuntime.Backend RagRuntime.Preparation RagRuntime.Text

namespace Coordinator

variable {cfg : CoordinatorConfig} {s m : Coordinator} {a : Action} {id : JobId}
  {progress next : Progress} {job : IngestionJob}

/-- One event, then threads that move on. -/
def Stepped (s : Coordinator) (a : Action) (t : Coordinator) : Prop :=
  ∃ m, s.Event a m ∧ Moved m t ∧ (a.Synced → Kept m t)

lemma Moved.refl (h : m.Wf) : Moved m m :=
  ⟨rfl,fun _ _ => Or.inl,h.queue,h.waiting⟩

lemma Kept.refl (m : Coordinator) : Kept m m := ⟨fun _ _ _ hid _ _ _ => hid,fun _ _ => id⟩

/-- The same thread goes on with its job. -/
lemma Stepped.goOn (h : s.Wf) (hevent : s.Event a m) (hid : m.executing.find? id = some progress)
    (hjob : m.jobs.find? id = some job) (hfits : next.Fits job) (hnext : ¬next.Applied)
    (hkept : a.Synced → progress.Applied → terminal job.status = true)
    (hwritten : a.Synced → ∀ e, next ≠ .failingVolatile e) :
    Stepped s a (m.setProgress id next) := by
  have hm := hevent.wf h
  have hwf := hm.goOn (not_waiting hm hid) hjob hfits
  refine ⟨m,hevent,⟨rfl,?_,hm.queue,hwf.waiting⟩,?_⟩
  · intro id' p hp
    simp only [setProgress,OrdMap.find?_insert] at hp
    split_ifs at hp with heq
    · cases hp
      exact Or.inr ⟨hnext,job,heq ▸ hjob,hfits⟩
    · exact Or.inl hp
  · intro hsynced
    constructor
    · intro id' p job' hp happlied hjob' hopen
      have hne : id' ≠ id := by
        intro heq
        subst heq
        cases hjob.symm.trans hjob'
        cases hid.symm.trans hp
        rw [hkept hsynced happlied] at hopen
        cases hopen
      simpa [setProgress,hne] using hp
    · intro id' e he
      simp only [setProgress,OrdMap.find?_insert] at he
      split_ifs at he
      · cases he
        exact absurd rfl (hwritten hsynced e)
      · exact he

/-- The thread is done with its job. -/
lemma Stepped.finish (h : s.Wf) (hevent : s.Event a m) (hid : m.executing.find? id = some progress)
    (hkept : a.Synced → progress.Applied → ∀ job, m.jobs.find? id = some job →
      terminal job.status = true) : Stepped s a (m.finish id) := by
  have hm := hevent.wf h
  refine ⟨m,hevent,⟨rfl,?_,hm.queue,?_⟩,?_⟩
  · intro id' p hp
    simp only [Coordinator.finish,OrdMap.find?_erase] at hp
    split_ifs at hp
    exact Or.inl hp
  · intro id' hid'
    refine ⟨?_,(hm.waiting id' hid').2⟩
    simp only [Coordinator.finish,OrdMap.find?_erase]
    split_ifs
    · rfl
    · exact (hm.waiting id' hid').1
  · intro hsynced
    constructor
    · intro id' p job hp happlied hjob hopen
      have hne : id' ≠ id := by
        intro heq
        subst heq
        cases hid.symm.trans hp
        rw [hkept hsynced happlied job hjob] at hopen
        cases hopen
      simpa [Coordinator.finish,hne] using hp
    · intro id' e he
      simp only [Coordinator.finish,OrdMap.find?_erase] at he
      split_ifs at he
      exact he

/-- The record that a transition writes. -/
def nextRecord (s : Coordinator) (change : Change) (job : IngestionJob) (now : ℤ) : IngestionJob :=
  if s.revisionOf job.input.document = job.revision then change.apply job now
  else { job.supersede now with error := none }

inductive Transitioned (s : Coordinator) (id : JobId) (change : Change) (now : ℤ)
    (saved : WriteOutcome) : Result Bool × Coordinator → Prop
  | unknown (h : s.jobs.find? id = none) (e : Error) :
    Transitioned s id change now saved (.error e,s)
  | closed (job : IngestionJob) (hjob : s.jobs.find? id = some job)
    (hclosed : terminal job.status = true) : Transitioned s id change now saved (.ok false,s)
  | lost (job : IngestionJob) (hjob : s.jobs.find? id = some job)
    (hopen : terminal job.status = false) (hsaved : saved ≠ .synced) (e : Error)
    (extra : List IngestionJob) (hextra : ∀ x ∈ extra, x = s.nextRecord change job now)
    (bytes : ℕ) :
    Transitioned s id change now saved
      (.error e,{ s with store := ⟨s.store.frames ++ extra,bytes⟩ })
  | written (job : IngestionJob) (hjob : s.jobs.find? id = some job)
    (hopen : terminal job.status = false) (bytes : ℕ) :
    Transitioned s id change now saved (.ok (decide (s.Current job)),{ s with
      jobs := s.jobs.insert (s.nextRecord change job now).id (s.nextRecord change job now)
      store := ⟨s.store.frames ++ [s.nextRecord change job now],bytes⟩ })

lemma transition_transitioned (cfg : CoordinatorConfig) (s : Coordinator) (id : JobId)
    (change : Change) (now : ℤ)
    (saved : WriteOutcome) :
    s.Transitioned id change now saved (s.transition cfg id change now saved) := by
  unfold transition
  cases hjob : s.jobs.find? id with
  | none => exact .unknown hjob _
  | some job =>
    dsimp only
    by_cases hterminal : terminal job.status = true
    · rw [if_pos hterminal]
      exact .closed job hjob hterminal
    · rw [if_neg hterminal]
      have hopen := Bool.eq_false_of_not_eq_true hterminal
      have hnext : (if decide (s.revisionOf job.input.document = job.revision) = true then
          change.apply job now else { job.supersede now with error := none }) =
          s.nextRecord change job now := by
        simp only [nextRecord,decide_eq_true_eq]
      simp only [hnext]
      cases saved with
      | synced => exact .written job hjob hopen _
      | unsynced =>
        exact .lost job hjob hopen (by simp) _ [s.nextRecord change job now] (by simp) _
      | refused e =>
        have hlost : Transitioned s id change now (.refused e)
            (.error e,{ s with store := ⟨s.store.frames ++ [],s.store.bytes⟩ }) :=
          .lost job hjob hopen (by simp) e [] (by simp) _
        rwa [List.append_nil] at hlost

/-- A transition that the job's thread is allowed to make where it stands. -/
structure Change.Allowed (change : Change) (progress : Progress) (job : IngestionJob) : Prop where
  ready : change.status = .ready → progress.Applied ∧
    ∀ prepared, progress = .activated prepared → change.prepared = some prepared
  failed : change.status = .failed → ∃ e, progress = .failing e
  applied : progress.Applied → terminal change.status = true
  superseded : change.status ≠ .superseded
  cancelled : change.status ≠ .cancelled

lemma apply_same (change : Change) (job : IngestionJob) (now : ℤ) :
    job.SameIdentity (change.apply job now) := by
  unfold Change.apply
  by_cases h : terminal change.status = true
  · rw [if_pos h]
    exact ⟨rfl,rfl,rfl,rfl,rfl⟩
  · rw [if_neg h]
    exact ⟨rfl,rfl,rfl,rfl,rfl⟩

@[simp] lemma nextRecord_id (s : Coordinator) (change : Change) (job : IngestionJob) (now : ℤ) :
    (s.nextRecord change job now).id = job.id := by
  unfold nextRecord
  split_ifs
  · exact (apply_same change job now).id
  · rfl

lemma apply_input (change : Change) (job : IngestionJob) (now : ℤ) :
    (change.apply job now).input = job.input ∨ (change.apply job now).input.content = [] := by
  unfold Change.apply
  by_cases h : terminal change.status = true
  · rw [if_pos h]
    exact Or.inr rfl
  · rw [if_neg h]
    exact Or.inl rfl

@[simp] lemma apply_status (change : Change) (job : IngestionJob) (now : ℤ) :
    (change.apply job now).status = change.status := by
  unfold Change.apply
  by_cases h : terminal change.status = true
  · rw [if_pos h]
    rfl
  · rw [if_neg h]

lemma apply_prepared {change : Change} {prepared : PreparedDocument}
    (hready : change.status = .ready)
    (h : change.prepared = some prepared) (job : IngestionJob) (now : ℤ) :
    (change.apply job now).prepared = some prepared := by
  simp [Change.apply,hready,h]

/-- The record of an allowed transition. -/
lemma recorded_nextRecord (h : s.Wf) (hid : s.executing.find? id = some progress)
    (hjob : s.jobs.find? id = some job) {change : Change} (hallowed : change.Allowed progress job)
    (now : ℤ) : s.Recorded job (s.nextRecord change job now) := by
  have hkey := h.keyed id job hjob
  have hsound := h.jobs id job hjob
  unfold nextRecord
  split_ifs with hcurrent
  · have hsame := apply_same change job now
    have hexecuting : s.executing.find? (change.apply job now).id = some progress := by
      rw [hsame.id,hkey]
      exact hid
    have hfits : progress.Fits job := by
      obtain ⟨x,hx,hfits⟩ := h.executing id progress hid
      cases hjob.symm.trans hx
      exact hfits
    have hstill : s.Current (change.apply job now) := by
      unfold Current
      rw [hsame.document,hsame.revision]
      exact hcurrent
    refine ⟨hsame,?_,?_,?_,?_,?_⟩
    · by_cases hready : change.status = .ready
      · obtain ⟨happlied,hprepared⟩ := hallowed.ready hready
        refine ⟨hsame.document ▸ hsound.document,hsame.revision ▸ hsound.revision,?_,?_⟩
        · intro _ hcontent
          exact absurd (by simp [Change.apply,hready,IngestionJob.clearContent]) hcontent
        · intro _ hop
          cases progress with
          | activated prepared =>
            exact ⟨prepared,apply_prepared hready (hprepared prepared rfl) job now,hfits.2,
              hsame.prepares hfits.1⟩
          | erased applied =>
            have herase : job.operation = .erase := hfits
            rw [hsame.operation,herase] at hop
            cases hop
          | _ => cases happlied
      · exact hsound.of_same hsame (apply_input change job now) (by rwa [apply_status])
    · intro hready
      rw [apply_status] at hready
      obtain ⟨happlied,hprepared⟩ := hallowed.ready hready
      exact ⟨hstill,progress,hexecuting,happlied,fun prepared hp =>
        apply_prepared hready (hprepared prepared hp) job now⟩
    · intro hsuperseded
      rw [apply_status] at hsuperseded
      exact absurd hsuperseded hallowed.superseded
    · intro hfailed
      rw [apply_status] at hfailed
      obtain ⟨e,rfl⟩ := hallowed.failed hfailed
      exact ⟨e,hexecuting⟩
    · rw [apply_status]
      exact hallowed.cancelled
  · have hsame : job.SameIdentity { job.supersede now with error := none } := ⟨rfl,rfl,rfl,rfl,rfl⟩
    refine ⟨hsame,hsound.of_same hsame (Or.inr rfl) (by simp [IngestionJob.supersede]),?_,
      fun _ => hcurrent,?_,?_⟩
    · intro hready
      cases hready
    · intro hfailed
      cases hfailed
    · exact JobStatus.noConfusion

/-- A transition, and where its thread goes on. -/
lemma advance_stepped (h : s.Wf) (hid : s.executing.find? id = some progress)
    (hjob : s.jobs.find? id = some job) {change : Change} (hallowed : change.Allowed progress job)
    {after : Option Progress}
    (hafter : ∀ p ∈ after, p.Fits job ∧ ¬p.Applied ∧ ∀ e, p ≠ .failingVolatile e)
    (hend : progress.Applied → after = none) (around : Surroundings) :
    s.Stepped (.execute id around) (s.advance cfg id change after around) := by
  have hrecorded := recorded_nextRecord h hid hjob hallowed around.now
  have hkey := h.keyed id job hjob
  have htransition := transition_transitioned cfg s id change around.now around.saved
  unfold advance
  dsimp only
  cases hresult : s.transition cfg id change around.now around.saved with
  | mk result t =>
    rw [hresult] at htransition
    cases htransition with
    | unknown hnone e =>
      rw [hnone] at hjob
      cases hjob
    | closed x hx hclosed =>
      cases hjob.symm.trans hx
      apply Stepped.finish h .quiet hid
      intro _ _ y hy
      cases hjob.symm.trans hy
      exact hclosed
    | lost x hx hopen hsaved e extra hextra bytes =>
      cases hjob.symm.trans hx
      have hlost : ¬(Action.execute id around).Synced := hsaved
      refine Stepped.goOn h (.spilled extra ?_ hlost bytes) hid hjob trivial not_false
        (fun hsynced => absurd hsynced hsaved) (fun hsynced => absurd hsynced hsaved)
      intro y hy
      rw [hextra y hy]
      refine .known job ?_ hopen hrecorded.same hrecorded.sound hrecorded.ready
      rw [nextRecord_id,hkey]
      exact hjob
    | written x hx hopen bytes =>
      cases hjob.symm.trans hx
      have hevent : s.Event (.execute id around) { s with
          jobs := s.jobs.insert id (s.nextRecord change job around.now)
          store := ⟨s.store.frames ++ [s.nextRecord change job around.now],bytes⟩ } :=
        .recorded id around rfl job _ hjob hopen hrecorded bytes
      have hfound : (s.jobs.insert id (s.nextRecord change job around.now)).find? id =
          some (s.nextRecord change job around.now) := by simp
      have hclosed : progress.Applied →
          terminal (s.nextRecord change job around.now).status = true := by
        intro happlied
        unfold nextRecord
        split_ifs
        · rw [apply_status]
          exact hallowed.applied happlied
        · rfl
      rw [nextRecord_id,hkey]
      have hfinish := Stepped.finish h hevent hid (fun _ happlied y hy => by
        cases hfound.symm.trans hy
        exact hclosed happlied)
      cases hcurrent : decide (s.Current job) with
      | false => exact hfinish
      | true =>
        cases after with
        | none => exact hfinish
        | some next =>
          obtain ⟨hfits,hnext,hwritten⟩ := hafter next rfl
          exact Stepped.goOn h hevent hid hfound (hfits.of_same hrecorded.same) hnext
            (fun _ => hclosed) (fun _ => hwritten)

lemma prepares_prepareChunks {prepared : PreparedDocument} (hsound : job.Sound)
    (hop : job.operation = .upsert) (h : prepareChunks job.input.document job.input.content
      job.input.metadata job.input.title cfg.chunking = .ok prepared) : job.Prepares prepared := by
  unfold prepareChunks at h
  split_ifs at h with hkey hcontent
  · cases h
  · cases h
  · cases h
    obtain ⟨hnormal,hhash⟩ := hsound.hashed hop hcontent
    refine ⟨hop,rfl,?_⟩
    rw [hhash,hnormal]

lemma prepares_embedDocument {prepared embedded : PreparedDocument} {embedder : Embedder}
    (hp : job.Prepares prepared)
    (h : embedDocument cfg.sqrt embedder cfg.embeddingBatchSize prepared = .ok embedded) :
    job.Prepares embedded := by
  unfold embedDocument at h
  cases hvectors : embedTexts cfg.sqrt embedder cfg.embeddingBatchSize
    (prepared.chunks.map (·.indexedText)) with
  | error e =>
    rw [hvectors] at h
    cases h
  | ok vectors =>
    rw [hvectors] at h
    cases h
    exact ⟨hp.operation,hp.key,hp.contentHash⟩

lemma allowed_of_open {change : Change} (h : terminal change.status = false)
    (hprogress : ¬progress.Applied) : change.Allowed progress job := by
  refine ⟨?_,?_,fun happlied => absurd happlied hprogress,?_,?_⟩
  · intro hready
    rw [hready] at h
    cases h
  · intro hfailed
    rw [hfailed] at h
    cases h
  · intro hsuperseded
    rw [hsuperseded] at h
    cases h
  · intro hcancelled
    rw [hcancelled] at h
    cases h

/-- Every step of `execute` is one event. -/
theorem execute_stepped (h : s.Wf) (hid : s.executing.find? id = some progress)
    (around : Surroundings) :
    s.Stepped (.execute id around) (s.execute cfg id around progress) := by
  obtain ⟨job,hjob,hfits⟩ := h.executing id progress hid
  have hgo : ∀ next : Progress, next.Fits job → (¬next.Applied ∧ ∀ e, next ≠ .failingVolatile e) →
      ¬progress.Applied → s.Stepped (.execute id around) (s.setProgress id next) :=
    fun next hnext hnot hprogress => Stepped.goOn h .quiet hid hjob hnext hnot.1
      (fun _ happlied => absurd happlied hprogress) (fun _ => hnot.2)
  have hdone : ¬progress.Applied → s.Stepped (.execute id around) (s.finish id) := fun hprogress =>
    Stepped.finish h .quiet hid fun _ happlied => absurd happlied hprogress
  cases progress with
  | entered =>
    simp only [execute,hjob]
    split_ifs with hclosed herase
    · exact hdone not_false
    · exact hgo _ herase ⟨not_false,fun _ => Progress.noConfusion⟩ not_false
    · have hupsert : job.operation = .upsert := by
        cases hop : job.operation with
        | upsert => rfl
        | erase => exact absurd hop herase
      exact hgo _ hupsert ⟨not_false,fun _ => Progress.noConfusion⟩ not_false
  | toChunking =>
    have hallowed : Change.Allowed { status := .chunking } .toChunking job :=
      allowed_of_open rfl not_false
    change s.Stepped _ (s.advance cfg id _ (some .preparing) around)
    refine advance_stepped h hid hjob hallowed ?_ False.elim around
    intro p hp
    cases hp
    exact ⟨hfits,not_false,fun _ => Progress.noConfusion⟩
  | preparing =>
    simp only [execute,hjob]
    cases hprepared : prepareChunks job.input.document job.input.content job.input.metadata
      job.input.title cfg.chunking with
    | error e => exact hgo _ trivial ⟨not_false,fun _ => Progress.noConfusion⟩ not_false
    | ok prepared =>
      have hprepares := prepares_prepareChunks (h.jobs id job hjob) hfits hprepared
      exact hgo _ hprepares ⟨not_false,fun _ => Progress.noConfusion⟩ not_false
  | toEmbedding prepared =>
    have hallowed : Change.Allowed { status := .embedding } (.toEmbedding prepared) job :=
      allowed_of_open rfl not_false
    change s.Stepped _ (s.advance cfg id _ (some (.embedding prepared)) around)
    refine advance_stepped h hid hjob hallowed ?_ False.elim around
    intro p hp
    cases hp
    exact ⟨hfits,not_false,fun _ => Progress.noConfusion⟩
  | embedding prepared =>
    unfold execute
    cases cfg.embedder with
    | none => exact hgo _ hfits ⟨not_false,fun _ => Progress.noConfusion⟩ not_false
    | some embedder =>
      cases around.fault with
      | some e => exact hgo _ trivial ⟨not_false,fun _ => Progress.noConfusion⟩ not_false
      | none =>
        dsimp only
        cases hembedded : embedDocument cfg.sqrt { embedder with embed := around.embed }
          cfg.embeddingBatchSize prepared with
        | error e => exact hgo _ trivial ⟨not_false,fun _ => Progress.noConfusion⟩ not_false
        | ok embedded =>
          have hprepares := prepares_embedDocument hfits hembedded
          exact hgo _ hprepares ⟨not_false,fun _ => Progress.noConfusion⟩ not_false
  | toPublishing prepared =>
    have hallowed : Change.Allowed { status := .publishing, prepared := some prepared }
        (.toPublishing prepared) job :=
      allowed_of_open rfl not_false
    change s.Stepped _ (s.advance cfg id _ (some (.activating prepared)) around)
    refine advance_stepped h hid hjob hallowed ?_ False.elim around
    intro p hp
    cases hp
    exact ⟨hfits,not_false,fun _ => Progress.noConfusion⟩
  | activating prepared =>
    simp only [execute,hjob]
    by_cases hclosed : terminal job.status = true ∨ s.revisionOf job.input.document ≠ job.revision
    · rw [if_pos hclosed]
      exact hdone not_false
    · rw [if_neg hclosed]
      obtain ⟨hopen,hcurrent⟩ := not_or.mp hclosed
      cases hresult : s.backend.activate prepared job.revision around.built with
      | mk result backend =>
        cases result with
        | error e => exact hgo _ trivial ⟨not_false,fun _ => Progress.noConfusion⟩ not_false
        | ok u =>
          have hevent := Event.activated id around rfl job prepared hjob hid
            (Bool.eq_false_of_not_eq_true hopen) (not_not.mp hcurrent) backend hresult
          exact ⟨_,hevent,Moved.refl (hevent.wf h),fun _ => Kept.refl _⟩
  | activated prepared =>
    refine advance_stepped h hid hjob ⟨fun _ => ⟨trivial,?_⟩,JobStatus.noConfusion,fun _ => rfl,
      JobStatus.noConfusion,JobStatus.noConfusion⟩ ?_ (fun _ => rfl) around
    · intro other hother
      cases hother
      rfl
    · intro p hp
      cases hp
  | toErasing =>
    have hallowed : Change.Allowed { status := .publishing } .toErasing job :=
      allowed_of_open rfl not_false
    change s.Stepped _ (s.advance cfg id _ (some .erasing) around)
    refine advance_stepped h hid hjob hallowed ?_ False.elim around
    intro p hp
    cases hp
    exact ⟨hfits,not_false,fun _ => Progress.noConfusion⟩
  | erasing =>
    simp only [execute,hjob]
    cases hresult : s.backend.erase job.input.document job.revision around.built with
    | mk result backend =>
      cases result with
      | error e => exact hgo _ trivial ⟨not_false,fun _ => Progress.noConfusion⟩ not_false
      | ok applied =>
        have hevent := Event.erased id around rfl job applied hjob hid backend hresult
        exact ⟨_,hevent,Moved.refl (hevent.wf h),fun _ => Kept.refl _⟩
  | erased applied =>
    refine advance_stepped h hid hjob ⟨fun _ => ⟨trivial,?_⟩,JobStatus.noConfusion,fun _ => rfl,
      JobStatus.noConfusion,JobStatus.noConfusion⟩ ?_ (fun _ => rfl) around
    · intro other hother
      cases hother
    · intro p hp
      cases hp
  | failing e =>
    have hadvance : s.execute cfg id around (.failing e) =
        s.advance cfg id { status := .failed, error := some (boundedError e) } none around := by
      unfold execute advance proceed
      dsimp only
      cases (s.transition cfg id { status := .failed, error := some (boundedError e) } around.now
        around.saved).1 with
      | error e => rfl
      | ok current => cases current <;> rfl
    rw [hadvance]
    refine advance_stepped h hid hjob ⟨JobStatus.noConfusion,fun _ => ⟨e,rfl⟩,fun _ => rfl,
      JobStatus.noConfusion,JobStatus.noConfusion⟩ ?_ (fun _ => rfl) around
    intro p hp
    cases hp
  | failingVolatile e =>
    have hkey := h.keyed id job hjob
    simp only [execute,failVolatile,hjob]
    by_cases hclosed : terminal job.status = true
    · rw [if_pos hclosed]
      exact hdone not_false
    · rw [if_neg hclosed]
      have hopen := Bool.eq_false_of_not_eq_true hclosed
      have hsame : job.SameIdentity { job.clearContent with
          status := if s.revisionOf job.input.document = job.revision then .failed else .superseded
          updatedAtMs := around.now
          error := some (boundedError e)
          prepared := none } := ⟨rfl,rfl,rfl,rfl,rfl⟩
      have hsound := (h.jobs id job hjob).of_same hsame (Or.inr rfl) (by
        dsimp only
        split_ifs <;> exact JobStatus.noConfusion)
      have hevent := Event.failedVolatile (a := .execute id around) id e hid job _ hjob hopen hsame
        hsound (by
          dsimp only
          split_ifs
          · exact Or.inl rfl
          · exact Or.inr rfl)
      have hfinish := Stepped.finish h hevent hid fun _ happlied => False.elim happlied
      rw [← hkey] at hfinish ⊢
      exact hfinish

/-- Accepting a job is one event; where it fails, only the log may have grown. -/
lemma accept_event (cfg : CoordinatorConfig) (h : s.Wf) (hcreated : s.created a = some job)
    (hsound : job.Sound)
    (hfresh : s.Fresh job.id) {clerk : Clerk}
    (hsynced : a.Synced → clerk.saved = .synced ∧ clerk.savedOlder = .synced) :
    ∃ t, s.Event a t ∧ t.queue = s.queue ∧ t.executing = s.executing ∧
      ((∃ e, s.accept cfg job clerk = (.error e,t)) ∨
        s.accept cfg job clerk = (.ok (),t) ∧ t.jobs.find? job.id = some job) := by
  have hlogged : s.Logged a job := .created hcreated hsound hfresh
  unfold accept
  cases hsaved : clerk.saved with
  | refused e => exact ⟨s,.quiet,rfl,rfl,Or.inl ⟨e,rfl⟩⟩
  | unsynced =>
    have hlost : ¬a.Synced := fun ha => by
      rw [(hsynced ha).1] at hsaved
      cases hsaved
    refine ⟨_,.spilled [job] ?_ hlost s.store.bytes,rfl,rfl,Or.inl ⟨_,rfl⟩⟩
    intro x hx
    exact List.mem_singleton.mp hx ▸ hlogged
  | synced =>
    have hpersist : s.persist cfg job .synced = (.ok (),{ s with
        store := ⟨s.store.frames ++ [job],s.store.bytes + cfg.frameSize job⟩ }) := rfl
    have hlatest : { s with
        store := ⟨s.store.frames ++ [job],s.store.bytes + cfg.frameSize job⟩ }.latestOf
          job.input.document = s.latestOf job.input.document := rfl
    simp only [hpersist,hlatest]
    cases holder : s.latestOf job.input.document with
    | none =>
      refine ⟨_,.accepted job hcreated hsound hfresh ?_ (s.store.bytes + cfg.frameSize job),rfl,rfl,
        Or.inr ⟨rfl,by simp [enlist]⟩⟩
      intro older hfound
      rw [holder] at hfound
      cases hfound
    | some older =>
      dsimp only
      by_cases hclosed : terminal older.status = true
      · simp only [if_pos hclosed]
        refine ⟨_,.accepted job hcreated hsound hfresh ?_ (s.store.bytes + cfg.frameSize job),
          rfl,rfl,
          Or.inr ⟨rfl,by simp [enlist]⟩⟩
        intro other hfound
        cases holder.symm.trans hfound
        exact hclosed
      · simp only [if_neg hclosed]
        have hopen := Bool.eq_false_of_not_eq_true hclosed
        obtain ⟨-,hjob,-,-⟩ := latestOf_spec h holder
        have hsame := older.supersede_same clerk.later
        have hknown : s.Logged a (older.supersede clerk.later) := .known older hjob hopen hsame
          ((h.jobs older.id older hjob).of_same hsame (Or.inr rfl) JobStatus.noConfusion)
          JobStatus.noConfusion
        cases holderSaved : clerk.savedOlder with
        | refused e =>
          have hlost : ¬a.Synced := fun ha => by
            rw [(hsynced ha).2] at holderSaved
            cases holderSaved
          refine ⟨_,.spilled [job] ?_ hlost (s.store.bytes + cfg.frameSize job),rfl,rfl,
            Or.inl ⟨e,rfl⟩⟩
          intro x hx
          exact List.mem_singleton.mp hx ▸ hlogged
        | unsynced =>
          have hlost : ¬a.Synced := fun ha => by
            rw [(hsynced ha).2] at holderSaved
            cases holderSaved
          have hspilled : s.Event a { s with store :=
              ⟨s.store.frames ++ [job] ++ [older.supersede clerk.later],
                s.store.bytes + cfg.frameSize job⟩ } := by
            rw [List.append_assoc]
            apply Event.spilled [job,older.supersede clerk.later] _ hlost
            intro x hx
            obtain rfl | hx := List.mem_cons.mp hx
            · exact hlogged
            · exact List.mem_singleton.mp hx ▸ hknown
          exact ⟨_,hspilled,rfl,rfl,Or.inl ⟨_,rfl⟩⟩
        | synced =>
          exact ⟨_,.replaced job older clerk.later hcreated hsound hfresh holder hopen
            (s.store.bytes + cfg.frameSize job + cfg.frameSize (older.supersede clerk.later)),
              rfl,rfl,
            Or.inr ⟨rfl,by simp [enlist]⟩⟩

/-- What is accepted stands behind no thread and no other queue entry. -/
lemma accepted_stepped (h : s.Wf) {t : Coordinator} (hevent : s.Event a t)
    (hqueue : t.queue = s.queue)
    (hexecuting : t.executing = s.executing) (hfresh : s.Fresh job.id)
    (hjob : t.jobs.find? job.id = some job) :
    s.Stepped a (t.setProgress job.id .entered) ∧
      s.Stepped a { t with queue := t.queue ++ [job.id] } := by
  have ht := hevent.wf h
  have hwaiting : job.id ∉ t.queue := fun hmem => by
    obtain ⟨-,x,hx⟩ := h.waiting job.id (hqueue ▸ hmem)
    rw [hfresh.1] at hx
    cases hx
  have hidle : t.executing.find? job.id = none := hexecuting ▸ h.idle_of_fresh hfresh.1
  constructor
  · have hfits : Progress.entered.Fits job := trivial
    refine ⟨t,hevent,⟨rfl,?_,ht.queue,(ht.goOn hwaiting hjob hfits).waiting⟩,?_⟩
    · intro id p hp
      simp only [setProgress,OrdMap.find?_insert] at hp
      split_ifs at hp with heq
      · cases hp
        exact Or.inr ⟨not_false,job,heq ▸ hjob,trivial⟩
      · exact Or.inl hp
    · intro _
      constructor
      · intro id p x hp _ _ _
        have hne : id ≠ job.id := fun heq => by
          rw [heq,hidle] at hp
          cases hp
        simpa [setProgress,hne] using hp
      · intro id e he
        simp only [setProgress,OrdMap.find?_insert] at he
        split_ifs at he
        · cases he
        · exact he
  · refine ⟨t,hevent,⟨rfl,fun _ _ => Or.inl,?_,?_⟩,fun _ =>
    ⟨fun _ _ _ hp _ _ _ => hp,fun _ _ => id⟩⟩
    · exact List.nodup_append.mpr ⟨ht.queue,List.nodup_singleton _,fun x hx y hy heq =>
        hwaiting (List.mem_singleton.mp hy ▸ heq ▸ hx)⟩
    · intro id hid
      obtain hid | hid := List.mem_append.mp hid
      · exact ht.waiting id hid
      · rw [List.mem_singleton.mp hid]
        exact ⟨hidle,job,hjob⟩

lemma sound_newJob_upsert (s : Coordinator) {input : IngestionInput}
    (hdocument : input.document ≠ [])
    (clerk : Clerk) :
    (s.newJob .upsert { input with content := normalizeSourceText input.content }
      (documentContentHash input.title (normalizeSourceText input.content) input.metadata)
      clerk).Sound :=
  ⟨hdocument,Nat.succ_ne_zero _,fun _ _ => ⟨normalizeSourceText_idem _,rfl⟩,JobStatus.noConfusion⟩

lemma sound_newJob_erase (s : Coordinator) {document : Bytes} (hdocument : document ≠ [])
    (clerk : Clerk) : (s.newJob .erase ⟨document,[],[],∅⟩ deletedHash clerk).Sound :=
  ⟨hdocument,Nat.succ_ne_zero _,JobOperation.noConfusion,JobStatus.noConfusion⟩

lemma stepped_quiet (h : s.Wf) : s.Stepped a s := ⟨s,.quiet,Moved.refl h,fun _ => Kept.refl s⟩

/-- Every step of the coordinator is one event, followed by threads moving on. -/
theorem step_stepped (h : s.Wf) {t : Coordinator} (hstep : s.step cfg a = some t) :
    s.Stepped a t := by
  cases a with
  | submit input asynchronous clerk =>
    simp only [step] at hstep
    split_ifs at hstep with hfresh
    cases hstep
    unfold submit
    dsimp only
    by_cases hargs : input.document = [] ∨ input.content = []
    · rw [if_pos hargs]
      exact stepped_quiet h
    rw [if_neg hargs]
    by_cases hstopping : s.stopping = true
    · rw [if_pos hstopping]
      exact stepped_quiet h
    rw [if_neg hstopping]
    split
    · exact stepped_quiet h
    · by_cases hfull : asynchronous = true ∧ s.queue.length ≥ cfg.queueCapacity
      · rw [if_pos hfull]
        exact stepped_quiet h
      rw [if_neg hfull]
      obtain ⟨t,hevent,hqueue,hexecuting,⟨e,hrefused⟩ | ⟨haccepted,hjob⟩⟩ :=
        accept_event cfg (a := .submit input asynchronous clerk) h rfl
          (sound_newJob_upsert s (not_or.mp hargs).1 clerk) hfresh id
      · rw [hrefused]
        exact ⟨t,hevent,Moved.refl (hevent.wf h),fun _ => Kept.refl t⟩
      · rw [haccepted]
        obtain ⟨hentered,hqueued⟩ := accepted_stepped h hevent hqueue hexecuting hfresh hjob
        cases asynchronous with
        | false => exact hentered
        | true => exact hqueued
  | erase document clerk =>
    simp only [step] at hstep
    split_ifs at hstep with hfresh
    cases hstep
    unfold erase
    dsimp only
    by_cases hdocument : document = []
    · rw [if_pos hdocument]
      exact stepped_quiet h
    rw [if_neg hdocument]
    by_cases hstopping : s.stopping = true
    · rw [if_pos hstopping]
      exact stepped_quiet h
    rw [if_neg hstopping]
    obtain ⟨t,hevent,hqueue,hexecuting,⟨e,hrefused⟩ | ⟨haccepted,hjob⟩⟩ :=
      accept_event cfg (a := .erase document clerk) h rfl
        (sound_newJob_erase s hdocument clerk) hfresh id
    · rw [hrefused]
      exact ⟨t,hevent,Moved.refl (hevent.wf h),fun _ => Kept.refl t⟩
    · rw [haccepted]
      exact (accepted_stepped h hevent hqueue hexecuting hfresh hjob).1
  | take =>
    simp only [step] at hstep
    cases hqueue : s.queue with
    | nil =>
      rw [hqueue] at hstep
      cases hstep
    | cons id queue =>
      rw [hqueue] at hstep
      split_ifs at hstep with hstopping
      cases hstep
      have hhead : id ∈ s.queue := hqueue ▸ List.mem_cons_self
      obtain ⟨hidle,job,hjob⟩ := h.waiting id hhead
      obtain ⟨hnot,hnodup⟩ := List.nodup_cons.mp (hqueue ▸ h.queue)
      refine ⟨s,.quiet,⟨rfl,?_,hnodup,?_⟩,?_⟩
      · intro id' p hp
        simp only [setProgress,OrdMap.find?_insert] at hp
        split_ifs at hp with heq
        · cases hp
          exact Or.inr ⟨not_false,job,heq ▸ hjob,trivial⟩
        · exact Or.inl hp
      · intro id' hid'
        have hne : id' ≠ id := fun heq => hnot (heq ▸ hid')
        have hold := h.waiting id' (hqueue ▸ List.mem_cons_of_mem _ hid')
        simpa [setProgress,hne] using hold
      · intro _
        constructor
        · intro id' p x hp _ _ _
          have hne : id' ≠ id := fun heq => by
            rw [heq,hidle] at hp
            cases hp
          simpa [setProgress,hne] using hp
        · intro id' e he
          simp only [setProgress,OrdMap.find?_insert] at he
          split_ifs at he
          · cases he
          · exact he
  | execute id around =>
    obtain ⟨progress,hid,rfl⟩ := Option.map_eq_some_iff.mp hstep
    exact execute_stepped h hid around
  | compact =>
    cases hstep
    have hevent : s.Event .compact { s with backend := s.backend.compact } := .compacted
    exact ⟨_,hevent,Moved.refl (hevent.wf h),fun _ => Kept.refl _⟩
  | shutdown =>
    cases hstep
    exact ⟨s,.quiet,⟨rfl,fun _ _ => Or.inl,h.queue,h.waiting⟩,
      fun _ => ⟨fun _ _ _ hp _ _ _ => hp,fun _ _ => id⟩⟩

theorem step_wf (h : s.Wf) {t : Coordinator} (hstep : s.step cfg a = some t) : t.Wf := by
  obtain ⟨m,hevent,hmoved,-⟩ := step_stepped h hstep
  exact hmoved.wf (hevent.wf h)

end Coordinator
end RagRuntime.Ingestion
