import RagRuntime.Ingestion.PendingWork
import RagRuntime.Ingestion.Replaying

/-! Jobs that cannot change what is active any more, and the runs in which there are no others. -/
namespace RagRuntime.Ingestion
open RagRuntime.Base RagRuntime.Core RagRuntime.Backend RagRuntime.Preparation

/-- The embedder, with what its transport answers. -/
def CoordinatorConfig.answering (cfg : CoordinatorConfig) (embed : List Bytes → Result (List Vec)) :
    Option Embedder :=
  cfg.embedder.map fun embedder => { embedder with embed := embed }

/-- What preparing the job can end in. -/
def IngestionJob.PreparedAs (cfg : CoordinatorConfig) (job : IngestionJob)
    (prepared : PreparedDocument) : Prop :=
  ∃ embed, prepareDocument cfg.sqrt job.input.document job.input.content job.input.metadata
    job.input.title cfg.chunking cfg.embeddingBatchSize (cfg.answering embed) = .ok prepared

/-- Without embeddings. -/
def IngestionJob.ChunkedAs (cfg : CoordinatorConfig) (job : IngestionJob)
    (prepared : PreparedDocument) : Prop :=
  prepareChunks job.input.document job.input.content job.input.metadata job.input.title
    cfg.chunking = .ok prepared

/-- What a thread carries comes from its job. -/
def Progress.Derived (cfg : CoordinatorConfig) (job : IngestionJob) : Progress → Prop
  | .toEmbedding prepared | .embedding prepared => job.ChunkedAs cfg prepared
  | .toPublishing prepared | .activating prepared => job.PreparedAs cfg prepared
  | _ => True

section
variable {cfg : CoordinatorConfig} {job next : IngestionJob} {prepared embedded : PreparedDocument}

lemma IngestionJob.ChunkedAs.unembedded (h : job.ChunkedAs cfg prepared)
    (hcfg : cfg.embedder = none) :
    job.PreparedAs cfg prepared := by
  unfold IngestionJob.ChunkedAs at h
  refine ⟨fun _ => .ok [],?_⟩
  simp only [prepareDocument,CoordinatorConfig.answering,hcfg,Option.map_none,h]
  rfl

lemma IngestionJob.ChunkedAs.withEmbeddings (h : job.ChunkedAs cfg prepared) {embedder : Embedder}
    (hcfg : cfg.embedder = some embedder) {embed : List Bytes → Result (List Vec)}
    (hembedded : embedDocument cfg.sqrt { embedder with embed := embed } cfg.embeddingBatchSize
      prepared = .ok embedded) : job.PreparedAs cfg embedded := by
  unfold IngestionJob.ChunkedAs at h
  refine ⟨embed,?_⟩
  simp only [prepareDocument,CoordinatorConfig.answering,hcfg,Option.map_some,h]
  exact hembedded

/-- How a job is prepared, in two steps. -/
lemma IngestionJob.PreparedAs.split (h : job.PreparedAs cfg prepared) :
    ∃ (embed : List Bytes → Result (List Vec)) (chunked : PreparedDocument),
      job.ChunkedAs cfg chunked ∧ (cfg.embedder = none ∧ chunked = prepared ∨
        ∃ embedder : Embedder, cfg.embedder = some embedder ∧ embedDocument cfg.sqrt
          { embedder with embed := embed } cfg.embeddingBatchSize chunked = .ok prepared) := by
  obtain ⟨embed,h⟩ := h
  unfold IngestionJob.ChunkedAs
  simp only [prepareDocument,CoordinatorConfig.answering] at h
  cases hchunked : prepareChunks job.input.document job.input.content job.input.metadata
    job.input.title cfg.chunking with
  | error e =>
    rw [hchunked] at h
    cases h
  | ok chunked =>
    rw [hchunked] at h
    refine ⟨embed,chunked,rfl,?_⟩
    cases hembedder : cfg.embedder with
    | none =>
      rw [hembedder] at h
      cases h
      exact Or.inl ⟨rfl,rfl⟩
    | some embedder =>
      rw [hembedder] at h
      exact Or.inr ⟨embedder,rfl,h⟩

lemma IngestionJob.PreparedAs.prepares (h : job.PreparedAs cfg prepared) (hsound : job.Sound)
    (hop : job.operation = .upsert) : job.Prepares prepared := by
  obtain ⟨embed,chunked,hchunked,hembedded⟩ := h.split
  have hprepares := Coordinator.prepares_prepareChunks hsound hop hchunked
  obtain ⟨-,rfl⟩ | ⟨embedder,-,hembedded⟩ := hembedded
  · exact hprepares
  · exact Coordinator.prepares_embedDocument hprepares hembedded

lemma Progress.Derived.of_input {progress : Progress} (h : progress.Derived cfg job)
    (hinput : next.input = job.input) : progress.Derived cfg next := by
  unfold Progress.Derived IngestionJob.ChunkedAs IngestionJob.PreparedAs at *
  rw [hinput]
  exact h

end

namespace Coordinator

/-- The record after a step is the one before, closed perhaps. -/
def Follows (job next : IngestionJob) : Prop :=
  job.SameIdentity next ∧
    (terminal next.status = true ∨ terminal job.status = false ∧ next.input = job.input)

/-- How a step can change the backend. -/
inductive Applies (job : IngestionJob) (b : CatalogBackend) : Progress → CatalogBackend → Prop
  | activated (prepared : PreparedDocument) (c : CatalogBackend) (built : Result Unit)
    (hopen : terminal job.status = false)
    (h : b.activate prepared job.revision built = (.ok (),c)) :
    Applies job b (.activating prepared) c
  | erased (applied : Bool) (c : CatalogBackend) (built : Result Unit)
    (h : b.erase job.input.document job.revision built = (.ok applied,c)) :
    Applies job b .erasing c

/-- What one step of a thread does. -/
structure Turn (cfg : CoordinatorConfig) (s : Coordinator) (id : JobId) (job : IngestionJob)
    (progress : Progress) (t : Coordinator) : Prop where
  spares : s.Spares t id
  revisions : t.latestRevision = s.latestRevision
  backend : t.backend = s.backend ∨ Applies job s.backend progress t.backend
  record : ∃ next, t.jobs.find? id = some next ∧ Follows job next ∧
    ∀ after, t.executing.find? id = some after →
      terminal next.status = true ∨ after.Derived cfg next

section
variable {cfg : CoordinatorConfig} {s t : Coordinator} {id : JobId} {job next : IngestionJob}
  {progress : Progress} {around : Surroundings}

lemma Follows.refl (job : IngestionJob) : Follows job job := by
  refine ⟨IngestionJob.SameIdentity.refl job,?_⟩
  cases h : terminal job.status with
  | true => exact Or.inl rfl
  | false => exact Or.inr ⟨rfl,rfl⟩

/-- The thread is done with its job. -/
lemma Turn.finish (hspares : s.Spares t id) (hrevisions : t.latestRevision = s.latestRevision)
    (hbackend : t.backend = s.backend) (hnext : t.jobs.find? id = some next)
    (hfollows : Follows job next) : Turn cfg s id job progress (t.finish id) := by
  refine ⟨hspares.finish,hrevisions,Or.inl hbackend,next,hnext,hfollows,?_⟩
  intro after hafter
  rw [Coordinator.finish,OrdMap.find?_erase,if_pos rfl] at hafter
  cases hafter

/-- The thread writes a record and is done. -/
lemma Turn.close (hkey : job.id = id) (hid : next.id = job.id) (hfollows : Follows job next) :
    Turn cfg s id job progress ((s.setJob next).finish id) := by
  refine Turn.finish (Spares.setJob (hid.trans hkey) s.store) rfl rfl ?_ hfollows
  rw [Coordinator.setJob,OrdMap.find?_insert,if_pos (hid.trans hkey).symm]

/-- The thread goes on. -/
lemma Turn.goOn {after : Progress} (hspares : s.Spares t id)
    (hrevisions : t.latestRevision = s.latestRevision)
    (hbackend : t.backend = s.backend ∨ Applies job s.backend progress t.backend)
    (hnext : t.jobs.find? id = some next) (hfollows : Follows job next)
    (hderived : terminal next.status = true ∨ after.Derived cfg next) :
    Turn cfg s id job progress (t.setProgress id after) := by
  refine ⟨hspares.setProgress after,hrevisions,hbackend,next,hnext,hfollows,?_⟩
  intro other hother
  rw [Coordinator.setProgress,OrdMap.find?_insert,if_pos rfl] at hother
  cases hother
  exact hderived

/-- A transition writes a record that follows the one before. -/
lemma transition_follows (cfg : CoordinatorConfig) (hkey : job.id = id)
    (hjob : s.jobs.find? id = some job) (change : Change) (now : ℤ) (saved : WriteOutcome) :
    let called := s.transition cfg id change now saved
    s.Spares called.2 id ∧ called.2.latestRevision = s.latestRevision ∧
      called.2.backend = s.backend ∧ ∃ next, called.2.jobs.find? id = some next ∧
        Follows job next := by
  have htransitioned := transition_transitioned cfg s id change now saved
  revert htransitioned
  generalize s.transition cfg id change now saved = called
  intro htransitioned
  cases htransitioned with
  | unknown hnone e => rw [hjob] at hnone; cases hnone
  | closed found hfound hclosed => exact ⟨Spares.refl s id,rfl,rfl,job,hjob,Follows.refl job⟩
  | lost found hfound hopen hsaved e extra hextra bytes =>
    exact ⟨⟨fun _ _ => rfl,fun _ _ => rfl,rfl⟩,rfl,rfl,job,hjob,Follows.refl job⟩
  | written found hfound hopen bytes =>
    cases hjob.symm.trans hfound
    have hid : (s.nextRecord change job now).id = id := by rw [nextRecord_id,hkey]
    have hspares : s.Spares ({ s with store := ⟨s.store.frames ++ [s.nextRecord change job now],
        bytes⟩ }.setJob (s.nextRecord change job now)) id := Spares.setJob hid _
    refine ⟨hspares,rfl,rfl,s.nextRecord change job now,?_,nextRecord_same s change job now,?_⟩
    · rw [← hid,OrdMap.find?_insert,if_pos rfl]
    · cases hnext : terminal (s.nextRecord change job now).status with
      | true => exact Or.inl rfl
      | false => exact Or.inr ⟨hopen,nextRecord_input s change job now hnext⟩

/-- A transition, and where its thread goes on. -/
lemma Turn.advance (hkey : job.id = id) (hjob : s.jobs.find? id = some job) (change : Change)
    {after : Option Progress} (around : Surroundings)
    (hderived : ∀ p, after = some p → terminal job.status = true ∨ p.Derived cfg job) :
    Turn cfg s id job progress (s.advance cfg id change after around) := by
  have htransition := transition_follows cfg hkey hjob change around.now around.saved
  unfold Coordinator.advance
  revert htransition
  dsimp only
  obtain ⟨result,t⟩ := s.transition cfg id change around.now around.saved
  rintro ⟨hspares,hrevisions,hbackend,next,hnext,hfollows⟩
  dsimp only at hspares hrevisions hbackend hnext ⊢
  unfold proceed
  cases result with
  | error e =>
    exact Turn.goOn hspares hrevisions (Or.inl hbackend) hnext hfollows (Or.inr trivial)
  | ok current =>
    cases current with
    | false => exact Turn.finish hspares hrevisions hbackend hnext hfollows
    | true =>
      cases after with
      | none => exact Turn.finish hspares hrevisions hbackend hnext hfollows
      | some p =>
        refine Turn.goOn hspares hrevisions (Or.inl hbackend) hnext hfollows ?_
        obtain hclosed | ⟨hopen,hinput⟩ := hfollows.2
        · exact Or.inl hclosed
        · obtain hclosed | hp := hderived p rfl
          · rw [hclosed] at hopen
            cases hopen
          · exact Or.inr (hp.of_input hinput)

/-- One step of a thread. -/
theorem execute_turn (hkey : job.id = id) (hjob : s.jobs.find? id = some job)
    (hderived : terminal job.status = true ∨ progress.Derived cfg job) (around : Surroundings) :
    Turn cfg s id job progress (s.execute cfg id around progress) := by
  have hsame : Follows job job := Follows.refl job
  have hdone : Turn cfg s id job progress (s.finish id) :=
    Turn.finish (Spares.refl s id) rfl rfl hjob hsame
  have hgo : ∀ p : Progress, (terminal job.status = true ∨ p.Derived cfg job) →
      Turn cfg s id job progress (s.setProgress id p) := fun p hp =>
    Turn.goOn (Spares.refl s id) rfl (Or.inl rfl) hjob hsame hp
  have hplain : ∀ e, Turn cfg s id job progress (s.setProgress id (.failing e)) := fun e =>
    hgo _ (Or.inr trivial)
  cases progress with
  | entered =>
    simp only [execute,hjob]
    split_ifs
    · exact hdone
    · exact hgo _ (Or.inr trivial)
    · exact hgo _ (Or.inr trivial)
  | toChunking =>
    change Turn cfg s id job _ (s.advance cfg id { status := .chunking } (some .preparing) around)
    apply Turn.advance hkey hjob
    intro p hp
    cases hp
    exact Or.inr trivial
  | preparing =>
    simp only [execute,hjob]
    cases hprepared : prepareChunks job.input.document job.input.content job.input.metadata
      job.input.title cfg.chunking with
    | error e => exact hplain e
    | ok prepared => exact hgo _ (Or.inr hprepared)
  | toEmbedding prepared =>
    change Turn cfg s id job _ (s.advance cfg id { status := .embedding }
      (some (.embedding prepared)) around)
    apply Turn.advance hkey hjob
    intro p hp
    cases hp
    exact hderived
  | embedding prepared =>
    unfold execute
    cases hembedder : cfg.embedder with
    | none => exact hgo _ (hderived.imp_right fun h => h.unembedded hembedder)
    | some embedder =>
      cases around.fault with
      | some e => exact hplain e
      | none =>
        dsimp only
        cases hembedded : embedDocument cfg.sqrt { embedder with embed := around.embed }
          cfg.embeddingBatchSize prepared with
        | error e => exact hplain e
        | ok embedded =>
          exact hgo _ (hderived.imp_right fun h =>
            h.withEmbeddings hembedder hembedded)
  | toPublishing prepared =>
    change Turn cfg s id job _ (s.advance cfg id
      { status := .publishing, prepared := some prepared }
      (some (.activating prepared)) around)
    apply Turn.advance hkey hjob
    intro p hp
    cases hp
    exact hderived
  | activating prepared =>
    simp only [execute,hjob]
    by_cases hclosed : terminal job.status = true ∨ s.revisionOf job.input.document ≠ job.revision
    · rw [if_pos hclosed]
      exact hdone
    · rw [if_neg hclosed]
      have hopen := Bool.eq_false_of_not_eq_true (not_or.mp hclosed).1
      cases hresult : s.backend.activate prepared job.revision around.built with
      | mk result backend =>
        cases result with
        | error e => exact hplain e
        | ok u =>
          exact Turn.goOn (t := { s with backend := backend }) ⟨fun _ _ => rfl,fun _ _ =>
            rfl,rfl⟩ rfl
            (Or.inr (.activated prepared backend around.built hopen hresult)) hjob hsame
            (Or.inr trivial)
  | activated prepared =>
    change Turn cfg s id job _ (s.advance cfg id
      { status := .ready, prepared := some prepared } none around)
    apply Turn.advance hkey hjob
    intro p hp
    cases hp
  | toErasing =>
    change Turn cfg s id job _ (s.advance cfg id { status := .publishing } (some .erasing) around)
    apply Turn.advance hkey hjob
    intro p hp
    cases hp
    exact Or.inr trivial
  | erasing =>
    simp only [execute,hjob]
    cases hresult : s.backend.erase job.input.document job.revision around.built with
    | mk result backend =>
      cases result with
      | error e => exact hplain e
      | ok applied =>
        exact Turn.goOn (t := { s with backend := backend }) ⟨fun _ _ => rfl,fun _ _ => rfl,rfl⟩ rfl
          (Or.inr (.erased applied backend around.built hresult)) hjob hsame
          (Or.inr trivial)
  | erased applied =>
    change Turn cfg s id job _ (s.advance cfg id
      { status := .ready, mutationApplied := some applied } none around)
    apply Turn.advance hkey hjob
    intro p hp
    cases hp
  | failing e =>
    have hadvance : s.execute cfg id around (.failing e) =
        s.advance cfg id { status := .failed, error := some (boundedError e) } none around := by
      unfold Coordinator.execute Coordinator.advance proceed
      dsimp only
      rcases (s.transition cfg id { status := .failed, error := some (boundedError e) } around.now
        around.saved).1 with _ | _ | _ <;> rfl
    rw [hadvance]
    apply Turn.advance hkey hjob
    intro p hp
    cases hp
  | failingVolatile e =>
    unfold execute failVolatile
    rw [hjob]
    dsimp only
    by_cases hclosed : terminal job.status = true
    · rw [if_pos hclosed]
      exact hdone
    · rw [if_neg hclosed]
      refine Turn.close hkey rfl ⟨⟨rfl,rfl,rfl,rfl,rfl⟩,Or.inl ?_⟩
      by_cases hcurrent : s.revisionOf job.input.document = job.revision
      · simp [hcurrent]
      · simp [hcurrent]

end

end Coordinator

/-- If the document has not gone on yet, there is nothing for the job to erase, or nothing that it
could activate. -/
def Powerless (cfg : CoordinatorConfig) (b : CatalogBackend) (job : IngestionJob) : Prop :=
  b.view.Ahead job.input.document job.revision →
    match job.operation with
    | .erase => b.documents.find? job.input.document = none
    | .upsert => terminal job.status = false →
      ∀ prepared, job.PreparedAs cfg prepared → ¬ValidDocument prepared

section
variable {cfg : CoordinatorConfig} {b c : CatalogBackend} {job next : IngestionJob}
  {progress : Progress}

lemma Powerless.follows (h : Powerless cfg b job) (hfollows : Coordinator.Follows job next) :
    Powerless cfg b next := by
  obtain ⟨hsame,hlater⟩ := hfollows
  unfold Powerless at *
  rw [hsame.document,hsame.revision,hsame.operation]
  intro hahead
  have hjob := h hahead
  cases hop : job.operation with
  | erase =>
    rw [hop] at hjob
    exact hjob
  | upsert =>
    rw [hop] at hjob
    intro hopen prepared hprepared
    obtain hclosed | ⟨hbefore,hinput⟩ := hlater
    · rw [hopen] at hclosed
      cases hclosed
    · apply hjob hbefore prepared
      unfold IngestionJob.PreparedAs at *
      rwa [hinput] at hprepared

lemma Powerless.older (h : Powerless cfg b job) (holder : b.view.Older c.view)
    (hsame : c.documents = b.documents) : Powerless cfg c job := by
  intro hahead
  have hjob := h (hahead.of_older holder)
  rwa [hsame]

/-- A powerless job leaves the active documents as they are. -/
lemma Powerless.applies (h : Powerless cfg b job) (hb : b.Coherent) (hfits : progress.Fits job)
    (hderived : terminal job.status = true ∨ progress.Derived cfg job)
    (happlies : Coordinator.Applies job b progress c) :
    c.Coherent ∧ c.documents = b.documents ∧ b.view.Older c.view := by
  cases happlies with
  | activated prepared c built hopen hok =>
    obtain ⟨hvalid,hwritten⟩ := hb.activate hok
    refine ⟨hwritten.coherent,?_,hwritten.older⟩
    have hactivated := b.activate_activated prepared job.revision built
    rw [hok] at hactivated
    cases hactivated with
    | already hvalid halready => rfl
    | published hvalid hrevision hfresh =>
      have hahead := CatalogBackend.ahead_iff.mpr hfresh
      rw [hfits.key] at hahead
      have hjob := h hahead
      rw [hfits.operation] at hjob
      obtain hclosed | hprepared := hderived
      · rw [hopen] at hclosed
        cases hclosed
      · exact absurd hvalid (hjob hopen prepared hprepared)
  | erased applied c built hok =>
    have hwritten := hb.erase hok
    refine ⟨hwritten.coherent,?_,hwritten.older⟩
    have herased := b.erase_erased job.input.document job.revision built
    rw [hok] at herased
    cases herased with
    | already hlatest hgone => rfl
    | published hdocument hrevision hfresh =>
      have hjob := h (CatalogBackend.ahead_iff.mpr hfresh)
      rw [show job.operation = .erase from hfits] at hjob
      exact OrdMap.erase_of_find?_eq_none hjob

end

namespace Coordinator

/-- The job is open, or a thread has it or is going to. -/
def Live (s : Coordinator) (id : JobId) (job : IngestionJob) : Prop :=
  terminal job.status = false ∨ (∃ progress, s.executing.find? id = some progress) ∨ id ∈ s.queue

/-- The documents are active, and no job can change that. -/
structure Still (cfg : CoordinatorConfig) (documents : Catalog) (s : Coordinator) : Prop where
  wf : s.Wf
  coherent : s.backend.Coherent
  documents : s.backend.documents = documents
  powerless : ∀ id job, s.jobs.find? id = some job → s.Live id job → Powerless cfg s.backend job
  derived : ∀ id progress job, s.executing.find? id = some progress →
    s.jobs.find? id = some job → terminal job.status = true ∨ progress.Derived cfg job

/-- Anything but a new submission. -/
def Action.Quiet : Action → Prop
  | .submit _ _ _ | .erase _ _ => False
  | _ => True

section
variable {cfg : CoordinatorConfig} {documents : Catalog} {s t : Coordinator} {id : JobId}
  {progress : Progress} {a : Action}

lemma Still.execute (h : s.Still cfg documents) (hid : s.executing.find? id = some progress)
    (around : Surroundings) (hwf : (s.execute cfg id around progress).Wf) :
    (s.execute cfg id around progress).Still cfg documents := by
  obtain ⟨job,hjob,hfits⟩ := h.wf.executing id progress hid
  have hderived := h.derived id progress job hid hjob
  obtain ⟨hspares,-,hbackend,next,hnext,hfollows,hafter⟩ :=
    execute_turn (h.wf.keyed id job hjob) hjob hderived around
  have hpowerless := h.powerless id job hjob (Or.inr (Or.inl ⟨progress,hid⟩))
  have hchanged : (s.execute cfg id around progress).backend.Coherent ∧
      (s.execute cfg id around progress).backend.documents = s.backend.documents ∧
      s.backend.view.Older (s.execute cfg id around progress).backend.view := by
    obtain hsame | happlies := hbackend
    · rw [hsame]
      exact ⟨h.coherent,rfl,Versioned.Older.refl _⟩
    · exact hpowerless.applies h.coherent hfits hderived happlies
  obtain ⟨hcoherent,hdocuments,holder⟩ := hchanged
  refine ⟨hwf,hcoherent,hdocuments.trans h.documents,?_,?_⟩
  · intro other x hx hlive
    by_cases hne : other = id
    · subst hne
      cases hnext.symm.trans hx
      exact (hpowerless.follows hfollows).older holder hdocuments
    · rw [hspares.jobs other hne] at hx
      apply (h.powerless other x hx _).older holder hdocuments
      unfold Live at hlive ⊢
      rwa [hspares.executing other hne,hspares.queue] at hlive
  · intro other p x hp hx
    by_cases hne : other = id
    · subst hne
      cases hnext.symm.trans hx
      exact hafter p hp
    · rw [hspares.jobs other hne] at hx
      rw [hspares.executing other hne] at hp
      exact h.derived other p x hp hx

lemma Still.take (h : s.Still cfg documents) {queue : List JobId} (hqueue : s.queue = id::queue)
    (hwf : ({ s with queue := queue }.setProgress id .entered).Wf) :
    ({ s with queue := queue }.setProgress id .entered).Still cfg documents := by
  refine ⟨hwf,h.coherent,h.documents,?_,?_⟩
  · intro other x hx hlive
    apply h.powerless other x hx
    unfold Live at hlive ⊢
    simp only [setProgress,OrdMap.find?_insert] at hlive
    rw [hqueue]
    by_cases hne : other = id
    · exact Or.inr (Or.inr (by simp [hne]))
    · rw [if_neg hne] at hlive
      exact hlive.imp_right (Or.imp_right (List.mem_cons_of_mem id))
  · intro other p x hp hx
    simp only [setProgress,OrdMap.find?_insert] at hp
    split_ifs at hp with hne
    · cases hp
      exact Or.inr trivial
    · exact h.derived other p x hp hx

/-- Without new submissions everything stands still. -/
theorem Still.step (h : s.Still cfg documents) (hquiet : a.Quiet) (hstep : s.step cfg a = some t) :
    t.Still cfg documents := by
  have hwf := step_wf h.wf hstep
  cases a with
  | submit input asynchronous clerk => cases hquiet
  | erase document clerk => cases hquiet
  | take =>
    simp only [Coordinator.step] at hstep
    cases hqueue : s.queue with
    | nil =>
      rw [hqueue] at hstep
      cases hstep
    | cons id queue =>
      rw [hqueue] at hstep
      dsimp only at hstep
      split_ifs at hstep
      cases hstep
      exact h.take hqueue hwf
  | execute id around =>
    simp only [Coordinator.step] at hstep
    obtain ⟨progress,hprogress,rfl⟩ := Option.map_eq_some_iff.mp hstep
    exact h.execute hprogress around hwf
  | compact =>
    cases hstep
    exact ⟨hwf,h.coherent.compact,h.documents,fun id job hjob hlive =>
      (h.powerless id job hjob hlive).older (Versioned.Older.refl _) rfl,h.derived⟩
  | shutdown =>
    cases hstep
    exact ⟨hwf,h.coherent,h.documents,h.powerless,h.derived⟩

lemma Still.withStore (h : s.Still cfg documents) {store : JobStore}
    (hframes : ∀ x ∈ store.frames, x.Sound) : { s with store := store }.Still cfg documents :=
  ⟨h.wf.withStore hframes,h.coherent,h.documents,h.powerless,h.derived⟩

end

end Coordinator

namespace Process
variable {cfg : EmbeddedRuntimeConfig} {documents : Catalog}

/-- A running process goes on by itself. -/
def Action.Quiet : Action → Prop
  | .coordinate a => a.Quiet
  | .checkpoint _ _ => True
  | _ => False

lemma still_step {r : EmbeddedRuntime} {a : Action} {p : Process}
    (h : r.coordinator.Still cfg.coordinator documents) (hquiet : a.Quiet)
    (hstep : step cfg (.running r) a = some p) :
    ∃ r', p = .running r' ∧ r'.coordinator.Still cfg.coordinator documents := by
  cases a with
  | coordinate a =>
    obtain ⟨s,hs,rfl⟩ := Option.map_eq_some_iff.mp hstep
    exact ⟨_,rfl,h.step hquiet hs⟩
  | checkpoint thread io =>
    cases hstep
    refine ⟨_,rfl,?_⟩
    obtain hsame | ⟨position,store,htruncate,hsame⟩ :=
      Chronicle.checkpointEmbedded_cases cfg r thread io
    · rw [hsame]
      exact h
    · rw [hsame]
      exact h.withStore fun x hx => h.wf.frames x (JobStore.truncatePrefix_subset htruncate hx)
  | stop => cases hquiet
  | reopen around => cases hquiet

/-- A run without new submissions. -/
theorem still_run {r : EmbeddedRuntime} {actions : List Action} {p : Process}
    (h : r.coordinator.Still cfg.coordinator documents) (hquiet : ∀ a ∈ actions, a.Quiet)
    (hrun : Machine.run (step cfg) (.running r) actions = some p) :
    ∃ r', p = .running r' ∧ r'.coordinator.Still cfg.coordinator documents := by
  induction actions generalizing r with
  | nil =>
    cases hrun
    exact ⟨r,rfl,h⟩
  | cons a actions ih =>
    obtain ⟨q,hq,hrun⟩ := Machine.run_cons_eq_some.mp hrun
    obtain ⟨r',rfl,hr'⟩ := still_step h (hquiet a (by simp)) hq
    exact ih hr' (fun b hb => hquiet b (by simp [hb])) hrun

end Process
end RagRuntime.Ingestion
