import RagRuntime.Ingestion.Catalogs
import RagRuntime.Ingestion.Undisturbed
import RagRuntime.Migration.Resumption

/-! A migrated store next to the job log of the runtime that wrote the path before: opening it takes
the jobs of the log up again. -/
namespace RagRuntime.Migration
open RagRuntime.Base RagRuntime.Core RagRuntime.Backend RagRuntime.Ingestion

/-- The checkpoint file holds a snapshot of documents that are filed under their keys. -/
def DestinationFiles.Snapped (files : DestinationFiles) : Prop :=
  ∃ b : CatalogBackend, Filed b.documents ∧ SnapshotOf files.checkpoint b

section
variable {d d' : EmbeddedEndpoint} {result : Option (Result Unit)}

lemma takeIn_filed {batch : List RevisionedDocument} {active : Catalog} (h : Filed active) :
    Filed (EmbeddedEndpoint.takeIn batch active).2 := by
  induction batch generalizing active with
  | nil => exact h
  | cons record rest ih =>
    unfold EmbeddedEndpoint.takeIn
    cases active.find? (recordKey record) with
    | none => exact ih (h.emplace record)
    | some found =>
      dsimp only
      split_ifs
      · exact h
      · exact ih h

/-- The endpoint in memory and the file beside it. -/
def Kept (d : EmbeddedEndpoint) : Prop := d.files.Snapped ∧ Filed d.active

lemma Kept.saveProgress {progress : MigrationProgress} (h : Kept d)
    (hsave : d.saveProgress progress = (result,d')) : Kept d' := by
  obtain ⟨hactive,hcheckpoint⟩ := saveProgress_spec hsave
  unfold Kept DestinationFiles.Snapped
  rw [hactive,hcheckpoint]
  exact h

lemma Kept.saveCheckpoint {generation : ℕ} (h : Kept d)
    (hsave : d.saveCheckpoint (EmbeddedEndpoint.checkpointOf d.active generation) = (result,d')) :
    Kept d' := by
  unfold EmbeddedEndpoint.saveCheckpoint at hsave
  cases hvalid : EmbeddedCheckpointStore.validateForSave
    (EmbeddedEndpoint.checkpointOf d.active generation) with
  | error e =>
    rw [hvalid] at hsave
    cases hsave
    exact h
  | ok u =>
    rw [hvalid] at hsave
    obtain ⟨hactive,⟨-,hfiles⟩ | ⟨-,hfiles⟩⟩ := EmbeddedEndpoint.write_cases hsave
    · refine ⟨⟨⟨d.active,(EmbeddedEndpoint.checkpointOf d.active generation).revisions,generation⟩,
        h.2,Or.inr ⟨0,?_⟩⟩,hactive ▸ h.2⟩
      rw [hfiles]
      rfl
    · exact ⟨hfiles ▸ h.1,hactive ▸ h.2⟩

lemma keeps_kept : EmbeddedEndpoint.destination.Keeps Kept := by
  constructor
  · intro run audit batch progress d result d' h hwrite
    change EmbeddedEndpoint.writeBatch run audit batch progress d = (result,d') at hwrite
    unfold EmbeddedEndpoint.writeBatch at hwrite
    split_ifs at hwrite
    · cases hwrite
      exact h
    · cases hwrite
      exact h
    · have hfiled : Filed (EmbeddedEndpoint.takeIn batch.documents d.active).2 := takeIn_filed h.2
      revert hfiled hwrite
      obtain ⟨e | u,active⟩ := EmbeddedEndpoint.takeIn batch.documents d.active
      · intro hwrite hfiled
        cases hwrite
        exact ⟨h.1,hfiled⟩
      · intro hwrite hfiled
        dsimp only at hwrite
        cases hsave : { d with active }.saveCheckpoint
          (EmbeddedEndpoint.checkpointOf active progress.documents) with
        | mk outcome saved =>
          have hsaved : Kept saved := Kept.saveCheckpoint (d := { d with active })
            ⟨h.1,hfiled⟩ hsave
          rw [hsave] at hwrite
          rcases outcome with _ | _ | u
          · cases hwrite
            exact hsaved
          · cases hwrite
            exact hsaved
          · exact hsaved.saveProgress hwrite
  · intro run audit progress d result d' h hfinish
    change EmbeddedEndpoint.finish run audit progress d = (result,d') at hfinish
    unfold EmbeddedEndpoint.finish at hfinish
    split_ifs at hfinish
    · cases hfinish
      exact h
    · exact h.saveProgress hfinish

lemma snapped_attempt (bits : ℚ → ℕ) (source : Endpoint) (path : Bytes) (attempt : Attempt)
    {files : DestinationFiles} (h : files.Snapped) :
    (attempt.run bits source path files).2.Snapped := by
  unfold Attempt.run
  cases hopen : openEmbeddedDestination path attempt.directories files attempt.writes with
  | error e => exact h
  | ok d =>
    obtain ⟨rfl,hopened⟩ := openEmbeddedDestination_ok hopen
    dsimp only
    cases hmigrate : migrate bits attempt.turns source EmbeddedEndpoint.destination
      attempt.direction attempt.options d with
    | mk result d' => exact (keeps_kept.migrate ⟨h,hopened.filed⟩ hmigrate).1

/-- Migrations replace snapshots by snapshots. -/
lemma snapped_attemptAll (bits : ℚ → ℕ) (source : Endpoint) (path : Bytes) (attempts : List Attempt)
    {files : DestinationFiles} (h : files.Snapped) :
    (attemptAll bits source path attempts files).Snapped := by
  induction attempts generalizing files with
  | nil => exact h
  | cons attempt rest ih => exact ih (snapped_attempt bits source path attempt h)

end

/-- What the checkpoint file holds, as a catalog. -/
def DestinationFiles.catalog (files : DestinationFiles) : CatalogBackend :=
  match files.checkpoint with
  | none => CatalogBackend.empty
  | some checkpoint => ⟨files.documents,checkpoint.revisions,checkpoint.generation⟩

/-- `EmbeddedRuntime::open` loads the checkpoint, and recovers on it and on the log beside it. -/
def openLeft (cfg : EmbeddedRuntimeConfig) (files : DestinationFiles) (frames : List IngestionJob)
    (around : Opening) : Process :=
  match files.checkpoint.map EmbeddedCheckpointStore.readBack with
  | none => Process.reopen cfg ⟨none,frames⟩ around
  | some (.error _) => .stopped ⟨files.checkpoint,frames⟩
  | some (.ok checkpoint) => Process.reopen cfg ⟨some checkpoint,frames⟩ around

/-- Until something is submitted, exactly these documents are active. -/
def OpensAs (cfg : EmbeddedRuntimeConfig) (files : DestinationFiles) (frames : List IngestionJob)
    (records : List RevisionedDocument) : Prop :=
  ∀ around : Opening, around.Favourable frames →
    ∃ r, openLeft cfg files frames around = .running r ∧
    ∀ actions : List Process.Action, (∀ a ∈ actions, a.Quiet) → ∀ p,
      Machine.run (Process.step cfg) (.running r) actions = some p →
        ∃ r', p = .running r' ∧ r'.coordinator.backend.documents = activeOf records

section
variable {cfg : EmbeddedRuntimeConfig} {files : DestinationFiles} {frames : List IngestionJob}
  {around : Opening} {records : List RevisionedDocument}

lemma openLeft_running {r : EmbeddedRuntime} (h : openLeft cfg files frames around = .running r) :
    Process.reopen cfg ⟨files.checkpoint,frames⟩ around = .running r := by
  unfold openLeft at h
  cases hfile : files.checkpoint with
  | none =>
    rw [hfile] at h
    exact h
  | some checkpoint =>
    rw [hfile,Option.map_some] at h
    cases hback : EmbeddedCheckpointStore.readBack checkpoint with
    | error e =>
      rw [hback] at h
      cases h
    | ok loaded =>
      rw [hback] at h
      obtain ⟨-,-,rfl⟩ := EmbeddedCheckpointStore.readBack_eq_ok.mp hback
      exact h

lemma openLeft_of_loads {active : Catalog} (h : loadActive files.checkpoint = .ok active) :
    openLeft cfg files frames around = Process.reopen cfg ⟨files.checkpoint,frames⟩ around := by
  unfold openLeft
  cases hfile : files.checkpoint with
  | none => rfl
  | some checkpoint =>
    rw [hfile,loadActive] at h
    cases hback : EmbeddedCheckpointStore.readBack checkpoint with
    | error e =>
      rw [hback] at h
      cases h
    | ok loaded =>
      obtain ⟨-,-,rfl⟩ := EmbeddedCheckpointStore.readBack_eq_ok.mp hback
      simp [hback]

lemma DestinationFiles.Snapped.catalog (h : files.Snapped) :
    SnapshotOf files.checkpoint files.catalog := by
  unfold DestinationFiles.catalog DestinationFiles.documents
  obtain ⟨b,hfiled,⟨hnone,-⟩ | ⟨position,hsome⟩⟩ := h
  · rw [hnone]
    exact Or.inl ⟨rfl,rfl⟩
  · rw [hsome]
    refine Or.inr ⟨position,?_⟩
    change some (b.snapshot position) = some (CatalogBackend.snapshot
      ⟨Migration.activeOf b.documents.values,b.latestRevisions,b.number⟩ position)
    rw [hfiled.activeOf]

@[simp] lemma documents_catalog (files : DestinationFiles) :
    files.catalog.documents = files.documents := by
  unfold DestinationFiles.catalog
  cases hfile : files.checkpoint with
  | none => simp [DestinationFiles.documents,hfile,CatalogBackend.empty,activeOf]
  | some checkpoint => rfl

/-- A checkpoint that loads and holds valid documents is a coherent catalog. -/
lemma coherent_catalog (hloads : loadActive files.checkpoint = .ok files.documents)
    (hvalid : ∀ record ∈ files.documents.values, ValidDocument record.prepared) :
    files.catalog.Coherent := by
  have hfiled : Filed files.documents := filed_activeOf _
  cases hfile : files.checkpoint with
  | none =>
    unfold DestinationFiles.catalog
    rw [hfile]
    exact CatalogBackend.coherent_empty
  | some checkpoint =>
    have hcatalog : files.catalog =
        ⟨files.documents,checkpoint.revisions,checkpoint.generation⟩ := by
      simp only [DestinationFiles.catalog,hfile]
    rw [hfile,loadActive] at hloads
    cases hback : EmbeddedCheckpointStore.readBack checkpoint with
    | error e =>
      rw [hback] at hloads
      cases hloads
    | ok loaded =>
      obtain ⟨-,hrevisions,-⟩ := EmbeddedCheckpointStore.readBack_eq_ok.mp hback
      obtain ⟨-,hrows,hlisted⟩ := EmbeddedCheckpointStore.loadRevisions_eq_ok.mp hrevisions
      rw [hcatalog]
      constructor
      · intro key active hactive
        have hkey := hfiled.find? hactive
        have hmem : active ∈ files.documents.values := OrdMap.mem_values.mpr ⟨key,hactive⟩
        refine ⟨hkey,hvalid active hmem,?_⟩
        have hdocuments : files.documents = activeOf checkpoint.documents := by
          simp only [DestinationFiles.documents,hfile,Option.elim_some]
        rw [← hkey]
        exact hlisted active (values_activeOf_subset _ (hdocuments ▸ hmem))
      · exact fun key revision hrevision => hrows _ (OrdMap.find?_eq_some.mp hrevision)

lemma ordered_of_valid (h : ∀ record ∈ records, ValidDocument record.prepared) :
    Ordered records := by
  intro c hc
  obtain ⟨record,hrecord,hmem⟩ := List.mem_flatMap.mp hc
  obtain ⟨i,hi⟩ := List.mem_iff_getElem?.mp hmem
  exact ((h record hrecord).chunks i c hi).lines

/-- An opening that succeeds has found every document valid. -/
lemma valid_of_openBackend {b : CatalogBackend}
    (hopen : Process.openBackend files.checkpoint (.ok ()) = .ok b) :
    ∀ record ∈ files.documents.values, ValidDocument record.prepared := by
  intro record hmem
  unfold DestinationFiles.documents at hmem
  cases hfile : files.checkpoint with
  | none =>
    rw [hfile] at hmem
    cases hmem
  | some checkpoint =>
    rw [hfile] at hmem hopen
    simp only [Process.openBackend,CatalogBackend.restore] at hopen
    split_ifs at hopen
    · cases hopen
    · cases hrestored : EmbeddedBackend.restoreDocuments checkpoint.revisions checkpoint.documents
        ∅ with
      | error e =>
        rw [hrestored] at hopen
        cases hopen
      | ok out =>
        obtain ⟨hout,hfind⟩ := EmbeddedBackend.restoreDocuments_ok
          (fun k a ha => by cases ha) hrestored
        have hfound := (hfind record.prepared.key record).mpr
          (Or.inr ⟨values_activeOf_subset _ hmem,rfl⟩)
        exact (hout _ _ hfound).2.1

end

/-- The path that the two letters are copied to. -/
def twoLettersPath : Bytes := ascii ['d']

def twoLettersRecords : List RevisionedDocument :=
    [letterRecord (ascii ['a']),letterRecord (ascii ['b'])]

lemma twoLetters_returns : Returns twoLetters twoLettersRecords := by
  have hvalues : twoLettersRecords =
      (activeOf [letterRecord (ascii ['a']),letterRecord (ascii ['b'])]).values := by decide +kernel
  rw [hvalues]
  exact (filed_activeOf _).returns _ _ _

/-- A document that is not migrated was erased at the path before. -/
def erasedBefore : List Process.Action :=
  [Process.Action.reopen (Chronicle.smooth []),
    .coordinate (.erase (ascii ['z']) (Coordinator.clerk '1'))] ++
    (Coordinator.executed '1' 4).map Process.Action.coordinate ++ [Process.Action.stop]

def erasedAll (frames : List IngestionJob) : Bool :=
  (latestJobs frames).values.all fun job =>
    decide (job.input.document = ascii ['z']) && job.effect.isNone && terminal job.status

/-- The path has been written before: one of the two documents was ingested with other content, and
the runtime was stopped before a checkpoint. -/
def leftBehind : List Process.Action :=
  [Process.Action.reopen (Chronicle.smooth []),
    .coordinate (.submit (Coordinator.letter 'a' 'y') false (Coordinator.clerk '1'))] ++
    (Coordinator.executed '1' 8).map Process.Action.coordinate ++ [Process.Action.stop]

end RagRuntime.Migration
