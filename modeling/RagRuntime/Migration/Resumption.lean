import RagRuntime.Migration.Copying

/-! Migrations into an embedded destination, interrupted anywhere and started again. -/
namespace RagRuntime.Migration
open RagRuntime.Base RagRuntime.Core RagRuntime.Backend RagRuntime.Dense

variable {records : List RevisionedDocument} {source : Endpoint} {limit dimension : ℕ}
  {d d' : EmbeddedEndpoint} {run : Bytes} {sourceAudit : CorpusAudit}

/-- One batch. -/
lemma writeBatch_spec {progress next : MigrationProgress} {batch : DocumentBatch}
    {result : Option (Result Unit)} (h : Copied records d progress)
    (hreturns : Returns source records) (hrecords : Ascending recordKey [] records)
    (hsound : ∀ record ∈ records, SoundRecord dimension record) (hlimit : limit ≠ 0)
    (hread : source.readBatch progress.lastDocument limit = .ok batch)
    (hcursor : next.lastDocument = batch.nextCursor) (hcomplete : next.complete = batch.complete)
    (hwrite : EmbeddedEndpoint.writeBatch run sourceAudit batch next d = (result,d')) :
    Grown records d.files d'.files ∧ (result = some (.ok ()) → Copied records d' next) := by
  unfold EmbeddedEndpoint.writeBatch at hwrite
  split_ifs at hwrite
  · cases hwrite
    exact ⟨h.holds.grown_congr rfl,by simp [fail]⟩
  · cases hwrite
    exact ⟨h.holds.grown_congr rfl,by simp [fail]⟩
  · obtain ⟨rest,hb⟩ := h.compared.between
    obtain ⟨hdocuments,hend,hnext⟩ := hreturns.between hrecords hb hlimit hread
    have hbegins : d.active.values ++ rest.take limit <+: records := by
      rw [hnext.split]
      exact List.prefix_append _ _
    obtain ⟨active,htaken,hfiled,hactive⟩ := takeIn_behind h.filed
      (hrecords.sorted.sublist hbegins.sublist)
    rw [hdocuments,htaken] at hwrite
    dsimp only at hwrite
    cases hsave : { d with active }.saveCheckpoint
      (EmbeddedEndpoint.checkpointOf active next.documents) with
    | mk outcome saved =>
      rw [hsave] at hwrite
      obtain ⟨hkept,hgrown,hdone⟩ := saveCheckpoint_spec (d := { d with active }) h.holds hfiled
        (hactive ▸ hbegins) (by
          rw [hactive]
          change d.files.documents.values <+: _
          rw [h.saved]
          exact List.prefix_append _ _) hsound hsave
      cases outcome with
      | none =>
        cases hwrite
        exact ⟨hgrown,by simp⟩
      | some outcome =>
        cases outcome with
        | error e =>
          cases hwrite
          exact ⟨hgrown,by simp⟩
        | ok u =>
          obtain ⟨hactive',hcheckpoint⟩ := saveProgress_spec hwrite
          refine ⟨hgrown.trans (hgrown.holds.grown_congr hcheckpoint),fun _ => ?_⟩
          have hvalues : d'.active.values = d.active.values ++ rest.take limit := by
            rw [hactive',hkept,hactive]
          refine ⟨by rw [hactive',hkept]; exact hfiled,⟨⟨rest.drop limit,?_⟩,?_⟩,?_,?_⟩
          · rw [hvalues,hcursor]
            exact hnext
          · intro hcompleted
            rw [hcomplete,hend] at hcompleted
            rw [hvalues,List.take_of_length_le hcompleted,← hb.split]
          · rw [documents_congr hcheckpoint,hdone rfl,hactive',hkept]
          · exact hgrown.holds.congr hcheckpoint

/-- The copying: what is on disk grows towards the source, and is all of it at the end. -/
lemma copyBatches_spec {turns batches : ℕ} {progress : MigrationProgress}
    {result : Option (Result (MigrationProgress × ℕ))} (h : Copied records d progress)
    (hreturns : Returns source records) (hrecords : Ascending recordKey [] records)
    (hsound : ∀ record ∈ records, SoundRecord dimension record) (hlimit : limit ≠ 0)
    (hcopy : copyBatches source EmbeddedEndpoint.destination run sourceAudit limit turns progress
      batches d = (result,d')) :
    Grown records d.files d'.files ∧
      ∀ p n, result = some (.ok (p,n)) → d'.files.documents.values = records := by
  induction turns generalizing progress batches d with
  | zero =>
    cases hcopy
    exact ⟨h.holds.grown_congr rfl,by simp⟩
  | succ turns ih =>
    unfold copyBatches at hcopy
    split_ifs at hcopy with hdone
    · cases hcopy
      refine ⟨h.holds.grown_congr rfl,fun _ _ _ => ?_⟩
      rw [h.saved,h.compared.complete hdone]
    · cases hread : source.readBatch progress.lastDocument limit with
      | error e =>
        rw [hread] at hcopy
        cases hcopy
        exact ⟨h.holds.grown_congr rfl,by simp⟩
      | ok batch =>
        rw [hread] at hcopy
        dsimp only at hcopy
        cases hwrite : EmbeddedEndpoint.destination.writeBatch run sourceAudit batch
          { progress.count batch.documents with
            lastDocument := batch.nextCursor
            complete := batch.complete } d with
        | mk outcome next =>
          obtain ⟨hgrown,hcopied⟩ := writeBatch_spec h hreturns hrecords hsound hlimit hread rfl rfl
            hwrite
          rw [hwrite] at hcopy
          cases outcome with
          | none =>
            cases hcopy
            exact ⟨hgrown,by simp⟩
          | some outcome =>
            cases outcome with
            | error e =>
              cases hcopy
              exact ⟨hgrown,by simp⟩
            | ok u =>
              obtain ⟨hmore,hall⟩ := ih (hcopied rfl) hcopy
              exact ⟨hgrown.trans hmore,hall⟩

/-- What loading a checkpoint gives. -/
lemma loadActive_ok {checkpoint : Option EmbeddedCheckpoint} {active : Catalog}
    (h : loadActive checkpoint = .ok active) :
    active = activeOf (checkpoint.elim [] EmbeddedCheckpoint.documents) ∧
      ∀ record ∈ active.values, recordKey record ≠ [] := by
  cases checkpoint with
  | none =>
    cases h
    exact ⟨rfl,by simp [OrdMap.values]⟩
  | some checkpoint =>
    cases hback : EmbeddedCheckpointStore.readBack checkpoint with
    | error e =>
      rw [loadActive,hback] at h
      cases h
    | ok loaded =>
      rw [loadActive,hback] at h
      cases h
      obtain ⟨-,hrevisions,rfl⟩ := EmbeddedCheckpointStore.readBack_eq_ok.mp hback
      obtain ⟨-,hrows,hcatalog⟩ := EmbeddedCheckpointStore.loadRevisions_eq_ok.mp hrevisions
      refine ⟨rfl,fun record hmem => ?_⟩
      have hfound := hcatalog record (values_activeOf_subset _ hmem)
      exact (hrows _ (OrdMap.find?_eq_some.mp hfound)).1

/-- An endpoint as it is opened. -/
structure Opened (d : EmbeddedEndpoint) : Prop where
  loads : loadActive d.files.checkpoint = .ok d.active
  saved : d.files.documents = d.active
  filed : Filed d.active
  named : ∀ record ∈ d.active.values, recordKey record ≠ []

lemma openEmbeddedDestination_ok {path : Bytes} {directories : Result Unit}
    {files : DestinationFiles} {writes : List (Result Unit)}
    (h : openEmbeddedDestination path directories files writes = .ok d) :
    d.files = files ∧ Opened d := by
  unfold openEmbeddedDestination at h
  split_ifs at h
  · cases h
  · cases directories with
    | error e => cases h
    | ok u =>
      cases hload : loadActive files.checkpoint with
      | error e =>
        rw [hload] at h
        cases h
      | ok active =>
        rw [hload] at h
        cases h
        obtain ⟨rfl,hnamed⟩ := loadActive_ok hload
        exact ⟨rfl,hload,rfl,filed_activeOf _,hnamed⟩

lemma Opened.ascending (h : Opened d) : Ascending recordKey [] d.active.values :=
  ⟨h.filed.sorted,h.named⟩

variable {bits : ℚ → ℕ} {turns : ℕ} {direction : Bytes} {options : MigrationOptions}

/-- Before anything is written the destination has turned out to be a beginning of the source. -/
lemma beginMigration_ok {begun : Reconciled} (h : Opened d) (hreturns : Returns source records)
    (hbegin : beginMigration bits turns source EmbeddedEndpoint.destination d direction options =
      some (.ok begun)) :
    options.batchSize ≠ 0 ∧ Ascending recordKey [] records ∧
      (∃ dimension, ∀ record ∈ records, SoundRecord dimension record) ∧
      Compared records d.active.values begun.progress := by
  unfold beginMigration at hbegin
  obtain ⟨audit,haudit,hbegin⟩ := proceed_eq_ok.mp hbegin
  obtain ⟨prior,-,hbegin⟩ := proceed_eq_ok.mp hbegin
  obtain ⟨progress,hreconcile,hbegin⟩ := proceed_eq_ok.mp hbegin
  obtain ⟨hlimit,hrecords,hsound⟩ := audit_ok hreturns haudit
  have hcompared := reconcileBatches_ok hreturns (h.filed.returns d.path d.files d.writes) hrecords
    h.ascending hlimit (.start _ _ _) (.start _ _ _) hreconcile
  split_ifs at hbegin
  · cases hbegin
  all_goals
    obtain ⟨samples,-,hbegin⟩ := proceed_eq_ok.mp hbegin
    cases hbegin
    exact ⟨hlimit,hrecords,⟨_,hsound⟩,hcompared⟩

lemma proceed_ends {α β : Type} {result : Option (Result α)} {next : α → Option (Result β)}
    (h : result ≠ none) (hnext : ∀ a, result = some (.ok a) → next a ≠ none) :
    proceed result next ≠ none := by
  rcases result with _ | _ | a
  · exact absurd rfl h
  · simp [proceed]
  · exact hnext a rfl

/-- A destination that is no beginning of the source is refused. -/
lemma beginMigration_refused (bits : ℚ → ℕ) (direction : Bytes) (options : MigrationOptions)
    (h : Opened d) (hreturns : Returns source records)
    (hnot : ¬d.active.values <+: records) (hturns : records.length < turns)
    (hturns' : d.active.size < turns) :
    ∃ e, beginMigration bits turns source EmbeddedEndpoint.destination d direction options =
      some (.error e) := by
  have hends : beginMigration bits turns source EmbeddedEndpoint.destination d direction options ≠
      none := by
    unfold beginMigration
    apply proceed_ends (audit_ends hreturns hturns)
    intro audit haudit
    apply proceed_ends (by simp)
    intro prior _
    obtain ⟨hlimit,hrecords,-⟩ := audit_ok hreturns haudit
    apply proceed_ends (reconcileBatches_ends source (h.filed.returns d.path d.files d.writes)
      h.ascending hlimit (.start _ _ _) (by simpa [OrdMap.values,OrdMap.size] using hturns'))
    intro progress hreconcile
    obtain ⟨rest,hb⟩ := (reconcileBatches_ok hreturns (h.filed.returns d.path d.files d.writes)
      hrecords h.ascending hlimit (.start _ _ _) (.start _ _ _) hreconcile).between
    exact absurd ⟨rest,hb.split.symm⟩ hnot
  cases hbegin : beginMigration bits turns source EmbeddedEndpoint.destination d direction
    options with
  | none => exact absurd hbegin hends
  | some result =>
    cases result with
    | error e => exact ⟨e,rfl⟩
    | ok begun =>
      obtain ⟨rest,hb⟩ := (beginMigration_ok h hreturns hbegin).2.2.2.between
      exact absurd ⟨rest,hb.split.symm⟩ hnot

/-- What an attempt does to the files, by whether they hold a beginning of the source. -/
lemma migrate_spec {result : Option (Result MigrationReport)} (h : Opened d)
    (hreturns : Returns source records)
    (hmigrate : migrate bits turns source EmbeddedEndpoint.destination direction options d =
      (result,d')) :
    (¬d.active.values <+: records → d' = d ∧ (∀ report, result ≠ some (.ok report)) ∧
      (records.length < turns → d.active.size < turns → ∃ e, result = some (.error e))) ∧
    (d.active.values <+: records → Grown records d.files d'.files ∧
      ∀ report, result = some (.ok report) → d'.files.documents.values = records) := by
  have hholds : d.active.values <+: records → Holds records d.files := fun hbegins =>
    ⟨h.saved ▸ hbegins,fun _ => h.saved ▸ h.loads⟩
  unfold migrate at hmigrate
  split_ifs at hmigrate
  · cases hmigrate
    exact ⟨fun _ => ⟨rfl,by simp [fail],fun _ _ => ⟨_,rfl⟩⟩,
      fun hbegins => ⟨(hholds hbegins).grown_congr rfl,by simp [fail]⟩⟩
  · cases hbegin : beginMigration bits turns source EmbeddedEndpoint.destination d direction
      options with
    | none =>
      rw [hbegin] at hmigrate
      cases hmigrate
      refine ⟨fun hnot => ⟨rfl,by simp,fun hturns hturns' => ?_⟩,
        fun hbegins => ⟨(hholds hbegins).grown_congr rfl,by simp⟩⟩
      obtain ⟨e,he⟩ := beginMigration_refused bits direction options h hreturns hnot hturns hturns'
      rw [hbegin] at he
      cases he
    | some begun =>
      rw [hbegin] at hmigrate
      cases begun with
      | error e =>
        cases hmigrate
        exact ⟨fun _ => ⟨rfl,by simp,fun _ _ => ⟨e,rfl⟩⟩,
          fun hbegins => ⟨(hholds hbegins).grown_congr rfl,by simp⟩⟩
      | ok begun =>
        obtain ⟨hlimit,hrecords,⟨dimension,hsound⟩,hcompared⟩ := beginMigration_ok h hreturns hbegin
        have hbegins : d.active.values <+: records :=
          hcompared.between.elim fun rest hb => ⟨rest,hb.split.symm⟩
        refine ⟨fun hnot => absurd hbegins hnot,fun _ => ?_⟩
        dsimp only at hmigrate
        cases hcopy : copyBatches source EmbeddedEndpoint.destination begun.report.id
          begun.report.sourceAudit options.batchSize turns begun.progress 0 d with
        | mk copied next =>
          obtain ⟨hgrown,hall⟩ := copyBatches_spec
            ⟨h.filed,hcompared,h.saved,hholds hbegins⟩ hreturns
            hrecords hsound hlimit hcopy
          rw [hcopy] at hmigrate
          rcases copied with _ | _ | ⟨progress,batches⟩
          · cases hmigrate
            exact ⟨hgrown,by simp⟩
          · cases hmigrate
            exact ⟨hgrown,by simp⟩
          · dsimp only at hmigrate
            have hfinish : ∀ {outcome last}, EmbeddedEndpoint.destination.finish begun.report.id
                begun.report.sourceAudit progress next = (outcome,last) →
                last.files.checkpoint = next.files.checkpoint := by
              intro outcome last hlast
              change EmbeddedEndpoint.finish begun.report.id begun.report.sourceAudit progress
                next =
                (outcome,last) at hlast
              unfold EmbeddedEndpoint.finish at hlast
              split_ifs at hlast
              · cases hlast
                rfl
              · exact (saveProgress_spec hlast).2
            cases hlast : EmbeddedEndpoint.destination.finish begun.report.id
              begun.report.sourceAudit progress next with
            | mk outcome last =>
              have hcheckpoint := hfinish hlast
              have hdone : last.files.documents.values = records := by
                rw [documents_congr hcheckpoint]
                exact hall _ _ rfl
              have hmore := hgrown.trans (hgrown.holds.grown_congr hcheckpoint)
              rw [hlast] at hmigrate
              rcases outcome with _ | _ | u
              · cases hmigrate
                exact ⟨hmore,fun _ _ => hdone⟩
              · cases hmigrate
                exact ⟨hmore,fun _ _ => hdone⟩
              · cases hmigrate
                exact ⟨hmore,fun _ _ => hdone⟩

/-- An attempt that is made on files of any kind. -/
lemma attempt_spec (bits : ℚ → ℕ) (hreturns : Returns source records) (path : Bytes)
    (attempt : Attempt) (files : DestinationFiles) :
    (¬files.documents.values <+: records →
      (attempt.run bits source path files).2 = files ∧
      (∀ report, (attempt.run bits source path files).1 ≠ some (.ok report)) ∧
      (records.length < attempt.turns → files.documents.size < attempt.turns →
        ∃ e, (attempt.run bits source path files).1 = some (.error e))) ∧
    (files.documents.values <+: records →
      files.documents.values <+: (attempt.run bits source path files).2.documents.values ∧
      (attempt.run bits source path files).2.documents.values <+: records) ∧
    ∀ report, (attempt.run bits source path files).1 = some (.ok report) →
      (attempt.run bits source path files).2.documents.values = records ∧
      (Ordered records → loadActive (attempt.run bits source path files).2.checkpoint =
        .ok (attempt.run bits source path files).2.documents) := by
  unfold Attempt.run
  cases hopen : openEmbeddedDestination path attempt.directories files attempt.writes with
  | error e =>
    exact ⟨fun _ => ⟨rfl,by simp,fun _ _ => ⟨e,rfl⟩⟩,fun h => ⟨List.prefix_rfl,h⟩,by simp⟩
  | ok d =>
    obtain ⟨rfl,hopened⟩ := openEmbeddedDestination_ok hopen
    dsimp only
    cases hmigrate : migrate bits attempt.turns source EmbeddedEndpoint.destination
      attempt.direction attempt.options d with
    | mk result d' =>
      obtain ⟨hrefused,htaken⟩ := migrate_spec hopened hreturns hmigrate
      rw [hopened.saved]
      refine ⟨fun hnot => ?_,fun hbegins => ?_,fun report hreport => ?_⟩
      · obtain ⟨rfl,hfailed,hended⟩ := hrefused hnot
        exact ⟨rfl,hfailed,hended⟩
      · obtain ⟨⟨hkept,hholds⟩,-⟩ := htaken hbegins
        rw [hopened.saved] at hkept
        exact ⟨hkept,hholds.begins⟩
      · have hbegins : d.active.values <+: records := by
          by_contra hnot
          exact (hrefused hnot).2.1 report hreport
        obtain ⟨hgrown,hdone⟩ := htaken hbegins
        exact ⟨hdone report hreport,hgrown.holds.loads⟩

/-- Attempts one after the other, each on the files that the one before it has left. -/
def attemptAll (bits : ℚ → ℕ) (source : Endpoint) (path : Bytes) (attempts : List Attempt)
    (start : DestinationFiles) : DestinationFiles :=
  attempts.foldl (fun files attempt => (attempt.run bits source path files).2) start

lemma attemptAll_begins (bits : ℚ → ℕ) (hreturns : Returns source records) (path : Bytes)
    (attempts : List Attempt) {start : DestinationFiles}
    (h : start.documents.values <+: records) :
    start.documents.values <+: (attemptAll bits source path attempts start).documents.values ∧
      (attemptAll bits source path attempts start).documents.values <+: records := by
  induction attempts generalizing start with
  | nil => exact ⟨List.prefix_rfl,h⟩
  | cons attempt rest ih =>
    obtain ⟨hkept,hbegins⟩ := (attempt_spec bits hreturns path attempt start).2.1 h
    obtain ⟨hkept',hbegins'⟩ := ih hbegins
    exact ⟨hkept.trans hkept',hbegins'⟩

lemma attemptAll_refused (bits : ℚ → ℕ) (hreturns : Returns source records) (path : Bytes)
    (attempts : List Attempt) {start : DestinationFiles}
    (h : ¬start.documents.values <+: records) :
    attemptAll bits source path attempts start = start := by
  induction attempts with
  | nil => rfl
  | cons attempt rest ih =>
    rw [attemptAll,List.foldl_cons,((attempt_spec bits hreturns path attempt start).1 h).1]
    exact ih

/-- However often it is interrupted, a migration that reports completion has copied everything, a
beginning of the source stays one, and anything else is refused and left alone. -/
theorem migration_complete (bits : ℚ → ℕ) {source : Endpoint} {records : List RevisionedDocument}
    (hreturns : Returns source records) (path : Bytes) (start : DestinationFiles)
    (attempts : List Attempt) (last : Attempt) :
    (∀ report, (last.run bits source path (attemptAll bits source path attempts start)).1 =
        some (.ok report) →
      (attemptAll bits source path (attempts ++ [last]) start).documents.values = records ∧
      (Ordered records → loadActive (attemptAll bits source path
        (attempts ++ [last]) start).checkpoint =
        .ok (attemptAll bits source path (attempts ++ [last]) start).documents)) ∧
    (start.documents.values <+: records →
      start.documents.values <+: (attemptAll bits source path attempts start).documents.values ∧
      (attemptAll bits source path attempts start).documents.values <+: records) ∧
    (¬start.documents.values <+: records →
      attemptAll bits source path (attempts ++ [last]) start = start ∧
      (∀ report, (last.run bits source path (attemptAll bits source path attempts start)).1 ≠
        some (.ok report)) ∧
      (records.length < last.turns → start.documents.size < last.turns →
        ∃ e, (last.run bits source path (attemptAll bits source path attempts start)).1 =
          some (.error e))) := by
  have hlast : attemptAll bits source path (attempts ++ [last]) start =
      (last.run bits source path (attemptAll bits source path attempts start)).2 := by
    rw [attemptAll,List.foldl_append]
    rfl
  refine ⟨?_,attemptAll_begins bits hreturns path attempts,fun hnot => ?_⟩
  · rw [hlast]
    exact (attempt_spec bits hreturns path last _).2.2
  · refine ⟨attemptAll_refused bits hreturns path _ hnot,?_⟩
    rw [attemptAll_refused bits hreturns path attempts hnot]
    exact ((attempt_spec bits hreturns path last start).1 hnot).2

/-- A document of one letter. -/
def letterRecord (key : Bytes) : RevisionedDocument where
  revision := 1
  prepared :=
    { key := key
      title := []
      content := ascii ['x']
      metadata := ∅
      contentHash := documentContentHash [] (ascii ['x']) ∅
      chunkingFingerprint := ascii ['f']
      embeddingIdentity := ascii ['e']
      chunks := [⟨stableChunkKey key 1 1 (ascii ['x']),0,ascii ['x'],ascii ['x'],[],1,1,[1]⟩] }

def twoLetters : Endpoint :=
  EmbeddedEndpoint.endpoint ⟨ascii ['s'],activeOf [letterRecord (ascii ['a']),
    letterRecord (ascii ['b'])],⟨none,none⟩,[]⟩

/-- The bits of the number one as a `float`. -/
def bitsOfOne (value : ℚ) : ℕ := if value = 1 then 1065353216 else 0

/-- The process stops when the first checkpoint has been written and its progress has not. -/
def stoppedAttempt : Attempt := ⟨4,.ok (),[.ok ()],ascii ['u','p'],⟨1,2⟩⟩

def wholeAttempt : Attempt := { stoppedAttempt with writes := List.replicate 5 (.ok ()) }

lemma wholeAttempt_completes : ∃ report, (wholeAttempt.run bitsOfOne twoLetters (ascii ['d'])
    (attemptAll bitsOfOne twoLetters (ascii ['d']) [stoppedAttempt] ⟨none,none⟩)).1 =
      some (.ok report) := by
  have h : ((wholeAttempt.run bitsOfOne twoLetters (ascii ['d'])
      (attemptAll bitsOfOne twoLetters (ascii ['d']) [stoppedAttempt] ⟨none,none⟩)).1.elim false
        fun result => result.isOk) = true := by decide +kernel
  rcases hrun : (wholeAttempt.run bitsOfOne twoLetters (ascii ['d'])
      (attemptAll bitsOfOne twoLetters (ascii ['d']) [stoppedAttempt] ⟨none,none⟩)).1 with
    _ | _ | report
  · rw [hrun] at h
    cases h
  · rw [hrun] at h
    cases h
  · exact ⟨report,rfl⟩

theorem twoLetters_migrated :
    (attemptAll bitsOfOne twoLetters (ascii ['d']) [stoppedAttempt,wholeAttempt]
      ⟨none,none⟩).documents.values = [letterRecord (ascii ['a']),letterRecord (ascii ['b'])] := by
  obtain ⟨report,hreport⟩ := wholeAttempt_completes
  have hreturns : Returns twoLetters
      (activeOf [letterRecord (ascii ['a']),letterRecord (ascii ['b'])]).values :=
    (filed_activeOf _).returns _ _ _
  have hdone := ((migration_complete bitsOfOne hreturns (ascii ['d']) ⟨none,none⟩ [stoppedAttempt]
    wholeAttempt).1 report hreport).1
  exact hdone.trans (by decide +kernel)

end RagRuntime.Migration
