import RagRuntime.Migration.Audit

/-! Copying a source into an embedded destination: what is there is always a beginning of the
source, and all of it when the migration reports completion. -/
namespace RagRuntime.Migration
open RagRuntime.Base RagRuntime.Core RagRuntime.Backend RagRuntime.Dense

/-- Every document is filed under its key. -/
def Filed (active : Catalog) : Prop := ∀ e ∈ active.entries, recordKey e.2 = e.1

/-- The active documents of the checkpoint file. -/
def DestinationFiles.documents (files : DestinationFiles) : Catalog :=
  activeOf (files.checkpoint.elim [] EmbeddedCheckpoint.documents)

lemma filed_empty : Filed ∅ := by simp [Filed]

lemma Filed.emplace {active : Catalog} (h : Filed active) (record : ActiveDocument) :
    Filed (active.emplace (recordKey record) record) := by
  unfold OrdMap.emplace
  split_ifs
  · exact h
  · intro e he
    obtain rfl | he := OrdMap.mem_insertEntries he
    · rfl
    · exact h e he

lemma filed_foldl {documents : List ActiveDocument} {active : Catalog} (h : Filed active) :
    Filed (documents.foldl (fun active entry =>
      active.emplace (recordKey entry) entry) active) := by
  induction documents generalizing active with
  | nil => exact h
  | cons record rest ih => exact ih (h.emplace record)

lemma filed_activeOf (documents : List ActiveDocument) : Filed (activeOf documents) :=
  filed_foldl filed_empty

lemma values_emplace_subset {active : Catalog} (record : ActiveDocument) :
    (active.emplace (recordKey record) record).values ⊆ record::active.values := by
  unfold OrdMap.emplace
  split_ifs
  · exact List.subset_cons_of_subset _ (List.Subset.refl _)
  · intro a ha
    obtain ⟨e,he,rfl⟩ := List.mem_map.mp ha
    obtain rfl | he := OrdMap.mem_insertEntries he
    · exact List.mem_cons_self
    · exact List.mem_cons_of_mem _ (List.mem_map_of_mem he)

lemma values_activeOf_subset (documents : List ActiveDocument) :
    (activeOf documents).values ⊆ documents := by
  have hfold : ∀ (documents : List ActiveDocument) (active : Catalog),
      (documents.foldl (fun active entry => active.emplace (recordKey entry) entry) active).values ⊆
        active.values ++ documents := by
    intro documents
    induction documents with
    | nil => simp
    | cons record rest ih =>
      intro active a ha
      obtain ha | ha := List.mem_append.mp (ih _ ha)
      · obtain rfl | ha := List.mem_cons.mp (values_emplace_subset record ha)
        · simp
        · simp [ha]
      · simp [ha]
  exact hfold documents ∅

section
variable {active : Catalog}

lemma Filed.values_keys (h : Filed active) : active.values.map recordKey = active.keys := by
  rw [OrdMap.values,OrdMap.keys,List.map_map]
  exact List.map_congr_left h

lemma Filed.sorted (h : Filed active) :
    active.values.Pairwise fun a b => recordKey a < recordKey b := by
  rw [← List.pairwise_map (f := recordKey),h.values_keys]
  exact active.keys_ascending

lemma Filed.find? (h : Filed active) {record : ActiveDocument} {key : Bytes}
    (hfind : active.find? key = some record) : recordKey record = key :=
  h _ (OrdMap.find?_eq_some.mp hfind)

/-- What is read of the endpoint is a page of its documents. -/
lemma Filed.readBatch (h : Filed active) {limit : ℕ} (hlimit : limit ≠ 0) (after : Bytes) :
    EmbeddedEndpoint.readBatch active after limit =
      .ok (batchOf (page recordKey [] active.values after limit)) := by
  have hbehind : (if after = [] then active.entries
      else active.entries.filter fun e => after < e.1).map Prod.snd =
        behind recordKey [] active.values after := by
    unfold behind
    split_ifs
    · rfl
    · rw [OrdMap.values,List.filter_map]
      congr 1
      apply List.filter_congr
      intro e he
      simp [h e he]
  unfold EmbeddedEndpoint.readBatch
  rw [if_neg hlimit]
  simp only [batchOf,page,← hbehind,List.map_take,List.length_map]

lemma Filed.returns (h : Filed active) (path : Bytes) (files : DestinationFiles)
    (writes : List (Result Unit)) :
    Returns (EmbeddedEndpoint.endpoint ⟨path,active,files,writes⟩) active.values := by
  refine ⟨h.sorted,?_⟩
  intro cursor limit batch hlimit hread
  have := (h.readBatch hlimit cursor).symm.trans hread
  exact (Except.ok.inj this).symm

/-- A catalog is what its documents give, in their order. -/
lemma Filed.activeOf (h : Filed active) : activeOf active.values = active := by
  apply OrdMap.entries_injective
  rw [Migration.activeOf,OrdMap.entries_foldl_emplace recordKey (fun entry => entry) h.sorted
    (by simp),OrdMap.entries_empty,List.nil_append,OrdMap.values,List.map_map]
  conv_rhs => rw [← List.map_id active.entries]
  apply List.map_congr_left
  intro e he
  simp [h e he]

lemma Filed.ext {other : Catalog} (h : Filed active) (h' : Filed other)
    (hvalues : active.values = other.values) : active = other := by
  rw [← h.activeOf,hvalues,h'.activeOf]

end

/-- The documents compared are alike. -/
lemma sameRecords_begins {expected actual : List RevisionedDocument}
    (hlength : actual.length ≤ expected.length)
    (h : ¬(expected.zip actual).any (fun pair => sameRecord pair.1 pair.2 = false) = true) :
    actual <+: expected := by
  induction actual generalizing expected with
  | nil => exact List.nil_prefix
  | cons record rest ih =>
    cases expected with
    | nil => simp at hlength
    | cons first others =>
      simp only [List.zip_cons_cons,List.any_cons,Bool.or_eq_true,not_or] at h
      have hfirst : first = record := by simpa [sameRecord] using h.1
      rw [hfirst]
      exact List.prefix_cons_inj record |>.mpr (ih (by simpa using hlength) h.2)

variable {source destination : Endpoint} {records copied : List RevisionedDocument}
  {limit turns : ℕ}

/-- A batch without documents leaves the cursor where it was. -/
lemma Returns.cursor (h : Returns destination copied) {cursor : Bytes} {batch : DocumentBatch}
    (hlimit : limit ≠ 0) (hread : destination.readBatch cursor limit = .ok batch) :
    (if batch.documents = [] then cursor else batch.nextCursor) = batch.nextCursor := by
  split_ifs with hempty
  · rw [h.batch hlimit hread] at hempty ⊢
    change (behind recordKey [] copied cursor).take limit = [] at hempty
    simp [batchOf,page,hempty]
  · rfl

/-- The reconciliation ends with the destination as a beginning of the source. -/
structure Compared (records copied : List RevisionedDocument) (progress : MigrationProgress) :
    Prop where
  between : ∃ rest, Between recordKey [] records copied rest progress.lastDocument
  complete : progress.complete = true → copied = records

lemma reconcileBatches_ok (hsource : Returns source records)
    (hdestination : Returns destination copied) (hrecords : Ascending recordKey [] records)
    (hcopied : Ascending recordKey [] copied) (hlimit : limit ≠ 0)
    {seen rest left : List RevisionedDocument} {output progress : MigrationProgress}
    (hb : Between recordKey [] records seen rest output.lastDocument)
    (hb' : Between recordKey [] copied seen left output.lastDocument)
    (hok : reconcileBatches source destination limit turns output = some (.ok progress)) :
    Compared records copied progress := by
  induction turns generalizing seen rest left output with
  | zero => cases hok
  | succ turns ih =>
    unfold reconcileBatches at hok
    cases hexpected : source.readBatch output.lastDocument limit with
    | error e =>
      rw [hexpected] at hok
      cases hok
    | ok expected =>
      cases hactual : destination.readBatch output.lastDocument limit with
      | error e =>
        rw [hexpected,hactual] at hok
        cases hok
      | ok actual =>
        obtain ⟨hdocuments,hcomplete,-⟩ := hsource.between hrecords hb hlimit hexpected
        obtain ⟨hdocuments',hcomplete',hnext⟩ := hdestination.between hcopied hb' hlimit hactual
        have hcursor := hdestination.cursor hlimit hactual
        rw [hexpected,hactual] at hok
        dsimp only at hok
        rw [hcursor] at hok
        split_ifs at hok with hlong hdiffer hend hstuck
        · cases hok
        · cases hok
        · cases hok
          have hbegins := sameRecords_begins (not_lt.mp hlong) hdiffer
          rw [hdocuments,hdocuments'] at hbegins
          obtain ⟨more,hmore⟩ := hbegins.trans (List.take_prefix limit rest)
          have hall : seen ++ left.take limit = copied := by
            rw [List.take_of_length_le (hcomplete'.mp hend),← hb'.split]
          refine ⟨⟨more,?_,?_⟩,?_⟩
          · rw [← hall,List.append_assoc,hmore]
            exact hb.split
          · rw [← hall]
            exact hnext.cursor
          · intro hdone
            have hdone := of_decide_eq_true hdone
            have hrest := hcomplete.mp hdone.1
            have hlength := hdone.2
            rw [hdocuments,hdocuments',List.take_of_length_le hrest] at hlength
            have hnone : more = [] := by
              have := congrArg List.length hmore
              rw [List.length_append] at this
              exact List.length_eq_zero_iff.mp (by omega)
            rw [← hall,hb.split,← hmore,hnone,List.append_nil]
        · cases hok
        · have hbegins := sameRecords_begins (not_lt.mp hlong) hdiffer
          rw [hdocuments,hdocuments'] at hbegins
          obtain ⟨more,hmore⟩ := hbegins.trans (List.take_prefix limit rest)
          have hrest : Between recordKey [] records (seen ++ left.take limit) more
              actual.nextCursor := by
            refine ⟨?_,hnext.cursor⟩
            rw [List.append_assoc,hmore]
            exact hb.split
          exact ih hrest hnext hok

lemma reconcileBatches_ends (source : Endpoint) (hdestination : Returns destination copied)
    (hcopied : Ascending recordKey [] copied) (hlimit : limit ≠ 0)
    {seen left : List RevisionedDocument} {output : MigrationProgress}
    (hb : Between recordKey [] copied seen left output.lastDocument)
    (hturns : left.length < turns) :
    reconcileBatches source destination limit turns output ≠ none := by
  induction turns generalizing seen left output with
  | zero => exact absurd hturns (Nat.not_lt_zero _)
  | succ turns ih =>
    unfold reconcileBatches
    cases hexpected : source.readBatch output.lastDocument limit with
    | error e => simp
    | ok expected =>
      cases hactual : destination.readBatch output.lastDocument limit with
      | error e => simp
      | ok actual =>
        obtain ⟨-,hcomplete,hnext⟩ := hdestination.between hcopied hb hlimit hactual
        dsimp only
        rw [hdestination.cursor hlimit hactual]
        split_ifs with hlong hdiffer hend hstuck
        · simp
        · simp
        · simp
        · simp
        · have hmore : limit < left.length := not_le.mp fun hle => hend (hcomplete.mpr hle)
          apply ih hnext
          rw [List.length_drop]
          omega

/-- No chunk ends before it starts. -/
def Ordered (records : List RevisionedDocument) : Prop :=
  ∀ c ∈ EmbeddedCheckpointStore.rows records, c.startLine ≤ c.endLine

/-- The checkpoint file holds a beginning of the source, and loads where lines are in order. -/
structure Holds (records : List RevisionedDocument) (files : DestinationFiles) : Prop where
  begins : files.documents.values <+: records
  loads : Ordered records → loadActive files.checkpoint = .ok files.documents

lemma SoundRecord.ordinals {dimension : ℕ} {record : RevisionedDocument}
    (h : SoundRecord dimension record) : record.prepared.chunks.map PreparedChunk.ordinal =
      List.range record.prepared.chunks.length := by
  apply List.ext_getElem?
  intro i
  rw [List.getElem?_map]
  cases hc : record.prepared.chunks[i]? with
  | none =>
    rw [List.getElem?_eq_none_iff] at hc
    simp [hc]
  | some c =>
    rw [List.getElem?_range (List.getElem?_eq_some_iff.mp hc).1,Option.map_some,
      (h.chunks i c hc).ordinal]

/-- The checkpoint that a batch leaves loads again. -/
lemma readBack_checkpointOf {active : Catalog} {dimension generation : ℕ}
    (hsound : ∀ record ∈ active.values, SoundRecord dimension record)
    (hordered : Ordered active.values)
    (hsavable : EmbeddedCheckpointStore.Savable (EmbeddedEndpoint.checkpointOf active generation)) :
    EmbeddedCheckpointStore.readBack (EmbeddedEndpoint.checkpointOf active generation) =
      .ok (EmbeddedEndpoint.checkpointOf active generation) := by
  rw [EmbeddedCheckpointStore.readBack_eq_ok]
  refine ⟨?_,?_,rfl⟩
  · have hrows : (EmbeddedEndpoint.checkpointOf active generation).documents = active.values := rfl
    refine EmbeddedCheckpointStore.loadRows_of dimension (by rwa [hrows]) ?_ ?_ ?_
    · intro c hc
      obtain ⟨record,hrecord,hmem⟩ := List.mem_flatMap.mp hc
      exact ((hsavable.documents record hrecord).chunks c hmem).dimension
    · refine Or.inr ?_
      intro c hc
      obtain ⟨record,hrecord,hmem⟩ := List.mem_flatMap.mp hc
      obtain ⟨i,hi⟩ := List.mem_iff_getElem?.mp hmem
      have hchunk := (hsound record hrecord).chunks i c hi
      exact ⟨hchunk.unit.ne_nil,hchunk.dimension,hchunk.unit⟩
    · exact fun record hrecord => (hsound record hrecord).ordinals
  · rw [EmbeddedCheckpointStore.loadRevisions_eq_ok]
    refine ⟨fun record hrecord => (hsound record hrecord).revision,?_,?_⟩
    · intro e he
      exact ⟨(hsavable.revisions e he).1,(hsavable.revisions e he).2.2⟩
    · exact fun record hrecord => (hsavable.documents record hrecord).catalog

/-- The documents of a batch are new and come behind those that are there. -/
lemma takeIn_behind {batch : List RevisionedDocument} {active : Catalog} (h : Filed active)
    (hsorted : (active.values ++ batch).Pairwise fun a b => recordKey a < recordKey b) :
    ∃ active', EmbeddedEndpoint.takeIn batch active = (.ok (),active') ∧ Filed active' ∧
      active'.values = active.values ++ batch := by
  induction batch generalizing active with
  | nil => exact ⟨active,rfl,h,(List.append_nil _).symm⟩
  | cons record rest ih =>
    obtain ⟨-,-,hcross⟩ := List.pairwise_append.mp hsorted
    have hbehind : ∀ e ∈ active.entries, e.1 < recordKey record := by
      intro e he
      rw [← h e he]
      exact hcross e.2 (List.mem_map_of_mem he) record List.mem_cons_self
    have hnew : active.find? (recordKey record) = none := by
      rw [OrdMap.find?_eq_none]
      intro hmem
      obtain ⟨e,he,hkey⟩ := List.mem_map.mp hmem
      exact absurd (hbehind e he) (by rw [hkey]; exact lt_irrefl _)
    have hvalues : (active.emplace (recordKey record) record).values =
      active.values ++ [record] := by
      rw [OrdMap.values,OrdMap.entries_emplace_last record hbehind,List.map_append]
      rfl
    obtain ⟨active',htaken,hfiled,hactive⟩ := ih (h.emplace record)
      (by rwa [hvalues,List.append_assoc,List.singleton_append])
    refine ⟨active',?_,hfiled,?_⟩
    · rw [EmbeddedEndpoint.takeIn,hnew]
      exact htaken
    · rw [hactive,hvalues,List.append_assoc,List.singleton_append]

/-- A file write happens as a whole, or leaves the files as they are. -/
lemma EmbeddedEndpoint.write_cases {d d' : EmbeddedEndpoint} {files : DestinationFiles}
    {result : Option (Result Unit)} (h : d.write files = (result,d')) :
    d'.active = d.active ∧ (result = some (.ok ()) ∧ d'.files = files ∨
      result ≠ some (.ok ()) ∧ d'.files = d.files) := by
  unfold write at h
  cases hwrites : d.writes with
  | nil =>
    rw [hwrites] at h
    cases h
    exact ⟨rfl,Or.inr ⟨by simp,rfl⟩⟩
  | cons outcome writes =>
    rw [hwrites] at h
    cases outcome with
    | error e =>
      cases h
      exact ⟨rfl,Or.inr ⟨by simp,rfl⟩⟩
    | ok u =>
      cases h
      exact ⟨rfl,Or.inl ⟨rfl,rfl⟩⟩

/-- The endpoint holds what has been copied, in memory and on disk. -/
structure Copied (records : List RevisionedDocument) (d : EmbeddedEndpoint)
    (progress : MigrationProgress) : Prop where
  filed : Filed d.active
  compared : Compared records d.active.values progress
  saved : d.files.documents = d.active
  holds : Holds records d.files

/-- The files hold at least what they held. -/
structure Grown (records : List RevisionedDocument) (files files' : DestinationFiles) : Prop where
  kept : files.documents.values <+: files'.documents.values
  holds : Holds records files'

lemma Grown.trans {files files' files'' : DestinationFiles} (h : Grown records files files')
    (h' : Grown records files' files'') : Grown records files files'' :=
  ⟨h.kept.trans h'.kept,h'.holds⟩

section
variable {d d' : EmbeddedEndpoint} {result : Option (Result Unit)}

/-- Saving the progress leaves the checkpoint as it is. -/
lemma saveProgress_spec {progress : MigrationProgress} (h : d.saveProgress progress = (result,d')) :
    d'.active = d.active ∧ d'.files.checkpoint = d.files.checkpoint := by
  obtain ⟨hactive,⟨-,hfiles⟩ | ⟨-,hfiles⟩⟩ := EmbeddedEndpoint.write_cases h
  · exact ⟨hactive,by rw [hfiles]⟩
  · exact ⟨hactive,by rw [hfiles]⟩

lemma documents_congr {files files' : DestinationFiles} (h : files'.checkpoint = files.checkpoint) :
    files'.documents = files.documents := by
  rw [DestinationFiles.documents,h,DestinationFiles.documents]

lemma Holds.congr {files files' : DestinationFiles} (h : Holds records files)
    (hcheckpoint : files'.checkpoint = files.checkpoint) : Holds records files' := by
  have hdocuments := documents_congr hcheckpoint
  exact ⟨hdocuments ▸ h.begins,fun hordered => by rw [hcheckpoint,h.loads hordered,hdocuments]⟩

lemma Holds.grown_congr {files files' : DestinationFiles} (h : Holds records files)
    (hcheckpoint : files'.checkpoint = files.checkpoint) : Grown records files files' :=
  ⟨documents_congr hcheckpoint ▸ List.prefix_rfl,h.congr hcheckpoint⟩

lemma Ordered.subset {more : List RevisionedDocument} (h : Ordered records) (hs : more ⊆ records) :
    Ordered more := by
  intro c hc
  obtain ⟨record,hrecord,hmem⟩ := List.mem_flatMap.mp hc
  exact h c (List.mem_flatMap.mpr ⟨record,hs hrecord,hmem⟩)

/-- The checkpoint of a beginning of the source. -/
lemma saveCheckpoint_spec {dimension generation : ℕ} (h : Holds records d.files)
    (hfiled : Filed d.active) (hbegins : d.active.values <+: records)
    (hkept : d.files.documents.values <+: d.active.values)
    (hsound : ∀ record ∈ records, SoundRecord dimension record)
    (hsave : d.saveCheckpoint (EmbeddedEndpoint.checkpointOf d.active generation) = (result,d')) :
    d'.active = d.active ∧ Grown records d.files d'.files ∧
      (result = some (.ok ()) → d'.files.documents = d.active) := by
  unfold EmbeddedEndpoint.saveCheckpoint at hsave
  cases hvalid : EmbeddedCheckpointStore.validateForSave
    (EmbeddedEndpoint.checkpointOf d.active generation) with
  | error e =>
    rw [hvalid] at hsave
    cases hsave
    exact ⟨rfl,h.grown_congr rfl,by simp⟩
  | ok u =>
    rw [hvalid] at hsave
    obtain ⟨hactive,⟨-,hfiles⟩ | ⟨hfailed,hfiles⟩⟩ := EmbeddedEndpoint.write_cases hsave
    · have hcheckpoint : d'.files.checkpoint =
          some (EmbeddedEndpoint.checkpointOf d.active generation) := by rw [hfiles]
      have hdocuments : d'.files.documents = d.active := by
        rw [DestinationFiles.documents,hcheckpoint]
        exact hfiled.activeOf
      refine ⟨hactive,⟨hdocuments ▸ hkept,hdocuments ▸ hbegins,?_⟩,fun _ => hdocuments⟩
      intro hordered
      have hback := readBack_checkpointOf
        (fun record hmem => hsound record (hbegins.subset hmem)) (hordered.subset hbegins.subset)
        (EmbeddedCheckpointStore.validateForSave_eq_ok.mp hvalid)
      rw [hdocuments,hcheckpoint]
      simp only [loadActive,hback]
      change Except.ok (activeOf d.active.values) = _
      rw [hfiled.activeOf]
    · exact ⟨hactive,h.grown_congr (by rw [hfiles]),fun hok => absurd hok hfailed⟩

end

end RagRuntime.Migration
