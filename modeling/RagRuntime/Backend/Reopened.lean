import RagRuntime.Backend.CatalogView
import RagRuntime.Backend.CheckpointReload

/-! A backend that is opened from a checkpoint file has the documents and the revisions of the one
that was saved. -/
namespace RagRuntime.Backend
open RagRuntime.Base RagRuntime.Core RagRuntime.Store RagRuntime.Text RagRuntime.Lexical
  RagRuntime.Dense

namespace EmbeddedBackend

variable {β : Type}

def openCheckpoint [ApproximateIndex β] (parser : JsonParser) (idf : ℕ → ℕ → ℚ)
    (order : OffsetSort) (analysis : Analysis) (policy : EmbeddedMaintenancePolicy)
    (file : Bytes) : Result (EmbeddedBackend β) := do
  let checkpoint ← EmbeddedCheckpointStore.load parser idf order file
  restoreCheckpoint analysis policy checkpoint

/-- A backend that can be saved and opened again. -/
structure Restorable (b : EmbeddedBackend β) : Prop where
  filed : Filed b.active.documents
  generated : ∃ dense inDelta tombstones, buildGeneration b.analysis b.active.documents dense
    inDelta tombstones b.active.number = .ok b.active
  typed : ∀ k a, b.active.documents.find? k = some a → a.prepared.WellTyped
  revisions : ∀ e ∈ b.latestRevisions.entries, e.2 < 256^8

variable {b c : EmbeddedBackend β}

lemma Restorable.durable (h : b.Restorable) : b.Durable := by
  obtain ⟨dense,inDelta,tombstones,hgenerated⟩ := h.generated
  exact ⟨Formed.of_built h.filed (buildGeneration_ok hgenerated),h.typed⟩

lemma restorable_start (analysis : Analysis) (policy : EmbeddedMaintenancePolicy) :
    (start analysis policy : EmbeddedBackend β).Restorable := by
  refine ⟨?_,⟨_,_,_,buildGeneration_empty analysis⟩,?_,fun e he => absurd he List.not_mem_nil⟩
  · intro k a ha
    cases ha
  · intro k a ha
    cases ha

/-- The generation that is built of a catalog is one of that catalog and that number. -/
lemma generated_of {analysis : Analysis} {catalog : Catalog} {dense : TieredDenseIndex β}
    {inDelta tombstones : Finset Bytes} {n : ℕ} {g : Generation β}
    (h : buildGeneration analysis catalog dense inDelta tombstones n = .ok g) :
    ∃ dense' inDelta' tombstones', buildGeneration analysis g.documents dense' inDelta' tombstones'
      g.number = .ok g := by
  have hbuilt := buildGeneration_ok h
  rw [hbuilt.documents,hbuilt.number]
  exact ⟨_,_,_,h⟩

lemma Restorable.recorded (h : b.Restorable) (key : Bytes) {revision : ℕ}
    (hrevision : revision < 256^8) :
    ∀ e ∈ (b.latestRevisions.insert key revision).entries, e.2 < 256^8 := by
  intro e he
  have hfind := OrdMap.find?_eq_some.mpr he
  rw [OrdMap.find?_insert] at hfind
  split_ifs at hfind
  · rw [← Option.some.inj hfind]
    exact hrevision
  · exact h.revisions e (OrdMap.find?_eq_some.mp hfind)

section activation

variable {document : PreparedDocument} {revision : ℕ}

/-- A successful activation of a document that is not active with this content. -/
lemma activate_eq_ok (h : b.activate document revision = (.ok (),c))
    (hnew : ∀ a, b.active.documents.find? document.key = some a →
      a.prepared.contentHash ≠ document.contentHash) :
    ValidDocument document ∧ revision ≠ 0 ∧ ∃ dense inDelta tombstones next,
      buildGeneration b.analysis (b.active.documents.insert document.key ⟨revision,document⟩)
        dense inDelta tombstones (b.active.number+1) = .ok next ∧
      c = { b with
        latestRevisions := b.latestRevisions.insert document.key revision
        active := next } := by
  have halready : b.alreadyActive document revision = false := by
    unfold alreadyActive
    cases hfind : b.active.documents.find? document.key with
    | none => rfl
    | some a => simp [hnew a hfind]
  unfold EmbeddedBackend.activate at h
  cases hvalid : validate document revision with
  | error e =>
    rw [hvalid] at h
    cases h
  | ok u =>
    obtain ⟨hdocument,hrevision⟩ := validate_eq_ok.mp hvalid
    rw [hvalid] at h
    dsimp only at h
    split_ifs at h with hstale hdone
    · rw [halready] at hdone
      cases hdone
    · cases h
    · cases hbuild : buildGeneration b.analysis
        (b.active.documents.insert document.key ⟨revision,document⟩) b.active.dense
        (insert document.key b.active.deltaDocuments)
        (b.tombstonesAfter document.key (document.chunks.map PreparedChunk.key))
        (b.active.number+1) with
      | error e =>
        rw [hbuild] at h
        cases h
      | ok next =>
        rw [hbuild] at h
        cases h
        exact ⟨hdocument,hrevision,_,_,_,next,hbuild,rfl⟩

lemma Restorable.activate (h : b.Restorable) (hok : b.activate document revision = (.ok (),c))
    (hnew : ∀ a, b.active.documents.find? document.key = some a →
      a.prepared.contentHash ≠ document.contentHash)
    (htyped : document.WellTyped) (hrevision : revision < 256^8) : c.Restorable := by
  obtain ⟨hvalid,hne,dense,inDelta,tombstones,next,hbuild,rfl⟩ := activate_eq_ok hok hnew
  have hdocuments : next.documents = b.active.documents.insert document.key ⟨revision,document⟩ :=
    (buildGeneration_ok hbuild).documents
  refine ⟨?_,generated_of hbuild,?_,h.recorded document.key hrevision⟩
  · change Filed next.documents
    rw [hdocuments]
    exact h.filed.insert hvalid hne
  · intro k a ha
    change next.documents.find? k = some a at ha
    rw [hdocuments,OrdMap.find?_insert] at ha
    split_ifs at ha
    · rw [← Option.some.inj ha]
      exact htyped
    · exact h.typed k a ha

end activation

/-- What a compaction leaves. -/
lemma compact_snd [ApproximateIndex β] (b : EmbeddedBackend β) (overrideMemoryBudget : Bool) :
    (b.compact overrideMemoryBudget).2 = b ∨ ∃ dense next,
      TieredDenseIndex.compact (liveRows b.active.documents.entries) b.active.dimension
        b.policy.dense = .ok dense ∧
      buildGeneration b.analysis b.active.documents dense ∅ ∅ (b.active.number+1) = .ok next ∧
        (b.compact overrideMemoryBudget).2 = { b with active := next } := by
  unfold EmbeddedBackend.compact
  split_ifs
  · exact Or.inl rfl
  · cases hdense : TieredDenseIndex.compact (β := β) (liveRows b.active.documents.entries)
        b.active.dimension b.policy.dense with
    | error e => exact Or.inl rfl
    | ok dense =>
      dsimp only
      cases hbuild : buildGeneration b.analysis b.active.documents dense ∅ ∅
          (b.active.number+1) with
      | error e => exact Or.inl rfl
      | ok next => exact Or.inr ⟨dense,next,rfl,hbuild,rfl⟩

/-- A compaction is nothing to the catalog. -/
lemma compact_alike [ApproximateIndex β] (b : EmbeddedBackend β) (overrideMemoryBudget : Bool) :
    (b.compact overrideMemoryBudget).2.Alike b := by
  obtain hsame | ⟨dense,next,-,hbuild,hsame⟩ := b.compact_snd overrideMemoryBudget
  · rw [hsame]
    exact ⟨rfl,rfl,rfl⟩
  · rw [hsame]
    exact ⟨rfl,(buildGeneration_ok hbuild).documents,rfl⟩

lemma Restorable.compact [ApproximateIndex β] (h : b.Restorable) (overrideMemoryBudget : Bool) :
    (b.compact overrideMemoryBudget).2.Restorable := by
  obtain hsame | ⟨dense,next,-,hbuild,hsame⟩ := b.compact_snd overrideMemoryBudget
  · rw [hsame]
    exact h
  · have hdocuments := (buildGeneration_ok hbuild).documents
    rw [hsame]
    refine ⟨?_,generated_of hbuild,?_,h.revisions⟩
    · change Filed next.documents
      rw [hdocuments]
      exact h.filed
    · intro k a ha
      change next.documents.find? k = some a at ha
      rw [hdocuments] at ha
      exact h.typed k a ha

/-- What an erasure leaves. -/
lemma erase_snd (b : EmbeddedBackend β) (document : Bytes) (revision : ℕ) :
    (b.erase document revision).2 = b ∨ ∃ dense inDelta tombstones next,
      buildGeneration b.analysis (b.active.documents.erase document) dense inDelta tombstones
        (b.active.number+1) = .ok next ∧
      (b.erase document revision).2 = { b with
        latestRevisions := b.latestRevisions.insert document revision
        active := next } := by
  unfold EmbeddedBackend.erase
  split_ifs
  · exact Or.inl rfl
  · exact Or.inl rfl
  · exact Or.inl rfl
  · cases hbuild : buildGeneration b.analysis (b.active.documents.erase document) b.active.dense
      (b.active.deltaDocuments.erase document) (b.tombstonesAfter document [])
      (b.active.number+1) with
    | error e => exact Or.inl rfl
    | ok next => exact Or.inr ⟨_,_,_,next,hbuild,rfl⟩

lemma analysis_erase (b : EmbeddedBackend β) (document : Bytes) (revision : ℕ) :
    (b.erase document revision).2.analysis = b.analysis := by
  obtain hsame | ⟨_,_,_,_,-,hsame⟩ := b.erase_snd document revision
  · rw [hsame]
  · rw [hsame]

lemma Restorable.erase (h : b.Restorable) (document : Bytes) {revision : ℕ}
    (hrevision : revision < 256^8) : (b.erase document revision).2.Restorable := by
  obtain hsame | ⟨dense,inDelta,tombstones,next,hbuild,hsame⟩ := b.erase_snd document revision
  · rw [hsame]
    exact h
  · have hdocuments := (buildGeneration_ok hbuild).documents
    rw [hsame]
    refine ⟨?_,generated_of hbuild,?_,h.recorded document hrevision⟩
    · change Filed next.documents
      rw [hdocuments]
      exact h.filed.erase document
    · intro k a ha
      change next.documents.find? k = some a at ha
      rw [hdocuments,OrdMap.find?_erase] at ha
      split_ifs at ha
      exact h.typed k a ha

section restore

variable [ApproximateIndex β] {analysis : Analysis} {policy : EmbeddedMaintenancePolicy}
  {checkpoint : EmbeddedCheckpoint}

/-- What a checkpoint is restored to. -/
lemma restoreCheckpoint_eq_ok (h : restoreCheckpoint analysis policy checkpoint = .ok b) :
    (∀ e ∈ checkpoint.revisions.entries, e.1 ≠ [] ∧ e.2 ≠ 0) ∧ ∃ documents dense next,
      restoreDocuments checkpoint.revisions checkpoint.documents ∅ = .ok documents ∧
      TieredDenseIndex.compact (liveRows (checkpoint.documents.map
        fun entry => (entry.prepared.key,entry))) (NativeExactIndex.firstDimension (liveRows
          (checkpoint.documents.map fun entry => (entry.prepared.key,entry)))) policy.dense =
            .ok dense ∧
      buildGeneration analysis documents dense ∅ ∅ checkpoint.generation = .ok next ∧
      b = ⟨analysis,policy,checkpoint.revisions,next,checkpoint.walPosition⟩ := by
  unfold restoreCheckpoint at h
  split_ifs at h with hrevisions
  · cases h
  · have hproper : ∀ e ∈ checkpoint.revisions.entries, e.1 ≠ [] ∧ e.2 ≠ 0 := by
      intro e he
      have := List.any_eq_false.mp (Bool.eq_false_of_not_eq_true hrevisions) e he
      simpa using this
    obtain ⟨documents,hdocuments,h⟩ := bind_eq_ok.mp h
    obtain ⟨dense,hdense,h⟩ := bind_eq_ok.mp h
    cases hbuild : buildGeneration analysis documents dense ∅ ∅ checkpoint.generation with
    | error e =>
      rw [hbuild] at h
      cases h
    | ok next =>
      rw [hbuild] at h
      cases h
      exact ⟨hproper,documents,dense,next,hdocuments,hdense,hbuild,rfl⟩

omit [ApproximateIndex β] in
/-- A backend on the documents of a checkpoint. -/
lemma restorable_documents {revisions : OrdMap Bytes ℕ} {entries : List ActiveDocument}
    {documents : Catalog} {dense : TieredDenseIndex β} {n walPosition : ℕ} {g : Generation β}
    (hdocuments : EmbeddedBackend.restoreDocuments revisions entries ∅ = .ok documents)
    (hbuild : buildGeneration analysis documents dense ∅ ∅ n = .ok g)
    (htyped : ∀ entry ∈ entries, entry.prepared.WellTyped)
    (hrevisions : ∀ e ∈ revisions.entries, e.2 < 256^8) :
    (⟨analysis,policy,revisions,g,walPosition⟩ : EmbeddedBackend β).Restorable := by
  obtain ⟨hfiled,hfind⟩ := restoreDocuments_ok (fun k a ha => by cases ha) hdocuments
  have hsame := (buildGeneration_ok hbuild).documents
  refine ⟨?_,generated_of hbuild,?_,hrevisions⟩
  · change Filed g.documents
    rwa [hsame]
  · intro k a ha
    change g.documents.find? k = some a at ha
    rw [hsame] at ha
    obtain hnone | ⟨hentry,-⟩ := (hfind k a).mp ha
    · cases hnone
    · exact htyped a hentry

lemma restorable_restored (h : restoreCheckpoint analysis policy checkpoint = .ok b)
    (htyped : ∀ entry ∈ checkpoint.documents, entry.prepared.WellTyped)
    (hrevisions : ∀ e ∈ checkpoint.revisions.entries, e.2 < 256^8) : b.Restorable := by
  obtain ⟨-,documents,dense,next,hdocuments,-,hbuild,rfl⟩ := restoreCheckpoint_eq_ok h
  exact restorable_documents hdocuments hbuild htyped hrevisions

/-- The documents of a checkpoint stand at the revisions of its catalog. -/
lemma restoreDocuments_revisions {revisions : OrdMap Bytes ℕ} {entries : List ActiveDocument}
    {documents out : Catalog}
    (h : EmbeddedBackend.restoreDocuments revisions entries documents = .ok out)
    (hbefore : ∀ k a, documents.find? k = some a → revisions.find? k = some a.revision) :
    ∀ k a, out.find? k = some a → revisions.find? k = some a.revision := by
  induction entries generalizing documents with
  | nil =>
    cases h
    exact hbefore
  | cons entry rest ih =>
    rw [EmbeddedBackend.restoreDocuments] at h
    split at h
    · cases h
    · split_ifs at h with hcontains hmatch
      · cases h
      · cases h
      · refine ih h fun k a ha => ?_
        rw [OrdMap.find?_insert] at ha
        split_ifs at ha with hk
        · cases ha
          rw [hk]
          exact not_ne_iff.mp hmatch
        · exact hbefore k a ha

lemma coherent_restored (h : restoreCheckpoint analysis policy checkpoint = .ok b) :
    b.catalog.Coherent := by
  obtain ⟨hproper,documents,dense,next,hdocuments,-,hbuild,rfl⟩ := restoreCheckpoint_eq_ok h
  have hsame := (buildGeneration_ok hbuild).documents
  have hempty : ∀ k a, (∅ : Catalog).find? k = some a → a.prepared.key = k ∧
      ValidDocument a.prepared ∧ a.revision ≠ 0 := fun k a ha => by cases ha
  obtain ⟨hfiled,-⟩ := restoreDocuments_ok hempty hdocuments
  refine ⟨?_,fun key revision hfind => hproper (key,revision) (OrdMap.find?_eq_some.mp hfind)⟩
  intro key a ha
  change next.documents.find? key = some a at ha
  rw [hsame] at ha
  obtain ⟨hkey,hvalid,-⟩ := hfiled key a ha
  exact ⟨hkey,hvalid,restoreDocuments_revisions hdocuments (fun k a ha => by cases ha) key a ha⟩

lemma restorable_opened {parser : JsonParser} {idf : ℕ → ℕ → ℚ} {order : OffsetSort} {file : Bytes}
    (h : openCheckpoint parser idf order analysis policy file = .ok b) :
    b.Restorable ∧ b.analysis = analysis := by
  obtain ⟨checkpoint,hload,hrestore⟩ := bind_eq_ok.mp h
  obtain ⟨htyped,hrevisions⟩ := EmbeddedCheckpointStore.typed_of_load hload
  refine ⟨restorable_restored hrestore htyped hrevisions,?_⟩
  obtain ⟨-,_,_,_,-,-,-,rfl⟩ := restoreCheckpoint_eq_ok hrestore
  rfl

end restore

section reopening

lemma savable_of_save {idf : ℕ → ℕ → ℚ} {hash : HashOrder} {checkpoint : EmbeddedCheckpoint}
    {file : Bytes} (h : EmbeddedCheckpointStore.save idf hash checkpoint = .ok file) :
    EmbeddedCheckpointStore.Savable checkpoint := by
  obtain ⟨_,hvalid,-⟩ := bind_eq_ok.mp h
  exact EmbeddedCheckpointStore.validateForSave_eq_ok.mp hvalid

lemma Restorable.reloadable (h : b.Restorable) {walPosition : ℕ}
    (hsavable : EmbeddedCheckpointStore.Savable (b.snapshot walPosition)) :
    EmbeddedCheckpointStore.Reloadable (b.snapshot walPosition) b.active.dimension := by
  refine ⟨h.durable.fitting hsavable,?_,h.revisions⟩
  intro entry hentry
  obtain ⟨k,hk⟩ := OrdMap.mem_values.mp hentry
  obtain ⟨-,hvalid,-⟩ := h.filed k entry hk
  apply List.ext_getElem
  · rw [List.length_map,List.length_range]
  · intro i hi hi'
    rw [List.getElem_map,List.getElem_range]
    exact (hvalid.chunks i _ (List.getElem?_eq_getElem _)).ordinal

/-- The base that a compaction makes. -/
lemma compact_base [ApproximateIndex β] {rows : List VectorRecord} {dimension : ℕ}
    {policy : DensePolicy} {dense : TieredDenseIndex β}
    (h : TieredDenseIndex.compact rows dimension policy = .ok dense) :
    dense.tombstones = ∅ ∧ dense.base.keys = rowKeys rows ∧ dense.base.dimension = dimension := by
  unfold TieredDenseIndex.compact at h
  split_ifs at h
  · cases h
  · obtain ⟨index,-,h⟩ := bind_eq_ok.mp h
    cases h
    exact ⟨rfl,rfl,rfl⟩

/-- The catalog of a backend builds a generation on a base of its own rows. -/
lemma Restorable.rebuild (h : b.Restorable) {dense : TieredDenseIndex β}
    (htombstones : dense.tombstones = ∅) (hdimension : dense.base.dimension =
      NativeExactIndex.firstDimension (liveRows b.active.documents.entries))
    (n : ℕ) : ∃ g, buildGeneration b.analysis b.active.documents dense ∅ ∅ n = .ok g := by
  obtain ⟨_,_,_,hgenerated⟩ := h.generated
  have hbuilt := buildGeneration_ok hgenerated
  have hbase : dense.base.dimension = 0 ∨ b.active.dimension = 0 ∨
      dense.base.dimension = b.active.dimension := by
    rw [hdimension]
    cases hrows : liveRows b.active.documents.entries with
    | nil => exact Or.inl rfl
    | cons row rows =>
      have hrow : row ∈ liveRows b.active.documents.entries := by
        rw [hrows]
        exact List.mem_cons_self
      obtain ⟨x,hx,rfl⟩ := List.mem_map.mp hrow
      obtain ⟨hx,hne⟩ := List.mem_filter.mp hx
      exact Or.inr (Or.inr (hbuilt.dimension x hx (of_decide_eq_true hne)))
  obtain ⟨g,hg,-⟩ := buildGeneration_agree n hgenerated (h.filed.withDelta hbuilt.keys ∅
    (Finset.empty_subset _) (htombstones ▸ Finset.Subset.refl _) hbuilt.dimension hbase)
  exact ⟨g,hg⟩

/-- The catalog of a backend comes back from its entries. -/
lemma Restorable.restoreDocuments (h : b.Restorable) {walPosition : ℕ}
    (hsavable : EmbeddedCheckpointStore.Savable (b.snapshot walPosition)) :
    EmbeddedBackend.restoreDocuments b.latestRevisions b.active.documents.values ∅ =
      .ok b.active.documents := by
  have hvalid : ∀ entry ∈ b.active.documents.values, ValidDocument entry.prepared ∧
      entry.revision ≠ 0 ∧ b.latestRevisions.find? entry.prepared.key = some entry.revision := by
    intro entry hentry
    obtain ⟨k,hk⟩ := OrdMap.mem_values.mp hentry
    obtain ⟨-,hdocument,hrevision⟩ := h.filed k entry hk
    exact ⟨hdocument,hrevision,(hsavable.documents entry hentry).catalog⟩
  have hempty : Filed (∅ : Catalog) := fun k a ha => by cases ha
  obtain ⟨out,hout⟩ := CatalogBackend.restoreDocuments_of hempty hvalid hsavable.keys
    fun _ _ => rfl
  obtain rfl := (restoreDocuments_values h.filed hout).2
  exact hout

variable [ApproximateIndex β] {parser : JsonParser}
  (hparser : EmbeddedCheckpointStore.ReadsMetadata parser) (idf : ℕ → ℕ → ℚ)
  (hash : HashOrder) (order : OffsetSort) (policy : EmbeddedMaintenancePolicy) {walPosition : ℕ}
  {file : Bytes}
include hparser

/-- A saved backend comes back with its documents and revisions. -/
theorem Restorable.openCheckpoint (h : b.Restorable)
    (hsave : EmbeddedCheckpointStore.save idf hash (b.snapshot walPosition) = .ok file)
    (hterms : (EmbeddedCheckpointStore.terms b.active.documents.values).card ≤ kMaxPostings)
    (hdense : ∃ dense : TieredDenseIndex β, TieredDenseIndex.compact
      (liveRows b.active.documents.entries)
      (NativeExactIndex.firstDimension (liveRows b.active.documents.entries)) policy.dense =
        .ok dense) :
    ∃ c : EmbeddedBackend β, EmbeddedBackend.openCheckpoint parser idf order b.analysis policy
      file = .ok c ∧ c.Alike b := by
  have hsavable := savable_of_save hsave
  have hload := ((h.reloadable hsavable).load_iff hparser idf hash order hsave).mpr ⟨rfl,hterms⟩
  obtain ⟨dense,hdense⟩ := hdense
  obtain ⟨htombstones,-,hdimension⟩ := compact_base hdense
  obtain ⟨g,hg⟩ := h.rebuild htombstones hdimension (b.active.number % 256^8)
  have hrevisions : (b.latestRevisions.entries.any fun e => e.1 = [] ∨ e.2 = 0) = false := by
    rw [List.any_eq_false]
    intro e he
    obtain ⟨hkey,-,hrevision⟩ := hsavable.revisions e he
    simp [hkey,hrevision]
  refine ⟨⟨b.analysis,policy,b.latestRevisions,g,walPosition % 256^8⟩,?_,rfl,
    (buildGeneration_ok hg).documents,rfl⟩
  unfold EmbeddedBackend.openCheckpoint
  rw [hload,EmbeddedCheckpointStore.ok_bind]
  unfold restoreCheckpoint snapshot
  dsimp only
  rw [hrevisions,if_neg Bool.false_ne_true,h.restoreDocuments hsavable,
    EmbeddedCheckpointStore.ok_bind,h.filed.values_map,hdense,EmbeddedCheckpointStore.ok_bind,hg]
  rfl

/-- A file with too many terms is not opened. -/
theorem Restorable.openCheckpoint_crowded (h : b.Restorable)
    (hsave : EmbeddedCheckpointStore.save idf hash (b.snapshot walPosition) = .ok file)
    (hterms : kMaxPostings < (EmbeddedCheckpointStore.terms b.active.documents.values).card)
    (analysis : Analysis) (c : EmbeddedBackend β) :
    EmbeddedBackend.openCheckpoint parser idf order analysis policy file ≠ .ok c := by
  intro hopen
  obtain ⟨checkpoint,hload,-⟩ := bind_eq_ok.mp hopen
  obtain ⟨-,hfew⟩ := ((h.reloadable (savable_of_save hsave)).load_iff hparser idf hash order
    hsave).mp hload
  exact absurd hfew (not_le.mpr hterms)

end reopening

end EmbeddedBackend
end RagRuntime.Backend
