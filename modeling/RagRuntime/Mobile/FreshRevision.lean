import RagRuntime.Backend.Searchable
import RagRuntime.Mobile.Upserts

/-! The revisions that a mobile client picks. They are counted from the active documents, while the
backend fences by the revisions of all documents, also of those that were erased. -/
namespace RagRuntime.Mobile
open RagRuntime.Base RagRuntime.Core RagRuntime.Store RagRuntime.Text RagRuntime.Lexical
  RagRuntime.Index RagRuntime.Dense RagRuntime.Backend RagRuntime.Preparation

variable {p : Platform}

/-- The other active documents were chunked and embedded as a document is. -/
def MobileIndex.Matches (index : MobileIndex p) (document : PreparedDocument) : Prop :=
  ∀ key a, index.backend.active.documents.find? key = some a → key ≠ document.key →
    a.prepared.chunkingFingerprint = document.chunkingFingerprint ∧
      a.prepared.embeddingIdentity = document.embeddingIdentity

/-- A call picks a revision above the one recorded, the activation under it is accepted, and the
document can be searched after the call. -/
structure MobileIndex.Freshens (index : MobileIndex p) (call : Upsert) (prepared : Prepared)
    (during : During) : Prop where
  above : ∀ latest, index.backend.latestRevisions.find? prepared.document.key = some latest →
    latest < index.nextRevision prepared.document.key
  accepted : ∃ next, index.activate prepared during = .ok next
  searchable : (index.upsert call during).2.backend.active.Searchable
    ⟨index.nextRevision prepared.document.key,prepared.document⟩

/-- The keys of the chunks of a document and of the other active documents. -/
def MobileIndex.chunkKeys (index : MobileIndex p) (document : PreparedDocument) : List Bytes :=
  document.chunks.map PreparedChunk.key ++
    (liveChunks (index.backend.active.documents.erase document.key).entries).map
      fun x => x.chunk.key

/-- The document was not erased, its revision can be counted on, and it is one that the backend
takes beside the others. -/
structure MobileIndex.Admissible (index : MobileIndex p) (prepared : Prepared) : Prop where
  active : ∀ latest, index.backend.latestRevisions.find? prepared.document.key = some latest →
    ∃ a, index.backend.active.documents.find? prepared.document.key = some a
  room : ∀ a, index.backend.active.documents.find? prepared.document.key = some a →
    a.revision + 1 < 2^64
  finite : prepared.finite = true
  valid : ValidDocument prepared.document
  keys : (index.chunkKeys prepared.document).Nodup
  count : (index.chunkKeys prepared.document).length ≤ uint32Max

section mode

/-- The chunks of a document have vectors of a dimension, which is that of the active chunks;
without vectors it is zero. -/
structure MobileIndex.Takes (index : MobileIndex p) (prepared : Prepared) (dimension : ℕ) :
    Prop where
  active : index.backend.active.chunks.size = 0 ∨ index.backend.active.dimension = dimension
  vectors : prepared.finite = true →
    ∀ c ∈ prepared.document.chunks, c.embedding.length = dimension
  present : dimension ≠ 0 → prepared.document.chunks ≠ []

lemma requirePortableMode_ok {β : Type} {b : EmbeddedBackend β} {vectors : Bool} {dimension : ℕ}
    (h : requirePortableMode b vectors dimension = .ok ()) : b.active.chunks.size = 0 ∨
      b.active.dimension = if vectors then dimension else 0 := by
  unfold requirePortableMode at h
  split_ifs at h with hempty hnone hsome hdimension
  · exact Or.inl hempty
  · right
    cases vectors with
    | false => simpa using hsome
    | true => simpa using hdimension

lemma length_normalizedVector {sqrt : ℚ → ℚ} {values : List (Option ℚ)} {v : Vec}
    (h : normalizedVector sqrt values = .ok (some v)) : v.length = values.length := by
  unfold normalizedVector at h
  split at h
  · cases h
  · rename_i found hfound
    split_ifs at h
    obtain ⟨inverse,-,hscaled⟩ := Option.bind_eq_some_iff.mp (Except.ok.inj h)
    rw [← (mapM_eq_some.mp hscaled).length_eq,(mapM_eq_some.mp hfound).length_eq]

lemma embedding_prepareChunks {documentId content title : Bytes} {metadata : Metadata}
    {options : ChunkOptions} {document : PreparedDocument}
    (h : prepareChunks documentId content metadata title options = .ok document) :
    ∀ c ∈ document.chunks, c.embedding = [] := by
  unfold prepareChunks at h
  split_ifs at h
  · cases h
  · cases h
  · cases h
    intro c hc
    obtain ⟨i,hi,rfl⟩ := List.mem_mapIdx.mp hc
    rfl

lemma chunks_withVectors {document : PreparedDocument} {dimension : ℕ}
    {vectors : List (Option Vec)} (hlen : vectors.length = document.chunks.length)
    (hvectors : ∀ v, some v ∈ vectors → v.length = dimension) :
    (withVectors document dimension vectors).document.chunks.length = document.chunks.length ∧
      ((withVectors document dimension vectors).finite = true →
        ∀ c ∈ (withVectors document dimension vectors).document.chunks,
          c.embedding.length = dimension) := by
  refine ⟨by simp [withVectors,hlen],?_⟩
  intro hfinite c hc
  rw [withVectors,← List.map_uncurry_zip_eq_zipWith] at hc
  obtain ⟨row,hrow,rfl⟩ := List.mem_map.mp hc
  obtain ⟨-,hvector⟩ := List.of_mem_zip (a := row.1) (b := row.2) hrow
  obtain ⟨v,hv⟩ := Option.isSome_iff_exists.mp (List.all_eq_true.mp hfinite _ hvector)
  rw [hv] at hvector
  simp only [Function.uncurry,hv,Option.getD_some]
  exact hvectors v hvector

/-- What a call prepares has vectors of the kind that the index has. -/
lemma prepare_takes {index : MobileIndex p} {call : Upsert} {prepared : Prepared}
    (h : index.prepare call = .ok prepared) : ∃ dimension, index.Takes prepared dimension := by
  cases call with
  | lexical documentId title content =>
    change prepareLexical index documentId title content = _ at h
    unfold prepareLexical at h
    split at h
    · obtain ⟨_,hmode,h⟩ := bind_eq_ok.mp h
      obtain ⟨document,hdocument,h⟩ := bind_eq_ok.mp h
      cases h
      obtain ⟨document',hchunks,hsame⟩ := bind_eq_ok.mp (mapError_ok hdocument)
      cases hsame
      refine ⟨0,requirePortableMode_ok hmode,?_,fun hne => absurd rfl hne⟩
      intro _ c hc
      rw [embedding_prepareChunks hchunks c hc,List.length_nil]
    · cases h
  | vectors documentId title content embeddings count dimension =>
    change prepareVectors index documentId title content embeddings count dimension = _ at h
    unfold prepareVectors at h
    split at h
    · split_ifs at h with harguments
      dsimp only at h
      split_ifs at h
      obtain ⟨_,hmode,h⟩ := bind_eq_ok.mp h
      obtain ⟨document,hdocument,h⟩ := bind_eq_ok.mp h
      split_ifs at h with hcount
      obtain ⟨vectors,hvectors,h⟩ := bind_eq_ok.mp h
      cases h
      have heach := mapM_eq_ok.mp hvectors
      have hlen : vectors.length = document.chunks.length := by
        rw [← heach.length_eq,List.length_range]
      have hlengths : ∀ v, some v ∈ vectors → v.length = dimension := by
        intro v hv
        obtain ⟨position,-,hposition⟩ := exists_of_forall₂ heach hv
        rw [length_normalizedVector hposition,List.length_map,List.length_range]
      obtain ⟨hchunks,hdimension⟩ := chunks_withVectors hlen hlengths
      refine ⟨dimension,requirePortableMode_ok hmode,hdimension,?_⟩
      intro _
      rw [← List.length_pos_iff_ne_nil,hchunks,not_ne_iff.mp hcount]
      exact Nat.pos_of_ne_zero fun hzero => harguments (Or.inl hzero)
    · cases h

end mode

section invariant

/-- What a client's backend keeps: its documents stand at the revisions recorded for them, and where
its dense base has a dimension, it is that of the active chunks. -/
structure Sound (b : PortableBackend p) : Prop where
  restorable : b.Restorable
  coherent : b.catalog.Coherent
  base : b.active.dense.base.dimension = 0 ∨
    b.active.chunks.size ≠ 0 ∧ b.active.dense.base.dimension = b.active.dimension

variable {b c : PortableBackend p}

/-- The generation has a chunk with a vector, if it has a dimension. -/
lemma exists_embedded (h : b.Restorable) (hdimension : b.active.dimension ≠ 0) :
    ∃ x ∈ liveChunks b.active.documents.entries, x.chunk.embedding ≠ [] := by
  obtain ⟨_,_,_,hgenerated⟩ := h.generated
  by_contra hnone
  push Not at hnone
  exact hdimension (buildGeneration_zero hgenerated hnone)

/-- A generation with a chunk that has a vector keeps what is known of its base. -/
lemma base_of_built {analysis : Analysis} {catalog : Catalog}
    {dense : TieredDenseIndex (GraphIndex p)} {inDelta tombstones : Finset Bytes} {n : ℕ}
    {g : Generation (GraphIndex p)} (h : Built analysis catalog dense inDelta tombstones n g)
    (hsome : dense.base.dimension ≠ 0 → ∃ x ∈ liveChunks catalog.entries, x.chunk.embedding ≠ []) :
    g.dense.base.dimension = 0 ∨
      g.chunks.size ≠ 0 ∧ g.dense.base.dimension = g.dimension := by
  obtain ⟨hdims,-,-,-,hdense⟩ := TieredDenseIndex.withDelta_eq_ok.mp h.dense
  rw [hdense]
  by_cases hzero : dense.base.dimension = 0
  · exact Or.inl hzero
  · right
    obtain ⟨x,hx,hne⟩ := hsome hzero
    have hdimension : g.dimension ≠ 0 := by
      rw [← h.dimension x hx hne]
      exact fun hlen => hne (List.eq_nil_of_length_eq_zero hlen)
    refine ⟨?_,(hdims.resolve_left hzero).resolve_left hdimension⟩
    rw [h.size]
    exact (List.length_pos_of_mem hx).ne'

lemma Sound.compact (h : Sound b) (overrideMemoryBudget : Bool) :
    Sound (b.compact overrideMemoryBudget).2 := by
  refine ⟨h.restorable.compact overrideMemoryBudget,?_,?_⟩
  · obtain hsame | hsame := b.compact_catalog overrideMemoryBudget
    · exact hsame ▸ h.coherent
    · exact hsame ▸ h.coherent.compact
  · obtain hsame | ⟨dense,next,hdense,hbuild,hsame⟩ := b.compact_snd overrideMemoryBudget
    · rw [hsame]
      exact h.base
    · rw [hsame]
      refine base_of_built (buildGeneration_ok hbuild) ?_
      obtain ⟨-,-,hdimension⟩ := EmbeddedBackend.compact_base hdense
      rw [hdimension]
      exact exists_embedded h.restorable

/-- An activation keeps it, if the document has a vector where the base has a dimension. -/
lemma Sound.activate (h : Sound b) {document : PreparedDocument} {revision : ℕ}
    (hok : b.activate document revision = (.ok (),c))
    (hnew : ∀ a, b.active.documents.find? document.key = some a →
      a.prepared.contentHash ≠ document.contentHash)
    (htyped : document.WellTyped) (hrevision : revision < 256^8)
    (hsome : b.active.dense.base.dimension ≠ 0 → ∃ c ∈ document.chunks, c.embedding ≠ []) :
    Sound c := by
  refine ⟨h.restorable.activate hok hnew htyped hrevision,?_,?_⟩
  · obtain ⟨built,hbuilt⟩ := b.activate_catalog document revision
    rw [hok] at hbuilt
    exact (h.coherent.activate hbuilt).2.coherent
  · have hcases := b.activate_activated document revision
    rw [hok] at hcases
    cases hcases with
    | already _ => exact h.base
    | published _ _ _ next hbuilt =>
      refine base_of_built hbuilt fun hzero => ?_
      obtain ⟨chunk,hchunk,hne⟩ := hsome hzero
      exact ⟨⟨document.key,⟨revision,document⟩,chunk⟩,
        mem_liveChunks.mpr ⟨by rw [OrdMap.find?_insert,if_pos rfl],hchunk⟩,hne⟩

lemma sound_start : Sound (EmbeddedBackend.start p.analysis {} : PortableBackend p) :=
  ⟨EmbeddedBackend.restorable_start _ _,CatalogBackend.coherent_empty,Or.inl rfl⟩

/-- The base that is made of a checkpoint has vectors of its documents. -/
lemma base_of_restored {checkpoint : EmbeddedCheckpoint} {policy : EmbeddedMaintenancePolicy}
    {analysis : Analysis}
    (h : EmbeddedBackend.restoreCheckpoint analysis policy checkpoint = .ok b) :
    b.active.dense.base.dimension = 0 ∨
      b.active.chunks.size ≠ 0 ∧ b.active.dense.base.dimension = b.active.dimension := by
  obtain ⟨-,documents,dense,next,hdocuments,hdense,hbuild,rfl⟩ :=
    EmbeddedBackend.restoreCheckpoint_eq_ok h
  refine base_of_built (buildGeneration_ok hbuild) fun hzero => ?_
  obtain ⟨-,-,hdimension⟩ := EmbeddedBackend.compact_base hdense
  rw [hdimension] at hzero
  obtain ⟨-,hfind⟩ := EmbeddedBackend.restoreDocuments_ok (fun k a ha => by cases ha) hdocuments
  -- The base has a dimension only by a row, and the row is of a chunk of one of the documents.
  obtain ⟨row,hrow⟩ := List.exists_mem_of_ne_nil _ fun hnil : liveRows (checkpoint.documents.map
    fun entry => (entry.prepared.key,entry)) = [] => hzero (by rw [hnil]; rfl)
  obtain ⟨x,hx,rfl⟩ := List.mem_map.mp hrow
  obtain ⟨hx,hne⟩ := List.mem_filter.mp hx
  obtain ⟨entry,hentry,hx⟩ := List.mem_flatMap.mp hx
  obtain ⟨a,ha,rfl⟩ := List.mem_map.mp hentry
  obtain ⟨c,hc,rfl⟩ := List.mem_map.mp hx
  exact ⟨⟨a.prepared.key,a,c⟩,
    mem_liveChunks.mpr ⟨(hfind _ _).mpr (Or.inr ⟨ha,rfl⟩),hc⟩,of_decide_eq_true hne⟩

lemma sound_reopened {file : Option Bytes} (h : reopen p file = .ok b) : Sound b := by
  have hrestorable := (analysis_reopened h).1
  cases file with
  | none =>
    cases h
    exact sound_start
  | some file =>
    obtain ⟨checkpoint,-,hrestore⟩ := bind_eq_ok.mp h
    exact ⟨hrestorable,EmbeddedBackend.coherent_restored hrestore,base_of_restored hrestore⟩

end invariant

section run

variable {index : MobileIndex p} {prepared : Prepared} {during : During} {next : PortableBackend p}

/-- An activation that nothing interrupts is that of the backend, maybe with a compaction. -/
lemma activate_eq_ok : index.activate prepared during = .ok next ↔
    during.activation = none ∧ prepared.finite = true ∧
      ∃ c, index.backend.activate prepared.document (index.nextRevision prepared.document.key) =
          (.ok (),c) ∧
        next = if during.maintained then (c.compact false).2 else c := by
  unfold MobileIndex.activate
  cases during.activation with
  | some what =>
    constructor
    · intro h
      cases h
    · rintro ⟨h,-⟩
      cases h
  | none =>
    cases prepared.finite with
    | false =>
      constructor
      · intro h
        cases h
      · rintro ⟨-,h,-⟩
        cases h
    | true =>
      rcases index.backend.activate prepared.document
        (index.nextRevision prepared.document.key) with ⟨e | u,c⟩
      · constructor
        · intro h
          cases h
        · rintro ⟨-,-,_,h,-⟩
          cases h
      · constructor
        · intro h
          exact ⟨rfl,rfl,c,rfl,(Except.ok.inj h).symm⟩
        · rintro ⟨-,-,_,h,rfl⟩
          cases h
          rfl

/-- A call that prepared a document has a vector for each chunk where the base has a dimension. -/
lemma MobileIndex.Takes.embedded {dimension : ℕ} (h : index.Takes prepared dimension)
    (hsound : Sound index.backend) (hfinite : prepared.finite = true)
    (hbase : index.backend.active.dense.base.dimension ≠ 0) :
    dimension = index.backend.active.dense.base.dimension ∧
      ∃ c ∈ prepared.document.chunks, c.embedding ≠ [] := by
  obtain ⟨hsize,hsame⟩ := hsound.base.resolve_left hbase
  have hdimension : dimension = index.backend.active.dense.base.dimension :=
    (hsame.trans (h.active.resolve_left hsize)).symm
  refine ⟨hdimension,?_⟩
  obtain ⟨c,hc⟩ := List.exists_mem_of_ne_nil _ (h.present (hdimension ▸ hbase))
  refine ⟨c,hc,fun hnil => hbase ?_⟩
  rw [← hdimension,← h.vectors hfinite c hc,hnil,List.length_nil]

lemma prepared_eq_ok {call : Upsert} (h : index.prepared call during = .ok prepared) :
    index.prepare call = .ok prepared := by
  unfold MobileIndex.prepared at h
  split at h
  · cases h
  · exact h

lemma Sound.activated {call : Upsert} (h : Sound index.backend)
    (hprepared : index.prepare call = .ok prepared)
    (hnew : index.holds prepared.document = false)
    (hok : index.activate prepared during = .ok next) : Sound next := by
  obtain ⟨-,hfinite,c,hactivate,rfl⟩ := activate_eq_ok.mp hok
  obtain ⟨_,_,_,-,hfrom⟩ := prepare_ok hprepared
  obtain ⟨dimension,htakes⟩ := prepare_takes hprepared
  have hc : Sound c := h.activate hactivate (holds_eq_false.mp hnew) hfrom.typed
    (nextRevision_lt _ _) fun hbase => (htakes.embedded h hfinite hbase).2
  split_ifs
  · exact hc.compact false
  · exact hc

lemma sound_publish (index : MobileIndex p) (h : Sound index.backend)
    (fault : Option PublicationFault) : Sound (index.publish fault).2.backend := by
  obtain ⟨file,-,-,hpublish⟩ | ⟨-,hbackend,-⟩ := publish_cases index fault
  · rw [hpublish]
    exact ⟨⟨h.restorable.filed,h.restorable.generated,h.restorable.typed,h.restorable.revisions⟩,
      h.coherent,h.base⟩
  · rw [hbackend]
    exact h

lemma Sound.upsert (h : Sound index.backend) (call : Upsert) (during : During) :
    Sound (index.upsert call during).2.backend := by
  cases hprepared : index.prepared call during with
  | error what =>
    unfold MobileIndex.upsert
    rw [hprepared]
    exact h
  | ok prepared =>
    cases hheld : index.holds prepared.document with
    | true =>
      rw [upsert_held hprepared hheld]
      exact h
    | false =>
      cases hok : index.activate prepared during with
      | error what =>
        rw [upsert_refused hprepared hheld hok]
        exact h
      | ok next =>
        rw [upsert_activated hprepared hheld hok]
        exact sound_publish ⟨next,index.file⟩
          (h.activated (prepared_eq_ok hprepared) hheld hok) during.publication

/-- Whatever fails in a run, the backend stays in order. -/
lemma sound_of_run {file : Option Bytes} {opened now : MobileIndex p} {events : List Event}
    (hopen : mobileOpen p file = .ok opened)
    (hrun : Machine.run step opened events = some now) : Sound now.backend := by
  obtain ⟨b,hreopen,hopened⟩ := bind_eq_ok.mp hopen
  cases hopened
  refine Machine.run_invariant' (I := fun index : MobileIndex p => Sound index.backend) ?_
    (sound_reopened hreopen) hrun
  intro index e after h hstep
  cases e with
  | upsert call during =>
    cases hstep
    exact h.upsert call during
  | maintain =>
    cases hstep
    exact h.compact false

end run

section revision

variable {index : MobileIndex p} {prepared : Prepared}

lemma nextRevision_of_active {key : Bytes} {a : ActiveDocument}
    (h : index.backend.active.documents.find? key = some a) :
    index.nextRevision key = (a.revision+1) % 2^64 := by
  unfold MobileIndex.nextRevision MobileIndex.documentState
  rw [h]
  rfl

lemma nextRevision_of_inactive {key : Bytes}
    (h : index.backend.active.documents.find? key = none) : index.nextRevision key = 1 := by
  unfold MobileIndex.nextRevision MobileIndex.documentState
  rw [h]
  rfl

/-- The revision that is picked is above the recorded one exactly for a document that was not erased
and whose revision can be counted on. -/
lemma above_iff (h : Sound index.backend) (key : Bytes) :
    (∀ latest, index.backend.latestRevisions.find? key = some latest →
      latest < index.nextRevision key) ↔
    (∀ latest, index.backend.latestRevisions.find? key = some latest →
      ∃ a, index.backend.active.documents.find? key = some a) ∧
    ∀ a, index.backend.active.documents.find? key = some a → a.revision + 1 < 2^64 := by
  constructor
  · intro habove
    constructor
    · intro latest hlatest
      by_contra hnone
      push Not at hnone
      have hlt := habove latest hlatest
      rw [nextRevision_of_inactive (Option.eq_none_iff_forall_ne_some.mpr hnone)] at hlt
      exact (h.coherent.revisions key latest hlatest).2 (Nat.lt_one_iff.mp hlt)
    · intro a ha
      have hlatest := (h.coherent.documents key a ha).2.2
      have hlt := habove a.revision hlatest
      have hold : a.revision < 2^64 :=
        h.restorable.revisions (key,a.revision) (OrdMap.find?_eq_some.mp hlatest)
      rw [nextRevision_of_active ha] at hlt
      by_contra hlast
      have hwrap : a.revision + 1 = 2^64 := le_antisymm hold (not_lt.mp hlast)
      rw [hwrap,Nat.mod_self] at hlt
      exact absurd hlt (Nat.not_lt_zero _)
  · rintro ⟨hactive,hroom⟩ latest hlatest
    obtain ⟨a,ha⟩ := hactive latest hlatest
    have hsame := (h.coherent.documents key a ha).2.2
    cases hlatest.symm.trans hsame
    rw [nextRevision_of_active ha,Nat.mod_eq_of_lt (hroom a ha)]
    exact Nat.lt_succ_self _

lemma nextRevision_ne_zero (key : Bytes)
    (hroom : ∀ a, index.backend.active.documents.find? key = some a → a.revision + 1 < 2^64) :
    index.nextRevision key ≠ 0 := by
  cases ha : index.backend.active.documents.find? key with
  | none =>
    rw [nextRevision_of_inactive ha]
    exact one_ne_zero
  | some a =>
    rw [nextRevision_of_active ha,Nat.mod_eq_of_lt (hroom a ha)]
    exact Nat.succ_ne_zero _

end revision

section acceptance

variable {index : MobileIndex p} {prepared : Prepared} {during : During} {next : PortableBackend p}
  {dimension : ℕ}

/-- The keys of the chunks that are active once the document is. -/
lemma chunkKeys_perm (index : MobileIndex p) (document : PreparedDocument) (revision : ℕ) :
    ((liveChunks (index.backend.active.documents.insert document.key
      ⟨revision,document⟩).entries).map fun x => x.chunk.key).Perm (index.chunkKeys document) := by
  refine (((OrdMap.entries_insert_perm _ _ _).flatMap_right chunksOf).map _).trans ?_
  rw [List.flatMap_cons,List.map_append,chunksOf,List.map_map]
  exact List.Perm.refl _

/-- The vectors of the active chunks are of one dimension once the document is active. -/
lemma MobileIndex.Takes.uniform (htakes : index.Takes prepared dimension)
    (h : Sound index.backend) (hfinite : prepared.finite = true) (revision : ℕ) :
    ∀ x ∈ liveChunks (index.backend.active.documents.insert prepared.document.key
      ⟨revision,prepared.document⟩).entries, x.chunk.embedding.length = dimension := by
  intro x hx
  obtain ⟨-,hchunk⟩ | ⟨-,hlive⟩ := live_insert hx
  · exact htakes.vectors hfinite x.chunk hchunk
  · obtain ⟨_,_,_,hgenerated⟩ := h.restorable.generated
    have hbuilt := buildGeneration_ok hgenerated
    have hsize : index.backend.active.chunks.size ≠ 0 := by
      rw [hbuilt.size]
      exact (List.length_pos_of_mem hlive).ne'
    rw [← htakes.active.resolve_left hsize]
    obtain hnone | hall := hbuilt.uniform
    · rw [hnone x hlive,List.length_nil,buildGeneration_zero hgenerated hnone]
    · exact hbuilt.dimension x hlive (hall x hlive)

/-- The next generation can be built of a document that goes with the others. -/
lemma build_admissible (h : Sound index.backend) (htakes : index.Takes prepared dimension)
    (hmatches : index.Matches prepared.document) (hadmissible : index.Admissible prepared)
    {revision : ℕ} (hrevision : revision ≠ 0) : ∃ g, buildGeneration index.backend.analysis
      (index.backend.active.documents.insert prepared.document.key ⟨revision,prepared.document⟩)
      index.backend.active.dense
      (insert prepared.document.key index.backend.active.deltaDocuments)
      (index.backend.tombstonesAfter prepared.document.key
        (prepared.document.chunks.map PreparedChunk.key))
      (index.backend.active.number+1) = .ok g := by
  have hkeys := chunkKeys_perm index prepared.document revision
  have huniform := htakes.uniform h hadmissible.finite revision
  have hsame : ∀ e ∈ (index.backend.active.documents.insert prepared.document.key
      ⟨revision,prepared.document⟩).entries,
      e.2.prepared.chunkingFingerprint = prepared.document.chunkingFingerprint ∧
        e.2.prepared.embeddingIdentity = prepared.document.embeddingIdentity := by
    intro e he
    have hfind := OrdMap.find?_eq_some.mpr he
    rw [OrdMap.find?_insert] at hfind
    split_ifs at hfind with hkey
    · rw [← Option.some.inj hfind]
      exact ⟨rfl,rfl⟩
    · exact hmatches e.1 e.2 hfind hkey
  have hnodup := hkeys.nodup_iff.mpr hadmissible.keys
  have hembedded : (∀ x ∈ liveChunks (index.backend.active.documents.insert prepared.document.key
        ⟨revision,prepared.document⟩).entries, x.chunk.embedding = []) ∨
      ∀ x ∈ liveChunks (index.backend.active.documents.insert prepared.document.key
        ⟨revision,prepared.document⟩).entries,
        x.chunk.embedding ≠ [] ∧ x.chunk.embedding.length = dimension := by
    by_cases hzero : dimension = 0
    · exact Or.inl fun x hx => List.eq_nil_of_length_eq_zero ((huniform x hx).trans hzero)
    · refine Or.inr fun x hx => ⟨fun hnil => hzero ?_,huniform x hx⟩
      rw [← huniform x hx,hnil,List.length_nil]
  refine buildGeneration_of hsame hnodup ?_ hembedded ?_
  · have hcount := hadmissible.count
    rwa [← hkeys.length_eq,List.length_map] at hcount
  · intro d hd hnone
    obtain ⟨hsub,hsubset⟩ := EmbeddedBackend.tombstonesAfter_subset
      h.restorable.durable.formed.tombstones prepared.document.key
      (prepared.document.chunks.map PreparedChunk.key)
    have hfiled := h.restorable.filed.insert hadmissible.valid hrevision
    refine hfiled.withDelta hnodup _ hsubset hsub hd ?_
    by_cases hbase : index.backend.active.dense.base.dimension = 0
    · exact Or.inl hbase
    · right
      obtain ⟨hdimension,chunk,hchunk,hne⟩ := htakes.embedded h hadmissible.finite hbase
      have hlive : (⟨prepared.document.key,⟨revision,prepared.document⟩,chunk⟩ : LiveChunk) ∈
          liveChunks (index.backend.active.documents.insert prepared.document.key
            ⟨revision,prepared.document⟩).entries :=
        mem_liveChunks.mpr ⟨by rw [OrdMap.find?_insert,if_pos rfl],hchunk⟩
      right
      rw [← hd _ hlive hne,← hdimension]
      exact (huniform _ hlive).symm

/-- The backend accepts a document that goes with the others. -/
lemma activate_admissible (h : Sound index.backend) (htakes : index.Takes prepared dimension)
    (hmatches : index.Matches prepared.document) (hadmissible : index.Admissible prepared)
    (hquiet : during.activation = none) : ∃ next, index.activate prepared during = .ok next ∧
      next.active.Searchable ⟨index.nextRevision prepared.document.key,prepared.document⟩ := by
  have habove := (above_iff h _).mpr ⟨hadmissible.active,hadmissible.room⟩
  have hrevision := nextRevision_ne_zero _ hadmissible.room
  have hfresh : index.backend.stale prepared.document.key
      (index.nextRevision prepared.document.key) = false :=
    (CatalogBackend.stale_eq_false (b := index.backend.catalog)).mpr habove
  obtain ⟨g,hbuild⟩ := build_admissible h htakes hmatches hadmissible hrevision
  have hactivate := EmbeddedBackend.activate_of_build hadmissible.valid hrevision hfresh hbuild
  have hsearchable := EmbeddedBackend.searchable_activated (buildGeneration_ok hbuild)
  refine ⟨_,activate_eq_ok.mpr ⟨hquiet,hadmissible.finite,_,hactivate,rfl⟩,?_⟩
  split_ifs
  · exact EmbeddedBackend.searchable_compacted hsearchable false
  · exact hsearchable

/-- What the backend accepts under a revision above the recorded one goes with the others. -/
lemma admissible_of_accepted (h : Sound index.backend)
    (habove : ∀ latest, index.backend.latestRevisions.find? prepared.document.key = some latest →
      latest < index.nextRevision prepared.document.key)
    (hok : index.activate prepared during = .ok next) : index.Admissible prepared := by
  obtain ⟨hactive,hroom⟩ := (above_iff h _).mp habove
  obtain ⟨-,hfinite,c,hactivate,-⟩ := activate_eq_ok.mp hok
  have hcases := index.backend.activate_activated prepared.document
    (index.nextRevision prepared.document.key)
  rw [hactivate] at hcases
  cases hcases with
  | already halready =>
    obtain ⟨hlatest,-⟩ :=
      (CatalogBackend.alreadyActive_eq_true (b := index.backend.catalog)).mp halready
    exact absurd (habove _ hlatest) (lt_irrefl _)
  | published hvalid _ _ g hbuilt =>
    have hkeys := chunkKeys_perm index prepared.document
      (index.nextRevision prepared.document.key)
    refine ⟨hactive,hroom,hfinite,hvalid,hkeys.nodup_iff.mp hbuilt.keys,?_⟩
    rw [← hkeys.length_eq,List.length_map]
    exact hbuilt.count

lemma publish_active (index : MobileIndex p) (fault : Option PublicationFault) :
    (index.publish fault).2.backend.active = index.backend.active := by
  obtain ⟨file,-,-,hpublish⟩ | ⟨-,hbackend,-⟩ := publish_cases index fault
  · rw [hpublish]
  · rw [hbackend]

end acceptance

/-- After any run on a file that was opened, a call for a document that fits the others picks a
fresh revision exactly if the document is admissible. -/
theorem freshens_iff {file : Option Bytes} {opened now : MobileIndex p} {events : List Event}
    (hopen : mobileOpen p file = .ok opened) (hrun : Machine.run step opened events = some now)
    {call : Upsert} {during : During} {prepared : Prepared}
    (hprepared : now.prepared call during = .ok prepared) (hquiet : during.activation = none)
    (hmatches : now.Matches prepared.document) (hnew : now.holds prepared.document = false) :
    now.Freshens call prepared during ↔ now.Admissible prepared := by
  have hsound := sound_of_run hopen hrun
  constructor
  · intro h
    obtain ⟨next,hok⟩ := h.accepted
    exact admissible_of_accepted hsound h.above hok
  · intro hadmissible
    obtain ⟨dimension,htakes⟩ := prepare_takes (prepared_eq_ok hprepared)
    obtain ⟨next,hok,hsearchable⟩ := activate_admissible hsound htakes hmatches hadmissible hquiet
    refine ⟨(above_iff hsound _).mpr ⟨hadmissible.active,hadmissible.room⟩,⟨next,hok⟩,?_⟩
    rw [upsert_activated hprepared hnew hok,publish_active]
    exact hsearchable

section erased

/-- The letter is prepared as a document that a backend takes. -/
lemma prepared_letter : ∃ prepared, emptyIndex.prepare letterCall = .ok prepared ∧
    prepared.document.key = ascii ['a'] ∧ prepared.finite = true ∧
    ValidDocument prepared.document ∧ prepared.document.chunks.length ≤ uint32Max := by
  have hchecked : (emptyIndex.prepare letterCall).toOption.any (fun prepared =>
      decide (prepared.document.key = ascii ['a'] ∧ prepared.finite = true ∧
        validate prepared.document 1 = .ok () ∧
        prepared.document.chunks.length ≤ uint32Max)) = true := by
    decide +kernel
  cases hprepare : emptyIndex.prepare letterCall with
  | error what =>
    rw [hprepare] at hchecked
    cases hchecked
  | ok prepared =>
    rw [hprepare] at hchecked
    obtain ⟨hkey,hfinite,hvalid,hcount⟩ := of_decide_eq_true hchecked
    exact ⟨prepared,rfl,hkey,hfinite,(validate_eq_ok.mp hvalid).1,hcount⟩

theorem letter_freshens : ∃ prepared, emptyIndex.prepared letterCall {} = .ok prepared ∧
    emptyIndex.Freshens letterCall prepared {} := by
  obtain ⟨prepared,hprepare,-,hfinite,hvalid,hcount⟩ := prepared_letter
  have hadmissible : emptyIndex.Admissible prepared := by
    refine ⟨fun latest h => ?_,fun a h => ?_,hfinite,hvalid,?_,?_⟩
    · cases h
    · cases h
    · change (prepared.document.chunks.map PreparedChunk.key ++ []).Nodup
      rw [List.append_nil]
      exact hvalid.keys
    · change (prepared.document.chunks.map PreparedChunk.key ++ []).length ≤ uint32Max
      rwa [List.append_nil,List.length_map]
  have hrun : Machine.run step emptyIndex [] = some emptyIndex := rfl
  have hcall : emptyIndex.prepared letterCall {} = .ok prepared := hprepare
  exact ⟨prepared,hcall,(freshens_iff open_empty hrun hcall rfl (fun key a h => by cases h) rfl).mpr
    hadmissible⟩

/-- The backend of an engine that has written a document and erased it. -/
def erasedLetter : PortableBackend plainPlatform :=
  ((emptyIndex.upsert letterCall {}).2.backend.erase (ascii ['a']) 2).2

/-- The document is gone and its revision is kept, and this is saved. -/
lemma erasedLetter_spec : erasedLetter.active.documents = ∅ ∧
    erasedLetter.latestRevisions.find? (ascii ['a']) = some 2 ∧
    ∃ file, EmbeddedCheckpointStore.save plainPlatform.idf plainPlatform.hash
      (erasedLetter.snapshot 0) = .ok file := by
  obtain ⟨hgone,hrecorded,hsaved⟩ : erasedLetter.active.documents = ∅ ∧
      erasedLetter.latestRevisions.find? (ascii ['a']) = some 2 ∧
      (EmbeddedCheckpointStore.save plainPlatform.idf plainPlatform.hash
        (erasedLetter.snapshot 0)).isOk = true := by
    decide +kernel
  refine ⟨hgone,hrecorded,?_⟩
  cases hsave : EmbeddedCheckpointStore.save plainPlatform.idf plainPlatform.hash
      (erasedLetter.snapshot 0) with
  | error e =>
    rw [hsave] at hsaved
    cases hsaved
  | ok file => exact ⟨file,rfl⟩

lemma restorable_erasedLetter :
    erasedLetter.Restorable ∧ erasedLetter.analysis = plainPlatform.analysis := by
  have hsynced := synced_upsert (synced_opened open_empty) admits_letter
  unfold erasedLetter
  rw [← hsynced.analysis]
  exact ⟨hsynced.restorable.erase (ascii ['a']) (by norm_num),EmbeddedBackend.analysis_erase _ _ _⟩

/-- A checkpoint that holds an erased document is opened, and the document cannot be written again:
the first revision is picked, the second is recorded. -/
theorem erased_refused : ∃ file index, EmbeddedCheckpointStore.save plainPlatform.idf
      plainPlatform.hash (erasedLetter.snapshot 0) = .ok file ∧
    mobileOpen plainPlatform (some file) = .ok index ∧
    (index.upsert letterCall {}).1 = .error "document revision is stale" ∧
    ¬∀ (opened now : MobileIndex plainPlatform) (events : List Event) (call : Upsert)
      (during : During) (prepared : Prepared), mobileOpen plainPlatform (some file) = .ok opened →
        Machine.run step opened events = some now →
        now.prepared call during = .ok prepared → during.activation = none →
        now.Matches prepared.document → now.holds prepared.document = false →
        now.Freshens call prepared during := by
  obtain ⟨hgone,hrecorded,file,hsave⟩ := erasedLetter_spec
  obtain ⟨hrestorable,hanalysis⟩ := restorable_erasedLetter
  obtain ⟨c,hreopen,halike⟩ := reopen_published hrestorable hanalysis hsave (by
    rw [hgone]
    decide)
  have hdocuments : c.active.documents = ∅ := halike.documents.trans hgone
  have hlatest : c.latestRevisions.find? (ascii ['a']) = some 2 := by
    rw [halike.revisions]
    exact hrecorded
  have hopen : mobileOpen plainPlatform (some file) = .ok ⟨c,some file⟩ :=
    bind_eq_ok.mpr ⟨c,hreopen,rfl⟩
  generalize hindex : (⟨c,some file⟩ : MobileIndex plainPlatform) = index at hopen
  have hbackend : index.backend = c := by rw [← hindex]
  have hsize : index.backend.active.chunks.size = 0 := by
    obtain ⟨_,_,_,hgenerated⟩ := (analysis_reopened hreopen).1.generated
    rw [hbackend,(buildGeneration_ok hgenerated).size,hdocuments]
    rfl
  have hprepare : index.prepare letterCall = emptyIndex.prepare letterCall := by
    have hmode : requirePortableMode index.backend false 0 = .ok () := if_pos hsize
    change prepareLexical index (some (ascii ['a'])) (some (ascii ['t'])) (some (ascii ['x'])) =
      prepareLexical emptyIndex (some (ascii ['a'])) (some (ascii ['t'])) (some (ascii ['x']))
    unfold prepareLexical
    dsimp only
    rw [hmode]
    rfl
  obtain ⟨prepared,hprepared,hkey,hfinite,hvalid,-⟩ := prepared_letter
  have hcall : index.prepared letterCall {} = .ok prepared := hprepare.trans hprepared
  have hnone : index.backend.active.documents.find? prepared.document.key = none := by
    rw [hbackend,hdocuments]
    rfl
  have hrevision := nextRevision_of_inactive hnone
  have hheld : index.holds prepared.document = false :=
    holds_eq_false.mpr fun a ha => absurd (hnone.symm.trans ha) (Option.some_ne_none a).symm
  refine ⟨file,index,hsave,hopen,?_,?_⟩
  · have hstale : index.backend.stale prepared.document.key 1 = true := by
      rw [EmbeddedBackend.stale,hbackend,hkey,hlatest]
      rfl
    have hfst := EmbeddedBackend.activate_fst_of_stale hvalid one_ne_zero hstale
    have hnot : index.backend.alreadyActive prepared.document 1 = false := by
      rw [EmbeddedBackend.alreadyActive,hnone]
    rw [hnot,if_neg Bool.false_ne_true] at hfst
    have hrefused : index.activate prepared {} = .error "document revision is stale" := by
      unfold MobileIndex.activate
      rw [hfinite,hrevision]
      rcases hactivate : index.backend.activate prepared.document 1 with ⟨result,next⟩
      rw [hactivate] at hfst
      cases hfst
      rfl
    rw [upsert_refused hcall hheld hrefused]
  · intro hclaim
    have hfresh := hclaim index index [] letterCall {} prepared hopen rfl hcall rfl
      (fun key a ha => by rw [hbackend,hdocuments] at ha; cases ha) hheld
    have habove := hfresh.above 2 (by rw [hbackend,hkey,hlatest])
    rw [hrevision] at habove
    exact absurd habove (by decide)

end erased

end RagRuntime.Mobile
