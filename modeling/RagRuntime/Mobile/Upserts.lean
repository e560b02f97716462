import RagRuntime.Backend.RoundTrip
import RagRuntime.Base.Machine
import RagRuntime.Mobile.PortableIndex

/-! Upserts of a mobile client over whole runs: what a call leaves where it fails, and what can be
read back where it does not. -/
namespace RagRuntime.Mobile
open RagRuntime.Base RagRuntime.Core RagRuntime.Store RagRuntime.Text RagRuntime.Lexical
  RagRuntime.Index RagRuntime.Dense RagRuntime.Backend RagRuntime.Preparation

variable {p : Platform}

/-- The document, the title and the content that a call names. -/
def Upsert.named : Upsert → Option (Bytes × Bytes × Bytes)
  | .lexical (some documentId) (some title) (some content) => some (documentId,title,content)
  | .vectors (some documentId) (some title) (some content) _ _ _ => some (documentId,title,content)
  | _ => none

section prepared

/-- What a document is prepared from. -/
structure PreparedFrom (document : PreparedDocument) (documentId title content : Bytes) : Prop where
  key : document.key = documentId
  title : document.title = title
  content : document.content = normalizeSourceText content
  typed : document.WellTyped

lemma prepareChunk_lines (key : Bytes) (i : ℕ) {chunk : Chunk}
    (h : chunk.startLine < 2^32 ∧ chunk.endLine < 2^32) :
    (prepareChunk key i chunk).startLine < 256^4 ∧ (prepareChunk key i chunk).endLine < 256^4 :=
  ⟨by simpa [prepareChunk] using h.1,by simpa [prepareChunk] using h.2⟩

lemma prepareChunks_ok {documentId content title : Bytes} {metadata : Metadata}
    {options : ChunkOptions} {document : PreparedDocument}
    (h : prepareChunks documentId content metadata title options = .ok document) :
    PreparedFrom document documentId title content := by
  unfold prepareChunks at h
  split_ifs at h
  · cases h
  · cases h
  · cases h
    refine ⟨rfl,rfl,rfl,?_⟩
    intro chunk hchunk
    obtain ⟨i,hi,rfl⟩ := List.mem_mapIdx.mp hchunk
    obtain ⟨hstart,hend⟩ := prepareChunk_lines documentId i
      (chunkDocument_narrow _ (List.getElem_mem hi))
    exact ⟨hstart,hend,fun x hx => absurd hx List.not_mem_nil⟩

/-- The values of a scaled vector are of single precision. -/
lemma floats_normalizedVector {sqrt : ℚ → ℚ} {values : List (Option ℚ)} {v : Vec}
    (h : normalizedVector sqrt values = .ok (some v)) : ∀ x ∈ v, Single.IsFloat x := by
  unfold normalizedVector at h
  split at h
  · cases h
  · split_ifs at h
    obtain ⟨inverse,-,hscaled⟩ := Option.bind_eq_some_iff.mp (Except.ok.inj h)
    intro x hx
    obtain ⟨y,-,hy⟩ := exists_of_forall₂ (mapM_eq_some.mp hscaled) hx
    exact Single.isFloat_round hy

lemma PreparedFrom.withVectors {document : PreparedDocument} {documentId title content : Bytes}
    (h : PreparedFrom document documentId title content) (dimension : ℕ)
    {vectors : List (Option Vec)}
    (hfloats : ∀ v, some v ∈ vectors → ∀ x ∈ v, Single.IsFloat x) :
    PreparedFrom (Mobile.withVectors document dimension vectors).document documentId title
      content := by
  refine ⟨h.key,h.title,h.content,?_⟩
  intro chunk hchunk
  rw [Mobile.withVectors,← List.map_uncurry_zip_eq_zipWith] at hchunk
  obtain ⟨row,hrow,rfl⟩ := List.mem_map.mp hchunk
  obtain ⟨hold,hvector⟩ := List.of_mem_zip (a := row.1) (b := row.2) hrow
  obtain ⟨hstart,hend,-⟩ := h.typed row.1 hold
  refine ⟨hstart,hend,?_⟩
  cases hv : row.2 with
  | none =>
    intro x hx
    simp [Function.uncurry,hv] at hx
  | some v =>
    rw [hv] at hvector
    intro x hx
    simp only [Function.uncurry,hv,Option.getD_some] at hx
    exact hfloats v hvector x hx

lemma mapError_ok {α : Type} {x : Result α} {a : α} (h : x.mapError Error.message = .ok a) :
    x = .ok a := by
  cases x with
  | error e => cases h
  | ok b =>
    cases h
    rfl

/-- What a call prepares, it prepares from what it names. -/
lemma prepare_ok {index : MobileIndex p} {call : Upsert} {prepared : Prepared}
    (h : index.prepare call = .ok prepared) : ∃ documentId title content,
      call.named = some (documentId,title,content) ∧
        PreparedFrom prepared.document documentId title content := by
  cases call with
  | lexical documentId title content =>
    change prepareLexical index documentId title content = _ at h
    unfold prepareLexical at h
    split at h
    · obtain ⟨_,-,h⟩ := bind_eq_ok.mp h
      obtain ⟨document,hdocument,h⟩ := bind_eq_ok.mp h
      cases h
      obtain ⟨document',hchunks,hsame⟩ := bind_eq_ok.mp (mapError_ok hdocument)
      cases hsame
      exact ⟨_,_,_,rfl,prepareChunks_ok hchunks⟩
    · cases h
  | vectors documentId title content embeddings count dimension =>
    change prepareVectors index documentId title content embeddings count dimension = _ at h
    unfold prepareVectors at h
    split at h
    · split_ifs at h
      dsimp only at h
      split_ifs at h
      obtain ⟨_,-,h⟩ := bind_eq_ok.mp h
      obtain ⟨document,hdocument,h⟩ := bind_eq_ok.mp h
      split_ifs at h
      obtain ⟨vectors,hvectors,h⟩ := bind_eq_ok.mp h
      cases h
      have hfrom := prepareChunks_ok (mapError_ok hdocument)
      refine ⟨_,_,_,rfl,PreparedFrom.withVectors
        ⟨hfrom.key,hfrom.title,hfrom.content.trans (normalizeSourceText_idem _),hfrom.typed⟩
          dimension ?_⟩
      intro v hv
      obtain ⟨position,-,hposition⟩ := exists_of_forall₂ (mapM_eq_ok.mp hvectors) hv
      exact floats_normalizedVector hposition
    · cases h

end prepared

section reopening

/-- What is at a path shows a document with a title and a content. -/
def Shows (p : Platform) (file : Option Bytes) (documentId title content : Bytes) : Prop :=
  ∃ b a, reopen p file = .ok b ∧ b.active.documents.find? documentId = some a ∧
    a.prepared.title = title ∧ a.prepared.content = normalizeSourceText content

/-- Opening the file gives the documents and revisions that are in memory. -/
structure Synced (index : MobileIndex p) : Prop where
  restorable : index.backend.Restorable
  shown : ∃ b, reopen p index.file = .ok b ∧ b.Alike index.backend

lemma analysis_reopened {file : Option Bytes} {b : PortableBackend p}
    (h : reopen p file = .ok b) : b.Restorable ∧ b.analysis = p.analysis := by
  cases file with
  | none =>
    cases h
    exact ⟨EmbeddedBackend.restorable_start _ _,rfl⟩
  | some file => exact EmbeddedBackend.restorable_opened h

lemma Synced.analysis {index : MobileIndex p} (h : Synced index) :
    index.backend.analysis = p.analysis := by
  obtain ⟨b,hopen,halike⟩ := h.shown
  exact halike.analysis.symm.trans (analysis_reopened hopen).2

lemma synced_opened {file : Option Bytes} {index : MobileIndex p}
    (h : mobileOpen p file = .ok index) : Synced index := by
  obtain ⟨b,hopen,h⟩ := bind_eq_ok.mp h
  cases h
  exact ⟨(analysis_reopened hopen).1,b,hopen,⟨rfl,rfl,rfl⟩⟩

/-- The vectors of a backend that is saved make a dense base. -/
lemma compact_live {b : PortableBackend p} (h : b.Restorable)
    (hsavable : EmbeddedCheckpointStore.Savable (b.snapshot 0)) :
    ∃ dense : TieredDenseIndex (GraphIndex p), TieredDenseIndex.compact
      (liveRows b.active.documents.entries)
      (NativeExactIndex.firstDimension (liveRows b.active.documents.entries)) {} = .ok dense := by
  obtain ⟨hrows,hdouble⟩ := h.rows_live
  have hvalid := hrows.firstDimension
  have hcount : (liveRows b.active.documents.entries).length < uint32Max := by
    have hchunks := hsavable.chunkCount
    change (EmbeddedCheckpointStore.rows b.active.documents.values).length ≤ kMaxChunks at hchunks
    rw [EmbeddedBackend.rows_values,List.length_map] at hchunks
    have hfilter := List.length_filter_le (fun x : LiveChunk => decide (x.chunk.embedding ≠ []))
      (liveChunks b.active.documents.entries)
    rw [liveRows,List.length_map]
    simp only [kMaxChunks] at hchunks
    simp only [uint32Max]
    omega
  generalize liveRows b.active.documents.entries = rows at hvalid hdouble hcount
  have hindex : ∃ index : DenseIndex (GraphIndex p), buildDenseIndex {} rows = .ok index := by
    by_cases hfew : rows.length < 2000
    · refine ⟨.exact ⟨rows,NativeExactIndex.firstDimension rows⟩,?_⟩
      have hbuild := NativeExactIndex.build_eq_ok.mpr ⟨hvalid,rfl⟩
      simp only [buildDenseIndex,resolveDenseAlgorithm,bind,Except.bind]
      simp [hfew,hbuild,pure,Except.pure]
    · obtain ⟨index,hbuild⟩ := (NativeHnswIndex.build_iff {} hvalid hdouble hcount p.similarity
        (p.wiring rows)).mpr rfl
      refine ⟨.approximate index,?_⟩
      have hgraph : ApproximateIndex.build (β := GraphIndex p) rows = .ok index := hbuild
      simp only [buildDenseIndex,resolveDenseAlgorithm,bind,Except.bind]
      simp [hfew,hgraph,pure,Except.pure]
  obtain ⟨index,hindex⟩ := hindex
  have hdims : (rows.any fun row => row.vector.length ≠ NativeExactIndex.firstDimension rows) =
      false := by
    rw [List.any_eq_false]
    intro row hrow
    simp [hvalid.dimension row hrow]
  unfold TieredDenseIndex.compact
  rw [hdims,if_neg Bool.false_ne_true,hindex]
  exact ⟨_,rfl⟩

variable {b : PortableBackend p} (h : b.Restorable) (hanalysis : b.analysis = p.analysis)
  {file : Bytes} (hsave : EmbeddedCheckpointStore.save p.idf p.hash (b.snapshot 0) = .ok file)
include h hanalysis hsave

/-- A file with not too many terms is opened as the backend that was published. -/
lemma reopen_published
    (hfew : (EmbeddedCheckpointStore.terms b.active.documents.values).card ≤ kMaxPostings) :
    ∃ c, reopen p (some file) = .ok c ∧ c.Alike b := by
  obtain ⟨c,hopen,halike⟩ := h.openCheckpoint p.readsMetadata p.idf p.hash p.order {} hsave hfew
    (compact_live h (EmbeddedBackend.savable_of_save hsave))
  rw [hanalysis] at hopen
  exact ⟨c,hopen,halike⟩

lemma reopen_published_iff : (∃ c, reopen p (some file) = .ok c) ↔
    (EmbeddedCheckpointStore.terms b.active.documents.values).card ≤ kMaxPostings := by
  constructor
  · rintro ⟨c,hopen⟩
    by_contra hmany
    exact h.openCheckpoint_crowded p.readsMetadata p.idf p.hash p.order {} hsave (not_le.mp hmany)
      p.analysis c hopen
  · intro hfew
    obtain ⟨c,hopen,-⟩ := reopen_published h hanalysis hsave hfew
    exact ⟨c,hopen⟩

end reopening

section step

variable {index : MobileIndex p} {prepared : Prepared} {during : During} {next : PortableBackend p}

lemma holds_eq_false {document : PreparedDocument} : index.holds document = false ↔
    ∀ a, index.backend.active.documents.find? document.key = some a →
      a.prepared.contentHash ≠ document.contentHash := by
  unfold MobileIndex.holds MobileIndex.documentState
  cases index.backend.active.documents.find? document.key with
  | none => simp
  | some a => simp

lemma nextRevision_lt (index : MobileIndex p) (key : Bytes) : index.nextRevision key < 256^8 := by
  unfold MobileIndex.nextRevision
  split
  · exact Nat.mod_lt _ (by positivity)
  · omega

/-- What an activation of a new document leaves to be published. -/
lemma activate_ok (h : index.backend.Restorable) (hnew : index.holds prepared.document = false)
    (htyped : prepared.document.WellTyped) (hok : index.activate prepared during = .ok next) :
    next.Restorable ∧ next.analysis = index.backend.analysis ∧
      next.active.documents.find? prepared.document.key =
        some ⟨index.nextRevision prepared.document.key,prepared.document⟩ := by
  unfold MobileIndex.activate at hok
  split at hok
  · cases hok
  · by_cases hfinite : prepared.finite = false
    · rw [if_pos hfinite] at hok
      cases hok
    rw [if_neg hfinite] at hok
    split at hok
    · cases hok
    · rename_i c hactivate
      have hnew' := holds_eq_false.mp hnew
      have hrestorable := h.activate hactivate hnew' htyped (nextRevision_lt _ _)
      obtain ⟨-,-,_,_,_,g,hbuild,rfl⟩ := EmbeddedBackend.activate_eq_ok hactivate hnew'
      have hfind : g.documents.find? prepared.document.key =
          some ⟨index.nextRevision prepared.document.key,prepared.document⟩ := by
        rw [(buildGeneration_ok hbuild).documents,OrdMap.find?_insert,if_pos rfl]
      cases hok
      split_ifs
      · have halike := EmbeddedBackend.compact_alike { index.backend with
          latestRevisions := index.backend.latestRevisions.insert prepared.document.key
            (index.nextRevision prepared.document.key)
          active := g } false
        exact ⟨hrestorable.compact false,halike.analysis,halike.documents ▸ hfind⟩
      · exact ⟨hrestorable,rfl,hfind⟩

/-- A checkpoint is published in the place of the file, or the publication fails. -/
lemma publish_cases (index : MobileIndex p) (fault : Option PublicationFault) :
    (∃ file, fault = none ∧
      EmbeddedCheckpointStore.save p.idf p.hash (index.backend.snapshot 0) = .ok file ∧
      index.publish fault =
        (.ok (),⟨{ index.backend with checkpointWalPosition := 0 },some file⟩)) ∨
    (∃ what, (index.publish fault).1 = .error what) ∧
      (index.publish fault).2.backend = index.backend ∧ ¬(fault = none ∧ ∃ file,
        EmbeddedCheckpointStore.save p.idf p.hash (index.backend.snapshot 0) = .ok file) := by
  unfold MobileIndex.publish
  cases hsave : EmbeddedCheckpointStore.save p.idf p.hash (index.backend.snapshot 0) with
  | error e =>
    right
    rcases fault with _ | _ | _ | _
    all_goals exact ⟨⟨_,rfl⟩,rfl,by simp⟩
  | ok file =>
    rcases fault with _ | _ | _ | _
    · exact Or.inl ⟨file,rfl,rfl,rfl⟩
    all_goals exact Or.inr ⟨⟨_,rfl⟩,rfl,by simp⟩

end step

section condition

/-- A call that fails changes nothing; after any other, what is at the path shows the document. -/
def Upholds (index : MobileIndex p) (call : Upsert) (during : During) : Prop :=
  match (index.upsert call during).1 with
  | .error _ => (index.upsert call during).2 = index
  | .ok _ => ∃ documentId title content, call.named = some (documentId,title,content) ∧
      Shows p (index.upsert call during).2.file documentId title content

/-- The checkpoint of a backend is written, and its texts have not too many terms. -/
def Publishable (backend : PortableBackend p) (fault : Option PublicationFault) : Prop :=
  (fault = none ∧
    ∃ file, EmbeddedCheckpointStore.save p.idf p.hash (backend.snapshot 0) = .ok file) ∧
  (EmbeddedCheckpointStore.terms backend.active.documents.values).card ≤ kMaxPostings

/-- A document whose hash is that of the active one has its title and content, and one that is
activated is published. -/
def Admits (index : MobileIndex p) (call : Upsert) (during : During) : Prop :=
  ∀ prepared, index.prepared call during = .ok prepared →
    (∀ a, index.backend.active.documents.find? prepared.document.key = some a →
      a.prepared.contentHash = prepared.document.contentHash →
      a.prepared.title = prepared.document.title ∧
        a.prepared.content = prepared.document.content) ∧
    (index.holds prepared.document = false → ∀ next, index.activate prepared during = .ok next →
      Publishable next during.publication)

variable {index : MobileIndex p} {call : Upsert} {during : During}

lemma upholds_error {what : String} (h : (index.upsert call during).1 = .error what) :
    Upholds index call during ↔ (index.upsert call during).2 = index := by
  unfold Upholds
  rw [h]

lemma upholds_ok {unchanged : Bool} (h : (index.upsert call during).1 = .ok unchanged) :
    Upholds index call during ↔
      ∃ documentId title content, call.named = some (documentId,title,content) ∧
        Shows p (index.upsert call during).2.file documentId title content := by
  unfold Upholds
  rw [h]

section cases

variable {prepared : Prepared} (hprepared : index.prepared call during = .ok prepared)
include hprepared

lemma upsert_held (hheld : index.holds prepared.document = true) :
    index.upsert call during = (.ok true,index) := by
  unfold MobileIndex.upsert
  rw [hprepared]
  exact if_pos hheld

lemma upsert_refused {what : String} (hnew : index.holds prepared.document = false)
    (h : index.activate prepared during = .error what) :
    index.upsert call during = (.error what,index) := by
  unfold MobileIndex.upsert
  rw [hprepared]
  dsimp only
  rw [hnew,h]
  rfl

lemma upsert_activated {next : PortableBackend p} (hnew : index.holds prepared.document = false)
    (h : index.activate prepared during = .ok next) : index.upsert call during =
      (((⟨next,index.file⟩ : MobileIndex p).publish during.publication).1.map fun _ => false,
        ((⟨next,index.file⟩ : MobileIndex p).publish during.publication).2) := by
  unfold MobileIndex.upsert
  rw [hprepared]
  dsimp only
  rw [hnew,h]
  rfl

lemma named_of_prepared : ∃ documentId title content,
    call.named = some (documentId,title,content) ∧
      PreparedFrom prepared.document documentId title content := by
  unfold MobileIndex.prepared at hprepared
  split at hprepared
  · cases hprepared
  · exact prepare_ok hprepared

/-- A document that is held is shown, if what is held is that document. -/
lemma upholds_held (h : Synced index) (hheld : index.holds prepared.document = true) :
    Upholds index call during ↔ ∀ a,
      index.backend.active.documents.find? prepared.document.key = some a →
        a.prepared.contentHash = prepared.document.contentHash →
        a.prepared.title = prepared.document.title ∧
          a.prepared.content = prepared.document.content := by
  obtain ⟨documentId,title,content,hnamed,hfrom⟩ := named_of_prepared hprepared
  obtain ⟨b,hopen,halike⟩ := h.shown
  have hupsert := upsert_held hprepared hheld
  rw [upholds_ok (congrArg Prod.fst hupsert),hupsert]
  constructor
  · rintro ⟨documentId',title',content',hnamed',c,a,hopen',hfind,htitle,hcontent⟩ a' hfind' -
    cases hnamed.symm.trans hnamed'
    cases hopen.symm.trans hopen'
    rw [halike.documents,← hfrom.key,hfind'] at hfind
    cases hfind
    exact ⟨htitle.trans hfrom.title.symm,hcontent.trans hfrom.content.symm⟩
  · intro hsame
    have hsome : ∃ a, index.backend.active.documents.find? prepared.document.key = some a ∧
        a.prepared.contentHash = prepared.document.contentHash := by
      by_contra hnone
      push Not at hnone
      rw [holds_eq_false.mpr hnone] at hheld
      cases hheld
    obtain ⟨a,hfind,hhash⟩ := hsome
    obtain ⟨htitle,hcontent⟩ := hsame a hfind hhash
    refine ⟨documentId,title,content,hnamed,b,a,hopen,?_,htitle.trans hfrom.title,
      hcontent.trans hfrom.content⟩
    rw [halike.documents,← hfrom.key]
    exact hfind

/-- A document that is activated is shown, if it is published. -/
lemma upholds_activated (h : Synced index) {next : PortableBackend p}
    (hnew : index.holds prepared.document = false)
    (hok : index.activate prepared during = .ok next) :
    Upholds index call during ↔ Publishable next during.publication := by
  obtain ⟨documentId,title,content,hnamed,hfrom⟩ := named_of_prepared hprepared
  obtain ⟨hrestorable,hanalysis,hfind⟩ := activate_ok h.restorable hnew hfrom.typed hok
  have hupsert := upsert_activated hprepared hnew hok
  obtain ⟨file,hfault,hsave,hpublish⟩ | ⟨⟨what,herror⟩,hbackend,hfailed⟩ :=
    publish_cases (⟨next,index.file⟩ : MobileIndex p) during.publication
  · rw [hpublish] at hupsert
    have hpublishable : Publishable next during.publication ↔
        (EmbeddedCheckpointStore.terms next.active.documents.values).card ≤ kMaxPostings :=
      ⟨And.right,fun hfew => ⟨⟨hfault,file,hsave⟩,hfew⟩⟩
    have hreopen := reopen_published hrestorable (hanalysis.trans h.analysis) hsave
    rw [hpublishable,upholds_ok (congrArg Prod.fst hupsert),hupsert]
    constructor
    · rintro ⟨_,_,_,-,c,_,hopen,-⟩
      exact (reopen_published_iff hrestorable (hanalysis.trans h.analysis) hsave).mp ⟨c,hopen⟩
    · intro hfew
      obtain ⟨c,hopen,halike⟩ := hreopen hfew
      refine ⟨documentId,title,content,hnamed,c,
        ⟨index.nextRevision prepared.document.key,prepared.document⟩,hopen,?_,hfrom.title,
        hfrom.content⟩
      rw [halike.documents,← hfrom.key]
      exact hfind
  · have hfails : (index.upsert call during).1 = .error what := by
      rw [hupsert,herror]
      rfl
    rw [upholds_error hfails,hupsert]
    constructor
    · intro hsame
      -- The document is active now, and it was not before.
      have hnext : next = index.backend := hbackend.symm.trans (congrArg MobileIndex.backend hsame)
      rw [hnext] at hfind
      exact absurd rfl (holds_eq_false.mp hnew _ hfind)
    · exact fun hpublishable => absurd hpublishable.1 hfailed

end cases

/-- A call upholds what is promised exactly under the condition. -/
theorem upholds_iff (h : Synced index) (call : Upsert) (during : During) :
    Upholds index call during ↔ Admits index call during := by
  cases hprepared : index.prepared call during with
  | error what =>
    have hupsert : index.upsert call during = (.error what,index) := by
      unfold MobileIndex.upsert
      rw [hprepared]
    rw [upholds_error (congrArg Prod.fst hupsert),hupsert]
    refine ⟨?_,fun _ => rfl⟩
    intro _ prepared hok
    cases hprepared.symm.trans hok
  | ok prepared =>
    have hadmits : Admits index call during ↔
        (∀ a, index.backend.active.documents.find? prepared.document.key = some a →
          a.prepared.contentHash = prepared.document.contentHash →
          a.prepared.title = prepared.document.title ∧
            a.prepared.content = prepared.document.content) ∧
        (index.holds prepared.document = false → ∀ next,
          index.activate prepared during = .ok next → Publishable next during.publication) := by
      refine ⟨fun hadmits => hadmits prepared hprepared,?_⟩
      intro hboth prepared' hprepared'
      cases hprepared.symm.trans hprepared'
      exact hboth
    rw [hadmits]
    cases hheld : index.holds prepared.document with
    | true =>
      rw [upholds_held hprepared h hheld]
      simp
    | false =>
      have hother := holds_eq_false.mp hheld
      cases hok : index.activate prepared during with
      | error what =>
        have hupsert := upsert_refused hprepared hheld hok
        rw [upholds_error (congrArg Prod.fst hupsert),hupsert]
        refine ⟨fun _ => ⟨?_,fun _ next hnext => by cases hnext⟩,fun _ => rfl⟩
        exact fun a hfind hhash => absurd hhash (hother a hfind)
      | ok next =>
        rw [upholds_activated hprepared h hheld hok]
        constructor
        · intro hpublishable
          refine ⟨fun a hfind hhash => absurd hhash (hother a hfind),?_⟩
          intro _ next' hnext'
          cases hnext'
          exact hpublishable
        · exact fun hboth => hboth.2 rfl next rfl

lemma synced_upsert (h : Synced index) (hadmits : Admits index call during) :
    Synced (index.upsert call during).2 := by
  cases hprepared : index.prepared call during with
  | error what =>
    unfold MobileIndex.upsert
    rw [hprepared]
    exact h
  | ok prepared =>
    cases hheld : index.holds prepared.document with
    | true =>
      rw [upsert_held hprepared hheld]
      exact h
    | false =>
      cases hok : index.activate prepared during with
      | error what =>
        rw [upsert_refused hprepared hheld hok]
        exact h
      | ok next =>
        obtain ⟨documentId,title,content,-,hfrom⟩ := named_of_prepared hprepared
        obtain ⟨hrestorable,hanalysis,-⟩ := activate_ok h.restorable hheld hfrom.typed hok
        obtain ⟨⟨hfault,file,hsave⟩,hfew⟩ := (hadmits prepared hprepared).2 hheld next hok
        obtain ⟨c,hopen,halike⟩ := reopen_published hrestorable (hanalysis.trans h.analysis) hsave
          hfew
        have hpublish : (⟨next,index.file⟩ : MobileIndex p).publish during.publication =
            (.ok (),⟨{ next with checkpointWalPosition := 0 },some file⟩) := by
          unfold MobileIndex.publish
          rw [hfault]
          dsimp only
          rw [hsave]
        rw [upsert_activated hprepared hheld hok,hpublish]
        exact ⟨⟨hrestorable.filed,hrestorable.generated,hrestorable.typed,hrestorable.revisions⟩,c,
          hopen,⟨halike.analysis,halike.documents,halike.revisions⟩⟩

end condition

section run

/-- Calls of the client, and compactions by the maintenance thread between them. -/
inductive Event
  | upsert (call : Upsert) (during : During)
  | maintain

def step (index : MobileIndex p) : Event → Option (MobileIndex p)
  | .upsert call during => some (index.upsert call during).2
  | .maintain => some { index with backend := (index.backend.compact false).2 }

def Event.Upheld (index : MobileIndex p) : Event → Prop
  | .upsert call during => Upholds index call during
  | .maintain => True

def Event.Admitted (index : MobileIndex p) : Event → Prop
  | .upsert call during => Admits index call during
  | .maintain => True

lemma synced_step {index after : MobileIndex p} {e : Event} (h : Synced index)
    (hadmitted : e.Admitted index) (hstep : step index e = some after) : Synced after := by
  cases e with
  | upsert call during =>
    cases hstep
    exact synced_upsert h hadmitted
  | maintain =>
    cases hstep
    obtain ⟨b,hopen,halike⟩ := h.shown
    have hcompact := index.backend.compact_alike false
    exact ⟨h.restorable.compact false,b,hopen,halike.analysis.trans hcompact.analysis.symm,
      halike.documents.trans hcompact.documents.symm,halike.revisions.trans hcompact.revisions.symm⟩

lemma upheld_iff {index : MobileIndex p} (h : Synced index) (e : Event) :
    e.Upheld index ↔ e.Admitted index := by
  cases e with
  | upsert call during => exact upholds_iff h call during
  | maintain => exact Iff.rfl

/-- A run upholds what is promised at each call exactly if each call meets the condition. -/
theorem upserts_upheld_iff {file : Option Bytes} {index : MobileIndex p}
    (hopen : mobileOpen p file = .ok index) (events : List Event) :
    Machine.Meets step (fun index e => e.Upheld index) index events ↔
      Machine.Meets step (fun index e => e.Admitted index) index events := by
  have hsynced := synced_opened hopen
  constructor
  · exact Machine.meets_of_invariant
      (fun index e after h hupheld hstep => synced_step h ((upheld_iff h e).mp hupheld) hstep)
      (fun index e h => (upheld_iff h e).mp) hsynced
  · exact Machine.meets_of_invariant
      (fun index e after h hadmitted hstep => synced_step h hadmitted hstep)
      (fun index e h => (upheld_iff h e).mpr) hsynced

end run

section letter

def plainPlatform : Platform :=
  ⟨metadataParser,readsMetadata_metadataParser,fun _ _ => 0,keyOrder,Container.longestFirst,
    ⟨id,fun _ => dot,fun _ => dot⟩,fun _ => ⟨fun _ => [],0,0⟩,id⟩

def emptyIndex : MobileIndex plainPlatform :=
  ⟨EmbeddedBackend.start plainPlatform.analysis {},none⟩

lemma open_empty : mobileOpen plainPlatform none = .ok emptyIndex := rfl

/-- A document of one letter. -/
def letterCall : Upsert :=
  .lexical (some (ascii ['a'])) (some (ascii ['t'])) (some (ascii ['x']))

/-- The disk is full. -/
def fullDisk : During := { publication := some (.unwritten "write staging file") }

/-- The document is activated, written and has few terms. -/
lemma admits_letter : Admits emptyIndex letterCall {} := by
  intro prepared hprepared
  refine ⟨fun a hfind => (by cases hfind),?_⟩
  intro _ next hnext
  have hchecked : (emptyIndex.prepared letterCall {}).toOption.any (fun prepared =>
      (emptyIndex.activate prepared {}).toOption.any fun next =>
        (EmbeddedCheckpointStore.save plainPlatform.idf plainPlatform.hash
          (next.snapshot 0)).toOption.any fun _ =>
            decide ((EmbeddedCheckpointStore.terms next.active.documents.values).card ≤
              kMaxPostings)) = true := by
    decide +kernel
  rw [hprepared,Except.toOption,Option.any_some,hnext,Except.toOption,Option.any_some] at hchecked
  cases hsave : EmbeddedCheckpointStore.save plainPlatform.idf plainPlatform.hash
      (next.snapshot 0) with
  | error e =>
    rw [hsave] at hchecked
    cases hchecked
  | ok file =>
    rw [hsave] at hchecked
    exact ⟨⟨rfl,file,hsave⟩,of_decide_eq_true hchecked⟩

theorem letter_upheld :
    Machine.Meets step (fun index e => e.Upheld index) emptyIndex [.upsert letterCall {}] :=
  (upserts_upheld_iff open_empty _).mpr ⟨admits_letter,fun _ _ => trivial⟩

/-- The disk is full at the first call, which is repeated: the first reports an error and leaves the
document in memory, the second reports it as unchanged, and there is no file. -/
theorem repeated_upsert_lost :
    let after := (emptyIndex.upsert letterCall fullDisk).2
    (emptyIndex.upsert letterCall fullDisk).1 = .error "write staging file" ∧
      after ≠ emptyIndex ∧ (after.upsert letterCall {}).1 = .ok true ∧
      ¬Shows plainPlatform (after.upsert letterCall {}).2.file (ascii ['a']) (ascii ['t'])
        (ascii ['x']) ∧
      ¬Machine.Meets step (fun index e => e.Upheld index) emptyIndex
        [.upsert letterCall fullDisk,.upsert letterCall {}] := by
  obtain ⟨hfails,hkept,hretried,hfile⟩ :
      (emptyIndex.upsert letterCall fullDisk).1 = .error "write staging file" ∧
        ((emptyIndex.upsert letterCall fullDisk).2.backend.active.documents.find?
          (ascii ['a'])).isSome = true ∧
        ((emptyIndex.upsert letterCall fullDisk).2.upsert letterCall {}).1 = .ok true ∧
        ((emptyIndex.upsert letterCall fullDisk).2.upsert letterCall {}).2.file = none := by
    decide +kernel
  have hchanged : (emptyIndex.upsert letterCall fullDisk).2 ≠ emptyIndex := by
    intro hsame
    rw [hsame] at hkept
    cases hkept
  refine ⟨hfails,hchanged,hretried,?_,?_⟩
  · rw [hfile]
    rintro ⟨b,a,hopen,hfind,-⟩
    cases hopen
    cases hfind
  · intro hmeets
    exact hchanged ((upholds_error hfails).mp hmeets.1)

end letter

end RagRuntime.Mobile
