import RagRuntime.Backend.InstalledDense

/-! Checkpoint files over whole runs of a backend with its sidecars: which of them are opened again,
and what comes back. -/
namespace RagRuntime.Backend
open RagRuntime.Base RagRuntime.Core RagRuntime.Store RagRuntime.Text RagRuntime.Lexical
  RagRuntime.Dense RagRuntime.Preparation

namespace EmbeddedBackend

section step

variable {β : Type} {b : EmbeddedBackend β}

/-- What an activation leaves. -/
lemma activate_snd (b : EmbeddedBackend β) (document : PreparedDocument) (revision : ℕ) :
    (b.activate document revision).2 = b ∨ ValidDocument document ∧ revision ≠ 0 ∧
      ∃ inDelta tombstones next,
        buildGeneration b.analysis (b.active.documents.insert document.key ⟨revision,document⟩)
          b.active.dense inDelta tombstones (b.active.number+1) = .ok next ∧
        (b.activate document revision).2 = { b with
          latestRevisions := b.latestRevisions.insert document.key revision
          active := next } := by
  unfold EmbeddedBackend.activate
  cases hvalid : validate document revision with
  | error e => exact Or.inl rfl
  | ok u =>
    obtain ⟨hdocument,hrevision⟩ := validate_eq_ok.mp hvalid
    dsimp only
    split_ifs
    · exact Or.inl rfl
    · exact Or.inl rfl
    · cases hbuild : buildGeneration b.analysis
        (b.active.documents.insert document.key ⟨revision,document⟩) b.active.dense
        (insert document.key b.active.deltaDocuments)
        (b.tombstonesAfter document.key (document.chunks.map PreparedChunk.key))
        (b.active.number+1) with
      | error e => exact Or.inl rfl
      | ok next => exact Or.inr ⟨hdocument,hrevision,_,_,next,hbuild,rfl⟩

/-- A backend that goes on as it was, or with the catalog of an activation. -/
lemma Restorable.activated (h : b.Restorable) {document : PreparedDocument} {revision : ℕ}
    (htyped : document.WellTyped) (hrevision : revision < 256^8) :
    (b.activate document revision).2.Restorable := by
  obtain hsame | ⟨hvalid,hne,inDelta,tombstones,next,hbuild,hnext⟩ :=
    b.activate_snd document revision
  · rw [hsame]
    exact h
  · have hdocuments := (buildGeneration_ok hbuild).documents
    rw [hnext]
    refine ⟨?_,generated_of hbuild,?_,h.recorded document.key hrevision⟩
    · change Filed next.documents
      rw [hdocuments]
      exact h.filed.insert hvalid hne
    · intro k a ha
      change next.documents.find? k = some a at ha
      rw [hdocuments,OrdMap.find?_insert] at ha
      split_ifs at ha
      · rw [← Option.some.inj ha]
        exact htyped
      · exact h.typed k a ha

/-- The vectors of a backend are rows of an index, for either tolerance. -/
lemma Restorable.rows_live (h : b.Restorable) :
    ValidRows (liveRows b.active.documents.entries)
        (NativeExactIndex.firstDimension (liveRows b.active.documents.entries)) ∧
      ∀ row ∈ liveRows b.active.documents.entries, normalizedDouble row.vector = true := by
  obtain ⟨_,_,_,hgenerated⟩ := h.generated
  have hbuilt := buildGeneration_ok hgenerated
  refine ⟨h.filed.validRows hbuilt.keys hbuilt.dimension,?_⟩
  intro row hrow
  obtain ⟨x,hx,rfl⟩ := List.mem_map.mp hrow
  obtain ⟨hx,hne⟩ := List.mem_filter.mp hx
  obtain ⟨hfind,hchunk⟩ := mem_liveChunks.mp hx
  obtain ⟨-,hvalid,-⟩ := h.filed _ _ hfind
  have hne := of_decide_eq_true hne
  simp only [normalizedDouble,decide_eq_true_eq]
  exact ⟨hne,hvalid.unitNorm hchunk hne⟩

end step

/-- What comes back of a backend from its checkpoint file. With the exact policy the dense
candidates are those of a scan over the active chunks, whatever base the backend had. -/
structure Returned {β : Type} [GraphIndex β] (b : EmbeddedBackend (NativeBase β))
    (walPosition : ℕ) (c : EmbeddedBackend (NativeBase β)) : Prop where
  alike : c.Alike b
  number : c.active.number = b.active.number % 256^8
  position : c.checkpointWalPosition = walPosition % 256^8
  fetch : ∀ options keys, c.active.fetch options keys = b.active.fetch options keys
  lexical : ∀ request, c.active.lexicalCandidates request = b.active.lexicalCandidates request
  scanned : c.policy.dense.algorithm = .exact →
    (∀ x ∈ liveChunks b.active.documents.entries, x.chunk.embedding ≠ []) →
      ∀ request : DenseRequest, request.k ≠ 0 → normalizedDouble request.query = true →
        request.query.length = c.active.dimension → c.active.denseCandidates request =
          .ok (topK CandidateOrder request.k (scan b.active request.query request.filter))

end EmbeddedBackend

section restoreDense

variable {β : Type} [GraphIndex β] {parameters : Bytes} {S : Set (List VectorRecord × Bytes)}
  {files files' : Sidecars β} {rows : List VectorRecord} {identity : Bytes} {written : Bool}
  {policy : DensePolicy}

/-- Nothing is in front of a base that is restored. -/
lemma restoreDense_shape {dense : TieredDenseIndex (NativeBase β)}
    (h : restoreDense parameters policy rows identity written files = (.ok dense,files')) :
    dense.tombstones = ∅ ∧ dense.base.dimension = NativeExactIndex.firstDimension rows := by
  have hcompact : ∀ dense : TieredDenseIndex (NativeBase β), TieredDenseIndex.compact rows
      (NativeExactIndex.firstDimension rows) policy = .ok dense →
        dense.tombstones = ∅ ∧ dense.base.dimension = NativeExactIndex.firstDimension rows := by
    intro dense hdense
    obtain ⟨htombstones,-,hdimension⟩ := EmbeddedBackend.compact_base hdense
    exact ⟨htombstones,hdimension⟩
  have hbase : ∀ (base : NativeBase β) (dense : TieredDenseIndex (NativeBase β)),
      TieredDenseIndex.fromBase base (rows.map VectorRecord.key)
        (NativeExactIndex.firstDimension rows) = .ok dense →
        dense.tombstones = ∅ ∧ dense.base.dimension = NativeExactIndex.firstDimension rows := by
    intro base dense hdense
    rw [TieredDenseIndex.fromBase_ok hdense]
    exact ⟨rfl,rfl⟩
  unfold restoreDense at h
  cases hresolve : resolveDenseAlgorithm policy rows.length with
  | error e =>
    rw [hresolve] at h
    cases h
  | ok algorithm =>
    rw [hresolve] at h
    cases algorithm with
    | automatic | exact =>
      dsimp only at h
      cases hopen : openExact (exactSidecarFingerprint rows identity) rows written files with
      | mk found after =>
        rw [hopen] at h
        cases found with
        | none => exact hcompact dense (Prod.mk.inj h).1
        | some index => exact hbase _ dense (Prod.mk.inj h).1
    | hnsw =>
      dsimp only at h
      cases hload : loadHnswSidecar files.hnsw (hnswSidecarFingerprint parameters rows identity)
          (rows.map VectorRecord.key) with
      | ok graph =>
        rw [hload] at h
        exact hbase _ dense (Prod.mk.inj h).1
      | error e =>
        rw [hload] at h
        dsimp only at h
        cases hdense : TieredDenseIndex.compact (β := NativeBase β) rows
            (NativeExactIndex.firstDimension rows) policy with
        | error e =>
          rw [hdense] at h
          cases h
        | ok built =>
          rw [hdense] at h
          obtain rfl := Except.ok.inj (Prod.mk.inj h).1
          exact hcompact built hdense

/-- Good rows make an exact index. -/
lemma compact_of_exact (hvalid : ValidRows rows (NativeExactIndex.firstDimension rows))
    (hresolve : resolveDenseAlgorithm policy rows.length = .ok .exact) :
    ∃ dense : TieredDenseIndex (NativeBase β),
      TieredDenseIndex.compact rows (NativeExactIndex.firstDimension rows) policy = .ok dense := by
  have hdims : (rows.any fun row =>
      row.vector.length ≠ NativeExactIndex.firstDimension rows) = false := by
    rw [List.any_eq_false]
    intro row hrow
    simp [hvalid.dimension row hrow]
  have hbuild := NativeExactIndex.build_eq_ok.mpr ⟨hvalid,rfl⟩
  unfold TieredDenseIndex.compact buildDenseIndex
  rw [hdims,if_neg Bool.false_ne_true,hresolve]
  simp [bind,Except.bind,hbuild,pure,Except.pure]

/-- A matrix of good rows is a base. -/
lemma fromBase_of_rows (hvalid : ValidRows rows (NativeExactIndex.firstDimension rows)) :
    ∃ dense : TieredDenseIndex (NativeBase β), TieredDenseIndex.fromBase
      (.mapped ⟨rows,NativeExactIndex.firstDimension rows⟩) (rows.map VectorRecord.key)
        (NativeExactIndex.firstDimension rows) = .ok dense := by
  have hkeys : ¬([] ∈ rows.map VectorRecord.key ∨ ¬(rows.map VectorRecord.key).Nodup) := by
    rintro (hnil | hdup)
    · obtain ⟨row,hrow,hkey⟩ := List.mem_map.mp hnil
      exact hvalid.keys row hrow hkey
    · exact hdup hvalid.nodup
  unfold TieredDenseIndex.fromBase
  rw [if_neg (by simp [NativeBase.size,NativeBase.dimension]),if_neg hkeys]
  exact ⟨_,rfl⟩

/-- The exact policy always comes to a base, with the sidecar or without it. -/
lemma restoreDense_of_exact (h : files.Labelled S) (hfp : ExactlyTold S)
    (hrows : (rows,identity) ∈ S)
    (hvalid : ValidRows rows (NativeExactIndex.firstDimension rows))
    (hpolicy : policy.algorithm = .exact) (hthreshold : policy.exactThreshold ≠ 0) :
    ∃ dense files', restoreDense parameters policy rows identity written files =
      (.ok dense,files') := by
  have hresolve : resolveDenseAlgorithm policy rows.length = .ok .exact := by
    rw [resolveDenseAlgorithm,if_neg hthreshold,hpolicy]
  unfold restoreDense
  rw [hresolve]
  dsimp only
  cases hopen : openExact (exactSidecarFingerprint rows identity) rows written files with
  | mk found after =>
    cases found with
    | none =>
      obtain ⟨dense,hdense⟩ := compact_of_exact (β := β) hvalid hresolve
      exact ⟨dense,after,congrArg (·,after) hdense⟩
    | some index =>
      obtain rfl := (h.opened hfp hrows hopen).2.2 index rfl
      obtain ⟨dense,hdense⟩ := fromBase_of_rows (β := β) hvalid
      exact ⟨dense,after,congrArg (·,after) hdense⟩

end restoreDense

namespace Installation

variable {β : Type} [GraphIndex β]

/-- Open a checkpoint file with the sidecars that are beside it. -/
def openCheckpoint (parser : JsonParser) (idf : ℕ → ℕ → ℚ) (order : OffsetSort)
    (parameters : Bytes) (analysis : Analysis) (policy : EmbeddedMaintenancePolicy) (file : Bytes)
    (written : Bool) (files : Sidecars β) :
    Result (EmbeddedBackend (NativeBase β)) × Sidecars β :=
  match EmbeddedCheckpointStore.load parser idf order file with
  | .error e => (.error e,files)
  | .ok checkpoint => restoreWith parameters analysis policy checkpoint written files

/-- The numbers that a write brings are of the types that hold them. -/
def Op.Typed : Op → Prop
  | .activate document revision => document.WellTyped ∧ revision < 256^8
  | .erase _ revision => revision < 256^8
  | _ => True

/-- What a run of typed writes keeps. -/
structure Restorable (S : Set (List VectorRecord × Bytes)) (analysis : Analysis)
    (s : Installation β) : Prop where
  backend : s.backend.Restorable
  analysis : s.backend.analysis = analysis
  files : s.files.Labelled S
  saved : ∀ c, s.saved = some c → (c.rows,c.embeddingIdentity) ∈ S ∧
    (∀ entry ∈ c.documents, entry.prepared.WellTyped) ∧ ∀ e ∈ c.revisions.entries, e.2 < 256^8

section run

variable {parameters : Bytes} {S : Set (List VectorRecord × Bytes)} {analysis : Analysis}
  {s t : Installation β}

omit [GraphIndex β] in
lemma restorable_fresh (analysis : Analysis) (policy : EmbeddedMaintenancePolicy) :
    (fresh analysis policy : Installation β).Restorable S analysis := by
  refine ⟨EmbeddedBackend.restorable_start analysis policy,rfl,?_,?_⟩
  · intro file hfile
    cases hfile
  · intro c hc
    cases hc

lemma Restorable.checkpoint (h : s.Restorable S analysis) {walPosition : ℕ} {written : Bool}
    (hrows : s.Collected S (.checkpoint walPosition written)) :
    (s.checkpoint parameters walPosition written).Restorable S analysis := by
  have hbackend := h.backend
  refine ⟨⟨hbackend.filed,hbackend.generated,hbackend.typed,hbackend.revisions⟩,h.analysis,?_,?_⟩
  · cases written with
    | false => exact h.files
    | true => exact h.files.write hrows.1
  · intro c hc
    cases hc
    rw [rows_eq hbackend.filed rfl]
    refine ⟨hrows.2,?_,hbackend.revisions⟩
    intro entry hentry
    obtain ⟨k,hk⟩ := OrdMap.mem_values.mp hentry
    exact hbackend.typed k entry hk

lemma Restorable.restart (h : s.Restorable S analysis) (hfp : ExactlyTold S)
    {policy : EmbeddedMaintenancePolicy} {written : Bool}
    (hrestart : s.restart parameters policy written = some t) : t.Restorable S analysis := by
  obtain ⟨c,documents,dense,files,g,hsaved,hdocuments,hdense,hbuild,rfl⟩ := restart_eq_some hrestart
  obtain ⟨hrows,htyped,hrevisions⟩ := h.saved c hsaved
  refine ⟨EmbeddedBackend.restorable_documents hdocuments hbuild htyped hrevisions,h.analysis,
    h.files.restore hfp hrows hdense,?_⟩
  intro c' hc'
  cases hc'
  exact ⟨hrows,htyped,hrevisions⟩

lemma Restorable.step (h : s.Restorable S analysis) (hfp : ExactlyTold S) {op : Op}
    (hcollected : s.Collected S op) (htyped : op.Typed)
    (hstep : s.step parameters op = some t) : t.Restorable S analysis := by
  cases op with
  | activate document revision =>
    cases hstep
    refine ⟨h.backend.activated htyped.1 htyped.2,?_,h.files,h.saved⟩
    obtain hsame | ⟨-,-,_,_,_,-,hsame⟩ := s.backend.activate_snd document revision <;>
      exact (congrArg EmbeddedBackend.analysis hsame).trans h.analysis
  | erase document revision =>
    cases hstep
    exact ⟨h.backend.erase document htyped,
      (s.backend.analysis_erase document revision).trans h.analysis,h.files,h.saved⟩
  | compact overrideMemoryBudget =>
    cases hstep
    exact ⟨h.backend.compact overrideMemoryBudget,
      (s.backend.compact_alike overrideMemoryBudget).analysis.trans h.analysis,h.files,h.saved⟩
  | checkpoint walPosition written =>
    cases hstep
    exact h.checkpoint hcollected
  | lose exact hnsw =>
    cases hstep
    exact ⟨h.backend,h.analysis,h.files.lose exact hnsw,h.saved⟩
  | restart policy written => exact h.restart hfp hstep

end run

section reopening

variable {parameters : Bytes} {S : Set (List VectorRecord × Bytes)} {analysis : Analysis}
  {b c : EmbeddedBackend (NativeBase β)} {walPosition : ℕ} {files files' : Sidecars β}
  {parser : JsonParser} (hparser : EmbeddedCheckpointStore.ReadsMetadata parser)
  (idf : ℕ → ℕ → ℚ) (hash : HashOrder) (order : OffsetSort) (policy : EmbeddedMaintenancePolicy)
  {file : Bytes} {written : Bool}

omit [GraphIndex β] in
/-- The rows of the checkpoint of a backend. -/
lemma rows_snapshot (h : b.Restorable) (walPosition : ℕ) :
    (b.snapshot walPosition).rows = liveRows b.active.documents.entries := rows_eq h.filed rfl

include hparser

/-- What is opened has been built from the documents that were saved. -/
lemma opened_eq_ok (h : b.Restorable)
    (hsave : EmbeddedCheckpointStore.save idf hash (b.snapshot walPosition) = .ok file)
    (hopen : openCheckpoint parser idf order parameters b.analysis policy file written files =
      (.ok c,files')) :
    (EmbeddedCheckpointStore.terms b.active.documents.values).card ≤ kMaxPostings ∧
      ∃ dense next, restoreDense parameters policy.dense (liveRows b.active.documents.entries)
          (b.snapshot walPosition).embeddingIdentity written files = (.ok dense,files') ∧
        buildGeneration b.analysis b.active.documents dense ∅ ∅ (b.active.number % 256^8) =
          .ok next ∧
        c = ⟨b.analysis,policy,b.latestRevisions,next,walPosition % 256^8⟩ := by
  have hsavable := EmbeddedBackend.savable_of_save hsave
  unfold openCheckpoint at hopen
  cases hload : EmbeddedCheckpointStore.load parser idf order file with
  | error e =>
    rw [hload] at hopen
    cases hopen
  | ok checkpoint =>
    rw [hload] at hopen
    obtain ⟨rfl,hfew⟩ := ((h.reloadable hsavable).load_iff hparser idf hash order hsave).mp hload
    obtain ⟨documents,dense,next,hdocuments,hdense,hbuild,hc⟩ := restoreWith_ok hopen
    obtain rfl := Except.ok.inj ((h.restoreDocuments hsavable).symm.trans hdocuments)
    have hrows := rows_snapshot h walPosition
    refine ⟨hfew,dense,next,?_,hbuild,hc⟩
    rw [← hrows]
    exact hdense

/-- A file is opened if its texts have not too many terms and a dense base can be had. -/
lemma opens (h : b.Restorable)
    (hsave : EmbeddedCheckpointStore.save idf hash (b.snapshot walPosition) = .ok file)
    (hfew : (EmbeddedCheckpointStore.terms b.active.documents.values).card ≤ kMaxPostings)
    {dense : TieredDenseIndex (NativeBase β)}
    (hdense : restoreDense parameters policy.dense (liveRows b.active.documents.entries)
      (b.snapshot walPosition).embeddingIdentity written files = (.ok dense,files')) :
    ∃ c, openCheckpoint parser idf order parameters b.analysis policy file written files =
      (.ok c,files') := by
  have hsavable := EmbeddedBackend.savable_of_save hsave
  have hload := ((h.reloadable hsavable).load_iff hparser idf hash order hsave).mpr ⟨rfl,hfew⟩
  obtain ⟨htombstones,hdimension⟩ := restoreDense_shape hdense
  obtain ⟨g,hg⟩ := h.rebuild htombstones hdimension (b.active.number % 256^8)
  have hrevisions : (b.latestRevisions.entries.any fun e => e.1 = [] ∨ e.2 = 0) = false := by
    rw [List.any_eq_false]
    intro e he
    obtain ⟨hkey,-,hrevision⟩ := hsavable.revisions e he
    simp [hkey,hrevision]
  rw [← rows_snapshot h walPosition] at hdense
  refine ⟨⟨b.analysis,policy,b.latestRevisions,g,walPosition % 256^8⟩,?_⟩
  unfold openCheckpoint
  rw [hload]
  dsimp only
  exact restoreWith_of hrevisions (h.restoreDocuments hsavable) hdense hg

lemma returned_of_open (h : b.Restorable) (hfiles : files.Labelled S) (hfp : ExactlyTold S)
    (hrows : (liveRows b.active.documents.entries,
      (b.snapshot walPosition).embeddingIdentity) ∈ S)
    (hsave : EmbeddedCheckpointStore.save idf hash (b.snapshot walPosition) = .ok file)
    (hopen : openCheckpoint parser idf order parameters b.analysis policy file written files =
      (.ok c,files')) : b.Returned walPosition c := by
  obtain ⟨-,dense,next,hdense,hbuild,rfl⟩ :=
    opened_eq_ok hparser idf hash order policy h hsave hopen
  have hnext := buildGeneration_ok hbuild
  obtain ⟨_,_,_,hgenerated⟩ := h.generated
  obtain ⟨hchunks,hkeys,hlexical⟩ := hnext.same (buildGeneration_ok hgenerated)
  refine ⟨⟨rfl,hnext.documents,rfl⟩,hnext.number,rfl,fetch_congr hchunks hnext.documents,
    lexicalCandidates_congr hchunks hkeys hlexical,?_⟩
  intro hexact hembedded request hk hquery hlen
  obtain ⟨index,hindex,hshape⟩ := restoreDense_exact hfiles hfp hrows hexact hdense
  have hexactly : EmbeddedBackend.Exactly ⟨b.analysis,policy,b.latestRevisions,next,
      walPosition % 256^8⟩ :=
    EmbeddedBackend.Exactly.of_held hexact hindex hshape hbuild h.filed rfl
  have hscan := hexactly.denseCandidates (hnext.documents ▸ hembedded) hk hquery hlen
  rw [scan,hnext.documents] at hscan
  exact hscan

/-- After any run of writes, compactions, checkpoints and restarts, whatever sidecars are lost: the
file of a checkpoint is opened exactly if its texts have not too many terms and a dense base can be
had, which the exact policy always can; and what is opened has the documents, the revisions and the
answers of the backend that was saved. -/
theorem checkpoint_of_run (hfp : ExactlyTold S) {before : EmbeddedMaintenancePolicy} {ops : List Op}
    {s : Installation β}
    (hmeets : Machine.Meets (step (β := β) parameters) (fun s op => s.Collected S op ∧ op.Typed)
      (fresh analysis before) ops)
    (hrun : Machine.run (step parameters) (fresh analysis before) ops = some s)
    (hrows : (liveRows s.backend.active.documents.entries,
      (s.backend.snapshot walPosition).embeddingIdentity) ∈ S)
    (hsave : EmbeddedCheckpointStore.save idf hash (s.backend.snapshot walPosition) = .ok file)
    (exact hnsw written : Bool) :
    ((∃ c files', openCheckpoint parser idf order parameters analysis policy file written
        (s.lose exact hnsw).files = (.ok c,files')) ↔
      (EmbeddedCheckpointStore.terms s.backend.active.documents.values).card ≤ kMaxPostings ∧
        ∃ dense files', restoreDense parameters policy.dense
          (liveRows s.backend.active.documents.entries)
          (s.backend.snapshot walPosition).embeddingIdentity written (s.lose exact hnsw).files =
            (.ok dense,files')) ∧
    (policy.dense.algorithm = .exact → policy.dense.exactThreshold ≠ 0 → ∃ dense files',
      restoreDense parameters policy.dense (liveRows s.backend.active.documents.entries)
        (s.backend.snapshot walPosition).embeddingIdentity written (s.lose exact hnsw).files =
          (.ok dense,files')) ∧
    ∀ c files', openCheckpoint parser idf order parameters analysis policy file written
      (s.lose exact hnsw).files = (.ok c,files') → s.backend.Returned walPosition c := by
  have h : s.Restorable S analysis := Machine.run_invariant
    (fun _ _ _ hi hc hs => hi.step hfp hc.1 hc.2 hs) (restorable_fresh analysis before) hmeets hrun
  obtain ⟨hbackend,rfl,hfiles,-⟩ := h
  have hleft := hfiles.lose exact hnsw
  refine ⟨⟨?_,?_⟩,?_,?_⟩
  · rintro ⟨c,files',hopen⟩
    obtain ⟨hfew,dense,next,hdense,-⟩ :=
      opened_eq_ok hparser idf hash order policy hbackend hsave hopen
    exact ⟨hfew,dense,files',hdense⟩
  · rintro ⟨hfew,dense,files',hdense⟩
    obtain ⟨c,hc⟩ := opens hparser idf hash order policy hbackend hsave hfew hdense
    exact ⟨c,files',hc⟩
  · exact restoreDense_of_exact hleft hfp hrows hbackend.rows_live.1
  · intro c files' hopen
    exact returned_of_open hparser idf hash order policy hbackend hleft hfp hrows hsave hopen

end reopening

section rewritten

/-- The rows of the document under its second heading. -/
def rewrittenRows : List VectorRecord × Bytes :=
  ((EmbeddedBackend.headed 'B' [0,1]).chunks.map fun c => ⟨c.key,c.embedding⟩,ascii ['e'])

instance (s : Installation LinkedGraph) (x y : List VectorRecord × Bytes) (op : Op) :
    Decidable (s.Collected {x,y} op) :=
  match op with
  | .checkpoint walPosition _ => inferInstanceAs (Decidable
      (((liveRows s.backend.active.documents.entries,s.backend.active.embeddingIdentity) = x ∨
        (liveRows s.backend.active.documents.entries,s.backend.active.embeddingIdentity) = y) ∧
        ((liveRows s.backend.active.documents.entries,
          (s.backend.snapshot walPosition).embeddingIdentity) = x ∨
        (liveRows s.backend.active.documents.entries,
          (s.backend.snapshot walPosition).embeddingIdentity) = y)))
  | .activate _ _ | .erase _ _ | .compact _ | .lose _ _ | .restart _ _ => isTrue trivial

lemma isFloat_unit {x : ℚ} (h : x = 0 ∨ x = 1) : Single.IsFloat x := by
  obtain rfl | rfl := h
  · exact ⟨0,by decide,by norm_num [Single.ofBits,Single.units]⟩
  · exact ⟨1065353216,by decide,by norm_num [Single.ofBits,Single.units]⟩

lemma typed_headed {letter : Char} {v : Vec}
    (h : ∀ chunk ∈ (EmbeddedBackend.headed letter v).chunks, chunk.startLine < 256^4 ∧
      chunk.endLine < 256^4 ∧ ∀ x ∈ chunk.embedding, x = 0 ∨ x = 1) :
    (EmbeddedBackend.headed letter v).WellTyped := by
  intro chunk hchunk
  obtain ⟨hstart,hend,hunit⟩ := h chunk hchunk
  exact ⟨hstart,hend,fun x hx => isFloat_unit (hunit x hx)⟩

lemma typed_reheaded : ∀ op ∈ reheaded [0,1], op.Typed := by
  intro op hop
  simp only [reheaded,List.mem_cons,List.not_mem_nil,or_false] at hop
  rcases hop with rfl | rfl | rfl | rfl | rfl
  · exact ⟨typed_headed (by decide +kernel),by decide⟩
  · trivial
  · trivial
  · trivial
  · exact ⟨typed_headed (by decide +kernel),by decide⟩

lemma rewritten_told : ExactlyTold {headedRows [1,0],rewrittenRows} := by
  have hdiffer : exactSidecarFingerprint (headedRows [1,0]).1 (headedRows [1,0]).2 ≠
      exactSidecarFingerprint rewrittenRows.1 rewrittenRows.2 := by decide +kernel
  rintro x (rfl | rfl) y (rfl | rfl) heq
  · rfl
  · exact absurd heq hdiffer
  · exact absurd heq.symm hdiffer
  · rfl

/-- The base is stale when the document is saved under its second heading, and not when it is opened
again. -/
theorem rewritten_returned : ∃ (c : EmbeddedBackend (NativeBase LinkedGraph)) (file : Bytes)
    (files' : Sidecars LinkedGraph),
    EmbeddedCheckpointStore.save (fun _ _ => 0) keyOrder
        ((afterReheaded [0,1]).backend.snapshot 7) = .ok file ∧
      openCheckpoint metadataParser (fun _ _ => 0) Container.longestFirst [] noTerms
        EmbeddedBackend.exactPolicy file true ((afterReheaded [0,1]).lose false false).files =
          (.ok c,files') ∧
      (afterReheaded [0,1]).backend.Returned 7 c := by
  have hmeets : Machine.Meets (step (β := LinkedGraph) []) (fun s op =>
      s.Collected {headedRows [1,0],rewrittenRows} op ∧ op.Typed)
      (fresh noTerms EmbeddedBackend.exactPolicy) (reheaded [0,1]) := by
    have hcollected : Machine.Meets (step (β := LinkedGraph) []) (Collected
        {headedRows [1,0],rewrittenRows}) (fresh noTerms EmbeddedBackend.exactPolicy)
        (reheaded [0,1]) := by decide +kernel
    exact Machine.Meets.and hcollected (Machine.meets_of_forall _ typed_reheaded)
  have hrows : (liveRows (afterReheaded [0,1]).backend.active.documents.entries,
      ((afterReheaded [0,1]).backend.snapshot 7).embeddingIdentity) ∈
        ({headedRows [1,0],rewrittenRows} : Set (List VectorRecord × Bytes)) :=
    Or.inr (by decide +kernel)
  have hsaved : (EmbeddedCheckpointStore.save (fun _ _ => 0) keyOrder
      ((afterReheaded [0,1]).backend.snapshot 7)).toOption.isSome = true := by decide +kernel
  obtain ⟨file,hfile⟩ := Option.isSome_iff_exists.mp hsaved
  have hsave := EmbeddedBackend.ok_of_toOption hfile
  have hfew : (EmbeddedCheckpointStore.terms
      (afterReheaded [0,1]).backend.active.documents.values).card ≤ kMaxPostings := by
    decide +kernel
  obtain ⟨hopens,hexact,hreturned⟩ := checkpoint_of_run
    readsMetadata_metadataParser (fun _ _ => 0) keyOrder Container.longestFirst
    EmbeddedBackend.exactPolicy rewritten_told hmeets (run_reheaded (by decide +kernel)) hrows hsave
    false false true
  obtain ⟨c,files',hopen⟩ := hopens.mpr ⟨hfew,hexact rfl (by decide)⟩
  exact ⟨c,file,files',hsave,hopen,hreturned c files' hopen⟩

end rewritten

end Installation
end RagRuntime.Backend
