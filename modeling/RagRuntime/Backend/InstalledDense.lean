import RagRuntime.Backend.Reopened
import RagRuntime.Backend.Sidecars

/-! Runs of a backend with the exact policy, its checkpoint and its sidecars. A restart takes the
base from its file, where a query is checked with another tolerance than in memory. -/
namespace RagRuntime.Backend
open RagRuntime.Base RagRuntime.Core RagRuntime.Dense RagRuntime.Preparation

section
variable {β : Type} [GraphIndex β]

omit [GraphIndex β] in
lemma Filed.validRows {catalog : Catalog} (hfiled : Filed catalog)
    (hkeys : ((liveChunks catalog.entries).map fun x => x.chunk.key).Nodup) {d : ℕ}
    (hd : ∀ x ∈ liveChunks catalog.entries,
      x.chunk.embedding ≠ [] → x.chunk.embedding.length = d) :
    ValidRows (liveRows catalog.entries)
      (NativeExactIndex.firstDimension (liveRows catalog.entries)) := by
  have hlive : ∀ x ∈ (liveChunks catalog.entries).filter (fun x => x.chunk.embedding ≠ []),
      x.chunk.key ≠ [] ∧ x.chunk.embedding.length = d ∧ normalized x.chunk.embedding = true := by
    intro x hx
    obtain ⟨hx,hne⟩ := List.mem_filter.mp hx
    have hne := of_decide_eq_true hne
    obtain ⟨hfind,hchunk⟩ := mem_liveChunks.mp hx
    obtain ⟨-,hvalid,-⟩ := hfiled _ _ hfind
    exact ⟨hvalid.chunk_key_ne_nil hchunk,hd x hx hne,(hvalid.unitNorm hchunk hne).normalized hne⟩
  apply ValidRows.firstDimension
  exact validRows_of_live (hkeys.sublist (List.filter_sublist.map _)) (fun x hx => (hlive x hx).1)
    fun x hx => (hlive x hx).2

/-- A query that the tolerance of a file takes is taken in memory too. -/
lemma normalized_of_double {query : Vec} (h : normalizedDouble query = true) :
    normalized query = true ∧ ¬BetweenTolerances query := by
  obtain ⟨hne,hnorm⟩ := of_decide_eq_true h
  have hfloat : normalized query = true := UnitNorm.normalized hne hnorm
  exact ⟨hfloat,by rw [BetweenTolerances,hfloat,h,not_ne_iff]⟩

/-- An exact index of `rows`, in memory or in a file. -/
def ExactMatrix (rows : List VectorRecord) (index : DenseIndex (NativeBase β)) : Prop :=
  index = .exact ⟨rows,NativeExactIndex.firstDimension rows⟩ ∨
    index = .approximate (.mapped ⟨rows,NativeExactIndex.firstDimension rows⟩)

lemma ExactMatrix.held {rows : List VectorRecord} {index : DenseIndex (NativeBase β)}
    (h : ExactMatrix rows index) : index.held = rows := by
  obtain rfl | rfl := h <;> rfl

/-- To a query of its dimension that both tolerances take, a matrix answers as in memory. -/
lemma ExactMatrix.search {rows : List VectorRecord} {index : DenseIndex (NativeBase β)}
    (h : ExactMatrix rows index) {query : Vec} (hquery : normalizedDouble query = true)
    (hlen : query.length = NativeExactIndex.firstDimension rows) (allowed : List Bytes) (k : ℕ) :
    index.search query allowed k =
      (DenseIndex.exact (β := NativeBase β)
        ⟨rows,NativeExactIndex.firstDimension rows⟩).search query allowed k := by
  obtain rfl | rfl := h
  · rfl
  · exact MappedExactIndex.search_eq_iff.mpr
      (Or.inr (Or.inr ⟨hlen,(normalized_of_double hquery).2⟩))

/-- The candidates of a generation on a matrix are those of the one in memory. -/
lemma Faithful.denseCandidates_onIndex {g : Generation (NativeBase β)} {rows : List VectorRecord}
    (h : Faithful (g.onIndex (.exact ⟨rows,NativeExactIndex.firstDimension rows⟩)) rows)
    (hmatrix : ExactMatrix rows g.dense.base.index) {request : DenseRequest}
    (hquery : normalizedDouble request.query = true) (hlen : request.query.length = g.dimension)
    (hembedded : ∀ x ∈ liveChunks g.documents.entries, x.chunk.embedding ≠ []) :
    g.denseCandidates request =
      (g.onIndex (.exact ⟨rows,NativeExactIndex.firstDimension rows⟩)).denseCandidates request := by
  have hsearch : TieredDenseIndex.searchTier (g.dense.base.index.search request.query · request.k)
      (g.allowedKeys request.filter g.dense.containsBase) =
      TieredDenseIndex.searchTier ((DenseIndex.exact (β := NativeBase β)
        ⟨rows,NativeExactIndex.firstDimension rows⟩).search request.query · request.k)
        (g.allowedKeys request.filter g.dense.containsBase) := by
    unfold TieredDenseIndex.searchTier
    split_ifs with hallowed
    · rfl
    · -- a row that may be returned is of an active chunk, and so of the dimension of the query
      obtain ⟨key,hkey⟩ := List.exists_mem_of_ne_nil _ hallowed
      obtain ⟨x,hx,rfl,hheld⟩ := h.mem_allowedKeys.mp hkey
      have hx := List.mem_of_mem_filter hx
      apply hmatrix.search hquery
      rw [hlen,← h.valid.dimension _ (h.inBase x hx (hembedded x hx) hheld)]
      exact (h.dimension x hx (hembedded x hx)).symm
  unfold Generation.denseCandidates TieredDenseIndex.search
  rw [hsearch]
  rfl

namespace EmbeddedBackend

/-- The same backend on another index of the same rows. -/
def onIndex (b : EmbeddedBackend (NativeBase β)) (index : DenseIndex (NativeBase β)) :
    EmbeddedBackend (NativeBase β) := { b with active := b.active.onIndex index }

variable {b : EmbeddedBackend (NativeBase β)}

omit [GraphIndex β] in
/-- An activation takes no notice of the index at the base. -/
lemma activate_onIndex (b : EmbeddedBackend (NativeBase β)) (index : DenseIndex (NativeBase β))
    (document : PreparedDocument) (revision : ℕ) : (b.onIndex index).activate document revision =
      ((b.activate document revision).1,(b.activate document revision).2.onIndex index) := by
  unfold EmbeddedBackend.activate
  cases validate document revision with
  | error e => rfl
  | ok u =>
    have hstale : (b.onIndex index).stale document.key revision = b.stale document.key revision :=
      rfl
    have halready : (b.onIndex index).alreadyActive document revision =
      b.alreadyActive document revision := rfl
    have hbuild : buildGeneration (b.onIndex index).analysis
        ((b.onIndex index).active.documents.insert document.key ⟨revision,document⟩)
        (b.onIndex index).active.dense
        (insert document.key (b.onIndex index).active.deltaDocuments)
        ((b.onIndex index).tombstonesAfter document.key (document.chunks.map PreparedChunk.key))
        ((b.onIndex index).active.number+1) =
      (buildGeneration b.analysis
        (b.active.documents.insert document.key ⟨revision,document⟩) b.active.dense
        (insert document.key b.active.deltaDocuments)
        (b.tombstonesAfter document.key (document.chunks.map PreparedChunk.key))
        (b.active.number+1)).map fun g => g.onIndex index := buildGeneration_onIndex _ _ _ _ _ _ _
    dsimp only
    rw [hstale,halready,hbuild]
    split_ifs
    · rfl
    · rfl
    · cases buildGeneration b.analysis
        (b.active.documents.insert document.key ⟨revision,document⟩) b.active.dense
        (insert document.key b.active.deltaDocuments)
        (b.tombstonesAfter document.key (document.chunks.map PreparedChunk.key))
        (b.active.number+1) with
      | error e => rfl
      | ok next => rfl

omit [GraphIndex β] in
/-- Nor does an erasure. -/
lemma erase_onIndex (b : EmbeddedBackend (NativeBase β)) (index : DenseIndex (NativeBase β))
    (document : Bytes) (revision : ℕ) : (b.onIndex index).erase document revision =
      ((b.erase document revision).1,(b.erase document revision).2.onIndex index) := by
  unfold EmbeddedBackend.erase
  have hstale : (b.onIndex index).stale document revision = b.stale document revision := rfl
  have hlatest : (b.onIndex index).latestRevisions = b.latestRevisions := rfl
  have hdocuments : (b.onIndex index).active.documents = b.active.documents := rfl
  have hbuild : buildGeneration (b.onIndex index).analysis (b.active.documents.erase document)
      (b.onIndex index).active.dense ((b.onIndex index).active.deltaDocuments.erase document)
      ((b.onIndex index).tombstonesAfter document []) ((b.onIndex index).active.number+1) =
    (buildGeneration b.analysis (b.active.documents.erase document) b.active.dense
      (b.active.deltaDocuments.erase document) (b.tombstonesAfter document [])
      (b.active.number+1)).map fun g => g.onIndex index := buildGeneration_onIndex _ _ _ _ _ _ _
  rw [hstale,hlatest,hdocuments,hbuild]
  split_ifs
  · rfl
  · rfl
  · rfl
  · cases buildGeneration b.analysis (b.active.documents.erase document) b.active.dense
      (b.active.deltaDocuments.erase document) (b.tombstonesAfter document [])
      (b.active.number+1) with
    | error e => rfl
    | ok next => rfl

omit [GraphIndex β] in
lemma base_activate (b : EmbeddedBackend (NativeBase β)) (document : PreparedDocument)
    (revision : ℕ) : (b.activate document revision).2.active.dense.base = b.active.dense.base := by
  have hcases := b.activate_activated document revision
  generalize b.activate document revision = out at hcases
  cases hcases with
  | failed e => rfl
  | already _ => rfl
  | published _ _ _ next hbuilt =>
    obtain ⟨-,-,-,-,hdense⟩ := TieredDenseIndex.withDelta_eq_ok.mp hbuilt.dense
    change next.dense.base = _
    rw [hdense]

omit [GraphIndex β] in
lemma base_erase (b : EmbeddedBackend (NativeBase β)) (document : Bytes) (revision : ℕ) :
    (b.erase document revision).2.active.dense.base = b.active.dense.base := by
  have hcases := b.erase_erased document revision
  generalize b.erase document revision = out at hcases
  cases hcases with
  | failed e => rfl
  | already _ _ => rfl
  | published _ _ _ next hbuilt =>
    obtain ⟨-,-,-,-,hdense⟩ := TieredDenseIndex.withDelta_eq_ok.mp hbuilt.dense
    change next.dense.base = _
    rw [hdense]

/-- The exact policy with tiers that are in order, around a matrix in memory or in a file. -/
def Exactly (b : EmbeddedBackend (NativeBase β)) : Prop :=
  ∃ rows, ExactMatrix rows b.active.dense.base.index ∧
    (b.onIndex (.exact ⟨rows,NativeExactIndex.firstDimension rows⟩)).Sound rows

/-- No chunk of the document has the key of a row that the base represents with another vector. -/
def KeepsVectors (b : EmbeddedBackend (NativeBase β)) (document : PreparedDocument) : Prop :=
  ∀ c ∈ document.chunks, c.embedding ≠ [] → b.active.dense.containsBase c.key = true →
    ⟨c.key,c.embedding⟩ ∈ b.active.dense.base.index.held

lemma Exactly.activate (h : b.Exactly) {document : PreparedDocument} {revision : ℕ}
    (hkeeps : (b.activate document revision).1 = .ok () →
      b.stale document.key revision = false → b.KeepsVectors document) :
    (b.activate document revision).2.Exactly := by
  obtain ⟨rows,hmatrix,hsound⟩ := h
  refine ⟨rows,by rw [base_activate]; exact hmatrix,?_⟩
  have hnext : ((b.onIndex (.exact ⟨rows,NativeExactIndex.firstDimension rows⟩)).activate document
      revision).2.Sound rows := by
    apply hsound.activate
    rw [activate_onIndex]
    intro hok hfresh c hc hne hheld
    rw [← hmatrix.held]
    exact hkeeps hok hfresh c hc hne hheld
  rwa [activate_onIndex] at hnext

omit [GraphIndex β] in
lemma Exactly.erase (h : b.Exactly) (document : Bytes) (revision : ℕ) :
    (b.erase document revision).2.Exactly := by
  obtain ⟨rows,hmatrix,hsound⟩ := h
  refine ⟨rows,by rw [base_erase]; exact hmatrix,?_⟩
  have hnext := hsound.erase document revision
  rwa [erase_onIndex] at hnext

omit [GraphIndex β] in
/-- A generation on a matrix of the rows of its documents. -/
lemma Exactly.of_held {dense : TieredDenseIndex (NativeBase β)} {rows : List VectorRecord}
    {dimension n : ℕ} {catalog : Catalog} {index : DenseIndex (NativeBase β)}
    (hpolicy : b.policy.dense.algorithm = .exact) (hindex : ExactMatrix rows index)
    (hdense : dense = TieredDenseIndex.onIndex ⟨⟨.exact ⟨rows,
      NativeExactIndex.firstDimension rows⟩,rowKeys rows,dimension⟩,NativeExactIndex.empty,∅,∅,
        dimension⟩ index)
    (hbuild : buildGeneration b.analysis catalog dense ∅ ∅ n = .ok b.active)
    (hfiled : Filed catalog) (hrows : rows = liveRows catalog.entries) : b.Exactly := by
  subst hdense
  rw [buildGeneration_onIndex] at hbuild
  cases hbase : buildGeneration (β := NativeBase β) b.analysis catalog ⟨⟨.exact ⟨rows,
      NativeExactIndex.firstDimension rows⟩,rowKeys rows,dimension⟩,NativeExactIndex.empty,∅,∅,
        dimension⟩ ∅ ∅ n with
  | error e =>
    rw [hbase] at hbuild
    cases hbuild
  | ok g =>
    rw [hbase] at hbuild
    have hactive : b.active = g.onIndex index := (Except.ok.inj hbuild).symm
    have hbuilt := buildGeneration_ok hbase
    have hvalid := hfiled.validRows hbuilt.keys hbuilt.dimension
    rw [← hrows] at hvalid
    have hfaithful := Faithful.of_held hvalid hbuilt hfiled
      fun x hx hne => hrows ▸ mem_liveRows hx hne
    refine ⟨rows,by rw [hactive]; exact hindex,hpolicy,?_⟩
    have hsame : (b.onIndex (.exact ⟨rows,NativeExactIndex.firstDimension rows⟩)).active = g := by
      rw [onIndex,hactive]
      change g.onIndex (.exact ⟨rows,NativeExactIndex.firstDimension rows⟩) = g
      rw [← hfaithful.base]
      rfl
    rw [hsame]
    exact hfaithful

lemma Exactly.compact (h : b.Exactly) (overrideMemoryBudget : Bool) :
    (b.compact overrideMemoryBudget).2.Exactly := by
  obtain ⟨rows,hmatrix,hsound⟩ := h
  obtain hsame | ⟨dense,next,hdense,hbuild,hnext⟩ := b.compact_snd overrideMemoryBudget
  · rw [hsame]
    exact ⟨rows,hmatrix,hsound⟩
  · rw [hnext]
    exact Exactly.of_held hsound.exact (Or.inl rfl) (compact_exact hsound.exact hdense).2 hbuild
      hsound.faithful.filed rfl

omit [GraphIndex β] in
lemma exactly_start (analysis : Lexical.Analysis) {policy : EmbeddedMaintenancePolicy}
    (hpolicy : policy.dense.algorithm = .exact) :
    (start analysis policy : EmbeddedBackend (NativeBase β)).Exactly :=
  ⟨[],Or.inl rfl,sound_start analysis hpolicy⟩

/-- With the tiers in order, the candidates are the first `k` of the scan. -/
theorem Exactly.denseCandidates (h : b.Exactly)
    (hembedded : ∀ x ∈ liveChunks b.active.documents.entries, x.chunk.embedding ≠ [])
    {request : DenseRequest} (hk : request.k ≠ 0) (hquery : normalizedDouble request.query = true)
    (hlen : request.query.length = b.active.dimension) : b.active.denseCandidates request =
      .ok (topK CandidateOrder request.k (scan b.active request.query request.filter)) := by
  obtain ⟨rows,hmatrix,hsound⟩ := h
  rw [hsound.faithful.denseCandidates_onIndex hmatrix hquery hlen hembedded]
  exact hsound.faithful.denseCandidates hk (normalized_of_double hquery).1 hlen hembedded

end EmbeddedBackend

section sidecars

variable {parameters : Bytes} {S : Set (List VectorRecord × Bytes)} {files files' : Sidecars β}

lemma Sidecars.Labelled.write (h : files.Labelled S) {policy : DensePolicy}
    {g : Generation (NativeBase β)}
    (hrows : (liveRows g.documents.entries,g.embeddingIdentity) ∈ S) :
    (writeSidecar parameters policy g files).Labelled S := by
  unfold writeSidecar
  dsimp only
  split
  · split
    · rename_i file hfile
      exact Sidecars.labelled_written hrows hfile
    · exact h
  · split_ifs
    · split
      · split
        · exact h
        · exact h
      · exact h
    · exact h
  · exact h

omit [GraphIndex β] in
lemma Sidecars.Labelled.lose (h : files.Labelled S) (exact hnsw : Bool) : Sidecars.Labelled S
    (⟨if exact then none else files.exact,if hnsw then none else files.hnsw⟩ : Sidecars β) := by
  intro file hfile
  cases exact with
  | false => exact h file hfile
  | true => cases hfile

lemma keepGraph_exact (fingerprint : Bytes) (written : Bool)
    (dense : TieredDenseIndex (NativeBase β)) (files : Sidecars β) :
    (keepGraph fingerprint written dense files).exact = files.exact := by
  unfold keepGraph
  split
  · split <;> rfl
  · rfl

lemma Sidecars.Labelled.restore (h : files.Labelled S) (hfp : ExactlyTold S)
    {policy : DensePolicy} {rows : List VectorRecord} {identity : Bytes}
    (hrows : (rows,identity) ∈ S) {written : Bool} {out : Result (TieredDenseIndex (NativeBase β))}
    (hrestore : restoreDense parameters policy rows identity written files = (out,files')) :
    files'.Labelled S := by
  unfold restoreDense at hrestore
  cases hresolve : resolveDenseAlgorithm policy rows.length with
  | error e =>
    rw [hresolve] at hrestore
    cases hrestore
    exact h
  | ok algorithm =>
    rw [hresolve] at hrestore
    cases algorithm with
    | automatic | exact =>
      dsimp only at hrestore
      cases hopen : openExact (exactSidecarFingerprint rows identity) rows written files with
      | mk found after =>
        have hlabelled := (h.opened hfp hrows hopen).1
        rw [hopen] at hrestore
        cases found <;> (cases hrestore; exact hlabelled)
    | hnsw =>
      dsimp only at hrestore
      cases hload : loadHnswSidecar files.hnsw (hnswSidecarFingerprint parameters rows identity)
          (rows.map VectorRecord.key) with
      | ok graph =>
        rw [hload] at hrestore
        cases hrestore
        exact h
      | error e =>
        rw [hload] at hrestore
        dsimp only at hrestore
        cases hdense : TieredDenseIndex.compact (β := NativeBase β) rows
            (NativeExactIndex.firstDimension rows) policy with
        | error e =>
          rw [hdense] at hrestore
          cases hrestore
          exact h
        | ok dense =>
          rw [hdense] at hrestore
          cases hrestore
          intro file hfile
          rw [keepGraph_exact] at hfile
          exact h file hfile

end sidecars

namespace Installation

/-- The policies that restarts come with are exact ones. -/
def Op.Exact : Op → Prop
  | .restart policy _ => policy.dense.algorithm = .exact
  | _ => True

/-- The document of an activation that succeeds on a newer revision keeps the vectors of the rows
it shares with the base. -/
def KeepsVectors (s : Installation β) : Op → Prop
  | .activate document revision => (s.backend.activate document revision).1 = .ok () →
      s.backend.stale document.key revision = false → s.backend.KeepsVectors document
  | _ => True

/-- What a run with the exact policy keeps. -/
structure Exactly (S : Set (List VectorRecord × Bytes)) (s : Installation β) : Prop where
  backend : s.backend.Exactly
  files : s.files.Labelled S
  saved : ∀ c, s.saved = some c → (c.rows,c.embeddingIdentity) ∈ S ∧ ∃ catalog, Filed catalog ∧
    c.documents = catalog.values

variable {parameters : Bytes} {S : Set (List VectorRecord × Bytes)} {s t : Installation β}

lemma Exactly.checkpoint (h : s.Exactly S) (walPosition : ℕ) (written : Bool)
    (hrows : s.Collected S (.checkpoint walPosition written)) :
    (s.checkpoint parameters walPosition written).Exactly S := by
  obtain ⟨rows,hmatrix,hsound⟩ := h.backend
  have hfiled := hsound.faithful.filed
  refine ⟨⟨rows,hmatrix,hsound.exact,hsound.faithful⟩,?_,?_⟩
  · cases written with
    | false => exact h.files
    | true => exact h.files.write hrows.1
  · intro c hc
    cases hc
    have hdocuments : (s.backend.snapshot walPosition).documents =
      s.backend.active.documents.values := rfl
    rw [rows_eq hfiled hdocuments]
    exact ⟨hrows.2,_,hfiled,hdocuments⟩

/-- A restart with an exact policy comes to a matrix of the rows of the checkpoint. -/
lemma Exactly.restart (h : s.Exactly S) (hfp : ExactlyTold S) {policy : EmbeddedMaintenancePolicy}
    (hpolicy : policy.dense.algorithm = .exact) {written : Bool}
    (hrestart : s.restart parameters policy written = some t) : t.Exactly S := by
  obtain ⟨c,documents,dense,files,g,hsaved,hdocuments,hdense,hbuild,rfl⟩ := restart_eq_some hrestart
  obtain ⟨hrows,catalog,hfiled,hcatalog⟩ := h.saved c hsaved
  obtain ⟨index,hindex,hshape⟩ := restoreDense_exact h.files hfp hrows hpolicy hdense
  rw [hcatalog] at hdocuments
  obtain ⟨hout,rfl⟩ := EmbeddedBackend.restoreDocuments_values hfiled hdocuments
  refine ⟨?_,h.files.restore hfp hrows hdense,?_⟩
  · exact EmbeddedBackend.Exactly.of_held hpolicy hindex hshape hbuild hout
      (rows_eq hfiled hcatalog)
  · intro c' hc'
    cases hc'
    exact ⟨hrows,_,hfiled,hcatalog⟩

lemma Exactly.step (h : s.Exactly S) (hfp : ExactlyTold S) {op : Op} (hcollected : s.Collected S op)
    (hexact : op.Exact) (hkeeps : s.KeepsVectors op) (hstep : s.step parameters op = some t) :
    t.Exactly S := by
  cases op with
  | activate document revision =>
    cases hstep
    exact ⟨h.backend.activate hkeeps,h.files,h.saved⟩
  | erase document revision =>
    cases hstep
    exact ⟨h.backend.erase document revision,h.files,h.saved⟩
  | compact overrideMemoryBudget =>
    cases hstep
    exact ⟨h.backend.compact overrideMemoryBudget,h.files,h.saved⟩
  | checkpoint walPosition written =>
    cases hstep
    exact h.checkpoint walPosition written hcollected
  | lose exact hnsw =>
    cases hstep
    exact ⟨h.backend,h.files.lose exact hnsw,h.saved⟩
  | restart policy written => exact h.restart hfp hexact hstep

omit [GraphIndex β] in
lemma exactly_fresh (analysis : Lexical.Analysis) {policy : EmbeddedMaintenancePolicy}
    (hpolicy : policy.dense.algorithm = .exact) :
    (fresh analysis policy : Installation β).Exactly S := by
  refine ⟨EmbeddedBackend.exactly_start analysis hpolicy,?_,?_⟩
  · intro file hfile
    cases hfile
  · intro c hc
    cases hc

/-- After a run that keeps the vectors of shared rows, the dense candidates are the best of the
active chunks, whether the base is in memory or in a file. -/
theorem denseCandidates_of_run (hfp : ExactlyTold S) (analysis : Lexical.Analysis)
    {policy : EmbeddedMaintenancePolicy} (hpolicy : policy.dense.algorithm = .exact)
    {ops : List Op} {s : Installation β}
    (hmeets : Machine.Meets (step (β := β) parameters)
      (fun s op => s.Collected S op ∧ op.Exact ∧ s.KeepsVectors op) (fresh analysis policy) ops)
    (hrun : Machine.run (step parameters) (fresh analysis policy) ops = some s)
    (hembedded : ∀ x ∈ liveChunks s.backend.active.documents.entries, x.chunk.embedding ≠ [])
    {request : DenseRequest} (hk : 1 ≤ request.k) (hquery : normalizedDouble request.query = true)
    (hlen : request.query.length = s.backend.active.dimension) :
    ∃ candidates, s.backend.active.denseCandidates request = .ok candidates ∧
      candidates =
        topK CandidateOrder request.k (scan s.backend.active request.query request.filter) ∧
      candidates.length =
        min request.k (passing s.backend.active.documents.entries request.filter).length := by
  have hexactly : s.Exactly S :=
    Machine.run_invariant (fun _ _ _ hi hc hs => hi.step hfp hc.1 hc.2.1 hc.2.2 hs)
      (exactly_fresh analysis hpolicy) hmeets hrun
  refine ⟨_,hexactly.backend.denseCandidates hembedded (by omega) hquery hlen,rfl,?_⟩
  rw [topK_length,scan,List.length_map]

section reheaded

instance : DecidablePred Op.Exact := fun op =>
  match op with
  | .restart policy _ => inferInstanceAs (Decidable (policy.dense.algorithm = .exact))
  | .activate _ _ | .erase _ _ | .compact _ | .checkpoint _ _ | .lose _ _ => isTrue trivial

instance (s : Installation β) (op : Op) : Decidable (s.KeepsVectors op) :=
  match op with
  | .activate document revision => inferInstanceAs (Decidable
      ((s.backend.activate document revision).1 = .ok () →
        s.backend.stale document.key revision = false →
          ∀ c ∈ document.chunks, c.embedding ≠ [] →
            s.backend.active.dense.containsBase c.key = true →
              ⟨c.key,c.embedding⟩ ∈ s.backend.active.dense.base.index.held))
  | .erase _ _ | .compact _ | .checkpoint _ _ | .lose _ _ | .restart _ _ => isTrue trivial

/-- One heading over one line, taken from its file after a restart, then given another heading: the
line keeps its key. -/
def reheaded (v : Vec) : List Op :=
  [.activate (EmbeddedBackend.headed 'A' [1,0]) 1,.compact true,.checkpoint 0 true,
    .restart EmbeddedBackend.exactPolicy true,.activate (EmbeddedBackend.headed 'B' v) 2]

def afterReheaded (v : Vec) : Installation LinkedGraph :=
  (Machine.run (step []) (fresh noTerms EmbeddedBackend.exactPolicy) (reheaded v)).getD
    (fresh noTerms EmbeddedBackend.exactPolicy)

lemma run_reheaded {v : Vec} (h : (Machine.run (step [])
      (fresh (β := LinkedGraph) noTerms EmbeddedBackend.exactPolicy) (reheaded v)).isSome) :
    Machine.run (step []) (fresh noTerms EmbeddedBackend.exactPolicy) (reheaded v) =
      some (afterReheaded v) := Machine.run_of_isSome _ h

def bestTwo : DenseRequest := ⟨[0,1],MetadataFilter.none,2⟩

theorem reheaded_denseCandidates :
    ∃ candidates, (afterReheaded [1,0]).backend.active.denseCandidates bestTwo = .ok candidates ∧
      candidates = topK CandidateOrder 2
        (scan (afterReheaded [1,0]).backend.active [0,1] MetadataFilter.none) ∧
      candidates.length = min 2 (passing
        (afterReheaded [1,0]).backend.active.documents.entries MetadataFilter.none).length :=
  have hmeets : Machine.Meets (step (β := LinkedGraph) []) (fun s op =>
      s.Collected {headedRows [1,0]} op ∧ op.Exact ∧ s.KeepsVectors op)
      (fresh noTerms EmbeddedBackend.exactPolicy) (reheaded [1,0]) := by decide +kernel
  denseCandidates_of_run (exactlyTold_singleton (headedRows [1,0])) noTerms rfl hmeets
    (run_reheaded (by decide +kernel)) (by decide +kernel) (by decide) (by decide +kernel)
    (by decide +kernel)

/-- The base keeps the vector that the line had under the old heading. -/
theorem reheaded_keeps_old_vector :
    ¬ ∀ (S : Set (List VectorRecord × Bytes)) (ops : List Op) (s : Installation LinkedGraph)
      (request : DenseRequest), ExactlyTold S →
      Machine.Meets (step (β := LinkedGraph) []) (fun s op => s.Collected S op ∧ op.Exact)
        (fresh noTerms EmbeddedBackend.exactPolicy) ops →
      Machine.run (step []) (fresh noTerms EmbeddedBackend.exactPolicy) ops = some s →
      (∀ x ∈ liveChunks s.backend.active.documents.entries, x.chunk.embedding ≠ []) →
      1 ≤ request.k → normalizedDouble request.query = true →
      request.query.length = s.backend.active.dimension →
      s.backend.active.denseCandidates request = .ok
        (topK CandidateOrder request.k (scan s.backend.active request.query request.filter)) := by
  intro h
  have hmeets : Machine.Meets (step (β := LinkedGraph) []) (fun s op =>
      s.Collected {headedRows [1,0]} op ∧ op.Exact)
      (fresh noTerms EmbeddedBackend.exactPolicy) (reheaded [0,1]) := by decide +kernel
  have hdiffer : (afterReheaded [0,1]).backend.active.denseCandidates bestTwo ≠
      .ok (topK CandidateOrder 2
        (scan (afterReheaded [0,1]).backend.active [0,1] MetadataFilter.none)) := by decide +kernel
  exact hdiffer (h _ (reheaded [0,1]) _ bestTwo (exactlyTold_singleton (headedRows [1,0])) hmeets
    (run_reheaded (by decide +kernel)) (by decide +kernel) (by decide) (by decide +kernel)
    (by decide +kernel))

end reheaded

end Installation

end
end RagRuntime.Backend
