import RagRuntime.Backend.DenseRun
import RagRuntime.Dense.NativeSidecar

/-! Checkpoints and restarts of an embedded backend that keeps sidecar files. What a sidecar
carries of a base is what the checkpoint has, if no chunk keeps its key while its vector
changes. -/
namespace RagRuntime.Backend
open RagRuntime.Base RagRuntime.Core RagRuntime.Dense RagRuntime.Preparation

structure Sidecars (β : Type) where
  exact : Option ExactSidecar
  hnsw : Option (HnswSidecar β)

/-- A backend with the files of one checkpoint path. -/
structure Installation (β : Type) where
  backend : EmbeddedBackend (NativeBase β)
  saved : Option EmbeddedCheckpoint
  files : Sidecars β

section
variable {β : Type} [GraphIndex β]

/-- The sidecar that `checkpoint` writes beside the file, if the file system takes it. -/
def writeSidecar (parameters : Bytes) (policy : DensePolicy) (g : Generation (NativeBase β))
    (files : Sidecars β) : Sidecars β :=
  let rows := liveRows g.documents.entries
  match resolveDenseAlgorithm policy rows.length with
  | .ok .exact =>
    match writeExactSidecar (exactSidecarFingerprint rows g.embeddingIdentity) rows with
    | .ok file => { files with exact := some file }
    | .error _ => files
  | .ok .hnsw =>
    if g.dense.deltaKeys = ∅ ∧ g.dense.tombstones = ∅ then
      match g.dense.base.index with
      | .approximate (.graph graph) =>
        match writeHnswSidecar (hnswSidecarFingerprint parameters rows g.embeddingIdentity)
          graph with
        | .ok file => { files with hnsw := some file }
        | .error _ => files
      | _ => files
    else files
  | _ => files

/-- Open the exact sidecar; one that does not fit is written anew. -/
def openExact (fingerprint : Bytes) (rows : List VectorRecord) (written : Bool)
    (files : Sidecars β) : Option MappedExactIndex × Sidecars β :=
  match MappedExactIndex.open files.exact fingerprint with
  | .ok index => (some index,files)
  | .error _ =>
    match written,writeExactSidecar fingerprint rows with
    | true,.ok file =>
      ((MappedExactIndex.open (some file) fingerprint).toOption,{ files with exact := some file })
    | _,_ => (none,files)

/-- The sidecar of a graph that has just been built. -/
def keepGraph (fingerprint : Bytes) (written : Bool) (dense : TieredDenseIndex (NativeBase β))
    (files : Sidecars β) : Sidecars β :=
  match written,dense.base.index with
  | true,.approximate (.graph graph) =>
    match writeHnswSidecar fingerprint graph with
    | .ok file => { files with hnsw := some file }
    | .error _ => files
  | _,_ => files

/-- The dense base of a restored checkpoint: from its sidecar, or built from the vectors. -/
def restoreDense (parameters : Bytes) (policy : DensePolicy) (rows : List VectorRecord)
    (identity : Bytes) (written : Bool) (files : Sidecars β) :
    Result (TieredDenseIndex (NativeBase β)) × Sidecars β :=
  let keys := rows.map VectorRecord.key
  let dimension := NativeExactIndex.firstDimension rows
  match resolveDenseAlgorithm policy rows.length with
  | .error e => (.error e,files)
  | .ok .hnsw =>
    let fingerprint := hnswSidecarFingerprint parameters rows identity
    match loadHnswSidecar files.hnsw fingerprint keys with
    | .ok graph => (TieredDenseIndex.fromBase (.graph graph) keys dimension,files)
    | .error _ =>
      match TieredDenseIndex.compact rows dimension policy with
      | .error e => (.error e,files)
      | .ok dense => (.ok dense,keepGraph fingerprint written dense files)
  | .ok _ =>
    match openExact (exactSidecarFingerprint rows identity) rows written files with
    | (some index,files) => (TieredDenseIndex.fromBase (.mapped index) keys dimension,files)
    | (none,files) => (TieredDenseIndex.compact rows dimension policy,files)

def EmbeddedCheckpoint.rows (c : EmbeddedCheckpoint) : List VectorRecord :=
  liveRows (c.documents.map fun entry => (entry.prepared.key,entry))

/-- The last identity that is not empty. -/
def EmbeddedCheckpoint.embeddingIdentity (c : EmbeddedCheckpoint) : Bytes :=
  c.documents.foldl (fun identity entry =>
    if entry.prepared.embeddingIdentity = [] then identity else entry.prepared.embeddingIdentity) []

def restoreWith (parameters : Bytes) (analysis : Lexical.Analysis)
    (policy : EmbeddedMaintenancePolicy) (checkpoint : EmbeddedCheckpoint) (written : Bool)
    (files : Sidecars β) : Result (EmbeddedBackend (NativeBase β)) × Sidecars β :=
  if checkpoint.revisions.entries.any fun e => e.1 = [] ∨ e.2 = 0 then
    (fail .corruptIndex "checkpoint revision catalog is invalid",files)
  else
    match EmbeddedBackend.restoreDocuments checkpoint.revisions checkpoint.documents ∅ with
    | .error e => (.error e,files)
    | .ok documents =>
      match restoreDense parameters policy.dense checkpoint.rows checkpoint.embeddingIdentity
        written
        files with
      | (.error e,files) => (.error e,files)
      | (.ok dense,files) =>
        match buildGeneration analysis documents dense ∅ ∅ checkpoint.generation with
        | .error e =>
          (fail .corruptIndex ("checkpoint generation is invalid: " ++ e.message),files)
        | .ok restored =>
          (.ok ⟨analysis,policy,checkpoint.revisions,restored,checkpoint.walPosition⟩,files)

/-- What a restore that succeeds has done. -/
lemma restoreWith_ok {parameters : Bytes} {analysis : Lexical.Analysis}
    {policy : EmbeddedMaintenancePolicy} {c : EmbeddedCheckpoint} {written : Bool}
    {files files' : Sidecars β} {b : EmbeddedBackend (NativeBase β)}
    (h : restoreWith parameters analysis policy c written files = (.ok b,files')) :
    ∃ documents dense g,
      EmbeddedBackend.restoreDocuments c.revisions c.documents ∅ = .ok documents ∧
      restoreDense parameters policy.dense c.rows c.embeddingIdentity written files =
        (.ok dense,files') ∧
      buildGeneration analysis documents dense ∅ ∅ c.generation = .ok g ∧
      b = ⟨analysis,policy,c.revisions,g,c.walPosition⟩ := by
  unfold restoreWith at h
  split_ifs at h with hrevisions
  · cases h
  · cases hdocuments : EmbeddedBackend.restoreDocuments c.revisions c.documents ∅ with
    | error e =>
      rw [hdocuments] at h
      cases h
    | ok documents =>
      rw [hdocuments] at h
      cases hdense : restoreDense parameters policy.dense c.rows c.embeddingIdentity written
          files with
      | mk out after =>
        cases out with
        | error e =>
          simp only [hdense] at h
          cases h
        | ok dense =>
          simp only [hdense] at h
          cases hbuild : buildGeneration analysis documents dense ∅ ∅ c.generation with
          | error e =>
            simp only [hbuild] at h
            cases h
          | ok g =>
            simp only [hbuild] at h
            cases h
            exact ⟨documents,dense,g,rfl,rfl,hbuild,rfl⟩

lemma restoreWith_of {parameters : Bytes} {analysis : Lexical.Analysis}
    {policy : EmbeddedMaintenancePolicy} {c : EmbeddedCheckpoint} {written : Bool}
    {files files' : Sidecars β} {documents : Catalog} {dense : TieredDenseIndex (NativeBase β)}
    {g : Generation (NativeBase β)}
    (hrevisions : (c.revisions.entries.any fun e => e.1 = [] ∨ e.2 = 0) = false)
    (hdocuments : EmbeddedBackend.restoreDocuments c.revisions c.documents ∅ = .ok documents)
    (hdense : restoreDense parameters policy.dense c.rows c.embeddingIdentity written files =
      (.ok dense,files'))
    (hbuild : buildGeneration analysis documents dense ∅ ∅ c.generation = .ok g) :
    restoreWith parameters analysis policy c written files =
      (.ok ⟨analysis,policy,c.revisions,g,c.walPosition⟩,files') := by
  unfold restoreWith
  rw [hrevisions,if_neg Bool.false_ne_true,hdocuments]
  simp only [hdense,hbuild]

namespace Installation

/-- `written` tells whether the file system takes a sidecar; the sidecars can be lost any time. -/
inductive Op where
  | activate (document : PreparedDocument) (revision : ℕ)
  | erase (document : Bytes) (revision : ℕ)
  | compact (overrideMemoryBudget : Bool)
  | checkpoint (walPosition : ℕ) (written : Bool)
  | lose (exact hnsw : Bool)
  | restart (policy : EmbeddedMaintenancePolicy) (written : Bool)

def lose (s : Installation β) (exact hnsw : Bool) : Installation β :=
  { s with files := ⟨if exact then none else s.files.exact,if hnsw then none else s.files.hnsw⟩ }

def checkpoint (parameters : Bytes) (s : Installation β) (walPosition : ℕ) (written : Bool) :
    Installation β where
  backend := { s.backend with checkpointWalPosition := walPosition }
  saved := some (s.backend.snapshot walPosition)
  files :=
    if written then writeSidecar parameters s.backend.policy.dense s.backend.active s.files
    else s.files

/-- Open the checkpoint that is there. -/
def restart (parameters : Bytes) (s : Installation β) (policy : EmbeddedMaintenancePolicy)
    (written : Bool) : Option (Installation β) :=
  match s.saved with
  | none => none
  | some c =>
    match restoreWith parameters s.backend.analysis policy c written s.files with
    | (.error _,_) => none
    | (.ok backend,files) => some ⟨backend,some c,files⟩

def step (parameters : Bytes) (s : Installation β) : Op → Option (Installation β)
  | .activate document revision =>
    some { s with backend := (s.backend.activate document revision).2 }
  | .erase document revision => some { s with backend := (s.backend.erase document revision).2 }
  | .compact overrideMemoryBudget =>
    some { s with backend := (s.backend.compact overrideMemoryBudget).2 }
  | .checkpoint walPosition written => some (s.checkpoint parameters walPosition written)
  | .lose exact hnsw => some (s.lose exact hnsw)
  | .restart policy written => s.restart parameters policy written

def fresh (analysis : Lexical.Analysis) (policy : EmbeddedMaintenancePolicy) : Installation β :=
  ⟨EmbeddedBackend.start analysis policy,none,⟨none,none⟩⟩

end Installation

/-- Under the key of one of `rows` the graph holds that row. -/
def Reflects (graph : β) (rows : List VectorRecord) : Prop :=
  ∀ held ∈ GraphIndex.rows graph, ∀ row ∈ rows, row.key = held.key →
    held = GraphIndex.image β row

/-- The fingerprints of the matrices in `S`, each with an embedding identity, tell them apart. -/
def ExactlyTold (S : Set (List VectorRecord × Bytes)) : Prop :=
  ∀ x ∈ S, ∀ y ∈ S,
    exactSidecarFingerprint x.1 x.2 = exactSidecarFingerprint y.1 y.2 → x.1 = y.1

/-- The fingerprints of the row lists in `S` tell them apart. -/
structure NoCollision (parameters : Bytes) (S : Set (List VectorRecord × Bytes)) : Prop where
  exact : ExactlyTold S
  hnsw : ∀ x ∈ S, ∀ y ∈ S, hnswSidecarFingerprint parameters x.1 x.2 =
    hnswSidecarFingerprint parameters y.1 y.2 → x.1 = y.1

/-- The matrix in the file is that of the rows it was fingerprinted for. -/
def Sidecars.Labelled (S : Set (List VectorRecord × Bytes)) (files : Sidecars β) : Prop :=
  ∀ file, files.exact = some file → ∃ x ∈ S, file =
    ⟨exactSidecarFingerprint x.1 x.2,NativeExactIndex.firstDimension x.1,x.1⟩

/-- A sidecar has the rows of the checkpoint it was fingerprinted for, if it has their keys. -/
structure Sidecars.Sound (parameters : Bytes) (S : Set (List VectorRecord × Bytes))
    (files : Sidecars β) : Prop where
  exact : files.Labelled S
  hnsw : ∀ file, files.hnsw = some file → file.keys = GraphIndex.keys file.graph ∧
    ∃ x ∈ S, (file.keys = x.1.map VectorRecord.key →
        GraphIndex.rows file.graph = x.1.map (GraphIndex.image β)) ∧
      file.fingerprint = hnswSidecarFingerprint parameters x.1 x.2

lemma Reflects.rows_eq {graph : β} {rows : List VectorRecord} (h : Reflects graph rows)
    (hkeys : GraphIndex.keys graph = rows.map VectorRecord.key) :
    GraphIndex.rows graph = rows.map (GraphIndex.image β) := by
  apply List.ext_getElem
  · have := congrArg List.length hkeys
    simpa [GraphIndex.keys] using this
  · intro i hi hi'
    rw [List.getElem_map]
    apply h _ (List.getElem_mem _) _ (List.getElem_mem _)
    have := congrArg (fun keys => keys[i]?) hkeys
    rw [List.length_map] at hi'
    simp only [GraphIndex.keys,List.getElem?_map,List.getElem?_eq_getElem hi,
      List.getElem?_eq_getElem hi',Option.map_some,Option.some.injEq] at this
    exact this.symm

section restore

variable {parameters : Bytes} {S : Set (List VectorRecord × Bytes)}
  {files files' : Sidecars β} {rows : List VectorRecord} {identity : Bytes} {written : Bool}
  {policy : DensePolicy} {dense : TieredDenseIndex (NativeBase β)}

lemma writeHnswSidecar_ok {fingerprint : Bytes} {graph : β} {file : HnswSidecar β}
    (h : writeHnswSidecar fingerprint graph = .ok file) :
    file = ⟨fingerprint,GraphIndex.keys graph,GraphIndex.dimension graph,graph⟩ := by
  unfold writeHnswSidecar at h
  split_ifs at h
  · cases h
  · cases h
    rfl

omit [GraphIndex β] in
/-- A matrix that is written is labelled for what it has. -/
lemma Sidecars.labelled_written (hrows : (rows,identity) ∈ S) {file : ExactSidecar}
    (hfile : writeExactSidecar (exactSidecarFingerprint rows identity) rows = .ok file) :
    Sidecars.Labelled S { files with exact := some file } := by
  intro f hf
  cases hf
  exact ⟨_,hrows,writeExactSidecar_ok hfile⟩

lemma Sidecars.Sound.with_hnsw (h : files.Sound parameters S) (hrows : (rows,identity) ∈ S)
    {graph : β} {file : HnswSidecar β} (hgraph : GraphIndex.keys graph = rows.map VectorRecord.key →
      GraphIndex.rows graph = rows.map (GraphIndex.image β))
    (hfile : writeHnswSidecar (hnswSidecarFingerprint parameters rows identity) graph = .ok file) :
    Sidecars.Sound parameters S { files with hnsw := some file } := by
  refine ⟨h.exact,?_⟩
  intro f hf
  cases hf
  obtain rfl := writeHnswSidecar_ok hfile
  exact ⟨rfl,_,hrows,hgraph,rfl⟩

omit [GraphIndex β] in
/-- A sidecar opened with the fingerprint of `rows` has these rows. -/
lemma Sidecars.Labelled.open_exact (h : files.Labelled S) (hfp : ExactlyTold S)
    (hrows : (rows,identity) ∈ S) {index : MappedExactIndex}
    (hopen : MappedExactIndex.open files.exact (exactSidecarFingerprint rows identity) =
      .ok index) :
    index = ⟨rows,NativeExactIndex.firstDimension rows⟩ := by
  obtain ⟨file,hfile,hfingerprint,rfl⟩ := MappedExactIndex.open_ok hopen
  obtain ⟨x,hx,rfl⟩ := h file hfile
  rw [hfp x hx _ hrows hfingerprint]

omit [GraphIndex β] in
/-- Opening a matrix comes to the rows, and touches no graph. -/
lemma Sidecars.Labelled.opened (h : files.Labelled S) (hfp : ExactlyTold S)
    (hrows : (rows,identity) ∈ S) {out : Option MappedExactIndex}
    (hopen : openExact (exactSidecarFingerprint rows identity) rows written files =
      (out,files')) :
    files'.Labelled S ∧ files'.hnsw = files.hnsw ∧
      ∀ index, out = some index → index = ⟨rows,NativeExactIndex.firstDimension rows⟩ := by
  unfold openExact at hopen
  cases hfile : MappedExactIndex.open files.exact (exactSidecarFingerprint rows identity) with
  | ok index =>
    rw [hfile] at hopen
    cases hopen
    refine ⟨h,rfl,?_⟩
    intro found hfound
    cases hfound
    exact h.open_exact hfp hrows hfile
  | error e =>
    rw [hfile] at hopen
    dsimp only at hopen
    split at hopen
    · rename_i file hwrite
      have hlabelled : Sidecars.Labelled S { files with exact := some file } :=
        Sidecars.labelled_written hrows hwrite
      cases hopen
      refine ⟨hlabelled,rfl,?_⟩
      intro found hfound
      refine @Sidecars.Labelled.open_exact _ _ _ _ identity hlabelled hfp hrows _ ?_
      cases hagain : MappedExactIndex.open (some file) (exactSidecarFingerprint rows identity) with
      | error e =>
        rw [hagain] at hfound
        cases hfound
      | ok index =>
        rw [hagain] at hfound
        cases hfound
        rfl
    · cases hopen
      exact ⟨h,rfl,fun found hfound => by cases hfound⟩

lemma openExact_sound (h : files.Sound parameters S) (hfp : NoCollision parameters S)
    (hrows : (rows,identity) ∈ S) {out : Option MappedExactIndex}
    (hopen : openExact (exactSidecarFingerprint rows identity) rows written files = (out,files')) :
    files'.Sound parameters S ∧
      ∀ index, out = some index → index = ⟨rows,NativeExactIndex.firstDimension rows⟩ := by
  obtain ⟨hlabelled,hgraph,hfound⟩ := h.exact.opened hfp.exact hrows hopen
  exact ⟨⟨hlabelled,hgraph ▸ h.hnsw⟩,hfound⟩

variable [LawfulGraphIndex β]

/-- A base that stands for the rows of a checkpoint, with nothing in front of it. -/
structure Restored (rows : List VectorRecord) (dense : TieredDenseIndex (NativeBase β)) : Prop where
  held : dense.base.index.held = rows.map dense.base.index.image
  shape : dense = ⟨⟨dense.base.index,rowKeys rows,NativeExactIndex.firstDimension rows⟩,
    NativeExactIndex.empty,∅,∅,NativeExactIndex.firstDimension rows⟩

/-- What a compaction makes holds the rows. -/
lemma compact_restored {dimension : ℕ}
    (h : TieredDenseIndex.compact rows dimension policy = .ok dense) :
    dense.base.index.held = rows.map dense.base.index.image ∧
      dense = ⟨⟨dense.base.index,rowKeys rows,dimension⟩,NativeExactIndex.empty,∅,∅,dimension⟩ := by
  unfold TieredDenseIndex.compact at h
  split_ifs at h with hdims
  · cases h
  · cases hindex : buildDenseIndex (β := NativeBase β) policy rows with
    | error e =>
      rw [hindex] at h
      cases h
    | ok index =>
      rw [hindex] at h
      cases h
      refine ⟨?_,rfl⟩
      unfold buildDenseIndex at hindex
      cases halgorithm : resolveDenseAlgorithm policy rows.length with
      | error e =>
        rw [halgorithm] at hindex
        cases hindex
      | ok algorithm =>
        simp only [halgorithm,bind,Except.bind] at hindex
        have hexact : ∀ out : Result NativeExactIndex, out = NativeExactIndex.build rows →
            (out.bind fun index => Except.ok (DenseIndex.exact (β := NativeBase β) index)) =
              .ok index → index.held = rows.map index.image := by
          intro out hout hindex
          cases out with
          | error e => cases hindex
          | ok built =>
            cases hindex
            rw [(NativeExactIndex.build_eq_ok.mp hout.symm).2]
            exact (List.map_id _).symm
        cases algorithm with
        | automatic => exact hexact _ rfl hindex
        | exact => exact hexact _ rfl hindex
        | hnsw =>
          simp only [ApproximateIndex.build] at hindex
          cases hgraph : ApproximateIndex.build (β := β) rows with
          | error e =>
            rw [hgraph] at hindex
            cases hindex
          | ok graph =>
            rw [hgraph] at hindex
            cases hindex
            exact LawfulGraphIndex.build hgraph

lemma keepGraph_sound (h : files.Sound parameters S) (hrows : (rows,identity) ∈ S) {dimension : ℕ}
    (hdense : TieredDenseIndex.compact rows dimension policy = .ok dense) :
    (keepGraph (hnswSidecarFingerprint parameters rows identity) written dense files).Sound
      parameters S := by
  unfold keepGraph
  split
  · rename_i graph hgraph
    have hheld := (compact_restored hdense).1
    rw [hgraph] at hheld
    cases hfile : writeHnswSidecar (hnswSidecarFingerprint parameters rows identity) graph with
    | error e => exact h
    | ok file => exact h.with_hnsw hrows (fun _ => hheld) hfile
  · exact h

/-- Whether a sidecar is there or not, a restore comes to a base that stands for the rows. -/
theorem restoreDense_restored (h : files.Sound parameters S) (hfp : NoCollision parameters S)
    (hrows : (rows,identity) ∈ S) {out : Result (TieredDenseIndex (NativeBase β))}
    (hrestore : restoreDense parameters policy rows identity written files = (out,files')) :
    files'.Sound parameters S ∧ ∀ dense, out = .ok dense → Restored rows dense := by
  have hcompact : ∀ dense : TieredDenseIndex (NativeBase β), TieredDenseIndex.compact rows
      (NativeExactIndex.firstDimension rows) policy = .ok dense → Restored rows dense :=
    fun dense hdense => ⟨(compact_restored hdense).1,(compact_restored hdense).2⟩
  have hexact : ∀ algorithm : DenseAlgorithm,
      (match openExact (exactSidecarFingerprint rows identity) rows written files with
        | (some index,files) => (TieredDenseIndex.fromBase (.mapped index)
            (rows.map VectorRecord.key) (NativeExactIndex.firstDimension rows),files)
        | (none,files) => (TieredDenseIndex.compact rows (NativeExactIndex.firstDimension rows)
            policy,files)) = (out,files') →
      files'.Sound parameters S ∧ ∀ dense, out = .ok dense → Restored rows dense := by
    intro _ hrestore
    cases hopen : openExact (exactSidecarFingerprint rows identity) rows written files with
    | mk found after =>
      obtain ⟨hsound,hfound⟩ := openExact_sound h hfp hrows hopen
      rw [hopen] at hrestore
      cases found with
      | none =>
        cases hrestore
        exact ⟨hsound,hcompact⟩
      | some index =>
        obtain rfl := hfound index rfl
        cases hrestore
        refine ⟨hsound,?_⟩
        intro dense hdense
        obtain rfl := TieredDenseIndex.fromBase_ok hdense
        exact ⟨(List.map_id _).symm,rfl⟩
  unfold restoreDense at hrestore
  cases hresolve : resolveDenseAlgorithm policy rows.length with
  | error e =>
    rw [hresolve] at hrestore
    cases hrestore
    exact ⟨h,fun dense hdense => by cases hdense⟩
  | ok algorithm =>
    rw [hresolve] at hrestore
    cases algorithm with
    | automatic => exact hexact .automatic hrestore
    | exact => exact hexact .exact hrestore
    | hnsw =>
      dsimp only at hrestore
      cases hload : loadHnswSidecar files.hnsw (hnswSidecarFingerprint parameters rows identity)
          (rows.map VectorRecord.key) with
      | ok graph =>
        rw [hload] at hrestore
        cases hrestore
        refine ⟨h,?_⟩
        intro dense hdense
        obtain rfl := TieredDenseIndex.fromBase_ok hdense
        obtain ⟨file,hfile,hfingerprint,hkeys,hreload⟩ := loadHnswSidecar_ok hload
        obtain ⟨hown,x,hx,hheld,hfor⟩ := h.hnsw file hfile
        obtain rfl := hfp.hnsw _ hrows x hx (hfingerprint.symm.trans hfor)
        rw [← hkeys,hown] at hreload
        refine ⟨?_,rfl⟩
        exact (LawfulGraphIndex.reload hreload).trans (hheld hkeys)
      | error e =>
        rw [hload] at hrestore
        dsimp only at hrestore
        cases hdense : TieredDenseIndex.compact (β := NativeBase β) rows
            (NativeExactIndex.firstDimension rows) policy with
        | error e =>
          rw [hdense] at hrestore
          cases hrestore
          exact ⟨h,fun dense hdense => by cases hdense⟩
        | ok dense =>
          rw [hdense] at hrestore
          cases hrestore
          refine ⟨keepGraph_sound h hrows hdense,?_⟩
          intro found hfound
          cases hfound
          exact hcompact _ hdense

end restore

/-- A graph at the base holds the vectors of the live chunks that the base represents. -/
def Generation.Truthful (g : Generation (NativeBase β)) : Prop :=
  ∀ graph, g.dense.base.index = .approximate (.graph graph) →
    g.dense.base.keys = (GraphIndex.keys graph).toFinset ∧
    ∀ x ∈ liveChunks g.documents.entries, x.chunk.embedding ≠ [] →
      g.dense.containsBase x.chunk.key = true → ∀ held ∈ GraphIndex.rows graph,
        x.chunk.key = held.key → held = GraphIndex.image β x.row

/-- The document changes no vector that a graph at the base represents. -/
def Generation.KeepsGraph (g : Generation (NativeBase β)) (document : PreparedDocument) : Prop :=
  ∀ graph, g.dense.base.index = .approximate (.graph graph) →
    ∀ c ∈ document.chunks, c.embedding ≠ [] → g.dense.containsBase c.key = true →
      ∀ held ∈ GraphIndex.rows graph, c.key = held.key →
        held = GraphIndex.image β ⟨c.key,c.embedding⟩

section truthful

variable {analysis : Lexical.Analysis} {catalog : Catalog} {dense : TieredDenseIndex (NativeBase β)}
  {inDelta tombstones : Finset Bytes} {n : ℕ} {g : Generation (NativeBase β)}

/-- A generation that keeps the base of another and hides no less of it. -/
lemma Generation.Truthful.of_built {old : Generation (NativeBase β)} (h : old.Truthful)
    (hbuilt : Built analysis catalog old.dense inDelta tombstones n g)
    (hold : old.dense.tombstones ⊆ tombstones)
    (hlive : ∀ x ∈ liveChunks catalog.entries, x ∈ liveChunks old.documents.entries ∨
      ∃ document, old.KeepsGraph document ∧ x.chunk ∈ document.chunks) : g.Truthful := by
  obtain ⟨-,-,-,-,hdense⟩ := TieredDenseIndex.withDelta_eq_ok.mp hbuilt.dense
  intro graph hgraph
  rw [hdense] at hgraph
  obtain ⟨hkeys,hheld⟩ := h graph hgraph
  refine ⟨by rw [hdense]; exact hkeys,?_⟩
  intro x hx hne hcontains held hmem hkey
  have hbefore : old.dense.containsBase x.chunk.key = true := by
    rw [hdense,TieredDenseIndex.containsBase_eq_true] at hcontains
    exact TieredDenseIndex.containsBase_eq_true.mpr ⟨hcontains.1,fun hk => hcontains.2 (hold hk)⟩
  rw [hbuilt.documents] at hx
  obtain hx | ⟨document,hkeeps,hchunk⟩ := hlive x hx
  · exact hheld x hx hne hbefore held hmem hkey
  · exact hkeeps graph hgraph x.chunk hchunk hne hbefore held hmem hkey

/-- A generation on a base that stands for all its rows. -/
lemma Generation.Truthful.of_held (hbuilt : Built analysis catalog dense ∅ ∅ n g)
    (hheld : dense.base.index.held = (liveRows catalog.entries).map dense.base.index.image)
    (hkeys : dense.base.keys = rowKeys (liveRows catalog.entries)) : g.Truthful := by
  obtain ⟨-,-,-,-,hdense⟩ := TieredDenseIndex.withDelta_eq_ok.mp hbuilt.dense
  intro graph hgraph
  rw [hdense] at hgraph
  rw [hgraph] at hheld
  change GraphIndex.rows graph = (liveRows catalog.entries).map (GraphIndex.image β) at hheld
  constructor
  · rw [hdense]
    change dense.base.keys = _
    rw [hkeys,GraphIndex.keys,hheld,List.map_map]
    rfl
  · intro x hx hne _ held hmem hkey
    rw [hbuilt.documents] at hx
    have hnodup : ((liveRows catalog.entries).map VectorRecord.key).Nodup := by
      rw [liveRows,List.map_map]
      exact hbuilt.keys.sublist (List.filter_sublist.map _)
    rw [hheld] at hmem
    obtain ⟨row,hrow,rfl⟩ := List.mem_map.mp hmem
    rw [List.inj_on_of_nodup_map hnodup (mem_liveRows hx hne) hrow hkey]

end truthful

namespace EmbeddedBackend

variable {b : EmbeddedBackend (NativeBase β)}

/-- What a run keeps of a backend. -/
structure Truthful (b : EmbeddedBackend (NativeBase β)) : Prop where
  filed : Filed b.active.documents
  active : b.active.Truthful

lemma Truthful.activate (h : b.Truthful) {document : PreparedDocument} {revision : ℕ}
    (hkeeps : (b.activate document revision).1 = .ok () →
      b.stale document.key revision = false → b.active.KeepsGraph document) :
    (b.activate document revision).2.Truthful := by
  obtain hcases := b.activate_activated document revision
  generalize b.activate document revision = out at hcases hkeeps
  cases hcases with
  | failed e => exact h
  | already _ => exact h
  | published hvalid hrevision hfresh next hbuilt =>
    refine ⟨hbuilt.documents ▸ h.filed.insert hvalid hrevision,?_⟩
    apply h.active.of_built hbuilt (b.subset_tombstonesAfter _ _)
    intro x hx
    obtain ⟨-,hchunk⟩ | ⟨-,hlive⟩ := live_insert hx
    · exact Or.inr ⟨document,hkeeps rfl hfresh,hchunk⟩
    · exact Or.inl hlive

lemma Truthful.erase (h : b.Truthful) (document : Bytes) (revision : ℕ) :
    (b.erase document revision).2.Truthful := by
  obtain hcases := b.erase_erased document revision
  generalize b.erase document revision = out at hcases
  cases hcases with
  | failed e => exact h
  | already _ _ => exact h
  | published hdocument hrevision hfresh next hbuilt =>
    refine ⟨hbuilt.documents ▸ h.filed.erase document,?_⟩
    apply h.active.of_built hbuilt (b.subset_tombstonesAfter _ _)
    exact fun x hx => Or.inl (live_erase hx).2

lemma Truthful.compact [LawfulGraphIndex β] (h : b.Truthful) (overrideMemoryBudget : Bool) :
    (b.compact overrideMemoryBudget).2.Truthful := by
  unfold EmbeddedBackend.compact
  split_ifs with hbudget
  · exact h
  · cases hcompact : TieredDenseIndex.compact (β := NativeBase β)
      (liveRows b.active.documents.entries) b.active.dimension b.policy.dense with
    | error e => exact h
    | ok dense =>
      dsimp only
      cases hbuild : buildGeneration b.analysis b.active.documents dense ∅ ∅
        (b.active.number+1) with
      | error e => exact h
      | ok next =>
        have hbuilt := buildGeneration_ok hbuild
        obtain ⟨hheld,hshape⟩ := compact_restored hcompact
        refine ⟨hbuilt.documents ▸ h.filed,?_⟩
        apply Generation.Truthful.of_held hbuilt hheld
        rw [hshape]

lemma truthful_start (analysis : Lexical.Analysis) (policy : EmbeddedMaintenancePolicy) :
    (start analysis policy : EmbeddedBackend (NativeBase β)).Truthful := by
  constructor
  · intro k a ha
    cases ha
  · intro graph hgraph
    cases hgraph

end EmbeddedBackend

/-- The same generation on another index of the same rows. -/
def Generation.onIndex (g : Generation (NativeBase β)) (index : DenseIndex (NativeBase β)) :
    Generation (NativeBase β) := { g with dense := g.dense.onIndex index }

omit [GraphIndex β] in
/-- What a generation has besides the tiers does not depend on the index at the base. -/
lemma buildGeneration_onIndex (analysis : Lexical.Analysis) (documents : Catalog)
    (t : TieredDenseIndex (NativeBase β)) (index : DenseIndex (NativeBase β))
    (inDelta tombstones : Finset Bytes) (number : ℕ) :
    buildGeneration analysis documents (t.onIndex index) inDelta tombstones number =
      (buildGeneration analysis documents t inDelta tombstones number).map
        fun g => g.onIndex index := by
  have hcontains : (t.onIndex index).containsBase = t.containsBase := rfl
  unfold buildGeneration
  rw [hcontains]
  cases documents.entries.foldlM (Assembly.assembleDocument inDelta t.containsBase)
      (Assembly.start analysis) with
  | error e => rfl
  | ok a =>
    simp only [bind,Except.bind]
    split_ifs
    · rfl
    · rw [TieredDenseIndex.withDelta_onIndex]
      cases t.withDelta a.deltaVectors tombstones a.dimension with
      | error e => rfl
      | ok dense => rfl

/-- A request to which it makes no difference whether the exact base is in memory or in a file. -/
def Generation.Indifferent (g : Generation (NativeBase β)) (request : DenseRequest) : Prop :=
  request.k = 0 ∨ g.chunks.entries = [] ∨ g.dimension = 0 ∨
    g.allowedKeys request.filter g.dense.containsBase = [] ∨
    request.query.length = g.dense.base.dimension ∧ ¬BetweenTolerances request.query

/-- A search of tiers without a delta is one of the base. -/
lemma search_of_no_delta (t : TieredDenseIndex (NativeBase β)) (query : Vec)
    (allowed : List Bytes) (k : ℕ) : t.search query allowed [] k =
      (TieredDenseIndex.searchTier (t.base.index.search query · k) allowed).map fun base =>
        let merged := TieredDenseIndex.dedup (base.insertionSort CandidateOrder) []
        if k = 0 then merged else merged.take k := by
  unfold TieredDenseIndex.search
  cases TieredDenseIndex.searchTier (t.base.index.search query · k) allowed with
  | error e => rfl
  | ok base =>
    simp only [bind,Except.bind,pure,Except.pure,TieredDenseIndex.searchTier,if_true,
      List.append_nil]
    rfl

/-- With nothing in front of the base, the two forms of an exact base answer alike to the requests
that are indifferent, and to no others. -/
theorem denseCandidates_mapped_iff {g : Generation (NativeBase β)} {rows : List VectorRecord}
    (hkeys : g.dense.base.keys = rowKeys rows) (hdelta : g.dense.deltaKeys = ∅)
    (request : DenseRequest) :
    (g.onIndex (.approximate (.mapped ⟨rows,g.dense.base.dimension⟩))).denseCandidates request =
      (g.onIndex (.exact ⟨rows,g.dense.base.dimension⟩)).denseCandidates request ↔
    g.Indifferent request := by
  have hnone : g.allowedKeys request.filter g.dense.containsDelta = [] := by
    simp [Generation.allowedKeys,TieredDenseIndex.containsDelta,hdelta]
  have hdenied : ∀ index, (g.onIndex index).allowedKeys request.filter
      (g.onIndex index).dense.containsDelta = [] := fun _ => hnone
  unfold Generation.denseCandidates Generation.Indifferent
  rw [hdenied,hdenied,search_of_no_delta,search_of_no_delta]
  change (if request.k = 0 then _ else if g.chunks.entries = [] then _
    else if g.dimension = 0 then _ else _) = (if request.k = 0 then _
      else if g.chunks.entries = [] then _ else if g.dimension = 0 then _ else _) ↔ _
  by_cases hk : request.k = 0
  · simp [hk]
  by_cases hchunks : g.chunks.entries = []
  · simp [hchunks]
  by_cases hdimension : g.dimension = 0
  · simp [hdimension]
  simp only [hk,hchunks,hdimension,if_false,false_or]
  change (TieredDenseIndex.searchTier _ (g.allowedKeys request.filter g.dense.containsBase)).map _ =
    (TieredDenseIndex.searchTier _ (g.allowedKeys request.filter g.dense.containsBase)).map _ ↔ _
  by_cases hallowed : g.allowedKeys request.filter g.dense.containsBase = []
  · simp [hallowed,TieredDenseIndex.searchTier]
  have hrows : rows ≠ [] := by
    rintro rfl
    obtain ⟨key,hkey⟩ := List.exists_mem_of_ne_nil _ hallowed
    obtain ⟨e,he,rfl⟩ := List.mem_map.mp hkey
    have hheld := (of_decide_eq_true (List.mem_filter.mp he).2).2
    rw [TieredDenseIndex.containsBase_eq_true,hkeys] at hheld
    exact absurd hheld.1 (by simp [rowKeys])
  simp only [TieredDenseIndex.searchTier,hallowed,if_false,false_or]
  have hiff := @MappedExactIndex.search_eq_iff rows g.dense.base.dimension request.query
    (g.allowedKeys request.filter g.dense.containsBase) request.k
  simp only [hk,hrows,false_or] at hiff
  rw [← hiff]
  change (MappedExactIndex.search _ _ _ _).map _ = (NativeExactIndex.search _ _ _ _).map _ ↔ _
  constructor
  · intro h
    generalize hmapped : MappedExactIndex.search ⟨rows,g.dense.base.dimension⟩ request.query
      (g.allowedKeys request.filter g.dense.containsBase) request.k = a at h ⊢
    generalize hnative : NativeExactIndex.search ⟨rows,g.dense.base.dimension⟩ request.query
      (g.allowedKeys request.filter g.dense.containsBase) request.k = b at h ⊢
    cases a with
    | error e =>
      cases b with
      | error e' => exact h
      | ok b => cases h
    | ok a =>
      cases b with
      | error e => cases h
      | ok b => rw [MappedExactIndex.search_ok_unique hmapped hnative]
  · intro h
    rw [h]

/-- With the exact policy a restore comes to the rows in memory or in the file. -/
lemma restoreDense_exact {parameters : Bytes} {S : Set (List VectorRecord × Bytes)}
    {files files' : Sidecars β} {rows : List VectorRecord} {identity : Bytes} {written : Bool}
    {policy : DensePolicy} {dense : TieredDenseIndex (NativeBase β)}
    (h : files.Labelled S) (hfp : ExactlyTold S) (hrows : (rows,identity) ∈ S)
    (hpolicy : policy.algorithm = .exact)
    (hrestore : restoreDense parameters policy rows identity written files = (.ok dense,files')) :
    ∃ index, (index = .exact ⟨rows,NativeExactIndex.firstDimension rows⟩ ∨
        index = .approximate (.mapped ⟨rows,NativeExactIndex.firstDimension rows⟩)) ∧
      dense = TieredDenseIndex.onIndex ⟨⟨.exact ⟨rows,NativeExactIndex.firstDimension rows⟩,
        rowKeys rows,NativeExactIndex.firstDimension rows⟩,NativeExactIndex.empty,∅,∅,
          NativeExactIndex.firstDimension rows⟩ index := by
  unfold restoreDense at hrestore
  cases hok : resolveDenseAlgorithm policy rows.length with
  | error e =>
    rw [hok] at hrestore
    cases hrestore
  | ok algorithm =>
    obtain rfl := resolveDenseAlgorithm_exact hpolicy hok
    rw [hok] at hrestore
    dsimp only at hrestore
    cases hopen : openExact (exactSidecarFingerprint rows identity) rows written files with
    | mk found after =>
      rw [hopen] at hrestore
      cases found with
      | none =>
        cases hcompact : TieredDenseIndex.compact (β := NativeBase β) rows
            (NativeExactIndex.firstDimension rows) policy with
        | error e =>
          simp only [hcompact,Prod.mk.injEq,reduceCtorEq,false_and] at hrestore
        | ok built =>
          simp only [hcompact,Prod.mk.injEq,Except.ok.injEq] at hrestore
          obtain ⟨rfl,-⟩ := hrestore
          exact ⟨_,Or.inl rfl,(compact_exact hpolicy hcompact).2⟩
      | some index =>
        obtain rfl := (h.opened hfp hrows hopen).2.2 index rfl
        simp only [Prod.mk.injEq] at hrestore
        exact ⟨_,Or.inr rfl,TieredDenseIndex.fromBase_ok hrestore.1⟩

namespace Installation

variable {parameters : Bytes} {S : Set (List VectorRecord × Bytes)} {s t : Installation β}

/-- The vectors that are checkpointed, with the identity that a sidecar is written under and the one
that it is looked for with, are among those that the fingerprints tell apart. -/
def Collected (S : Set (List VectorRecord × Bytes)) (s : Installation β) : Op → Prop
  | .checkpoint walPosition _ =>
    (liveRows s.backend.active.documents.entries,s.backend.active.embeddingIdentity) ∈ S ∧
      (liveRows s.backend.active.documents.entries,
        (s.backend.snapshot walPosition).embeddingIdentity) ∈ S
  | _ => True

/-- An activation that succeeds on a newer revision changes no vector that a graph at the base
represents. -/
def Keeps (s : Installation β) : Op → Prop
  | .activate document revision => (s.backend.activate document revision).1 = .ok () →
      s.backend.stale document.key revision = false → s.backend.active.KeepsGraph document
  | _ => True

structure Sound (parameters : Bytes) (S : Set (List VectorRecord × Bytes)) (s : Installation β) :
    Prop where
  backend : s.backend.Truthful
  files : s.files.Sound parameters S
  saved : ∀ c, s.saved = some c → (c.rows,c.embeddingIdentity) ∈ S ∧ ∃ catalog, Filed catalog ∧
    c.documents = catalog.values

/-- What a restart that succeeds has done. -/
lemma restart_eq_some {policy : EmbeddedMaintenancePolicy} {written : Bool}
    (h : s.restart parameters policy written = some t) : ∃ c documents dense files g,
      s.saved = some c ∧
      EmbeddedBackend.restoreDocuments c.revisions c.documents ∅ = .ok documents ∧
      restoreDense parameters policy.dense c.rows c.embeddingIdentity written s.files =
        (.ok dense,files) ∧
      buildGeneration s.backend.analysis documents dense ∅ ∅ c.generation = .ok g ∧
      t = ⟨⟨s.backend.analysis,policy,c.revisions,g,c.walPosition⟩,some c,files⟩ := by
  unfold restart at h
  cases hsaved : s.saved with
  | none =>
    rw [hsaved] at h
    cases h
  | some c =>
    simp only [hsaved] at h
    cases hrestore : restoreWith parameters s.backend.analysis policy c written s.files with
    | mk out files =>
      rw [hrestore] at h
      cases out with
      | error e => cases h
      | ok b =>
        obtain ⟨documents,dense,g,hdocuments,hdense,hbuild,rfl⟩ := restoreWith_ok hrestore
        exact ⟨c,documents,dense,files,g,rfl,hdocuments,hdense,hbuild,(Option.some.inj h).symm⟩

/-- The rows of a checkpoint are those of the catalog it was taken from. -/
lemma rows_eq {c : EmbeddedCheckpoint} {catalog : Catalog} (hfiled : Filed catalog)
    (h : c.documents = catalog.values) : c.rows = liveRows catalog.entries := by
  rw [EmbeddedCheckpoint.rows,h,hfiled.values_map]

lemma Sound.writeSidecar (h : s.Sound parameters S) (hrows :
    (liveRows s.backend.active.documents.entries,s.backend.active.embeddingIdentity) ∈ S) :
    (writeSidecar parameters s.backend.policy.dense s.backend.active s.files).Sound parameters
      S := by
  unfold RagRuntime.Backend.writeSidecar
  dsimp only
  split
  · split
    · rename_i file hfile
      exact ⟨Sidecars.labelled_written hrows hfile,h.files.hnsw⟩
    · exact h.files
  · split_ifs with hfront
    · split
      · rename_i graph hgraph
        split
        · rename_i file hfile
          obtain ⟨hkeys,hheld⟩ := h.backend.active graph hgraph
          refine h.files.with_hnsw hrows (Reflects.rows_eq ?_) hfile
          intro held hmem row hrow hkey
          obtain ⟨x,hx,rfl⟩ := List.mem_map.mp hrow
          obtain ⟨hx,hne⟩ := List.mem_filter.mp hx
          refine hheld x hx (by simpa using hne) ?_ held hmem hkey
          rw [TieredDenseIndex.containsBase_eq_true,hkeys,hfront.2]
          refine ⟨?_,Finset.notMem_empty _⟩
          rw [List.mem_toFinset]
          exact List.mem_map.mpr ⟨held,hmem,hkey.symm⟩
        · exact h.files
      · exact h.files
    · exact h.files
  · exact h.files

lemma Sound.lose (h : s.Sound parameters S) (exact hnsw : Bool) :
    (s.lose exact hnsw).Sound parameters S := by
  refine ⟨h.backend,⟨?_,?_⟩,h.saved⟩
  · intro file hfile
    cases exact with
    | false => exact h.files.exact file hfile
    | true => cases hfile
  · intro file hfile
    cases hnsw with
    | false => exact h.files.hnsw file hfile
    | true => cases hfile

lemma Sound.checkpoint (h : s.Sound parameters S) (walPosition : ℕ) (written : Bool)
    (hrows : s.Collected S (.checkpoint walPosition written)) :
    (s.checkpoint parameters walPosition written).Sound parameters S := by
  refine ⟨⟨h.backend.filed,h.backend.active⟩,?_,?_⟩
  · cases written with
    | false => exact h.files
    | true => exact h.writeSidecar hrows.1
  · intro c hc
    cases hc
    have hdocuments : (s.backend.snapshot walPosition).documents =
      s.backend.active.documents.values := rfl
    rw [rows_eq h.backend.filed hdocuments]
    exact ⟨hrows.2,_,h.backend.filed,hdocuments⟩

lemma sound_fresh (analysis : Lexical.Analysis) (policy : EmbeddedMaintenancePolicy) :
    (fresh analysis policy : Installation β).Sound parameters S := by
  refine ⟨EmbeddedBackend.truthful_start analysis policy,⟨?_,?_⟩,?_⟩
  · intro file hfile
    cases hfile
  · intro file hfile
    cases hfile
  · intro c hc
    cases hc

variable [LawfulGraphIndex β]

/-- A restart comes to a base that stands for the checkpoint, whatever sidecars there are. -/
lemma Sound.restart (h : s.Sound parameters S) (hfp : NoCollision parameters S)
    {policy : EmbeddedMaintenancePolicy} {written : Bool}
    (hrestart : s.restart parameters policy written = some t) : t.Sound parameters S ∧
      ∃ c, s.saved = some c ∧ t.backend.active.dense.base.index.held =
        c.rows.map t.backend.active.dense.base.index.image := by
  obtain ⟨c,documents,dense,files,g,hsaved,hdocuments,hdense,hbuild,rfl⟩ := restart_eq_some hrestart
  obtain ⟨hrows,catalog,hfiled,hcatalog⟩ := h.saved c hsaved
  obtain ⟨hfiles,hrestored⟩ := restoreDense_restored h.files hfp hrows hdense
  have hrestored := hrestored dense rfl
  have hbuilt := buildGeneration_ok hbuild
  rw [hcatalog] at hdocuments
  obtain ⟨hout,rfl⟩ := EmbeddedBackend.restoreDocuments_values hfiled hdocuments
  have hsame := rows_eq hfiled hcatalog
  obtain ⟨-,-,-,-,hbase⟩ := TieredDenseIndex.withDelta_eq_ok.mp hbuilt.dense
  refine ⟨⟨⟨hbuilt.documents ▸ hout,?_⟩,hfiles,?_⟩,c,hsaved,?_⟩
  · apply Generation.Truthful.of_held hbuilt
    · rw [← hsame]
      exact hrestored.held
    · rw [← hsame,hrestored.shape]
  · intro c' hc'
    cases hc'
    exact ⟨hrows,_,hfiled,hcatalog⟩
  · change g.dense.base.index.held = c.rows.map g.dense.base.index.image
    rw [hbase]
    exact hrestored.held

lemma Sound.step (h : s.Sound parameters S) (hfp : NoCollision parameters S) {op : Op}
    (hcollected : s.Collected S op) (hkeeps : s.Keeps op) (hstep : s.step parameters op = some t) :
    t.Sound parameters S := by
  cases op with
  | activate document revision =>
    cases hstep
    exact ⟨h.backend.activate hkeeps,h.files,h.saved⟩
  | erase document revision =>
    cases hstep
    exact ⟨h.backend.erase document revision,h.files,h.saved⟩
  | compact overrideMemoryBudget =>
    cases hstep
    exact ⟨h.backend.compact overrideMemoryBudget,h.files,h.saved⟩
  | checkpoint walPosition written =>
    cases hstep
    exact h.checkpoint walPosition written hcollected
  | lose exact hnsw =>
    cases hstep
    exact h.lose exact hnsw
  | restart policy written => exact (h.restart hfp hstep).1

omit [LawfulGraphIndex β] in
/-- With the exact policy two restarts from one checkpoint answer an indifferent request alike, and
any request if both bases are in memory or both in the file. -/
lemma Sound.restart_exact {u v : Installation β} (h : s.Sound parameters S)
    (hfp : NoCollision parameters S) {policy : EmbeddedMaintenancePolicy}
    (hpolicy : policy.dense.algorithm = .exact) {exact exact' hnsw hnsw' written written' : Bool}
    (hu : (s.lose exact hnsw).restart parameters policy written = some u)
    (hv : (s.lose exact' hnsw').restart parameters policy written' = some v)
    (request : DenseRequest) :
    u.backend.active.denseCandidates request = v.backend.active.denseCandidates request ↔
      u.backend.active.dense.base.index = v.backend.active.dense.base.index ∨
        u.backend.active.Indifferent request := by
  obtain ⟨c,documents,dense,files,g,hsaved,hdocuments,hdense,hbuild,rfl⟩ := restart_eq_some hu
  obtain ⟨c',documents',dense',files',g',hsaved',hdocuments',hdense',hbuild',rfl⟩ :=
    restart_eq_some hv
  obtain rfl := Option.some.inj (hsaved.symm.trans hsaved')
  obtain rfl := Except.ok.inj (hdocuments.symm.trans hdocuments')
  obtain ⟨hrows,-⟩ := h.saved c hsaved
  obtain ⟨index,hindex,rfl⟩ :=
    restoreDense_exact (h.lose exact hnsw).files.exact hfp.exact hrows hpolicy hdense
  obtain ⟨index',hindex',rfl⟩ :=
    restoreDense_exact (h.lose exact' hnsw').files.exact hfp.exact hrows hpolicy hdense'
  rw [buildGeneration_onIndex] at hbuild hbuild'
  change (buildGeneration s.backend.analysis _ _ _ _ _).map _ = _ at hbuild hbuild'
  cases hbase : buildGeneration (β := NativeBase β) s.backend.analysis documents
      ⟨⟨.exact ⟨c.rows,NativeExactIndex.firstDimension c.rows⟩,rowKeys c.rows,
        NativeExactIndex.firstDimension c.rows⟩,NativeExactIndex.empty,∅,∅,
          NativeExactIndex.firstDimension c.rows⟩ ∅ ∅ c.generation with
  | error e =>
    rw [hbase] at hbuild
    cases hbuild
  | ok g₀ =>
    rw [hbase] at hbuild hbuild'
    cases hbuild
    cases hbuild'
    obtain ⟨-,-,-,-,hshape⟩ := TieredDenseIndex.withDelta_eq_ok.mp (buildGeneration_ok hbase).dense
    have hkeys : g₀.dense.base.keys = rowKeys c.rows := by rw [hshape]
    have hdimension : g₀.dense.base.dimension = NativeExactIndex.firstDimension c.rows := by
      rw [hshape]
    have hdelta : g₀.dense.deltaKeys = ∅ := by
      rw [hshape]
      simp [deltaRows,Assembly.deltaRows,rowKeys]
    have hiff := denseCandidates_mapped_iff hkeys hdelta request
    rw [hdimension] at hiff
    change (g₀.onIndex index).denseCandidates request =
      (g₀.onIndex index').denseCandidates request ↔
      index = index' ∨ g₀.Indifferent request
    obtain rfl | rfl := hindex <;> obtain rfl | rfl := hindex'
    · simp
    · rw [eq_comm,hiff]
      simp
    · rw [hiff]
      simp
    · simp

/-- Caches are not authoritative: after a run that changes no vector which a graph represents, the
base of a restart holds the vectors of the checkpoint, whatever sidecars are left. With the exact
policy the sidecars matter to no request that is indifferent. -/
theorem restored_of_run (hfp : NoCollision parameters S) {analysis : Lexical.Analysis}
    {policy : EmbeddedMaintenancePolicy} {ops : List Op} {s : Installation β}
    (hmeets : Machine.Meets (step (β := β) parameters) (fun s op => s.Collected S op ∧ s.Keeps op)
      (fresh analysis policy) ops)
    (hrun : Machine.run (step parameters) (fresh analysis policy) ops = some s)
    {exact hnsw written : Bool} {policy' : EmbeddedMaintenancePolicy} {t : Installation β}
    (ht : (s.lose exact hnsw).restart parameters policy' written = some t) :
    (∃ c, s.saved = some c ∧ t.backend.active.dense.base.index.held =
      c.rows.map t.backend.active.dense.base.index.image) ∧
    (policy'.dense.algorithm = .exact → ∀ (exact' hnsw' written' : Bool) (u : Installation β),
      (s.lose exact' hnsw').restart parameters policy' written' = some u → ∀ request,
        t.backend.active.denseCandidates request = u.backend.active.denseCandidates request ↔
          t.backend.active.dense.base.index = u.backend.active.dense.base.index ∨
            t.backend.active.Indifferent request) := by
  have hsound : s.Sound parameters S :=
    Machine.run_invariant (fun _ _ _ hi hc hs => hi.step hfp hc.1 hc.2 hs)
      (sound_fresh analysis policy) hmeets hrun
  constructor
  · obtain ⟨-,c,hsaved,hheld⟩ := (hsound.lose exact hnsw).restart hfp ht
    exact ⟨c,hsaved,hheld⟩
  · intro hpolicy exact' hnsw' written' u hu request
    exact hsound.restart_exact hfp hpolicy ht hu request

end Installation

end

namespace Installation

def graphPolicy : EmbeddedMaintenancePolicy := { dense := { algorithm := .hnsw } }

/-- A document is embedded anew while the graph represents it, and checkpointed. -/
def embeddedAnew (v : Vec) : List Op :=
  [.activate (EmbeddedBackend.headed 'A' [1,0]) 1,.compact true,
    .activate (EmbeddedBackend.headed 'A' v) 2,.checkpoint 0 true]

def afterEmbeddedAnew (v : Vec) : Installation LinkedGraph :=
  (Machine.run (step []) (fresh noTerms graphPolicy) (embeddedAnew v)).getD
    (fresh noTerms graphPolicy)

def restartedAnew (v : Vec) : Installation LinkedGraph :=
  ((afterEmbeddedAnew v).restart [] graphPolicy true).getD (afterEmbeddedAnew v)

lemma exactlyTold_singleton (x : List VectorRecord × Bytes) : ExactlyTold {x} :=
  fun _ h _ h' _ => congrArg Prod.fst (h.trans h'.symm)

lemma noCollision_singleton (parameters : Bytes) (x : List VectorRecord × Bytes) :
    NoCollision parameters {x} :=
  ⟨exactlyTold_singleton x,fun _ h _ h' _ => congrArg Prod.fst (h.trans h'.symm)⟩

def headedRows (v : Vec) : List VectorRecord × Bytes :=
  ((EmbeddedBackend.headed 'A' v).chunks.map fun c => ⟨c.key,c.embedding⟩,ascii ['e'])

instance (s : Installation LinkedGraph) (x : List VectorRecord × Bytes) (op : Op) :
    Decidable (s.Collected {x} op) :=
  match op with
  | .checkpoint walPosition _ => inferInstanceAs (Decidable
      ((liveRows s.backend.active.documents.entries,s.backend.active.embeddingIdentity) = x ∧
        (liveRows s.backend.active.documents.entries,
          (s.backend.snapshot walPosition).embeddingIdentity) = x))
  | .activate _ _ | .erase _ _ | .compact _ | .lose _ _ | .restart _ _ => isTrue trivial

instance (g : Generation (NativeBase LinkedGraph)) (document : PreparedDocument) :
    Decidable (g.KeepsGraph document) :=
  match h : g.dense.base.index with
  | .approximate (.graph graph) => decidable_of_iff
      (∀ c ∈ document.chunks, c.embedding ≠ [] → g.dense.containsBase c.key = true →
        ∀ held ∈ GraphIndex.rows graph, c.key = held.key →
          held = GraphIndex.image LinkedGraph ⟨c.key,c.embedding⟩)
      ⟨fun hk graph' h' => by rw [h] at h'; cases h'; exact hk,fun hk => hk graph h⟩
  | .exact _ => isTrue fun _ h' => by rw [h] at h'; cases h'
  | .approximate (.mapped _) => isTrue fun _ h' => by rw [h] at h'; cases h'

instance (s : Installation LinkedGraph) (op : Op) : Decidable (s.Keeps op) :=
  match op with
  | .activate document revision => inferInstanceAs (Decidable
      ((s.backend.activate document revision).1 = .ok () →
        s.backend.stale document.key revision = false → s.backend.active.KeepsGraph document))
  | .erase _ _ | .compact _ | .checkpoint _ _ | .lose _ _ | .restart _ _ => isTrue trivial

lemma run_embeddedAnew {v : Vec}
    (h : (Machine.run (step []) (fresh (β := LinkedGraph) noTerms graphPolicy)
      (embeddedAnew v)).isSome) :
    Machine.run (step []) (fresh noTerms graphPolicy) (embeddedAnew v) =
      some (afterEmbeddedAnew v) := Machine.run_of_isSome _ h

lemma restart_embeddedAnew {v : Vec}
    (h : (((afterEmbeddedAnew v).lose false false).restart [] graphPolicy true).isSome) :
    ((afterEmbeddedAnew v).lose false false).restart [] graphPolicy true =
      some (restartedAnew v) := by
  obtain ⟨t,ht⟩ := Option.isSome_iff_exists.mp h
  have hsame : (afterEmbeddedAnew v).lose false false = afterEmbeddedAnew v := rfl
  rw [hsame] at ht ⊢
  rw [restartedAnew,ht,Option.getD_some]

/-- One document, checkpointed with the exact policy. -/
def exactlySaved : List Op := [.activate (EmbeddedBackend.headed 'A' [1,0]) 1,.checkpoint 0 true]

def afterExactlySaved : Installation LinkedGraph :=
  (Machine.run (step []) (fresh noTerms EmbeddedBackend.exactPolicy) exactlySaved).getD
    (fresh noTerms EmbeddedBackend.exactPolicy)

def reopened (lost : Bool) : Installation LinkedGraph :=
  ((afterExactlySaved.lose lost lost).restart [] EmbeddedBackend.exactPolicy false).getD
    afterExactlySaved

lemma restart_exactlySaved (lost : Bool) : (afterExactlySaved.lose lost lost).restart []
    EmbeddedBackend.exactPolicy false = some (reopened lost) := by
  have hsome : ∀ lost, ((afterExactlySaved.lose lost lost).restart []
      EmbeddedBackend.exactPolicy false).isSome := by decide +kernel
  obtain ⟨t,ht⟩ := Option.isSome_iff_exists.mp (hsome lost)
  rw [reopened,ht,Option.getD_some]

/-- A query on whose norm the tolerances agree. -/
def firstQuery : DenseRequest := ⟨[1,0],MetadataFilter.none,2⟩

/-- A graph that is read from its file, and an exact index with and without its sidecar. -/
theorem embeddedAlike_restored :
    (∃ c, (afterEmbeddedAnew [1,0]).saved = some c ∧
      (restartedAnew [1,0]).backend.active.dense.base.index.held =
        c.rows.map (restartedAnew [1,0]).backend.active.dense.base.index.image) ∧
    (∃ c, afterExactlySaved.saved = some c ∧
      (reopened false).backend.active.dense.base.index.held =
        c.rows.map (reopened false).backend.active.dense.base.index.image) ∧
    (reopened false).backend.active.dense.base.index ≠
      (reopened true).backend.active.dense.base.index ∧
    (reopened false).backend.active.denseCandidates firstQuery =
      (reopened true).backend.active.denseCandidates firstQuery := by
  have hgraph : Machine.Meets (step (β := LinkedGraph) [])
      (fun s op => s.Collected {headedRows [1,0]} op ∧ s.Keeps op) (fresh noTerms graphPolicy)
      (embeddedAnew [1,0]) := by decide +kernel
  have hexact : Machine.Meets (step (β := LinkedGraph) [])
      (fun s op => s.Collected {headedRows [1,0]} op ∧ s.Keeps op)
      (fresh noTerms EmbeddedBackend.exactPolicy) exactlySaved := by decide +kernel
  obtain ⟨hheld,hiff⟩ := restored_of_run (noCollision_singleton [] (headedRows [1,0])) hexact
    (Machine.run_of_isSome _ (by decide +kernel) : _ = some afterExactlySaved)
    (restart_exactlySaved false)
  have hother : (reopened false).backend.active.dense.base.index ≠
      (reopened true).backend.active.dense.base.index := by
    intro hsame
    have hkind := congrArg (fun index : DenseIndex (NativeBase LinkedGraph) => match index with
      | .exact _ => true
      | .approximate _ => false) hsame
    revert hkind
    decide +kernel
  have hdimension : firstQuery.query.length =
      (reopened false).backend.active.dense.base.dimension := by decide +kernel
  have hagree : ¬BetweenTolerances firstQuery.query := by
    unfold BetweenTolerances
    decide +kernel
  refine ⟨(restored_of_run (noCollision_singleton [] (headedRows [1,0])) hgraph
    (run_embeddedAnew (v := [1,0]) (by decide +kernel))
    (restart_embeddedAnew (by decide +kernel))).1,hheld,hother,?_⟩
  exact (hiff rfl _ _ _ _ (restart_exactlySaved true) firstQuery).mpr
    (Or.inr (Or.inr (Or.inr (Or.inr (Or.inr ⟨hdimension,hagree⟩)))))

/-- A query of floats whose norm is between the tolerances. -/
def betweenQuery : DenseRequest := ⟨[8392801/8388608,2073/8388608],MetadataFilter.none,2⟩

/-- The restored graph holds the vectors that the document had before, and a query between the
tolerances is answered without the sidecar and refused with it. -/
theorem restored_base_is_stale :
    (¬∀ (S : Set (List VectorRecord × Bytes)) (policy : EmbeddedMaintenancePolicy) (ops : List Op)
      (s t : Installation LinkedGraph) (exact hnsw written : Bool), NoCollision [] S →
      Machine.Meets (step (β := LinkedGraph) []) (Collected S) (fresh noTerms policy) ops →
      Machine.run (step []) (fresh noTerms policy) ops = some s →
      (s.lose exact hnsw).restart [] policy written = some t →
      ∃ c, s.saved = some c ∧ t.backend.active.dense.base.index.held =
        c.rows.map t.backend.active.dense.base.index.image) ∧
    ¬∀ (S : Set (List VectorRecord × Bytes)) (policy : EmbeddedMaintenancePolicy) (ops : List Op)
      (s t u : Installation LinkedGraph) (exact hnsw written exact' hnsw' written' : Bool)
      (request : DenseRequest), NoCollision [] S →
      Machine.Meets (step (β := LinkedGraph) []) (Collected S) (fresh noTerms policy) ops →
      policy.dense.algorithm = .exact → Machine.run (step []) (fresh noTerms policy) ops = some s →
      (s.lose exact hnsw).restart [] policy written = some t →
      (s.lose exact' hnsw').restart [] policy written' = some u →
      t.backend.active.denseCandidates request = u.backend.active.denseCandidates request := by
  constructor
  · intro h
    have hmeets : Machine.Meets (step (β := LinkedGraph) []) (Collected {headedRows [0,1]})
        (fresh noTerms graphPolicy) (embeddedAnew [0,1]) := by decide +kernel
    obtain ⟨c,hc,hheld⟩ := h _ graphPolicy (embeddedAnew [0,1]) _ _ false false true
      (noCollision_singleton [] (headedRows [0,1])) hmeets (run_embeddedAnew (by decide +kernel))
      (restart_embeddedAnew (by decide +kernel))
    have hdiffer : ∀ c, (afterEmbeddedAnew [0,1]).saved = some c →
        (restartedAnew [0,1]).backend.active.dense.base.index.held ≠
          c.rows.map (restartedAnew [0,1]).backend.active.dense.base.index.image := by
      have hsome : (afterEmbeddedAnew [0,1]).saved.all fun c =>
          (restartedAnew [0,1]).backend.active.dense.base.index.held ≠
            c.rows.map (restartedAnew [0,1]).backend.active.dense.base.index.image := by
        decide +kernel
      intro c hc
      rw [hc] at hsome
      exact of_decide_eq_true hsome
    exact hdiffer c hc hheld
  · intro h
    have hmeets : Machine.Meets (step (β := LinkedGraph) []) (Collected {headedRows [1,0]})
        (fresh noTerms EmbeddedBackend.exactPolicy) exactlySaved := by decide +kernel
    have hsame := h _ EmbeddedBackend.exactPolicy exactlySaved afterExactlySaved _ _ _ _ _ _ _ _
      betweenQuery (noCollision_singleton [] (headedRows [1,0])) hmeets rfl
      (Machine.run_of_isSome _ (by decide +kernel)) (restart_exactlySaved false)
      (restart_exactlySaved true)
    have hdiffer : (reopened false).backend.active.denseCandidates betweenQuery ≠
        (reopened true).backend.active.denseCandidates betweenQuery := by decide +kernel
    exact hdiffer hsame

end Installation

end RagRuntime.Backend
