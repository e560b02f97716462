import RagRuntime.Backend.DenseView
import RagRuntime.Preparation.Activation

/-! Writes, compactions and restarts of an embedded backend, and what the exact policy keeps in its
tiers. -/
namespace RagRuntime.Backend
open RagRuntime.Base RagRuntime.Core RagRuntime.Dense RagRuntime.Lexical RagRuntime.Preparation

section
variable {β : Type} {analysis : Analysis} {catalog : Catalog} {dense : TieredDenseIndex β}
  {inDelta tombstones : Finset Bytes} {n : ℕ} {g : Generation β} {rows : List VectorRecord}

/-- A generation built on a base with true rows of the live chunks, when every live chunk the
base does not represent is one of a document in the delta. -/
lemma Faithful.of_built (hbuilt : Built analysis catalog dense inDelta tombstones n g)
    (hfiled : Filed catalog)
    (hbase : dense.base.index = .exact ⟨rows,NativeExactIndex.firstDimension rows⟩)
    (hvalid : ValidRows rows (NativeExactIndex.firstDimension rows))
    (hkeys : dense.base.keys = rowKeys rows)
    (hsame : ∀ x ∈ liveChunks catalog.entries,
      (x.chunk.key ∈ tombstones ↔ x.chunk.key ∈ dense.tombstones))
    (hin : ∀ x ∈ liveChunks catalog.entries, x.chunk.embedding ≠ [] →
      dense.containsBase x.chunk.key = true → x.row ∈ rows)
    (hwaiting : ∀ x ∈ liveChunks catalog.entries, x.chunk.embedding ≠ [] →
      dense.containsBase x.chunk.key = false → x.document ∈ inDelta) : Faithful g rows := by
  obtain ⟨-,-,-,-,hdense⟩ := TieredDenseIndex.withDelta_eq_ok.mp hbuilt.dense
  have hcontains : ∀ x ∈ liveChunks catalog.entries,
      g.dense.containsBase x.chunk.key = dense.containsBase x.chunk.key := by
    intro x hx
    rw [hdense]
    simp only [TieredDenseIndex.containsBase,hsame x hx]
  have hrows : deltaRows g.documents g.dense g.deltaDocuments =
    deltaRows catalog dense inDelta := by
    rw [hbuilt.documents,hbuilt.deltaDocuments,deltaRows,deltaRows,Assembly.deltaRows,
      Assembly.deltaRows]
    congr 1
    apply List.filter_congr
    intro x hx
    rw [hcontains x hx]
  refine ⟨hbuilt.documents ▸ hfiled,hbuilt.documents ▸ hbuilt.keys,hbuilt.documents ▸ hbuilt.chunks,
    hbuilt.documents ▸ hbuilt.dimension,?_,hvalid,?_,?_,?_,?_,?_⟩
  · rw [hdense]
    exact hbase
  · rw [hdense]
    exact hkeys
  · rw [hrows,hdense]
  · rw [hrows,hdense]
  · rw [hbuilt.documents]
    intro x hx hne hheld
    exact hin x hx hne (hcontains x hx ▸ hheld)
  · rw [hbuilt.documents,hbuilt.deltaDocuments]
    intro x hx hne hheld
    exact hwaiting x hx hne (hcontains x hx ▸ hheld)

lemma resolveDenseAlgorithm_exact {policy : DensePolicy} {algorithm : DenseAlgorithm}
    (hpolicy : policy.algorithm = .exact) (h : resolveDenseAlgorithm policy n = .ok algorithm) :
    algorithm = .exact := by
  unfold resolveDenseAlgorithm at h
  by_cases hzero : policy.exactThreshold = 0
  · rw [if_pos hzero] at h
    cases h
  · rw [if_neg hzero,hpolicy] at h
    cases h
    rfl

/-- What a compaction with the exact policy makes. -/
lemma compact_exact [ApproximateIndex β] {policy : DensePolicy} {dimension : ℕ}
    (hpolicy : policy.algorithm = .exact)
    (h : TieredDenseIndex.compact rows dimension policy = .ok dense) :
    ValidRows rows (NativeExactIndex.firstDimension rows) ∧
      dense = ⟨⟨.exact ⟨rows,NativeExactIndex.firstDimension rows⟩,rowKeys rows,dimension⟩,
        NativeExactIndex.empty,∅,∅,dimension⟩ := by
  unfold TieredDenseIndex.compact at h
  split_ifs at h with hdims
  · cases h
  · cases hresolve : resolveDenseAlgorithm policy rows.length with
    | error e =>
      simp only [buildDenseIndex,hresolve,bind,Except.bind] at h
      cases h
    | ok algorithm =>
      obtain rfl := resolveDenseAlgorithm_exact hpolicy hresolve
      cases hindex : NativeExactIndex.build rows with
      | error e =>
        simp only [buildDenseIndex,hresolve,hindex,bind,Except.bind] at h
        cases h
      | ok index =>
        simp only [buildDenseIndex,hresolve,hindex,bind,Except.bind,pure,Except.pure] at h
        obtain ⟨hvalid,rfl⟩ := NativeExactIndex.build_eq_ok.mp hindex
        cases h
        exact ⟨hvalid,rfl⟩

/-- Everything is in a base of all the rows. -/
lemma Faithful.of_held {dimension : ℕ}
    (hvalid : ValidRows rows (NativeExactIndex.firstDimension rows))
    (hbuilt : Built analysis catalog ⟨⟨.exact ⟨rows,NativeExactIndex.firstDimension rows⟩,
      rowKeys rows,dimension⟩,NativeExactIndex.empty,∅,∅,dimension⟩ ∅ ∅ n g)
    (hfiled : Filed catalog)
    (hrows : ∀ x ∈ liveChunks catalog.entries, x.chunk.embedding ≠ [] → x.row ∈ rows) :
    Faithful g rows := by
  apply Faithful.of_built hbuilt hfiled rfl hvalid rfl
  · exact fun x _ => Iff.rfl
  · exact fun x hx hne _ => hrows x hx hne
  · intro x hx hne hheld
    have hmem : x.chunk.key ∈ rowKeys rows := by
      rw [rowKeys,List.mem_toFinset]
      exact List.mem_map.mpr ⟨x.row,hrows x hx hne,rfl⟩
    have : TieredDenseIndex.containsBase (β := β) ⟨⟨.exact ⟨rows,NativeExactIndex.firstDimension
        rows⟩,rowKeys rows,dimension⟩,NativeExactIndex.empty,∅,∅,dimension⟩ x.chunk.key = true :=
      TieredDenseIndex.containsBase_eq_true.mpr ⟨hmem,Finset.notMem_empty _⟩
    rw [hheld] at this
    cases this

/-- The tiers take the delta of any catalog of valid documents whose dimension is that of the
base. -/
lemma Filed.withDelta (hfiled : Filed catalog)
    (hkeys : ((liveChunks catalog.entries).map fun x => x.chunk.key).Nodup) (inDelta : Finset Bytes)
    (htombstones : tombstones ⊆ dense.base.keys) (hold : dense.tombstones ⊆ tombstones) {d : ℕ}
    (hd : ∀ x ∈ liveChunks catalog.entries,
      x.chunk.embedding ≠ [] → x.chunk.embedding.length = d)
    (hbase : dense.base.dimension = 0 ∨ d = 0 ∨ dense.base.dimension = d) :
    ∃ t, dense.withDelta (deltaRows catalog dense inDelta) tombstones d = .ok t := by
  refine ⟨_,TieredDenseIndex.withDelta_eq_ok.mpr ⟨hbase,htombstones,?_,?_,rfl⟩⟩
  · intro row hrow
    obtain ⟨x,hx,rfl⟩ := List.mem_map.mp hrow
    obtain ⟨hx,hcond⟩ := List.mem_filter.mp hx
    obtain ⟨hne,-,hrepresented⟩ := of_decide_eq_true hcond
    refine ⟨hd x hx hne,fun hkey => hold ?_⟩
    by_contra hnot
    have hheld : dense.containsBase x.chunk.key = true :=
      TieredDenseIndex.containsBase_eq_true.mpr ⟨hkey,hnot⟩
    rw [hheld] at hrepresented
    cases hrepresented
  · have hlive : ∀ x ∈ (liveChunks catalog.entries).filter (fun x => x.chunk.embedding ≠ [] ∧
        x.document ∈ inDelta ∧ dense.containsBase x.chunk.key = false),
        x ∈ liveChunks catalog.entries ∧ x.chunk.embedding ≠ [] := by
      intro x hx
      obtain ⟨hx,hcond⟩ := List.mem_filter.mp hx
      exact ⟨hx,(of_decide_eq_true hcond).1⟩
    have hvalid : ∀ x ∈ liveChunks catalog.entries,
        ValidDocument x.active.prepared ∧ x.chunk ∈ x.active.prepared.chunks := by
      intro x hx
      obtain ⟨hfind,hchunk⟩ := mem_liveChunks.mp hx
      exact ⟨(hfiled _ _ hfind).2.1,hchunk⟩
    apply ValidRows.firstDimension
    apply @validRows_of_live _ d
    · exact hkeys.sublist (List.filter_sublist.map _)
    · intro x hx
      obtain ⟨hdocument,hchunk⟩ := hvalid x (hlive x hx).1
      exact hdocument.chunk_key_ne_nil hchunk
    · intro x hx
      obtain ⟨hx,hne⟩ := hlive x hx
      obtain ⟨hdocument,hchunk⟩ := hvalid x hx
      exact ⟨hd x hx hne,(hdocument.unitNorm hchunk hne).normalized hne⟩

lemma mem_liveRows {entries : List (Bytes × ActiveDocument)} {x : LiveChunk}
    (hx : x ∈ liveChunks entries) (hne : x.chunk.embedding ≠ []) : x.row ∈ liveRows entries :=
  List.mem_map.mpr ⟨x,List.mem_filter.mpr ⟨hx,by simpa using hne⟩,rfl⟩

end

/-- A catalog after a document was filed in it. -/
lemma Filed.insert {catalog : Catalog} (h : Filed catalog) {document : PreparedDocument}
    {revision : ℕ} (hvalid : ValidDocument document) (hrevision : revision ≠ 0) :
    Filed (catalog.insert document.key ⟨revision,document⟩) := by
  intro k a ha
  rw [OrdMap.find?_insert] at ha
  split_ifs at ha with hk
  · cases ha
    exact ⟨hk.symm,hvalid,hrevision⟩
  · exact h k a ha

lemma Filed.erase {catalog : Catalog} (h : Filed catalog) (document : Bytes) :
    Filed (catalog.erase document) := by
  intro k a ha
  rw [OrdMap.find?_erase] at ha
  split_ifs at ha
  exact h k a ha

/-- The values of a filed catalog give back its entries. -/
lemma Filed.values_map {catalog : Catalog} (h : Filed catalog) :
    catalog.values.map (fun entry => (entry.prepared.key,entry)) = catalog.entries := by
  rw [OrdMap.values,List.map_map]
  conv_rhs => rw [← List.map_id catalog.entries]
  apply List.map_congr_left
  intro e he
  obtain ⟨hkey,-⟩ := h e.1 e.2 (OrdMap.find?_eq_some.mpr he)
  exact Prod.ext hkey rfl

lemma live_insert {catalog : Catalog} {document : PreparedDocument} {revision : ℕ} {x : LiveChunk}
    (hx : x ∈ liveChunks (catalog.insert document.key ⟨revision,document⟩).entries) :
    x.document = document.key ∧ x.chunk ∈ document.chunks ∨
      x.document ≠ document.key ∧ x ∈ liveChunks catalog.entries := by
  obtain ⟨hfind,hchunk⟩ := mem_liveChunks.mp hx
  rw [OrdMap.find?_insert] at hfind
  split_ifs at hfind with hk
  · obtain hactive := Option.some.inj hfind
    rw [← hactive] at hchunk
    exact Or.inl ⟨hk,hchunk⟩
  · exact Or.inr ⟨hk,mem_liveChunks.mpr ⟨hfind,hchunk⟩⟩

lemma live_erase {catalog : Catalog} {document : Bytes} {x : LiveChunk}
    (hx : x ∈ liveChunks (catalog.erase document).entries) :
    x.document ≠ document ∧ x ∈ liveChunks catalog.entries := by
  obtain ⟨hfind,hchunk⟩ := mem_liveChunks.mp hx
  rw [OrdMap.find?_erase] at hfind
  split_ifs at hfind with hk
  exact ⟨hk,mem_liveChunks.mpr ⟨hfind,hchunk⟩⟩

namespace EmbeddedBackend

variable {β : Type}

/-- A write hides only rows of the document that it replaces. -/
lemma mem_tombstonesAfter {b : EmbeddedBackend β} {document k : Bytes} {kept : List Bytes}
    (h : ∀ old, b.active.documents.find? document = some old →
      ∀ c ∈ old.prepared.chunks, c.key = k → k ∈ kept) :
    k ∈ b.tombstonesAfter document kept ↔ k ∈ b.active.dense.tombstones := by
  unfold tombstonesAfter
  cases hold : b.active.documents.find? document with
  | none => rfl
  | some old =>
    simp only [superseded,Finset.mem_union,List.mem_toFinset,List.mem_filter,decide_eq_true_eq]
    constructor
    · intro hk
      obtain hk | ⟨hk,-,hnot⟩ := hk
      · exact hk
      · obtain ⟨c,hc,hkey⟩ := List.mem_map.mp hk
        exact absurd (h old hold c hc hkey) hnot
    · exact Or.inl

lemma subset_tombstonesAfter (b : EmbeddedBackend β) (key : Bytes) (kept : List Bytes) :
    b.active.dense.tombstones ⊆ b.tombstonesAfter key kept := by
  unfold tombstonesAfter
  cases b.active.documents.find? key with
  | none => exact subset_rfl
  | some old => exact Finset.subset_union_left

/-- A chunk of the generation that stands in another document has no key of the one replaced. -/
lemma key_of_other {b : EmbeddedBackend β} {document : Bytes} {x : LiveChunk}
    (hkeys : ((liveChunks b.active.documents.entries).map fun x => x.chunk.key).Nodup)
    (hx : x ∈ liveChunks b.active.documents.entries) (hother : x.document ≠ document) :
    ∀ old, b.active.documents.find? document = some old →
      ∀ c ∈ old.prepared.chunks, c.key ≠ x.chunk.key := by
  intro old hold c hc hkey
  have hlive : ⟨document,old,c⟩ ∈ liveChunks b.active.documents.entries :=
    mem_liveChunks.mpr ⟨hold,hc⟩
  have := live_eq_of_key hkeys hlive hx hkey
  rw [← this] at hother
  exact hother rfl

/-- The exact policy, and tiers that are in order around a base of `rows`. -/
structure Sound (b : EmbeddedBackend β) (rows : List VectorRecord) : Prop where
  exact : b.policy.dense.algorithm = .exact
  faithful : Faithful b.active rows

section sound

variable {b : EmbeddedBackend β} {rows : List VectorRecord}

lemma Sound.activate (h : b.Sound rows) {document : PreparedDocument} {revision : ℕ}
    (hkeeps : (b.activate document revision).1 = .ok () →
      b.stale document.key revision = false → ∀ c ∈ document.chunks, c.embedding ≠ [] →
        b.active.dense.containsBase c.key = true → ⟨c.key,c.embedding⟩ ∈ rows) :
    (b.activate document revision).2.Sound rows := by
  obtain hcases := b.activate_activated document revision
  generalize b.activate document revision = out at hcases hkeeps
  cases hcases with
  | failed e => exact h
  | already _ => exact h
  | published hvalid hrevision hfresh next hbuilt =>
    have hrows := h.faithful
    refine ⟨h.exact,?_⟩
    apply Faithful.of_built hbuilt (hrows.filed.insert hvalid hrevision) hrows.base hrows.valid
      hrows.baseKeys
    · intro x hx
      apply mem_tombstonesAfter
      intro old hold c hc hkey
      obtain ⟨-,hchunk⟩ | ⟨hother,hlive⟩ := live_insert hx
      · exact List.mem_map_of_mem hchunk
      · exact absurd hkey (key_of_other hrows.keys hlive hother old hold c hc)
    · intro x hx hne hheld
      obtain ⟨-,hchunk⟩ | ⟨-,hlive⟩ := live_insert hx
      · exact hkeeps rfl hfresh x.chunk hchunk hne hheld
      · exact hrows.inBase x hlive hne hheld
    · intro x hx hne hheld
      obtain ⟨hdocument,-⟩ | ⟨-,hlive⟩ := live_insert hx
      · rw [hdocument]
        exact Finset.mem_insert_self _ _
      · exact Finset.mem_insert_of_mem (hrows.waiting x hlive hne hheld)

lemma Sound.erase (h : b.Sound rows) (document : Bytes) (revision : ℕ) :
    (b.erase document revision).2.Sound rows := by
  obtain hcases := b.erase_erased document revision
  have hrows := h.faithful
  generalize b.erase document revision = out at hcases
  cases hcases with
  | failed e => exact h
  | already _ _ => exact h
  | published hdocument hrevision hfresh next hbuilt =>
    refine ⟨h.exact,?_⟩
    apply Faithful.of_built hbuilt (hrows.filed.erase document) hrows.base hrows.valid
      hrows.baseKeys
    · intro x hx
      obtain ⟨hother,hlive⟩ := live_erase hx
      apply mem_tombstonesAfter
      intro old hold c hc hkey
      exact absurd hkey (key_of_other hrows.keys hlive hother old hold c hc)
    · intro x hx hne hheld
      exact hrows.inBase x (live_erase hx).2 hne hheld
    · intro x hx hne hheld
      obtain ⟨hother,hlive⟩ := live_erase hx
      exact Finset.mem_erase_of_ne_of_mem hother (hrows.waiting x hlive hne hheld)

end sound

/-- A restored catalog holds the documents it started from and those of the checkpoint. -/
lemma restoreDocuments_ok {revisions : OrdMap Bytes ℕ} {entries : List ActiveDocument}
    {documents out : Catalog} (hfiled : Filed documents)
    (h : restoreDocuments revisions entries documents = .ok out) :
    Filed out ∧ ∀ k a, out.find? k = some a ↔
      documents.find? k = some a ∨ a ∈ entries ∧ a.prepared.key = k := by
  induction entries generalizing documents with
  | nil =>
    cases h
    exact ⟨hfiled,by simp⟩
  | cons entry rest ih =>
    rw [restoreDocuments] at h
    cases hvalid : validate entry.prepared entry.revision with
    | error e =>
      rw [hvalid] at h
      cases h
    | ok u =>
      obtain ⟨hdocument,hrevision⟩ := validate_eq_ok.mp hvalid
      rw [hvalid] at h
      dsimp only at h
      split_ifs at h with hcontains hmatch
      · cases h
      · cases h
      · have hnone : documents.find? entry.prepared.key = none :=
          OrdMap.contains_eq_false.mp (Bool.eq_false_of_not_eq_true hcontains)
        obtain ⟨hout,hfind⟩ := ih (hfiled.insert hdocument hrevision) h
        refine ⟨hout,?_⟩
        intro k a
        rw [hfind,OrdMap.find?_insert,List.mem_cons]
        by_cases hk : k = entry.prepared.key
        · rw [if_pos hk,hk,hnone,Option.some.injEq]
          constructor
          · intro ha
            obtain rfl | ha := ha
            · exact Or.inr ⟨Or.inl rfl,rfl⟩
            · exact Or.inr ⟨Or.inr ha.1,ha.2⟩
          · intro ha
            obtain ha | ⟨rfl | ha,hkey⟩ := ha
            · cases ha
            · exact Or.inl rfl
            · exact Or.inr ⟨ha,hkey⟩
        · rw [if_neg hk]
          constructor
          · exact fun ha => ha.imp_right fun ha => ⟨Or.inr ha.1,ha.2⟩
          · intro ha
            obtain ha | ⟨rfl | ha,hkey⟩ := ha
            · exact Or.inl ha
            · exact absurd hkey.symm hk
            · exact Or.inr ⟨ha,hkey⟩

/-- A filed catalog comes back from its values. -/
lemma restoreDocuments_values {revisions : OrdMap Bytes ℕ} {catalog out : Catalog}
    (hfiled : Filed catalog) (h : restoreDocuments revisions catalog.values ∅ = .ok out) :
    Filed out ∧ out = catalog := by
  obtain ⟨hout,hfind⟩ := restoreDocuments_ok (fun k a ha => by cases ha) h
  refine ⟨hout,?_⟩
  ext k a
  rw [hfind,OrdMap.find?_empty]
  simp only [OrdMap.mem_values,reduceCtorEq,false_or]
  constructor
  · intro ha
    obtain ⟨⟨k',hk'⟩,hkey⟩ := ha
    rwa [← hkey,(hfiled k' a hk').1]
  · exact fun ha => ⟨⟨k,ha⟩,(hfiled k a ha).1⟩

/-- A restart keeps documents and revisions. -/
theorem restore_snapshot [ApproximateIndex β] {analysis : Analysis}
    {policy : EmbeddedMaintenancePolicy} {b restored : EmbeddedBackend β} {walPosition : ℕ}
    (hfiled : Filed b.active.documents)
    (h : restoreCheckpoint analysis policy (b.snapshot walPosition) = .ok restored) :
    restored.active.documents = b.active.documents ∧
      restored.latestRevisions = b.latestRevisions ∧ restored.policy = policy := by
  unfold restoreCheckpoint at h
  split_ifs at h with hrevisions
  · cases h
  · cases hdocuments : restoreDocuments (b.snapshot walPosition).revisions
      (b.snapshot walPosition).documents ∅ with
    | error e =>
      rw [hdocuments] at h
      cases h
    | ok documents =>
      obtain ⟨-,hsame⟩ := restoreDocuments_values hfiled hdocuments
      simp only [hdocuments,bind,Except.bind] at h
      cases hcompact : TieredDenseIndex.compact (β := β)
          (liveRows ((b.snapshot walPosition).documents.map fun entry =>
            (entry.prepared.key,entry)))
          (NativeExactIndex.firstDimension (liveRows ((b.snapshot walPosition).documents.map
            fun entry => (entry.prepared.key,entry)))) policy.dense with
      | error e =>
        simp only [hcompact] at h
        cases h
      | ok dense =>
        simp only [hcompact] at h
        cases hbuild : buildGeneration analysis documents dense ∅ ∅
            (b.snapshot walPosition).generation with
        | error e =>
          rw [hbuild] at h
          cases h
        | ok next =>
          rw [hbuild] at h
          cases h
          exact ⟨(buildGeneration_ok hbuild).documents.trans hsame,rfl,rfl⟩

lemma sound_start (analysis : Analysis) {policy : EmbeddedMaintenancePolicy}
    (hpolicy : policy.dense.algorithm = .exact) :
    (start analysis policy : EmbeddedBackend β).Sound [] := by
  refine ⟨hpolicy,?_⟩
  apply Faithful.of_built (buildGeneration_ok (buildGeneration_empty analysis))
  · exact fun k a ha => by cases ha
  · rfl
  · exact ValidRows.nil _
  · rfl
  · exact fun x _ => Iff.rfl
  · exact fun x hx => by cases hx
  · exact fun x hx => by cases hx

/-- What a backend goes through. Restarting opens the checkpoint that was just saved. -/
inductive Op where
  | activate (document : PreparedDocument) (revision : ℕ)
  | erase (document : Bytes) (revision : ℕ)
  | compact (overrideMemoryBudget : Bool)
  | restart (walPosition : ℕ)

/-- A call that fails leaves the backend as it is; a restart that fails leaves none. -/
def step [ApproximateIndex β] (b : EmbeddedBackend β) : Op → Option (EmbeddedBackend β)
  | .activate document revision => some (b.activate document revision).2
  | .erase document revision => some (b.erase document revision).2
  | .compact overrideMemoryBudget => some (b.compact overrideMemoryBudget).2
  | .restart walPosition =>
    (restoreCheckpoint b.analysis b.policy (b.snapshot walPosition)).toOption

lemma ok_of_toOption {α : Type} {x : Result α} {a : α} (h : x.toOption = some a) : x = .ok a := by
  cases x with
  | error e => cases h
  | ok b =>
    cases h
    rfl

/-- A restart goes on with what its checkpoint restores. -/
lemma restored_of_step [ApproximateIndex β] {b t : EmbeddedBackend β} {walPosition : ℕ}
    (hstep : b.step (.restart walPosition) = some t) :
    restoreCheckpoint b.analysis b.policy (b.snapshot walPosition) = .ok t :=
  ok_of_toOption hstep

/-- No approximate index is built here. -/
instance : ApproximateIndex Unit where
  build _ := fail .unavailable "no approximate index"
  search _ _ _ _ := fail .unavailable "no approximate index"

def exactPolicy : EmbeddedMaintenancePolicy := { dense := { algorithm := .exact } }

def headed (letter : Char) (v : Vec) : PreparedDocument :=
  embeddedDocument (ascii ['d']) (ascii ['#',' ',letter,'\n','x']) ∅ [] { maxLines := 1 }
    ⟨2,ascii ['e'],fun _ => .ok []⟩ [v,v]

end EmbeddedBackend
end RagRuntime.Backend
