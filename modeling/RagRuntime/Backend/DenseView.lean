import RagRuntime.Backend.Candidates
import RagRuntime.Base.Machine

/-! With the exact policy the dense tiers answer like one scan over the active chunks, as long as
no chunk keeps its key while its vector changes. -/
namespace RagRuntime.Backend
open RagRuntime.Base RagRuntime.Core RagRuntime.Dense RagRuntime.Lexical

def LiveChunk.candidate (query : Vec) (x : LiveChunk) : Candidate :=
  NativeExactIndex.candidate query x.row

/-- The chunks of the active documents that pass the filter. -/
def passing (entries : List (Bytes × ActiveDocument)) (filter : MetadataFilter) : List LiveChunk :=
  (liveChunks entries).filter fun x => filter.passes x.active.prepared.metadata

/-- A scan over the active chunks, each scored with the vector of its active document. -/
def scan {β : Type} (g : Generation β) (query : Vec) (filter : MetadataFilter) : CandidateList :=
  (passing g.documents.entries filter).map (LiveChunk.candidate query)

/-- Every document is valid and filed under its own key. -/
def Filed (catalog : Catalog) : Prop :=
  ∀ k a, catalog.find? k = some a → a.prepared.key = k ∧ ValidDocument a.prepared ∧ a.revision ≠ 0

lemma mem_liveChunks {catalog : Catalog} {x : LiveChunk} :
    x ∈ liveChunks catalog.entries ↔
      catalog.find? x.document = some x.active ∧ x.chunk ∈ x.active.prepared.chunks := by
  rw [OrdMap.find?_eq_some,liveChunks,List.mem_flatMap]
  constructor
  · intro h
    obtain ⟨e,he,hx⟩ := h
    obtain ⟨c,hc,rfl⟩ := List.mem_map.mp hx
    exact ⟨he,hc⟩
  · intro h
    exact ⟨(x.document,x.active),h.1,List.mem_map.mpr ⟨x.chunk,h.2,rfl⟩⟩

/-- Chunks of one generation have one key only if they are the same chunk. -/
lemma live_eq_of_key {xs : List LiveChunk} (h : (xs.map fun x => x.chunk.key).Nodup)
    {x y : LiveChunk} (hx : x ∈ xs) (hy : y ∈ xs) (hkey : x.chunk.key = y.chunk.key) : x = y :=
  List.inj_on_of_nodup_map h hx hy hkey

lemma ValidDocument.unitNorm {document : PreparedDocument} (h : ValidDocument document)
    {c : PreparedChunk} (hc : c ∈ document.chunks) (hne : c.embedding ≠ []) :
    UnitNorm c.embedding := by
  obtain ⟨dimension,hnone | hall⟩ := h.embeddings
  · exact absurd (hnone c hc) hne
  · exact (hall c hc).2.2

lemma ValidDocument.chunk_key_ne_nil {document : PreparedDocument} (h : ValidDocument document)
    {c : PreparedChunk} (hc : c ∈ document.chunks) : c.key ≠ [] := by
  obtain ⟨i,hi⟩ := List.mem_iff_getElem?.mp hc
  exact (h.chunks i c hi).key_ne_nil

/-- What relates the tiers of a generation to its documents. -/
structure Faithful {β : Type} (g : Generation β) (rows : List VectorRecord) : Prop where
  filed : Filed g.documents
  keys : ((liveChunks g.documents.entries).map fun x => x.chunk.key).Nodup
  chunks : ∀ k s, g.chunks.find? k = some s ↔
    ∃ x ∈ liveChunks g.documents.entries, x.chunk.key = k ∧ s = x.stored
  dimension : ∀ x ∈ liveChunks g.documents.entries,
    x.chunk.embedding ≠ [] → x.chunk.embedding.length = g.dimension
  base : g.dense.base.index = .exact ⟨rows,NativeExactIndex.firstDimension rows⟩
  valid : ValidRows rows (NativeExactIndex.firstDimension rows)
  baseKeys : g.dense.base.keys = rowKeys rows
  delta : g.dense.delta = ⟨deltaRows g.documents g.dense g.deltaDocuments,
    NativeExactIndex.firstDimension (deltaRows g.documents g.dense g.deltaDocuments)⟩
  deltaKeys : g.dense.deltaKeys = rowKeys (deltaRows g.documents g.dense g.deltaDocuments)
  inBase : ∀ x ∈ liveChunks g.documents.entries, x.chunk.embedding ≠ [] →
    g.dense.containsBase x.chunk.key = true → x.row ∈ rows
  waiting : ∀ x ∈ liveChunks g.documents.entries, x.chunk.embedding ≠ [] →
    g.dense.containsBase x.chunk.key = false → x.document ∈ g.deltaDocuments

section
variable {β : Type} {g : Generation β} {rows : List VectorRecord}

lemma Faithful.row_mem_delta (h : Faithful g rows) {x : LiveChunk}
    (hx : x ∈ liveChunks g.documents.entries)
    (hdelta : g.dense.containsDelta x.chunk.key = true) : x.row ∈ g.dense.delta.rows := by
  rw [TieredDenseIndex.containsDelta_eq_true,h.deltaKeys,rowKeys,List.mem_toFinset] at hdelta
  obtain ⟨row,hrow,hkey⟩ := List.mem_map.mp hdelta
  obtain ⟨y,hy,rfl⟩ := List.mem_map.mp hrow
  obtain rfl := live_eq_of_key h.keys (List.mem_of_mem_filter hy) hx hkey
  rw [h.delta]
  exact hrow

/-- A row that the base does not represent is in the delta, and only such a row. -/
lemma Faithful.containsDelta (h : Faithful g rows) {x : LiveChunk}
    (hx : x ∈ liveChunks g.documents.entries) (hne : x.chunk.embedding ≠ []) :
    g.dense.containsDelta x.chunk.key = !g.dense.containsBase x.chunk.key := by
  rw [Bool.eq_iff_iff,TieredDenseIndex.containsDelta_eq_true,h.deltaKeys,rowKeys,List.mem_toFinset,
    Bool.not_eq_true']
  constructor
  · intro hmem
    obtain ⟨row,hrow,hkey⟩ := List.mem_map.mp hmem
    obtain ⟨y,hy,rfl⟩ := List.mem_map.mp hrow
    obtain ⟨hy,hcond⟩ := List.mem_filter.mp hy
    obtain rfl := live_eq_of_key h.keys hy hx hkey
    exact (of_decide_eq_true hcond).2.2
  · intro hbase
    apply List.mem_map.mpr
    refine ⟨x.row,List.mem_map.mpr ⟨x,List.mem_filter.mpr ⟨hx,?_⟩,rfl⟩,rfl⟩
    rw [decide_eq_true_eq]
    exact ⟨hne,h.waiting x hx hne hbase,hbase⟩

lemma Faithful.mem_allowedKeys (h : Faithful g rows) {filter : MetadataFilter} {held : Bytes → Bool}
    {k : Bytes} : k ∈ g.allowedKeys filter held ↔
      ∃ x ∈ passing g.documents.entries filter, x.chunk.key = k ∧ held k = true := by
  simp only [Generation.allowedKeys,List.mem_map,List.mem_filter,← OrdMap.find?_eq_some,
    decide_eq_true_eq,Prod.exists,exists_and_right,exists_eq_right,h.chunks,passing]
  constructor
  · intro hk
    obtain ⟨s,⟨x,hx,rfl,rfl⟩,hpass,hheld⟩ := hk
    exact ⟨x,⟨hx,hpass⟩,rfl,hheld⟩
  · intro hk
    obtain ⟨x,⟨hx,hpass⟩,rfl,hheld⟩ := hk
    exact ⟨x.stored,⟨x,hx,rfl,rfl⟩,hpass,hheld⟩

/-- What a tier finds are the passing chunks it holds, provided it has their rows. -/
lemma Faithful.tier_perm (h : Faithful g rows) (filter : MetadataFilter) {held : Bytes → Bool}
    {tier : List VectorRecord} (hnodup : (tier.map VectorRecord.key).Nodup)
    (hheld : ∀ x ∈ liveChunks g.documents.entries, held x.chunk.key = true → x.row ∈ tier) :
    (tier.filter fun row => row.key ∈ g.allowedKeys filter held).Perm
      (((passing g.documents.entries filter).filter fun x =>
        held x.chunk.key).map LiveChunk.row) := by
  have hkeys : (((passing g.documents.entries filter).filter fun x => held x.chunk.key).map
      fun x => x.chunk.key).Nodup :=
    h.keys.sublist ((List.filter_sublist.trans List.filter_sublist).map _)
  rw [List.perm_ext_iff_of_nodup (hnodup.of_map.filter _)]
  · intro row
    simp only [List.mem_filter,List.mem_map,decide_eq_true_eq,h.mem_allowedKeys]
    constructor
    · intro hrow
      obtain ⟨htier,x,hx,hkey,hk⟩ := hrow
      refine ⟨x,⟨hx,hkey ▸ hk⟩,?_⟩
      have hmem := hheld x (List.mem_of_mem_filter hx) (hkey ▸ hk)
      exact List.inj_on_of_nodup_map hnodup hmem htier hkey
    · intro hrow
      obtain ⟨x,⟨hx,hk⟩,rfl⟩ := hrow
      exact ⟨hheld x (List.mem_of_mem_filter hx) hk,x,hx,rfl,hk⟩
  · apply List.Nodup.of_map VectorRecord.key
    rw [List.map_map]
    exact hkeys

/-- Together the tiers hold each passing chunk once. -/
lemma Faithful.tiers_perm (h : Faithful g rows) (query : Vec) (filter : MetadataFilter)
    (hembedded : ∀ x ∈ liveChunks g.documents.entries, x.chunk.embedding ≠ []) :
    ((rows.filter fun row => row.key ∈ g.allowedKeys filter g.dense.containsBase).map
        (NativeExactIndex.candidate query) ++
      (g.dense.delta.rows.filter fun row =>
        row.key ∈ g.allowedKeys filter g.dense.containsDelta).map
        (NativeExactIndex.candidate query)).Perm (scan g query filter) := by
  have hdeltaNodup : (g.dense.delta.rows.map VectorRecord.key).Nodup := by
    rw [h.delta,deltaRows,Assembly.deltaRows,List.map_map]
    exact h.keys.sublist (List.filter_sublist.map _)
  have hbase := h.tier_perm filter h.valid.nodup
    fun x hx hheld => h.inBase x hx (hembedded x hx) hheld
  have hdelta := h.tier_perm filter hdeltaNodup
    fun x hx hheld => h.row_mem_delta hx hheld
  have hsplit : ((passing g.documents.entries filter).filter fun x =>
      g.dense.containsDelta x.chunk.key) = (passing g.documents.entries filter).filter
        fun x => !g.dense.containsBase x.chunk.key := by
    apply List.filter_congr
    intro x hx
    have hx := List.mem_of_mem_filter hx
    exact h.containsDelta hx (hembedded x hx)
  rw [hsplit] at hdelta
  have htiers := (hbase.append hdelta).map (NativeExactIndex.candidate query)
  rw [List.map_append,← List.map_append (f := LiveChunk.row),List.map_map] at htiers
  exact htiers.trans ((List.filter_append_perm _ (passing g.documents.entries filter)).map _)

lemma Faithful.scan_nodup (h : Faithful g rows) (query : Vec) (filter : MetadataFilter) :
    ((scan g query filter).map Candidate.chunk).Nodup := by
  rw [scan,List.map_map]
  exact h.keys.sublist (List.filter_sublist.map _)

lemma Faithful.firstDimension_delta (h : Faithful g rows)
    (hembedded : ∀ x ∈ liveChunks g.documents.entries, x.chunk.embedding ≠ [])
    (hne : g.dense.delta.rows ≠ []) : g.dense.delta.dimension = g.dimension := by
  rw [h.delta] at hne ⊢
  apply firstDimension_eq hne
  intro row hrow
  obtain ⟨x,hx,rfl⟩ := List.mem_map.mp hrow
  have hx := List.mem_of_mem_filter hx
  exact h.dimension x hx (hembedded x hx)

/-- With the tiers in order, the candidates are the first `k` of the scan. -/
theorem Faithful.denseCandidates [ApproximateIndex β] (h : Faithful g rows)
    {request : DenseRequest} (hk : request.k ≠ 0) (hquery : normalized request.query = true)
    (hlen : request.query.length = g.dimension)
    (hembedded : ∀ x ∈ liveChunks g.documents.entries, x.chunk.embedding ≠ []) :
    g.denseCandidates request =
      .ok (topK CandidateOrder request.k (scan g request.query request.filter)) := by
  have hdim : g.dimension ≠ 0 := by
    rw [← hlen]
    exact (normalized_length_pos hquery).ne'
  unfold Generation.denseCandidates
  rw [if_neg hk]
  split_ifs with hchunks
  · -- No chunk is stored, so none is live.
    have hnone : liveChunks g.documents.entries = [] := by
      apply List.eq_nil_iff_forall_not_mem.mpr
      intro x hx
      have := OrdMap.find?_eq_some.mp ((h.chunks x.chunk.key x.stored).mpr ⟨x,hx,rfl,rfl⟩)
      rw [hchunks] at this
      cases this
    simp [scan,passing,hnone,topK]
  · have hsearchBase := TieredDenseIndex.searchTier_exact
      ⟨rows,NativeExactIndex.firstDimension rows⟩
      (g.allowedKeys request.filter g.dense.containsBase) hk hquery (by
        intro hallowed _
        obtain ⟨key,hkey⟩ := List.exists_mem_of_ne_nil _ hallowed
        obtain ⟨x,hx,rfl,hheld⟩ := h.mem_allowedKeys.mp hkey
        have hx := List.mem_of_mem_filter hx
        rw [hlen,← h.dimension x hx (hembedded x hx)]
        exact h.valid.dimension _ (h.inBase x hx (hembedded x hx) hheld))
    have hsearchDelta := TieredDenseIndex.searchTier_exact g.dense.delta
      (g.allowedKeys request.filter g.dense.containsDelta) hk hquery
      (fun _ hne => hlen.trans (h.firstDimension_delta hembedded hne).symm)
    simp only [TieredDenseIndex.search,h.base,DenseIndex.search,hsearchBase,hsearchDelta,bind,
      Except.bind,pure,Except.pure,if_neg hk,Except.ok.injEq]
    exact TieredDenseIndex.merge_topK (h.tiers_perm _ _ hembedded) (h.scan_nodup _ _)

end

end RagRuntime.Backend
