import RagRuntime.Backend.TierLayout
import RagRuntime.Lexical.Bm25Growth
import RagRuntime.Lexical.TermCoverage

/-! What can be found in a generation: each chunk of an active document is stored under its key and
has an ordinal, the postings of its terms, and a place in a dense tier if it has a vector. -/
namespace RagRuntime.Backend
open RagRuntime.Base RagRuntime.Core RagRuntime.Dense RagRuntime.Lexical

variable {β : Type} {analysis : Analysis} {catalog : Catalog} {dense : TieredDenseIndex β}
  {inDelta tombstones : Finset Bytes} {n : ℕ} {g : Generation β}

structure Generation.Indexes (g : Generation β) (x : LiveChunk) : Prop where
  stored : g.chunks.find? x.chunk.key = some x.stored
  lexical : ∃ i, g.ordinalKeys[i]? = some x.chunk.key ∧
    ∀ term ∈ g.lexical.analysis.tokenize x.chunk.indexedText, g.lexical.Covers i term
  dense : x.chunk.embedding ≠ [] →
    g.dense.containsBase x.chunk.key = true ∨ g.dense.containsDelta x.chunk.key = true

/-- A document is active, and all its chunks are indexed. -/
structure Generation.Searchable (g : Generation β) (a : ActiveDocument) : Prop where
  active : g.documents.find? a.prepared.key = some a
  chunks : ∀ c ∈ a.prepared.chunks, g.Indexes ⟨a.prepared.key,a,c⟩

/-- The texts of a generation are those of its chunks, numbered. -/
lemma Built.lexical_added (h : Built analysis catalog dense inDelta tombstones n g) :
    g.lexical = (Bm25Index.added analysis ((liveChunks catalog.entries).map
      fun x => x.chunk.indexedText)).finalize := by
  rw [h.lexical,Bm25Index.added,List.zipIdx_map,List.foldl_map]
  rfl

/-- A posting stands for each term of each of the texts. -/
lemma covers_added {texts : List Bytes} {i : ℕ} {text term : Bytes} (htext : texts[i]? = some text)
    (hterm : term ∈ analysis.tokenize text) : (Bm25Index.added analysis texts).Covers i term := by
  have hposting : (⟨i,(analysis.tokenize text).count term⟩ : Posting) ∈
      Bm25Index.postingsOf analysis.tokenize texts term :=
    Bm25Index.mem_postingsOf.mpr ⟨text,htext,hterm,rfl⟩
  unfold Bm25Index.Covers Bm25Index.postingList
  rw [Bm25Index.find?_postings_added,if_neg (List.ne_nil_of_mem hposting),Option.getD_some]
  exact List.mem_map_of_mem hposting

/-- A chunk whose row the base represents stays represented, if it is not hidden; of a document in
the delta any other chunk is in the delta. -/
lemma Built.held (h : Built analysis catalog dense inDelta tombstones n g) {x : LiveChunk}
    (hx : x ∈ liveChunks catalog.entries) (hne : x.chunk.embedding ≠ [])
    (hkept : x.chunk.key ∈ tombstones → x.chunk.key ∈ dense.tombstones)
    (hdelta : dense.containsBase x.chunk.key = false → x.document ∈ inDelta) :
    g.dense.containsBase x.chunk.key = true ∨ g.dense.containsDelta x.chunk.key = true := by
  obtain ⟨-,-,-,-,hdense⟩ := TieredDenseIndex.withDelta_eq_ok.mp h.dense
  rw [hdense]
  cases hheld : dense.containsBase x.chunk.key with
  | true =>
    obtain ⟨hkey,hshown⟩ := TieredDenseIndex.containsBase_eq_true.mp hheld
    refine Or.inl (TieredDenseIndex.containsBase_eq_true.mpr ⟨hkey,?_⟩)
    exact fun hhidden => hshown (hkept hhidden)
  | false =>
    refine Or.inr (TieredDenseIndex.containsDelta_eq_true.mpr (List.mem_toFinset.mpr ?_))
    refine List.mem_map.mpr ⟨x.row,List.mem_map.mpr ⟨x,List.mem_filter.mpr ⟨hx,?_⟩,rfl⟩,rfl⟩
    exact decide_eq_true ⟨hne,hdelta hheld,hheld⟩

lemma Built.indexes (h : Built analysis catalog dense inDelta tombstones n g) {x : LiveChunk}
    (hx : x ∈ liveChunks catalog.entries)
    (hheld : x.chunk.embedding ≠ [] →
      g.dense.containsBase x.chunk.key = true ∨ g.dense.containsDelta x.chunk.key = true) :
    g.Indexes x := by
  refine ⟨(h.chunks _ _).mpr ⟨x,hx,rfl,rfl⟩,?_,hheld⟩
  obtain ⟨i,hi⟩ := List.mem_iff_getElem?.mp hx
  refine ⟨i,by rw [h.ordinalKeys,List.getElem?_map,hi,Option.map_some],?_⟩
  intro term hterm
  rw [h.lexical_added] at hterm ⊢
  have htext : ((liveChunks catalog.entries).map fun x => x.chunk.indexedText)[i]? =
      some x.chunk.indexedText := by
    rw [List.getElem?_map,hi,Option.map_some]
  refine covers_added htext ?_
  change term ∈ (Bm25Index.added analysis _).analysis.tokenize _ at hterm
  rwa [Bm25Index.analysis_added] at hterm

/-- A document of the catalog can be searched, if what it has in the base is not hidden and what it
has not there goes to the delta. -/
lemma Built.searchable (h : Built analysis catalog dense inDelta tombstones n g)
    {a : ActiveDocument} (hfind : catalog.find? a.prepared.key = some a)
    (hkept : ∀ c ∈ a.prepared.chunks, c.key ∈ tombstones → c.key ∈ dense.tombstones)
    (hdelta : ∀ c ∈ a.prepared.chunks, c.embedding ≠ [] → dense.containsBase c.key = false →
      a.prepared.key ∈ inDelta) : g.Searchable a := by
  refine ⟨h.documents ▸ hfind,?_⟩
  intro c hc
  have hlive : (⟨a.prepared.key,a,c⟩ : LiveChunk) ∈ liveChunks catalog.entries :=
    mem_liveChunks.mpr ⟨hfind,hc⟩
  exact h.indexes hlive fun hne => h.held hlive hne (hkept c hc) (hdelta c hc hne)

namespace EmbeddedBackend

variable {b : EmbeddedBackend β} {document : PreparedDocument} {revision : ℕ}

/-- An activated document can be searched. -/
lemma searchable_activated {next : Generation β} (h : Built b.analysis
    (b.active.documents.insert document.key ⟨revision,document⟩) b.active.dense
    (insert document.key b.active.deltaDocuments)
    (b.tombstonesAfter document.key (document.chunks.map PreparedChunk.key))
    (b.active.number+1) next) : next.Searchable ⟨revision,document⟩ := by
  refine h.searchable (by rw [OrdMap.find?_insert,if_pos rfl]) ?_
    fun c _ _ _ => Finset.mem_insert_self _ _
  intro c hc hhidden
  refine (mem_tombstonesAfter ?_).mp hhidden
  exact fun old _ _ _ _ => List.mem_map_of_mem hc

/-- What can be searched can be searched after a compaction. -/
lemma searchable_compacted [ApproximateIndex β] {a : ActiveDocument}
    (h : b.active.Searchable a) (overrideMemoryBudget : Bool) :
    (b.compact overrideMemoryBudget).2.active.Searchable a := by
  obtain hsame | ⟨dense,next,hdense,hbuild,hsame⟩ := b.compact_snd overrideMemoryBudget
  · rw [hsame]
    exact h
  · rw [hsame]
    refine (buildGeneration_ok hbuild).searchable h.active
      (fun c _ hhidden => absurd hhidden (Finset.notMem_empty _)) ?_
    intro c hc hne hbase
    have hlive : (⟨a.prepared.key,a,c⟩ : LiveChunk) ∈ liveChunks b.active.documents.entries :=
      mem_liveChunks.mpr ⟨h.active,hc⟩
    obtain ⟨htombstones,hkeys,-⟩ := compact_base hdense
    have hheld : dense.containsBase c.key = true := by
      rw [TieredDenseIndex.containsBase_eq_true,htombstones,hkeys,rowKeys,List.mem_toFinset]
      exact ⟨List.mem_map_of_mem (mem_liveRows hlive hne),Finset.notMem_empty _⟩
    rw [hheld] at hbase
    cases hbase

end EmbeddedBackend
end RagRuntime.Backend
