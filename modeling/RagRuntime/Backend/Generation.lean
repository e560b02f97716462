import RagRuntime.Backend.Validation
import RagRuntime.Dense.TieredIndex
import RagRuntime.Lexical.Bm25

/-! Immutable generations of the embedded backend, and how one is built from a catalog. -/
namespace RagRuntime.Backend
open RagRuntime.Base RagRuntime.Core RagRuntime.Dense RagRuntime.Lexical

structure ActiveDocument where
  revision : ℕ
  prepared : PreparedDocument
  deriving DecidableEq

abbrev Catalog := OrdMap Bytes ActiveDocument

structure Generation (β : Type) where
  documents : Catalog
  chunks : OrdMap Bytes StoredChunk
  ordinalKeys : List Bytes
  lexical : Bm25Index
  dense : TieredDenseIndex β
  deltaDocuments : Finset Bytes
  dimension : ℕ
  chunkingFingerprint : Bytes
  embeddingIdentity : Bytes
  number : ℕ

/-- A chunk of an active document, with the key under which the document is filed. -/
structure LiveChunk where
  document : Bytes
  active : ActiveDocument
  chunk : PreparedChunk

def LiveChunk.stored (x : LiveChunk) : StoredChunk where
  key := x.chunk.key
  document := x.document
  revision := x.active.revision
  ordinal := x.chunk.ordinal
  title := x.active.prepared.title
  text := x.chunk.text
  context := x.chunk.context
  metadata := x.active.prepared.metadata
  startLine := x.chunk.startLine
  endLine := x.chunk.endLine
  embedding := []

def LiveChunk.row (x : LiveChunk) : VectorRecord := ⟨x.chunk.key,x.chunk.embedding⟩

def chunksOf (entry : Bytes × ActiveDocument) : List LiveChunk :=
  entry.2.prepared.chunks.map fun chunk => ⟨entry.1,entry.2,chunk⟩

/-- The chunks of a catalog in the order in which a generation numbers them. -/
def liveChunks (entries : List (Bytes × ActiveDocument)) : List LiveChunk :=
  entries.flatMap chunksOf

/-- Live chunks with different keys and vectors of unit length are rows of an index. -/
lemma validRows_of_live {xs : List LiveChunk} {dimension : ℕ}
    (hkeys : (xs.map fun x => x.chunk.key).Nodup) (hne : ∀ x ∈ xs, x.chunk.key ≠ [])
    (hgood : ∀ x ∈ xs, x.chunk.embedding.length = dimension ∧
      normalized x.chunk.embedding = true) : ValidRows (xs.map LiveChunk.row) dimension := by
  refine ⟨?_,?_,?_,?_⟩
  · exact List.forall_mem_map.mpr hne
  · rw [List.map_map]
    exact hkeys
  · exact List.forall_mem_map.mpr fun x hx => (hgood x hx).1
  · exact List.forall_mem_map.mpr fun x hx => (hgood x hx).2

/-- A generation while it is built. -/
structure Assembly where
  chunkingFingerprint : Bytes
  embeddingIdentity : Bytes
  chunks : OrdMap Bytes StoredChunk
  ordinalKeys : List Bytes
  lexical : Bm25Index
  dimension : ℕ
  denseChunks : ℕ
  deltaVectors : List VectorRecord

namespace Assembly

def start (analysis : Analysis) : Assembly := ⟨[],[],∅,[],Bm25Index.empty analysis,0,0,[]⟩

def checkChunk (a : Assembly) (x : LiveChunk) : Result Unit :=
  if a.ordinalKeys.length ≥ uint32Max then fail .invalidArgument "chunk limit exceeded"
  else if a.chunks.contains x.chunk.key then fail .alreadyExists "chunk key collision"
  else if x.chunk.embedding ≠ [] ∧ a.dimension ≠ 0 ∧ x.chunk.embedding.length ≠ a.dimension then
    fail .dimensionMismatch "documents use different embedding dimensions"
  else .ok ()

/-- `inDelta` tells which documents the delta represents, `represented` which rows the base. -/
def addChunk (inDelta : Finset Bytes) (represented : Bytes → Bool) (a : Assembly) (x : LiveChunk) :
    Assembly :=
  let embedded := x.chunk.embedding ≠ []
  { a with
    chunks := a.chunks.insert x.chunk.key x.stored
    ordinalKeys := a.ordinalKeys ++ [x.chunk.key]
    lexical := a.lexical.add a.ordinalKeys.length x.chunk.indexedText
    dimension := if embedded ∧ a.dimension = 0 then x.chunk.embedding.length else a.dimension
    denseChunks := if embedded then a.denseChunks + 1 else a.denseChunks
    deltaVectors :=
      if embedded ∧ x.document ∈ inDelta ∧ represented x.chunk.key = false then
        a.deltaVectors ++ [x.row]
      else a.deltaVectors }

def assembleChunk (inDelta : Finset Bytes) (represented : Bytes → Bool) (a : Assembly)
    (x : LiveChunk) : Result Assembly := do
  a.checkChunk x
  return a.addChunk inDelta represented x

/-- The document's fingerprints against those of the documents before it. -/
def matchDocument (a : Assembly) (prepared : PreparedDocument) : Result Assembly :=
  let fingerprint :=
    if a.chunkingFingerprint = [] then prepared.chunkingFingerprint else a.chunkingFingerprint
  let identity :=
    if a.embeddingIdentity = [] then prepared.embeddingIdentity else a.embeddingIdentity
  if fingerprint ≠ prepared.chunkingFingerprint then
    fail .invalidArgument "documents use different chunking fingerprints"
  else if identity ≠ prepared.embeddingIdentity then
    fail .invalidArgument "documents use different embedding identities"
  else .ok { a with chunkingFingerprint := fingerprint, embeddingIdentity := identity }

def assembleDocument (inDelta : Finset Bytes) (represented : Bytes → Bool) (a : Assembly)
    (entry : Bytes × ActiveDocument) : Result Assembly := do
  let a ← a.matchDocument entry.2.prepared
  (chunksOf entry).foldlM (assembleChunk inDelta represented) a

end Assembly

def buildGeneration {β : Type} (analysis : Analysis) (documents : Catalog)
    (dense : TieredDenseIndex β) (deltaDocuments tombstones : Finset Bytes) (number : ℕ) :
    Result (Generation β) := do
  let a ← documents.entries.foldlM
    (Assembly.assembleDocument deltaDocuments dense.containsBase) (Assembly.start analysis)
  if a.denseChunks ≠ 0 ∧ a.denseChunks ≠ a.chunks.size then
    fail .dimensionMismatch "cannot mix lexical-only and dense documents"
  else do
    let dense ← dense.withDelta a.deltaVectors tombstones a.dimension
    return ⟨documents,a.chunks,a.ordinalKeys,a.lexical.finalize,dense,deltaDocuments,a.dimension,
      a.chunkingFingerprint,a.embeddingIdentity,number⟩

namespace Assembly

variable {inDelta : Finset Bytes} {represented : Bytes → Bool}

/-- The rows of `xs` that the delta has to represent. -/
def deltaRows (inDelta : Finset Bytes) (represented : Bytes → Bool) (xs : List LiveChunk) :
    List VectorRecord :=
  (xs.filter fun x => x.chunk.embedding ≠ [] ∧ x.document ∈ inDelta ∧
    represented x.chunk.key = false).map LiveChunk.row

/-- What a run of `addChunk` has put together. -/
structure Holds (inDelta : Finset Bytes) (represented : Bytes → Bool) (analysis : Analysis)
    (a : Assembly) (xs : List LiveChunk) : Prop where
  keys : (xs.map fun x => x.chunk.key).Nodup
  count : xs.length ≤ uint32Max
  ordinalKeys : a.ordinalKeys = xs.map fun x => x.chunk.key
  chunks : ∀ k s, a.chunks.find? k = some s ↔ ∃ x ∈ xs, x.chunk.key = k ∧ s = x.stored
  size : a.chunks.size = xs.length
  dimension : ∀ x ∈ xs, x.chunk.embedding ≠ [] → x.chunk.embedding.length = a.dimension
  zero : (∀ x ∈ xs, x.chunk.embedding = []) → a.dimension = 0
  denseChunks : a.denseChunks = (xs.filter fun x => x.chunk.embedding ≠ []).length
  deltaVectors : a.deltaVectors = deltaRows inDelta represented xs
  lexical : a.lexical = (xs.zipIdx).foldl (fun index x => index.add x.2 x.1.chunk.indexedText)
    (Bm25Index.empty analysis)

lemma holds_start (analysis : Analysis) (inDelta : Finset Bytes) (represented : Bytes → Bool) :
    (start analysis).Holds inDelta represented analysis [] := by
  refine ⟨by simp,by simp,rfl,?_,rfl,by simp,fun _ => rfl,rfl,rfl,rfl⟩
  intro k s
  simp [start]

/-- The fingerprints play no part in it. -/
lemma Holds.relabel {analysis : Analysis} {a : Assembly} {xs : List LiveChunk}
    (h : a.Holds inDelta represented analysis xs) (fingerprint identity : Bytes) :
    ({ a with chunkingFingerprint := fingerprint, embeddingIdentity := identity } : Assembly).Holds
      inDelta represented analysis xs :=
  ⟨h.keys,h.count,h.ordinalKeys,h.chunks,h.size,h.dimension,h.zero,h.denseChunks,h.deltaVectors,
    h.lexical⟩

lemma Holds.find_none {analysis : Analysis} {a : Assembly} {xs : List LiveChunk}
    (h : a.Holds inDelta represented analysis xs) {k : Bytes} :
    a.chunks.find? k = none ↔ k ∉ xs.map fun x => x.chunk.key := by
  rw [Option.eq_none_iff_forall_not_mem]
  constructor
  · intro hnone hmem
    obtain ⟨x,hx,rfl⟩ := List.mem_map.mp hmem
    exact hnone x.stored ((h.chunks _ _).mpr ⟨x,hx,rfl,rfl⟩)
  · intro hnot s hs
    obtain ⟨x,hx,rfl,-⟩ := (h.chunks _ _).mp hs
    exact hnot (List.mem_map_of_mem hx)

/-- A chunk that fits behind `xs`. -/
structure Fits (xs : List LiveChunk) (dimension : ℕ) (x : LiveChunk) : Prop where
  room : xs.length < uint32Max
  fresh : x.chunk.key ∉ xs.map fun x => x.chunk.key
  dimension : x.chunk.embedding ≠ [] → dimension = 0 ∨ x.chunk.embedding.length = dimension

lemma Holds.checkChunk {analysis : Analysis} {a : Assembly} {xs : List LiveChunk}
    (h : a.Holds inDelta represented analysis xs) (x : LiveChunk) :
    a.checkChunk x = .ok () ↔ Fits xs a.dimension x := by
  have hlen : a.ordinalKeys.length = xs.length := by rw [h.ordinalKeys,List.length_map]
  unfold Assembly.checkChunk
  rw [hlen]
  split_ifs with h1 h2 h3
  · simp only [fail,reduceCtorEq,false_iff]
    exact fun hf => absurd hf.room (not_lt.mpr h1)
  · simp only [fail,reduceCtorEq,false_iff]
    intro hf
    obtain ⟨s,hs⟩ := OrdMap.contains_eq_true.mp h2
    rw [h.find_none.mpr hf.fresh] at hs
    cases hs
  · simp only [fail,reduceCtorEq,false_iff]
    exact fun hf => (hf.dimension h3.1).elim h3.2.1 h3.2.2
  · simp only [true_iff]
    refine ⟨not_le.mp h1,?_,?_⟩
    · rw [← h.find_none]
      exact OrdMap.contains_eq_false.mp (Bool.eq_false_of_not_eq_true h2)
    · intro hne
      by_contra hno
      obtain ⟨hzero,hlen⟩ := not_or.mp hno
      exact h3 ⟨hne,hzero,hlen⟩

lemma Holds.addChunk {analysis : Analysis} {a : Assembly} {xs : List LiveChunk}
    (h : a.Holds inDelta represented analysis xs) {x : LiveChunk} (hf : Fits xs a.dimension x) :
    (a.addChunk inDelta represented x).Holds inDelta represented analysis (xs ++ [x]) := by
  have hlen : a.ordinalKeys.length = xs.length := by rw [h.ordinalKeys,List.length_map]
  have hnone := h.find_none.mpr hf.fresh
  refine ⟨?_,?_,?_,?_,?_,?_,?_,?_,?_,?_⟩
  · rw [List.map_append,List.map_singleton,List.nodup_append]
    refine ⟨h.keys,by simp,?_⟩
    intro k hk k' hk' heq
    rw [List.mem_singleton] at hk'
    exact hf.fresh (hk' ▸ heq ▸ hk)
  · rw [List.length_append]
    exact hf.room
  · simp [Assembly.addChunk,h.ordinalKeys]
  · intro k s
    simp only [Assembly.addChunk,OrdMap.find?_insert,List.mem_append,List.mem_singleton]
    by_cases hk : k = x.chunk.key
    · subst hk
      rw [if_pos rfl,Option.some.injEq]
      constructor
      · intro hs
        exact ⟨x,Or.inr rfl,rfl,hs.symm⟩
      · intro hs
        obtain ⟨y,hy | rfl,hkey,rfl⟩ := hs
        · exact absurd (List.mem_map.mpr ⟨y,hy,hkey⟩) hf.fresh
        · rfl
    · rw [if_neg hk,h.chunks]
      constructor
      · intro hs
        obtain ⟨y,hy,hkey,hstored⟩ := hs
        exact ⟨y,Or.inl hy,hkey,hstored⟩
      · intro hs
        obtain ⟨y,hy | rfl,hkey,hstored⟩ := hs
        · exact ⟨y,hy,hkey,hstored⟩
        · exact absurd hkey.symm hk
  · simp only [Assembly.addChunk,OrdMap.size_insert _ hnone,h.size,List.length_append,
      List.length_singleton]
  · intro y hy hne
    simp only [Assembly.addChunk]
    obtain hy | hy := List.mem_append.mp hy
    · have hdim := h.dimension y hy hne
      have hpos : a.dimension ≠ 0 := fun h0 =>
        hne (List.eq_nil_of_length_eq_zero (hdim.trans h0))
      rw [if_neg fun hc => hpos hc.2,hdim]
    · rw [List.mem_singleton.mp hy] at hne ⊢
      obtain h0 | hdim := hf.dimension hne
      · rw [if_pos ⟨hne,h0⟩]
      · have hpos : a.dimension ≠ 0 := fun h0 =>
          hne (List.eq_nil_of_length_eq_zero (hdim.trans h0))
        rw [if_neg fun hc => hpos hc.2,hdim]
  · intro hall
    have hx := hall x (by simp)
    have hrest := h.zero fun y hy => hall y (by simp [hy])
    simp [Assembly.addChunk,hx,hrest]
  · simp only [Assembly.addChunk,List.filter_append,List.length_append,h.denseChunks]
    by_cases hx : x.chunk.embedding = [] <;> simp [hx]
  · simp only [Assembly.addChunk,deltaRows,List.filter_append,List.map_append,h.deltaVectors]
    split_ifs with hcond
    · rw [List.filter_cons_of_pos (by simpa using hcond)]
      rfl
    · rw [List.filter_cons_of_neg (by simpa using hcond)]
      simp
  · simp only [Assembly.addChunk,h.lexical,hlen,List.zipIdx_append,List.foldl_append]
    simp

/-- All chunks of `ys` fit behind `xs`, one after the other. -/
lemma Holds.assembleChunks {analysis : Analysis} {a b : Assembly} {xs ys : List LiveChunk}
    (h : a.Holds inDelta represented analysis xs)
    (hok : ys.foldlM (assembleChunk inDelta represented) a = .ok b) :
    b.Holds inDelta represented analysis (xs ++ ys) := by
  induction ys generalizing a xs with
  | nil =>
    cases hok
    rwa [List.append_nil]
  | cons y ys ih =>
    rw [List.foldlM_cons] at hok
    cases hcheck : a.checkChunk y with
    | error e =>
      simp only [assembleChunk,hcheck,bind,Except.bind] at hok
      cases hok
    | ok u =>
      simp only [assembleChunk,hcheck,bind,Except.bind,pure,Except.pure] at hok
      have := ih (h.addChunk ((h.checkChunk y).mp hcheck)) hok
      rwa [List.append_assoc,List.singleton_append] at this

lemma matchDocument_eq {a b : Assembly} {prepared : PreparedDocument}
    (h : a.matchDocument prepared = .ok b) :
    b = { a with chunkingFingerprint := b.chunkingFingerprint
                 embeddingIdentity := b.embeddingIdentity } := by
  unfold matchDocument at h
  dsimp only at h
  generalize (if a.chunkingFingerprint = [] then prepared.chunkingFingerprint
    else a.chunkingFingerprint) = fingerprint at h
  generalize (if a.embeddingIdentity = [] then prepared.embeddingIdentity
    else a.embeddingIdentity) = identity at h
  split_ifs at h
  · cases h
  · cases h
  · cases h
    rfl

lemma Holds.assembleDocuments {analysis : Analysis} {a b : Assembly} {xs : List LiveChunk}
    {entries : List (Bytes × ActiveDocument)} (h : a.Holds inDelta represented analysis xs)
    (hok : entries.foldlM (assembleDocument inDelta represented) a = .ok b) :
    b.Holds inDelta represented analysis (xs ++ liveChunks entries) := by
  induction entries generalizing a xs with
  | nil =>
    cases hok
    simpa [liveChunks] using h
  | cons entry entries ih =>
    rw [List.foldlM_cons] at hok
    cases hmatch : a.matchDocument entry.2.prepared with
    | error e =>
      simp only [assembleDocument,hmatch,bind,Except.bind] at hok
      cases hok
    | ok a' =>
      cases hchunks : (chunksOf entry).foldlM (assembleChunk inDelta represented) a' with
      | error e =>
        simp only [assembleDocument,hmatch,hchunks,bind,Except.bind] at hok
        cases hok
      | ok a'' =>
        simp only [assembleDocument,hmatch,hchunks,bind,Except.bind] at hok
        have ha' : a'.Holds inDelta represented analysis xs := by
          rw [matchDocument_eq hmatch]
          exact h.relabel _ _
        have := ih (ha'.assembleChunks hchunks) hok
        rwa [List.append_assoc] at this

/-- Documents of one fingerprint and one identity go together. -/
lemma matchDocument_of_same {a : Assembly} (prepared : PreparedDocument)
    (hfingerprint : a.chunkingFingerprint = [] ∨
      a.chunkingFingerprint = prepared.chunkingFingerprint)
    (hidentity : a.embeddingIdentity = [] ∨ a.embeddingIdentity = prepared.embeddingIdentity) :
    a.matchDocument prepared =
      .ok { a with chunkingFingerprint := prepared.chunkingFingerprint
                   embeddingIdentity := prepared.embeddingIdentity } := by
  have hone : ∀ x y : Bytes, x = [] ∨ x = y → (if x = [] then y else x) = y := by
    intro x y h
    split_ifs with hx
    · rfl
    · exact h.resolve_left hx
  unfold matchDocument
  dsimp only
  rw [hone _ _ hfingerprint,hone _ _ hidentity,if_neg (by simp),if_neg (by simp)]

lemma Holds.assembleChunks_ok {analysis : Analysis} {a : Assembly} {xs : List LiveChunk}
    {dimension : ℕ} (h : a.Holds inDelta represented analysis xs) (ys : List LiveChunk)
    (hkeys : ((xs ++ ys).map fun x => x.chunk.key).Nodup)
    (hcount : (xs ++ ys).length ≤ uint32Max)
    (hdim : ∀ x ∈ xs ++ ys, x.chunk.embedding ≠ [] → x.chunk.embedding.length = dimension) :
    ∃ b, ys.foldlM (assembleChunk inDelta represented) a = .ok b := by
  induction ys generalizing a xs with
  | nil => exact ⟨a,rfl⟩
  | cons y ys ih =>
    have hf : Fits xs a.dimension y := by
      refine ⟨?_,?_,?_⟩
      · simp only [List.length_append,List.length_cons] at hcount
        omega
      · rw [List.map_append,List.map_cons] at hkeys
        exact fun hmem => (List.nodup_append.mp hkeys).2.2 _ hmem _ (by simp) rfl
      · intro hne
        by_cases hall : ∀ x ∈ xs, x.chunk.embedding = []
        · exact Or.inl (h.zero hall)
        · push Not at hall
          obtain ⟨x,hx,hxne⟩ := hall
          right
          rw [hdim y (by simp) hne,← hdim x (by simp [hx]) hxne,h.dimension x hx hxne]
    have hassoc : xs ++ y::ys = xs ++ [y] ++ ys := by simp
    rw [hassoc] at hkeys hcount hdim
    obtain ⟨b,hb⟩ := ih (h.addChunk hf) hkeys hcount hdim
    refine ⟨b,?_⟩
    rw [List.foldlM_cons]
    simp only [assembleChunk,(h.checkChunk y).mpr hf,bind,Except.bind,pure,Except.pure]
    exact hb

lemma assembleChunks_labels {a b : Assembly} {ys : List LiveChunk}
    (hok : ys.foldlM (assembleChunk inDelta represented) a = .ok b) :
    b.chunkingFingerprint = a.chunkingFingerprint ∧ b.embeddingIdentity = a.embeddingIdentity := by
  induction ys generalizing a with
  | nil =>
    cases hok
    exact ⟨rfl,rfl⟩
  | cons y ys ih =>
    rw [List.foldlM_cons] at hok
    cases hcheck : a.checkChunk y with
    | error e =>
      simp only [assembleChunk,hcheck,bind,Except.bind] at hok
      cases hok
    | ok u =>
      simp only [assembleChunk,hcheck,bind,Except.bind,pure,Except.pure] at hok
      exact ih (a := a.addChunk inDelta represented y) hok

lemma Holds.assembleDocuments_ok {analysis : Analysis} {a : Assembly} {xs : List LiveChunk}
    {entries : List (Bytes × ActiveDocument)} {fingerprint identity : Bytes} {dimension : ℕ}
    (h : a.Holds inDelta represented analysis xs)
    (hlabels : (a.chunkingFingerprint = [] ∨ a.chunkingFingerprint = fingerprint) ∧
      (a.embeddingIdentity = [] ∨ a.embeddingIdentity = identity))
    (hsame : ∀ e ∈ entries, e.2.prepared.chunkingFingerprint = fingerprint ∧
      e.2.prepared.embeddingIdentity = identity)
    (hkeys : ((xs ++ liveChunks entries).map fun x => x.chunk.key).Nodup)
    (hcount : (xs ++ liveChunks entries).length ≤ uint32Max)
    (hdim : ∀ x ∈ xs ++ liveChunks entries,
      x.chunk.embedding ≠ [] → x.chunk.embedding.length = dimension) :
    ∃ b, entries.foldlM (assembleDocument inDelta represented) a = .ok b := by
  induction entries generalizing a xs with
  | nil => exact ⟨a,rfl⟩
  | cons entry entries ih =>
    obtain ⟨hfp,hid⟩ := hsame entry (by simp)
    have hmatch := matchDocument_of_same entry.2.prepared
      (hfp.symm ▸ hlabels.1) (hid.symm ▸ hlabels.2)
    have hassoc : xs ++ liveChunks (entry::entries) =
        xs ++ chunksOf entry ++ liveChunks entries := by
      simp [liveChunks]
    rw [hassoc] at hkeys hcount hdim
    obtain ⟨a',ha'⟩ := (h.relabel _ _).assembleChunks_ok (chunksOf entry)
      (by rw [List.map_append] at hkeys; exact (List.nodup_append.mp hkeys).1)
      (by rw [List.length_append] at hcount; omega)
      (fun x hx => hdim x (List.mem_append_left _ hx))
    obtain ⟨hfp',hid'⟩ := assembleChunks_labels ha'
    obtain ⟨b,hb⟩ := ih ((h.relabel _ _).assembleChunks ha')
      ⟨Or.inr (hfp'.trans hfp),Or.inr (hid'.trans hid)⟩ (fun e he => hsame e (by simp [he]))
      hkeys hcount hdim
    refine ⟨b,?_⟩
    rw [List.foldlM_cons]
    simp only [assembleDocument,hmatch,bind,Except.bind,ha']
    exact hb

end Assembly

/-- The rows of the live chunks of `documents` that the delta has to represent. -/
def deltaRows {β : Type} (documents : Catalog) (dense : TieredDenseIndex β)
    (deltaDocuments : Finset Bytes) : List VectorRecord :=
  Assembly.deltaRows deltaDocuments dense.containsBase (liveChunks documents.entries)

/-- What `buildGeneration` has checked of the live chunks, and what it makes of them. -/
structure Built {β : Type} (analysis : Analysis) (catalog : Catalog) (dense : TieredDenseIndex β)
    (inDelta tombstones : Finset Bytes) (n : ℕ) (g : Generation β) : Prop where
  documents : g.documents = catalog
  deltaDocuments : g.deltaDocuments = inDelta
  number : g.number = n
  keys : ((liveChunks catalog.entries).map fun x => x.chunk.key).Nodup
  count : (liveChunks catalog.entries).length ≤ uint32Max
  ordinalKeys : g.ordinalKeys = (liveChunks catalog.entries).map fun x => x.chunk.key
  chunks : ∀ k s, g.chunks.find? k = some s ↔
    ∃ x ∈ liveChunks catalog.entries, x.chunk.key = k ∧ s = x.stored
  size : g.chunks.size = (liveChunks catalog.entries).length
  dimension : ∀ x ∈ liveChunks catalog.entries,
    x.chunk.embedding ≠ [] → x.chunk.embedding.length = g.dimension
  uniform : (∀ x ∈ liveChunks catalog.entries, x.chunk.embedding = []) ∨
    ∀ x ∈ liveChunks catalog.entries, x.chunk.embedding ≠ []
  lexical : g.lexical = ((liveChunks catalog.entries).zipIdx.foldl
    (fun index x => index.add x.2 x.1.chunk.indexedText) (Bm25Index.empty analysis)).finalize
  dense : dense.withDelta (deltaRows catalog dense inDelta) tombstones g.dimension =
    .ok g.dense

theorem buildGeneration_ok {β : Type} {analysis : Analysis} {documents : Catalog}
    {dense : TieredDenseIndex β} {deltaDocuments tombstones : Finset Bytes} {number : ℕ}
    {g : Generation β}
    (h : buildGeneration analysis documents dense deltaDocuments tombstones number = .ok g) :
    Built analysis documents dense deltaDocuments tombstones number g := by
  unfold buildGeneration at h
  cases hfold : documents.entries.foldlM
      (Assembly.assembleDocument deltaDocuments dense.containsBase) (Assembly.start analysis) with
  | error e =>
    rw [hfold] at h
    cases h
  | ok a =>
    have ha := (Assembly.holds_start analysis deltaDocuments
      dense.containsBase).assembleDocuments hfold
    rw [List.nil_append] at ha
    simp only [hfold,bind,Except.bind] at h
    split_ifs at h with hmixed
    · cases h
    · cases hdense : dense.withDelta a.deltaVectors tombstones a.dimension with
      | error e =>
        rw [hdense] at h
        cases h
      | ok d =>
        rw [hdense] at h
        cases h
        refine ⟨rfl,rfl,rfl,ha.keys,ha.count,ha.ordinalKeys,ha.chunks,ha.size,ha.dimension,?_,
          by rw [← ha.lexical],?_⟩
        · rw [ha.denseChunks,ha.size] at hmixed
          obtain hzero | hfull := or_iff_not_and_not.mpr hmixed
          · left
            intro x hx
            have := List.filter_eq_nil_iff.mp (List.eq_nil_of_length_eq_zero hzero) x hx
            simpa using this
          · right
            intro x hx
            have := List.filter_eq_self.mp (List.filter_sublist.eq_of_length hfull) x hx
            simpa using this
        · rw [deltaRows,← ha.deltaVectors]
          exact hdense

/-- Without embeddings a generation has no dimension. -/
theorem buildGeneration_zero {β : Type} {analysis : Analysis} {documents : Catalog}
    {dense : TieredDenseIndex β} {deltaDocuments tombstones : Finset Bytes} {number : ℕ}
    {g : Generation β}
    (h : buildGeneration analysis documents dense deltaDocuments tombstones number = .ok g)
    (hnone : ∀ x ∈ liveChunks documents.entries, x.chunk.embedding = []) : g.dimension = 0 := by
  unfold buildGeneration at h
  cases hfold : documents.entries.foldlM
      (Assembly.assembleDocument deltaDocuments dense.containsBase) (Assembly.start analysis) with
  | error e =>
    rw [hfold] at h
    cases h
  | ok a =>
    have ha := (Assembly.holds_start analysis deltaDocuments
      dense.containsBase).assembleDocuments hfold
    rw [List.nil_append] at ha
    simp only [hfold,bind,Except.bind] at h
    split_ifs at h
    · cases h
    · cases hdense : dense.withDelta a.deltaVectors tombstones a.dimension with
      | error e =>
        rw [hdense] at h
        cases h
      | ok d =>
        rw [hdense] at h
        cases h
        exact ha.zero hnone

/-- Documents that go together build a generation, as far as the dense tiers let them. -/
theorem buildGeneration_of {β : Type} {analysis : Analysis} {documents : Catalog}
    {dense : TieredDenseIndex β} {deltaDocuments tombstones : Finset Bytes} {number : ℕ}
    {fingerprint identity : Bytes} {dimension : ℕ}
    (hsame : ∀ e ∈ documents.entries, e.2.prepared.chunkingFingerprint = fingerprint ∧
      e.2.prepared.embeddingIdentity = identity)
    (hkeys : ((liveChunks documents.entries).map fun x => x.chunk.key).Nodup)
    (hcount : (liveChunks documents.entries).length ≤ uint32Max)
    (hembedded : (∀ x ∈ liveChunks documents.entries, x.chunk.embedding = []) ∨
      ∀ x ∈ liveChunks documents.entries,
        x.chunk.embedding ≠ [] ∧ x.chunk.embedding.length = dimension)
    (hdense : ∀ d, (∀ x ∈ liveChunks documents.entries,
      x.chunk.embedding ≠ [] → x.chunk.embedding.length = d) →
      ((∀ x ∈ liveChunks documents.entries, x.chunk.embedding = []) → d = 0) →
        ∃ t, dense.withDelta (deltaRows documents dense deltaDocuments) tombstones d = .ok t) :
    ∃ g, buildGeneration analysis documents dense deltaDocuments tombstones number = .ok g := by
  have hstart := Assembly.holds_start analysis deltaDocuments dense.containsBase
  have hdim : ∀ x ∈ [] ++ liveChunks documents.entries,
      x.chunk.embedding ≠ [] → x.chunk.embedding.length = dimension := by
    intro x hx hne
    obtain hnone | hall := hembedded
    · exact absurd (hnone x hx) hne
    · exact (hall x hx).2
  obtain ⟨a,hfold⟩ := hstart.assembleDocuments_ok ⟨Or.inl rfl,Or.inl rfl⟩ hsame hkeys hcount hdim
  have ha := hstart.assembleDocuments hfold
  rw [List.nil_append] at ha
  obtain ⟨t,ht⟩ := hdense a.dimension ha.dimension ha.zero
  rw [deltaRows,← ha.deltaVectors] at ht
  have hmixed : ¬(a.denseChunks ≠ 0 ∧ a.denseChunks ≠ a.chunks.size) := by
    rw [ha.denseChunks,ha.size]
    obtain hnone | hall := hembedded
    · rw [List.filter_eq_nil_iff.mpr (by simpa using hnone)]
      simp
    · rw [List.filter_eq_self.mpr (by simpa using fun x hx => (hall x hx).1)]
      simp
  unfold buildGeneration
  simp only [hfold,bind,Except.bind,if_neg hmixed,ht]
  exact ⟨_,rfl⟩

/-- Folds whose steps agree up to `f` agree up to `f`. -/
lemma foldlM_map_congr {ε α σ τ : Type} {f : σ → τ} {step step' : σ → α → Except ε σ}
    (h : ∀ a b x, f a = f b → (step a x).map f = (step' b x).map f) (xs : List α) {a b : σ}
    (hab : f a = f b) : (xs.foldlM step a).map f = (xs.foldlM step' b).map f := by
  induction xs generalizing a b with
  | nil => simpa [pure,Except.pure,Except.map] using hab
  | cons x xs ih =>
    rw [List.foldlM_cons,List.foldlM_cons]
    have hx := h a b x hab
    cases hstep : step a x with
    | error e =>
      cases hstep' : step' b x with
      | error e' =>
        rw [hstep,hstep'] at hx
        cases hx
        rfl
      | ok b' =>
        rw [hstep,hstep'] at hx
        cases hx
    | ok a' =>
      cases hstep' : step' b x with
      | error e' =>
        rw [hstep,hstep'] at hx
        cases hx
      | ok b' =>
        rw [hstep,hstep'] at hx
        exact ih (Except.ok.inj hx)

/-- What is assembled apart from the rows of the delta. -/
def Assembly.withoutDelta (a : Assembly) : Assembly := { a with deltaVectors := [] }

/-- The tiers have a say in the rows of the delta alone. -/
lemma assembleDocument_withoutDelta (inDelta inDelta' : Finset Bytes)
    (represented represented' : Bytes → Bool) (a b : Assembly) (entry : Bytes × ActiveDocument)
    (h : a.withoutDelta = b.withoutDelta) :
    (Assembly.assembleDocument inDelta represented a entry).map Assembly.withoutDelta =
      (Assembly.assembleDocument inDelta' represented' b entry).map Assembly.withoutDelta := by
  have hb : b = { a with deltaVectors := b.deltaVectors } := by
    have := congrArg (fun c : Assembly => { c with deltaVectors := b.deltaVectors }) h
    exact this.symm
  have hchunk : ∀ (c d : Assembly) (x : LiveChunk), c.withoutDelta = d.withoutDelta →
      (Assembly.assembleChunk inDelta represented c x).map Assembly.withoutDelta =
        (Assembly.assembleChunk inDelta' represented' d x).map Assembly.withoutDelta := by
    intro c d x hcd
    have hd : d = { c with deltaVectors := d.deltaVectors } := by
      have := congrArg (fun e : Assembly => { e with deltaVectors := d.deltaVectors }) hcd
      exact this.symm
    have hcheck : d.checkChunk x = c.checkChunk x := by
      rw [hd]
      rfl
    unfold Assembly.assembleChunk
    rw [hcheck]
    cases c.checkChunk x with
    | error e => rfl
    | ok u =>
      change Except.ok _ = Except.ok _
      rw [hd]
      rfl
  have hmatch : (a.matchDocument entry.2.prepared).map Assembly.withoutDelta =
      (b.matchDocument entry.2.prepared).map Assembly.withoutDelta := by
    rw [hb]
    unfold Assembly.matchDocument
    dsimp only
    split_ifs <;> rfl
  unfold Assembly.assembleDocument
  cases ha : a.matchDocument entry.2.prepared with
  | error e =>
    cases hb : b.matchDocument entry.2.prepared with
    | error e' =>
      rw [ha,hb] at hmatch
      cases hmatch
      rfl
    | ok b' =>
      rw [ha,hb] at hmatch
      cases hmatch
  | ok a' =>
    cases hb : b.matchDocument entry.2.prepared with
    | error e' =>
      rw [ha,hb] at hmatch
      cases hmatch
    | ok b' =>
      rw [ha,hb] at hmatch
      exact foldlM_map_congr hchunk (chunksOf entry) (Except.ok.inj hmatch)

/-- Documents that build a generation on one dense index build one on any other that takes the
delta. -/
theorem buildGeneration_agree {β : Type} {analysis : Analysis} {documents : Catalog}
    {dense dense' : TieredDenseIndex β} {inDelta inDelta' tombstones tombstones' : Finset Bytes}
    {number : ℕ} (number' : ℕ) {g : Generation β}
    (h : buildGeneration analysis documents dense inDelta tombstones number = .ok g)
    (hdense : ∃ t, dense'.withDelta (deltaRows documents dense' inDelta') tombstones' g.dimension =
      .ok t) :
    ∃ g', buildGeneration analysis documents dense' inDelta' tombstones' number' = .ok g' ∧
      g'.dimension = g.dimension := by
  have hfolds := foldlM_map_congr (assembleDocument_withoutDelta inDelta inDelta'
    dense.containsBase dense'.containsBase) documents.entries
    (rfl : (Assembly.start analysis).withoutDelta = (Assembly.start analysis).withoutDelta)
  unfold buildGeneration at h
  cases hfold : documents.entries.foldlM
      (Assembly.assembleDocument inDelta dense.containsBase) (Assembly.start analysis) with
  | error e =>
    rw [hfold] at h
    cases h
  | ok a =>
    cases hfold' : documents.entries.foldlM
        (Assembly.assembleDocument inDelta' dense'.containsBase) (Assembly.start analysis) with
    | error e =>
      rw [hfold,hfold'] at hfolds
      cases hfolds
    | ok a' =>
      have ha' := (Assembly.holds_start analysis inDelta' dense'.containsBase).assembleDocuments
        hfold'
      rw [List.nil_append] at ha'
      rw [hfold,hfold'] at hfolds
      have hsame : a.withoutDelta = a'.withoutDelta := Except.ok.inj hfolds
      simp only [hfold,bind,Except.bind] at h
      split_ifs at h with hmixed
      · cases h
      · cases hd : dense.withDelta a.deltaVectors tombstones a.dimension with
        | error e =>
          rw [hd] at h
          cases h
        | ok d =>
          rw [hd] at h
          cases h
          obtain ⟨t,ht⟩ := hdense
          have hmixed' : ¬(a'.denseChunks ≠ 0 ∧ a'.denseChunks ≠ a'.chunks.size) := by
            rw [show a'.denseChunks = a.denseChunks from (congrArg Assembly.denseChunks hsame).symm,
              show a'.chunks = a.chunks from (congrArg Assembly.chunks hsame).symm]
            exact hmixed
          have hdimension : a'.dimension = a.dimension :=
            (congrArg Assembly.dimension hsame).symm
          rw [deltaRows,← ha'.deltaVectors] at ht
          unfold buildGeneration
          simp only [hfold',bind,Except.bind,if_neg hmixed',hdimension,ht]
          exact ⟨_,rfl,rfl⟩

end RagRuntime.Backend
