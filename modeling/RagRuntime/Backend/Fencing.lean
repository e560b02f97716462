import RagRuntime.Base.Latest
import RagRuntime.Backend.DenseRun

/-! Writes that reach an embedded backend in any order and any number of times. -/
namespace RagRuntime.Backend
open RagRuntime.Base RagRuntime.Core RagRuntime.Dense RagRuntime.Lexical RagRuntime.Preparation

inductive Write where
  | activate (document : PreparedDocument) (revision : ℕ)
  | erase (document : Bytes) (revision : ℕ)
  deriving DecidableEq

namespace Write

def key : Write → Bytes
  | .activate document _ => document.key
  | .erase document _ => document

def revision : Write → ℕ
  | .activate _ revision | .erase _ revision => revision

/-- What the write leaves active. -/
def active? : Write → Option ActiveDocument
  | .activate document revision => some ⟨revision,document⟩
  | .erase _ _ => none

/-- The write that stands for a document, if there is one. -/
abbrev newest (ws : List Write) (key : Bytes) : Option Write :=
  latestWrite Write.key Write.revision ws key

end Write

/-- Writes whose documents go together in every choice of one for each key, each key with
different revisions. -/
structure Compatible (fingerprint identity : Bytes) (dimension : ℕ) (ws : List Write) : Prop where
  documents : ∀ d r, .activate d r ∈ ws → ValidDocument d ∧ r ≠ 0 ∧
    d.chunkingFingerprint = fingerprint ∧ d.embeddingIdentity = identity
  erasures : ∀ k r, .erase k r ∈ ws → k ≠ [] ∧ r ≠ 0
  embedded : (∀ d r, .activate d r ∈ ws → ∀ c ∈ d.chunks, c.embedding = []) ∨
    ∀ d r, .activate d r ∈ ws → ∀ c ∈ d.chunks,
      c.embedding ≠ [] ∧ c.embedding.length = dimension
  chunkKeys : ∀ d r d' r', .activate d r ∈ ws → .activate d' r' ∈ ws → d.key ≠ d'.key →
    ∀ c ∈ d.chunks, ∀ c' ∈ d'.chunks, c.key ≠ c'.key
  ordinals : ∀ ds : List PreparedDocument, (∀ d ∈ ds, ∃ r, .activate d r ∈ ws) →
    (ds.map PreparedDocument.key).Nodup → (ds.map fun d => d.chunks.length).sum ≤ uint32Max
  revisions : DistinctStamps Write.key Write.revision ws

/-- A catalog of documents that were written. -/
def WrittenBy (ws : List Write) (catalog : Catalog) : Prop :=
  ∀ k a, catalog.find? k = some a → .activate a.prepared a.revision ∈ ws ∧ a.prepared.key = k

section
variable {fingerprint identity : Bytes} {dimension : ℕ} {ws : List Write} {catalog : Catalog}

lemma WrittenBy.mem_live (h : WrittenBy ws catalog) {x : LiveChunk}
    (hx : x ∈ liveChunks catalog.entries) :
    .activate x.active.prepared x.active.revision ∈ ws ∧ x.active.prepared.key = x.document ∧
      x.chunk ∈ x.active.prepared.chunks := by
  obtain ⟨hfind,hchunk⟩ := mem_liveChunks.mp hx
  exact ⟨(h _ _ hfind).1,(h _ _ hfind).2,hchunk⟩

lemma Compatible.filed (hws : Compatible fingerprint identity dimension ws)
    (h : WrittenBy ws catalog) : Filed catalog := by
  intro k a ha
  obtain ⟨hmem,hkey⟩ := h k a ha
  obtain ⟨hvalid,hrevision,-⟩ := hws.documents _ _ hmem
  exact ⟨hkey,hvalid,hrevision⟩

lemma Compatible.keys_nodup (hws : Compatible fingerprint identity dimension ws)
    (h : WrittenBy ws catalog) : ((liveChunks catalog.entries).map fun x => x.chunk.key).Nodup := by
  have hentry : ∀ e ∈ catalog.entries,
      .activate e.2.prepared e.2.revision ∈ ws ∧ e.2.prepared.key = e.1 :=
    fun e he => h e.1 e.2 (OrdMap.find?_eq_some.mpr he)
  have hchunks : ∀ e : Bytes × ActiveDocument,
      (chunksOf e).map (fun x => x.chunk.key) = e.2.prepared.chunks.map PreparedChunk.key := by
    intro e
    simp [chunksOf]
  rw [liveChunks,List.map_flatMap,List.nodup_flatMap]
  constructor
  · intro e he
    rw [hchunks]
    exact (hws.documents _ _ (hentry e he).1).1.keys
  · apply (List.pairwise_map.mp catalog.keys_ascending).imp_of_mem
    intro e e' he he' hlt
    simp only [Function.onFun,hchunks,List.disjoint_left,List.mem_map]
    rintro k ⟨c,hc,rfl⟩ ⟨c',hc',hkey⟩
    obtain ⟨hmem,hk⟩ := hentry e he
    obtain ⟨hmem',hk'⟩ := hentry e' he'
    have hne : e.2.prepared.key ≠ e'.2.prepared.key := by
      rw [hk,hk']
      exact ne_of_lt hlt
    exact hws.chunkKeys _ _ _ _ hmem hmem' hne c hc c' hc' hkey.symm

lemma Compatible.count (hws : Compatible fingerprint identity dimension ws)
    (h : WrittenBy ws catalog) : (liveChunks catalog.entries).length ≤ uint32Max := by
  have hkeys : (catalog.entries.map fun e => e.2.prepared.key) = catalog.keys := by
    apply List.map_congr_left
    intro e he
    exact (h e.1 e.2 (OrdMap.find?_eq_some.mpr he)).2
  have hsum := hws.ordinals (catalog.entries.map fun e => e.2.prepared)
    (by
      intro d hd
      obtain ⟨e,he,rfl⟩ := List.mem_map.mp hd
      exact ⟨_,(h e.1 e.2 (OrdMap.find?_eq_some.mpr he)).1⟩)
    (by
      rw [List.map_map]
      exact hkeys ▸ catalog.keys_nodup)
  rw [List.map_map] at hsum
  rw [liveChunks,List.length_flatMap]
  have hlengths : (catalog.entries.map fun e => (chunksOf e).length) =
      catalog.entries.map ((fun d => d.chunks.length) ∘ fun e => e.2.prepared) := by
    apply List.map_congr_left
    intro e _
    simp [chunksOf]
  rw [hlengths]
  exact hsum

/-- The dense tiers take every delta of such a catalog. -/
lemma Compatible.withDelta {β : Type} (hws : Compatible fingerprint identity dimension ws)
    (h : WrittenBy ws catalog) {dense : TieredDenseIndex β} {tombstones : Finset Bytes}
    (inDelta : Finset Bytes) (htombstones : tombstones ⊆ dense.base.keys)
    (hold : dense.tombstones ⊆ tombstones)
    (hbase : dense.base.dimension = 0 ∨ dense.base.dimension = dimension) {d : ℕ}
    (hd : ∀ x ∈ liveChunks catalog.entries,
      x.chunk.embedding ≠ [] → x.chunk.embedding.length = d)
    (hzero : (∀ x ∈ liveChunks catalog.entries, x.chunk.embedding = []) → d = 0) :
    ∃ t, dense.withDelta (deltaRows catalog dense inDelta) tombstones d = .ok t := by
  apply (hws.filed h).withDelta (hws.keys_nodup h) inDelta htombstones hold hd
  by_cases hnone : ∀ x ∈ liveChunks catalog.entries, x.chunk.embedding = []
  · exact Or.inr (Or.inl (hzero hnone))
  · push Not at hnone
    obtain ⟨x,hx,hne⟩ := hnone
    obtain ⟨hmem,-,hchunk⟩ := h.mem_live hx
    have hdim : d = dimension := by
      obtain hall | hall := hws.embedded
      · exact absurd (hall _ _ hmem _ hchunk) hne
      · rw [← hd x hx hne,(hall _ _ hmem _ hchunk).2]
    obtain h0 | h1 := hbase
    · exact Or.inl h0
    · exact Or.inr (Or.inr (h1.trans hdim.symm))

lemma Compatible.build {β : Type} (hws : Compatible fingerprint identity dimension ws)
    (h : WrittenBy ws catalog) (analysis : Analysis) {dense : TieredDenseIndex β}
    {tombstones : Finset Bytes} (inDelta : Finset Bytes) (number : ℕ)
    (htombstones : tombstones ⊆ dense.base.keys) (hold : dense.tombstones ⊆ tombstones)
    (hbase : dense.base.dimension = 0 ∨ dense.base.dimension = dimension) :
    ∃ g, buildGeneration analysis catalog dense inDelta tombstones number = .ok g := by
  have hlabels : ∀ e ∈ catalog.entries, e.2.prepared.chunkingFingerprint = fingerprint ∧
      e.2.prepared.embeddingIdentity = identity := by
    intro e he
    obtain ⟨-,-,hlabels⟩ := hws.documents _ _ (h e.1 e.2 (OrdMap.find?_eq_some.mpr he)).1
    exact hlabels
  have hembedded : (∀ x ∈ liveChunks catalog.entries, x.chunk.embedding = []) ∨
      ∀ x ∈ liveChunks catalog.entries,
        x.chunk.embedding ≠ [] ∧ x.chunk.embedding.length = dimension := by
    obtain hnone | hall := hws.embedded
    · left
      intro x hx
      obtain ⟨hmem,-,hchunk⟩ := h.mem_live hx
      exact hnone _ _ hmem _ hchunk
    · right
      intro x hx
      obtain ⟨hmem,-,hchunk⟩ := h.mem_live hx
      exact hall _ _ hmem _ hchunk
  exact buildGeneration_of hlabels (hws.keys_nodup h) (hws.count h) hembedded
    fun d hd hzero => hws.withDelta h inDelta htombstones hold hbase hd hzero

/-- What a generation of such a catalog has of its dimension. -/
lemma Compatible.built {β : Type} (hws : Compatible fingerprint identity dimension ws)
    (h : WrittenBy ws catalog) {analysis : Analysis} {dense : TieredDenseIndex β}
    {tombstones inDelta : Finset Bytes} {number : ℕ} {g : Generation β}
    (hg : buildGeneration analysis catalog dense inDelta tombstones number = .ok g) :
    g.dimension = 0 ∨ g.dimension = dimension := by
  by_cases hnone : ∀ x ∈ liveChunks catalog.entries, x.chunk.embedding = []
  · exact Or.inl (buildGeneration_zero hg hnone)
  · right
    push Not at hnone
    obtain ⟨x,hx,hne⟩ := hnone
    obtain ⟨hmem,-,hchunk⟩ := h.mem_live hx
    obtain hall | hall := hws.embedded
    · exact absurd (hall _ _ hmem _ hchunk) hne
    · rw [← (buildGeneration_ok hg).dimension x hx hne,(hall _ _ hmem _ hchunk).2]

end

/-- A write, or a compaction between two writes. -/
inductive Delivery where
  | write (w : Write)
  | compact (overrideMemoryBudget : Bool)
  deriving DecidableEq

def writesOf (ds : List Delivery) : List Write :=
  ds.filterMap fun
    | .write w => some w
    | .compact _ => none

namespace EmbeddedBackend

variable {β : Type}

def deliver (b : EmbeddedBackend β) : Write → Result Unit × EmbeddedBackend β
  | .activate document revision => b.activate document revision
  | .erase document revision =>
    let called := b.erase document revision
    (called.1.map fun _ => (),called.2)

def afterDelivery [ApproximateIndex β] (b : EmbeddedBackend β) : Delivery → EmbeddedBackend β
  | .write w => (b.deliver w).2
  | .compact overrideMemoryBudget => (b.compact overrideMemoryBudget).2

def deliverAll [ApproximateIndex β] (b : EmbeddedBackend β) (ds : List Delivery) :
    EmbeddedBackend β := ds.foldl afterDelivery b

lemma deliver_erase {b c : EmbeddedBackend β} {document : Bytes} {revision : ℕ} {removed : Bool}
    (h : b.erase document revision = (.ok removed,c)) :
    b.deliver (.erase document revision) = (.ok (),c) := by
  simp only [deliver,h]
  rfl

lemma deliver_erase_error {b c : EmbeddedBackend β} {document : Bytes} {revision : ℕ} {e : Error}
    (h : b.erase document revision = (.error e,c)) :
    b.deliver (.erase document revision) = (.error e,c) := by
  simp only [deliver,h]
  rfl

/-- The backend stands, for each document, at the newest of the writes that have reached it. -/
structure Settled (dimension : ℕ) (reached : List Write) (b : EmbeddedBackend β) : Prop where
  revisions : ∀ key, b.latestRevisions.find? key = (Write.newest reached key).map Write.revision
  documents : ∀ key, b.active.documents.find? key = (Write.newest reached key).bind Write.active?
  tombstones : b.active.dense.tombstones ⊆ b.active.dense.base.keys
  base : b.active.dense.base.dimension = 0 ∨ b.active.dense.base.dimension = dimension
  width : b.active.dimension = 0 ∨ b.active.dimension = dimension

section
variable {fingerprint identity : Bytes} {dimension : ℕ} {ws reached : List Write}
  {b : EmbeddedBackend β}

lemma settled_start (dimension : ℕ) (analysis : Analysis) (policy : EmbeddedMaintenancePolicy) :
    Settled dimension [] (start analysis policy : EmbeddedBackend β) :=
  ⟨fun _ => rfl,fun _ => rfl,fun _ h => h,Or.inl rfl,Or.inl rfl⟩

lemma active?_eq_some {w : Write} {a : ActiveDocument} (h : w.active? = some a) :
    w = .activate a.prepared a.revision := by
  cases w with
  | activate document revision =>
    cases h
    rfl
  | erase document revision => cases h

lemma Settled.writtenBy (h : Settled dimension reached b) (hreached : ∀ w ∈ reached, w ∈ ws) :
    WrittenBy ws b.active.documents := by
  intro k a ha
  rw [h.documents,Option.bind_eq_some_iff] at ha
  obtain ⟨w,hw,hactive⟩ := ha
  obtain ⟨hmem,hkey⟩ := mem_of_latestWrite hw
  rw [active?_eq_some hactive] at hmem hkey
  exact ⟨hreached _ hmem,hkey⟩

lemma Settled.stale_eq_false (h : Settled dimension reached b) (key : Bytes) (revision : ℕ) :
    b.stale key revision = false ↔
      ∀ v, Write.newest reached key = some v → v.revision < revision := by
  unfold stale
  rw [h.revisions]
  cases Write.newest reached key with
  | none => simp
  | some v => simp

lemma tombstonesAfter_subset (htombstones : b.active.dense.tombstones ⊆ b.active.dense.base.keys)
    (key : Bytes) (kept : List Bytes) :
    b.active.dense.tombstones ⊆ b.tombstonesAfter key kept ∧
      b.tombstonesAfter key kept ⊆ b.active.dense.base.keys := by
  unfold tombstonesAfter
  cases b.active.documents.find? key with
  | none => exact ⟨fun _ hx => hx,htombstones⟩
  | some old =>
    refine ⟨Finset.subset_union_left,Finset.union_subset htombstones ?_⟩
    intro k hk
    simp only [superseded,List.mem_toFinset,List.mem_filter,decide_eq_true_eq] at hk
    exact (TieredDenseIndex.containsBase_eq_true.mp hk.2.1).1

/-- A write that is newer than what has reached its document takes its place. -/
lemma Settled.publish (h : Settled dimension reached b) {w : Write}
    (hfresh : ∀ v, Write.newest reached w.key = some v → v.revision < w.revision)
    {catalog : Catalog} (hcatalog : ∀ key, catalog.find? key =
      if key = w.key then w.active? else b.active.documents.find? key)
    {inDelta tombstones : Finset Bytes} {number : ℕ} {next : Generation β}
    (hbuilt : Built b.analysis catalog b.active.dense inDelta tombstones number next)
    (hwidth : next.dimension = 0 ∨ next.dimension = dimension) :
    Settled dimension (reached ++ [w]) { b with
      latestRevisions := b.latestRevisions.insert w.key w.revision
      active := next } := by
  have hnewest : Write.newest (reached ++ [w]) w.key = some w := by
    cases hn : Write.newest reached w.key with
    | none => exact latestWrite_append_first hn
    | some v => exact latestWrite_append_later hn (hfresh v hn)
  have hother : ∀ key, key ≠ w.key →
      Write.newest (reached ++ [w]) key = Write.newest reached key :=
    fun key hne => latestWrite_append_of_ne hne.symm
  obtain ⟨-,htombstones,-,-,hdense⟩ := TieredDenseIndex.withDelta_eq_ok.mp hbuilt.dense
  refine ⟨?_,?_,?_,?_,hwidth⟩
  · intro key
    simp only [OrdMap.find?_insert]
    split_ifs with hk
    · rw [hk,hnewest]
      rfl
    · rw [hother key hk,h.revisions]
  · intro key
    rw [hbuilt.documents,hcatalog]
    split_ifs with hk
    · rw [hk,hnewest]
      rfl
    · rw [hother key hk,h.documents]
  · rw [hdense]
    exact htombstones
  · rw [hdense]
    exact h.base

lemma Settled.deliver_fresh (hws : Compatible fingerprint identity dimension ws)
    (h : Settled dimension reached b) (hreached : ∀ w ∈ reached, w ∈ ws) {w : Write} (hw : w ∈ ws)
    (hfresh : ∀ v, Write.newest reached w.key = some v → v.revision < w.revision) :
    ∃ c, b.deliver w = (.ok (),c) ∧ Settled dimension (reached ++ [w]) c := by
  have hwritten := h.writtenBy hreached
  have hstale := (h.stale_eq_false _ _).mpr hfresh
  cases w with
  | activate document revision =>
    obtain ⟨hvalid,hrevision,-⟩ := hws.documents _ _ hw
    have hcatalog : ∀ key, (b.active.documents.insert document.key ⟨revision,document⟩).find? key =
        if key = document.key then some ⟨revision,document⟩ else b.active.documents.find? key := by
      intro key
      rw [OrdMap.find?_insert]
      congr
    have hinsert : WrittenBy ws (b.active.documents.insert document.key ⟨revision,document⟩) := by
      intro k a ha
      rw [hcatalog] at ha
      split_ifs at ha with hk
      · cases ha
        exact ⟨hw,hk.symm⟩
      · exact hwritten k a ha
    obtain ⟨hold,htombstones⟩ := tombstonesAfter_subset h.tombstones document.key
      (document.chunks.map PreparedChunk.key)
    obtain ⟨next,hnext⟩ := hws.build hinsert b.analysis
      (insert document.key b.active.deltaDocuments) (b.active.number+1) htombstones hold h.base
    exact ⟨_,activate_of_build hvalid hrevision hstale hnext,
      h.publish hfresh hcatalog (buildGeneration_ok hnext) (hws.built hinsert hnext)⟩
  | erase document revision =>
    obtain ⟨hdocument,hrevision⟩ := hws.erasures _ _ hw
    have hcatalog : ∀ key, (b.active.documents.erase document).find? key =
        if key = document then none else b.active.documents.find? key := by
      intro key
      rw [OrdMap.find?_erase]
      congr
    have herase : WrittenBy ws (b.active.documents.erase document) := by
      intro k a ha
      rw [hcatalog] at ha
      split_ifs at ha with hk
      exact hwritten k a ha
    obtain ⟨hold,htombstones⟩ := tombstonesAfter_subset h.tombstones document []
    obtain ⟨next,hnext⟩ := hws.build herase b.analysis (b.active.deltaDocuments.erase document)
      (b.active.number+1) htombstones hold h.base
    refine ⟨_,?_,h.publish hfresh hcatalog (buildGeneration_ok hnext) (hws.built herase hnext)⟩
    apply deliver_erase
    unfold erase
    rw [if_neg (not_or.mpr ⟨hdocument,hrevision⟩)]
    simp only [show b.stale document revision = false from hstale,Bool.false_eq_true,if_false,hnext]
    rfl

/-- A write below the newest is refused and changes nothing. -/
lemma Settled.deliver_stale (hws : Compatible fingerprint identity dimension ws)
    (h : Settled dimension reached b) {w v : Write} (hw : w ∈ ws)
    (hv : Write.newest reached w.key = some v) (hlt : w.revision < v.revision) :
    b.deliver w = (fail .alreadyExists "document revision is stale",b) := by
  have hstale : b.stale w.key w.revision = true := by
    rw [← Bool.not_eq_false,h.stale_eq_false]
    intro hall
    have := hall v hv
    omega
  have hrevision : b.latestRevisions.find? w.key = some v.revision := by rw [h.revisions,hv]; rfl
  cases w with
  | activate document revision =>
    obtain ⟨hvalid,hr,-⟩ := hws.documents _ _ hw
    have hnot : b.alreadyActive document revision = false := by
      unfold alreadyActive
      rw [show b.latestRevisions.find? document.key = some v.revision from hrevision]
      cases b.active.documents.find? document.key with
      | none => rfl
      | some active =>
        have hne : v.revision ≠ revision := fun heq => by
          rw [heq] at hlt
          exact lt_irrefl _ hlt
        simp [hne]
    change b.activate document revision = _
    unfold activate
    rw [validate_eq_ok.mpr ⟨hvalid,hr⟩]
    simp only [show b.stale document.key revision = true from hstale,hnot,if_true,
      Bool.false_eq_true,if_false]
  | erase document revision =>
    obtain ⟨hdocument,hr⟩ := hws.erasures _ _ hw
    have hne : ¬(b.latestRevisions.find? document = some revision ∧
        b.active.documents.find? document = none) := by
      rintro ⟨hlatest,-⟩
      rw [show b.latestRevisions.find? document = some v.revision from hrevision] at hlatest
      cases hlatest
      exact lt_irrefl _ hlt
    apply deliver_erase_error
    unfold erase
    rw [if_neg (not_or.mpr ⟨hdocument,hr⟩)]
    simp only [show b.stale document revision = true from hstale,if_true,if_neg hne]
    rfl

/-- The newest write itself is accepted again and changes nothing. -/
lemma Settled.deliver_again (hws : Compatible fingerprint identity dimension ws)
    (h : Settled dimension reached b) {w : Write} (hw : w ∈ ws)
    (hnewest : Write.newest reached w.key = some w) : b.deliver w = (.ok (),b) := by
  have hstale : b.stale w.key w.revision = true := by
    rw [← Bool.not_eq_false,h.stale_eq_false]
    exact fun hall => lt_irrefl _ (hall w hnewest)
  have hrevision : b.latestRevisions.find? w.key = some w.revision := by
    rw [h.revisions,hnewest]
    rfl
  have hdocument : b.active.documents.find? w.key = w.active? := by
    rw [h.documents,hnewest]
    rfl
  cases w with
  | activate document revision =>
    obtain ⟨hvalid,hr,-⟩ := hws.documents _ _ hw
    have halready : b.alreadyActive document revision = true := by
      unfold alreadyActive
      rw [show b.active.documents.find? document.key = some ⟨revision,document⟩ from hdocument,
        show b.latestRevisions.find? document.key = some revision from hrevision]
      simp
    change b.activate document revision = (.ok (),b)
    unfold activate
    rw [validate_eq_ok.mpr ⟨hvalid,hr⟩]
    simp only [show b.stale document.key revision = true from hstale,halready,if_true]
  | erase document revision =>
    obtain ⟨hne,hr⟩ := hws.erasures _ _ hw
    have halready : b.latestRevisions.find? document = some revision ∧
        b.active.documents.find? document = none := ⟨hrevision,hdocument⟩
    apply deliver_erase
    unfold erase
    rw [if_neg (not_or.mpr ⟨hne,hr⟩)]
    simp only [show b.stale document revision = true from hstale,if_true,if_pos halready]
    rfl

/-- What a delivery does to a settled backend. -/
lemma Settled.deliver (hws : Compatible fingerprint identity dimension ws)
    (h : Settled dimension reached b) (hreached : ∀ w ∈ reached, w ∈ ws) {w : Write} (hw : w ∈ ws) :
    Settled dimension (reached ++ [w]) (b.deliver w).2 := by
  have hkeep : ∀ v, Write.newest reached w.key = some v → w.revision ≤ v.revision →
      Settled dimension (reached ++ [w]) b := by
    intro v hv hle
    have hsame : ∀ key, Write.newest (reached ++ [w]) key = Write.newest reached key := by
      intro key
      by_cases hk : w.key = key
      · subst hk
        rw [hv]
        exact latestWrite_append_stale hv hle
      · exact latestWrite_append_of_ne hk
    exact ⟨fun key => by rw [hsame,h.revisions],fun key => by rw [hsame,h.documents],
      h.tombstones,h.base,h.width⟩
  by_cases hfresh : ∀ v, Write.newest reached w.key = some v → v.revision < w.revision
  · obtain ⟨c,hc,hsettled⟩ := h.deliver_fresh hws hreached hw hfresh
    rw [hc]
    exact hsettled
  · push Not at hfresh
    obtain ⟨v,hv,hle⟩ := hfresh
    obtain hlt | heq := lt_or_eq_of_le hle
    · rw [h.deliver_stale hws hw hv hlt]
      exact hkeep v hv hle
    · obtain ⟨hmem,hkey⟩ := mem_of_latestWrite hv
      have hsame : v = w := hws.revisions v (hreached v hmem) w hw hkey heq.symm
      subst hsame
      rw [h.deliver_again hws hw hv]
      exact hkeep v hv hle

/-- A compaction keeps documents and revisions, whether it succeeds or not. -/
lemma Settled.compact [ApproximateIndex β] (hws : Compatible fingerprint identity dimension ws)
    (h : Settled dimension reached b) (hreached : ∀ w ∈ reached, w ∈ ws)
    (overrideMemoryBudget : Bool) :
    Settled dimension reached (b.compact overrideMemoryBudget).2 := by
  unfold EmbeddedBackend.compact
  split_ifs
  · exact h
  · cases hcompact : TieredDenseIndex.compact (β := β) (liveRows b.active.documents.entries)
      b.active.dimension b.policy.dense with
    | error e => exact h
    | ok dense =>
      dsimp only
      cases hbuild : buildGeneration b.analysis b.active.documents dense ∅ ∅
        (b.active.number+1) with
      | error e => exact h
      | ok next =>
        have hbuilt := buildGeneration_ok hbuild
        obtain ⟨-,htombstones,-,-,hdense⟩ := TieredDenseIndex.withDelta_eq_ok.mp hbuilt.dense
        have hbase : dense.base.dimension = b.active.dimension := by
          unfold TieredDenseIndex.compact at hcompact
          split_ifs at hcompact
          · cases hcompact
          · cases hindex : buildDenseIndex (β := β) b.policy.dense
              (liveRows b.active.documents.entries) with
            | error e => rw [hindex] at hcompact; cases hcompact
            | ok index => rw [hindex] at hcompact; cases hcompact; rfl
        refine ⟨h.revisions,?_,?_,?_,hws.built (h.writtenBy hreached) hbuild⟩
        · intro key
          rw [hbuilt.documents,h.documents]
        · rw [hdense]
          exact htombstones
        · rw [hdense]
          exact hbase ▸ h.width

lemma settled_deliverAll [ApproximateIndex β] (hws : Compatible fingerprint identity dimension ws)
    {ds : List Delivery} (hds : ∀ w, .write w ∈ ds → w ∈ ws) (h : Settled dimension reached b)
    (hreached : ∀ w ∈ reached, w ∈ ws) :
    Settled dimension (reached ++ writesOf ds) (b.deliverAll ds) := by
  induction ds generalizing reached b with
  | nil =>
    rw [writesOf,List.filterMap_nil,List.append_nil]
    exact h
  | cons d ds ih =>
    have hrest : ∀ w, .write w ∈ ds → w ∈ ws := fun w hw => hds w (List.mem_cons_of_mem _ hw)
    cases d with
    | write w =>
      have hw := hds w (List.mem_cons_self ..)
      have hnext : ∀ v ∈ reached ++ [w], v ∈ ws := by
        intro v hv
        obtain hv | hv := List.mem_append.mp hv
        · exact hreached v hv
        · rw [List.mem_singleton.mp hv]
          exact hw
      have := ih hrest (h.deliver hws hreached hw) hnext
      rwa [List.append_assoc] at this
    | compact overrideMemoryBudget =>
      exact ih hrest (h.compact hws hreached overrideMemoryBudget) hreached

lemma mem_writesOf {ds : List Delivery} {w : Write} : w ∈ writesOf ds ↔ .write w ∈ ds := by
  unfold writesOf
  rw [List.mem_filterMap]
  constructor
  · rintro ⟨d,hd,hw⟩
    cases d with
    | write v => cases hw; exact hd
    | compact o => cases hw
  · exact fun h => ⟨_,h,rfl⟩

/-- However the writes arrive, each document ends up at its greatest revision. On the way a write
below the recorded revision is refused, and the one that was applied last is accepted again; neither
changes the backend. -/
theorem deliverAll_converges [ApproximateIndex β] (analysis : Analysis)
    (policy : EmbeddedMaintenancePolicy) (hws : Compatible fingerprint identity dimension ws)
    {ds : List Delivery} (hds : ∀ w, .write w ∈ ds ↔ w ∈ ws) :
    (∀ key, ((start analysis policy : EmbeddedBackend β).deliverAll ds).latestRevisions.find? key =
        (Write.newest ws key).map Write.revision ∧
      ((start analysis policy : EmbeddedBackend β).deliverAll ds).active.documents.find? key =
        (Write.newest ws key).bind Write.active?) ∧
    ∀ before w, before ++ [.write w] <+: ds → ∀ recorded,
      ((start analysis policy : EmbeddedBackend β).deliverAll before).latestRevisions.find? w.key =
        some recorded →
      (w.revision < recorded →
        ((start analysis policy : EmbeddedBackend β).deliverAll before).deliver w =
        (fail .alreadyExists "document revision is stale",
          (start analysis policy).deliverAll before)) ∧
      (w.revision = recorded →
        ((start analysis policy : EmbeddedBackend β).deliverAll before).deliver w =
        (.ok (),(start analysis policy).deliverAll before)) := by
  have hsettled : ∀ es : List Delivery, (∀ w, .write w ∈ es → w ∈ ws) →
      Settled dimension (writesOf es) ((start analysis policy : EmbeddedBackend β).deliverAll
        es) := by
    intro es hes
    have h := settled_deliverAll hws hes (settled_start (β := β) dimension analysis policy)
      (by simp)
    rwa [List.nil_append] at h
  constructor
  · have h := hsettled ds fun w hw => (hds w).mp hw
    have hnewest : ∀ key, Write.newest (writesOf ds) key = Write.newest ws key :=
      latestWrite_congr hws.revisions fun w => mem_writesOf.trans (hds w)
    intro key
    rw [h.revisions,h.documents,hnewest]
    exact ⟨rfl,rfl⟩
  · intro before w hstart recorded hrecorded
    have hbefore : ∀ v, .write v ∈ before → v ∈ ws := fun v hv =>
      (hds v).mp (hstart.subset (List.mem_append_left _ hv))
    have hw : w ∈ ws := (hds w).mp (hstart.subset (by simp))
    have h := hsettled before hbefore
    rw [h.revisions,Option.map_eq_some_iff] at hrecorded
    obtain ⟨v,hv,rfl⟩ := hrecorded
    refine ⟨fun hlt => h.deliver_stale hws hw hv hlt,fun heq => ?_⟩
    obtain ⟨hmem,hkey⟩ := mem_of_latestWrite hv
    have hsame : v = w := hws.revisions v (hbefore v (mem_writesOf.mp hmem)) w hw hkey heq.symm
    exact h.deliver_again hws hw (hsame ▸ hv)

end

/-- A document and its deletion. -/
def writtenAndErased : List Write := [.activate (headed 'A' [1,0]) 1,.erase (ascii ['d']) 2]

lemma writtenAndErased_compatible : Compatible (headed 'A' [1,0]).chunkingFingerprint
    (headed 'A' [1,0]).embeddingIdentity 2 writtenAndErased := by
  have hactivate : ∀ d r, .activate d r ∈ writtenAndErased → d = headed 'A' [1,0] ∧ r = 1 := by
    intro d r h
    obtain h | h := List.mem_cons.mp h
    · cases h
      exact ⟨rfl,rfl⟩
    · cases List.mem_singleton.mp h
  refine ⟨?_,?_,Or.inr ?_,?_,?_,?_⟩
  · intro d r h
    obtain ⟨rfl,rfl⟩ := hactivate d r h
    have hvalid : validate (headed 'A' [1,0]) 1 = .ok () := by decide +kernel
    exact ⟨(validate_eq_ok.mp hvalid).1,by decide,rfl,rfl⟩
  · intro k r h
    obtain h | h := List.mem_cons.mp h
    · cases h
    · cases List.mem_singleton.mp h
      exact ⟨by decide,by decide⟩
  · intro d r h
    obtain ⟨rfl,rfl⟩ := hactivate d r h
    decide +kernel
  · intro d r d' r' h h' hne
    exact absurd (congrArg _ ((hactivate d r h).1.trans (hactivate d' r' h').1.symm)) hne
  · intro ds hds hnodup
    have hall : ∀ d ∈ ds, d = headed 'A' [1,0] := fun d hd =>
      (hactivate d _ (hds d hd).choose_spec).1
    match ds with
    | [] => exact Nat.zero_le _
    | [d] =>
      rw [hall d (by simp)]
      decide +kernel
    | d::d'::ds =>
      rw [hall d (by simp),hall d' (by simp)] at hnodup
      simp at hnodup
  · intro v hv w hw hkey hrevision
    obtain hv | hv := List.mem_cons.mp hv
    · obtain hw | hw := List.mem_cons.mp hw
      · rw [hv,hw]
      · rw [hv,List.mem_singleton.mp hw] at hrevision
        cases hrevision
    · obtain hw | hw := List.mem_cons.mp hw
      · rw [List.mem_singleton.mp hv,hw] at hrevision
        cases hrevision
      · rw [List.mem_singleton.mp hv,List.mem_singleton.mp hw]

/-- The deletion arrives first, and the document twice after it. -/
def overtaken : List Delivery :=
  [.write (.erase (ascii ['d']) 2),.write (.activate (headed 'A' [1,0]) 1),.compact true,
    .write (.activate (headed 'A' [1,0]) 1)]

theorem overtaken_converges :
    ((start noTerms exactPolicy : EmbeddedBackend Unit).deliverAll overtaken).latestRevisions.find?
        (ascii ['d']) = some 2 ∧
      ((start noTerms exactPolicy : EmbeddedBackend Unit).deliverAll
        overtaken).active.documents.find?
        (ascii ['d']) = none := by
  have hds : ∀ w, .write w ∈ overtaken ↔ w ∈ writtenAndErased := by
    intro w
    simp only [overtaken,writtenAndErased,List.mem_cons,Delivery.write.injEq,List.not_mem_nil,
      or_false,reduceCtorEq,false_or]
    tauto
  obtain ⟨hfinal,-⟩ := deliverAll_converges (β := Unit) noTerms exactPolicy
    writtenAndErased_compatible hds
  obtain ⟨hrevision,hdocument⟩ := hfinal (ascii ['d'])
  have hnewest : Write.newest writtenAndErased (ascii ['d']) = some (.erase (ascii ['d']) 2) := by
    decide +kernel
  rw [hnewest] at hrevision hdocument
  exact ⟨hrevision,hdocument⟩

end EmbeddedBackend
end RagRuntime.Backend
