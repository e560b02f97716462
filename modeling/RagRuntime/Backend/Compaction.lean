import RagRuntime.Backend.Fencing

/-! Compactions that build a generation while writers go on, and publish it only if no writer has
published in between. -/
namespace RagRuntime.Backend
open RagRuntime.Base RagRuntime.Core RagRuntime.Dense RagRuntime.Lexical

/-- How far a call of `compact` has come. The generation it took is `source`. -/
inductive Compaction (β : Type) where
  | taken (source : Generation β) (overrideMemoryBudget : Bool)
  | rebuilt (source next : Generation β)
  | finished (result : Result Unit)

/-- What a compaction builds from the generation that it took. -/
def rebuildGeneration {β : Type} [ApproximateIndex β] (analysis : Analysis)
    (policy : EmbeddedMaintenancePolicy) (source : Generation β) (overrideMemoryBudget : Bool) :
    Result (Generation β) :=
  if overrideMemoryBudget = false ∧
      source.chunks.size * source.dimension * 4 > policy.compactionMemoryBudget then
    fail .unavailable "compaction exceeds configured memory budget"
  else do
    let dense ← TieredDenseIndex.compact (liveRows source.documents.entries) source.dimension
      policy.dense
    buildGeneration analysis source.documents dense ∅ ∅ (source.number+1)

/-- Writers and compactions of one backend. -/
structure Maintained (β : Type) where
  backend : EmbeddedBackend β
  compactions : ℕ → Option (Compaction β)

namespace Maintained

inductive Step where
  | write (w : Write)
  | take (thread : ℕ) (overrideMemoryBudget : Bool)
  | rebuild (thread : ℕ)
  | publish (thread : ℕ)
  deriving DecidableEq

def Step.isWrite : Step → Bool
  | .write _ => true
  | _ => false

variable {β : Type}

def start (b : EmbeddedBackend β) : Maintained β := ⟨b,fun _ => none⟩

def withCompaction (s : Maintained β) (thread : ℕ) (c : Compaction β) : Maintained β :=
  { s with compactions := Function.update s.compactions thread (some c) }

/-- The last part of `compact`, under the writer lock. Every publication raises the number of the
active generation, so that it is the captured one exactly if it has its number. -/
def publish (s : Maintained β) (thread : ℕ) (source next : Generation β) : Maintained β :=
  if s.backend.active.number ≠ source.number then
    s.withCompaction thread
      (.finished (fail .unavailable "generation changed while compaction was building"))
  else { s with backend.active := next }.withCompaction thread (.finished (.ok ()))

/-- A thread that is not in a call can make the next one. -/
def step [ApproximateIndex β] (s : Maintained β) : Step → Option (Maintained β)
  | .write w => some { s with backend := (s.backend.deliver w).2 }
  | .take thread overrideMemoryBudget =>
    match s.compactions thread with
    | none | some (.finished _) =>
      some (s.withCompaction thread (.taken s.backend.active overrideMemoryBudget))
    | _ => none
  | .rebuild thread =>
    match s.compactions thread with
    | some (.taken source overrideMemoryBudget) =>
      match rebuildGeneration s.backend.analysis s.backend.policy source overrideMemoryBudget with
      | .error e => some (s.withCompaction thread (.finished (.error e)))
      | .ok next => some (s.withCompaction thread (.rebuilt source next))
    | _ => none
  | .publish thread =>
    match s.compactions thread with
    | some (.rebuilt source next) => some (s.publish thread source next)
    | _ => none

end Maintained

namespace EmbeddedBackend

variable {β : Type}

/-- A compaction that nothing comes between is the three steps in one. -/
theorem compact_eq_rebuild [ApproximateIndex β] (b : EmbeddedBackend β)
    (overrideMemoryBudget : Bool) : b.compact overrideMemoryBudget =
      match rebuildGeneration b.analysis b.policy b.active overrideMemoryBudget with
      | .error e => (.error e,b)
      | .ok next => (.ok (),{ b with active := next }) := by
  unfold compact rebuildGeneration
  split_ifs
  · rfl
  · cases TieredDenseIndex.compact (β := β) (liveRows b.active.documents.entries)
      b.active.dimension b.policy.dense with
    | error e => rfl
    | ok dense => rfl

/-- The active generation was built from documents that were validated. -/
structure Formed (b : EmbeddedBackend β) : Prop where
  filed : Filed b.active.documents
  built : ∃ dense inDelta tombstones, Built b.analysis b.active.documents dense inDelta tombstones
    b.active.number b.active

/-- A backend before its first write: fresh, or restored from a checkpoint. -/
inductive Opened [ApproximateIndex β] (analysis : Analysis) (policy : EmbeddedMaintenancePolicy) :
    EmbeddedBackend β → Prop
  | fresh : Opened analysis policy (start analysis policy)
  | restored (checkpoint : EmbeddedCheckpoint) (b : EmbeddedBackend β)
    (h : restoreCheckpoint analysis policy checkpoint = .ok b) : Opened analysis policy b

/-- The dense base has room for the vectors of a write that is not stale. -/
def Accommodates (b : EmbeddedBackend β) : Write → Prop
  | .activate document revision => b.stale document.key revision = false →
      b.active.dense.base.dimension = 0 ∨ ∀ c ∈ document.chunks, c.embedding ≠ [] →
        c.embedding.length = b.active.dense.base.dimension
  | .erase _ _ => True

instance (b : EmbeddedBackend β) (w : Write) : Decidable (b.Accommodates w) :=
  match w with
  | .activate document revision => inferInstanceAs (Decidable
      (b.stale document.key revision = false → b.active.dense.base.dimension = 0 ∨
        ∀ c ∈ document.chunks, c.embedding ≠ [] →
          c.embedding.length = b.active.dense.base.dimension))
  | .erase _ _ => isTrue trivial

variable {b c : EmbeddedBackend β}

lemma Formed.tombstones (h : b.Formed) : b.active.dense.tombstones ⊆ b.active.dense.base.keys := by
  obtain ⟨dense,inDelta,tombstones,hbuilt⟩ := h.built
  obtain ⟨-,htombstones,-,-,hdense⟩ := TieredDenseIndex.withDelta_eq_ok.mp hbuilt.dense
  rw [hdense]
  exact htombstones

/-- The active vectors have the dimension of the dense base. -/
lemma Formed.room (h : b.Formed) : ∀ x ∈ liveChunks b.active.documents.entries,
    x.chunk.embedding ≠ [] → b.active.dense.base.dimension = 0 ∨
      x.chunk.embedding.length = b.active.dense.base.dimension := by
  intro x hx hne
  obtain ⟨dense,inDelta,tombstones,hbuilt⟩ := h.built
  obtain ⟨hdims,-,-,-,hdense⟩ := TieredDenseIndex.withDelta_eq_ok.mp hbuilt.dense
  have hlen := hbuilt.dimension x hx hne
  rw [hdense]
  obtain h0 | h0 | hdim := hdims
  · exact Or.inl h0
  · exact absurd (List.eq_nil_of_length_eq_zero (hlen.trans h0)) hne
  · exact Or.inr (hlen.trans hdim.symm)

/-- A catalog that another backend could build a generation of. -/
lemma Formed.build {catalog : Catalog} {dense : TieredDenseIndex β}
    {inDelta tombstones tombstones' : Finset Bytes} {n : ℕ} {g : Generation β}
    (hfiled : Filed catalog)
    (hg : buildGeneration b.analysis catalog dense inDelta tombstones n = .ok g)
    (hroom : ∀ x ∈ liveChunks catalog.entries, x.chunk.embedding ≠ [] →
      b.active.dense.base.dimension = 0 ∨
        x.chunk.embedding.length = b.active.dense.base.dimension)
    (hold : b.active.dense.tombstones ⊆ tombstones' ∧ tombstones' ⊆ b.active.dense.base.keys)
    (inDelta' : Finset Bytes) (n' : ℕ) :
    ∃ g', buildGeneration b.analysis catalog b.active.dense inDelta' tombstones' n' = .ok g' := by
  have hbuilt := buildGeneration_ok hg
  have hbase : b.active.dense.base.dimension = 0 ∨ g.dimension = 0 ∨
      b.active.dense.base.dimension = g.dimension := by
    by_cases hnone : ∀ x ∈ liveChunks catalog.entries, x.chunk.embedding = []
    · exact Or.inr (Or.inl (buildGeneration_zero hg hnone))
    · push Not at hnone
      obtain ⟨x,hx,hne⟩ := hnone
      obtain h0 | hlen := hroom x hx hne
      · exact Or.inl h0
      · exact Or.inr (Or.inr (hlen.symm.trans (hbuilt.dimension x hx hne)))
  obtain ⟨g',hg',-⟩ := buildGeneration_agree n' hg
    (hfiled.withDelta hbuilt.keys inDelta' hold.2 hold.1 hbuilt.dimension hbase)
  exact ⟨g',hg'⟩

lemma Formed.of_built {catalog : Catalog} {dense : TieredDenseIndex β}
    {inDelta tombstones : Finset Bytes} {n : ℕ} (hfiled : Filed catalog)
    (hbuilt : Built b.analysis catalog dense inDelta tombstones n b.active) : b.Formed := by
  refine ⟨hbuilt.documents ▸ hfiled,dense,inDelta,tombstones,?_⟩
  rw [hbuilt.number,hbuilt.documents]
  exact hbuilt

lemma Formed.deliver (h : b.Formed) (w : Write) : (b.deliver w).2.Formed := by
  cases w with
  | activate document revision =>
    have hcases := b.activate_activated document revision
    change (b.activate document revision).2.Formed
    generalize b.activate document revision = out at hcases
    cases hcases with
    | failed e => exact h
    | already _ => exact h
    | published hvalid hrevision hfresh next hbuilt =>
      exact Formed.of_built (h.filed.insert hvalid hrevision) hbuilt
  | erase document revision =>
    have hcases := b.erase_erased document revision
    change (b.erase document revision).2.Formed
    generalize b.erase document revision = out at hcases
    cases hcases with
    | failed e => exact h
    | already _ _ => exact h
    | published hdocument hrevision hfresh next hbuilt =>
      exact Formed.of_built (h.filed.erase document) hbuilt

lemma formed_start (analysis : Analysis) (policy : EmbeddedMaintenancePolicy) :
    (start analysis policy : EmbeddedBackend β).Formed :=
  Formed.of_built (fun k a ha => by cases ha) (buildGeneration_ok (buildGeneration_empty analysis))

lemma Opened.formed [ApproximateIndex β] {analysis : Analysis}
    {policy : EmbeddedMaintenancePolicy} (h : Opened analysis policy b) : b.Formed := by
  cases h with
  | fresh => exact formed_start analysis policy
  | restored checkpoint b h =>
    unfold restoreCheckpoint at h
    split_ifs at h with hrevisions
    · cases h
    · cases hdocuments : restoreDocuments checkpoint.revisions checkpoint.documents ∅ with
      | error e =>
        rw [hdocuments] at h
        cases h
      | ok documents =>
        obtain ⟨hfiled,-⟩ := restoreDocuments_ok (fun k a ha => by cases ha) hdocuments
        simp only [hdocuments,bind,Except.bind] at h
        cases hcompact : TieredDenseIndex.compact (β := β)
            (liveRows (checkpoint.documents.map fun entry => (entry.prepared.key,entry)))
            (NativeExactIndex.firstDimension (liveRows (checkpoint.documents.map
              fun entry => (entry.prepared.key,entry)))) policy.dense with
        | error e =>
          simp only [hcompact] at h
          cases h
        | ok dense =>
          simp only [hcompact] at h
          cases hbuild : buildGeneration analysis documents dense ∅ ∅ checkpoint.generation with
          | error e =>
            rw [hbuild] at h
            cases h
          | ok next =>
            rw [hbuild] at h
            cases h
            exact Formed.of_built hfiled (buildGeneration_ok hbuild)

/-- Two backends that differ in their dense tiers and their numbers at most. -/
structure Alike (b c : EmbeddedBackend β) : Prop where
  analysis : b.analysis = c.analysis
  documents : b.active.documents = c.active.documents
  revisions : b.latestRevisions = c.latestRevisions

lemma Alike.symm (h : b.Alike c) : c.Alike b :=
  ⟨h.analysis.symm,h.documents.symm,h.revisions.symm⟩

lemma Alike.stale (h : b.Alike c) (key : Bytes) (revision : ℕ) :
    b.stale key revision = c.stale key revision := by
  unfold EmbeddedBackend.stale
  rw [h.revisions]

lemma Alike.alreadyActive (h : b.Alike c) (document : PreparedDocument) (revision : ℕ) :
    b.alreadyActive document revision = c.alreadyActive document revision := by
  unfold EmbeddedBackend.alreadyActive
  rw [h.documents,h.revisions]

/-- The chunks of a catalog after an activation fit the base. -/
lemma Formed.room_insert (h : b.Formed) {document : PreparedDocument} {revision : ℕ}
    (haccommodates : b.active.dense.base.dimension = 0 ∨ ∀ c ∈ document.chunks,
      c.embedding ≠ [] → c.embedding.length = b.active.dense.base.dimension) :
    ∀ x ∈ liveChunks (b.active.documents.insert document.key ⟨revision,document⟩).entries,
      x.chunk.embedding ≠ [] → b.active.dense.base.dimension = 0 ∨
        x.chunk.embedding.length = b.active.dense.base.dimension := by
  intro x hx hne
  obtain ⟨-,hchunk⟩ | ⟨-,hlive⟩ := live_insert hx
  · exact haccommodates.imp_right fun hall => hall x.chunk hchunk hne
  · exact h.room x hlive hne

/-- What one backend can publish, one that is like it can. -/
lemma Alike.build_activate (h : b.Alike c) (hc : c.Formed) {document : PreparedDocument}
    {revision : ℕ} (hvalid : ValidDocument document) (hrevision : revision ≠ 0)
    (haccommodates : c.active.dense.base.dimension = 0 ∨ ∀ x ∈ document.chunks,
      x.embedding ≠ [] → x.embedding.length = c.active.dense.base.dimension)
    {dense : TieredDenseIndex β} {inDelta tombstones : Finset Bytes} {n : ℕ} {g : Generation β}
    (hg : buildGeneration b.analysis (b.active.documents.insert document.key ⟨revision,document⟩)
      dense inDelta tombstones n = .ok g) :
    ∃ g', buildGeneration c.analysis
      (c.active.documents.insert document.key ⟨revision,document⟩) c.active.dense
      (insert document.key c.active.deltaDocuments)
      (c.tombstonesAfter document.key (document.chunks.map PreparedChunk.key))
      (c.active.number+1) = .ok g' := by
  rw [h.analysis,h.documents] at hg
  exact Formed.build (hc.filed.insert hvalid hrevision) hg (hc.room_insert haccommodates)
    (tombstonesAfter_subset hc.tombstones _ _) _ _

lemma Alike.build_erase (h : b.Alike c) (hc : c.Formed) (document : Bytes)
    {dense : TieredDenseIndex β} {inDelta tombstones : Finset Bytes} {n : ℕ} {g : Generation β}
    (hg : buildGeneration b.analysis (b.active.documents.erase document) dense inDelta tombstones
      n = .ok g) :
    ∃ g', buildGeneration c.analysis (c.active.documents.erase document) c.active.dense
      (c.active.deltaDocuments.erase document) (c.tombstonesAfter document [])
      (c.active.number+1) = .ok g' := by
  rw [h.analysis,h.documents] at hg
  exact Formed.build (hc.filed.erase document) hg
    (fun x hx hne => hc.room x (live_erase hx).2 hne) (tombstonesAfter_subset hc.tombstones _ _) _ _

/-- Both publish the same documents at the same revision. -/
lemma Alike.published (h : b.Alike c) (key : Bytes) (revision : ℕ) {g g' : Generation β}
    (hdocuments : g.documents = g'.documents) :
    Alike { b with latestRevisions := b.latestRevisions.insert key revision, active := g }
      { c with latestRevisions := c.latestRevisions.insert key revision, active := g' } :=
  ⟨h.analysis,hdocuments,by rw [h.revisions]⟩

lemma Alike.activate (h : b.Alike c) (hb : b.Formed) (hc : c.Formed) {document : PreparedDocument}
    {revision : ℕ} (haccb : b.Accommodates (.activate document revision))
    (haccc : c.Accommodates (.activate document revision)) :
    (b.activate document revision).2.Alike (c.activate document revision).2 := by
  unfold EmbeddedBackend.activate
  cases hvalid : validate document revision with
  | error e => exact h
  | ok u =>
    obtain ⟨hdocument,hrevision⟩ := validate_eq_ok.mp hvalid
    dsimp only
    rw [h.stale,h.alreadyActive]
    by_cases hstale : c.stale document.key revision = true
    · by_cases halready : c.alreadyActive document revision = true
      · simpa only [hstale,halready,if_true] using h
      · simpa only [hstale,halready,if_true,Bool.false_eq_true,if_false] using h
    · have hfresh := Bool.eq_false_of_not_eq_true hstale
      simp only [hfresh,Bool.false_eq_true,if_false]
      cases hg : buildGeneration b.analysis
        (b.active.documents.insert document.key ⟨revision,document⟩) b.active.dense
        (insert document.key b.active.deltaDocuments)
        (b.tombstonesAfter document.key (document.chunks.map PreparedChunk.key))
        (b.active.number+1) with
      | error e =>
        cases hg' : buildGeneration c.analysis
          (c.active.documents.insert document.key ⟨revision,document⟩) c.active.dense
          (insert document.key c.active.deltaDocuments)
          (c.tombstonesAfter document.key (document.chunks.map PreparedChunk.key))
          (c.active.number+1) with
        | error e' => exact h
        | ok g' =>
          obtain ⟨g,hbuild⟩ := h.symm.build_activate hb hdocument hrevision
            (haccb (h.stale _ _ ▸ hfresh)) hg'
          rw [hg] at hbuild
          cases hbuild
      | ok g =>
        obtain ⟨g',hg'⟩ := h.build_activate hc hdocument hrevision (haccc hfresh) hg
        rw [hg']
        apply h.published
        rw [(buildGeneration_ok hg).documents,(buildGeneration_ok hg').documents,h.documents]

lemma Alike.erase (h : b.Alike c) (hb : b.Formed) (hc : c.Formed) (document : Bytes)
    (revision : ℕ) : (b.erase document revision).2.Alike (c.erase document revision).2 := by
  unfold EmbeddedBackend.erase
  by_cases hargs : document = [] ∨ revision = 0
  · simpa only [if_pos hargs] using h
  · simp only [if_neg hargs]
    rw [h.stale,h.documents,h.revisions]
    by_cases hstale : c.stale document revision = true
    · simp only [hstale,if_true]
      by_cases halready : c.latestRevisions.find? document = some revision ∧
          c.active.documents.find? document = none
      · simpa only [if_pos halready] using h
      · simpa only [if_neg halready] using h
    · simp only [hstale,Bool.false_eq_true,if_false]
      cases hg : buildGeneration b.analysis (c.active.documents.erase document) b.active.dense
        (b.active.deltaDocuments.erase document) (b.tombstonesAfter document [])
        (b.active.number+1) with
      | error e =>
        cases hg' : buildGeneration c.analysis (c.active.documents.erase document) c.active.dense
          (c.active.deltaDocuments.erase document) (c.tombstonesAfter document [])
          (c.active.number+1) with
        | error e' => exact h
        | ok g' =>
          obtain ⟨g,hbuild⟩ := h.symm.build_erase hb document hg'
          rw [h.documents,hg] at hbuild
          cases hbuild
      | ok g =>
        obtain ⟨g',hg'⟩ := h.build_erase hc document (h.documents ▸ hg)
        rw [hg']
        have := h.published document revision
          ((buildGeneration_ok hg).documents.trans (buildGeneration_ok hg').documents.symm)
        rwa [h.revisions] at this

/-- A write leaves the active generation or publishes the next one. -/
lemma deliver_active (b : EmbeddedBackend β) (w : Write) :
    (b.deliver w).2.analysis = b.analysis ∧ ((b.deliver w).2.active = b.active ∨
      (b.deliver w).2.active.number = b.active.number+1) := by
  cases w with
  | activate document revision =>
    have hcases := b.activate_activated document revision
    simp only [EmbeddedBackend.deliver]
    generalize b.activate document revision = out at hcases
    cases hcases with
    | failed e => exact ⟨rfl,Or.inl rfl⟩
    | already _ => exact ⟨rfl,Or.inl rfl⟩
    | published _ _ _ next hbuilt => exact ⟨rfl,Or.inr hbuilt.number⟩
  | erase document revision =>
    have hcases := b.erase_erased document revision
    simp only [EmbeddedBackend.deliver]
    generalize b.erase document revision = out at hcases
    cases hcases with
    | failed e => exact ⟨rfl,Or.inl rfl⟩
    | already _ _ => exact ⟨rfl,Or.inl rfl⟩
    | published _ _ _ next hbuilt => exact ⟨rfl,Or.inr hbuilt.number⟩

end EmbeddedBackend

section
variable {β : Type} {g g' : Generation β}

lemma fetch_congr (hchunks : g.chunks = g'.chunks) (hdocuments : g.documents = g'.documents)
    (options : FetchOptions) (keys : List Bytes) :
    g.fetch options keys = g'.fetch options keys := by
  have hone : ∀ key stored, g.fetchOne options key stored = g'.fetchOne options key stored := by
    intro key stored
    unfold Generation.fetchOne
    rw [hdocuments]
  induction keys with
  | nil => rfl
  | cons key keys ih =>
    simp only [Generation.fetch,hchunks,ih,hone]

lemma lexicalCandidates_congr (hchunks : g.chunks = g'.chunks)
    (hkeys : g.ordinalKeys = g'.ordinalKeys) (hlexical : g.lexical = g'.lexical)
    (request : LexicalRequest) : g.lexicalCandidates request = g'.lexicalCandidates request := by
  have hcollect : ∀ room hits,
      g.collectHits request.filter room hits = g'.collectHits request.filter room hits := by
    intro room hits
    induction hits generalizing room with
    | nil => rfl
    | cons hit hits ih =>
      simp only [Generation.collectHits,hchunks,hkeys,ih]
  unfold Generation.lexicalCandidates
  rw [hkeys,hlexical,hcollect]

/-- Generations of one catalog differ in their dense tiers only. -/
lemma Built.same {analysis : Analysis} {catalog : Catalog} {dense dense' : TieredDenseIndex β}
    {inDelta inDelta' tombstones tombstones' : Finset Bytes} {n n' : ℕ}
    (h : Built analysis catalog dense inDelta tombstones n g)
    (h' : Built analysis catalog dense' inDelta' tombstones' n' g') :
    g.chunks = g'.chunks ∧ g.ordinalKeys = g'.ordinalKeys ∧ g.lexical = g'.lexical := by
  refine ⟨?_,h.ordinalKeys.trans h'.ordinalKeys.symm,h.lexical.trans h'.lexical.symm⟩
  ext k stored
  rw [h.chunks,h'.chunks]

end

namespace Maintained
open EmbeddedBackend Preparation

variable {β : Type}

/-- What is known of a compaction while `active` is the active generation. -/
def Holds (analysis : Analysis) (active : Generation β) : Compaction β → Prop
  | .taken source _ => source.number < active.number ∨ source = active
  | .rebuilt source next => (source.number < active.number ∨ source = active) ∧
      ∃ dense, Built analysis source.documents dense ∅ ∅ (source.number+1) next
  | .finished _ => True

structure Running (s : Maintained β) : Prop where
  formed : s.backend.Formed
  compactions : ∀ thread c, s.compactions thread = some c →
    Holds s.backend.analysis s.backend.active c

lemma Holds.advance {analysis : Analysis} {active next : Generation β} {c : Compaction β}
    (h : Holds analysis active c) (hnext : next = active ∨ next.number = active.number+1) :
    Holds analysis next c := by
  have hsource : ∀ source : Generation β, source.number < active.number ∨ source = active →
      source.number < next.number ∨ source = next := by
    intro source hsource
    obtain rfl | hnumber := hnext
    · exact hsource
    · left
      obtain hlt | rfl := hsource <;> omega
  cases c with
  | taken source o => exact hsource source h
  | rebuilt source built => exact ⟨hsource source h.1,h.2⟩
  | finished result => trivial

lemma Running.withCompaction {s : Maintained β} (h : s.Running) (thread : ℕ) {c : Compaction β}
    (hc : Holds s.backend.analysis s.backend.active c) : (s.withCompaction thread c).Running := by
  refine ⟨h.formed,fun k d hd => ?_⟩
  by_cases hk : k = thread
  · subst hk
    simp only [Maintained.withCompaction,Function.update_self] at hd
    cases hd
    exact hc
  · simp only [Maintained.withCompaction,Function.update_of_ne hk] at hd
    exact h.compactions k d hd

/-- What the steps of a compaction do: leave the backend alone, or publish what was built from the
generation that is still active. -/
inductive Compacted (s : Maintained β) : Step → Maintained β → Prop
  | kept (e : Step) (thread : ℕ) (c : Compaction β)
    (hc : Holds s.backend.analysis s.backend.active c) :
    Compacted s e (s.withCompaction thread c)
  | published (thread : ℕ) (next : Generation β)
    (hrebuilt : s.compactions thread = some (.rebuilt s.backend.active next))
    (hbuilt : ∃ dense, Built s.backend.analysis s.backend.active.documents dense ∅ ∅
      (s.backend.active.number+1) next) :
    Compacted s (.publish thread)
      ({ s with backend.active := next }.withCompaction thread (.finished (.ok ())))

lemma Running.compacted [ApproximateIndex β] {s s' : Maintained β} (h : s.Running) {e : Step}
    (he : e.isWrite = false) (hstep : step s e = some s') : Compacted s e s' := by
  cases e with
  | write w => cases he
  | take thread o =>
    have htaken : Holds s.backend.analysis s.backend.active (.taken s.backend.active o) :=
      Or.inr rfl
    unfold step at hstep
    dsimp only at hstep
    split at hstep
    · cases hstep
      exact .kept _ thread _ htaken
    · cases hstep
      exact .kept _ thread _ htaken
    · cases hstep
  | rebuild thread =>
    unfold step at hstep
    dsimp only at hstep
    split at hstep
    · rename_i source o hc
      have hsource := h.compactions thread _ hc
      cases hbuild : rebuildGeneration s.backend.analysis s.backend.policy source o with
      | error e =>
        rw [hbuild] at hstep
        cases hstep
        exact .kept _ thread _ trivial
      | ok next =>
        rw [hbuild] at hstep
        cases hstep
        refine .kept _ thread _ ⟨hsource,?_⟩
        unfold rebuildGeneration at hbuild
        split_ifs at hbuild
        · cases hbuild
        · cases hcompact : TieredDenseIndex.compact (β := β) (liveRows source.documents.entries)
            source.dimension s.backend.policy.dense with
          | error e =>
            rw [hcompact] at hbuild
            cases hbuild
          | ok dense =>
            rw [hcompact] at hbuild
            exact ⟨dense,buildGeneration_ok hbuild⟩
    · cases hstep
  | publish thread =>
    unfold step at hstep
    dsimp only at hstep
    split at hstep
    · rename_i source next hc
      obtain ⟨hsource,hbuilt⟩ := h.compactions thread _ hc
      cases hstep
      unfold publish
      split_ifs with hnumber
      · exact .kept _ thread _ trivial
      · obtain rfl : source = s.backend.active := by
          obtain hlt | rfl := hsource
          · omega
          · rfl
        exact .published thread next hc hbuilt
    · cases hstep

lemma Running.step [ApproximateIndex β] {s s' : Maintained β} (h : s.Running) {e : Step}
    (hstep : step s e = some s') : s'.Running := by
  cases hw : e.isWrite with
  | true =>
    cases e with
    | write w =>
      cases hstep
      obtain ⟨hanalysis,hactive⟩ := s.backend.deliver_active w
      refine ⟨h.formed.deliver w,fun thread c hc => ?_⟩
      rw [hanalysis]
      exact (h.compactions thread c hc).advance hactive
    | _ => cases hw
  | false =>
    cases h.compacted hw hstep with
    | kept e thread c hc => exact h.withCompaction thread hc
    | published thread next hrebuilt hbuilt =>
      obtain ⟨dense,hbuilt⟩ := hbuilt
      refine Running.withCompaction (s := { s with backend.active := next }) ⟨?_,?_⟩ thread trivial
      · exact EmbeddedBackend.Formed.of_built h.formed.filed hbuilt
      · intro k c hc
        exact (h.compactions k c hc).advance (Or.inr hbuilt.number)

end Maintained
end RagRuntime.Backend
