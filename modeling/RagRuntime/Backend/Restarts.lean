import RagRuntime.Backend.RoundTrip
import RagRuntime.Backend.TierLayout

/-! Restarts and compactions between the writes of a client that embeds everything with one
dimension: neither a reply nor what is read afterwards tells that there were any. -/
namespace RagRuntime.Backend
open RagRuntime.Base RagRuntime.Core RagRuntime.Store RagRuntime.Text RagRuntime.Lexical
  RagRuntime.Dense RagRuntime.Preparation

namespace EmbeddedBackend

variable {β : Type} {d : ℕ}

def Op.isWrite : Op → Bool
  | .activate _ _ => true
  | .erase _ _ => true
  | _ => false

/-- What the client is told. -/
def reply (b : EmbeddedBackend β) : Op → Option (Result Bool)
  | .activate document revision => some ((b.activate document revision).1.map fun _ => true)
  | .erase document revision => some (b.erase document revision).1
  | _ => none

/-- The replies of a run, in their order. -/
def replies [ApproximateIndex β] : EmbeddedBackend β → List Op → List (Result Bool)
  | _,[] => []
  | b,op::ops =>
    (b.reply op).toList ++ ((b.step op).map fun t => replies t ops).getD []

/-- What an activation brings has vectors of one dimension. -/
def Op.Spans (d : ℕ) : Op → Prop
  | .activate document _ => ∀ c ∈ document.chunks, c.embedding ≠ [] → c.embedding.length = d
  | _ => True

section dimension

/-- The active vectors, the generation and its base have one dimension, or none. -/
structure Spans (d : ℕ) (b : EmbeddedBackend β) : Prop where
  chunks : ∀ x ∈ liveChunks b.active.documents.entries,
    x.chunk.embedding ≠ [] → x.chunk.embedding.length = d
  dimension : b.active.dimension = 0 ∨ b.active.dimension = d
  base : b.active.dense.base.dimension = 0 ∨ b.active.dense.base.dimension = d

lemma Spans.of_build {b : EmbeddedBackend β} {analysis : Analysis} {catalog : Catalog}
    {dense : TieredDenseIndex β} {inDelta tombstones : Finset Bytes} {n : ℕ}
    (hbuild : buildGeneration analysis catalog dense inDelta tombstones n = .ok b.active)
    (hchunks : ∀ x ∈ liveChunks catalog.entries,
      x.chunk.embedding ≠ [] → x.chunk.embedding.length = d)
    (hbase : dense.base.dimension = 0 ∨ dense.base.dimension = d) : b.Spans d := by
  have hbuilt := buildGeneration_ok hbuild
  obtain ⟨-,-,-,-,hdense⟩ := TieredDenseIndex.withDelta_eq_ok.mp hbuilt.dense
  refine ⟨hbuilt.documents ▸ hchunks,?_,?_⟩
  · by_cases hnone : ∀ x ∈ liveChunks catalog.entries, x.chunk.embedding = []
    · exact Or.inl (buildGeneration_zero hbuild hnone)
    · push Not at hnone
      obtain ⟨x,hx,hne⟩ := hnone
      exact Or.inr ((hbuilt.dimension x hx hne).symm.trans (hchunks x hx hne))
  · rw [hdense]
    exact hbase

lemma spans_start (d : ℕ) (analysis : Analysis) (policy : EmbeddedMaintenancePolicy) :
    (start analysis policy : EmbeddedBackend β).Spans d :=
  ⟨fun _ hx => absurd hx List.not_mem_nil,Or.inl rfl,Or.inl rfl⟩

/-- The dimension of rows of one dimension. -/
lemma firstDimension_spans {entries : List (Bytes × ActiveDocument)}
    (h : ∀ x ∈ liveChunks entries, x.chunk.embedding ≠ [] → x.chunk.embedding.length = d) :
    NativeExactIndex.firstDimension (liveRows entries) = 0 ∨
      NativeExactIndex.firstDimension (liveRows entries) = d := by
  by_cases hrows : liveRows entries = []
  · rw [hrows]
    exact Or.inl rfl
  · refine Or.inr (firstDimension_eq hrows ?_)
    intro row hrow
    obtain ⟨x,hx,rfl⟩ := List.mem_map.mp hrow
    obtain ⟨hx,hne⟩ := List.mem_filter.mp hx
    exact h x hx (of_decide_eq_true hne)

/-- What an erasure builds. -/
lemma erase_build (b : EmbeddedBackend β) (document : Bytes) (revision : ℕ) :
    (b.erase document revision).2 = b ∨ ∃ inDelta tombstones next,
      buildGeneration b.analysis (b.active.documents.erase document) b.active.dense inDelta
        tombstones (b.active.number+1) = .ok next ∧
      (b.erase document revision).2.active = next := by
  unfold EmbeddedBackend.erase
  split_ifs
  · exact Or.inl rfl
  · exact Or.inl rfl
  · exact Or.inl rfl
  · cases hbuild : buildGeneration b.analysis (b.active.documents.erase document) b.active.dense
      (b.active.deltaDocuments.erase document) (b.tombstonesAfter document [])
      (b.active.number+1) with
    | error e => exact Or.inl rfl
    | ok next => exact Or.inr ⟨_,_,next,hbuild,rfl⟩

lemma Spans.accommodates {b : EmbeddedBackend β} (h : b.Spans d) {document : PreparedDocument}
    {revision : ℕ} (hop : (Op.activate document revision).Spans d) :
    b.Accommodates (.activate document revision) := by
  intro _
  obtain hzero | hbase := h.base
  · exact Or.inl hzero
  · exact Or.inr fun c hc hne => (hop c hc hne).trans hbase.symm

lemma policy_activate (b : EmbeddedBackend β) (document : PreparedDocument) (revision : ℕ) :
    (b.activate document revision).2.policy = b.policy := by
  obtain hsame | ⟨-,-,_,_,_,-,hsame⟩ := b.activate_snd document revision <;> rw [hsame]

lemma policy_erase (b : EmbeddedBackend β) (document : Bytes) (revision : ℕ) :
    (b.erase document revision).2.policy = b.policy := by
  obtain hsame | ⟨_,_,_,_,-,hsame⟩ := b.erase_snd document revision <;> rw [hsame]

variable [ApproximateIndex β] {b t : EmbeddedBackend β}

lemma Spans.step (h : b.Spans d) (hfiled : Filed b.active.documents) {op : Op} (hop : op.Spans d)
    (hstep : b.step op = some t) : t.Spans d := by
  cases op with
  | activate document revision =>
    cases hstep
    obtain hsame | ⟨-,-,inDelta,tombstones,next,hbuild,hnext⟩ := b.activate_snd document revision
    · rw [hsame]
      exact h
    · rw [hnext]
      refine Spans.of_build hbuild ?_ h.base
      intro x hx hne
      obtain ⟨-,hchunk⟩ | ⟨-,hlive⟩ := live_insert hx
      · exact hop x.chunk hchunk hne
      · exact h.chunks x hlive hne
  | erase document revision =>
    cases hstep
    obtain hsame | ⟨inDelta,tombstones,next,hbuild,hnext⟩ := b.erase_build document revision
    · rw [hsame]
      exact h
    · rw [← hnext] at hbuild
      exact Spans.of_build hbuild (fun x hx hne => h.chunks x (live_erase hx).2 hne) h.base
  | compact overrideMemoryBudget =>
    cases hstep
    obtain hsame | ⟨dense,next,hdense,hbuild,hnext⟩ := b.compact_snd overrideMemoryBudget
    · rw [hsame]
      exact h
    · rw [hnext]
      refine Spans.of_build hbuild h.chunks ?_
      rw [(compact_base hdense).2.2]
      exact h.dimension
  | restart walPosition =>
    have hrestore := restored_of_step hstep
    obtain ⟨-,documents,dense,next,hdocuments,hdense,hbuild,rfl⟩ :=
      restoreCheckpoint_eq_ok hrestore
    obtain ⟨-,rfl⟩ := restoreDocuments_values hfiled hdocuments
    refine Spans.of_build hbuild h.chunks ?_
    rw [(compact_base hdense).2.2]
    dsimp only [snapshot]
    rw [hfiled.values_map]
    exact firstDimension_spans h.chunks

end dimension

section unseen

variable [ApproximateIndex β] {b c t : EmbeddedBackend β}

/-- Two backends that a client cannot tell apart. -/
structure Indistinct (d : ℕ) (b c : EmbeddedBackend β) : Prop where
  alike : b.Alike c
  policy : b.policy = c.policy
  formed : b.Formed ∧ c.Formed
  spans : b.Spans d ∧ c.Spans d

/-- A step that is no write is not seen. -/
lemma Indistinct.upkeep (h : Indistinct d b c) {op : Op} (hop : op.Spans d)
    (hquiet : op.isWrite = false) (hstep : b.step op = some t) : Indistinct d t c := by
  have hspans := h.spans.1.step h.formed.1.filed hop hstep
  cases op with
  | compact overrideMemoryBudget =>
    cases hstep
    have halike := b.compact_alike overrideMemoryBudget
    obtain hsame | ⟨dense,next,-,hbuild,hnext⟩ := b.compact_snd overrideMemoryBudget
    · rw [hsame] at hspans ⊢
      exact h
    · rw [hnext] at hspans halike ⊢
      exact ⟨⟨h.alike.analysis,halike.documents.trans h.alike.documents,h.alike.revisions⟩,
        h.policy,⟨Formed.of_built h.formed.1.filed (buildGeneration_ok hbuild),h.formed.2⟩,
        ⟨hspans,h.spans.2⟩⟩
  | restart walPosition =>
    have hrestore := restored_of_step hstep
    obtain ⟨hdocuments,hrevisions,hpolicy⟩ := restore_snapshot h.formed.1.filed hrestore
    have hopened := Opened.restored _ _ hrestore
    have hanalysis : t.analysis = b.analysis := by
      obtain ⟨-,_,_,_,-,-,-,rfl⟩ := restoreCheckpoint_eq_ok hrestore
      rfl
    exact ⟨⟨hanalysis.trans h.alike.analysis,hdocuments.trans h.alike.documents,
      hrevisions.trans h.alike.revisions⟩,hpolicy.trans h.policy,⟨hopened.formed,h.formed.2⟩,
      ⟨hspans,h.spans.2⟩⟩
  | activate document revision => cases hquiet
  | erase document revision => cases hquiet

/-- Both reply alike to a write, and are indistinct after it. -/
lemma Indistinct.write (h : Indistinct d b c) {op : Op} (hop : op.Spans d)
    (hwrite : op.isWrite = true) (hstep : b.step op = some t) :
    b.reply op = c.reply op ∧ ∃ u, c.step op = some u ∧ Indistinct d t u := by
  have hspans := h.spans.1.step h.formed.1.filed hop hstep
  cases op with
  | activate document revision =>
    cases hstep
    have hroom := h.spans.1.accommodates hop
    have hroom' := h.spans.2.accommodates hop
    obtain ⟨hreply,-⟩ := (h.alike.activate_iff h.policy h.formed.1 h.formed.2 document
      revision).mpr (iff_of_false (fun hrefused => hrefused.2 hroom)
        fun hrefused => hrefused.2 hroom')
    refine ⟨congrArg (fun r : Result Unit => some (r.map fun _ => true)) hreply,_,rfl,
      h.alike.activate h.formed.1 h.formed.2 hroom hroom',?_,
      ⟨h.formed.1.deliver (.activate document revision),
        h.formed.2.deliver (.activate document revision)⟩,
      ⟨hspans,h.spans.2.step h.formed.2.filed hop rfl⟩⟩
    exact (b.policy_activate document revision).trans
      (h.policy.trans (c.policy_activate document revision).symm)
  | erase document revision =>
    cases hstep
    obtain ⟨hreply,-⟩ := h.alike.erase_same h.policy h.formed.1 h.formed.2 document revision
    refine ⟨congrArg some hreply,_,rfl,h.alike.erase h.formed.1 h.formed.2 document revision,?_,
      ⟨h.formed.1.deliver (.erase document revision),
        h.formed.2.deliver (.erase document revision)⟩,
      ⟨hspans,h.spans.2.step h.formed.2.filed hop rfl⟩⟩
    exact (b.policy_erase document revision).trans
      (h.policy.trans (c.policy_erase document revision).symm)
  | compact overrideMemoryBudget => cases hwrite
  | restart walPosition => cases hwrite

lemma Indistinct.run (h : Indistinct d b c) {ops : List Op} (hops : ∀ op ∈ ops, op.Spans d)
    (hrun : Machine.run step b ops = some t) :
    ∃ u, Machine.run step c (ops.filter Op.isWrite) = some u ∧ Indistinct d t u ∧
      c.replies (ops.filter Op.isWrite) = b.replies ops := by
  induction ops generalizing b c with
  | nil =>
    cases hrun
    exact ⟨c,rfl,h,rfl⟩
  | cons op ops ih =>
    obtain ⟨s,hstep,hrun⟩ := Machine.run_cons_eq_some.mp hrun
    have hop := hops op List.mem_cons_self
    have hops := fun o ho => hops o (List.mem_cons_of_mem op ho)
    cases hwrite : op.isWrite with
    | false =>
      rw [List.filter_cons_of_neg (by simp [hwrite])]
      obtain ⟨u,hu,hindistinct,hreplies⟩ := ih (h.upkeep hop hwrite hstep) hops hrun
      refine ⟨u,hu,hindistinct,?_⟩
      have hsilent : b.reply op = none := by
        cases op with
        | compact _ => rfl
        | restart _ => rfl
        | activate _ _ => cases hwrite
        | erase _ _ => cases hwrite
      rw [replies,hsilent,hstep,hreplies]
      rfl
    | true =>
      rw [List.filter_cons_of_pos hwrite]
      obtain ⟨hreply,v,hv,hnext⟩ := h.write hop hwrite hstep
      obtain ⟨u,hu,hindistinct,hreplies⟩ := ih hnext hops hrun
      refine ⟨u,Machine.run_cons_eq_some.mpr ⟨v,hv,hu⟩,hindistinct,?_⟩
      rw [replies,replies,hreply,hstep,hv,Option.map_some,Option.map_some,hreplies]

/-- With vectors of one dimension, the replies of a run with compactions and restarts are those of
its writes alone, and so are the documents, the revisions, the fetches and the lexical candidates
at its end. -/
theorem restarts_unseen {analysis : Analysis} {policy : EmbeddedMaintenancePolicy} {ops : List Op}
    (hops : ∀ op ∈ ops, op.Spans d)
    (hrun : Machine.run step (start analysis policy : EmbeddedBackend β) ops = some b) :
    ∃ c : EmbeddedBackend β,
      Machine.run step (start analysis policy) (ops.filter Op.isWrite) = some c ∧
      (start analysis policy : EmbeddedBackend β).replies (ops.filter Op.isWrite) =
        (start analysis policy : EmbeddedBackend β).replies ops ∧
      b.active.documents = c.active.documents ∧ b.latestRevisions = c.latestRevisions ∧
      (∀ options keys, b.active.fetch options keys = c.active.fetch options keys) ∧
      ∀ request, b.active.lexicalCandidates request = c.active.lexicalCandidates request := by
  have hformed := formed_start (β := β) analysis policy
  have hspans := spans_start (β := β) d analysis policy
  obtain ⟨c,hc,h,hreplies⟩ := Indistinct.run
    ⟨⟨rfl,rfl,rfl⟩,rfl,⟨hformed,hformed⟩,⟨hspans,hspans⟩⟩ hops hrun
  obtain ⟨_,_,_,hb⟩ := h.formed.1.built
  obtain ⟨_,_,_,hbuilt⟩ := h.formed.2.built
  rw [← h.alike.analysis,← h.alike.documents] at hbuilt
  obtain ⟨hchunks,hkeys,hlexical⟩ := hb.same hbuilt
  exact ⟨c,hc,hreplies,h.alike.documents,h.alike.revisions,
    fetch_congr hchunks h.alike.documents,lexicalCandidates_congr hchunks hkeys hlexical⟩

end unseen

section written

/-- Restarts and a compaction between the writes of one document. -/
def restartedBetween : List Op :=
  [.activate (headed 'A' [1,0]) 1,.compact true,.restart 0,.activate (headed 'B' [0,1]) 2,
    .restart 0,.erase (ascii ['d']) 2,.erase (ascii ['d']) 3]

lemma spans_restartedBetween : ∀ op ∈ restartedBetween, op.Spans 2 := by
  intro op hop
  simp only [restartedBetween,List.mem_cons,List.not_mem_nil,or_false] at hop
  rcases hop with rfl | rfl | rfl | rfl | rfl | rfl | rfl
  · change ∀ c ∈ (headed 'A' [1,0]).chunks, c.embedding ≠ [] → c.embedding.length = 2
    decide +kernel
  · trivial
  · trivial
  · change ∀ c ∈ (headed 'B' [0,1]).chunks, c.embedding ≠ [] → c.embedding.length = 2
    decide +kernel
  · trivial
  · trivial
  · trivial

theorem restartedBetween_unseen : ∃ b c : EmbeddedBackend Unit,
    Machine.run step (start noTerms exactPolicy) restartedBetween = some b ∧
      Machine.run step (start noTerms exactPolicy) (restartedBetween.filter Op.isWrite) = some c ∧
      (start noTerms exactPolicy : EmbeddedBackend Unit).replies
          (restartedBetween.filter Op.isWrite) =
        (start noTerms exactPolicy : EmbeddedBackend Unit).replies restartedBetween ∧
      b.active.documents = c.active.documents := by
  have hrun : (Machine.run step (start noTerms exactPolicy : EmbeddedBackend Unit)
      restartedBetween).isSome = true := by
    decide +kernel
  obtain ⟨b,hb⟩ := Option.isSome_iff_exists.mp hrun
  obtain ⟨c,hc,hreplies,hdocuments,-⟩ := restarts_unseen spans_restartedBetween hb
  exact ⟨b,c,hb,hc,hreplies,hdocuments⟩

end written

end EmbeddedBackend
end RagRuntime.Backend
