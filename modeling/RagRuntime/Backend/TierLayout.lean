import RagRuntime.Backend.Reopened

/-! Two histories of the embedded backend that end with the same documents and revisions: which
writes tell their dense tiers apart. -/
namespace RagRuntime.Backend
open RagRuntime.Base RagRuntime.Core RagRuntime.Dense RagRuntime.Lexical

variable {β : Type}

/-- Nothing is in the delta of a generation without delta documents. -/
lemma deltaRows_empty (documents : Catalog) (dense : TieredDenseIndex β) :
    deltaRows documents dense ∅ = [] := by
  simp [deltaRows,Assembly.deltaRows]

lemma withDelta_empty (dimension : ℕ) :
    (TieredDenseIndex.empty : TieredDenseIndex β).withDelta [] ∅ dimension =
      .ok ⟨TieredDenseIndex.empty.base,NativeExactIndex.empty,∅,∅,dimension⟩ := by
  rfl

/-- The documents are assembled without the tiers, which only have the last word. -/
theorem buildGeneration_tiers (analysis : Analysis) (documents : Catalog)
    (dense : TieredDenseIndex β) (inDelta tombstones : Finset Bytes) (number : ℕ) :
    buildGeneration analysis documents dense inDelta tombstones number =
      (buildGeneration analysis documents TieredDenseIndex.empty ∅ ∅ 0).bind
        fun g : Generation β =>
          (dense.withDelta (deltaRows documents dense inDelta) tombstones g.dimension).map fun d =>
            { g with dense := d, deltaDocuments := inDelta, number := number } := by
  have hfolds := foldlM_map_congr (assembleDocument_withoutDelta inDelta ∅
    dense.containsBase (TieredDenseIndex.empty : TieredDenseIndex β).containsBase) documents.entries
    (rfl : (Assembly.start analysis).withoutDelta = (Assembly.start analysis).withoutDelta)
  unfold buildGeneration
  cases hfold : documents.entries.foldlM
      (Assembly.assembleDocument inDelta dense.containsBase) (Assembly.start analysis) with
  | error e =>
    cases hfold' : documents.entries.foldlM (Assembly.assembleDocument ∅
        (TieredDenseIndex.empty : TieredDenseIndex β).containsBase) (Assembly.start analysis) with
    | error e' =>
      rw [hfold,hfold'] at hfolds
      cases hfolds
      rfl
    | ok a' =>
      rw [hfold,hfold'] at hfolds
      cases hfolds
  | ok a =>
    cases hfold' : documents.entries.foldlM (Assembly.assembleDocument ∅
        (TieredDenseIndex.empty : TieredDenseIndex β).containsBase) (Assembly.start analysis) with
    | error e' =>
      rw [hfold,hfold'] at hfolds
      cases hfolds
    | ok a' =>
      have ha := (Assembly.holds_start analysis inDelta dense.containsBase).assembleDocuments hfold
      have ha' := (Assembly.holds_start analysis ∅
        (TieredDenseIndex.empty : TieredDenseIndex β).containsBase).assembleDocuments hfold'
      rw [List.nil_append] at ha ha'
      rw [hfold,hfold'] at hfolds
      have hsame : a.withoutDelta = a'.withoutDelta := Except.ok.inj hfolds
      have hrows : a.deltaVectors = deltaRows documents dense inDelta := ha.deltaVectors
      have hrows' : a'.deltaVectors = [] :=
        ha'.deltaVectors.trans (deltaRows_empty documents TieredDenseIndex.empty)
      have ha'' : a' = { a with deltaVectors := [] } := by
        have := congrArg (fun c : Assembly => { c with deltaVectors := [] }) hsame
        rw [show a' = { a' with deltaVectors := [] } by rw [← hrows']]
        exact this.symm
      subst ha''
      simp only [bind,Except.bind]
      split_ifs with hmixed
      · rfl
      · rw [withDelta_empty,hrows]
        dsimp only [pure,Except.pure]
        cases dense.withDelta (deltaRows documents dense inDelta) tombstones a.dimension with
        | error e => rfl
        | ok d => rfl

namespace EmbeddedBackend

/-- The documents and revisions of a backend in one that has no dense tiers yet. -/
def withoutTiers (b : EmbeddedBackend β) : EmbeddedBackend β :=
  ⟨b.analysis,b.policy,b.latestRevisions,
    { Generation.empty b.analysis with documents := b.active.documents },0⟩

/-- An activation that nothing but the dense base stands in the way of. -/
def RefusedByBase (b : EmbeddedBackend β) (document : PreparedDocument) (revision : ℕ) : Prop :=
  (b.withoutTiers.activate document revision).1 = .ok () ∧
    ¬b.Accommodates (.activate document revision)

instance (b : EmbeddedBackend β) (document : PreparedDocument) (revision : ℕ) :
    Decidable (b.RefusedByBase document revision) := inferInstanceAs (Decidable (_ ∧ _))

/-- Two calls with one result that leave the same documents and revisions. -/
def SameOutcome {α : Type} (x y : Result α × EmbeddedBackend β) : Prop :=
  x.1 = y.1 ∧ x.2.active.documents = y.2.active.documents ∧
    x.2.latestRevisions = y.2.latestRevisions

variable {b c : EmbeddedBackend β} {document : PreparedDocument} {revision : ℕ}

lemma activate_fst (hvalid : ValidDocument document) (hrevision : revision ≠ 0)
    (hfresh : b.stale document.key revision = false) : (b.activate document revision).1 =
      (buildGeneration b.analysis (b.active.documents.insert document.key ⟨revision,document⟩)
        b.active.dense (insert document.key b.active.deltaDocuments)
        (b.tombstonesAfter document.key (document.chunks.map PreparedChunk.key))
        (b.active.number+1)).map fun _ => () := by
  unfold EmbeddedBackend.activate
  rw [validate_eq_ok.mpr ⟨hvalid,hrevision⟩]
  dsimp only
  rw [if_neg (by simp [hfresh])]
  cases buildGeneration b.analysis (b.active.documents.insert document.key ⟨revision,document⟩)
      b.active.dense (insert document.key b.active.deltaDocuments)
      (b.tombstonesAfter document.key (document.chunks.map PreparedChunk.key))
      (b.active.number+1) with
  | error e => rfl
  | ok next => rfl

lemma activate_snd_of_error {e : Error} (h : (b.activate document revision).1 = .error e) :
    (b.activate document revision).2 = b := by
  have hcases := b.activate_activated document revision
  generalize b.activate document revision = out at hcases h
  cases hcases with
  | failed e => rfl
  | already _ => cases h
  | published _ _ _ next hbuilt => cases h

/-- Generations of one catalog can be built or not, whatever the tiers, as long as these take the
delta. -/
lemma buildGeneration_map {catalog : Catalog} {dense : TieredDenseIndex β}
    {inDelta tombstones : Finset Bytes} {n : ℕ} {analysis : Analysis}
    (hdense : ∀ g : Generation β,
      buildGeneration analysis catalog TieredDenseIndex.empty ∅ ∅ 0 = .ok g →
        ∃ t, dense.withDelta (deltaRows catalog dense inDelta) tombstones g.dimension = .ok t) :
    (buildGeneration analysis catalog dense inDelta tombstones n).map (fun _ => ()) =
      (buildGeneration analysis catalog (TieredDenseIndex.empty : TieredDenseIndex β) ∅ ∅ 0).map
        fun _ => () := by
  rw [buildGeneration_tiers]
  cases hbuild : buildGeneration analysis catalog (TieredDenseIndex.empty : TieredDenseIndex β)
      ∅ ∅ 0 with
  | error e => rfl
  | ok g =>
    obtain ⟨t,ht⟩ := hdense g hbuild
    simp only [Except.bind,ht,Except.map]

/-- The tiers of a formed backend take the delta of a catalog if its vectors have the dimension of
the base. -/
lemma Formed.delta {catalog : Catalog} (hfiled : Filed catalog)
    (hroom : ∀ x ∈ liveChunks catalog.entries, x.chunk.embedding ≠ [] →
      b.active.dense.base.dimension = 0 ∨
        x.chunk.embedding.length = b.active.dense.base.dimension)
    {tombstones : Finset Bytes}
    (hold : b.active.dense.tombstones ⊆ tombstones ∧ tombstones ⊆ b.active.dense.base.keys)
    (inDelta : Finset Bytes) {g : Generation β}
    (hg : buildGeneration b.analysis catalog TieredDenseIndex.empty ∅ ∅ 0 = .ok g) :
    ∃ t, b.active.dense.withDelta (deltaRows catalog b.active.dense inDelta) tombstones
      g.dimension = .ok t := by
  have hbuilt := buildGeneration_ok hg
  refine hfiled.withDelta hbuilt.keys inDelta hold.2 hold.1 hbuilt.dimension ?_
  by_cases hnone : ∀ x ∈ liveChunks catalog.entries, x.chunk.embedding = []
  · exact Or.inr (Or.inl (buildGeneration_zero hg hnone))
  · push Not at hnone
    obtain ⟨x,hx,hne⟩ := hnone
    obtain h0 | hlen := hroom x hx hne
    · exact Or.inl h0
    · exact Or.inr (Or.inr (hlen.symm.trans (hbuilt.dimension x hx hne)))

/-- Without tiers an activation is held to what the documents have in common. -/
lemma withoutTiers_activate (hfiled : Filed b.active.documents) (hvalid : ValidDocument document)
    (hrevision : revision ≠ 0) (hfresh : b.stale document.key revision = false) :
    (b.withoutTiers.activate document revision).1 =
      (buildGeneration b.analysis (b.active.documents.insert document.key ⟨revision,document⟩)
        (TieredDenseIndex.empty : TieredDenseIndex β) ∅ ∅ 0).map fun _ => () := by
  rw [activate_fst (b := b.withoutTiers) hvalid hrevision hfresh]
  apply buildGeneration_map
  intro g hg
  exact Formed.delta (b := b.withoutTiers) (hfiled.insert hvalid hrevision)
    (fun _ _ _ => Or.inl rfl) (tombstonesAfter_subset (Finset.empty_subset _) _ _) _ hg

lemma activate_fst_of_invalid (hinvalid : ¬(ValidDocument document ∧ revision ≠ 0)) :
    (b.activate document revision).1 = validate document revision := by
  unfold EmbeddedBackend.activate
  cases hvalid : validate document revision with
  | error e => rfl
  | ok u => exact absurd (validate_eq_ok.mp hvalid) hinvalid

lemma activate_fst_of_stale (hvalid : ValidDocument document) (hrevision : revision ≠ 0)
    (hstale : b.stale document.key revision = true) : (b.activate document revision).1 =
      if b.alreadyActive document revision then .ok ()
      else fail .alreadyExists "document revision is stale" := by
  unfold EmbeddedBackend.activate
  rw [validate_eq_ok.mpr ⟨hvalid,hrevision⟩]
  dsimp only
  rw [if_pos hstale]
  split_ifs <;> rfl

/-- An activation that the base does not refuse has the result that it has without tiers. -/
theorem Formed.activate_of_kept (h : b.Formed) (hkept : ¬b.RefusedByBase document revision) :
    (b.activate document revision).1 = (b.withoutTiers.activate document revision).1 := by
  by_cases hargs : ValidDocument document ∧ revision ≠ 0
  · obtain ⟨hvalid,hrevision⟩ := hargs
    by_cases hstale : b.stale document.key revision = true
    · rw [activate_fst_of_stale hvalid hrevision hstale,
        activate_fst_of_stale (b := b.withoutTiers) hvalid hrevision hstale]
      rfl
    · have hfresh := Bool.eq_false_of_not_eq_true hstale
      have htiers := withoutTiers_activate h.filed hvalid hrevision hfresh
      rw [activate_fst hvalid hrevision hfresh,htiers]
      apply buildGeneration_map
      intro g hg
      have hroom : b.Accommodates (.activate document revision) := by
        by_contra hroom
        apply hkept
        refine ⟨?_,hroom⟩
        rw [htiers,hg]
        rfl
      exact Formed.delta (h.filed.insert hvalid hrevision) (h.room_insert (hroom hfresh))
        (tombstonesAfter_subset h.tombstones _ _) _ hg
  · rw [activate_fst_of_invalid hargs,activate_fst_of_invalid hargs]

/-- What the base refuses fails for its dimension. -/
theorem Formed.activate_of_refused (h : b.Formed) (hrefused : b.RefusedByBase document revision) :
    (b.activate document revision).1 =
      fail .dimensionMismatch "dense delta dimension is incompatible with base" := by
  obtain ⟨hok,hroom⟩ := hrefused
  unfold Accommodates at hroom
  push Not at hroom
  obtain ⟨hfresh,hbase,x,hx,hne,hlen⟩ := hroom
  by_cases hargs : ValidDocument document ∧ revision ≠ 0
  · obtain ⟨hvalid,hrevision⟩ := hargs
    rw [withoutTiers_activate h.filed hvalid hrevision hfresh] at hok
    rw [activate_fst hvalid hrevision hfresh,buildGeneration_tiers]
    cases hbuild : buildGeneration b.analysis
        (b.active.documents.insert document.key ⟨revision,document⟩)
        (TieredDenseIndex.empty : TieredDenseIndex β) ∅ ∅ 0 with
    | error e =>
      rw [hbuild] at hok
      cases hok
    | ok g =>
      have hdimension : x.embedding.length = g.dimension :=
        (buildGeneration_ok hbuild).dimension ⟨document.key,⟨revision,document⟩,x⟩
          (mem_liveChunks.mpr ⟨by rw [OrdMap.find?_insert,if_pos rfl],hx⟩) hne
      have hclash : b.active.dense.base.dimension ≠ 0 ∧ g.dimension ≠ 0 ∧
          b.active.dense.base.dimension ≠ g.dimension := by
        rw [← hdimension]
        exact ⟨hbase,fun h0 => hne (List.eq_nil_of_length_eq_zero h0),hlen.symm⟩
      simp only [Except.bind,TieredDenseIndex.withDelta,if_pos hclash]
      rfl
  · rw [activate_fst_of_invalid hargs] at hok
    exact absurd (validate_eq_ok.mp hok) hargs

/-- The base lets every erasure through. -/
lemma erase_fst {key : Bytes} (hargs : ¬(key = [] ∨ revision = 0))
    (hfresh : b.stale key revision = false) (hfiled : Filed b.active.documents)
    (hroom : ∀ x ∈ liveChunks b.active.documents.entries, x.chunk.embedding ≠ [] →
      b.active.dense.base.dimension = 0 ∨
        x.chunk.embedding.length = b.active.dense.base.dimension)
    (htombstones : b.active.dense.tombstones ⊆ b.active.dense.base.keys) :
    (b.erase key revision).1 =
      ((buildGeneration b.analysis (b.active.documents.erase key)
        (TieredDenseIndex.empty : TieredDenseIndex β) ∅ ∅ 0).map fun _ => ()).map
          fun _ => b.active.documents.contains key := by
  have hmap := buildGeneration_map (n := b.active.number+1) fun g hg =>
    Formed.delta (hfiled.erase key) (fun x hx hne => hroom x (live_erase hx).2 hne)
      (tombstonesAfter_subset htombstones key []) (b.active.deltaDocuments.erase key) hg
  rw [← hmap]
  unfold EmbeddedBackend.erase
  rw [if_neg hargs,if_neg (by simp [hfresh])]
  cases buildGeneration b.analysis (b.active.documents.erase key) b.active.dense
      (b.active.deltaDocuments.erase key) (b.tombstonesAfter key []) (b.active.number+1) with
  | error e => rfl
  | ok next => rfl

lemma erase_fst_of_stale {key : Bytes} (hargs : ¬(key = [] ∨ revision = 0))
    (hstale : b.stale key revision = true) : (b.erase key revision).1 =
      if b.latestRevisions.find? key = some revision ∧ b.active.documents.find? key = none then
        .ok false
      else fail .alreadyExists "document revision is stale" := by
  unfold EmbeddedBackend.erase
  rw [if_neg hargs,if_pos hstale]
  split_ifs <;> rfl

/-- An erasure has the result that it has without tiers. -/
theorem Formed.erase_result (h : b.Formed) (key : Bytes) (revision : ℕ) :
    (b.erase key revision).1 = (b.withoutTiers.erase key revision).1 := by
  by_cases hargs : key = [] ∨ revision = 0
  · unfold EmbeddedBackend.erase
    rw [if_pos hargs,if_pos hargs]
  by_cases hstale : b.stale key revision = true
  · rw [erase_fst_of_stale hargs hstale,erase_fst_of_stale (b := b.withoutTiers) hargs hstale]
    rfl
  · have hfresh := Bool.eq_false_of_not_eq_true hstale
    rw [erase_fst hargs hfresh h.filed h.room h.tombstones,
      erase_fst (b := b.withoutTiers) hargs hfresh h.filed (fun _ _ _ => Or.inl rfl)
        (Finset.empty_subset _)]
    rfl

section alike

variable (h : b.Alike c) (hpolicy : b.policy = c.policy)
include h hpolicy

lemma Alike.withoutTiers : b.withoutTiers = c.withoutTiers := by
  unfold EmbeddedBackend.withoutTiers
  rw [h.analysis,h.documents,h.revisions,hpolicy]

/-- Both have one result of an activation if the base of both refuses it, or of neither. -/
theorem Alike.activate_iff (hb : b.Formed) (hc : c.Formed) (document : PreparedDocument)
    (revision : ℕ) : SameOutcome (b.activate document revision) (c.activate document revision) ↔
      (b.RefusedByBase document revision ↔ c.RefusedByBase document revision) := by
  have htiers := h.withoutTiers hpolicy
  have herror : ∀ e, (b.activate document revision).1 = .error e →
      (c.activate document revision).1 = .error e →
        SameOutcome (b.activate document revision) (c.activate document revision) := by
    intro e hbe hce
    refine ⟨hbe.trans hce.symm,?_⟩
    rw [activate_snd_of_error hbe,activate_snd_of_error hce]
    exact ⟨h.documents,h.revisions⟩
  have hrefuse : ∀ {d d' : EmbeddedBackend β}, d.Formed → d'.Formed →
      d.withoutTiers = d'.withoutTiers → d.RefusedByBase document revision →
        ¬d'.RefusedByBase document revision →
          (d.activate document revision).1 ≠ (d'.activate document revision).1 := by
    intro d d' hd hd' hsame hrefused hkept
    rw [hd.activate_of_refused hrefused,hd'.activate_of_kept hkept,← hsame,hrefused.1]
    exact fun heq => by cases heq
  by_cases hrb : b.RefusedByBase document revision <;>
    by_cases hrc : c.RefusedByBase document revision
  · simp only [hrb,hrc,iff_true]
    exact herror _ (hb.activate_of_refused hrb) (hc.activate_of_refused hrc)
  · simp only [hrb,hrc,iff_false,not_true]
    exact fun hsame => hrefuse hb hc htiers hrb hrc hsame.1
  · simp only [hrb,hrc,iff_true,iff_false]
    exact fun hsame => hrefuse hc hb htiers.symm hrc hrb hsame.1.symm
  · simp only [hrb,hrc,iff_true]
    have hbr := hb.activate_of_kept hrb
    have hcr := hc.activate_of_kept hrc
    rw [← htiers] at hcr
    cases hresult : (b.withoutTiers.activate document revision).1 with
    | error e => exact herror e (hbr.trans hresult) (hcr.trans hresult)
    | ok u =>
      have hroom := not_and_not_right.mp hrb hresult
      have hroom' := not_and_not_right.mp hrc (htiers ▸ hresult)
      have halike := h.activate hb hc hroom hroom'
      exact ⟨hbr.trans hcr.symm,halike.documents,halike.revisions⟩

theorem Alike.erase_same (hb : b.Formed) (hc : c.Formed) (key : Bytes) (revision : ℕ) :
    SameOutcome (b.erase key revision) (c.erase key revision) := by
  have halike := h.erase hb hc key revision
  refine ⟨?_,halike.documents,halike.revisions⟩
  rw [hb.erase_result,hc.erase_result,h.withoutTiers hpolicy]

/-- A write that neither base refuses has the same effect on documents and revisions in both. -/
lemma Alike.deliver (hb : b.Formed) (hc : c.Formed) {w : Write}
    (hkept : ∀ document revision, w = .activate document revision →
      ¬b.RefusedByBase document revision ∧ ¬c.RefusedByBase document revision) :
    (b.deliver w).2.Alike (c.deliver w).2 := by
  obtain ⟨hanalysis,-⟩ := b.deliver_active w
  obtain ⟨hanalysis',-⟩ := c.deliver_active w
  have hsame : (b.deliver w).2.active.documents = (c.deliver w).2.active.documents ∧
      (b.deliver w).2.latestRevisions = (c.deliver w).2.latestRevisions := by
    cases w with
    | activate document revision =>
      obtain ⟨hrb,hrc⟩ := hkept document revision rfl
      exact ((h.activate_iff hpolicy hb hc document revision).mpr (iff_of_false hrb hrc)).2
    | erase document revision => exact (h.erase_same hpolicy hb hc document revision).2
  exact ⟨hanalysis.trans (h.analysis.trans hanalysis'.symm),hsame.1,hsame.2⟩

end alike

end EmbeddedBackend

namespace Maintained
open EmbeddedBackend Preparation

/-- No step changes how a backend was configured. -/
lemma step_configured [ApproximateIndex β] {s s' : Maintained β} {e : Step}
    (hstep : step s e = some s') : s'.backend.analysis = s.backend.analysis ∧
      s'.backend.policy = s.backend.policy := by
  cases e with
  | write w =>
    cases hstep
    cases w with
    | activate document revision =>
      have hcases := s.backend.activate_activated document revision
      simp only [EmbeddedBackend.deliver]
      generalize s.backend.activate document revision = out at hcases
      cases hcases <;> exact ⟨rfl,rfl⟩
    | erase document revision =>
      have hcases := s.backend.erase_erased document revision
      simp only [EmbeddedBackend.deliver]
      generalize s.backend.erase document revision = out at hcases
      cases hcases <;> exact ⟨rfl,rfl⟩
  | take thread o =>
    unfold step at hstep
    dsimp only at hstep
    split at hstep <;> cases hstep <;> exact ⟨rfl,rfl⟩
  | rebuild thread =>
    unfold step at hstep
    dsimp only at hstep
    split at hstep
    · split at hstep <;> cases hstep <;> exact ⟨rfl,rfl⟩
    · cases hstep
  | publish thread =>
    unfold step at hstep
    dsimp only at hstep
    split at hstep
    · cases hstep
      unfold publish
      split_ifs <;> exact ⟨rfl,rfl⟩
    · cases hstep

/-- The condition on a step: the dense base does not refuse what is activated. -/
def Fits (s : Maintained β) : Step → Prop
  | .write (.activate document revision) => ¬s.backend.RefusedByBase document revision
  | _ => True

instance (s : Maintained β) (e : Step) : Decidable (s.Fits e) :=
  match e with
  | .write (.activate document revision) =>
    inferInstanceAs (Decidable (¬s.backend.RefusedByBase document revision))
  | .write (.erase _ _) => isTrue trivial
  | .take _ _ => isTrue trivial
  | .rebuild _ => isTrue trivial
  | .publish _ => isTrue trivial

/-- Compactions come between writes without being seen: documents, revisions, fetches and lexical
candidates are those of the writes alone. A compaction changes the backend only when it succeeds, on
the generation that it took. -/
theorem run_loses_no_write [ApproximateIndex β] {analysis : Analysis}
    {policy : EmbeddedMaintenancePolicy} {b : EmbeddedBackend β}
    (hopened : EmbeddedBackend.Opened analysis policy b) {es : List Step} {s : Maintained β}
    (hfits : Machine.Meets step Fits (Maintained.start b) es)
    (hwrites : Machine.Meets step Fits (Maintained.start b) (es.filter Step.isWrite))
    (hrun : Machine.run step (Maintained.start b) es = some s) :
    (∃ t, Machine.run step (Maintained.start b) (es.filter Step.isWrite) = some t ∧
      s.backend.active.documents = t.backend.active.documents ∧
      s.backend.latestRevisions = t.backend.latestRevisions ∧
      (∀ options keys, s.backend.active.fetch options keys = t.backend.active.fetch options keys) ∧
      ∀ request, s.backend.active.lexicalCandidates request =
        t.backend.active.lexicalCandidates request) ∧
    ∀ e s', e.isWrite = false → step s e = some s' → s'.backend = s.backend ∨
      ∃ thread next, e = .publish thread ∧
        s.compactions thread = some (.rebuilt s.backend.active next) ∧
        s'.compactions thread = some (.finished (.ok ())) ∧
        s'.backend = { s.backend with active := next } := by
  have hstart : (Maintained.start b).Running := ⟨hopened.formed,fun thread c hc => by cases hc⟩
  have hrunning := Machine.run_invariant' (fun _ _ _ hi hs => Running.step hi hs) hstart hrun
  constructor
  · -- along both runs: the backends are alike, and each is formed
    obtain ⟨t,ht,-,hformed,halike,-⟩ := Machine.run_filter
      (R := fun s t => s.Running ∧ t.backend.Formed ∧ s.backend.Alike t.backend ∧
        s.backend.policy = t.backend.policy)
      (by
        rintro s t e s' ⟨hs,ht,halike,hpolicy⟩ he hfs hft hstep
        have hnext := hs.step hstep
        have hconfigured := (step_configured hstep).2
        cases e with
        | write w =>
          cases hstep
          have hconfigured' := (step_configured (s := t) (e := .write w) rfl).2
          refine ⟨_,rfl,hnext,ht.deliver w,halike.deliver hpolicy hs.formed ht ?_,
            hconfigured.trans (hpolicy.trans hconfigured'.symm)⟩
          rintro document revision rfl
          exact ⟨hfs,hft⟩
        | _ => cases he)
      (by
        rintro s t e s' ⟨hs,ht,halike,hpolicy⟩ he hstep
        refine ⟨hs.step hstep,ht,?_,(step_configured hstep).2.trans hpolicy⟩
        cases hs.compacted he hstep with
        | kept e thread c hc => exact halike
        | published thread next hrebuilt hbuilt =>
          obtain ⟨dense,hbuilt⟩ := hbuilt
          exact ⟨halike.analysis,hbuilt.documents.trans halike.documents,halike.revisions⟩)
      ⟨hstart,hopened.formed,⟨rfl,rfl,rfl⟩,rfl⟩ hfits hwrites hrun
    obtain ⟨_,_,_,hs⟩ := hrunning.formed.built
    obtain ⟨_,_,_,hbuilt⟩ := hformed.built
    rw [← halike.analysis,← halike.documents] at hbuilt
    obtain ⟨hchunks,hkeys,hlexical⟩ := hs.same hbuilt
    exact ⟨t,ht,halike.documents,halike.revisions,fetch_congr hchunks halike.documents,
      lexicalCandidates_congr hchunks hkeys hlexical⟩
  · intro e s' he hstep
    cases hrunning.compacted he hstep with
    | kept e thread c hc => exact Or.inl rfl
    | published thread next hrebuilt hbuilt =>
      exact Or.inr ⟨thread,next,rfl,hrebuilt,Function.update_self ..,rfl⟩

/-- A compaction that a write overtakes, and one that is published. -/
def overtakenCompaction : List Step :=
  [.write (.activate (headed 'A' [1,0]) 1),.take 0 true,.take 1 true,.rebuild 0,
    .write (.activate (headed 'B' [1,0]) 2),.publish 0,.take 0 true,.rebuild 0,.rebuild 1,
      .publish 0,
    .publish 1,.write (.erase (ascii ['d']) 3)]

/-- The only document is compacted and erased, then one with longer vectors is activated. -/
def widened : List Step :=
  [.write (.activate (headed 'A' [1,0]) 1),.take 0 true,.rebuild 0,.publish 0,
    .write (.erase (ascii ['d']) 2),.write (.activate (headed 'A' [1,0,0]) 3)]

def freshUnit : Maintained Unit := Maintained.start (EmbeddedBackend.start noTerms exactPolicy)

theorem overtakenCompaction_loses_no_write : ∃ s t,
    Machine.run step freshUnit overtakenCompaction = some s ∧
      Machine.run step freshUnit (overtakenCompaction.filter Step.isWrite) = some t ∧
      s.backend.active.documents = t.backend.active.documents ∧
      s.backend.latestRevisions = t.backend.latestRevisions := by
  have hrun : (Machine.run step freshUnit overtakenCompaction).isSome := by decide +kernel
  obtain ⟨s,hs⟩ := Option.isSome_iff_exists.mp hrun
  have hfits : Machine.Meets step Fits freshUnit overtakenCompaction := by decide +kernel
  have hwrites : Machine.Meets step Fits freshUnit
      (overtakenCompaction.filter Step.isWrite) := by decide +kernel
  obtain ⟨⟨t,ht,hdocuments,hrevisions,-⟩,-⟩ :=
    run_loses_no_write (EmbeddedBackend.Opened.fresh (β := Unit)) hfits hwrites hs
  exact ⟨s,t,hs,ht,hdocuments,hrevisions⟩

/-- Without the compaction the longer vectors find an empty base. -/
theorem widened_refused : ¬∀ (es : List Step) (s t : Maintained Unit),
    Machine.run step freshUnit es = some s →
      Machine.run step freshUnit (es.filter Step.isWrite) = some t →
        s.backend.active.documents = t.backend.active.documents := by
  intro h
  have hs : ((Machine.run step freshUnit widened).map
      fun s => s.backend.active.documents.find? (ascii ['d'])) = some none := by decide +kernel
  have ht : ((Machine.run step freshUnit (widened.filter Step.isWrite)).map
      fun s => (s.backend.active.documents.find? (ascii ['d'])).isSome) = some true := by
    decide +kernel
  obtain ⟨s,hrun,hs⟩ := Option.map_eq_some_iff.mp hs
  obtain ⟨t,hrun',ht⟩ := Option.map_eq_some_iff.mp ht
  rw [← h widened s t hrun hrun',hs] at ht
  cases ht

section reached

variable [ApproximateIndex β] {analysis : Analysis} {policy : EmbeddedMaintenancePolicy}
  {b c : EmbeddedBackend β}

lemma run_running (hopened : Opened analysis policy b) {es : List Step} {s : Maintained β}
    (hrun : Machine.run step (start b) es = some s) :
    s.Running ∧ s.backend.analysis = analysis ∧ s.backend.policy = policy := by
  have hstart : (start b).Running := ⟨hopened.formed,fun thread c hc => by cases hc⟩
  have hconfigured : b.analysis = analysis ∧ b.policy = policy := by
    cases hopened with
    | fresh => exact ⟨rfl,rfl⟩
    | restored checkpoint b h =>
      obtain ⟨-,_,_,_,-,-,-,rfl⟩ := restoreCheckpoint_eq_ok h
      exact ⟨rfl,rfl⟩
  refine ⟨Machine.run_invariant' (fun _ _ _ hi hs => Running.step hi hs) hstart hrun,?_⟩
  exact Machine.run_invariant'
    (I := fun s : Maintained β => s.backend.analysis = analysis ∧ s.backend.policy = policy)
    (fun _ _ _ hi hs => ⟨(step_configured hs).1.trans hi.1,(step_configured hs).2.trans hi.2⟩)
    hconfigured hrun

/-- Two backends with the same documents and revisions, however they have come to them: writers
cannot tell them apart, unless by an activation that only the dense base of one of them refuses. -/
theorem layout_unseen (hb : Opened analysis policy b) (hc : Opened analysis policy c)
    {es fs : List Step} {s t : Maintained β} (hs : Machine.run step (start b) es = some s)
    (ht : Machine.run step (start c) fs = some t)
    (hdocuments : s.backend.active.documents = t.backend.active.documents)
    (hrevisions : s.backend.latestRevisions = t.backend.latestRevisions) :
    (∀ document revision,
      SameOutcome (s.backend.activate document revision) (t.backend.activate document revision) ↔
        (s.backend.RefusedByBase document revision ↔ t.backend.RefusedByBase document revision)) ∧
    ∀ document revision,
      SameOutcome (s.backend.erase document revision) (t.backend.erase document revision) := by
  obtain ⟨hsr,hsa,hsp⟩ := run_running hb hs
  obtain ⟨htr,hta,htp⟩ := run_running hc ht
  have halike : s.backend.Alike t.backend := ⟨hsa.trans hta.symm,hdocuments,hrevisions⟩
  have hpolicy := hsp.trans htp.symm
  exact ⟨halike.activate_iff hpolicy hsr.formed htr.formed,
    halike.erase_same hpolicy hsr.formed htr.formed⟩

end reached

/-- The only document is erased, after its row has come into the base. -/
def emptied : List Step :=
  [.write (.activate (headed 'A' [1,0]) 1),.take 0 true,.rebuild 0,.publish 0,
    .write (.erase (ascii ['d']) 2)]

lemma run_emptied : ∃ s t, Machine.run step freshUnit emptied = some s ∧
    Machine.run step freshUnit (emptied.filter Step.isWrite) = some t ∧
      s.backend.active.documents = t.backend.active.documents ∧
      s.backend.latestRevisions = t.backend.latestRevisions ∧
      (s.backend.activate (headed 'A' [1,0,0]) 3).1.toBool = false ∧
      (t.backend.activate (headed 'A' [1,0,0]) 3).1.toBool = true := by
  have hs : ((Machine.run step freshUnit emptied).map fun s =>
      (s.backend.active.documents,s.backend.latestRevisions,
        (s.backend.activate (headed 'A' [1,0,0]) 3).1.toBool)) =
      some (∅,(∅ : OrdMap Bytes ℕ).insert (ascii ['d']) 2,false) := by decide +kernel
  have ht : ((Machine.run step freshUnit (emptied.filter Step.isWrite)).map fun s =>
      (s.backend.active.documents,s.backend.latestRevisions,
        (s.backend.activate (headed 'A' [1,0,0]) 3).1.toBool)) =
      some (∅,(∅ : OrdMap Bytes ℕ).insert (ascii ['d']) 2,true) := by decide +kernel
  obtain ⟨s,hrun,hs⟩ := Option.map_eq_some_iff.mp hs
  obtain ⟨t,hrun',ht⟩ := Option.map_eq_some_iff.mp ht
  simp only [Prod.mk.injEq] at hs ht
  exact ⟨s,t,hrun,hrun',hs.1.trans ht.1.symm,hs.2.1.trans ht.2.1.symm,hs.2.2,ht.2.2⟩

theorem emptied_layout_unseen : ∃ s t, Machine.run step freshUnit emptied = some s ∧
    Machine.run step freshUnit (emptied.filter Step.isWrite) = some t ∧
      ∀ document revision,
        SameOutcome (s.backend.erase document revision) (t.backend.erase document revision) := by
  obtain ⟨s,t,hs,ht,hdocuments,hrevisions,-⟩ := run_emptied
  exact ⟨s,t,hs,ht,(layout_unseen (Opened.fresh (β := Unit)) Opened.fresh hs ht hdocuments
    hrevisions).2⟩

/-- Longer vectors go into the store that was emptied, unless it was compacted before. -/
theorem compacted_layout_seen : ¬∀ (es fs : List Step) (s t : Maintained Unit),
    Machine.run step freshUnit es = some s → Machine.run step freshUnit fs = some t →
      s.backend.active.documents = t.backend.active.documents →
        s.backend.latestRevisions = t.backend.latestRevisions →
          ∀ document revision, SameOutcome (s.backend.activate document revision)
            (t.backend.activate document revision) := by
  intro h
  obtain ⟨s,t,hs,ht,hdocuments,hrevisions,hrefused,hkept⟩ := run_emptied
  have hsame := (h _ _ s t hs ht hdocuments hrevisions (headed 'A' [1,0,0]) 3).1
  rw [hsame,hkept] at hrefused
  cases hrefused

end Maintained
end RagRuntime.Backend
