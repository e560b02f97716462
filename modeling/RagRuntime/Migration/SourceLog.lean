import RagRuntime.Base.Forgetful
import RagRuntime.Migration.LeftoverLog

/-! The embedded corpus as the source of a migration: the checkpoint and the ready jobs of the log
beside it, against what an opening recovers of the two. -/
namespace RagRuntime.Migration
open RagRuntime.Base RagRuntime.Core RagRuntime.Backend RagRuntime.Ingestion

/-- One turn of the loop over the jobs. -/
def takeJob (active : Catalog) (job : IngestionJob) : Result Catalog :=
  if job.status ≠ .ready then .ok active
  else
    let current := (active.find? job.input.document).elim 0 ActiveDocument.revision
    if job.revision ≤ current then .ok active
    else match job.operation with
      | .erase => .ok (active.erase job.input.document)
      | .upsert =>
        match job.prepared.filter fun prepared => prepared.key = job.input.document ∧
          prepared.contentHash = job.contentHash with
        | none => fail .corruptIndex "ready embedded migration job has invalid prepared data"
        | some prepared => .ok (active.insert job.input.document ⟨job.revision,prepared⟩)

/-- What a source reads. -/
def loadActiveWithJobs (disk : Disk) : Result Catalog := do
  let active ← loadActive disk.checkpoint
  let jobs ← JobStore.loadLatest ⟨disk.frames,0⟩
  jobs.foldlM takeJob active

/-- One job stands before another one in what is loaded of a log. -/
def Before (a b : IngestionJob) : Prop := OldestFirst a b ∧ a.id ≠ b.id

/-- The ready upserts of a document that share a revision. -/
def Rivals (frames : List IngestionJob) (job other : IngestionJob) : Prop :=
  ReadyIn frames other ∧ other.operation = .upsert ∧
    other.input.document = job.input.document ∧ other.revision = job.revision

/-- The log lists deletions behind what they delete. Where an opening replays a deletion, every
ready upsert of the document stands before a ready deletion of a greater revision. Where it replays
an upsert that the checkpoint does not have, the first one listed of this revision is prepared like
it. -/
structure Chronological (disk : Disk) (order : List JobId) : Prop where
  deletions : ∀ job, Coordinator.Chosen disk.frames order job → job.operation = .erase →
    ∀ other, ReadyIn disk.frames other → other.operation = .upsert →
      other.input.document = job.input.document →
        ∃ deletion, ReadyIn disk.frames deletion ∧ deletion.operation = .erase ∧
          deletion.input.document = job.input.document ∧ other.revision < deletion.revision ∧
            Before other deletion
  upserts : ∀ job, Coordinator.Chosen disk.frames order job → job.operation = .upsert →
    (∃ checkpoint, disk.checkpoint = some checkpoint ∧
      checkpoint.revisions.find? job.input.document = some job.revision) ∨
    ∀ other, Rivals disk.frames job other →
      (∀ third, Rivals disk.frames job third → OldestFirst other third) →
        other.prepared = job.prepared

section
variable {jobs : List IngestionJob} {job other : IngestionJob} {active : Catalog} {document : Bytes}

/-- What a ready job does to a register of its document. -/
def write (job : IngestionJob) : StampedWrite ActiveDocument :=
  match job.operation,job.prepared with
  | .upsert,some prepared => .put ⟨job.revision,prepared⟩
  | _,_ => .remove job.revision

/-- The ready jobs of one document. -/
def readyOf (document : Bytes) (jobs : List IngestionJob) : List IngestionJob :=
  jobs.filter fun job => job.status = .ready ∧ job.input.document = document

@[simp] lemma stampOf_write (job : IngestionJob) :
    Forgetful.stampOf ActiveDocument.revision (write job) = job.revision := by
  unfold write
  split <;> rfl

lemma mem_readyOf : job ∈ readyOf document jobs ↔
    job ∈ jobs ∧ job.status = .ready ∧ job.input.document = document := by
  simp [readyOf]

lemma readyOf_cons_of_ready (hready : job.status = .ready) (document : Bytes) :
    readyOf document (job::jobs) = if job.input.document = document then
      job::readyOf document jobs else readyOf document jobs := by
  unfold readyOf
  rw [List.filter_cons]
  simp [hready]

lemma write_erase (h : job.operation = .erase) : write job = .remove job.revision := by
  unfold write
  rw [h]

lemma write_upsert (h : job.operation = .upsert) {prepared : PreparedDocument}
    (hprepared : job.prepared = some prepared) : write job = .put ⟨job.revision,prepared⟩ := by
  unfold write
  rw [h,hprepared]

lemma held_elim (register : Option ActiveDocument) :
    Forgetful.held ActiveDocument.revision register = register.elim 0 ActiveDocument.revision := by
  cases register <;> rfl

/-- A turn of the loop succeeds, and is a write to the register of its document. -/
lemma takeJob_spec (hsound : job.Sound) (hready : job.status = .ready) (active : Catalog) :
    ∃ next, takeJob active job = .ok next ∧
      ∀ document, next.find? document = if job.input.document = document then
        Forgetful.take ActiveDocument.revision (active.find? document) (write job)
      else active.find? document := by
  unfold takeJob
  rw [if_neg (not_not.mpr hready)]
  dsimp only
  by_cases hold : job.revision ≤ (active.find? job.input.document).elim 0 ActiveDocument.revision
  · rw [if_pos hold]
    refine ⟨active,rfl,fun document => ?_⟩
    split_ifs with hdocument
    · subst hdocument
      rw [Forgetful.take_of_le]
      rwa [stampOf_write,held_elim]
    · rfl
  rw [if_neg hold]
  have hnewer : ¬job.revision ≤ Forgetful.held ActiveDocument.revision
      (active.find? job.input.document) := by
    rwa [held_elim]
  cases hop : job.operation with
  | erase =>
    refine ⟨active.erase job.input.document,rfl,fun document => ?_⟩
    rw [write_erase hop]
    by_cases hdocument : job.input.document = document
    · subst hdocument
      rw [OrdMap.find?_erase,if_pos rfl,if_pos rfl]
      exact (if_neg hnewer).symm
    · rw [OrdMap.find?_erase,if_neg (Ne.symm hdocument),if_neg hdocument]
  | upsert =>
    obtain ⟨prepared,hprepared,-,hprepares⟩ := hsound.prepared hready hop
    have hfilter : (job.prepared.filter fun prepared => prepared.key = job.input.document ∧
        prepared.contentHash = job.contentHash) = some prepared := by
      rw [hprepared]
      simp [hprepares.key,hprepares.contentHash]
    rw [hfilter]
    refine ⟨active.insert job.input.document ⟨job.revision,prepared⟩,rfl,fun document => ?_⟩
    rw [write_upsert hop hprepared]
    by_cases hdocument : job.input.document = document
    · subst hdocument
      rw [OrdMap.find?_insert,if_pos rfl,if_pos rfl]
      exact (if_neg hnewer).symm
    · rw [OrdMap.find?_insert,if_neg (Ne.symm hdocument),if_neg hdocument]

/-- The loop succeeds, and treats every document as a register of its own. -/
theorem takeJobs_spec (hsound : ∀ job ∈ jobs, job.Sound) (active : Catalog) :
    ∃ taken, jobs.foldlM takeJob active = .ok taken ∧ ∀ document, taken.find? document =
      ((readyOf document jobs).map write).foldl (Forgetful.take ActiveDocument.revision)
        (active.find? document) := by
  induction jobs generalizing active with
  | nil => exact ⟨active,rfl,fun document => rfl⟩
  | cons job rest ih =>
    have ih := ih fun x hx => hsound x (List.mem_cons_of_mem _ hx)
    rw [List.foldlM_cons]
    by_cases hready : job.status = .ready
    · obtain ⟨next,hstep,hnext⟩ := takeJob_spec (hsound job List.mem_cons_self) hready active
      obtain ⟨taken,htaken,hfind⟩ := ih next
      refine ⟨taken,by rw [hstep]; exact htaken,fun document => ?_⟩
      rw [hfind,hnext,readyOf_cons_of_ready hready]
      split_ifs with hdocument
      · rfl
      · rfl
    · obtain ⟨taken,htaken,hfind⟩ := ih active
      have hstep : takeJob active job = .ok active := if_pos hready
      refine ⟨taken,by rw [hstep]; exact htaken,fun document => ?_⟩
      rw [hfind,readyOf,readyOf,List.filter_cons_of_neg (by simp [hready])]

/-! ### The ready jobs of a document in the order of the log -/

/-- What a log is loaded as. -/
def loadedJobs (frames : List IngestionJob) : List IngestionJob :=
  (latestJobs frames).values.insertionSort OldestFirst

variable {frames : List IngestionJob}

lemma mem_loadedJobs : job ∈ loadedJobs frames ↔ (latestJobs frames).find? job.id = some job := by
  rw [loadedJobs,List.mem_insertionSort,mem_latestJobs_values]

lemma mem_ready_loaded : job ∈ readyOf document (loadedJobs frames) ↔
    ReadyIn frames job ∧ job.input.document = document := by
  rw [mem_readyOf,mem_loadedJobs,ReadyIn,and_assoc]

lemma readyOf_sorted (document : Bytes) (frames : List IngestionJob) :
    (readyOf document (loadedJobs frames)).Pairwise OldestFirst :=
  (List.pairwise_insertionSort _ _).filter _

lemma readyOf_nodup (document : Bytes) (frames : List IngestionJob) :
    ((readyOf document (loadedJobs frames)).map IngestionJob.id).Nodup := by
  have hids : ((loadedJobs frames).map IngestionJob.id).Nodup := by
    rw [loadedJobs,((List.perm_insertionSort _ _).map _).nodup_iff]
    exact latestJobs_values_nodup frames
  exact hids.sublist (List.filter_sublist.map _)

lemma OldestFirst.antisymm_id (h : OldestFirst job other) (h' : OldestFirst other job) :
    job.id = other.id := by
  obtain hlt | ⟨heq,hle⟩ := h
  · obtain hlt' | ⟨heq',-⟩ := h'
    · exact absurd (hlt.trans hlt') (lt_irrefl _)
    · exact absurd (heq' ▸ hlt) (lt_irrefl _)
  · obtain hlt' | ⟨-,hle'⟩ := h'
    · exact absurd (heq ▸ hlt') (lt_irrefl _)
    · exact le_antisymm hle hle'

/-- Ready upserts have been prepared. -/
def Prepared (jobs : List IngestionJob) : Prop :=
  ∀ job ∈ jobs, job.operation = .upsert → ∃ prepared, job.prepared = some prepared

lemma mem_remove (h : Prepared jobs) {n : ℕ} : .remove n ∈ jobs.map write ↔
    ∃ deletion ∈ jobs, deletion.operation = .erase ∧ n = deletion.revision := by
  rw [List.mem_map]
  constructor
  · rintro ⟨job,hjob,hwrite⟩
    cases hop : job.operation with
    | erase =>
      rw [write_erase hop] at hwrite
      cases hwrite
      exact ⟨job,hjob,hop,rfl⟩
    | upsert =>
      obtain ⟨prepared,hprepared⟩ := h job hjob hop
      rw [write_upsert hop hprepared] at hwrite
      cases hwrite
  · rintro ⟨deletion,hmem,hop,rfl⟩
    exact ⟨deletion,hmem,write_erase hop⟩

/-- In the order of the log each upsert is followed by a greater deletion. -/
lemma undone_iff (hprepared : Prepared jobs) (hsorted : jobs.Pairwise OldestFirst)
    (hnodup : (jobs.map IngestionJob.id).Nodup) :
    Forgetful.Undone ActiveDocument.revision (jobs.map write) ↔
      ∀ other ∈ jobs, other.operation = .upsert → ∃ deletion ∈ jobs,
        deletion.operation = .erase ∧ other.revision < deletion.revision ∧
          Before other deletion := by
  induction jobs with
  | nil => simp [Forgetful.Undone]
  | cons job rest ih =>
    have hrest : Prepared rest := fun x hx => hprepared x (List.mem_cons_of_mem _ hx)
    obtain ⟨hfirst,hpairs⟩ := List.pairwise_cons.mp hsorted
    rw [List.map_cons,List.nodup_cons] at hnodup
    have hbefore : ∀ x ∈ rest, Before job x := fun x hx =>
      ⟨hfirst x hx,fun hid => hnodup.1 (hid ▸ List.mem_map_of_mem hx)⟩
    have hnever : ∀ x ∈ rest, ¬Before x job := fun x hx h =>
      (hbefore x hx).2 (OldestFirst.antisymm_id (hfirst x hx) h.1)
    have htail : (∀ other ∈ rest, other.operation = .upsert → ∃ deletion ∈ job::rest,
        deletion.operation = .erase ∧ other.revision < deletion.revision ∧ Before other deletion) ↔
        Forgetful.Undone ActiveDocument.revision (rest.map write) := by
      rw [ih hrest hpairs hnodup.2]
      refine forall₃_congr fun other hother hop => ?_
      constructor
      · rintro ⟨deletion,hmem,herase,hlt,hlater⟩
        obtain rfl | hmem := List.mem_cons.mp hmem
        · exact absurd hlater (hnever other hother)
        · exact ⟨deletion,hmem,herase,hlt,hlater⟩
      · rintro ⟨deletion,hmem,h⟩
        exact ⟨deletion,List.mem_cons_of_mem _ hmem,h⟩
    rw [List.forall_mem_cons,htail,List.map_cons]
    cases hop : job.operation with
    | erase =>
      rw [write_erase hop,Forgetful.Undone]
      simp
    | upsert =>
      obtain ⟨prepared,hjob⟩ := hprepared job List.mem_cons_self hop
      rw [write_upsert hop hjob,Forgetful.Undone]
      refine and_congr_left fun _ => ?_
      simp only [mem_remove hrest,forall_const]
      constructor
      · rintro ⟨n,⟨deletion,hmem,herase,rfl⟩,hlt⟩
        exact ⟨deletion,List.mem_cons_of_mem _ hmem,herase,hlt,hbefore deletion hmem⟩
      · rintro ⟨deletion,hmem,herase,hlt,hlater⟩
        obtain rfl | hmem := List.mem_cons.mp hmem
        · rw [hop] at herase
          cases herase
        · exact ⟨_,⟨deletion,hmem,herase,rfl⟩,hlt⟩

end

/-! ### Against what is recovered -/

section
variable {cfg : EmbeddedRuntimeConfig} {disk : Disk} {around : Opening} {b c : CatalogBackend}
  {order : List JobId} {job : IngestionJob} {document : Bytes}

/-- The register of a document when the migration has read the log. -/
def registerOf (disk : Disk) (b : CatalogBackend) (document : Bytes) : Option ActiveDocument :=
  ((readyOf document (loadedJobs disk.frames)).map write).foldl
    (Forgetful.take ActiveDocument.revision) (b.documents.find? document)

lemma prepared_loaded (hsound : ∀ x ∈ disk.frames, x.Sound) (document : Bytes) :
    Prepared (readyOf document (loadedJobs disk.frames)) := by
  intro job hjob hop
  obtain ⟨⟨hlatest,hready⟩,-⟩ := mem_ready_loaded.mp hjob
  obtain ⟨prepared,hprepared,-⟩ := (hsound job (latestJobs_mem hlatest).1).prepared hready hop
  exact ⟨prepared,hprepared⟩

lemma register_positive (hsound : ∀ x ∈ disk.frames, x.Sound) :
    ∀ w ∈ (readyOf document (loadedJobs disk.frames)).map write,
      0 < Forgetful.stampOf ActiveDocument.revision w := by
  intro w hw
  obtain ⟨job,hjob,rfl⟩ := List.mem_map.mp hw
  obtain ⟨⟨hlatest,-⟩,-⟩ := mem_ready_loaded.mp hjob
  rw [stampOf_write]
  exact Nat.pos_of_ne_zero (hsound job (latestJobs_mem hlatest).1).revision

/-- A document without ready jobs is read as the checkpoint has it. -/
lemma registerOf_untouched (h : ∀ job, ReadyIn disk.frames job → job.input.document ≠ document) :
    registerOf disk b document = b.documents.find? document := by
  have hnone : readyOf document (loadedJobs disk.frames) = [] := by
    apply List.eq_nil_iff_forall_not_mem.mpr
    intro job hjob
    obtain ⟨hready,hdocument⟩ := mem_ready_loaded.mp hjob
    exact h job hready hdocument
  rw [registerOf,hnone]
  rfl

/-- What is active in the checkpoint is older than what is replayed on it. -/
lemma held_le (hb : b.Coherent) (hreplays : Replays (Coordinator.replayed disk.frames order) b c)
    (hjob : job ∈ Coordinator.replayed disk.frames order) {a : ActiveDocument}
    (ha : b.documents.find? job.input.document = some a) :
    a.revision < job.revision ∨ a.revision = job.revision ∧
      some a.prepared.contentHash = job.effect := by
  obtain ⟨-,-,hlatest⟩ := hb.documents _ a ha
  have hview : b.view job.input.document = some (a.revision,some a.prepared.contentHash) :=
    CatalogBackend.view_eq_some.mpr ⟨hlatest,by rw [ha]; rfl⟩
  obtain ⟨r,x,hr,hlater⟩ := hreplays.older _ _ _ hview
  rw [hreplays.shown job hjob] at hr
  cases hr
  exact hlater

/-- A document whose deletion is replayed. -/
lemma registerOf_erased (hsound : ∀ x ∈ disk.frames, x.Sound) (hb : b.Coherent)
    (horder : order.Perm (latestJobs disk.frames).keys)
    (hreplays : Replays (Coordinator.replayed disk.frames order) b c)
    (hjob : job ∈ Coordinator.replayed disk.frames order) (hop : job.operation = .erase) :
    registerOf disk b job.input.document = c.documents.find? job.input.document ↔
      ∀ other, ReadyIn disk.frames other → other.operation = .upsert →
        other.input.document = job.input.document →
          ∃ deletion, ReadyIn disk.frames deletion ∧ deletion.operation = .erase ∧
            deletion.input.document = job.input.document ∧ other.revision < deletion.revision ∧
              Before other deletion := by
  have hnewest := Coordinator.mem_replayed horder hjob
  have heffect : job.effect = none := by
    unfold IngestionJob.effect
    rw [hop]
  have hgone : c.documents.find? job.input.document = none := by
    have hshown := hreplays.shown job hjob
    rw [heffect] at hshown
    exact CatalogBackend.absent_of_view hshown
  have hprepared := prepared_loaded hsound job.input.document
  rw [hgone,registerOf,Forgetful.foldl_take_eq_none_iff (register_positive hsound),
    undone_iff hprepared (readyOf_sorted _ _) (readyOf_nodup _ _)]
  have hheld : ∀ a, b.documents.find? job.input.document = some a → ∃ n,
      StampedWrite.remove n ∈ (readyOf job.input.document (loadedJobs disk.frames)).map write ∧
        a.revision < n := by
    intro a ha
    refine ⟨job.revision,(mem_remove hprepared).mpr
      ⟨job,mem_ready_loaded.mpr ⟨hnewest.1,rfl⟩,hop,rfl⟩,?_⟩
    obtain hlt | ⟨-,hsame⟩ := held_le hb hreplays hjob ha
    · exact hlt
    · rw [heffect] at hsame
      cases hsame
  rw [and_iff_right hheld]
  constructor
  · intro h other hother hupsert hdocument
    obtain ⟨deletion,hmem,herase,hlt,hbefore⟩ :=
      h other (mem_ready_loaded.mpr ⟨hother,hdocument⟩) hupsert
    obtain ⟨hready,hsame⟩ := mem_ready_loaded.mp hmem
    exact ⟨deletion,hready,herase,hsame,hlt,hbefore⟩
  · intro h other hmem hupsert
    obtain ⟨hother,hdocument⟩ := mem_ready_loaded.mp hmem
    obtain ⟨deletion,hready,herase,hsame,hlt,hbefore⟩ := h other hother hupsert hdocument
    exact ⟨deletion,mem_ready_loaded.mpr ⟨hready,hsame⟩,herase,hlt,hbefore⟩

/-- The first upsert of the revision that is replayed. -/
lemma exists_firstRival (hready : ReadyIn disk.frames job) (hop : job.operation = .upsert) :
    ∃ first before after, Rivals disk.frames job first ∧
      readyOf job.input.document (loadedJobs disk.frames) = before ++ first::after ∧
      (∀ x ∈ before, ¬Rivals disk.frames job x) ∧
      ∀ third, Rivals disk.frames job third → OldestFirst first third := by
  have hmem : ∀ {x}, Rivals disk.frames job x ↔
      x ∈ readyOf job.input.document (loadedJobs disk.frames) ∧
        (x.operation = .upsert ∧ x.revision = job.revision) := by
    intro x
    rw [mem_ready_loaded,Rivals]
    tauto
  have hsome : ((readyOf job.input.document (loadedJobs disk.frames)).find? fun x =>
      x.operation = .upsert ∧ x.revision = job.revision).isSome := by
    rw [List.find?_isSome]
    exact ⟨job,mem_ready_loaded.mpr ⟨hready,rfl⟩,by simp [hop]⟩
  obtain ⟨first,hfirst⟩ := Option.isSome_iff_exists.mp hsome
  obtain ⟨hfits,before,after,hsplit,hbefore⟩ := List.find?_eq_some_iff_append.mp hfirst
  have hrival : Rivals disk.frames job first := by
    rw [hmem,hsplit]
    exact ⟨List.mem_append_right _ List.mem_cons_self,of_decide_eq_true hfits⟩
  have hnone : ∀ x ∈ before, ¬Rivals disk.frames job x := by
    intro x hx hrivals
    have h := hbefore x hx
    simp only [Bool.not_eq_true',decide_eq_false_iff_not] at h
    exact h (hmem.mp hrivals).2
  refine ⟨first,before,after,hrival,hsplit,hnone,fun third hthird => ?_⟩
  have hsorted := readyOf_sorted job.input.document disk.frames
  have hplace := (hmem.mp hthird).1
  rw [hsplit] at hsorted hplace
  obtain hplace | hplace := List.mem_append.mp hplace
  · exact absurd hthird (hnone third hplace)
  · obtain rfl | hplace := List.mem_cons.mp hplace
    · exact Or.inr ⟨rfl,le_rfl⟩
    · exact (List.pairwise_cons.mp (List.pairwise_append.mp hsorted).2.1).1 third hplace

lemma readyOf_le (h : Newest disk.frames job) :
    ∀ x ∈ readyOf job.input.document (loadedJobs disk.frames), x.revision ≤ job.revision := by
  intro x hx
  obtain ⟨hready,hdocument⟩ := mem_ready_loaded.mp hx
  exact h.2 x hready hdocument

/-- A document that the checkpoint has at the revision of the upsert that is replayed. -/
lemma registerOf_of_latest (hb : b.Coherent)
    (horder : order.Perm (latestJobs disk.frames).keys)
    (hreplays : Replays (Coordinator.replayed disk.frames order) b c)
    (hjob : job ∈ Coordinator.replayed disk.frames order) (hop : job.operation = .upsert)
    (hlatest : b.latestRevisions.find? job.input.document = some job.revision) :
    registerOf disk b job.input.document = b.documents.find? job.input.document := by
  obtain ⟨x,hview⟩ := CatalogBackend.latest_eq_some.mp hlatest
  obtain ⟨r,y,hshown,hlater⟩ := hreplays.older _ _ _ hview
  rw [hreplays.shown job hjob] at hshown
  cases hshown
  have heffect : x = some job.contentHash := by
    obtain hlt | ⟨-,hsame⟩ := hlater
    · exact absurd hlt (lt_irrefl _)
    · rw [hsame,IngestionJob.effect,hop]
  rw [heffect] at hview
  obtain ⟨prepared,hactive,-,-⟩ := hb.active hview
  rw [registerOf,hactive]
  apply Forgetful.foldl_take_of_le
  intro w hw
  obtain ⟨x,hx,rfl⟩ := List.mem_map.mp hw
  rw [stampOf_write]
  exact readyOf_le (Coordinator.mem_replayed horder hjob) x hx

/-- Otherwise the first upsert of the revision is read. -/
lemma registerOf_of_behind (hsound : ∀ x ∈ disk.frames, x.Sound) (hb : b.Coherent)
    (horder : order.Perm (latestJobs disk.frames).keys)
    (hreplays : Replays (Coordinator.replayed disk.frames order) b c)
    (hjob : job ∈ Coordinator.replayed disk.frames order) (hop : job.operation = .upsert)
    (hbehind : b.latestRevisions.find? job.input.document ≠ some job.revision) :
    ∃ first, Rivals disk.frames job first ∧
      (∀ third, Rivals disk.frames job third → OldestFirst first third) ∧
      registerOf disk b job.input.document =
        first.prepared.map (ActiveDocument.mk job.revision) := by
  have hnewest := Coordinator.mem_replayed horder hjob
  obtain ⟨first,before,after,hrival,hsplit,hbefore,hleast⟩ := exists_firstRival hnewest.1 hop
  obtain ⟨hready,hupsert,hdocument,hrevision⟩ := hrival
  obtain ⟨prepared,hprepared,-⟩ :=
    (hsound first (latestJobs_mem hready.1).1).prepared hready.2 hupsert
  refine ⟨first,⟨hready,hupsert,hdocument,hrevision⟩,hleast,?_⟩
  have hle := readyOf_le hnewest
  rw [hprepared,Option.map_some,registerOf]
  apply Forgetful.foldl_take_greatest
  · intro w hw
    obtain ⟨x,hx,rfl⟩ := List.mem_map.mp hw
    rw [stampOf_write]
    exact hle x hx
  · cases hfound : b.documents.find? job.input.document with
    | none =>
      exact Nat.pos_of_ne_zero (hsound job (latestJobs_mem hnewest.1.1).1).revision
    | some a =>
      obtain hlt | ⟨hsame,-⟩ := held_le hb hreplays hjob hfound
      · exact hlt
      · obtain ⟨-,-,hlatest⟩ := hb.documents _ a hfound
        rw [hsame] at hlatest
        exact absurd hlatest hbehind
  · refine ⟨before.map write,after.map write,?_,?_⟩
    · rw [hsplit,List.map_append,List.map_cons,write_upsert hupsert hprepared,hrevision]
    · intro a ha
      obtain ⟨x,hx,hwrite⟩ := List.mem_map.mp ha
      have hmem : x ∈ readyOf job.input.document (loadedJobs disk.frames) := by
        rw [hsplit]
        exact List.mem_append_left _ hx
      obtain ⟨hxready,hxdocument⟩ := mem_ready_loaded.mp hmem
      have hstamp : a.revision = x.revision := by
        rw [← stampOf_write x,hwrite]
        rfl
      have hxop : x.operation = .upsert := by
        cases hxop : x.operation with
        | upsert => rfl
        | erase =>
          rw [write_erase hxop] at hwrite
          cases hwrite
      rw [hstamp]
      exact lt_of_le_of_ne (hle x hmem) fun hsame =>
        hbefore x hx ⟨hxready,hxop,hxdocument,hsame⟩

/-- A document whose upsert is replayed. -/
lemma registerOf_upserted (hsound : ∀ x ∈ disk.frames, x.Sound) (hb : b.Coherent)
    (horder : order.Perm (latestJobs disk.frames).keys) {built : JobId → Result Unit}
    (hok : replayAll built (Coordinator.replayed disk.frames order) b = .ok c)
    (hjob : job ∈ Coordinator.replayed disk.frames order) (hop : job.operation = .upsert) :
    registerOf disk b job.input.document = c.documents.find? job.input.document ↔
      b.latestRevisions.find? job.input.document = some job.revision ∨
      ∀ other, Rivals disk.frames job other →
        (∀ third, Rivals disk.frames job third → OldestFirst other third) →
          other.prepared = job.prepared := by
  have hreplayable := Coordinator.replayed_replayable hsound horder
  have hreplays := replayAll_replays hreplayable hb hok
  have hnewest := Coordinator.mem_replayed horder hjob
  rw [replayAll_document hreplayable hb hok hjob hop]
  by_cases hlatest : b.latestRevisions.find? job.input.document = some job.revision
  · rw [if_pos hlatest,registerOf_of_latest hb horder hreplays hjob hop hlatest]
    simp [hlatest]
  · rw [if_neg hlatest]
    obtain ⟨first,hrival,hleast,hregister⟩ :=
      registerOf_of_behind hsound hb horder hreplays hjob hop hlatest
    obtain ⟨prepared,hprepared,-⟩ :=
      (hsound job (latestJobs_mem hnewest.1.1).1).prepared hnewest.1.2 hop
    obtain ⟨prepared',hprepared',-⟩ :=
      (hsound first (latestJobs_mem hrival.1.1).1).prepared hrival.1.2 hrival.2.1
    rw [hregister,or_iff_right hlatest]
    constructor
    · intro heq other hother hfirst
      have hid := OldestFirst.antisymm_id (hfirst first hrival) (hleast other hother)
      have hsame := hother.1.1
      rw [hid,hrival.1.1] at hsame
      cases hsame
      rw [hprepared,hprepared'] at heq ⊢
      simpa using heq
    · intro h
      rw [h first hrival hleast]

/-- The register of every document holds what is recovered exactly if the log is in order. -/
theorem registerOf_eq_iff (hsound : ∀ x ∈ disk.frames, x.Sound) (hb : b.Coherent)
    (hsnapshot : SnapshotOf disk.checkpoint b)
    (horder : order.Perm (latestJobs disk.frames).keys) {built : JobId → Result Unit}
    (hok : replayAll built (Coordinator.replayed disk.frames order) b = .ok c) :
    (∀ document, registerOf disk b document = c.documents.find? document) ↔
      Chronological disk order := by
  have hreplays := replayAll_replays (Coordinator.replayed_replayable hsound horder) hb hok
  have hcheckpoint : ∀ job : IngestionJob, job.Sound → ((∃ checkpoint,
      disk.checkpoint = some checkpoint ∧
        checkpoint.revisions.find? job.input.document = some job.revision) ↔
          b.latestRevisions.find? job.input.document = some job.revision) := by
    intro job hjob
    obtain ⟨hnone,rfl⟩ | ⟨position,hsome⟩ := hsnapshot
    · simp [hnone,CatalogBackend.empty]
    · simp [hsome,CatalogBackend.snapshot]
  constructor
  · intro h
    constructor
    · intro job hjob hop
      have hmem := (Coordinator.mem_replayed_iff_chosen horder).mpr hjob
      exact (registerOf_erased hsound hb horder hreplays hmem hop).mp (h _)
    · intro job hjob hop
      have hmem := (Coordinator.mem_replayed_iff_chosen horder).mpr hjob
      rw [hcheckpoint job (hsound job (latestJobs_mem hjob.1.1.1).1)]
      exact (registerOf_upserted hsound hb horder hok hmem hop).mp (h _)
  · intro h document
    by_cases hready : ∃ job, ReadyIn disk.frames job ∧ job.input.document = document
    · obtain ⟨job,hjob,rfl⟩ := hready
      obtain ⟨found,hfound,hdocument,-⟩ := Coordinator.exists_replayed horder hjob
      have hchosen := (Coordinator.mem_replayed_iff_chosen horder).mp hfound
      rw [← hdocument]
      cases hop : found.operation with
      | erase =>
        exact (registerOf_erased hsound hb horder hreplays hfound hop).mpr
          (h.deletions found hchosen hop)
      | upsert =>
        have hupsert := h.upserts found hchosen hop
        rw [hcheckpoint found (hsound found (latestJobs_mem hchosen.1.1.1).1)] at hupsert
        exact (registerOf_upserted hsound hb horder hok hfound hop).mpr hupsert
    · have hnone : ∀ job, ReadyIn disk.frames job → job.input.document ≠ document :=
        fun job hjob hdocument => hready ⟨job,hjob,hdocument⟩
      rw [registerOf_untouched hnone]
      exact ((hreplays.others document fun job hjob =>
        hnone job (Coordinator.mem_replayed horder hjob).1).1).symm

lemma loadActive_snapshot (hb : b.Coherent) (hsnapshot : SnapshotOf disk.checkpoint b)
    {r : EmbeddedRuntime} (hopen : openLeft cfg ⟨disk.checkpoint,none⟩ disk.frames around =
      .running r) :
    loadActive disk.checkpoint = .ok b.documents := by
  obtain ⟨hnone,rfl⟩ | ⟨position,hsome⟩ := hsnapshot
  · rw [hnone]
    rfl
  · rw [openLeft,hsome,Option.map_some] at hopen
    rw [hsome,loadActive]
    cases hback : EmbeddedCheckpointStore.readBack (b.snapshot position) with
    | error e =>
      rw [hback] at hopen
      cases hopen
    | ok loaded =>
      obtain ⟨-,-,rfl⟩ := EmbeddedCheckpointStore.readBack_eq_ok.mp hback
      have hfiled : Filed b.documents := by
        intro e he
        exact (hb.documents e.1 e.2 (OrdMap.find?_eq_some.mpr he)).1
      change Except.ok (activeOf b.documents.values) = _
      rw [hfiled.activeOf]

/-- A migration reads the documents that an opening recovers exactly if the log is in order. -/
theorem loadActiveWithJobs_iff {history : List Process.Action} {written : List IngestionJob}
    (hrun : Machine.run (Chronicle.step cfg) Chronicle.start history =
      some ⟨.stopped disk,written⟩)
    (horder : around.order.Perm (latestJobs disk.frames).keys) {r : EmbeddedRuntime}
    (hopen : openLeft cfg ⟨disk.checkpoint,none⟩ disk.frames around = .running r) :
    loadActiveWithJobs disk = .ok r.coordinator.backend.documents ↔
      Chronological disk around.order := by
  obtain ⟨hholds,b,hb,hsnapshot⟩ := Chronicle.coherent_run hrun
  have hsound : ∀ x ∈ disk.frames, x.Sound := hholds.sound
  have hreopen : Process.reopen cfg disk around = .running r := openLeft_running hopen
  obtain ⟨backend,c,store,t,hbackend,hstore,hok,hresumed,hrunning⟩ | ⟨extra,hstopped,-⟩ :=
    Process.reopen_cases cfg hsound horder
  · rw [hrunning] at hreopen
    cases hreopen
    cases hsnapshot.opened hb hbackend
    have hlatest := JobStore.openFile_loadLatest hstore
    rw [(JobStore.openFile_cases hstore).2] at hlatest
    have hloaded : JobStore.loadLatest ⟨disk.frames,0⟩ = .ok (loadedJobs disk.frames) := hlatest
    have hsorted : ∀ job ∈ loadedJobs disk.frames, job.Sound := fun job hjob =>
      hsound job (latestJobs_mem (mem_loadedJobs.mp hjob)).1
    obtain ⟨taken,htaken,hfind⟩ := takeJobs_spec hsorted b.documents
    have hload : loadActiveWithJobs disk = .ok taken := by
      unfold loadActiveWithJobs
      rw [loadActive_snapshot hb hsnapshot hopen,hloaded]
      exact htaken
    have hdocuments : t.backend.documents = c.documents := by rw [hresumed.backend]
    rw [hload,← registerOf_eq_iff hsound hb hsnapshot horder hok]
    change Except.ok taken = Except.ok t.backend.documents ↔ _
    rw [hdocuments]
    constructor
    · intro heq document
      cases heq
      exact (hfind document).symm
    · intro h
      have hsame : taken = c.documents := by
        ext document active
        rw [hfind document,← h document]
        rfl
      rw [hsame]
  · rw [hstopped] at hreopen
    cases hreopen

end

section
open Coordinator Chronicle

/-- A document is ingested, and deleted when the clock shows this time; then the process stops. -/
def deletedAt (now : ℤ) : List Process.Action :=
  [Process.Action.reopen (smooth []),
    .coordinate (.submit (letter 'd' 'a') false (clerk '1'))] ++
    (executed '1' 8).map Process.Action.coordinate ++
    [Process.Action.coordinate (.erase (ascii ['d']) { clerk '2' with now := now })] ++
    (executed '2' 4).map Process.Action.coordinate ++ [Process.Action.stop]

/-- What is asked of the process that `deletedAt` leaves, opened again. -/
def opensWith (now : ℤ) (asked : Disk → EmbeddedRuntime → Bool) : Bool :=
  (Machine.run (step plainRuntime) start (deletedAt now)).any fun c =>
    match c.process with
    | .running _ => false
    | .stopped disk =>
      decide ([ascii ['1'],ascii ['2']].Perm (latestJobs disk.frames).keys) &&
      match openLeft plainRuntime ⟨disk.checkpoint,none⟩ disk.frames
        (smooth [ascii ['1'],ascii ['2']]) with
      | .running r => asked disk r
      | .stopped _ => false

lemma exists_of_opensWith {now : ℤ} {asked : Disk → EmbeddedRuntime → Bool}
    (h : opensWith now asked = true) : ∃ disk written r,
      Machine.run (step plainRuntime) start (deletedAt now) = some ⟨.stopped disk,written⟩ ∧
      [ascii ['1'],ascii ['2']].Perm (latestJobs disk.frames).keys ∧
      openLeft plainRuntime ⟨disk.checkpoint,none⟩ disk.frames
        (smooth [ascii ['1'],ascii ['2']]) = .running r ∧ asked disk r = true := by
  obtain ⟨⟨process,written⟩,hrun,hc⟩ := (Option.any_eq_true _ _).mp h
  cases process with
  | running r => cases hc
  | stopped disk =>
    simp only [Bool.and_eq_true,decide_eq_true_eq] at hc
    obtain ⟨horder,hasked⟩ := hc
    cases hopen : openLeft plainRuntime ⟨disk.checkpoint,none⟩ disk.frames
        (smooth [ascii ['1'],ascii ['2']]) with
    | stopped left =>
      rw [hopen] at hasked
      cases hasked
    | running r =>
      rw [hopen] at hasked
      exact ⟨disk,written,r,hrun,horder,hopen,hasked⟩

/-- While the clock does not step back, the deletion is listed behind what it deletes. -/
theorem chronological_deleted : ∃ disk written r,
    Machine.run (step plainRuntime) start (deletedAt 0) = some ⟨.stopped disk,written⟩ ∧
      openLeft plainRuntime ⟨disk.checkpoint,none⟩ disk.frames
        (smooth [ascii ['1'],ascii ['2']]) = .running r ∧
      Chronological disk [ascii ['1'],ascii ['2']] := by
  have h : opensWith 0 (fun disk r =>
      loadActiveWithJobs disk = .ok r.coordinator.backend.documents) = true := by
    decide +kernel
  obtain ⟨disk,written,r,hrun,horder,hopen,hasked⟩ := exists_of_opensWith h
  exact ⟨disk,written,r,hrun,hopen,
    (loadActiveWithJobs_iff hrun horder hopen).mp (of_decide_eq_true hasked)⟩

/-- After the clock has stepped back, the migration reads a document that is deleted. -/
theorem deleted_document_is_read : ∃ disk written r,
    Machine.run (step plainRuntime) start (deletedAt (-1)) = some ⟨.stopped disk,written⟩ ∧
      openLeft plainRuntime ⟨disk.checkpoint,none⟩ disk.frames
        (smooth [ascii ['1'],ascii ['2']]) = .running r ∧
      loadActiveWithJobs disk ≠ .ok r.coordinator.backend.documents := by
  have h : opensWith (-1) (fun disk r =>
      loadActiveWithJobs disk ≠ .ok r.coordinator.backend.documents) = true := by
    decide +kernel
  obtain ⟨disk,written,r,hrun,-,hopen,hasked⟩ := exists_of_opensWith h
  exact ⟨disk,written,r,hrun,hopen,of_decide_eq_true hasked⟩

end
end RagRuntime.Migration
