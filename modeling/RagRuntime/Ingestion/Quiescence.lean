import RagRuntime.Ingestion.CoordinatorCases

/-! Agreement of the jobs and the backend. While every write is acknowledged each document has one
open job at most, and what the backend has of the document is the effect of one of its jobs. -/
namespace RagRuntime.Ingestion
open RagRuntime.Base RagRuntime.Core RagRuntime.Backend RagRuntime.Preparation RagRuntime.Text

namespace Coordinator

/-- The latest job of the document is open. -/
def busy (s : Coordinator) (document : Bytes) : Bool :=
  (s.latestOf document).any fun job => terminal job.status = false

/-- The backend has the effect of a job that ended without becoming ready. -/
def overtaken (s : Coordinator) (document : Bytes) : Bool :=
  s.jobs.values.any fun job => job.input.document = document ∧ terminal job.status = true ∧
    job.status ≠ .ready ∧ s.backend.latestRevisions.find? document = some job.revision

/-- A job does not fail while the backend has the effect of a job that it superseded, and the
erasure of a superseded job takes effect only while the job that superseded it is open. -/
def orderly (s : Coordinator) : Action → Bool
  | .execute id around =>
    match s.jobs.find? id,s.executing.find? id with
    | some job,some (.failing _) => terminal job.status || !s.overtaken job.input.document
    | some job,some .erasing => !terminal job.status || around.built ≠ .ok () ||
        s.backend.stale job.input.document job.revision || s.busy job.input.document
    | _,_ => true
  | _ => true

/-- No job is open. -/
def Quiescent (s : Coordinator) : Prop :=
  ∀ id job, s.jobs.find? id = some job → terminal job.status = true

/-- `job` is the ready job of its document with the greatest revision. -/
def NewestReady (s : Coordinator) (job : IngestionJob) : Prop :=
  (∃ id, s.jobs.find? id = some job) ∧ job.status = .ready ∧
    ∀ id other, s.jobs.find? id = some other → other.input.document = job.input.document →
      other.status = .ready → other.revision ≤ job.revision

/-- What the backend has of the document is what its newest ready job left. -/
structure AgreesOn (s : Coordinator) (document : Bytes) : Prop where
  upsert : ∀ job, s.NewestReady job → job.input.document = document → job.operation = .upsert →
    ∃ prepared, job.prepared = some prepared ∧ prepared.contentHash = job.contentHash ∧
      s.backend.documents.find? document = some ⟨job.revision,prepared⟩
  erase : ∀ job, s.NewestReady job → job.input.document = document → job.operation = .erase →
    s.backend.documents.find? document = none
  none : (∀ id job, s.jobs.find? id = some job → job.input.document = document →
    job.status ≠ .ready) → s.backend.documents.find? document = none
  /-- No other job has taken effect. -/
  latest : ∀ revision, s.backend.latestRevisions.find? document = some revision →
    ∃ job, s.NewestReady job ∧ job.input.document = document ∧ job.revision = revision

/-- What holds as long as all writes are acknowledged. -/
structure Serial (s : Coordinator) : Prop where
  wf : s.Wf
  written : ∀ id e, s.executing.find? id ≠ some (.failingVolatile e)
  distinct : ∀ i j a b, s.jobs.find? i = some a → s.jobs.find? j = some b →
    a.input.document = b.input.document → a.revision = b.revision → i = j
  current : ∀ id job, s.jobs.find? id = some job → terminal job.status = false →
    s.latestJob.find? job.input.document = some id

/-- How a job can stand whose effect the backend has. -/
def Stands (s : Coordinator) (id : JobId) (job : IngestionJob) : Prop :=
  job.status = .ready ∨
    (terminal job.status = false ∧ ∃ progress, s.executing.find? id = some progress ∧
      progress.Applied) ∨
    (terminal job.status = true ∧ job.status ≠ .ready ∧ s.busy job.input.document = true)

/-- The backend has the effect of the job. -/
def Holds (s : Coordinator) (id : JobId) (job : IngestionJob) : Prop :=
  match job.operation with
  | .upsert => ∃ prepared,
      s.backend.documents.find? job.input.document = some ⟨job.revision,prepared⟩ ∧
      (job.status = .ready → job.prepared = some prepared) ∧
      ∀ progress, s.executing.find? id = some progress → progress.Applied →
        terminal job.status = false → progress = .activated prepared
  | .erase => s.backend.documents.find? job.input.document = none

/-- What the backend has of a document, and how the jobs of the document stand to it. -/
structure Effective (s : Coordinator) (document : Bytes) : Prop where
  absent : s.backend.latestRevisions.find? document = none →
    s.backend.documents.find? document = none
  effect : ∀ revision, s.backend.latestRevisions.find? document = some revision →
    ∃ id job, s.jobs.find? id = some job ∧ job.input.document = document ∧
      job.revision = revision ∧ s.Stands id job ∧ s.Holds id job
  applied : ∀ id progress job, s.executing.find? id = some progress → progress.Applied →
    s.jobs.find? id = some job → job.input.document = document → terminal job.status = false →
    s.backend.latestRevisions.find? document = some job.revision
  ready : ∀ id job, s.jobs.find? id = some job → job.input.document = document →
    job.status = .ready → ∃ revision,
      s.backend.latestRevisions.find? document = some revision ∧ job.revision ≤ revision

section
variable {s m t : Coordinator} {a : Action} {id : JobId} {job next : IngestionJob}
  {document : Bytes}

lemma busy_eq_true (h : s.Wf) : s.busy document = true ↔
    ∃ id job, s.latestJob.find? document = some id ∧ s.jobs.find? id = some job ∧
      terminal job.status = false := by
  unfold busy
  rw [Option.any_eq_true]
  constructor
  · intro hbusy
    obtain ⟨job,hjob,hopen⟩ := hbusy
    obtain ⟨hlatest,hfound,-,-⟩ := latestOf_spec h hjob
    exact ⟨job.id,job,hlatest,hfound,of_decide_eq_true hopen⟩
  · intro hbusy
    obtain ⟨id,job,hlatest,hfound,hopen⟩ := hbusy
    exact ⟨job,Option.bind_eq_some_iff.mpr ⟨id,hlatest,hfound⟩,decide_eq_true hopen⟩

lemma busy_congr (hs : s.Wf) (hm : m.Wf)
    (hlatest : m.latestJob.find? document = s.latestJob.find? document)
    (hjobs : ∀ id job, job.input.document = document →
      (m.jobs.find? id = some job ↔ s.jobs.find? id = some job)) :
    m.busy document = s.busy document := by
  rw [Bool.eq_iff_iff,busy_eq_true hm,busy_eq_true hs]
  constructor
  · intro hbusy
    obtain ⟨id,job,hid,hjob,hopen⟩ := hbusy
    obtain ⟨x,hx,hdocument,-⟩ := hm.latest document id hid
    cases hjob.symm.trans hx
    exact ⟨id,job,hlatest ▸ hid,(hjobs id job hdocument).mp hjob,hopen⟩
  · intro hbusy
    obtain ⟨id,job,hid,hjob,hopen⟩ := hbusy
    obtain ⟨x,hx,hdocument,-⟩ := hs.latest document id hid
    cases hjob.symm.trans hx
    exact ⟨id,job,hlatest.trans hid,(hjobs id job hdocument).mpr hjob,hopen⟩

lemma overtaken_eq_true : s.overtaken document = true ↔
    ∃ id job, s.jobs.find? id = some job ∧ job.input.document = document ∧
      terminal job.status = true ∧ job.status ≠ .ready ∧
      s.backend.latestRevisions.find? document = some job.revision := by
  unfold overtaken
  simp only [List.any_eq_true,OrdMap.mem_values,decide_eq_true_eq]
  constructor
  · intro h
    obtain ⟨job,⟨id,hjob⟩,hspec⟩ := h
    exact ⟨id,job,hjob,hspec⟩
  · intro h
    obtain ⟨id,job,hjob,hspec⟩ := h
    exact ⟨job,⟨id,hjob⟩,hspec⟩

/-- An open job has the latest revision of its document. -/
lemma Serial.isCurrent (h : s.Serial) (hjob : s.jobs.find? id = some job)
    (hopen : terminal job.status = false) : s.Current job := by
  obtain ⟨x,hx,-,hrevision⟩ := h.wf.latest _ id (h.current id job hjob hopen)
  cases hjob.symm.trans hx
  unfold Current revisionOf
  rw [hrevision,Option.getD_some]

/-- Two open jobs of a document are one. -/
lemma Serial.open_unique (h : s.Serial) {other : JobId} {x : IngestionJob}
    (hjob : s.jobs.find? id = some job) (hopen : terminal job.status = false)
    (hx : s.jobs.find? other = some x) (hxopen : terminal x.status = false)
    (hdocument : x.input.document = job.input.document) : other = id := by
  have hlatest := h.current other x hx hxopen
  rw [hdocument,h.current id job hjob hopen] at hlatest
  exact (Option.some.inj hlatest).symm

lemma Serial.busy_of_open (h : s.Serial) (hjob : s.jobs.find? id = some job)
    (hopen : terminal job.status = false) : s.busy job.input.document = true :=
  (busy_eq_true h.wf).mpr ⟨id,job,h.current id job hjob hopen,hjob,hopen⟩

/-- Documents an event does not touch stay as they are. -/
lemma Effective.frame (h : s.Effective document)
    (hjobs : ∀ id job, job.input.document = document →
      (m.jobs.find? id = some job ↔ s.jobs.find? id = some job))
    (hexecuting : ∀ id job, m.jobs.find? id = some job → job.input.document = document →
      m.executing.find? id = s.executing.find? id)
    (hbusy : m.busy document = s.busy document)
    (hdocuments : m.backend.documents.find? document = s.backend.documents.find? document)
    (hlatest : m.backend.latestRevisions.find? document =
      s.backend.latestRevisions.find? document) : m.Effective document := by
  refine ⟨?_,?_,?_,?_⟩
  · rw [hdocuments,hlatest]
    exact h.absent
  · intro revision hrevision
    rw [hlatest] at hrevision
    obtain ⟨id,job,hjob,hdocument,hrev,hstands,hholds⟩ := h.effect revision hrevision
    have hmjob := (hjobs id job hdocument).mpr hjob
    have hmexecuting := hexecuting id job hmjob hdocument
    refine ⟨id,job,hmjob,hdocument,hrev,?_,?_⟩
    · unfold Stands at hstands ⊢
      rw [hmexecuting,hdocument,hbusy,← hdocument]
      exact hstands
    · unfold Holds at hholds ⊢
      rw [hmexecuting,hdocument,hdocuments,← hdocument]
      exact hholds
  · intro id progress job hid happlied hjob hdocument hopen
    rw [hexecuting id job hjob hdocument] at hid
    rw [hlatest]
    exact h.applied id progress job hid happlied ((hjobs id job hdocument).mp hjob) hdocument hopen
  · intro id job hjob hdocument hready
    rw [hlatest]
    exact h.ready id job ((hjobs id job hdocument).mp hjob) hdocument hready

/-- A new record of a known job leaves each document its open job. -/
lemma Serial.record (h : s.Serial) (hwf : { s with jobs := s.jobs.insert id next }.Wf)
    (hjob : s.jobs.find? id = some job) (hsame : job.SameIdentity next)
    (hopen : terminal next.status = false → terminal job.status = false) :
    { s with jobs := s.jobs.insert id next }.Serial := by
  have hold : ∀ i x, (s.jobs.insert id next).find? i = some x →
      ∃ y, s.jobs.find? i = some y ∧ y.SameIdentity x ∧
        (terminal x.status = false → terminal y.status = false) := by
    intro i x hx
    rw [OrdMap.find?_insert] at hx
    split_ifs at hx with hid
    · cases hx
      exact ⟨job,hid ▸ hjob,hsame,hopen⟩
    · exact ⟨x,hx,⟨rfl,rfl,rfl,rfl,rfl⟩,fun hx => hx⟩
  refine ⟨hwf,h.written,?_,?_⟩
  · intro i j x y hx hy hdocument hrevision
    obtain ⟨x',hx',hxsame,-⟩ := hold i x hx
    obtain ⟨y',hy',hysame,-⟩ := hold j y hy
    apply h.distinct i j x' y' hx' hy'
    · rw [← hxsame.document,hdocument,hysame.document]
    · rw [← hxsame.revision,hrevision,hysame.revision]
  · intro i x hx hxopen
    obtain ⟨x',hx',hxsame,hxopen'⟩ := hold i x hx
    rw [hxsame.document]
    exact h.current i x' hx' (hxopen' hxopen)

/-- A new job of a document without an open job. -/
lemma Serial.enlist (h : s.Serial) (hwf : (s.enlist job).Wf)
    (hrevision : job.revision = s.revisionOf job.input.document + 1)
    (hclosed : ∀ id older, s.jobs.find? id = some older →
      older.input.document = job.input.document → terminal older.status = true) :
    (s.enlist job).Serial := by
  have hbelow : ∀ i x, s.jobs.find? i = some x → x.input.document = job.input.document →
      x.revision < job.revision := by
    intro i x hx hdocument
    have := h.wf.bounded i x hx
    rw [hdocument] at this
    omega
  refine ⟨hwf,h.written,?_,?_⟩
  · intro i j x y hx hy hdocument hsame
    simp only [Coordinator.enlist,OrdMap.find?_insert] at hx hy
    split_ifs at hx hy with hi hj hj
    · rw [hi,hj]
    · cases hx
      have := hbelow j y hy hdocument.symm
      omega
    · cases hy
      have := hbelow i x hx hdocument
      omega
    · exact h.distinct i j x y hx hy hdocument hsame
  · intro i x hx hopen
    simp only [Coordinator.enlist,OrdMap.find?_insert] at hx ⊢
    by_cases hi : i = job.id
    · rw [if_pos hi] at hx
      cases hx
      rw [if_pos rfl,hi]
    · rw [if_neg hi] at hx
      by_cases hdocument : x.input.document = job.input.document
      · rw [hclosed i x hx hdocument] at hopen
        cases hopen
      · rw [if_neg hdocument]
        exact h.current i x hx hopen

lemma Serial.withStore (h : s.Serial) {store : JobStore} (hwf : { s with store := store }.Wf) :
    { s with store := store }.Serial := ⟨hwf,h.written,h.distinct,h.current⟩

lemma Serial.withBackend (h : s.Serial) {backend : CatalogBackend}
    {executing : OrdMap JobId Progress}
    (hwf : { s with backend := backend, executing := executing }.Wf)
    (hwritten : ∀ id e, executing.find? id ≠ some (.failingVolatile e)) :
    { s with backend := backend, executing := executing }.Serial :=
  ⟨hwf,hwritten,h.distinct,h.current⟩

lemma Serial.written_insert (h : s.Serial) {progress : Progress}
    (hprogress : ∀ e, progress ≠ .failingVolatile e) (i : JobId) (e : Error) :
    (s.executing.insert id progress).find? i ≠ some (.failingVolatile e) := by
  rw [OrdMap.find?_insert]
  split_ifs
  · exact fun heq => hprogress e (Option.some.inj heq)
  · exact h.written i e

theorem Serial.event (h : s.Serial) (hevent : s.Event a m) (hsynced : a.Synced) : m.Serial := by
  have hwf := hevent.wf h.wf
  cases hevent with
  | quiet => exact h
  | recorded id around ha job next hjob hopen hrecorded bytes =>
    have hrecord := h.wf.record hjob hrecorded.same hrecorded.sound
    exact (h.record hrecord hjob hrecorded.same fun _ => hopen).withStore hwf
  | spilled extra hextra hlost bytes => exact absurd hsynced hlost
  | failedVolatile id e hid job next hjob hopen hsame hsound hstatus =>
    exact absurd hid (h.written id e)
  | activated id around ha job prepared hjob hid hopen hcurrent backend hactivated =>
    exact h.withBackend hwf (h.written_insert fun _ => Progress.noConfusion)
  | erased id around ha job applied hjob hid backend herased =>
    exact h.withBackend hwf (h.written_insert fun _ => Progress.noConfusion)
  | accepted job hcreated hsound hfresh hopen bytes =>
    have hstore : { s with store := ⟨s.store.frames ++ [job],bytes⟩ }.Serial := by
      apply h.withStore (h.wf.withStore _)
      intro x hx
      obtain hx | hx := List.mem_append.mp hx
      · exact h.wf.frames x hx
      · exact List.mem_singleton.mp hx ▸ hsound
    refine hstore.enlist hwf (created_revision hcreated) ?_
    intro id older holder hdocument
    cases hclosed : terminal older.status with
    | true => rfl
    | false =>
      have hlatest := h.current id older holder hclosed
      rw [hdocument] at hlatest
      rw [hopen older (Option.bind_eq_some_iff.mpr ⟨id,hlatest,holder⟩)] at hclosed
      cases hclosed
  | replaced job older later hcreated hsound hfresh holder hopen bytes =>
    obtain ⟨-,hfound,hdocument,-⟩ := latestOf_spec h.wf holder
    have hsame := older.supersede_same later
    have hsuperseded : (older.supersede later).Sound :=
      (h.wf.jobs older.id older hfound).of_same hsame (.inr rfl) JobStatus.noConfusion
    have hstore : { s with store :=
        ⟨s.store.frames ++ [job] ++ [older.supersede later],bytes⟩ }.Serial := by
      apply h.withStore (h.wf.withStore _)
      intro x hx
      simp only [List.mem_append,List.mem_singleton] at hx
      obtain (hx | hx) | hx := hx
      · exact h.wf.frames x hx
      · exact hx ▸ hsound
      · exact hx ▸ hsuperseded
    have hset : ({ s with
        store := ⟨s.store.frames ++ [job] ++ [older.supersede later],bytes⟩ }.setJob
          (older.supersede later)).Serial :=
      hstore.record (hstore.wf.record hfound hsame hsuperseded) hfound hsame fun _ => hopen
    refine hset.enlist hwf (created_revision hcreated) ?_
    intro id x hx hxdocument
    have hid : (older.supersede later).id = older.id := rfl
    simp only [setJob,OrdMap.find?_insert,hid] at hx
    split_ifs at hx with heq
    · cases hx
      rfl
    · cases hclosed : terminal x.status with
      | true => rfl
      | false =>
        exact absurd (h.open_unique hfound hopen hx hclosed (hxdocument.trans hdocument.symm)) heq
  | compacted => exact h.withBackend hwf h.written

theorem Serial.moved (h : m.Serial) (hmoved : Moved m t) (hkept : Kept m t) : t.Serial := by
  have hwf := hmoved.wf h.wf
  rw [hmoved.eq] at hwf ⊢
  exact ⟨hwf,fun id e hid => h.written id e (hkept.written id e hid),h.distinct,h.current⟩

lemma ready_terminal (h : job.status = .ready) : terminal job.status = true := by
  rw [h]
  rfl

lemma Effective.withStore (h : s.Effective document) (store : JobStore) :
    { s with store := store }.Effective document :=
  h.frame (fun _ _ _ => Iff.rfl) (fun _ _ _ _ => rfl) rfl rfl rfl

/-- The effect of a job is that of its other records while the job is open. -/
lemma Holds.of_same (h : s.Holds id job) (hsame : job.SameIdentity next)
    (hopen : terminal job.status = false) (hnext : next.status ≠ .ready) :
    { s with jobs := s.jobs.insert id next }.Holds id next := by
  unfold Holds at h ⊢
  rw [hsame.operation,hsame.document,hsame.revision]
  cases hop : job.operation with
  | upsert =>
    rw [hop] at h
    obtain ⟨prepared,hdocument,-,hprogress⟩ := h
    exact ⟨prepared,hdocument,fun hready => absurd hready hnext,
      fun progress hid happlied _ => hprogress progress hid happlied hopen⟩
  | erase =>
    rw [hop] at h
    exact h

/-- A job that stands for the effect and is open has applied it. -/
lemma Stands.applied (h : s.Stands id job) (hopen : terminal job.status = false) :
    ∃ progress, s.executing.find? id = some progress ∧ progress.Applied := by
  obtain hready | ⟨-,hprogress⟩ | ⟨hclosed,-⟩ := h
  · rw [ready_terminal hready] at hopen
    cases hopen
  · exact hprogress
  · rw [hclosed] at hopen
    cases hopen

/-- A new record of the open job that leaves it open. -/
lemma Effective.record_open (he : s.Effective job.input.document)
    (hm : { s with jobs := s.jobs.insert id next }.Serial) (hjob : s.jobs.find? id = some job)
    (hopen : terminal job.status = false) (hsame : job.SameIdentity next)
    (hnext : terminal next.status = false) :
    { s with jobs := s.jobs.insert id next }.Effective job.input.document := by
  have hfound : (s.jobs.insert id next).find? id = some next := by simp
  have hready : next.status ≠ .ready := fun hready => by
    rw [ready_terminal hready] at hnext
    cases hnext
  refine ⟨he.absent,?_,?_,?_⟩
  · intro revision hrevision
    obtain ⟨i,x,hx,hdocument,hrev,hstands,hholds⟩ := he.effect revision hrevision
    by_cases hi : i = id
    · subst hi
      cases hjob.symm.trans hx
      exact ⟨i,next,hfound,hsame.document,hsame.revision.trans hrev,
        Or.inr (Or.inl ⟨hnext,hstands.applied hopen⟩),hholds.of_same hsame hopen hready⟩
    · refine ⟨i,x,by simpa [hi] using hx,hdocument,hrev,?_,hholds⟩
      obtain hx | hx | ⟨hclosed,hnot,-⟩ := hstands
      · exact Or.inl hx
      · exact Or.inr (Or.inl hx)
      · refine Or.inr (Or.inr ⟨hclosed,hnot,?_⟩)
        rw [hdocument,← hsame.document]
        exact hm.busy_of_open hfound hnext
  · intro i progress x hprogress happlied hx hdocument hxopen
    simp only [OrdMap.find?_insert] at hx
    split_ifs at hx with hi
    · cases hx
      rw [hsame.revision]
      exact he.applied id progress job (hi ▸ hprogress) happlied hjob rfl hopen
    · exact he.applied i progress x hprogress happlied hx hdocument hxopen
  · intro i x hx hdocument hxready
    simp only [OrdMap.find?_insert] at hx
    split_ifs at hx with hi
    · cases hx
      exact absurd hxready hready
    · exact he.ready i x hx hdocument hxready

/-- The open job becomes ready. -/
lemma Effective.record_ready (h : s.Serial) (he : s.Effective job.input.document)
    (hjob : s.jobs.find? id = some job) (hopen : terminal job.status = false)
    (hsame : job.SameIdentity next) (hnext : next.status = .ready)
    (hbecomes : s.BecomesReady next) :
    { s with jobs := s.jobs.insert id next }.Effective job.input.document := by
  have hfound : (s.jobs.insert id next).find? id = some next := by simp
  have hid : next.id = id := hsame.id.trans (h.wf.keyed id job hjob)
  obtain ⟨progress,hprogress,happlied,hprepared⟩ := hbecomes.applied
  rw [hid] at hprogress
  have hlatest := he.applied id progress job hprogress happlied hjob rfl hopen
  refine ⟨he.absent,?_,?_,?_⟩
  · intro revision hrevision
    obtain ⟨i,x,hx,hdocument,hrev,-,hholds⟩ := he.effect revision hrevision
    have hsameRevision : x.revision = job.revision := by
      rw [hrev]
      exact Option.some.inj (hrevision.symm.trans hlatest)
    obtain rfl := h.distinct i id x job hx hjob hdocument hsameRevision
    cases hjob.symm.trans hx
    refine ⟨i,next,hfound,hsame.document,hsame.revision.trans hrev,Or.inl hnext,?_⟩
    unfold Holds at hholds ⊢
    rw [hsame.operation,hsame.document,hsame.revision]
    cases hop : job.operation with
    | upsert =>
      rw [hop] at hholds
      obtain ⟨prepared,hactive,-,hactivated⟩ := hholds
      refine ⟨prepared,hactive,fun _ => ?_,fun p hp ha hclosed => ?_⟩
      · exact hprepared prepared (hactivated progress hprogress happlied hopen)
      · rw [ready_terminal hnext] at hclosed
        cases hclosed
    | erase =>
      rw [hop] at hholds
      exact hholds
  · intro i p x hp ha hx hdocument hxopen
    simp only [OrdMap.find?_insert] at hx
    split_ifs at hx with hi
    · cases hx
      rw [ready_terminal hnext] at hxopen
      cases hxopen
    · exact he.applied i p x hp ha hx hdocument hxopen
  · intro i x hx hdocument hxready
    simp only [OrdMap.find?_insert] at hx
    split_ifs at hx with hi
    · cases hx
      exact ⟨job.revision,hlatest,hsame.revision.le⟩
    · exact he.ready i x hx hdocument hxready

/-- The open job fails, and the backend has the effect of no job that it superseded. -/
lemma Effective.record_failed (h : s.Serial) (he : s.Effective job.input.document)
    (hjob : s.jobs.find? id = some job) (hopen : terminal job.status = false)
    (hnext : next.status = .failed) {e : Error} (hid : s.executing.find? id = some (.failing e))
    (hovertaken : s.overtaken job.input.document = false) :
    { s with jobs := s.jobs.insert id next }.Effective job.input.document := by
  have hready : next.status ≠ .ready := fun hready => by
    rw [hnext] at hready
    cases hready
  refine ⟨he.absent,?_,?_,?_⟩
  · intro revision hrevision
    obtain ⟨i,x,hx,hdocument,hrev,hstands,hholds⟩ := he.effect revision hrevision
    have hi : i ≠ id := fun hi => by
      subst hi
      cases hjob.symm.trans hx
      obtain ⟨progress,hprogress,happlied⟩ := hstands.applied hopen
      cases hid.symm.trans hprogress
      exact happlied
    refine ⟨i,x,by simpa [hi] using hx,hdocument,hrev,?_,hholds⟩
    obtain hx' | ⟨hxopen,-⟩ | ⟨hclosed,hnot,-⟩ := hstands
    · exact Or.inl hx'
    · exact absurd (h.open_unique hjob hopen hx hxopen hdocument) hi
    · -- An ended job that is not ready is one that this job superseded.
      rw [overtaken_eq_true.mpr ⟨i,x,hx,hdocument,hclosed,hnot,hrev ▸ hrevision⟩] at hovertaken
      cases hovertaken
  · intro i p x hp ha hx hdocument hxopen
    simp only [OrdMap.find?_insert] at hx
    split_ifs at hx with hi
    · cases hx
      rw [hnext] at hxopen
      cases hxopen
    · exact he.applied i p x hp ha hx hdocument hxopen
  · intro i x hx hdocument hxready
    simp only [OrdMap.find?_insert] at hx
    split_ifs at hx with hi
    · cases hx
      exact absurd hxready hready
    · exact he.ready i x hx hdocument hxready

/-- What a transition records. -/
lemma Effective.record (h : s.Serial) (he : ∀ document, s.Effective document)
    (hm : { s with jobs := s.jobs.insert id next }.Serial) (hjob : s.jobs.find? id = some job)
    (hopen : terminal job.status = false) (hrecorded : s.Recorded job next)
    (hfailed : next.status = .failed → s.overtaken job.input.document = false)
    (document : Bytes) : { s with jobs := s.jobs.insert id next }.Effective document := by
  have hsame := hrecorded.same
  by_cases hdocument : job.input.document = document
  · subst hdocument
    have hcurrent : s.Current next := by
      unfold Current
      rw [hsame.document,hsame.revision]
      exact h.isCurrent hjob hopen
    cases hstatus : next.status with
    | ready =>
      exact (he _).record_ready h hjob hopen hsame hstatus (hrecorded.ready hstatus)
    | failed =>
      obtain ⟨e,hid⟩ := hrecorded.failed hstatus
      rw [hsame.id,h.wf.keyed id job hjob] at hid
      exact (he _).record_failed h hjob hopen hstatus hid (hfailed hstatus)
    | superseded => exact absurd hcurrent (hrecorded.superseded hstatus)
    | cancelled => exact absurd hstatus hrecorded.status
    | queued => exact (he _).record_open hm hjob hopen hsame (by rw [hstatus]; rfl)
    | chunking => exact (he _).record_open hm hjob hopen hsame (by rw [hstatus]; rfl)
    | embedding => exact (he _).record_open hm hjob hopen hsame (by rw [hstatus]; rfl)
    | publishing => exact (he _).record_open hm hjob hopen hsame (by rw [hstatus]; rfl)
  · have hnext : next.input.document ≠ document := hsame.document ▸ hdocument
    have hjobs : ∀ i x, x.input.document = document →
        ((s.jobs.insert id next).find? i = some x ↔ s.jobs.find? i = some x) := by
      intro i x hx
      rw [OrdMap.find?_insert]
      split_ifs with hi
      · subst hi
        constructor
        · intro heq
          exact absurd (Option.some.inj heq ▸ hx) hnext
        · intro heq
          cases hjob.symm.trans heq
          exact absurd hx hdocument
      · exact Iff.rfl
    exact (he document).frame hjobs (fun _ _ _ _ => rfl) (busy_congr h.wf hm.wf rfl hjobs) rfl rfl

/-- A write to the backend leaves the other documents alone. -/
lemma Effective.other (he : s.Effective document) {backend : CatalogBackend} {progress : Progress}
    (hjob : s.jobs.find? id = some job) (hdocument : job.input.document ≠ document)
    (hdocuments : backend.documents.find? document = s.backend.documents.find? document)
    (hlatest : backend.latestRevisions.find? document = s.backend.latestRevisions.find? document) :
    { s with backend := backend, executing := s.executing.insert id progress }.Effective
      document := by
  refine he.frame (fun _ _ _ => Iff.rfl) ?_ rfl hdocuments hlatest
  intro i x hx hxdocument
  have hi : i ≠ id := fun hi => by
    subst hi
    cases hjob.symm.trans hx
    exact hdocument hxdocument
  simp [hi]

lemma Effective.activated (h : s.Serial) (he : ∀ document, s.Effective document)
    {prepared : PreparedDocument} {around : Surroundings} {backend : CatalogBackend}
    (hjob : s.jobs.find? id = some job) (hid : s.executing.find? id = some (.activating prepared))
    (hopen : terminal job.status = false)
    (hok : s.backend.activate prepared job.revision around.built = (.ok (),backend))
    (document : Bytes) :
    { s with backend := backend
             executing := s.executing.insert id (.activated prepared) }.Effective document := by
  obtain ⟨x,hx,hprepares⟩ := h.wf.executing id _ hid
  cases hjob.symm.trans hx
  have hactivated := s.backend.activate_activated prepared job.revision around.built
  rw [hok] at hactivated
  cases hactivated with
  | already hvalid halready =>
    -- The job would have applied its effect before.
    obtain ⟨hlatest,-⟩ := CatalogBackend.alreadyActive_eq_true.mp halready
    rw [hprepares.key] at hlatest
    obtain ⟨i,y,hy,hdocument,hrev,hstands,-⟩ := (he _).effect _ hlatest
    obtain rfl := h.distinct i id y job hy hjob hdocument hrev
    cases hjob.symm.trans hy
    obtain ⟨progress,hprogress,happlied⟩ := hstands.applied hopen
    cases hid.symm.trans hprogress
    exact happlied.elim
  | published hvalid hrevision hfresh =>
    rw [hprepares.key] at hfresh ⊢
    by_cases hdocument : job.input.document = document
    · subst hdocument
      refine ⟨?_,?_,?_,?_⟩
      · intro hnone
        simp [CatalogBackend.publish] at hnone
      · intro revision hlatest
        simp only [CatalogBackend.publish,OrdMap.find?_insert,if_true,Option.some.injEq] at hlatest
        refine ⟨id,job,hjob,rfl,hlatest,
          Or.inr (Or.inl ⟨hopen,.activated prepared,by simp,trivial⟩),?_⟩
        unfold Holds
        rw [hprepares.operation]
        refine ⟨prepared,by simp [CatalogBackend.publish],fun hready => ?_,fun p hp _ _ => ?_⟩
        · rw [ready_terminal hready] at hopen
          cases hopen
        · simp only [OrdMap.find?_insert,if_true,Option.some.injEq] at hp
          exact hp.symm
      · intro i p y hp happlied hy hdocument hyopen
        cases h.open_unique hjob hopen hy hyopen hdocument
        cases hjob.symm.trans hy
        simp [CatalogBackend.publish]
      · intro i y hy hdocument hready
        obtain ⟨revision,hlatest,hle⟩ := (he _).ready i y hy hdocument hready
        have hlt := CatalogBackend.stale_eq_false.mp hfresh revision hlatest
        exact ⟨job.revision,by simp [CatalogBackend.publish],by omega⟩
    · apply (he document).other hjob hdocument
      · simp [CatalogBackend.publish,Ne.symm hdocument]
      · simp [CatalogBackend.publish,Ne.symm hdocument]

lemma Effective.erased (h : s.Serial) (he : ∀ document, s.Effective document)
    {around : Surroundings} {applied : Bool} {backend : CatalogBackend}
    (hjob : s.jobs.find? id = some job) (hid : s.executing.find? id = some .erasing)
    (hok : s.backend.erase job.input.document job.revision around.built = (.ok applied,backend))
    (hbusy : terminal job.status = true → around.built = .ok () →
      s.backend.stale job.input.document job.revision = false →
      s.busy job.input.document = true) (document : Bytes) :
    { s with backend := backend
             executing := s.executing.insert id (.erased applied) }.Effective document := by
  obtain ⟨x,hx,hoperation⟩ := h.wf.executing id _ hid
  cases hjob.symm.trans hx
  have herase : job.operation = .erase := hoperation
  have herased := s.backend.erase_erased job.input.document job.revision around.built
  rw [hok] at herased
  cases herased with
  | already hlatest hgone =>
    by_cases hdocument : job.input.document = document
    · subst hdocument
      refine ⟨(he _).absent,?_,?_,(he _).ready⟩
      · intro revision hrevision
        obtain ⟨i,y,hy,hydocument,hrev,hstands,-⟩ := (he _).effect revision hrevision
        cases hlatest.symm.trans hrevision
        obtain rfl := h.distinct i id y job hy hjob hydocument hrev
        cases hjob.symm.trans hy
        refine ⟨i,job,hjob,rfl,rfl,?_,?_⟩
        · obtain hready | ⟨hopen,-⟩ | hsuperseded := hstands
          · exact Or.inl hready
          · exact Or.inr (Or.inl ⟨hopen,.erased false,by simp,trivial⟩)
          · exact Or.inr (Or.inr hsuperseded)
        · unfold Holds
          rw [herase]
          exact hgone
      · intro i p y hp happlied hy hydocument hopen
        by_cases hi : i = id
        · subst hi
          cases hjob.symm.trans hy
          exact hlatest
        · simp only [OrdMap.find?_insert,if_neg hi] at hp
          exact (he _).applied i p y hp happlied hy hydocument hopen
    · exact (he document).other hjob hdocument rfl rfl
  | published hne hrevision hfresh =>
    have hbuilt := CatalogBackend.built_of_erase hok hfresh
    have hlower := CatalogBackend.stale_eq_false.mp hfresh
    by_cases hdocument : job.input.document = document
    · subst hdocument
      refine ⟨?_,?_,?_,?_⟩
      · intro hnone
        simp [CatalogBackend.publish] at hnone
      · intro revision hlatest
        simp only [CatalogBackend.publish,OrdMap.find?_insert,if_true,Option.some.injEq] at hlatest
        refine ⟨id,job,hjob,rfl,hlatest,?_,?_⟩
        · cases hclosed : terminal job.status with
          | false =>
            exact Or.inr (Or.inl ⟨hclosed,.erased (s.backend.documents.contains job.input.document),
              by simp,trivial⟩)
          | true =>
            by_cases hready : job.status = .ready
            · exact Or.inl hready
            · exact Or.inr (Or.inr ⟨hclosed,hready,hbusy hclosed hbuilt hfresh⟩)
        · unfold Holds
          rw [herase]
          simp [CatalogBackend.publish]
      · intro i p y hp happlied hy hydocument hopen
        by_cases hi : i = id
        · subst hi
          cases hjob.symm.trans hy
          simp [CatalogBackend.publish]
        · -- Another open job of the document that has its effect would be the later one.
          simp only [OrdMap.find?_insert,if_neg hi] at hp
          have hlt := hlower _ ((he _).applied i p y hp happlied hy hydocument hopen)
          have hcurrent := h.isCurrent hy hopen
          have hle := h.wf.bounded id job hjob
          unfold Current at hcurrent
          rw [hydocument] at hcurrent
          omega
      · intro i y hy hydocument hready
        obtain ⟨revision,hlatest,hle⟩ := (he _).ready i y hy hydocument hready
        have hlt := hlower revision hlatest
        exact ⟨job.revision,by simp [CatalogBackend.publish],by omega⟩
    · apply (he document).other hjob hdocument
      · simp [CatalogBackend.publish,Ne.symm hdocument]
      · simp [CatalogBackend.publish,Ne.symm hdocument]

/-- A new job of the document, and its predecessor superseded. -/
lemma Effective.accept (he : s.Effective document) (hm : m.Serial)
    (hbackend : m.backend = s.backend)
    (hexecuting : m.executing = s.executing) (hjob : m.jobs.find? id = some job)
    (hdocument : job.input.document = document) (hopen : terminal job.status = false)
    (hidle : s.executing.find? id = none)
    (hkept : ∀ i x, s.jobs.find? i = some x → x.input.document = document →
      m.jobs.find? i = some x ∨
        terminal x.status = false ∧ ∃ now, m.jobs.find? i = some (x.supersede now))
    (hnew : ∀ i x, m.jobs.find? i = some x → x.input.document = document →
      i = id ∨ s.jobs.find? i = some x ∨ x.status = .superseded) : m.Effective document := by
  have hbusy : m.busy document = true := hdocument ▸ hm.busy_of_open hjob hopen
  refine ⟨?_,?_,?_,?_⟩
  · rw [hbackend]
    exact he.absent
  · intro revision hrevision
    rw [hbackend] at hrevision
    obtain ⟨i,x,hx,hxdocument,hrev,hstands,hholds⟩ := he.effect revision hrevision
    obtain hmx | ⟨hxopen,now,hmx⟩ := hkept i x hx hxdocument
    · refine ⟨i,x,hmx,hxdocument,hrev,?_,?_⟩
      · unfold Stands at hstands ⊢
        rw [hexecuting,hxdocument,hbusy]
        obtain hready | happlied | ⟨hclosed,hnot,-⟩ := hstands
        · exact Or.inl hready
        · exact Or.inr (Or.inl happlied)
        · exact Or.inr (Or.inr ⟨hclosed,hnot,rfl⟩)
      · unfold Holds at hholds ⊢
        rw [hbackend,hexecuting]
        exact hholds
    · have hsame := x.supersede_same now
      refine ⟨i,x.supersede now,hmx,hxdocument,hrev,
        Or.inr (Or.inr ⟨rfl,JobStatus.noConfusion,hxdocument.symm ▸ hbusy⟩),?_⟩
      have hheld := hholds.of_same hsame hxopen JobStatus.noConfusion
      unfold Holds at hheld ⊢
      rw [hbackend,hexecuting]
      exact hheld
  · intro i p x hp happlied hx hxdocument hxopen
    rw [hexecuting] at hp
    rw [hbackend]
    obtain rfl | hold | hsuperseded := hnew i x hx hxdocument
    · rw [hidle] at hp
      cases hp
    · exact he.applied i p x hp happlied hold hxdocument hxopen
    · rw [hsuperseded] at hxopen
      cases hxopen
  · intro i x hx hxdocument hready
    rw [hbackend]
    obtain rfl | hold | hsuperseded := hnew i x hx hxdocument
    · cases hjob.symm.trans hx
      rw [ready_terminal hready] at hopen
      cases hopen
    · exact he.ready i x hold hxdocument hready
    · rw [hsuperseded] at hready
      cases hready

/-- What an orderly event leaves the documents with. -/
theorem Effective.event (h : s.Serial) (he : ∀ document, s.Effective document)
    (hevent : s.Event a m) (hsynced : a.Synced) (horderly : s.orderly a = true)
    (document : Bytes) : m.Effective document := by
  have hm := h.event hevent hsynced
  cases hevent with
  | quiet => exact he document
  | recorded id around ha job next hjob hopen hrecorded bytes =>
    have hrecord := h.record (h.wf.record hjob hrecorded.same hrecorded.sound) hjob hrecorded.same
      fun _ => hopen
    refine (Effective.record h he hrecord hjob hopen hrecorded ?_ document).withStore _
    intro hfailed
    obtain ⟨e,hid⟩ := hrecorded.failed hfailed
    rw [hrecorded.same.id,h.wf.keyed id job hjob] at hid
    simpa [ha,orderly,hjob,hid,hopen] using horderly
  | spilled extra hextra hlost bytes => exact absurd hsynced hlost
  | failedVolatile id e hid job next hjob hopen hsame hsound hstatus =>
    exact absurd hid (h.written id e)
  | activated id around ha job prepared hjob hid hopen hcurrent backend hactivated =>
    exact Effective.activated h he hjob hid hopen hactivated document
  | erased id around ha job applied hjob hid backend herased =>
    refine Effective.erased h he hjob hid herased ?_ document
    intro hclosed hbuilt hfresh
    simpa [ha,orderly,hjob,hid,hclosed,hbuilt,hfresh] using horderly
  | accepted job hcreated hsound hfresh hopen bytes =>
    have hother : ∀ {i x}, s.jobs.find? i = some x →
        (s.jobs.insert job.id job).find? i = some x := by
      intro i x hx
      have hne : i ≠ job.id := fun hi => by
        rw [hi,hfresh.1] at hx
        cases hx
      simpa [hne] using hx
    by_cases hdocument : job.input.document = document
    · refine (he document).accept hm rfl rfl (by simp [enlist]) hdocument
        (by rw [created_status hcreated]; rfl) (h.wf.idle_of_fresh hfresh.1) ?_ ?_
      · intro i x hx _
        exact Or.inl (hother hx)
      · intro i x hx _
        simp only [enlist,OrdMap.find?_insert] at hx
        split_ifs at hx with hi
        · exact Or.inl hi
        · exact Or.inr (Or.inl hx)
    · have hjobs : ∀ i x, x.input.document = document →
          ((s.jobs.insert job.id job).find? i = some x ↔ s.jobs.find? i = some x) := by
        intro i x hx
        refine ⟨fun hi => ?_,hother⟩
        rw [OrdMap.find?_insert] at hi
        split_ifs at hi
        · cases hi
          exact absurd hx hdocument
        · exact hi
      refine (he document).frame hjobs (fun _ _ _ _ => rfl) (busy_congr h.wf hm.wf ?_ hjobs) rfl rfl
      simp [enlist,Ne.symm hdocument]
  | replaced job older later hcreated hsound hfresh holder hopen bytes =>
    obtain ⟨-,hfound,holderDocument,-⟩ := latestOf_spec h.wf holder
    have hkey : (older.supersede later).id = older.id := rfl
    have hnot : ∀ {i x}, s.jobs.find? i = some x → i ≠ job.id := fun hx hi => by
      rw [hi,hfresh.1] at hx
      cases hx
    by_cases hdocument : job.input.document = document
    · refine (he document).accept hm rfl rfl (by simp [enlist]) hdocument
        (by rw [created_status hcreated]; rfl) (h.wf.idle_of_fresh hfresh.1) ?_ ?_
      · intro i x hx _
        by_cases hi : i = older.id
        · subst hi
          cases hfound.symm.trans hx
          exact Or.inr ⟨hopen,later,by simp [enlist,setJob,hkey,hnot hx]⟩
        · exact Or.inl (by simpa [enlist,setJob,hkey,hnot hx,hi] using hx)
      · intro i x hx _
        simp only [enlist,setJob,OrdMap.find?_insert,hkey] at hx
        split_ifs at hx with hi hi'
        · exact Or.inl hi
        · cases hx
          exact Or.inr (Or.inr rfl)
        · exact Or.inr (Or.inl hx)
    · have hjobs : ∀ i x, x.input.document = document →
          (((s.jobs.insert older.id (older.supersede later)).insert job.id job).find? i = some x ↔
            s.jobs.find? i = some x) := by
        intro i x hx
        have hne : ∀ y, s.jobs.find? i = some y → y.input.document = document → i ≠ older.id := by
          intro y hy hyd hi
          subst hi
          cases hfound.symm.trans hy
          exact hdocument (holderDocument.symm.trans hyd)
        constructor
        · intro hi
          simp only [OrdMap.find?_insert] at hi
          split_ifs at hi
          · cases hi
            exact absurd hx hdocument
          · cases hi
            exact absurd (holderDocument.symm.trans hx) hdocument
          · exact hi
        · intro hi
          simpa [hnot hi,hne x hi hx] using hi
      refine (he document).frame hjobs (fun _ _ _ _ => rfl) (busy_congr h.wf hm.wf ?_ hjobs) rfl rfl
      simp [enlist,setJob,Ne.symm hdocument]
  | compacted =>
    exact (he document).frame (fun _ _ _ => Iff.rfl) (fun _ _ _ _ => rfl) rfl rfl rfl

lemma Effective.moved (he : m.Effective document) (hmoved : Moved m t) (hkept : Kept m t) :
    t.Effective document := by
  have hold : ∀ id progress, t.executing.find? id = some progress → progress.Applied →
      m.executing.find? id = some progress := by
    intro id progress hid happlied
    obtain hm | ⟨hnot,-⟩ := hmoved.executing id progress hid
    · exact hm
    · exact absurd happlied hnot
  have hkeep := hkept.applied
  rw [hmoved.eq]
  refine ⟨he.absent,?_,?_,he.ready⟩
  · intro revision hrevision
    obtain ⟨id,job,hjob,hdocument,hrev,hstands,hholds⟩ := he.effect revision hrevision
    refine ⟨id,job,hjob,hdocument,hrev,?_,?_⟩
    · obtain hready | ⟨hopen,progress,hprogress,happlied⟩ | hsuperseded := hstands
      · exact Or.inl hready
      · exact Or.inr (Or.inl ⟨hopen,progress,hkeep id progress job hprogress happlied hjob hopen,
          happlied⟩)
      · exact Or.inr (Or.inr hsuperseded)
    · unfold Holds at hholds ⊢
      cases hop : job.operation with
      | upsert =>
        rw [hop] at hholds
        obtain ⟨prepared,hactive,hready,hprogress⟩ := hholds
        exact ⟨prepared,hactive,hready,fun p hp ha => hprogress p (hold id p hp ha) ha⟩
      | erase =>
        rw [hop] at hholds
        exact hholds
  · intro id progress job hid happlied
    exact he.applied id progress job (hold id progress hid happlied) happlied

lemma effective_start (document : Bytes) : (start .empty).Effective document := by
  refine ⟨fun _ => rfl,?_,?_,?_⟩
  · intro revision h
    cases h
  · intro id progress job h
    cases h
  · intro id job h
    cases h

lemma serial_start (backend : CatalogBackend) : (start backend).Serial := by
  refine ⟨wf_start backend,?_,?_,?_⟩
  · intro id e h
    cases h
  · intro i j x y h
    cases h
  · intro id job h
    cases h

/-- Without an open job the backend agrees with the ready jobs. -/
lemma Effective.agreesOn (h : s.Serial) (he : s.Effective document) (hquiet : s.Quiescent) :
    s.AgreesOn document := by
  -- The job whose effect the backend has is ready, and no ready job has a greater revision.
  have hnewest : ∀ revision, s.backend.latestRevisions.find? document = some revision →
      ∃ id job, s.NewestReady job ∧ s.jobs.find? id = some job ∧ job.input.document = document ∧
        job.revision = revision ∧ s.Holds id job := by
    intro revision hrevision
    obtain ⟨id,job,hjob,hdocument,hrev,hstands,hholds⟩ := he.effect revision hrevision
    have hready : job.status = .ready := by
      obtain hready | ⟨hopen,-⟩ | ⟨-,-,hbusy⟩ := hstands
      · exact hready
      · rw [hquiet id job hjob] at hopen
        cases hopen
      · obtain ⟨i,x,-,hx,hopen⟩ := (busy_eq_true h.wf).mp hbusy
        rw [hquiet i x hx] at hopen
        cases hopen
    refine ⟨id,job,⟨⟨id,hjob⟩,hready,?_⟩,hjob,hdocument,hrev,hholds⟩
    intro i x hx hxdocument hxready
    obtain ⟨r,hr,hle⟩ := he.ready i x hx (hxdocument.trans hdocument) hxready
    cases hrevision.symm.trans hr
    exact hle.trans hrev.ge
  have hholds : ∀ job, s.NewestReady job → job.input.document = document → ∃ id,
      s.jobs.find? id = some job ∧ s.Holds id job := by
    intro job hjob hdocument
    obtain ⟨⟨i,hi⟩,hready,hmax⟩ := hjob
    obtain ⟨r,hr,hle⟩ := he.ready i job hi hdocument hready
    obtain ⟨id,other,hother,hid,hod,hrev,hheld⟩ := hnewest r hr
    have hge := hmax id other hid (hod.trans hdocument.symm) hother.2.1
    obtain rfl := h.distinct i id job other hi hid (hdocument.trans hod.symm) (by omega)
    cases hi.symm.trans hid
    exact ⟨i,hi,hheld⟩
  refine ⟨?_,?_,?_,?_⟩
  · intro job hjob hdocument hop
    obtain ⟨id,hid,hheld⟩ := hholds job hjob hdocument
    unfold Holds at hheld
    rw [hop,hdocument] at hheld
    obtain ⟨prepared,hactive,hprepared,-⟩ := hheld
    obtain ⟨p,hp,-,hprepares⟩ := (h.wf.jobs id job hid).prepared hjob.2.1 hop
    cases hp.symm.trans (hprepared hjob.2.1)
    exact ⟨prepared,hp,hprepares.contentHash,hactive⟩
  · intro job hjob hdocument hop
    obtain ⟨id,-,hheld⟩ := hholds job hjob hdocument
    unfold Holds at hheld
    rwa [hop,hdocument] at hheld
  · intro hnone
    cases hlatest : s.backend.latestRevisions.find? document with
    | none => exact he.absent hlatest
    | some revision =>
      obtain ⟨id,job,hjob,hid,hdocument,-⟩ := hnewest revision hlatest
      exact absurd hjob.2.1 (hnone id job hid hdocument)
  · intro revision hrevision
    obtain ⟨id,job,hjob,-,hdocument,hrev,-⟩ := hnewest revision hrevision
    exact ⟨job,hjob,hdocument,hrev⟩

/-- After every run of acknowledged writes and orderly steps from an empty backend, the backend
agrees with the jobs whenever none is open. -/
theorem agreesOn_of_run (cfg : CoordinatorConfig) {actions : List Action}
    (hmeets : Machine.Meets (step cfg) (fun s a => a.Synced ∧ s.orderly a = true)
      (start .empty) actions)
    (hrun : Machine.run (step cfg) (start .empty) actions = some t) (hquiet : t.Quiescent)
    (document : Bytes) : t.AgreesOn document := by
  have hinv : t.Serial ∧ ∀ document, t.Effective document := by
    apply Machine.run_invariant (C := fun s a => a.Synced ∧ s.orderly a = true)
      (I := fun s => s.Serial ∧ ∀ document, s.Effective document) ?_
      ⟨serial_start _,effective_start⟩ hmeets hrun
    intro s a u hs hc hstep
    obtain ⟨m,hevent,hmoved,hkept⟩ := step_stepped hs.1.wf hstep
    exact ⟨(hs.1.event hevent hc.1).moved hmoved (hkept hc.1),fun document =>
      (Effective.event hs.1 hs.2 hevent hc.1 hc.2 document).moved hmoved (hkept hc.1)⟩
  exact (hinv.2 document).agreesOn hinv.1 hquiet

end

section
open Machine

/-- Lines of one document, no embedder. -/
def plainConfig : CoordinatorConfig := ⟨{},1,none,id,4,fun _ => 1⟩

def letter (document content : Char) : IngestionInput := ⟨ascii [document],[],ascii [content],∅⟩

def clerk (id : Char) : Clerk := ⟨ascii [id],0,0,.synced,.synced⟩

def calm : Surroundings := ⟨0,.synced,none,fun _ => .ok [],.ok ()⟩

def executed (id : Char) (n : ℕ) : List Action := List.replicate n (.execute (ascii [id]) calm)

def after (actions : List Action) : Coordinator :=
  (run (step plainConfig) (start .empty) actions).getD (start .empty)

/-- A document is submitted and erased. -/
def submittedAndErased : List Action :=
  .submit (letter 'd' 'a') false (clerk '1')::executed '1' 8 ++
    .erase (ascii ['d']) (clerk '2')::executed '2' 4

theorem submittedAndErased_agreesOn :
    (after submittedAndErased).AgreesOn (ascii ['d']) := by
  have hquiet : ∀ job ∈ (after submittedAndErased).jobs.values, terminal job.status = true := by
    decide +kernel
  exact agreesOn_of_run plainConfig (by decide +kernel)
    (run_of_isSome (start .empty) (by decide +kernel))
    (fun id job hjob => hquiet job (OrdMap.mem_values.mpr ⟨id,hjob⟩)) (ascii ['d'])

/-- An embedder behind a transport. -/
def remoteConfig : CoordinatorConfig :=
  { plainConfig with embedder := some ⟨1,ascii ['m'],fun _ => .ok []⟩ }

def answering : Surroundings := { calm with embed := fun texts => .ok (texts.map fun _ => [1]) }

def unreachable : Surroundings :=
  { calm with embed := fun _ => .error ⟨.transportError,"connection refused"⟩ }

/-- The second submission supersedes the first one, which is active already, and fails. -/
def overtakenAndFailed : List Action :=
  Action.submit (letter 'd' 'a') false (clerk '1')::
      List.replicate 7 (Action.execute (ascii ['1']) answering) ++
    Action.submit (letter 'd' 'b') false (clerk '2')::executed '1' 1 ++ executed '2' 4 ++
    List.replicate 2 (Action.execute (ascii ['2']) unreachable)

def afterFailure : Coordinator :=
  (run (step remoteConfig) (start .empty) overtakenAndFailed).getD (start .empty)

theorem superseded_content_stays_active :
    ¬ ∀ (cfg : CoordinatorConfig) (actions : List Action) (t : Coordinator),
      (∀ a ∈ actions, a.Synced) → run (step cfg) (start .empty) actions = some t →
        t.Quiescent → ∀ document, t.AgreesOn document := by
  intro h
  have hquiet : ∀ job ∈ afterFailure.jobs.values, terminal job.status = true ∧
      job.status ≠ .ready := by
    decide +kernel
  have hagrees := h remoteConfig overtakenAndFailed afterFailure (by decide +kernel)
    (run_of_isSome (start .empty) (by decide +kernel))
    (fun id job hjob => (hquiet job (OrdMap.mem_values.mpr ⟨id,hjob⟩)).1) (ascii ['d'])
  have hactive : afterFailure.backend.documents.find? (ascii ['d']) ≠ none := by
    decide +kernel
  exact hactive (hagrees.none fun id job hjob _ =>
    (hquiet job (OrdMap.mem_values.mpr ⟨id,hjob⟩)).2)

end

end Coordinator
end RagRuntime.Ingestion
