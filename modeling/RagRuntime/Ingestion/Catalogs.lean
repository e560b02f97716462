import RagRuntime.Ingestion.Chronicle
import RagRuntime.Ingestion.Replaying

/-! The catalogs in a run: the active one, those that are on their way to the checkpoint file, and
the one in it. -/
namespace RagRuntime.Ingestion
open RagRuntime.Base RagRuntime.Core RagRuntime.Backend

/-- The file is a snapshot of this catalog, or there is none and the catalog is empty. -/
def SnapshotOf (checkpoint : Option EmbeddedCheckpoint) (b : CatalogBackend) : Prop :=
  checkpoint = none ∧ b = CatalogBackend.empty ∨
    ∃ position, checkpoint = some (b.snapshot position)

/-- A coherent catalog is opened again as it was. -/
lemma SnapshotOf.openBackend {checkpoint : Option EmbeddedCheckpoint} {b : CatalogBackend}
    (h : SnapshotOf checkpoint b) (hb : b.Coherent) :
    Process.openBackend checkpoint (.ok ()) = .ok b := by
  obtain ⟨rfl,rfl⟩ | ⟨position,rfl⟩ := h
  · rfl
  · exact hb.restore_snapshot position (.ok ())

/-- Openings differ in whether the index can be built. -/
lemma SnapshotOf.opened {checkpoint : Option EmbeddedCheckpoint} {b backend : CatalogBackend}
    (h : SnapshotOf checkpoint b) (hb : b.Coherent) {restored : Result Unit}
    (hopen : Process.openBackend checkpoint restored = .ok backend) : backend = b := by
  obtain ⟨rfl,rfl⟩ | ⟨position,rfl⟩ := h
  · cases hopen
    rfl
  · change CatalogBackend.restore _ _ = _ at hopen
    rw [hb.restore_snapshot] at hopen
    cases restored with
    | error e => cases hopen
    | ok u =>
      cases hopen
      rfl

namespace Coordinator
variable {cfg : CoordinatorConfig} {s t : Coordinator} {a : Action}

/-- A step of the coordinator keeps the catalog coherent, and only adds to it. -/
lemma step_backend (h : s.Wf) (hb : s.backend.Coherent) (hstep : s.step cfg a = some t) :
    t.backend.Coherent ∧ s.backend.view.Older t.backend.view := by
  obtain ⟨m,hevent,hmoved,-⟩ := step_stepped h hstep
  have hsame : t.backend = m.backend := by rw [hmoved.eq]
  rw [hsame]
  have hkept : s.backend.Coherent ∧ s.backend.view.Older s.backend.view :=
    ⟨hb,Versioned.Older.refl _⟩
  cases hevent with
  | quiet => exact hkept
  | recorded => exact hkept
  | spilled => exact hkept
  | failedVolatile => exact hkept
  | activated id around ha job prepared hjob hid hopen hcurrent backend hactivate =>
    have hwritten := (hb.activate hactivate).2
    exact ⟨hwritten.coherent,hwritten.older⟩
  | erased id around ha job applied hjob hid backend herase =>
    have hwritten := hb.erase herase
    exact ⟨hwritten.coherent,hwritten.older⟩
  | accepted => exact hkept
  | replaced => exact hkept
  | compacted => exact ⟨hb.compact,Versioned.Older.refl _⟩

end Coordinator

namespace EmbeddedRuntime

/-- The catalogs of a running process are coherent. -/
structure Coherent (r : EmbeddedRuntime) : Prop where
  file : ∃ b : CatalogBackend, b.Coherent ∧ SnapshotOf r.checkpoint b
  backend : r.coordinator.backend.Coherent
  captured : ∀ thread position b, r.checkpointing.find? thread = some (.captured position b) →
    CatalogBackend.Coherent b

lemma Coherent.checkpoint {r : EmbeddedRuntime} (h : r.Coherent) (cfg : EmbeddedRuntimeConfig)
    (thread : ℕ) (io : Result Unit) : (r.checkpointEmbedded cfg thread io).Coherent := by
  have hset : ∀ (q : EmbeddedRuntime) (place : Checkpointing), q.Coherent →
      (∀ position b, place = .captured position b → CatalogBackend.Coherent b) →
        (q.setCheckpointing thread place).Coherent := by
    intro q place hq hplace
    refine ⟨hq.file,hq.backend,fun other position b hb => ?_⟩
    simp only [setCheckpointing,OrdMap.find?_insert] at hb
    split_ifs at hb
    · cases hb
      exact hplace position b rfl
    · exact hq.captured other position b hb
  have hend : ∀ q : EmbeddedRuntime, q.Coherent → (q.endCheckpointing thread).Coherent := by
    intro q hq
    refine ⟨hq.file,hq.backend,fun other position b hb => ?_⟩
    simp only [endCheckpointing,OrdMap.find?_erase] at hb
    split_ifs at hb
    exact hq.captured other position b hb
  unfold checkpointEmbedded
  cases hplace : r.checkpointing.find? thread with
  | none => exact hset r _ h fun _ _ heq => by cases heq
  | some place =>
    cases place with
    | positioned position =>
      refine hset r _ h fun _ _ heq => ?_
      cases heq
      exact h.backend
    | captured position backend =>
      cases io with
      | error e => exact hend r h
      | ok u =>
        refine hset _ _ ?_ fun _ _ heq => by cases heq
        exact ⟨⟨backend,h.captured thread position backend hplace,Or.inr ⟨position,rfl⟩⟩,h.backend,
          h.captured⟩
    | saved position =>
      cases io with
      | error e => exact hend r h
      | ok u =>
        cases htruncate : r.coordinator.store.truncatePrefix cfg.coordinator.frameSize position
          cfg.jobRetention with
        | error e => simpa only [htruncate] using hend r h
        | ok store =>
          simp only [htruncate]
          exact hend _ ⟨h.file,h.backend,h.captured⟩

end EmbeddedRuntime

namespace Process

/-- The catalogs of a process, running or not. -/
def Coherent : Process → Prop
  | .stopped disk => ∃ b : CatalogBackend, b.Coherent ∧ SnapshotOf disk.checkpoint b
  | .running r => r.Coherent

lemma coherent_reopen {cfg : EmbeddedRuntimeConfig} {disk : Disk} {around : Opening}
    (h : (stopped disk).Coherent) (hsound : ∀ x ∈ disk.frames, x.Sound)
    (horder : around.order.Perm (latestJobs disk.frames).keys) :
    (reopen cfg disk around).Coherent := by
  obtain ⟨b,hb,hsnapshot⟩ := h
  obtain ⟨backend,c,store,t,hopen,-,hreplay,hresumed,hrunning⟩ | ⟨extra,hstopped,-⟩ :=
    reopen_cases cfg hsound horder
  · rw [hrunning]
    cases hsnapshot.opened hb hopen
    have hreplays := replayAll_replays (Coordinator.replayed_replayable hsound horder) hb hreplay
    refine ⟨⟨b,hb,hsnapshot⟩,?_,fun thread position b hb => by cases hb⟩
    change t.backend.Coherent
    rw [hresumed.backend]
    exact hreplays.coherent
  · rw [hstopped]
    exact ⟨b,hb,hsnapshot⟩

end Process

namespace Chronicle
variable {cfg : EmbeddedRuntimeConfig} {c d : Chronicle}

lemma coherent_step (h : c.Holds) (hc : c.process.Coherent) {action : Process.Action}
    (hstep : c.step cfg action = some d) : d.process.Coherent := by
  obtain ⟨process,written⟩ := c
  unfold Chronicle.step at hstep
  split_ifs at hstep with hunused
  obtain ⟨p,hp,rfl⟩ := Option.map_eq_some_iff.mp hstep
  cases process with
  | stopped disk =>
    cases action with
    | reopen around =>
      simp only [Process.step] at hp
      split_ifs at hp with horder
      cases hp
      exact Process.coherent_reopen hc h.sound horder
    | coordinate action => cases hp
    | checkpoint thread io => cases hp
    | stop => cases hp
  | running r =>
    cases action with
    | reopen around => cases hp
    | coordinate action =>
      obtain ⟨s,hs,rfl⟩ := Option.map_eq_some_iff.mp hp
      exact ⟨hc.file,(Coordinator.step_backend (h.running r rfl).1 hc.backend hs).1,hc.captured⟩
    | checkpoint thread io =>
      cases hp
      exact EmbeddedRuntime.Coherent.checkpoint hc cfg thread io
    | stop =>
      cases hp
      exact hc.file

/-- In every run all catalogs are coherent. -/
theorem coherent_run {history : List Process.Action}
    (h : Machine.run (Chronicle.step cfg) Chronicle.start history = some c) :
    c.Holds ∧ c.process.Coherent := by
  have hstep : ∀ (c : Chronicle) (action : Process.Action) (d : Chronicle),
      c.Holds ∧ c.process.Coherent → c.step cfg action = some d → d.Holds ∧ d.process.Coherent :=
    fun c action d hc hstep => ⟨hc.1.step hstep,coherent_step hc.1 hc.2 hstep⟩
  have hstart : start.Holds ∧ start.process.Coherent :=
    ⟨holds_start,_,CatalogBackend.coherent_empty,Or.inl ⟨rfl,rfl⟩⟩
  exact Machine.run_invariant' hstep hstart h

end Chronicle
end RagRuntime.Ingestion
