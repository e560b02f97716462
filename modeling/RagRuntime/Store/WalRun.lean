import RagRuntime.Base.Machine
import RagRuntime.Store.WalReplay

/-! The write-ahead log over runs of appends, failed writes, crashes and reopens. -/
namespace RagRuntime.Store
open RagRuntime.Base RagRuntime.Core

/-- What happens to one log file. A crash cuts the append under way after `n` bytes of its
frame and ends the process; `kill` ends it between two calls. -/
inductive WalEvent where
  | openAt
  | close
  | replay
  | append (rec : WalRecord) (outcome : WriteOutcome)
  | crash (rec : WalRecord) (n : ℕ)
  | kill
  deriving DecidableEq

/-- A log under a run. `written` lists the records of the appends that returned success, and of
those whose frame became whole in the file all the same, each with whether its append was
acknowledged; `appends` counts the calls. -/
structure WalRun where
  wal : Wal
  written : List (WalRecord × Bool)
  appends : ℕ
  deriving DecidableEq

namespace WalRun

def start : WalRun := ⟨Wal.empty,[],0⟩

/-- The record of an append, if the append returned success, or if it failed and its whole frame
is what it added to the file. -/
def landed (before : Wal) (called : Result Unit × Wal) (rec : WalRecord) :
    List (WalRecord × Bool) :=
  if called.1.isOk then [(rec,true)]
  else if called.2.content = before.content ++ Wal.recordFrame rec then [(rec,false)]
  else []

def appended (s : WalRun) (rec : WalRecord) (outcome : WriteOutcome) : WalRun :=
  let called := s.wal.append rec outcome
  ⟨called.2,s.written ++ landed s.wal called rec,s.appends+1⟩

def step (s : WalRun) : WalEvent → Option WalRun
  | .openAt => some { s with wal := s.wal.openAt }
  | .close => some { s with wal := s.wal.close }
  | .replay => some s
  | .append rec outcome => some (s.appended rec outcome)
  | .crash rec n =>
    let cut := s.appended rec (.cut n "")
    some { cut with wal := cut.wal.close }
  | .kill => some { s with wal := s.wal.close }

/-- Replay succeeds with the acknowledged records in order, and beyond them only records of
whole frames. -/
def Delivers (s : WalRun) : Prop :=
  ∃ recs, Wal.replay s.wal.file = .ok recs ∧
    ((s.written.filter Prod.snd).map Prod.fst).Sublist recs ∧
      recs.Sublist (s.written.map Prod.fst)

/-- The file consists of whole frames. -/
def AtBoundary (s : WalRun) : Prop :=
  ∃ payloads : List Bytes, (∀ p ∈ payloads, p.length ≤ kMaxWalRecordBytes) ∧
    s.wal.content = frames kRecordMagic payloads

/-- An append call on an open log finds no torn frame before it and carries no more
metadata than a record may hold. -/
def CleanAppend (s : WalRun) : WalEvent → Prop
  | .append rec _ | .crash rec _ =>
    s.wal.isOpen = true → s.AtBoundary ∧ rec.metadata.size ≤ kMaxMetadataEntries
  | _ => True

/-- The file is the written frames and at most one torn frame, and both are paid for by
append calls. -/
structure Sound (s : WalRun) : Prop where
  loggable : ∀ w ∈ s.written, w.1.Loggable
  file : ∃ t, Cut kRecordMagic t ∧
    s.wal.content = frames kRecordMagic (s.written.map fun w => Wal.encode w.1) ++ t ∧
    s.written.length + (if t = [] then 0 else 1) ≤ s.appends

variable {s t : WalRun}

lemma start_sound : start.Sound := by
  refine ⟨by simp [start],[],cut_nil _,?_,?_⟩
  · rfl
  · simp [start]

lemma Sound.content_eq (h : s.Sound) {w : Wal} (hw : w.content = s.wal.content) :
    ({ s with wal := w } : WalRun).Sound := by
  obtain ⟨t,ht,hc,hn⟩ := h.file
  exact ⟨h.loggable,t,ht,hw.trans hc,hn⟩

@[simp] lemma content_openAt (w : Wal) : w.openAt.content = w.content := rfl
@[simp] lemma content_close (w : Wal) : w.close.content = w.content := rfl

lemma landed_fail (w w' : Wal) (rec : WalRecord) (code : Errc) (detail : String) :
    landed w (fail code detail,w') rec =
      if w'.content = w.content ++ Wal.recordFrame rec then [(rec,false)] else [] := rfl

lemma landed_self (w : Wal) (rec : WalRecord) (code : Errc) (detail : String) :
    landed w (fail code detail,w) rec = [] := by
  have hne : Wal.recordFrame rec ≠ [] := frame_ne_nil _ _
  rw [landed_fail,if_neg]
  simpa using hne

/-- A clean file has no torn frame behind its written ones. -/
lemma Sound.of_boundary (h : s.Sound) (hb : s.AtBoundary) :
    s.wal.content = frames kRecordMagic (s.written.map fun w => Wal.encode w.1) ∧
      s.written.length ≤ s.appends := by
  obtain ⟨t,ht,hc,hn⟩ := h.file
  obtain ⟨ps,hps,hcp⟩ := hb
  have hfit : ∀ p ∈ s.written.map (fun w => Wal.encode w.1), p.length ≤ kMaxWalRecordBytes := by
    intro p hp
    obtain ⟨w,hw,rfl⟩ := List.mem_map.mp hp
    exact (h.loggable w hw).1
  have hsplit := frames_split_unique Wal.kRecordMagic_fits hfit hps ht (cut_nil _)
    (by rw [← hc,hcp,List.append_nil])
  obtain ⟨-,rfl⟩ := hsplit
  exact ⟨by simpa using hc,by simpa using hn⟩

lemma Sound.one_more (h : s.Sound) :
    ({ s with appends := s.appends+1 } : WalRun).Sound := by
  obtain ⟨t,ht,hc,hn⟩ := h.file
  exact ⟨h.loggable,t,ht,hc,hn.trans (Nat.le_succ _)⟩

/-- The file after a whole frame. -/
lemma Sound.grown (h : s.Sound) (hb : s.AtBoundary) {rec : WalRecord} (hrec : rec.Loggable)
    {w : Wal} (a : Bool) (hw : w.content = s.wal.content ++ Wal.recordFrame rec) :
    (⟨w,s.written ++ [(rec,a)],s.appends+1⟩ : WalRun).Sound := by
  obtain ⟨hc,hn⟩ := h.of_boundary hb
  refine ⟨?_,[],cut_nil _,?_,?_⟩
  · intro x hx
    obtain hx | hx := List.mem_append.mp hx
    · exact h.loggable x hx
    · rw [List.mem_singleton.mp hx]
      exact hrec
  · change w.content = _
    rw [hw,hc,List.map_append,frames_append]
    simp [Wal.recordFrame]
  · simpa using hn

/-- The file after a call that failed when it had written `n` bytes of its frame. -/
lemma Sound.failed (h : s.Sound) (hb : s.AtBoundary) {rec : WalRecord} (hrec : rec.Loggable)
    {w : Wal} (code : Errc) (detail : String) (n : ℕ)
    (hw : w.content = s.wal.content ++ (Wal.recordFrame rec).take n) :
    (⟨w,s.written ++ landed s.wal (fail code detail,w) rec,s.appends+1⟩ : WalRun).Sound := by
  by_cases hwhole : (Wal.recordFrame rec).length ≤ n
  · rw [List.take_of_length_le hwhole] at hw
    rw [landed_fail,if_pos hw]
    exact h.grown hb hrec false hw
  · have hlt := not_le.mp hwhole
    have hpartial : w.content ≠ s.wal.content ++ Wal.recordFrame rec := by
      rw [hw]
      intro he
      have hl := congrArg List.length (List.append_cancel_left he)
      rw [List.length_take] at hl
      omega
    rw [landed_fail,if_neg hpartial,List.append_nil]
    obtain ⟨hc,hn⟩ := h.of_boundary hb
    refine ⟨h.loggable,(Wal.recordFrame rec).take n,⟨Wal.encode rec,hrec.1,n,hlt,rfl⟩,?_,?_⟩
    · change w.content = _
      rw [hw,hc]
    · change s.written.length + _ ≤ s.appends + 1
      split_ifs <;> omega

lemma Sound.appended (h : s.Sound) {rec : WalRecord} (outcome : WriteOutcome)
    (hclean : s.wal.isOpen = true → s.AtBoundary ∧ rec.metadata.size ≤ kMaxMetadataEntries) :
    (s.appended rec outcome).Sound := by
  unfold WalRun.appended Wal.append
  split_ifs with hopen hlarge
  · dsimp only
    rw [landed_self,List.append_nil]
    exact h.one_more
  · dsimp only
    rw [landed_self,List.append_nil]
    exact h.one_more
  · obtain ⟨hb,hmeta⟩ := hclean (by simpa using hopen)
    have hrec : rec.Loggable := ⟨by omega,hmeta⟩
    cases outcome with
    | synced => exact h.grown hb hrec true rfl
    | unsynced =>
      exact h.failed hb hrec _ _ (Wal.recordFrame rec).length
        (by rw [List.take_of_length_le le_rfl]; rfl)
    | cut n reason => exact h.failed hb hrec _ _ n rfl

/-- One event keeps the log sound when its append, if it makes one, is clean. -/
lemma step_sound {e : WalEvent} (h : s.Sound) (hc : s.CleanAppend e)
    (hs : s.step e = some t) : t.Sound := by
  cases e with
  | openAt => cases hs; exact h.content_eq (content_openAt _)
  | close => cases hs; exact h.content_eq (content_close _)
  | replay => cases hs; exact h
  | kill => cases hs; exact h.content_eq (content_close _)
  | append rec outcome => cases hs; exact h.appended outcome hc
  | crash rec n => cases hs; exact (h.appended _ hc).content_eq (content_close _)

lemma Sound.delivers (h : s.Sound) (hcount : s.appends ≤ kMaxWalRecords) :
    s.Delivers := by
  obtain ⟨t,ht,hc,hn⟩ := h.file
  refine ⟨s.written.map Prod.fst,?_,List.filter_sublist.map _,List.Sublist.refl _⟩
  have hl : ∀ r ∈ s.written.map Prod.fst, r.Loggable := by
    intro r hr
    obtain ⟨w,hw,rfl⟩ := List.mem_map.mp hr
    exact h.loggable w hw
  have hreplay := Wal.replay_frames hl ht (by rw [List.length_map]; omega)
  rw [List.map_map,show Wal.encode ∘ Prod.fst = fun w : WalRecord × Bool => Wal.encode w.1 from rfl,
    ← hc] at hreplay
  cases hfile : s.wal.file with
  | some blob =>
    rw [show s.wal.content = blob by rw [Wal.content,hfile]; rfl] at hreplay
    exact hreplay
  | none =>
    rw [show s.wal.content = [] by rw [Wal.content,hfile]; rfl] at hreplay
    exact hreplay.symm ▸ rfl

/-- Over appends, failed writes, crashes and reopens in any order, replay delivers the
acknowledged records as long as no append call finds a torn frame at the end of the file. -/
theorem replay_delivers_of_clean_appends {es : List WalEvent}
    (hrun : Machine.run step start es = some s) (hclean : Machine.Meets step CleanAppend start es)
    (hcount : s.appends ≤ kMaxWalRecords) : s.Delivers :=
  (Machine.run_invariant (fun _ _ _ hi hc hs => step_sound hi hc hs) start_sound hclean
    hrun).delivers hcount

def sampleRecord (text : List Char) : WalRecord :=
  ⟨.addDocument,ascii ['u'],[],ascii text,∅,0⟩

/-- One acknowledged append, then a crash in the middle of the next one. -/
def crashedOnce : List WalEvent :=
  [.openAt,.append (sampleRecord ['a']) .synced,.crash (sampleRecord ['b']) 15]

theorem crashedOnce_delivers :
    ∃ s, Machine.run step start crashedOnce = some s ∧ s.Delivers := by
  refine ⟨_,rfl,replay_delivers_of_clean_appends
    (show Machine.run step start crashedOnce = some _ from rfl) ?_ (by decide)⟩
  refine ⟨trivial,fun t ht => ?_⟩
  cases ht
  refine ⟨fun _ => ⟨⟨[],by simp,rfl⟩,by decide⟩,fun t ht => ?_⟩
  cases ht
  refine ⟨fun _ => ⟨⟨[Wal.encode (sampleRecord ['a'])],by decide,by decide +kernel⟩,by decide⟩,
    fun t ht => ?_⟩
  cases ht
  trivial

/-- The same crash, then a reopen and one more acknowledged append. -/
def appendedAfterCrash : List WalEvent :=
  [.openAt,.append (sampleRecord ['a']) .synced,.crash (sampleRecord ['b']) 3,.openAt,
    .append (sampleRecord ['c']) .synced]

/-- Opening the log does not cut the torn frame off, so the next acknowledged record lands
behind it and replay fails. -/
theorem append_after_torn_frame_breaks_replay :
    ¬ ∀ es s, Machine.run step start es = some s → s.appends ≤ kMaxWalRecords → s.Delivers := by
  intro h
  obtain ⟨recs,hreplay,-⟩ := h appendedAfterCrash _ rfl (by decide)
  have hfails : ∀ s, Machine.run step start appendedAfterCrash = some s →
      (Wal.replay s.wal.file).isOk = false := by
    intro s hs
    cases hs
    decide +kernel
  have := hfails _ rfl
  rw [hreplay] at this
  cases this

end WalRun
end RagRuntime.Store
