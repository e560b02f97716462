import RagRuntime.Base.Machine
import RagRuntime.Index.Publication

/-! Corpora of one process that are saved to one path and loaded from it. -/
namespace RagRuntime.Index
open RagRuntime.Base RagRuntime.Core RagRuntime.Text RagRuntime.Store

/-- A thread inside `save`, past its shared lock, or inside `load`, before it reads the
publication counter. -/
inductive Phase where
  | saving (object : ℕ) (captured : Stamped Snapshot)
  | loading (read : Snapshot)

/-- The corpora that use a path, its registry entry and its file. `publisher` is the corpus whose
save the file is from; no step reads it. -/
structure SaveRun where
  objects : List Corpus
  path : PathState
  file : Option Snapshot
  publisher : Option ℕ
  threads : ℕ → Option Phase

namespace SaveRun

inductive Action where
  | construct (options : ChunkOptions)
  | request (object : ℕ) (r : Corpus.Request)
  | serialise (thread object : ℕ)
  | publish (thread : ℕ) (written : Bool)
  | read (thread : ℕ)
  | restore (thread : ℕ)

/-- A process starts with whatever file an earlier one left. -/
def start (file : Option Snapshot) : SaveRun := ⟨[],⟨0,false⟩,file,none,fun _ => none⟩

def withThread (s : SaveRun) (thread : ℕ) (phase : Option Phase) : SaveRun :=
  { s with threads := Function.update s.threads thread phase }

/-- The file is replaced by the captured snapshot. -/
def replaceFile (s : SaveRun) (object : ℕ) (captured : Stamped Snapshot) : SaveRun :=
  { s with path := ⟨captured.1,true⟩, file := some captured.2, publisher := some object }

/-- The second half of `save`, under the path's lock: whether it reports success, and what it
leaves. -/
def publish (s : SaveRun) (thread object : ℕ) (captured : Stamped Snapshot) (written : Bool) :
    Bool × SaveRun :=
  let s := s.withThread thread none
  if s.path.Superseded captured.1 then (true,s)
  else if written then (true,s.replaceFile object captured)
  else (false,s)

def step (s : SaveRun) : Action → Option SaveRun
  | .construct options =>
    some { s with objects := s.objects ++ [⟨options,[],[],∅,Wal.empty,false,0⟩] }
  | .request object r =>
    match s.objects[object]? with
    | none => none
    | some c => some { s with objects := s.objects.set object (c.request r).2 }
  | .serialise thread object =>
    match s.threads thread,s.objects[object]? with
    | none,some c => some (s.withThread thread (some (.saving object c.stamped)))
    | _,_ => none
  | .publish thread written =>
    match s.threads thread with
    | some (.saving object captured) => some (s.publish thread object captured written).2
    | _ => none
  | .read thread =>
    match s.threads thread,s.file with
    | none,some f => some (s.withThread thread (some (.loading f)))
    | _,_ => none
  | .restore thread =>
    match s.threads thread with
    | some (.loading f) =>
      some { s.withThread thread none with objects := s.objects ++ [Corpus.loaded s.path f] }
    | _ => none

/-- The file is a snapshot of the corpus and holds all that `content` does. -/
def Holds (s : SaveRun) (object : ℕ) (content : Snapshot) : Prop :=
  s.publisher = some object ∧ ∃ f d, s.file = some f ∧ s.objects[object]? = some d ∧
    content ≤ f ∧ f ≤ d.snapshotLocked

/-- A save that is about to be dropped as superseded finds a snapshot of its own corpus at the
path. -/
def OwnSuperseded (s : SaveRun) : Action → Prop
  | .publish thread _ => ∀ object captured, s.threads thread = some (.saving object captured) →
    s.path.Superseded captured.1 → s.publisher = some object
  | _ => True

/-- The snapshots of a corpus that the process has: the published one and the captured ones. -/
def kept (s : SaveRun) (object : ℕ) : Set (Stamped Snapshot) :=
  { x | (s.publisher = some object ∧ s.path.published = x.1 ∧ s.file = some x.2) ∨
    ∃ thread, s.threads thread = some (.saving object x) }

structure Ordered (s : SaveRun) : Prop where
  chronicle : ∀ object c, s.objects[object]? = some c → Stamped.Chronicle c.stamped (s.kept object)
  known : ∀ object, (s.kept object).Nonempty → object < s.objects.length
  published : ∀ object, s.publisher = some object → s.file.isSome

lemma start_ordered (file : Option Snapshot) : (start file).Ordered := by
  refine ⟨?_,?_,?_⟩
  · intro object c h
    simp [start] at h
  · rintro object ⟨x,⟨h,-⟩ | ⟨thread,h⟩⟩
    · cases h
    · cases h
  · intro object h
    cases h

@[simp] lemma threads_withThread (s : SaveRun) (thread : ℕ) (phase : Option Phase) :
    (s.withThread thread phase).threads thread = phase := by
  simp [withThread]

lemma threads_withThread_of_ne (s : SaveRun) {thread other : ℕ} (phase : Option Phase)
    (h : other ≠ thread) : (s.withThread thread phase).threads other = s.threads other := by
  simp [withThread,h]

lemma mem_kept_withThread {s : SaveRun} {thread object : ℕ} {phase : Option Phase}
    {x : Stamped Snapshot} (h : x ∈ (s.withThread thread phase).kept object) :
    x ∈ s.kept object ∨ phase = some (.saving object x) := by
  obtain h | ⟨other,h⟩ := h
  · exact Or.inl (Or.inl h)
  · by_cases ho : other = thread
    · subst ho
      rw [threads_withThread] at h
      exact Or.inr h
    · rw [threads_withThread_of_ne s phase ho] at h
      exact Or.inl (Or.inr ⟨other,h⟩)

/-- A thread that returns, or that loads, keeps no new snapshot. -/
lemma Ordered.withThread {s : SaveRun} (h : s.Ordered) (thread : ℕ) {phase : Option Phase}
    (hphase : ∀ object x, phase ≠ some (.saving object x)) :
    (s.withThread thread phase).Ordered := by
  have hsub : ∀ object, (s.withThread thread phase).kept object ⊆ s.kept object := by
    intro object x hx
    obtain hx | hx := mem_kept_withThread hx
    · exact hx
    · exact absurd hx (hphase object x)
  exact ⟨fun object c hc => (h.chronicle object c hc).mono (hsub object),
    fun object hne => h.known object (hne.mono (hsub object)),h.published⟩

/-- A corpus that is added to the process has no snapshot yet. -/
lemma Ordered.append {s : SaveRun} (h : s.Ordered) (c : Corpus) :
    ({ s with objects := s.objects ++ [c] } : SaveRun).Ordered := by
  refine ⟨?_,?_,h.published⟩
  · intro object d hd
    have hd : (s.objects ++ [c])[object]? = some d := hd
    by_cases hlt : object < s.objects.length
    · rw [List.getElem?_append_left hlt] at hd
      exact h.chronicle object d hd
    · have hempty : s.kept object = ∅ := by
        rw [← Set.not_nonempty_iff_eq_empty]
        exact fun hne => hlt (h.known object hne)
      change Stamped.Chronicle d.stamped (s.kept object)
      rw [hempty]
      exact Stamped.Chronicle.empty _
  · intro object hne
    have hlt := h.known object hne
    simp only [List.length_append]
    omega

lemma Ordered.request {s : SaveRun} (h : s.Ordered) {object : ℕ} {c : Corpus}
    (hc : s.objects[object]? = some c) (r : Corpus.Request) :
    ({ s with objects := s.objects.set object (c.request r).2 } : SaveRun).Ordered := by
  refine ⟨?_,?_,h.published⟩
  · intro other d hd
    have hd : (s.objects.set object (c.request r).2)[other]? = some d := hd
    rw [List.getElem?_set] at hd
    split_ifs at hd with heq hlt
    · cases hd
      subst heq
      exact (h.chronicle object c hc).advance (Corpus.before_request c r)
    · exact h.chronicle other d hd
  · intro other hne
    simp only [List.length_set]
    exact h.known other hne

lemma Ordered.serialise {s : SaveRun} (h : s.Ordered) {thread object : ℕ} {c : Corpus}
    (hc : s.objects[object]? = some c) :
    (s.withThread thread (some (.saving object c.stamped))).Ordered := by
  refine ⟨?_,?_,h.published⟩
  · intro other d hd
    by_cases ho : other = object
    · subst ho
      have hcd : c = d := Option.some.inj (hc.symm.trans hd)
      subst hcd
      refine ((h.chronicle other c hc).record).mono ?_
      intro x hx
      obtain hx | hx := mem_kept_withThread hx
      · exact Set.mem_insert_of_mem _ hx
      · cases hx
        exact Set.mem_insert _ _
    · refine (h.chronicle other d hd).mono ?_
      intro x hx
      obtain hx | hx := mem_kept_withThread hx
      · exact hx
      · cases hx
        exact absurd rfl ho
  · intro other hne
    obtain ⟨x,hx⟩ := hne
    obtain hx | hx := mem_kept_withThread hx
    · exact h.known other ⟨x,hx⟩
    · cases hx
      exact (List.getElem?_eq_some_iff.mp hc).1

lemma Ordered.publish {s : SaveRun} (h : s.Ordered) {thread object : ℕ}
    {captured : Stamped Snapshot}
    (ht : s.threads thread = some (.saving object captured)) (written : Bool) :
    (s.publish thread object captured written).2.Ordered := by
  have hidle : (s.withThread thread none).Ordered := h.withThread thread (fun _ _ hn => by cases hn)
  have hmem : captured ∈ s.kept object := Or.inr ⟨thread,ht⟩
  unfold SaveRun.publish
  dsimp only
  split_ifs with hsuper hwritten
  · exact hidle
  · have hsub : ∀ other, ((s.withThread thread none).replaceFile object captured).kept other ⊆
        s.kept other := by
      intro other x hx
      obtain ⟨hp,hstamp,hfile⟩ | hx := hx
      · cases hp
        have hx : captured = x := Prod.ext hstamp (Option.some.inj hfile)
        rw [← hx]
        exact hmem
      · have hx' : x ∈ (s.withThread thread none).kept other := Or.inr hx
        obtain hx' | hx' := mem_kept_withThread hx'
        · exact hx'
        · cases hx'
    exact ⟨fun other d hd => (h.chronicle other d hd).mono (hsub other),
      fun other hne => h.known other (hne.mono (hsub other)),fun _ _ => rfl⟩
  · exact hidle

lemma step_ordered {s t : SaveRun} {a : Action} (h : s.Ordered) (hs : s.step a = some t) :
    t.Ordered := by
  cases a with
  | construct options =>
    cases hs
    exact h.append _
  | request object r =>
    simp only [step] at hs
    cases hc : s.objects[object]? with
    | none => rw [hc] at hs; cases hs
    | some c =>
      rw [hc] at hs
      cases hs
      exact h.request hc r
  | serialise thread object =>
    simp only [step] at hs
    split at hs
    case h_1 c _ hc =>
      cases hs
      exact h.serialise hc
    case h_2 => cases hs
  | publish thread written =>
    simp only [step] at hs
    split at hs
    case h_1 object captured ht =>
      cases hs
      exact h.publish ht written
    case h_2 => cases hs
  | read thread =>
    simp only [step] at hs
    split at hs
    case h_1 =>
      cases hs
      exact h.withThread thread (fun _ _ hn => by cases hn)
    case h_2 => cases hs
  | restore thread =>
    simp only [step] at hs
    split at hs
    case h_1 =>
      cases hs
      exact (h.withThread thread (fun _ _ hn => by cases hn)).append _
    case h_2 => cases hs

lemma threads_publish (s : SaveRun) (thread object : ℕ) (captured : Stamped Snapshot)
    (written : Bool) :
    (s.publish thread object captured written).2.threads = (s.withThread thread none).threads := by
  unfold SaveRun.publish
  dsimp only
  split_ifs <;> rfl

lemma objects_publish (s : SaveRun) (thread object : ℕ) (captured : Stamped Snapshot)
    (written : Bool) : (s.publish thread object captured written).2.objects = s.objects := by
  unfold SaveRun.publish
  dsimp only
  split_ifs <;> rfl

lemma append_grows {objects : List Corpus} {object : ℕ} {c : Corpus}
    (hc : objects[object]? = some c) (e : Corpus) :
    ∃ d, (objects ++ [e])[object]? = some d ∧ c.stamped.Before d.stamped := by
  refine ⟨c,?_,Stamped.Before.refl _⟩
  rw [List.getElem?_append_left (List.getElem?_eq_some_iff.mp hc).1]
  exact hc

/-- A corpus stays in the process and only grows. -/
lemma step_grows {s t : SaveRun} {a : Action} (hs : s.step a = some t) {object : ℕ} {c : Corpus}
    (hc : s.objects[object]? = some c) :
    ∃ d, t.objects[object]? = some d ∧ c.stamped.Before d.stamped := by
  cases a with
  | construct options =>
    cases hs
    exact append_grows hc _
  | request other r =>
    simp only [step] at hs
    cases ho : s.objects[other]? with
    | none => rw [ho] at hs; cases hs
    | some e =>
      rw [ho] at hs
      cases hs
      by_cases heq : other = object
      · subst heq
        have hec : e = c := Option.some.inj (ho.symm.trans hc)
        subst hec
        refine ⟨(e.request r).2,?_,Corpus.before_request e r⟩
        exact List.getElem?_set_self (List.getElem?_eq_some_iff.mp hc).1
      · refine ⟨c,?_,Stamped.Before.refl _⟩
        exact (List.getElem?_set_ne heq).trans hc
  | serialise thread other =>
    simp only [step] at hs
    split at hs
    case h_1 =>
      cases hs
      exact ⟨c,hc,Stamped.Before.refl _⟩
    case h_2 => cases hs
  | publish thread written =>
    simp only [step] at hs
    split at hs
    case h_1 =>
      cases hs
      exact ⟨c,by rw [objects_publish]; exact hc,Stamped.Before.refl _⟩
    case h_2 => cases hs
  | read thread =>
    simp only [step] at hs
    split at hs
    case h_1 =>
      cases hs
      exact ⟨c,hc,Stamped.Before.refl _⟩
    case h_2 => cases hs
  | restore thread =>
    simp only [step] at hs
    split at hs
    case h_1 =>
      cases hs
      exact append_grows hc _
    case h_2 => cases hs

/-- What a thread is saving after a step, it was saving before, or has just captured. -/
lemma step_saving {s t : SaveRun} {a : Action} (hs : s.step a = some t) {thread object : ℕ}
    {x : Stamped Snapshot} (hx : t.threads thread = some (.saving object x)) :
    s.threads thread = some (.saving object x) ∨
      ∃ c, s.objects[object]? = some c ∧ x = c.stamped := by
  have hupdate : ∀ other phase, (s.withThread other phase).threads thread =
    some (.saving object x) →
      s.threads thread = some (.saving object x) ∨ phase = some (.saving object x) := by
    intro other phase h
    by_cases ho : thread = other
    · subst ho
      rw [threads_withThread] at h
      exact Or.inr h
    · rw [threads_withThread_of_ne s phase ho] at h
      exact Or.inl h
  cases a with
  | construct options =>
    cases hs
    exact Or.inl hx
  | request other r =>
    simp only [step] at hs
    cases ho : s.objects[other]? with
    | none => rw [ho] at hs; cases hs
    | some e =>
      rw [ho] at hs
      cases hs
      exact Or.inl hx
  | serialise other i =>
    simp only [step] at hs
    split at hs
    case h_1 c _ hc =>
      cases hs
      obtain h | h := hupdate _ _ hx
      · exact Or.inl h
      · cases h
        exact Or.inr ⟨c,hc,rfl⟩
    case h_2 => cases hs
  | publish other written =>
    simp only [step] at hs
    split at hs
    case h_1 =>
      cases hs
      rw [threads_publish] at hx
      obtain h | h := hupdate _ _ hx
      · exact Or.inl h
      · cases h
    case h_2 => cases hs
  | read other =>
    simp only [step] at hs
    split at hs
    case h_1 =>
      cases hs
      obtain h | h := hupdate _ _ hx
      · exact Or.inl h
      · cases h
    case h_2 => cases hs
  | restore other =>
    simp only [step] at hs
    split at hs
    case h_1 =>
      cases hs
      obtain h | h := hupdate _ _ hx
      · exact Or.inl h
      · cases h
    case h_2 => cases hs

/-- A save of `object` by the thread that starts while the corpus is `c`. -/
structure Tracked (thread object : ℕ) (c : Corpus) (s : SaveRun) : Prop where
  grown : ∃ d, s.objects[object]? = some d ∧ c.stamped.Before d.stamped
  held : ∀ x, s.threads thread = some (.saving object x) → c.snapshotLocked ≤ x.2

lemma step_tracked {s t : SaveRun} {a : Action} {thread object : ℕ} {c : Corpus}
    (h : s.Tracked thread object c) (hs : s.step a = some t) : t.Tracked thread object c := by
  obtain ⟨d,hd,hbefore⟩ := h.grown
  constructor
  · obtain ⟨d',hd',hbefore'⟩ := step_grows hs hd
    exact ⟨d',hd',hbefore.trans hbefore'⟩
  · intro x hx
    obtain hold | ⟨e,he,rfl⟩ := step_saving hs hx
    · exact h.held x hold
    · have hde : d = e := Option.some.inj (hd.symm.trans he)
      subst hde
      exact hbefore.le

/-- What a save that reports success leaves at the path holds what the save captured. -/
lemma Ordered.holds_of_publish {s : SaveRun} (h : s.Ordered) {thread object : ℕ} {d : Corpus}
    {captured : Stamped Snapshot} {written : Bool} (hd : s.objects[object]? = some d)
    (ht : s.threads thread = some (.saving object captured))
    (hown : s.OwnSuperseded (.publish thread written))
    (hok : (s.publish thread object captured written).1 = true) :
    (s.publish thread object captured written).2.Holds object captured.2 := by
  have hmem : captured ∈ s.kept object := Or.inr ⟨thread,ht⟩
  have hchronicle := h.chronicle object d hd
  unfold SaveRun.publish at hok ⊢
  dsimp only at hok ⊢
  split_ifs at hok ⊢ with hsuper hwritten
  · have hpublisher : s.publisher = some object := hown object captured ht hsuper
    obtain ⟨f,hf⟩ := Option.isSome_iff_exists.mp (h.published object hpublisher)
    have hfile : (s.path.published,f) ∈ s.kept object := Or.inl ⟨hpublisher,rfl,hf⟩
    have hlater : captured.2 ≤ f := hchronicle.le_of_stamp_le hmem hfile hsuper.2.le
    exact ⟨hpublisher,f,d,hf,hd,hlater,(hchronicle.past _ hfile).le⟩
  · exact ⟨rfl,captured.2,d,rfl,hd,le_refl _,(hchronicle.past _ hmem).le⟩

lemma Holds.of_le {s : SaveRun} {object : ℕ} {a b : Snapshot} (h : s.Holds object b) (hab : a ≤ b) :
    s.Holds object a := by
  obtain ⟨hpublisher,f,d,hf,hd,hbf,hfd⟩ := h
  exact ⟨hpublisher,f,d,hf,hd,hab.trans hbf,hfd⟩

/-- A save that reports success, and was not dropped for a snapshot of another corpus, has its
corpus on disk as it was when the save was called, or later; what is on disk holds what it
captured. -/
theorem save_holds {file : Option Snapshot} {before during : List Action} {s u : SaveRun}
    {thread object : ℕ} {c : Corpus} {captured : Stamped Snapshot} {written : Bool}
    (hrun : Machine.run step (start file) before = some s)
    (hc : s.objects[object]? = some c) (hidle : s.threads thread = none)
    (hcall : Machine.run step s during = some u)
    (ht : u.threads thread = some (.saving object captured))
    (hown : u.OwnSuperseded (.publish thread written))
    (hok : (u.publish thread object captured written).1 = true) :
    (∃ moment v, moment <+: during ++ [.publish thread written] ∧
      Machine.run step s moment = some v ∧ v.Holds object c.snapshotLocked) ∧
    (u.publish thread object captured written).2.Holds object captured.2 := by
  have hordered : s.Ordered :=
    Machine.run_invariant' (fun _ _ _ hi hs => step_ordered hi hs) (start_ordered file) hrun
  have htracked : s.Tracked thread object c := by
    refine ⟨⟨c,hc,Stamped.Before.refl _⟩,?_⟩
    intro x hx
    rw [hidle] at hx
    cases hx
  obtain ⟨hordered',htracked'⟩ : u.Ordered ∧ u.Tracked thread object c :=
    Machine.run_invariant' (I := fun v => v.Ordered ∧ v.Tracked thread object c)
      (fun _ _ _ hi hs => ⟨step_ordered hi.1 hs,step_tracked hi.2 hs⟩) ⟨hordered,htracked⟩ hcall
  obtain ⟨d,hd,-⟩ := htracked'.grown
  have hholds := hordered'.holds_of_publish hd ht hown hok
  refine ⟨⟨_,(u.publish thread object captured written).2,List.prefix_refl _,?_,?_⟩,hholds⟩
  · rw [Machine.run_append,hcall]
    simp only [Option.bind_some,Machine.run,step,ht]
  · exact hholds.of_le (htracked'.held captured ht)

def added (object : ℕ) (x : Char) : Action :=
  .request object (.addDocument (ascii [x]) (ascii [x]) ∅ [] .synced)

/-- A corpus with one document. -/
def filled : SaveRun := (Machine.run step (start none) [.construct {},added 0 'a']).getD
    (start none)

/-- A second thread captures and publishes a later state of the corpus before the first
publishes. -/
def overtaken : List Action := [.serialise 0 0,added 0 'b',.serialise 1 0,.publish 1 true]

/-- The overtaken save is dropped, and its corpus is on disk. -/
theorem overtaken_holds : ∃ c moment v, filled.objects[0]? = some c ∧ c.docs.length = 1 ∧
    Machine.run step filled moment = some v ∧ v.Holds 0 c.snapshotLocked := by
  have hcall : Machine.run step filled overtaken = some _ := rfl
  obtain ⟨⟨moment,v,-,hv,hholds⟩,-⟩ := @save_holds none _ _ _ _ 0 0 _ _ true
    (show Machine.run step (start none) [.construct {},added 0 'a'] = some filled from rfl) rfl rfl
    hcall rfl
    (by
      intro object captured ht _
      cases ht
      rfl)
    (by decide +kernel)
  exact ⟨_,moment,v,rfl,by decide +kernel,hv,hholds⟩

/-- Two corpora are filled, and the one with more mutations is saved first. -/
def twoCorpora : List Action :=
  [.construct {},.construct {},added 0 'a',added 0 'b',added 1 'c',.serialise 0 0,.publish 0 true]

/-- The other corpus is dropped as superseded: it reports success and never reaches the file. -/
theorem superseded_by_another_corpus :
    ¬ ∀ (file : Option Snapshot) (before during : List Action) (s u : SaveRun)
        (thread object : ℕ) (c : Corpus) (captured : Stamped Snapshot) (written : Bool),
      Machine.run step (start file) before = some s → s.objects[object]? = some c →
        s.threads thread = none → Machine.run step s during = some u →
          u.threads thread = some (.saving object captured) →
            (u.publish thread object captured written).1 = true →
              (∃ moment v, moment <+: during ++ [.publish thread written] ∧
                Machine.run step s moment = some v ∧ v.Holds object c.snapshotLocked) ∧
              (u.publish thread object captured written).2.Holds object captured.2 := by
  intro h
  obtain ⟨⟨moment,v,hmoment,hv,hpublisher,-⟩,-⟩ := h none twoCorpora [.serialise 0 1] _ _
    0 1 _ _ true rfl rfl rfl rfl rfl (by decide +kernel)
  -- at every moment of the call the file is the first corpus's
  have hfirst : v.publisher = some 0 := by
    obtain h0 | ⟨rest,h1,h2⟩ : moment = [] ∨ ∃ rest, moment = .serialise 0 1::rest ∧
        (rest = [] ∨ rest = [.publish 0 true]) := by
      simpa [List.prefix_cons_iff] using hmoment
    · subst h0
      cases hv
      rfl
    · obtain rfl | rfl := h2
      · subst h1
        cases hv
        rfl
      · subst h1
        cases hv
        decide +kernel
  rw [hfirst] at hpublisher
  cases hpublisher

end SaveRun
end RagRuntime.Index
