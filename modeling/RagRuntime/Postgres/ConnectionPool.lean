import Mathlib.Data.List.Perm.Basic
import Mathlib.Tactic.Common
import RagRuntime.Base.Machine

/-! The pool of database connections between the threads that use it: the steps of `acquire` and of
the end of a lease under the mutex, in any order, with wakings that mean nothing. -/
namespace RagRuntime.Postgres
open RagRuntime.Base

/-- The connections by number, and the calls of `acquire` by where they stand: asleep on `ready_`,
or woken and about to look. Of the releases, `notifying` have given back their connection and are
about to notify. -/
structure ConnectionPool where
  available : List ℕ
  leases : List ℕ
  waiting : List ℕ
  woken : List ℕ
  notifying : ℕ
  deriving DecidableEq

namespace ConnectionPool

/-- `acquire` begins, a lease ends, a release notifies one that waits, a call wakes for no reason, a
woken call looks, or the time of a call is up. -/
inductive Step where
  | acquire (call : ℕ)
  | release (index : ℕ)
  | notify (call : ℕ)
  | stir (call : ℕ)
  | look (call : ℕ)
  | expire (call : ℕ)

/-- All connections are free; the last one is lent first. -/
def «open» (size : ℕ) : ConnectionPool := ⟨(List.range size).reverse,[],[],[],0⟩

/-- Lend the connection that was given back last; where there is none, these calls sleep. -/
def lendOr (s : ConnectionPool) (waiting : List ℕ) : ConnectionPool :=
  match s.available with
  | [] => { s with waiting := waiting }
  | index::rest => { s with available := rest, leases := index::s.leases }

/-- A call whose time is up looks once more before it reports that the pool is saturated. Where none
waits, notifying wakes none. -/
def step (s : ConnectionPool) : Step → Option ConnectionPool
  | .acquire call =>
    if call ∈ s.waiting ∨ call ∈ s.woken then none else some (s.lendOr (call::s.waiting))
  | .release index =>
    if index ∈ s.leases then
      some { s with
        available := index::s.available
        leases := s.leases.erase index
        notifying := s.notifying+1 }
    else none
  | .notify call =>
    if s.notifying = 0 then none
    else if s.waiting = [] then some { s with notifying := s.notifying-1 }
    else if call ∈ s.waiting then
      some { s with
        waiting := s.waiting.erase call
        woken := call::s.woken
        notifying := s.notifying-1 }
    else none
  | .stir call =>
    if call ∈ s.waiting then
      some { s with waiting := s.waiting.erase call, woken := call::s.woken }
    else none
  | .look call =>
    if call ∈ s.woken then
      some ({ s with woken := s.woken.erase call }.lendOr (call::s.waiting))
    else none
  | .expire call =>
    if call ∈ s.waiting ∨ call ∈ s.woken then
      some ({ s with waiting := s.waiting.erase call, woken := s.woken.erase call }.lendOr
        (s.waiting.erase call))
    else none

/-- The steps that are due whatever the callers do. -/
def Step.due : Step → Bool
  | .notify _ => true
  | .look _ => true
  | _ => false

def Settled (s : ConnectionPool) : Prop := ∀ e : Step, e.due = true → s.step e = none

variable {s t : ConnectionPool} {size : ℕ}

section lend

lemma lendOr_of_nil (h : s.available = []) (waiting : List ℕ) :
    s.lendOr waiting = { s with waiting := waiting } := by
  unfold lendOr
  rw [h]

lemma lendOr_of_cons {index : ℕ} {rest : List ℕ} (h : s.available = index::rest)
    (waiting : List ℕ) :
    s.lendOr waiting = { s with available := rest, leases := index::s.leases } := by
  unfold lendOr
  rw [h]

@[simp] lemma woken_lendOr (s : ConnectionPool) (waiting : List ℕ) :
    (s.lendOr waiting).woken = s.woken := by
  unfold lendOr
  split <;> rfl

@[simp] lemma notifying_lendOr (s : ConnectionPool) (waiting : List ℕ) :
    (s.lendOr waiting).notifying = s.notifying := by
  unfold lendOr
  split <;> rfl

end lend

section sound

/-- Each connection is free or lent to one lease; and as long as a call sleeps, there are no more
free connections than calls that will look and releases that will notify. -/
structure Sound (size : ℕ) (s : ConnectionPool) : Prop where
  lent : (s.available ++ s.leases).Perm (List.range size)
  roused : s.waiting ≠ [] → s.available.length ≤ s.woken.length + s.notifying

lemma sound_open (size : ℕ) : (ConnectionPool.open size).Sound size := by
  refine ⟨?_,fun h => absurd rfl h⟩
  change ((List.range size).reverse ++ []).Perm (List.range size)
  rw [List.append_nil]
  exact List.reverse_perm _

/-- A call that looks may be the one that a free connection waits for. -/
lemma sound_lendOr (hlent : (s.available ++ s.leases).Perm (List.range size))
    (hroused : s.waiting ≠ [] → s.available.length ≤ s.woken.length + s.notifying + 1)
    (waiting : List ℕ) : (s.lendOr waiting).Sound size := by
  cases havailable : s.available with
  | nil =>
    rw [lendOr_of_nil havailable]
    refine ⟨hlent,fun _ => ?_⟩
    rw [havailable]
    exact Nat.zero_le _
  | cons index rest =>
    rw [lendOr_of_cons havailable]
    rw [havailable] at hlent hroused
    exact ⟨List.perm_middle.trans hlent,fun hne => Nat.le_of_succ_le_succ (hroused hne)⟩

lemma Sound.step (h : s.Sound size) {e : Step} (hstep : s.step e = some t) : t.Sound size := by
  cases e with
  | acquire call =>
    simp only [ConnectionPool.step] at hstep
    split_ifs at hstep
    cases hstep
    exact sound_lendOr h.lent (fun hne => Nat.le_succ_of_le (h.roused hne)) _
  | release index =>
    simp only [ConnectionPool.step] at hstep
    split_ifs at hstep with hleased
    cases hstep
    refine ⟨?_,fun hne => Nat.succ_le_succ (h.roused hne)⟩
    exact (List.perm_middle.symm.trans
      ((List.perm_cons_erase hleased).symm.append_left s.available)).trans h.lent
  | notify call =>
    simp only [ConnectionPool.step] at hstep
    split_ifs at hstep with hnone hidle hwaits
    · cases hstep
      exact ⟨h.lent,fun hne => absurd hidle hne⟩
    · cases hstep
      refine ⟨h.lent,fun _ => ?_⟩
      have hroused := h.roused hidle
      simp only [List.length_cons]
      omega
  | stir call =>
    simp only [ConnectionPool.step] at hstep
    split_ifs at hstep with hwaits
    cases hstep
    refine ⟨h.lent,fun _ => ?_⟩
    have hroused := h.roused (List.ne_nil_of_mem hwaits)
    simp only [List.length_cons]
    omega
  | look call =>
    simp only [ConnectionPool.step] at hstep
    split_ifs at hstep with hwoken
    cases hstep
    refine sound_lendOr (s := { s with woken := s.woken.erase call }) h.lent (fun hne => ?_) _
    have hroused := h.roused hne
    have hlength := List.length_erase_add_one hwoken
    simp only
    omega
  | expire call =>
    simp only [ConnectionPool.step] at hstep
    split_ifs at hstep with hcall
    cases hstep
    refine sound_lendOr (s := { s with
      waiting := s.waiting.erase call
      woken := s.woken.erase call }) h.lent (fun hne => ?_) _
    have hwaiting : s.waiting ≠ [] := by
      rintro hidle
      rw [hidle] at hne
      exact hne rfl
    have hroused := h.roused hwaiting
    have hlength : s.woken.length ≤ (s.woken.erase call).length + 1 := by
      rw [List.length_erase]
      split <;> omega
    simp only
    omega

lemma sound_of_run {es : List Step}
    (hrun : Machine.run ConnectionPool.step (ConnectionPool.open size) es = some s) :
    s.Sound size :=
  Machine.run_invariant' (fun _ _ _ h hstep => h.step hstep) (sound_open size) hrun

end sound

section settling

/-- A step that is due uses up what is due. -/
lemma due_step {e : Step} (he : e.due = true) (hstep : s.step e = some t) :
    2*t.notifying + t.woken.length + 1 ≤ 2*s.notifying + s.woken.length := by
  cases e with
  | notify call =>
    simp only [ConnectionPool.step] at hstep
    split_ifs at hstep with hnone hidle hwaits
    · cases hstep
      simp only
      omega
    · cases hstep
      simp only [List.length_cons]
      omega
  | look call =>
    simp only [ConnectionPool.step] at hstep
    split_ifs at hstep with hwoken
    cases hstep
    have hlength := List.length_erase_add_one hwoken
    simp only [woken_lendOr,notifying_lendOr]
    omega
  | acquire call => cases he
  | release index => cases he
  | stir call => cases he
  | expire call => cases he

lemma length_due {es : List Step} (hes : ∀ e ∈ es, e.due = true)
    (hrun : Machine.run ConnectionPool.step s es = some t) :
    es.length + (2*t.notifying + t.woken.length) ≤ 2*s.notifying + s.woken.length := by
  induction es generalizing s with
  | nil =>
    cases hrun
    simp
  | cons e es ih =>
    obtain ⟨u,hstep,hrun⟩ := Machine.run_cons_eq_some.mp hrun
    have hfirst := due_step (hes e List.mem_cons_self) hstep
    have hrest := ih (fun e he => hes e (List.mem_cons_of_mem _ he)) hrun
    rw [List.length_cons]
    omega

lemma Settled.idle (h : s.Settled) : s.notifying = 0 ∧ s.woken = [] := by
  constructor
  · by_contra hnotifying
    cases hwaiting : s.waiting with
    | nil =>
      have hnone := h (.notify 0) rfl
      simp [ConnectionPool.step,hnotifying,hwaiting] at hnone
    | cons call waiting =>
      have hnone := h (.notify call) rfl
      simp [ConnectionPool.step,hnotifying,hwaiting] at hnone
  · cases hwoken : s.woken with
    | nil => rfl
    | cons call woken =>
      have hnone := h (.look call) rfl
      simp [ConnectionPool.step,hwoken] at hnone

/-- No waking is lost: where nothing is due and a call still sleeps, all connections are lent. -/
lemma Sound.saturated (h : s.Sound size) (hsettled : s.Settled) (hwaiting : s.waiting ≠ []) :
    s.available = [] ∧ s.leases.Perm (List.range size) := by
  obtain ⟨hnotifying,hwoken⟩ := hsettled.idle
  have hroused := h.roused hwaiting
  rw [hnotifying,hwoken,List.length_nil,Nat.add_zero,Nat.le_zero] at hroused
  have hnone := List.eq_nil_of_length_eq_zero hroused
  have hlent := h.lent
  rw [hnone,List.nil_append] at hlent
  exact ⟨hnone,hlent⟩

end settling

/-- However the steps of the calls and of the ends of leases come one after the other: each
connection is free or lent to one lease; a call reports that the pool is saturated only where all
are lent; and what is due ends, after which a call still sleeps only where all are lent. -/
theorem pool_of_run {es : List Step}
    (hrun : Machine.run ConnectionPool.step (ConnectionPool.open size) es = some s) :
    (s.available ++ s.leases).Perm (List.range size) ∧
    (∀ call t, s.step (.expire call) = some t → t.leases = s.leases →
      s.available = [] ∧ s.leases.Perm (List.range size)) ∧
    ∀ (fs : List Step) (t : ConnectionPool), (∀ e ∈ fs, e.due = true) →
      Machine.run ConnectionPool.step s fs = some t →
        fs.length ≤ 2*s.notifying + s.woken.length ∧
        (t.Settled → t.waiting ≠ [] → t.available = [] ∧ t.leases.Perm (List.range size)) := by
  have h := sound_of_run hrun
  refine ⟨h.lent,?_,?_⟩
  · intro call t hstep hleases
    simp only [ConnectionPool.step] at hstep
    split_ifs at hstep
    cases hstep
    cases havailable : s.available with
    | nil =>
      have hlent := h.lent
      rw [havailable,List.nil_append] at hlent
      exact ⟨rfl,hlent⟩
    | cons index rest =>
      rw [lendOr_of_cons (s := { s with
        waiting := s.waiting.erase call
        woken := s.woken.erase call }) havailable] at hleases
      exact absurd hleases (List.cons_ne_self _ _)
  · intro fs t hfs hrun'
    have hsound : t.Sound size :=
      Machine.run_invariant' (fun _ _ _ h hstep => h.step hstep) h hrun'
    have hlength := length_due hfs hrun'
    exact ⟨by omega,fun hsettled hwaiting => hsound.saturated hsettled hwaiting⟩

/-- The second call waits; the third takes the connection that is given back before the second is
notified, and gives it back as well. -/
def overtakenCall : List Step :=
  [.acquire 1,.acquire 2,.release 0,.acquire 3,.notify 2,.look 2,.release 0,.notify 2]

/-- The second call is about to look. -/
def afterOvertakenCall : ConnectionPool := ⟨[0],[],[],[2],0⟩

theorem overtakenCall_served :
    Machine.run ConnectionPool.step (ConnectionPool.open 1) overtakenCall =
        some afterOvertakenCall ∧
      (afterOvertakenCall.available ++ afterOvertakenCall.leases).Perm (List.range 1) :=
  ⟨by decide,(@pool_of_run afterOvertakenCall 1 overtakenCall (by decide)).1⟩

end ConnectionPool
end RagRuntime.Postgres
