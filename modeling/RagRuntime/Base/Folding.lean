import Mathlib.Data.List.Nodup
import Mathlib.Data.List.Perm.Subperm
import Mathlib.Data.List.Range
import Mathlib.Order.Basic

/-! Folding a ranked list: of positions that are near each other only the first stays. The loops
over an array of marks, and what they keep. -/
namespace RagRuntime.Base.Folding

variable (near : ℕ → ℕ → Bool)

/-- The positions below `n` that are not near a kept one before them. -/
def kept : ℕ → List ℕ
  | 0 => []
  | n+1 => if (kept n).any fun i => near i n then kept n else kept n ++ [n]

/-- One turn of the inner loop. -/
def dropTurn (left : ℕ) (dropped : List Bool) (right : ℕ) : List Bool :=
  if dropped.getD right false then dropped
  else if near left right then dropped.set right true
  else dropped

/-- The inner loop: what is near `left` and behind it is marked. -/
def dropNear (n left : ℕ) (dropped : List Bool) : List Bool :=
  (List.range' (left+1) (n-(left+1))).foldl (dropTurn near left) dropped

/-- The outer loop passes over what is marked. -/
def dropLoop (n : ℕ) : List Bool :=
  (List.range n).foldl
    (fun dropped left => if dropped.getD left false then dropped else dropNear near n left dropped)
    (List.replicate n false)

def surviving (n : ℕ) : List ℕ :=
  (List.range n).filter fun i => (dropLoop near n).getD i false = false

/-- What greedy folding promises: what stays is apart, and what goes is near something before it
that stays. -/
structure Folds (n : ℕ) (kept : List ℕ) : Prop where
  ascending : kept.Pairwise (· < ·)
  bounded : ∀ i ∈ kept, i < n
  apart : ∀ i ∈ kept, ∀ j ∈ kept, i < j → near i j = false
  absorbed : ∀ j < n, j ∉ kept → ∃ i ∈ kept, i < j ∧ near i j = true

section kept

variable {near} {n : ℕ}

lemma lt_of_mem_kept {i : ℕ} (h : i ∈ kept near n) : i < n := by
  induction n with
  | zero => cases h
  | succ n ih =>
    rw [kept] at h
    split_ifs at h
    · exact (ih h).trans n.lt_succ_self
    · rcases List.mem_append.mp h with h | h
      · exact (ih h).trans n.lt_succ_self
      · rw [List.mem_singleton.mp h]
        exact n.lt_succ_self

lemma kept_subset_succ {i : ℕ} (h : i ∈ kept near n) : i ∈ kept near (n+1) := by
  rw [kept]
  split_ifs
  · exact h
  · exact List.mem_append_left _ h

/-- Later positions do not change what is kept of earlier ones. -/
lemma mem_kept_of_le {m i : ℕ} (h : m ≤ n) (hi : i < m) : i ∈ kept near m ↔ i ∈ kept near n := by
  induction n, h using Nat.le_induction with
  | base => rfl
  | succ n hmn ih =>
    rw [ih]
    refine ⟨kept_subset_succ,?_⟩
    intro hin
    rw [kept] at hin
    split_ifs at hin
    · exact hin
    · rcases List.mem_append.mp hin with hin | hin
      · exact hin
      · rw [List.mem_singleton.mp hin] at hi
        omega

lemma kept_ascending (n : ℕ) : (kept near n).Pairwise (· < ·) := by
  induction n with
  | zero => exact .nil
  | succ n ih =>
    rw [kept]
    split_ifs
    · exact ih
    · rw [List.pairwise_append]
      refine ⟨ih,List.pairwise_singleton _ _,?_⟩
      intro i hi j hj
      rw [List.mem_singleton.mp hj]
      exact lt_of_mem_kept hi

/-- A position stays unless one before it stays and is near. -/
theorem mem_kept_iff {j : ℕ} (hj : j < n) :
    j ∈ kept near n ↔ ∀ i ∈ kept near n, i < j → near i j = false := by
  have hbefore : ∀ i, i < j → (i ∈ kept near j ↔ i ∈ kept near n) :=
    fun i hi => mem_kept_of_le hj.le hi
  have hhere : j ∈ kept near (j+1) ↔ j ∈ kept near n := mem_kept_of_le hj (Nat.lt_succ_self j)
  rw [← hhere,kept]
  split_ifs with hany
  · obtain ⟨i,hi,hnear⟩ := List.any_eq_true.mp hany
    constructor
    · intro hin
      exact absurd (lt_of_mem_kept hin) (Nat.lt_irrefl j)
    · intro hall
      have hlt := lt_of_mem_kept hi
      rw [hall i ((hbefore i hlt).mp hi) hlt] at hnear
      cases hnear
  · refine ⟨fun _ => ?_,fun _ => List.mem_append_right _ (List.mem_singleton.mpr rfl)⟩
    intro i hi hlt
    rw [Bool.eq_false_iff]
    exact fun hnear => hany (List.any_eq_true.mpr ⟨i,(hbefore i hlt).mpr hi,hnear⟩)

theorem folds_kept (near : ℕ → ℕ → Bool) (n : ℕ) : Folds near n (kept near n) := by
  refine ⟨kept_ascending n,fun i hi => lt_of_mem_kept hi,?_,?_⟩
  · intro i hi j hj hlt
    exact (mem_kept_iff (lt_of_mem_kept hj)).mp hj i hi hlt
  · intro j hj hnot
    rw [mem_kept_iff hj] at hnot
    by_contra hnone
    apply hnot
    intro i hi hlt
    rw [Bool.eq_false_iff]
    exact fun hnear => hnone ⟨i,hi,hlt,hnear⟩

/-- Nothing but the nearness of positions below `n` matters. -/
lemma kept_congr {near' : ℕ → ℕ → Bool} (h : ∀ i j, i < j → j < n → near i j = near' i j) :
    kept near n = kept near' n := by
  induction n with
  | zero => rfl
  | succ n ih =>
    have hrest := ih fun i j hij hj => h i j hij (hj.trans n.lt_succ_self)
    have hany : ((kept near n).any fun i => near i n) = (kept near' n).any fun i => near' i n := by
      rw [← hrest,Bool.eq_iff_iff,List.any_eq_true,List.any_eq_true]
      apply exists_congr
      intro i
      apply and_congr_right
      intro hi
      rw [h i n (lt_of_mem_kept hi) n.lt_succ_self]
    rw [kept,kept,hany,hrest]

/-- Positions that are apart all stay. -/
lemma kept_eq_range (h : ∀ i j, i < j → j < n → near i j = false) :
    kept near n = List.range n := by
  induction n with
  | zero => rfl
  | succ n ih =>
    have hrest := ih fun i j hij hj => h i j hij (hj.trans n.lt_succ_self)
    have hnone : ((kept near n).any fun i => near i n) = false := by
      rw [List.any_eq_false]
      intro i hi
      rw [h i n (lt_of_mem_kept hi) n.lt_succ_self]
      decide
    rw [kept,hnone,hrest,List.range_succ]
    rfl

lemma filter_range_eq_kept {p : ℕ → Bool} (h : ∀ j < n, p j = true ↔ j ∈ kept near n) :
    (List.range n).filter p = kept near n := by
  induction n with
  | zero => rfl
  | succ n ih =>
    have hrest : (List.range n).filter p = kept near n := by
      apply ih
      intro j hj
      rw [h j (hj.trans n.lt_succ_self),mem_kept_of_le n.le_succ hj]
    have hlast := h n n.lt_succ_self
    rw [List.range_succ,List.filter_append,hrest,kept]
    rw [kept] at hlast
    split_ifs at hlast ⊢ with hany
    · have hp : p n = false := by
        rw [Bool.eq_false_iff]
        intro hp
        exact absurd (lt_of_mem_kept (hlast.mp hp)) (Nat.lt_irrefl n)
      simp [hp]
    · have hp : p n = true := hlast.mpr (List.mem_append_right _ (List.mem_singleton.mpr rfl))
      simp [hp]

/-- Of a longer list the same positions stay. -/
lemma kept_eq_filter {m : ℕ} (h : m ≤ n) :
    kept near m = (kept near n).filter fun i => i < m := by
  induction n, h using Nat.le_induction with
  | base =>
    symm
    rw [List.filter_eq_self]
    intro i hi
    exact decide_eq_true (lt_of_mem_kept hi)
  | succ n hmn ih =>
    rw [ih,kept]
    split_ifs
    · rfl
    · have hnot : ¬n < m := by omega
      rw [List.filter_append,List.filter_singleton,decide_eq_false hnot]
      exact (List.append_nil _).symm

end kept

section loops

variable {near} {n : ℕ}

/-- A mark is set, or was already. -/
lemma dropTurn_spec (near : ℕ → ℕ → Bool) (left : ℕ) {right : ℕ} {dropped : List Bool}
    (hright : right < dropped.length) :
    (dropTurn near left dropped right).length = dropped.length ∧
      ∀ j, (dropTurn near left dropped right).getD j false =
        (dropped.getD j false || decide (j = right) && near left right) := by
  unfold dropTurn
  split_ifs with hdropped hnear
  · refine ⟨rfl,?_⟩
    intro j
    by_cases hj : j = right
    · rw [hj,hdropped]
      rfl
    · simp [hj]
  · refine ⟨List.length_set,?_⟩
    intro j
    by_cases hj : j = right
    · simp [hj,hnear,List.getD_eq_getElem?_getD,hright]
    · simp [hj,List.getD_eq_getElem?_getD,List.getElem?_set_ne (Ne.symm hj)]
  · refine ⟨rfl,?_⟩
    intro j
    simp [Bool.eq_false_iff.mpr hnear]

lemma foldl_dropTurn (near : ℕ → ℕ → Bool) (left : ℕ) {rights : List ℕ} {dropped : List Bool}
    (hrights : ∀ j ∈ rights, j < dropped.length) :
    (rights.foldl (dropTurn near left) dropped).length = dropped.length ∧
      ∀ j, (rights.foldl (dropTurn near left) dropped).getD j false =
        (dropped.getD j false || decide (j ∈ rights) && near left j) := by
  induction rights generalizing dropped with
  | nil =>
    refine ⟨rfl,?_⟩
    intro j
    simp
  | cons right rights ih =>
    obtain ⟨hhead,htail⟩ := List.forall_mem_cons.mp hrights
    obtain ⟨hlength,hmarks⟩ := dropTurn_spec near left hhead
    have hrest : ∀ j ∈ rights, j < (dropTurn near left dropped right).length := by
      rwa [hlength]
    obtain ⟨hlength',hmarks'⟩ := ih hrest
    refine ⟨hlength'.trans hlength,?_⟩
    intro j
    rw [List.foldl_cons,hmarks',hmarks]
    by_cases hj : j = right
    · subst hj
      cases dropped.getD j false <;> cases near left j <;> simp
    · simp [hj]

/-- The inner loop marks what is behind `left` and near it. -/
lemma dropNear_spec (near : ℕ → ℕ → Bool) (left : ℕ) {dropped : List Bool}
    (hlength : dropped.length = n) :
    (dropNear near n left dropped).length = n ∧ ∀ j < n,
      (dropNear near n left dropped).getD j false =
        (dropped.getD j false || decide (left < j) && near left j) := by
  have hrights : ∀ j, j ∈ List.range' (left+1) (n-(left+1)) ↔ left < j ∧ j < n := by
    intro j
    rw [List.mem_range'_1]
    omega
  have hbounds : ∀ j ∈ List.range' (left+1) (n-(left+1)), j < dropped.length :=
    fun j hj => hlength ▸ ((hrights j).mp hj).2
  obtain ⟨hlen,hmarks⟩ := foldl_dropTurn near left hbounds
  refine ⟨hlen.trans hlength,?_⟩
  intro j hj
  have hmem : (j ∈ List.range' (left+1) (n-(left+1))) ↔ left < j := by
    rw [hrights]
    exact and_iff_left hj
  rw [dropNear,hmarks,decide_eq_decide.mpr hmem]

/-- What is marked when the outer loop comes to `m`. -/
structure Marked (near : ℕ → ℕ → Bool) (n m : ℕ) (dropped : List Bool) : Prop where
  length : dropped.length = n
  marks : ∀ j < n, dropped.getD j false = (kept near m).any fun i => i < j && near i j

lemma marked_zero : Marked near n 0 (List.replicate n false) := by
  refine ⟨List.length_replicate,?_⟩
  intro j hj
  simp [kept,List.getD_eq_getElem?_getD,hj]

/-- A position comes to the outer loop marked just when it does not stay. -/
lemma Marked.here {m : ℕ} {dropped : List Bool} (h : Marked near n m dropped) (hm : m < n) :
    dropped.getD m false = (kept near m).any fun i => near i m := by
  rw [h.marks m hm,Bool.eq_iff_iff,List.any_eq_true,List.any_eq_true]
  apply exists_congr
  intro i
  apply and_congr_right
  intro hi
  simp [lt_of_mem_kept hi]

lemma Marked.skip {m : ℕ} {dropped : List Bool} (h : Marked near n m dropped) (hm : m < n)
    (hdropped : dropped.getD m false = true) : Marked near n (m+1) dropped := by
  refine ⟨h.length,?_⟩
  intro j hj
  rw [h.here hm] at hdropped
  rw [h.marks j hj,kept,if_pos hdropped]

lemma Marked.turn {m : ℕ} {dropped : List Bool} (h : Marked near n m dropped) (hm : m < n)
    (hdropped : dropped.getD m false = false) :
    Marked near n (m+1) (dropNear near n m dropped) := by
  obtain ⟨hlength,hmarks⟩ := dropNear_spec near m h.length
  refine ⟨hlength,?_⟩
  intro j hj
  rw [h.here hm] at hdropped
  rw [hmarks j hj,h.marks j hj,kept,if_neg (by simp [hdropped])]
  simp

lemma marked_foldl {m : ℕ} (hm : m ≤ n) : Marked near n m ((List.range m).foldl
    (fun dropped left => if dropped.getD left false then dropped else dropNear near n left dropped)
    (List.replicate n false)) := by
  induction m with
  | zero => exact marked_zero
  | succ m ih =>
    have hbefore := ih (by omega)
    rw [List.range_succ,List.foldl_append,List.foldl_cons,List.foldl_nil]
    split_ifs with hdropped
    · exact hbefore.skip hm hdropped
    · exact hbefore.turn hm (by simpa using hdropped)

/-- The loops keep what greedy folding does. -/
theorem surviving_eq_kept (n : ℕ) : surviving near n = kept near n := by
  have hmarked : Marked near n n (dropLoop near n) := marked_foldl le_rfl
  apply filter_range_eq_kept
  intro j hj
  rw [mem_kept_iff hj,decide_eq_true_iff,hmarked.marks j hj,List.any_eq_false]
  apply forall_congr'
  intro i
  apply forall_congr'
  intro hi
  simp

end loops

section lists

variable {α γ : Type*} (place : α → Option γ) (into : γ → γ → Bool)

/-- The elements at some positions. -/
def pick (l : List α) (positions : List ℕ) : List α := positions.filterMap fun i => l[i]?

/-- Two elements of a list are near if both have places, and the second is near the first. -/
def nearAt (l : List α) (i j : ℕ) : Bool :=
  match (l[i]?).bind place,(l[j]?).bind place with
  | some a,some b => into a b
  | _,_ => false

/-- Greedy folding of a list. -/
def folded (l : List α) : List α := pick l (kept (nearAt place into l) l.length)

variable {place into} {l : List α}

lemma pick_range (l : List α) : pick l (List.range l.length) = l := by
  induction l using List.reverseRecOn with
  | nil => rfl
  | append_singleton l a ih =>
    have hbefore : pick (l ++ [a]) (List.range l.length) = pick l (List.range l.length) := by
      apply List.filterMap_congr
      intro i hi
      exact List.getElem?_append_left (List.mem_range.mp hi)
    rw [List.length_append,List.length_singleton,List.range_succ,pick,List.filterMap_append]
    change pick (l ++ [a]) (List.range l.length) ++ _ = _
    rw [hbefore,ih]
    simp

lemma kept_sublist_range (near : ℕ → ℕ → Bool) (n : ℕ) :
    (kept near n).Sublist (List.range n) := by
  rw [← surviving_eq_kept]
  exact List.filter_sublist

/-- What is kept of a list is in it, in the same order. -/
lemma folded_sublist (l : List α) : (folded place into l).Sublist l := by
  have hsub := (kept_sublist_range (nearAt place into l) l.length).filterMap
    fun i => l[i]?
  have hall := pick_range l
  rw [pick] at hall
  rwa [hall] at hsub

lemma pick_eq_map {positions : List ℕ} (h : ∀ i ∈ positions, i < l.length) :
    (pick l positions).map some = positions.map fun i => l[i]? := by
  induction positions with
  | nil => rfl
  | cons i positions ih =>
    obtain ⟨hi,hrest⟩ := List.forall_mem_cons.mp h
    rw [pick,List.filterMap_cons,List.getElem?_eq_getElem hi,List.map_cons,List.map_cons,
      List.getElem?_eq_getElem hi]
    exact congrArg _ (ih hrest)

lemma pick_take {positions : List ℕ} (h : ∀ i ∈ positions, i < l.length) (k : ℕ) :
    pick l (positions.take k) = (pick l positions).take k := by
  have hsome : Function.Injective (some : α → Option α) := fun _ _ => Option.some.inj
  apply List.map_injective_iff.mpr hsome
  rw [pick_eq_map fun i hi => h i (List.mem_of_mem_take hi),List.map_take,List.map_take,
    pick_eq_map h]

lemma length_pick {positions : List ℕ} (h : ∀ i ∈ positions, i < l.length) :
    (pick l positions).length = positions.length := by
  have hmap := congrArg List.length (pick_eq_map h)
  rwa [List.length_map,List.length_map] at hmap

lemma getElem?_pick {positions : List ℕ} (h : ∀ i ∈ positions, i < l.length) (a : ℕ) :
    (pick l positions)[a]? = (positions[a]?).bind fun i => l[i]? := by
  have hmap := congrArg (fun m => m[a]?) (pick_eq_map h)
  simp only [List.getElem?_map] at hmap
  cases hp : positions[a]? with
  | none =>
    rw [hp,Option.map_none,Option.map_eq_none_iff] at hmap
    exact hmap
  | some i =>
    rw [hp,Option.map_some] at hmap
    cases hq : (pick l positions)[a]? with
    | none =>
      rw [hq] at hmap
      cases hmap
    | some x =>
      rw [hq,Option.map_some,Option.some.injEq] at hmap
      exact hmap

lemma length_folded (l : List α) :
    (folded place into l).length = (kept (nearAt place into l) l.length).length :=
  length_pick (folds_kept _ l.length).bounded

/-- What is kept is apart, and folding it again keeps all of it. -/
theorem folded_folded (l : List α) :
    folded place into (folded place into l) = folded place into l := by
  have hfolds := folds_kept (nearAt place into l) l.length
  set positions := kept (nearAt place into l) l.length
  have hapart : ∀ a b, a < b → b < (folded place into l).length →
      nearAt place into (folded place into l) a b = false := by
    intro a b hab hb
    rw [length_folded] at hb
    have ha : a < positions.length := hab.trans hb
    have hlt : positions[a] < positions[b] :=
      List.pairwise_iff_getElem.mp hfolds.ascending a b ha hb hab
    have hnear := hfolds.apart _ (List.getElem_mem ha) _ (List.getElem_mem hb) hlt
    unfold nearAt at hnear ⊢
    rw [folded,getElem?_pick hfolds.bounded,getElem?_pick hfolds.bounded,
      List.getElem?_eq_getElem ha,List.getElem?_eq_getElem hb]
    exact hnear
  rw [folded.eq_1 place into (folded place into l),kept_eq_range hapart,pick_range]

/-- Lists whose elements are near in the same way are folded in the same way. -/
lemma kept_nearAt_congr {β δ : Type*} {place' : β → Option δ} {into' : δ → δ → Bool} {l' : List β}
    (hlength : l.length = l'.length)
    (h : ∀ i j, i < j → j < l.length → nearAt place into l i j = nearAt place' into' l' i j) :
    kept (nearAt place into l) l.length = kept (nearAt place' into' l') l'.length := by
  rw [kept_congr h,hlength]

/-- Folding the first elements keeps what folding all of them keeps there. -/
lemma kept_take (l : List α) (k : ℕ) :
    kept (nearAt place into (l.take k)) (l.take k).length =
      (kept (nearAt place into l) l.length).filter fun i => i < k := by
  have hsame : ∀ i, i < k → (l.take k)[i]? = l[i]? := fun i hi => List.getElem?_take_of_lt hi
  have hlength : (l.take k).length = min k l.length := List.length_take
  have hnear : kept (nearAt place into (l.take k)) (l.take k).length =
      kept (nearAt place into l) (l.take k).length := by
    apply kept_congr
    intro i j hij hj
    rw [nearAt,nearAt,hsame i (by omega),hsame j (by omega)]
  rw [hnear,kept_eq_filter (n := l.length) (by omega)]
  apply List.filter_congr
  intro i hi
  have := lt_of_mem_kept hi
  rw [decide_eq_decide]
  omega

/-- As many as there is room for survive the folding of the first `k` elements just when no two of
these are near each other, or nothing behind them survives. -/
theorem length_folded_take_iff (l : List α) (k : ℕ) :
    (folded place into (l.take k)).length = min k (folded place into l).length ↔
      (∀ i j, i < j → j < k → nearAt place into l i j = false) ∨
        ∀ i ∈ kept (nearAt place into l) l.length, i < k := by
  have hfolds := folds_kept (nearAt place into l) l.length
  rw [length_folded,length_folded,kept_take]
  set all := kept (nearAt place into l) l.length
  have hsub : (all.filter fun i => i < k).Sublist all := List.filter_sublist
  have hrange : (all.filter fun i => i < k) ⊆ List.range k := by
    intro i hi
    simpa using (List.mem_filter.mp hi).2
  have hnodup : (all.filter fun i => decide (i < k)).Nodup :=
    (hfolds.ascending.imp fun h => h.ne).sublist hsub
  have hle := (List.subperm_of_subset hnodup hrange).length_le
  rw [List.length_range] at hle
  have hle' := hsub.length_le
  constructor
  · intro heq
    rcases le_total k all.length with hk | hk
    · -- all of the first stay
      left
      intro i j hij hj
      have hperm : (all.filter fun i => i < k).Perm (List.range k) :=
        (List.subperm_of_subset hnodup hrange).perm_of_length_le (by
          rw [List.length_range]
          omega)
      have hmem : ∀ i < k, i ∈ all := fun i hi =>
        List.mem_of_mem_filter (hperm.mem_iff.mpr (List.mem_range.mpr hi))
      exact hfolds.apart i (hmem i (hij.trans hj)) j (hmem j hj) hij
    · right
      have hwhole := hsub.eq_of_length (by omega)
      intro i hi
      rw [← hwhole] at hi
      simpa using (List.mem_filter.mp hi).2
  · rintro (hnear | hbelow)
    · have hmem : ∀ i, i < l.length → i < k → i ∈ all := by
        intro i hi hk
        rw [mem_kept_iff hi]
        exact fun j _ hlt => hnear j i hlt hk
      have hfirst : List.range (min k l.length) ⊆ all.filter fun i => i < k := by
        intro i hi
        rw [List.mem_range] at hi
        exact List.mem_filter.mpr ⟨hmem i (by omega) (by omega),decide_eq_true (by omega)⟩
      have hmany := (List.subperm_of_subset List.nodup_range hfirst).length_le
      have hall : all.length ≤ l.length := by
        have := (kept_sublist_range (nearAt place into l) l.length).length_le
        rwa [List.length_range] at this
      rw [List.length_range] at hmany
      omega
    · have hwhole : (all.filter fun i => decide (i < k)) = all :=
        List.filter_eq_self.mpr fun i hi => decide_eq_true (hbelow i hi)
      rw [hwhole] at hle ⊢
      omega

end lists

end RagRuntime.Base.Folding
