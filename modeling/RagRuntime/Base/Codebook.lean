import Mathlib.Algebra.BigOperators.Group.Finset.Basic
import Mathlib.Algebra.BigOperators.Group.Finset.Piecewise
import Mathlib.Algebra.BigOperators.Group.List.Basic
import Mathlib.Algebra.BigOperators.Ring.Finset
import Mathlib.Algebra.BigOperators.Ring.List
import Mathlib.Algebra.Order.BigOperators.Group.Finset
import Mathlib.Algebra.Order.BigOperators.Group.List
import Mathlib.Algebra.Order.Field.Basic
import Mathlib.Data.List.GetD
import Mathlib.Tactic.FieldSimp
import Mathlib.Tactic.Linarith
import Mathlib.Tactic.Ring

/-! Vectors coded block by block: sums over two vectors that split along the blocks, the nearest
word of a codebook, and the mean as the word with the least distortion. -/
namespace RagRuntime.Base

section blocks

variable {α K : Type*}

/-- The `s`-th block of `d` entries. -/
def block (v : List α) (d s : ℕ) : List α := (v.drop (s*d)).take d

lemma length_block {v : List α} {d m s : ℕ} (hv : v.length = m*d) (hs : s < m) :
    (block v d s).length = d := by
  have hroom : (s+1)*d ≤ m*d := Nat.mul_le_mul_right d hs
  rw [Nat.succ_mul] at hroom
  rw [block,List.length_take,List.length_drop]
  omega

lemma getD_block {v : List α} {d s c : ℕ} (z : α) (hc : c < d) :
    (block v d s).getD c z = v.getD (s*d+c) z := by
  rw [List.getD_eq_getElem?_getD,List.getD_eq_getElem?_getD,block,List.getElem?_take_of_lt hc,
    List.getElem?_drop]

/-- A vector is the row of its blocks. -/
lemma flatten_blocks {v : List α} {d m : ℕ} (hv : v.length = m*d) :
    ((List.range m).map (block v d)).flatten = v := by
  have htake : ∀ k, ((List.range k).map (block v d)).flatten = v.take (k*d) := by
    intro k
    induction k with
    | zero => simp
    | succ k ih =>
      rw [List.range_succ,List.map_append,List.flatten_append,ih,List.map_singleton,
        List.flatten_singleton,Nat.succ_mul,List.take_add,block]
  rw [htake,← hv,List.take_length]

/-- A block of a row of words is one of the words. -/
lemma block_flatten {words : List (List α)} {d : ℕ} (h : ∀ w ∈ words, w.length = d) {s : ℕ}
    (hs : s < words.length) : block words.flatten d s = words[s] := by
  induction words generalizing s with
  | nil => cases hs
  | cons w words ih =>
    obtain ⟨hw,hwords⟩ := List.forall_mem_cons.mp h
    cases s with
    | zero => rw [block,List.flatten_cons,Nat.zero_mul,List.drop_zero,← hw,List.take_left]; rfl
    | succ s =>
      rw [List.flatten_cons,block,Nat.succ_mul,Nat.add_comm,← List.drop_drop,← hw,List.drop_left,
        hw]
      exact ih hwords (Nat.lt_of_succ_lt_succ hs)

lemma length_flatten_words {words : List (List α)} {d : ℕ} (h : ∀ w ∈ words, w.length = d) :
    words.flatten.length = words.length*d := by
  induction words with
  | nil => simp
  | cons w words ih =>
    obtain ⟨hw,hwords⟩ := List.forall_mem_cons.mp h
    rw [List.flatten_cons,List.length_append,ih hwords,hw,List.length_cons]
    ring

variable [AddCommMonoid K] (f : α → α → K)

/-- What `f` gives at the entries of two vectors, summed up. -/
def pairSum (a b : List α) : K := (List.zipWith f a b).sum

lemma pairSum_append {a b a' b' : List α} (h : a.length = b.length) :
    pairSum f (a ++ a') (b ++ b') = pairSum f a b + pairSum f a' b' := by
  rw [pairSum,List.zipWith_append h,List.sum_append]
  rfl

/-- The sum over two rows of blocks is that over the blocks. -/
lemma pairSum_flatten {as bs : List (List α)}
    (h : List.Forall₂ (fun a b => a.length = b.length) as bs) :
    pairSum f as.flatten bs.flatten = (List.zipWith (pairSum f) as bs).sum := by
  induction h with
  | nil => rfl
  | cons hab _ ih =>
    rw [List.flatten_cons,List.flatten_cons,pairSum_append f hab,ih,List.zipWith_cons_cons,
      List.sum_cons]

/-- The sum over a vector and a row of words. -/
lemma pairSum_words {v : List α} {d m : ℕ} (hv : v.length = m*d) {word : ℕ → List α}
    (hword : ∀ s < m, (word s).length = d) :
    pairSum f v ((List.range m).map word).flatten =
      ((List.range m).map fun s => pairSum f (block v d s) (word s)).sum := by
  conv_lhs => rw [← flatten_blocks hv]
  rw [pairSum_flatten,List.zipWith_map,List.zipWith_self]
  rw [List.forall₂_map_left_iff,List.forall₂_map_right_iff,List.forall₂_same]
  intro s hs
  have hs := List.mem_range.mp hs
  rw [length_block hv hs,hword s hs]

end blocks

section nearest

variable {K : Type*} [LinearOrder K]

/-- A smaller distance replaces the one before. -/
def nearestTurn (distance : ℕ → K) (best : Option K × ℕ) (c : ℕ) : Option K × ℕ :=
  match best.1 with
  | none => (some (distance c),c)
  | some d => if distance c < d then (some (distance c),c) else best

/-- The first of the nearest words. -/
def nearest (distance : ℕ → K) (n : ℕ) : ℕ :=
  ((List.range n).foldl (nearestTurn distance) (none,0)).2

lemma nearest_spec (distance : ℕ → K) {n : ℕ} (hn : 0 < n) :
    nearest distance n < n ∧ (∀ c < n, distance (nearest distance n) ≤ distance c) ∧
      ∀ c < nearest distance n, distance (nearest distance n) < distance c := by
  have hrun : ∀ k, (List.range (k+1)).foldl (nearestTurn distance) (none,0) =
      (some (distance (nearest distance (k+1))),nearest distance (k+1)) ∧
      nearest distance (k+1) < k+1 ∧
      (∀ c < k+1, distance (nearest distance (k+1)) ≤ distance c) ∧
      ∀ c < nearest distance (k+1), distance (nearest distance (k+1)) < distance c := by
    intro k
    induction k with
    | zero =>
      refine ⟨rfl,Nat.zero_lt_one,fun c hc => ?_,fun c hc => absurd hc (Nat.not_lt_zero c)⟩
      rw [Nat.lt_one_iff.mp hc]
      exact le_rfl
    | succ k ih =>
      obtain ⟨hfold,hlt,hbest,hfirst⟩ := ih
      have hstep : (List.range (k+2)).foldl (nearestTurn distance) (none,0) =
          if distance (k+1) < distance (nearest distance (k+1)) then
            (some (distance (k+1)),k+1)
          else (some (distance (nearest distance (k+1))),nearest distance (k+1)) := by
        rw [List.range_succ,List.foldl_append,hfold]
        rfl
      by_cases hnear : distance (k+1) < distance (nearest distance (k+1))
      · rw [if_pos hnear] at hstep
        have hnew : nearest distance (k+2) = k+1 := by rw [nearest,hstep]
        rw [hnew]
        refine ⟨hstep,Nat.lt_succ_self _,fun c hc => ?_,fun c hc => ?_⟩
        · obtain hc | rfl := Nat.lt_succ_iff_lt_or_eq.mp hc
          · exact (hnear.trans_le (hbest c hc)).le
          · exact le_rfl
        · exact hnear.trans_le (hbest c hc)
      · rw [if_neg hnear] at hstep
        have hsame : nearest distance (k+2) = nearest distance (k+1) := by rw [nearest,hstep]
        rw [hsame]
        refine ⟨hstep,Nat.lt_succ_of_lt hlt,fun c hc => ?_,hfirst⟩
        obtain hc | rfl := Nat.lt_succ_iff_lt_or_eq.mp hc
        · exact hbest c hc
        · exact not_lt.mp hnear
  obtain ⟨k,rfl⟩ := Nat.exists_eq_succ_of_ne_zero hn.ne'
  exact (hrun k).2

lemma nearest_congr {distance distance' : ℕ → K} {n : ℕ}
    (h : ∀ c < n, distance c = distance' c) : nearest distance n = nearest distance' n := by
  rw [nearest,nearest]
  congr 1
  refine List.foldl_ext _ _ _ fun best c hc => ?_
  rw [nearestTurn,nearestTurn,h c (List.mem_range.mp hc)]

/-- The first of the words that a computed distance puts nearest to a point. -/
def nearestBy {α : Type*} (distance : α → List K → K) (words : List (List K)) (p : α) : ℕ :=
  nearest (fun c => distance p (words.getD c [])) words.length

lemma nearestBy_lt {α : Type*} (distance : α → List K → K) {words : List (List K)} (h : words ≠ [])
    (p : α) : nearestBy distance words p < words.length :=
  (nearest_spec _ (List.length_pos_of_ne_nil h)).1

end nearest

section squares

variable {K : Type*} [Field K]

/-- The square of the Euclidean distance. -/
def sqDist (a b : List K) : K := pairSum (fun x y => (x-y)*(x-y)) a b

lemma sqDist_cons (x y : K) (a b : List K) :
    sqDist (x::a) (y::b) = (x-y)*(x-y) + sqDist a b := List.sum_cons

@[simp] lemma sqDist_self (a : List K) : sqDist a a = 0 := by
  induction a with
  | nil => rfl
  | cons x a ih => rw [sqDist_cons,ih,sub_self,mul_zero,add_zero]

/-- The same sum, entry by entry. -/
lemma sqDist_eq_sum {d : ℕ} {a b : List K} (ha : a.length = d) (hb : b.length = d) :
    sqDist a b = ∑ i ∈ Finset.range d, (a.getD i 0 - b.getD i 0)*(a.getD i 0 - b.getD i 0) := by
  induction d generalizing a b with
  | zero =>
    rw [List.length_eq_zero_iff.mp ha,List.length_eq_zero_iff.mp hb]
    rfl
  | succ d ih =>
    obtain ⟨x,a,rfl⟩ := List.exists_cons_of_length_eq_add_one ha
    obtain ⟨y,b,rfl⟩ := List.exists_cons_of_length_eq_add_one hb
    rw [sqDist_cons,ih (Nat.succ.inj ha) (Nat.succ.inj hb),Finset.sum_range_succ',add_comm]
    rfl

variable [LinearOrder K] [IsStrictOrderedRing K]

lemma sqDist_nonneg (a b : List K) : 0 ≤ sqDist a b := by
  apply List.sum_nonneg
  intro x hx
  obtain ⟨i,hi,rfl⟩ := List.getElem_of_mem hx
  rw [List.getElem_zipWith]
  exact mul_self_nonneg _

/-- Vectors at no distance are the same. -/
lemma eq_of_sqDist_eq_zero {a b : List K} (hlength : a.length = b.length) (h : sqDist a b = 0) :
    a = b := by
  induction a generalizing b with
  | nil => exact (List.length_eq_zero_iff.mp hlength.symm).symm
  | cons x a ih =>
    cases b with
    | nil => cases hlength
    | cons y b =>
      rw [sqDist_cons] at h
      have hrest := sqDist_nonneg a b
      have hhead : (x-y)*(x-y) = 0 := le_antisymm (by linarith) (mul_self_nonneg _)
      rw [ih (Nat.succ.inj hlength) (by linarith),sub_eq_zero.mp (mul_self_eq_zero.mp hhead)]

end squares

section means

lemma length_foldl_zipWith {α : Type*} (f : α → α → α) {d : ℕ} {points : List (List α)}
    (h : ∀ p ∈ points, p.length = d) {acc : List α} (hacc : acc.length = d) :
    (points.foldl (List.zipWith f) acc).length = d := by
  induction points generalizing acc with
  | nil => exact hacc
  | cons p points ih =>
    obtain ⟨hp,hpoints⟩ := List.forall_mem_cons.mp h
    exact ih hpoints (by rw [List.length_zipWith,hacc,hp,Nat.min_self])

variable {K : Type*} [Field K]

def vecSum (d : ℕ) (points : List (List K)) : List K :=
  points.foldl (List.zipWith (· + ·)) (List.replicate d 0)

def mean (d : ℕ) (points : List (List K)) : List K :=
  (vecSum d points).map (· / points.length)

lemma foldl_zipWith_add {d : ℕ} {points : List (List K)} (h : ∀ p ∈ points, p.length = d)
    {acc : List K} (hacc : acc.length = d) {i : ℕ} (hi : i < d) :
    (points.foldl (List.zipWith (· + ·)) acc).getD i 0 =
      acc.getD i 0 + (points.map fun p => p.getD i 0).sum := by
  induction points generalizing acc with
  | nil => exact (add_zero _).symm
  | cons p points ih =>
    obtain ⟨hp,hpoints⟩ := List.forall_mem_cons.mp h
    have hnext : (List.zipWith (· + ·) acc p).length = d := by
      rw [List.length_zipWith,hacc,hp,Nat.min_self]
    rw [List.foldl_cons,ih hpoints hnext,List.map_cons,List.sum_cons,← add_assoc]
    congr 1
    rw [List.getD_eq_getElem _ _ (by omega),List.getElem_zipWith,
      List.getD_eq_getElem _ _ (by omega),List.getD_eq_getElem _ _ (by omega)]

lemma length_mean {d : ℕ} {points : List (List K)} (h : ∀ p ∈ points, p.length = d) :
    (mean d points).length = d := by
  rw [mean,List.length_map]
  exact length_foldl_zipWith _ h List.length_replicate

lemma getD_mean {d : ℕ} {points : List (List K)} (h : ∀ p ∈ points, p.length = d) {i : ℕ}
    (hi : i < d) : (mean d points).getD i 0 =
      (points.map fun p => p.getD i 0).sum/points.length := by
  have hlength := length_foldl_zipWith (· + ·) h (List.length_replicate (a := (0 : K)))
  rw [List.getD_eq_getElem _ _ (by rwa [length_mean h])]
  simp only [mean,List.getElem_map]
  have hentry := foldl_zipWith_add h (List.length_replicate (a := (0 : K))) hi
  rw [List.getD_eq_getElem _ _ (by rwa [hlength]),List.getD_replicate _ hi,zero_add] at hentry
  exact congrArg (· / (points.length : K)) hentry

lemma sum_map_finset_sum {ι : Type*} (l : List ι) (t : Finset ℕ) (f : ι → ℕ → K) :
    (l.map fun x => ∑ i ∈ t, f x i).sum = ∑ i ∈ t, (l.map fun x => f x i).sum := by
  induction l with
  | nil => simp
  | cons x l ih => simp only [List.map_cons,List.sum_cons,ih,Finset.sum_add_distrib]

lemma sum_sq_eq (m c : K) (xs : List K) :
    (xs.map fun x => (x-c)*(x-c)).sum = (xs.map fun x => (x-m)*(x-m)).sum +
      2*(m-c)*(xs.sum - xs.length*m) + xs.length*((m-c)*(m-c)) := by
  induction xs with
  | nil => simp
  | cons x xs ih =>
    simp only [List.map_cons,List.sum_cons,List.length_cons,Nat.cast_add,Nat.cast_one,ih]
    ring

variable [LinearOrder K] [IsStrictOrderedRing K]

/-- No number is closer to all of some numbers than their mean, and what is near the mean is hardly
further from them. -/
lemma sum_sq_near_mean_le {xs : List K} (hxs : xs ≠ []) {m δ : K} (hm : |m-xs.sum/xs.length| ≤ δ)
    (c : K) : (xs.map fun x => (x-m)*(x-m)).sum ≤
      (xs.map fun x => (x-c)*(x-c)).sum + xs.length*(δ*δ) := by
  have hpos : (0 : K) < xs.length := by exact_mod_cast List.length_pos_of_ne_nil hxs
  have hbalanced : xs.sum - xs.length*(xs.sum/xs.length) = 0 := by
    field_simp
    ring
  have hsum : ∀ c, (xs.map fun x => (x-c)*(x-c)).sum =
      (xs.map fun x => (x-xs.sum/xs.length)*(x-xs.sum/xs.length)).sum +
        xs.length*((xs.sum/xs.length-c)*(xs.sum/xs.length-c)) := by
    intro c
    rw [sum_sq_eq (xs.sum/xs.length) c xs,hbalanced,mul_zero,add_zero]
  have hsquare : (xs.sum/xs.length-m)*(xs.sum/xs.length-m) ≤ δ*δ := by
    rw [← abs_mul_abs_self,abs_sub_comm]
    exact mul_self_le_mul_self (abs_nonneg _) hm
  have hmean := mul_nonneg hpos.le (mul_self_nonneg (xs.sum/xs.length-c))
  rw [hsum m,hsum c]
  linarith [mul_le_mul_of_nonneg_left hsquare hpos.le]

/-- The same for vectors, whose entries are near those of the mean. -/
theorem sum_sqDist_near_mean_le {d : ℕ} {points : List (List K)} (h : ∀ p ∈ points, p.length = d)
    (hne : points ≠ []) {w v : List K} (hw : w.length = d) (hv : v.length = d) {δ : K}
    (hnear : ∀ i < d, |v.getD i 0 - (mean d points).getD i 0| ≤ δ) :
    (points.map fun p => sqDist p v).sum ≤
      (points.map fun p => sqDist p w).sum + points.length*(d*(δ*δ)) := by
  have hsum : ∀ v : List K, v.length = d → (points.map fun p => sqDist p v).sum =
      ∑ i ∈ Finset.range d,
        (points.map fun p => (p.getD i 0 - v.getD i 0)*(p.getD i 0 - v.getD i 0)).sum := by
    intro v hv
    rw [← sum_map_finset_sum]
    exact congrArg List.sum (List.map_congr_left fun p hp => sqDist_eq_sum (h p hp) hv)
  have hrest : (points.length : K)*(d*(δ*δ)) =
      ∑ i ∈ Finset.range d, (points.length : K)*(δ*δ) := by
    rw [Finset.sum_const,Finset.card_range,nsmul_eq_mul]
    ring
  rw [hsum v hv,hsum w hw,hrest,← Finset.sum_add_distrib]
  apply Finset.sum_le_sum
  intro i hi
  have hi := Finset.mem_range.mp hi
  have hsome : (points.map fun p => p.getD i 0) ≠ [] := by simpa using hne
  have hentry := hnear i hi
  rw [getD_mean h hi] at hentry
  have hclose := sum_sq_near_mean_le hsome (δ := δ) (m := v.getD i 0)
    (by rwa [List.length_map]) (w.getD i 0)
  rw [List.length_map,List.map_map,List.map_map] at hclose
  exact hclose

end means

section clusters

def members {α : Type*} (entries : List (α × ℕ)) (c : ℕ) : List α :=
  (entries.filter fun e => e.2 = c).map Prod.fst

lemma mem_members {α : Type*} {entries : List (α × ℕ)} {c : ℕ} {p : α} :
    p ∈ members entries c ↔ (p,c) ∈ entries := by
  simp [members]

lemma sum_length_members {α : Type*} {entries : List (α × ℕ)} {n : ℕ} (h : ∀ e ∈ entries, e.2 < n) :
    ∑ c ∈ Finset.range n, (members entries c).length = entries.length := by
  induction entries with
  | nil => simp [members]
  | cons e entries ih =>
    obtain ⟨he,hentries⟩ := List.forall_mem_cons.mp h
    have hsplit : ∀ c, (members (e::entries) c).length =
        (if c = e.2 then 1 else 0) + (members entries c).length := by
      intro c
      by_cases hc : e.2 = c
      · subst hc
        simp [members,Nat.add_comm]
      · simp [members,hc,Ne.symm hc]
    rw [Finset.sum_congr rfl fun c _ => hsplit c,Finset.sum_add_distrib,ih hentries,
      Finset.sum_ite_eq' (Finset.range n) e.2,if_pos (Finset.mem_range.mpr he),List.length_cons,
      Nat.add_comm]

/-- Those of some points that are assigned one word. -/
lemma members_sublist {α : Type*} (points : List α) (f : α → ℕ) (c : ℕ) :
    List.Sublist (members (points.map fun p => (p,f p)) c) points := by
  have h := (List.filter_sublist (l := points.map fun p => (p,f p))
    (p := fun e => decide (e.2 = c))).map Prod.fst
  rwa [List.map_map,show Prod.fst ∘ (fun p => (p,f p)) = id from rfl,List.map_id] at h

variable {K : Type*} [Field K]

/-- How far points are from the words that they are assigned. -/
def spread (words : List (List K)) (entries : List (List K × ℕ)) : K :=
  (entries.map fun e => sqDist e.1 (words.getD e.2 [])).sum

variable {words : List (List K)} {entries : List (List K × ℕ)}

/-- The points of one word after those of another. -/
lemma spread_eq_sum {n : ℕ} (h : ∀ e ∈ entries, e.2 < n) : spread words entries =
    ∑ c ∈ Finset.range n, ((members entries c).map fun p => sqDist p (words.getD c [])).sum := by
  induction entries with
  | nil => simp [spread,members]
  | cons e entries ih =>
    obtain ⟨he,hentries⟩ := List.forall_mem_cons.mp h
    have hsplit : ∀ c, ((members (e::entries) c).map fun p => sqDist p (words.getD c [])).sum =
        (if c = e.2 then sqDist e.1 (words.getD e.2 []) else 0) +
          ((members entries c).map fun p => sqDist p (words.getD c [])).sum := by
      intro c
      by_cases hc : e.2 = c
      · subst hc
        simp [members]
      · simp [members,hc,Ne.symm hc]
    rw [Finset.sum_congr rfl fun c _ => hsplit c,Finset.sum_add_distrib,← ih hentries,
      Finset.sum_ite_eq' (Finset.range n) e.2,if_pos (Finset.mem_range.mpr he)]
    rfl

variable [LinearOrder K]

/-- The first of the words that are nearest to a point. -/
def nearestOf (words : List (List K)) (p : List K) : ℕ :=
  nearest (fun c => sqDist p (words.getD c [])) words.length

/-- How far points are from the nearest words. -/
def distortion (words points : List (List K)) : K :=
  (points.map fun p => sqDist p (words.getD (nearestOf words p) [])).sum

lemma nearestOf_lt (h : words ≠ []) (p : List K) : nearestOf words p < words.length :=
  (nearest_spec _ (List.length_pos_of_ne_nil h)).1

variable [IsStrictOrderedRing K]

lemma distortion_nonneg (words points : List (List K)) : 0 ≤ distortion words points := by
  apply List.sum_nonneg
  intro x hx
  obtain ⟨p,-,rfl⟩ := List.mem_map.mp hx
  exact sqDist_nonneg _ _

lemma distortion_le_spread (h : ∀ e ∈ entries, e.2 < words.length) :
    distortion words (entries.map Prod.fst) ≤ spread words entries := by
  rw [distortion,List.map_map,spread]
  apply List.sum_le_sum
  intro e he
  have hbest := nearest_spec (fun c => sqDist e.1 (words.getD c [])) (Nat.zero_lt_of_lt (h e he))
  exact hbest.2.1 _ (h e he)

/-- Where each word comes near the mean of its points, the points are hardly further from their
words. -/
theorem spread_near_means_le {d : ℕ} {words' : List (List K)} {δ : K}
    (hpoints : ∀ e ∈ entries, e.1.length = d) (hwords : ∀ w ∈ words, w.length = d)
    (hwords' : ∀ w ∈ words', w.length = d) (hlength : words'.length = words.length)
    (hassigned : ∀ e ∈ entries, e.2 < words.length)
    (hmeans : ∀ c, members entries c ≠ [] → ∀ i < d,
      |(words'.getD c []).getD i 0 - (mean d (members entries c)).getD i 0| ≤ δ) :
    spread words' entries ≤ spread words entries + entries.length*(d*(δ*δ)) := by
  have hrest : (entries.length : K)*(d*(δ*δ)) =
      ∑ c ∈ Finset.range words.length, ((members entries c).length : K)*(d*(δ*δ)) := by
    rw [← Finset.sum_mul,← sum_length_members hassigned,Nat.cast_sum]
  rw [spread_eq_sum hassigned,spread_eq_sum hassigned,hrest,← Finset.sum_add_distrib]
  apply Finset.sum_le_sum
  intro c hc
  have hc := Finset.mem_range.mp hc
  by_cases hnone : members entries c = []
  · simp [hnone]
  · refine sum_sqDist_near_mean_le (fun p hp => hpoints _ (mem_members.mp hp)) hnone ?_ ?_
      (hmeans c hnone)
    · rw [List.getD_eq_getElem _ _ hc]
      exact hwords _ (List.getElem_mem hc)
    · rw [List.getD_eq_getElem _ _ (hlength ▸ hc)]
      exact hwords' _ (List.getElem_mem _)

/-- A computed distance is right up to a part of it, and up to a number. -/
def DistanceWithin (ε η : K) (distance : List K → List K → K) (p w : List K) : Prop :=
  |distance p w - sqDist p w| ≤ ε*sqDist p w + η

/-- The word that is put nearest is hardly further than the nearest one. -/
lemma sqDist_nearestBy_le {distance : List K → List K → K} {ε η : K} (hε : ε < 1)
    (hsome : words ≠ []) {p : List K} (hwithin : ∀ w ∈ words, DistanceWithin ε η distance p w) :
    sqDist p (words.getD (nearestBy distance words p) []) ≤
      (1+ε)/(1-ε)*sqDist p (words.getD (nearestOf words p) []) + 2*η/(1-ε) := by
  have hpos : 0 < 1-ε := sub_pos.mpr hε
  have hword : ∀ c < words.length, DistanceWithin ε η distance p (words.getD c []) := by
    intro c hc
    rw [List.getD_eq_getElem _ _ hc]
    exact hwithin _ (List.getElem_mem hc)
  have hlt := nearestOf_lt hsome p
  have hfound := abs_le.mp (hword _ (nearestBy_lt distance hsome p))
  have hbest := abs_le.mp (hword _ hlt)
  have hless := (nearest_spec (fun c => distance p (words.getD c []))
    (List.length_pos_of_ne_nil hsome)).2.1 _ hlt
  change distance p (words.getD (nearestBy distance words p) []) ≤ _ at hless
  rw [div_mul_eq_mul_div,← add_div,le_div_iff₀ hpos]
  linarith [hfound.1,hbest.2]

/-- One round of Lloyd's algorithm with computed distances and means. -/
theorem distortion_round_le {d : ℕ} {words' points : List (List K)}
    {distance : List K → List K → K} {ε η δ : K} (hε : ε < 1)
    (hpoints : ∀ p ∈ points, p.length = d) (hwords : ∀ w ∈ words, w.length = d) (hsome : words ≠ [])
    (hwords' : ∀ w ∈ words', w.length = d) (hlength : words'.length = words.length)
    (hwithin : ∀ p ∈ points, ∀ w ∈ words, DistanceWithin ε η distance p w)
    (hmeans : ∀ c, members (points.map fun p => (p,nearestBy distance words p)) c ≠ [] → ∀ i < d,
      |(words'.getD c []).getD i 0 - (mean d (members
        (points.map fun p => (p,nearestBy distance words p)) c)).getD i 0| ≤ δ) :
    distortion words' points ≤ (1+ε)/(1-ε)*distortion words points +
      points.length*(2*η/(1-ε) + d*(δ*δ)) := by
  set entries := points.map fun p => (p,nearestBy distance words p) with hentries
  have hassigned : ∀ e ∈ entries, e.2 < words.length := by
    intro e he
    obtain ⟨p,-,rfl⟩ := List.mem_map.mp he
    exact nearestBy_lt distance hsome p
  have hfirst : entries.map Prod.fst = points := by
    rw [hentries,List.map_map]
    exact List.map_id points
  have hcount : entries.length = points.length := List.length_map _
  have hlengths : ∀ e ∈ entries, e.1.length = d := by
    intro e he
    exact hpoints _ (hfirst ▸ List.mem_map_of_mem he)
  have hnearest : spread words entries ≤
      (1+ε)/(1-ε)*distortion words points + points.length*(2*η/(1-ε)) := by
    have hsum : (1+ε)/(1-ε)*distortion words points + points.length*(2*η/(1-ε)) =
        (points.map fun p => (1+ε)/(1-ε)*sqDist p (words.getD (nearestOf words p) []) +
          2*η/(1-ε)).sum := by
      rw [List.sum_map_add,List.sum_map_mul_left,List.map_const',List.sum_replicate,nsmul_eq_mul]
      rfl
    rw [hsum,spread,hentries,List.map_map]
    exact List.sum_le_sum fun p hp => sqDist_nearestBy_le hε hsome (hwithin p hp)
  calc distortion words' points = distortion words' (entries.map Prod.fst) := by rw [hfirst]
    _ ≤ spread words' entries := distortion_le_spread (by rwa [hlength])
    _ ≤ spread words entries + entries.length*(d*(δ*δ)) :=
      spread_near_means_le hlengths hwords hwords' hlength hassigned hmeans
    _ ≤ (1+ε)/(1-ε)*distortion words points + points.length*(2*η/(1-ε) + d*(δ*δ)) := by
      rw [hcount,mul_add]
      linarith

end clusters

section drift

variable {K : Type*} [Field K]

/-- What a quantity can become in `n` rounds that multiply it by `ρ` and add `b`. -/
def drifted (ρ b : K) (n : ℕ) (e : K) : K := ρ^n*e + (∑ i ∈ Finset.range n, ρ^i)*b

@[simp] lemma drifted_zero (ρ b e : K) : drifted ρ b 0 e = e := by simp [drifted]

lemma drifted_succ (ρ b : K) (n : ℕ) (e : K) :
    drifted ρ b (n+1) e = drifted ρ b n (ρ*e+b) := by
  rw [drifted,drifted,Finset.sum_range_succ]
  ring

@[simp] lemma drifted_one (n : ℕ) (e : K) : drifted 1 0 n e = e := by simp [drifted]

/-- Quantities that drift side by side do so as their sum. -/
lemma sum_drifted {ι : Type*} (l : List ι) (ρ b : K) (n : ℕ) (e : ι → K) :
    (l.map fun x => drifted ρ b n (e x)).sum = drifted ρ (l.length*b) n (l.map e).sum := by
  induction l with
  | nil => simp [drifted]
  | cons x l ih =>
    rw [List.map_cons,List.sum_cons,ih,List.map_cons,List.sum_cons,List.length_cons,drifted,drifted,
      drifted]
    push_cast
    ring

variable [LinearOrder K] [IsStrictOrderedRing K] {ρ b e e' : K}

lemma drifted_mono (hρ : 1 ≤ ρ) (n : ℕ) (h : e ≤ e') : drifted ρ b n e ≤ drifted ρ b n e' := by
  have hpow := pow_nonneg (zero_le_one.trans hρ) n
  exact add_le_add_left (mul_le_mul_of_nonneg_left h hpow) _

lemma le_drifted (hρ : 1 ≤ ρ) (hb : 0 ≤ b) (n : ℕ) (he : 0 ≤ e) : e ≤ drifted ρ b n e := by
  have hpow := le_mul_of_one_le_left he (one_le_pow₀ hρ (n := n))
  have hsum := Finset.sum_nonneg fun i (_ : i ∈ Finset.range n) =>
    pow_nonneg (zero_le_one.trans hρ) i
  exact hpow.trans (le_add_of_nonneg_right (mul_nonneg hsum hb))

end drift
end RagRuntime.Base
