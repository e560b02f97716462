import Mathlib.Algebra.BigOperators.Ring.Finset
import Mathlib.Algebra.Order.Round
import Mathlib.Algebra.Order.BigOperators.Group.Finset
import Mathlib.Data.List.GetD
import Mathlib.Data.Rat.Floor
import Mathlib.Tactic.Linarith
import RagRuntime.Base.SumTree

/-! Vectors as bytes: symmetric quantization, and its dot product in 32 bits on every kernel. -/
namespace RagRuntime.Dense
open RagRuntime.Base
open scoped BigOperators

/-- A conversion to an integer drops the fraction. -/
def truncate (q : ℚ) : ℤ := if q < 0 then ⌈q⌉ else ⌊q⌋

/-- A scaled component within the range of a code. -/
def clampSq8 (s : ℚ) : ℚ := if s < -127 then -127 else if s > 127 then 127 else s

def quantizeComponent (x : ℚ) : ℤ :=
  let s := clampSq8 (x*127)
  truncate (if s < 0 then s - 1/2 else s + 1/2)

/-- The codes of a vector, as many as there is room for. -/
def quantizeSq8 (v : List ℚ) (size : ℕ) : List ℤ := (v.take size).map quantizeComponent

def fitsInt32 (z : ℤ) : Prop := -2^31 ≤ z ∧ z < 2^31

instance : DecidablePred fitsInt32 := fun _ => inferInstanceAs (Decidable (_ ∧ _))

/-- The product of the codes at a position. -/
def product (a b : List ℤ) (i : ℕ) : ℤ := a.getD i 0 * b.getD i 0

/-- Pairs of products from position `i` on are added to the lanes. -/
def accumulate : List SumTree → ℕ → List SumTree
  | [],_ => []
  | x::lanes,i => .add x (.add (.term i) (.term (i+1)))::accumulate lanes (i+2)

/-- The lanes after the blocks of 32 positions. -/
def lanesAvx2 (blocks : ℕ) : List SumTree :=
  (List.range blocks).foldl (fun acc k => accumulate (accumulate acc (32*k)) (32*k+16))
    (List.replicate 8 .zero)

def orderAvx2 (n : ℕ) : SumTree :=
  (SumTree.total (lanesAvx2 (n/32))).sequence (List.range' (32*(n/32)) (n - 32*(n/32)))

/-- The two accumulators after the blocks of 16 positions. -/
def lanesNeon (blocks : ℕ) : List SumTree × List SumTree :=
  (List.range blocks).foldl (fun acc k => (accumulate acc.1 (16*k),accumulate acc.2 (16*k+8)))
    (List.replicate 4 .zero,List.replicate 4 .zero)

def orderNeon (n : ℕ) : SumTree :=
  let acc := lanesNeon (n/16)
  (SumTree.total (List.zipWith .add acc.1 acc.2)).sequence
    (List.range' (16*(n/16)) (n - 16*(n/16)))

def orderScalar (n : ℕ) : SumTree := SumTree.zero.sequence (List.range n)

inductive Kernel
  | scalar
  | avx2
  | neon
  deriving DecidableEq, Repr

def Kernel.order : Kernel → ℕ → SumTree
  | .scalar => orderScalar
  | .avx2 => orderAvx2
  | .neon => orderNeon

/-- The dot product of two rows of codes; `none` when a sum leaves the 32 bits. -/
def dotSq8 (kernel : Kernel) (a b : List ℤ) (n : ℕ) : Option ℤ :=
  (kernel.order n).run fitsInt32 (product a b)

section positions

lemma positions_accumulate (lanes : List SumTree) (i : ℕ) :
    ((accumulate lanes i).map SumTree.positions).sum =
      (lanes.map SumTree.positions).sum + (List.range' i (2*lanes.length) : Multiset ℕ) := by
  induction lanes generalizing i with
  | nil => rfl
  | cons x lanes ih =>
    have hpair : (List.range' i (2*(lanes.length+1)) : Multiset ℕ) =
        {i} + ({i+1} + (List.range' (i+2) (2*lanes.length) : Multiset ℕ)) := rfl
    rw [accumulate,List.map_cons,List.sum_cons,ih,List.map_cons,List.sum_cons,List.length_cons,
      hpair,SumTree.positions,SumTree.positions,SumTree.positions,SumTree.positions]
    abel

lemma length_accumulate (lanes : List SumTree) (i : ℕ) :
    (accumulate lanes i).length = lanes.length := by
  induction lanes generalizing i with
  | nil => rfl
  | cons x lanes ih => rw [accumulate,List.length_cons,ih,List.length_cons]

lemma range'_append (i m n : ℕ) :
    (List.range' i m : Multiset ℕ) + (List.range' (i+m) n : Multiset ℕ) =
      (List.range' i (m+n) : Multiset ℕ) := by
  rw [Multiset.coe_add,List.range'_append_1]

lemma positions_lanesAvx2 (blocks : ℕ) : (lanesAvx2 blocks).length = 8 ∧
    ((lanesAvx2 blocks).map SumTree.positions).sum = (List.range' 0 (32*blocks) : Multiset ℕ) := by
  induction blocks with
  | zero => exact ⟨rfl,rfl⟩
  | succ k ih =>
    obtain ⟨hlength,hpositions⟩ := ih
    have hstep : lanesAvx2 (k+1) = accumulate (accumulate (lanesAvx2 k) (32*k)) (32*k+16) := by
      rw [lanesAvx2,List.range_succ,List.foldl_append]
      rfl
    rw [hstep]
    constructor
    · rw [length_accumulate,length_accumulate,hlength]
    · rw [positions_accumulate,positions_accumulate,length_accumulate,hlength,hpositions,add_assoc,
        range'_append]
      have := range'_append 0 (32*k) 32
      rwa [Nat.zero_add] at this

lemma positions_lanesNeon (blocks : ℕ) :
    (lanesNeon blocks).1.length = 4 ∧ (lanesNeon blocks).2.length = 4 ∧
    ((lanesNeon blocks).1.map SumTree.positions).sum +
      ((lanesNeon blocks).2.map SumTree.positions).sum =
        (List.range' 0 (16*blocks) : Multiset ℕ) := by
  induction blocks with
  | zero => exact ⟨rfl,rfl,rfl⟩
  | succ k ih =>
    obtain ⟨hlength,hlength',hpositions⟩ := ih
    have hstep : lanesNeon (k+1) =
        (accumulate (lanesNeon k).1 (16*k),accumulate (lanesNeon k).2 (16*k+8)) := by
      rw [lanesNeon,List.range_succ,List.foldl_append]
      rfl
    rw [hstep]
    refine ⟨by rw [length_accumulate,hlength],by rw [length_accumulate,hlength'],?_⟩
    have hblock := range'_append (16*k) 8 8
    have hall := range'_append 0 (16*k) 16
    rw [Nat.zero_add] at hall
    rw [positions_accumulate,positions_accumulate,hlength,hlength',add_add_add_comm,hpositions,
      hblock,hall]
    rfl

lemma positions_zipWith (l l' : List SumTree) (h : l.length = l'.length) :
    ((List.zipWith SumTree.add l l').map SumTree.positions).sum =
      (l.map SumTree.positions).sum + (l'.map SumTree.positions).sum := by
  induction l generalizing l' with
  | nil =>
    obtain rfl := List.length_eq_zero_iff.mp h.symm
    rfl
  | cons x l ih =>
    cases l' with
    | nil => cases h
    | cons y l' =>
      simp only [List.zipWith_cons_cons,List.map_cons,List.sum_cons,SumTree.positions,
        ih l' (by simpa using h)]
      abel

/-- Every kernel takes each position once. -/
theorem positions_order (kernel : Kernel) (n : ℕ) :
    (kernel.order n).positions = Multiset.range n := by
  have hrest : ∀ w, (List.range' 0 (w*(n/w)) : Multiset ℕ) +
      (List.range' (w*(n/w)) (n - w*(n/w)) : Multiset ℕ) = Multiset.range n := by
    intro w
    have := range'_append 0 (w*(n/w)) (n - w*(n/w))
    rw [Nat.zero_add,Nat.add_sub_cancel' (Nat.mul_div_le n w)] at this
    rw [this,← List.range_eq_range']
    rfl
  cases kernel with
  | scalar =>
    change (orderScalar n).positions = _
    rw [orderScalar,SumTree.positions_sequence,SumTree.positions,Multiset.zero_add]
    rfl
  | avx2 =>
    change (orderAvx2 n).positions = _
    rw [orderAvx2,SumTree.positions_sequence,SumTree.positions_total,(positions_lanesAvx2 _).2,
      hrest]
  | neon =>
    obtain ⟨hlength,hlength',hpositions⟩ := positions_lanesNeon (n/16)
    change (orderNeon n).positions = _
    rw [orderNeon,SumTree.positions_sequence,SumTree.positions_total,
      positions_zipWith _ _ (hlength.trans hlength'.symm),hpositions,hrest]

end positions

section bounds

lemma abs_truncate_le (q : ℚ) : |(truncate q : ℚ)| ≤ |q| := by
  unfold truncate
  split_ifs with h
  · have hceil : (⌈q⌉ : ℚ) ≤ 0 := by exact_mod_cast Int.ceil_le.mpr (by simpa using h.le)
    rw [abs_of_nonpos hceil,abs_of_neg h]
    exact neg_le_neg (Int.le_ceil q)
  · have hnonneg := not_lt.mp h
    have hfloor : (0 : ℚ) ≤ ⌊q⌋ := by exact_mod_cast Int.floor_nonneg.mpr hnonneg
    rw [abs_of_nonneg hfloor,abs_of_nonneg hnonneg]
    exact Int.floor_le q

lemma abs_clampSq8_le (s : ℚ) : |clampSq8 s| ≤ 127 ∧ |clampSq8 s| ≤ |s| := by
  unfold clampSq8
  split_ifs with hlow hhigh
  · have hs : s < 0 := by linarith
    rw [abs_of_neg hs]
    norm_num
    linarith
  · have hs : 0 < s := by linarith
    rw [abs_of_pos hs]
    norm_num
    linarith
  · exact ⟨abs_le.mpr ⟨not_lt.mp hlow,not_lt.mp hhigh⟩,le_rfl⟩

/-- Before the fraction is dropped a component is half a step further out. -/
lemma abs_quantizeComponent_le (x : ℚ) :
    |(quantizeComponent x : ℚ)| ≤ |clampSq8 (x*127)| + 1/2 := by
  refine (abs_truncate_le _).trans ?_
  split_ifs with h
  · rw [abs_of_neg h,abs_of_neg (by linarith)]
    linarith
  · have := not_lt.mp h
    rw [abs_of_nonneg this,abs_of_nonneg (by linarith)]

theorem quantizeComponent_range (x : ℚ) : |quantizeComponent x| ≤ 127 := by
  have h := (abs_quantizeComponent_le x).trans (add_le_add_left (abs_clampSq8_le (x*127)).1 _)
  have hlt : |(quantizeComponent x : ℚ)| < 128 := by linarith
  have : |quantizeComponent x| < 128 := by exact_mod_cast hlt
  omega

/-- Rounding moves a code away from zero by at most a factor of two. -/
theorem abs_quantizeComponent_le_mul (x : ℚ) : |(quantizeComponent x : ℚ)| ≤ 254*|x| := by
  have hclamp := (abs_clampSq8_le (x*127)).2
  rw [abs_mul,abs_of_pos (by norm_num : (0 : ℚ) < 127)] at hclamp
  have hcode := abs_quantizeComponent_le x
  by_cases hhalf : |clampSq8 (x*127)| < 1/2
  · -- the code is zero
    have hlt : |(quantizeComponent x : ℚ)| < 1 := by linarith
    have hzero : quantizeComponent x = 0 := by
      have : |quantizeComponent x| < 1 := by exact_mod_cast hlt
      exact Int.abs_lt_one_iff.mp this
    rw [hzero,Int.cast_zero,abs_zero]
    positivity
  · linarith

def squaredNorm (v : List ℚ) : ℚ := (v.map (·^2)).sum

lemma sum_range_getD_sq (v : List ℚ) :
    ∑ i ∈ Finset.range v.length, (v.getD i 0)^2 = squaredNorm v := by
  induction v with
  | nil => rfl
  | cons x v ih =>
    rw [List.length_cons,Finset.sum_range_succ']
    simp only [List.getD_cons_succ,List.getD_cons_zero,ih,squaredNorm,List.map_cons,List.sum_cons]
    exact add_comm _ _

lemma sum_getD_sq_le (v : List ℚ) (s : Finset ℕ) : ∑ i ∈ s, (v.getD i 0)^2 ≤ squaredNorm v := by
  have hinside : ∀ i ∈ s, (v.getD i 0)^2 ≠ 0 → i < v.length := by
    intro i _ hne
    by_contra hlt
    rw [List.getD_eq_default _ _ (not_lt.mp hlt)] at hne
    exact hne (by norm_num)
  rw [← Finset.sum_filter_of_ne hinside,← sum_range_getD_sq]
  apply Finset.sum_le_sum_of_subset_of_nonneg
  · intro i hi
    exact Finset.mem_range.mpr (Finset.mem_filter.mp hi).2
  · intro i _ _
    positivity

lemma getD_quantizeSq8 (v : List ℚ) (i : ℕ) :
    (quantizeSq8 v v.length).getD i 0 = quantizeComponent (v.getD i 0) := by
  have hzero : quantizeComponent 0 = 0 := by decide +kernel
  rw [quantizeSq8,List.take_length]
  conv_lhs => rw [← hzero]
  exact List.getD_map v 0 quantizeComponent

lemma sum_range_product {a b : List ℤ} (h : a.length = b.length) :
    ∑ i ∈ Finset.range a.length, product a b i = (List.zipWith (· * ·) a b).sum := by
  induction a generalizing b with
  | nil => rfl
  | cons c a ih =>
    cases b with
    | nil => cases h
    | cons d b =>
      have htail := ih (b := b) (by simpa using h)
      rw [List.length_cons,Finset.sum_range_succ',List.zipWith_cons_cons,List.sum_cons,← htail]
      exact add_comm _ _

/-- A product is bounded by the squares of the components it comes from. -/
lemma abs_product_le (x y : List ℚ) (i : ℕ) :
    |(product (quantizeSq8 x x.length) (quantizeSq8 y y.length) i : ℚ)| ≤
      254^2/2 * ((x.getD i 0)^2 + (y.getD i 0)^2) := by
  rw [product,getD_quantizeSq8,getD_quantizeSq8,Int.cast_mul,abs_mul]
  have hx := abs_quantizeComponent_le_mul (x.getD i 0)
  have hy := abs_quantizeComponent_le_mul (y.getD i 0)
  have hmul := mul_le_mul hx hy (abs_nonneg _) (by positivity)
  have hsquares : 2 * (|x.getD i 0| * |y.getD i 0|) ≤ (x.getD i 0)^2 + (y.getD i 0)^2 := by
    have := two_mul_le_add_sq |x.getD i 0| |y.getD i 0|
    rw [sq_abs,sq_abs] at this
    linarith
  linarith

/-- Whatever positions are summed, the sum stays far within 32 bits. -/
theorem fitsInt32_sum {x y : List ℚ} (hx : squaredNorm x ≤ 101/100) (hy : squaredNorm y ≤ 101/100)
    (s : Finset ℕ) :
    fitsInt32 (∑ i ∈ s, product (quantizeSq8 x x.length) (quantizeSq8 y y.length) i) := by
  set p := product (quantizeSq8 x x.length) (quantizeSq8 y y.length)
  have hsum : |((∑ i ∈ s, p i : ℤ) : ℚ)| ≤ 254^2/2 * (101/100 + 101/100) := by
    rw [Int.cast_sum]
    calc |∑ i ∈ s, (p i : ℚ)| ≤ ∑ i ∈ s, |(p i : ℚ)| := Finset.abs_sum_le_sum_abs _ _
      _ ≤ ∑ i ∈ s, 254^2/2 * ((x.getD i 0)^2 + (y.getD i 0)^2) :=
        Finset.sum_le_sum fun i _ => abs_product_le x y i
      _ = 254^2/2 * (∑ i ∈ s, (x.getD i 0)^2 + ∑ i ∈ s, (y.getD i 0)^2) := by
        rw [← Finset.mul_sum,Finset.sum_add_distrib]
      _ ≤ 254^2/2 * (101/100 + 101/100) := by
        have hxs := (sum_getD_sq_le x s).trans hx
        have hys := (sum_getD_sq_le y s).trans hy
        linarith
  have hlt : |((∑ i ∈ s, p i : ℤ) : ℚ)| < 65162 := hsum.trans_lt (by norm_num)
  have hint : |∑ i ∈ s, p i| < 65162 := by exact_mod_cast hlt
  have := abs_lt.mp hint
  constructor <;> omega

end bounds

/-- Codes of vectors that are about normal multiply without overflow: the sum over any positions
fits, so every order of the lanes, and every kernel, gives the exact dot product. -/
theorem dotSq8_exact {x y : List ℚ} (hlength : x.length = y.length)
    (hx : squaredNorm x ≤ 101/100) (hy : squaredNorm y ≤ 101/100) :
    let a := quantizeSq8 x x.length
    let b := quantizeSq8 y y.length
    (∀ c ∈ a, |c| ≤ 127) ∧ (∀ c ∈ b, |c| ≤ 127) ∧
    (∀ s ⊆ Finset.range x.length, fitsInt32 (∑ i ∈ s, product a b i)) ∧
    (∀ order : SumTree, order.positions = Multiset.range x.length →
      order.run fitsInt32 (product a b) = some (List.zipWith (· * ·) a b).sum) ∧
    ∀ kernel, dotSq8 kernel a b x.length = some (List.zipWith (· * ·) a b).sum := by
  intro a b
  have hcodes : ∀ v : List ℚ, ∀ c ∈ quantizeSq8 v v.length, |c| ≤ 127 := by
    intro v c hc
    obtain ⟨q,-,rfl⟩ := List.mem_map.mp hc
    exact quantizeComponent_range q
  have hsum : ∑ i ∈ Finset.range x.length, product a b i = (List.zipWith (· * ·) a b).sum := by
    rw [← sum_range_product (by simp [a,b,quantizeSq8,hlength])]
    simp [a,quantizeSq8]
  have horder : ∀ order : SumTree, order.positions = Multiset.range x.length →
      order.run fitsInt32 (product a b) = some (List.zipWith (· * ·) a b).sum := by
    intro order h
    rw [SumTree.run_of_nodup (fitsInt32_sum hx hy) order (by rw [h]; exact Multiset.nodup_range _),
      h,← hsum]
    rfl
  exact ⟨hcodes x,hcodes y,fun s _ => fitsInt32_sum hx hy s,horder,
    fun kernel => horder _ (positions_order kernel x.length)⟩

/-- Two unit vectors, one of them the other turned by a right angle. -/
theorem turned_dotSq8 :
    dotSq8 .scalar (quantizeSq8 [3/5,4/5] 2) (quantizeSq8 [4/5,-3/5] 2) 2 = some 0 ∧
    dotSq8 .avx2 (quantizeSq8 [3/5,4/5] 2) (quantizeSq8 [4/5,-3/5] 2) 2 = some 0 ∧
    dotSq8 .neon (quantizeSq8 [3/5,4/5] 2) (quantizeSq8 [4/5,-3/5] 2) 2 = some 0 := by
  have hexact := dotSq8_exact (x := [3/5,4/5]) (y := [4/5,-3/5]) rfl (by decide +kernel)
    (by decide +kernel)
  have hsum : (List.zipWith (· * ·) (quantizeSq8 [3/5,4/5] 2)
      (quantizeSq8 [4/5,-3/5] 2)).sum = 0 := by decide +kernel
  have hall : ∀ kernel,
      dotSq8 kernel (quantizeSq8 [3/5,4/5] 2) (quantizeSq8 [4/5,-3/5] 2) 2 = some 0 := by
    intro kernel
    rw [← hsum]
    exact hexact.2.2.2.2 kernel
  exact ⟨hall .scalar,hall .avx2,hall .neon⟩

end RagRuntime.Dense
