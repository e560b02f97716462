import Mathlib.Algebra.Order.Floor.Semifield
import Mathlib.Data.Nat.Log
import Mathlib.Data.Rat.Floor
import Mathlib.Tactic.Linarith
import RagRuntime.Base.LittleEndian

/-! Finite numbers of single precision as rationals. The two zeros are one. -/
namespace RagRuntime.Base.Single

/-- A magnitude in units of the least one, from its biased exponent and its fraction. -/
def units (exponent fraction : ℕ) : ℕ :=
  if exponent = 0 then fraction else (2^23+fraction)*2^(exponent-1)

/-- Infinities and NaNs have no value. -/
def ofBits (n : ℕ) : Option ℚ :=
  if n/2^23%256 = 255 then none
  else
    let magnitude : ℚ := (units (n/2^23%256) (n%2^23) : ℕ)/2^149
    some (if n/2^31%2 = 1 then -magnitude else magnitude)

def magnitudeBits (u : ℕ) : ℕ := (u.log2-23)*2^23 + u/2^(u.log2-23)

def bits (q : ℚ) : ℕ := (if q < 0 then 2^31 else 0) + magnitudeBits ⌊|q| * 2^149⌋₊

/-- The natural number nearest to `q`, an even one if there are two. -/
def roundEven (q : ℚ) : ℕ :=
  let n := ⌊q⌋₊
  if q - n > 1/2 ∨ q - n = 1/2 ∧ n%2 = 1 then n+1 else n

/-- Conversion to single precision, if the result is finite. -/
def round (q : ℚ) : Option ℚ :=
  let exponent := ⌊|q| * 2^149⌋₊.log2 - 23
  let magnitude := roundEven (|q| * 2^149 / 2^exponent) * 2^exponent
  if magnitude ≥ 2^277 then none
  else some (if q < 0 then -(magnitude : ℚ)/2^149 else (magnitude : ℚ)/2^149)

def IsFloat (q : ℚ) : Prop := ∃ n < 2^32, ofBits n = some q

lemma log2_units {exponent fraction : ℕ} (he : exponent ≠ 0) (hf : fraction < 2^23) :
    (units exponent fraction).log2 = 22+exponent := by
  have hlow : 2^(22+exponent) ≤ units exponent fraction := by
    rw [units,if_neg he,show 22+exponent = 23+(exponent-1) by omega,pow_add]
    exact Nat.mul_le_mul_right _ (by omega)
  have hhigh : units exponent fraction < 2^(22+exponent+1) := by
    rw [units,if_neg he,show 22+exponent+1 = 24+(exponent-1) by omega,pow_add]
    exact Nat.mul_lt_mul_of_pos_right (by omega) (by positivity)
  have hne : units exponent fraction ≠ 0 := by
    have : 0 < 2^(22+exponent) := by positivity
    omega
  exact (Nat.log2_eq_iff hne).mpr ⟨hlow,hhigh⟩

lemma magnitudeBits_units {exponent fraction : ℕ} (hf : fraction < 2^23) :
    magnitudeBits (units exponent fraction) = exponent*2^23 + fraction := by
  unfold magnitudeBits
  by_cases he : exponent = 0
  · have hlog : fraction.log2 - 23 = 0 := by
      by_cases hzero : fraction = 0
      · simp [hzero]
      · have := (Nat.log2_lt hzero).mpr hf
        omega
    rw [units,if_pos he,hlog,he]
    simp
  · rw [log2_units he hf,units,if_neg he,show 22+exponent-23 = exponent-1 by omega,
      Nat.mul_div_cancel _ (by positivity)]
    omega

lemma ofBits_encoded {exponent fraction sign : ℕ} (he : exponent < 255) (hf : fraction < 2^23)
    (hs : sign < 2) : ofBits (sign*2^31 + (exponent*2^23 + fraction)) =
      some (if sign = 1 then -((units exponent fraction : ℕ)/2^149 : ℚ)
        else (units exponent fraction : ℕ)/2^149) := by
  have hexponent : (sign*2^31 + (exponent*2^23 + fraction))/2^23%256 = exponent := by omega
  have hfraction : (sign*2^31 + (exponent*2^23 + fraction))%2^23 = fraction := by omega
  have hsign : (sign*2^31 + (exponent*2^23 + fraction))/2^31%2 = sign := by omega
  unfold ofBits
  rw [hexponent,hfraction,hsign,if_neg (by omega)]

/-- The bits of a number give it back. -/
theorem ofBits_bits {q : ℚ} (h : IsFloat q) : ofBits (bits q) = some q ∧ bits q < 2^32 := by
  obtain ⟨n,hn,hq⟩ := h
  unfold ofBits at hq
  by_cases hfinite : n/2^23%256 = 255
  · rw [if_pos hfinite] at hq
    cases hq
  rw [if_neg hfinite] at hq
  set e := n/2^23%256
  set f := n%2^23
  have he : e < 255 := by omega
  have hf : f < 2^23 := Nat.mod_lt _ (by positivity)
  have hpos : (0 : ℚ) ≤ (units e f : ℕ)/2^149 := by positivity
  have hfloor : ⌊|q| * 2^149⌋₊ = units e f := by
    have habs : |q| = (units e f : ℕ)/2^149 := by
      rw [← Option.some.inj hq]
      split_ifs
      · rw [abs_neg,abs_of_nonneg hpos]
      · exact abs_of_nonneg hpos
    rw [habs,div_mul_cancel₀ _ (by positivity),Nat.floor_natCast]
  have hbits : bits q = (if q < 0 then 1 else 0)*2^31 + (e*2^23 + f) := by
    rw [bits,hfloor,magnitudeBits_units hf]
    split_ifs <;> omega
  rw [hbits]
  constructor
  · rw [ofBits_encoded he hf (by split_ifs <;> omega)]
    congr 1
    by_cases hneg : q < 0
    · rw [if_pos hneg,if_pos rfl]
      split_ifs at hq with hsign
      · exact Option.some.inj hq
      · have := Option.some.inj hq
        linarith
    · rw [if_neg hneg,if_neg (by decide)]
      split_ifs at hq with hsign
      · have := Option.some.inj hq
        linarith
      · exact Option.some.inj hq
  · split_ifs <;> omega

lemma roundEven_natCast (n : ℕ) : roundEven (n : ℚ) = n := by
  unfold roundEven
  rw [Nat.floor_natCast]
  simp

/-- The magnitude of a number in units of the least one. -/
lemma IsFloat.magnitude {q : ℚ} (h : IsFloat q) : ∃ e f, e < 255 ∧ f < 2^23 ∧
    |q| * 2^149 = (units e f : ℕ) ∧
      q = if q < 0 then -((units e f : ℕ) : ℚ)/2^149 else ((units e f : ℕ) : ℚ)/2^149 := by
  obtain ⟨n,hn,hq⟩ := h
  unfold ofBits at hq
  by_cases hfinite : n/2^23%256 = 255
  · rw [if_pos hfinite] at hq
    cases hq
  rw [if_neg hfinite] at hq
  set e := n/2^23%256
  set f := n%2^23
  have hpos : (0 : ℚ) ≤ (units e f : ℕ)/2^149 := by positivity
  have hvalue := Option.some.inj hq
  refine ⟨e,f,by omega,Nat.mod_lt _ (by positivity),?_,?_⟩
  · have habs : |q| = (units e f : ℕ)/2^149 := by
      rw [← hvalue]
      split_ifs
      · rw [abs_neg,abs_of_nonneg hpos]
      · exact abs_of_nonneg hpos
    rw [habs,div_mul_cancel₀ _ (by positivity)]
  · rw [neg_div]
    split_ifs at hvalue with hsign <;> split_ifs with hneg <;> linarith

lemma units_lt {e f : ℕ} (he : e < 255) (hf : f < 2^23) : units e f < 2^277 := by
  unfold units
  split_ifs with hzero
  · exact hf.trans_le (pow_le_pow_right₀ one_le_two (show 23 ≤ 277 by omega))
  · have hpow : 2^(e-1) ≤ 2^253 := Nat.pow_le_pow_right (by norm_num) (by omega)
    have hmantissa : 2^23+f < 2^24 := by omega
    calc (2^23+f)*2^(e-1) < 2^24*2^253 := Nat.mul_lt_mul_of_lt_of_le hmantissa hpow (by positivity)
      _ = 2^277 := by rw [← pow_add,show 24+253 = 277 from rfl]

/-- A number of single precision is rounded to itself. -/
theorem round_of_isFloat {q : ℚ} (h : IsFloat q) : round q = some q := by
  obtain ⟨e,f,he,hf,hmagnitude,hq⟩ := h.magnitude
  have hexact : roundEven (|q| * 2^149 / 2^(⌊|q| * 2^149⌋₊.log2 - 23)) *
      2^(⌊|q| * 2^149⌋₊.log2 - 23) = units e f := by
    rw [hmagnitude,Nat.floor_natCast]
    by_cases hzero : e = 0
    · have hlog : (units e f).log2 - 23 = 0 := by
        rw [units,if_pos hzero]
        by_cases hnone : f = 0
        · simp [hnone]
        · have := (Nat.log2_lt hnone).mpr hf
          omega
      rw [hlog,pow_zero,pow_zero,div_one,roundEven_natCast,mul_one]
    · rw [log2_units hzero hf,show 22+e-23 = e-1 by omega]
      have hdivides : ((units e f : ℕ) : ℚ)/2^(e-1) = ((2^23+f : ℕ) : ℚ) := by
        rw [units,if_neg hzero,Nat.cast_mul,Nat.cast_pow,Nat.cast_ofNat,
          mul_div_cancel_right₀ _ (by positivity)]
      rw [hdivides,roundEven_natCast,units,if_neg hzero]
  unfold round
  dsimp only
  rw [hexact,if_neg (not_le.mpr (units_lt he hf)),← hq]

lemma isFloat_units {e f : ℕ} (he : e < 255) (hf : f < 2^23) (negative : Prop)
    [Decidable negative] : IsFloat (if negative then -((units e f : ℕ) : ℚ)/2^149
      else ((units e f : ℕ) : ℚ)/2^149) := by
  split_ifs
  · refine ⟨1*2^31 + (e*2^23+f),by omega,?_⟩
    rw [ofBits_encoded he hf (by omega),if_pos rfl,neg_div]
  · refine ⟨0*2^31 + (e*2^23+f),by omega,?_⟩
    rw [ofBits_encoded he hf (by omega),if_neg (by decide)]

/-- A mantissa of at most 24 bits, of all of them unless the exponent is the least. -/
lemma exists_units {m e : ℕ} (hm : m ≤ 2^24) (hnormal : e = 0 ∨ 2^23 ≤ m)
    (hsmall : m * 2^e < 2^277) : ∃ e' f, e' < 255 ∧ f < 2^23 ∧ units e' f = m * 2^e := by
  generalize hbound : 277 = bound at hsmall
  by_cases hlow : m < 2^23
  · obtain rfl := hnormal.resolve_right (by omega)
    exact ⟨0,m,by omega,hlow,by rw [units,if_pos rfl,pow_zero,mul_one]⟩
  have hexponent : 23+e < bound := by
    apply (Nat.pow_lt_pow_iff_right one_lt_two).mp
    rw [pow_add]
    exact lt_of_le_of_lt (Nat.mul_le_mul_right _ (not_lt.mp hlow)) hsmall
  by_cases hfull : m = 2^24
  · subst hfull
    have hexponent' : 24+e < bound := by
      apply (Nat.pow_lt_pow_iff_right one_lt_two).mp
      rwa [pow_add]
    refine ⟨e+2,0,by omega,by omega,?_⟩
    rw [units,if_neg (by omega),show e+2-1 = e+1 by omega,pow_succ]
    ring
  · refine ⟨e+1,m-2^23,by omega,by omega,?_⟩
    rw [units,if_neg (by omega),Nat.add_sub_cancel,Nat.add_sub_cancel' (not_lt.mp hlow)]

/-- What is rounded to is a number of single precision. -/
theorem isFloat_round {q r : ℚ} (h : round q = some r) : IsFloat r := by
  set x := |q| * 2^149 with hx
  set e := ⌊x⌋₊.log2 - 23 with he
  set m := roundEven (x/2^e) with hm
  have hfloor : ⌊x/2^e⌋₊ = ⌊x⌋₊/2^e := by
    exact_mod_cast Nat.floor_div_natCast x (2^e)
  have hround : ⌊x⌋₊/2^e ≤ m ∧ m ≤ ⌊x⌋₊/2^e + 1 := by
    rw [hm,roundEven,hfloor]
    split_ifs <;> omega
  have hhigh : ⌊x⌋₊/2^e < 2^24 := by
    rw [Nat.div_lt_iff_lt_mul (by positivity),← pow_add]
    exact lt_of_lt_of_le Nat.lt_log2_self (Nat.pow_le_pow_right (by omega) (by omega))
  have hnormal : e = 0 ∨ 2^23 ≤ m := by
    by_cases hzero : e = 0
    · exact Or.inl hzero
    · have hne : ⌊x⌋₊ ≠ 0 := by
        intro h0
        rw [h0] at he
        exact hzero he
      have hlow : 2^23 ≤ ⌊x⌋₊/2^e := by
        rw [Nat.le_div_iff_mul_le (by positivity),← pow_add]
        exact le_trans (Nat.pow_le_pow_right (by omega) (by omega)) (Nat.log2_self_le hne)
      exact Or.inr (hlow.trans hround.1)
  unfold round at h
  dsimp only at h
  split_ifs at h with hlarge hnegative
  · obtain ⟨e',f,he',hf,hunits⟩ := exists_units (by omega) hnormal (not_le.mp hlarge)
    rw [← Option.some.inj h,← hunits]
    simpa only [if_true] using isFloat_units he' hf True
  · obtain ⟨e',f,he',hf,hunits⟩ := exists_units (by omega) hnormal (not_le.mp hlarge)
    rw [← Option.some.inj h,← hunits]
    simpa only [if_false] using isFloat_units he' hf False

end RagRuntime.Base.Single
