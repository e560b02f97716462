import RagRuntime.Text.Porter

/-! The letters, conditions and tables of the stemmer are those of the published algorithm. -/
namespace RagRuntime.Text
open RagRuntime.Base RagRuntime.Core SuffixRule

section letters

lemma getD_append_left {s t : Bytes} {i : ℕ} (h : i < s.length) :
    (s ++ t).getD i 0 = s.getD i 0 := by
  rw [List.getD_eq_getElem?_getD,List.getElem?_append_left h,← List.getD_eq_getElem?_getD]

/-- The letters behind one do not decide whether it is a vowel. -/
lemma isVowel_append {s t : Bytes} {i : ℕ} (h : i < s.length) :
    isVowel (s ++ t) i = isVowel s i := by
  induction i with
  | zero => rw [isVowel,isVowel,getD_append_left h]
  | succ i ih => rw [isVowel,isVowel,getD_append_left h,ih (by omega)]

lemma kindsAfter_concat (before : Bool) (s : Bytes) (c : Byte) :
    Porter.kindsAfter before (s ++ [c]) = Porter.kindsAfter before s ++
      [decide (c ∈ latin "aeiou" ∨ c = 121 ∧
        ((Porter.kindsAfter before s).getLast?.elim before not) = true)] := by
  induction s generalizing before with
  | nil => rfl
  | cons d s ih =>
    rw [List.cons_append,Porter.kindsAfter,Porter.kindsAfter]
    rw [ih,List.cons_append]
    cases Porter.kindsAfter _ s with
    | nil => rfl
    | cons k ks =>
      have hlast := List.getLast?_eq_some_getLast (List.cons_ne_nil k ks)
      rw [List.getLast?_cons_cons,hlast]
      rfl

/-- The vowels of the code are those of the algorithm. -/
lemma kinds_eq (s : Bytes) : Porter.kinds s = (List.range s.length).map (isVowel s) := by
  induction s using List.reverseRecOn with
  | nil => rfl
  | append_singleton s c ih =>
    have hbefore : (List.range s.length).map (isVowel (s ++ [c])) =
        (List.range s.length).map (isVowel s) := by
      apply List.map_congr_left
      intro i hi
      exact isVowel_append (List.mem_range.mp hi)
    have hlast : (s ++ [c]).getD s.length 0 = c := by simp
    unfold Porter.kinds at ih ⊢
    rw [kindsAfter_concat,ih,List.length_append,List.length_singleton,List.range_succ,
      List.map_append,hbefore,List.map_singleton]
    congr 2
    cases s using List.reverseRecOn with
    | nil => simp [isVowel]
    | append_singleton front d =>
      rw [List.length_append,List.length_singleton] at hlast ⊢
      rw [isVowel,hlast,isVowel_append (by simp),List.range_succ,List.map_append,List.map_singleton,
        List.getLast?_append]
      simp only [List.getLast?_singleton,Option.some_or,Option.elim_some]
      split_ifs with hvowel hy
      · simp [hvowel]
      · subst hy
        simp [hvowel]
      · simp [hvowel,hy]

lemma foldl_measureLetter (k : List Bool) (before : Bool) (n : ℕ) :
    (k.foldl (fun state vowel => (vowel,if state.1 = true ∧ vowel = false then state.2+1
      else state.2)) (before,n)).2 = n + Porter.sequences (before::k) := by
  induction k generalizing before n with
  | nil => cases before <;> rfl
  | cons vowel k ih =>
    rw [List.foldl_cons,ih]
    cases before <;> cases vowel <;> simp [Porter.sequences]
    omega

lemma measure_eq (s : Bytes) : measure s = Porter.m s := by
  have hfold := foldl_measureLetter (Porter.kinds s) false 0
  rw [Porter.sequences_false,Nat.zero_add] at hfold
  rw [Porter.m,← hfold,kinds_eq,List.foldl_map]
  rfl

lemma hasVowel_eq (s : Bytes) : hasVowel s = Porter.containsVowel s := by
  rw [Porter.containsVowel,kinds_eq,hasVowel]
  simp [List.any_eq]

lemma endsWith_iff {s suffix : Bytes} : endsWith s suffix = true ↔ suffix <:+ s := by
  rw [endsWith,decide_eq_true_eq,List.suffix_iff_eq_drop]
  constructor
  · exact fun h => h.2.symm
  · intro h
    refine ⟨?_,h.symm⟩
    have := congrArg List.length h
    rw [List.length_drop] at this
    omega

lemma kinds_reverse (s : Bytes) (c : Byte) : (Porter.kinds (s ++ [c])).reverse =
    isVowel (s ++ [c]) s.length::(Porter.kinds s).reverse := by
  have hbefore : (List.range s.length).map (isVowel (s ++ [c])) =
      (List.range s.length).map (isVowel s) := by
    apply List.map_congr_left
    intro i hi
    exact isVowel_append (List.mem_range.mp hi)
  rw [kinds_eq,kinds_eq,List.length_append,List.length_singleton,List.range_succ,List.map_append,
    hbefore,List.reverse_append]
  rfl

lemma doubleConsonant_eq (s : Bytes) : doubleConsonant s = Porter.endsDoubled s := by
  unfold doubleConsonant Porter.endsDoubled
  cases s using List.reverseRecOn with
  | nil => rfl
  | append_singleton s a =>
    cases s using List.reverseRecOn with
    | nil => simp
    | append_singleton s b =>
      rw [kinds_reverse,kinds_reverse]
      cases hvowel : isVowel (s ++ [b] ++ [a]) (s ++ [b]).length with
      | false => simp_all
      | true => simp_all

lemma cvc_eq (s : Bytes) : cvc s = Porter.endsShort s := by
  unfold cvc Porter.endsShort
  cases s using List.reverseRecOn with
  | nil => rfl
  | append_singleton s a =>
    rw [kinds_reverse]
    cases s using List.reverseRecOn with
    | nil =>
      rw [decide_eq_false (by simp)]
      cases isVowel ([] ++ [a]) _ <;> rfl
    | append_singleton s b =>
      rw [kinds_reverse]
      cases s using List.reverseRecOn with
      | nil =>
        rw [decide_eq_false (by simp)]
        cases isVowel ([] ++ [b] ++ [a]) _ <;> cases isVowel ([] ++ [b]) _ <;> rfl
      | append_singleton s c =>
        rw [kinds_reverse]
        have hb : isVowel (s ++ [c] ++ [b] ++ [a]) (s.length+1) =
            isVowel (s ++ [c] ++ [b]) (s ++ [c]).length := by
          rw [isVowel_append (by simp),List.length_append,List.length_singleton]
        have hc : isVowel (s ++ [c] ++ [b] ++ [a]) s.length = isVowel (s ++ [c]) s.length := by
          rw [isVowel_append (by simp),isVowel_append (by simp)]
        have hlength : (s ++ [c] ++ [b] ++ [a]).length = s.length+3 := by simp
        have ha : (s ++ [c] ++ [b] ++ [a]).getD (s.length+2) 0 = a := by simp
        have hend : (s ++ [c] ++ [b]).length = s.length+2 := by simp
        rw [hlength,show s.length+3-1 = s.length+2 from rfl,show s.length+3-2 = s.length+1 from rfl,
          Nat.add_sub_cancel,hb,hc,ha,hend]
        cases isVowel (s ++ [c] ++ [b] ++ [a]) _ <;> cases isVowel (s ++ [c] ++ [b]) _ <;>
          cases isVowel (s ++ [c]) _ <;> simp

end letters

section steps

variable {s : Bytes}

lemma shorten_append (front suffix : Bytes) : shorten (front ++ suffix) suffix.length = front := by
  rw [shorten,List.length_append,Nat.add_sub_cancel,List.take_left]

/-- A word that ends in `kept ++ gone` loses `gone`. -/
lemma shorten_suffix (front kept gone : Bytes) :
    shorten (front ++ (kept ++ gone)) gone.length = front ++ kept := by
  rw [← List.append_assoc,shorten_append]

lemma attempt_rule (condition : Bytes → Bool) (suffix replacement : String) (front : Bytes) :
    (Porter.rule condition suffix replacement).attempt (front ++ latin suffix) =
      if condition front then some (front ++ latin replacement) else none :=
  attempt_append (Porter.rule condition suffix replacement) front

lemma step1a_eq (s : Bytes) : step1a s = Porter.step1a s := by
  have hobey : Porter.step1a s = if latin "sses" <:+ s then
      ((Porter.rule Porter.always "sses" "ss").attempt s).getD s
    else if latin "ies" <:+ s then ((Porter.rule Porter.always "ies" "i").attempt s).getD s
    else if latin "ss" <:+ s then ((Porter.rule Porter.always "ss" "ss").attempt s).getD s
    else if latin "s" <:+ s then ((Porter.rule Porter.always "s" "").attempt s).getD s
    else s := by
    rw [Porter.step1a,Porter.step1aRules,obey_cons (by decide),obey_cons (by decide),
      obey_cons (by decide),obey_cons (by decide),obey_nil]
    rfl
  rw [hobey,step1a]
  simp only [endsWith_iff]
  split_ifs with h1 h2 h3 h4
  · obtain ⟨front,rfl⟩ := h1
    rw [attempt_rule]
    exact shorten_suffix front (latin "ss") (latin "es")
  · obtain ⟨front,rfl⟩ := h2
    rw [attempt_rule]
    exact shorten_suffix front (latin "i") (latin "es")
  · obtain ⟨front,rfl⟩ := h3
    rw [attempt_rule]
    rfl
  · obtain ⟨front,rfl⟩ := h4
    rw [attempt_rule]
    exact shorten_suffix front [] (latin "s")
  · rfl

lemma endsIn_eq {letters : Bytes} (h : s ≠ []) :
    Porter.endsIn s letters = decide (s.getD (s.length-1) 0 ∈ letters) := by
  have hlast : s.getLast? = some (s.getD (s.length-1) 0) := by
    rw [List.getLast?_eq_getElem?,List.getD_eq_getElem?_getD]
    have hlt : s.length-1 < s.length := Nat.sub_one_lt (by simpa using h)
    rw [List.getElem?_eq_getElem hlt]
    rfl
  rw [Porter.endsIn,hlast]
  rfl

lemma shorten_one (s : Bytes) : shorten s 1 = s.dropLast := List.dropLast_eq_take.symm

lemma isVowel_of_mem {i : ℕ} (h : s.getD i 0 ∈ latin "aeiou") : isVowel s i = true := by
  cases i with
  | zero => simpa [isVowel] using h
  | succ i => rw [isVowel,if_pos h]

lemma letter_of_isVowel {i : ℕ} (h : isVowel s i = true) :
    s.getD i 0 ∈ latin "aeiou" ∨ s.getD i 0 = 121 := by
  cases i with
  | zero => exact Or.inl (by simpa [isVowel] using h)
  | succ i =>
    rw [isVowel] at h
    split_ifs at h with hvowel hy
    · exact Or.inl hvowel
    · exact Or.inr hy

/-- A doubled letter after a vowel can only be a y, and `*o` does not admit that one. -/
lemma not_cvc_of_doubleConsonant (h : doubleConsonant s = true) : cvc s = false := by
  by_contra hcvc
  obtain ⟨-,hsame,hlast⟩ := of_decide_eq_true h
  obtain ⟨-,-,hbefore,-,hletter⟩ := of_decide_eq_true (Bool.not_eq_false _ ▸ hcvc : cvc s = true)
  rcases letter_of_isVowel hbefore with hvowel | hy
  · rw [← hsame] at hvowel
    rw [isVowel_of_mem hvowel] at hlast
    cases hlast
  · rw [hsame,hy] at hletter
    exact hletter (by decide)

lemma step1bExtra_eq (s : Bytes) : step1bExtra s = Porter.tidy s := by
  have hlongest : longest Porter.tidyRules s = if latin "at" <:+ s then
      some (Porter.rule Porter.always "at" "ate")
    else if latin "bl" <:+ s then some (Porter.rule Porter.always "bl" "ble")
    else if latin "iz" <:+ s then some (Porter.rule Porter.always "iz" "ize")
    else none := by
    rw [Porter.tidyRules,longest_cons (by decide),longest_cons (by decide),
      longest_cons (by decide)]
    rfl
  have happly : ∀ suffix replacement : String, latin replacement = latin suffix ++ latin "e" →
      latin suffix <:+ s →
      ((Porter.rule Porter.always suffix replacement).attempt s).getD s = s ++ latin "e" := by
    rintro suffix replacement hrep ⟨front,rfl⟩
    rw [attempt_rule,hrep,← List.append_assoc]
    rfl
  unfold Porter.tidy step1bExtra obey
  rw [hlongest]
  simp only [endsWith_iff]
  by_cases hat : latin "at" <:+ s
  · simpa [hat] using (happly "at" "ate" rfl hat).symm
  by_cases hbl : latin "bl" <:+ s
  · simpa [hat,hbl] using (happly "bl" "ble" rfl hbl).symm
  by_cases hiz : latin "iz" <:+ s
  · simpa [hat,hbl,hiz] using (happly "iz" "ize" rfl hiz).symm
  simp only [hat,hbl,hiz,or_self,if_false,Option.isSome_none,Bool.false_eq_true,doubleConsonant_eq,
    measure_eq,cvc_eq,shorten_one]
  by_cases hd : Porter.endsDoubled s = true
  · have hne : s ≠ [] := by
      rintro rfl
      cases hd
    have hshort : Porter.endsShort s = false := by
      rw [← cvc_eq]
      exact not_cvc_of_doubleConsonant (by rw [doubleConsonant_eq,hd])
    simp only [hd,hshort,if_true,true_and,endsIn_eq hne,decide_eq_true_eq,Bool.false_eq_true,
      and_false,if_false]
    split_ifs <;> rfl
  · simp [hd]

lemma step1b_eq (s : Bytes) : step1b s = Porter.step1b s := by
  have hlongest : longest Porter.step1bRules s = if latin "eed" <:+ s then
      some (Porter.rule (Porter.above 0) "eed" "ee")
    else if latin "ed" <:+ s then some (Porter.rule Porter.containsVowel "ed" "")
    else if latin "ing" <:+ s then some (Porter.rule Porter.containsVowel "ing" "")
    else none := by
    rw [Porter.step1bRules,longest_cons (by decide),longest_cons (by decide),
      longest_cons (by decide)]
    rfl
  unfold Porter.step1b step1b
  rw [hlongest]
  simp only [endsWith_iff,measure_eq,hasVowel_eq,step1bExtra_eq]
  by_cases heed : latin "eed" <:+ s
  · obtain ⟨front,rfl⟩ := heed
    have hfront : shorten (front ++ latin "eed") 3 = front := shorten_append front (latin "eed")
    have hkept : shorten (front ++ latin "eed") 1 = front ++ latin "ee" :=
      shorten_suffix front (latin "ee") (latin "d")
    rw [if_pos (List.suffix_append _ _),if_pos (List.suffix_append _ _),hfront,hkept]
    dsimp only
    rw [attempt_rule]
    by_cases hm : 0 < Porter.m front
    · simp [Porter.above,hm,Porter.rule]
    · simp [Porter.above,hm]
  by_cases hed : latin "ed" <:+ s
  · obtain ⟨front,rfl⟩ := hed
    have hfront : shorten (front ++ latin "ed") 2 = front := shorten_append front (latin "ed")
    rw [if_neg heed,if_neg heed,if_pos (List.suffix_append _ _),if_pos (List.suffix_append _ _),
      hfront]
    dsimp only
    rw [attempt_rule]
    by_cases hv : Porter.containsVowel front = true
    · rw [if_pos hv,if_pos hv,show latin "" = [] from rfl,List.append_nil]
      exact (if_neg (by decide)).symm
    · rw [if_neg hv,if_neg hv]
  by_cases hing : latin "ing" <:+ s
  · obtain ⟨front,rfl⟩ := hing
    have hfront : shorten (front ++ latin "ing") 3 = front := shorten_append front (latin "ing")
    rw [if_neg heed,if_neg heed,if_neg hed,if_neg hed,if_pos (List.suffix_append _ _),
      if_pos (List.suffix_append _ _),hfront]
    dsimp only
    rw [attempt_rule]
    by_cases hv : Porter.containsVowel front = true
    · rw [if_pos hv,if_pos hv,show latin "" = [] from rfl,List.append_nil]
      exact (if_neg (by decide)).symm
    · rw [if_neg hv,if_neg hv]
  simp [heed,hed,hing]

lemma step1c_eq (s : Bytes) : step1c s = Porter.step1c s := by
  rw [Porter.step1c,Porter.step1cRules,obey_cons (by decide),obey_nil,step1c]
  simp only [endsWith_iff,hasVowel_eq]
  change _ = if latin "y" <:+ s then _ else _
  by_cases hy : latin "y" <:+ s
  · obtain ⟨front,rfl⟩ := hy
    have hfront : shorten (front ++ latin "y") 1 = front := shorten_append front (latin "y")
    rw [if_pos (List.suffix_append _ _),attempt_rule,hfront]
    by_cases hv : Porter.containsVowel front = true
    · simp [hv]
    · simp [hv]
  · simp [hy]

/-- The tables of the code as rules. -/
def rulesOf (table : List (Bytes × Bytes)) : List (SuffixRule Byte) :=
  table.map fun e => ⟨Porter.above 0,e.1,e.2⟩

lemma step2Rules_eq : Porter.step2Rules = rulesOf step2Table := rfl

lemma replaceSuffix_append (front : Bytes) (e : Bytes × Bytes) : replaceSuffix (front ++ e.1) e =
    if 0 < Porter.m front then some (front ++ e.2) else none := by
  rw [replaceSuffix,shorten_append,measure_eq]
  simp [endsWith_iff]

lemma replaceSuffix_of_not_suffix {e : Bytes × Bytes} (h : ¬e.1 <:+ s) :
    replaceSuffix s e = none := by
  simp [replaceSuffix,endsWith_iff,h]

/-- If the first entry that fits can be applied, or no other one fits, a table does what its rules
say. -/
lemma replaceFirst_eq {table : List (Bytes × Bytes)} (h : LongestFirst (rulesOf table))
    (hrest : ∀ e ∈ table, ∀ e' ∈ table, e.1 <:+ s → replaceSuffix s e = none → e'.1 <:+ e.1 →
      replaceSuffix s e' = none) : replaceFirst table s = obey (rulesOf table) s := by
  induction table with
  | nil => rfl
  | cons e table ih =>
    obtain ⟨hhead,htail⟩ := List.pairwise_cons.mp h
    have hsame : (⟨Porter.above 0,e.1,e.2⟩ : SuffixRule Byte).attempt s =
        if e.1 <:+ s then replaceSuffix s e else
          (⟨Porter.above 0,e.1,e.2⟩ : SuffixRule Byte).attempt s := by
      split_ifs with he
      · obtain ⟨front,rfl⟩ := he
        rw [replaceSuffix_append]
        exact (attempt_append ⟨Porter.above 0,e.1,e.2⟩ front).trans (by simp [Porter.above])
      · rfl
    rw [replaceFirst,List.findSome?_cons,rulesOf,List.map_cons,obey_cons h]
    change _ = if e.1 <:+ s then _ else obey (rulesOf table) s
    by_cases he : e.1 <:+ s
    · rw [if_pos he,hsame,if_pos he]
      cases hreplace : replaceSuffix s e with
      | some t => rfl
      | none =>
        have hnone : table.findSome? (replaceSuffix s) = none := by
          rw [List.findSome?_eq_none_iff]
          intro e' he'
          by_cases hfits : e'.1 <:+ s
          · have hlater := hhead _ (List.mem_map_of_mem he')
            rcases List.suffix_or_suffix_of_suffix he hfits with hsuffix | hsuffix
            · exact absurd hsuffix hlater
            · exact hrest e List.mem_cons_self e' (List.mem_cons_of_mem _ he') he hreplace hsuffix
          · exact replaceSuffix_of_not_suffix hfits
        rw [hnone]
    · rw [if_neg he,replaceSuffix_of_not_suffix he,← ih htail]
      · rfl
      · intro e₁ h₁ e₂ h₂
        exact hrest e₁ (List.mem_cons_of_mem _ h₁) e₂ (List.mem_cons_of_mem _ h₂)

lemma step3_eq (s : Bytes) : replaceFirst step3Table s = Porter.step3 s := by
  have halone : ∀ e ∈ step3Table, ∀ e' ∈ step3Table, e'.1 <:+ e.1 → e' = e := by decide
  refine replaceFirst_eq (by decide) ?_
  intro e he e' he' _ hnone hsuffix
  rw [halone e he e' he' hsuffix]
  exact hnone

end steps

section measures

lemma sequences_concat (k : List Bool) (vowel : Bool) : Porter.sequences (k ++ [vowel]) =
    Porter.sequences k + if k.getLast? = some true ∧ vowel = false then 1 else 0 := by
  induction k with
  | nil => cases vowel <;> rfl
  | cons a k ih =>
    cases k with
    | nil => cases a <;> cases vowel <;> rfl
    | cons b k =>
      rw [List.getLast?_cons_cons,List.cons_append]
      cases a with
      | false => rw [Porter.sequences_false,Porter.sequences_false,ih]
      | true =>
        cases b with
        | true => exact ih
        | false =>
          rw [List.cons_append,Porter.sequences,← List.cons_append,ih,Porter.sequences]
          omega

lemma kinds_concat (s : Bytes) (c : Byte) : Porter.kinds (s ++ [c]) = Porter.kinds s ++
    [decide (c ∈ latin "aeiou" ∨ c = 121 ∧ (Porter.kinds s).getLast? = some false)] := by
  unfold Porter.kinds
  rw [kindsAfter_concat]
  congr 3
  rw [eq_iff_iff]
  cases (Porter.kindsAfter false s).getLast? with
  | none => simp
  | some v => simp

/-- The last letter of a word is a vowel. -/
def endsVowel (s : Bytes) : Prop := (Porter.kinds s).getLast? = some true

instance (s : Bytes) : Decidable (endsVowel s) := inferInstanceAs (Decidable (_ = _))

lemma m_vowel (s : Bytes) {c : Byte} (h : c ∈ latin "aeiou") :
    Porter.m (s ++ [c]) = Porter.m s ∧ endsVowel (s ++ [c]) := by
  rw [endsVowel,Porter.m,kinds_concat,sequences_concat]
  simp [h,Porter.m]

lemma m_consonant (s : Bytes) {c : Byte} (h : c ∉ latin "aeiou") (hy : c ≠ 121) :
    Porter.m (s ++ [c]) = Porter.m s + (if endsVowel s then 1 else 0) ∧ ¬endsVowel (s ++ [c]) := by
  constructor
  · rw [Porter.m,kinds_concat,sequences_concat]
    by_cases hv : (Porter.kinds s).getLast? = some true
    · simp [h,hy,hv,Porter.m,endsVowel]
    · simp [h,hy,hv,Porter.m,endsVowel]
  · rw [endsVowel,kinds_concat]
    simp [h,hy]

/-- What the measures are of the ends of a word in `ization`. -/
lemma m_ization (front : Bytes) : Porter.m (front ++ latin "iz") = Porter.m front + 1 ∧
    Porter.m (front ++ latin "izat") = Porter.m front + 2 := by
  obtain ⟨hi,hivowel⟩ := m_vowel front (c := 105) (by decide)
  obtain ⟨hz,-⟩ := m_consonant (front ++ [105]) (c := 122) (by decide) (by decide)
  obtain ⟨ha,havowel⟩ := m_vowel (front ++ [105] ++ [122]) (c := 97) (by decide)
  obtain ⟨ht,-⟩ := m_consonant (front ++ [105] ++ [122] ++ [97]) (c := 116) (by decide) (by decide)
  rw [if_pos hivowel] at hz
  rw [if_pos havowel] at ht
  have hiz : front ++ latin "iz" = front ++ [105] ++ [122] := by
    rw [List.append_assoc]
    rfl
  have hizat : front ++ latin "izat" = front ++ [105] ++ [122] ++ [97] ++ [116] := by
    simp only [List.append_assoc]
    rfl
  rw [hiz,hizat]
  omega

end measures

end RagRuntime.Text
