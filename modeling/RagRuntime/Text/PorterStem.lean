import RagRuntime.Text.PorterSteps

/-! Where the stemmer departs from the published algorithm. -/
namespace RagRuntime.Text
open RagRuntime.Base RagRuntime.Core SuffixRule

lemma suffix_append_iff {front ending suffix : Bytes} (h : suffix.length ≤ ending.length) :
    suffix <:+ front ++ ending ↔ suffix <:+ ending :=
  ⟨fun hs => List.suffix_of_suffix_length_le hs (List.suffix_append _ _) h,
    fun hs => hs.trans (List.suffix_append _ _)⟩

section step4

/-- The suffixes of step 4 that the code and the algorithm treat alike. -/
def step4Suffixes : List String := ["al","ance","ence","er","ic","able","ible","ant","ement","ment",
  "ent","ou","ism","ate","iti","ous","ive","ize"]

def ionRule : SuffixRule Byte :=
  Porter.rule (fun s => Porter.above 1 s && Porter.endsIn s (latin "st")) "ion" ""

lemma step4Table_eq : step4Table = step4Suffixes.map latin ++ [latin "tion"] := rfl

lemma step4Rules_eq : Porter.step4Rules =
    (step4Suffixes.take 11).map (fun suffix => Porter.rule (Porter.above 1) suffix "") ++
      ionRule::(step4Suffixes.drop 11).map fun suffix =>
        Porter.rule (Porter.above 1) suffix "" := rfl

lemma step4Rules_longestFirst : LongestFirst Porter.step4Rules := by decide

/-- A word in `ion` has none of the other suffixes. -/
lemma not_suffix_ion {front : Bytes} {suffix : String} (h : suffix ∈ step4Suffixes) :
    ¬latin suffix <:+ front ++ latin "ion" := by
  have happart : ∀ suffix ∈ step4Suffixes, ¬latin suffix <:+ latin "ion" ∧
      ¬latin "ion" <:+ latin suffix := by decide
  obtain ⟨hshort,hlong⟩ := happart suffix h
  intro hs
  rcases List.suffix_or_suffix_of_suffix hs (List.suffix_append front (latin "ion")) with h | h
  · exact hshort h
  · exact hlong h

lemma porter_step4_ion (front : Bytes) : Porter.step4 (front ++ latin "ion") =
    if 1 < Porter.m front ∧ Porter.endsIn front (latin "st") = true then front
    else front ++ latin "ion" := by
  have hfind : (Porter.step4Rules.find? fun r => r.suffix <:+ front ++ latin "ion") =
      some ionRule := by
    rw [step4Rules_eq,List.find?_append,List.find?_eq_none.mpr,Option.none_or,
      List.find?_cons_of_pos]
    · exact decide_eq_true (List.suffix_append _ _)
    · intro r hr
      obtain ⟨suffix,hsuffix,rfl⟩ := List.mem_map.mp hr
      exact fun hs => not_suffix_ion (List.mem_of_mem_take hsuffix) (of_decide_eq_true hs)
  have hempty : latin "" = [] := rfl
  rw [Porter.step4,obey_of_find? step4Rules_longestFirst hfind,ionRule,attempt_rule,hempty,
    List.append_nil]
  simp only [Porter.above,Bool.and_eq_true,decide_eq_true_eq]
  split_ifs <;> rfl

/-- A word in `sion` keeps it. -/
lemma step4_ion {front : Bytes} (h : ¬latin "tion" <:+ front ++ latin "ion") :
    step4 (front ++ latin "ion") = front ++ latin "ion" := by
  have hfind : step4Table.find? (endsWith (front ++ latin "ion")) = none := by
    rw [List.find?_eq_none,step4Table_eq]
    intro e he
    rw [endsWith_iff]
    rcases List.mem_append.mp he with he | he
    · obtain ⟨suffix,hsuffix,rfl⟩ := List.mem_map.mp he
      exact not_suffix_ion hsuffix
    · rwa [List.mem_singleton.mp he]
  rw [step4,hfind]

lemma step4_tion (front : Bytes) : step4 (front ++ latin "tion") =
    if 1 < Porter.m front then front ++ latin "t" else front ++ latin "tion" := by
  have hion : front ++ latin "tion" = front ++ latin "t" ++ latin "ion" := by
    rw [List.append_assoc]
    rfl
  have hfind : step4Table.find? (endsWith (front ++ latin "tion")) = some (latin "tion") := by
    rw [step4Table_eq,List.find?_append,List.find?_eq_none.mpr,Option.none_or,
      List.find?_cons_of_pos]
    · exact endsWith_iff.mpr (List.suffix_append _ _)
    · intro e he
      obtain ⟨suffix,hsuffix,rfl⟩ := List.mem_map.mp he
      rw [endsWith_iff,hion]
      exact not_suffix_ion hsuffix
  rw [step4,hfind]
  dsimp only
  rw [shorten_append,measure_eq]
  by_cases hnil : front = []
  · subst hnil
    rfl
  · rw [if_neg hnil]
    simp

lemma step4_eq {s : Bytes} (h : ¬latin "ion" <:+ s) : step4 s = Porter.step4 s := by
  have htion : ¬latin "tion" <:+ s := fun hs => h (List.IsSuffix.trans (by decide) hs)
  have hcode : step4Table.find? (endsWith s) = (step4Suffixes.map latin).find? (endsWith s) := by
    rw [step4Table_eq,List.find?_append,List.find?_cons_of_neg,List.find?_nil,Option.or_none]
    rwa [endsWith_iff]
  have hrules : (Porter.step4Rules.find? fun r => r.suffix <:+ s) =
      (step4Suffixes.map fun suffix => Porter.rule (Porter.above 1) suffix "").find?
        fun r => r.suffix <:+ s := by
    have hion : ¬ionRule.suffix <:+ s := h
    rw [step4Rules_eq,List.find?_append,List.find?_cons_of_neg (by simpa using hion),
      ← List.find?_append,← List.map_append,List.take_append_drop]
  have hsame : ((fun r : SuffixRule Byte => decide (r.suffix <:+ s)) ∘
      fun suffix => Porter.rule (Porter.above 1) suffix "") = endsWith s ∘ latin := by
    funext suffix
    exact Bool.eq_iff_iff.mpr (decide_eq_true_iff.trans endsWith_iff.symm)
  rw [List.find?_map,hsame] at hrules
  rw [List.find?_map] at hcode
  cases hfind : step4Suffixes.find? (endsWith s ∘ latin) with
  | none =>
    rw [hfind] at hcode hrules
    rw [Porter.step4,obey,longest_eq_find? step4Rules_longestFirst,hrules,step4,hcode]
    rfl
  | some suffix =>
    have hfits : endsWith s (latin suffix) = true := List.find?_some (p := endsWith s ∘ latin) hfind
    obtain ⟨front,rfl⟩ := endsWith_iff.mp hfits
    have hne : latin suffix ≠ latin "tion" := by
      have : ∀ suffix ∈ step4Suffixes, latin suffix ≠ latin "tion" := by decide
      exact this suffix (List.mem_of_find?_eq_some hfind)
    have hempty : latin "" = [] := rfl
    rw [hfind] at hcode hrules
    rw [Porter.step4,obey_of_find? step4Rules_longestFirst hrules,attempt_rule,step4,hcode,hempty,
      List.append_nil]
    dsimp only [Option.map_some]
    rw [shorten_append,measure_eq,if_neg hne]
    by_cases hnil : front = []
    · subst hnil
      rfl
    · rw [if_neg hnil]
      by_cases hm : 1 < Porter.m front
      · simp [Porter.above,hm]
      · simp [Porter.above,hm]

end step4

section ization

/-- Only `ization` and `ation` fit. -/
lemma step2Table_split : step2Table = step2Table.take 10 ++
    (latin "ization",latin "ize")::(latin "ation",latin "ate")::step2Table.drop 12 := by decide

lemma step2Table_front : ∀ e ∈ step2Table.take 10,
    e.1.length ≤ (latin "ization").length ∧ ¬e.1 <:+ latin "ization" := by decide

variable {front : Bytes}

lemma not_suffix_ization {e : Bytes × Bytes} (he : e ∈ step2Table.take 10) (front : Bytes) :
    ¬e.1 <:+ front ++ latin "ization" := by
  obtain ⟨hlength,hnot⟩ := step2Table_front e he
  rwa [suffix_append_iff hlength]

/-- The code goes on to `ation` where `ization` does not apply. -/
lemma replaceFirst_ization (h : Porter.m front = 0) :
    replaceFirst step2Table (front ++ latin "ization") = front ++ latin "izate" := by
  have hfirst : (step2Table.take 10).findSome? (replaceSuffix (front ++ latin "ization")) =
    none := by
    rw [List.findSome?_eq_none_iff]
    exact fun e he => replaceSuffix_of_not_suffix (not_suffix_ization he front)
  have hlong : replaceSuffix (front ++ latin "ization") (latin "ization",latin "ize") = none := by
    rw [replaceSuffix_append front (latin "ization",latin "ize"),h]
    rfl
  have hshort : replaceSuffix (front ++ latin "ization") (latin "ation",latin "ate") =
      some (front ++ latin "izate") := by
    have hsplit : front ++ latin "ization" = front ++ latin "iz" ++ latin "ation" := by
      rw [List.append_assoc]
      rfl
    rw [hsplit,replaceSuffix_append (front ++ latin "iz") (latin "ation",latin "ate"),
      (m_ization front).1,if_pos (Nat.succ_pos _),List.append_assoc]
    rfl
  rw [replaceFirst,step2Table_split,List.findSome?_append,hfirst,Option.none_or,
    List.findSome?_cons,hlong]
  dsimp only
  rw [List.findSome?_cons,hshort]
  rfl

lemma step2_ization (h : Porter.m front = 0) :
    Porter.step2 (front ++ latin "ization") = front ++ latin "ization" := by
  have hfind : (Porter.step2Rules.find? fun r => r.suffix <:+ front ++ latin "ization") =
      some (Porter.rule (Porter.above 0) "ization" "ize") := by
    rw [step2Rules_eq,step2Table_split,rulesOf,List.map_append,List.find?_append]
    have hnone : (((step2Table.take 10).map fun e =>
      (⟨Porter.above 0,e.1,e.2⟩ : SuffixRule Byte)).find?
        fun r => r.suffix <:+ front ++ latin "ization") = none := by
      rw [List.find?_eq_none]
      intro r hr
      obtain ⟨e,he,rfl⟩ := List.mem_map.mp hr
      simpa using not_suffix_ization he front
    rw [hnone,Option.none_or,List.map_cons]
    exact List.find?_cons_of_pos (by simp)
  rw [Porter.step2,obey_of_find? (by decide) hfind,attempt_rule]
  simp [Porter.above,h]

/-- The endings of `izate` that the later steps look for. -/
lemma stemmed_izate (h : Porter.m front = 0) :
    step5b (step5a (step4 (replaceFirst step3Table (front ++ latin "izate")))) =
      front ++ latin "izat" := by
  have h3 : replaceFirst step3Table (front ++ latin "izate") = front ++ latin "izate" := by
    have hends : ∀ e ∈ step3Table, e.1.length ≤ (latin "izate").length ∧
        ¬e.1 <:+ latin "izate" := by decide
    rw [replaceFirst,List.findSome?_eq_none_iff.mpr]
    · rfl
    · intro e he
      obtain ⟨hlength,hnot⟩ := hends e he
      exact replaceSuffix_of_not_suffix (by rwa [suffix_append_iff hlength])
  have h4 : step4 (front ++ latin "izate") = front ++ latin "izate" := by
    have hends : ∀ e ∈ step4Table.take 13, e.length ≤ (latin "izate").length ∧
        ¬e <:+ latin "izate" := by decide
    have hsplit : step4Table = step4Table.take 13 ++ latin "ate"::step4Table.drop 14 := by
      decide
    have hfind : step4Table.find? (endsWith (front ++ latin "izate")) = some (latin "ate") := by
      rw [hsplit,List.find?_append,List.find?_eq_none.mpr,Option.none_or,List.find?_cons_of_pos]
      · rw [endsWith_iff,suffix_append_iff (by decide)]
        decide
      · intro e he
        obtain ⟨hlength,hnot⟩ := hends e he
        rw [endsWith_iff,suffix_append_iff hlength]
        exact hnot
    have hstem : shorten (front ++ latin "izate") (latin "ate").length = front ++ latin "iz" :=
      shorten_suffix front (latin "iz") (latin "ate")
    rw [step4,hfind]
    dsimp only
    rw [hstem,measure_eq,(m_ization front).1,h]
    simp
  have h5a : step5a (front ++ latin "izate") = front ++ latin "izat" := by
    have hstem : shorten (front ++ latin "izate") 1 = front ++ latin "izat" :=
      shorten_suffix front (latin "izat") (latin "e")
    rw [step5a,hstem,if_pos]
    refine ⟨?_,append_latin_ne_nil front (by decide),Or.inl ?_⟩
    · rw [endsWith_iff,suffix_append_iff (by decide)]
      decide
    · rw [measure_eq,(m_ization front).2]
      omega
  have h5b : step5b (front ++ latin "izat") = front ++ latin "izat" := by
    rw [step5b,if_neg]
    rintro ⟨-,-,hl⟩
    rw [endsWith_iff,suffix_append_iff (by decide)] at hl
    exact absurd hl (by decide)
  rw [h3,h4,h5a,h5b]

lemma porter_izat (h : Porter.m front = 0) :
    Porter.step5b (Porter.step5a (Porter.step4 (Porter.step3 (front ++ latin "ization")))) =
      front ++ latin "izat" := by
  have h3 : Porter.step3 (front ++ latin "ization") = front ++ latin "ization" := by
    have hends : ∀ r ∈ Porter.step3Rules, r.suffix.length ≤ (latin "ization").length ∧
        ¬r.suffix <:+ latin "ization" := by decide
    apply obey_of_none
    intro r hr
    obtain ⟨hlength,hnot⟩ := hends r hr
    rwa [suffix_append_iff hlength]
  have h4 : Porter.step4 (front ++ latin "ization") = front ++ latin "izat" := by
    have hsplit : front ++ latin "ization" = front ++ latin "izat" ++ latin "ion" := by
      rw [List.append_assoc]
      rfl
    have ht : Porter.endsIn (front ++ latin "izat") (latin "st") = true := by
      rw [Porter.endsIn,List.getLast?_append]
      rfl
    rw [hsplit,porter_step4_ion,if_pos ⟨by rw [(m_ization front).2]; omega,ht⟩]
  have h5a : Porter.step5a (front ++ latin "izat") = front ++ latin "izat" := by
    apply obey_of_none
    intro r hr
    rw [List.mem_singleton.mp hr]
    exact (suffix_append_iff (by decide)).not.mpr (by decide)
  have h5b : Porter.step5b (front ++ latin "izat") = front ++ latin "izat" := by
    have hl : Porter.endsIn (front ++ latin "izat") (latin "l") = false := by
      rw [Porter.endsIn,List.getLast?_append]
      rfl
    simp [Porter.step5b,hl]
  rw [h3,h4,h5a,h5b]

end ization

section agreement

lemma step2_eq {s : Bytes} (h : ¬∃ front, s = front ++ latin "ization" ∧ Porter.m front = 0) :
    replaceFirst step2Table s = Porter.step2 s := by
  have hpairs : ∀ e ∈ step2Table, ∀ e' ∈ step2Table, e'.1 <:+ e.1 → e' = e ∨
      (e = (latin "ational",latin "ate") ∧ e' = (latin "tional",latin "tion")) ∨
      (e = (latin "ization",latin "ize") ∧ e' = (latin "ation",latin "ate")) := by decide
  refine replaceFirst_eq (by decide) ?_
  intro e he e' he' hfits hnone hsuffix
  rcases hpairs e he e' he' hsuffix with rfl | ⟨rfl,rfl⟩ | ⟨rfl,rfl⟩
  · exact hnone
  · -- the vowel in between adds nothing to the measure
    obtain ⟨front,rfl⟩ := hfits
    rw [replaceSuffix_append front (latin "ational",latin "ate")] at hnone
    have hsplit : front ++ latin "ational" = front ++ [97] ++ latin "tional" := by
      rw [List.append_assoc]
      rfl
    rw [hsplit,replaceSuffix_append (front ++ [97]) (latin "tional",latin "tion"),
      (m_vowel front (by decide)).1]
    split_ifs at hnone ⊢
    · rfl
  · obtain ⟨front,rfl⟩ := hfits
    rw [replaceSuffix_append front (latin "ization",latin "ize")] at hnone
    split_ifs at hnone with hm
    exact absurd ⟨front,rfl,by omega⟩ h

lemma step5a_eq (s : Bytes) : step5a s = Porter.step5a s := by
  rw [Porter.step5a,Porter.step5aRules,obey_cons (by decide),obey_nil,step5a]
  simp only [endsWith_iff]
  change _ = if latin "e" <:+ s then _ else _
  by_cases he : latin "e" <:+ s
  · obtain ⟨front,rfl⟩ := he
    have hfront : shorten (front ++ latin "e") 1 = front := shorten_append front (latin "e")
    rw [if_pos (List.suffix_append _ _),attempt_rule,hfront]
    by_cases hnil : front = []
    · subst hnil
      rfl
    · rw [measure_eq,cvc_eq]
      by_cases hc : 1 < Porter.m front ∨ Porter.m front = 1 ∧ Porter.endsShort front = false
      · rw [if_pos ⟨List.suffix_append _ _,hnil,hc⟩,if_pos (decide_eq_true hc)]
        exact (List.append_nil front).symm
      · rw [if_neg (fun h => hc h.2.2),if_neg (fun h => hc (of_decide_eq_true h))]
        rfl
  · simp [he]

lemma endsIn_iff {s letters : Bytes} :
    Porter.endsIn s letters = true ↔ ∃ front, ∃ c ∈ letters, s = front ++ [c] := by
  cases s using List.reverseRecOn with
  | nil => simp [Porter.endsIn]
  | append_singleton front c =>
    rw [Porter.endsIn,List.getLast?_concat]
    constructor
    · intro h
      exact ⟨front,c,by simpa using h,rfl⟩
    · rintro ⟨front',c',hc,heq⟩
      have hsame : c = c' := by simpa using (List.append_inj' heq rfl).2
      simpa [hsame] using hc

lemma endsIn_l (s : Bytes) : Porter.endsIn s (latin "l") = endsWith s (latin "l") := by
  have hl : latin "l" = [108] := rfl
  rw [Bool.eq_iff_iff,endsIn_iff,endsWith_iff,hl]
  constructor
  · rintro ⟨front,c,hc,rfl⟩
    rw [List.mem_singleton.mp hc]
    exact List.suffix_append _ _
  · rintro ⟨front,rfl⟩
    exact ⟨front,108,List.mem_singleton_self _,rfl⟩

lemma step5b_eq (s : Bytes) : step5b s = Porter.step5b s := by
  rw [step5b,Porter.step5b,shorten_one,measure_eq,doubleConsonant_eq,endsIn_l]

/-- What steps 1 to 3 leave ends in an `ion` that the algorithm takes off and the code does not. -/
def Missed (word : Bytes) : Prop :=
  (¬∃ front, Porter.step1 word = front ++ latin "ization" ∧ Porter.m front = 0) ∧
  ((∃ front, Porter.step3 (Porter.step2 (Porter.step1 word)) = front ++ latin "sion" ∧
      1 < Porter.m (front ++ latin "s")) ∨
    ∃ front, Porter.step3 (Porter.step2 (Porter.step1 word)) = front ++ latin "tion" ∧
      Porter.m front = 1 ∧ Porter.m (front ++ latin "t") = 2)

lemma step1_eq (word : Bytes) : step1c (step1b (step1a word)) = Porter.step1 word := by
  rw [step1a_eq,step1b_eq,step1c_eq,Porter.step1]

lemma append_ne_self {front ending : Bytes} (h : ending ≠ []) : front ≠ front ++ ending :=
  fun heq => h (List.self_eq_append_right.mp heq)

lemma step4_tion_eq_iff (front : Bytes) :
    step4 (front ++ latin "tion") = Porter.step4 (front ++ latin "tion") ↔
      ¬(Porter.m front = 1 ∧ Porter.m (front ++ latin "t") = 2) := by
  have hsplit : front ++ latin "tion" = front ++ latin "t" ++ latin "ion" := by
    rw [List.append_assoc]
    rfl
  have ht : Porter.endsIn (front ++ latin "t") (latin "st") = true := by
    rw [Porter.endsIn,List.getLast?_append]
    rfl
  have hne : front ++ latin "t" ≠ front ++ latin "t" ++ latin "ion" := append_ne_self (by decide)
  have hm : Porter.m (front ++ latin "t") = Porter.m front + if endsVowel front then 1 else 0 :=
    (m_consonant front (by decide) (by decide)).1
  rw [step4_tion,hsplit,porter_step4_ion]
  simp only [ht,and_true]
  split_ifs at hm ⊢ with h1 h2 h3 h4
  all_goals simp only [hne,hne.symm,true_iff,false_iff,not_not]
  all_goals omega

lemma step4_ion_eq_iff {front : Bytes} (h : ¬latin "tion" <:+ front ++ latin "ion") :
    step4 (front ++ latin "ion") = Porter.step4 (front ++ latin "ion") ↔
      ¬(1 < Porter.m front ∧ Porter.endsIn front (latin "st") = true) := by
  have hne : front ≠ front ++ latin "ion" := append_ne_self (by decide)
  rw [step4_ion h,porter_step4_ion]
  split_ifs with hm
  · simp [hne.symm,hm]
  · simp [hm]

lemma endsIn_st {front : Bytes} (h : ¬latin "t" <:+ front) :
    Porter.endsIn front (latin "st") = true ↔ ∃ v, front = v ++ latin "s" := by
  have hst : latin "st" = [115,116] := rfl
  rw [endsIn_iff,hst]
  constructor
  · rintro ⟨v,c,hc,rfl⟩
    rcases List.mem_cons.mp hc with rfl | hc
    · exact ⟨v,rfl⟩
    · rw [List.mem_singleton.mp hc] at h
      exact absurd (List.suffix_append _ _) h
  · rintro ⟨v,rfl⟩
    exact ⟨v,115,List.mem_cons_self,rfl⟩

/-- Step 4 differs on these words alone. -/
lemma step4_eq_iff (s : Bytes) : step4 s = Porter.step4 s ↔
    ¬((∃ front, s = front ++ latin "sion" ∧ 1 < Porter.m (front ++ latin "s")) ∨
      ∃ front, s = front ++ latin "tion" ∧ Porter.m front = 1 ∧
        Porter.m (front ++ latin "t") = 2) := by
  have hsion : ∀ front, front ++ latin "sion" = front ++ latin "s" ++ latin "ion" := by
    intro front
    rw [List.append_assoc]
    rfl
  have htion : ∀ front, front ++ latin "tion" = front ++ latin "t" ++ latin "ion" := by
    intro front
    rw [List.append_assoc]
    rfl
  by_cases hion : latin "ion" <:+ s
  · obtain ⟨front,rfl⟩ := hion
    by_cases ht : latin "t" <:+ front
    · obtain ⟨front,rfl⟩ := ht
      rw [← htion,step4_tion_eq_iff]
      have hnot : ∀ front', front ++ latin "tion" ≠ front' ++ latin "sion" := fun front' heq =>
        absurd (List.append_inj' heq rfl).2 (by decide)
      simp [hnot]
    · have hnot : ∀ front', front ++ latin "ion" ≠ front' ++ latin "tion" := by
        intro front' heq
        rw [htion] at heq
        exact ht ⟨front',(List.append_cancel_right heq).symm⟩
      rw [step4_ion_eq_iff,endsIn_st ht]
      · simp only [hnot,false_and,exists_false,or_false,hsion,List.append_cancel_right_eq]
        constructor
        · rintro h ⟨v,rfl,hm⟩
          exact h ⟨hm,v,rfl⟩
        · rintro h ⟨hm,v,rfl⟩
          exact h ⟨v,rfl,hm⟩
      · rintro ⟨front',heq⟩
        exact hnot front' heq.symm
  · refine ⟨fun _ => ?_,fun _ => step4_eq hion⟩
    rintro (⟨front,rfl,-⟩ | ⟨front,rfl,-⟩)
    · exact hion (hsion front ▸ List.suffix_append _ _)
    · exact hion (htion front ▸ List.suffix_append _ _)

/-- The last step does not touch a word with such an ending. -/
lemma step5_kept {ending : Bytes} (front : Bytes) (h : (latin "e").length ≤ ending.length)
    (he : ¬latin "e" <:+ ending) (hl : ¬latin "l" <:+ ending) :
    step5b (step5a (front ++ ending)) = front ++ ending := by
  have h5a : step5a (front ++ ending) = front ++ ending := by
    rw [step5a]
    refine if_neg fun hc => he ?_
    exact (suffix_append_iff h).mp (endsWith_iff.mp hc.1)
  rw [h5a,step5b]
  refine if_neg fun hc => hl ?_
  have hlength : (latin "l").length ≤ ending.length := le_trans (by decide) h
  exact (suffix_append_iff hlength).mp (endsWith_iff.mp hc.2.2)

/-- What step 4 misses stays. -/
lemma missed_ion (front : Bytes) {ending : Bytes} (h : (latin "e").length ≤ ending.length)
    (he : ¬latin "e" <:+ ending) (hl : ¬latin "l" <:+ ending)
    (hcode : step4 (front ++ ending ++ latin "ion") = front ++ ending ++ latin "ion")
    (hporter : Porter.step4 (front ++ ending ++ latin "ion") = front ++ ending) :
    step5b (step5a (step4 (front ++ ending ++ latin "ion"))) ≠
      Porter.step5b (Porter.step5a (Porter.step4 (front ++ ending ++ latin "ion"))) := by
  rw [hcode,hporter,← step5a_eq,← step5b_eq,step5_kept front h he hl,
    step5_kept (front ++ ending) (by decide) (by decide) (by decide)]
  exact (append_ne_self (by decide)).symm

/-- Steps 5a and 5b do not hide the difference. -/
lemma steps_eq_iff (s : Bytes) : step5b (step5a (step4 s)) =
    Porter.step5b (Porter.step5a (Porter.step4 s)) ↔ step4 s = Porter.step4 s := by
  refine ⟨fun heq => ?_,fun h => by rw [h,step5a_eq,step5b_eq]⟩
  rw [step4_eq_iff]
  have hst : ∀ front, ∀ c ∈ latin "st", Porter.endsIn (front ++ [c]) (latin "st") = true :=
    fun front c hc => endsIn_iff.mpr ⟨front,c,hc,rfl⟩
  rintro (⟨front,rfl,hm⟩ | ⟨front,rfl,hone,htwo⟩)
  · have hsplit : front ++ latin "sion" = front ++ latin "s" ++ latin "ion" := by
      rw [List.append_assoc]
      rfl
    rw [hsplit] at heq
    refine missed_ion front (by decide) (by decide) (by decide) (step4_ion ?_) ?_ heq
    · rw [← hsplit,suffix_append_iff (by decide)]
      decide
    · exact (porter_step4_ion _).trans (if_pos ⟨hm,hst front 115 (by decide)⟩)
  · have hsplit : front ++ latin "tion" = front ++ latin "t" ++ latin "ion" := by
      rw [List.append_assoc]
      rfl
    have hcode := step4_tion front
    rw [if_neg (by omega),hsplit] at hcode
    rw [hsplit] at heq
    refine missed_ion front (by decide) (by decide) (by decide) hcode ?_ heq
    exact (porter_step4_ion _).trans (if_pos ⟨by omega,hst front 116 (by decide)⟩)

/-- The stem is that of the algorithm, except for the words whose `ion` is missed. -/
theorem porterStem_eq_iff (word : Bytes) :
    porterStem word = Porter.stem word ↔ word.length ≤ 2 ∨ ¬Missed word := by
  by_cases hshort : word.length ≤ 2
  · simp [porterStem,Porter.stem,hshort]
  rw [porterStem,Porter.stem,if_neg hshort,if_neg hshort,step1_eq]
  by_cases hization : ∃ front, Porter.step1 word = front ++ latin "ization" ∧ Porter.m front = 0
  · obtain ⟨front,hword,hm⟩ := hization
    have hmissed : ¬Missed word := fun h => h.1 ⟨front,hword,hm⟩
    rw [hword,replaceFirst_ization hm,stemmed_izate hm,step2_ization hm,porter_izat hm]
    exact ⟨fun _ => Or.inr hmissed,fun _ => rfl⟩
  · rw [step2_eq hization,step3_eq,steps_eq_iff,step4_eq_iff,Missed]
    simp only [hshort,hization,not_false_eq_true,true_and,false_or]

end agreement
end RagRuntime.Text
