import RagRuntime.Text.PorterStem

/-! The stemmer with every letter that it reads by its index; `none` stands for a read outside of
the word. -/
namespace RagRuntime.Text
open RagRuntime.Base RagRuntime.Core

section reads

def isVowel? (s : Bytes) : ℕ → Option Bool
  | 0 => s[0]?.map fun c => c ∈ latin "aeiou"
  | i+1 => do
    let c ← s[i+1]?
    if c ∈ latin "aeiou" then some true
    else if c = 121 then (isVowel? s i).map not
    else some false

/-- The index of the last letter; for the empty word it wraps around. -/
def lastIndex (s : Bytes) : ℕ := if s = [] then 2^64-1 else s.length-1

def measureLetter? (s : Bytes) (state : Bool × ℕ) (i : ℕ) : Option (Bool × ℕ) := do
  let vowel ← isVowel? s i
  some (vowel,if state.1 = true ∧ vowel = false then state.2+1 else state.2)

/-- The letters up to index `j` are read. -/
def measure? (s : Bytes) (j : ℕ) : Option ℕ :=
  ((List.range (j+1)).foldlM (measureLetter? s) (false,0)).map Prod.snd

/-- This loop stops at the end of the word by itself. -/
def hasVowel? (s : Bytes) (j : ℕ) : Option Bool :=
  (List.range (min (j+1) s.length)).anyM (isVowel? s)

def doubleConsonant? (s : Bytes) (j : ℕ) : Option Bool :=
  if j < 1 then some false
  else do
    let a ← s[j]?
    let b ← s[j-1]?
    if a ≠ b then some false else (isVowel? s j).map not

def cvc? (s : Bytes) (i : ℕ) : Option Bool :=
  if i < 2 then some false
  else do
    let last ← isVowel? s i
    let middle ← isVowel? s (i-1)
    let first ← isVowel? s (i-2)
    if last = true ∨ middle = false ∨ first = true then some false
    else s[i]?.map fun c => c ∉ latin "wxy"

def step1bExtra? (s : Bytes) : Option Bytes :=
  if endsWith s (latin "at") ∨ endsWith s (latin "bl") ∨ endsWith s (latin "iz") then
    some (s ++ latin "e")
  else do
    let double ← doubleConsonant? s (lastIndex s)
    if double then
      let c ← s[lastIndex s]?
      some (if c ∈ latin "lsz" then s else shorten s 1)
    else if s = [] then some s
    else
      let m ← measure? s (lastIndex s)
      let short ← cvc? s (lastIndex s)
      some (if m = 1 ∧ short = true then s ++ latin "e" else s)

/-- The loop over the stem begins at zero for an empty one as well. -/
def stemVowel? (stem : Bytes) : Option Bool :=
  hasVowel? stem (if stem = [] then 0 else stem.length-1)

def step1b? (s : Bytes) : Option Bytes :=
  if endsWith s (latin "eed") then
    let stem := shorten s 3
    if stem = [] then some s
    else do
      let m ← measure? stem (stem.length-1)
      some (if 0 < m then shorten s 1 else s)
  else if endsWith s (latin "ed") then do
    let vowel ← stemVowel? (shorten s 2)
    if vowel = true ∧ shorten s 2 ≠ [] then step1bExtra? (shorten s 2) else some s
  else if endsWith s (latin "ing") then do
    let vowel ← stemVowel? (shorten s 3)
    if vowel = true ∧ shorten s 3 ≠ [] then step1bExtra? (shorten s 3) else some s
  else some s

def step1c? (s : Bytes) : Option Bytes :=
  if endsWith s (latin "y") then do
    let vowel ← stemVowel? (shorten s 1)
    some (if vowel then shorten s 1 ++ latin "i" else s)
  else some s

/-- The measure of a stem, zero for an empty one. -/
def stemMeasure? (stem : Bytes) : Option ℕ :=
  if stem = [] then some 0 else measure? stem (stem.length-1)

/-- The inner option tells whether the suffix was replaced. -/
def replaceSuffix? (s : Bytes) (entry : Bytes × Bytes) : Option (Option Bytes) :=
  if endsWith s entry.1 then do
    let m ← stemMeasure? (shorten s entry.1.length)
    some (if 0 < m then some (shorten s entry.1.length ++ entry.2) else none)
  else some none

def replaceFirst? : List (Bytes × Bytes) → Bytes → Option Bytes
  | [],s => some s
  | entry::table,s => do
    match ← replaceSuffix? s entry with
    | some t => some t
    | none => replaceFirst? table s

def step4? (s : Bytes) : Option Bytes :=
  match step4Table.find? (endsWith s) with
  | none => some s
  | some suffix =>
    let stem := shorten s suffix.length
    if stem = [] then some s
    else do
      let m ← measure? stem (stem.length-1)
      some (if m > 1 then if suffix = latin "tion" then stem ++ latin "t" else stem else s)

def step5a? (s : Bytes) : Option Bytes :=
  if endsWith s (latin "e") then
    let stem := shorten s 1
    if stem = [] then some s
    else do
      let m ← measure? stem (stem.length-1)
      let short ← cvc? stem (stem.length-1)
      some (if m > 1 ∨ m = 1 ∧ short = false then stem else s)
  else some s

/-- The one place that measures a word without asking whether it is empty. -/
def step5b? (s : Bytes) : Option Bytes := do
  let m ← measure? s (lastIndex s)
  let double ← doubleConsonant? s (lastIndex s)
  some (if m > 1 ∧ double = true ∧ endsWith s (latin "l") = true then shorten s 1 else s)

def porterStem? (word : Bytes) : Option Bytes :=
  if word.length ≤ 2 then some word
  else do
    let s ← step1b? (step1a word)
    let s ← step1c? s
    let s ← replaceFirst? step2Table s
    let s ← replaceFirst? step3Table s
    let s ← step4? s
    let s ← step5a? s
    step5b? s

end reads

section inside
variable {s : Bytes}

lemma getElem?_eq_getD {i : ℕ} (h : i < s.length) : s[i]? = some (s.getD i 0) := by
  rw [List.getD_eq_getElem?_getD,List.getElem?_eq_getElem h]
  rfl

lemma isVowel?_eq {i : ℕ} (h : i < s.length) : isVowel? s i = some (isVowel s i) := by
  induction i with
  | zero =>
    rw [isVowel?,isVowel,getElem?_eq_getD h]
    rfl
  | succ i ih =>
    rw [isVowel?,isVowel,getElem?_eq_getD h,ih (by omega)]
    simp only [Option.bind_eq_bind,Option.bind_some,Option.map_some]
    split_ifs <;> rfl

lemma lastIndex_eq (h : s ≠ []) : lastIndex s = s.length-1 := if_neg h

lemma measure?_eq (h : s ≠ []) : measure? s (s.length-1) = some (measure s) := by
  have hfold : ∀ l : List ℕ, (∀ i ∈ l, i < s.length) → ∀ state,
      l.foldlM (measureLetter? s) state = some (l.foldl (measureLetter s) state) := by
    intro l
    induction l with
    | nil => exact fun _ _ => rfl
    | cons i l ih =>
      intro hl state
      obtain ⟨hi,hrest⟩ := List.forall_mem_cons.mp hl
      rw [List.foldlM_cons,measureLetter?,isVowel?_eq hi]
      exact ih hrest _
  have hpos := List.length_pos_of_ne_nil h
  have hlength : s.length-1+1 = s.length := by omega
  rw [measure?,hlength,hfold _ (fun i hi => List.mem_range.mp hi)]
  rfl

lemma hasVowel?_eq {j : ℕ} (h : s.length ≤ j+1) : hasVowel? s j = some (hasVowel s) := by
  have hany : ∀ l : List ℕ, (∀ i ∈ l, i < s.length) →
      l.anyM (isVowel? s) = some (l.any (isVowel s)) := by
    intro l
    induction l with
    | nil => exact fun _ => rfl
    | cons i l ih =>
      intro hl
      obtain ⟨hi,hrest⟩ := List.forall_mem_cons.mp hl
      rw [List.anyM,isVowel?_eq hi,List.any_cons]
      cases isVowel s i with
      | true => rfl
      | false => exact ih hrest
  rw [hasVowel?,min_eq_right h,hany _ (fun i hi => List.mem_range.mp hi)]
  rfl

lemma doubleConsonant?_eq (h : s ≠ []) :
    doubleConsonant? s (s.length-1) = some (doubleConsonant s) := by
  have hpos := List.length_pos_of_ne_nil h
  unfold doubleConsonant? doubleConsonant
  by_cases hshort : s.length-1 < 1
  · rw [if_pos hshort,decide_eq_false]
    rintro ⟨htwo,-⟩
    omega
  · have htwo : 2 ≤ s.length := by omega
    rw [if_neg hshort,getElem?_eq_getD (by omega),getElem?_eq_getD (by omega),
      isVowel?_eq (by omega),Nat.sub_sub]
    simp only [Option.bind_eq_bind,Option.bind_some,Option.map_some,htwo,true_and]
    split_ifs with hne
    · exact congrArg some (decide_eq_false fun h => hne h.1).symm
    · cases hvowel : isVowel s (s.length-1) with
      | false => exact congrArg some (decide_eq_true ⟨not_not.mp hne,rfl⟩).symm
      | true => exact congrArg some (decide_eq_false fun h => by cases h.2).symm

lemma cvc?_eq (h : s ≠ []) : cvc? s (s.length-1) = some (cvc s) := by
  have hpos := List.length_pos_of_ne_nil h
  unfold cvc? cvc
  by_cases hshort : s.length-1 < 2
  · rw [if_pos hshort,decide_eq_false]
    rintro ⟨hthree,-⟩
    omega
  · have hthree : 3 ≤ s.length := by omega
    rw [if_neg hshort,isVowel?_eq (by omega),isVowel?_eq (by omega),isVowel?_eq (by omega),
      getElem?_eq_getD (by omega),Nat.sub_sub,Nat.sub_sub]
    simp only [Option.bind_eq_bind,Option.bind_some,Option.map_some,hthree,true_and]
    cases isVowel s (s.length-1) <;> cases isVowel s (s.length-(1+1)) <;>
      cases isVowel s (s.length-(1+2)) <;> simp_all

lemma stemVowel?_eq (s : Bytes) : stemVowel? s = some (hasVowel s) := by
  unfold stemVowel?
  split_ifs with h
  · subst h
    rfl
  · exact hasVowel?_eq (by omega)

lemma stemMeasure?_eq (s : Bytes) : stemMeasure? s = some (measure s) := by
  unfold stemMeasure?
  split_ifs with h
  · subst h
    rfl
  · exact measure?_eq h

lemma step1bExtra?_eq (h : s ≠ []) : step1bExtra? s = some (step1bExtra s) := by
  have hlast : s[s.length-1]? = some (s.getD (s.length-1) 0) :=
    getElem?_eq_getD (by have := List.length_pos_of_ne_nil h; omega)
  unfold step1bExtra? step1bExtra
  rw [lastIndex_eq h,doubleConsonant?_eq h,hlast,measure?_eq h,cvc?_eq h]
  simp only [Option.bind_eq_bind,Option.bind_some,if_neg h]
  split_ifs <;> rfl

lemma step1b?_eq (s : Bytes) : step1b? s = some (step1b s) := by
  have hparticiple : ∀ stem, (do
      let vowel ← stemVowel? stem
      if vowel = true ∧ stem ≠ [] then step1bExtra? stem else some s) =
        some (if hasVowel stem then step1bExtra stem else s) := by
    intro stem
    rw [stemVowel?_eq]
    by_cases hv : hasVowel stem = true
    · have hne := ne_nil_of_hasVowel hv
      simp [hv,hne,step1bExtra?_eq hne]
    · simp [hv]
  unfold step1b? step1b
  by_cases heed : endsWith s (latin "eed") = true
  · rw [if_pos heed,if_pos heed]
    by_cases hnil : shorten s 3 = []
    · rw [if_pos hnil,hnil]
      rfl
    · rw [if_neg hnil,measure?_eq hnil]
      rfl
  rw [if_neg heed,if_neg heed]
  by_cases hed : endsWith s (latin "ed") = true
  · rw [if_pos hed,if_pos hed]
    exact hparticiple _
  rw [if_neg hed,if_neg hed]
  by_cases hing : endsWith s (latin "ing") = true
  · rw [if_pos hing,if_pos hing]
    exact hparticiple _
  rw [if_neg hing,if_neg hing]

lemma step1c?_eq (s : Bytes) : step1c? s = some (step1c s) := by
  unfold step1c? step1c
  simp only [stemVowel?_eq,Option.bind_eq_bind,Option.bind_some]
  split_ifs <;> simp_all

lemma replaceFirst?_eq (table : List (Bytes × Bytes)) (s : Bytes) :
    replaceFirst? table s = some (replaceFirst table s) := by
  have hsuffix : ∀ e, replaceSuffix? s e = some (replaceSuffix s e) := by
    intro e
    unfold replaceSuffix? replaceSuffix
    simp only [stemMeasure?_eq,Option.bind_eq_bind,Option.bind_some]
    split_ifs <;> simp_all
  induction table with
  | nil => rfl
  | cons e table ih =>
    rw [replaceFirst?,hsuffix,replaceFirst,List.findSome?_cons]
    cases replaceSuffix s e with
    | some t => rfl
    | none => exact ih

lemma step4?_eq (s : Bytes) : step4? s = some (step4 s) := by
  unfold step4? step4
  cases step4Table.find? (endsWith s) with
  | none => rfl
  | some suffix =>
    dsimp only
    by_cases hnil : shorten s suffix.length = []
    · rw [if_pos hnil,if_pos hnil]
    · rw [if_neg hnil,if_neg hnil,measure?_eq hnil]
      simp only [Option.bind_eq_bind,Option.bind_some]

lemma step5a?_eq (s : Bytes) : step5a? s = some (step5a s) := by
  unfold step5a? step5a
  by_cases hnil : shorten s 1 = []
  · simp [hnil]
  · simp only [measure?_eq hnil,cvc?_eq hnil,Option.bind_eq_bind,Option.bind_some,if_neg hnil]
    split_ifs <;> simp_all

lemma step5b?_eq (h : s ≠ []) : step5b? s = some (step5b s) := by
  unfold step5b? step5b
  rw [lastIndex_eq h,measure?_eq h,doubleConsonant?_eq h]
  rfl

/-- Every read of the stemmer is inside of the word. -/
theorem porterStem?_eq (word : Bytes) : porterStem? word = some (porterStem word) := by
  unfold porterStem? porterStem
  split_ifs with hshort
  · rfl
  · have h1 := step1c_ne_nil (step1b_ne_nil (step1a_ne_nil (Nat.lt_of_not_le hshort)))
    have h3 := replaceFirst_ne_nil (replaceFirst_ne_nil h1 step2Table) step3Table
    rw [step1b?_eq]
    simp only [Option.bind_eq_bind,Option.bind_some,step1c?_eq,replaceFirst?_eq,step4?_eq,
      step5a?_eq,step5b?_eq (step5a_ne_nil (step4_ne_nil h3))]

/-- The stemmer gives the stem of the algorithm without a read outside of the word, exactly for the
words whose `ion` it does not miss. -/
theorem porterStem?_eq_iff (word : Bytes) :
    porterStem? word = some (Porter.stem word) ↔ word.length ≤ 2 ∨ ¬Missed word := by
  rw [porterStem?_eq,Option.some_inj,porterStem_eq_iff]

theorem solution_missed : porterStem? (latin "solution") = some (latin "solution") ∧
    Porter.stem (latin "solution") = latin "solut" := by decide +kernel

end inside
end RagRuntime.Text
