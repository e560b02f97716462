import RagRuntime.Base.SuffixRules
import RagRuntime.Text.TokenRuns

/-! The stemming algorithm as it was published in 1980, with the later `bli` of step 2. -/
namespace RagRuntime.Text.Porter
open RagRuntime.Base RagRuntime.Core SuffixRule

/-- Which letters are vowels: a, e, i, o, u, and a y behind a consonant. -/
def kindsAfter (consonantBefore : Bool) : Bytes → List Bool
  | [] => []
  | c::rest =>
    let vowel := decide (c ∈ latin "aeiou" ∨ c = 121 ∧ consonantBefore = true)
    vowel::kindsAfter (!vowel) rest

def kinds (s : Bytes) : List Bool := kindsAfter false s

/-- A word has the form `[C](VC)^m[V]`. -/
def Form (m : ℕ) (k : List Bool) : Prop :=
  ∃ (c : ℕ) (blocks : List (ℕ × ℕ)) (v : ℕ), blocks.length = m ∧
    k = List.replicate c false ++ (blocks.flatMap fun b =>
      List.replicate (b.1+1) true ++ List.replicate (b.2+1) false) ++ List.replicate v true

def sequences : List Bool → ℕ
  | true::false::k => sequences (false::k) + 1
  | _::k => sequences k
  | [] => 0

/-- The measure of a word. -/
def m (s : Bytes) : ℕ := sequences (kinds s)

/-- The condition `*v*`. -/
def containsVowel (s : Bytes) : Bool := true ∈ kinds s

/-- The condition `*d`. -/
def endsDoubled (s : Bytes) : Bool :=
  match s.reverse,(kinds s).reverse with
  | a::b::_,false::_ => a = b
  | _,_ => false

/-- The condition `*o`. -/
def endsShort (s : Bytes) : Bool :=
  match s.reverse,(kinds s).reverse with
  | a::_,false::true::false::_ => a ∉ latin "wxy"
  | _,_ => false

/-- The conditions `*L`, `*S`, `*T` and `*Z`. -/
def endsIn (s letters : Bytes) : Bool := s.getLast?.any (· ∈ letters)

def always (_ : Bytes) : Bool := true

/-- The condition `m > k`. -/
def above (k : ℕ) (s : Bytes) : Bool := k < m s

def rule (condition : Bytes → Bool) (suffix replacement : String) : SuffixRule Byte :=
  ⟨condition,latin suffix,latin replacement⟩

def step1aRules : List (SuffixRule Byte) :=
  [rule always "sses" "ss",rule always "ies" "i",rule always "ss" "ss",rule always "s" ""]

def step1a : Bytes → Bytes := obey step1aRules

def step1bRules : List (SuffixRule Byte) :=
  [rule (above 0) "eed" "ee",rule containsVowel "ed" "",rule containsVowel "ing" ""]

def tidyRules : List (SuffixRule Byte) :=
  [rule always "at" "ate",rule always "bl" "ble",rule always "iz" "ize"]

/-- What is done if the second or the third rule of step 1b is successful. -/
def tidy (s : Bytes) : Bytes :=
  if (longest tidyRules s).isSome then obey tidyRules s
  else if endsDoubled s ∧ ¬endsIn s (latin "lsz") then s.dropLast
  else if m s = 1 ∧ endsShort s then s ++ latin "e"
  else s

def step1b (s : Bytes) : Bytes :=
  match longest step1bRules s with
  | none => s
  | some r =>
    match r.attempt s with
    | none => s
    | some t => if r.suffix = latin "eed" then t else tidy t

def step1cRules : List (SuffixRule Byte) := [rule containsVowel "y" "i"]

def step1c : Bytes → Bytes := obey step1cRules

def step2Rules : List (SuffixRule Byte) := [("ational","ate"),("tional","tion"),("enci","ence"),
  ("anci","ance"),("izer","ize"),("bli","ble"),("alli","al"),("entli","ent"),("eli","e"),
  ("ousli","ous"),("ization","ize"),("ation","ate"),("ator","ate"),("alism","al"),
  ("iveness","ive"),("fulness","ful"),("ousness","ous"),("aliti","al"),("iviti","ive"),
  ("biliti","ble")].map fun e => rule (above 0) e.1 e.2

def step2 : Bytes → Bytes := obey step2Rules

def step3Rules : List (SuffixRule Byte) := [("icate","ic"),("ative",""),("alize","al"),
  ("iciti","ic"),("ical","ic"),("ful",""),("ness","")].map fun e => rule (above 0) e.1 e.2

def step3 : Bytes → Bytes := obey step3Rules

/-- Of these suffixes `ion` alone asks for the letter in front of it. -/
def step4Rules : List (SuffixRule Byte) :=
  (["al","ance","ence","er","ic","able","ible","ant","ement","ment","ent"].map fun suffix =>
    rule (above 1) suffix "") ++
  [rule (fun s => above 1 s && endsIn s (latin "st")) "ion" ""] ++
  ["ou","ism","ate","iti","ous","ive","ize"].map fun suffix => rule (above 1) suffix ""

def step4 : Bytes → Bytes := obey step4Rules

def step5aRules : List (SuffixRule Byte) :=
  [rule (fun s => 1 < m s ∨ m s = 1 ∧ endsShort s = false) "e" ""]

def step5a : Bytes → Bytes := obey step5aRules

def step5b (s : Bytes) : Bytes :=
  if 1 < m s ∧ endsDoubled s ∧ endsIn s (latin "l") then s.dropLast else s

/-- Plural and participle endings are taken off. -/
def step1 (word : Bytes) : Bytes := step1c (step1b (step1a word))

def stem (word : Bytes) : Bytes :=
  if word.length ≤ 2 then word else step5b (step5a (step4 (step3 (step2 (step1 word)))))

section form

@[simp] lemma sequences_false (k : List Bool) : sequences (false::k) = sequences k := by
  cases k <;> rfl

lemma sequences_replicate_false (n : ℕ) (k : List Bool) :
    sequences (List.replicate n false ++ k) = sequences k := by
  induction n with
  | zero => rfl
  | succ n ih => rw [List.replicate_succ,List.cons_append,sequences_false,ih]

lemma sequences_replicate_true (n : ℕ) (k : List Bool) :
    sequences (List.replicate (n+1) true ++ k) = sequences (true::k) := by
  induction n with
  | zero => rfl
  | succ n ih =>
    rw [List.replicate_succ] at ih ⊢
    rw [List.replicate_succ]
    exact ih

lemma sequences_blocks (blocks : List (ℕ × ℕ)) (k : List Bool) :
    sequences ((blocks.flatMap fun b =>
      List.replicate (b.1+1) true ++ List.replicate (b.2+1) false) ++ k) =
        blocks.length + sequences k := by
  induction blocks with
  | nil => simp
  | cons b blocks ih =>
    rw [List.flatMap_cons,List.append_assoc,List.append_assoc,sequences_replicate_true,
      List.replicate_succ,List.cons_append,sequences,sequences_false,sequences_replicate_false,ih,
      List.length_cons]
    omega

lemma sequences_vowels (n : ℕ) : sequences (List.replicate n true) = 0 := by
  cases n with
  | zero => rfl
  | succ n =>
    have := sequences_replicate_true n []
    rw [List.append_nil] at this
    rw [this]
    rfl

lemma exists_form (k : List Bool) : ∃ n, Form n k := by
  induction k using List.reverseRecOn with
  | nil => exact ⟨0,0,[],0,rfl,rfl⟩
  | append_singleton k letter ih =>
    obtain ⟨n,c,blocks,v,hlength,rfl⟩ := ih
    cases letter with
    | true => exact ⟨n,c,blocks,v+1,hlength,by simp [List.replicate_succ']⟩
    | false =>
      cases v with
      | succ v =>
        refine ⟨n+1,c,blocks ++ [(v,0)],0,by simp [hlength],?_⟩
        simp
      | zero =>
        rcases List.eq_nil_or_concat blocks with rfl | ⟨front,last,rfl⟩
        · exact ⟨0,c+1,[],0,rfl,by simp [List.replicate_succ']⟩
        · refine ⟨n,c,front ++ [(last.1,last.2+1)],0,by simpa using hlength,?_⟩
          simp [List.replicate_succ']

/-- The measure is the number of vowel-consonant blocks, in whatever way a word is divided. -/
theorem form_iff {n : ℕ} {k : List Bool} : Form n k ↔ sequences k = n := by
  have hcount : ∀ {n}, Form n k → sequences k = n := by
    rintro n ⟨c,blocks,v,rfl,rfl⟩
    rw [List.append_assoc,sequences_replicate_false,sequences_blocks,sequences_vowels,Nat.add_zero]
  refine ⟨hcount,?_⟩
  rintro rfl
  obtain ⟨n,hform⟩ := exists_form k
  rwa [hcount hform]

end form
end RagRuntime.Text.Porter
