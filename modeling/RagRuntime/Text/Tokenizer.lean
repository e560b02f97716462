import RagRuntime.Core.Keys

/-! The tokenizer of the lexical index: lowercase alphanumeric runs, stopwords, and the Porter
stemmer. -/
namespace RagRuntime.Text
open RagRuntime.Base RagRuntime.Core

def latin (s : String) : Bytes := ascii s.toList

def kStop : List Bytes := ["a","about","above","after","again","against","all","am","an","and",
  "any","are","aren't","as","at","be","because","been","before","being","below","between","both",
  "but","by","can","can't","cannot","could","couldn't","did","didn't","do","does","doesn't","doing",
  "don't","down","during","each","few","for","from","further","had","hadn't","has","hasn't","have",
  "haven't","having","he","he'd","he'll","he's","her","here","here's","hers","herself","him",
  "himself","his","how","how's","i","i'd","i'll","i'm","i've","if","in","into","is","isn't","it",
  "it's","its","itself","let's","me","more","most","mustn't","my","myself","no","nor","not","of",
  "off","on","once","only","or","other","ought","our","ours","ourselves","out","over","own","same",
  "shan't","she","she'd","she'll","she's","should","shouldn't","so","some","such","than","that",
  "that's","the","their","theirs","them","themselves","then","there","there's","these","they",
  "they'd","they'll","they're","they've","this","those","through","to","too","under","until","up",
  "very","was","wasn't","we","we'd","we'll","we're","we've","were","weren't","what","what's","when",
  "when's","where","where's","which","while","who","who's","whom","why","why's","with","won't",
  "would","wouldn't","you","you'd","you'll","you're","you've","your","yours","yourself",
  "yourselves"].map latin

def isStopword (w : Bytes) : Bool := w ∈ kStop

/-- A `y` is a vowel behind a consonant. -/
def isVowel (s : Bytes) : ℕ → Bool
  | 0 => s.getD 0 0 ∈ latin "aeiou"
  | i+1 =>
    if s.getD (i+1) 0 ∈ latin "aeiou" then true
    else if s.getD (i+1) 0 = 121 then !isVowel s i
    else false

/-- One turn of `measure`: whether the last letter was a vowel, and the sequences counted. -/
def measureLetter (s : Bytes) (state : Bool × ℕ) (i : ℕ) : Bool × ℕ :=
  (isVowel s i,if state.1 = true ∧ isVowel s i = false then state.2+1 else state.2)

/-- The number of vowel-consonant sequences of a word. -/
def measure (s : Bytes) : ℕ := ((List.range s.length).foldl (measureLetter s) (false,0)).2

def hasVowel (s : Bytes) : Bool := (List.range s.length).any (isVowel s)

/-- The word ends in one consonant twice. -/
def doubleConsonant (s : Bytes) : Bool :=
  2 ≤ s.length ∧ s.getD (s.length-1) 0 = s.getD (s.length-2) 0 ∧ isVowel s (s.length-1) = false

/-- Consonant, vowel, and a consonant that is none of w, x and y. -/
def cvc (s : Bytes) : Bool :=
  3 ≤ s.length ∧ isVowel s (s.length-1) = false ∧ isVowel s (s.length-2) = true ∧
    isVowel s (s.length-3) = false ∧ s.getD (s.length-1) 0 ∉ latin "wxy"

def endsWith (s suffix : Bytes) : Bool :=
  suffix.length ≤ s.length ∧ s.drop (s.length-suffix.length) = suffix

/-- The word without its last `n` letters. -/
def shorten (s : Bytes) (n : ℕ) : Bytes := s.take (s.length-n)

/-- Replace a suffix if the measure of the stem is positive. -/
def replaceSuffix (s : Bytes) (entry : Bytes × Bytes) : Option Bytes :=
  if endsWith s entry.1 = true ∧ 0 < measure (shorten s entry.1.length) then
    some (shorten s entry.1.length ++ entry.2)
  else none

def step1a (s : Bytes) : Bytes :=
  if endsWith s (latin "sses") then shorten s 2
  else if endsWith s (latin "ies") then shorten s 2
  else if endsWith s (latin "ss") then s
  else if endsWith s (latin "s") then shorten s 1
  else s

/-- What follows the removal of `ed` or `ing`. -/
def step1bExtra (s : Bytes) : Bytes :=
  if endsWith s (latin "at") ∨ endsWith s (latin "bl") ∨ endsWith s (latin "iz") then
    s ++ latin "e"
  else if doubleConsonant s then
    if s.getD (s.length-1) 0 ∈ latin "lsz" then s else shorten s 1
  else if measure s = 1 ∧ cvc s = true then s ++ latin "e"
  else s

def step1b (s : Bytes) : Bytes :=
  if endsWith s (latin "eed") then
    if 0 < measure (shorten s 3) then shorten s 1 else s
  else if endsWith s (latin "ed") then
    if hasVowel (shorten s 2) then step1bExtra (shorten s 2) else s
  else if endsWith s (latin "ing") then
    if hasVowel (shorten s 3) then step1bExtra (shorten s 3) else s
  else s

def step1c (s : Bytes) : Bytes :=
  if endsWith s (latin "y") = true ∧ hasVowel (shorten s 1) = true then
    shorten s 1 ++ latin "i"
  else s

def step2Table : List (Bytes × Bytes) := [("ational","ate"),("tional","tion"),("enci","ence"),
  ("anci","ance"),("izer","ize"),("bli","ble"),("alli","al"),("entli","ent"),("eli","e"),
  ("ousli","ous"),("ization","ize"),("ation","ate"),("ator","ate"),("alism","al"),
  ("iveness","ive"),("fulness","ful"),("ousness","ous"),("aliti","al"),("iviti","ive"),
  ("biliti","ble")].map fun e => (latin e.1,latin e.2)

def step3Table : List (Bytes × Bytes) := [("icate","ic"),("ative",""),("alize","al"),("iciti","ic"),
  ("ical","ic"),("ful",""),("ness","")].map fun e => (latin e.1,latin e.2)

/-- The first suffix of a table whose stem is long enough is replaced. -/
def replaceFirst (table : List (Bytes × Bytes)) (s : Bytes) : Bytes :=
  (table.findSome? (replaceSuffix s)).getD s

def step4Table : List Bytes := ["al","ance","ence","er","ic","able","ible","ant","ement","ment",
  "ent","ou","ism","ate","iti","ous","ive","ize","tion"].map latin

/-- Only the first suffix that the word has is looked at. -/
def step4 (s : Bytes) : Bytes :=
  match step4Table.find? (endsWith s) with
  | none => s
  | some suffix =>
    let stem := shorten s suffix.length
    if stem = [] then s
    else if measure stem > 1 then if suffix = latin "tion" then stem ++ latin "t" else stem
    else s

def step5a (s : Bytes) : Bytes :=
  let stem := shorten s 1
  if endsWith s (latin "e") = true ∧ stem ≠ [] ∧
      (measure stem > 1 ∨ measure stem = 1 ∧ cvc stem = false) then stem
  else s

def step5b (s : Bytes) : Bytes :=
  if measure s > 1 ∧ doubleConsonant s = true ∧ endsWith s (latin "l") = true then shorten s 1
    else s

def porterStem (word : Bytes) : Bytes :=
  if word.length ≤ 2 then word
  else step5b (step5a (step4 (replaceFirst step3Table (replaceFirst step2Table
    (step1c (step1b (step1a word)))))))

structure TokenizeOptions where
  lowercase : Bool := true
  dropStopwords : Bool := true
  stem : Bool := true
  minLen : ℕ := 2
  maxLen : ℕ := 40

def isAlnum (c : Byte) : Bool :=
  48 ≤ c.val ∧ c.val ≤ 57 ∨ 65 ≤ c.val ∧ c.val ≤ 90 ∨ 97 ≤ c.val ∧ c.val ≤ 122

def toLower (c : Byte) : Byte := if 65 ≤ c.val ∧ c.val ≤ 90 then c+32 else c

namespace Tokenizer

variable (opts : TokenizeOptions)

/-- The run that is open, and the tokens so far. -/
structure State where
  cur : Bytes
  out : List Bytes

def flush (st : State) : State :=
  if st.cur = [] then st
  else if st.cur.length > opts.maxLen then ⟨[],st.out⟩
  else if opts.dropStopwords = true ∧ isStopword st.cur = true then ⟨[],st.out⟩
  else
    let token := if opts.stem then porterStem st.cur else st.cur
    if opts.minLen ≤ token.length then ⟨[],st.out ++ [token]⟩ else ⟨[],st.out⟩

/-- An apostrophe within a run is skipped. -/
def byte (st : State) (c : Byte) : State :=
  if isAlnum c then ⟨st.cur ++ [if opts.lowercase then toLower c else c],st.out⟩
  else if c = 39 ∧ st.cur ≠ [] then st
  else flush opts st

def tokenize (text : Bytes) : List Bytes := (flush opts (text.foldl (byte opts) ⟨[],[]⟩)).out

end Tokenizer

lemma length_shorten (s : Bytes) (n : ℕ) : (shorten s n).length = s.length-n := by
  rw [shorten,List.length_take]
  omega

lemma length_of_endsWith {s suffix : Bytes} (h : endsWith s suffix = true) :
    suffix.length ≤ s.length := (of_decide_eq_true h).1

/-- No replacement of the table is longer than its suffix. -/
def Shrinks (table : List (Bytes × Bytes)) : Prop := ∀ e ∈ table, e.2.length ≤ e.1.length

lemma length_replaceFirst {table : List (Bytes × Bytes)} (h : Shrinks table) (s : Bytes) :
    (replaceFirst table s).length ≤ s.length := by
  unfold replaceFirst
  cases hfound : table.findSome? (replaceSuffix s) with
  | none => exact le_rfl
  | some t =>
    obtain ⟨e,he,ht⟩ := List.exists_of_findSome?_eq_some hfound
    unfold replaceSuffix at ht
    split_ifs at ht with hsuffix
    have hlen := length_of_endsWith hsuffix.1
    have := h e he
    rw [← Option.some.inj ht,Option.getD_some,List.length_append,length_shorten]
    omega

lemma length_step1a (s : Bytes) : (step1a s).length ≤ s.length := by
  unfold step1a
  split_ifs <;> simp [length_shorten]

lemma length_step1bExtra (s : Bytes) : (step1bExtra s).length ≤ s.length+1 := by
  have he : (latin "e").length = 1 := rfl
  unfold step1bExtra
  split_ifs
  all_goals simp [length_shorten,he]
  all_goals omega

lemma length_step1b (s : Bytes) : (step1b s).length ≤ s.length := by
  have hed : (latin "ed").length = 2 := rfl
  have hing : (latin "ing").length = 3 := rfl
  have htwo := length_step1bExtra (shorten s 2)
  have hthree := length_step1bExtra (shorten s 3)
  rw [length_shorten] at htwo hthree
  unfold step1b
  split_ifs with h1 h2 h3 h4 h5 h6
  · simp [length_shorten]
  · exact le_rfl
  · have := length_of_endsWith h3
    omega
  · exact le_rfl
  · have := length_of_endsWith h5
    omega
  · exact le_rfl
  · exact le_rfl

lemma length_step1c (s : Bytes) : (step1c s).length ≤ s.length := by
  have hi : (latin "i").length = 1 := rfl
  have hy : (latin "y").length = 1 := rfl
  unfold step1c
  split_ifs with h
  · have := length_of_endsWith h.1
    rw [List.length_append,length_shorten]
    omega
  · exact le_rfl

lemma length_step4 (s : Bytes) : (step4 s).length ≤ s.length := by
  have ht : (latin "t").length = 1 := rfl
  unfold step4
  cases hfound : step4Table.find? (endsWith s) with
  | none => exact le_rfl
  | some suffix =>
    have hlen := length_of_endsWith (List.find?_some hfound)
    dsimp only
    split_ifs with h1 h2 h3
    · exact le_rfl
    · rw [h3] at hlen ⊢
      have : (latin "tion").length = 4 := rfl
      rw [List.length_append,length_shorten]
      omega
    · rw [length_shorten]
      omega
    · exact le_rfl

lemma length_step5a (s : Bytes) : (step5a s).length ≤ s.length := by
  unfold step5a
  dsimp only
  split_ifs <;> simp [length_shorten]

lemma length_step5b (s : Bytes) : (step5b s).length ≤ s.length := by
  unfold step5b
  split_ifs <;> simp [length_shorten]

/-- A stem is no longer than its word. -/
theorem length_porterStem (word : Bytes) : (porterStem word).length ≤ word.length := by
  unfold porterStem
  split_ifs
  · exact le_rfl
  · calc (step5b _).length ≤ _ := length_step5b _
      _ ≤ _ := length_step5a _
      _ ≤ _ := length_step4 _
      _ ≤ _ := length_replaceFirst (by simp [Shrinks,step3Table,latin,ascii]) _
      _ ≤ _ := length_replaceFirst (by simp [Shrinks,step2Table,latin,ascii]) _
      _ ≤ _ := length_step1c _
      _ ≤ _ := length_step1b _
      _ ≤ _ := length_step1a _

namespace Tokenizer

variable {opts : TokenizeOptions}

/-- What holds of the tokens, and how many there can be. -/
structure Sound (opts : TokenizeOptions) (consumed : ℕ) (st : State) : Prop where
  tokens : ∀ t ∈ st.out, opts.minLen ≤ t.length ∧ t.length ≤ opts.maxLen
  count : st.out.length + st.cur.length ≤ consumed

lemma Sound.flush {consumed : ℕ} {st : State} (h : Sound opts consumed st) :
    Sound opts consumed (flush opts st) := by
  have hcount := h.count
  have hclosed : Sound opts consumed ⟨[],st.out⟩ :=
    ⟨h.tokens,by simp only [List.length_nil]; omega⟩
  have htoken : (if opts.stem then porterStem st.cur else st.cur).length ≤ st.cur.length := by
    split_ifs
    · exact length_porterStem _
    · exact le_rfl
  unfold Tokenizer.flush
  dsimp only
  by_cases hcur : st.cur = []
  · rwa [if_pos hcur]
  rw [if_neg hcur]
  by_cases hmax : st.cur.length > opts.maxLen
  · rwa [if_pos hmax]
  rw [if_neg hmax]
  by_cases hstop : opts.dropStopwords = true ∧ isStopword st.cur = true
  · rwa [if_pos hstop]
  rw [if_neg hstop]
  by_cases hmin : opts.minLen ≤ (if opts.stem then porterStem st.cur else st.cur).length
  · rw [if_pos hmin]
    refine ⟨?_,?_⟩
    · intro t ht
      obtain ht | ht := List.mem_append.mp ht
      · exact h.tokens t ht
      · rw [List.mem_singleton.mp ht]
        exact ⟨hmin,by omega⟩
    · have := List.length_pos_of_ne_nil hcur
      simp only [List.length_append,List.length_singleton,List.length_nil]
      omega
  · rwa [if_neg hmin]

lemma Sound.byte {consumed : ℕ} {st : State} (h : Sound opts consumed st) (c : Byte) :
    Sound opts (consumed+1) (byte opts st c) := by
  have hnext : Sound opts (consumed+1) st := ⟨h.tokens,h.count.trans (Nat.le_succ _)⟩
  unfold Tokenizer.byte
  split_ifs
  · refine ⟨h.tokens,?_⟩
    have := h.count
    simp only [List.length_append,List.length_singleton]
    omega
  · refine ⟨h.tokens,?_⟩
    have := h.count
    simp only [List.length_append,List.length_singleton]
    omega
  · exact hnext
  · exact hnext.flush

lemma Sound.bytes {consumed : ℕ} {st : State} (h : Sound opts consumed st) (text : Bytes) :
    Sound opts (consumed+text.length) (text.foldl (Tokenizer.byte opts) st) := by
  induction text generalizing consumed st with
  | nil => exact h
  | cons c text ih =>
    have := ih (h.byte c)
    rwa [Nat.add_assoc,Nat.add_comm 1] at this

/-- Tokens have the lengths that the options allow, and there are no more of them than bytes. -/
theorem sound_tokenize (opts : TokenizeOptions) (text : Bytes) :
    (∀ t ∈ tokenize opts text, opts.minLen ≤ t.length ∧ t.length ≤ opts.maxLen) ∧
      (tokenize opts text).length ≤ text.length := by
  have hstart : Sound opts 0 ⟨[],[]⟩ := ⟨fun t ht => (List.not_mem_nil ht).elim,le_rfl⟩
  have hend := (hstart.bytes text).flush
  have := hend.count
  exact ⟨hend.tokens,by rw [tokenize]; omega⟩

example : porterStem (latin "relational") = latin "relat" := by decide +kernel

/-- A word in lower case that ends in a digit. -/
structure Plain (w : Bytes) : Prop where
  letters : ∀ c ∈ w, isAlnum c = true ∧ toLower c = c
  last : ∃ c, w.getLast? = some c ∧ isDigit c = true
  length : 2 ≤ w.length ∧ w.length ≤ 40

lemma getLast?_of_endsWith {s suffix : Bytes} (h : endsWith s suffix = true) (hne : suffix ≠ []) :
    s.getLast? = suffix.getLast? := by
  have hdrop : s.drop (s.length-suffix.length) = suffix := (of_decide_eq_true h).2
  have hs : s = s.take (s.length-suffix.length) ++ suffix := by
    conv_lhs => rw [← List.take_append_drop (s.length-suffix.length) s,hdrop]
  rw [hs,List.getLast?_append_of_ne_nil _ hne]

/-- Suffixes of which none ends in a digit. -/
def Lettered (suffixes : List Bytes) : Prop :=
  ∀ suffix ∈ suffixes, suffix ≠ [] ∧ ∀ c ∈ suffix.getLast?, isDigit c = false

lemma Plain.endsWith {w : Bytes} (h : Plain w) {suffixes : List Bytes} (hs : Lettered suffixes)
    {suffix : Bytes} (hmem : suffix ∈ suffixes) : endsWith w suffix = false := by
  obtain ⟨c,hc,hdigit⟩ := h.last
  obtain ⟨hne,hletter⟩ := hs suffix hmem
  rw [Bool.eq_false_iff]
  intro hends
  rw [getLast?_of_endsWith hends hne] at hc
  rw [hletter c hc] at hdigit
  cases hdigit

lemma Plain.replaceFirst {w : Bytes} (h : Plain w) {table : List (Bytes × Bytes)}
    (hs : Lettered (table.map Prod.fst)) : replaceFirst table w = w := by
  have hnone : table.findSome? (replaceSuffix w) = none := by
    rw [List.findSome?_eq_none_iff]
    intro e he
    rw [replaceSuffix,h.endsWith hs (List.mem_map_of_mem he)]
    rfl
  rw [Text.replaceFirst,hnone]
  rfl

/-- The suffixes that the remaining steps look for. -/
def looseSuffixes : List Bytes := ["sses","ies","ss","s","eed","ed","ing","y","e","l"].map latin

lemma getLast?_latin (s : String) :
    (latin s).getLast? = s.toList.getLast?.map fun c => Fin.ofNat 256 c.toNat := by
  rw [latin,ascii,List.getLast?_map]

lemma latin_ne_nil {s : String} : latin s ≠ [] ↔ s.toList ≠ [] := by
  rw [latin,ascii,Ne,List.map_eq_nil_iff]

lemma lettered_looseSuffixes : Lettered looseSuffixes := by
  simp [Lettered,looseSuffixes,latin_ne_nil,getLast?_latin,isDigit]

lemma Plain.porterStem {w : Bytes} (h : Plain w) : porterStem w = w := by
  have hloose : ∀ suffix ∈ looseSuffixes, Text.endsWith w suffix = false :=
    fun suffix hmem => h.endsWith lettered_looseSuffixes hmem
  have h1a : step1a w = w := by
    simp [step1a,hloose _ (by simp [looseSuffixes] : latin "sses" ∈ looseSuffixes),
      hloose _ (by simp [looseSuffixes] : latin "ies" ∈ looseSuffixes),
      hloose _ (by simp [looseSuffixes] : latin "s" ∈ looseSuffixes)]
  have h1b : step1b w = w := by
    simp [step1b,hloose _ (by simp [looseSuffixes] : latin "eed" ∈ looseSuffixes),
      hloose _ (by simp [looseSuffixes] : latin "ed" ∈ looseSuffixes),
      hloose _ (by simp [looseSuffixes] : latin "ing" ∈ looseSuffixes)]
  have h1c : step1c w = w := by
    simp [step1c,hloose _ (by simp [looseSuffixes] : latin "y" ∈ looseSuffixes)]
  have h4 : step4 w = w := by
    have hnone : step4Table.find? (Text.endsWith w) = none := by
      rw [List.find?_eq_none]
      intro suffix hmem
      rw [h.endsWith (by simp [Lettered,step4Table,latin_ne_nil,getLast?_latin,isDigit]) hmem]
      decide
    rw [step4,hnone]
  have h5a : step5a w = w := by
    simp [step5a,hloose _ (by simp [looseSuffixes] : latin "e" ∈ looseSuffixes)]
  have h5b : step5b w = w := by
    simp [step5b,hloose _ (by simp [looseSuffixes] : latin "l" ∈ looseSuffixes)]
  unfold Text.porterStem
  rw [h1a,h1b,h1c,
    h.replaceFirst (by simp [Lettered,step2Table,latin_ne_nil,getLast?_latin,isDigit]),
    h.replaceFirst (by simp [Lettered,step3Table,latin_ne_nil,getLast?_latin,isDigit]),
    h4,h5a,h5b,ite_self]

set_option maxRecDepth 20000 in
lemma lettered_stopwords : ∀ s ∈ kStop, ∀ c ∈ s.getLast?, isDigit c = false := by
  unfold kStop
  simp only [List.forall_mem_map,List.forall_mem_cons,getLast?_latin,String.reduceToList,
    List.getLast?_cons_cons,List.getLast?_singleton,Option.map_some,Option.mem_some_iff,forall_eq']
  simp [isDigit]

lemma Plain.not_stopword {w : Bytes} (h : Plain w) : isStopword w = false := by
  obtain ⟨c,hc,hdigit⟩ := h.last
  rw [Bool.eq_false_iff]
  intro hmem
  rw [lettered_stopwords w (of_decide_eq_true hmem) c hc] at hdigit
  cases hdigit

lemma foldl_letters {w : Bytes} (h : ∀ c ∈ w, isAlnum c = true ∧ toLower c = c) (st : State) :
    w.foldl (byte {}) st = ⟨st.cur ++ w,st.out⟩ := by
  induction w generalizing st with
  | nil => simp
  | cons c w ih =>
    obtain ⟨halnum,hlower⟩ := h c List.mem_cons_self
    have hbyte : byte {} st c = ⟨st.cur ++ [c],st.out⟩ := by simp [byte,halnum,hlower]
    rw [List.foldl_cons,hbyte,ih fun d hd => h d (List.mem_cons_of_mem _ hd)]
    simp

lemma Plain.flush {w : Bytes} (h : Plain w) (out : List Bytes) :
    flush {} ⟨w,out⟩ = ⟨[],out ++ [w]⟩ := by
  have hne : w ≠ [] := by
    rintro rfl
    exact absurd h.length.1 (by decide)
  have hmax : ¬w.length > 40 := not_lt.mpr h.length.2
  simp [Tokenizer.flush,hne,hmax,h.not_stopword,h.porterStem,h.length.1]

/-- Plain words, each with a blank behind it, are the tokens of their text. -/
theorem tokenize_plain {words : List Bytes} (h : ∀ w ∈ words, Plain w) :
    tokenize {} (words.flatMap fun w => w ++ [32]) = words := by
  have hfold : ∀ out, (words.flatMap fun w => w ++ [32]).foldl (byte {}) ⟨[],out⟩ =
      ⟨[],out ++ words⟩ := by
    induction words with
    | nil => simp
    | cons w words ih =>
      intro out
      have hw := h w List.mem_cons_self
      have hblank : byte {} ⟨w,out⟩ 32 = ⟨[],out ++ [w]⟩ := by
        rw [← hw.flush]
        simp [byte,isAlnum]
      rw [List.flatMap_cons,List.append_assoc,List.foldl_append,foldl_letters hw.letters,
        List.nil_append,List.singleton_append,List.foldl_cons,hblank,
        ih fun v hv => h v (List.mem_cons_of_mem _ hv)]
      simp
  rw [tokenize,hfold]
  simp [Tokenizer.flush]

end Tokenizer
end RagRuntime.Text
