import RagRuntime.Text.Tokenizer

/-! Every token of a text is the whole of what one of its runs yields, and none is empty. -/
namespace RagRuntime.Text
open RagRuntime.Base RagRuntime.Core

section stems

lemma append_latin_ne_nil (s : Bytes) {suffix : Bytes} (h : suffix ≠ []) : s ++ suffix ≠ [] :=
  List.append_ne_nil_of_right_ne_nil s h

/-- What is left of a word that is longer than what it loses. -/
lemma shorten_ne_nil {s : Bytes} {n : ℕ} (h : n < s.length) : shorten s n ≠ [] := by
  apply List.ne_nil_of_length_pos
  rw [length_shorten]
  omega

lemma two_le_of_doubleConsonant {s : Bytes} (h : doubleConsonant s = true) : 2 ≤ s.length :=
  (of_decide_eq_true h).1

lemma step1a_ne_nil {s : Bytes} (h : 2 < s.length) : step1a s ≠ [] := by
  unfold step1a
  split_ifs
  · exact shorten_ne_nil h
  · exact shorten_ne_nil h
  · exact List.ne_nil_of_length_pos (by omega)
  · exact shorten_ne_nil (by omega)
  · exact List.ne_nil_of_length_pos (by omega)

lemma step1bExtra_ne_nil {s : Bytes} (h : s ≠ []) : step1bExtra s ≠ [] := by
  unfold step1bExtra
  split_ifs with h1 h2
  · exact append_latin_ne_nil s (by decide)
  · exact h
  · exact shorten_ne_nil (two_le_of_doubleConsonant h2)
  · exact append_latin_ne_nil s (by decide)
  · exact h

lemma ne_nil_of_hasVowel {s : Bytes} (h : hasVowel s = true) : s ≠ [] := by
  rintro rfl
  cases h

lemma ne_nil_of_measure_pos {s : Bytes} (h : 0 < measure s) : s ≠ [] := by
  rintro rfl
  cases h

lemma step1b_ne_nil {s : Bytes} (h : s ≠ []) : step1b s ≠ [] := by
  unfold step1b
  split_ifs with h1 h2 h3 h4 h5 h6
  · have heed : (latin "eed").length = 3 := rfl
    have := length_of_endsWith h1
    exact shorten_ne_nil (by omega)
  · exact h
  · exact step1bExtra_ne_nil (ne_nil_of_hasVowel h4)
  · exact h
  · exact step1bExtra_ne_nil (ne_nil_of_hasVowel h6)
  · exact h
  · exact h

lemma step1c_ne_nil {s : Bytes} (h : s ≠ []) : step1c s ≠ [] := by
  unfold step1c
  split_ifs
  · exact append_latin_ne_nil _ (by decide)
  · exact h

lemma replaceFirst_ne_nil {s : Bytes} (h : s ≠ []) (table : List (Bytes × Bytes)) :
    replaceFirst table s ≠ [] := by
  unfold replaceFirst
  cases hfound : table.findSome? (replaceSuffix s) with
  | none => exact h
  | some t =>
    obtain ⟨e,-,ht⟩ := List.exists_of_findSome?_eq_some hfound
    unfold replaceSuffix at ht
    split_ifs at ht with hsuffix
    rw [← Option.some.inj ht,Option.getD_some]
    exact List.append_ne_nil_of_left_ne_nil (ne_nil_of_measure_pos hsuffix.2) _

lemma step4_ne_nil {s : Bytes} (h : s ≠ []) : step4 s ≠ [] := by
  unfold step4
  split
  · exact h
  · dsimp only
    split_ifs with h1 h2 h3
    · exact h
    · exact append_latin_ne_nil _ (by decide)
    · exact h1
    · exact h

lemma step5a_ne_nil {s : Bytes} (h : s ≠ []) : step5a s ≠ [] := by
  unfold step5a
  dsimp only
  split_ifs with hstem
  · exact hstem.2.1
  · exact h

lemma step5b_ne_nil {s : Bytes} (h : s ≠ []) : step5b s ≠ [] := by
  unfold step5b
  split_ifs with hdouble
  · exact shorten_ne_nil (two_le_of_doubleConsonant hdouble.2.1)
  · exact h

/-- A word does not lose all of its letters. -/
theorem porterStem_ne_nil {word : Bytes} (h : word ≠ []) : porterStem word ≠ [] := by
  unfold porterStem
  split_ifs with hshort
  · exact h
  · have h1 := step1c_ne_nil (step1b_ne_nil (step1a_ne_nil (Nat.lt_of_not_le hshort)))
    have h3 := replaceFirst_ne_nil (replaceFirst_ne_nil h1 step2Table) step3Table
    exact step5b_ne_nil (step5a_ne_nil (step4_ne_nil h3))

end stems

namespace Tokenizer

variable (opts : TokenizeOptions)

/-- The token that a run yields when it ends. -/
def ended (cur : Bytes) : Option Bytes :=
  if cur = [] then none
  else if cur.length > opts.maxLen then none
  else if opts.dropStopwords = true ∧ isStopword cur = true then none
  else
    let token := if opts.stem then porterStem cur else cur
    if opts.minLen ≤ token.length then some token else none

lemma flush_eq (st : State) : flush opts st = ⟨[],st.out ++ (ended opts st.cur).toList⟩ := by
  obtain ⟨cur,out⟩ := st
  unfold flush ended
  dsimp only
  split_ifs with hcur
  · rw [hcur,Option.toList_none,List.append_nil]
  all_goals simp

variable {opts}

lemma ended_spec {cur t : Bytes} (h : ended opts cur = some t) :
    t ≠ [] ∧ t.length ≤ cur.length := by
  unfold ended at h
  dsimp only at h
  split_ifs at h with hcur hmax hstop hstem hmin
  · rw [← Option.some.inj h]
    exact ⟨porterStem_ne_nil hcur,length_porterStem cur⟩
  · rw [← Option.some.inj h]
    exact ⟨hcur,le_rfl⟩

/-- Each token so far comes from a text that has no other, and so would the next. -/
structure Runs (opts : TokenizeOptions) (consumed : ℕ) (st : State) : Prop where
  tokens : ∀ t ∈ st.out, t ≠ [] ∧ t.length ≤ consumed ∧
    ∃ w, w.length ≤ consumed ∧ tokenize opts w = [t]
  open_le : st.cur.length ≤ consumed
  run : ∃ w : Bytes, w.length ≤ consumed ∧ w.foldl (Tokenizer.byte opts) ⟨[],[]⟩ = ⟨st.cur,[]⟩

lemma Runs.weaken {consumed consumed' : ℕ} {st : State} (h : Runs opts consumed st)
    (hle : consumed ≤ consumed') : Runs opts consumed' st := by
  obtain ⟨w,hw,hfold⟩ := h.run
  refine ⟨?_,h.open_le.trans hle,w,hw.trans hle,hfold⟩
  intro t ht
  obtain ⟨hne,hlen,v,hv,htok⟩ := h.tokens t ht
  exact ⟨hne,hlen.trans hle,v,hv.trans hle,htok⟩

lemma Runs.flush {consumed : ℕ} {st : State} (h : Runs opts consumed st) :
    Runs opts consumed (flush opts st) := by
  rw [flush_eq]
  refine ⟨?_,Nat.zero_le _,[],Nat.zero_le _,rfl⟩
  intro t ht
  rcases List.mem_append.mp ht with ht | ht
  · exact h.tokens t ht
  · have hended : ended opts st.cur = some t := Option.mem_toList.mp ht
    obtain ⟨hne,hlen⟩ := ended_spec hended
    obtain ⟨w,hw,hfold⟩ := h.run
    refine ⟨hne,hlen.trans h.open_le,w,hw,?_⟩
    rw [tokenize,hfold,flush_eq,hended]
    rfl

lemma Runs.byte {consumed : ℕ} {st : State} (h : Runs opts consumed st) (c : Byte) :
    Runs opts (consumed+1) (byte opts st c) := by
  have hwide := h.weaken (Nat.le_succ consumed)
  by_cases halnum : isAlnum c = true
  · obtain ⟨w,hw,hfold⟩ := h.run
    rw [Tokenizer.byte,if_pos halnum]
    refine ⟨hwide.tokens,by simpa using h.open_le,w ++ [c],by simpa using hw,?_⟩
    rw [List.foldl_append,hfold,List.foldl_cons,List.foldl_nil,Tokenizer.byte,if_pos halnum]
  rw [Tokenizer.byte,if_neg halnum]
  split_ifs
  · exact hwide
  · exact hwide.flush

lemma Runs.bytes {consumed : ℕ} {st : State} (h : Runs opts consumed st) (text : Bytes) :
    Runs opts (consumed+text.length) (text.foldl (Tokenizer.byte opts) st) := by
  induction text generalizing consumed st with
  | nil => exact h
  | cons c text ih =>
    have := ih (h.byte c)
    rwa [Nat.add_assoc,Nat.add_comm 1] at this

/-- A token is not empty nor longer than its text, and some text no longer than this one has it as
its only token. -/
theorem runs_tokenize {text t : Bytes} (ht : t ∈ tokenize opts text) :
    t ≠ [] ∧ t.length ≤ text.length ∧ ∃ w, w.length ≤ text.length ∧ tokenize opts w = [t] := by
  have hstart : Runs opts 0 ⟨[],[]⟩ :=
    ⟨fun t ht => (List.not_mem_nil ht).elim,le_rfl,[],le_rfl,rfl⟩
  have hend := (hstart.bytes text).flush
  rw [Nat.zero_add] at hend
  exact hend.tokens t ht

end Tokenizer
end RagRuntime.Text
