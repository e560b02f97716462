import Mathlib.Data.List.MinMax
import Mathlib.Data.List.Infix

/-! Rewriting of suffixes: of the rules whose suffix a word has, the one with the longest suffix is
obeyed, and only that one. -/
namespace RagRuntime.Base

/-- A suffix is replaced if what stands in front of it meets the condition. -/
structure SuffixRule (α : Type*) where
  condition : List α → Bool
  suffix : List α
  replacement : List α

namespace SuffixRule
variable {α : Type*} [DecidableEq α]

def stem (r : SuffixRule α) (word : List α) : List α := word.take (word.length - r.suffix.length)

def longest (rules : List (SuffixRule α)) (word : List α) : Option (SuffixRule α) :=
  (rules.filter fun r => r.suffix <:+ word).argmax fun r => r.suffix.length

/-- What a rule makes of a word that has its suffix; `none` when the condition fails. -/
def attempt (r : SuffixRule α) (word : List α) : Option (List α) :=
  if r.condition (r.stem word) then some (r.stem word ++ r.replacement) else none

def obey (rules : List (SuffixRule α)) (word : List α) : List α :=
  ((longest rules word).bind fun r => r.attempt word).getD word

/-- No suffix is the end of one that comes later. -/
def LongestFirst (rules : List (SuffixRule α)) : Prop :=
  rules.Pairwise fun r r' => ¬r.suffix <:+ r'.suffix

instance (rules : List (SuffixRule α)) : Decidable (LongestFirst rules) :=
  inferInstanceAs (Decidable (rules.Pairwise _))

omit [DecidableEq α] in
lemma stem_append (r : SuffixRule α) (front : List α) : r.stem (front ++ r.suffix) = front := by
  rw [stem,List.length_append,Nat.add_sub_cancel,List.take_left]

/-- Where longer suffixes come first the first rule that fits has the longest one. -/
theorem longest_eq_find? {rules : List (SuffixRule α)} (h : LongestFirst rules) (word : List α) :
    longest rules word = rules.find? fun r => r.suffix <:+ word := by
  induction rules with
  | nil => rfl
  | cons r rules ih =>
    obtain ⟨hhead,htail⟩ := List.pairwise_cons.mp h
    have hlater := ih htail
    unfold longest at hlater ⊢
    by_cases hr : r.suffix <:+ word
    · rw [List.filter_cons_of_pos (by simpa using hr),List.argmax_cons,hlater,
        List.find?_cons_of_pos (by simpa using hr)]
      cases hfind : rules.find? fun r => r.suffix <:+ word with
      | none => rfl
      | some c =>
        have hc : c.suffix <:+ word := by simpa using List.find?_some hfind
        have hshort : ¬r.suffix.length < c.suffix.length := fun hlt =>
          hhead c (List.mem_of_find?_eq_some hfind)
            (List.suffix_of_suffix_length_le hr hc hlt.le)
        exact if_neg hshort
    · rw [List.filter_cons_of_neg (by simpa using hr),hlater,
        List.find?_cons_of_neg (by simpa using hr)]

lemma longest_cons {r : SuffixRule α} {rules : List (SuffixRule α)} (h : LongestFirst (r::rules))
    (word : List α) :
    longest (r::rules) word = if r.suffix <:+ word then some r else longest rules word := by
  rw [longest_eq_find? h,longest_eq_find? (List.pairwise_cons.mp h).2]
  split_ifs with hr
  · exact List.find?_cons_of_pos (by simpa using hr)
  · exact List.find?_cons_of_neg (by simpa using hr)

lemma obey_nil (word : List α) : obey [] word = word := rfl

lemma obey_cons {r : SuffixRule α} {rules : List (SuffixRule α)} (h : LongestFirst (r::rules))
    (word : List α) :
    obey (r::rules) word = if r.suffix <:+ word then (r.attempt word).getD word
      else obey rules word := by
  rw [obey,longest_cons h]
  split_ifs
  · rfl
  · rfl

lemma obey_of_find? {rules : List (SuffixRule α)} (h : LongestFirst rules) {word : List α}
    {r : SuffixRule α} (hfind : (rules.find? fun r => r.suffix <:+ word) = some r) :
    obey rules word = (r.attempt word).getD word := by
  rw [obey,longest_eq_find? h,hfind]
  rfl

lemma obey_of_none {rules : List (SuffixRule α)} {word : List α}
    (hnone : ∀ r ∈ rules, ¬r.suffix <:+ word) : obey rules word = word := by
  have hfilter : (rules.filter fun r => r.suffix <:+ word) = [] := by
    simpa [List.filter_eq_nil_iff] using hnone
  rw [obey,longest,hfilter]
  rfl

omit [DecidableEq α] in
lemma attempt_append (r : SuffixRule α) (front : List α) : r.attempt (front ++ r.suffix) =
    if r.condition front then some (front ++ r.replacement) else none := by
  rw [attempt,stem_append]

end SuffixRule
end RagRuntime.Base
