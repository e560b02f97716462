import Mathlib.Algebra.Order.BigOperators.Group.List
import Mathlib.Data.Finset.Card
import Mathlib.Data.List.Induction
import RagRuntime.Lexical.Bm25Codec
import RagRuntime.Text.Tokenizer

/-! What an index holds after texts were added to it under consecutive ids. -/
namespace RagRuntime.Lexical
open RagRuntime.Base RagRuntime.Core RagRuntime.Store RagRuntime.Text Decoder

namespace Bm25Index

/-- An index of texts that are numbered from zero. -/
def added (analysis : Analysis) (texts : List Bytes) : Bm25Index :=
  texts.zipIdx.foldl (fun index x => index.add x.2 x.1) (empty analysis)

/-- The posting of a term for one of the texts, if the term is in it. -/
def postingIn (tokenize : Bytes → List Bytes) (t : Bytes) (x : Bytes × ℕ) : Option Posting :=
  if t ∈ tokenize x.1 then some ⟨x.2,(tokenize x.1).count t⟩ else none

def postingsOf (tokenize : Bytes → List Bytes) (texts : List Bytes) (t : Bytes) : List Posting :=
  texts.zipIdx.filterMap (postingIn tokenize t)

section counts

lemma find?_foldl_count (terms : List Bytes) (m : OrdMap Bytes ℕ) (t : Bytes) :
    (terms.foldl (fun (tf : OrdMap Bytes ℕ) term =>
      tf.insert term ((tf.find? term).getD 0 + 1)) m).find? t =
      if t ∈ terms then some ((m.find? t).getD 0 + terms.count t) else m.find? t := by
  induction terms generalizing m with
  | nil => rfl
  | cons term rest ih =>
    rw [List.foldl_cons,ih,OrdMap.find?_insert]
    by_cases ht : t = term
    · subst ht
      by_cases hrest : t ∈ rest
      · simp [hrest,Nat.add_assoc,Nat.add_comm 1]
      · simp [hrest,List.count_eq_zero.mpr hrest]
    · have hcount : (term::rest).count t = rest.count t := List.count_cons_of_ne (Ne.symm ht)
      simp [ht,hcount]

lemma find?_countTerms (terms : List Bytes) (t : Bytes) :
    (countTerms terms).find? t = if t ∈ terms then some (terms.count t) else none := by
  rw [countTerms,find?_foldl_count]
  simp

lemma mem_countTerms {terms : List Bytes} {e : Bytes × ℕ} :
    e ∈ (countTerms terms).entries ↔ e.1 ∈ terms ∧ e.2 = terms.count e.1 := by
  have hfound : e ∈ (countTerms terms).entries ↔ (countTerms terms).find? e.1 = some e.2 :=
    OrdMap.find?_eq_some.symm
  rw [hfound,find?_countTerms]
  split_ifs with h <;> simp [h,eq_comm]

end counts

/-- The posting list of each term of the text gets a posting. -/
theorem find?_postings_add (index : Bm25Index) (n : ℕ) (text t : Bytes) :
    (index.add n text).postings.find? t =
      if t ∈ index.analysis.tokenize text then
        some (insertPosting ⟨n,(index.analysis.tokenize text).count t⟩
          ((index.postings.find? t).getD []))
      else index.postings.find? t := by
  unfold add
  dsimp only
  split_ifs with hempty hmem hmem
  · rw [hempty] at hmem
    cases hmem
  · rfl
  · rw [OrdMap.find?_foldl_update Prod.fst
      (fun e old => insertPosting ⟨n,e.2⟩ (old.getD [])) (countTerms _).keys_nodup]
    split
    next e hfind =>
      obtain ⟨-,hcount⟩ := mem_countTerms.mp (List.mem_of_find?_eq_some hfind)
      have hkey : e.1 = t := by simpa using List.find?_some hfind
      rw [hcount,hkey]
    next hfind =>
      have hentry : (t,(index.analysis.tokenize text).count t) ∈
          (countTerms (index.analysis.tokenize text)).entries := mem_countTerms.mpr ⟨hmem,rfl⟩
      have hnot := List.find?_eq_none.mp hfind _ hentry
      simp at hnot
  · rw [OrdMap.find?_foldl_update Prod.fst
      (fun e old => insertPosting ⟨n,e.2⟩ (old.getD [])) (countTerms _).keys_nodup]
    split
    next e hfind =>
      have hkey : e.1 = t := by simpa using List.find?_some hfind
      exact absurd (hkey ▸ (mem_countTerms.mp (List.mem_of_find?_eq_some hfind)).1) hmem
    next => rfl

/-- A posting of a later document comes last. -/
lemma insertPosting_last {p : Posting} {plist : List Posting} (h : ∀ q ∈ plist, q.doc < p.doc) :
    insertPosting p plist = plist ++ [p] := by
  induction plist with
  | nil => rfl
  | cons q rest ih =>
    rw [insertPosting,if_pos (h q List.mem_cons_self),
      ih fun r hr => h r (List.mem_cons_of_mem _ hr),List.cons_append]

lemma find?_postings_add_last {index : Bm25Index} {n : ℕ} (text t : Bytes)
    (h : ∀ plist, index.postings.find? t = some plist → ∀ q ∈ plist, q.doc < n) :
    (index.add n text).postings.find? t =
      if t ∈ index.analysis.tokenize text then
        some ((index.postings.find? t).getD [] ++
          [⟨n,(index.analysis.tokenize text).count t⟩])
      else index.postings.find? t := by
  have hlast : ∀ q ∈ (index.postings.find? t).getD [], q.doc < n := by
    intro q hq
    cases hfound : index.postings.find? t with
    | none =>
      rw [hfound] at hq
      cases hq
    | some plist =>
      rw [hfound] at hq
      exact h plist hfound q hq
  rw [find?_postings_add,insertPosting_last hlast]

section added

variable {analysis : Analysis} {texts : List Bytes}

lemma added_snoc (text : Bytes) : added analysis (texts ++ [text]) =
    (added analysis texts).add texts.length text := by
  simp [added,List.zipIdx_append]

lemma postingsOf_snoc (tokenize : Bytes → List Bytes) (text t : Bytes) :
    postingsOf tokenize (texts ++ [text]) t =
      postingsOf tokenize texts t ++ (postingIn tokenize t (text,texts.length)).toList := by
  rw [postingsOf,List.zipIdx_append,List.filterMap_append]
  cases h : postingIn tokenize t (text,texts.length) <;> simp [h,postingsOf]

lemma mem_postingsOf {tokenize : Bytes → List Bytes} {t : Bytes} {p : Posting} :
    p ∈ postingsOf tokenize texts t ↔
      ∃ text, texts[p.doc]? = some text ∧ t ∈ tokenize text ∧ p.tf = (tokenize text).count t := by
  simp only [postingsOf,List.mem_filterMap,postingIn,Prod.exists,List.mem_zipIdx_iff_getElem?]
  constructor
  · rintro ⟨text,doc,htext,hp⟩
    split_ifs at hp with ht
    cases hp
    exact ⟨text,htext,ht,rfl⟩
  · rintro ⟨text,htext,ht,htf⟩
    refine ⟨text,p.doc,htext,?_⟩
    rw [if_pos ht,← htf]

lemma doc_lt_of_mem_postingsOf {tokenize : Bytes → List Bytes} {t : Bytes} {p : Posting}
    (h : p ∈ postingsOf tokenize texts t) : p.doc < texts.length := by
  obtain ⟨text,htext,-⟩ := mem_postingsOf.mp h
  exact (List.getElem?_eq_some_iff.mp htext).1

lemma ascending_postingsOf (tokenize : Bytes → List Bytes) (texts : List Bytes) (t : Bytes) :
    (postingsOf tokenize texts t).Pairwise fun p q => p.doc < q.doc := by
  induction texts using List.reverseRecOn with
  | nil => exact List.Pairwise.nil
  | append_singleton texts text ih =>
    rw [postingsOf_snoc,List.pairwise_append]
    refine ⟨ih,?_,?_⟩
    · cases postingIn tokenize t (text,texts.length) <;> simp
    · intro p hp q hq
      unfold postingIn at hq
      split_ifs at hq
      · rw [List.mem_singleton.mp hq]
        exact doc_lt_of_mem_postingsOf hp
      · cases hq

lemma length_postingsOf_le (tokenize : Bytes → List Bytes) (texts : List Bytes) (t : Bytes) :
    (postingsOf tokenize texts t).length ≤ texts.length := by
  refine (List.length_filterMap_le _ _).trans ?_
  rw [List.length_zipIdx]

@[simp] lemma analysis_add (index : Bm25Index) (n : ℕ) (text : Bytes) :
    (index.add n text).analysis = index.analysis := by
  unfold add
  dsimp only
  split_ifs <;> rfl

@[simp] lemma params_add (index : Bm25Index) (n : ℕ) (text : Bytes) :
    (index.add n text).params = index.params := by
  unfold add
  dsimp only
  split_ifs <;> rfl

lemma docLen_add (index : Bm25Index) (n : ℕ) (text : Bytes) :
    (index.add n text).docLen = index.docLen.insert n (index.analysis.tokenize text).length := by
  unfold add
  dsimp only
  split_ifs with h
  · rw [h]
    rfl
  · rfl

lemma totalLen_add (index : Bm25Index) (n : ℕ) (text : Bytes) :
    (index.add n text).totalLen = index.totalLen + (index.analysis.tokenize text).length := by
  unfold add
  dsimp only
  split_ifs with h
  · rw [h]
    rfl
  · rfl

@[simp] lemma analysis_added : (added analysis texts).analysis = analysis := by
  induction texts using List.reverseRecOn with
  | nil => rfl
  | append_singleton texts text ih => rw [added_snoc,analysis_add,ih]

@[simp] lemma params_added : (added analysis texts).params = {} := by
  induction texts using List.reverseRecOn with
  | nil => rfl
  | append_singleton texts text ih => rw [added_snoc,params_add,ih]

/-- The lengths of the texts, under their numbers. -/
lemma docLen_added : (added analysis texts).docLen.entries =
    texts.zipIdx.map fun x => (x.2,(analysis.tokenize x.1).length) := by
  induction texts using List.reverseRecOn with
  | nil => rfl
  | append_singleton texts text ih =>
    have hlast : ∀ e ∈ (added analysis texts).docLen.entries, e.1 < texts.length := by
      intro e he
      rw [ih] at he
      obtain ⟨x,hx,rfl⟩ := List.mem_map.mp he
      have := (List.mem_zipIdx hx).2.1
      omega
    rw [added_snoc,docLen_add,analysis_added]
    refine (OrdMap.insertEntries_last _ hlast).trans ?_
    rw [ih]
    simp [List.zipIdx_append]

lemma totalLen_added : (added analysis texts).totalLen =
    (texts.map fun text => (analysis.tokenize text).length).sum := by
  induction texts using List.reverseRecOn with
  | nil => rfl
  | append_singleton texts text ih => simp [added_snoc,totalLen_add,ih]

/-- The posting list of a term, which is there if some text has the term. -/
theorem find?_postings_added (t : Bytes) : (added analysis texts).postings.find? t =
    if postingsOf analysis.tokenize texts t = [] then none
    else some (postingsOf analysis.tokenize texts t) := by
  induction texts using List.reverseRecOn with
  | nil => rfl
  | append_singleton texts text ih =>
    have hbefore : ∀ plist, (added analysis texts).postings.find? t = some plist →
        ∀ q ∈ plist, q.doc < texts.length := by
      intro plist hfound q hq
      rw [ih] at hfound
      split_ifs at hfound
      rw [← Option.some.inj hfound] at hq
      exact doc_lt_of_mem_postingsOf hq
    have hold : ((added analysis texts).postings.find? t).getD [] =
        postingsOf analysis.tokenize texts t := by
      rw [ih]
      split_ifs with hnil
      · exact hnil.symm
      · rfl
    rw [added_snoc,find?_postings_add_last text t hbefore,analysis_added,hold,postingsOf_snoc]
    by_cases ht : t ∈ analysis.tokenize text
    · simp [postingIn,ht]
    · simp [postingIn,ht,ih]

/-- The terms of the index are those of the texts. -/
lemma mem_keys_postings_added {t : Bytes} : t ∈ (added analysis texts).postings.keys ↔
    ∃ text ∈ texts, t ∈ analysis.tokenize text := by
  rw [OrdMap.mem_keys]
  have hne : postingsOf analysis.tokenize texts t ≠ [] ↔
      ∃ text ∈ texts, t ∈ analysis.tokenize text := by
    constructor
    · intro h
      obtain ⟨p,hp⟩ := List.exists_mem_of_ne_nil _ h
      obtain ⟨text,htext,ht,-⟩ := mem_postingsOf.mp hp
      exact ⟨text,List.mem_of_getElem? htext,ht⟩
    · rintro ⟨text,htext,ht⟩
      obtain ⟨i,hi⟩ := List.mem_iff_getElem?.mp htext
      have hp : (⟨i,(analysis.tokenize text).count t⟩ : Posting) ∈
          postingsOf analysis.tokenize texts t := mem_postingsOf.mpr ⟨text,hi,ht,rfl⟩
      exact List.ne_nil_of_mem hp
  rw [← hne,find?_postings_added]
  split_ifs with h <;> simp [h]

/-- The different terms of some texts. -/
def vocabulary (tokenize : Bytes → List Bytes) (texts : List Bytes) : Finset Bytes :=
  (texts.flatMap tokenize).toFinset

theorem size_postings_added :
    (added analysis texts).postings.size = (vocabulary analysis.tokenize texts).card := by
  have hsame : (added analysis texts).postings.keys.toFinset =
      vocabulary analysis.tokenize texts := by
    ext t
    simp only [List.mem_toFinset,mem_keys_postings_added,vocabulary,List.mem_flatMap]
  rw [← hsame,List.toFinset_card_of_nodup (OrdMap.keys_nodup _)]
  simp [OrdMap.keys,OrdMap.size]

end added

lemma isFloat_k1 : Single.IsFloat (5033165/4194304) :=
  ⟨0x3F99999A,by norm_num,by norm_num [Single.ofBits,Single.units]⟩

lemma isFloat_b : Single.IsFloat (3/4) :=
  ⟨0x3F400000,by norm_num,by norm_num [Single.ofBits,Single.units]⟩

lemma length_le_of_tokens {opts : TokenizeOptions} {text t : Bytes}
    (ht : t ∈ Tokenizer.tokenize opts text) :
    opts.minLen ≤ t.length ∧ t.length ≤ opts.maxLen := (Tokenizer.sound_tokenize opts text).1 t ht

/-- The index of texts that are not too many and not too long can be written. -/
theorem writable_added {idf : ℕ → ℕ → ℚ} {texts : List Bytes} (hcount : texts.length ≤ kMaxChunks)
    (hlong : ∀ text ∈ texts, text.length ≤ uint32Max) :
    (added ⟨Tokenizer.tokenize {},idf⟩ texts).Writable := by
  have htokens : ∀ text ∈ texts, (Tokenizer.tokenize {} text).length < 256^4 := by
    intro text htext
    have hle := (Tokenizer.sound_tokenize {} text).2
    have := hlong text htext
    simp only [uint32Max] at this
    omega
  refine ⟨?_,?_,?_,?_,?_,?_⟩
  · rw [params_added]
    exact ⟨isFloat_k1,by norm_num⟩
  · rw [params_added]
    exact ⟨isFloat_b,by norm_num,by norm_num⟩
  · rw [totalLen_added]
    have hsum : (texts.map fun text => (Tokenizer.tokenize {} text).length).sum ≤
        texts.length * 256^4 := by
      have := List.sum_le_card_nsmul (texts.map fun text => (Tokenizer.tokenize {} text).length)
        (256^4) (by
          intro n hn
          obtain ⟨text,htext,rfl⟩ := List.mem_map.mp hn
          exact (htokens text htext).le)
      simpa using this
    simp only [kMaxChunks] at hcount
    dsimp only
    omega
  · rw [OrdMap.size,docLen_added,List.length_map,List.length_zipIdx]
    exact hcount
  · intro e he
    rw [docLen_added] at he
    obtain ⟨x,hx,rfl⟩ := List.mem_map.mp he
    have hindex := (List.mem_zipIdx hx).2.1
    simp only [kMaxChunks] at hcount
    exact ⟨by dsimp only; omega,htokens x.1
      (List.mem_of_getElem? (List.mem_zipIdx_iff_getElem?.mp hx))⟩
  · intro e he
    have hfound := OrdMap.find?_eq_some.mpr he
    rw [find?_postings_added] at hfound
    split_ifs at hfound with hnil
    have hplist := Option.some.inj hfound
    obtain ⟨p,hp⟩ := List.exists_mem_of_ne_nil _ hnil
    obtain ⟨text,htext,ht,-⟩ := mem_postingsOf.mp hp
    obtain ⟨hmin,hmax⟩ := length_le_of_tokens ht
    refine ⟨?_,?_,?_,?_,?_⟩
    · rintro h
      rw [h] at hmin
      cases hmin
    · exact lt_of_le_of_lt hmax (by decide)
    · rw [← hplist]
      have := length_postingsOf_le (Tokenizer.tokenize {}) texts e.1
      simp only [kMaxChunks,kMaxPostings] at hcount ⊢
      exact this.trans (by omega)
    · rw [← hplist]
      exact ascending_postingsOf _ _ _
    · intro q hq
      rw [← hplist] at hq
      have hdoc := doc_lt_of_mem_postingsOf hq
      obtain ⟨text',htext',ht',htf⟩ := mem_postingsOf.mp hq
      have hle : (Tokenizer.tokenize {} text').count e.1 ≤ (Tokenizer.tokenize {} text').length :=
        List.count_le_length
      have hlt := htokens text' (List.mem_of_getElem? htext')
      have hpos : 0 < (Tokenizer.tokenize {} text').count e.1 := List.count_pos_iff.mpr ht'
      change q.tf = (Tokenizer.tokenize {} text').count e.1 at htf
      simp only [kMaxChunks] at hcount
      exact ⟨by omega,by omega,by omega⟩

/-- How long the index of some texts can be when it is written. -/
theorem length_serialize_added_le (order : HashOrder) {idf : ℕ → ℕ → ℚ} {texts : List Bytes} :
    ((added ⟨Tokenizer.tokenize {},idf⟩ texts).serialize order).length ≤ 32 + 8*texts.length +
      (48 + 8*texts.length)*(vocabulary (Tokenizer.tokenize {}) texts).card := by
  set index := added ⟨Tokenizer.tokenize {},idf⟩ texts
  have hsize : index.postings.size = (vocabulary (Tokenizer.tokenize {}) texts).card :=
    size_postings_added
  have hdocs : (encodeFrom putDoc 0 (order.docs index.docLen.entries)).length ≤ 8*texts.length := by
    have hlength : (order.docs index.docLen.entries).length = texts.length := by
      rw [(order.docs_perm _).length_eq,docLen_added,List.length_map,List.length_zipIdx]
    have hle := @length_encodeFrom_le _ putDoc 8 (order.docs index.docLen.entries)
      (fun i e _ => by simp [putDoc]) 0
    rwa [hlength] at hle
  have hterm : ∀ i, ∀ e ∈ order.terms index.postings.entries,
      (putTerm i e).length ≤ 48 + 8*texts.length := by
    intro i e he
    have hfound := OrdMap.find?_eq_some.mpr ((order.terms_perm _).mem_iff.mp he)
    rw [find?_postings_added] at hfound
    split_ifs at hfound with hnil
    obtain ⟨p,hp⟩ := List.exists_mem_of_ne_nil _ hnil
    obtain ⟨text,-,ht,-⟩ := mem_postingsOf.mp hp
    have hlength : e.1.length ≤ 40 := (length_le_of_tokens ht).2
    have hplist : e.2.length ≤ texts.length := by
      rw [← Option.some.inj hfound]
      exact length_postingsOf_le _ _ _
    have hpostings := @length_encodeFrom_le _ putPosting 8 e.2 (fun i p _ => by simp [putPosting]) 0
    simp only [putTerm,List.length_append,str_length,leBytes_length]
    omega
  have hterms := length_encodeFrom_le hterm 0
  have hlength : (order.terms index.postings.entries).length = index.postings.size :=
    (order.terms_perm _).length_eq
  rw [hlength,hsize] at hterms
  simp only [serialize,header,List.length_append,leBytes_length]
  omega

end Bm25Index
end RagRuntime.Lexical
