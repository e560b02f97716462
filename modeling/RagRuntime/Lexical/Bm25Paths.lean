import Mathlib.Algebra.Order.Field.Basic
import Mathlib.Data.Finset.Card
import RagRuntime.Base.Tally
import RagRuntime.Lexical.Bm25Growth

/-! The ways in which an index is searched give every document the same score. -/
namespace RagRuntime.Lexical
open RagRuntime.Base RagRuntime.Core

/-- `k1` is not negative and `b` lies between zero and one. -/
structure Bm25Params.Proper (params : Bm25Params) : Prop where
  k1_nonneg : 0 ≤ params.k1
  b_nonneg : 0 ≤ params.b
  b_le_one : params.b ≤ 1

namespace Bm25Index

/-- An index that the documents, each with its id, were added to one after the other. -/
def entered (analysis : Analysis) (params : Bm25Params) (docs : List (ℕ × Bytes)) : Bm25Index :=
  docs.foldl (fun index x => index.add x.1 x.2) { empty analysis with params := params }

/-- The posting list of a term, empty for a term that no document has. -/
def postingList (index : Bm25Index) (t : Bytes) : List Posting := (index.postings.find? t).getD []

/-- Postings in the order of their documents. -/
def AscendingDocs (plist : List Posting) : Prop := plist.Pairwise fun p q => p.doc < q.doc

section postings

lemma mem_insertPosting {p : Posting} {plist : List Posting} (h : ∀ q ∈ plist, q.doc ≠ p.doc)
    {q : Posting} : q ∈ insertPosting p plist ↔ q = p ∨ q ∈ plist := by
  induction plist with
  | nil => simp [insertPosting]
  | cons a rest ih =>
    have htail := ih fun r hr => h r (List.mem_cons_of_mem _ hr)
    rw [insertPosting,if_neg (h a List.mem_cons_self)]
    split_ifs
    · rw [List.mem_cons,htail,List.mem_cons]
      tauto
    · rw [List.mem_cons,List.mem_cons]

lemma AscendingDocs.insertPosting {p : Posting} {plist : List Posting} (ha : AscendingDocs plist)
    (h : ∀ q ∈ plist, q.doc ≠ p.doc) : AscendingDocs (insertPosting p plist) := by
  induction plist with
  | nil => exact List.pairwise_singleton _ _
  | cons a rest ih =>
    obtain ⟨hhead,htail⟩ := List.pairwise_cons.mp ha
    have hrest : ∀ q ∈ rest, q.doc ≠ p.doc := fun r hr => h r (List.mem_cons_of_mem _ hr)
    have hne : a.doc ≠ p.doc := h a List.mem_cons_self
    rw [Bm25Index.insertPosting,if_neg hne]
    split_ifs with hlt
    · apply List.pairwise_cons.mpr ⟨?_,ih htail hrest⟩
      intro q hq
      rcases (mem_insertPosting hrest).mp hq with rfl | hq
      · exact hlt
      · exact hhead q hq
    · apply List.pairwise_cons.mpr ⟨?_,ha⟩
      intro q hq
      rcases List.mem_cons.mp hq with rfl | hq
      · omega
      · have := hhead q hq
        omega

lemma AscendingDocs.nodup {plist : List Posting} (ha : AscendingDocs plist) :
    (plist.map Posting.doc).Nodup := by
  apply List.pairwise_map.mpr
  apply List.Pairwise.imp _ ha
  intro p q hlt
  exact hlt.ne

/-- The search for the place of `d` comes upon its posting if there is one. -/
lemma AscendingDocs.dropWhile {plist : List Posting} (ha : AscendingDocs plist) {p : Posting}
    (hp : p ∈ plist) : ∃ rest, (plist.dropWhile fun q => q.doc < p.doc) = p::rest := by
  induction plist with
  | nil => cases hp
  | cons a rest ih =>
    obtain ⟨hhead,htail⟩ := List.pairwise_cons.mp ha
    rcases List.mem_cons.mp hp with rfl | hp
    · exact ⟨rest,by simp⟩
    · obtain ⟨rest',hrest⟩ := ih htail hp
      refine ⟨rest',?_⟩
      rw [List.dropWhile_cons_of_pos (by simpa using hhead p hp),hrest]

end postings

/-- What an index knows of the documents that it was given. -/
structure Indexes (index : Bm25Index) (docs : List (ℕ × Bytes)) : Prop where
  length : ∀ d len, index.docLen.find? d = some len ↔
    ∃ text, (d,text) ∈ docs ∧ len = (index.analysis.tokenize text).length
  posting : ∀ t p, p ∈ index.postingList t ↔
    ∃ text, (p.doc,text) ∈ docs ∧ t ∈ index.analysis.tokenize text ∧
      p.tf = (index.analysis.tokenize text).count t
  ascending : ∀ t, AscendingDocs (index.postingList t)

lemma postingList_add (index : Bm25Index) (n : ℕ) (text t : Bytes) :
    (index.add n text).postingList t =
      if t ∈ index.analysis.tokenize text then
        insertPosting ⟨n,(index.analysis.tokenize text).count t⟩ (index.postingList t)
      else index.postingList t := by
  unfold postingList
  rw [find?_postings_add]
  split_ifs <;> rfl

theorem Indexes.add {index : Bm25Index} {docs : List (ℕ × Bytes)} (h : index.Indexes docs) {n : ℕ}
    (hn : n ∉ docs.map Prod.fst) (text : Bytes) :
    (index.add n text).Indexes (docs ++ [(n,text)]) := by
  have hother : ∀ t, ∀ q ∈ index.postingList t, q.doc ≠ n := by
    rintro t q hq rfl
    obtain ⟨text',hmem,-⟩ := (h.posting t q).mp hq
    exact hn (List.mem_map_of_mem hmem)
  have hunique : ∀ text', (n,text') ∉ docs := fun text' hmem => hn (List.mem_map_of_mem hmem)
  constructor
  · intro d len
    rw [docLen_add,OrdMap.find?_insert,analysis_add]
    by_cases hd : d = n
    · subst hd
      simp [hunique,eq_comm]
    · rw [if_neg hd,h.length]
      simp [hd]
  · intro t p
    rw [postingList_add,analysis_add]
    by_cases ht : t ∈ index.analysis.tokenize text
    · rw [if_pos ht,mem_insertPosting (hother t),h.posting]
      constructor
      · rintro (rfl | ⟨text',hmem,hin,htf⟩)
        · exact ⟨text,List.mem_append_right _ (List.mem_singleton.mpr rfl),ht,rfl⟩
        · exact ⟨text',List.mem_append_left _ hmem,hin,htf⟩
      · rintro ⟨text',hmem,hin,htf⟩
        rcases List.mem_append.mp hmem with hmem | hmem
        · exact .inr ⟨text',hmem,hin,htf⟩
        · obtain ⟨hdoc,rfl⟩ := Prod.mk.inj (List.mem_singleton.mp hmem)
          left
          cases p
          simp only at hdoc htf
          rw [hdoc,htf]
    · rw [if_neg ht,h.posting]
      constructor
      · rintro ⟨text',hmem,hin,htf⟩
        exact ⟨text',List.mem_append_left _ hmem,hin,htf⟩
      · rintro ⟨text',hmem,hin,htf⟩
        rcases List.mem_append.mp hmem with hmem | hmem
        · exact ⟨text',hmem,hin,htf⟩
        · obtain ⟨-,rfl⟩ := Prod.mk.inj (List.mem_singleton.mp hmem)
          exact absurd hin ht
  · intro t
    rw [postingList_add]
    split_ifs
    · exact (h.ascending t).insertPosting (hother t)
    · exact h.ascending t

lemma indexes_empty (analysis : Analysis) (params : Bm25Params) :
    ({ empty analysis with params := params } : Bm25Index).Indexes [] := by
  constructor
  · intro d len
    simp [empty]
  · intro t p
    simp [empty,postingList]
  · intro t
    exact List.Pairwise.nil

lemma entered_snoc (analysis : Analysis) (params : Bm25Params) (docs : List (ℕ × Bytes))
    (x : ℕ × Bytes) : entered analysis params (docs ++ [x]) =
      (entered analysis params docs).add x.1 x.2 := by
  simp [entered]

theorem indexes_entered (analysis : Analysis) (params : Bm25Params) {docs : List (ℕ × Bytes)}
    (h : (docs.map Prod.fst).Nodup) : (entered analysis params docs).Indexes docs := by
  induction docs using List.reverseRecOn with
  | nil => exact indexes_empty analysis params
  | append_singleton docs x ih =>
    rw [List.map_append,List.map_singleton,List.nodup_append] at h
    obtain ⟨hdocs,-,hnew⟩ := h
    rw [entered_snoc]
    apply (ih hdocs).add
    intro hmem
    exact hnew _ hmem _ (List.mem_singleton.mpr rfl) rfl

@[simp] lemma analysis_entered (analysis : Analysis) (params : Bm25Params)
    (docs : List (ℕ × Bytes)) : (entered analysis params docs).analysis = analysis := by
  induction docs using List.reverseRecOn with
  | nil => rfl
  | append_singleton docs x ih => rw [entered_snoc,analysis_add,ih]

@[simp] lemma params_entered (analysis : Analysis) (params : Bm25Params)
    (docs : List (ℕ × Bytes)) : (entered analysis params docs).params = params := by
  induction docs using List.reverseRecOn with
  | nil => rfl
  | append_singleton docs x ih => rw [entered_snoc,params_add,ih]

section finalize

variable (index : Bm25Index)

@[simp] lemma analysis_finalize : index.finalize.analysis = index.analysis := rfl
@[simp] lemma params_finalize : index.finalize.params = index.params := rfl
@[simp] lemma docLen_finalize : index.finalize.docLen = index.docLen := rfl
@[simp] lemma postings_finalize : index.finalize.postings = index.postings := rfl
@[simp] lemma postingList_finalize (t : Bytes) :
    index.finalize.postingList t = index.postingList t := rfl

lemma Indexes.finalize {index : Bm25Index} {docs : List (ℕ × Bytes)} (h : index.Indexes docs) :
    index.finalize.Indexes docs := ⟨h.length,h.posting,h.ascending⟩

lemma find?_weights_finalize (t : Bytes) : index.finalize.weights.find? t =
    (index.postings.find? t).map (List.map
      (weight index.params (scoringLength index.finalize.avgdl) index.finalize.denseLen
        index.docLen)) := by
  ext ws
  rw [finalize,OrdMap.find?_foldl_insert Prod.fst
    (fun e : Bytes × List Posting => e.2.map (weight index.params _ _ index.docLen))
    index.postings.keys_nodup]
  simp only [OrdMap.find?_empty,reduceCtorEq,false_and,or_false,Option.map_eq_some_iff]
  constructor
  · rintro ⟨e,he,rfl,rfl⟩
    exact ⟨e.2,OrdMap.find?_eq_some.mpr he,rfl⟩
  · rintro ⟨plist,hfound,rfl⟩
    exact ⟨(t,plist),OrdMap.find?_eq_some.mp hfound,rfl,rfl⟩

end finalize

lemma le_foldl_max (l : List ℕ) (a : ℕ) : a ≤ l.foldl max a ∧ ∀ d ∈ l, d ≤ l.foldl max a := by
  induction l generalizing a with
  | nil => simp
  | cons b l ih =>
    obtain ⟨hstart,hall⟩ := ih (max a b)
    refine ⟨(le_max_left _ _).trans hstart,?_⟩
    intro d hd
    rcases List.mem_cons.mp hd with rfl | hd
    · exact (le_max_right _ _).trans hstart
    · exact hall d hd

/-- An array of lengths that is there has the length of every document. -/
lemma getD_denseLengths {docLen : OrdMap ℕ ℕ} (h : denseLengths docLen ≠ []) {d len : ℕ}
    (hd : docLen.find? d = some len) :
    d < (denseLengths docLen).length ∧ (denseLengths docLen).getD d 0 = len := by
  have hle := (le_foldl_max docLen.keys 0).2 d (OrdMap.mem_keys.mpr ⟨len,hd⟩)
  unfold denseLengths at h ⊢
  dsimp only at h ⊢
  split_ifs at h ⊢ with hdense
  · have hlt : d < docLen.keys.foldl max 0 + 1 := by omega
    refine ⟨by simpa using hlt,?_⟩
    rw [List.getD_eq_getElem?_getD,List.getElem?_map,List.getElem?_range hlt]
    simp [hd]
  · exact absurd rfl h

lemma scoringLength_pos (avgdl : ℚ) : 0 < scoringLength avgdl := by
  unfold scoringLength
  split_ifs with h
  · exact h
  · exact one_pos

lemma saturation_pos {params : Bm25Params} (h : params.Proper) {avgdl dl : ℚ}
    (ha : 0 < avgdl) (hdl : 0 ≤ dl) {tf : ℕ} (htf : 0 < tf) :
    0 < (saturation params avgdl dl tf).1 ∧ 0 < (saturation params avgdl dl tf).2 := by
  have htf' : (0 : ℚ) < tf := by exact_mod_cast htf
  have hk := h.k1_nonneg
  have hb := h.b_nonneg
  have hb1 : 0 ≤ 1 - params.b := sub_nonneg.mpr h.b_le_one
  unfold saturation
  constructor <;> positivity

lemma sparseLength_eq {index : Bm25Index} {d len : ℕ} (h : index.docLen.find? d = some len) :
    index.sparseLength d = len := by
  simp [sparseLength,h]

/-- An index whose derived data fit its documents: it was finalised, and no document with a term has
come since. -/
structure Settled (index : Bm25Index) (docs : List (ℕ × Bytes)) : Prop
    extends index.Indexes docs where
  dense : index.denseLen ≠ [] → ∀ d len, index.docLen.find? d = some len → 0 < len →
    d < index.denseLen.length ∧ index.denseLen.getD d 0 = len
  weights : index.denseLen ≠ [] → ∀ t, index.weights.find? t =
    (index.postings.find? t).map (List.map
      (weight index.params (scoringLength index.avgdl) index.denseLen index.docLen))

theorem Indexes.settled {index : Bm25Index} {docs : List (ℕ × Bytes)} (h : index.Indexes docs) :
    index.finalize.Settled docs :=
  { h.finalize with
    dense := fun hd _ _ hlen _ => getD_denseLengths hd hlen
    weights := fun _ => find?_weights_finalize index }

section lengths
variable {index : Bm25Index} {docs : List (ℕ × Bytes)} (h : index.Indexes docs)
include h

/-- A document with a posting has a length. -/
lemma Indexes.length_pos {t : Bytes} {p : Posting} (hp : p ∈ index.postingList t) :
    0 < p.tf ∧ ∃ len, index.docLen.find? p.doc = some len ∧ 0 < len := by
  obtain ⟨text,hmem,ht,htf⟩ := (h.posting t p).mp hp
  refine ⟨?_,_,(h.length p.doc _).mpr ⟨text,hmem,rfl⟩,List.length_pos_of_mem ht⟩
  rw [htf]
  exact List.count_pos_iff.mpr ht

/-- No term is in more documents than there are. -/
lemma Indexes.length_postingList (t : Bytes) :
    (index.postingList t).length ≤ index.docLen.size := by
  have hsub : (index.postingList t).map Posting.doc ⊆ index.docLen.keys := by
    intro d hd
    obtain ⟨p,hp,rfl⟩ := List.mem_map.mp hd
    obtain ⟨-,len,hlen,-⟩ := h.length_pos hp
    exact OrdMap.mem_keys.mpr ⟨len,hlen⟩
  have hle := (List.subperm_of_subset (h.ascending t).nodup hsub).length_le
  simpa [OrdMap.keys,OrdMap.size] using hle

/-- Every document has a length. -/
lemma Indexes.size_docLen (hids : (docs.map Prod.fst).Nodup) : index.docLen.size = docs.length := by
  have hperm : index.docLen.keys.Perm (docs.map Prod.fst) := by
    rw [List.perm_ext_iff_of_nodup index.docLen.keys_nodup hids]
    intro d
    simp only [OrdMap.mem_keys,h.length,List.mem_map,Prod.exists,exists_and_right,exists_eq_right]
    exact ⟨fun ⟨_,text,hmem,_⟩ => ⟨text,hmem⟩,fun ⟨text,hmem⟩ => ⟨_,text,hmem,rfl⟩⟩
  simpa [OrdMap.keys,OrdMap.size] using hperm.length_eq

/-- The fraction of a score. -/
lemma Indexes.fraction_pos (hproper : index.params.Proper) {t : Bytes} {p : Posting}
    (hp : p ∈ index.postingList t) :
    let s := saturation index.params (scoringLength index.avgdl)
      (index.sparseLength p.doc) p.tf
    0 < s.1 ∧ 0 < s.2 := by
  obtain ⟨htf,len,hlen,-⟩ := h.length_pos hp
  apply saturation_pos hproper (scoringLength_pos _) _ htf
  rw [sparseLength_eq hlen]
  exact Nat.cast_nonneg len

end lengths

section settled
variable {index : Bm25Index} {docs : List (ℕ × Bytes)} (h : index.Settled docs)
include h

lemma Settled.doc_lt (hd : index.denseLen ≠ []) {t : Bytes} {p : Posting}
    (hp : p ∈ index.postingList t) : p.doc < index.denseLen.length := by
  obtain ⟨-,len,hlen,hpos⟩ := h.length_pos hp
  exact (h.dense hd _ _ hlen hpos).1

lemma Settled.denseLength_eq (hd : index.denseLen ≠ []) {t : Bytes} {p : Posting}
    (hp : p ∈ index.postingList t) : index.denseLength p.doc = index.sparseLength p.doc := by
  obtain ⟨-,len,hlen,hpos⟩ := h.length_pos hp
  rw [sparseLength_eq hlen,denseLength,(h.dense hd _ _ hlen hpos).2,lengthOr,if_neg hpos.ne']

/-- The precomputed weight is the fraction that the other paths compute. -/
lemma Settled.weight_eq (hproper : index.params.Proper) (hd : index.denseLen ≠ [])
    {t : Bytes} {p : Posting} (hp : p ∈ index.postingList t) :
    weight index.params (scoringLength index.avgdl) index.denseLen index.docLen p =
      let s := saturation index.params (scoringLength index.avgdl) (index.sparseLength p.doc) p.tf
      s.1/s.2 := by
  have hlength : lengthOr (scoringLength index.avgdl) (index.denseLen.getD p.doc 0) =
      index.sparseLength p.doc := h.denseLength_eq hd hp
  rw [weight,if_pos (h.doc_lt hd hp),hlength]
  exact if_pos (h.fraction_pos hproper hp).2

omit h in
/-- A document without terms changes the number of documents only. -/
lemma Settled.add_empty (h : index.Settled docs) {n : ℕ} (hn : n ∉ docs.map Prod.fst) {text : Bytes}
    (hempty : index.analysis.tokenize text = []) :
    (index.add n text).Settled (docs ++ [(n,text)]) := by
  have hadd : index.add n text = { index with docLen := index.docLen.insert n 0 } := by
    rw [add,if_pos hempty]
  have hindexes := h.toIndexes.add hn text
  rw [hadd] at hindexes ⊢
  refine { hindexes with dense := ?_, weights := ?_ }
  · intro hd d len hlen hpos
    rw [OrdMap.find?_insert] at hlen
    split_ifs at hlen with hsame
    · cases hlen
      cases hpos
    · exact h.dense hd d len hlen hpos
  · intro hd t
    rw [h.weights hd t]
    cases hfound : index.postings.find? t with
    | none => rw [Option.map_none,Option.map_none]
    | some plist =>
      have hlist : index.postingList t = plist := by simp [postingList,hfound]
      simp only [Option.map_some,Option.some.injEq]
      apply List.map_congr_left
      intro p hp
      rw [weight,weight,if_pos (h.doc_lt hd (hlist ▸ hp)),if_pos (h.doc_lt hd (hlist ▸ hp))]

end settled

section paths
variable {K : Type*} [Field K] {idf : ℕ → ℕ → K} {index : Bm25Index} {docs : List (ℕ × Bytes)}

/-- A path can be taken: the first two need the array of lengths. -/
def Path.Available (index : Bm25Index) : Path → Prop
  | .precomputed | .dense => index.denseLen ≠ []
  | .sparse => True

lemma available_path (index : Bm25Index) : index.path.Available index := by
  unfold path
  split_ifs with hpre hdense
  · exact hpre.1
  · exact hdense
  · trivial

/-- What a posting of a term adds to the score of its document. -/
def contribution (idf : ℕ → ℕ → K) (index : Bm25Index) (t : Bytes) (p : Posting) : ℕ × K :=
  let s := saturation index.params (scoringLength index.avgdl) (index.sparseLength p.doc) p.tf
  (p.doc,idf index.docLen.size (index.postingList t).length * (s.1/s.2 : ℚ))

lemma computedTerm_eq (length : ℕ → ℚ) (t : Bytes) : index.computedTerm idf length t =
    (index.postingList t).map fun p =>
      let s := saturation index.params (scoringLength index.avgdl) (length p.doc) p.tf
      (p.doc,idf index.docLen.size (index.postingList t).length * (s.1/s.2 : ℚ)) := by
  unfold computedTerm postingList
  cases index.postings.find? t <;> rfl

/-- A document that one of the terms occurs in. -/
def Matches (tokenize : Bytes → List Bytes) (docs : List (ℕ × Bytes)) (terms : List Bytes) (d : ℕ) :
    Prop := ∃ text, (d,text) ∈ docs ∧ ∃ t ∈ terms, t ∈ tokenize text

section facts
variable (h : index.Settled docs) (hproper : index.params.Proper)
include h

include hproper in
/-- Every path that can be taken adds up the same contributions in the same order. -/
theorem Settled.contributions_eq {path : Path} (hpath : path.Available index)
    (terms : List Bytes) : index.contributions idf terms path =
      terms.flatMap fun t => (index.postingList t).map (contribution idf index t) := by
  cases path with
  | precomputed =>
    rw [contributions]
    congr 1
    funext t
    rw [precomputedTerm,h.weights hpath]
    cases hfound : index.postings.find? t with
    | none => simp [postingList,hfound]
    | some plist =>
      have hlist : index.postingList t = plist := by simp [postingList,hfound]
      rw [hlist,Option.map_some]
      dsimp only
      rw [List.zipWith_map_right,List.zipWith_self]
      apply List.map_congr_left
      intro p hp
      rw [h.weight_eq hproper hpath (hlist ▸ hp)]
      simp only [contribution,hlist]
  | dense =>
    rw [contributions]
    congr 1
    funext t
    rw [computedTerm_eq]
    apply List.map_congr_left
    intro p hp
    rw [h.denseLength_eq hpath hp]
    rfl
  | sparse =>
    rw [contributions]
    congr 1
    funext t
    rw [computedTerm_eq]
    rfl

lemma Settled.mem_contributions {terms : List Bytes} {d : ℕ} :
    d ∈ (terms.flatMap fun t => (index.postingList t).map
      (contribution idf index t)).map Prod.fst ↔
        Matches index.analysis.tokenize docs terms d := by
  simp only [List.mem_map,List.mem_flatMap]
  constructor
  · rintro ⟨e,⟨t,ht,p,hp,rfl⟩,rfl⟩
    obtain ⟨text,hmem,hin,-⟩ := (h.posting t p).mp hp
    exact ⟨text,hmem,t,ht,hin⟩
  · rintro ⟨text,hmem,t,ht,hin⟩
    have hp : (⟨d,(index.analysis.tokenize text).count t⟩ : Posting) ∈ index.postingList t :=
      (h.posting t _).mpr ⟨text,hmem,hin,rfl⟩
    exact ⟨_,⟨t,ht,_,hp,rfl⟩,rfl⟩

/-- The bisection finds what the term adds for the document. -/
lemma Settled.termScore_eq {d len : ℕ} (hlen : index.docLen.find? d = some len) (t : Bytes) :
    index.termScore idf len d t =
      tally ((index.postingList t).map (contribution idf index t)) d := by
  have hkeys : (((index.postingList t).map (contribution idf index t)).map Prod.fst).Nodup := by
    rw [List.map_map]
    exact (h.ascending t).nodup
  by_cases hd : ∃ p ∈ index.postingList t, p.doc = d
  · obtain ⟨p,hp,rfl⟩ := hd
    obtain ⟨rest,hfirst⟩ := (h.ascending t).dropWhile hp
    have hfound : index.postings.find? t = some (index.postingList t) := by
      unfold postingList at hp ⊢
      cases hfind : index.postings.find? t with
      | none => simp [hfind] at hp
      | some plist => rfl
    have hvalue := tally_of_mem hkeys (List.mem_map_of_mem hp)
    rw [show (contribution idf index t p).1 = p.doc from rfl] at hvalue
    rw [hvalue,termScore,hfound]
    dsimp only
    rw [hfirst]
    simp only [ne_eq,not_true_eq_false,if_false]
    rw [contribution,sparseLength_eq hlen,saturation]
    simp only [mul_one_div]
  · have hnot : d ∉ ((index.postingList t).map (contribution idf index t)).map Prod.fst := by
      rw [List.map_map,List.mem_map]
      exact hd
    rw [tally_of_not_mem hnot,termScore]
    cases hfind : index.postings.find? t with
    | none => rfl
    | some plist =>
      have hlist : index.postingList t = plist := by simp [postingList,hfind]
      dsimp only
      cases hdrop : plist.dropWhile fun p => p.doc < d with
      | nil => rfl
      | cons p rest =>
        have hp : p ∈ plist := (List.dropWhile_sublist _).subset (hdrop ▸ List.mem_cons_self)
        have hne : p.doc ≠ d := fun heq => hd ⟨p,hlist ▸ hp,heq⟩
        simp [hne]

theorem Settled.scoreDoc_eq (terms : List Bytes) (d : ℕ) : index.scoreDoc idf terms d =
    tally (terms.flatMap fun t => (index.postingList t).map
      (contribution idf index t)) d := by
  rw [scoreDoc]
  cases hlen : index.docLen.find? d with
  | none =>
    rw [tally_of_not_mem]
    intro hmem
    obtain ⟨text,hin,-⟩ := h.mem_contributions.mp hmem
    have hsome := (h.length d _).mpr ⟨text,hin,rfl⟩
    rw [hlen] at hsome
    cases hsome
  | some len =>
    rw [tally_flatMap]
    dsimp only
    congr 1
    apply List.map_congr_left
    intro t _
    exact h.termScore_eq hlen t

end facts

variable [LinearOrder K] [IsStrictOrderedRing K]

/-- The idf of a term that some of the documents have. -/
def PositiveIdf (idf : ℕ → ℕ → K) : Prop := ∀ N n, n ≤ N → 0 < idf N n

/-- The positions of a score that is accumulated in an array. -/
lemma accumulate_spec {limit : ℕ} {l : List (ℕ × K)} (hl : ∀ e ∈ l, e.1 < limit ∧ 0 < e.2) :
    (∀ d, (accumulate limit l).scores d = tally l d) ∧ (accumulate limit l).touched.Nodup ∧
      ∀ d, d ∈ (accumulate limit l).touched ↔ d ∈ l.map Prod.fst := by
  induction l using List.reverseRecOn with
  | nil => simp [accumulate]
  | append_singleton l e ih =>
    have hbefore : ∀ e ∈ l, e.1 < limit ∧ 0 < e.2 := fun a ha => hl a (List.mem_append_left _ ha)
    obtain ⟨hscores,hnodup,hmem⟩ := ih hbefore
    have he := (hl e (by simp)).1
    have hstep : accumulate limit (l ++ [e]) = (accumulate limit l).credit limit e := by
      simp [accumulate]
    have hzero : (accumulate limit l).scores e.1 = 0 ↔ e.1 ∉ (accumulate limit l).touched := by
      rw [hscores,hmem]
      exact tally_eq_zero fun a ha => (hbefore a ha).2
    rw [hstep,Accumulator.credit,if_neg (by omega)]
    refine ⟨?_,?_,?_⟩
    · intro d
      rw [tally_append,tally_cons,tally_nil,add_zero,← hscores]
      by_cases hd : d = e.1
      · simp [hd]
      · simp [hd,Ne.symm hd]
    · dsimp only
      split_ifs with hnew
      · exact List.nodup_append.mpr ⟨hnodup,List.nodup_singleton _,by
          rintro a ha b hb rfl
          rw [List.mem_singleton] at hb
          exact hzero.mp hnew (hb ▸ ha)⟩
      · exact hnodup
    · intro d
      dsimp only
      split_ifs with hnew
      · simp [hmem]
      · have hold : e.1 ∈ (accumulate limit l).touched := by
          by_contra hnot
          exact hnew (hzero.mpr hnot)
        rw [hmem,List.map_append,List.mem_append,List.map_singleton,List.mem_singleton]
        refine ⟨.inl,?_⟩
        rintro (hd | rfl)
        · exact hd
        · exact (hmem _).mp hold

/-- What an array and a map of scores are made into. -/
structure ReportsTallies (l : List (ℕ × K)) (score : ℕ → K) (hits : List (ℕ × K)) : Prop where
  score_eq : ∀ d, score d = tally l d
  nodup : (hits.map Prod.fst).Nodup
  mem_iff : ∀ d s, (d,s) ∈ hits ↔ d ∈ l.map Prod.fst ∧ s = tally l d

lemma accumulate_reports {limit : ℕ} {l : List (ℕ × K)} (hl : ∀ e ∈ l, e.1 < limit ∧ 0 < e.2) :
    ReportsTallies l (accumulate limit l).scores (accumulate limit l).hits := by
  obtain ⟨hscores,hnodup,hmem⟩ := accumulate_spec hl
  refine ⟨hscores,by simpa [Accumulator.hits,Function.comp_def] using hnodup,?_⟩
  intro d s
  simp only [Accumulator.hits,List.mem_map,Prod.mk.injEq]
  constructor
  · rintro ⟨d',hd',rfl,rfl⟩
    exact ⟨List.mem_map.mp ((hmem _).mp hd'),hscores _⟩
  · rintro ⟨hd,rfl⟩
    exact ⟨d,(hmem d).mpr (List.mem_map.mpr hd),rfl,hscores d⟩

omit [LinearOrder K] [IsStrictOrderedRing K] in
lemma accumulateSparse_reports (l : List (ℕ × K)) :
    ReportsTallies l (fun d => ((accumulateSparse l).find? d).getD 0)
    (accumulateSparse l).entries := by
  constructor
  · intro d
    simp only [accumulateSparse,find?_foldl_add]
    split_ifs with hd
    · rfl
    · exact (tally_of_not_mem hd).symm
  · exact OrdMap.keys_nodup _
  · intro d s
    rw [← OrdMap.find?_eq_some,accumulateSparse,find?_foldl_add]
    split_ifs with hd
    · simp only [hd,true_and,Option.some.injEq,eq_comm]
    · simp [hd]

variable (h : index.Settled docs) (hproper : index.params.Proper)

include h hproper in
/-- Nothing that is added is zero or less. -/
lemma Settled.contribution_pos (hidf : PositiveIdf idf) {t : Bytes} {p : Posting}
    (hp : p ∈ index.postingList t) : 0 < (contribution idf index t p).2 := by
  have hfraction := h.fraction_pos hproper hp
  have hlist := hidf _ _ (h.length_postingList t)
  have hquotient := div_pos hfraction.1 hfraction.2
  have hcast : (0 : K) < ((_ : ℚ) : K) := Rat.cast_pos.mpr hquotient
  exact mul_pos hlist hcast

include h hproper in
lemma Settled.contributions_below (hidf : PositiveIdf idf) (hd : index.denseLen ≠ [])
    (terms : List Bytes) : ∀ e ∈ terms.flatMap fun t => (index.postingList t).map
      (contribution idf index t), e.1 < index.denseLen.length ∧ 0 < e.2 := by
  intro e he
  obtain ⟨t,-,he⟩ := List.mem_flatMap.mp he
  obtain ⟨p,hp,rfl⟩ := List.mem_map.mp he
  exact ⟨h.doc_lt hd hp,h.contribution_pos hproper hidf hp⟩

include h hproper in
/-- A path that can be taken has the score of each document and reports those that match. -/
theorem Settled.path_spec (hidf : PositiveIdf idf) {path : Path}
    (hpath : path.Available index) (terms : List Bytes) :
    (∀ d, index.pathScore idf terms path d = index.scoreDoc idf terms d) ∧
    ((index.reported idf terms path).map Prod.fst).Nodup ∧
    ∀ d s, (d,s) ∈ index.reported idf terms path ↔
      Matches index.analysis.tokenize docs terms d ∧ s = index.scoreDoc idf terms d := by
  have hreports : ReportsTallies (terms.flatMap fun t => (index.postingList t).map
      (contribution idf index t)) (index.pathScore idf terms path)
      (index.reported idf terms path) := by
    unfold pathScore reported
    rw [h.contributions_eq hproper hpath]
    cases path with
    | precomputed => exact accumulate_reports (h.contributions_below hproper hidf hpath terms)
    | dense => exact accumulate_reports (h.contributions_below hproper hidf hpath terms)
    | sparse => exact accumulateSparse_reports _
  refine ⟨?_,hreports.nodup,?_⟩
  · intro d
    rw [hreports.score_eq,h.scoreDoc_eq]
  · intro d s
    rw [hreports.mem_iff,h.mem_contributions,h.scoreDoc_eq]

include h hproper in
/-- No more documents are reported than were added. -/
lemma Settled.length_reported (hidf : PositiveIdf idf) {path : Path}
    (hpath : path.Available index) (terms : List Bytes) :
    (index.reported idf terms path).length ≤ docs.length := by
  obtain ⟨-,hnodup,hmem⟩ := h.path_spec hproper hidf hpath terms
  have hsub : (index.reported idf terms path).map Prod.fst ⊆ docs.map Prod.fst := by
    intro d hd
    obtain ⟨e,he,rfl⟩ := List.mem_map.mp hd
    obtain ⟨⟨text,hin,-⟩,-⟩ := (hmem e.1 e.2).mp he
    exact List.mem_map_of_mem hin
  simpa using (List.subperm_of_subset hnodup hsub).length_le

include h hproper in
/-- Without terms or documents nothing is reported. -/
lemma Settled.reported_eq_nil (hidf : PositiveIdf idf) {path : Path}
    (hpath : path.Available index) {terms : List Bytes}
    (hempty : index.docLen.size = 0 ∨ terms = []) : index.reported idf terms path = [] := by
  have hmem := (h.path_spec hproper hidf hpath terms).2.2
  apply List.eq_nil_iff_forall_not_mem.mpr
  intro e he
  obtain ⟨⟨text,hin,t,ht,-⟩,-⟩ := (hmem e.1 e.2).mp he
  rcases hempty with hsize | rfl
  · have hlen := (h.length e.1 _).mpr ⟨text,hin,rfl⟩
    rw [OrdMap.size,List.length_eq_zero_iff] at hsize
    have hentry := OrdMap.find?_eq_some.mp hlen
    rw [hsize] at hentry
    cases hentry
  · cases ht

include h hproper in
/-- A search without terms or documents finds nothing in any case. -/
theorem Settled.ranked_eq (hidf : PositiveIdf idf) (query : Bytes) (k : ℕ) :
    index.ranked idf query k =
      ((index.reported idf (index.analysis.tokenize query)
        index.path).insertionSort fun a b => b.2 ≤ a.2).take k := by
  unfold ranked
  dsimp only
  split_ifs with hempty
  · rw [h.reported_eq_nil hproper hidf (available_path _) hempty]
    simp
  · rfl

end paths

end Bm25Index
end RagRuntime.Lexical
