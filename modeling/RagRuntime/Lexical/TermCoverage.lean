import RagRuntime.Base.MergeWalk
import RagRuntime.Lexical.Bm25Paths
import RagRuntime.Lexical.Bm25Upkeep

/-! How many terms of a query the documents of a list have, counted in one pass over each posting
list. -/
namespace RagRuntime.Lexical
open RagRuntime.Base RagRuntime.Core RagRuntime.Store Decoder

namespace Bm25Index

/-- The documents in ascending order, each with its place in the list. -/
def slots (docs : List ℕ) : List (ℕ × ℕ) :=
  docs.zipIdx.insertionSort fun a b => a.1 < b.1 ∨ a.1 = b.1 ∧ a.2 ≤ b.2

def distinctTerms (terms : List Bytes) : List Bytes :=
  unique (terms.insertionSort fun s t => s ≤ t)

def credit (out : List ℕ) (slot : ℕ × ℕ) : List ℕ := out.modify slot.2 (· + 1)

def coverTerm (index : Bm25Index) (docs : List ℕ) (out : List ℕ) (term : Bytes) : List ℕ :=
  match index.postings.find? term with
  | none => out
  | some plist => mergeWalk Posting.doc Prod.fst credit plist (slots docs) out

def termCoverage (index : Bm25Index) (terms : List Bytes) (docs : List ℕ) : List ℕ :=
  let out := List.replicate docs.length 0
  if docs = [] ∨ terms = [] then out
  else (distinctTerms terms).foldl (index.coverTerm docs) out

/-- A document has a posting of a term. -/
def Covers (index : Bm25Index) (d : ℕ) (term : Bytes) : Prop :=
  d ∈ (index.postingList term).map Posting.doc

instance (index : Bm25Index) (d : ℕ) : DecidablePred (index.Covers d) := fun term =>
  inferInstanceAs (Decidable (d ∈ (index.postingList term).map Posting.doc))

/-- The different terms that a document has, each looked up for itself. -/
def coverage (index : Bm25Index) (terms : List Bytes) (d : ℕ) : ℕ :=
  (terms.toFinset.filter (index.Covers d)).card

section ascending

/-- Every posting list is in the order of its documents. -/
def Ordered (postings : OrdMap Bytes (List Posting)) : Prop :=
  ∀ term plist, postings.find? term = some plist → AscendingDocs plist

lemma doc_mem_insertPosting {p q : Posting} {plist : List Posting}
    (h : q ∈ insertPosting p plist) : q.doc = p.doc ∨ q ∈ plist := by
  induction plist with
  | nil =>
    rw [insertPosting,List.mem_singleton] at h
    exact Or.inl (congrArg Posting.doc h)
  | cons a rest ih =>
    rw [insertPosting] at h
    split_ifs at h
    · rcases List.mem_cons.mp h with rfl | h
      · exact Or.inr List.mem_cons_self
      · exact (ih h).imp_right (List.mem_cons_of_mem _)
    · rcases List.mem_cons.mp h with rfl | h
      · exact Or.inl rfl
      · exact Or.inr (List.mem_cons_of_mem _ h)
    · rcases List.mem_cons.mp h with rfl | h
      · exact Or.inl rfl
      · exact Or.inr h

/-- Adding a posting keeps the order, whether the document is new to the list or not. -/
lemma AscendingDocs.insert_any {plist : List Posting} (h : AscendingDocs plist) (p : Posting) :
    AscendingDocs (Bm25Index.insertPosting p plist) := by
  induction plist with
  | nil => exact List.pairwise_singleton _ _
  | cons a rest ih =>
    obtain ⟨hhead,htail⟩ := List.pairwise_cons.mp h
    rw [Bm25Index.insertPosting]
    split_ifs with hlt heq
    · refine List.pairwise_cons.mpr ⟨?_,ih htail⟩
      intro q hq
      rcases doc_mem_insertPosting hq with hdoc | hq
      · exact hdoc ▸ hlt
      · exact hhead q hq
    · exact List.pairwise_cons.mpr ⟨fun q hq => heq ▸ hhead q hq,htail⟩
    · have hbelow : p.doc < a.doc := lt_of_le_of_ne (not_lt.mp hlt) (Ne.symm heq)
      refine List.pairwise_cons.mpr ⟨?_,h⟩
      intro q hq
      rcases List.mem_cons.mp hq with rfl | hq
      · exact hbelow
      · exact hbelow.trans (hhead q hq)

lemma Ordered.insert {postings : OrdMap Bytes (List Posting)} (h : Ordered postings)
    {plist : List Posting} (hplist : AscendingDocs plist) (term : Bytes) :
    Ordered (postings.insert term plist) := by
  intro t found hfound
  rw [OrdMap.find?_insert] at hfound
  split_ifs at hfound
  · rw [← Option.some.inj hfound]
    exact hplist
  · exact h t found hfound

lemma Ordered.add {index : Bm25Index} (h : Ordered index.postings) (id : ℕ) (text : Bytes) :
    Ordered (index.add id text).postings := by
  unfold Bm25Index.add
  dsimp only
  split_ifs
  · exact h
  · change Ordered ((countTerms (index.analysis.tokenize text)).entries.foldl _ index.postings)
    generalize (countTerms (index.analysis.tokenize text)).entries = entries
    generalize index.postings = postings at h
    induction entries generalizing postings with
    | nil => exact h
    | cons e entries ih =>
      refine ih _ (h.insert (AscendingDocs.insert_any ?_ _) _)
      cases hfind : postings.find? e.1 with
      | none => exact List.Pairwise.nil
      | some plist => exact h e.1 plist hfind

lemma yields_readPosting {plist : List Posting} (h : AscendingDocs plist) (i : ℕ) :
    Yields (readPosting i plist) AscendingDocs := by
  refine (yields_true _).bind fun doc _ => (yields_true _).bind fun tf _ =>
    (yields_ensure _ _).bind fun _ hnext => yields_pure ?_
  rcases List.eq_nil_or_concat plist with rfl | ⟨front,last,rfl⟩
  · exact List.pairwise_singleton _ _
  · rw [List.concat_eq_append] at h hnext ⊢
    have hlast : last.doc < doc := hnext.2 last (by simp)
    refine List.pairwise_append.mpr ⟨h,List.pairwise_singleton _ _,?_⟩
    intro p hp q hq
    rw [List.mem_singleton.mp hq]
    rcases List.mem_append.mp hp with hp | hp
    · exact ((List.pairwise_append.mp h).2.2 p hp last List.mem_cons_self).trans hlast
    · rw [List.mem_singleton.mp hp]
      exact hlast

lemma yields_readTerm {postings : OrdMap Bytes (List Posting)} (h : Ordered postings) (i : ℕ) :
    Yields (readTerm i postings) Ordered := by
  have hlist : ∀ np, Yields (repeatFrom readPosting np 0 []) AscendingDocs := fun np =>
    yields_repeatFrom (fun _ plist => AscendingDocs plist)
      (fun i plist hplist => yields_readPosting hplist i) List.Pairwise.nil
  refine (yields_true _).bind fun term _ => (yields_true _).bind fun _ _ =>
    (yields_true _).bind fun np _ => (yields_true _).bind fun _ _ => (yields_true _).bind fun _ _ =>
      (hlist np).bind fun plist hplist => (yields_true _).bind fun _ _ => ?_
  exact yields_pure (h.insert hplist term)

lemma yields_readIndex (analysis : Analysis) :
    Yields (readIndex analysis) fun index => Ordered index.postings := by
  have hempty : Ordered ∅ := fun term plist h => by rw [OrdMap.find?_empty] at h; cases h
  have hterms : Yields readTerms Ordered := by
    refine (yields_true _).bind fun n _ => (yields_true _).bind fun _ _ =>
      (yields_true _).bind fun _ _ => ?_
    exact yields_repeatFrom (fun _ postings => Ordered postings)
      (fun i postings hpostings => yields_readTerm hpostings i) hempty
  exact (yields_true _).bind fun front _ => hterms.bind fun postings h => yields_pure h

lemma Ordered.step {analysis : Analysis} {index next : Bm25Index} {call : Call}
    (h : Ordered index.postings) (hstep : index.step analysis call = some next) :
    Ordered next.postings := by
  cases call with
  | add id text =>
    cases hstep
    exact h.add id text
  | finalize =>
    cases hstep
    exact h
  | search query k =>
    cases hstep
    exact h
  | serialize =>
    cases hstep
    exact h
  | deserialize blob =>
    unfold Bm25Index.step at hstep
    cases hread : Bm25Index.deserialize analysis blob with
    | error e =>
      simp only [hread] at hstep
      cases hstep
      exact h
    | ok found =>
      simp only [hread] at hstep
      cases hstep
      unfold Bm25Index.deserialize at hread
      cases hwhole : (readIndex analysis).whole (corrupt "trailing bm25 data") blob with
      | error e =>
        rw [hwhole] at hread
        cases hread
      | ok front =>
        rw [hwhole] at hread
        cases hread
        have hfront : Ordered front.postings := (yields_readIndex analysis).whole hwhole
        exact hfront

/-- Whatever an index is put through, its postings stay in the order of their documents. -/
theorem ordered_of_run {analysis analysis' : Analysis} {params : Bm25Params} {calls : List Call}
    {next : Bm25Index}
    (hrun : Machine.run (step analysis') { empty analysis with params := params } calls =
      some next) : Ordered next.postings := by
  have hstart : Ordered ({ empty analysis with params := params } : Bm25Index).postings :=
    fun term plist h => by cases h
  exact Machine.run_invariant' (I := fun index => Ordered index.postings)
    (fun _ _ _ h hs => h.step hs) hstart hrun

end ascending

section walk

lemma getElem?_foldl_credit (l : List (ℕ × ℕ)) (out : List ℕ) (i : ℕ) :
    (l.foldl credit out)[i]? = out[i]?.map (· + (l.map Prod.snd).count i) := by
  induction l generalizing out with
  | nil => simp
  | cons slot l ih =>
    rw [List.foldl_cons,ih,credit,List.getElem?_modify,Option.map_eq_map,Option.map_map,
      List.map_cons,
      List.count_cons]
    congr 1
    funext n
    by_cases hslot : slot.2 = i
    · simp [hslot]
      omega
    · simp [hslot]

lemma slots_perm (docs : List ℕ) : (slots docs).Perm docs.zipIdx := List.perm_insertionSort _ _

lemma mem_slots {docs : List ℕ} {d i : ℕ} : (d,i) ∈ slots docs ↔ docs[i]? = some d := by
  rw [(slots_perm docs).mem_iff,List.mk_mem_zipIdx_iff_getElem?]

/-- Without repetitions the documents ascend. -/
lemma slots_ascending {docs : List ℕ} (h : docs.Nodup) :
    (slots docs).Pairwise fun a b => a.1 < b.1 := by
  let le : ℕ × ℕ → ℕ × ℕ → Prop := fun a b => a.1 < b.1 ∨ a.1 = b.1 ∧ a.2 ≤ b.2
  have : Std.Total le := ⟨fun a b => by simp only [le]; omega⟩
  have : IsTrans (ℕ × ℕ) le := ⟨fun a b c => by simp only [le]; omega⟩
  have hsorted : (slots docs).Pairwise le := List.pairwise_insertionSort le docs.zipIdx
  have hkeys : ((slots docs).map Prod.fst).Nodup := by
    rw [((slots_perm docs).map Prod.fst).nodup_iff,List.zipIdx_map_fst]
    exact h
  refine (hsorted.and (List.pairwise_map.mp hkeys)).imp ?_
  rintro a b ⟨hlt | ⟨heq,-⟩,hne⟩
  · exact hlt
  · exact absurd heq hne

/-- The walk over the postings of one term credits the documents that have it. -/
lemma coverTerm_map {index : Bm25Index} (ho : Ordered index.postings) {docs : List ℕ}
    (hdocs : docs.Nodup) (f : ℕ → ℕ) (term : Bytes) :
    index.coverTerm docs (docs.map f) term =
      docs.map fun d => f d + if index.Covers d term then 1 else 0 := by
  unfold coverTerm
  cases hfind : index.postings.find? term with
  | none => simp [Covers,postingList,hfind]
  | some plist =>
    have hcovers : ∀ d, index.Covers d term ↔ d ∈ plist.map Posting.doc := by
      simp [Covers,postingList,hfind]
    dsimp only
    rw [mergeWalk_eq credit (ho term plist hfind) (slots_ascending hdocs)]
    have hslots : (((slots docs).filter fun b => b.1 ∈ plist.map Posting.doc).map
        Prod.snd).Nodup := by
      refine List.Nodup.sublist (List.filter_sublist.map _) ?_
      rw [((slots_perm docs).map Prod.snd).nodup_iff,List.zipIdx_map_snd]
      exact List.nodup_range'
    apply List.ext_getElem?
    intro i
    rw [getElem?_foldl_credit,List.getElem?_map,List.getElem?_map]
    cases hd : docs[i]? with
    | none => rfl
    | some d =>
      have hcredited : i ∈ ((slots docs).filter fun b => b.1 ∈ plist.map Posting.doc).map
          Prod.snd ↔ index.Covers d term := by
        simp only [List.mem_map,List.mem_filter,Prod.exists,exists_eq_right,mem_slots,hd,
          Option.some.injEq,decide_eq_true_eq,exists_eq_left',hcovers]
      rw [hslots.count,Option.map_some,Option.map_some,Option.map_some]
      simp only [hcredited]

lemma foldl_coverTerm {index : Bm25Index} (ho : Ordered index.postings) {docs : List ℕ}
    (hdocs : docs.Nodup) (f : ℕ → ℕ) (terms : List Bytes) :
    terms.foldl (index.coverTerm docs) (docs.map f) =
      docs.map fun d => f d + terms.countP (index.Covers d) := by
  induction terms generalizing f with
  | nil => simp
  | cons term terms ih =>
    rw [List.foldl_cons,coverTerm_map ho hdocs,ih]
    apply List.map_congr_left
    intro d _
    rw [List.countP_cons]
    simp only [decide_eq_true_eq]
    omega

lemma mem_distinctTerms {terms : List Bytes} {t : Bytes} : t ∈ distinctTerms terms ↔ t ∈ terms := by
  rw [distinctTerms,mem_unique,List.mem_insertionSort]

lemma nodup_distinctTerms (terms : List Bytes) : (distinctTerms terms).Nodup :=
  (pairwise_unique (List.pairwise_insertionSort _ _)).imp fun h => h.ne

lemma countP_distinctTerms (index : Bm25Index) (terms : List Bytes) (d : ℕ) :
    (distinctTerms terms).countP (index.Covers d) = index.coverage terms d := by
  have hsame : (distinctTerms terms).toFinset = terms.toFinset := by
    ext t
    rw [List.mem_toFinset,List.mem_toFinset,mem_distinctTerms]
  rw [coverage,← hsame,List.countP_eq_length_filter,
    ← List.toFinset_card_of_nodup ((nodup_distinctTerms terms).filter _),List.toFinset_filter]
  simp only [decide_eq_true_eq]

end walk

/-- Whatever an index went through, the walks credit every document with the different terms that
it has. -/
theorem termCoverage_eq {analysis analysis' : Analysis} {params : Bm25Params} {calls : List Call}
    {index : Bm25Index}
    (hrun : Machine.run (step analysis') { empty analysis with params := params } calls =
      some index) (terms : List Bytes) {docs : List ℕ} (hdocs : docs.Nodup) :
    index.termCoverage terms docs = docs.map (index.coverage terms) := by
  have ho := ordered_of_run hrun
  unfold termCoverage
  split_ifs with hnone
  · rcases hnone with rfl | rfl
    · rfl
    · rw [← List.map_const']
      rfl
  · rw [← List.map_const',foldl_coverTerm ho hdocs]
    apply List.map_congr_left
    intro d _
    rw [Nat.zero_add,countP_distinctTerms]

/-- Documents come in any order, here with one that the index has never seen. -/
theorem shuffled_termCoverage : ∃ index,
    Machine.run (step wholeTerm) (empty wholeTerm) [.add 5 [97],.add 2 [97],.add 2 [98]] =
      some index ∧
    index.termCoverage [[98],[97],[98]] [5,7,2] =
      [5,7,2].map (index.coverage [[98],[97],[98]]) := by
  have hrun : Machine.run (step wholeTerm) { empty wholeTerm with params := {} }
      [.add 5 [97],.add 2 [97],.add 2 [98]] = some _ := rfl
  exact ⟨_,hrun,termCoverage_eq hrun _ (by decide)⟩

end Bm25Index
end RagRuntime.Lexical
