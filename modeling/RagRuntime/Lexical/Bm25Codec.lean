import RagRuntime.Base.MapCodec
import RagRuntime.Base.Single
import RagRuntime.Lexical.Bm25
import RagRuntime.Store.Format

/-! The binary form of a lexical index, and what of it is read back. -/
namespace RagRuntime.Lexical
open RagRuntime.Base RagRuntime.Core RagRuntime.Store Decoder

/-- The order in which the hash maps are iterated. -/
structure HashOrder where
  docs : List (ℕ × ℕ) → List (ℕ × ℕ)
  terms : List (Bytes × List Posting) → List (Bytes × List Posting)
  docs_perm : ∀ l, (docs l).Perm l
  terms_perm : ∀ l, (terms l).Perm l

def kMagic : ℕ := 0x314D4232
def kVersion : ℕ := 1
def kPostingBytes : ℕ := 8

namespace Bm25Index

def putDoc (_ : ℕ) (e : ℕ × ℕ) : Bytes := leBytes 4 e.1 ++ leBytes 4 e.2
def putPosting (_ : ℕ) (p : Posting) : Bytes := leBytes 4 p.doc ++ leBytes 4 p.tf

def putTerm (_ : ℕ) (e : Bytes × List Posting) : Bytes :=
  str e.1 ++ (leBytes 4 e.2.length ++ encodeFrom putPosting 0 e.2)

def header (index : Bm25Index) : Bytes :=
  leBytes 4 kMagic ++ (leBytes 4 kVersion ++ (leBytes 4 (Single.bits index.params.k1) ++
    (leBytes 4 (Single.bits index.params.b) ++ leBytes 8 index.totalLen)))

def serialize (order : HashOrder) (index : Bm25Index) : Bytes :=
  index.header ++ (leBytes 4 index.docLen.size ++
    (encodeFrom putDoc 0 (order.docs index.docLen.entries) ++
      (leBytes 4 index.postings.size ++
        encodeFrom putTerm 0 (order.terms index.postings.entries))))

def readFloat : Decoder Error ℚ := do
  let bits ← number (corrupt "params") 4
  match Single.ofBits bits with
  | some x => pure x
  | none => fun _ => .error (corrupt "params")

def readDoc (_ : ℕ) (docLen : OrdMap ℕ ℕ) : Decoder Error (OrdMap ℕ ℕ) := do
  let doc ← number (corrupt "doc_len") 4
  let len ← number (corrupt "doc_len") 4
  ensure (corrupt "duplicate doc length") (docLen.contains doc = false)
  pure (docLen.insert doc len)

def readPosting (_ : ℕ) (plist : List Posting) : Decoder Error (List Posting) := do
  let doc ← number (corrupt "posting") 4
  let tf ← number (corrupt "posting") 4
  ensure (corrupt "posting") (tf ≠ 0 ∧ ∀ p ∈ plist.getLast?, p.doc < doc)
  pure (plist ++ [⟨doc,tf⟩])

def readTerm (_ : ℕ) (postings : OrdMap Bytes (List Posting)) :
    Decoder Error (OrdMap Bytes (List Posting)) := do
  let term ← string (corrupt "term")
  ensure (corrupt "term") (term ≠ [])
  let np ← number (corrupt "term") 4
  ensure (corrupt "term") (np ≤ kMaxPostings)
  room (corrupt "term") np kPostingBytes
  let plist ← repeatFrom readPosting np 0 []
  ensure (corrupt "duplicate term") (postings.contains term = false)
  pure (postings.insert term plist)

def readParams : Decoder Error Bm25Params := do
  let magic ← number (corrupt "bad magic") 4
  ensure (corrupt "bad magic") (magic = kMagic)
  let version ← number (corrupt "bad version") 4
  ensure (corrupt "bad version") (version = kVersion)
  let k1 ← readFloat
  let b ← readFloat
  ensure (corrupt "params") (0 ≤ k1 ∧ 0 ≤ b ∧ b ≤ 1)
  pure ⟨k1,b⟩

def readDocs : Decoder Error (OrdMap ℕ ℕ) := do
  let ndocs ← number (corrupt "ndocs") 4
  ensure (corrupt "ndocs") (ndocs ≤ kMaxChunks)
  room (corrupt "ndocs") ndocs 8
  repeatFrom readDoc ndocs 0 ∅

def readTerms : Decoder Error (OrdMap Bytes (List Posting)) := do
  let nterms ← number (corrupt "nterms") 4
  ensure (corrupt "nterms") (nterms ≤ kMaxPostings)
  room (corrupt "nterms") nterms 8
  repeatFrom readTerm nterms 0 ∅

/-- An index before its postings. -/
def readFront (analysis : Analysis) : Decoder Error Bm25Index := do
  let params ← readParams
  let total ← number (corrupt "total_len") 8
  let docLen ← readDocs
  pure ⟨params,analysis,∅,docLen,total,0,[],∅,false⟩

def readIndex (analysis : Analysis) : Decoder Error Bm25Index := do
  let front ← readFront analysis
  let postings ← readTerms
  pure { front with postings := postings }

/-- The index of a blob has the default tokenizer. -/
def deserialize (analysis : Analysis) (blob : Bytes) : Result Bm25Index :=
  ((readIndex analysis).whole (corrupt "trailing bm25 data") blob).map finalize

/-- Postings that stand in ascending order of their documents and fit their fields. -/
structure WritablePostings (plist : List Posting) : Prop where
  count : plist.length ≤ kMaxPostings
  ascending : plist.Pairwise fun p q => p.doc < q.doc
  fits : ∀ p ∈ plist, p.doc < 256^4 ∧ p.tf < 256^4 ∧ p.tf ≠ 0

/-- What of an index fits its binary form. -/
structure Writable (index : Bm25Index) : Prop where
  k1 : Single.IsFloat index.params.k1 ∧ 0 ≤ index.params.k1
  b : Single.IsFloat index.params.b ∧ 0 ≤ index.params.b ∧ index.params.b ≤ 1
  total : index.totalLen < 256^8
  docCount : index.docLen.size ≤ kMaxChunks
  docs : ∀ e ∈ index.docLen.entries, e.1 < 256^4 ∧ e.2 < 256^4
  terms : ∀ e ∈ index.postings.entries, e.1 ≠ [] ∧ e.1.length < 256^4 ∧ WritablePostings e.2

section reads

lemma reads_float {x : ℚ} (h : Single.IsFloat x) :
    Reads readFloat (leBytes 4 (Single.bits x)) x := by
  obtain ⟨hback,hlt⟩ := Single.ofBits_bits h
  refine (reads_number (w := 4) hlt).last ?_
  rw [hback]
  exact .pure x

lemma reads_postings {plist : List Posting} (h : WritablePostings plist) :
    Reads (repeatFrom readPosting plist.length 0 []) (encodeFrom putPosting 0 plist) plist := by
  refine reads_repeatFrom putPosting id [] ?_
  intro pre p post hsplit
  obtain ⟨hdoc,htf,hne⟩ := h.fits p (by rw [← hsplit]; simp)
  have hlast : ∀ q ∈ (pre : List Posting).getLast?, q.doc < p.doc := by
    intro q hq
    have hasc := h.ascending
    rw [← hsplit,List.pairwise_append] at hasc
    exact hasc.2.2 q (List.mem_of_getLast? hq) p List.mem_cons_self
  exact (reads_number hdoc).bind ((reads_number htf).last ((reads_ensure ⟨hne,hlast⟩).after
    (.pure _)))

lemma length_putPosting (plist : List Posting) :
    kPostingBytes*plist.length ≤ (encodeFrom putPosting 0 plist).length :=
  encodeFrom_length_le (fun i p _ => by simp [putPosting,kPostingBytes]) 0

lemma reads_term {postings : OrdMap Bytes (List Posting)} {e : Bytes × List Posting} (i j : ℕ)
    (hne : e.1 ≠ []) (hlen : e.1.length < 256^4) (h : WritablePostings e.2)
    (hnew : postings.contains e.1 = false) :
    Reads (readTerm i postings) (putTerm j e) (postings.insert e.1 e.2) := by
  have hcount := h.count
  have hfits : e.2.length < 256^4 := by
    simp only [kMaxPostings] at hcount
    omega
  refine (reads_string hlen).bind ((reads_ensure hne).after ((reads_number hfits).bind
    ((reads_ensure hcount).after ?_)))
  exact reads_room (by decide) (length_putPosting e.2)
    ((reads_postings h).last ((reads_ensure hnew).after (.pure _)))

variable {index : Bm25Index} (order : HashOrder)

lemma reads_params (h : index.Writable) : Reads readParams (leBytes 4 kMagic ++
    (leBytes 4 kVersion ++ (leBytes 4 (Single.bits index.params.k1) ++
      leBytes 4 (Single.bits index.params.b)))) index.params := by
  have hmagic : kMagic < 256^4 := by decide
  have hversion : kVersion < 256^4 := by decide
  have hrange : 0 ≤ index.params.k1 ∧ 0 ≤ index.params.b ∧ index.params.b ≤ 1 := ⟨h.k1.2,h.b.2⟩
  exact (reads_number hmagic).bind ((reads_ensure rfl).after ((reads_number hversion).bind
    ((reads_ensure rfl).after ((reads_float h.k1.1).bind ((reads_float h.b.1).last
      ((reads_ensure hrange).after (.pure _)))))))

lemma reads_docs (h : index.Writable) : Reads readDocs (leBytes 4 index.docLen.size ++
    encodeFrom putDoc 0 (order.docs index.docLen.entries)) index.docLen := by
  have hperm := order.docs_perm index.docLen.entries
  have hcount := h.docCount
  have hlength : (order.docs index.docLen.entries).length = index.docLen.size := hperm.length_eq
  have hfits : index.docLen.size < 256^4 := by
    simp only [kMaxChunks] at hcount
    omega
  refine (reads_number hfits).bind ((reads_ensure hcount).after ?_)
  apply reads_room (by decide)
  · rw [← hlength]
    exact encodeFrom_length_le (fun i e _ => by simp [putDoc]) 0
  · apply reads_map hperm
    intro e he m i hnew
    obtain ⟨hdoc,hlen⟩ := h.docs e he
    exact (reads_number hdoc).bind ((reads_number hlen).last ((reads_ensure hnew).after (.pure _)))

lemma reads_front (analysis : Analysis) (h : index.Writable) : Reads (readFront analysis)
    (index.header ++ (leBytes 4 index.docLen.size ++
      encodeFrom putDoc 0 (order.docs index.docLen.entries)))
    ⟨index.params,analysis,∅,index.docLen,index.totalLen,0,[],∅,false⟩ := by
  have htotal : Reads (number (corrupt "total_len") 8) (leBytes 8 index.totalLen) index.totalLen :=
    reads_number (w := 8) h.total
  have hheader : index.header ++ (leBytes 4 index.docLen.size ++
      encodeFrom putDoc 0 (order.docs index.docLen.entries)) =
      (leBytes 4 kMagic ++ (leBytes 4 kVersion ++ (leBytes 4 (Single.bits index.params.k1) ++
        leBytes 4 (Single.bits index.params.b)))) ++ (leBytes 8 index.totalLen ++
          (leBytes 4 index.docLen.size ++
            encodeFrom putDoc 0 (order.docs index.docLen.entries))) := by
    simp only [header,List.append_assoc]
  rw [hheader]
  unfold readFront
  exact (reads_params h).bind (htotal.bind ((reads_docs order h).last (.pure _)))

/-- Some of the terms, read one after the other. -/
lemma reads_someTerms (h : index.Writable) (n : ℕ) :
    Reads (repeatFrom readTerm ((order.terms index.postings.entries).take n).length 0 ∅)
      (encodeFrom putTerm 0 ((order.terms index.postings.entries).take n))
      (((order.terms index.postings.entries).take n).foldl
        (fun (m : OrdMap Bytes (List Posting)) e => m.insert e.1 e.2) ∅) := by
  have hperm := order.terms_perm index.postings.entries
  have hnodup : ((order.terms index.postings.entries).map Prod.fst).Nodup :=
    (hperm.map Prod.fst).nodup_iff.mpr index.postings.keys_nodup
  apply reads_entries
  · exact hnodup.sublist ((List.take_sublist _ _).map _)
  · intro e he m i hnew
    obtain ⟨hne,hlen,hplist⟩ := h.terms e (hperm.mem_iff.mp (List.mem_of_mem_take he))
    exact reads_term i i hne hlen hplist hnew

lemma length_putTerms (terms : List (Bytes × List Posting)) :
    8*terms.length ≤ (encodeFrom putTerm 0 terms).length := by
  apply encodeFrom_length_le
  intro i e _
  simp only [putTerm,List.length_append,str_length,leBytes_length]
  omega

lemma reads_terms (h : index.Writable) (hcount : index.postings.size ≤ kMaxPostings) :
    Reads readTerms (leBytes 4 index.postings.size ++
      encodeFrom putTerm 0 (order.terms index.postings.entries)) index.postings := by
  have hperm := order.terms_perm index.postings.entries
  have hlength : (order.terms index.postings.entries).length = index.postings.size :=
    hperm.length_eq
  have hfits : index.postings.size < 256^4 := by
    simp only [kMaxPostings] at hcount
    omega
  refine (reads_number hfits).bind ((reads_ensure hcount).after ?_)
  apply reads_room (by decide)
  · rw [← hlength]
    exact length_putTerms _
  · have hterms := reads_someTerms order h index.postings.size
    rwa [← hlength,List.take_length,hlength,OrdMap.foldl_insert_entries hperm] at hterms

/-- What is written of an index whose terms are few enough is read back. -/
theorem deserialize_serialize (analysis : Analysis) (h : index.Writable)
    (hcount : index.postings.size ≤ kMaxPostings) :
    deserialize analysis (serialize order index) =
      .ok { index with analysis := analysis }.finalize := by
  have hserialize : serialize order index = (index.header ++ (leBytes 4 index.docLen.size ++
      encodeFrom putDoc 0 (order.docs index.docLen.entries))) ++ (leBytes 4 index.postings.size ++
        encodeFrom putTerm 0 (order.terms index.postings.entries)) := by
    simp only [serialize,List.append_assoc]
  have hread : Reads (readIndex analysis) (serialize order index)
      ⟨index.params,analysis,index.postings,index.docLen,index.totalLen,0,[],∅,false⟩ := by
    rw [hserialize]
    unfold readIndex
    apply Reads.bind (reads_front order analysis h)
    exact (reads_terms order h hcount).last (.pure _)
  rw [deserialize,hread.whole]
  rfl

/-- If there are too many terms, the reader stops at the count or before the last of them. -/
lemma readTerms_leaves_rest (h : index.Writable) (hmany : kMaxPostings < index.postings.size)
    {postings : OrdMap Bytes (List Posting)} {rest : Bytes}
    (hread : readTerms (leBytes 4 index.postings.size ++
      encodeFrom putTerm 0 (order.terms index.postings.entries)) = .ok (postings,rest)) :
    rest ≠ [] := by
  set terms := order.terms index.postings.entries
  have hlength : terms.length = index.postings.size :=
    (order.terms_perm index.postings.entries).length_eq
  have hnumber : number (corrupt "nterms") 4 (leBytes 4 index.postings.size ++
      encodeFrom putTerm 0 terms) =
        .ok (index.postings.size % 256^4,encodeFrom putTerm 0 terms) := by
    rw [number,takeNumber,if_neg (by simp),List.take_left' (leBytes_length _ _),
      List.drop_left' (leBytes_length _ _),leValue_leBytes]
  rw [readTerms,bind_apply,hnumber] at hread
  set n := index.postings.size % 256^4
  simp only [Except.bind] at hread
  rw [bind_apply] at hread
  unfold ensure at hread
  split_ifs at hread with hcount
  · simp only [Except.bind] at hread
    rw [bind_apply] at hread
    unfold room at hread
    split_ifs at hread
    · simp only [Except.bind] at hread
      have htake : (terms.take n).length = n := by
        rw [List.length_take]
        omega
      have hsplit : encodeFrom putTerm 0 terms = encodeFrom putTerm 0 (terms.take n) ++
          encodeFrom putTerm n (terms.drop n) := by
        conv_lhs => rw [← List.take_append_drop n terms]
        rw [encodeFrom_append,htake,Nat.zero_add]
      have hsome := reads_someTerms order h n (encodeFrom putTerm n (terms.drop n))
      rw [htake,← hsplit] at hsome
      rw [hsome] at hread
      cases hread
      have hleft : (terms.drop n).length ≠ 0 := by
        rw [List.length_drop]
        omega
      have hroom := @encodeFrom_length_le _ putTerm 8 (terms.drop n) (by
        intro i e _
        simp only [putTerm,List.length_append,str_length,leBytes_length]
        omega) n
      intro hnil
      rw [hnil,List.length_nil] at hroom
      omega
    · cases hread
  · cases hread

/-- An index with too many terms is written, and not read back. -/
theorem deserialize_serialize_error (analysis : Analysis) (h : index.Writable)
    (hmany : kMaxPostings < index.postings.size) :
    ∃ e, deserialize analysis (serialize order index) = .error e := by
  have hserialize : serialize order index = (index.header ++ (leBytes 4 index.docLen.size ++
      encodeFrom putDoc 0 (order.docs index.docLen.entries))) ++ (leBytes 4 index.postings.size ++
        encodeFrom putTerm 0 (order.terms index.postings.entries)) := by
    simp only [serialize,List.append_assoc]
  rw [deserialize,whole,hserialize,readIndex,bind_apply,reads_front order analysis h]
  simp only [Except.bind]
  rw [bind_apply]
  cases hterms : readTerms (leBytes 4 index.postings.size ++
      encodeFrom putTerm 0 (order.terms index.postings.entries)) with
  | error e => exact ⟨e,rfl⟩
  | ok found =>
    have hrest := readTerms_leaves_rest order h hmany hterms
    refine ⟨corrupt "trailing bm25 data",?_⟩
    simp only [Except.bind]
    change Except.map finalize (if found.2 = [] then _ else _) = _
    rw [if_neg hrest]
    rfl

end reads

end Bm25Index
end RagRuntime.Lexical
