import RagRuntime.Lexical.RankedTies
import RagRuntime.Text.TokenRuns

/-! What a lexical index finds after it was written and read back, for any options of its
tokenizer, which are not written. -/
namespace RagRuntime.Lexical
open RagRuntime.Base RagRuntime.Core RagRuntime.Store RagRuntime.Text Decoder

namespace Bm25Index

/-- Documents whose ids are different, and valid as ids, and whose texts can be counted. -/
structure Fits (docs : List (ℕ × Bytes)) : Prop where
  ids : (docs.map Prod.fst).Nodup
  valid : ∀ x ∈ docs, x.1 < uint32Max
  short : ∀ x ∈ docs, x.2.length ≤ uint32Max

lemma Fits.count {docs : List (ℕ × Bytes)} (h : Fits docs) : docs.length ≤ uint32Max := by
  have hsub : docs.map Prod.fst ⊆ List.range uint32Max := by
    intro d hd
    obtain ⟨x,hx,rfl⟩ := List.mem_map.mp hd
    exact List.mem_range.mpr (h.valid x hx)
  have hle := (List.subperm_of_subset h.ids hsub).length_le
  rwa [List.length_map,List.length_range] at hle

section entered

variable {analysis : Analysis} {params : Bm25Params} {docs : List (ℕ × Bytes)}

lemma totalLen_entered : (entered analysis params docs).totalLen =
    (docs.map fun x => (analysis.tokenize x.2).length).sum := by
  induction docs using List.reverseRecOn with
  | nil => rfl
  | append_singleton docs x ih => simp [entered_snoc,totalLen_add,ih]

/-- A term is kept as long as some document has it. -/
lemma isSome_postings_entered {t : Bytes} :
    ((entered analysis params docs).postings.find? t).isSome = true ↔
      ∃ x ∈ docs, t ∈ analysis.tokenize x.2 := by
  induction docs using List.reverseRecOn with
  | nil => simp [entered,empty]
  | append_singleton docs x ih =>
    rw [entered_snoc,find?_postings_add,analysis_entered]
    split_ifs with ht
    · simp [ht]
    · simp only [List.mem_append,List.mem_singleton,ih]
      constructor
      · rintro ⟨y,hy,hin⟩
        exact ⟨y,.inl hy,hin⟩
      · rintro ⟨y,hy | rfl,hin⟩
        · exact ⟨y,hy,hin⟩
        · exact absurd hin ht

lemma size_postings_entered : (entered analysis params docs).postings.size =
    (vocabulary analysis.tokenize (docs.map Prod.snd)).card := by
  have hsame : (entered analysis params docs).postings.keys.toFinset =
      vocabulary analysis.tokenize (docs.map Prod.snd) := by
    ext t
    have hkey := OrdMap.mem_keys (m := (entered analysis params docs).postings) (k := t)
    rw [← Option.isSome_iff_exists,isSome_postings_entered] at hkey
    simp only [List.mem_toFinset,hkey,vocabulary,List.mem_flatMap,List.mem_map]
    constructor
    · rintro ⟨x,hx,ht⟩
      exact ⟨x.2,⟨x,hx,rfl⟩,ht⟩
    · rintro ⟨_,⟨x,hx,rfl⟩,ht⟩
      exact ⟨x,hx,ht⟩
  rw [← hsame,List.toFinset_card_of_nodup (OrdMap.keys_nodup _)]
  simp [OrdMap.keys,OrdMap.size]

end entered

/-- The parameters are in range, and numbers of the file format. -/
structure Bm25Params.Stored (params : Bm25Params) : Prop extends params.Proper where
  k1_float : Single.IsFloat params.k1
  b_float : Single.IsFloat params.b

section written

variable {opts : TokenizeOptions} {idf : ℕ → ℕ → ℚ} {params : Bm25Params}
  {docs : List (ℕ × Bytes)}

lemma Fits.tokens_lt (h : Fits docs) (opts : TokenizeOptions) {x : ℕ × Bytes} (hx : x ∈ docs) :
    (Tokenizer.tokenize opts x.2).length < 256^4 := by
  have hle := (Tokenizer.sound_tokenize opts x.2).2
  have := h.short x hx
  simp only [uint32Max] at this
  omega

lemma Fits.total_lt (h : Fits docs) :
    (entered ⟨Tokenizer.tokenize opts,idf⟩ params docs).totalLen < 256^8 := by
  rw [totalLen_entered]
  have hsum := List.sum_le_card_nsmul (docs.map fun x => (Tokenizer.tokenize opts x.2).length)
    (256^4-1) (by
      intro n hn
      obtain ⟨x,hx,rfl⟩ := List.mem_map.mp hn
      have := h.tokens_lt opts hx
      omega)
  have hcount := h.count
  simp only [uint32Max] at hcount
  rw [List.length_map,smul_eq_mul] at hsum
  have hprod := Nat.mul_le_mul_right (256^4-1) hcount
  dsimp only at hsum ⊢
  omega

/-- An index of not too many documents can be written. -/
theorem Fits.writable (h : Fits docs) (hparams : Bm25Params.Stored params)
    (hfew : docs.length ≤ kMaxChunks) :
    (entered ⟨Tokenizer.tokenize opts,idf⟩ params docs).Writable := by
  have hindexes := indexes_entered ⟨Tokenizer.tokenize opts,idf⟩ params h.ids
  set index := entered ⟨Tokenizer.tokenize opts,idf⟩ params docs with hindex
  have hanalysis : index.analysis.tokenize = Tokenizer.tokenize opts := by
    rw [hindex,analysis_entered]
  have hvalues : index.params = params := params_entered _ _ _
  have hsize := hindexes.size_docLen h.ids
  refine ⟨?_,?_,h.total_lt,hsize.trans_le hfew,?_,?_⟩
  · rw [hvalues]
    exact ⟨hparams.k1_float,hparams.k1_nonneg⟩
  · rw [hvalues]
    exact ⟨hparams.b_float,hparams.b_nonneg,hparams.b_le_one⟩
  · intro e he
    obtain ⟨text,hmem,hlen⟩ := (hindexes.length e.1 e.2).mp (OrdMap.find?_eq_some.mpr he)
    have hid := h.valid _ hmem
    have hshort := h.tokens_lt opts hmem
    simp only [uint32Max] at hid
    rw [hlen,hanalysis]
    exact ⟨by omega,hshort⟩
  · intro e he
    have hfound := OrdMap.find?_eq_some.mpr he
    have hplist : index.postingList e.1 = e.2 := by rw [postingList,hfound,Option.getD_some]
    obtain ⟨x,hx,ht⟩ := isSome_postings_entered.mp (by rw [hfound,Option.isSome_some])
    obtain ⟨hne,hlen,-⟩ := Tokenizer.runs_tokenize ht
    refine ⟨hne,?_,?_,?_,?_⟩
    · have := h.short x hx
      simp only [uint32Max] at this
      omega
    · rw [← hplist]
      have := hindexes.length_postingList e.1
      simp only [kMaxChunks,kMaxPostings] at hfew ⊢
      omega
    · rw [← hplist]
      exact hindexes.ascending e.1
    · intro p hp
      rw [← hplist] at hp
      obtain ⟨text,hmem,hin,htf⟩ := (hindexes.posting e.1 p).mp hp
      rw [hanalysis] at hin htf
      have hid := h.valid _ hmem
      have hshort := h.tokens_lt opts hmem
      have hle : (Tokenizer.tokenize opts text).count e.1 ≤ (Tokenizer.tokenize opts text).length :=
        List.count_le_length
      have hpos : 0 < (Tokenizer.tokenize opts text).count e.1 := List.count_pos_iff.mpr hin
      simp only [uint32Max] at hid
      dsimp only at hshort
      exact ⟨by omega,by omega,by omega⟩

end written

lemma Writable.finalize {index : Bm25Index} (h : index.Writable) : index.finalize.Writable :=
  ⟨h.k1,h.b,h.total,h.docCount,h.docs,h.terms⟩

/-- A count of documents over the limit is refused. -/
lemma readDocs_error {n : ℕ} (hmany : kMaxChunks < n) (hlt : n < 256^4) (rest : Bytes) :
    readDocs (leBytes 4 n ++ rest) = .error (corrupt "ndocs") := by
  have hnumber : number (corrupt "ndocs") 4 (leBytes 4 n ++ rest) = .ok (n,rest) :=
    reads_number (w := 4) hlt rest
  rw [readDocs,bind_apply,hnumber]
  simp only [Except.bind]
  rw [bind_apply,ensure,if_neg (Nat.not_le.mpr hmany)]
  rfl

/-- An index with too many documents is written, and not read back. -/
theorem Fits.deserialize_error {opts : TokenizeOptions} {idf : ℕ → ℕ → ℚ} {params : Bm25Params}
    {docs : List (ℕ × Bytes)} (h : Fits docs) (hparams : Bm25Params.Stored params)
    (hmany : kMaxChunks < docs.length) (order : HashOrder) (analysis : Analysis) :
    ∃ e, deserialize analysis ((entered ⟨Tokenizer.tokenize opts,idf⟩ params docs).serialize
      order) = .error e := by
  have hsize := (indexes_entered ⟨Tokenizer.tokenize opts,idf⟩ params h.ids).size_docLen h.ids
  have htotal : (entered ⟨Tokenizer.tokenize opts,idf⟩ params docs).totalLen < 256^8 := h.total_lt
  have hcount := h.count
  set index := entered ⟨Tokenizer.tokenize opts,idf⟩ params docs with hindex
  have hvalues : index.params = params := params_entered _ _ _
  -- the same index without documents and terms has the same front
  have hbare : Writable { index with docLen := ∅, postings := ∅ } := by
    refine ⟨?_,?_,htotal,Nat.zero_le _,fun e he => (List.not_mem_nil he).elim,
      fun e he => (List.not_mem_nil he).elim⟩
    · rw [hvalues]
      exact ⟨hparams.k1_float,hparams.k1_nonneg⟩
    · rw [hvalues]
      exact ⟨hparams.b_float,hparams.b_nonneg,hparams.b_le_one⟩
  set rest := encodeFrom putDoc 0 (order.docs index.docLen.entries) ++
    (leBytes 4 index.postings.size ++ encodeFrom putTerm 0 (order.terms index.postings.entries))
    with hrest
  have hserialize : serialize order index =
      (leBytes 4 kMagic ++ (leBytes 4 kVersion ++ (leBytes 4 (Single.bits index.params.k1) ++
        leBytes 4 (Single.bits index.params.b)))) ++
          (leBytes 8 index.totalLen ++ (leBytes 4 index.docLen.size ++ rest)) := by
    simp only [serialize,header,hrest,List.append_assoc]
  have hnumber : number (corrupt "total_len") 8
      (leBytes 8 index.totalLen ++ (leBytes 4 index.docLen.size ++ rest)) =
        .ok (index.totalLen,leBytes 4 index.docLen.size ++ rest) :=
    reads_number (w := 8) htotal _
  have hdocs := readDocs_error (n := index.docLen.size) (by omega) (by
    simp only [uint32Max] at hcount
    omega) rest
  refine ⟨corrupt "ndocs",?_⟩
  rw [deserialize,whole,hserialize,readIndex,bind_apply,readFront,bind_apply,
    reads_params hbare _]
  simp only [Except.bind]
  rw [bind_apply,hnumber]
  simp only [Except.bind]
  rw [bind_apply,hdocs]
  rfl

/-- Two searches find the same documents, with the same scores. -/
def SameScores (x y : Bm25Index) : Prop := ∀ query d s,
  (d,s) ∈ x.scored okapiIdf query x.path ↔ (d,s) ∈ y.scored okapiIdf query y.path

/-- A document is found by some terms, with this score. -/
def FoundBy (index : Bm25Index) (docs : List (ℕ × Bytes)) (terms : List Bytes) (d : ℕ) (s : ℝ) :
    Prop :=
  Matches index.analysis.tokenize docs terms d ∧ s = index.scoreDoc okapiIdf terms d

/-- The terms of all texts are counted in a query as they are with the default options. -/
def Carries (opts : TokenizeOptions) : Prop :=
  ∀ text : Bytes, text.length ≤ uint32Max → ∀ t ∈ Tokenizer.tokenize opts text, ∀ query,
    (Tokenizer.tokenize opts query).count t = (Tokenizer.tokenize {} query).count t

section searches

variable {index : Bm25Index} {docs : List (ℕ × Bytes)} (h : index.Settled docs)
  (hproper : index.params.Proper)
include h

/-- What a term adds to the score of a document. -/
lemma Settled.scoreDoc_sum (terms : List Bytes) (d : ℕ) : index.scoreDoc okapiIdf terms d =
    (terms.map fun t =>
      tally ((index.postingList t).map (contribution okapiIdf index t)) d).sum := by
  rw [h.scoreDoc_eq,tally_flatMap]

include hproper in
/-- What a search finds if the query is read by another tokenizer than the documents were. -/
theorem Settled.mem_scored (analysis : Analysis) (query : Bytes) (d : ℕ) (s : ℝ) :
    (d,s) ∈ ({ index with analysis := analysis } : Bm25Index).scored okapiIdf query index.path ↔
      index.FoundBy docs (analysis.tokenize query) d s := by
  have hpath := available_path index
  rw [FoundBy,← (h.path_spec hproper okapiIdf_pos hpath (analysis.tokenize query)).2.2]
  unfold scored
  dsimp only
  split_ifs with hempty
  · rw [h.reported_eq_nil hproper okapiIdf_pos hpath hempty]
  · rfl

include hproper in
lemma Settled.sameScores_iff (analysis : Analysis) :
    SameScores index { index with analysis := analysis } ↔ ∀ query d s,
      index.FoundBy docs (index.analysis.tokenize query) d s ↔
        index.FoundBy docs (analysis.tokenize query) d s := by
  apply forall_congr'
  intro query
  apply forall_congr'
  intro d
  apply forall_congr'
  intro s
  exact iff_congr (h.mem_scored hproper index.analysis query d s)
    (h.mem_scored hproper analysis query d s)

/-- Only how often the terms of the documents are in a query matters. -/
lemma Settled.foundBy_congr {terms terms' : List Bytes} (hcount : ∀ x ∈ docs,
    ∀ t ∈ index.analysis.tokenize x.2, terms.count t = terms'.count t) (d : ℕ) (s : ℝ) :
    index.FoundBy docs terms d s ↔ index.FoundBy docs terms' d s := by
  have hmatches : Matches index.analysis.tokenize docs terms d ↔
      Matches index.analysis.tokenize docs terms' d := by
    apply exists_congr
    intro text
    apply and_congr_right
    intro hmem
    apply exists_congr
    intro t
    apply and_congr_left
    intro ht
    rw [← List.count_pos_iff,hcount _ hmem t ht,List.count_pos_iff]
  have hscore : index.scoreDoc okapiIdf terms d = index.scoreDoc okapiIdf terms' d := by
    rw [h.scoreDoc_sum,h.scoreDoc_sum]
    apply sum_map_congr_count
    intro t ht
    by_contra hne
    apply ht
    have hnone : index.postingList t = [] := by
      apply List.eq_nil_iff_forall_not_mem.mpr
      intro p hp
      obtain ⟨text,hmem,hin,-⟩ := (h.posting t p).mp hp
      exact hne (hcount _ hmem t hin)
    rw [hnone,List.map_nil,tally_nil]
  rw [FoundBy,FoundBy,hmatches,hscore]

end searches

section single

/-- A document of one term, which is found with a multiple of what the term adds. -/
lemma foundBy_single {analysis : Analysis} {params : Bm25Params} (hproper : params.Proper)
    {w t : Bytes} (hw : analysis.tokenize w = [t]) : ∃ c : ℝ, 0 < c ∧ ∀ terms s,
      (entered analysis params [(0,w)]).finalize.FoundBy [(0,w)] terms 0 s ↔
        0 < terms.count t ∧ s = terms.count t • c := by
  have hsettled : (entered analysis params [(0,w)]).finalize.Settled [(0,w)] :=
    (indexes_entered analysis params (by simp)).settled
  have hanalysis : (entered analysis params [(0,w)]).finalize.analysis = analysis :=
    analysis_entered _ _ _
  have hvalues : (entered analysis params [(0,w)]).finalize.params.Proper := by
    rw [params_finalize,params_entered]
    exact hproper
  set index := (entered analysis params [(0,w)]).finalize
  have hposting : ∀ u p, p ∈ index.postingList u ↔ p = ⟨0,1⟩ ∧ u = t := by
    intro u p
    rw [hsettled.posting,hanalysis]
    constructor
    · rintro ⟨text,hmem,hin,htf⟩
      obtain ⟨hdoc,rfl⟩ := Prod.mk.inj (List.mem_singleton.mp hmem)
      rw [hw] at hin htf
      obtain rfl := List.mem_singleton.mp hin
      rw [List.count_singleton_self] at htf
      cases p
      simp only at hdoc htf
      exact ⟨by rw [hdoc,htf],rfl⟩
    · rintro ⟨rfl,rfl⟩
      exact ⟨w,List.mem_singleton.mpr rfl,by simp [hw],by simp [hw]⟩
  have hmem := (hposting t _).mpr ⟨rfl,rfl⟩
  have hscore : ∀ terms, index.scoreDoc okapiIdf terms 0 =
      terms.count t • (contribution okapiIdf index t ⟨0,1⟩).2 := by
    intro terms
    rw [hsettled.scoreDoc_sum,List.sum_map_eq_nsmul_single t]
    · have hkeys : (((index.postingList t).map (contribution okapiIdf index t)).map
          Prod.fst).Nodup := by
        rw [List.map_map]
        exact (hsettled.ascending t).nodup
      have htally : tally ((index.postingList t).map (contribution okapiIdf index t)) 0 =
          (contribution okapiIdf index t ⟨0,1⟩).2 :=
        tally_of_mem hkeys (List.mem_map_of_mem hmem)
      convert congrArg (terms.count t • ·) htally
    · intro u hne _
      have hnone : index.postingList u = [] :=
        List.eq_nil_iff_forall_not_mem.mpr fun p hp => hne ((hposting u p).mp hp).2
      rw [hnone,List.map_nil,tally_nil]
  refine ⟨(contribution okapiIdf index t ⟨0,1⟩).2,
    hsettled.contribution_pos hvalues okapiIdf_pos hmem,?_⟩
  intro terms s
  have hmatches : Matches index.analysis.tokenize [(0,w)] terms 0 ↔ 0 < terms.count t := by
    rw [List.count_pos_iff,hanalysis]
    constructor
    · rintro ⟨text,hin,u,hu,htoken⟩
      obtain ⟨-,rfl⟩ := Prod.mk.inj (List.mem_singleton.mp hin)
      rw [hw] at htoken
      rwa [← List.mem_singleton.mp htoken]
    · exact fun ht => ⟨w,List.mem_singleton.mpr rfl,t,ht,by simp [hw]⟩
  rw [FoundBy,hmatches,hscore]

/-- If such documents are found in the same way, the term is in both queries as often. -/
lemma count_eq_of_foundBy {analysis : Analysis} {params : Bm25Params} (hproper : params.Proper)
    {w t : Bytes} (hw : analysis.tokenize w = [t]) {terms terms' : List Bytes}
    (hsame : ∀ s, (entered analysis params [(0,w)]).finalize.FoundBy [(0,w)] terms 0 s ↔
      (entered analysis params [(0,w)]).finalize.FoundBy [(0,w)] terms' 0 s) :
    terms.count t = terms'.count t := by
  obtain ⟨c,hc,hfound⟩ := foundBy_single hproper hw
  have hiff : ∀ s, (0 < terms.count t ∧ s = terms.count t • c) ↔
      (0 < terms'.count t ∧ s = terms'.count t • c) := by
    intro s
    rw [← hfound,← hfound,hsame]
  rcases Nat.eq_zero_or_pos (terms.count t) with hzero | hpos
  · rcases Nat.eq_zero_or_pos (terms'.count t) with hzero' | hpos'
    · rw [hzero,hzero']
    · have := ((hiff _).mpr ⟨hpos',rfl⟩).1
      omega
  · have heq := ((hiff _).mp ⟨hpos,rfl⟩).2
    rw [nsmul_eq_mul,nsmul_eq_mul] at heq
    exact_mod_cast mul_right_cancel₀ hc.ne' heq

end single

/-- The counts that the reader accepts. -/
def Within (opts : TokenizeOptions) (docs : List (ℕ × Bytes)) : Prop :=
  docs.length ≤ kMaxChunks ∧
    (vocabulary (Tokenizer.tokenize opts) (docs.map Prod.snd)).card ≤ kMaxPostings

lemma Fits.sameScores_iff (opts : TokenizeOptions) (idf : ℕ → ℕ → ℚ) {params : Bm25Params}
    {docs : List (ℕ × Bytes)} (h : Fits docs) (hparams : Bm25Params.Stored params) :
    SameScores (entered ⟨Tokenizer.tokenize opts,idf⟩ params docs).finalize
      { (entered ⟨Tokenizer.tokenize opts,idf⟩ params docs).finalize with
        analysis := ⟨Tokenizer.tokenize {},idf⟩ } ↔ ∀ query d s,
      (entered ⟨Tokenizer.tokenize opts,idf⟩ params docs).finalize.FoundBy docs
        (Tokenizer.tokenize opts query) d s ↔
      (entered ⟨Tokenizer.tokenize opts,idf⟩ params docs).finalize.FoundBy docs
        (Tokenizer.tokenize {} query) d s := by
  have hsettled := (indexes_entered ⟨Tokenizer.tokenize opts,idf⟩ params h.ids).settled
  have hproper : (entered ⟨Tokenizer.tokenize opts,idf⟩ params docs).finalize.params.Proper := by
    rw [params_finalize,params_entered]
    exact hparams.toProper
  have hanalysis : (entered ⟨Tokenizer.tokenize opts,idf⟩ params docs).finalize.analysis =
      ⟨Tokenizer.tokenize opts,idf⟩ := analysis_entered _ _ _
  have hsame := hsettled.sameScores_iff hproper ⟨Tokenizer.tokenize {},idf⟩
  rwa [hanalysis] at hsame

/-- There are no more terms than bytes. -/
lemma card_vocabulary_le (opts : TokenizeOptions) (texts : List Bytes) :
    (vocabulary (Tokenizer.tokenize opts) texts).card ≤ (texts.map List.length).sum :=
  calc (vocabulary (Tokenizer.tokenize opts) texts).card
    _ ≤ (texts.flatMap (Tokenizer.tokenize opts)).length := List.toFinset_card_le _
    _ = (texts.map fun text => (Tokenizer.tokenize opts text).length).sum := List.length_flatMap
    _ ≤ (texts.map List.length).sum :=
        List.sum_le_sum fun text _ => (Tokenizer.sound_tokenize opts text).2

section reopened

variable (order : HashOrder) (idf : ℕ → ℕ → ℚ) (opts : TokenizeOptions) {params : Bm25Params}

/-- What is read back of a finalised index; the tokenizer is the default one. -/
def reopened (params : Bm25Params) (docs : List (ℕ × Bytes)) : Result Bm25Index :=
  deserialize ⟨Tokenizer.tokenize {},idf⟩
    ((entered ⟨Tokenizer.tokenize opts,idf⟩ params docs).finalize.serialize order)

variable (hparams : Bm25Params.Stored params) {docs : List (ℕ × Bytes)} (h : Fits docs)
include hparams h

lemma Fits.reopened_eq (hwithin : Within opts docs) : reopened order idf opts params docs =
    .ok { (entered ⟨Tokenizer.tokenize opts,idf⟩ params docs).finalize with
      analysis := ⟨Tokenizer.tokenize {},idf⟩ } :=
  deserialize_serialize order _ (h.writable hparams hwithin.1).finalize
    (by rw [postings_finalize,size_postings_entered]; exact hwithin.2)

/-- An index is read back just when it does not have too many documents or terms. -/
theorem Fits.reopened_iff : (∃ y, reopened order idf opts params docs = .ok y) ↔
    Within opts docs := by
  constructor
  · rintro ⟨y,hy⟩
    by_contra hout
    have herror : ∃ e, reopened order idf opts params docs = .error e := by
      by_cases hfew : docs.length ≤ kMaxChunks
      · have hmany : kMaxPostings < (entered ⟨Tokenizer.tokenize opts,idf⟩ params
            docs).postings.size := by
          rw [size_postings_entered]
          exact Nat.lt_of_not_le fun hle => hout ⟨hfew,hle⟩
        exact deserialize_serialize_error order _ (h.writable hparams hfew).finalize hmany
      · exact h.deserialize_error hparams (Nat.lt_of_not_le hfew) order _
    obtain ⟨e,he⟩ := herror
    rw [hy] at he
    cases he
  · exact fun hwithin => ⟨_,h.reopened_eq order idf opts hparams hwithin⟩

end reopened

/-- An index that is read back finds what it found. -/
def Preserved (order : HashOrder) (idf : ℕ → ℕ → ℚ) (opts : TokenizeOptions) (params : Bm25Params)
    (docs : List (ℕ × Bytes)) : Prop :=
  ∃ y, reopened order idf opts params docs = .ok y ∧
    SameScores (entered ⟨Tokenizer.tokenize opts,idf⟩ params docs).finalize y

/-- The maps are iterated in the order of their keys. -/
def inOrder : HashOrder := ⟨id,id,fun _ => .refl _,fun _ => .refl _⟩

lemma stored_default : Bm25Params.Stored {} :=
  ⟨⟨by norm_num,by norm_num,by norm_num⟩,isFloat_k1,isFloat_b⟩

def catAndEmpty : List (ℕ × Bytes) := [(0,latin "cat"),(7,[])]

lemma fits_catAndEmpty : Fits catAndEmpty :=
  ⟨by decide,by simp [catAndEmpty,uint32Max],by simp [catAndEmpty,latin,ascii,uint32Max]⟩

/-- An index that keeps stopwords, with a document that is one. -/
def am : List (ℕ × Bytes) := [(0,latin "am")]

end Bm25Index
end RagRuntime.Lexical
