import RagRuntime.Base.Folding
import RagRuntime.Index.IndexedCorpus
import RagRuntime.Text.Tokenizer

/-! The folding of adjacent chunks: of two hits of one document whose lines are close the
higher-ranked one stays. There is one for the candidates of a backend and one for the hits of a
corpus. -/
namespace RagRuntime.Retrieval
open RagRuntime.Base RagRuntime.Base.Folding RagRuntime.Core RagRuntime.Backend RagRuntime.Index
  RagRuntime.Lexical RagRuntime.Text

/-- The lines between two ranges. -/
def lineGap (aStart aEnd bStart bEnd : ℕ) : ℕ :=
  if bStart > aEnd then bStart - aEnd
  else if aStart > bEnd then aStart - bEnd
  else 0

section candidates

def foldsInto (maxGap : ℕ) (a b : StoredChunk) : Bool :=
  if a.document ≠ b.document ∨ a.revision ≠ b.revision then false
  else lineGap a.startLine a.endLine b.startLine b.endLine ≤ maxGap

variable (chunks : OrdMap Bytes StoredChunk) (maxGap : ℕ)

def placeOf (candidate : Candidate) : Option StoredChunk := chunks.find? candidate.chunk

def stitchPositions (candidates : CandidateList) : List ℕ :=
  surviving (nearAt (placeOf chunks) (foldsInto maxGap) candidates) candidates.length

/-- The first turn of the outer loop looks up every candidate, and throws at one that is not
there. -/
def stitch (candidates : CandidateList) : Option CandidateList :=
  if candidates.all fun candidate => (placeOf chunks candidate).isSome then
    some (pick candidates (stitchPositions chunks maxGap candidates))
  else none

end candidates

/-- What the stages of a pipeline pass on. -/
structure Context where
  query : Bytes
  candidates : List Hit
  k : ℕ
  corpus : Option IndexedCorpus
  filter : MetaFilter
  trace : List String

section hits

def chunkOf (corpus : IndexedCorpus) (hit : Hit) : Option Chunk := corpus.core.chunks[hit.chunk]?

def parentFoldsInto (maxGap : ℕ) (a b : Chunk) : Bool :=
  if b.doc ≠ a.doc then false
  else lineGap a.startLine a.endLine b.startLine b.endLine ≤ maxGap

/-- One turn of the outer loop. A hit without a chunk stays and folds nothing. -/
def parentTurn (near : ℕ → ℕ → Bool) (resolved : ℕ → Bool) (n : ℕ)
    (state : List Bool × List ℕ) (i : ℕ) : List Bool × List ℕ :=
  if state.1.getD i false then state
  else if resolved i = false then (state.1,state.2 ++ [i])
  else (dropNear near n i state.1,state.2 ++ [i])

variable (corpus : IndexedCorpus) (maxGap : ℕ)

def parentPositions (hits : List Hit) : List ℕ :=
  if hits.length < 2 then List.range hits.length
  else ((List.range hits.length).foldl
    (parentTurn (nearAt (chunkOf corpus) (parentFoldsInto maxGap) hits)
      (fun i => ((hits[i]?).bind (chunkOf corpus)).isSome) hits.length)
    (List.replicate hits.length false,[])).2

/-- The stage `parent_stitch`. -/
def parentStitch (maxGap : ℕ) (ctx : Context) : Context :=
  match ctx.corpus with
  | none => ctx
  | some corpus =>
    if ctx.candidates.length < 2 then ctx
    else
      let kept := pick ctx.candidates (parentPositions corpus maxGap ctx.candidates)
      let merged := ctx.candidates.length - kept.length
      { ctx with
        candidates := kept
        trace := if merged = 0 then ctx.trace
          else ctx.trace ++ ["stitch: merged " ++ toString merged ++ " adjacent"] }

end hits

section loops

variable {near : ℕ → ℕ → Bool} {resolved : ℕ → Bool} {n : ℕ}

lemma parentTurn_marked (h : ∀ i j, resolved i = false → near i j = false) {m : ℕ} (hm : m ≤ n) :
    Marked near n m ((List.range m).foldl (parentTurn near resolved n)
      (List.replicate n false,[])).1 ∧
    ((List.range m).foldl (parentTurn near resolved n) (List.replicate n false,[])).2 =
      kept near m := by
  induction m with
  | zero => exact ⟨marked_zero,rfl⟩
  | succ m ih =>
    obtain ⟨hmarked,hkept⟩ := ih (by omega)
    rw [List.range_succ,List.foldl_append,List.foldl_cons,List.foldl_nil]
    set state := (List.range m).foldl (parentTurn near resolved n) (List.replicate n false,[])
    have hhere := hmarked.here hm
    unfold parentTurn
    split_ifs with hdropped hresolved
    · rw [hdropped] at hhere
      exact ⟨hmarked.skip hm hdropped,by rw [kept,if_pos hhere.symm,hkept]⟩
    · have hclear : state.1.getD m false = false := by simpa using hdropped
      rw [hclear] at hhere
      refine ⟨⟨hmarked.length,?_⟩,by rw [kept,if_neg (by simp [← hhere]),hkept]⟩
      intro j hj
      rw [hmarked.marks j hj,kept,if_neg (by simp [← hhere])]
      simp [h m j hresolved]
    · have hclear : state.1.getD m false = false := by simpa using hdropped
      rw [hclear] at hhere
      exact ⟨hmarked.turn hm hclear,by rw [kept,if_neg (by simp [← hhere]),hkept]⟩

end loops

section positions

lemma stitchPositions_eq (chunks : OrdMap Bytes StoredChunk) (maxGap : ℕ)
    (candidates : CandidateList) : stitchPositions chunks maxGap candidates =
      kept (nearAt (placeOf chunks) (foldsInto maxGap) candidates) candidates.length :=
  surviving_eq_kept _

/-- The guard for short lists changes nothing. -/
lemma parentPositions_eq (corpus : IndexedCorpus) (maxGap : ℕ) (hits : List Hit) :
    parentPositions corpus maxGap hits =
      kept (nearAt (chunkOf corpus) (parentFoldsInto maxGap) hits) hits.length := by
  have hunresolved : ∀ i j, ((hits[i]?).bind (chunkOf corpus)).isSome = false →
      nearAt (chunkOf corpus) (parentFoldsInto maxGap) hits i j = false := by
    intro i j hnone
    rw [Option.isSome_eq_false_iff,Option.isNone_iff_eq_none] at hnone
    rw [nearAt,hnone]
  unfold parentPositions
  split_ifs with hshort
  · rw [kept_eq_range]
    intro i j hij hj
    omega
  · exact (parentTurn_marked hunresolved le_rfl).2

lemma candidates_parentStitch {ctx : Context} {corpus : IndexedCorpus}
    (h : ctx.corpus = some corpus) (maxGap : ℕ) : (parentStitch maxGap ctx).candidates =
      folded (chunkOf corpus) (parentFoldsInto maxGap) ctx.candidates := by
  unfold parentStitch
  rw [h,folded,← parentPositions_eq]
  dsimp only
  by_cases hshort : ctx.candidates.length < 2
  · rw [if_pos hshort,parentPositions,if_pos hshort,pick_range]
  · rw [if_neg hshort]

lemma corpus_parentStitch (maxGap : ℕ) (ctx : Context) :
    (parentStitch maxGap ctx).corpus = ctx.corpus := by
  unfold parentStitch
  cases hcorpus : ctx.corpus with
  | none => exact hcorpus
  | some corpus =>
    dsimp only
    by_cases hshort : ctx.candidates.length < 2
    · rw [if_pos hshort,hcorpus]
    · rw [if_neg hshort]

lemma stitch_eq {chunks : OrdMap Bytes StoredChunk} {candidates : CandidateList}
    (h : ∀ candidate ∈ candidates, (placeOf chunks candidate).isSome = true) (maxGap : ℕ) :
    stitch chunks maxGap candidates =
      some (folded (placeOf chunks) (foldsInto maxGap) candidates) := by
  rw [stitch,if_pos (List.all_eq_true.mpr h),stitchPositions_eq]
  rfl

end positions

/-- The places of candidates and of hits that stand for the same chunks. -/
structure Corresponds (chunks : OrdMap Bytes StoredChunk) (candidates : CandidateList)
    (corpus : IndexedCorpus) (hits : List Hit) (pairs : List (StoredChunk × Chunk)) : Prop where
  stored : candidates.map (placeOf chunks) = pairs.map fun p => some p.1
  resolved : hits.map (chunkOf corpus) = pairs.map fun p => some p.2
  lines : ∀ p ∈ pairs, p.1.startLine = p.2.startLine ∧ p.1.endLine = p.2.endLine
  documents : ∀ p ∈ pairs, ∀ q ∈ pairs,
    (p.1.document = q.1.document ∧ p.1.revision = q.1.revision) ↔ p.2.doc = q.2.doc

lemma bind_getElem? {α γ : Type*} {place : α → Option γ} {l : List α} {m : List γ}
    (h : l.map place = m.map some) (i : ℕ) : (l[i]?).bind place = m[i]? := by
  have hmap := congrArg (fun l => l[i]?) h
  simp only [List.getElem?_map] at hmap
  cases hl : l[i]? with
  | none =>
    rw [hl,Option.map_none] at hmap
    exact (Option.map_eq_none_iff.mp hmap.symm).symm
  | some a =>
    rw [hl,Option.map_some] at hmap
    cases hm : m[i]? with
    | none =>
      rw [hm] at hmap
      cases hmap
    | some c =>
      rw [hm,Option.map_some,Option.some.injEq] at hmap
      exact hmap

lemma Corresponds.positions {chunks : OrdMap Bytes StoredChunk} {candidates : CandidateList}
    {corpus : IndexedCorpus} {hits : List Hit} {pairs : List (StoredChunk × Chunk)}
    (h : Corresponds chunks candidates corpus hits pairs) (maxGap : ℕ) :
    stitchPositions chunks maxGap candidates = parentPositions corpus maxGap hits := by
  have hstored : candidates.map (placeOf chunks) = (pairs.map Prod.fst).map some := by
    rw [h.stored,List.map_map]
    rfl
  have hresolved : hits.map (chunkOf corpus) = (pairs.map Prod.snd).map some := by
    rw [h.resolved,List.map_map]
    rfl
  have hlength : candidates.length = hits.length := by
    have h1 := congrArg List.length h.stored
    have h2 := congrArg List.length h.resolved
    simp only [List.length_map] at h1 h2
    rw [h1,h2]
  rw [stitchPositions_eq,parentPositions_eq]
  apply kept_nearAt_congr hlength
  intro i j hij hj
  rw [nearAt,nearAt,bind_getElem? hstored,bind_getElem? hstored,bind_getElem? hresolved,
    bind_getElem? hresolved]
  simp only [List.getElem?_map]
  cases hp : pairs[i]? with
  | none => rfl
  | some p =>
    cases hq : pairs[j]? with
    | none => rfl
    | some q =>
      have hpin := List.mem_of_getElem? hp
      have hqin := List.mem_of_getElem? hq
      obtain ⟨hps,hpe⟩ := h.lines p hpin
      obtain ⟨hqs,hqe⟩ := h.lines q hqin
      have hdocs : (p.1.document ≠ q.1.document ∨ p.1.revision ≠ q.1.revision) ↔
          q.2.doc ≠ p.2.doc := by
        rw [ne_comm (a := q.2.doc),ne_eq p.2.doc,← h.documents p hpin q hqin]
        tauto
      simp only [Option.map_some,foldsInto,parentFoldsInto,hdocs,hps,hpe,hqs,hqe]

/-- What is said of a folded list: it has the hits at some positions, which are apart and fold the
others away. -/
structure StitchLaw {α γ : Type} (place : α → Option γ) (into : γ → γ → Bool) (l output : List α)
    (positions : List ℕ) : Prop where
  folds : Folds (nearAt place into l) l.length positions
  output_eq : output = pick l positions
  sublist : output.Sublist l

lemma stitchLaw_folded {α γ : Type} (place : α → Option γ) (into : γ → γ → Bool) (l : List α) :
    StitchLaw place into l (folded place into l) (kept (nearAt place into l) l.length) :=
  ⟨folds_kept _ _,rfl,folded_sublist l⟩

/-- For ranges whose lines are in order the gap has no direction. -/
lemma lineGap_comm {aStart aEnd bStart bEnd : ℕ} (ha : aStart ≤ aEnd) (hb : bStart ≤ bEnd) :
    lineGap aStart aEnd bStart bEnd = lineGap bStart bEnd aStart aEnd := by
  unfold lineGap
  split_ifs <;> omega

/-- Both foldings keep hits that are apart, fold away nothing but hits near a kept one before them,
change nothing when they are repeated, and keep the same positions of lists that correspond. -/
theorem stitch_law (maxGap : ℕ) :
    (∀ chunks candidates,
      (∀ candidate ∈ candidates, (placeOf chunks candidate).isSome = true) → ∃ output,
        stitch chunks maxGap candidates = some output ∧
        StitchLaw (placeOf chunks) (foldsInto maxGap) candidates output
          (stitchPositions chunks maxGap candidates) ∧
        stitch chunks maxGap output = some output) ∧
    (∀ ctx corpus, ctx.corpus = some corpus →
      StitchLaw (chunkOf corpus) (parentFoldsInto maxGap) ctx.candidates
        (parentStitch maxGap ctx).candidates (parentPositions corpus maxGap ctx.candidates) ∧
      (parentStitch maxGap (parentStitch maxGap ctx)).candidates =
        (parentStitch maxGap ctx).candidates) ∧
    (∀ chunks candidates corpus hits pairs, Corresponds chunks candidates corpus hits pairs →
      stitchPositions chunks maxGap candidates = parentPositions corpus maxGap hits) ∧
    ∀ aStart aEnd bStart bEnd, aStart ≤ aEnd → bStart ≤ bEnd →
      lineGap aStart aEnd bStart bEnd = lineGap bStart bEnd aStart aEnd := by
  refine ⟨?_,?_,fun _ _ _ _ _ h => h.positions maxGap,fun _ _ _ _ ha hb => lineGap_comm ha hb⟩
  · intro chunks candidates hresolved
    refine ⟨_,stitch_eq hresolved maxGap,?_,?_⟩
    · rw [stitchPositions_eq]
      exact stitchLaw_folded _ _ _
    · have hsub : folded (placeOf chunks) (foldsInto maxGap) candidates ⊆ candidates :=
        (folded_sublist candidates).subset
      rw [stitch_eq (fun candidate h => hresolved candidate (hsub h)),folded_folded]
  · intro ctx corpus hcorpus
    have hagain : (parentStitch maxGap ctx).corpus = some corpus := by
      rw [corpus_parentStitch,hcorpus]
    rw [candidates_parentStitch hagain,candidates_parentStitch hcorpus,parentPositions_eq]
    exact ⟨stitchLaw_folded _ _ _,folded_folded _⟩

section neighbours

/-- Two chunks of one document that follow each other, and one of another document. -/
def neighboured : List StoredChunk :=
  [⟨latin "a0",latin "a",1,0,[],latin "fox",[],∅,1,1,[1]⟩,
    ⟨latin "a1",latin "a",1,1,[],latin "fox",[],∅,2,2,[1]⟩,
    ⟨latin "b0",latin "b",1,0,[],latin "fox",[],∅,1,1,[1]⟩]

def neighbouredChunks : OrdMap Bytes StoredChunk :=
  neighboured.foldl (fun chunks stored => chunks.emplace stored.key stored) ∅

def neighbouredCandidates : CandidateList := neighboured.map fun stored => ⟨stored.key,1,.bm25⟩

/-- The same chunks in a corpus. -/
def shelf : IndexedCorpus :=
  let c := IndexedCorpus.start ⟨fun text => [text],fun _ _ => 1⟩ {} {} {} 3 32
  { c with
    core.docs := [⟨0,latin "a",[],[],∅⟩,⟨1,latin "b",[],[],∅⟩]
    core.chunks := [⟨0,0,latin "fox",[],1,1⟩,⟨1,0,latin "fox",[],2,2⟩,⟨2,1,latin "fox",[],1,1⟩]
    embeddings := [[1],[1],[1]] }

def shelved : List Hit := [⟨0,3⟩,⟨1,2⟩,⟨2,1⟩]

lemma shelved_corresponds :
    Corresponds neighbouredChunks neighbouredCandidates shelf shelved
      (neighboured.zip shelf.core.chunks) := by
  refine ⟨by decide +kernel,by decide +kernel,by decide +kernel,by decide +kernel⟩

/-- The neighbour is folded into the better hit of its document, on both sides. -/
theorem stitch_law_shelved :
    stitchPositions neighbouredChunks 1 neighbouredCandidates = [0,2] ∧
      stitchPositions neighbouredChunks 1 neighbouredCandidates = parentPositions shelf 1 shelved ∧
      (∃ output, stitch neighbouredChunks 1 neighbouredCandidates = some output ∧
        stitch neighbouredChunks 1 output = some output) ∧
      (parentStitch 1 ⟨latin "fox",shelved,2,some shelf,none,[]⟩).candidates = [⟨0,3⟩,⟨2,1⟩] ∧
      StitchLaw (chunkOf shelf) (parentFoldsInto 1) shelved [⟨0,3⟩,⟨2,1⟩] [0,2] := by
  obtain ⟨hstitch,hparent,hpositions,-⟩ := stitch_law 1
  have hstays : (parentStitch 1 ⟨latin "fox",shelved,2,some shelf,none,[]⟩).candidates =
      [⟨0,3⟩,⟨2,1⟩] := by decide +kernel
  have hkept : parentPositions shelf 1 shelved = [0,2] := by decide +kernel
  refine ⟨by decide +kernel,hpositions _ _ _ _ _ shelved_corresponds,?_,hstays,?_⟩
  · obtain ⟨output,houtput,-,hagain⟩ :=
      hstitch neighbouredChunks neighbouredCandidates (by decide +kernel)
    exact ⟨output,houtput,hagain⟩
  · have hlaw := (hparent ⟨latin "fox",shelved,2,some shelf,none,[]⟩ shelf rfl).1
    rwa [hstays,hkept] at hlaw

end neighbours

end RagRuntime.Retrieval
