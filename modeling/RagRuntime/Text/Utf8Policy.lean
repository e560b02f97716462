import RagRuntime.Text.Coverage

/-! What the chunker does with bytes that are not UTF-8. -/
namespace RagRuntime.Text
open RagRuntime.Base RagRuntime.Core

variable {opts : ChunkOptions}

/-- The options with another policy for invalid UTF-8. -/
def ChunkOptions.under (opts : ChunkOptions) (policy : InvalidUtf8Policy) : ChunkOptions :=
  {opts with policy := {opts.policy with invalidUtf8 := policy}}

section policy
variable (p : InvalidUtf8Policy)

lemma splitScan_under (text : Bytes) (start : ℕ) (context : Bytes) (pos : ℕ) (marks : SplitMarks) :
    splitScan text start context (opts.under p) pos marks =
      splitScan text start context opts pos marks := by
  induction pos, marks using splitScan.induct text start context opts with
  | case1 pos marks hlt stop piece hfull =>
    rw [splitScan.eq_def,splitScan.eq_def text start context opts,dif_pos hlt,dif_pos hlt]
    exact (if_pos hfull).trans (if_pos hfull).symm
  | case2 pos marks hlt stop piece hfull tail ih =>
    rw [splitScan.eq_def,splitScan.eq_def text start context opts,dif_pos hlt,dif_pos hlt]
    exact (if_neg hfull).trans (ih.trans (if_neg hfull).symm)
  | case3 pos marks hlt =>
    rw [splitScan.eq_def,splitScan.eq_def text start context opts,dif_neg hlt,dif_neg hlt]

lemma splitAt_under (text : Bytes) (start : ℕ) (context : Bytes) :
    splitAt text start context (opts.under p) = splitAt text start context opts := by
  unfold splitAt
  rw [splitScan_under]

lemma linePieces_under (line : Bytes) (start : ℕ) :
    linePieces line (opts.under p) start = linePieces line opts start := by
  induction start using linePieces.induct line opts with
  | case1 start hlt cut ih =>
    rw [linePieces.eq_def,linePieces.eq_def line opts,dif_pos hlt,dif_pos hlt,splitAt_under]
    exact congrArg (_ :: ·) ih
  | case2 start hlt =>
    rw [linePieces.eq_def,linePieces.eq_def line opts,dif_neg hlt,dif_neg hlt]

lemma spansFrom_under (lines : List Bytes) (n : ℕ) :
    spansFrom (opts.under p) lines n = spansFrom opts lines n := by
  induction lines generalizing n with
  | nil => rfl
  | cons line lines ih =>
    rw [spansFrom,spansFrom,ih,lineSpans,lineSpans,linePieces_under]

lemma overlapSpans_under (taken : List Span) :
    overlapSpans (opts.under p) taken = overlapSpans opts taken := by
  have hback : ∀ overlap back spans acc, overlapBack (opts.under p) overlap back spans acc =
      overlapBack opts overlap back spans acc := by
    intro overlap back spans
    induction spans generalizing back with
    | nil => intro acc; rfl
    | cons s spans ih =>
      intro acc
      rw [overlapBack,overlapBack,ih]
      rfl
  rw [overlapSpans,hback]
  rfl

lemma Turn.under {g g' : Gathered} {closed : Bool} (h : Turn (opts.under p) g g' closed) :
    Turn opts g g' closed := by
  cases h with
  | exhausted hpending => exact .exhausted hpending
  | full hlines => exact .full hlines
  | overfull hreads htext hover => exact .overfull ⟨hreads.1,hreads.2⟩ htext hover
  | split hreads htext hover hcut =>
    rw [Gathered.cut,splitAt_under] at hcut ⊢
    exact .split ⟨hreads.1,hreads.2⟩ htext hover hcut
  | alone hreads htext hover hcut =>
    rw [Gathered.cut,splitAt_under] at hcut
    exact .alone ⟨hreads.1,hreads.2⟩ htext hover hcut
  | fits hreads hfits => exact .fits ⟨hreads.1,hreads.2⟩ hfits

lemma run_under (g : Gathered) : g.run (opts.under p) = g.run opts := by
  induction hweight : weight g.pending using Nat.strong_induction_on generalizing g with
  | _ n ih =>
    obtain ⟨g',closed,hturn⟩ := exists_turn (opts.under p) g
    rw [hturn.run_eq,(hturn.under p).run_eq]
    cases closed with
    | true => rfl
    | false => exact ih _ (hweight ▸ hturn.weight_lt) g' rfl

lemma closings_under (headings : ℕ → Bytes) (spans : List Span) :
    closings (opts.under p) headings spans = closings opts headings spans := by
  fun_induction closings opts headings spans with
  | case1 => simp
  | case2 headings spans hspans g ih =>
    rw [closings,dif_neg hspans,run_under]
    change g::closings (opts.under p) g.headings (g.next (opts.under p)) = _
    rw [Gathered.next,overlapSpans_under]
    exact congrArg (g :: ·) ih

/-- The policy decides nothing but the normalised text. -/
lemma chunkDocument_under {q : InvalidUtf8Policy} (doc : ℕ) {input : Bytes}
    (h : normalizeInput (opts.under p) input = normalizeInput (opts.under q) input) :
    chunkDocument doc input (opts.under p) = chunkDocument doc input (opts.under q) := by
  have hspans : spansOf (opts.under p) input = spansOf (opts.under q) input := by
    unfold spansOf
    rw [h]
    cases normalizeInput (opts.under q) input with
    | none => rfl
    | some body =>
      dsimp only
      rw [bodySpans,bodySpans,spansFrom_under,spansFrom_under]
      rfl
  rw [chunkDocument_eq,chunkDocument_eq,hspans,closings_under,closings_under]

end policy

section normalize

lemma normalizeSourceText_append {a : Bytes} (h : carriageReturn ∉ a) (b : Bytes) :
    normalizeSourceText (a ++ b) = a ++ normalizeSourceText b := by
  induction a with
  | nil => rfl
  | cons c a ih =>
    have hc : c ≠ carriageReturn := fun heq => h (heq ▸ List.mem_cons_self)
    rw [List.cons_append,normalizeSourceText,if_pos hc,
      ih fun hmem => h (List.mem_cons_of_mem c hmem)]
    rfl

/-- A byte of ASCII is a sequence by itself. -/
lemma Spelled.ascii_tail {c : Byte} {rest : Bytes} (h : Spelled Sequence (c::rest))
    (hc : c.val < 128) : Spelled Sequence rest := by
  obtain ⟨tail,back,hhead,rfl,hback⟩ := h.head fun s hs => hs
  have hwidth : tail.length+1 = utf8Width c := hhead.1
  rw [utf8Width_eq,if_pos (by omega)] at hwidth
  rwa [List.length_eq_zero_iff.mp (show tail.length = 0 by omega)]

/-- The width of the first sequence is the one that `next_utf8` reads. -/
lemma Spelled.head_width {c : Byte} {rest : Bytes} (h : Spelled Sequence (c::rest)) :
    ∃ tail back, Sequence (c::tail) ∧ rest = tail ++ back ∧ Spelled Sequence back ∧
      nextUtf8 (c::rest) 0 = tail.length+1 := by
  obtain ⟨tail,back,hhead,rfl,hback⟩ := h.head fun s hs => hs
  have hnext := nextUtf8_append hhead [] back
  rw [List.nil_append,List.length_nil,Nat.zero_add] at hnext
  exact ⟨tail,back,hhead,rfl,hback,hnext⟩

/-- Input without a malformed byte is changed only in its line endings. -/
lemma normalizeInput_spelled (input : Bytes) (h : Spelled Sequence input) :
    normalizeInput opts input = some (normalizeSourceText input) := by
  fun_induction normalizeInput opts input with
  | case1 => rfl
  | case2 rest ih =>
    have hrest := h.ascii_tail (by decide)
    rw [normalizeSourceText,if_neg (not_not.mpr rfl)]
    simp only [dite_eq_ite] at ih
    by_cases hnewline : rest.head? = some newline
    · obtain ⟨back,rfl⟩ : ∃ back, rest = newline::back := by
        cases rest with
        | nil => cases hnewline
        | cons d back => exact ⟨back,by rw [Option.some.inj hnewline]⟩
      rw [if_pos hnewline,List.tail_cons] at ih
      rw [if_pos hnewline,if_pos hnewline,List.tail_cons,ih (hrest.ascii_tail (by decide)),
        normalizeSourceText,if_pos (by decide)]
      rfl
    · rw [if_neg hnewline] at ih
      rw [if_neg hnewline,if_neg hnewline,ih hrest]
      rfl
  | case3 c rest hcr hascii ih =>
    rw [ih (h.ascii_tail hascii),normalizeSourceText,if_pos hcr]
    rfl
  | case4 c rest hcr hascii width hwidth | case5 c rest hcr hascii width hwidth =>
    obtain ⟨tail,back,hhead,rfl,-,hnext⟩ := h.head_width
    have htail : tail ≠ [] := hhead.2.2.resolve_left hascii
    have := List.length_pos_iff.mpr htail
    omega
  | case6 c rest hcr hascii width hwidth ih =>
    obtain ⟨tail,back,hhead,rfl,hback,hnext⟩ := h.head_width
    have hdrop : width-1 = tail.length := by omega
    rw [hdrop,List.drop_left] at ih
    rw [hdrop,List.drop_left,List.take_left,ih hback]
    have hno : carriageReturn ∉ c::tail := by
      intro hmem
      obtain rfl | hmem := List.mem_cons.mp hmem
      · exact hcr rfl
      · exact absurd (hhead.2.1 _ hmem) (by decide)
    have happend := normalizeSourceText_append hno back
    rw [List.cons_append] at happend
    rw [happend]
    rfl

/-- What is rejected has a malformed byte. -/
lemma spelled_of_reject (hreject : opts.policy.invalidUtf8 = .reject) (input body : Bytes)
    (h : normalizeInput opts input = some body) : Spelled Sequence input := by
  fun_induction normalizeInput opts input generalizing body with
  | case1 => exact .nil
  | case2 rest ih =>
    obtain ⟨body',hbody',-⟩ := Option.map_eq_some_iff.mp h
    have hih := ih body' hbody'
    have hcr : Spelled Sequence [carriageReturn] := .single (sequence_ascii (by decide))
    split_ifs at hih with hnewline
    · cases rest with
      | nil => cases hnewline
      | cons d back =>
        obtain rfl : d = newline := Option.some.inj hnewline
        exact (hcr.append (.single sequence_newline)).append hih
    · exact hcr.append hih
  | case3 c rest hcr hascii ih =>
    obtain ⟨body',hbody',-⟩ := Option.map_eq_some_iff.mp h
    exact (Spelled.single (sequence_ascii hascii)).append (ih body' hbody')
  | case4 => cases h
  | case5 c rest hcr hascii width hwidth hpolicy =>
    rw [hreject] at hpolicy
    cases hpolicy
  | case6 c rest hcr hascii width hwidth ih =>
    obtain ⟨body',hbody',-⟩ := Option.map_eq_some_iff.mp h
    have happend := (Spelled.single (sequence_nextUtf8 hwidth)).append (ih body' hbody')
    rwa [List.cons_append,List.take_append_drop] at happend

lemma exists_replaced (hreplace : opts.policy.invalidUtf8 = .replace) (input : Bytes) :
    ∃ body, normalizeInput opts input = some body := by
  fun_induction normalizeInput opts input with
  | case1 => exact ⟨[],rfl⟩
  | case4 c rest hcr hascii width hwidth hpolicy =>
    rw [hreplace] at hpolicy
    cases hpolicy
  | case2 _ ih | case3 _ _ _ _ ih | case5 _ _ _ _ _ _ _ ih | case6 _ _ _ _ _ _ ih =>
    obtain ⟨body,hbody⟩ := ih
    exact ⟨_,Option.map_eq_some_iff.mpr ⟨body,by simpa using hbody,rfl⟩⟩

/-- A sequence of more than one byte stays in the text. -/
lemma infix_normalizeInput {x : Bytes} (hx : Sequence x) (hlong : ∀ c ∈ x.head?, 128 ≤ c.val)
    (input body a b : Bytes) (h : normalizeInput opts input = some body)
    (hocc : input = a ++ (x ++ b)) : x <:+: body := by
  obtain ⟨lead,tail,rfl⟩ := List.exists_cons_of_ne_nil hx.ne_nil
  have hlead : 128 ≤ lead.val := hlong lead rfl
  fun_induction normalizeInput opts input generalizing body a with
  | case1 => simp at hocc
  | case2 rest ih =>
    obtain ⟨body',hbody',rfl⟩ := Option.map_eq_some_iff.mp h
    apply List.IsInfix.trans _ (List.suffix_cons _ _).isInfix
    simp only [dite_eq_ite] at ih
    cases a with
    | nil =>
      obtain rfl := (List.cons_eq_cons.mp hocc).1
      exact absurd hlead (by decide)
    | cons c a =>
      have hrest : rest = a ++ (lead::tail ++ b) := (List.cons_eq_cons.mp hocc).2
      by_cases hnewline : rest.head? = some newline
      · rw [if_pos hnewline] at ih hbody'
        cases a with
        | nil =>
          rw [hrest] at hnewline
          obtain rfl := Option.some.inj hnewline
          exact absurd hlead (by decide)
        | cons d a => exact ih body' a hbody' (by rw [hrest]; rfl)
      · rw [if_neg hnewline] at ih hbody'
        exact ih body' a hbody' hrest
  | case3 c rest hcr hascii ih =>
    obtain ⟨body',hbody',rfl⟩ := Option.map_eq_some_iff.mp h
    apply List.IsInfix.trans _ (List.suffix_cons _ _).isInfix
    cases a with
    | nil =>
      obtain rfl := (List.cons_eq_cons.mp hocc).1
      omega
    | cons d a => exact ih body' a hbody' (List.cons_eq_cons.mp hocc).2
  | case4 => cases h
  | case5 c rest hcr hascii width hwidth hpolicy ih =>
    obtain ⟨body',hbody',rfl⟩ := Option.map_eq_some_iff.mp h
    apply List.IsInfix.trans _ (List.suffix_append _ _).isInfix
    cases a with
    | nil =>
      obtain rfl : c = lead := (List.cons_eq_cons.mp hocc).1
      have hrest : rest = tail ++ b := (List.cons_eq_cons.mp hocc).2
      have hnext := nextUtf8_append hx [] b
      have htail := List.length_pos_iff.mpr (hx.2.2.resolve_left hascii)
      simp only [List.nil_append,List.length_nil,List.length_cons,List.cons_append,← hrest] at hnext
      omega
    | cons d a => exact ih body' a hbody' (List.cons_eq_cons.mp hocc).2
  | case6 c rest hcr hascii width hwidth ih =>
    obtain ⟨body',hbody',rfl⟩ := Option.map_eq_some_iff.mp h
    cases a with
    | nil =>
      obtain rfl : c = lead := (List.cons_eq_cons.mp hocc).1
      have hrest : rest = tail ++ b := (List.cons_eq_cons.mp hocc).2
      have hnext := nextUtf8_append hx [] b
      simp only [List.nil_append,List.length_nil,List.length_cons,List.cons_append,← hrest] at hnext
      have htake : width-1 = tail.length := by omega
      rw [htake,hrest,List.take_left]
      exact (List.prefix_append _ _).isInfix
    | cons d a =>
      apply List.IsInfix.trans _ (List.suffix_append _ _).isInfix
      have hrest : rest = a ++ (lead::tail ++ b) := (List.cons_eq_cons.mp hocc).2
      -- the lead byte of `x` does not lie in the sequence read here
      have hle : width-1 ≤ a.length := by
        by_contra hlt
        obtain ⟨k,hk⟩ : ∃ k, width-1-a.length = k+1 := ⟨width-1-a.length-1,by omega⟩
        have hmem : lead ∈ rest.take (width-1) := by
          rw [hrest,List.take_append,hk,List.cons_append,List.take_succ_cons]
          exact List.mem_append_right _ List.mem_cons_self
        have hcont := (sequence_nextUtf8 hwidth).2.1 lead hmem
        rw [hx.lead] at hcont
        cases hcont
      apply ih body' (a.drop (width-1)) hbody'
      rw [hrest,List.drop_append_of_le_length hle]

end normalize

section chunks
variable {P : Bytes → Prop}

lemma spelled_joined (hnewline : P [newline]) {spans : List Span}
    (h : ∀ s ∈ spans, Spelled P s.text) : Spelled P (joined spans) := by
  induction spans using List.reverseRecOn with
  | nil => exact .nil
  | append_singleton spans s ih =>
    rw [joined_concat,appendLine]
    have hs := h s (by simp)
    have hspans := ih fun t ht => h t (List.mem_append_left _ ht)
    split_ifs
    · exact hs
    · exact (hspans.append (.single hnewline)).append hs

lemma spelled_strip (hP : ∀ s, P s → Sequence s) {text : Bytes} (h : Spelled P text) :
    Spelled P (text.rdropWhile isSpace) := by
  have hsplit := List.rdropWhile_append_rtakeWhile (p := isSpace) (l := text)
  cases htail : text.rtakeWhile isSpace with
  | nil =>
    rw [htail,List.append_nil] at hsplit
    rwa [hsplit]
  | cons c rest =>
    have hspace : isSpace c := List.mem_rtakeWhile_imp (p := isSpace) (l := text) (by simp [htail])
    rw [htail] at hsplit
    rw [← hsplit] at h
    apply (h.cut hP ?_).1
    rw [← Bool.not_eq_true,continues_iff]
    simp only [isSpace,decide_eq_true_eq] at hspace
    obtain rfl | hspace := hspace
    · decide
    · omega

lemma spelled_trimmed (hP : ∀ s, P s → Sequence s) (hnewline : P [newline]) {g : Gathered}
    (htext : g.text = joined g.taken) (h : ∀ s ∈ g.taken, Spelled P s.text) :
    Spelled P g.trimmed := by
  rw [Gathered.trimmed,htext]
  exact spelled_strip hP (spelled_joined hnewline h)

lemma wellFormed_newline : WellFormed [newline] := wellFormed_ascii (by decide)

lemma wellFormed_replacement : WellFormed replacement := ⟨'\uFFFD',by decide +kernel⟩

/-- An ill-formed sequence that is read as a scalar: an overlong form, a surrogate or a value
above U+10FFFF. -/
def Misread (s : Bytes) : Prop := Sequence s ∧ ¬WellFormed s

/-- The input has a misread sequence. -/
def Misreads (input : Bytes) : Prop := ∃ s, s <:+: input ∧ Misread s

lemma Misread.lead {s : Bytes} (h : Misread s) : ∀ c ∈ s.head?, 128 ≤ c.val := by
  obtain ⟨hseq,hill⟩ := h
  intro c hc
  by_contra hascii
  rw [not_le] at hascii
  cases s with
  | nil => cases hc
  | cons d tail =>
    obtain rfl := Option.some.inj hc
    have hwidth : tail.length+1 = utf8Width d := hseq.1
    rw [utf8Width_eq,if_pos (by omega)] at hwidth
    obtain rfl := List.length_eq_zero_iff.mp (show tail.length = 0 by omega)
    exact hill (wellFormed_ascii hascii)

lemma Misread.visible {s : Bytes} (h : Misread s) : ¬∀ c ∈ s, isSpace c := by
  obtain ⟨c,tail,rfl⟩ := List.exists_cons_of_ne_nil h.1.ne_nil
  have hlead : 128 ≤ c.val := h.lead c rfl
  intro hall
  have hspace := hall c List.mem_cons_self
  simp only [isSpace,decide_eq_true_eq] at hspace
  obtain rfl | hspace := hspace
  · exact absurd hlead (by decide)
  · omega

/-- Without a misread sequence the chunks are UTF-8. -/
lemma validUtf8_chunks {input : Bytes} (h : ¬Misreads input) (doc : ℕ) :
    ∀ c ∈ chunkDocument doc input opts, ValidUtf8 c.text := by
  have hwell : ∀ s, WellFormed s → Sequence s := fun s hs => hs.sequence
  have hspans : ∀ s ∈ spansOf opts input, Spelled WellFormed s.text := by
    unfold spansOf
    cases hbody : normalizeInput opts input with
    | none => simp
    | some body =>
      have hspelled : Spelled WellFormed body := by
        apply spelled_normalizeInput wellFormed_newline wellFormed_replacement input body _ hbody
        intro s hs hin
        by_contra hill
        exact h ⟨s,hin,hs,hill⟩
      dsimp only
      split_ifs
      · simp
      · simp
      · exact spelled_bodySpans hwell hspelled
  rw [forall_chunk_iff (Q := fun c => ValidUtf8 c.text)]
  intro g g' hvisits hturn c hc
  have htrimmed : Spelled WellFormed g'.trimmed := by
    apply spelled_trimmed hwell wellFormed_newline (hturn.text_eq hvisits.text_eq)
    intro s hs
    exact hturn.spelled hwell (hvisits.spelled hwell hspans) s (List.mem_append_left _ hs)
  unfold Gathered.chunk? at hc
  dsimp only at hc
  split_ifs at hc
  · cases hc
  · cases hc
    exact validUtf8_iff_spelled.mpr htrimmed

/-- What a chunk holds of the body stands in its text. -/
lemma Holds.contained {a x b : Bytes} {c : Chunk} {place : List (ℕ × ℕ)}
    (h : Holds (a ++ (x ++ b)) c place a.length (a.length+x.length)) : x <:+: c.text := by
  obtain ⟨before,r,after,-,hlo,-,hpre⟩ := h
  apply List.IsInfix.trans _ hpre.isInfix
  have hslice : slice (a ++ (x ++ b)) (r.1,a.length+x.length) = a.drop r.1 ++ x := by
    have hlength : a.length+x.length-r.1 = (a.drop r.1 ++ x).length := by
      rw [List.length_append,List.length_drop]
      omega
    rw [slice,List.drop_append_of_le_length hlo,← List.append_assoc]
    dsimp only
    rw [hlength,List.take_left]
  rw [hslice,appendLine]
  split_ifs
  · exact (List.suffix_append _ _).isInfix
  · rw [← List.append_assoc]
    exact (List.suffix_append _ _).isInfix

/-- A misread sequence of the input gets into a chunk. -/
lemma exists_invalid_chunk {input : Bytes} (hreplace : opts.policy.invalidUtf8 = .replace)
    (hroom : Roomy opts) (h : Misreads input) (doc : ℕ) :
    ∃ c ∈ chunkDocument doc input opts, ¬ValidUtf8 c.text := by
  obtain ⟨x,⟨a,b,hocc⟩,hx⟩ := h
  obtain ⟨body,hbody⟩ := exists_replaced hreplace input
  obtain ⟨a',b',hocc'⟩ := infix_normalizeInput hx.1 hx.lead input body a b hbody
    (by rw [← hocc,List.append_assoc])
  rw [List.append_assoc] at hocc'
  subst hocc'
  obtain ⟨g,hg,c,hc,hholds⟩ := exists_holds hbody hroom hx.1 hx.visible rfl doc
  refine ⟨c,?_,?_⟩
  · rw [chunkDocument_eq]
    exact List.mem_filterMap.mpr ⟨g,hg,hc⟩
  · rw [validUtf8_iff_spelled]
    intro hvalid
    obtain ⟨u,v,huv⟩ := hholds.contained
    rw [← huv,List.append_assoc] at hvalid
    exact hx.2 (hvalid.occurs (fun s hs => hs.sequence) hx.1).2.1

end chunks

section cuts

/-- A cut at `pos` goes through a scalar of the text. -/
def CutsScalar (body : Bytes) (pos : ℕ) : Prop :=
  ∃ a ch b, body = a ++ (scalarBytes ch ++ b) ∧ a.length < pos ∧
    pos < a.length+(scalarBytes ch).length

lemma spelled_render {spans : List Span} (h : ∀ s ∈ spans, Spelled Sequence s.text) :
    Spelled Sequence (render spans) := by
  induction spans with
  | nil => exact .nil
  | cons s spans ih =>
    rw [render]
    refine ((h s List.mem_cons_self).append ?_).append
      (ih fun t ht => h t (List.mem_cons_of_mem _ ht))
    obtain hgap | hgap := gap_eq s spans
    · rw [hgap]
      exact .nil
    · rw [hgap]
      exact .single sequence_newline

/-- No cut before a spelled text goes through a scalar. -/
lemma not_cutsScalar {front back : Bytes} (h : Spelled Sequence back) :
    ¬CutsScalar (front ++ back) front.length := by
  rintro ⟨a,ch,b,heq,hlo,hhi⟩
  obtain ⟨w,rfl,-⟩ | ⟨w,rfl,hw⟩ := List.append_eq_append_iff.mp heq
  · rw [List.length_append] at hlo
    omega
  · rw [List.length_append] at hlo hhi
    have hseq := sequence_scalarBytes ch
    generalize scalarBytes ch = x at hw hhi hseq
    obtain ⟨w',rfl,-⟩ | ⟨x',rfl,rfl⟩ := List.append_eq_append_iff.mp hw
    · rw [List.length_append] at hhi
      omega
    · cases w with
      | nil => simp at hlo
      | cons c w =>
        cases x' with
        | nil => simp at hhi
        | cons d x' =>
          obtain ⟨tail,_,hhead,-⟩ := h.head fun s hs => hs
          have hcont := hseq.2.1 d (by simp)
          rw [hhead.lead] at hcont
          cases hcont

/-- The spans of a run meet nowhere within a scalar. -/
lemma no_cut {input body : Bytes} (hbody : normalizeInput opts input = some body) {g : Gathered}
    (hvisits : Visits opts (spansOf opts input) g) {pre post : List Span}
    (hspans : g.taken ++ g.pending = pre ++ post) :
    ∃ front, body = front ++ render post ∧ ¬CutsScalar body front.length := by
  have hlayout : Layout body (g.taken ++ g.pending) := hvisits.layout (spansOf_layout hbody)
  rw [hspans] at hlayout
  obtain ⟨front,hfront,-⟩ := hlayout.drop
  refine ⟨front,hfront,?_⟩
  rw [hfront]
  apply not_cutsScalar
  apply spelled_render
  intro s hs
  apply hvisits.spelled (fun s hs => hs) spelled_spansOf
  rw [hspans]
  exact List.mem_append_right _ hs

end cuts

/-- What the chunker promises for the bytes of a document: replaced, they give chunks of UTF-8;
rejected, they give chunks only if they are UTF-8; and UTF-8 is changed in its line endings only,
and nowhere cut within a scalar. -/
structure KeepsUtf8 (opts : ChunkOptions) (doc : ℕ) (input : Bytes) : Prop where
  replaced : ∀ c ∈ chunkDocument doc input (opts.under .replace), ValidUtf8 c.text
  rejected : ¬ValidUtf8 input → chunkDocument doc input (opts.under .reject) = []
  unchanged : ValidUtf8 input → ∀ p,
    normalizeInput (opts.under p) input = some (normalizeSourceText input)
  same : ValidUtf8 input →
    chunkDocument doc input (opts.under .reject) = chunkDocument doc input (opts.under .replace)
  uncut : ∀ p g, Visits (opts.under p) (spansOf (opts.under p) input) g → ∀ pre post,
    g.taken ++ g.pending = pre ++ post → ∀ body, normalizeInput (opts.under p) input = some body →
    ∃ front, body = front ++ render post ∧ ¬CutsScalar body front.length

lemma chunkDocument_crowded (h : ¬Roomy opts) (doc : ℕ) (input : Bytes) :
    chunkDocument doc input opts = [] := by
  unfold chunkDocument
  cases normalizeInput opts input with
  | none => rfl
  | some body =>
    obtain ⟨hpre,hcount⟩ := not_or.mp h
    dsimp only
    split_ifs with hbody hguard
    · rfl
    · rfl
    · exact absurd ⟨not_lt.mp hcount,hpre⟩ hguard

/-- The chunker keeps its promise exactly if the input has no sequence that it misreads, or if
the document prefix leaves no room for any chunk. -/
theorem keepsUtf8_iff (opts : ChunkOptions) (doc : ℕ) (input : Bytes) :
    KeepsUtf8 opts doc input ↔ ¬Misreads input ∨ ¬Roomy opts := by
  constructor
  · intro h
    by_contra hboth
    rw [not_or,not_not,not_not] at hboth
    have hroom : Roomy (opts.under .replace) := hboth.2
    obtain ⟨c,hc,hinvalid⟩ := exists_invalid_chunk rfl hroom hboth.1 doc
    exact hinvalid (h.replaced c hc)
  · intro h
    have hvalid : ValidUtf8 input → ∀ p,
        normalizeInput (opts.under p) input = some (normalizeSourceText input) := by
      intro hinput p
      apply normalizeInput_spelled
      exact (validUtf8_iff_spelled.mp hinput).imp fun s hs _ => hs.sequence
    refine ⟨?_,?_,hvalid,?_,fun p g hvisits pre post hspans body hbody =>
      no_cut hbody hvisits hspans⟩
    · obtain hclean | hcrowded := h
      · exact validUtf8_chunks hclean doc
      · have hfull : ¬Roomy (opts.under .replace) := hcrowded
        rw [chunkDocument_crowded hfull]
        simp
    · intro hinvalid
      obtain hclean | hcrowded := h
      · have hnone : normalizeInput (opts.under .reject) input = none := by
          by_contra hsome
          obtain ⟨body,hbody⟩ := Option.ne_none_iff_exists'.mp hsome
          apply hinvalid
          rw [validUtf8_iff_spelled]
          have hspelled : Spelled Sequence input := spelled_of_reject rfl input body hbody
          apply hspelled.imp
          intro s hs hin
          by_contra hill
          exact hclean ⟨s,hin,hs,hill⟩
        rw [chunkDocument,hnone]
      · have hfull : ¬Roomy (opts.under .reject) := hcrowded
        exact chunkDocument_crowded hfull doc input
    · intro hinput
      apply chunkDocument_under
      rw [hvalid hinput,hvalid hinput]

/-- The overlong form of the character 0. -/
def overlong : Bytes := [0xc0,0x80]

lemma misread_overlong : Misread overlong := by
  refine ⟨by decide +kernel,?_⟩
  rintro ⟨ch,hch⟩
  unfold scalarBytes String.utf8EncodeChar at hch
  generalize ch.val.toNat = v at hch
  have hvals := congrArg (List.map Fin.val) hch
  dsimp only at hvals
  split_ifs at hvals with h1 h2 h3
  · simp [overlong] at hvals
  · simp [overlong] at hvals
    omega
  · simp [overlong] at hvals
  · simp [overlong] at hvals

/-- The overlong form passes both policies. -/
theorem overlong_passes : ¬KeepsUtf8 {} 0 overlong := by
  intro h
  obtain ⟨c,hc,hinvalid⟩ : ∃ c ∈ chunkDocument 0 overlong (ChunkOptions.under {} .replace),
      ¬ValidUtf8 c.text :=
    exists_invalid_chunk rfl (Or.inl rfl) ⟨overlong,List.infix_refl _,misread_overlong⟩ 0
  exact hinvalid (h.replaced c hc)

end RagRuntime.Text
