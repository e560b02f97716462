import RagRuntime.Text.SourceText

/-! Chunks of spans that are taken whole: each begins with a span of its own, which tells it from
the others. -/
namespace RagRuntime.Text
open RagRuntime.Base RagRuntime.Core

/-- Every heading is that of one of the spans. -/
def HeadingsOf (spans : List Span) (headings : ℕ → Bytes) : Prop :=
  ∀ level, headings level = [] ∨
    ∃ s ∈ spans, headingLevel s.text = level ∧ headingText s.text = headings level

/-- No context, or one that headings of the spans can make. -/
def ContextOf (opts : ChunkOptions) (spans : List Span) (context : Bytes) : Prop :=
  context = [] ∨ opts.headingContext = true ∧
    ∃ headings, HeadingsOf spans headings ∧ context = breadcrumb headings

/-- Under every context that headings of the spans can make, each of them fits into a chunk, or
cannot be cut any shorter. -/
def TakenWhole (opts : ChunkOptions) (spans : List Span) : Prop :=
  ∀ s ∈ spans, ∀ context, ContextOf opts spans context →
    count (embeddingForm context s.text opts) opts ≤ usableLimit opts ∨
      s.text.length ≤ splitAt s.text 0 context opts

/-- Two spans are on different lines, or differ in more than white space at their ends. -/
def Apart (s s' : Span) : Prop :=
  s.line = s'.line → s.text.rdropWhile isSpace ≠ s'.text.rdropWhile isSpace

instance (s s' : Span) : Decidable (Apart s s') := by
  unfold Apart
  infer_instance

variable {opts : ChunkOptions} {all spans : List Span} {headings : ℕ → Bytes} {doc : ℕ}

lemma HeadingsOf.update (h : HeadingsOf all headings) {span : Span} (hspan : span ∈ all) :
    HeadingsOf all (updateHeadings opts headings span.text) := by
  intro level
  unfold updateHeadings
  split_ifs with hnone
  · exact h level
  · dsimp only
    split_ifs with hlevel hdeeper
    · exact .inr ⟨span,hspan,hlevel.symm,rfl⟩
    · exact .inl rfl
    · exact h level

lemma ContextOf.update {context : Bytes} (h : ContextOf opts all context)
    (hheadings : HeadingsOf all headings) :
    ContextOf opts all (updateContext opts headings context) := by
  unfold updateContext
  split_ifs with hopen
  · exact .inr ⟨hopen.1,headings,hheadings,rfl⟩
  · exact h

/-- Spans without headings make no context. -/
lemma takenWhole_of_plain (hplain : ∀ s ∈ all, headingLevel s.text = 0)
    (hfits : ∀ s ∈ all, count (embeddingForm [] s.text opts) opts ≤ usableLimit opts ∨
      s.text.length ≤ splitAt s.text 0 [] opts) : TakenWhole opts all := by
  have hnone : ∀ context, ContextOf opts all context → context = [] := by
    rintro context (rfl | ⟨-,headings,hheadings,rfl⟩)
    · rfl
    · have hlevel : ∀ level ∈ [1,2,3,4,5,6], headings level = [] := by
        intro level hmem
        refine (hheadings level).resolve_right ?_
        rintro ⟨s,hs,rfl,-⟩
        rw [hplain s hs] at hmem
        exact absurd hmem (by decide)
      rw [breadcrumb,List.map_congr_left hlevel]
      rfl
  intro s hs context hcontext
  rw [hnone context hcontext]
  exact hfits s hs

/-- Nothing has been cut, and what stands over the chunk are headings of the spans. -/
structure Gathered.Whole (g : Gathered) (opts : ChunkOptions) (all spans : List Span) : Prop where
  spans : g.taken ++ g.pending = spans
  headings : HeadingsOf all g.headings
  context : ContextOf opts all g.context

lemma Gathered.Whole.scan {g : Gathered} (h : g.Whole opts all spans) {span : Span}
    (hspan : span ∈ all) : HeadingsOf all (g.scan opts span).headings ∧
      ContextOf opts all (g.scan opts span).context :=
  ⟨h.headings.update hspan,h.context.update (h.headings.update hspan)⟩

lemma Turn.whole {g g' : Gathered} {closed : Bool} (hturn : Turn opts g g' closed)
    (hwhole : TakenWhole opts all) (hsub : spans ⊆ all) (h : g.Whole opts all spans) :
    g'.Whole opts all spans := by
  have hread : ∀ span rest, g.Reads opts span rest → span ∈ all := by
    intro span rest hreads
    apply hsub
    rw [← h.spans,hreads.pending]
    exact List.mem_append_right _ List.mem_cons_self
  cases hturn with
  | exhausted | full => exact h
  | @overfull span rest hreads =>
    obtain ⟨hheadings,hcontext⟩ := h.scan (hread span rest hreads)
    exact ⟨h.spans,hheadings,hcontext⟩
  | @split span rest hreads htext hover hcut =>
    -- with no text before it the span would have to fit
    obtain ⟨-,hcontext⟩ := h.scan (hread span rest hreads)
    have htokens : g.tokens opts span =
        count (embeddingForm (g.scan opts span).context span.text opts) opts := by
      rw [Gathered.tokens,htext,appendLine,if_pos rfl]
    obtain hfits | hshort := hwhole span (hread span rest hreads) _ hcontext
    · exact absurd (htokens ▸ hover) (not_lt.mpr hfits)
    · exact absurd hcut (not_lt.mpr hshort)
  | @alone span rest hreads =>
    obtain ⟨hheadings,-⟩ := h.scan (hread span rest hreads)
    refine ⟨?_,hheadings,.inl rfl⟩
    rw [← h.spans,hreads.pending,List.append_assoc]
    rfl
  | @fits span rest hreads =>
    obtain ⟨hheadings,hcontext⟩ := h.scan (hread span rest hreads)
    refine ⟨?_,hheadings,hcontext⟩
    rw [← h.spans,hreads.pending,List.append_assoc]
    rfl

/-- The chunk that begins with the first span. -/
lemma whole_run (hwhole : TakenWhole opts all) (hsub : spans ⊆ all)
    (hheadings : HeadingsOf all headings) :
    ((Gathered.start headings spans).run opts).Whole opts all spans :=
  run_induct (fun _ _ _ hturn h => hturn.whole hwhole hsub h) _ ⟨rfl,hheadings,.inl rfl⟩

lemma run_taken_ne_nil (headings : ℕ → Bytes) (hne : spans ≠ []) :
    ((Gathered.start headings spans).run opts).taken ≠ [] :=
  gather_taken_ne_nil opts [] spans headings [] [] (.inr ⟨rfl,hne⟩)

lemma Gathered.Whole.head {g : Gathered} (h : g.Whole opts all spans) (htaken : g.taken ≠ []) :
    g.taken.head? = spans.head? := by
  rw [← h.spans,List.head?_append_of_ne_nil _ htaken]

/-- The next chunk begins behind the first span. -/
lemma Gathered.Whole.next_suffix {g : Gathered} (h : g.Whole opts all spans)
    (htaken : g.taken ≠ []) : g.next opts <:+ spans.tail := by
  unfold Gathered.next
  split_ifs
  · exact List.nil_suffix
  · obtain ⟨front,hfront⟩ := overlapSpans_suffix opts g.taken
    refine ⟨front,?_⟩
    rw [← List.append_assoc,hfront,← List.tail_append_of_ne_nil htaken,h.spans]

/-- The chunks begin with different spans, in order. -/
theorem closings_pairwise (hwhole : TakenWhole opts all) {R : Span → Span → Prop}
    (hsub : spans ⊆ all) (hheadings : HeadingsOf all headings) (hspans : spans.Pairwise R) :
    (∀ g ∈ closings opts headings spans, ∀ s ∈ g.taken.head?, s ∈ spans) ∧
      (closings opts headings spans).Pairwise fun g g' =>
        ∀ s ∈ g.taken.head?, ∀ s' ∈ g'.taken.head?, R s s' := by
  fun_induction closings opts headings spans with
  | case1 => exact ⟨fun g hg => absurd hg List.not_mem_nil,List.Pairwise.nil⟩
  | case2 headings spans hne g ih =>
    have hg : g.Whole opts all spans := whole_run hwhole hsub hheadings
    have htaken : g.taken ≠ [] := run_taken_ne_nil headings hne
    have hnext := hg.next_suffix htaken
    have htail := hnext.sublist.trans (List.tail_sublist spans)
    obtain ⟨hmem,hrest⟩ := ih (List.Subset.trans htail.subset hsub) hg.headings
      (hspans.sublist htail)
    have hhead := hg.head htaken
    refine ⟨?_,List.pairwise_cons.mpr ⟨?_,hrest⟩⟩
    · intro g' hg' s hs
      obtain rfl | hg' := List.mem_cons.mp hg'
      · rw [hhead] at hs
        exact List.mem_of_mem_head? hs
      · exact htail.subset (hmem g' hg' s hs)
    · intro g' hg' s hs s' hs'
      rw [hhead] at hs
      rw [← List.cons_head?_tail hs,List.pairwise_cons] at hspans
      exact hspans.1 s' (hnext.subset (hmem g' hg' s' hs'))

lemma length_closings_le (hwhole : TakenWhole opts all) (hsub : spans ⊆ all)
    (hheadings : HeadingsOf all headings) :
    (closings opts headings spans).length ≤ spans.length := by
  fun_induction closings opts headings spans with
  | case1 => exact le_rfl
  | case2 headings spans hne g ih =>
    have hg : g.Whole opts all spans := whole_run hwhole hsub hheadings
    have hnext := hg.next_suffix (run_taken_ne_nil headings hne)
    have htail := hnext.sublist.trans (List.tail_sublist spans)
    have hrest := ih (List.Subset.trans htail.subset hsub) hg.headings
    have hlength := hnext.length_le
    have hpos := List.length_pos_iff.mpr hne
    rw [List.length_tail] at hlength
    rw [List.length_cons]
    omega

section opening

/-- The first line of a text, without the white space at its end. -/
def opening (text : Bytes) : Bytes := (text.takeWhile (· ≠ newline)).rdropWhile isSpace

lemma takeWhile_line {line rest : Bytes} (h : newline ∉ line) :
    (line ++ newline::rest).takeWhile (· ≠ newline) = line := by
  rw [List.takeWhile_append_of_pos]
  · simp
  · exact fun _ hc => decide_eq_true fun heq => h (heq ▸ hc)

lemma takeWhile_self {line : Bytes} (h : newline ∉ line) :
    line.takeWhile (· ≠ newline) = line :=
  List.takeWhile_eq_self_iff.mpr fun _ hc => decide_eq_true fun heq => h (heq ▸ hc)

/-- A chunk opens with its first span, if that is not empty. -/
lemma opening_trimmed {g : Gathered} (htext : g.text = joined g.taken) {s : Span}
    (hhead : s ∈ g.taken.head?) (hs : s.text ≠ []) (hline : newline ∉ s.text) :
    opening g.trimmed = s.text.rdropWhile isSpace := by
  obtain ⟨rest,htaken⟩ : ∃ rest, g.taken = s::rest := ⟨_,(List.cons_head?_tail hhead).symm⟩
  have hlead : lead g.taken = s::rest := by
    rw [htaken,lead,List.dropWhile_cons_of_neg (by simpa using hs)]
  have hstripped : opening (s.text.rdropWhile isSpace) = s.text.rdropWhile isSpace := by
    rw [opening,takeWhile_self fun hmem => hline ((trim_start _).subset hmem),
      List.rdropWhile_idempotent]
  rw [Gathered.trimmed,htext,(joined_cons hlead).1]
  cases rest with
  | nil => rwa [tailText,List.flatMap_nil,List.append_nil]
  | cons t rest =>
    by_cases hwhite : ∀ x ∈ t::rest, ∀ c ∈ x.text, isSpace c
    · rwa [strip_white hwhite]
    · rw [strip_visible hwhite,opening,takeWhile_line hline]

end opening

/-- Spans of one line are pieces of it, none of them empty. -/
lemma spansFrom_pieces (opts : ChunkOptions) {lines : List Bytes} {n : ℕ}
    (h : n + lines.length ≤ 2^32) : (spansFrom opts lines n).Pairwise fun s s' =>
      s.line = s'.line → s.text ≠ [] ∧ s'.text ≠ [] := by
  induction lines generalizing n with
  | nil => exact List.Pairwise.nil
  | cons line lines ih =>
    rw [List.length_cons] at h
    have hlater : ∀ s ∈ spansFrom opts lines (n+1), n+1 ≤ s.line :=
      (ordered_spansFrom (by omega)).2
    refine List.pairwise_append.mpr ⟨?_,ih (by omega),?_⟩
    · unfold lineSpans
      split_ifs
      · exact List.pairwise_singleton _ _
      · apply List.pairwise_of_forall_mem_list
        intro s hs s' hs' _
        obtain ⟨piece,hpiece,rfl⟩ := List.mem_map.mp hs
        obtain ⟨piece',hpiece',rfl⟩ := List.mem_map.mp hs'
        exact ⟨linePieces_ne_nil opts line 0 _ hpiece,linePieces_ne_nil opts line 0 _ hpiece'⟩
    · intro s hs s' hs' hsame
      have hline := lineSpans_line s hs
      have hle := hlater s' hs'
      rw [Nat.mod_eq_of_lt (by omega)] at hline
      omega

/-- Every line gives a span. -/
lemma length_le_spansFrom (opts : ChunkOptions) (lines : List Bytes) (n : ℕ) :
    lines.length ≤ (spansFrom opts lines n).length := by
  induction lines generalizing n with
  | nil => exact le_rfl
  | cons line lines ih =>
    obtain ⟨p,ps,-,-,hspans⟩ := lineSpans_eq opts line (n % 2^32)
    have hrest := ih (n+1)
    rw [spansFrom,hspans]
    simp only [List.length_cons,List.length_append,List.length_map]
    omega

lemma mem_spansFrom (opts : ChunkOptions) {lines : List Bytes} {n : ℕ} {s : Span}
    (h : s ∈ spansFrom opts lines n) : ∃ line ∈ lines, s.text ⊆ line := by
  induction lines generalizing n with
  | nil => cases h
  | cons line lines ih =>
    obtain ⟨p,ps,hflat,-,hspans⟩ := lineSpans_eq opts line (n % 2^32)
    obtain hs | hs := List.mem_append.mp h
    · rw [hspans] at hs
      obtain ⟨piece,hpiece,rfl⟩ := List.mem_map.mp hs
      exact ⟨line,List.mem_cons_self,fun b hb => hflat ▸ List.mem_flatten_of_mem hpiece hb⟩
    · obtain ⟨line',hline',hsub⟩ := ih hs
      exact ⟨line',List.mem_cons_of_mem _ hline',hsub⟩

lemma spansOf_cases (opts : ChunkOptions) (input : Bytes) : spansOf opts input = [] ∨
    ∃ body, normalizeInput opts input = some body ∧ spansOf opts input = bodySpans opts body := by
  unfold spansOf
  cases normalizeInput opts input with
  | none => exact .inl rfl
  | some body =>
    dsimp only
    split_ifs
    · exact .inl rfl
    · exact .inl rfl
    · exact .inr ⟨body,rfl,rfl⟩

lemma newline_not_mem_span {input : Bytes} {s : Span} (hs : s ∈ spansOf opts input) :
    newline ∉ s.text := by
  obtain hnone | ⟨body,-,hbody⟩ := spansOf_cases opts input
  · rw [hnone] at hs
    cases hs
  · rw [hbody] at hs
    obtain ⟨line,hline,hsub⟩ := mem_spansFrom opts hs
    exact fun hmem => newline_not_mem_lines body line hline (hsub hmem)

lemma spansOf_pieces {input : Bytes} (hcount : (spansOf opts input).length ≤ uint32Max) :
    (spansOf opts input).Pairwise fun s s' =>
      s.line = s'.line → s.text ≠ [] ∧ s'.text ≠ [] := by
  obtain hnone | ⟨body,-,hbody⟩ := spansOf_cases opts input
  · rw [hnone]
    exact List.Pairwise.nil
  · rw [hbody] at hcount ⊢
    have hlines := length_le_spansFrom opts (body.splitOn newline) 0
    unfold bodySpans uint32Max at hcount
    exact spansFrom_pieces opts (by omega)

/-- Chunks that begin on one line begin with different text. -/
theorem chunkDocument_apart {input : Bytes} (hwhole : TakenWhole opts (spansOf opts input))
    (hapart : (spansOf opts input).Pairwise Apart)
    (hcount : (spansOf opts input).length ≤ uint32Max) :
    (chunkDocument doc input opts).Pairwise fun c c' =>
      c.startLine = c'.startLine → opening c.text ≠ opening c'.text := by
  have hheadings : HeadingsOf (spansOf opts input) fun _ => [] := fun _ => .inl rfl
  obtain ⟨hmem,hpairs⟩ := closings_pairwise hwhole (List.Subset.refl _) hheadings
    ((spansOf_pieces hcount).and hapart)
  rw [chunkDocument_eq,List.pairwise_filterMap]
  refine hpairs.imp_of_mem fun {g g'} hg hg' hheads c hc c' hc' hline => ?_
  have hopens : ∀ g ∈ closings opts (fun _ => []) (spansOf opts input), ∀ c,
      g.chunk? doc = some c → ∃ s ∈ g.taken.head?, c.startLine = s.line ∧
        (s.text ≠ [] → opening c.text = s.text.rdropWhile isSpace) := by
    intro g hg c hc
    have hne : spansOf opts input ≠ [] := by
      intro hnone
      rw [hnone,closings_nil] at hg
      cases hg
    obtain ⟨before,hvisits,hturn⟩ := (mem_closings_iff hne).mp hg
    have htext := hturn.text_eq hvisits.text_eq
    unfold Gathered.chunk? at hc
    dsimp only at hc
    split_ifs at hc with hblank
    cases hc
    cases htaken : g.taken with
    | nil =>
      rw [htext,htaken] at hblank
      exact absurd rfl hblank
    | cons s rest =>
      have hhead : s ∈ g.taken.head? := by rw [htaken]; rfl
      exact ⟨s,rfl,rfl,fun hs => opening_trimmed htext hhead hs
        (newline_not_mem_span (hmem g hg s hhead))⟩
  obtain ⟨s,hs,hstart,hopen⟩ := hopens g hg c hc
  obtain ⟨s',hs',hstart',hopen'⟩ := hopens g' hg' c' hc'
  have hsame : s.line = s'.line := by rw [← hstart,hline,hstart']
  obtain ⟨hpieces,hdiffer⟩ := hheads s hs s' hs'
  rw [hopen (hpieces hsame).1,hopen' (hpieces hsame).2]
  exact hdiffer hsame

/-- There are no more chunks than spans. -/
lemma length_chunkDocument_le {input : Bytes} (hwhole : TakenWhole opts (spansOf opts input)) :
    (chunkDocument doc input opts).length ≤ (spansOf opts input).length := by
  rw [chunkDocument_eq]
  exact (List.length_filterMap_le _ _).trans
    (length_closings_le hwhole (List.Subset.refl _) fun _ => .inl rfl)

/-- The lines of a chunk are in order, unless there are more spans than a counter can tell
apart. -/
lemma chunkDocument_lines_of_count {input : Bytes}
    (hcount : (spansOf opts input).length ≤ uint32Max) :
    ∀ c ∈ chunkDocument doc input opts, c.startLine ≤ c.endLine := by
  obtain hnone | ⟨body,hbody,hspans⟩ := spansOf_cases opts input
  · simp [chunkDocument_eq,hnone]
  · rw [hspans] at hcount
    have hlines := length_le_spansFrom opts (body.splitOn newline) 0
    unfold bodySpans uint32Max at hcount
    exact chunkDocument_lines hbody (by omega)

section returns

lemma carriageReturn_not_mem_normalizeInput {input body : Bytes}
    (h : normalizeInput opts input = some body) : carriageReturn ∉ body := by
  fun_induction normalizeInput opts input generalizing body with
  | case1 =>
    cases h
    exact List.not_mem_nil
  | case2 rest ih =>
    obtain ⟨body,hbody,rfl⟩ := Option.map_eq_some_iff.mp h
    exact List.not_mem_cons_of_ne_of_not_mem (by decide) (ih hbody)
  | case3 c rest hreturn hascii ih =>
    obtain ⟨body,hbody,rfl⟩ := Option.map_eq_some_iff.mp h
    exact List.not_mem_cons_of_ne_of_not_mem (Ne.symm hreturn) (ih hbody)
  | case4 c rest hreturn hascii hwidth => cases h
  | case5 c rest hreturn hascii width hwidth hreplace =>
    rename_i ih
    obtain ⟨body,hbody,rfl⟩ := Option.map_eq_some_iff.mp h
    exact List.not_mem_append (by decide) (ih hbody)
  | case6 c rest hreturn hascii width hwidth =>
    rename_i ih
    obtain ⟨body,hbody,rfl⟩ := Option.map_eq_some_iff.mp h
    have hcontinued : ∀ b ∈ rest.take (width-1), b.val &&& 0xc0 = 0x80 := by
      have heq : width = nextUtf8 (c::rest) 0 := rfl
      simp only [nextUtf8,List.drop_zero] at heq
      split_ifs at heq with hlong hall
      · exact absurd heq hwidth
      · rw [Nat.zero_add] at heq
        rw [heq]
        simpa using hall
      · exact absurd heq hwidth
    have hfront : carriageReturn ∉ c::rest.take (width-1) :=
      List.not_mem_cons_of_ne_of_not_mem (Ne.symm hreturn) fun hmem =>
        absurd (hcontinued _ hmem) (by decide)
    exact List.not_mem_append hfront (ih hbody)

lemma mem_joined {b : Byte} (h : b ∈ joined spans) : b = newline ∨ ∃ s ∈ spans, b ∈ s.text := by
  induction spans using List.reverseRecOn with
  | nil => cases h
  | append_singleton spans s ih =>
    rw [joined_concat,appendLine] at h
    split_ifs at h with hempty
    · exact .inr ⟨s,by simp,h⟩
    · rw [List.append_assoc,List.singleton_append] at h
      obtain h | h := List.mem_append.mp h
      · obtain rfl | ⟨t,ht,hb⟩ := ih h
        · exact .inl rfl
        · exact .inr ⟨t,List.mem_append_left _ ht,hb⟩
      · obtain rfl | h := List.mem_cons.mp h
        · exact .inl rfl
        · exact .inr ⟨s,by simp,h⟩

lemma mem_render {s : Span} {b : Byte} (hs : s ∈ spans) (hb : b ∈ s.text) : b ∈ render spans := by
  induction spans with
  | nil => cases hs
  | cons t spans ih =>
    rw [render]
    obtain rfl | hs := List.mem_cons.mp hs
    · exact List.mem_append_left _ (List.mem_append_left _ hb)
    · exact List.mem_append_right _ (ih hs)

/-- Carriage returns do not get into a chunk. -/
lemma carriageReturn_not_mem_chunk {input : Bytes} :
    ∀ c ∈ chunkDocument doc input opts, carriageReturn ∉ c.text := by
  cases hbody : normalizeInput opts input with
  | none => simp [chunkDocument,hbody]
  | some body =>
    rw [forall_chunk_iff (Q := fun c => carriageReturn ∉ c.text)]
    intro g g' hvisits hturn c hc hmem
    have htext := hturn.text_eq hvisits.text_eq
    obtain ⟨front,hfront,-⟩ := hturn.layout (hvisits.layout (spansOf_layout hbody))
    have hjoined : carriageReturn ∈ joined g'.taken := by
      unfold Gathered.chunk? at hc
      dsimp only at hc
      split_ifs at hc
      · cases hc
      · cases hc
        exact htext ▸ (trim_start g'.text).subset hmem
    obtain hnewline | ⟨s,hs,hb⟩ := mem_joined hjoined
    · exact absurd hnewline (by decide)
    · apply carriageReturn_not_mem_normalizeInput hbody
      rw [hfront]
      exact List.mem_append_right _ (mem_render (List.mem_append_left _ hs) hb)

end returns

section single

lemma Turn.length_taken_le {g g' : Gathered} {closed : Bool} (hturn : Turn opts g g' closed)
    (h : g.taken.length ≤ max 1 opts.maxLines) : g'.taken.length ≤ max 1 opts.maxLines := by
  cases hturn with
  | exhausted | full | overfull | split => exact h
  | alone hreads | fits hreads =>
    have hlines := hreads.lines
    rw [List.length_append,List.length_singleton]
    exact hlines

/-- A chunk of one line is one span. -/
lemma run_single (hlines : opts.maxLines ≤ 1) (hwhole : TakenWhole opts all) {s : Span}
    {rest : List Span} (hsub : s::rest ⊆ all) (hheadings : HeadingsOf all headings) :
    ((Gathered.start headings (s::rest)).run opts).taken = [s] ∧
      ((Gathered.start headings (s::rest)).run opts).pending = rest ∧
      ((Gathered.start headings (s::rest)).run opts).text = s.text := by
  have hg : ((Gathered.start headings (s::rest)).run opts).Whole opts all (s::rest) :=
    whole_run hwhole hsub hheadings
  have htaken : ((Gathered.start headings (s::rest)).run opts).taken ≠ [] :=
    run_taken_ne_nil headings (List.cons_ne_nil s rest)
  have hlength : ((Gathered.start headings (s::rest)).run opts).taken.length ≤
      max 1 opts.maxLines :=
    run_induct (Q := fun g => g.taken.length ≤ max 1 opts.maxLines)
      (fun _ _ _ hturn h => hturn.length_taken_le h) _ (Nat.zero_le _)
  have htext : ((Gathered.start headings (s::rest)).run opts).text =
      joined ((Gathered.start headings (s::rest)).run opts).taken :=
    run_induct (Q := fun g => g.text = joined g.taken)
      (fun _ _ _ hturn h => hturn.text_eq h) _ rfl
  generalize (Gathered.start headings (s::rest)).run opts = g at *
  obtain ⟨first,more,hcons⟩ := List.exists_cons_of_ne_nil htaken
  rw [hcons,List.length_cons,max_eq_left hlines] at hlength
  obtain rfl : more = [] := List.length_eq_zero_iff.mp (by omega)
  have hspans := hg.spans
  rw [hcons,List.singleton_append,List.cons.injEq] at hspans
  obtain ⟨rfl,hpending⟩ := hspans
  exact ⟨hcons,hpending,by rw [htext,hcons]; rfl⟩

/-- Chunks of one line are the spans that are not blank. -/
lemma closings_single (hlines : opts.maxLines ≤ 1) (hwhole : TakenWhole opts all)
    (hsub : spans ⊆ all) (hheadings : HeadingsOf all headings) :
    ((closings opts headings spans).filterMap (Gathered.chunk? · doc)).map
        (fun c => (c.startLine,c.endLine,c.text)) =
      (spans.filter fun s => s.text.rdropWhile isSpace ≠ []).map
        fun s => (s.line,s.line,s.text.rdropWhile isSpace) := by
  induction spans generalizing headings with
  | nil => simp
  | cons s rest ih =>
    obtain ⟨htaken,hpending,htext⟩ := run_single hlines hwhole hsub hheadings
    have hg : ((Gathered.start headings (s::rest)).run opts).Whole opts all (s::rest) :=
      whole_run hwhole hsub hheadings
    rw [closings,dif_neg (List.cons_ne_nil _ _)]
    dsimp only
    generalize (Gathered.start headings (s::rest)).run opts = g at *
    have hnext : g.next opts = rest := by
      have hoverlap : overlapSpans opts [s] = [] :=
        List.suffix_nil.mp (overlapSpans_suffix opts [s])
      rw [Gathered.next,hpending,htaken,hoverlap]
      split_ifs with hrest
      · exact hrest.symm
      · rfl
    have hchunk : g.chunk? doc = if s.text.rdropWhile isSpace = [] then none
        else some ⟨uint32Max,doc,s.text.rdropWhile isSpace,g.context,s.line,s.line⟩ := by
      rw [Gathered.chunk?,htaken,htext]
      rfl
    have hrest := ih (List.Subset.trans (List.subset_cons_self s rest) hsub) hg.headings
    rw [hnext,List.filterMap_cons,hchunk,List.filter_cons]
    by_cases hblank : s.text.rdropWhile isSpace = []
    · simpa [hblank] using hrest
    · simpa [hblank] using hrest

lemma chunkDocument_single (hlines : opts.maxLines ≤ 1) {input : Bytes}
    (hwhole : TakenWhole opts (spansOf opts input)) :
    (chunkDocument doc input opts).map (fun c => (c.startLine,c.endLine,c.text)) =
      ((spansOf opts input).filter fun s => s.text.rdropWhile isSpace ≠ []).map
        fun s => (s.line,s.line,s.text.rdropWhile isSpace) := by
  rw [chunkDocument_eq]
  exact closings_single hlines hwhole (List.Subset.refl _) fun _ => .inl rfl

end single

end RagRuntime.Text
