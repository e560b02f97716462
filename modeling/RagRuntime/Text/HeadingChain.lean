import Mathlib.Data.List.Chain
import RagRuntime.Text.Layout

/-! The context of a chunk is the chain of headings in force on one of its lines, as long as the
chunker reads the headings no further than it takes the lines. -/
namespace RagRuntime.Text
open RagRuntime.Base RagRuntime.Core

/-- The headings in force on line `n` of the body. -/
def chainAt (opts : ChunkOptions) (body : Bytes) (n : ℕ) : ℕ → Bytes :=
  ((body.splitOn newline).take (n+1)).foldl (updateHeadings opts) fun _ => []

def InForce (opts : ChunkOptions) (body context : Bytes) (n : ℕ) : Prop :=
  context = breadcrumb (chainAt opts body n)

instance (opts : ChunkOptions) (body context : Bytes) (n : ℕ) :
    Decidable (InForce opts body context n) := inferInstanceAs (Decidable (_ = _))

/-- The context is empty, or in force on a line of the chunk. -/
def ContextInForce (opts : ChunkOptions) (body : Bytes) (c : Chunk) : Prop :=
  c.context = [] ∨ ∃ n, c.startLine ≤ n ∧ n ≤ c.endLine ∧ InForce opts body c.context n

/-- If the next span opens the context of the chunk, then the context is in force on a line that
the chunk has taken: with the span, if it joins the chunk, and without it, if it does not. -/
structure Gathered.OpensRight (g : Gathered) (opts : ChunkOptions) (body : Bytes) : Prop where
  joins : ∀ span rest, g.Reads opts span rest → g.context = [] →
    (g.scan opts span).context ≠ [] →
    g.tokens opts span ≤ usableLimit opts ∨ g.text = [] ∧ g.cut opts span < span.text.length →
    ∃ s ∈ g.taken ++ [span], InForce opts body (g.scan opts span).context s.line
  leaves : ∀ span rest, g.Reads opts span rest → g.context = [] →
    (g.scan opts span).context ≠ [] → g.text ≠ [] → usableLimit opts < g.tokens opts span →
    ∃ s ∈ g.taken, InForce opts body (g.scan opts span).context s.line

variable {opts : ChunkOptions} {body : Bytes}

/-- The context of a gathered chunk is in force on a line that it has taken. -/
def Gathered.Covered (g : Gathered) (opts : ChunkOptions) (body : Bytes) : Prop :=
  g.context = [] ∨ ∃ s ∈ g.taken, InForce opts body g.context s.line

/-- The context is in force on the line of the next span, which is sure to be taken. -/
def Gathered.Awaits (g : Gathered) (opts : ChunkOptions) (body : Bytes) : Prop :=
  g.text = [] ∧ ∃ span rest, g.Reads opts span rest ∧ InForce opts body g.context span.line

lemma scan_context {g : Gathered} {span : Span} (h : g.context ≠ []) :
    (g.scan opts span).context = g.context := by
  simp [Gathered.scan,updateContext,h]

/-- The context with a span that joins the chunk. -/
lemma inForce_scan {g : Gathered} {span : Span} {rest : List Span}
    (hright : g.OpensRight opts body) (hstate : g.Covered opts body ∨ g.Awaits opts body)
    (hreads : g.Reads opts span rest)
    (hjoins : g.tokens opts span ≤ usableLimit opts ∨
      g.text = [] ∧ g.cut opts span < span.text.length) :
    (g.scan opts span).context = [] ∨
      ∃ s ∈ g.taken ++ [span], InForce opts body (g.scan opts span).context s.line := by
  by_cases hcontext : g.context = []
  · by_cases hscan : (g.scan opts span).context = []
    · exact Or.inl hscan
    · exact Or.inr (hright.joins span rest hreads hcontext hscan hjoins)
  · right
    rw [scan_context hcontext]
    obtain (hempty | ⟨s,hs,hforce⟩) | ⟨-,span',rest',hreads',hforce⟩ := hstate
    · exact absurd hempty hcontext
    · exact ⟨s,List.mem_append_left _ hs,hforce⟩
    · have hsame : span' = span :=
        (List.cons_eq_cons.mp (hreads'.pending.symm.trans hreads.pending)).1
      exact ⟨span,by simp,hsame ▸ hforce⟩

/-- A turn that closes a chunk. -/
lemma Turn.covered {g g' : Gathered} (hturn : Turn opts g g' true) (hright : g.OpensRight opts body)
    (hstate : g.Covered opts body ∨ g.Awaits opts body) : g'.Covered opts body := by
  generalize hclosed : true = closed at hturn
  cases hturn with
  | exhausted hpending =>
    apply hstate.resolve_right
    rintro ⟨-,span,rest,hreads,-⟩
    rw [hreads.pending] at hpending
    cases hpending
  | full hlines =>
    apply hstate.resolve_right
    rintro ⟨-,span,rest,hreads,-⟩
    exact absurd hlines (not_le.mpr hreads.lines)
  | split => cases hclosed
  | @overfull span rest hreads htext hover =>
    by_cases hcontext : g.context = []
    · by_cases hscan : (g.scan opts span).context = []
      · exact Or.inl hscan
      · obtain ⟨s,hs,hforce⟩ := hright.leaves span rest hreads hcontext hscan htext hover
        exact Or.inr ⟨s,hs,hforce⟩
    · have hcovered := hstate.resolve_right fun hawaits => htext hawaits.1
      obtain ⟨s,hs,hforce⟩ := hcovered.resolve_left hcontext
      exact Or.inr ⟨s,hs,by rwa [scan_context hcontext]⟩
  | alone => exact Or.inl rfl
  | @fits span rest hreads hfits =>
    exact inForce_scan hright hstate hreads (Or.inl hfits)

lemma Turn.covered_or_awaits {g g' : Gathered} (hturn : Turn opts g g' false)
    (hright : g.OpensRight opts body) (hstate : g.Covered opts body ∨ g.Awaits opts body) :
    g'.Covered opts body ∨ g'.Awaits opts body := by
  generalize hclosed : false = closed at hturn
  cases hturn with
  | exhausted | full | overfull => cases hclosed
  | @split span rest hreads htext hover hcut =>
    obtain hempty | ⟨s,hs,hforce⟩ := inForce_scan hright hstate hreads (Or.inr ⟨htext,hcut⟩)
    · exact Or.inl (Or.inl hempty)
    · obtain hs | hs := List.mem_append.mp hs
      · exact Or.inl (Or.inr ⟨s,hs,hforce⟩)
      · obtain rfl := List.mem_singleton.mp hs
        exact Or.inr ⟨htext,s.front _,_,⟨rfl,hreads.lines⟩,hforce⟩
  | alone => exact Or.inl (Or.inl rfl)
  | @fits span rest hreads hfits =>
    exact Or.inl (inForce_scan hright hstate hreads (Or.inl hfits))

lemma Visits.covered_or_awaits {spans : List Span} {g : Gathered} (h : Visits opts spans g)
    (hright : ∀ g, Visits opts spans g → g.OpensRight opts body) :
    g.Covered opts body ∨ g.Awaits opts body := by
  induction h with
  | start | next => exact Or.inl (Or.inl rfl)
  | go hvisits hturn ih => exact hturn.covered_or_awaits (hright _ hvisits) ih

/-- The lines of the spans taken lie between those a chunk reports. -/
lemma line_bounds {taken : List Span} (h : Ordered taken) {s : Span} (hs : s ∈ taken) :
    (taken.head?.map Span.line).getD 0 ≤ s.line ∧
      s.line ≤ (taken.getLast?.map Span.line).getD 0 := by
  constructor
  · obtain ⟨x,rest,rfl⟩ := List.exists_cons_of_ne_nil (List.ne_nil_of_mem hs)
    obtain rfl | hs := List.mem_cons.mp hs
    · exact le_rfl
    · exact (List.pairwise_cons.mp h).1 _ (List.mem_map_of_mem hs)
  · obtain rfl | ⟨pre,x,rfl⟩ := List.eq_nil_or_concat taken
    · cases hs
    · rw [List.concat_eq_append] at hs h ⊢
      rw [List.getLast?_concat]
      unfold Ordered at h
      rw [List.map_append,List.pairwise_append] at h
      obtain hs | hs := List.mem_append.mp hs
      · exact h.2.2 _ (List.mem_map_of_mem hs) x.line (by simp)
      · rw [List.mem_singleton.mp hs]
        exact le_rfl

lemma contextInForce {g : Gathered} {doc : ℕ} (hordered : Ordered g.taken)
    (hcovered : g.Covered opts body) : ∀ c ∈ g.chunk? doc, ContextInForce opts body c := by
  intro c hc
  unfold Gathered.chunk? at hc
  dsimp only at hc
  split_ifs at hc
  · cases hc
  · cases hc
    obtain hempty | ⟨s,hs,hforce⟩ := hcovered
    · exact Or.inl hempty
    · obtain ⟨hlo,hhi⟩ := line_bounds hordered hs
      exact Or.inr ⟨s.line,hlo,hhi,hforce⟩

/-- A context opened on a line taken stays in force on it. -/
theorem context_of_opensRight {input : Bytes} (hbody : normalizeInput opts input = some body)
    (hlines : body.count newline < 2^32) (doc : ℕ)
    (hright : ∀ g, Visits opts (spansOf opts input) g → g.OpensRight opts body) :
    ∀ c ∈ chunkDocument doc input opts, ContextInForce opts body c := by
  rw [forall_chunk_iff (Q := ContextInForce opts body)]
  intro g g' hvisits hturn
  have hlayout : Layout body (g'.taken ++ g'.pending) :=
    hturn.layout (hvisits.layout (spansOf_layout hbody))
  apply contextInForce
  · exact (hlayout.ordered hlines).sublist (List.sublist_append_left _ _)
  · exact hturn.covered (hright g hvisits) (hvisits.covered_or_awaits hright)

/-- A line of the body. -/
def lineAt (body : Bytes) (n : ℕ) : Bytes := (body.splitOn newline).getD n []

/-- The headings in force above line `n`. -/
def chainAbove (opts : ChunkOptions) (body : Bytes) (n : ℕ) : ℕ → Bytes :=
  ((body.splitOn newline).take n).foldl (updateHeadings opts) fun _ => []

/-- Where the span or its line is a heading, it is the whole line. -/
def OwnHeading (body : Bytes) (s : Span) : Prop :=
  headingLevel s.text ≠ 0 ∨ headingLevel (lineAt body s.line) ≠ 0 → s.text = lineAt body s.line

/-- No heading line has been cut. A heading that does not join the chunk finds its context open and
leaves nothing to repeat, and what the next chunk repeats has no heading behind its first span. -/
structure Gathered.Steady (g : Gathered) (opts : ChunkOptions) (body : Bytes) : Prop where
  whole : ∀ span rest, g.Reads opts span rest → OwnHeading body span
  leaves : ∀ span rest, g.Reads opts span rest → headingLevel span.text ≠ 0 → g.text ≠ [] →
    usableLimit opts < g.tokens opts span → g.context ≠ [] ∧ overlapSpans opts g.taken = []
  repeats : ∀ g', Turn opts g g' true → ∀ s ∈ (overlapSpans opts g'.taken).tail,
    headingLevel s.text = 0

section chain
variable {h : ℕ → Bytes} {n : ℕ} {s t : Span}

lemma updateHeadings_plain {line : Bytes} (hline : headingLevel line = 0) :
    updateHeadings opts h line = h := by
  unfold updateHeadings
  exact if_pos (.inr hline)

/-- To read a line again changes nothing. -/
lemma updateHeadings_again (line : Bytes) :
    updateHeadings opts (updateHeadings opts h line) line = updateHeadings opts h line := by
  by_cases hplain : opts.headingContext = false ∨ headingLevel line = 0
  · have hsame : ∀ h, updateHeadings opts h line = h := fun h => if_pos hplain
    rw [hsame]
  · have hset : ∀ h, updateHeadings opts h line = fun i =>
        if i = headingLevel line then headingText line
        else if headingLevel line < i then [] else h i := fun h => if_neg hplain
    rw [hset,hset]
    funext i
    dsimp only
    split_ifs <;> rfl

lemma chainAbove_succ (n : ℕ) : chainAbove opts body (n+1) = chainAt opts body n := rfl

/-- Behind the last line there is nothing to read. -/
lemma chainAt_eq (n : ℕ) :
    chainAt opts body n = updateHeadings opts (chainAbove opts body n) (lineAt body n) := by
  unfold chainAt chainAbove lineAt
  rw [List.getD_eq_getElem?_getD]
  by_cases hn : n < (body.splitOn newline).length
  · rw [List.take_add_one,List.foldl_append,List.getElem?_eq_getElem hn]
    rfl
  · rw [List.take_of_length_le (by omega),List.take_of_length_le (by omega),
      List.getElem?_eq_none (by omega),Option.getD_none,updateHeadings_plain (by decide)]

/-- The headings that are right in front of a span, or have been read with it, are right with
it. -/
lemma OwnHeading.update (hs : OwnHeading body s)
    (hkept : h = chainAbove opts body s.line ∨ h = chainAt opts body s.line) :
    updateHeadings opts h s.text = chainAt opts body s.line := by
  by_cases hheading : headingLevel s.text ≠ 0 ∨ headingLevel (lineAt body s.line) ≠ 0
  · rw [hs hheading]
    obtain rfl | rfl := hkept
    · rw [chainAt_eq]
    · rw [chainAt_eq,updateHeadings_again]
  · obtain ⟨htext,hline⟩ := not_or.mp hheading
    rw [not_not] at htext hline
    have hsame : chainAt opts body s.line = chainAbove opts body s.line := by
      rw [chainAt_eq,updateHeadings_plain hline]
    rw [updateHeadings_plain htext]
    obtain rfl | rfl := hkept
    · exact hsame.symm
    · rfl

/-- A span that is no heading is under the headings of the line before it. -/
lemma chainAt_next (ht : OwnHeading body t) (hplain : headingLevel t.text = 0)
    (hnext : t.line = s.line ∨ t.line = s.line+1) :
    chainAt opts body t.line = chainAt opts body s.line := by
  obtain heq | heq := hnext
  · rw [heq]
  · have hkept : updateHeadings opts (chainAbove opts body t.line) t.text =
        chainAt opts body t.line := ht.update (.inl rfl)
    rw [updateHeadings_plain hplain] at hkept
    rw [← hkept,heq,chainAbove_succ]

end chain

/-- Each span is on the line of the one before it or on the next. -/
def Stepwise (spans : List Span) : Prop :=
  spans.IsChain fun s t => t.line = s.line ∨ t.line = s.line+1

lemma Numbered.stepwise {n : ℕ} {spans : List Span} (h : Numbered n spans)
    (hcount : n + (render spans).count newline < 2^32) : Stepwise spans := by
  induction spans generalizing n with
  | nil => exact List.IsChain.nil
  | cons s spans ih =>
    cases spans with
    | nil => exact List.IsChain.singleton s
    | cons t rest =>
      rw [numbered_cons] at h
      obtain ⟨hline,htext,-,hrest⟩ := h
      rw [render,List.count_append,count_piece htext] at hcount
      refine List.IsChain.cons_cons ?_ (ih hrest (by omega))
      by_cases hsame : t.line = s.line
      · exact .inl hsame
      · right
        have hgap : gap s (t::rest) = [newline] := if_neg hsame
        rw [hgap,List.length_singleton] at hrest hcount
        have hnext := hrest.1
        rw [Nat.mod_eq_of_lt (by omega)] at hline hnext
        rw [hnext,hline]

lemma Layout.stepwise {spans : List Span} (h : Layout body spans)
    (hlines : body.count newline < 2^32) : Stepwise spans := by
  obtain ⟨front,hbody,hnum⟩ := h
  apply hnum.stepwise
  rwa [hbody,List.count_append] at hlines

/-- Behind the first of some spans that has no heading behind it all are under the same
headings. -/
lemma chainAt_last {s : Span} {spans : List Span} (hstep : Stepwise (s::spans))
    (hown : ∀ t ∈ spans, OwnHeading body t) (hplain : ∀ t ∈ spans, headingLevel t.text = 0) :
    ∀ t ∈ (s::spans).getLast?, chainAt opts body t.line = chainAt opts body s.line := by
  induction spans generalizing s with
  | nil =>
    rintro t ⟨⟩
    rfl
  | cons u spans ih =>
    obtain ⟨hnext,hrest⟩ := List.isChain_cons_cons.mp hstep
    intro t ht
    rw [List.getLast?_cons_cons] at ht
    have hlast := ih hrest (fun t ht => hown t (List.mem_cons_of_mem _ ht))
      (fun t ht => hplain t (List.mem_cons_of_mem _ ht)) t ht
    rw [hlast]
    exact chainAt_next (hown u List.mem_cons_self) (hplain u List.mem_cons_self) hnext

/-- The headings kept are those of the last span taken, or the next span is sure to be taken and
they are those in front of it or with it. -/
structure Gathered.Settled (g : Gathered) (opts : ChunkOptions) (body : Bytes) : Prop where
  own : ∀ s ∈ g.taken, OwnHeading body s
  kept : (∃ s ∈ g.taken.getLast?, g.headings = chainAt opts body s.line) ∨
    g.text = [] ∧ g.taken.length < max 1 opts.maxLines ∧ ∀ s ∈ g.pending.head?,
      g.headings = chainAbove opts body s.line ∨ g.headings = chainAt opts body s.line

/-- What is kept of one span is right in front of the next. -/
lemma kept_next {h : ℕ → Bytes} {s t : Span} (hs : h = chainAt opts body s.line)
    (hnext : t.line = s.line ∨ t.line = s.line+1) :
    h = chainAbove opts body t.line ∨ h = chainAt opts body t.line := by
  obtain heq | heq := hnext
  · exact .inr (heq ▸ hs)
  · rw [heq,chainAbove_succ]
    exact .inl hs

/-- With the next span the headings are those of its line. -/
lemma Gathered.Settled.scan {g : Gathered} (h : g.Settled opts body) (hsteady : g.Steady opts body)
    (hstep : Stepwise (g.taken ++ g.pending)) {span : Span} {rest : List Span}
    (hreads : g.Reads opts span rest) :
    (g.scan opts span).headings = chainAt opts body span.line := by
  have hhead : span ∈ g.pending.head? := by rw [hreads.pending]; rfl
  apply (hsteady.whole span rest hreads).update
  obtain ⟨s,hs,hheadings⟩ | ⟨-,-,hkept⟩ := h.kept
  · exact kept_next hheadings ((List.isChain_append.mp hstep).2.2 s hs span hhead)
  · exact hkept span hhead

lemma Turn.settled {g g' : Gathered} (hturn : Turn opts g g' false) (h : g.Settled opts body)
    (hsteady : g.Steady opts body) (hstep : Stepwise (g.taken ++ g.pending)) :
    g'.Settled opts body := by
  generalize hclosed : false = closed at hturn
  cases hturn with
  | exhausted | full | overfull => cases hclosed
  | @split span rest hreads htext =>
    refine ⟨h.own,.inr ⟨htext,hreads.lines,?_⟩⟩
    rintro s ⟨⟩
    exact .inr (h.scan hsteady hstep hreads)
  | @alone span rest hreads | @fits span rest hreads =>
    refine ⟨?_,.inl ⟨span,List.getLast?_concat,h.scan hsteady hstep hreads⟩⟩
    intro s hs
    obtain hs | hs := List.mem_append.mp hs
    · exact h.own s hs
    · exact List.mem_singleton.mp hs ▸ hsteady.whole span rest hreads

/-- Where a chunk ends the headings kept are those of its last span, or of the next one, and then
nothing is repeated. -/
structure Gathered.Ended (g : Gathered) (opts : ChunkOptions) (body : Bytes) : Prop where
  own : ∀ s ∈ g.taken, OwnHeading body s
  kept : (∃ s ∈ g.taken.getLast?, g.headings = chainAt opts body s.line) ∨
    overlapSpans opts g.taken = [] ∧
      ∀ s ∈ g.pending.head?, g.headings = chainAt opts body s.line

lemma Turn.ended {g g' : Gathered} (hturn : Turn opts g g' true) (h : g.Settled opts body)
    (hsteady : g.Steady opts body) (hstep : Stepwise (g.taken ++ g.pending))
    (hpending : g'.pending ≠ []) : g'.Ended opts body := by
  generalize hclosed : true = closed at hturn
  cases hturn with
  | exhausted hnone => exact absurd hnone hpending
  | full hlines =>
    refine ⟨h.own,.inl ?_⟩
    exact h.kept.resolve_right fun hopen => absurd hopen.2.1 (not_lt.mpr hlines)
  | split => cases hclosed
  | @overfull span rest hreads htext hover =>
    obtain ⟨s,hs,hheadings⟩ := h.kept.resolve_right fun hopen => htext hopen.1
    refine ⟨h.own,?_⟩
    by_cases hheading : headingLevel span.text = 0
    · exact .inl ⟨s,hs,(updateHeadings_plain hheading).trans hheadings⟩
    · refine .inr ⟨(hsteady.leaves span rest hreads hheading htext hover).2,?_⟩
      intro t ht
      have hsame : span = t := by
        change t ∈ g.pending.head? at ht
        rw [hreads.pending] at ht
        exact Option.some.inj ht
      exact hsame ▸ h.scan hsteady hstep hreads
  | @alone span rest hreads | @fits span rest hreads =>
    refine ⟨?_,.inl ⟨span,List.getLast?_concat,h.scan hsteady hstep hreads⟩⟩
    intro s hs
    obtain hs | hs := List.mem_append.mp hs
    · exact h.own s hs
    · exact List.mem_singleton.mp hs ▸ hsteady.whole span rest hreads

/-- The next chunk begins with headings that are right. -/
lemma Gathered.Ended.next {g : Gathered} (h : g.Ended opts body)
    (hstep : Stepwise (g.taken ++ g.pending))
    (hrepeats : ∀ s ∈ (overlapSpans opts g.taken).tail, headingLevel s.text = 0)
    (hne : g.next opts ≠ []) : (Gathered.start g.headings (g.next opts)).Settled opts body := by
  refine ⟨fun s hs => absurd hs List.not_mem_nil,.inr ⟨rfl,Nat.lt_of_lt_of_le Nat.zero_lt_one
    (le_max_left _ _),?_⟩⟩
  intro t ht
  change t ∈ (g.next opts).head? at ht
  change g.headings = _ ∨ g.headings = _
  unfold Gathered.next at ht hne
  split_ifs at ht hne
  · exact absurd rfl hne
  · cases hoverlap : overlapSpans opts g.taken with
    | nil =>
      rw [hoverlap,List.nil_append] at ht
      obtain ⟨s,hs,hheadings⟩ | ⟨-,hkept⟩ := h.kept
      · exact kept_next hheadings ((List.isChain_append.mp hstep).2.2 s hs t ht)
      · exact .inr (hkept t ht)
    | cons first behind =>
      -- the headings are still those of the first span that is repeated
      rw [hoverlap] at ht hrepeats
      obtain rfl : first = t := Option.some.inj ht
      obtain ⟨s,hs,hheadings⟩ := h.kept.resolve_right fun hnone => by
        rw [hoverlap] at hnone
        cases hnone.1
      have hsuffix : first::behind <:+ g.taken :=
        hoverlap ▸ (overlapSpans_suffix opts g.taken).trans (List.tail_suffix _)
      have hown : ∀ u ∈ behind, OwnHeading body u := fun u hu =>
        h.own u (hsuffix.subset (List.mem_cons_of_mem _ hu))
      have hchain : Stepwise (first::behind) :=
        (List.isChain_append.mp hstep).1.suffix hsuffix
      have hlast : s ∈ (first::behind).getLast? := by
        obtain ⟨front,hfront⟩ := hsuffix
        rw [← hfront,List.getLast?_append_of_ne_nil _ (List.cons_ne_nil _ _)] at hs
        exact hs
      right
      rw [hheadings]
      exact chainAt_last hchain hown hrepeats s hlast

lemma settled_start {input : Bytes} (hbody : normalizeInput opts input = some body) :
    (Gathered.start (fun _ => []) (spansOf opts input)).Settled opts body := by
  refine ⟨fun s hs => absurd hs List.not_mem_nil,.inr ⟨rfl,Nat.lt_of_lt_of_le Nat.zero_lt_one
    (le_max_left _ _),fun s hs => .inl ?_⟩⟩
  have hzero : s.line = 0 := by
    change s ∈ (spansOf opts input).head? at hs
    unfold spansOf at hs
    rw [hbody] at hs
    dsimp only at hs
    split_ifs at hs
    · cases hs
    · cases hs
    · rw [bodySpans] at hs
      cases hlines : body.splitOn newline with
      | nil =>
        rw [hlines] at hs
        cases hs
      | cons line lines =>
        obtain ⟨p,ps,-,-,hspans⟩ := lineSpans_eq opts line (0 % 2^32)
        rw [hlines,spansFrom,hspans] at hs
        cases hs
        rfl
  rw [hzero]
  rfl

/-- The headings stay right along a run whose states are all steady. -/
lemma Visits.settled {input : Bytes} (hbody : normalizeInput opts input = some body)
    (hlines : body.count newline < 2^32) {g : Gathered} (h : Visits opts (spansOf opts input) g)
    (hsteady : ∀ g, Visits opts (spansOf opts input) g → g.Steady opts body) :
    g.Settled opts body := by
  have hstep : ∀ g, Visits opts (spansOf opts input) g → Stepwise (g.taken ++ g.pending) :=
    fun g hvisits => (hvisits.layout (spansOf_layout hbody)).stepwise hlines
  induction h with
  | start => exact settled_start hbody
  | @go g g' hvisits hturn ih => exact hturn.settled ih (hsteady _ hvisits) (hstep _ hvisits)
  | @next g g' hvisits hturn hne ih =>
    have hpending : g'.pending ≠ [] := fun hnone => hne (if_pos hnone)
    have hended := hturn.ended ih (hsteady _ hvisits) (hstep _ hvisits) hpending
    have hlayout := hturn.layout (hvisits.layout (spansOf_layout hbody))
    exact hended.next (hlayout.stepwise hlines) ((hsteady _ hvisits).repeats g' hturn) hne

/-- What opens the context is read on a line of the chunk. -/
lemma Gathered.Settled.opensRight {g : Gathered} (h : g.Settled opts body)
    (hsteady : g.Steady opts body) (hstep : Stepwise (g.taken ++ g.pending)) :
    g.OpensRight opts body := by
  have hopened : ∀ span, g.context = [] → (g.scan opts span).context ≠ [] →
      (g.scan opts span).context = breadcrumb (g.scan opts span).headings := by
    intro span hempty hopen
    simp only [Gathered.scan,updateContext] at hopen ⊢
    split_ifs at hopen ⊢
    · rfl
    · exact absurd hempty hopen
  constructor
  · intro span rest hreads hempty hopen _
    refine ⟨span,by simp,?_⟩
    rw [InForce,hopened span hempty hopen,h.scan hsteady hstep hreads]
  · intro span rest hreads hempty hopen htext hover
    have hplain : headingLevel span.text = 0 := by
      by_contra hheading
      exact (hsteady.leaves span rest hreads hheading htext hover).1 hempty
    obtain ⟨s,hs,hheadings⟩ := h.kept.resolve_right fun hwaits => htext hwaits.1
    refine ⟨s,List.mem_of_getLast? hs,?_⟩
    rw [InForce,hopened span hempty hopen,← hheadings]
    exact congrArg breadcrumb (updateHeadings_plain hplain)

instance (body : Bytes) (s : Span) : Decidable (OwnHeading body s) := by
  unfold OwnHeading
  infer_instance

/-- A check of a state: of its next span and of what its turn leaves to repeat. -/
def Gathered.looksSteady (g : Gathered) (opts : ChunkOptions) (body : Bytes) : Bool :=
  (g.pending.head?.all fun s => OwnHeading body s ∧ (headingLevel s.text = 0 ∨ g.text = [] ∨
    g.tokens opts s ≤ usableLimit opts)) &&
  (overlapSpans opts (g.turn opts).1.taken).tail.all fun s => headingLevel s.text = 0

lemma Gathered.steady_of_looks {g : Gathered} (h : g.looksSteady opts body = true) :
    g.Steady opts body := by
  obtain ⟨hnext,hrepeats⟩ := Bool.and_eq_true_iff.mp h
  have hread : ∀ span rest, g.Reads opts span rest → OwnHeading body span ∧
      (headingLevel span.text = 0 ∨ g.text = [] ∨ g.tokens opts span ≤ usableLimit opts) := by
    intro span rest hreads
    rw [hreads.pending] at hnext
    simpa using hnext
  refine ⟨fun span rest hreads => (hread span rest hreads).1,?_,?_⟩
  · intro span rest hreads hheading htext hover
    obtain hplain | hempty | hfits := (hread span rest hreads).2
    · exact absurd hplain hheading
    · exact absurd hempty htext
    · exact absurd hover (not_lt.mpr hfits)
  · intro g' hturn
    rw [hturn.eq_turn] at hrepeats
    simpa using hrepeats

/-- Two headings with a line below each. -/
def sections : Bytes := ascii ['#',' ','A','\n','x','\n','#',' ','B','\n','y']

/-- A line, and the heading `# A` below it. -/
def headingBelow : Bytes := ascii ['l','i','n','e','\n','#',' ','A']

end RagRuntime.Text
