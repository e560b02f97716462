import RagRuntime.Text.Layout

/-! A chunk's text is a piece of the source, as long as no line is put together again. -/
namespace RagRuntime.Text
open RagRuntime.Base RagRuntime.Core

/-- The chunk's text is contiguous in the body and lies within the lines that it reports; lines
are counted from 0. -/
def SourceText (body : Bytes) (c : Chunk) : Prop :=
  ∃ front back, body = front ++ c.text ++ back ∧ c.startLine ≤ front.count newline ∧
    (front ++ c.text).count newline ≤ c.endLine

/-- Behind `s` no piece of the same line is appended, unless all that follows is white space. -/
def Unjoined : Span → List Span → Prop
  | _,[] => True
  | s,t::rest => (∀ x ∈ t::rest, ∀ c ∈ x.text, isSpace c) ∨ t.line ≠ s.line ∧ Unjoined t rest

namespace Gathered

/-- The text is what the body has where the chunk's spans begin. -/
def InPlace (g : Gathered) : Prop := g.trimmed <+: render (lead g.taken ++ g.pending)

/-- Between its leading empty lines and its trailing white space the chunk has no two pieces of
one line. -/
def Unjoined (g : Gathered) : Prop := ∀ s rest, lead g.taken = s::rest → Text.Unjoined s rest

end Gathered

lemma tailText_cons (t : Span) (rest : List Span) :
    tailText (t::rest) = newline::(t.text ++ tailText rest) := rfl

/-- White text behind a span is stripped. -/
lemma strip_white {s t : Span} {rest : List Span}
    (h : ∀ x ∈ t::rest, ∀ c ∈ x.text, isSpace c) :
    (s.text ++ tailText (t::rest)).rdropWhile isSpace = s.text.rdropWhile isSpace := by
  apply rdropWhile_append_of_all
  intro c hc
  obtain ⟨x,hx,hc⟩ := List.mem_flatMap.mp hc
  obtain rfl | hc := List.mem_cons.mp hc
  · exact isSpace_newline
  · exact h x hx c hc

/-- Text behind a span that is not all white keeps the line feed before it. -/
lemma strip_visible {s t : Span} {rest : List Span}
    (h : ¬∀ x ∈ t::rest, ∀ c ∈ x.text, isSpace c) :
    (s.text ++ tailText (t::rest)).rdropWhile isSpace =
      s.text ++ newline::(t.text ++ tailText rest).rdropWhile isSpace := by
  have hvisible : (t.text ++ tailText rest).rdropWhile isSpace ≠ [] := by
    rw [ne_eq,List.rdropWhile_eq_nil_iff]
    intro hall
    apply h
    intro x hx c hc
    obtain rfl | hx := List.mem_cons.mp hx
    · exact hall c (List.mem_append_left _ hc)
    · apply hall c
      apply List.mem_append_right
      exact List.mem_flatMap.mpr ⟨x,hx,List.mem_cons_of_mem _ hc⟩
  have hline := rdropWhile_append_of_ne (a := [newline]) hvisible
  rw [List.singleton_append,List.singleton_append] at hline
  rw [tailText_cons,rdropWhile_append_of_ne,hline]
  rw [hline]
  exact List.cons_ne_nil _ _

/-- The text of some spans is what the body has in their place exactly if they are not joined. -/
lemma strip_prefix_iff {n : ℕ} {s : Span} {spans rest : List Span}
    (h : Numbered n (s::spans ++ rest)) :
    (s.text ++ tailText spans).rdropWhile isSpace <+: render (s::spans ++ rest) ↔
      Unjoined s spans := by
  induction spans generalizing n s with
  | nil =>
    refine iff_of_true ?_ trivial
    rw [tailText,List.flatMap_nil,List.append_nil]
    apply (trim_start _).trans
    rw [List.singleton_append,render,List.append_assoc]
    exact List.prefix_append _ _
  | cons t spans ih =>
    rw [List.cons_append,numbered_cons] at h
    obtain ⟨-,-,hempty,hrest⟩ := h
    have hrender : render (s::t::spans ++ rest) =
        s.text ++ (gap s (t::spans ++ rest) ++ render (t::spans ++ rest)) := by
      rw [List.cons_append,render,List.append_assoc]
    by_cases hwhite : ∀ x ∈ t::spans, ∀ c ∈ x.text, isSpace c
    · refine iff_of_true ?_ (Or.inl hwhite)
      rw [strip_white hwhite,hrender]
      exact (trim_start _).trans (List.prefix_append _ _)
    · rw [strip_visible hwhite,hrender,List.prefix_append_right_inj,Unjoined,or_iff_right hwhite]
      by_cases hline : t.line = s.line
      · have hgap : gap s (t::spans ++ rest) = [] := by simp [gap,hline]
        have hne : t.text ≠ [] := hempty hgap t rfl
        have htext : newline ∉ t.text := hrest.2.1
        obtain ⟨c,cs,hcs⟩ := List.exists_cons_of_ne_nil hne
        refine iff_of_false ?_ fun h => h.1 hline
        rw [hgap,List.nil_append,List.cons_append,render,hcs]
        intro hpre
        rw [List.cons_append,List.cons_append] at hpre
        have hc : newline = c := (List.cons_prefix_cons.mp hpre).1
        apply htext
        rw [hcs,hc]
        exact List.mem_cons_self
      · have hgap : gap s (t::spans ++ rest) = [newline] := by simp [gap,hline]
        rw [hgap,List.singleton_append,List.cons_prefix_cons]
        rw [hgap] at hrest
        simp only [true_and,hline,ne_eq,not_false_eq_true]
        exact ih hrest

/-- Spans that are not joined have no more line feeds than the lines they span. -/
lemma strip_count_le {n : ℕ} {s : Span} {spans rest : List Span}
    (h : Numbered n (s::spans ++ rest)) (hcount : n +
      (render (s::spans ++ rest)).count newline < 2^32)
    (hunjoined : Unjoined s spans) :
    n + ((s.text ++ tailText spans).rdropWhile isSpace).count newline ≤
      ((s::spans).getLast (List.cons_ne_nil _ _)).line := by
  induction spans generalizing n s with
  | nil =>
    have hle := h.le_line hcount s (by simp)
    have hnone : (s.text.rdropWhile isSpace).count newline = 0 := by
      apply List.count_eq_zero_of_not_mem
      intro hmem
      exact h.2.1 ((trim_start _).subset hmem)
    rw [tailText,List.flatMap_nil,List.append_nil,hnone]
    exact hle
  | cons t spans ih =>
    have hle := h.le_line hcount
    rw [List.cons_append,numbered_cons] at h
    obtain ⟨-,htext,-,hrest⟩ := h
    have hnone : (s.text.rdropWhile isSpace).count newline = 0 := by
      apply List.count_eq_zero_of_not_mem
      intro hmem
      exact htext ((trim_start _).subset hmem)
    by_cases hwhite : ∀ x ∈ t::spans, ∀ c ∈ x.text, isSpace c
    · rw [strip_white hwhite,hnone]
      exact hle _ (List.mem_append_left _ (List.getLast_mem _))
    · obtain ⟨hline,hunjoined⟩ := hunjoined.resolve_left hwhite
      have hgap : gap s (t::spans ++ rest) = [newline] := by simp [gap,hline]
      rw [hgap] at hrest
      rw [List.cons_append,render,hgap,List.count_append,List.count_append,
        List.count_eq_zero_of_not_mem htext,List.count_singleton_self] at hcount
      have hih := ih hrest (by
        rw [List.length_singleton]
        omega) hunjoined
      rw [strip_visible hwhite,List.count_append,List.count_eq_zero_of_not_mem htext,
        List.count_cons_self,List.getLast_cons (List.cons_ne_nil t spans)]
      rw [List.length_singleton] at hih
      omega

variable {opts : ChunkOptions}

/-- What a chunk is made of when its text is not empty. -/
lemma Gathered.exists_lead {g : Gathered} (htext : g.text = joined g.taken) (h : g.trimmed ≠ []) :
    ∃ s rest, lead g.taken = s::rest ∧ g.trimmed =
      (s.text ++ tailText rest).rdropWhile isSpace := by
  cases hlead : lead g.taken with
  | nil =>
    rw [Gathered.trimmed,htext,joined_nil hlead] at h
    exact absurd rfl h
  | cons s rest => exact ⟨s,rest,rfl,by rw [Gathered.trimmed,htext,(joined_cons hlead).1]⟩

lemma lead_suffix (spans : List Span) : lead spans <:+ spans := List.dropWhile_suffix _

/-- The text of a chunk is in place exactly if the chunk joins no two pieces of a line. -/
lemma inPlace_iff {body : Bytes} {g : Gathered} (htext : g.text = joined g.taken)
    (h : Layout body (g.taken ++ g.pending)) : g.InPlace ↔ g.Unjoined := by
  unfold Gathered.InPlace Gathered.Unjoined
  cases hlead : lead g.taken with
  | nil =>
    refine iff_of_true ?_ (by simp)
    rw [Gathered.trimmed,htext,joined_nil hlead]
    exact List.nil_prefix
  | cons s rest =>
    obtain ⟨pre,hpre⟩ := lead_suffix g.taken
    rw [← hpre,hlead,List.append_assoc] at h
    obtain ⟨front,-,hnum⟩ := h.drop
    rw [Gathered.trimmed,htext,(joined_cons hlead).1,strip_prefix_iff hnum]
    constructor
    · rintro hunjoined _ _ ⟨⟩
      exact hunjoined
    · exact fun hall => hall s rest rfl

lemma startLine_le {n : ℕ} {taken pending : List Span} (h : Numbered n (taken ++ pending)) :
    (taken.head?.map Span.line).getD 0 ≤ n := by
  cases taken with
  | nil => exact Nat.zero_le n
  | cons s rest =>
    change s.line ≤ n
    rw [h.1]
    exact Nat.mod_le _ _

/-- A chunk in place is source text of the lines it reports. -/
lemma sourceText_of_unjoined {body : Bytes} {doc : ℕ} {g : Gathered}
    (htext : g.text = joined g.taken) (h : Layout body (g.taken ++ g.pending))
    (hlines : body.count newline < 2^32) (hunjoined : g.Unjoined) :
    ∀ c ∈ g.chunk? doc, SourceText body c := by
  intro c hc
  unfold Gathered.chunk? at hc
  dsimp only at hc
  split_ifs at hc with hempty
  · cases hc
  cases hc
  change ∃ front back, body = front ++ g.trimmed ++ back ∧
    (g.taken.head?.map Span.line).getD 0 ≤ front.count newline ∧
    (front ++ g.trimmed).count newline ≤ (g.taken.getLast?.map Span.line).getD 0
  obtain ⟨s,rest,hlead,htrimmed⟩ := Gathered.exists_lead htext hempty
  obtain ⟨pre,hpre⟩ := lead_suffix g.taken
  obtain ⟨front,hbody,hnum⟩ := h
  have hstart := startLine_le hnum
  rw [hlead] at hpre
  rw [← hpre,List.append_assoc] at hbody hnum
  obtain ⟨front',hrender,hnum'⟩ := hnum.drop
  have hclear := hunjoined s rest hlead
  obtain ⟨back,hback⟩ := (strip_prefix_iff hnum').mpr hclear
  have hwhole : body = front ++ front' ++ render (s::rest ++ g.pending) := by
    rw [hbody,hrender,List.append_assoc]
  have hcount : front.count newline + front'.count newline +
      (render (s::rest ++ g.pending)).count newline < 2^32 := by
    rwa [hwhole,List.count_append,List.count_append] at hlines
  have hlast : (g.taken.getLast?.map Span.line).getD 0 =
      ((s::rest).getLast (List.cons_ne_nil _ _)).line := by
    rw [← hpre,List.getLast?_append_of_ne_nil _ (List.cons_ne_nil _ _),
      List.getLast?_eq_some_getLast (List.cons_ne_nil _ _)]
    rfl
  refine ⟨front ++ front',back,?_,?_,?_⟩
  · rw [htrimmed,List.append_assoc,hback,hwhole]
  · rw [List.count_append]
    exact hstart.trans (Nat.le_add_right _ _)
  · rw [hlast,htrimmed,List.count_append,List.count_append]
    exact strip_count_le hnum' hcount hclear

/-- Of a document with at most `2^32` lines every chunk is source text of the lines it reports,
as long as no chunk joins two pieces of one line; a chunk that joins two pieces has another text
than the body in their place. -/
theorem source_text {input body : Bytes} (hbody : normalizeInput opts input = some body)
    (hlines : body.count newline < 2^32) (doc : ℕ) :
    ((∀ g g', Visits opts (spansOf opts input) g → Turn opts g g' true → g'.Unjoined) →
        ∀ c ∈ chunkDocument doc input opts, SourceText body c) ∧
      ∀ g g', Visits opts (spansOf opts input) g → Turn opts g g' true →
        (g'.InPlace ↔ g'.Unjoined) := by
  have hlayout : ∀ g g', Visits opts (spansOf opts input) g → Turn opts g g' true →
      Layout body (g'.taken ++ g'.pending) := fun g g' hvisits hturn =>
    hturn.layout (hvisits.layout (spansOf_layout hbody))
  constructor
  · intro hunjoined
    rw [forall_chunk_iff (Q := SourceText body)]
    intro g g' hvisits hturn
    exact sourceText_of_unjoined (hturn.text_eq hvisits.text_eq) (hlayout g g' hvisits hturn) hlines
      (hunjoined g g' hvisits hturn)
  · intro g g' hvisits hturn
    exact inPlace_iff (hturn.text_eq hvisits.text_eq) (hlayout g g' hvisits hturn)

instance decidableUnjoined : ∀ (s : Span) (rest : List Span), Decidable (Unjoined s rest)
  | _,[] => .isTrue trivial
  | s,t::rest =>
    have := decidableUnjoined t rest
    inferInstanceAs (Decidable ((∀ x ∈ t::rest, ∀ c ∈ x.text, isSpace c) ∨
      t.line ≠ s.line ∧ Unjoined t rest))

/-- A check of the chunk that ends in a state. -/
def Gathered.looksUnjoined (g : Gathered) : Bool :=
  match lead g.taken with
  | [] => true
  | s::rest => decide (Text.Unjoined s rest)

lemma Gathered.unjoined_of_looks {g : Gathered} (h : g.looksUnjoined = true) : g.Unjoined := by
  intro s rest hlead
  rw [looksUnjoined,hlead] at h
  exact of_decide_eq_true h

/-- A line of twenty bytes, which is cut in the middle, and a short one. -/
def twentyBytes : Bytes :=
  List.replicate 10 97 ++ List.replicate 10 98 ++ ascii ['\n','c']

/-- The halves of the long line are chunks by themselves. -/
theorem twentyBytes_source :
    (chunkDocument 0 twentyBytes {maxChars := 10}).length = 3 ∧
      ∀ c ∈ chunkDocument 0 twentyBytes {maxChars := 10}, SourceText twentyBytes c := by
  refine ⟨by decide +kernel,(source_text (by decide +kernel) (by decide +kernel) 0).1 ?_⟩
  intro g g' hvisits hturn
  obtain ⟨states,hstates⟩ : ∃ states, trace {maxChars := 10} 12
      (Gathered.start (fun _ => []) (spansOf {maxChars := 10} twentyBytes)) = some states :=
    Option.isSome_iff_exists.mp (by decide +kernel)
  have hall : ∀ states ∈ trace {maxChars := 10} 12
      (Gathered.start (fun _ => []) (spansOf {maxChars := 10} twentyBytes)),
      states.all (fun g => (g.turn {maxChars := 10}).1.looksUnjoined) = true := by decide +kernel
  have hlooks := List.all_eq_true.mp (hall states hstates) g (hvisits.mem_trace hstates)
  rw [hturn.eq_turn] at hlooks
  exact Gathered.unjoined_of_looks hlooks

/-- The line `a. bb,cccccccccc`, which is longer than ten bytes. -/
def longLine : Bytes :=
  ascii ['a','.',' ','b','b',',','c','c','c','c','c','c','c','c','c','c']

/-- Cut to ten bytes, the first two pieces of the line are put together with a line feed that the
line does not have. -/
theorem longLine_joined :
    normalizeInput {maxChars := 10} longLine = some longLine ∧
      ¬∀ c ∈ chunkDocument 0 longLine {maxChars := 10}, SourceText longLine c := by
  refine ⟨by decide +kernel,?_⟩
  intro h
  obtain ⟨c,hc,hnewline⟩ : ∃ c ∈ chunkDocument 0 longLine {maxChars := 10}, newline ∈ c.text := by
    decide +kernel
  obtain ⟨front,back,hbody,-⟩ := h c hc
  have hmem : newline ∈ longLine := by
    rw [hbody]
    exact List.mem_append_left _ (List.mem_append_right _ hnewline)
  exact absurd hmem (by decide)

end RagRuntime.Text
