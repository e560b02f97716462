import RagRuntime.Text.ChunkRun

/-! Where the spans of a run lie in the text they were cut from. -/
namespace RagRuntime.Text
open RagRuntime.Base RagRuntime.Core

variable {opts : ChunkOptions}

/-- What stands between a span and the next: nothing within a line. -/
def gap (s : Span) : List Span → Bytes
  | [] => []
  | t::_ => if t.line = s.line then [] else [newline]

/-- The text that spans were cut from. -/
def render : List Span → Bytes
  | [] => []
  | s::rest => s.text ++ gap s rest ++ render rest

/-- The spans begin on line `n` and are numbered by their lines, by a counter of 32 bits; of the
spans of one line only the first can be empty. -/
def Numbered : ℕ → List Span → Prop
  | _,[] => True
  | n,s::rest => s.line = n % 2^32 ∧ newline ∉ s.text ∧
      (gap s rest = [] → ∀ t ∈ rest.head?, t.text ≠ []) ∧ Numbered (n + (gap s rest).length) rest

lemma numbered_cons {n : ℕ} {s : Span} {rest : List Span} :
    Numbered n (s::rest) ↔ s.line = n % 2^32 ∧ newline ∉ s.text ∧
      (gap s rest = [] → ∀ t ∈ rest.head?, t.text ≠ []) ∧
      Numbered (n + (gap s rest).length) rest := Iff.rfl

/-- The spans are what is left of the body. -/
def Layout (body : Bytes) (spans : List Span) : Prop :=
  ∃ front, body = front ++ render spans ∧ Numbered (front.count newline) spans

lemma count_gap (s : Span) (rest : List Span) :
    (gap s rest).count newline = (gap s rest).length := by
  cases rest with
  | nil => rfl
  | cons t rest =>
    rw [gap]
    split_ifs <;> rfl

lemma count_piece {s : Span} (h : newline ∉ s.text) (rest : List Span) :
    (s.text ++ gap s rest).count newline = (gap s rest).length := by
  rw [List.count_append,List.count_eq_zero_of_not_mem h,count_gap,Nat.zero_add]

/-- Behind some spans of a numbered text the rest is numbered on. -/
lemma Numbered.drop {n : ℕ} {pre rest : List Span} (h : Numbered n (pre ++ rest)) :
    ∃ front, render (pre ++ rest) = front ++ render rest ∧
      Numbered (n + front.count newline) rest := by
  induction pre generalizing n with
  | nil => exact ⟨[],rfl,h⟩
  | cons s pre ih =>
    rw [List.cons_append,numbered_cons] at h
    obtain ⟨-,htext,-,hrest⟩ := h
    obtain ⟨front,hrender,hnum⟩ := ih hrest
    refine ⟨s.text ++ gap s (pre ++ rest) ++ front,?_,?_⟩
    · rw [List.cons_append,render,hrender]
      simp only [List.append_assoc]
    · rwa [List.count_append,count_piece htext,← Nat.add_assoc]

/-- A span is on the line of the text before it or on a later one. -/
lemma Numbered.le_line {n : ℕ} {spans : List Span} (h : Numbered n spans)
    (hcount : n + (render spans).count newline < 2^32) : ∀ s ∈ spans, n ≤ s.line := by
  induction spans generalizing n with
  | nil => simp
  | cons s spans ih =>
    rw [numbered_cons] at h
    obtain ⟨hline,htext,-,hrest⟩ := h
    rw [render,List.count_append,count_piece htext] at hcount
    intro x hx
    obtain rfl | hx := List.mem_cons.mp hx
    · rw [hline,Nat.mod_eq_of_lt (by omega)]
    · exact (Nat.le_add_right _ _).trans (ih hrest (by omega) x hx)

/-- Spans of at most `2^32` lines come in order. -/
lemma Numbered.ordered {n : ℕ} {spans : List Span} (h : Numbered n spans)
    (hcount : n + (render spans).count newline < 2^32) : Ordered spans := by
  induction spans generalizing n with
  | nil => exact List.Pairwise.nil
  | cons s spans ih =>
    have hall := h.le_line hcount
    rw [numbered_cons] at h
    obtain ⟨hline,htext,-,hrest⟩ := h
    rw [render,List.count_append,count_piece htext] at hcount
    refine List.pairwise_cons.mpr ⟨?_,ih hrest (by omega)⟩
    intro line hmem
    obtain ⟨t,ht,rfl⟩ := List.mem_map.mp hmem
    have hle := hall t (List.mem_cons_of_mem _ ht)
    rwa [hline,Nat.mod_eq_of_lt (by omega)]

lemma Layout.ordered {body : Bytes} {spans : List Span} (h : Layout body spans)
    (hlines : body.count newline < 2^32) : Ordered spans := by
  obtain ⟨front,hbody,hnum⟩ := h
  apply hnum.ordered
  rwa [hbody,List.count_append] at hlines

lemma Layout.drop {body : Bytes} {pre rest : List Span} (h : Layout body (pre ++ rest)) :
    Layout body rest := by
  obtain ⟨front,hbody,hnum⟩ := h
  obtain ⟨front',hrender,hnum'⟩ := hnum.drop
  refine ⟨front ++ front',?_,?_⟩
  · rw [hbody,hrender,List.append_assoc]
  · rwa [List.count_append]

lemma Layout.suffix {body : Bytes} {spans rest : List Span} (h : Layout body spans)
    (hrest : rest <:+ spans) : Layout body rest := by
  obtain ⟨pre,rfl⟩ := hrest
  exact h.drop

section split
variable {s : Span} {cut : ℕ}

lemma gap_append (x : Span) (pre rest : List Span) (s t : Span) (h : t.line = s.line)
    (rest' : List Span) :
    gap x (pre ++ t::rest') = gap x (pre ++ s::rest) := by
  cases pre with
  | nil => simp [gap,h]
  | cons y pre => rfl

/-- A split does not change the text. -/
lemma render_split (pre rest : List Span) :
    render (pre ++ s.front cut::s.back cut::rest) = render (pre ++ s::rest) := by
  induction pre with
  | nil =>
    have hgap : gap (s.back cut) rest = gap s rest := by cases rest <;> rfl
    rw [List.nil_append,List.nil_append,render,render,render,hgap]
    simp [Span.front,Span.back,gap,← List.append_assoc]
  | cons x pre ih =>
    rw [List.cons_append,List.cons_append,render,render,ih,
      gap_append x pre rest s (s.front cut) rfl]

lemma numbered_split (h0 : 0 < cut) (hcut : cut < s.text.length) (pre rest : List Span) (n : ℕ)
    (h : Numbered n (pre ++ s::rest)) :
    Numbered n (pre ++ s.front cut::s.back cut::rest) := by
  induction pre generalizing n with
  | nil =>
    obtain ⟨hline,htext,hempty,hrest⟩ := h
    have hgap : gap (s.back cut) rest = gap s rest := by cases rest <;> rfl
    refine ⟨hline,fun hmem => htext (List.mem_of_mem_take hmem),fun _ => ?_,?_⟩
    · rintro t ⟨⟩
      exact List.ne_nil_of_length_pos (by simpa [Span.back] using hcut)
    · refine ⟨?_,fun hmem => htext (List.mem_of_mem_drop hmem),?_,?_⟩
      · simpa [gap,Span.front,Span.back] using hline
      · rwa [hgap]
      · rw [hgap]
        simpa [gap,Span.front,Span.back] using hrest
  | cons x pre ih =>
    rw [List.cons_append,numbered_cons] at h ⊢
    obtain ⟨hline,htext,hempty,hrest⟩ := h
    have hgap := gap_append x pre rest s (s.front cut) rfl (s.back cut::rest)
    refine ⟨hline,htext,?_,?_⟩
    · rw [hgap]
      intro hsame
      have hold := hempty hsame
      cases pre with
      | nil =>
        rintro t ⟨⟩
        have hne : s.text.take cut ≠ [] := by
          apply List.ne_nil_of_length_pos
          rw [List.length_take]
          omega
        exact hne
      | cons y pre => exact hold
    · rw [hgap]
      exact ih _ hrest

lemma Layout.split {body : Bytes} {pre rest : List Span} (h0 : 0 < cut)
    (hcut : cut < s.text.length) (h : Layout body (pre ++ s::rest)) :
    Layout body (pre ++ s.front cut::s.back cut::rest) := by
  obtain ⟨front,hbody,hnum⟩ := h
  exact ⟨front,by rw [hbody,render_split],numbered_split h0 hcut pre rest _ hnum⟩

end split

lemma Turn.layout {body : Bytes} {g g' : Gathered} {closed : Bool} (hturn : Turn opts g g' closed)
    (h : Layout body (g.taken ++ g.pending)) : Layout body (g'.taken ++ g'.pending) := by
  cases hturn with
  | exhausted | full | overfull => exact h
  | @split span rest hreads htext hover hcut =>
    rw [hreads.pending] at h
    exact h.split (lt_splitAt (Nat.zero_lt_of_lt hcut) _ opts) hcut
  | @alone span rest hreads | @fits span rest hreads =>
    rw [hreads.pending] at h
    simpa using h

lemma Turn.render_eq {g g' : Gathered} {closed : Bool} (hturn : Turn opts g g' closed) :
    render (g'.taken ++ g'.pending) = render (g.taken ++ g.pending) := by
  cases hturn with
  | exhausted | full | overfull => rfl
  | @split span rest hreads =>
    rw [hreads.pending]
    exact render_split g.taken rest
  | @alone span rest hreads | @fits span rest hreads =>
    rw [hreads.pending]
    simp

lemma Layout.next {body : Bytes} {g : Gathered} (h : Layout body (g.taken ++ g.pending))
    (hne : g.next opts ≠ []) : Layout body (g.next opts) := by
  unfold Gathered.next at hne ⊢
  split_ifs at hne ⊢
  · exact absurd rfl hne
  · apply h.suffix
    obtain ⟨pre,hpre⟩ := (overlapSpans_suffix opts g.taken).trans (List.tail_suffix _)
    exact ⟨pre,by rw [← List.append_assoc,hpre]⟩

/-- At every turn what is gathered and what is pending lie in the body as one piece. -/
lemma Visits.layout {body : Bytes} {spans : List Span} (hspans : Layout body spans) {g : Gathered}
    (h : Visits opts spans g) : Layout body (g.taken ++ g.pending) := by
  induction h with
  | start => exact hspans
  | go _ hturn ih => exact hturn.layout ih
  | next _ hturn hne ih => exact (hturn.layout ih).next hne

section body

lemma linePieces_flatten (opts : ChunkOptions) (line : Bytes) (start : ℕ) :
    (linePieces line opts start).flatten = line.drop start := by
  induction start using linePieces.induct line opts with
  | case1 start hlt cut ih =>
    have hcut : start < cut := lt_splitAt hlt [] opts
    rw [linePieces,dif_pos hlt]
    dsimp only
    rw [List.flatten_cons,ih]
    nth_rewrite 2 [← List.take_append_drop (cut-start) (line.drop start)]
    rw [List.drop_drop,Nat.add_sub_cancel' hcut.le]
  | case2 start hlt =>
    rw [linePieces,dif_neg hlt,List.drop_eq_nil_of_le (not_lt.mp hlt)]
    rfl

lemma linePieces_ne_nil (opts : ChunkOptions) (line : Bytes) (start : ℕ) :
    ∀ p ∈ linePieces line opts start, p ≠ [] := by
  induction start using linePieces.induct line opts with
  | case1 start hlt cut ih =>
    have hcut : start < cut := lt_splitAt hlt [] opts
    rw [linePieces,dif_pos hlt]
    intro p hp
    obtain rfl | hp := List.mem_cons.mp hp
    · apply List.ne_nil_of_length_pos
      rw [List.length_take,List.length_drop]
      change 0 < min (cut-start) _
      omega
    · exact ih p hp
  | case2 start hlt =>
    rw [linePieces,dif_neg hlt]
    simp

/-- A line is cut into pieces, of which only the first can be empty. -/
lemma lineSpans_eq (opts : ChunkOptions) (line : Bytes) (number : ℕ) :
    ∃ p ps, (p::ps).flatten = line ∧
    (∀ q ∈ ps, q ≠ []) ∧ lineSpans opts line number = (p::ps).map fun piece => ⟨piece,number⟩ := by
  unfold lineSpans
  split_ifs with hline
  · exact ⟨[],[],by simp [hline],by simp,rfl⟩
  · have hflatten := linePieces_flatten opts line 0
    have hpieces := linePieces_ne_nil opts line 0
    rw [List.drop_zero] at hflatten
    cases hcases : linePieces line opts 0 with
    | nil =>
      rw [hcases] at hflatten
      exact absurd hflatten.symm hline
    | cons p ps =>
      rw [hcases] at hflatten hpieces
      exact ⟨p,ps,hflatten,fun q hq => hpieces q (List.mem_cons_of_mem _ hq),rfl⟩

lemma render_pieces (p : Bytes) (ps : List Bytes) (number : ℕ) (rest : List Span) :
    render ((p::ps).map (fun piece => ⟨piece,number⟩) ++ rest) =
      (p::ps).flatten ++ gap ⟨[],number⟩ rest ++ render rest := by
  induction ps generalizing p with
  | nil =>
    have hgap : gap ⟨p,number⟩ rest = gap ⟨[],number⟩ rest := by cases rest <;> rfl
    simp [render,hgap]
  | cons q ps ih =>
    rw [List.map_cons,List.cons_append,render,ih]
    simp [gap]

lemma numbered_pieces {p : Bytes} {ps : List Bytes} {n : ℕ} {rest : List Span}
    (hpieces : ∀ q ∈ p::ps, newline ∉ q) (hne : ∀ q ∈ ps, q ≠ [])
    (hgap : gap ⟨[],n % 2^32⟩ rest = [] → rest = [])
    (hrest : Numbered (n + (gap ⟨[],n % 2^32⟩ rest).length) rest) :
    Numbered n ((p::ps).map (fun piece => ⟨piece,n % 2^32⟩) ++ rest) := by
  induction ps generalizing p with
  | nil =>
    have hsame : gap ⟨p,n % 2^32⟩ rest = gap ⟨[],n % 2^32⟩ rest := by cases rest <;> rfl
    refine ⟨rfl,hpieces p List.mem_cons_self,?_,?_⟩
    · change gap ⟨p,n % 2^32⟩ rest = [] → ∀ t ∈ rest.head?,t.text ≠ []
      rw [hsame]
      intro hnone
      rw [hgap hnone]
      simp
    · change Numbered (n + (gap ⟨p,n % 2^32⟩ rest).length) rest
      rwa [hsame]
  | cons q ps ih =>
    have hgap' : gap ⟨p,n % 2^32⟩ ((q::ps).map (fun piece => ⟨piece,n % 2^32⟩) ++ rest) = [] := by
      simp [gap]
    rw [List.map_cons,List.cons_append,numbered_cons,hgap']
    refine ⟨rfl,hpieces p List.mem_cons_self,fun _ => ?_,?_⟩
    · rintro t ⟨⟩
      exact hne q List.mem_cons_self
    · exact ih (fun x hx => hpieces x (List.mem_cons_of_mem _ hx))
        fun x hx => hne x (List.mem_cons_of_mem _ hx)

lemma spansFrom_layout (opts : ChunkOptions) (lines : List Bytes) (n : ℕ)
    (hlines : ∀ line ∈ lines, newline ∉ line) :
    render (spansFrom opts lines n) = [newline].intercalate lines ∧
      Numbered n (spansFrom opts lines n) := by
  induction lines generalizing n with
  | nil => exact ⟨rfl,trivial⟩
  | cons line lines ih =>
    obtain ⟨hrender,hnum⟩ := ih (n+1) fun l hl => hlines l (List.mem_cons_of_mem _ hl)
    obtain ⟨p,ps,rfl,hne,heq⟩ := lineSpans_eq opts line (n % 2^32)
    have hpieces : ∀ q ∈ p::ps, newline ∉ q := fun q hq hmem =>
      hlines _ List.mem_cons_self (List.mem_flatten_of_mem hq hmem)
    rw [spansFrom,heq,render_pieces]
    cases lines with
    | nil =>
      refine ⟨by simp [spansFrom,gap,render],?_⟩
      exact numbered_pieces hpieces hne (fun _ => rfl) trivial
    | cons line' lines =>
      have hgap : gap ⟨[],n % 2^32⟩ (spansFrom opts (line'::lines) (n+1)) = [newline] := by
        obtain ⟨q,qs,-,-,heq'⟩ := lineSpans_eq opts line' ((n+1) % 2^32)
        rw [spansFrom,heq',List.map_cons,List.cons_append,gap,if_neg]
        dsimp only
        omega
      rw [hgap,hrender]
      refine ⟨by simp [List.intercalate_cons_cons],?_⟩
      apply numbered_pieces hpieces hne
      · rw [hgap]
        simp
      · rw [hgap]
        exact hnum

lemma newline_not_mem_lines (body : Bytes) : ∀ line ∈ body.splitOn newline, newline ∉ line := by
  induction body with
  | nil => simp
  | cons c rest ih =>
    rw [List.splitOn_cons_eq_if_modifyHead]
    split_ifs with hc
    · simpa using ih
    · cases hlines : rest.splitOn newline with
      | nil => simp
      | cons line lines =>
        rw [hlines] at ih
        rw [List.modifyHead_cons]
        have hne : c ≠ newline := fun h => hc (beq_iff_eq.mpr h)
        intro l hl
        obtain rfl | hl := List.mem_cons.mp hl
        · exact List.not_mem_cons_of_ne_of_not_mem hne.symm (ih line List.mem_cons_self)
        · exact ih l (List.mem_cons_of_mem _ hl)

lemma render_bodySpans (opts : ChunkOptions) (body : Bytes) :
    render (bodySpans opts body) = body := by
  rw [bodySpans,(spansFrom_layout opts (body.splitOn newline) 0 (newline_not_mem_lines body)).1,
    List.intercalate_splitOn]

lemma bodySpans_layout (opts : ChunkOptions) (body : Bytes) :
    Layout body (bodySpans opts body) := by
  refine ⟨[],?_,(spansFrom_layout opts (body.splitOn newline) 0 (newline_not_mem_lines body)).2⟩
  rw [render_bodySpans,List.nil_append]

lemma spansOf_layout {input body : Bytes} (hbody : normalizeInput opts input = some body) :
    Layout body (spansOf opts input) := by
  unfold spansOf
  rw [hbody]
  dsimp only
  split_ifs
  · exact ⟨body,by simp [render],trivial⟩
  · exact ⟨body,by simp [render],trivial⟩
  · exact bodySpans_layout opts body

end body

section text

/-- The text of a chunk: its spans, one a line, without the leading empty ones. -/
def joined (spans : List Span) : Bytes := (spans.map Span.text).foldl appendLine []

/-- The spans from the first that is not empty. -/
def lead (spans : List Span) : List Span := spans.dropWhile fun s => s.text = []

/-- Spans that are appended to text. -/
def tailText (spans : List Span) : Bytes := spans.flatMap fun s => newline::s.text

lemma foldl_appendLine {text : Bytes} (h : text ≠ []) (spans : List Span) :
    (spans.map Span.text).foldl appendLine text = text ++ tailText spans := by
  induction spans generalizing text with
  | nil => simp [tailText]
  | cons s spans ih =>
    have happend : appendLine text s.text = text ++ newline::s.text := by
      simp [appendLine,h]
    rw [List.map_cons,List.foldl_cons,happend,ih (by simp)]
    simp [tailText]

lemma joined_cons {s : Span} {spans rest : List Span} (h : lead spans = s::rest) :
    joined spans = s.text ++ tailText rest ∧ s.text ≠ [] := by
  unfold joined
  induction spans with
  | nil => cases h
  | cons t spans ih =>
    unfold lead at h
    rw [List.dropWhile_cons] at h
    split_ifs at h with hempty
    · have hnil : appendLine [] t.text = [] := by simpa [appendLine] using hempty
      rw [List.map_cons,List.foldl_cons,hnil]
      exact ih h
    · cases h
      have hne : s.text ≠ [] := by simpa using hempty
      rw [List.map_cons,List.foldl_cons,appendLine,if_pos rfl]
      exact ⟨foldl_appendLine hne rest,hne⟩

lemma joined_nil {spans : List Span} (h : lead spans = []) : joined spans = [] := by
  unfold joined
  induction spans with
  | nil => rfl
  | cons t spans ih =>
    unfold lead at h
    rw [List.dropWhile_cons] at h
    split_ifs at h with hempty
    have hnil : appendLine [] t.text = [] := by simpa [appendLine] using hempty
    rw [List.map_cons,List.foldl_cons,hnil]
    exact ih h

lemma joined_concat (spans : List Span) (s : Span) :
    joined (spans ++ [s]) = appendLine (joined spans) s.text := by
  simp [joined]

lemma Turn.text_eq {g g' : Gathered} {closed : Bool} (hturn : Turn opts g g' closed)
    (h : g.text = joined g.taken) : g'.text = joined g'.taken := by
  cases hturn with
  | exhausted | full | overfull | split => exact h
  | alone hreads htext =>
    rw [htext] at h
    rw [joined_concat,← h]
    simp [appendLine]
  | fits hreads => rw [joined_concat,← h]

lemma Visits.text_eq {spans : List Span} {g : Gathered} (h : Visits opts spans g) :
    g.text = joined g.taken := by
  induction h with
  | start | next => rfl
  | go _ hturn ih => exact hturn.text_eq ih

end text

section strip
variable {α : Type*} {p : α → Bool} {a b : List α}

lemma rdropWhile_append_of_all (h : ∀ x ∈ b, p x) : (a ++ b).rdropWhile p = a.rdropWhile p := by
  rw [List.rdropWhile,List.reverse_append,List.dropWhile_append_of_pos (by simpa using h)]
  rfl

lemma rdropWhile_append_of_ne (h : b.rdropWhile p ≠ []) :
    (a ++ b).rdropWhile p = a ++ b.rdropWhile p := by
  unfold List.rdropWhile at h ⊢
  rw [List.reverse_append,List.dropWhile_append,if_neg,List.reverse_append,List.reverse_reverse]
  simpa using h

/-- Text that does not end in a stripped element is kept, whatever stands behind it. -/
lemma append_prefix_rdropWhile (h : b.rdropWhile p = b) (hne : b ≠ []) (c : List α) :
    a ++ b <+: (a ++ b ++ c).rdropWhile p := by
  by_cases hall : c.rdropWhile p = []
  · refine ⟨[],?_⟩
    rw [rdropWhile_append_of_all (List.rdropWhile_eq_nil_iff.mp hall),
      rdropWhile_append_of_ne (by rwa [h]),h,List.append_nil]
  · rw [rdropWhile_append_of_ne hall]
    exact List.prefix_append _ _

end strip

lemma isSpace_newline : isSpace newline := by decide

end RagRuntime.Text
