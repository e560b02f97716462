import RagRuntime.Text.Layout
import RagRuntime.Text.Scalars

/-! The chunker ends, and leaves nothing of the text out. -/
namespace RagRuntime.Text
open RagRuntime.Base RagRuntime.Core

variable {opts : ChunkOptions}

section termination

/-- One step of the loops of `chunk_document`: a turn within a chunk, or the end of a chunk and
the start of the next. -/
inductive LoopStep (opts : ChunkOptions) : Gathered → Gathered → Prop
  | go {g g' : Gathered} (hturn : Turn opts g g' false) : LoopStep opts g g'
  | next {g g' : Gathered} (hturn : Turn opts g g' true) (hne : g'.next opts ≠ []) :
      LoopStep opts g (Gathered.start g'.headings (g'.next opts))

/-- The work left, and the part of it that is not in the chunk yet. -/
def Gathered.rank (g : Gathered) : ℕ × ℕ := (weight (g.taken ++ g.pending),weight g.pending)

def RankLt : ℕ × ℕ → ℕ × ℕ → Prop := Prod.Lex (· < ·) (· < ·)

lemma Turn.weight_le {g g' : Gathered} {closed : Bool} (h : Turn opts g g' closed) :
    weight (g'.taken ++ g'.pending) ≤ weight (g.taken ++ g.pending) := by
  cases h with
  | exhausted | full | overfull => exact le_rfl
  | @split span rest hreads htext hover hcut =>
    have hsplit := weight_split (lt_splitAt (Nat.zero_lt_of_lt hcut) _ opts) hcut
    rw [hreads.pending,weight_append,weight_append]
    apply Nat.add_le_add_left
    simp only [weight_cons,← Nat.add_assoc]
    exact Nat.add_le_add_right hsplit.le _
  | alone hreads | fits hreads =>
    rw [hreads.pending]
    simp

lemma Turn.rank_lt {g g' : Gathered} (h : Turn opts g g' false) : RankLt g'.rank g.rank := by
  obtain hlt | heq := lt_or_eq_of_le h.weight_le
  · exact Prod.Lex.left _ _ hlt
  · unfold Gathered.rank
    rw [heq]
    exact Prod.Lex.right _ h.weight_lt

/-- A chunk that is not the last has taken a span. -/
lemma Turn.taken_ne_nil {g g' : Gathered} (h : Turn opts g g' true)
    (htext : g.text = joined g.taken)
    (hne : g'.next opts ≠ []) : g'.taken ≠ [] := by
  generalize hclosed : true = closed at h
  intro hnil
  cases h with
  | exhausted hpending => exact hne (if_pos hpending)
  | full hlines =>
    rw [hnil,List.length_nil] at hlines
    omega
  | split => cases hclosed
  | overfull hreads hfull =>
    change g.taken = [] at hnil
    rw [htext,hnil] at hfull
    exact hfull rfl
  | alone | fits => simp at hnil

lemma weight_next {g : Gathered} (htaken : g.taken ≠ []) (hne : g.next opts ≠ []) :
    weight (g.next opts) < weight (g.taken ++ g.pending) := by
  obtain ⟨s,rest,hs⟩ := List.exists_cons_of_ne_nil htaken
  have hpos := s.weight_pos
  have hback := weight_le_of_suffix (overlapSpans_suffix opts g.taken)
  unfold Gathered.next at hne ⊢
  split_ifs at hne ⊢
  · exact absurd rfl hne
  · rw [hs] at hback ⊢
    simp only [weight_append,weight_cons,List.tail_cons] at hback ⊢
    omega

/-- The loops come to an end: no run of steps goes on for ever. -/
theorem loopStep_wellFounded (opts : ChunkOptions) (spans : List Span) :
    WellFounded fun g' g => Visits opts spans g ∧ LoopStep opts g g' := by
  refine Subrelation.wf (r := InvImage RankLt Gathered.rank) ?_
    (InvImage.wf _ (WellFounded.prod_lex wellFounded_lt wellFounded_lt))
  rintro g' g ⟨hvisits,hstep⟩
  cases hstep with
  | go hturn => exact hturn.rank_lt
  | @next closed hturn hne =>
    apply Prod.Lex.left
    exact (weight_next (hturn.taken_ne_nil hvisits.text_eq hne) hne).trans_le hturn.weight_le

end termination

/-- The bytes of a range of the body. -/
def slice (body : Bytes) (r : ℕ × ℕ) : Bytes := (body.drop r.1).take (r.2-r.1)

/-- The chunk's text is the text of these ranges of the body, one behind the other. -/
structure PlacedAt (body : Bytes) (c : Chunk) (place : List (ℕ × ℕ)) : Prop where
  text : c.text = ((place.map (slice body)).foldl appendLine []).rdropWhile isSpace
  ordered : place.Pairwise fun a b => a.2 ≤ b.1

/-- The bytes of the body from `p` to `q` lie in one range of the chunk, and in its text. -/
def Holds (body : Bytes) (c : Chunk) (place : List (ℕ × ℕ)) (p q : ℕ) : Prop :=
  ∃ before r after, place = before ++ r::after ∧ r.1 ≤ p ∧ q ≤ r.2 ∧
    appendLine ((before.map (slice body)).foldl appendLine []) (slice body (r.1,q)) <+: c.text

/-- The ranges of spans that begin at `n`. -/
def ranges : ℕ → List Span → List (ℕ × ℕ)
  | _,[] => []
  | n,s::rest => (n,n+s.text.length)::ranges (n+s.text.length+(gap s rest).length) rest

/-- Where the spans of a chunk lie. -/
def Gathered.place (g : Gathered) (body : Bytes) : List (ℕ × ℕ) :=
  ranges (body.length - (render (g.taken ++ g.pending)).length) g.taken

/-- A sequence `x` behind `a` lies in one of the spans, and in its range. -/
def Found (body : Bytes) (taken : List Span) (place : List (ℕ × ℕ)) (a x : Bytes) : Prop :=
  ∃ (pre : List Span) (s : Span) (post : List Span) (before : List (ℕ × ℕ)) (lo : ℕ)
    (after : List (ℕ × ℕ)) (u v : Bytes), taken = pre ++ s::post ∧
    place = before ++ (lo,lo+s.text.length)::after ∧
    before.map (slice body) = pre.map Span.text ∧ slice body (lo,lo+s.text.length) = s.text ∧
    s.text = u ++ (x ++ v) ∧ lo+u.length = a.length

lemma slice_append (front text back : Bytes) :
    slice (front ++ (text ++ back)) (front.length,front.length+text.length) = text := by
  rw [slice,List.drop_left,Nat.add_sub_cancel_left,List.take_left]

/-- A sequence that begins in a spelled text ends in it. -/
lemma Spelled.contains {text u x b rest : Bytes} (h : Spelled Sequence text) (hx : Sequence x)
    (hu : u.length < text.length) (heq : text ++ rest = u ++ (x ++ b)) :
    ∃ v, text = u ++ (x ++ v) := by
  obtain ⟨c,xs,rfl⟩ := List.exists_cons_of_ne_nil hx.ne_nil
  obtain ⟨w,rfl,-⟩ | ⟨w,rfl,hw⟩ := List.append_eq_append_iff.mp heq
  · rw [List.length_append] at hu
    omega
  · cases w with
    | nil => simp at hu
    | cons d w =>
      rw [List.cons_append,List.cons_append] at hw
      obtain rfl := (List.cons_eq_cons.mp hw).1
      obtain ⟨tail,back,hhead,rfl,-⟩ := (h.cut (fun s hs => hs) hx.lead).2.head fun s hs => hs
      have hwidth := hx.1
      have hwidth' := hhead.1
      rw [List.append_assoc] at hw
      have hlength : xs.length = tail.length := by omega
      obtain ⟨rfl,-⟩ := List.append_inj (List.cons_eq_cons.mp hw).2 hlength
      exact ⟨back,rfl⟩

lemma gap_eq (s : Span) (rest : List Span) : gap s rest = [] ∨ gap s rest = [newline] := by
  cases rest with
  | nil => exact Or.inl rfl
  | cons t rest =>
    rw [gap]
    split_ifs
    exacts [Or.inl rfl,Or.inr rfl]

/-- A sequence behind `front` lies in one of the spans taken, or in those behind them. -/
lemma found_or_behind {body front a x b : Bytes} {taken pending : List Span}
    (hspelled : ∀ s ∈ taken, Spelled Sequence s.text) (hx : Sequence x) (hne : x ≠ [newline])
    (hbody : body = front ++ render (taken ++ pending)) (hocc : body = a ++ (x ++ b))
    (hle : front.length ≤ a.length) :
    Found body taken (ranges front.length taken) a x ∨
      ∃ front', body = front' ++ render pending ∧ front'.length ≤ a.length := by
  induction taken generalizing front with
  | nil => exact Or.inr ⟨front,hbody,hle⟩
  | cons s taken ih =>
    rw [List.cons_append,render,List.append_assoc] at hbody
    have hslice : slice body (front.length,front.length+s.text.length) = s.text := by
      rw [hbody,slice_append]
    obtain ⟨u,rfl⟩ : ∃ u, a = front ++ u := by
      obtain ⟨u,rfl,-⟩ | ⟨w,rfl,-⟩ := List.append_eq_append_iff.mp (hbody.symm.trans hocc)
      · exact ⟨u,rfl⟩
      · rw [List.length_append] at hle
        exact ⟨[],by rw [List.length_eq_zero_iff.mp (show w.length = 0 by omega)]; simp⟩
    have hrest : s.text ++ (gap s (taken ++ pending) ++ render (taken ++ pending)) =
      u ++ (x ++ b) := by
      rw [hbody,List.append_assoc] at hocc
      exact List.append_cancel_left hocc
    by_cases hin : u.length < s.text.length
    · left
      obtain ⟨v,hv⟩ := (hspelled s List.mem_cons_self).contains hx hin hrest
      exact ⟨[],s,taken,[],front.length,_,u,v,rfl,rfl,rfl,hslice,hv,by simp⟩
    · -- the line feed between two spans is no part of `x`
      have hgap : s.text.length + (gap s (taken ++ pending)).length ≤ u.length := by
        obtain hgap | hgap := gap_eq s (taken ++ pending)
        · rw [hgap]
          exact not_lt.mp hin
        · rw [hgap] at hrest ⊢
          apply Nat.lt_of_le_of_ne (not_lt.mp hin)
          intro hsame
          obtain ⟨c,xs,rfl⟩ := List.exists_cons_of_ne_nil hx.ne_nil
          have htail := (List.append_inj hrest hsame).2
          obtain rfl : newline = c := (List.cons_eq_cons.mp htail).1
          have hwidth : xs.length+1 = utf8Width newline := hx.1
          have hone : utf8Width newline = 1 := rfl
          exact hne (by rw [List.length_eq_zero_iff.mp (show xs.length = 0 by omega)])
      have hbody' : body = front ++ (s.text ++ gap s (taken ++ pending)) ++
          render (taken ++ pending) := by
        rw [hbody]
        simp only [List.append_assoc]
      have hranges : ranges (front.length+s.text.length+(gap s taken).length) taken =
          ranges (front ++ (s.text ++ gap s (taken ++ pending))).length taken := by
        cases taken with
        | nil => rfl
        | cons t taken =>
          rw [List.length_append,List.length_append,← Nat.add_assoc]
          rfl
      have hle' : (front ++ (s.text ++ gap s (taken ++ pending))).length ≤ (front ++ u).length := by
        simp only [List.length_append]
        omega
      obtain hfound | hbehind := ih (fun t ht => hspelled t (List.mem_cons_of_mem _ ht)) hbody' hle'
      · left
        obtain ⟨pre,t,post,before,lo,after,u',v,rfl,hplace,hmap,hslice',htext,hlo⟩ := hfound
        refine ⟨s::pre,t,post,(front.length,front.length+s.text.length)::before,lo,after,u',v,rfl,
          ?_,?_,hslice',htext,hlo⟩
        · rw [ranges,hranges,hplace]
          rfl
        · rw [List.map_cons,List.map_cons,hslice,hmap]
      · exact Or.inr hbehind

lemma render_drop (pre rest : List Span) :
    ∃ front, render (pre ++ rest) = front ++ render rest := by
  induction pre with
  | nil => exact ⟨[],rfl⟩
  | cons s pre ih =>
    obtain ⟨front,hfront⟩ := ih
    refine ⟨s.text ++ gap s (pre ++ rest) ++ front,?_⟩
    rw [List.cons_append,render,hfront]
    simp only [List.append_assoc]

/-- What the run of a chunk keeps of the spans it starts from. -/
lemma run_spans (opts : ChunkOptions) (headings : ℕ → Bytes) {spans : List Span}
    (hspelled : ∀ s ∈ spans, Spelled Sequence s.text) :
    let g := (Gathered.start headings spans).run opts
    render (g.taken ++ g.pending) = render spans ∧ g.text = joined g.taken ∧
      ∀ s ∈ g.taken ++ g.pending, Spelled Sequence s.text := by
  apply run_induct (Q := fun g => render (g.taken ++ g.pending) = render spans ∧
    g.text = joined g.taken ∧ ∀ s ∈ g.taken ++ g.pending, Spelled Sequence s.text)
  · rintro g g' closed hturn ⟨hrender,htext,hspans⟩
    exact ⟨hturn.render_eq.trans hrender,hturn.text_eq htext,hturn.spelled (fun s hs => hs) hspans⟩
  · exact ⟨rfl,rfl,hspelled⟩

/-- Every sequence of the text but a line feed is found in the spans of a chunk. -/
lemma exists_closing {body front a x b : Bytes} {headings : ℕ → Bytes} {spans : List Span}
    (hx : Sequence x) (hne : x ≠ [newline]) (hocc : body = a ++ (x ++ b))
    (hspelled : ∀ s ∈ spans, Spelled Sequence s.text) (hbody : body = front ++ render spans)
    (hle : front.length ≤ a.length) :
    ∃ g ∈ closings opts headings spans, g.text = joined g.taken ∧
      Found body g.taken (g.place body) a x := by
  have hpos := List.length_pos_iff.mpr hx.ne_nil
  fun_induction closings opts headings spans generalizing front with
  | case1 =>
    have hlength := congrArg List.length hocc
    rw [hbody] at hlength
    simp only [render,List.length_append,List.length_nil] at hlength
    omega
  | case2 headings spans hspans g =>
    rename_i ih
    obtain ⟨hrender,htext,hg⟩ := run_spans opts headings hspelled
    change render (g.taken ++ g.pending) = _ at hrender
    rw [← hrender] at hbody
    have hplace : g.place body = ranges front.length g.taken := by
      rw [Gathered.place]
      congr 1
      rw [hbody,List.length_append]
      omega
    obtain hfound | ⟨front',hbody',hle'⟩ := found_or_behind
      (fun s hs => hg s (List.mem_append_left _ hs)) hx hne hbody hocc hle
    · exact ⟨g,List.mem_cons_self,htext,by rwa [hplace]⟩
    · have hpending : g.pending ≠ [] := by
        intro hnil
        have hlength := congrArg List.length hocc
        rw [hbody',hnil] at hlength
        simp only [render,List.length_append,List.length_nil] at hlength
        omega
      have hnext : g.next opts = overlapSpans opts g.taken ++ g.pending := if_neg hpending
      obtain ⟨pre,hpre⟩ := (overlapSpans_suffix opts g.taken).trans (List.tail_suffix _)
      obtain ⟨w,hw⟩ := render_drop pre (g.next opts)
      obtain ⟨w',hw'⟩ := render_drop (overlapSpans opts g.taken) g.pending
      have hnextBody : body = front ++ w ++ render (g.next opts) := by
        rw [hbody,List.append_assoc,← hw,hnext,← List.append_assoc,hpre]
      have hbefore : (front ++ w).length ≤ front'.length := by
        have hlength := congrArg List.length (hnextBody.symm.trans hbody')
        rw [hnext,hw'] at hlength
        simp only [List.length_append] at hlength ⊢
        omega
      obtain ⟨g',hg',hfound⟩ := ih (fun s hs => hg s (by
        rw [hnext] at hs
        rw [← hpre,List.append_assoc]
        exact List.mem_append_right _ hs)) hnextBody (hbefore.trans hle')
      exact ⟨g',List.mem_cons_of_mem _ hg',hfound⟩

/-- A visible sequence that is found in the spans of a chunk lies in its text. -/
lemma Found.holds {body a x : Bytes} {g : Gathered} {place : List (ℕ × ℕ)}
    (h : Found body g.taken place a x) (htext : g.text = joined g.taken) (hx : Sequence x)
    (hvisible : ¬∀ c ∈ x, isSpace c) :
    g.trimmed ≠ [] ∧ ∀ c : Chunk, c.text = g.trimmed → Holds body c place a.length
      (a.length+x.length) := by
  obtain ⟨pre,s,post,before,lo,after,u,v,htaken,rfl,hmap,hslice,hs,hlo⟩ := h
  have hkept : x.rdropWhile isSpace = x := hx.rdropWhile.resolve_right fun hgone =>
    hvisible (List.rdropWhile_eq_nil_iff.mp hgone.1)
  have hne : ∀ t : Bytes, appendLine t (u ++ x) ≠ [] := by
    intro t
    unfold appendLine
    split_ifs <;> simp [hx.ne_nil]
  have happend : appendLine (joined pre) s.text = appendLine (joined pre) (u ++ x) ++ v := by
    unfold appendLine
    rw [hs]
    split_ifs <;> simp
  have hjoined : g.text = appendLine (joined pre) (u ++ x) ++ (v ++ tailText post) := by
    rw [htext,htaken,joined,List.map_append,List.foldl_append,List.map_cons,List.foldl_cons]
    change (post.map Span.text).foldl appendLine (appendLine (joined pre) s.text) = _
    rw [happend,foldl_appendLine (by simp [hne]),List.append_assoc]
  have hpre : appendLine (joined pre) (u ++ x) <+: g.trimmed := by
    rw [Gathered.trimmed,hjoined]
    obtain ⟨w,hw⟩ : ∃ w, appendLine (joined pre) (u ++ x) = w ++ x := by
      unfold appendLine
      split_ifs
      · exact ⟨u,rfl⟩
      · exact ⟨joined pre ++ [newline] ++ u,by simp⟩
    rw [hw]
    exact append_prefix_rdropWhile hkept hx.ne_nil _
  refine ⟨?_,?_⟩
  · intro hnil
    rw [hnil] at hpre
    exact hne _ (List.prefix_nil.mp hpre)
  · intro c hc
    have hlength : s.text.length = u.length + (x.length+v.length) := by
      rw [hs,List.length_append,List.length_append]
    refine ⟨before,(lo,lo+s.text.length),after,rfl,?_,?_,?_⟩
    · change lo ≤ a.length
      omega
    · change a.length+x.length ≤ lo+s.text.length
      omega
    · have hfront : slice body (lo,a.length+x.length) = u ++ x := by
        have htake : slice body (lo,a.length+x.length) = s.text.take (u.length+x.length) := by
          rw [← hslice,slice,slice,List.take_take]
          congr 1
          dsimp only
          omega
        rw [htake,hs,← List.append_assoc,← List.length_append,List.take_left]
      rw [hmap,hfront,hc]
      exact hpre

/-- The ranges of spans have the spans' text. -/
lemma map_slice_ranges {body front : Bytes} {taken pending : List Span}
    (hbody : body = front ++ render (taken ++ pending)) :
    (ranges front.length taken).map (slice body) = taken.map Span.text := by
  induction taken generalizing front with
  | nil => rfl
  | cons s taken ih =>
    rw [List.cons_append,render,List.append_assoc] at hbody
    have hslice : slice body (front.length,front.length+s.text.length) = s.text := by
      rw [hbody,slice_append]
    rw [ranges,List.map_cons,List.map_cons,hslice]
    congr 1
    cases taken with
    | nil => rfl
    | cons t taken =>
      have hbody' : body = front ++ (s.text ++ gap s (t::taken)) ++ render
        (t::taken ++ pending) := by
        rw [hbody]
        simp only [List.append_assoc]
        rfl
      rw [← ih hbody',List.length_append,List.length_append,Nat.add_assoc]

lemma ranges_ge (n : ℕ) (spans : List Span) : ∀ r ∈ ranges n spans, n ≤ r.1 := by
  induction spans generalizing n with
  | nil => simp [ranges]
  | cons s spans ih =>
    intro r hr
    obtain rfl | hr := List.mem_cons.mp hr
    · exact le_rfl
    · have := ih _ r hr
      omega

lemma ranges_ordered (n : ℕ) (spans : List Span) :
    (ranges n spans).Pairwise fun a b => a.2 ≤ b.1 := by
  induction spans generalizing n with
  | nil => exact List.Pairwise.nil
  | cons s spans ih =>
    refine List.Pairwise.cons ?_ (ih _)
    intro r hr
    exact (Nat.le_add_right _ _).trans (ranges_ge _ _ r hr)

lemma placedAt {body : Bytes} {g : Gathered} {doc : ℕ} (htext : g.text = joined g.taken)
    (hlayout : Layout body (g.taken ++ g.pending)) :
    ∀ c ∈ g.chunk? doc, PlacedAt body c (g.place body) := by
  obtain ⟨front,hbody,-⟩ := hlayout
  have hplace : g.place body = ranges front.length g.taken := by
    rw [Gathered.place]
    congr 1
    rw [hbody,List.length_append]
    omega
  intro c hc
  unfold Gathered.chunk? at hc
  dsimp only at hc
  split_ifs at hc
  · cases hc
  · cases hc
    refine ⟨?_,?_⟩
    · rw [hplace,map_slice_ranges hbody]
      exact congrArg (List.rdropWhile isSpace) htext
    · rw [hplace]
      exact ranges_ordered _ _

section lines

/-- The line a chunk starts on. -/
def Gathered.startLine (g : Gathered) : ℕ := (g.taken.head?.map Span.line).getD 0

lemma startLine_of_chunk {g : Gathered} {doc : ℕ} :
    ∀ c ∈ g.chunk? doc, c.startLine = g.startLine := by
  intro c hc
  unfold Gathered.chunk? at hc
  dsimp only at hc
  split_ifs at hc
  · cases hc
  · cases hc
    rfl

/-- No chunk holds a span of an earlier line than the spans it was made from. -/
lemma closings_lines {m : ℕ} {headings : ℕ → Bytes} {spans : List Span}
    (h : ∀ s ∈ spans, m ≤ s.line) : ∀ g ∈ closings opts headings spans, m ≤ g.startLine := by
  fun_induction closings opts headings spans with
  | case1 => simp
  | case2 headings spans hspans g ih =>
    have hg : ∀ s ∈ g.taken ++ g.pending, m ≤ s.line := by
      apply gather_spans (P := fun taken pending => ∀ s ∈ taken ++ pending, m ≤ s.line)
      · intro taken span rest h
        simpa using h
      · intro taken span rest cut h0 hcut h s hs
        simp only [List.mem_append,List.mem_cons] at hs h
        obtain hs | rfl | rfl | hs := hs
        · exact h s (Or.inl hs)
        · exact h span (Or.inr (Or.inl rfl))
        · exact h span (Or.inr (Or.inl rfl))
        · exact h s (Or.inr (Or.inr hs))
      · exact h
    have htaken : g.taken ≠ [] := gather_taken_ne_nil opts [] spans headings [] []
      (Or.inr ⟨rfl,hspans⟩)
    intro g' hg'
    obtain rfl | hg' := List.mem_cons.mp hg'
    · obtain ⟨s,rest,hs⟩ := List.exists_cons_of_ne_nil htaken
      rw [Gathered.startLine,hs]
      exact hg s (by simp [hs])
    · apply ih _ g' hg'
      intro s hs
      unfold Gathered.next at hs
      split_ifs at hs
      · cases hs
      · obtain hs | hs := List.mem_append.mp hs
        · apply hg s
          apply List.mem_append_left
          exact List.mem_of_mem_tail ((overlapSpans_suffix opts g.taken).subset hs)
        · exact hg s (List.mem_append_right _ hs)

/-- Chunks of spans in order start in order. -/
lemma closings_ordered {headings : ℕ → Bytes} {spans : List Span} (h : Ordered spans) :
    (closings opts headings spans).Pairwise fun g g' => g.startLine ≤ g'.startLine := by
  fun_induction closings opts headings spans with
  | case1 => exact List.Pairwise.nil
  | case2 headings spans hspans g ih =>
    have hg : Ordered (g.taken ++ g.pending) := ordered_gather opts headings h
    have hnext : Ordered (g.next opts) := ordered_next h
    refine List.Pairwise.cons ?_ (ih hnext)
    apply closings_lines
    have htaken : g.taken ≠ [] := gather_taken_ne_nil opts [] spans headings [] []
      (Or.inr ⟨rfl,hspans⟩)
    obtain ⟨s,rest,hs⟩ := List.exists_cons_of_ne_nil htaken
    intro t ht
    rw [Gathered.startLine,hs]
    change s.line ≤ t.line
    rw [hs] at hg
    have hhead := (List.pairwise_cons.mp hg).1
    unfold Gathered.next at ht
    split_ifs at ht
    · cases ht
    · apply hhead
      apply List.mem_map_of_mem
      obtain ht | ht := List.mem_append.mp ht
      · apply List.mem_append_left
        have := (overlapSpans_suffix opts g.taken).subset ht
        rwa [hs] at this
      · exact List.mem_append_right _ ht

end lines

/-- The document prefix leaves room for text. -/
def Roomy (opts : ChunkOptions) : Prop :=
  opts.policy.documentPrefix = [] ∨ count opts.policy.documentPrefix opts < usableLimit opts

lemma spansOf_eq {input body : Bytes} (hbody : normalizeInput opts input = some body)
    (hne : body ≠ []) (hroom : Roomy opts) : spansOf opts input = bodySpans opts body := by
  unfold spansOf
  rw [hbody]
  dsimp only
  rw [if_neg hne,if_neg]
  rintro ⟨hcount,hpre⟩
  exact hroom.elim hpre (not_lt.mpr hcount)

lemma closings_layout {input body : Bytes} (hbody : normalizeInput opts input = some body) :
    ∀ g ∈ closings opts (fun _ => []) (spansOf opts input),
      g.text = joined g.taken ∧ Layout body (g.taken ++ g.pending) := by
  intro g hg
  obtain ⟨g',hvisits,hturn⟩ := Visits.start.closings_subset g hg
  exact ⟨hturn.text_eq hvisits.text_eq,hturn.layout (hvisits.layout (spansOf_layout hbody))⟩

/-- A visible sequence of the body lies in a chunk. -/
lemma exists_holds {input body a x b : Bytes} (hbody : normalizeInput opts input = some body)
    (hroom : Roomy opts) (hx : Sequence x) (hvisible : ¬∀ c ∈ x, isSpace c)
    (hocc : body = a ++ (x ++ b)) (doc : ℕ) :
    ∃ g ∈ closings opts (fun _ => []) (spansOf opts input), ∃ c ∈ g.chunk? doc,
      Holds body c (g.place body) a.length (a.length+x.length) := by
  have hne : body ≠ [] := by
    rw [hocc]
    simp [hx.ne_nil]
  have hnewline : x ≠ [newline] := by
    rintro rfl
    exact hvisible (by simp [isSpace_newline])
  obtain ⟨g,hg,htext,hfound⟩ :
      ∃ g ∈ closings opts (fun _ => []) (spansOf opts input), g.text = joined g.taken ∧
        Found body g.taken (g.place body) a x := by
    have hwhole : body = [] ++ render (spansOf opts input) := by
      rw [spansOf_eq hbody hne hroom,render_bodySpans,List.nil_append]
    exact exists_closing hx hnewline hocc spelled_spansOf hwhole (Nat.zero_le _)
  obtain ⟨htrimmed,hholds⟩ := hfound.holds htext hx hvisible
  let c : Chunk :=
    ⟨uint32Max,doc,g.trimmed,g.context,g.startLine,(g.taken.getLast?.map Span.line).getD 0⟩
  exact ⟨g,hg,c,if_neg htrimmed,hholds c rfl⟩

/-- The loops of the chunker end; every Unicode scalar of the text that is not white space lies in
a chunk; and with at most `2^32` lines the chunks start in order. -/
theorem chunks_cover {input body : Bytes} (hbody : normalizeInput opts input = some body)
    (hroom : Roomy opts) (doc : ℕ) :
    (WellFounded fun g' g => Visits opts (spansOf opts input) g ∧ LoopStep opts g g') ∧
    (∃ placed : List (Chunk × List (ℕ × ℕ)), placed.map Prod.fst = chunkDocument doc input opts ∧
      (∀ cp ∈ placed, PlacedAt body cp.1 cp.2) ∧
      ∀ a ch b, body = a ++ (scalarBytes ch ++ b) → (¬∀ c ∈ scalarBytes ch, isSpace c) →
        ∃ cp ∈ placed, Holds body cp.1 cp.2 a.length (a.length+(scalarBytes ch).length)) ∧
    ((body.splitOn newline).length ≤ 2^32 →
      (chunkDocument doc input opts).Pairwise fun c c' => c.startLine ≤ c'.startLine) := by
  refine ⟨loopStep_wellFounded opts _,?_,?_⟩
  · refine ⟨(closings opts (fun _ => []) (spansOf opts input)).filterMap fun g =>
      (g.chunk? doc).map fun c => (c,g.place body),?_,?_,?_⟩
    · rw [chunkDocument_eq,List.map_filterMap]
      congr 1
      funext g
      cases g.chunk? doc <;> rfl
    · intro cp hcp
      obtain ⟨g,hg,hc⟩ := List.mem_filterMap.mp hcp
      obtain ⟨c,hchunk,rfl⟩ := Option.map_eq_some_iff.mp hc
      obtain ⟨htext,hlayout⟩ := closings_layout hbody g hg
      exact placedAt htext hlayout c hchunk
    · intro a ch b hocc hvisible
      obtain ⟨g,hg,c,hc,hholds⟩ :=
        exists_holds hbody hroom (sequence_scalarBytes ch) hvisible hocc doc
      refine ⟨(c,g.place body),List.mem_filterMap.mpr ⟨g,hg,?_⟩,hholds⟩
      rw [Option.mem_def.mp hc]
      rfl
  · intro hlines
    rw [chunkDocument_eq,List.pairwise_filterMap]
    have hordered : Ordered (spansOf opts input) := by
      unfold spansOf
      rw [hbody]
      dsimp only
      split_ifs
      · exact List.Pairwise.nil
      · exact List.Pairwise.nil
      · exact (ordered_spansFrom (by omega)).1
    apply (closings_ordered hordered).imp
    intro g g' hle c hc c' hc'
    rw [startLine_of_chunk c hc,startLine_of_chunk c' hc']
    exact hle

theorem letters_cover :
    (WellFounded fun g' g => Visits {} (spansOf {} (ascii ['a',' ','b'])) g ∧ LoopStep {} g g') ∧
    (∃ placed : List (Chunk × List (ℕ × ℕ)),
      placed.map Prod.fst = chunkDocument 0 (ascii ['a',' ','b']) {} ∧
      (∀ cp ∈ placed, PlacedAt (ascii ['a',' ','b']) cp.1 cp.2) ∧
      ∀ a ch b, ascii ['a',' ','b'] = a ++ (scalarBytes ch ++ b) →
        (¬∀ c ∈ scalarBytes ch, isSpace c) → ∃ cp ∈ placed,
          Holds (ascii ['a',' ','b']) cp.1 cp.2 a.length (a.length+(scalarBytes ch).length)) ∧
    (((ascii ['a',' ','b']).splitOn newline).length ≤ 2^32 →
      (chunkDocument 0 (ascii ['a',' ','b']) {}).Pairwise fun c c' => c.startLine ≤ c'.startLine) :=
  chunks_cover (by decide +kernel) (Or.inl rfl) 0

section wrap

/-- One line a chunk, no overlap and no headings. -/
def lineByLine : ChunkOptions := {maxLines := 1, overlapLines := 0, headingContext := false}

/-- The letter `a` on lines 1 and `k+2`, and nothing else. -/
def twoLetters (k : ℕ) : Bytes :=
  newline::97::newline::(List.replicate k newline ++ [97])

lemma lineByLine_run (headings : ℕ → Bytes) {s : Span} (rest : List Span)
    (h : s.text.length ≤ 1600) :
    (Gathered.start headings (s::rest)).run lineByLine = ⟨[s],rest,headings,[],s.text⟩ := by
  have hreads : (Gathered.start headings (s::rest)).Reads lineByLine s rest :=
    ⟨rfl,Nat.zero_lt_one⟩
  have hscan : (Gathered.start headings (s::rest)).scan lineByLine s =
      Gathered.start headings (s::rest) := rfl
  have hfits : (Gathered.start headings (s::rest)).tokens lineByLine s ≤
    usableLimit lineByLine := by
    rw [Gathered.tokens,hscan]
    simpa [Gathered.start,embeddingForm,appendLine,count,lineByLine,usableLimit] using h
  have hturn := Turn.fits hreads hfits
  rw [hturn.run_eq,hscan]
  split_ifs
  · simp [Gathered.start,appendLine]
  · have hfull : Turn lineByLine ⟨[s],rest,headings,[],s.text⟩ _ true := .full le_rfl
    have := hfull.run_eq
    simpa [Gathered.start,appendLine] using this

lemma lineByLine_startLines (doc : ℕ) (headings : ℕ → Bytes) (spans : List Span)
    (h : ∀ s ∈ spans, s.text.length ≤ 1600) :
    ((closings lineByLine headings spans).filterMap (Gathered.chunk? · doc)).map Chunk.startLine =
      (spans.filter fun s => s.text.rdropWhile isSpace ≠ []).map Span.line := by
  induction spans with
  | nil => simp
  | cons s rest ih =>
    have hnext : (⟨[s],rest,headings,[],s.text⟩ : Gathered).next lineByLine = rest := by
      unfold Gathered.next
      split_ifs with hrest
      · exact hrest.symm
      · rfl
    rw [closings,dif_neg (List.cons_ne_nil _ _)]
    dsimp only
    rw [lineByLine_run headings rest (h s List.mem_cons_self),hnext,List.filterMap_cons,
      List.filter_cons]
    have hih := ih fun t ht => h t (List.mem_cons_of_mem _ ht)
    have hchunk : (⟨[s],rest,headings,[],s.text⟩ : Gathered).chunk? doc =
        if s.text.rdropWhile isSpace = [] then none
        else some ⟨uint32Max,doc,s.text.rdropWhile isSpace,[],s.line,s.line⟩ := rfl
    rw [hchunk]
    by_cases hstrip : s.text.rdropWhile isSpace = []
    · simpa [hstrip] using hih
    · simpa [hstrip] using hih

lemma lineByLine_blank (k n : ℕ) (lines : List Bytes) :
    spansFrom lineByLine (List.replicate k [] ++ lines) n =
      (List.range k).map (fun i => ⟨[],(n+i) % 2^32⟩) ++ spansFrom lineByLine lines (n+k) := by
  induction k generalizing n with
  | zero => rfl
  | succ k ih =>
    rw [List.replicate_succ,List.cons_append,spansFrom,ih,List.range_succ_eq_map]
    simp [lineSpans,Nat.add_comm,Nat.add_left_comm,Function.comp_def]

lemma lineByLine_letter (n : ℕ) : lineSpans lineByLine [97] n = [⟨[97],n⟩] := by
  have hpieces : linePieces [97] lineByLine 0 = [[97]] := by decide +kernel
  rw [lineSpans,if_neg (List.cons_ne_nil _ _),hpieces]
  rfl

lemma normalizeInput_ascii {text : Bytes} (h : ∀ c ∈ text, c.val < 128 ∧ c ≠ carriageReturn) :
    normalizeInput opts text = some text := by
  induction text with
  | nil => simp [normalizeInput]
  | cons c rest ih =>
    obtain ⟨hascii,hcr⟩ := h c List.mem_cons_self
    rw [normalizeInput,if_neg hcr,if_pos hascii,ih fun d hd => h d (List.mem_cons_of_mem _ hd)]
    rfl

lemma twoLetters_lines (k : ℕ) :
    (twoLetters k).splitOn newline = []::[97]::(List.replicate k [] ++ [[97]]) := by
  have hblank : (List.replicate k newline ++ [(97 : Byte)]).splitOn newline =
      List.replicate k [] ++ [[97]] := by
    induction k with
    | zero => rfl
    | succ k ih =>
      have hfirst := List.splitOn_append_cons_self (a := newline) []
        (List.replicate k newline ++ [97])
      rw [ih] at hfirst
      exact hfirst
  have htail := List.splitOn_append_cons_self (a := newline) [97] (List.replicate k newline ++ [97])
  have hhead := List.splitOn_append_cons_self (a := newline) []
    ([97] ++ newline::(List.replicate k newline ++ [97]))
  rw [htail,hblank] at hhead
  exact hhead

lemma normalizeInput_twoLetters (k : ℕ) :
    normalizeInput opts (twoLetters k) = some (twoLetters k) := by
  apply normalizeInput_ascii
  intro c hc
  simp only [twoLetters,List.mem_cons,List.mem_append,List.mem_replicate,List.not_mem_nil,
    or_false] at hc
  obtain rfl | rfl | rfl | ⟨-,rfl⟩ | rfl := hc
  all_goals decide

/-- The letters are on lines 1 and `k+2`; the counter of the lines has 32 bits. -/
lemma twoLetters_startLines (doc k : ℕ) :
    (chunkDocument doc (twoLetters k) lineByLine).map Chunk.startLine = [1,(k+2) % 2^32] := by
  have hspans : spansOf lineByLine (twoLetters k) = ⟨[],0⟩::⟨[97],1⟩::
      ((List.range k).map (fun i => ⟨[],(2+i) % 2^32⟩) ++ [⟨[97],(2+k) % 2^32⟩]) := by
    rw [spansOf_eq (normalizeInput_twoLetters k) (List.cons_ne_nil _ _) (Or.inl rfl),bodySpans,
      twoLetters_lines,spansFrom,
      spansFrom,lineByLine_blank,spansFrom,lineByLine_letter,lineByLine_letter]
    rfl
  rw [chunkDocument_eq,lineByLine_startLines,hspans]
  · have hspace : isSpace 97 = false := by decide
    have hstrip : ∀ n, (decide ((⟨[97],n⟩ : Span).text.rdropWhile isSpace ≠ [])) = true := by
      intro n
      simp [List.rdropWhile_singleton,hspace]
    simp only [List.filter_cons,List.filter_append,List.filter_map,hstrip,Function.comp_def]
    simp [Nat.add_comm]
  · rw [hspans]
    intro s hs
    simp only [List.mem_cons,List.mem_append,List.mem_map,List.not_mem_nil,or_false] at hs
    obtain rfl | rfl | ⟨i,-,rfl⟩ | rfl := hs
    all_goals simp

/-- Behind `2^32` lines the line counter begins again. -/
theorem startLines_wrap :
    normalizeInput lineByLine (twoLetters (2^32-2)) = some (twoLetters (2^32-2)) ∧
      Roomy lineByLine ∧
      ¬(chunkDocument 0 (twoLetters (2^32-2)) lineByLine).Pairwise
        fun c c' => c.startLine ≤ c'.startLine := by
  refine ⟨normalizeInput_twoLetters _,Or.inl rfl,?_⟩
  rw [← List.pairwise_map (f := Chunk.startLine) (R := (· ≤ ·)),twoLetters_startLines]
  have hwrap : (2^32-2+2) % 2^32 = 0 := by norm_num
  rw [hwrap]
  decide

end wrap

end RagRuntime.Text
