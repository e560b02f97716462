import RagRuntime.Text.Chunker

/-! The loop of the chunker turn by turn, and the states it passes through. -/
namespace RagRuntime.Text
open RagRuntime.Base RagRuntime.Core

variable {opts : ChunkOptions}

/-- A chunk is begun with nothing but the headings in force. -/
def Gathered.start (headings : ℕ → Bytes) (spans : List Span) : Gathered :=
  ⟨[],spans,headings,[],[]⟩

/-- The next span was read, which sets the headings and may open the context. -/
def Gathered.scan (g : Gathered) (opts : ChunkOptions) (span : Span) : Gathered :=
  let headings := updateHeadings opts g.headings span.text
  {g with headings := headings, context := updateContext opts headings g.context}

/-- The measure of the chunk with the next span. -/
def Gathered.tokens (g : Gathered) (opts : ChunkOptions) (span : Span) : ℕ :=
  count (embeddingForm (g.scan opts span).context (appendLine g.text span.text) opts) opts

/-- The next span is the last of its chunk. -/
def Gathered.last (g : Gathered) (opts : ChunkOptions) (span : Span) : Bool :=
  g.tokens opts span ≥ targetTokens opts ∨
    span.text = [] ∧ g.tokens opts span ≥ targetTokens opts / 2

def Span.front (s : Span) (cut : ℕ) : Span := ⟨s.text.take cut,s.line⟩
def Span.back (s : Span) (cut : ℕ) : Span := ⟨s.text.drop cut,s.line⟩

/-- `span` is read while the chunk has lines left. -/
structure Gathered.Reads (g : Gathered) (opts : ChunkOptions) (span : Span) (rest : List Span) :
    Prop where
  pending : g.pending = span::rest
  lines : g.taken.length < max 1 opts.maxLines

def Gathered.cut (g : Gathered) (opts : ChunkOptions) (span : Span) : ℕ :=
  splitAt span.text 0 (g.scan opts span).context opts

/-- A turn of the inner loop, from the state before it to the state after it; the flag says
whether the chunk ends. -/
inductive Turn (opts : ChunkOptions) : Gathered → Gathered → Bool → Prop
  | exhausted {g : Gathered} (hpending : g.pending = []) : Turn opts g g true
  | full {g : Gathered} (hlines : max 1 opts.maxLines ≤ g.taken.length) : Turn opts g g true
  | overfull {g : Gathered} {span : Span} {rest : List Span} (hreads : g.Reads opts span rest)
      (htext : g.text ≠ []) (hover : usableLimit opts < g.tokens opts span) :
      Turn opts g (g.scan opts span) true
  | split {g : Gathered} {span : Span} {rest : List Span} (hreads : g.Reads opts span rest)
      (htext : g.text = []) (hover : usableLimit opts < g.tokens opts span)
      (hcut : g.cut opts span < span.text.length) :
      Turn opts g {g.scan opts span with
        pending := span.front (g.cut opts span)::span.back (g.cut opts span)::rest} false
  | alone {g : Gathered} {span : Span} {rest : List Span} (hreads : g.Reads opts span rest)
      (htext : g.text = []) (hover : usableLimit opts < g.tokens opts span)
      (hcut : span.text.length ≤ g.cut opts span) :
      Turn opts g ⟨g.taken ++ [span],rest,(g.scan opts span).headings,[],span.text⟩
        (g.last opts span)
  | fits {g : Gathered} {span : Span} {rest : List Span} (hreads : g.Reads opts span rest)
      (hfits : g.tokens opts span ≤ usableLimit opts) :
      Turn opts g ⟨g.taken ++ [span],rest,(g.scan opts span).headings,
        (g.scan opts span).context,appendLine g.text span.text⟩ (g.last opts span)

/-- The text of the chunk that would end here. -/
def Gathered.trimmed (g : Gathered) : Bytes := g.text.rdropWhile isSpace

/-- The inner loop from the state `g`. -/
def Gathered.run (g : Gathered) (opts : ChunkOptions) : Gathered :=
  gather opts g.taken g.pending g.headings g.context g.text

/-- The turn on `span`, in the words of the state. -/
lemma Gathered.Reads.run_eq {g : Gathered} {span : Span} {rest : List Span}
    (h : g.Reads opts span rest) :
    g.run opts =
      if usableLimit opts < g.tokens opts span then
        if g.text ≠ [] then g.scan opts span
        else if g.cut opts span < span.text.length then
          Gathered.run {g.scan opts span with
            pending := span.front (g.cut opts span)::span.back (g.cut opts span)::rest} opts
        else
          let g' := ⟨g.taken ++ [span],rest,(g.scan opts span).headings,[],span.text⟩
          if g.last opts span then g' else g'.run opts
      else
        let g' := ⟨g.taken ++ [span],rest,(g.scan opts span).headings,(g.scan opts span).context,
          appendLine g.text span.text⟩
        if g.last opts span then g' else g'.run opts := by
  obtain ⟨taken,pending,headings,context,text⟩ := g
  obtain ⟨rfl,hlines⟩ := h
  unfold Gathered.run
  rw [gather,if_neg (not_le.mpr hlines)]
  simp only [Gathered.last,decide_eq_true_eq]
  rfl

lemma Turn.run_eq {g g' : Gathered} {closed : Bool} (h : Turn opts g g' closed) :
    g.run opts = if closed then g' else g'.run opts := by
  cases h with
  | exhausted hpending =>
    obtain ⟨taken,pending,headings,context,text⟩ := g
    dsimp only at hpending
    subst hpending
    rw [Gathered.run,gather]
    rfl
  | full hlines =>
    obtain ⟨taken,pending,headings,context,text⟩ := g
    cases pending with
    | nil => rw [Gathered.run,gather]; rfl
    | cons span rest => rw [Gathered.run,gather,if_pos hlines]; rfl
  | overfull hreads htext hover => rw [hreads.run_eq,if_pos hover,if_pos htext,if_pos rfl]
  | split hreads htext hover hcut =>
    rw [hreads.run_eq,if_pos hover,if_neg (not_not.mpr htext),if_pos hcut]
    rfl
  | alone hreads htext hover hcut =>
    rw [hreads.run_eq,if_pos hover,if_neg (not_not.mpr htext),if_neg (not_lt.mpr hcut)]
  | fits hreads hfits => rw [hreads.run_eq,if_neg (not_lt.mpr hfits)]

/-- Every state has a turn. -/
lemma exists_turn (opts : ChunkOptions) (g : Gathered) : ∃ g' closed, Turn opts g g' closed := by
  cases hpending : g.pending with
  | nil => exact ⟨_,_,.exhausted hpending⟩
  | cons span rest =>
    by_cases hlines : max 1 opts.maxLines ≤ g.taken.length
    · exact ⟨_,_,.full hlines⟩
    have hreads : g.Reads opts span rest := ⟨hpending,not_le.mp hlines⟩
    by_cases hover : usableLimit opts < g.tokens opts span
    · by_cases htext : g.text = []
      · by_cases hcut : g.cut opts span < span.text.length
        · exact ⟨_,_,.split hreads htext hover hcut⟩
        · exact ⟨_,_,.alone hreads htext hover (not_lt.mp hcut)⟩
      · exact ⟨_,_,.overfull hreads htext hover⟩
    · exact ⟨_,_,.fits hreads (not_lt.mp hover)⟩

/-- The turn that a state has. -/
def Gathered.turn (g : Gathered) (opts : ChunkOptions) : Gathered × Bool :=
  match g.pending with
  | [] => (g,true)
  | span::rest =>
    if max 1 opts.maxLines ≤ g.taken.length then (g,true)
    else if usableLimit opts < g.tokens opts span then
      if g.text ≠ [] then (g.scan opts span,true)
      else if g.cut opts span < span.text.length then
        ({g.scan opts span with
          pending := span.front (g.cut opts span)::span.back (g.cut opts span)::rest},false)
      else (⟨g.taken ++ [span],rest,(g.scan opts span).headings,[],span.text⟩,g.last opts span)
    else (⟨g.taken ++ [span],rest,(g.scan opts span).headings,(g.scan opts span).context,
      appendLine g.text span.text⟩,g.last opts span)

/-- Turns are deterministic. -/
lemma Turn.eq_turn {g g' : Gathered} {closed : Bool} (h : Turn opts g g' closed) :
    g.turn opts = (g',closed) := by
  unfold Gathered.turn
  cases h with
  | exhausted hpending => rw [hpending]
  | full hlines =>
    cases g.pending with
    | nil => rfl
    | cons span rest => exact if_pos hlines
  | overfull hreads htext hover =>
    rw [hreads.pending]
    dsimp only
    rw [if_neg (not_le.mpr hreads.lines),if_pos hover,if_pos htext]
  | split hreads htext hover hcut =>
    rw [hreads.pending]
    dsimp only
    rw [if_neg (not_le.mpr hreads.lines),if_pos hover,if_neg (not_not.mpr htext),if_pos hcut]
  | alone hreads htext hover hcut =>
    rw [hreads.pending]
    dsimp only
    rw [if_neg (not_le.mpr hreads.lines),if_pos hover,if_neg (not_not.mpr htext),
      if_neg (not_lt.mpr hcut)]
  | fits hreads hfits =>
    rw [hreads.pending]
    dsimp only
    rw [if_neg (not_le.mpr hreads.lines),if_neg (not_lt.mpr hfits)]

/-- A turn that does not end the chunk leaves less work. -/
lemma Turn.weight_lt {g g' : Gathered} (h : Turn opts g g' false) :
    weight g'.pending < weight g.pending := by
  generalize hclosed : false = closed at h
  cases h with
  | exhausted | full | overfull => cases hclosed
  | @split span rest hreads htext hover hcut =>
    have hpos : 0 < span.text.length := Nat.zero_lt_of_lt hcut
    have h0 : 0 < g.cut opts span := lt_splitAt hpos _ opts
    rw [hreads.pending]
    simp only [weight_cons,← Nat.add_assoc]
    exact Nat.add_lt_add_right (weight_split h0 hcut) _
  | @alone span rest hreads | @fits span rest hreads =>
    have := span.weight_pos
    simp only [hreads.pending,weight_cons]
    omega

/-- What every turn keeps holds where the chunk ends. -/
lemma run_induct {Q : Gathered → Prop}
    (hturn : ∀ g g' closed, Turn opts g g' closed → Q g → Q g') (g : Gathered) (h : Q g) :
    Q (g.run opts) := by
  induction hweight : weight g.pending using Nat.strong_induction_on generalizing g with
  | _ n ih =>
    obtain ⟨g',closed,hg'⟩ := exists_turn opts g
    rw [hg'.run_eq]
    cases closed with
    | true => exact hturn g g' _ hg' h
    | false => exact ih _ (hweight ▸ hg'.weight_lt) g' (hturn g g' _ hg' h) rfl

/-- The states at the top of the inner loop while `spans` are chunked. -/
inductive Visits (opts : ChunkOptions) (spans : List Span) : Gathered → Prop
  | start : Visits opts spans (Gathered.start (fun _ => []) spans)
  | go {g g' : Gathered} : Visits opts spans g → Turn opts g g' false → Visits opts spans g'
  | next {g g' : Gathered} : Visits opts spans g → Turn opts g g' true → g'.next opts ≠ [] →
      Visits opts spans (Gathered.start g'.headings (g'.next opts))

/-- The state behind a turn, and where that ends a chunk the one that the next begins with. -/
def Gathered.succ? (g : Gathered) (opts : ChunkOptions) : Option Gathered :=
  let (g',closed) := g.turn opts
  if closed = false then some g'
  else if g'.next opts = [] then none
  else some (Gathered.start g'.headings (g'.next opts))

/-- The states from `g` on; none if the loop has not ended within `fuel` turns. -/
def trace (opts : ChunkOptions) : ℕ → Gathered → Option (List Gathered)
  | 0,_ => none
  | fuel+1,g =>
    match g.succ? opts with
    | none => some [g]
    | some g' => (trace opts fuel g').map (g::·)

lemma self_mem_trace {fuel : ℕ} {g : Gathered} {states : List Gathered}
    (htrace : trace opts fuel g = some states) : g ∈ states := by
  cases fuel with
  | zero => cases htrace
  | succ fuel =>
    unfold trace at htrace
    cases hnext : g.succ? opts with
    | none =>
      rw [hnext] at htrace
      cases htrace
      exact List.mem_singleton_self _
    | some g' =>
      rw [hnext] at htrace
      obtain ⟨_,-,rfl⟩ := Option.map_eq_some_iff.mp htrace
      exact List.mem_cons_self

lemma succ_mem_trace {fuel : ℕ} {first g g' : Gathered} {states : List Gathered}
    (htrace : trace opts fuel first = some states) (hg : g ∈ states)
    (hsucc : g.succ? opts = some g') : g' ∈ states := by
  induction fuel generalizing first states with
  | zero => cases htrace
  | succ fuel ih =>
    unfold trace at htrace
    cases hnext : first.succ? opts with
    | none =>
      rw [hnext] at htrace
      cases htrace
      rw [List.mem_singleton.mp hg,hnext] at hsucc
      cases hsucc
    | some second =>
      rw [hnext] at htrace
      obtain ⟨rest,hrest,rfl⟩ := Option.map_eq_some_iff.mp htrace
      obtain rfl | hg := List.mem_cons.mp hg
      · obtain rfl : second = g' := Option.some.inj (hnext.symm.trans hsucc)
        exact List.mem_cons_of_mem _ (self_mem_trace hrest)
      · exact List.mem_cons_of_mem _ (ih hrest hg)

/-- A run that ends passes through the states of its trace and no others. -/
theorem Visits.mem_trace {spans : List Span} {fuel : ℕ} {states : List Gathered}
    (htrace : trace opts fuel (Gathered.start (fun _ => []) spans) = some states) {g : Gathered}
    (h : Visits opts spans g) : g ∈ states := by
  induction h with
  | start => exact self_mem_trace htrace
  | go _ hturn ih =>
    apply succ_mem_trace htrace ih
    rw [Gathered.succ?,hturn.eq_turn]
    rfl
  | next _ hturn hne ih =>
    apply succ_mem_trace htrace ih
    rw [Gathered.succ?,hturn.eq_turn]
    exact if_neg hne

/-- The states at which the chunks end, in order. -/
def closings (opts : ChunkOptions) (headings : ℕ → Bytes) (spans : List Span) : List Gathered :=
  if _h : spans = [] then []
  else
    let g := (Gathered.start headings spans).run opts
    g::closings opts g.headings (g.next opts)
termination_by weight spans
decreasing_by exact weight_next_lt _h headings

@[simp] lemma closings_nil (headings : ℕ → Bytes) : closings opts headings [] = [] := by
  rw [closings,dif_pos rfl]

lemma chunkLoop_eq (opts : ChunkOptions) (doc : ℕ) (headings : ℕ → Bytes) (spans : List Span) :
    chunkLoop opts doc headings spans =
      (closings opts headings spans).filterMap (Gathered.chunk? · doc) := by
  fun_induction chunkLoop opts doc headings spans with
  | case1 => simp
  | case2 headings spans hne g ih =>
    rw [closings,dif_neg hne]
    dsimp only
    rw [ih]
    change _ = List.filterMap _ (g::closings opts g.headings (g.next opts))
    rw [List.filterMap_cons]
    cases g.chunk? doc <;> rfl

/-- The inner loop ends, in a state that closes the chunk. -/
lemma Visits.exists_close {spans : List Span} {g : Gathered} (h : Visits opts spans g) :
    ∃ g', Visits opts spans g' ∧ Turn opts g' (g.run opts) true := by
  induction hweight : weight g.pending using Nat.strong_induction_on generalizing g with
  | _ n ih =>
    obtain ⟨g',closed,hturn⟩ := exists_turn opts g
    cases closed with
    | true => exact ⟨g,h,by rw [hturn.run_eq]; exact hturn⟩
    | false =>
      obtain ⟨g'',hvisits,hclose⟩ := ih _ (hweight ▸ hturn.weight_lt) (h.go hturn) rfl
      refine ⟨g'',hvisits,?_⟩
      rw [hturn.run_eq]
      exact hclose

/-- What is gathered from the start of a chunk on, whatever was chunked before. -/
lemma Visits.closings_subset {spans : List Span} {headings : ℕ → Bytes} {rest : List Span}
    (h : Visits opts spans (Gathered.start headings rest)) :
    ∀ g ∈ closings opts headings rest, ∃ g', Visits opts spans g' ∧ Turn opts g' g true := by
  fun_induction closings opts headings rest with
  | case1 => simp
  | case2 headings rest hne g ih =>
    obtain ⟨g',hvisits,hclose⟩ := h.exists_close
    intro c hc
    obtain rfl | hc := List.mem_cons.mp hc
    · exact ⟨g',hvisits,hclose⟩
    · by_cases hnext : g.next opts = []
      · rw [hnext,closings_nil] at hc
        cases hc
      · exact ih (hvisits.next hclose hnext) c hc

/-- From a visited state the loop goes on as it does over the whole. -/
lemma Visits.suffix {spans : List Span} {g : Gathered} (h : Visits opts spans g)
    (hspans : spans ≠ []) :
    g.run opts::closings opts (g.run opts).headings ((g.run opts).next opts) <:+
      closings opts (fun _ => []) spans := by
  induction h with
  | start =>
    refine ⟨[],?_⟩
    rw [closings.eq_def opts (fun _ => []) spans,dif_neg hspans,List.nil_append]
  | go hvisits hturn ih =>
    rw [hturn.run_eq] at ih
    exact ih
  | @next g g' hvisits hturn hne ih =>
    rw [hturn.run_eq,if_pos rfl] at ih
    apply List.IsSuffix.trans _ ih
    rw [closings.eq_def opts g'.headings,dif_neg hne]
    exact List.suffix_cons _ _

/-- The chunks are those that the turns of the loop close. -/
theorem mem_closings_iff {spans : List Span} (hspans : spans ≠ []) {c : Gathered} :
    c ∈ closings opts (fun _ => []) spans ↔ ∃ g, Visits opts spans g ∧ Turn opts g c true := by
  constructor
  · exact Visits.start.closings_subset c
  · rintro ⟨g,hvisits,hturn⟩
    apply (hvisits.suffix hspans).subset
    rw [hturn.run_eq,if_pos rfl]
    exact List.mem_cons_self

/-- The spans `chunk_document` goes through. -/
def spansOf (opts : ChunkOptions) (input : Bytes) : List Span :=
  match normalizeInput opts input with
  | none => []
  | some body =>
    if body = [] then []
    else if count opts.policy.documentPrefix opts ≥ usableLimit opts ∧
        opts.policy.documentPrefix ≠ [] then []
    else bodySpans opts body

lemma chunkDocument_eq (doc : ℕ) (input : Bytes) (opts : ChunkOptions) :
    chunkDocument doc input opts =
      (closings opts (fun _ => []) (spansOf opts input)).filterMap (Gathered.chunk? · doc) := by
  unfold chunkDocument spansOf
  cases normalizeInput opts input with
  | none => simp
  | some body =>
    dsimp only
    split_ifs
    · simp
    · simp
    · exact chunkLoop_eq opts doc _ _

/-- Nothing is gathered from no spans. -/
lemma Visits.eq_of_nil {g : Gathered} (h : Visits opts [] g) : g.pending = [] ∧ g.text = [] := by
  have hend : ∀ g g' closed, Turn opts g g' closed → g.pending = [] → g' = g ∧ closed = true := by
    intro g g' closed hturn hpending
    cases hturn with
    | exhausted | full => exact ⟨rfl,rfl⟩
    | overfull hreads | split hreads | alone hreads | fits hreads =>
      rw [hreads.pending] at hpending
      cases hpending
  induction h with
  | start => exact ⟨rfl,rfl⟩
  | go _ hturn ih => cases (hend _ _ _ hturn ih.1).2
  | next _ hturn hne ih =>
    obtain ⟨rfl,-⟩ := hend _ _ _ hturn ih.1
    exact absurd (if_pos ih.1) hne

/-- What holds of every chunk is what holds of those the turns of the loop close. -/
theorem forall_chunk_iff {doc : ℕ} {input : Bytes} {Q : Chunk → Prop} :
    (∀ c ∈ chunkDocument doc input opts, Q c) ↔
      ∀ g g', Visits opts (spansOf opts input) g → Turn opts g g' true →
        ∀ c ∈ g'.chunk? doc, Q c := by
  rw [chunkDocument_eq]
  by_cases hspans : spansOf opts input = []
  · rw [hspans,closings_nil]
    refine ⟨?_,fun _ => by simp⟩
    intro _ g g' hvisits hturn c hc
    obtain ⟨hpending,htext⟩ := hvisits.eq_of_nil
    have hrun := hturn.run_eq
    rw [if_pos rfl,(Turn.exhausted hpending).run_eq,if_pos rfl] at hrun
    subst hrun
    simp [Gathered.chunk?,htext] at hc
  · constructor
    · intro h g g' hvisits hturn c hc
      exact h c (List.mem_filterMap.mpr ⟨g',(mem_closings_iff hspans).mpr ⟨g,hvisits,hturn⟩,hc⟩)
    · intro h c hc
      obtain ⟨g',hg',hc⟩ := List.mem_filterMap.mp hc
      obtain ⟨g,hvisits,hturn⟩ := (mem_closings_iff hspans).mp hg'
      exact h g g' hvisits hturn c hc

end RagRuntime.Text
