import Mathlib.Data.List.DropRight
import RagRuntime.Core.Document
import RagRuntime.Core.Keys

/-! Deterministic, line-aware structural chunking. -/
namespace RagRuntime.Text
open RagRuntime.Base RagRuntime.Core

inductive TokenCountingMode where
  | exact
  | conservativeUtf8Bytes
  deriving DecidableEq, Repr

inductive InvalidUtf8Policy where
  | replace
  | reject
  deriving DecidableEq, Repr

structure EmbeddingPolicy where
  modelIdentity : Bytes := []
  tokenizerIdentity : Bytes := []
  dimension : ℕ := 0
  targetTokens : ℕ := 0
  maxTokens : ℕ := 0
  overlapTokens : ℕ := 0
  reservedTokens : ℕ := 0
  documentPrefix : Bytes := []
  queryPrefix : Bytes := []
  countingMode : TokenCountingMode := .conservativeUtf8Bytes
  invalidUtf8 : InvalidUtf8Policy := .replace
  deriving DecidableEq, Repr

structure ChunkOptions where
  maxLines : ℕ := 40
  maxChars : ℕ := 1600
  overlapLines : ℕ := 4
  headingContext : Bool := true
  policy : EmbeddingPolicy := {}
  measureTokens : Option (Bytes → ℕ) := none

/-- A piece of one source line. -/
structure Span where
  text : Bytes
  line : ℕ
  deriving DecidableEq, Repr

def space : Byte := 32
def hash : Byte := 35

def count (text : Bytes) (opts : ChunkOptions) : ℕ :=
  match opts.measureTokens with
  | some measure => measure text
  | none => text.length

def utf8Width (c : Byte) : ℕ :=
  if c.val < 0x80 then 1
  else if c.val &&& 0xe0 = 0xc0 then 2
  else if c.val &&& 0xf0 = 0xe0 then 3
  else if c.val &&& 0xf8 = 0xf0 then 4
  else 1

/-- The position behind the scalar at `pos`; a malformed byte counts as one scalar. -/
def nextUtf8 (text : Bytes) (pos : ℕ) : ℕ :=
  match text.drop pos with
  | [] => text.length
  | c::rest =>
    if pos + utf8Width c > text.length then pos+1
    else if (rest.take (utf8Width c-1)).all fun b => b.val &&& 0xc0 = 0x80 then pos + utf8Width c
    else pos+1

def isSpace (c : Byte) : Bool := c = space ∨ 9 ≤ c.val ∧ c.val ≤ 13

lemma trim_start (text : Bytes) : text.rdropWhile isSpace <+: text :=
  List.rdropWhile_prefix _ _

def sentenceBoundary (c : Byte) : Bool := c ∈ ascii ['.','!','?',';']

def softBoundary (c : Byte) : Bool :=
  isSpace c ∨ c ∈ ascii [',',':','/','}',']',')','-','|']

def usableLimit (opts : ChunkOptions) : ℕ :=
  if opts.policy.maxTokens = 0 then max 1 opts.maxChars
  else if opts.policy.reservedTokens ≥ opts.policy.maxTokens then 1
  else opts.policy.maxTokens - opts.policy.reservedTokens

def embeddingForm (context body : Bytes) (opts : ChunkOptions) : Bytes :=
  opts.policy.documentPrefix ++
    (if opts.policy.documentPrefix ≠ [] ∧ (context ≠ [] ∨ body ≠ []) then [newline] else []) ++
    (if context ≠ [] then context ++ (if body ≠ [] then [newline] else []) else []) ++ body

lemma one_le_utf8Width (c : Byte) : 1 ≤ utf8Width c := by
  unfold utf8Width
  split_ifs <;> omega

lemma lt_nextUtf8 {text : Bytes} {pos : ℕ} (h : pos < text.length) : pos < nextUtf8 text pos := by
  unfold nextUtf8
  rw [List.drop_eq_getElem_cons h]
  have hw := one_le_utf8Width text[pos]
  dsimp only
  split_ifs <;> omega

lemma nextUtf8_le {text : Bytes} {pos : ℕ} : nextUtf8 text pos ≤ text.length := by
  unfold nextUtf8
  cases h : text.drop pos with
  | nil => exact le_rfl
  | cons c rest =>
    have hpos : pos < text.length := by
      by_contra hge
      rw [List.drop_eq_nil_of_le (not_lt.mp hge)] at h
      cases h
    dsimp only
    split_ifs <;> omega

/-- The boundaries that `splitAt` has met so far. -/
structure SplitMarks where
  lastFit : ℕ
  sentence : ℕ
  soft : ℕ
  deriving DecidableEq, Repr

/-- The scan of `split_at`, which grows the piece scalar by scalar while it fits. -/
def splitScan (text : Bytes) (start : ℕ) (context : Bytes) (opts : ChunkOptions)
    (pos : ℕ) (marks : SplitMarks) : SplitMarks :=
  if _h : pos < text.length then
    let stop := nextUtf8 text pos
    let piece := (text.drop start).take (stop-start)
    if count (embeddingForm context piece opts) opts > usableLimit opts then marks
    else
      let tail := text.getD (stop-1) 0
      splitScan text start context opts stop
        ⟨stop,if sentenceBoundary tail then stop else marks.sentence,
          if softBoundary tail then stop else marks.soft⟩
  else marks
termination_by text.length - pos
decreasing_by
  have := lt_nextUtf8 _h
  omega

/-- A boundary that fits the hard limit: the end of the text, else behind a sentence, else
behind a soft boundary, else behind the last scalar that fits, and at least one scalar on. -/
def splitAt (text : Bytes) (start : ℕ) (context : Bytes) (opts : ChunkOptions) : ℕ :=
  let marks := splitScan text start context opts start ⟨start,start,start⟩
  if marks.lastFit = text.length then marks.lastFit
  else if marks.sentence > start then marks.sentence
  else if marks.soft > start then marks.soft
  else if marks.lastFit > start then marks.lastFit
  else nextUtf8 text start

/-- Every mark stays within the text. -/
def SplitMarks.Within (marks : SplitMarks) (text : Bytes) : Prop :=
  marks.lastFit ≤ text.length ∧ marks.sentence ≤ text.length ∧ marks.soft ≤ text.length

lemma splitScan_within {text : Bytes} {start : ℕ} {context : Bytes} {opts : ChunkOptions}
    (pos : ℕ) (marks : SplitMarks) (h : marks.Within text) :
    (splitScan text start context opts pos marks).Within text := by
  induction pos, marks using splitScan.induct text start context opts with
  | case1 pos marks hpos stop piece hfull =>
    rw [splitScan,dif_pos hpos]
    dsimp only
    rwa [if_pos hfull]
  | case2 pos marks hpos stop piece hfull tail ih =>
    rw [splitScan,dif_pos hpos]
    dsimp only
    rw [if_neg hfull]
    have hstop : stop ≤ text.length := nextUtf8_le
    apply ih
    refine ⟨hstop,?_,?_⟩
    · dsimp only
      split_ifs
      exacts [hstop,h.2.1]
    · dsimp only
      split_ifs
      exacts [hstop,h.2.2]
  | case3 pos marks hpos => rwa [splitScan,dif_neg hpos]

/-- At least one scalar is consumed. -/
lemma lt_splitAt {text : Bytes} {start : ℕ} (h : start < text.length) (context : Bytes)
    (opts : ChunkOptions) : start < splitAt text start context opts := by
  unfold splitAt
  dsimp only
  split_ifs with h1 h2 h3 h4
  exacts [h1 ▸ h,h2,h3,h4,lt_nextUtf8 h]

def headingLevel (line : Bytes) : ℕ :=
  let hashes := (line.takeWhile (· = hash)).length
  if 1 ≤ hashes ∧ hashes ≤ 6 ∧ (line)[hashes]? = some space then hashes else 0

def headingText (line : Bytes) : Bytes :=
  (line.dropWhile fun c => c = hash ∨ c = space).rdropWhile fun c => c = space ∨ c = hash

/-- The replacement character in UTF-8. -/
def replacement : Bytes := [0xef,0xbf,0xbd]

/-- The input with its line endings made `\n` and its malformed bytes replaced; `none` is a
rejection. -/
def normalizeInput (opts : ChunkOptions) : Bytes → Option Bytes
  | [] => some []
  | c::rest =>
    if c = carriageReturn then
      (normalizeInput opts (if rest.head? = some newline then rest.tail else rest)).map
        (newline::·)
    else if c.val < 0x80 then (normalizeInput opts rest).map (c::·)
    else
      let width := nextUtf8 (c::rest) 0
      if width = 1 then
        match opts.policy.invalidUtf8 with
        | .reject => none
        | .replace => (normalizeInput opts rest).map (replacement ++ ·)
      else (normalizeInput opts (rest.drop (width-1))).map ((c::rest.take (width-1)) ++ ·)
termination_by body => body.length
decreasing_by
  all_goals simp only [List.length_cons,List.length_drop]
  · split_ifs <;> grind
  all_goals omega

def chunkingFingerprint (o : ChunkOptions) : Bytes :=
  let bar := ascii ['|']
  ascii ['r','a','g','.','c','p','p','-','s','t','r','u','c','t','u','r','a','l','-','v','2'] ++
    bar ++ decimal o.maxLines ++ bar ++ decimal o.maxChars ++ bar ++ decimal o.overlapLines ++
    bar ++ decimal o.headingContext.toNat ++ bar ++ o.policy.tokenizerIdentity ++
    bar ++ decimal o.policy.targetTokens ++ bar ++ decimal o.policy.maxTokens ++
    bar ++ decimal o.policy.overlapTokens ++ bar ++ decimal o.policy.reservedTokens ++
    bar ++ o.policy.documentPrefix ++
    bar ++ decimal (match o.policy.countingMode with | .exact => 0 | .conservativeUtf8Bytes => 1) ++
    bar ++ decimal (match o.policy.invalidUtf8 with | .replace => 0 | .reject => 1)

/-- The pieces of one source line from `start` on. -/
def linePieces (line : Bytes) (opts : ChunkOptions) (start : ℕ) : List Bytes :=
  if _h : start < line.length then
    let cut := splitAt line start [] opts
    (line.drop start).take (cut-start)::linePieces line opts cut
  else []
termination_by line.length - start
decreasing_by
  have := lt_splitAt _h [] opts
  omega

/-- The spans of one line; an empty line is one empty span. -/
def lineSpans (opts : ChunkOptions) (line : Bytes) (number : ℕ) : List Span :=
  if line = [] then [⟨[],number⟩] else (linePieces line opts 0).map fun piece => ⟨piece,number⟩

/-- The spans of the lines from line `n` on; the line counter has 32 bits. -/
def spansFrom (opts : ChunkOptions) : List Bytes → ℕ → List Span
  | [],_ => []
  | line::lines,n => lineSpans opts line (n % 2^32) ++ spansFrom opts lines (n+1)

def bodySpans (opts : ChunkOptions) (body : Bytes) : List Span :=
  spansFrom opts (body.splitOn newline) 0

/-- The separator of a breadcrumb, ` › ` in UTF-8. -/
def breadcrumbSeparator : Bytes := [0x20,0xe2,0x80,0xba,0x20]

/-- The headings after a line: a heading replaces its level and clears the deeper ones. -/
def updateHeadings (opts : ChunkOptions) (headings : ℕ → Bytes) (line : Bytes) : ℕ → Bytes :=
  let level := headingLevel line
  if opts.headingContext = false ∨ level = 0 then headings
  else fun i => if i = level then headingText line else if level < i then [] else headings i

def breadcrumb (headings : ℕ → Bytes) : Bytes :=
  breadcrumbSeparator.intercalate (([1,2,3,4,5,6].map headings).filter (· ≠ []))

/-- The context of a chunk: the first breadcrumb that is not empty. -/
def updateContext (opts : ChunkOptions) (headings : ℕ → Bytes) (context : Bytes) : Bytes :=
  if opts.headingContext ∧ context = [] then breadcrumb headings else context

def appendLine (text line : Bytes) : Bytes :=
  if text = [] then line else text ++ [newline] ++ line

def targetTokens (opts : ChunkOptions) : ℕ :=
  if opts.policy.targetTokens ≠ 0 then opts.policy.targetTokens else usableLimit opts

/-- What `chunk_document` has gathered for the chunk it builds: the spans it took, those it
has not taken (a span that had to be split is replaced by its two pieces), the headings in
force, the breadcrumb and the text. -/
structure Gathered where
  taken : List Span
  pending : List Span
  headings : ℕ → Bytes
  context : Bytes
  text : Bytes

/-- The work left in a span: every split and every take makes it smaller. -/
def Span.weight (s : Span) : ℕ := max 1 (2 * s.text.length - 1)

def weight (spans : List Span) : ℕ := (spans.map Span.weight).sum

@[simp] lemma weight_nil : weight [] = 0 := rfl
@[simp] lemma weight_cons (s : Span) (spans : List Span) :
    weight (s::spans) = s.weight + weight spans := rfl

@[simp] lemma weight_append (a b : List Span) : weight (a ++ b) = weight a + weight b := by
  simp [weight]

lemma Span.weight_pos (s : Span) : 0 < s.weight := by
  unfold weight
  omega

lemma weight_split {s : Span} {cut : ℕ} (h0 : 0 < cut) (h : cut < s.text.length) :
    Span.weight ⟨s.text.take cut,s.line⟩ + Span.weight ⟨s.text.drop cut,s.line⟩ < s.weight := by
  simp only [Span.weight,List.length_take,List.length_drop]
  omega

/-- The inner loop of `chunk_document`. -/
def gather (opts : ChunkOptions) (taken pending : List Span) (headings : ℕ → Bytes)
    (context text : Bytes) : Gathered :=
  match pending with
  | [] => ⟨taken,[],headings,context,text⟩
  | span::rest =>
    if taken.length ≥ max 1 opts.maxLines then ⟨taken,span::rest,headings,context,text⟩
    else
      let headings := updateHeadings opts headings span.text
      let context := updateContext opts headings context
      let candidate := appendLine text span.text
      let tokens := count (embeddingForm context candidate opts) opts
      let last := tokens ≥ targetTokens opts ∨ span.text = [] ∧ tokens ≥ targetTokens opts / 2
      if tokens > usableLimit opts then
        if text ≠ [] then ⟨taken,span::rest,headings,context,text⟩
        else
          let cut := splitAt span.text 0 context opts
          if _h : cut < span.text.length then
            gather opts taken (⟨span.text.take cut,span.line⟩::⟨span.text.drop cut,span.line⟩::rest)
              headings context text
          -- A breadcrumb that uses up the budget alone is dropped.
          else if last then ⟨taken ++ [span],rest,headings,[],span.text⟩
          else gather opts (taken ++ [span]) rest headings [] span.text
      else if last then ⟨taken ++ [span],rest,headings,context,candidate⟩
      else gather opts (taken ++ [span]) rest headings context candidate
termination_by weight pending
decreasing_by
  · have hpos : 0 < span.text.length := Nat.lt_of_le_of_lt (Nat.zero_le _) _h
    have h0 := lt_splitAt hpos context opts
    simp only [weight_cons,← Nat.add_assoc]
    exact Nat.add_lt_add_right (weight_split h0 _h) _
  all_goals
    have := span.weight_pos
    simp only [weight_cons]
    omega

/-- The spans the next chunk repeats, the last of those taken but never the first of them. -/
def overlapBack (opts : ChunkOptions) (overlap : ℕ) : ℕ → List Span → List Span → List Span
  | _,[],acc => acc
  | back,s::earlier,acc =>
    if back < overlap then
      overlapBack opts overlap
        (back + if opts.policy.maxTokens ≠ 0 then count s.text opts else 1) earlier (s::acc)
    else acc

def overlapSpans (opts : ChunkOptions) (taken : List Span) : List Span :=
  overlapBack opts
    (if opts.policy.maxTokens ≠ 0 then opts.policy.overlapTokens else opts.overlapLines)
    0 taken.tail.reverse []

/-- The chunk of what was gathered; text that is all white space gives none. -/
def Gathered.chunk? (g : Gathered) (doc : ℕ) : Option Chunk :=
  let text := g.text.rdropWhile isSpace
  if text = [] then none
  else some ⟨uint32Max,doc,text,g.context,(g.taken.head?.map Span.line).getD 0,
    (g.taken.getLast?.map Span.line).getD 0⟩

/-- What is left to chunk after `g`: nothing behind the last span, else the overlap first. -/
def Gathered.next (g : Gathered) (opts : ChunkOptions) : List Span :=
  if g.pending = [] then [] else overlapSpans opts g.taken ++ g.pending

/-- What a gathering that has got to `taken`, `pending` can end in. It is stated for the spans
as a whole: the invariant `P` of them holds at the end when no take and no split breaks it. -/
lemma gather_spans {opts : ChunkOptions} {P : List Span → List Span → Prop}
    (htake : ∀ taken span rest, P taken (span::rest) → P (taken ++ [span]) rest)
    (hsplit : ∀ taken (span : Span) rest cut, 0 < cut → cut < span.text.length →
      P taken (span::rest) →
      P taken (⟨span.text.take cut,span.line⟩::⟨span.text.drop cut,span.line⟩::rest))
    (taken pending : List Span) (headings : ℕ → Bytes) (context text : Bytes)
    (h : P taken pending) :
    P (gather opts taken pending headings context text).taken
      (gather opts taken pending headings context text).pending := by
  fun_induction gather opts taken pending headings context text with
  | case1 => exact h
  | case2 => exact h
  | case3 => exact h
  | case4 taken headings context text span rest hlines headings' context' _ _ _ _ cut hcut ih =>
    have h0 : 0 < cut := lt_splitAt (Nat.zero_lt_of_lt hcut) _ opts
    exact ih (hsplit taken span rest cut h0 hcut h)
  | case5 => exact htake _ _ _ h
  | case6 =>
    rename_i ih
    exact ih (htake _ _ _ h)
  | case7 => exact htake _ _ _ h
  | case8 =>
    rename_i ih
    exact ih (htake _ _ _ h)

/-- A chunk takes at least one span. -/
lemma gather_taken_ne_nil (opts : ChunkOptions) (taken pending : List Span)
    (headings : ℕ → Bytes) (context text : Bytes)
    (h : taken ≠ [] ∨ text = [] ∧ pending ≠ []) :
    (gather opts taken pending headings context text).taken ≠ [] := by
  fun_induction gather opts taken pending headings context text with
  | case1 => simpa using h
  | case2 taken headings context text span rest hlines =>
    have : 0 < taken.length := by omega
    exact List.ne_nil_of_length_pos this
  | case3 =>
    rename_i htext
    exact h.resolve_right fun h' => htext h'.1
  | case4 =>
    rename_i htext _ _ ih
    apply ih
    exact Or.inr ⟨not_ne_iff.mp htext,by simp⟩
  | case5 => simp
  | case6 =>
    rename_i ih
    exact ih (Or.inl (by simp))
  | case7 => simp
  | case8 =>
    rename_i ih
    exact ih (Or.inl (by simp))

lemma weight_gather (opts : ChunkOptions) (spans : List Span) (headings : ℕ → Bytes) :
    let g := gather opts [] spans headings [] []
    weight g.taken + weight g.pending ≤ weight spans := by
  apply gather_spans (P := fun taken pending => weight taken + weight pending ≤ weight spans)
  · intro taken span rest h
    simpa [Nat.add_assoc] using h
  · intro taken span rest cut h0 hcut h
    have := weight_split h0 hcut
    simp only [weight_cons] at h ⊢
    omega
  · simp

lemma overlapBack_eq (opts : ChunkOptions) (overlap back : ℕ) (spans acc : List Span) :
    ∃ n, overlapBack opts overlap back spans acc = (spans.take n).reverse ++ acc := by
  induction spans generalizing back acc with
  | nil => exact ⟨0,rfl⟩
  | cons s earlier ih =>
    simp only [overlapBack]
    split_ifs
    · obtain ⟨n,hn⟩ := ih (back + count s.text opts) (s::acc)
      exact ⟨n+1,by simp [hn]⟩
    · obtain ⟨n,hn⟩ := ih (back+1) (s::acc)
      exact ⟨n+1,by simp [hn]⟩
    · exact ⟨0,rfl⟩

/-- The overlap is the end of what was taken, and leaves its first span out. -/
lemma overlapSpans_suffix (opts : ChunkOptions) (taken : List Span) :
    overlapSpans opts taken <:+ taken.tail := by
  obtain ⟨n,hn⟩ := overlapBack_eq opts
    (if opts.policy.maxTokens ≠ 0 then opts.policy.overlapTokens else opts.overlapLines)
    0 taken.tail.reverse []
  rw [overlapSpans,hn,List.append_nil,List.take_reverse,List.reverse_reverse]
  exact List.drop_suffix _ _

lemma weight_le_of_suffix {a b : List Span} (h : a <:+ b) : weight a ≤ weight b := by
  obtain ⟨c,rfl⟩ := h
  simp

lemma weight_next_lt {opts : ChunkOptions} {spans : List Span} (h : spans ≠ [])
    (headings : ℕ → Bytes) :
    weight ((gather opts [] spans headings [] []).next opts) < weight spans := by
  have htaken := gather_taken_ne_nil opts [] spans headings [] [] (Or.inr ⟨rfl,h⟩)
  have hsum := weight_gather opts spans headings
  obtain ⟨s,rest,hs⟩ := List.exists_cons_of_ne_nil htaken
  have hpos := s.weight_pos
  have hback := weight_le_of_suffix (overlapSpans_suffix opts (s::rest))
  simp only [Gathered.next,hs,weight_cons,List.tail_cons] at hsum hback ⊢
  split_ifs
  · simp only [weight_nil]
    omega
  · simp only [weight_append]
    omega

/-- The outer loop of `chunk_document`, which carries the headings from chunk to chunk. -/
def chunkLoop (opts : ChunkOptions) (doc : ℕ) (headings : ℕ → Bytes) (spans : List Span) :
    List Chunk :=
  if _h : spans = [] then []
  else
    let g := gather opts [] spans headings [] []
    (g.chunk? doc).toList ++ chunkLoop opts doc g.headings (g.next opts)
termination_by weight spans
decreasing_by exact weight_next_lt _h headings

def chunkDocument (doc : ℕ) (input : Bytes) (opts : ChunkOptions) : List Chunk :=
  match normalizeInput opts input with
  | none => []
  | some body =>
    if body = [] then []
    else if count opts.policy.documentPrefix opts ≥ usableLimit opts ∧
        opts.policy.documentPrefix ≠ [] then []
    else chunkLoop opts doc (fun _ => []) (bodySpans opts body)

/-- What holds of every chunk that `chunkLoop` builds. -/
lemma chunkLoop_forall {opts : ChunkOptions} {doc : ℕ} {P : List Span → Prop} {Q : Chunk → Prop}
    (hchunk : ∀ spans headings, P spans →
      ∀ c ∈ (gather opts [] spans headings [] []).chunk? doc, Q c)
    (hnext : ∀ spans headings, P spans → P ((gather opts [] spans headings [] []).next opts))
    (headings : ℕ → Bytes) (spans : List Span) (h : P spans) :
    ∀ c ∈ chunkLoop opts doc headings spans, Q c := by
  fun_induction chunkLoop opts doc headings spans with
  | case1 => simp
  | case2 headings spans hne g ih =>
    intro c hc
    obtain hc | hc := List.mem_append.mp hc
    · exact hchunk spans headings h c (by simpa using hc)
    · exact ih (hnext spans headings h) c hc

lemma chunkLoop_length (opts : ChunkOptions) (doc doc' : ℕ) (headings : ℕ → Bytes)
    (spans : List Span) :
    (chunkLoop opts doc headings spans).length = (chunkLoop opts doc' headings spans).length := by
  fun_induction chunkLoop opts doc headings spans with
  | case1 => simp [chunkLoop]
  | case2 headings spans hne g ih =>
    have hone : (g.chunk? doc).toList.length = (g.chunk? doc').toList.length := by
      unfold Gathered.chunk?
      dsimp only
      split_ifs <;> rfl
    rw [chunkLoop.eq_def opts doc' headings,dif_neg hne]
    simp only [List.length_append]
    rw [ih,hone]

/-- The document id does not decide how many chunks there are. -/
theorem chunkDocument_length (doc doc' : ℕ) (input : Bytes) (opts : ChunkOptions) :
    (chunkDocument doc input opts).length = (chunkDocument doc' input opts).length := by
  unfold chunkDocument
  cases normalizeInput opts input with
  | none => rfl
  | some body =>
    dsimp only
    split_ifs
    · rfl
    · rfl
    · exact chunkLoop_length opts doc doc' _ _

/-- Source lines come in order. -/
def Ordered (spans : List Span) : Prop := (spans.map Span.line).Pairwise (· ≤ ·)

lemma Ordered.sublist {a b : List Span} (h : Ordered b) (hs : a.Sublist b) : Ordered a :=
  List.Pairwise.sublist (hs.map _) h

lemma ordered_gather (opts : ChunkOptions) {spans : List Span} (headings : ℕ → Bytes)
    (h : Ordered spans) :
    let g := gather opts [] spans headings [] []
    Ordered (g.taken ++ g.pending) := by
  apply gather_spans (P := fun taken pending => Ordered (taken ++ pending))
  · intro taken span rest h
    simpa using h
  · intro taken span rest cut h0 hcut h
    simp only [Ordered,List.map_append,List.map_cons,List.pairwise_append,List.pairwise_cons,
      List.mem_cons] at h ⊢
    refine ⟨h.1,⟨?_,h.2.1⟩,?_⟩
    · rintro line (rfl | hline)
      · exact le_rfl
      · exact h.2.1.1 line hline
    · rintro a ha b (rfl | hb)
      · exact h.2.2 a ha _ (Or.inl rfl)
      · exact h.2.2 a ha b hb
  · exact h

lemma ordered_next {opts : ChunkOptions} {spans : List Span} {headings : ℕ → Bytes}
    (h : Ordered spans) : Ordered ((gather opts [] spans headings [] []).next opts) := by
  unfold Gathered.next
  split_ifs
  · exact List.Pairwise.nil
  · apply (ordered_gather opts headings h).sublist
    apply List.Sublist.append _ (List.Sublist.refl _)
    exact (overlapSpans_suffix opts _).sublist.trans (List.tail_sublist _)

lemma ordered_ends {opts : ChunkOptions} {spans : List Span} {headings : ℕ → Bytes} {doc : ℕ}
    (h : Ordered spans) {c : Chunk}
    (hc : c ∈ (gather opts [] spans headings [] []).chunk? doc) : c.startLine ≤ c.endLine := by
  have hsorted := (ordered_gather opts headings h).sublist
    (List.sublist_append_left _ _)
  generalize gather opts [] spans headings [] [] = g at hc hsorted
  simp only [Gathered.chunk?] at hc
  split_ifs at hc
  · cases hc
  · cases hc
    cases htaken : g.taken with
    | nil => simp
    | cons s rest =>
      rw [htaken] at hsorted
      have hlast := List.getLast_mem (List.cons_ne_nil s rest)
      simp only [List.head?_cons,Option.map_some,Option.getD_some,
        List.getLast?_eq_some_getLast (List.cons_ne_nil s rest)]
      obtain h' | h' := List.mem_cons.mp hlast
      · rw [h']
      · exact (List.pairwise_cons.mp hsorted).1 _ (List.mem_map_of_mem h')

lemma lineSpans_line {opts : ChunkOptions} {line : Bytes} {number : ℕ} :
    ∀ s ∈ lineSpans opts line number, s.line = number := by
  unfold lineSpans
  split_ifs <;> simp

lemma ordered_spansFrom {opts : ChunkOptions} {lines : List Bytes} {n : ℕ}
    (h : n + lines.length ≤ 2^32) :
    Ordered (spansFrom opts lines n) ∧ ∀ s ∈ spansFrom opts lines n, n ≤ s.line := by
  induction lines generalizing n with
  | nil => exact ⟨.nil,by simp [spansFrom]⟩
  | cons line lines ih =>
    simp only [List.length_cons] at h
    obtain ⟨hord,hle⟩ := ih (n := n+1) (by omega)
    have hline : ∀ s ∈ lineSpans opts line (n % 2^32), s.line = n := fun s hs => by
      rw [lineSpans_line s hs,Nat.mod_eq_of_lt (by omega)]
    simp only [Ordered,spansFrom,List.map_append,List.pairwise_append,List.mem_map,
      List.mem_append,List.pairwise_map]
    refine ⟨⟨?_,List.pairwise_map.mp hord,?_⟩,?_⟩
    · apply List.pairwise_of_forall_mem_list
      intro a ha b hb
      rw [hline a ha,hline b hb]
    · rintro _ ⟨a,ha,rfl⟩ _ ⟨b,hb,rfl⟩
      rw [hline a ha]
      exact (Nat.le_succ n).trans (hle b hb)
    · rintro s (hs | hs)
      · exact (hline s hs).ge
      · exact (Nat.le_succ n).trans (hle s hs)

/-- A chunk ends no earlier than it starts, unless the line counter has wrapped. -/
theorem chunkDocument_lines {doc : ℕ} {input body : Bytes} {opts : ChunkOptions}
    (hbody : normalizeInput opts input = some body)
    (hlines : (body.splitOn newline).length ≤ 2^32) :
    ∀ c ∈ chunkDocument doc input opts, c.startLine ≤ c.endLine := by
  simp only [chunkDocument,hbody]
  split_ifs
  · simp
  · simp
  · exact chunkLoop_forall (P := Ordered) (fun _ _ h _ hc => ordered_ends h hc)
      (fun _ _ h => ordered_next h) _ _
      (ordered_spansFrom (by omega)).1

lemma length_splitOn (body : Bytes) : (body.splitOn newline).length = body.count newline + 1 := by
  induction body with
  | nil => rfl
  | cons c body ih =>
    rw [List.splitOn_cons_eq_if_modifyHead,List.count_cons]
    by_cases hc : c = newline
    · simp [hc,ih]
    · simp [hc,ih]

/-- Each line feed of the normalised text stands for bytes of the input. -/
lemma count_normalizeInput {opts : ChunkOptions} {input body : Bytes}
    (h : normalizeInput opts input = some body) : body.count newline ≤ input.length := by
  fun_induction normalizeInput opts input generalizing body with
  | case1 =>
    cases h
    exact Nat.zero_le _
  | case2 rest ih =>
    obtain ⟨body,hbody,rfl⟩ := Option.map_eq_some_iff.mp h
    rw [List.count_cons_self,List.length_cons]
    refine Nat.succ_le_succ ((ih hbody).trans ?_)
    split_ifs
    · simp
    · exact le_rfl
  | case3 c rest hreturn hascii ih =>
    obtain ⟨body,hbody,rfl⟩ := Option.map_eq_some_iff.mp h
    have hle := ih hbody
    rw [List.count_cons,List.length_cons]
    split_ifs <;> omega
  | case4 c rest hreturn hascii hwidth => cases h
  | case5 c rest hreturn hascii width hwidth hreplace =>
    rename_i ih
    obtain ⟨body,hbody,rfl⟩ := Option.map_eq_some_iff.mp h
    have hle := ih hbody
    rw [List.count_append,show replacement.count newline = 0 from by decide,List.length_cons]
    omega
  | case6 c rest hreturn hascii width hwidth =>
    rename_i ih
    obtain ⟨body,hbody,rfl⟩ := Option.map_eq_some_iff.mp h
    have hle := ih hbody
    have hfront := List.count_le_length (a := newline) (l := c::rest.take (width-1))
    rw [List.length_cons,List.length_take] at hfront
    rw [List.length_drop] at hle
    rw [List.count_append,List.length_cons]
    omega

/-- A text whose length has 32 bits has no more lines than a line counter can tell apart. -/
lemma chunkDocument_lines_of_length {doc : ℕ} {text : Bytes} (opts : ChunkOptions)
    (h : text.length < 2^32) : ∀ c ∈ chunkDocument doc text opts, c.startLine ≤ c.endLine := by
  cases hbody : normalizeInput opts text with
  | none => simp [chunkDocument,hbody]
  | some body =>
    have hcount := count_normalizeInput hbody
    exact chunkDocument_lines hbody (by rw [length_splitOn]; omega)

/-- The line numbers have 32 bits. -/
def Narrow (spans : List Span) : Prop := ∀ s ∈ spans, s.line < 2^32

lemma narrow_gather (opts : ChunkOptions) {spans : List Span} (headings : ℕ → Bytes)
    (h : Narrow spans) :
    let g := gather opts [] spans headings [] []
    Narrow (g.taken ++ g.pending) := by
  apply gather_spans (P := fun taken pending => Narrow (taken ++ pending))
  · intro taken span rest h
    simpa using h
  · intro taken span rest cut h0 hcut h s hs
    simp only [List.mem_append,List.mem_cons] at hs
    obtain hs | rfl | rfl | hs := hs
    · exact h s (by simp [hs])
    · exact h span (by simp)
    · exact h span (by simp)
    · exact h s (by simp [hs])
  · exact h

lemma narrow_next {opts : ChunkOptions} {spans : List Span} {headings : ℕ → Bytes}
    (h : Narrow spans) : Narrow ((gather opts [] spans headings [] []).next opts) := by
  unfold Gathered.next
  split_ifs
  · exact fun s hs => absurd hs List.not_mem_nil
  · have hsub := ((overlapSpans_suffix opts
      (gather opts [] spans headings [] []).taken).sublist.trans (List.tail_sublist _)).append
        (List.Sublist.refl (gather opts [] spans headings [] []).pending)
    exact fun s hs => narrow_gather opts headings h s (hsub.subset hs)

lemma narrow_ends {opts : ChunkOptions} {spans : List Span} {headings : ℕ → Bytes} {doc : ℕ}
    (h : Narrow spans) {c : Chunk} (hc : c ∈ (gather opts [] spans headings [] []).chunk? doc) :
    c.startLine < 2^32 ∧ c.endLine < 2^32 := by
  have hnarrow : ∀ s ∈ (gather opts [] spans headings [] []).taken, s.line < 2^32 :=
    fun s hs => narrow_gather opts headings h s (List.mem_append_left _ hs)
  generalize gather opts [] spans headings [] [] = g at hc hnarrow
  simp only [Gathered.chunk?] at hc
  split_ifs at hc
  · cases hc
  · cases hc
    constructor
    · cases hfirst : g.taken.head? with
      | none => simp
      | some s => exact hnarrow s (List.mem_of_mem_head? hfirst)
    · cases hlast : g.taken.getLast? with
      | none => simp
      | some s => exact hnarrow s (List.mem_of_getLast? hlast)

lemma narrow_spansFrom (opts : ChunkOptions) (lines : List Bytes) (n : ℕ) :
    Narrow (spansFrom opts lines n) := by
  induction lines generalizing n with
  | nil => exact fun s hs => absurd hs List.not_mem_nil
  | cons line lines ih =>
    intro s hs
    obtain hs | hs := List.mem_append.mp hs
    · rw [lineSpans_line s hs]
      exact Nat.mod_lt _ (by positivity)
    · exact ih (n+1) s hs

/-- The line numbers of a chunk have 32 bits. -/
theorem chunkDocument_narrow {doc : ℕ} {input : Bytes} {opts : ChunkOptions} :
    ∀ c ∈ chunkDocument doc input opts, c.startLine < 2^32 ∧ c.endLine < 2^32 := by
  unfold chunkDocument
  split
  · simp
  · split_ifs
    · simp
    · simp
    · exact chunkLoop_forall (P := Narrow) (fun _ _ h _ hc => narrow_ends h hc)
        (fun _ _ h => narrow_next h) _ _ (narrow_spansFrom opts _ 0)

theorem chunkDocument_text {doc : ℕ} {input : Bytes} {opts : ChunkOptions} :
    ∀ c ∈ chunkDocument doc input opts, c.text ≠ [] ∧ c.doc = doc := by
  unfold chunkDocument
  split
  · simp
  · split_ifs
    · simp
    · simp
    · refine chunkLoop_forall (P := fun _ => True) (Q := fun c => c.text ≠ [] ∧ c.doc = doc)
        ?_ (fun _ _ _ => trivial) _ _ trivial
      intro spans headings _ c hc
      simp only [Gathered.chunk?] at hc
      split_ifs at hc with htext
      · cases hc
      · cases hc
        exact ⟨htext,rfl⟩

example : (chunkDocument 0 (ascii ['a','b','\n','c']) {maxChars := 1}).map (·.text) =
    [['a'],['b'],['c']].map ascii := by decide +kernel

end RagRuntime.Text
