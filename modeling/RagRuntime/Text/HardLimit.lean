import RagRuntime.Text.Scalars

/-! Every chunk with its context is held to the limit of the embedding model. -/
namespace RagRuntime.Text
open RagRuntime.Base RagRuntime.Core

/-- A substring measures no more than the string. -/
def Measured (opts : ChunkOptions) : Prop :=
  ∀ measure, opts.measureTokens = some measure → ∀ a b : Bytes, a <:+: b → measure a ≤ measure b

/-- The embedding form of the text keeps the limit. -/
def Fits (opts : ChunkOptions) (context text : Bytes) : Prop :=
  count (embeddingForm context text opts) opts ≤ usableLimit opts

instance (opts : ChunkOptions) (context text : Bytes) : Decidable (Fits opts context text) :=
  inferInstanceAs (Decidable (_ ≤ _))

/-- One Unicode scalar that with the document prefix alone exceeds the limit. -/
def LoneScalar (opts : ChunkOptions) (text : Bytes) : Prop := WellFormed text ∧ ¬Fits opts [] text

/-- One ill-formed sequence, read as a scalar, that exceeds the limit as a lone scalar does. -/
def Misfit (opts : ChunkOptions) (text : Bytes) : Prop :=
  Sequence text ∧ ¬WellFormed text ∧ ¬Fits opts [] text

variable {opts : ChunkOptions}

lemma count_le (h : Measured opts) {a b : Bytes} (hab : a <:+: b) :
    count a opts ≤ count b opts := by
  unfold count
  cases hmeasure : opts.measureTokens with
  | none => exact hab.length_le
  | some measure => exact h measure hmeasure a b hab

lemma Fits.front (hmono : Measured opts) {context text front : Bytes} (h : Fits opts context text)
    (hfront : front <+: text) (hne : front ≠ []) : Fits opts context front := by
  apply (count_le hmono _).trans h
  have htext : text ≠ [] := by
    rintro rfl
    exact hne (List.prefix_nil.mp hfront)
  simp only [embeddingForm,hne,htext,ne_eq,not_false_eq_true,or_true,and_true,if_true]
  exact ((List.prefix_append_right_inj _).mpr hfront).isInfix

/-- What `split_at` has marked lies before the last scalar that fits. -/
lemma splitScan_fits (opts : ChunkOptions) (text : Bytes) (start : ℕ) (context : Bytes) (pos : ℕ)
    (marks : SplitMarks) (hpos : marks.lastFit ≤ pos)
    (hsentence : marks.sentence ≤ marks.lastFit)
    (hsoft : marks.soft ≤ marks.lastFit)
    (hfit : marks.lastFit = start ∨
      Fits opts context ((text.drop start).take (marks.lastFit-start))) :
    let m := splitScan text start context opts pos marks
    m.sentence ≤ m.lastFit ∧ m.soft ≤ m.lastFit ∧
      (m.lastFit = start ∨ Fits opts context ((text.drop start).take (m.lastFit-start))) := by
  induction pos, marks using splitScan.induct text start context opts with
  | case1 pos marks hlt stop piece hfull =>
    rw [splitScan,dif_pos hlt]
    dsimp only
    rw [if_pos hfull]
    exact ⟨hsentence,hsoft,hfit⟩
  | case2 pos marks hlt stop piece hfull tail ih =>
    rw [splitScan,dif_pos hlt]
    dsimp only
    rw [if_neg hfull]
    have hstop : pos < stop := lt_nextUtf8 hlt
    apply ih le_rfl
    · dsimp only
      split_ifs <;> omega
    · dsimp only
      split_ifs <;> omega
    · exact Or.inr (not_lt.mp hfull)
  | case3 pos marks hlt =>
    rw [splitScan,dif_neg hlt]
    exact ⟨hsentence,hsoft,hfit⟩

/-- Text that does not fit is left whole only if it is one scalar. -/
lemma nextUtf8_of_splitAt {text context : Bytes} (hne : text ≠ []) (hover : ¬Fits opts context text)
    (hcut : text.length ≤ splitAt text 0 context opts) : nextUtf8 text 0 = text.length := by
  have hpos : 0 < text.length := List.length_pos_iff.mpr hne
  obtain ⟨hsentence,hsoft,hfit⟩ := splitScan_fits opts text 0 context 0 ⟨0,0,0⟩ le_rfl
    le_rfl le_rfl (Or.inl rfl)
  have hlast : (splitScan text 0 context opts 0 ⟨0,0,0⟩).lastFit < text.length := by
    have hwithin : (splitScan text 0 context opts 0 ⟨0,0,0⟩).Within text :=
      splitScan_within 0 _ ⟨Nat.zero_le _,Nat.zero_le _,Nat.zero_le _⟩
    obtain hlt | heq := lt_or_eq_of_le hwithin.1
    · exact hlt
    · rw [heq,Nat.sub_zero,List.drop_zero,List.take_length] at hfit
      exact absurd (hfit.resolve_left hpos.ne') hover
  unfold splitAt at hcut
  dsimp only at hcut
  rw [if_neg hlast.ne] at hcut
  split_ifs at hcut
  · omega
  · omega
  · omega
  · exact le_antisymm nextUtf8_le hcut

/-- What is gathered fits, or is one sequence too large to fit. -/
def Gathered.Held (g : Gathered) (opts : ChunkOptions) : Prop :=
  g.text = [] ∨ Fits opts g.context g.text ∨ g.context = [] ∧ Sequence g.text

/-- A span that is taken alone is empty or one sequence. -/
lemma Gathered.alone {g : Gathered} {span : Span} {rest : List Span}
    (hspelled : ∀ s ∈ g.taken ++ g.pending, Spelled Sequence s.text)
    (hreads : g.Reads opts span rest) (htext : g.text = [])
    (hover : usableLimit opts < g.tokens opts span)
    (hcut : span.text.length ≤ g.cut opts span) : span.text = [] ∨ Sequence span.text := by
  by_cases hne : span.text = []
  · exact Or.inl hne
  right
  have hspan : Spelled Sequence span.text := hspelled span (by simp [hreads.pending])
  apply hspan.sequence (fun s hs => hs) hne
  rw [Gathered.tokens,htext,appendLine,if_pos rfl] at hover
  exact nextUtf8_of_splitAt hne (not_le.mpr hover) hcut

lemma Turn.held {g g' : Gathered} (hturn : Turn opts g g' false)
    (hspelled : ∀ s ∈ g.taken ++ g.pending, Spelled Sequence s.text) : g'.Held opts := by
  generalize hclosed : false = closed at hturn
  cases hturn with
  | exhausted | full | overfull => cases hclosed
  | split hreads htext => exact Or.inl htext
  | alone hreads htext hover hcut =>
    obtain hempty | hseq := Gathered.alone hspelled hreads htext hover hcut
    · exact Or.inl hempty
    · exact Or.inr (Or.inr ⟨rfl,hseq⟩)
  | fits hreads hfits => exact Or.inr (Or.inl hfits)

lemma Visits.held {input : Bytes} {g : Gathered} (h : Visits opts (spansOf opts input) g) :
    g.Held opts := by
  cases h with
  | start | next => exact Or.inl rfl
  | go hvisits hturn => exact hturn.held (hvisits.spelled (fun s hs => hs) spelled_spansOf)

/-- What keeps a chunk that ends in the state `g` within the limit. -/
structure Gathered.Kept (g : Gathered) (opts : ChunkOptions) : Prop where
  /-- A span that opens the context, but is too large to join the chunk, leaves a context that
  fits the text gathered without it. -/
  opens : ∀ span rest, g.Reads opts span rest → g.text ≠ [] →
    usableLimit opts < g.tokens opts span → g.context = [] → g.trimmed ≠ [] →
    Fits opts (g.scan opts span).context g.trimmed ∨ LoneScalar opts g.trimmed
  /-- The text is not one ill-formed sequence when the chunk ends for want of spans or lines. -/
  ends : g.context = [] → g.pending = [] ∨ max 1 opts.maxLines ≤ g.taken.length →
    ¬Misfit opts g.text
  /-- No ill-formed sequence is taken as a chunk of its own. -/
  alone : ∀ span rest, g.Reads opts span rest → g.text = [] →
    usableLimit opts < g.tokens opts span → span.text.length ≤ g.cut opts span →
    g.last opts span → ¬Misfit opts span.text

lemma forall_chunk?_iff {g : Gathered} {doc : ℕ} {Q : Bytes → Bytes → Prop} :
    (∀ c ∈ g.chunk? doc, Q c.context c.text) ↔ (g.trimmed ≠ [] → Q g.context g.trimmed) := by
  unfold Gathered.chunk? Gathered.trimmed
  dsimp only
  split_ifs with h
  · simp [h]
  · simp [h]

/-- The chunk that ends in the state `g` keeps the limit. -/
def Gathered.Limited (g : Gathered) (opts : ChunkOptions) : Prop :=
  g.trimmed ≠ [] → Fits opts g.context g.trimmed ∨ LoneScalar opts g.trimmed

lemma forall_limited_iff {g : Gathered} {doc : ℕ} :
    (∀ c ∈ g.chunk? doc, Fits opts c.context c.text ∨ LoneScalar opts c.text) ↔ g.Limited opts :=
  forall_chunk?_iff (Q := fun context text => Fits opts context text ∨ LoneScalar opts text)

/-- An ill-formed sequence alone breaks the limit. -/
lemma not_limited_of_misfit {g : Gathered} (hcontext : g.context = []) (h : Misfit opts g.text) :
    ¬g.Limited opts := by
  obtain ⟨hseq,hill,hover⟩ := h
  have htrimmed : g.trimmed = g.text := hseq.rdropWhile.resolve_right fun h => hill h.2
  intro hlimited
  rw [Gathered.Limited,htrimmed,hcontext] at hlimited
  obtain hfits | hlone := hlimited hseq.ne_nil
  · exact hover hfits
  · exact hill hlone.1

/-- Without a misfit what is held keeps the limit. -/
lemma Gathered.Held.limited (hmono : Measured opts) {g : Gathered} (hheld : g.Held opts)
    (hmisfit : g.context = [] → ¬Misfit opts g.text) : g.Limited opts := by
  intro htrimmed
  have hpre : g.trimmed <+: g.text := trim_start _
  obtain hempty | hfits | ⟨hcontext,hseq⟩ := hheld
  · rw [hempty] at hpre
    exact absurd (List.prefix_nil.mp hpre) htrimmed
  · exact Or.inl (hfits.front hmono hpre htrimmed)
  · obtain heq | ⟨heq,-⟩ := hseq.rdropWhile
    · change g.trimmed = g.text at heq
      rw [heq,hcontext]
      by_cases hfits : Fits opts [] g.text
      · exact Or.inl hfits
      · right
        refine ⟨?_,hfits⟩
        by_contra hill
        exact hmisfit hcontext ⟨hseq,hill,hfits⟩
    · exact absurd heq htrimmed

/-- A visited state closes only chunks within the limit exactly if it is kept. -/
lemma kept_iff (hmono : Measured opts) {input : Bytes} {g : Gathered}
    (h : Visits opts (spansOf opts input) g) :
    (∀ g', Turn opts g g' true → g'.Limited opts) ↔ g.Kept opts := by
  have hspelled := h.spelled (fun s hs => hs) spelled_spansOf
  constructor
  · intro hlimited
    refine ⟨?_,?_,?_⟩
    · intro span rest hreads htext hover hcontext htrimmed
      exact hlimited _ (.overfull hreads htext hover) htrimmed
    · intro hcontext hend hmisfit
      refine not_limited_of_misfit hcontext hmisfit (hlimited g ?_)
      exact hend.elim .exhausted .full
    · intro span rest hreads htext hover hcut hlast hmisfit
      have hturn := Turn.alone hreads htext hover hcut
      rw [hlast] at hturn
      exact not_limited_of_misfit rfl hmisfit (hlimited _ hturn)
  · intro hkept g' hturn
    generalize hclosed : true = closed at hturn
    cases hturn with
    | exhausted hpending => exact h.held.limited hmono fun hc => hkept.ends hc (Or.inl hpending)
    | full hlines => exact h.held.limited hmono fun hc => hkept.ends hc (Or.inr hlines)
    | split => cases hclosed
    | @overfull span rest hreads htext hover =>
      intro htrimmed
      by_cases hcontext : g.context = []
      · exact hkept.opens span rest hreads htext hover hcontext htrimmed
      · have hsame : (g.scan opts span).context = g.context := by
          simp [Gathered.scan,updateContext,hcontext]
        rw [hsame]
        exact h.held.limited hmono (fun hc => absurd hc hcontext) htrimmed
    | @alone span rest hreads htext hover hcut =>
      refine Gathered.Held.limited hmono ?_ fun _ =>
        hkept.alone span rest hreads htext hover hcut hclosed.symm
      obtain hempty | hseq := Gathered.alone hspelled hreads htext hover hcut
      · exact Or.inl hempty
      · exact Or.inr (Or.inr ⟨rfl,hseq⟩)
    | fits hreads hfits =>
      intro htrimmed
      have hfull : Fits opts (g.scan opts _).context (appendLine g.text _) := hfits
      exact Or.inl (hfull.front hmono (trim_start _) htrimmed)

/-- The chunks of a document keep the limit of a monotone measure, a lone scalar apart, exactly
if no chunk is closed with a context that its last, untaken span has opened and that makes it too
large, and no ill-formed sequence too large to fit ends up alone. -/
theorem hard_limit_iff (hmono : Measured opts) (doc : ℕ) (input : Bytes) :
    (∀ c ∈ chunkDocument doc input opts, Fits opts c.context c.text ∨ LoneScalar opts c.text) ↔
      ∀ g, Visits opts (spansOf opts input) g → g.Kept opts := by
  rw [forall_chunk_iff (Q := fun c => Fits opts c.context c.text ∨ LoneScalar opts c.text)]
  constructor
  · intro h g hvisits
    apply (kept_iff hmono hvisits).mp
    intro g' hturn
    exact forall_limited_iff.mp (h g g' hvisits hturn)
  · intro h g g' hvisits hturn
    apply forall_limited_iff.mpr
    exact (kept_iff hmono hvisits).mpr (h g hvisits) g' hturn

/-- The text `para56789` and the heading `# H` behind it. -/
def headingBehind : Bytes :=
  ascii ['p','a','r','a','5','6','7','8','9','\n','#',' ','H']

lemma measured_bytes {opts : ChunkOptions} (h : opts.measureTokens = none) : Measured opts := by
  intro measure hmeasure
  rw [h] at hmeasure
  cases hmeasure

/-- Where the heading fits the limit holds, and so every state is kept. -/
theorem headingBehind_limit :
    (∀ c ∈ chunkDocument 0 headingBehind {maxChars := 11}, Fits {maxChars := 11} c.context c.text) ∧
      ∀ g, Visits {maxChars := 11} (spansOf {maxChars := 11} headingBehind) g →
        g.Kept {maxChars := 11} := by
  have hfits : ∀ c ∈ chunkDocument 0 headingBehind {maxChars := 11},
      Fits {maxChars := 11} c.context c.text := by decide +kernel
  exact ⟨hfits,(hard_limit_iff (measured_bytes rfl) 0 headingBehind).mp
    fun c hc => .inl (hfits c hc)⟩

/-- The paragraph is closed with the heading it does not contain, and exceeds the limit with it. -/
theorem late_heading_exceeds :
    Measured {maxChars := 10} ∧ ¬∀ c ∈ chunkDocument 0 headingBehind {maxChars := 10},
      Fits {maxChars := 10} c.context c.text ∨ LoneScalar {maxChars := 10} c.text := by
  refine ⟨measured_bytes rfl,?_⟩
  intro h
  obtain ⟨c,hc,hover,hseq⟩ : ∃ c ∈ chunkDocument 0 headingBehind {maxChars := 10},
      ¬Fits {maxChars := 10} c.context c.text ∧ ¬Sequence c.text := by decide +kernel
  obtain hfits | hlone := h c hc
  · exact hover hfits
  · exact hseq hlone.1.sequence

end RagRuntime.Text
