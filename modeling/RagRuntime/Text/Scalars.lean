import RagRuntime.Base.Utf8
import RagRuntime.Text.ChunkRun

/-! The byte sequences the chunker reads as one scalar, and the cuts it makes between them. -/
namespace RagRuntime.Text
open RagRuntime.Base RagRuntime.Core

/-- A byte that continues a sequence. -/
def continues (b : Byte) : Bool := b.val &&& 0xc0 = 0x80

lemma continues_iff (b : Byte) : continues b = true ↔ 128 ≤ b.val ∧ b.val < 192 := by
  revert b
  decide +kernel

lemma utf8Width_eq (c : Byte) : utf8Width c =
    if c.val < 192 then 1 else if c.val < 224 then 2 else if c.val < 240 then 3
    else if c.val < 248 then 4 else 1 := by
  revert c
  decide +kernel

/-- A sequence that is read as one scalar, not as a malformed byte. -/
def Sequence : Bytes → Prop
  | [] => False
  | c::rest => rest.length+1 = utf8Width c ∧ (∀ b ∈ rest, continues b) ∧ (c.val < 128 ∨ rest ≠ [])

instance : DecidablePred Sequence
  | [] => inferInstanceAs (Decidable False)
  | c::rest => inferInstanceAs (Decidable (rest.length+1 = utf8Width c ∧
      (∀ b ∈ rest, continues b) ∧ (c.val < 128 ∨ rest ≠ [])))

/-- The sequence encodes a Unicode scalar. -/
def WellFormed (s : Bytes) : Prop := ∃ ch, scalarBytes ch = s

lemma Sequence.ne_nil {s : Bytes} (h : Sequence s) : s ≠ [] := by
  rintro rfl
  exact h

lemma Sequence.lead {c : Byte} {rest : Bytes} (h : Sequence (c::rest)) : continues c = false := by
  obtain ⟨hwidth,-,hlead⟩ := h
  rw [← Bool.not_eq_true,continues_iff]
  rintro ⟨hlo,hhi⟩
  obtain hc | hrest := hlead
  · omega
  · have := List.length_pos_iff.mpr hrest
    rw [utf8Width_eq,if_pos hhi] at hwidth
    omega

lemma sequence_ascii {c : Byte} (h : c.val < 128) : Sequence [c] := by
  refine ⟨?_,by simp,Or.inl h⟩
  rw [utf8Width_eq,if_pos (by omega)]
  rfl

lemma sequence_newline : Sequence [newline] := sequence_ascii (by decide)

lemma sequence_replacement : Sequence replacement := by decide +kernel

lemma byte_val (n : ℕ) : (Fin.ofNat 256 (UInt8.ofNat n).toNat : Byte).val = n % 256 := by
  simp

lemma continues_byte (n : ℕ) : continues (Fin.ofNat 256 (UInt8.ofNat (n % 64 + 128)).toNat) := by
  rw [continues_iff,byte_val]
  omega

lemma sequence_scalarBytes (ch : Char) : Sequence (scalarBytes ch) := by
  unfold scalarBytes String.utf8EncodeChar
  generalize ch.val.toNat = v
  dsimp only
  split_ifs with h1 h2 h3
  · apply sequence_ascii
    rw [byte_val]
    omega
  all_goals
    refine ⟨?_,?_,Or.inr (List.cons_ne_nil _ _)⟩
    · rw [utf8Width_eq,byte_val]
      simp only [List.map_cons,List.map_nil,List.length_cons,List.length_nil]
      split_ifs <;> omega
    · simp only [List.map_cons,List.map_nil,List.forall_mem_cons,continues_byte,true_and]
      simp

/-- The text is spelled by sequences that all have the property. -/
def Spelled (P : Bytes → Prop) (text : Bytes) : Prop :=
  ∃ seqs : List Bytes, (∀ s ∈ seqs, P s) ∧ seqs.flatten = text

variable {P : Bytes → Prop}

lemma Spelled.nil : Spelled P [] := ⟨[],by simp,rfl⟩

lemma Spelled.append {a b : Bytes} (ha : Spelled P a) (hb : Spelled P b) : Spelled P (a ++ b) := by
  obtain ⟨xs,hxs,rfl⟩ := ha
  obtain ⟨ys,hys,rfl⟩ := hb
  refine ⟨xs ++ ys,?_,List.flatten_append⟩
  intro s hs
  exact (List.mem_append.mp hs).elim (hxs s) (hys s)

lemma Spelled.single {s : Bytes} (h : P s) : Spelled P s := ⟨[s],by simpa using h,by simp⟩

/-- It is enough to know of the sequences that the text has. -/
lemma Spelled.imp {Q : Bytes → Prop} {text : Bytes} (h : Spelled P text)
    (hQ : ∀ s, P s → s <:+: text → Q s) : Spelled Q text := by
  obtain ⟨seqs,hseqs,rfl⟩ := h
  exact ⟨seqs,fun s hs => hQ s (hseqs s hs) (List.infix_of_mem_flatten hs),rfl⟩

section cuts
variable (hP : ∀ s, P s → Sequence s)
include hP

/-- The first sequence of a text. -/
lemma Spelled.head {c : Byte} {rest : Bytes} (h : Spelled P (c::rest)) :
    ∃ tail back, P (c::tail) ∧ rest = tail ++ back ∧ Spelled P back := by
  obtain ⟨seqs,hseqs,heq⟩ := h
  cases seqs with
  | nil => cases heq
  | cons s seqs =>
    obtain ⟨d,tail,rfl⟩ := List.exists_cons_of_ne_nil (hP s (hseqs s List.mem_cons_self)).ne_nil
    simp only [List.flatten_cons,List.cons_append,List.cons.injEq] at heq
    obtain ⟨rfl,rfl⟩ := heq
    exact ⟨tail,seqs.flatten,hseqs _ List.mem_cons_self,rfl,seqs,
      fun s hs => hseqs s (List.mem_cons_of_mem _ hs),rfl⟩

/-- A text can be cut before every byte that does not continue a sequence. -/
lemma Spelled.cut {a b : Bytes} {c : Byte} (h : Spelled P (a ++ c::b)) (hc : continues c = false) :
    Spelled P a ∧ Spelled P (c::b) := by
  obtain ⟨seqs,hseqs,heq⟩ := h
  induction seqs generalizing a with
  | nil => simp at heq
  | cons s seqs ih =>
    have hrest : ∀ x ∈ seqs, P x := fun x hx => hseqs x (List.mem_cons_of_mem _ hx)
    rw [List.flatten_cons] at heq
    obtain ⟨a',rfl,heq'⟩ | ⟨s',hs,heq'⟩ := List.append_eq_append_iff.mp heq
    · obtain ⟨ha,hb⟩ := ih hrest heq'
      exact ⟨(Spelled.single (hseqs s List.mem_cons_self)).append ha,hb⟩
    · cases a with
      | nil =>
        refine ⟨.nil,s::seqs,hseqs,?_⟩
        rw [List.flatten_cons,heq,List.nil_append]
      | cons d a =>
        cases s' with
        | nil =>
          rw [List.append_nil] at hs
          subst hs
          refine ⟨.single (hseqs _ List.mem_cons_self),seqs,hrest,?_⟩
          rw [heq',List.nil_append]
        | cons e s' =>
          -- `c` would lie inside the first sequence
          obtain ⟨rfl,-⟩ := List.cons_eq_cons.mp heq'
          have hseq := hP s (hseqs s List.mem_cons_self)
          rw [hs,List.cons_append] at hseq
          have := hseq.2.1 c (by simp)
          rw [hc] at this
          cases this

/-- A sequence that occurs in a text is one of those that spell it. -/
lemma Spelled.occurs {a s b : Bytes} (h : Spelled P (a ++ (s ++ b))) (hs : Sequence s) :
    Spelled P a ∧ P s ∧ Spelled P b := by
  obtain ⟨c,tail,rfl⟩ := List.exists_cons_of_ne_nil hs.ne_nil
  obtain ⟨ha,hrest⟩ := h.cut hP hs.lead
  obtain ⟨tail',back,hhead,heq,hback⟩ := hrest.head hP
  have hwidth := hs.1
  have hwidth' := (hP _ hhead).1
  obtain ⟨rfl,rfl⟩ := List.append_inj heq (by omega)
  exact ⟨ha,hhead,hback⟩

end cuts

lemma nextUtf8_append {s : Bytes} (hs : Sequence s) (a b : Bytes) :
    nextUtf8 (a ++ (s ++ b)) a.length = a.length + s.length := by
  obtain ⟨c,tail,rfl⟩ := List.exists_cons_of_ne_nil hs.ne_nil
  obtain ⟨hwidth,htail,-⟩ := hs
  unfold nextUtf8
  rw [List.drop_left,List.cons_append]
  dsimp only
  rw [if_neg (by simp; omega),if_pos]
  · rw [← hwidth]
    simp
  · rw [← hwidth,Nat.add_sub_cancel,List.take_left,List.all_eq_true]
    intro b hb
    exact htail b hb

/-- What is not read as a single byte is a sequence. -/
lemma sequence_nextUtf8 {c : Byte} {rest : Bytes} (h : nextUtf8 (c::rest) 0 ≠ 1) :
    Sequence (c::rest.take (nextUtf8 (c::rest) 0 - 1)) := by
  have heq : nextUtf8 (c::rest) 0 = utf8Width c ∧ utf8Width c ≤ rest.length+1 ∧
      (rest.take (utf8Width c-1)).all (fun b => b.val &&& 0xc0 = 0x80) := by
    unfold nextUtf8 at h ⊢
    rw [List.drop_zero] at h ⊢
    dsimp only at h ⊢
    split_ifs at h ⊢ with hlen hall
    · exact absurd rfl h
    · exact ⟨Nat.zero_add _,by simpa using hlen,hall⟩
    · exact absurd rfl h
  obtain ⟨hwidth,hlen,hall⟩ := heq
  rw [hwidth] at h ⊢
  have hone := one_le_utf8Width c
  have hlength : (rest.take (utf8Width c-1)).length = utf8Width c-1 := by
    rw [List.length_take]
    omega
  refine ⟨by omega,fun b hb => List.all_eq_true.mp hall b hb,Or.inr ?_⟩
  apply List.ne_nil_of_length_pos
  omega

/-- The text can be cut at `pos` with no sequence cut in two. -/
def Cut (P : Bytes → Prop) (text : Bytes) (pos : ℕ) : Prop :=
  ∃ a b, text = a ++ b ∧ a.length = pos ∧ Spelled P a ∧ Spelled P b

lemma cut_zero {text : Bytes} (h : Spelled P text) : Cut P text 0 := ⟨[],text,rfl,rfl,.nil,h⟩

lemma Cut.take {text : Bytes} {pos : ℕ} (h : Cut P text pos) : Spelled P (text.take pos) := by
  obtain ⟨a,b,rfl,rfl,ha,-⟩ := h
  rwa [List.take_left]

lemma Cut.drop {text : Bytes} {pos : ℕ} (h : Cut P text pos) : Spelled P (text.drop pos) := by
  obtain ⟨a,b,rfl,rfl,-,hb⟩ := h
  rwa [List.drop_left]

lemma Cut.next (hP : ∀ s, P s → Sequence s) {text : Bytes} {pos : ℕ} (h : Cut P text pos)
    (hpos : pos < text.length) : Cut P text (nextUtf8 text pos) := by
  obtain ⟨a,b,rfl,rfl,ha,hb⟩ := h
  cases b with
  | nil => simp at hpos
  | cons c rest =>
    obtain ⟨tail,back,hhead,rfl,hrest⟩ := hb.head hP
    have hnext := nextUtf8_append (hP _ hhead) a back
    rw [List.cons_append] at hnext
    rw [hnext]
    exact ⟨a ++ c::tail,back,by simp,by simp,ha.append (.single hhead),hrest⟩

/-- A sequence that is all of the text was read as one scalar. -/
lemma Spelled.sequence (hP : ∀ s, P s → Sequence s) {text : Bytes} (h : Spelled P text)
    (hne : text ≠ []) (hnext : nextUtf8 text 0 = text.length) : P text := by
  obtain ⟨c,rest,rfl⟩ := List.exists_cons_of_ne_nil hne
  obtain ⟨tail,back,hhead,rfl,hrest⟩ := h.head hP
  have hlength := nextUtf8_append (hP _ hhead) [] back
  rw [List.nil_append,List.cons_append,List.length_nil,hnext] at hlength
  simp only [List.length_cons,List.length_append] at hlength
  obtain rfl := List.length_eq_zero_iff.mp (show back.length = 0 by omega)
  rwa [List.append_nil]

lemma validUtf8_iff_spelled {text : Bytes} : ValidUtf8 text ↔ Spelled WellFormed text := by
  rw [validUtf8_iff]
  constructor
  · rintro ⟨chars,rfl⟩
    refine ⟨chars.map scalarBytes,?_,List.flatMap_def.symm⟩
    intro s hs
    obtain ⟨ch,-,rfl⟩ := List.mem_map.mp hs
    exact ⟨ch,rfl⟩
  · rintro ⟨seqs,hseqs,rfl⟩
    induction seqs with
    | nil => exact ⟨[],rfl⟩
    | cons s seqs ih =>
      obtain ⟨ch,rfl⟩ := hseqs s List.mem_cons_self
      obtain ⟨chars,hchars⟩ := ih fun x hx => hseqs x (List.mem_cons_of_mem _ hx)
      exact ⟨ch::chars,by rw [List.flatMap_cons,hchars,List.flatten_cons]⟩

lemma WellFormed.sequence {s : Bytes} (h : WellFormed s) : Sequence s := by
  obtain ⟨ch,rfl⟩ := h
  exact sequence_scalarBytes ch

lemma wellFormed_ascii {c : Byte} (h : c.val < 128) : WellFormed [c] := by
  refine ⟨Char.ofNat c.val,?_⟩
  revert c
  decide +kernel

/-- White space is one byte, so a sequence is stripped as a whole or not at all. -/
lemma Sequence.rdropWhile {s : Bytes} (h : Sequence s) :
    s.rdropWhile isSpace = s ∨ s.rdropWhile isSpace = [] ∧ WellFormed s := by
  obtain ⟨c,rest,rfl⟩ := List.exists_cons_of_ne_nil h.ne_nil
  obtain ⟨hwidth,hrest,hlead⟩ := h
  by_cases hne : rest = []
  · subst hne
    by_cases hspace : isSpace c
    · right
      refine ⟨by simp [List.rdropWhile,hspace],?_⟩
      exact wellFormed_ascii (hlead.resolve_right fun h => h rfl)
    · left
      simp [List.rdropWhile,hspace]
  · left
    rw [List.rdropWhile_eq_self_iff]
    intro hcons hspace
    rw [List.getLast_cons hne] at hspace
    have hlast := (continues_iff _).mp (hrest _ (List.getLast_mem hne))
    simp only [isSpace,decide_eq_true_eq] at hspace
    obtain heq | hspace := hspace
    · rw [heq] at hlast
      exact absurd hlast (by decide)
    · omega

section spans
variable {opts : ChunkOptions} (hP : ∀ s, P s → Sequence s)
include hP

lemma splitScan_cut {text : Bytes} (opts : ChunkOptions) (start : ℕ) (context : Bytes) (pos : ℕ)
    (marks : SplitMarks) (hpos : Cut P text pos)
    (hmarks : Cut P text marks.lastFit ∧ Cut P text marks.sentence ∧ Cut P text marks.soft) :
    let m := splitScan text start context opts pos marks
    Cut P text m.lastFit ∧ Cut P text m.sentence ∧ Cut P text m.soft := by
  induction pos, marks using splitScan.induct text start context opts with
  | case1 pos marks hlt stop piece hfull =>
    rw [splitScan,dif_pos hlt]
    dsimp only
    rwa [if_pos hfull]
  | case2 pos marks hlt stop piece hfull tail ih =>
    rw [splitScan,dif_pos hlt]
    dsimp only
    rw [if_neg hfull]
    have hstop : Cut P text stop := hpos.next hP hlt
    apply ih hstop
    refine ⟨hstop,?_,?_⟩
    · dsimp only
      split_ifs
      exacts [hstop,hmarks.2.1]
    · dsimp only
      split_ifs
      exacts [hstop,hmarks.2.2]
  | case3 pos marks hlt => rwa [splitScan,dif_neg hlt]

/-- `split_at` cuts no sequence in two. -/
lemma splitAt_cut {text : Bytes} {start : ℕ} (h : Cut P text start) (hlt : start < text.length)
    (context : Bytes) : Cut P text (splitAt text start context opts) := by
  obtain hm := splitScan_cut hP opts start context start ⟨start,start,start⟩ h ⟨h,h,h⟩
  unfold splitAt
  dsimp only
  split_ifs
  exacts [hm.1,hm.2.1,hm.2.2,hm.1,h.next hP hlt]

/-- What lies between two cuts is spelled, too. -/
lemma Cut.between {text : Bytes} {i j : ℕ} (hi : Cut P text i) (hj : Cut P text j) (hij : i ≤ j) :
    Spelled P ((text.drop i).take (j-i)) := by
  obtain ⟨a,b,rfl,rfl,-,hb⟩ := hi
  obtain ⟨front,back,heq,rfl,-,hback⟩ := hj
  obtain ⟨middle,rfl,rfl⟩ | ⟨extra,rfl,rfl⟩ := List.append_eq_append_iff.mp heq
  · rw [List.drop_left,List.length_append,Nat.add_sub_cancel_left,List.take_left]
    cases back with
    | nil => rwa [List.append_nil] at hb
    | cons c rest =>
      obtain ⟨tail,_,hhead,-⟩ := hback.head hP
      exact (hb.cut hP (hP _ hhead).lead).1
  · have hextra : extra = [] := by
      rw [List.length_append] at hij
      exact List.length_eq_zero_iff.mp (by omega)
    subst hextra
    rw [List.append_nil,Nat.sub_self,List.take_zero]
    exact .nil

lemma spelled_linePieces {line : Bytes} (start : ℕ) (h : Cut P line start) :
    ∀ piece ∈ linePieces line opts start, Spelled P piece := by
  induction start using linePieces.induct line opts with
  | case1 start hlt cut ih =>
    have hcut : Cut P line cut := splitAt_cut hP h hlt []
    rw [linePieces,dif_pos hlt]
    intro piece hpiece
    obtain rfl | hpiece := List.mem_cons.mp hpiece
    · exact h.between hP hcut (lt_splitAt hlt [] opts).le
    · exact ih hcut piece hpiece
  | case2 start hlt =>
    rw [linePieces,dif_neg hlt]
    simp

lemma spelled_lineSpans {line : Bytes} {number : ℕ} (h : Spelled P line) :
    ∀ s ∈ lineSpans opts line number, Spelled P s.text := by
  unfold lineSpans
  split_ifs with hline
  · simpa using Spelled.nil
  · intro s hs
    obtain ⟨piece,hpiece,rfl⟩ := List.mem_map.mp hs
    exact spelled_linePieces hP 0 (cut_zero h) piece hpiece

/-- The lines of a spelled text. -/
lemma spelled_lines (lines : List Bytes) (h : Spelled P ([newline].intercalate lines)) :
    ∀ line ∈ lines, Spelled P line := by
  induction lines with
  | nil => simp
  | cons line lines ih =>
    cases lines with
    | nil => simpa using h
    | cons line' lines =>
      rw [List.intercalate_cons_cons,List.append_assoc,List.singleton_append] at h
      obtain ⟨hline,hrest⟩ := h.cut hP (by decide)
      obtain ⟨tail,back,hhead,heq,hback⟩ := hrest.head hP
      have hwidth := (hP _ hhead).1
      obtain rfl := List.length_eq_zero_iff.mp (show tail.length = 0 by
        have : utf8Width newline = 1 := rfl
        omega)
      rw [List.nil_append] at heq
      subst heq
      intro x hx
      obtain rfl | hx := List.mem_cons.mp hx
      · exact hline
      · exact ih hback x hx

lemma spelled_spansFrom (lines : List Bytes) (n : ℕ) (h : ∀ line ∈ lines, Spelled P line) :
    ∀ s ∈ spansFrom opts lines n, Spelled P s.text := by
  induction lines generalizing n with
  | nil => simp [spansFrom]
  | cons line lines ih =>
    intro s hs
    obtain hs | hs := List.mem_append.mp hs
    · exact spelled_lineSpans hP (h line List.mem_cons_self) s hs
    · exact ih (n+1) (fun l hl => h l (List.mem_cons_of_mem _ hl)) s hs

lemma spelled_bodySpans {body : Bytes} (h : Spelled P body) :
    ∀ s ∈ bodySpans opts body, Spelled P s.text := by
  apply spelled_spansFrom hP
  apply spelled_lines hP
  rwa [List.intercalate_splitOn]

/-- The spans gathered and those left, at the top of the inner loop. -/
lemma Turn.spelled {g g' : Gathered} {closed : Bool} (hturn : Turn opts g g' closed)
    (h : ∀ s ∈ g.taken ++ g.pending, Spelled P s.text) :
    ∀ s ∈ g'.taken ++ g'.pending, Spelled P s.text := by
  cases hturn with
  | exhausted | full | overfull => exact h
  | @split span rest hreads htext hover hcut =>
    rw [hreads.pending] at h
    have hspan := h span (by simp)
    have hcut' : Cut P span.text (g.cut opts span) :=
      splitAt_cut hP (cut_zero hspan) (Nat.zero_lt_of_lt hcut) _
    intro s hs
    simp only [List.mem_append,List.mem_cons] at hs h
    obtain hs | rfl | rfl | hs := hs
    · exact h s (Or.inl hs)
    · exact hcut'.take
    · exact hcut'.drop
    · exact h s (Or.inr (Or.inr hs))
  | @alone span rest hreads | @fits span rest hreads =>
    rw [hreads.pending] at h
    simpa using h

lemma Visits.spelled {spans : List Span} (hspans : ∀ s ∈ spans, Spelled P s.text) {g : Gathered}
    (h : Visits opts spans g) : ∀ s ∈ g.taken ++ g.pending, Spelled P s.text := by
  induction h with
  | start => exact hspans
  | go _ hturn ih => exact hturn.spelled hP ih
  | @next g g' _ hturn hne ih =>
    have hg' := hturn.spelled hP ih
    intro s hs
    simp only [Gathered.start,List.nil_append,Gathered.next] at hs hne
    split_ifs at hs hne
    · exact absurd rfl hne
    obtain hs | hs := List.mem_append.mp hs
    · apply hg' s
      apply List.mem_append_left
      exact List.mem_of_mem_tail ((overlapSpans_suffix opts g'.taken).subset hs)
    · exact hg' s (List.mem_append_right _ hs)

end spans

/-- What is kept of the input are sequences it has, and new lines and replacement characters. -/
lemma spelled_normalizeInput {opts : ChunkOptions} (hnewline : P [newline])
    (hreplacement : P replacement) (input : Bytes) (body : Bytes)
    (hseqs : ∀ s, Sequence s → s <:+: input → P s)
    (h : normalizeInput opts input = some body) : Spelled P body := by
  fun_induction normalizeInput opts input generalizing body with
  | case1 =>
    cases h
    exact .nil
  | case2 rest ih =>
    obtain ⟨body',hbody',rfl⟩ := Option.map_eq_some_iff.mp h
    refine (Spelled.single hnewline).append (ih body' ?_ hbody')
    intro s hs hin
    apply hseqs s hs
    apply hin.trans
    split_ifs
    · exact ((List.tail_suffix rest).trans (List.suffix_cons _ _)).isInfix
    · exact (List.suffix_cons _ _).isInfix
  | case3 c rest hcr hascii ih =>
    obtain ⟨body',hbody',rfl⟩ := Option.map_eq_some_iff.mp h
    have hrest : rest <:+: c::rest := (List.suffix_cons _ _).isInfix
    have hc : P [c] := hseqs [c] (sequence_ascii hascii) ⟨[],rest,rfl⟩
    exact (Spelled.single hc).append (ih body' (fun s hs hi => hseqs s hs (hi.trans hrest)) hbody')
  | case4 => cases h
  | case5 c rest hcr hascii width hwidth hpolicy ih =>
    obtain ⟨body',hbody',rfl⟩ := Option.map_eq_some_iff.mp h
    have hrest : rest <:+: c::rest := (List.suffix_cons _ _).isInfix
    exact (Spelled.single hreplacement).append
      (ih body' (fun s hs hi => hseqs s hs (hi.trans hrest)) hbody')
  | case6 c rest hcr hascii width hwidth ih =>
    obtain ⟨body',hbody',rfl⟩ := Option.map_eq_some_iff.mp h
    have hhead : P (c::rest.take (width-1)) := by
      refine hseqs _ (sequence_nextUtf8 hwidth) ⟨[],rest.drop (width-1),?_⟩
      rw [List.nil_append,List.cons_append,List.take_append_drop]
    have hrest : rest.drop (width-1) <:+: c::rest :=
      ((List.drop_suffix _ _).trans (List.suffix_cons _ _)).isInfix
    exact (Spelled.single hhead).append
      (ih body' (fun s hs hi => hseqs s hs (hi.trans hrest)) hbody')

/-- The spans of a document are spelled by whole sequences. -/
lemma spelled_spansOf {opts : ChunkOptions} {input : Bytes} :
    ∀ s ∈ spansOf opts input, Spelled Sequence s.text := by
  unfold spansOf
  cases hbody : normalizeInput opts input with
  | none => simp
  | some body =>
    have hspelled : Spelled Sequence body :=
      spelled_normalizeInput sequence_newline sequence_replacement input body (fun s hs _ =>
        hs) hbody
    dsimp only
    split_ifs
    · simp
    · simp
    · exact spelled_bodySpans (fun s hs => hs) hspelled

end RagRuntime.Text
