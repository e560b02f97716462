import RagRuntime.Core.Keys

/-! When two chunks have the same identity: a document key may end in a line range. -/
namespace RagRuntime.Core
open RagRuntime.Base

def lineRange (startLine endLine : ℕ) : Bytes :=
  decimal startLine ++ ascii [':'] ++ decimal endLine

lemma chunkIdentity_eq_joined (document : Bytes) (s e : ℕ) (text : Bytes) :
    chunkIdentity document s e text =
      joined newline [document,lineRange s e] (normalizeSourceText text) := rfl

lemma not_mem_decimal {b : Byte} (hb : ¬isDigit b) (n : ℕ) : b ∉ decimal n := fun hm =>
  hb (isDigit_decimal _ hm)

lemma not_mem_lineRange {b : Byte} (hb : ¬isDigit b) (hcolon : b ≠ 58) (s e : ℕ) :
    b ∉ lineRange s e := by
  simp [lineRange,not_mem_decimal hb,ascii,hcolon]

lemma lineRange_inj {s e s' e' : ℕ} : lineRange s e = lineRange s' e' ↔ s = s' ∧ e = e' := by
  constructor
  · intro h
    simp only [lineRange,List.append_assoc] at h
    have hcolon : ∀ n, (58 : Byte) ∉ decimal n := not_mem_decimal (by decide)
    obtain ⟨hs,he⟩ := append_cons_inj (hcolon s) (hcolon s') h
    exact ⟨decimal_injective hs,decimal_injective he⟩
  · rintro ⟨rfl,rfl⟩
    rfl

/-- One key goes on with the lines of the other chunk, and with the beginning of its text; the
lines and the text of the first chunk are the rest of that text. -/
def Continues (document : Bytes) (s e : ℕ) (text document' : Bytes) (s' e' : ℕ) (text' : Bytes) :
    Prop :=
  (document = document' ++ newline::lineRange s' e' ∧
    normalizeSourceText text' = lineRange s e ++ newline::normalizeSourceText text) ∨
  ∃ front, document = document' ++ newline::(lineRange s' e' ++ newline::front) ∧
    normalizeSourceText text' = front ++
      newline::(lineRange s e ++ newline::normalizeSourceText text)

variable {document document' text text' : Bytes} {s e s' e' : ℕ}

lemma slides_iff_continues :
    Slides newline document [lineRange s e] (normalizeSourceText text) document' [lineRange s' e']
      (normalizeSourceText text') ↔ Continues document s e text document' s' e' text' := by
  constructor
  · rintro (⟨taken,kept,given,htaken,hsplit,hsplit',hdoc,htext⟩ | ⟨front,hdoc,htext⟩)
    · cases taken with
      | nil => exact absurd rfl htaken
      | cons f taken =>
        obtain ⟨rfl,hnil⟩ := List.cons.inj hsplit
        obtain ⟨rfl,rfl⟩ := List.append_eq_nil_iff.mp hnil.symm
        obtain rfl : [lineRange s e] = given := hsplit'
        exact Or.inl ⟨by simpa [trail] using hdoc,htext⟩
    · exact Or.inr ⟨front,by simpa [trail] using hdoc,htext⟩
  · rintro (⟨hdoc,htext⟩ | ⟨front,hdoc,htext⟩)
    · exact Or.inl ⟨[lineRange s' e'],[],[lineRange s e],List.cons_ne_nil _ _,rfl,rfl,
        by simpa [trail] using hdoc,htext⟩
    · exact Or.inr ⟨front,by simpa [trail] using hdoc,htext⟩

theorem chunkIdentity_eq_iff :
    chunkIdentity document s e text = chunkIdentity document' s' e' text' ↔
      (document = document' ∧ s = s' ∧ e = e' ∧
        normalizeSourceText text = normalizeSourceText text') ∨
      Continues document s e text document' s' e' text' ∨
      Continues document' s' e' text' document s e text := by
  have hclean : ∀ s e, ∀ f ∈ [lineRange s e], newline ∉ f := by
    intro s e f hf
    rw [List.mem_singleton.mp hf]
    exact not_mem_lineRange (by decide) (by decide) s e
  rw [chunkIdentity_eq_joined,chunkIdentity_eq_joined,
    joined_eq_joined_iff (hclean s e) (hclean s' e') rfl,slides_iff_continues,
    slides_iff_continues,List.cons.injEq,lineRange_inj]
  tauto

lemma Continues.length_lt (h : Continues document s e text document' s' e' text') :
    document'.length < document.length := (slides_iff_continues.mpr h).length_lt

/-- The identity tells two chunks apart as long as neither document key continues the other with
its chunk's lines. -/
theorem chunkIdentity_unambiguous_iff :
    (chunkIdentity document s e text = chunkIdentity document' s' e' text' →
      document = document' ∧ s = s' ∧ e = e' ∧
        normalizeSourceText text = normalizeSourceText text') ↔
    ¬(Continues document s e text document' s' e' text' ∨
      Continues document' s' e' text' document s e text) := by
  rw [chunkIdentity_eq_iff]
  constructor
  · rintro h (hc | hc)
    · have hsame := (h (Or.inr (Or.inl hc))).1
      exact absurd hc.length_lt (by rw [hsame]; exact lt_irrefl _)
    · have hsame := (h (Or.inr (Or.inr hc))).1
      exact absurd hc.length_lt (by rw [hsame]; exact lt_irrefl _)
  · rintro h (hsame | hc)
    · exact hsame
    · exact absurd hc h

/-- A key that could be the beginning of an identity of the other document; lines have 32 bits. -/
def Prolongs (document document' : Bytes) : Prop :=
  ∃ s < 2^32, ∃ e < 2^32, document = document' ++ newline::lineRange s e ∨
    ∃ front, carriageReturn ∉ front ∧
      document = document' ++ newline::(lineRange s e ++ newline::front)

lemma Continues.prolongs (h : Continues document s e text document' s' e' text') (hs' : s' < 2^32)
    (he' : e' < 2^32) : Prolongs document document' := by
  refine ⟨s',hs',e',he',?_⟩
  rcases h with ⟨hdoc,-⟩ | ⟨front,hdoc,htext⟩
  · exact Or.inl hdoc
  · refine Or.inr ⟨front,fun hfront => ?_,hdoc⟩
    apply carriageReturn_not_mem_normalizeSourceText text'
    rw [htext]
    exact List.mem_append_left _ hfront

lemma Prolongs.continues (h : Prolongs document document') :
    ∃ text, ∃ s' < 2^32, ∃ e' < 2^32, ∃ text',
      Continues document 0 0 text document' s' e' text' := by
  have hrange : ∀ s e, carriageReturn ∉ lineRange s e :=
    not_mem_lineRange (by decide) (by decide)
  obtain ⟨s',hs',e',he',hdoc | ⟨front,hfront,hdoc⟩⟩ := h
  · refine ⟨[],s',hs',e',he',lineRange 0 0 ++ [newline],Or.inl ⟨hdoc,?_⟩⟩
    rw [normalizeSourceText_of_not_mem]
    · rfl
    · simp only [List.mem_append,List.mem_singleton,hrange,false_or]
      decide
  · refine ⟨[],s',hs',e',he',front ++ newline::(lineRange 0 0 ++ [newline]),Or.inr ⟨front,hdoc,?_⟩⟩
    rw [normalizeSourceText_of_not_mem]
    · rfl
    · simp only [List.mem_append,List.mem_cons,List.not_mem_nil,hfront,hrange,false_or,or_false]
      decide

/-- The chunks of two documents have different identities whatever their lines and texts, if and
only if neither key prolongs the other. -/
theorem identities_apart_iff :
    (∀ s < 2^32, ∀ e < 2^32, ∀ text, ∀ s' < 2^32, ∀ e' < 2^32, ∀ text',
      chunkIdentity document s e text = chunkIdentity document' s' e' text' →
      document = document' ∧ s = s' ∧ e = e' ∧
        normalizeSourceText text = normalizeSourceText text') ↔
    ¬(Prolongs document document' ∨ Prolongs document' document) := by
  simp only [chunkIdentity_unambiguous_iff]
  constructor
  · rintro h (hp | hp)
    · obtain ⟨text,s',hs',e',he',text',hc⟩ := hp.continues
      exact h 0 (by decide) 0 (by decide) text s' hs' e' he' text' (Or.inl hc)
    · obtain ⟨text,s',hs',e',he',text',hc⟩ := hp.continues
      exact h s' hs' e' he' text' 0 (by decide) 0 (by decide) text (Or.inr hc)
  · rintro h s hs e he text s' hs' e' he' text' (hc | hc)
    · exact h (Or.inl (hc.prolongs hs' he'))
    · exact h (Or.inr (hc.prolongs hs he))

/-- The key of the second document ends in the lines and the first line of the other chunk. -/
theorem shared_chunkIdentity :
    chunkIdentity (ascii ['a']) 1 2 (ascii ['x','\n','3',':','4','\n','y']) =
      chunkIdentity (ascii ['a','\n','1',':','2','\n','x']) 3 4 (ascii ['y']) ∧
    ascii ['a'] ≠ ascii ['a','\n','1',':','2','\n','x'] := by
  decide +kernel

end RagRuntime.Core
