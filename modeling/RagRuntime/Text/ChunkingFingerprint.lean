import RagRuntime.Core.ChunkIdentity
import RagRuntime.Text.Chunker

/-! What a chunking fingerprint tells of its options: the tokenizer's name and the prefix of the
documents are not told from the numbers between them. -/
namespace RagRuntime.Text
open RagRuntime.Base RagRuntime.Core

def bar : Byte := 124

def countingNumber : TokenCountingMode → ℕ
  | .exact => 0
  | .conservativeUtf8Bytes => 1

def policyNumber : InvalidUtf8Policy → ℕ
  | .replace => 0
  | .reject => 1

namespace ChunkOptions

/-- The fields before the tokenizer's name. -/
def head (o : ChunkOptions) : List Bytes :=
  [ascii ['r','a','g','.','c','p','p','-','s','t','r','u','c','t','u','r','a','l','-','v','2'],
    decimal o.maxLines,decimal o.maxChars,decimal o.overlapLines,
    decimal o.headingContext.toNat]

/-- The numbers between the tokenizer's name and the prefix. -/
def tokens (o : ChunkOptions) : List Bytes :=
  [decimal o.policy.targetTokens,decimal o.policy.maxTokens,decimal o.policy.overlapTokens,
    decimal o.policy.reservedTokens]

/-- The tokenizer's name, the numbers and the prefix. -/
def middle (o : ChunkOptions) : Bytes :=
  joined bar (o.policy.tokenizerIdentity::o.tokens) o.policy.documentPrefix

/-- All that a fingerprint is made of. -/
structure SameGeometry (o o' : ChunkOptions) : Prop where
  maxLines : o.maxLines = o'.maxLines
  maxChars : o.maxChars = o'.maxChars
  overlapLines : o.overlapLines = o'.overlapLines
  headingContext : o.headingContext = o'.headingContext
  tokenizerIdentity : o.policy.tokenizerIdentity = o'.policy.tokenizerIdentity
  targetTokens : o.policy.targetTokens = o'.policy.targetTokens
  maxTokens : o.policy.maxTokens = o'.policy.maxTokens
  overlapTokens : o.policy.overlapTokens = o'.policy.overlapTokens
  reservedTokens : o.policy.reservedTokens = o'.policy.reservedTokens
  documentPrefix : o.policy.documentPrefix = o'.policy.documentPrefix
  countingMode : o.policy.countingMode = o'.policy.countingMode
  invalidUtf8 : o.policy.invalidUtf8 = o'.policy.invalidUtf8

/-- What does not stand between the tokenizer's name and the prefix agrees. -/
structure SameOutside (o o' : ChunkOptions) : Prop where
  maxLines : o.maxLines = o'.maxLines
  maxChars : o.maxChars = o'.maxChars
  overlapLines : o.overlapLines = o'.overlapLines
  headingContext : o.headingContext = o'.headingContext
  countingMode : o.policy.countingMode = o'.policy.countingMode
  invalidUtf8 : o.policy.invalidUtf8 = o'.policy.invalidUtf8

/-- One tokenizer's name is the other one, a bar and some of the other options' numbers, and the
numbers and the prefix follow it. -/
def Overruns (o o' : ChunkOptions) : Prop :=
  Slides bar o.policy.tokenizerIdentity o.tokens o.policy.documentPrefix
    o'.policy.tokenizerIdentity o'.tokens o'.policy.documentPrefix

variable {o o' : ChunkOptions}

lemma chunkingFingerprint_eq (o : ChunkOptions) : chunkingFingerprint o =
    joined bar o.head (o.middle ++ bar::(decimal (countingNumber o.policy.countingMode) ++
      bar::decimal (policyNumber o.policy.invalidUtf8))) := by
  have hbar : ascii ['|'] = [bar] := by decide
  unfold chunkingFingerprint
  simp only [head,middle,tokens,joined,hbar,List.append_assoc]
  generalize ascii _ = name
  cases o.policy.countingMode <;> cases o.policy.invalidUtf8 <;>
    simp only [countingNumber,policyNumber,List.cons_append,List.nil_append,List.append_assoc]

lemma bar_not_mem_decimal (n : ℕ) : bar ∉ decimal n := not_mem_decimal (by decide) n

lemma bar_not_mem_head (o : ChunkOptions) : ∀ f ∈ o.head, bar ∉ f := by
  have hname : bar ∉ o.head.head (List.cons_ne_nil _ _) := by
    change bar ∉ ascii _
    decide
  simpa [head,bar_not_mem_decimal] using hname

lemma bar_not_mem_tokens (o : ChunkOptions) : ∀ f ∈ o.tokens, bar ∉ f := by
  simp [tokens,bar_not_mem_decimal]

lemma head_eq_iff : o.head = o'.head ↔ o.maxLines = o'.maxLines ∧ o.maxChars = o'.maxChars ∧
    o.overlapLines = o'.overlapLines ∧ o.headingContext = o'.headingContext := by
  have hbool : o.headingContext.toNat = o'.headingContext.toNat ↔
      o.headingContext = o'.headingContext := by
    cases o.headingContext <;> cases o'.headingContext <;> decide
  simp [head,decimal_injective.eq_iff,hbool]

lemma tokens_eq_iff : o.tokens = o'.tokens ↔ o.policy.targetTokens = o'.policy.targetTokens ∧
    o.policy.maxTokens = o'.policy.maxTokens ∧ o.policy.overlapTokens = o'.policy.overlapTokens ∧
    o.policy.reservedTokens = o'.policy.reservedTokens := by
  simp [tokens,decimal_injective.eq_iff]

lemma countingNumber_injective : Function.Injective countingNumber := by
  intro a b h
  cases a <;> cases b <;> first | rfl | cases h

lemma policyNumber_injective : Function.Injective policyNumber := by
  intro a b h
  cases a <;> cases b <;> first | rfl | cases h

lemma sameGeometry_iff : o.SameGeometry o' ↔ o.SameOutside o' ∧
    o.policy.tokenizerIdentity = o'.policy.tokenizerIdentity ∧ o.tokens = o'.tokens ∧
      o.policy.documentPrefix = o'.policy.documentPrefix := by
  rw [tokens_eq_iff]
  constructor
  · intro h
    exact ⟨⟨h.maxLines,h.maxChars,h.overlapLines,h.headingContext,h.countingMode,h.invalidUtf8⟩,
      h.tokenizerIdentity,⟨h.targetTokens,h.maxTokens,h.overlapTokens,h.reservedTokens⟩,
      h.documentPrefix⟩
  · rintro ⟨h,hname,⟨htarget,hmax,hoverlap,hreserved⟩,hbefore⟩
    exact ⟨h.maxLines,h.maxChars,h.overlapLines,h.headingContext,hname,htarget,hmax,hoverlap,
      hreserved,hbefore,h.countingMode,h.invalidUtf8⟩

lemma middle_eq_iff : o.middle = o'.middle ↔
    (o.policy.tokenizerIdentity = o'.policy.tokenizerIdentity ∧ o.tokens = o'.tokens ∧
      o.policy.documentPrefix = o'.policy.documentPrefix) ∨ o.Overruns o' ∨ o'.Overruns o :=
  joined_eq_joined_iff o.bar_not_mem_tokens o'.bar_not_mem_tokens rfl

/-- Of what surrounds them, the tokenizer's name and the prefix hide nothing. -/
lemma chunkingFingerprint_eq_iff_middle : chunkingFingerprint o = chunkingFingerprint o' ↔
    o.SameOutside o' ∧ o.middle = o'.middle := by
  rw [chunkingFingerprint_eq,chunkingFingerprint_eq]
  constructor
  · intro h
    obtain ⟨hhead,hlast⟩ := joined_inj o.bar_not_mem_head o'.bar_not_mem_head rfl h
    simp only [← List.cons_append,← List.append_assoc] at hlast
    obtain ⟨hlast,hpolicy⟩ := append_cons_inj_right (bar_not_mem_decimal _) (bar_not_mem_decimal _)
      hlast
    obtain ⟨hmiddle,hmode⟩ := append_cons_inj_right (bar_not_mem_decimal _) (bar_not_mem_decimal _)
      hlast
    obtain ⟨hlines,hchars,hoverlap,hheading⟩ := head_eq_iff.mp hhead
    exact ⟨⟨hlines,hchars,hoverlap,hheading,countingNumber_injective (decimal_injective hmode),
      policyNumber_injective (decimal_injective hpolicy)⟩,hmiddle⟩
  · rintro ⟨h,hmiddle⟩
    have hhead := head_eq_iff.mpr ⟨h.maxLines,h.maxChars,h.overlapLines,h.headingContext⟩
    rw [hhead,hmiddle,h.countingMode,h.invalidUtf8]

lemma Overruns.ne (h : o.Overruns o') :
    o.policy.tokenizerIdentity ≠ o'.policy.tokenizerIdentity := fun hname =>
  absurd h.length_lt (by rw [hname]; exact lt_irrefl _)

/-- A fingerprint tells the geometry, unless all but the numbers between the tokenizer's name and
the prefix is the same and one of the names overruns the other options' numbers. -/
theorem chunkingFingerprint_identifies_iff :
    (chunkingFingerprint o = chunkingFingerprint o' → o.SameGeometry o') ↔
      ¬(o.SameOutside o' ∧ (o.Overruns o' ∨ o'.Overruns o)) := by
  rw [chunkingFingerprint_eq_iff_middle,middle_eq_iff,sameGeometry_iff]
  constructor
  · rintro h ⟨hout,hover | hover⟩
    · exact hover.ne (h ⟨hout,Or.inr (Or.inl hover)⟩).2.1
    · exact hover.ne (h ⟨hout,Or.inr (Or.inr hover)⟩).2.1.symm
  · rintro h ⟨hout,hsame | hover⟩
    · exact ⟨hout,hsame⟩
    · exact absurd ⟨hout,hover⟩ h

def plainName : ChunkOptions :=
  { policy := { tokenizerIdentity := ascii ['x'], targetTokens := 1, maxTokens := 2,
                overlapTokens := 3, reservedTokens := 4, documentPrefix := ascii ['5','|','p'] } }

/-- The tokenizer's name ends in a number, and all the numbers move on by one. -/
def numberedName : ChunkOptions :=
  { policy := { tokenizerIdentity := ascii ['x','|','1'], targetTokens := 2, maxTokens := 3,
                overlapTokens := 4, reservedTokens := 5, documentPrefix := ascii ['p'] } }

theorem shared_chunkingFingerprint :
    chunkingFingerprint plainName = chunkingFingerprint numberedName ∧
      ¬ plainName.SameGeometry numberedName :=
  ⟨by decide +kernel,fun h => absurd h.targetTokens (by decide)⟩

end ChunkOptions
end RagRuntime.Text
