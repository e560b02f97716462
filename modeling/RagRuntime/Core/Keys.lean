import Mathlib.Data.Nat.Digits.Defs
import RagRuntime.Base.Joined
import RagRuntime.Core.Types

/-! Stable content and chunk keys. -/
namespace RagRuntime.Core
open RagRuntime.Base

def newline : Byte := 10
def carriageReturn : Byte := 13

/-- `std::to_string` of an unsigned number. -/
def decimal (n : ℕ) : Bytes :=
  if n = 0 then ascii ['0'] else (Nat.digits 10 n).reverse.map fun d => Fin.ofNat 256 (48+d)

def fnvOffset : ℕ := 1469598103934665603

def fnv1a (text : Bytes) (hash : ℕ) : ℕ :=
  text.foldl (fun hash value => (hash ^^^ value.val) * 1099511628211 % 2^64) hash

def hexDigit (d : ℕ) : Byte := Fin.ofNat 256 (if d < 10 then 48+d else 87+d)

def hex64 (value : ℕ) : Bytes :=
  (List.range 16).map fun i => hexDigit (value / 16^(15-i) % 16)

/-- A length-prefixed field of a content hash. -/
def hashField (hash : ℕ) (value : Bytes) : ℕ :=
  fnv1a [newline] (fnv1a value (fnv1a (ascii [':']) (fnv1a (decimal value.length) hash)))

/-- Carriage returns become line feeds, and a pair of them one line feed. -/
def normalizeSourceText : Bytes → Bytes
  | [] => []
  | c::rest =>
    if c ≠ carriageReturn then c::normalizeSourceText rest
    else if rest.head? = some newline then normalizeSourceText rest
    else newline::normalizeSourceText rest

/-- What a chunk key hashes. -/
def chunkIdentity (document : Bytes) (startLine endLine : ℕ) (text : Bytes) : Bytes :=
  document ++ newline::(decimal startLine ++ ascii [':'] ++ decimal endLine ++
    newline::normalizeSourceText text)

def stableChunkKey (document : Bytes) (startLine endLine : ℕ) (text : Bytes) : Bytes :=
  ascii ['c','h','k','_'] ++ hex64 (fnv1a (chunkIdentity document startLine endLine text) fnvOffset)

def documentContentHash (title content : Bytes) (metadata : Metadata) : Bytes :=
  ascii ['f','n','v','1','a','6','4',':'] ++
    hex64 (metadata.entries.foldl (fun hash entry => hashField (hashField hash entry.1) entry.2)
      (hashField (hashField fnvOffset title) content))

lemma carriageReturn_not_mem_normalizeSourceText (text : Bytes) :
    carriageReturn ∉ normalizeSourceText text := by
  induction text with
  | nil => simp [normalizeSourceText]
  | cons c rest ih =>
    unfold normalizeSourceText
    split_ifs with hc hn
    · simp [ih,Ne.symm hc]
    · exact ih
    · exact List.not_mem_cons_of_ne_of_not_mem (by decide) ih

lemma normalizeSourceText_of_not_mem {text : Bytes} (h : carriageReturn ∉ text) :
    normalizeSourceText text = text := by
  induction text with
  | nil => rfl
  | cons c rest ih =>
    have hc : c ≠ carriageReturn := fun hc => h (by simp [hc])
    rw [normalizeSourceText,if_pos hc,ih (List.not_mem_of_not_mem_cons h)]

@[simp] theorem normalizeSourceText_idem (text : Bytes) :
    normalizeSourceText (normalizeSourceText text) = normalizeSourceText text :=
  normalizeSourceText_of_not_mem (carriageReturn_not_mem_normalizeSourceText text)

@[simp] theorem normalizeSourceText_eq_nil {text : Bytes} :
    normalizeSourceText text = [] ↔ text = [] := by
  constructor
  · intro h
    induction text with
    | nil => rfl
    | cons c rest ih =>
      unfold normalizeSourceText at h
      split_ifs at h with hc hn
      rw [ih h] at hn
      cases hn
  · rintro rfl
    rfl

@[simp] theorem stableChunkKey_ne_nil (document : Bytes) (startLine endLine : ℕ) (text : Bytes) :
    stableChunkKey document startLine endLine text ≠ [] := by simp [stableChunkKey,ascii]

@[simp] theorem documentContentHash_ne_nil (title content : Bytes) (metadata : Metadata) :
    documentContentHash title content metadata ≠ [] := by simp [documentContentHash,ascii]

/-- A decimal digit of the ASCII range. -/
def isDigit (b : Byte) : Bool := 48 ≤ b.val ∧ b.val ≤ 57

lemma isDigit_decimal {n : ℕ} : ∀ b ∈ decimal n, isDigit b := by
  unfold decimal
  split_ifs
  · simp [ascii,isDigit]
  · simp only [List.mem_map,List.mem_reverse,forall_exists_index,and_imp]
    rintro b d hd rfl
    have := Nat.digits_lt_base (by omega) hd
    simp only [isDigit,Fin.val_ofNat,decide_eq_true_eq]
    omega

def decimalValue (text : Bytes) : ℕ := Nat.ofDigits 10 (text.reverse.map fun b => b.val - 48)

@[simp] lemma decimalValue_decimal (n : ℕ) : decimalValue (decimal n) = n := by
  unfold decimal decimalValue
  split_ifs with hn
  · simp [hn,ascii]
  · have hdigits : ∀ d ∈ Nat.digits 10 n, ((Fin.ofNat 256 (48+d) : Byte).val - 48) = id d := by
      intro d hd
      have := Nat.digits_lt_base (by omega) hd
      simp only [Fin.val_ofNat,id_eq]
      omega
    rw [← List.map_reverse,List.reverse_reverse,List.map_map]
    change Nat.ofDigits 10 ((Nat.digits 10 n).map fun d =>
      (Fin.ofNat 256 (48+d) : Byte).val - 48) = n
    rw [List.map_congr_left hdigits,List.map_id,Nat.ofDigits_digits]

theorem decimal_injective : Function.Injective decimal :=
  Function.LeftInverse.injective decimalValue_decimal

/-- Within one document a chunk identity names the lines and the normalised text. -/
theorem chunkIdentity_inj {document text text' : Bytes} {s s' e e' : ℕ}
    (h : chunkIdentity document s e text = chunkIdentity document s' e' text') :
    s = s' ∧ e = e' ∧ normalizeSourceText text = normalizeSourceText text' := by
  have hdigit : ∀ {n : ℕ} {b : Byte}, ¬isDigit b → b ∉ decimal n := fun hb hm =>
    hb (isDigit_decimal _ hm)
  have hcolon : ∀ n, (58 : Byte) ∉ decimal n := fun _ => hdigit (by decide)
  have h := (List.cons.inj (List.append_cancel_left h)).2
  simp only [List.append_assoc] at h
  obtain ⟨hs,h⟩ := append_cons_inj (hcolon s) (hcolon s') h
  obtain ⟨he,h⟩ := append_cons_inj (hdigit (by decide)) (hdigit (by decide)) h
  exact ⟨decimal_injective hs,decimal_injective he,h⟩

end RagRuntime.Core
