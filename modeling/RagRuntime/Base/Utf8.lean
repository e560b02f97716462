import Mathlib.Data.List.Basic
import RagRuntime.Base.LittleEndian

/-! The bytes of a string in UTF-8, and where they can be cut. -/
namespace RagRuntime.Base

/-- The bytes of a string. -/
def utf8 (s : String) : Bytes := s.toUTF8.toList.map fun b => Fin.ofNat 256 b.toNat

def ValidUtf8 (b : Bytes) : Prop := ∃ s, utf8 s = b

/-- A character begins where the first `n` bytes of the string end, or the string ends before. -/
def CutsBetween (s : String) (n : ℕ) : Prop :=
  ∃ front back, s = front ++ back ∧ (utf8 front).length = min n (utf8 s).length

section bytes

lemma toList_loop (b : ByteArray) (i : ℕ) (r : List UInt8) :
    ByteArray.toList.loop b i r = r.reverse ++ b.data.toList.drop i := by
  induction h : b.size - i generalizing i r with
  | zero =>
    unfold ByteArray.toList.loop
    have hsize : ¬i < b.size := by omega
    rw [if_neg hsize,List.drop_of_length_le,List.append_nil]
    exact not_lt.mp hsize
  | succ n ih =>
    unfold ByteArray.toList.loop
    have hsize : i < b.size := by omega
    rw [if_pos hsize,ih (i+1) _ (by omega),List.reverse_cons,List.append_assoc]
    congr 1
    have hlist : i < b.data.toList.length := hsize
    have hget : b.get! i = b.data.toList[i] := getElem!_pos b.data i hsize
    rw [hget,List.singleton_append,List.getElem_cons_drop]

lemma toList_eq_data (b : ByteArray) : b.toList = b.data.toList := toList_loop b 0 []

lemma utf8_eq (s : String) :
    utf8 s = s.toByteArray.data.toList.map fun b => Fin.ofNat 256 b.toNat := by
  rw [utf8,toList_eq_data]
  rfl

lemma byte_injective : Function.Injective fun b : UInt8 => (Fin.ofNat 256 b.toNat : Byte) := by
  intro a b h
  have hval := congrArg Fin.val h
  simp only [Fin.ofNat_eq_cast,Fin.val_natCast] at hval
  have ha := a.toNat_lt
  have hb := b.toNat_lt
  apply UInt8.toNat_inj.mp
  omega

lemma utf8_append (a b : String) : utf8 (a ++ b) = utf8 a ++ utf8 b := by
  rw [utf8_eq,utf8_eq,utf8_eq,String.toByteArray_append,ByteArray.toList_data_append,
    List.map_append]

lemma length_utf8 (s : String) : (utf8 s).length = s.toByteArray.size := by
  rw [utf8_eq,List.length_map]
  rfl

end bytes

lemma toList_extract (b : ByteArray) (n : ℕ) :
    (b.extract 0 n).data.toList = b.data.toList.take n := by
  rw [ByteArray.data_extract,Array.toList_extract,List.extract_eq_take_drop,List.drop_zero,
    Nat.sub_zero]

/-- The beginning of a string is a string exactly if it is cut between two characters. -/
theorem validUtf8_take_iff (s : String) (n : ℕ) :
    ValidUtf8 ((utf8 s).take n) ↔ CutsBetween s n := by
  constructor
  · rintro ⟨front,hfront⟩
    have hlength := congrArg List.length hfront
    rw [List.length_take] at hlength
    have hsize : front.toByteArray.size ≤ s.toByteArray.size := by
      rw [← length_utf8,← length_utf8,hlength]
      exact Nat.min_le_right _ _
    have hlist : front.toByteArray.data.toList =
        s.toByteArray.data.toList.take front.toByteArray.size := by
      apply List.map_injective_iff.mpr byte_injective
      rw [List.map_take,← utf8_eq,← utf8_eq,← length_utf8,hlength,hfront,← List.take_eq_take_min]
    have hextract : s.toByteArray.extract 0 front.toByteArray.size = front.toByteArray := by
      apply ByteArray.ext
      apply Array.toList_inj.mp
      rw [toList_extract,hlist]
    have hvalid : String.Pos.Raw.IsValid s ⟨front.toByteArray.size⟩ := by
      rw [String.Pos.Raw.isValid_iff_isValidUTF8_extract_zero]
      refine ⟨String.Pos.Raw.le_iff.mpr hsize,?_⟩
      rw [hextract]
      exact front.isValidUTF8
    obtain ⟨a,b,hs,ha⟩ := String.Pos.Raw.isValid_iff_exists_append.mp hvalid
    refine ⟨a,b,hs,?_⟩
    rw [← hlength,length_utf8,length_utf8]
    exact (congrArg String.Pos.Raw.byteIdx ha).symm
  · rintro ⟨front,back,rfl,hlength⟩
    refine ⟨front,?_⟩
    rw [utf8_append] at hlength ⊢
    rw [List.take_eq_take_min,← hlength,List.take_left]

lemma isValid_of_cutsBetween {s : String} {n : ℕ} (h : CutsBetween s n) :
    String.Pos.Raw.IsValid s ⟨min n (utf8 s).length⟩ := by
  obtain ⟨front,back,hs,hlength⟩ := h
  refine String.Pos.Raw.isValid_iff_exists_append.mpr ⟨front,back,hs,?_⟩
  apply String.Pos.Raw.ext
  rw [← hlength,length_utf8]
  rfl

/-- The bytes of one scalar. -/
def scalarBytes (ch : Char) : Bytes :=
  (String.utf8EncodeChar ch).map fun b => Fin.ofNat 256 b.toNat

lemma utf8_ofList (chars : List Char) : utf8 (String.ofList chars) = chars.flatMap scalarBytes := by
  rw [utf8_eq,String.toByteArray_ofList,List.utf8Encode,List.toList_data_toByteArray,
    List.map_flatMap]
  rfl

/-- A string is the scalars it consists of. -/
lemma validUtf8_iff {b : Bytes} : ValidUtf8 b ↔
    ∃ chars : List Char, chars.flatMap scalarBytes = b := by
  constructor
  · rintro ⟨s,rfl⟩
    exact ⟨s.toList,by rw [← utf8_ofList,String.ofList_toList]⟩
  · rintro ⟨chars,rfl⟩
    exact ⟨String.ofList chars,utf8_ofList chars⟩

lemma utf8_ascii {b : Byte} (h : b.val < 128) :
    utf8 (String.singleton (Char.ofNat b.val)) = [b] := by
  revert b
  decide +kernel

lemma validUtf8_ascii {l : Bytes} (h : ∀ b ∈ l, b.val < 128) : ValidUtf8 l := by
  induction l with
  | nil => exact ⟨"",by decide +kernel⟩
  | cons b rest ih =>
    obtain ⟨s,hs⟩ := ih fun x hx => h x (List.mem_cons_of_mem b hx)
    refine ⟨String.singleton (Char.ofNat b.val) ++ s,?_⟩
    rw [utf8_append,utf8_ascii (h b List.mem_cons_self),hs]
    rfl

end RagRuntime.Base
