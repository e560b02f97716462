import Mathlib.Data.Nat.ModEq
import Mathlib.Order.Fin.Basic
import Mathlib.Tactic.Common
import Mathlib.Tactic.Ring

/-! Fixed-width little-endian numbers in byte strings, and the reader that takes them
back off the front. -/
namespace RagRuntime.Base

abbrev Byte := Fin 256
abbrev Bytes := List Byte

instance neZeroByte : NeZero 256 := ⟨by decide⟩
instance lawfulBEqByte : LawfulBEq Byte := inferInstance
instance lawfulBEqBytes : LawfulBEq Bytes := inferInstance

/-- The text of a literal, one byte a character. -/
def ascii (cs : List Char) : Bytes := cs.map fun c => Fin.ofNat 256 c.toNat

def leBytes : ℕ → ℕ → Bytes
  | 0,_ => []
  | w+1,n => Fin.ofNat 256 n::leBytes w (n/256)

def leValue : Bytes → ℕ
  | [] => 0
  | b::bs => b.val + 256*leValue bs

@[simp] theorem leBytes_length (w n : ℕ) : (leBytes w n).length = w := by
  induction w generalizing n with
  | zero => rfl
  | succ w ih => simp [leBytes,ih]

theorem leValue_leBytes (w n : ℕ) : leValue (leBytes w n) = n % 256^w := by
  induction w generalizing n with
  | zero => simp [leBytes,leValue,Nat.mod_one]
  | succ w ih =>
    simp only [leBytes,leValue,ih,Fin.val_ofNat]
    rw [pow_succ,Nat.mul_comm,Nat.mul_comm (256^w),Nat.mod_mul]
    ring

theorem leValue_leBytes_of_lt {w n : ℕ} (h : n < 256^w) : leValue (leBytes w n) = n := by
  rw [leValue_leBytes,Nat.mod_eq_of_lt h]

theorem leValue_lt (input : Bytes) : leValue input < 256^input.length := by
  induction input with
  | nil => exact Nat.one_pos
  | cons b input ih =>
    rw [leValue,List.length_cons,pow_succ]
    have := b.isLt
    omega

theorem leBytes_leValue (input : Bytes) : leBytes input.length (leValue input) = input := by
  induction input with
  | nil => rfl
  | cons b input ih =>
    have hb := b.isLt
    have hhead : Fin.ofNat 256 (b.val + 256*leValue input) = b := by
      apply Fin.ext
      rw [Fin.val_ofNat]
      omega
    have htail : (b.val + 256*leValue input)/256 = leValue input := by omega
    rw [List.length_cons,leValue,leBytes,hhead,htail,ih]

/-- Take a number of `w` bytes off the front. -/
def takeNumber (w : ℕ) (input : Bytes) : Option (ℕ × Bytes) :=
  if input.length < w then none else some (leValue (input.take w),input.drop w)

/-- Take `n` bytes off the front. -/
def takeBytes (n : ℕ) (input : Bytes) : Option (Bytes × Bytes) :=
  if input.length < n then none else some (input.take n,input.drop n)

theorem takeNumber_append {w n : ℕ} (h : n < 256^w) (rest : Bytes) :
    takeNumber w (leBytes w n ++ rest) = some (n,rest) := by
  simp [takeNumber,leValue_leBytes_of_lt h]

@[simp] theorem takeBytes_append (s rest : Bytes) :
    takeBytes s.length (s ++ rest) = some (s,rest) := by simp [takeBytes]

end RagRuntime.Base
