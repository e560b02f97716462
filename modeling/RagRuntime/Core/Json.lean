import RagRuntime.Base.Single
import RagRuntime.Core.Types

/-! Values of the JSON library, and how members are taken out of them. The parser itself is not
modelled. -/
namespace RagRuntime.Core
open RagRuntime.Base

inductive Json where
  | null
  | boolean (b : Bool)
  | unsigned (n : ℕ)
  | integer (i : ℤ)
  | float (q : ℚ)
  | string (s : Bytes)
  | array (items : List Json)
  | object (members : List (Bytes × Json))

/-- The library: what a text is parsed into, unless it is discarded. -/
abbrev JsonParser := Bytes → Option Json

namespace Json

def typeName : Json → String
  | null => "null"
  | boolean _ => "boolean"
  | unsigned _ | integer _ | float _ => "number"
  | string _ => "string"
  | array _ => "array"
  | object _ => "object"

def isObject : Json → Bool
  | object _ => true
  | _ => false

/-- A member of an object; nothing else has any. -/
def find? (key : Bytes) : Json → Option Json
  | object members => (members.find? fun e => e.1 = key).map Prod.snd
  | _ => none

def contains (j : Json) (key : Bytes) : Bool := (j.find? key).isSome

def mismatch {α : Type} (wanted : String) (j : Json) : Except String α :=
  .error ("[json.exception.type_error.302] type must be " ++ wanted ++ ", but is " ++ j.typeName)

/-- The integer that a number or a boolean is converted to. -/
def getInteger (j : Json) : Except String ℤ :=
  match j with
  | boolean b => .ok (if b then 1 else 0)
  | unsigned n => .ok n
  | integer i => .ok i
  | float q => .ok (if q < 0 then -⌊-q⌋ else ⌊q⌋)
  | _ => mismatch "number" j

/-- An unsigned number of the given width in bits. -/
def getUnsigned (width : ℕ) (j : Json) : Except String ℕ :=
  j.getInteger.map fun i : ℤ => (i % (2 : ℤ)^width).toNat

/-- An `int`. -/
def getInt (j : Json) : Except String ℤ :=
  j.getInteger.map fun i : ℤ => (i + 2^31) % 2^32 - 2^31

/-- A `float`, if it is finite. -/
def getFloat (j : Json) : Except String (Option ℚ) :=
  match j with
  | float q => .ok (Single.round q)
  | _ => j.getInteger.map fun i : ℤ => Single.round i

def getBoolean (j : Json) : Except String Bool :=
  match j with
  | boolean b => .ok b
  | _ => mismatch "boolean" j

def getString (j : Json) : Except String Bytes :=
  match j with
  | string s => .ok s
  | _ => mismatch "string" j

/-- A member of an object, or the default if there is none. -/
def value {α : Type} (get : Json → Except String α) (j : Json) (key : Bytes) (default : α) :
    Except String α :=
  if j.isObject = false then
    .error ("[json.exception.type_error.306] cannot use value() with " ++ j.typeName)
  else
    match j.find? key with
    | none => .ok default
    | some member => get member

/-! Equality of values is decided member by member. -/

mutual

def decEq : (a b : Json) → Decidable (a = b)
  | .null,b => match b with
    | .null => isTrue rfl
    | .boolean _ | .unsigned _ | .integer _ | .float _ | .string _ | .array _ | .object _ =>
      isFalse (by simp)
  | .boolean x,b => match b with
    | .boolean y => decidable_of_iff (x = y) (by simp)
    | .null | .unsigned _ | .integer _ | .float _ | .string _ | .array _ | .object _ =>
      isFalse (by simp)
  | .unsigned x,b => match b with
    | .unsigned y => decidable_of_iff (x = y) (by simp)
    | .null | .boolean _ | .integer _ | .float _ | .string _ | .array _ | .object _ =>
      isFalse (by simp)
  | .integer x,b => match b with
    | .integer y => decidable_of_iff (x = y) (by simp)
    | .null | .boolean _ | .unsigned _ | .float _ | .string _ | .array _ | .object _ =>
      isFalse (by simp)
  | .float x,b => match b with
    | .float y => decidable_of_iff (x = y) (by simp)
    | .null | .boolean _ | .unsigned _ | .integer _ | .string _ | .array _ | .object _ =>
      isFalse (by simp)
  | .string x,b => match b with
    | .string y => decidable_of_iff (x = y) (by simp)
    | .null | .boolean _ | .unsigned _ | .integer _ | .float _ | .array _ | .object _ =>
      isFalse (by simp)
  | .array x,b => match b with
    | .array y => have := decEqItems x y; decidable_of_iff (x = y) (by simp)
    | .null | .boolean _ | .unsigned _ | .integer _ | .float _ | .string _ | .object _ =>
      isFalse (by simp)
  | .object x,b => match b with
    | .object y => have := decEqMembers x y; decidable_of_iff (x = y) (by simp)
    | .null | .boolean _ | .unsigned _ | .integer _ | .float _ | .string _ | .array _ =>
      isFalse (by simp)

def decEqItems : (a b : List Json) → Decidable (a = b)
  | [],[] => isTrue rfl
  | [],_::_ => isFalse (by simp)
  | _::_,[] => isFalse (by simp)
  | x::xs,y::ys =>
    have := decEq x y
    have := decEqItems xs ys
    decidable_of_iff (x = y ∧ xs = ys) (by simp)

def decEqMembers : (a b : List (Bytes × Json)) → Decidable (a = b)
  | [],[] => isTrue rfl
  | [],_::_ => isFalse (by simp)
  | _::_,[] => isFalse (by simp)
  | (k,x)::xs,(l,y)::ys =>
    have := decEq x y
    have := decEqMembers xs ys
    decidable_of_iff (k = l ∧ x = y ∧ xs = ys) (by simp [and_assoc])

end

instance : DecidableEq Json := decEq

end Json
end RagRuntime.Core
