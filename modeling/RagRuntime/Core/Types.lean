import RagRuntime.Base.LittleEndian
import RagRuntime.Base.OrdMap
import Mathlib.Data.List.Lex

/-! Error codes, fallible results and the record types every layer shares. -/
namespace RagRuntime.Core
open RagRuntime.Base

inductive Errc where
  | ok
  | notFound
  | invalidArgument
  | dimensionMismatch
  | ioError
  | parseError
  | transportError
  | unavailable
  | emptyCorpus
  | alreadyExists
  | corruptIndex
  deriving DecidableEq, Repr

structure Error where
  code : Errc
  message : String
  deriving DecidableEq, Repr

abbrev Result (α : Type*) := Except Error α

def fail {α : Type*} (code : Errc) (message : String) : Result α := .error ⟨code,message⟩

/-- Arbitrary user metadata attached to a document, iterated in key order. -/
abbrev Metadata := OrdMap Bytes Bytes

/-- The largest `uint32_t`; as a document or chunk id it is the invalid one. -/
def uint32Max : ℕ := 4294967295

end RagRuntime.Core
