import RagRuntime.Core.Types

/-! The corpus record types. -/
namespace RagRuntime.Core
open RagRuntime.Base

/-- A source document as ingested; `id` is its position in the corpus. -/
structure Document where
  id : ℕ
  uri : Bytes
  title : Bytes
  text : Bytes
  metadata : Metadata
  deriving DecidableEq

/-- A bounded, retrievable window into a document. -/
structure Chunk where
  id : ℕ
  doc : ℕ
  text : Bytes
  context : Bytes
  startLine : ℕ
  endLine : ℕ
  deriving DecidableEq, Repr

/-- The text of a chunk under its heading breadcrumb, as the indexes receive it. -/
def indexedText (context text : Bytes) : Bytes :=
  if context = [] then text else context ++ ascii ['\n'] ++ text

end RagRuntime.Core
