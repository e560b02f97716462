import RagRuntime.Store.Frame

/-! The write-ahead log of logical mutations: record codec, append and replay. -/
namespace RagRuntime.Store
open RagRuntime.Base RagRuntime.Core

inductive WalOp where
  | addDocument
  | removeDocument
  deriving DecidableEq, Repr

/-- One logical mutation; `docId` is only meaningful for a removal. -/
structure WalRecord where
  op : WalOp
  uri : Bytes
  title : Bytes
  text : Bytes
  metadata : Metadata
  docId : UInt32
  deriving DecidableEq

def kRecordMagic : ℕ := 0x524C4157

namespace Wal

def opByte : WalOp → ℕ
  | .addDocument => 1
  | .removeDocument => 2

def encodeMetadata (entries : List (Bytes × Bytes)) : Bytes :=
  entries.flatMap fun e => str e.1 ++ str e.2

def encode (rec : WalRecord) : Bytes :=
  leBytes 1 (opByte rec.op) ++ (str rec.uri ++ (str rec.title ++ (str rec.text ++
    (leBytes 4 rec.metadata.size ++ (encodeMetadata rec.metadata.entries ++ leBytes 4
      rec.docId.toNat)))))

def decodeMetadata : ℕ → Bytes → Metadata → Option (Metadata × Bytes)
  | 0,input,out => some (out,input)
  | n+1,input,out => do
    let (k,input) ← readStr input
    let (v,input) ← readStr input
    decodeMetadata n input (out.emplace k v)

def decodeOp (op : ℕ) : Option WalOp :=
  if op = opByte .addDocument then some .addDocument
  else if op = opByte .removeDocument then some .removeDocument
  else none

def decode (payload : Bytes) : Option WalRecord := do
  let (op,input) ← takeNumber 1 payload
  let op ← decodeOp op
  let (uri,input) ← readStr input
  let (title,input) ← readStr input
  let (text,input) ← readStr input
  let (n,input) ← takeNumber 4 input
  guard (n ≤ kMaxMetadataEntries ∧ n ≤ input.length/8)
  let (metadata,input) ← decodeMetadata n input ∅
  let (docId,input) ← takeNumber 4 input
  guard (input = [])
  return ⟨op,uri,title,text,metadata,UInt32.ofNat docId⟩

def recordFrame (rec : WalRecord) : Bytes := frame kRecordMagic (encode rec)

/-- The loop of `Wal::replay` over the bytes it has not read yet; every turn consumes at
least a header, so `fuel` above the number of bytes is never used up. -/
def replayFrom : ℕ → Bytes → List WalRecord → Result (List WalRecord)
  | 0,_,out => .ok out
  | fuel+1,input,out =>
    match readFrame kRecordMagic input with
    | .short => .ok out
    | found =>
      if out.length ≥ kMaxWalRecords then fail .corruptIndex "wal: record limit exceeded"
      else match found with
        | .short | .torn => .ok out
        | .badMagic => fail .corruptIndex "wal: bad record magic"
        | .tooLarge => fail .corruptIndex "wal: record too large"
        | .badCrc last =>
          if last then .ok out else fail .corruptIndex "wal: record crc mismatch"
        | .payload payload rest =>
          match decode payload with
          | none => if rest = [] then .ok out else fail .corruptIndex "wal: undecodable record"
          | some rec => replayFrom fuel rest (out ++ [rec])

/-- The file is `none` when it does not exist. -/
def replay (file : Option Bytes) : Result (List WalRecord) :=
  match file with
  | none => .ok []
  | some blob => replayFrom (blob.length+1) blob []

end Wal

/-- An open or closed log with the file at its path. -/
structure Wal where
  file : Option Bytes
  isOpen : Bool
  bytes : ℕ
  deriving DecidableEq

/-- How the `write` loop of an append ends. A cut append stops after `n` bytes. -/
inductive WriteOutcome where
  | synced
  | unsynced
  | cut (n : ℕ) (reason : String)
  deriving DecidableEq, Repr

namespace Wal

def empty : Wal := ⟨none,false,0⟩

/-- The file's bytes, none when it is absent. -/
def content (w : Wal) : Bytes := w.file.getD []

def close (w : Wal) : Wal := { w with isOpen := false, bytes := 0 }

def openAt (w : Wal) : Wal := ⟨some w.content,true,w.content.length⟩

def append (w : Wal) (rec : WalRecord) (outcome : WriteOutcome) : Result Unit × Wal :=
  if w.isOpen = false then (fail .ioError "wal not open",w)
  else if (encode rec).length > kMaxWalRecordBytes ∨ (encode rec).length > uint32Max then
    (fail .invalidArgument "wal record exceeds configured limit",w)
  else match outcome with
    | .synced =>
      (.ok (),{ w with
        file := some (w.content ++ recordFrame rec)
        bytes := w.bytes + (recordFrame rec).length })
    | .unsynced =>
      (fail .ioError "wal fsync",{ w with file := some (w.content ++ recordFrame rec) })
    | .cut n reason =>
      (fail .ioError ("wal write: " ++ reason),
        { w with file := some (w.content ++ (recordFrame rec).take n) })

end Wal

/-- How `ftruncate` and the sync after it end. -/
inductive TruncateOutcome where
  | truncated
  | unsynced
  | refused (reason : String)
  deriving DecidableEq, Repr

namespace Wal

def truncate (w : Wal) (outcome : TruncateOutcome) : Result Unit × Wal :=
  if w.isOpen = false then (fail .ioError "wal not open",w)
  else match outcome with
    | .truncated => (.ok (),{ w with file := some [], bytes := 0 })
    | .unsynced => (fail .ioError "wal fsync",{ w with file := some [] })
    | .refused reason => (fail .ioError ("wal truncate: " ++ reason),w)

end Wal
end RagRuntime.Store
