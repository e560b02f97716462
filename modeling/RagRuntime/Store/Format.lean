import RagRuntime.Core.Types

/-! Limits of the on-disk formats, the CRC32 checksum, and the little-endian strings that
every serializer writes. -/
namespace RagRuntime.Store
open RagRuntime.Base RagRuntime.Core

def kMaxSections : ℕ := 64
def kMaxDocuments : ℕ := 10000000
def kMaxChunks : ℕ := 100000000
def kMaxMetadataEntries : ℕ := 1000000
def kMaxPostings : ℕ := 500000000
def kMaxGraphNodes : ℕ := 100000000
def kMaxVectorDimension : ℕ := 1000000
def kMaxWalRecords : ℕ := 10000000
def kMaxWalRecordBytes : ℕ := 64*1024*1024

def corrupt (message : String) : Error := ⟨.corruptIndex,message⟩

/-- One entry of the reflected IEEE 802.3 table: eight shifts of the index. -/
def crcTable (index : UInt32) : UInt32 :=
  (List.range 8).foldl (fun current _ =>
    if current &&& 1 ≠ 0 then (0xEDB88320 : UInt32) ^^^ (current >>> 1) else current >>> 1) index

def crcUpdate (value : UInt32) (byte : Byte) : UInt32 :=
  crcTable ((value ^^^ UInt32.ofNat byte.val) &&& 0xFF) ^^^ (value >>> 8)

def crc32 (data : Bytes) : UInt32 := data.foldl crcUpdate 0xFFFFFFFF ^^^ 0xFFFFFFFF

/-- A string as `Writer::str` writes it: its size as a `uint32_t`, then its bytes. -/
def str (s : Bytes) : Bytes := leBytes 4 s.length ++ s

/-- `Reader::str`. -/
def readStr (input : Bytes) : Option (Bytes × Bytes) :=
  (takeNumber 4 input).bind fun p => takeBytes p.1 p.2

@[simp] theorem str_length (s : Bytes) : (str s).length = 4 + s.length := by simp [str]

theorem readStr_append {s : Bytes} (h : s.length < 256^4) (rest : Bytes) :
    readStr (str s ++ rest) = some (s,rest) := by
  simp [readStr,str,takeNumber_append h]

/-- The number of the check string of the CRC32 catalogue. -/
example : crc32 (ascii ['1','2','3','4','5','6','7','8','9']) = 0xCBF43926 := by decide +kernel

end RagRuntime.Store
