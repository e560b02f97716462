import RagRuntime.Base.Codec
import RagRuntime.Base.OrdMap
import RagRuntime.Store.Format

/-! The sectioned container of every index file: how it is laid out, and how a layout is
validated before a section is handed out. -/
namespace RagRuntime.Store
open RagRuntime.Base RagRuntime.Core Decoder

/-- A `uint32_t`. -/
abbrev Word := Fin 4294967296

def kContainerMagic : Bytes := ascii ['R','A','G','D','B'] ++ [0,0,0]
def kFormatMajor : ℕ := 1
def kFormatMinor : Fin 65536 := 2
def kContainerHeaderBytes : ℕ := 28
def kEntryBytes : ℕ := 20
def kTrailerBytes : ℕ := 4

instance neZeroMinor : NeZero 65536 := ⟨by decide⟩
instance neZeroWord : NeZero 4294967296 := ⟨by decide⟩

def kHasHnsw : Word := 1
def kHasEmbeddings : Word := 2

inductive Tag where
  | «meta»
  | docs
  | chunks
  | embed
  | bm25
  | hnsw
  | tomb
  | runtime
  deriving DecidableEq, Repr

def Tag.value : Tag → Word
  | .«meta» => 0x4154454D
  | .docs => 0x53434F44
  | .chunks => 0x4B4E4843
  | .embed => 0x42444D45
  | .bm25 => 0x35324D42
  | .hnsw => 0x57534E48
  | .tomb => 0x424D4F54
  | .runtime => 0x454D5452

structure SectionRange where
  tag : ℕ
  offset : ℕ
  length : ℕ
  deriving DecidableEq, Repr

namespace SectionRange

def finish (r : SectionRange) : ℕ := r.offset + r.length
def encode (r : SectionRange) : Bytes :=
    leBytes 4 r.tag ++ (leBytes 8 r.offset ++ leBytes 8 r.length)

/-- The payload of a range of `data`. -/
def slice (data : Bytes) (r : SectionRange) : Bytes := (data.drop r.offset).take r.length

end SectionRange

/-- All that `std::sort` promises of a section table that is sorted by offset. -/
structure OffsetSort where
  sort : List SectionRange → List SectionRange
  perm : ∀ l, (sort l).Perm l
  ascending : ∀ l, (sort l).Pairwise fun a b => a.offset ≤ b.offset

structure ContainerLayout where
  formatMajor : ℕ
  formatMinor : ℕ
  flags : ℕ
  sections : List SectionRange
  deriving DecidableEq

/-- Every container has the major version of this build. -/
structure Container where
  sections : OrdMap Word Bytes
  flags : Word
  major : ℕ
  minor : Fin 65536
  supported : major = kFormatMajor
  deriving DecidableEq

namespace Container

def empty : Container := ⟨∅,0,kFormatMajor,kFormatMinor,rfl⟩

def putRaw (c : Container) (tag : Word) (payload : Bytes) : Container :=
  { c with sections := c.sections.insert tag payload }

def put (c : Container) (tag : Tag) (payload : Bytes) : Container := c.putRaw tag.value payload
def setFlags (c : Container) (flags : Word) : Container := { c with flags := flags }
def get (c : Container) (tag : Tag) : Option Bytes := c.sections.find? tag.value

/-- The section table, whose payloads follow each other from `cursor` on. -/
def ranges : ℕ → List (Word × Bytes) → List SectionRange
  | _,[] => []
  | cursor,e::rest => ⟨e.1.val,cursor,e.2.length⟩::ranges (cursor + e.2.length) rest

def payloads (entries : List (Word × Bytes)) : Bytes := entries.flatMap Prod.snd

def payloadBegin (c : Container) : ℕ := kContainerHeaderBytes + kEntryBytes*c.sections.size

def header (c : Container) : Bytes :=
  kContainerMagic ++ (leBytes 2 c.major ++ (leBytes 2 c.minor.val ++ (leBytes 4 c.flags.val ++
    (leBytes 4 c.sections.size ++ leBytes 8 0))))

def table (c : Container) : Bytes :=
  encodeFrom (fun _ => SectionRange.encode) 0 (ranges c.payloadBegin c.sections.entries)

def body (c : Container) : Bytes := c.header ++ c.table ++ payloads c.sections.entries

def serialize (c : Container) : Bytes := c.body ++ leBytes 4 (crc32 c.body).toNat

end Container

def readRange (found : List SectionRange) : Decoder Error (List SectionRange) := do
  let tag ← number (corrupt "section table") 4
  let offset ← number (corrupt "section table") 8
  let length ← number (corrupt "section table") 8
  ensure (corrupt "duplicate section") (tag ∉ found.map SectionRange.tag)
  return found ++ [⟨tag,offset,length⟩]

def readLayout (size : ℕ) : Decoder Error ContainerLayout := do
  let magic ← bytes (corrupt "bad magic") 8
  ensure (corrupt "bad magic") (magic = kContainerMagic)
  let major ← number (corrupt "version") 2
  let minor ← number (corrupt "version") 2
  ensure (corrupt ("unsupported format major " ++ toString major ++ " (reader supports " ++
    toString kFormatMajor ++ ")")) (major = kFormatMajor)
  let flags ← number (corrupt "header") 4
  let count ← number (corrupt "header") 4
  let _ ← number (corrupt "header") 8
  ensure (corrupt "invalid section count") (count ≤ kMaxSections ∧
    count ≤ (size - kContainerHeaderBytes - kTrailerBytes)/kEntryBytes)
  let sections ← repeatFrom (fun _ => readRange) count 0 []
  return ⟨major,minor,flags,sections⟩

/-- The loop over the sorted table; `previousEnd` is where the range before ends. -/
def checkRanges (first last : ℕ) : ℕ → List SectionRange → Result Unit
  | _,[] => .ok ()
  | previousEnd,r::rest =>
    if r.offset < first ∨ r.offset > last ∨ r.length > last - r.offset then
      fail .corruptIndex "section out of bounds"
    else if r.offset < previousEnd then fail .corruptIndex "overlapping sections"
    else checkRanges first last r.finish rest

def validateContainerLayout (order : OffsetSort) (data : Bytes) : Result ContainerLayout :=
  if data.length < kContainerHeaderBytes + kTrailerBytes then fail .corruptIndex "too short"
  else
    let body := data.take (data.length - kTrailerBytes)
    if (crc32 body).toNat ≠ leValue (data.drop body.length) then fail .corruptIndex "crc mismatch"
    else match readLayout data.length data with
      | .error e => .error e
      | .ok (layout,_) =>
        let first := kContainerHeaderBytes + kEntryBytes*layout.sections.length
        let sorted := order.sort layout.sections
        match checkRanges first (data.length - kTrailerBytes) first sorted with
        | .error e => .error e
        | .ok () => .ok { layout with sections := sorted }

/-- A file whose layout has been validated. -/
structure ContainerView where
  data : Bytes
  layout : ContainerLayout

namespace ContainerView

def openFile (order : OffsetSort) (data : Bytes) : Result ContainerView := do
  let layout ← validateContainerLayout order data
  return ⟨data,layout⟩

def getRaw (view : ContainerView) (tag : ℕ) : Option Bytes :=
  (view.layout.sections.find? fun r => r.tag = tag).map (SectionRange.slice view.data)

def get (view : ContainerView) (tag : Tag) : Option Bytes := view.getRaw tag.value.val
def has (view : ContainerView) (tag : Tag) : Bool := (view.get tag).isSome
def flags (view : ContainerView) : ℕ := view.layout.flags

end ContainerView

/-- The sections of a validated layout by their tags. -/
def sectionsOf (data : Bytes) (layout : ContainerLayout) : OrdMap Word Bytes :=
  layout.sections.foldl (fun sections r => sections.insert (Fin.ofNat _ r.tag) (r.slice data)) ∅

def Container.parse (order : OffsetSort) (data : Bytes) : Result Container :=
  match validateContainerLayout order data with
  | .error e => .error e
  | .ok layout =>
    .ok ⟨sectionsOf data layout,Fin.ofNat _ layout.flags,kFormatMajor,
      Fin.ofNat _ layout.formatMinor,rfl⟩

end RagRuntime.Store
