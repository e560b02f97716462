import RagRuntime.Store.LayoutSafety

/-! A container written to a file piece by piece, and read back through a mapped view. -/
namespace RagRuntime.Store
open RagRuntime.Base RagRuntime.Core Decoder

namespace Container

/-- The running checksum of a file that is written. -/
structure Crc32Accumulator where
  value : UInt32 := 0xFFFFFFFF

def Crc32Accumulator.update (accumulator : Crc32Accumulator) (data : Bytes) : Crc32Accumulator :=
  ⟨data.foldl crcUpdate accumulator.value⟩

def Crc32Accumulator.finish (accumulator : Crc32Accumulator) : UInt32 :=
  accumulator.value ^^^ 0xFFFFFFFF

/-- The file so far. -/
structure Output where
  written : Bytes := []
  checksum : Crc32Accumulator := {}

def Output.writePart (out : Output) (data : Bytes) : Output :=
  ⟨out.written ++ data,out.checksum.update data⟩

/-- One turn of the loop over the sections: the table so far, and where the next payload stands. -/
def tableEntry (state : Bytes × ℕ) (e : Word × Bytes) : Bytes × ℕ :=
  (state.1 ++ (leBytes 4 e.1.val ++ (leBytes 8 state.2 ++ leBytes 8 e.2.length)),
    state.2 + e.2.length)

/-- What is put in front of the payloads. -/
def fileFront (c : Container) : Bytes :=
  let fixed := kContainerMagic ++ leBytes 2 c.major ++ leBytes 2 c.minor.val ++
    leBytes 4 c.flags.val ++ leBytes 4 c.sections.size ++ leBytes 8 0
  (c.sections.entries.foldl tableEntry
    (fixed,kContainerHeaderBytes + kEntryBytes*c.sections.size)).1

/-- The bytes that `write_file` hands to the file, one part after the other. -/
def writeFile (c : Container) : Bytes :=
  let parts := c.sections.entries.foldl (fun (out : Output) e => out.writePart e.2)
    (({} : Output).writePart c.fileFront)
  parts.written ++ leBytes 4 parts.checksum.finish.toNat

/-- The payloads of a view by the tags of its sections; the first of a tag stays. -/
def readSections (view : ContainerView) : OrdMap Word Bytes → List SectionRange →
    Result (OrdMap Word Bytes)
  | sections,[] => .ok sections
  | sections,r::rest =>
    match view.getRaw r.tag with
    | none => fail .corruptIndex "validated section is missing"
    | some payload => readSections view (sections.emplace (Fin.ofNat _ r.tag) payload) rest

/-- A file that is empty is not mapped. -/
def readFile (order : OffsetSort) (data : Bytes) : Result Container :=
  if data = [] then fail .corruptIndex "invalid container file size"
  else match ContainerView.openFile order data with
    | .error e => .error e
    | .ok view =>
      match readSections view ∅ view.layout.sections with
      | .error e => .error e
      | .ok sections => .ok ⟨sections,Fin.ofNat _ view.flags,kFormatMajor,
          Fin.ofNat _ view.layout.formatMinor,rfl⟩

section writing

variable (c : Container)

lemma update_append (accumulator : Crc32Accumulator) (xs ys : Bytes) :
    accumulator.update (xs ++ ys) = (accumulator.update xs).update ys := by
  simp only [Crc32Accumulator.update,List.foldl_append]

lemma crc32_eq (data : Bytes) : crc32 data = (({} : Crc32Accumulator).update data).finish := rfl

/-- The checksum that runs along is the one of what was written. -/
def Output.Summed (out : Output) : Prop :=
  out.checksum = ({} : Crc32Accumulator).update out.written

lemma Output.Summed.writePart {out : Output} (h : out.Summed) (data : Bytes) :
    (out.writePart data).Summed := by
  rw [Summed,Output.writePart,update_append,← h]

/-- The payloads are written in the order of the table. -/
lemma foldl_writePart (entries : List (Word × Bytes)) {out : Output} (h : out.Summed) :
    (entries.foldl (fun (out : Output) e => out.writePart e.2) out).Summed ∧
      (entries.foldl (fun (out : Output) e => out.writePart e.2) out).written =
        out.written ++ payloads entries := by
  induction entries generalizing out with
  | nil => exact ⟨h,(List.append_nil _).symm⟩
  | cons e rest ih =>
    obtain ⟨hsummed,hwritten⟩ := ih (h.writePart e.2)
    refine ⟨hsummed,?_⟩
    rw [List.foldl_cons,hwritten,payloads_cons,Output.writePart,List.append_assoc]

lemma foldl_tableEntry (entries : List (Word × Bytes)) (front : Bytes) (cursor : ℕ) (index : ℕ) :
    (entries.foldl tableEntry (front,cursor)).1 =
      front ++ encodeFrom (fun _ => SectionRange.encode) index (ranges cursor entries) := by
  induction entries generalizing front cursor index with
  | nil => exact (List.append_nil _).symm
  | cons e rest ih =>
    rw [List.foldl_cons,tableEntry,ih _ _ (index+1),ranges,encodeFrom,SectionRange.encode,
      List.append_assoc]

lemma fileFront_eq : c.fileFront = c.header ++ c.table := by
  rw [fileFront,foldl_tableEntry _ _ _ 0,table,payloadBegin,header]
  simp only [List.append_assoc]

/-- The parts that are written make the serialized container. -/
theorem writeFile_eq : c.writeFile = c.serialize := by
  have hstart : (({} : Output).writePart c.fileFront).Summed := rfl
  obtain ⟨hsummed,hwritten⟩ := foldl_writePart c.sections.entries hstart
  have hbody : (({} : Output).writePart c.fileFront).written ++ payloads c.sections.entries =
      c.body := by
    rw [body,← fileFront_eq]
    rfl
  rw [hbody] at hwritten
  have hcrc : (c.sections.entries.foldl (fun (out : Output) e => out.writePart e.2)
      (({} : Output).writePart c.fileFront)).checksum.finish = crc32 c.body := by
    rw [Output.Summed,hwritten] at hsummed
    rw [hsummed,crc32_eq]
  rw [serialize,← hcrc,← hwritten]
  rfl

end writing

section reading

variable {data : Bytes} {layout : ContainerLayout}

/-- Every section of the table is handed out. -/
lemma readSections_eq {view : ContainerView} {l : List SectionRange}
    (hraw : ∀ r ∈ l, view.getRaw r.tag = some (r.slice view.data))
    (sections : OrdMap Word Bytes) : readSections view sections l = .ok (l.foldl
      (fun sections r => sections.emplace (Fin.ofNat _ r.tag) (r.slice view.data)) sections) := by
  induction l generalizing sections with
  | nil => rfl
  | cons r rest ih =>
    obtain ⟨hr,hrest⟩ := List.forall_mem_cons.mp hraw
    rw [readSections,hr]
    exact ih hrest _

/-- The view and the parser make the same sections of an accepted file. -/
lemma readSections_sectionsOf (h : TableRead data.length layout.sections) :
    readSections ⟨data,layout⟩ ∅ layout.sections = .ok (sectionsOf data layout) := by
  have hraw : ∀ r ∈ layout.sections,
      (ContainerView.mk data layout).getRaw r.tag = some (r.slice data) :=
    fun r hr => (getRaw_eq_some h.tags).mpr ⟨r,hr,rfl,rfl⟩
  have hkeys : ((layout.sections.map fun r =>
      ((Fin.ofNat 4294967296 r.tag : Word),r.slice data)).map Prod.fst).Nodup := by
    rw [List.map_map]
    exact words_nodup h.tags h.wide
  have hemplace := OrdMap.foldl_emplace_eq hkeys (m := ∅) fun e _ => rfl
  rw [List.foldl_map,List.foldl_map] at hemplace
  rw [readSections_eq hraw,hemplace]
  rfl

/-- A file is read as its bytes are parsed. -/
theorem readFile_eq (order : OffsetSort) (hdata : data ≠ []) :
    readFile order data = parse order data := by
  rw [readFile,if_neg hdata,parse,ContainerView.openFile]
  cases hlayout : validateContainerLayout order data with
  | error e => rfl
  | ok layout =>
    have hsections := readSections_sectionsOf (tableRead_of_validate hlayout)
    simp only [Except.bind,bind,pure,Except.pure,hsections]
    rfl

end reading

/-- A container is written to a file as it is serialized, and a file is read as it is parsed. -/
theorem file_paths_agree (order : OffsetSort) :
    (∀ c : Container, c.writeFile = c.serialize) ∧
      ∀ data : Bytes, data ≠ [] → readFile order data = parse order data :=
  ⟨writeFile_eq,fun _ hdata => readFile_eq order hdata⟩

/-- The file of two sections. -/
theorem readFile_byteBeforeEmpty : readFile longestFirst byteBeforeEmpty.writeFile =
    parse longestFirst byteBeforeEmpty.serialize := by
  obtain ⟨hwrite,hread⟩ := file_paths_agree longestFirst
  have hne : byteBeforeEmpty.serialize ≠ [] := by
    apply List.ne_nil_of_length_pos
    rw [serialize_length,body_length]
    decide
  rw [hwrite,hread _ hne]

section views

/-- What a view hands out of a file is what was put into the container. -/
theorem openFile_writeFile (order : OffsetSort) (c : Container)
    (hcount : c.sections.size ≤ kMaxSections) (hsize : c.serialize.length < 256^8)
    (hbefore : (order.sort c.written.sections).Pairwise SectionRange.Before) :
    ∃ view, ContainerView.openFile order c.writeFile = .ok view ∧
      (∀ tag, view.get tag = c.get tag) ∧ view.flags = c.flags.val := by
  have hlayout := (validate_serialize order c hcount hsize).mpr ⟨hbefore,rfl⟩
  have htable := tableRead_of_validate hlayout
  refine ⟨⟨c.serialize,{ c.written with sections := order.sort c.written.sections }⟩,?_,?_,rfl⟩
  · rw [writeFile_eq,ContainerView.openFile,hlayout]
    rfl
  · intro tag
    have hfound : ∀ payload, c.sections.find? tag.value = some payload ↔
        ∃ r ∈ order.sort c.written.sections, r.tag = tag.value.val ∧
          r.slice c.serialize = payload := by
      intro payload
      rw [← sectionsOf_written order c]
      exact find?_sectionsOf htable.tags htable.wide
    apply Option.ext
    intro payload
    rw [ContainerView.get,getRaw_eq_some htable.tags,Container.get,hfound]

end views

end Container

/-- A table of at most `n` ranges that is in order stays as it is. -/
def OffsetSort.Keeps (order : OffsetSort) (n : ℕ) : Prop := ∀ l : List SectionRange,
  l.length ≤ n → l.Pairwise (fun a b => a.offset ≤ b.offset) → order.sort l = l

lemma OffsetSort.Keeps.before {order : OffsetSort} {n : ℕ} (h : order.Keeps n) {c : Container}
    (hcount : c.sections.size ≤ n) :
    (order.sort c.written.sections).Pairwise SectionRange.Before := by
  have hbefore : c.written.sections.Pairwise SectionRange.Before := Container.ranges_before _ _
  have hlength : c.written.sections.length ≤ n := by
    rwa [Container.written,Container.ranges_length]
  rw [h _ hlength (hbefore.imp fun hab => le_trans (Nat.le_add_right _ _) hab)]
  exact hbefore

end RagRuntime.Store
