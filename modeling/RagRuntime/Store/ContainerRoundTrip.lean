import Mathlib.Data.List.Pairwise
import Mathlib.Data.List.Sort
import RagRuntime.Store.Container
import RagRuntime.Store.Frame

/-! Which containers come back from their bytes, whatever order the sort leaves equal offsets
in. -/
namespace RagRuntime.Store
open RagRuntime.Base RagRuntime.Core Decoder

/-- One range ends before the other begins. -/
def SectionRange.Before (a b : SectionRange) : Prop := a.finish ≤ b.offset

lemma checkRanges_eq_ok {first last previousEnd : ℕ} {l : List SectionRange} :
    checkRanges first last previousEnd l = .ok () ↔
      (∀ r ∈ l, first ≤ r.offset ∧ r.finish ≤ last) ∧ (∀ r ∈ l, previousEnd ≤ r.offset) ∧
        l.Pairwise SectionRange.Before := by
  induction l generalizing previousEnd with
  | nil => simp [checkRanges]
  | cons r rest ih =>
    rw [List.forall_mem_cons,List.forall_mem_cons,List.pairwise_cons,checkRanges]
    have hend : r.finish = r.offset + r.length := rfl
    split_ifs with hbounds hoverlap
    · simp only [fail,reduceCtorEq,false_iff]
      rintro ⟨⟨⟨h1,h2⟩,-⟩,-⟩
      omega
    · simp only [fail,reduceCtorEq,false_iff]
      rintro ⟨-,⟨h,-⟩,-⟩
      omega
    · rw [ih]
      constructor
      · rintro ⟨hin,hfrom,hpairs⟩
        refine ⟨⟨by omega,hin⟩,⟨by omega,?_⟩,hfrom,hpairs⟩
        intro s hs
        have := hfrom s hs
        omega
      · rintro ⟨⟨-,hin⟩,-,hfrom,hpairs⟩
        exact ⟨hin,hfrom,hpairs⟩

namespace Container

variable {cursor : ℕ} {entries : List (Word × Bytes)} {r : SectionRange}

lemma ranges_length (cursor : ℕ) (entries : List (Word × Bytes)) :
    (ranges cursor entries).length = entries.length := by
  induction entries generalizing cursor with
  | nil => rfl
  | cons e rest ih => rw [ranges,List.length_cons,List.length_cons,ih]

lemma ranges_tags (cursor : ℕ) (entries : List (Word × Bytes)) :
    (ranges cursor entries).map SectionRange.tag = entries.map fun e => e.1.val := by
  induction entries generalizing cursor with
  | nil => rfl
  | cons e rest ih => rw [ranges,List.map_cons,List.map_cons,ih]

lemma payloads_cons (e : Word × Bytes) (rest : List (Word × Bytes)) :
    payloads (e::rest) = e.2 ++ payloads rest := rfl

lemma ranges_within (h : r ∈ ranges cursor entries) :
    cursor ≤ r.offset ∧ r.finish ≤ cursor + (payloads entries).length := by
  induction entries generalizing cursor with
  | nil => cases h
  | cons e rest ih =>
    rw [payloads_cons,List.length_append]
    obtain rfl | h := List.mem_cons.mp h
    · simp only [SectionRange.finish]
      omega
    · have := ih h
      omega

lemma ranges_before (cursor : ℕ) (entries : List (Word × Bytes)) :
    (ranges cursor entries).Pairwise SectionRange.Before := by
  induction entries generalizing cursor with
  | nil => exact .nil
  | cons e rest ih =>
    exact List.pairwise_cons.mpr ⟨fun s hs => (ranges_within hs).1,ih _⟩

/-- A range that holds its payload, wherever the payloads stand. -/
lemma ranges_slice (h : r ∈ ranges cursor entries) (before : Bytes) (hb : before.length = cursor)
    (after : Bytes) : ∃ e ∈ entries, e.1.val = r.tag ∧
      r.slice (before ++ payloads entries ++ after) = e.2 := by
  induction entries generalizing cursor before with
  | nil => cases h
  | cons e rest ih =>
    rw [payloads_cons,← List.append_assoc]
    obtain rfl | h := List.mem_cons.mp h
    · refine ⟨e,List.mem_cons_self,rfl,?_⟩
      rw [SectionRange.slice,← hb,List.append_assoc,List.append_assoc,List.drop_left,List.take_left]
    · obtain ⟨f,hf,htag,hslice⟩ := ih h (before ++ e.2) (by rw [List.length_append,hb])
      exact ⟨f,List.mem_cons_of_mem _ hf,htag,hslice⟩

lemma exists_range {e : Word × Bytes} (h : e ∈ entries) (cursor : ℕ) :
    ∃ r ∈ ranges cursor entries, r.tag = e.1.val ∧ r.length = e.2.length := by
  induction entries generalizing cursor with
  | nil => cases h
  | cons f rest ih =>
    obtain rfl | h := List.mem_cons.mp h
    · exact ⟨_,List.mem_cons_self,rfl,rfl⟩
    · obtain ⟨r,hr,htag⟩ := ih h (cursor + f.2.length)
      exact ⟨r,List.mem_cons_of_mem _ hr,htag⟩

variable {c : Container}

lemma tags_nodup (c : Container) :
    ((ranges c.payloadBegin c.sections.entries).map SectionRange.tag).Nodup := by
  rw [ranges_tags]
  have := c.sections.keys_nodup.map Fin.val_injective
  rwa [OrdMap.keys,List.map_map] at this

@[simp] lemma header_length (c : Container) : c.header.length = kContainerHeaderBytes := by
  simp [header,kContainerMagic,kContainerHeaderBytes,ascii]

lemma encodeRanges_length (index : ℕ) (l : List SectionRange) :
    (encodeFrom (fun _ => SectionRange.encode) index l).length = kEntryBytes*l.length := by
  induction l generalizing index with
  | nil => rfl
  | cons r rest ih =>
    rw [encodeFrom,List.length_append,ih,List.length_cons,Nat.mul_succ]
    simp [SectionRange.encode,kEntryBytes,Nat.add_comm]

lemma table_length (c : Container) : c.table.length = kEntryBytes*c.sections.size := by
  rw [table,encodeRanges_length,ranges_length,OrdMap.size]

lemma body_length (c : Container) :
    c.body.length = c.payloadBegin + (payloads c.sections.entries).length := by
  rw [body,List.length_append,List.length_append,header_length,table_length,payloadBegin]

lemma serialize_length (c : Container) : c.serialize.length = c.body.length + kTrailerBytes := by
  rw [serialize,List.length_append,leBytes_length,kTrailerBytes]

/-- The table is read back as far as its numbers fit their fields. -/
lemma reads_table (c : Container) (hsize : c.serialize.length < 256^8) :
    Reads (repeatFrom (fun _ => readRange) c.sections.size 0 []) c.table
      (ranges c.payloadBegin c.sections.entries) := by
  have hlength : (ranges c.payloadBegin c.sections.entries).length = c.sections.size :=
    ranges_length _ _
  rw [← hlength]
  refine reads_repeatFrom (fun _ => SectionRange.encode) id [] ?_
  intro pre r post hsplit
  have hmem : r ∈ ranges c.payloadBegin c.sections.entries := by
    rw [← hsplit]
    exact List.mem_append_right _ List.mem_cons_self
  have hwithin := ranges_within hmem
  have hbody := c.body_length
  have htotal := c.serialize_length
  have htag : r.tag < 256^4 := by
    have : r.tag ∈ (ranges c.payloadBegin c.sections.entries).map SectionRange.tag :=
      List.mem_map_of_mem hmem
    rw [ranges_tags] at this
    obtain ⟨e,-,he⟩ := List.mem_map.mp this
    rw [← he]
    exact e.1.isLt
  have hnew : r.tag ∉ (([] : List SectionRange) ++ pre).map SectionRange.tag := by
    have hnodup := c.tags_nodup
    rw [← hsplit,List.map_append,List.nodup_append] at hnodup
    intro h
    exact hnodup.2.2 _ h _ (List.mem_map_of_mem List.mem_cons_self) rfl
  simp only [SectionRange.finish] at hwithin
  refine (reads_number htag).bind ((reads_number ?_).bind ((reads_number ?_).last
    ((reads_ensure hnew).after (.pure _))))
  · omega
  · omega

/-- The header and the table of a container with few enough sections. -/
lemma reads_layout (c : Container) (hcount : c.sections.size ≤ kMaxSections)
    (hsize : c.serialize.length < 256^8) :
    Reads (readLayout c.serialize.length) (c.header ++ c.table)
      ⟨c.major,c.minor.val,c.flags.val,ranges c.payloadBegin c.sections.entries⟩ := by
  have hmajor : c.major < 256^2 := by
    rw [c.supported]
    decide
  have hroom : c.sections.size ≤
      (c.serialize.length - kContainerHeaderBytes - kTrailerBytes)/kEntryBytes := by
    have hbody := c.body_length
    have htotal := c.serialize_length
    rw [Nat.le_div_iff_mul_le (by decide)]
    simp only [payloadBegin,kContainerHeaderBytes,kEntryBytes,kTrailerBytes] at *
    omega
  have hfits : c.sections.size < 256^4 := by
    simp only [kMaxSections] at hcount
    omega
  have hmagic := reads_bytes (e := corrupt "bad magic") kContainerMagic
  simp only [header,List.append_assoc]
  refine hmagic.bind ((reads_ensure rfl).after ((reads_number hmajor).bind
    ((reads_number c.minor.isLt).bind ((reads_ensure c.supported).after
    ((reads_number c.flags.isLt).bind ((reads_number hfits).bind
    ((reads_number (by decide)).bind ((reads_ensure ⟨hcount,hroom⟩).after
    ((c.reads_table hsize).last (.pure _))))))))))

lemma crc_serialize (c : Container) :
    c.serialize.take (c.serialize.length - kTrailerBytes) = c.body ∧
      leValue (c.serialize.drop c.body.length) = (crc32 c.body).toNat := by
  rw [serialize_length,Nat.add_sub_cancel,serialize,List.take_left,List.drop_left]
  exact ⟨rfl,leValue_leBytes_of_lt (crc32_fits c.body)⟩

/-- The layout that is read back, before its ranges are sorted. -/
def written (c : Container) : ContainerLayout :=
  ⟨c.major,c.minor.val,c.flags.val,ranges c.payloadBegin c.sections.entries⟩

/-- Of a written container only the order of the ranges is in question. -/
theorem validate_serialize (order : OffsetSort) (c : Container)
    (hcount : c.sections.size ≤ kMaxSections) (hsize : c.serialize.length < 256^8)
    {layout : ContainerLayout} :
    validateContainerLayout order c.serialize = .ok layout ↔
      (order.sort c.written.sections).Pairwise SectionRange.Before ∧
        layout = { c.written with sections := order.sort c.written.sections } := by
  have hlong : ¬c.serialize.length < kContainerHeaderBytes + kTrailerBytes := by
    rw [serialize_length,body_length,payloadBegin]
    omega
  obtain ⟨htake,hcrc⟩ := c.crc_serialize
  have hread : readLayout c.serialize.length c.serialize =
      .ok (c.written,payloads c.sections.entries ++ leBytes 4 (crc32 c.body).toNat) := by
    have := c.reads_layout hcount hsize (payloads c.sections.entries ++
      leBytes 4 (crc32 c.body).toNat)
    rwa [← List.append_assoc] at this
  have hfirst : kContainerHeaderBytes + kEntryBytes*c.written.sections.length = c.payloadBegin := by
    rw [written,ranges_length]
    rfl
  have hlast : c.serialize.length - kTrailerBytes = c.body.length := by
    rw [serialize_length,Nat.add_sub_cancel]
  have hbounds : ∀ r ∈ order.sort c.written.sections,
      c.payloadBegin ≤ r.offset ∧ r.finish ≤ c.body.length := by
    intro r hr
    rw [body_length]
    exact ranges_within ((order.perm _).mem_iff.mp hr)
  have hcheck : checkRanges c.payloadBegin c.body.length c.payloadBegin
      (order.sort c.written.sections) = .ok () ↔
        (order.sort c.written.sections).Pairwise SectionRange.Before := by
    rw [checkRanges_eq_ok]
    exact ⟨fun h => h.2.2,fun h => ⟨hbounds,fun r hr => (hbounds r hr).1,h⟩⟩
  unfold validateContainerLayout
  rw [if_neg hlong]
  dsimp only
  rw [htake,hcrc,if_neg (not_not.mpr rfl),hread]
  dsimp only
  rw [hfirst,hlast,← hcheck]
  cases checkRanges c.payloadBegin c.body.length c.payloadBegin
      (order.sort c.written.sections) with
  | error e => simp
  | ok u => simp [eq_comm]

/-- No section without a payload stands before one with a payload. -/
def EmptyLast (c : Container) : Prop :=
  c.sections.entries.Pairwise fun a b => a.2 = [] → b.2 = []

instance (c : Container) : Decidable c.EmptyLast :=
  inferInstanceAs (Decidable (List.Pairwise _ _))

lemma ranges_emptyLast (h : entries.Pairwise fun a b => a.2 = [] → b.2 = []) (cursor : ℕ) :
    (ranges cursor entries).Pairwise fun a b => a.length = 0 → b.length = 0 := by
  induction entries generalizing cursor with
  | nil => exact .nil
  | cons e rest ih =>
    obtain ⟨hhead,htail⟩ := List.pairwise_cons.mp h
    refine List.pairwise_cons.mpr ⟨?_,ih htail _⟩
    intro s hs hzero
    have hnil : payloads rest = [] := by
      rw [payloads,List.flatMap_eq_nil_iff]
      exact fun f hf => hhead f hf (List.eq_nil_of_length_eq_zero hzero)
    have := ranges_within hs
    rw [hnil] at this
    simp only [SectionRange.finish,List.length_nil] at this
    omega

/-- Of two different members of an ordered list one stands before the other. -/
lemma Pairwise.either {α : Type} {R : α → α → Prop} {l : List α} (h : l.Pairwise R) {a b : α}
    (ha : a ∈ l) (hb : b ∈ l) (hne : a ≠ b) : R a b ∨ R b a := by
  have hsymm : Std.Symm fun a b => R a b ∨ R b a := ⟨fun _ _ => Or.symm⟩
  exact (h.imp Or.inl : l.Pairwise fun a b => R a b ∨ R b a).forall ha hb hne

/-- With the empty sections last, every sort leaves the ranges one behind the other. -/
lemma EmptyLast.before (h : c.EmptyLast) (order : OffsetSort) :
    (order.sort c.written.sections).Pairwise SectionRange.Before := by
  have hperm := order.perm c.written.sections
  have hnodup : (order.sort c.written.sections).Nodup :=
    hperm.nodup_iff.mpr (List.Nodup.of_map _ c.tags_nodup)
  have htable : c.written.sections.Pairwise fun a b =>
      a.Before b ∧ (a.length = 0 → b.length = 0) :=
    (ranges_before _ _).and (ranges_emptyLast h _)
  refine ((order.ascending _).and hnodup).imp_of_mem ?_
  rintro a b ha hb ⟨hle,hne⟩
  obtain ⟨hab,-⟩ | ⟨hba,hempty⟩ := Pairwise.either htable (hperm.mem_iff.mp ha)
    (hperm.mem_iff.mp hb) hne
  · exact hab
  · -- `b` was written first, so that both are empty and begin at the same offset
    simp only [SectionRange.Before,SectionRange.finish] at hba ⊢
    have := hempty (by omega)
    omega

/-- Among equal offsets, the longest range first. -/
def LongestFirst (a b : SectionRange) : Prop :=
  a.offset < b.offset ∨ a.offset = b.offset ∧ b.length ≤ a.length

instance : DecidableRel LongestFirst := fun a b => by unfold LongestFirst; infer_instance
instance : Std.Total LongestFirst := ⟨fun a b => by unfold LongestFirst; omega⟩
instance : IsTrans SectionRange LongestFirst := ⟨fun a b c => by unfold LongestFirst; omega⟩

/-- A sort that moves empty ranges behind the one they share their offset with. -/
def longestFirst : OffsetSort where
  sort l := l.insertionSort LongestFirst
  perm l := List.perm_insertionSort _ l
  ascending l := (List.pairwise_insertionSort LongestFirst l).imp fun h => by
    unfold LongestFirst at h
    omega

/-- An empty section shares its offset with the next one that is not. -/
lemma exists_shared (cursor : ℕ) {entries : List (Word × Bytes)}
    (h : ¬entries.Pairwise fun a b => a.2 = [] → b.2 = []) :
    ∃ a ∈ ranges cursor entries, ∃ b ∈ ranges cursor entries,
      a.offset = b.offset ∧ a.length = 0 ∧ 0 < b.length := by
  induction entries generalizing cursor with
  | nil => exact absurd .nil h
  | cons e rest ih =>
    by_cases hrest : rest.Pairwise fun a b => a.2 = [] → b.2 = []
    · have hhead : ∃ f ∈ rest, e.2 = [] ∧ f.2 ≠ [] := by
        by_contra hnone
        push Not at hnone
        exact h (List.pairwise_cons.mpr ⟨fun f hf he => hnone f hf he,hrest⟩)
      obtain ⟨f,hf,he,hne⟩ := hhead
      cases rest with
      | nil => cases hf
      | cons g rest =>
        have hg : g.2 ≠ [] := by
          obtain rfl | hf := List.mem_cons.mp hf
          · exact hne
          · exact fun hnil => hne ((List.pairwise_cons.mp hrest).1 f hf hnil)
        refine ⟨_,List.mem_cons_self,_,List.mem_cons_of_mem _ List.mem_cons_self,?_,?_,?_⟩
        · simp [he]
        · simp [he]
        · exact List.length_pos_iff.mpr hg
    · obtain ⟨a,ha,b,hb,hshared⟩ := ih (cursor + e.2.length) hrest
      exact ⟨a,List.mem_cons_of_mem _ ha,b,List.mem_cons_of_mem _ hb,hshared⟩

lemma not_before_longestFirst (h : ¬c.EmptyLast) :
    ¬(longestFirst.sort c.written.sections).Pairwise SectionRange.Before := by
  intro hbefore
  obtain ⟨a,ha,b,hb,hoffset,hempty,hlong⟩ := exists_shared c.payloadBegin h
  have hperm := longestFirst.perm c.written.sections
  have hne : a ≠ b := by
    rintro rfl
    omega
  have hsorted := (List.pairwise_insertionSort LongestFirst c.written.sections).and hbefore
  obtain ⟨hfirst,-⟩ | ⟨-,hba⟩ := Pairwise.either hsorted (hperm.mem_iff.mpr ha)
    (hperm.mem_iff.mpr hb) hne
  · simp only [LongestFirst] at hfirst
    omega
  · simp only [SectionRange.Before,SectionRange.finish] at hba
    omega

/-- The sections of a written container come back under their tags. -/
lemma sectionsOf_written (order : OffsetSort) (c : Container) :
    sectionsOf c.serialize { c.written with sections := order.sort c.written.sections } =
      c.sections := by
  have hperm := order.perm c.written.sections
  have hkeys : ((order.sort c.written.sections).map
      fun r => (Fin.ofNat 4294967296 r.tag : Word)).Nodup := by
    rw [(hperm.map _).nodup_iff]
    have htags : c.written.sections.map (fun r => (Fin.ofNat 4294967296 r.tag : Word)) =
        c.sections.keys := by
      have := congrArg (List.map (Fin.ofNat 4294967296))
        (ranges_tags c.payloadBegin c.sections.entries)
      rw [List.map_map,List.map_map] at this
      refine this.trans (List.map_congr_left fun e _ => ?_)
      exact Fin.ofNat_val_eq_self e.1
    rw [htags]
    exact c.sections.keys_nodup
  have hslice : ∀ r ∈ c.written.sections, ∃ e ∈ c.sections.entries,
      (Fin.ofNat 4294967296 r.tag : Word) = e.1 ∧ r.slice c.serialize = e.2 := by
    intro r hr
    obtain ⟨e,he,htag,hpayload⟩ := ranges_slice hr (c.header ++ c.table)
      (by rw [List.length_append,header_length,table_length,payloadBegin])
      (leBytes 4 (crc32 c.body).toNat)
    refine ⟨e,he,?_,hpayload⟩
    rw [← htag]
    exact Fin.ofNat_val_eq_self e.1
  ext k : 1
  apply Option.ext
  intro payload
  rw [sectionsOf,OrdMap.find?_foldl_insert _ _ hkeys]
  simp only [OrdMap.find?_empty,reduceCtorEq,false_and,or_false]
  constructor
  · rintro ⟨r,hr,htag,hpayload⟩
    obtain ⟨e,he,htag',hpayload'⟩ := hslice r (hperm.mem_iff.mp hr)
    rw [OrdMap.find?_eq_some,← htag,htag',← hpayload,hpayload']
    exact he
  · intro hfound
    have he := OrdMap.find?_eq_some.mp hfound
    obtain ⟨r,hr,htag,-⟩ := exists_range he c.payloadBegin
    obtain ⟨e,he',htag',hpayload⟩ := hslice r hr
    have hkey : e.1 = k := by
      rw [← htag',htag]
      exact Fin.ofNat_val_eq_self k
    have hvalue : e.2 = payload := by
      have := OrdMap.find?_eq_some.mpr (show (k,e.2) ∈ c.sections.entries from hkey ▸ he')
      rw [hfound] at this
      exact (Option.some.inj this).symm
    exact ⟨r,hperm.mem_iff.mpr hr,htag'.trans hkey,hpayload.trans hvalue⟩

lemma parse_longestFirst (h : ¬c.EmptyLast) (hcount : c.sections.size ≤ kMaxSections)
    (hsize : c.serialize.length < 256^8) (d : Container) :
    parse longestFirst c.serialize ≠ .ok d := by
  intro hparse
  unfold parse at hparse
  cases hvalid : validateContainerLayout longestFirst c.serialize with
  | error e =>
    rw [hvalid] at hparse
    cases hparse
  | ok layout =>
    exact not_before_longestFirst h ((validate_serialize _ c hcount hsize).mp hvalid).1

/-- Every sort lets a written container be parsed exactly if no empty section stands before one
with a payload. -/
theorem parse_serialize_iff (c : Container) (hcount : c.sections.size ≤ kMaxSections)
    (hsize : c.serialize.length < 256^8) :
    (∀ order : OffsetSort, parse order c.serialize = .ok c) ↔ c.EmptyLast := by
  constructor
  · intro h
    by_contra hnot
    exact parse_longestFirst hnot hcount hsize c (h longestFirst)
  · intro h order
    unfold parse
    rw [(validate_serialize order c hcount hsize).mpr ⟨h.before order,rfl⟩]
    dsimp only
    have hsections := sectionsOf_written order c
    obtain ⟨sections,flags,major,minor,supported⟩ := c
    subst supported
    simp only [Except.ok.injEq,Container.mk.injEq,true_and]
    exact ⟨hsections,Fin.ofNat_val_eq_self flags,Fin.ofNat_val_eq_self minor⟩

/-- A section with a payload before an empty one. -/
def byteBeforeEmpty : Container := (empty.put .runtime [7]).putRaw 0xDEADBEEF []

theorem parse_serialize_byteBeforeEmpty :
    (∀ order : OffsetSort, parse order byteBeforeEmpty.serialize = .ok byteBeforeEmpty) ↔
      byteBeforeEmpty.EmptyLast :=
  parse_serialize_iff byteBeforeEmpty (by decide) (by rw [serialize_length,body_length]; decide)

/-- An empty section before one with a byte. -/
def emptyBeforeByte : Container := (empty.putRaw 1 []).putRaw 2 [7]

/-- A sort that puts the empty range behind the byte makes the two overlap. -/
theorem empty_section_overlaps : emptyBeforeByte.sections.size ≤ kMaxSections ∧
    emptyBeforeByte.serialize.length < 256^8 ∧
    parse longestFirst emptyBeforeByte.serialize ≠ .ok emptyBeforeByte := by
  have hcount : emptyBeforeByte.sections.size ≤ kMaxSections := by decide
  have hsize : emptyBeforeByte.serialize.length < 256^8 := by
    rw [serialize_length,body_length]
    decide
  exact ⟨hcount,hsize,parse_longestFirst (by decide) hcount hsize _⟩

/-- No section is without a payload. -/
def Filled (c : Container) : Prop := ∀ tag payload, c.sections.find? tag = some payload →
    payload ≠ []

lemma filled_empty : empty.Filled := fun _ _ h => by cases h

lemma Filled.put {c : Container} (h : c.Filled) (tag : Tag) {payload : Bytes} (hne : payload ≠ []) :
    (c.put tag payload).Filled := by
  intro t p hp
  rw [Container.put,putRaw,OrdMap.find?_insert] at hp
  split_ifs at hp
  · rwa [← Option.some.inj hp]
  · exact h t p hp

lemma Filled.emptyLast {c : Container} (h : c.Filled) : c.EmptyLast := by
  apply List.Pairwise.imp_of_mem (R := fun _ _ => True)
  · intro a b ha _ _ hnil
    exact absurd hnil (h a.1 a.2 (OrdMap.find?_eq_some.mpr ha))
  · exact List.pairwise_of_forall fun _ _ => trivial

lemma size_put_le (c : Container) (tag : Tag) (payload : Bytes) :
    (c.put tag payload).sections.size ≤ c.sections.size+1 :=
  OrdMap.size_insert_le c.sections tag.value payload

lemma length_payloads_put_le (c : Container) (tag : Tag) (payload : Bytes) :
    (payloads (c.put tag payload).sections.entries).length ≤
      (payloads c.sections.entries).length + payload.length := by
  have h : ∀ l : List (Word × Bytes), (payloads (OrdMap.insertEntries tag.value payload l)).length ≤
      (payloads l).length + payload.length := by
    intro l
    induction l with
    | nil => simp [OrdMap.insertEntries,payloads]
    | cons e rest ih =>
      unfold OrdMap.insertEntries
      split_ifs
      · simp only [payloads_cons,List.length_append]
        omega
      · simp only [payloads_cons,List.length_append]
        omega
      · simp only [payloads_cons,List.length_append]
        omega
  exact h c.sections.entries

end Container
end RagRuntime.Store
