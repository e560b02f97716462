import Mathlib.Order.CompletePartialOrder
import Mathlib.Order.Interval.Set.Disjoint
import RagRuntime.Store.ContainerRoundTrip

/-! The validation of a container in the 64-bit arithmetic of the machine, and what may be read
after it. -/
namespace RagRuntime.Store
open RagRuntime.Base RagRuntime.Core Decoder

section machine
-- The same steps as in `validateContainerLayout`, with sums, products and differences that wrap.

def headerSize64 : UInt64 := 28
def entrySize64 : UInt64 := 20
def trailerSize64 : UInt64 := 4

def readLayout64 (size : UInt64) : Decoder Error ContainerLayout := do
  let magic ← bytes (corrupt "bad magic") 8
  ensure (corrupt "bad magic") (magic = kContainerMagic)
  let major ← number (corrupt "version") 2
  let minor ← number (corrupt "version") 2
  ensure (corrupt ("unsupported format major " ++ toString major ++ " (reader supports " ++
    toString kFormatMajor ++ ")")) (major = kFormatMajor)
  let flags ← number (corrupt "header") 4
  let count ← number (corrupt "header") 4
  let _ ← number (corrupt "header") 8
  ensure (corrupt "invalid section count") (count ≤ kMaxSections ∧
    UInt64.ofNat count ≤ (size - headerSize64 - trailerSize64)/entrySize64)
  let sections ← repeatFrom (fun _ => readRange) count 0 []
  return ⟨major,minor,flags,sections⟩

def checkRanges64 (first last : UInt64) : UInt64 → List SectionRange → Result Unit
  | _,[] => .ok ()
  | previousEnd,r::rest =>
    let offset := UInt64.ofNat r.offset
    let length := UInt64.ofNat r.length
    if offset < first ∨ offset > last ∨ length > last - offset then
      fail .corruptIndex "section out of bounds"
    else if offset < previousEnd then fail .corruptIndex "overlapping sections"
    else checkRanges64 first last (offset + length) rest

def validateContainerLayout64 (order : OffsetSort) (data : Bytes) : Result ContainerLayout :=
  let size := UInt64.ofNat data.length
  if size < headerSize64 + trailerSize64 then fail .corruptIndex "too short"
  else
    let body := data.take (size - trailerSize64).toNat
    if (crc32 body).toNat ≠ leValue (data.drop body.length) then fail .corruptIndex "crc mismatch"
    else match readLayout64 size data with
      | .error e => .error e
      | .ok (layout,_) =>
        let first := headerSize64 + entrySize64*UInt64.ofNat layout.sections.length
        let sorted := order.sort layout.sections
        match checkRanges64 first (size - trailerSize64) first sorted with
        | .error e => .error e
        | .ok () => .ok { layout with sections := sorted }

end machine

section arithmetic

lemma toNat_ofNat64 {n : ℕ} (h : n < 2^64) : (UInt64.ofNat n).toNat = n :=
  UInt64.toNat_ofNat_of_lt' h

lemma toNat_sub64 {a b : UInt64} (h : b.toNat ≤ a.toNat) : (a - b).toNat = a.toNat - b.toNat :=
  UInt64.toNat_sub_of_le a b (UInt64.le_iff_toNat_le.mpr h)

lemma toNat_add64 {a b : UInt64} (h : a.toNat + b.toNat < 2^64) :
    (a + b).toNat = a.toNat + b.toNat := by
  rw [UInt64.toNat_add,Nat.mod_eq_of_lt h]

lemma toNat_mul64 {a b : UInt64} (h : a.toNat*b.toNat < 2^64) :
    (a*b).toNat = a.toNat*b.toNat := by
  rw [UInt64.toNat_mul,Nat.mod_eq_of_lt h]

/-- The fields of a range are read as numbers of 32 and 64 bits. -/
structure SectionRange.Wide (r : SectionRange) : Prop where
  tag : r.tag < 2^32
  offset : r.offset < 2^64
  length : r.length < 2^64

lemma checkRanges64_eq {first last previousEnd : UInt64} {l : List SectionRange}
    (hl : ∀ r ∈ l, r.Wide) : checkRanges64 first last previousEnd l =
      checkRanges first.toNat last.toNat previousEnd.toNat l := by
  induction l generalizing previousEnd with
  | nil => rfl
  | cons r rest ih =>
    obtain ⟨hr,hrest⟩ := List.forall_mem_cons.mp hl
    have hoffset := toNat_ofNat64 hr.offset
    have hlength := toNat_ofNat64 hr.length
    have hlast := last.toNat_lt
    -- the difference is only looked at when it does not wrap
    have hbounds : (UInt64.ofNat r.offset < first ∨ UInt64.ofNat r.offset > last ∨
        UInt64.ofNat r.length > last - UInt64.ofNat r.offset) ↔
        (r.offset < first.toNat ∨ r.offset > last.toNat ∨ r.length > last.toNat - r.offset) := by
      simp only [gt_iff_lt,UInt64.lt_iff_toNat_lt,hoffset,hlength]
      by_cases hout : last.toNat < r.offset
      · simp [hout]
      · rw [toNat_sub64 (by omega),hoffset]
    have hoverlap : UInt64.ofNat r.offset < previousEnd ↔ r.offset < previousEnd.toNat := by
      rw [UInt64.lt_iff_toNat_lt,hoffset]
    rw [checkRanges64,checkRanges]
    simp only [hbounds,hoverlap]
    split_ifs with hout hover
    · rfl
    · rfl
    · rw [ih hrest,toNat_add64 (by omega),hoffset,hlength,SectionRange.finish]

/-- The section count is compared with what the payload has room for. -/
lemma count64_iff {size : ℕ} (h : size < 2^64) (hmin : kContainerHeaderBytes + kTrailerBytes ≤ size)
    (count : ℕ) : (count ≤ kMaxSections ∧ UInt64.ofNat count ≤
      (UInt64.ofNat size - headerSize64 - trailerSize64)/entrySize64) ↔
    count ≤ kMaxSections ∧ count ≤ (size - kContainerHeaderBytes - kTrailerBytes)/kEntryBytes := by
  apply and_congr_right
  intro hcount
  simp only [kMaxSections,kContainerHeaderBytes,kTrailerBytes,kEntryBytes] at *
  have hsize := toNat_ofNat64 h
  have hheader : headerSize64.toNat = 28 := rfl
  have htrailer : trailerSize64.toNat = 4 := rfl
  have hentry : entrySize64.toNat = 20 := rfl
  have hfirst : (UInt64.ofNat size - headerSize64).toNat = size - 28 := by
    rw [toNat_sub64 (by omega),hsize,hheader]
  have hroom : (UInt64.ofNat size - headerSize64 - trailerSize64).toNat = size - 28 - 4 := by
    rw [toNat_sub64 (by omega),hfirst,htrailer]
  rw [UInt64.le_iff_toNat_le,UInt64.toNat_div,hroom,hentry,toNat_ofNat64 (by omega)]

lemma ensure_congr {e : Error} {p q : Prop} [Decidable p] [Decidable q] (h : p ↔ q) :
    ensure e p = ensure e q := by
  funext input
  by_cases hp : p
  · have hq := h.mp hp
    simp [ensure,hp,hq]
  · have hq : ¬q := fun hq => hp (h.mpr hq)
    simp [ensure,hp,hq]

lemma readLayout64_eq {size : ℕ} (h : size < 2^64)
    (hmin : kContainerHeaderBytes + kTrailerBytes ≤ size) :
    readLayout64 (UInt64.ofNat size) = readLayout size := by
  have hensure : ∀ count, ensure (corrupt "invalid section count") (count ≤ kMaxSections ∧
      UInt64.ofNat count ≤ (UInt64.ofNat size - headerSize64 - trailerSize64)/entrySize64) =
      ensure (corrupt "invalid section count") (count ≤ kMaxSections ∧
        count ≤ (size - kContainerHeaderBytes - kTrailerBytes)/kEntryBytes) :=
    fun count => ensure_congr (count64_iff h hmin count)
  simp only [readLayout64,readLayout,hensure]

end arithmetic

section reading

/-- What is known of a section table that was read. -/
structure TableRead (size : ℕ) (sections : List SectionRange) : Prop where
  tags : (sections.map SectionRange.tag).Nodup
  wide : ∀ r ∈ sections, r.Wide
  count : sections.length ≤ kMaxSections
  room : sections.length ≤ (size - kContainerHeaderBytes - kTrailerBytes)/kEntryBytes

lemma yields_readRange {n : ℕ} {found : List SectionRange}
    (htags : (found.map SectionRange.tag).Nodup) (hwide : ∀ r ∈ found, r.Wide)
    (hlength : found.length = n) : Yields (readRange found) fun found' =>
      (found'.map SectionRange.tag).Nodup ∧ (∀ r ∈ found', r.Wide) ∧ found'.length = n+1 := by
  unfold readRange
  refine (yields_number _ 4).bind fun tag htag => ?_
  refine (yields_number _ 8).bind fun offset hoffset => ?_
  refine (yields_number _ 8).bind fun length hlong => ?_
  refine (yields_ensure _ _).bind fun _ hnew => yields_pure ⟨?_,?_,?_⟩
  · rw [List.map_append,List.nodup_append]
    refine ⟨htags,List.nodup_singleton _,?_⟩
    intro a ha b hb
    rw [List.map_singleton,List.mem_singleton] at hb
    rw [hb]
    rintro rfl
    exact hnew ha
  · intro r hr
    rcases List.mem_append.mp hr with hr | hr
    · exact hwide r hr
    · rw [List.mem_singleton.mp hr]
      exact ⟨htag,hoffset,hlong⟩
  · rw [List.length_append,hlength,List.length_singleton]

lemma yields_readLayout (size : ℕ) :
    Yields (readLayout size) fun layout => TableRead size layout.sections := by
  unfold readLayout
  refine (yields_true _).bind fun magic _ => ?_
  refine (yields_true _).bind fun _ _ => ?_
  refine (yields_true _).bind fun major _ => ?_
  refine (yields_true _).bind fun minor _ => ?_
  refine (yields_true _).bind fun _ _ => ?_
  refine (yields_true _).bind fun flags _ => ?_
  refine (yields_true _).bind fun count _ => ?_
  refine (yields_true _).bind fun _ _ => ?_
  refine (yields_ensure _ _).bind fun _ hcount => ?_
  have hread : Yields (repeatFrom (fun _ => readRange) count 0 []) fun found =>
      (found.map SectionRange.tag).Nodup ∧ (∀ r ∈ found, r.Wide) ∧ found.length = 0 + count :=
    yields_repeatFrom (fun n (found : List SectionRange) =>
      (found.map SectionRange.tag).Nodup ∧ (∀ r ∈ found, r.Wide) ∧ found.length = n)
      (fun n found h => yields_readRange h.1 h.2.1 h.2.2)
      ⟨List.nodup_nil,fun r hr => (List.not_mem_nil hr).elim,rfl⟩
  rw [Nat.zero_add] at hread
  refine hread.bind fun sections h => yields_pure ⟨h.1,h.2.1,?_,?_⟩
  · rw [h.2.2]
    exact hcount.1
  · rw [h.2.2]
    exact hcount.2

end reading

/-- The bytes that a range stands for. -/
def SectionRange.span (r : SectionRange) : Set ℕ := Set.Ico r.offset r.finish

lemma SectionRange.length_slice {data : Bytes} {r : SectionRange} (h : r.finish ≤ data.length) :
    (r.slice data).length = r.length := by
  rw [SectionRange.finish] at h
  rw [SectionRange.slice,List.length_take,List.length_drop]
  omega

/-- The sums, products and differences of a validation are those of the numbers. -/
structure ExactSteps (data : Bytes) (sections : List SectionRange) : Prop where
  size : (UInt64.ofNat data.length).toNat = data.length
  last : (UInt64.ofNat data.length - trailerSize64).toNat = data.length - kTrailerBytes
  first : (headerSize64 + entrySize64*UInt64.ofNat sections.length).toNat =
    kContainerHeaderBytes + kEntryBytes*sections.length
  room : ∀ r ∈ sections, (UInt64.ofNat data.length - trailerSize64 - UInt64.ofNat r.offset).toNat =
    data.length - kTrailerBytes - r.offset
  finish : ∀ r ∈ sections, (UInt64.ofNat r.offset + UInt64.ofNat r.length).toNat = r.finish

/-- A section table that may be relied on. -/
structure SafeLayout (data : Bytes) (sections : List SectionRange) : Prop where
  tags : (sections.map SectionRange.tag).Nodup
  wide : ∀ r ∈ sections, r.Wide
  within : ∀ r ∈ sections, kContainerHeaderBytes + kEntryBytes*sections.length ≤ r.offset ∧
    r.finish ≤ data.length - kTrailerBytes
  disjoint : ∀ a ∈ sections, ∀ b ∈ sections, a ≠ b → Disjoint a.span b.span
  exact_steps : ExactSteps data sections
  slices : ∀ r ∈ sections, (r.slice data).length = r.length

lemma SectionRange.Before.disjoint {a b : SectionRange} (h : a.Before b) :
    Disjoint a.span b.span := Set.Ico_disjoint_Ico_same.mono_right (Set.Ico_subset_Ico_left h)

lemma disjoint_of_before {sections : List SectionRange}
    (h : sections.Pairwise SectionRange.Before) {a b : SectionRange} (ha : a ∈ sections)
    (hb : b ∈ sections) (hne : a ≠ b) : Disjoint a.span b.span := by
  have hall : sections.Pairwise fun a b => a ≠ b → Disjoint a.span b.span :=
    h.imp fun hbefore _ => hbefore.disjoint
  have hflip : sections.Pairwise (flip fun a b => a ≠ b → Disjoint a.span b.span) :=
    h.imp fun hbefore _ => hbefore.disjoint.symm
  exact hall.forall_of_forall_of_flip (fun _ _ hself => absurd rfl hself) hflip ha hb hne

lemma toNat_last {data : Bytes} (h : data.length < 2^64) (hmin : kTrailerBytes ≤ data.length) :
    (UInt64.ofNat data.length - trailerSize64).toNat = data.length - kTrailerBytes := by
  have hsize := toNat_ofNat64 h
  have htrailer : trailerSize64.toNat = kTrailerBytes := rfl
  rw [toNat_sub64 (by omega),hsize,htrailer]

lemma toNat_first {n : ℕ} (h : n ≤ kMaxSections) :
    (headerSize64 + entrySize64*UInt64.ofNat n).toNat = kContainerHeaderBytes + kEntryBytes*n := by
  simp only [kMaxSections] at h
  have hheader : headerSize64.toNat = 28 := rfl
  have hentry : entrySize64.toNat = 20 := rfl
  have hn : (UInt64.ofNat n).toNat = n := toNat_ofNat64 (by omega)
  have hprod : (entrySize64*UInt64.ofNat n).toNat = 20*n := by
    rw [toNat_mul64 (by rw [hentry,hn]; omega),hentry,hn]
  rw [toNat_add64 (by omega),hheader,hprod]
  rfl

/-- The validation of the machine is the one of unbounded numbers. -/
theorem validate64_eq (order : OffsetSort) {data : Bytes} (h : data.length < 2^64) :
    validateContainerLayout64 order data = validateContainerLayout order data := by
  have hsize := toNat_ofNat64 h
  have hmin : UInt64.ofNat data.length < headerSize64 + trailerSize64 ↔
      data.length < kContainerHeaderBytes + kTrailerBytes := by
    rw [UInt64.lt_iff_toNat_lt,hsize]
    rfl
  unfold validateContainerLayout64 validateContainerLayout
  simp only [hmin]
  by_cases hshort : data.length < kContainerHeaderBytes + kTrailerBytes
  · rw [if_pos hshort,if_pos hshort]
  rw [if_neg hshort,if_neg hshort]
  have hlast := toNat_last h (by omega)
  rw [hlast]
  split_ifs with hcrc
  · rfl
  rw [readLayout64_eq h (by omega)]
  cases hread : readLayout data.length data with
  | error e => rfl
  | ok found =>
    obtain ⟨layout,rest⟩ := found
    have htable := yields_readLayout data.length data layout rest hread
    have hwide : ∀ r ∈ order.sort layout.sections, r.Wide :=
      fun r hr => htable.wide r ((order.perm _).mem_iff.mp hr)
    dsimp only
    rewrite [checkRanges64_eq hwide,hlast,toNat_first htable.count]
    cases checkRanges (kContainerHeaderBytes + kEntryBytes*layout.sections.length)
      (data.length - kTrailerBytes) (kContainerHeaderBytes + kEntryBytes*layout.sections.length)
      (order.sort layout.sections) with
    | error e => rfl
    | ok u => rfl

/-- What an accepted file has passed. -/
lemma exists_table {order : OffsetSort} {data : Bytes} {layout : ContainerLayout}
    (h : validateContainerLayout order data = .ok layout) :
    kContainerHeaderBytes + kTrailerBytes ≤ data.length ∧ ∃ table : ContainerLayout,
      TableRead data.length table.sections ∧
      layout = { table with sections := order.sort table.sections } ∧
      checkRanges (kContainerHeaderBytes + kEntryBytes*table.sections.length)
        (data.length - kTrailerBytes) (kContainerHeaderBytes + kEntryBytes*table.sections.length)
        layout.sections = .ok () := by
  unfold validateContainerLayout at h
  by_cases hshort : data.length < kContainerHeaderBytes + kTrailerBytes
  · rw [if_pos hshort] at h
    cases h
  rw [if_neg hshort] at h
  dsimp only at h
  split_ifs at h with hcrc
  · cases h
  refine ⟨Nat.not_lt.mp hshort,?_⟩
  cases hread : readLayout data.length data with
  | error e =>
    rw [hread] at h
    cases h
  | ok found =>
    obtain ⟨table,rest⟩ := found
    have htable := yields_readLayout data.length data table rest hread
    rw [hread] at h
    dsimp only at h
    cases hcheck : checkRanges (kContainerHeaderBytes + kEntryBytes*table.sections.length)
        (data.length - kTrailerBytes) (kContainerHeaderBytes + kEntryBytes*table.sections.length)
        (order.sort table.sections) with
    | error e =>
      rw [hcheck] at h
      cases h
    | ok u =>
      rw [hcheck] at h
      cases h
      exact ⟨table,htable,rfl,hcheck⟩

lemma TableRead.sort {size : ℕ} {sections : List SectionRange} (h : TableRead size sections)
    (order : OffsetSort) : TableRead size (order.sort sections) := by
  have hperm := order.perm sections
  refine ⟨((hperm.map _).nodup_iff).mpr h.tags,?_,?_,?_⟩
  · exact fun r hr => h.wide r (hperm.mem_iff.mp hr)
  · rw [hperm.length_eq]
    exact h.count
  · rw [hperm.length_eq]
    exact h.room

lemma tableRead_of_validate {order : OffsetSort} {data : Bytes} {layout : ContainerLayout}
    (h : validateContainerLayout order data = .ok layout) :
    TableRead data.length layout.sections := by
  obtain ⟨-,table,htable,rfl,-⟩ := exists_table h
  exact htable.sort order

/-- A layout that was accepted is safe to read by. -/
theorem validate_safe {order : OffsetSort} {data : Bytes} (h : data.length < 2^64)
    {layout : ContainerLayout} (hlayout : validateContainerLayout order data = .ok layout) :
    SafeLayout data layout.sections := by
  have hread := tableRead_of_validate hlayout
  obtain ⟨hmin,table,-,rfl,hcheck⟩ := exists_table hlayout
  rw [← (order.perm table.sections).length_eq] at hcheck
  dsimp only at hcheck hread ⊢
  set sections := order.sort table.sections
  obtain ⟨hwithin,-,hpairs⟩ := checkRanges_eq_ok.mp hcheck
  have hlast := toNat_last h (by omega)
  have hroom : ∀ r ∈ sections, r.finish ≤ data.length :=
    fun r hr => (hwithin r hr).2.trans (Nat.sub_le _ _)
  have hoffset : ∀ r ∈ sections, (UInt64.ofNat r.offset).toNat = r.offset :=
    fun r hr => toNat_ofNat64 (hread.wide r hr).offset
  have hlength : ∀ r ∈ sections, (UInt64.ofNat r.length).toNat = r.length :=
    fun r hr => toNat_ofNat64 (hread.wide r hr).length
  refine ⟨hread.tags,hread.wide,hwithin,?_,⟨toNat_ofNat64 h,hlast,toNat_first hread.count,?_,?_⟩,?_⟩
  · exact fun a ha b hb hne => disjoint_of_before hpairs ha hb hne
  · intro r hr
    have hend := (hwithin r hr).2
    rw [SectionRange.finish] at hend
    have hr' := hoffset r hr
    rw [toNat_sub64 (by omega),hlast,hr']
  · intro r hr
    have hend := hroom r hr
    have hr' := hoffset r hr
    have hlen := hlength r hr
    rw [SectionRange.finish] at hend ⊢
    rw [toNat_add64 (by omega),hr',hlen]
  · exact fun r hr => SectionRange.length_slice (hroom r hr)

section lookups

variable {data : Bytes} {layout : ContainerLayout}

/-- A view hands out the payload of the only range with a tag. -/
lemma getRaw_eq_some (htags : (layout.sections.map SectionRange.tag).Nodup) {tag : ℕ}
    {payload : Bytes} : (ContainerView.mk data layout).getRaw tag = some payload ↔
      ∃ r ∈ layout.sections, r.tag = tag ∧ r.slice data = payload := by
  rw [ContainerView.getRaw,Option.map_eq_some_iff]
  constructor
  · rintro ⟨r,hfound,hslice⟩
    exact ⟨r,List.mem_of_find?_eq_some hfound,by simpa using List.find?_some hfound,hslice⟩
  · rintro ⟨r,hr,htag,hslice⟩
    refine ⟨r,?_,hslice⟩
    cases hfound : layout.sections.find? fun r => r.tag = tag with
    | none =>
      rw [List.find?_eq_none] at hfound
      exact absurd htag (by simpa using hfound r hr)
    | some r' =>
      have htag' : r'.tag = tag := by simpa using List.find?_some hfound
      have heq := List.inj_on_of_nodup_map htags (List.mem_of_find?_eq_some hfound) hr
        (htag'.trans htag.symm)
      rw [heq]

lemma SectionRange.Wide.ofNat_eq_iff {r : SectionRange} (h : r.Wide) {tag : Word} :
    (Fin.ofNat 4294967296 r.tag : Word) = tag ↔ r.tag = tag.val := by
  have := h.tag
  rw [Fin.ext_iff,Fin.val_ofNat,Nat.mod_eq_of_lt (by omega)]

lemma words_nodup (htags : (layout.sections.map SectionRange.tag).Nodup)
    (hwide : ∀ r ∈ layout.sections, r.Wide) :
    (layout.sections.map fun r => (Fin.ofNat 4294967296 r.tag : Word)).Nodup := by
  apply List.Nodup.of_map Fin.val
  rw [List.map_map]
  refine (List.map_congr_left fun r hr => ?_) ▸ htags
  exact ((hwide r hr).ofNat_eq_iff.mp rfl)

/-- So does a container that was parsed. -/
lemma find?_sectionsOf (htags : (layout.sections.map SectionRange.tag).Nodup)
    (hwide : ∀ r ∈ layout.sections, r.Wide) {tag : Word} {payload : Bytes} :
    (sectionsOf data layout).find? tag = some payload ↔
      ∃ r ∈ layout.sections, r.tag = tag.val ∧ r.slice data = payload := by
  have hkeys := words_nodup htags hwide
  rw [sectionsOf,OrdMap.find?_foldl_insert _ _ hkeys]
  simp only [OrdMap.find?_empty,reduceCtorEq,false_and,or_false]
  apply exists_congr
  intro r
  apply and_congr_right
  intro hr
  rw [(hwide r hr).ofNat_eq_iff]

end lookups

/-- Whatever is handed out of an accepted file lies in its payload area. -/
structure SafeReads (data : Bytes) (layout : ContainerLayout) : Prop where
  raw : ∀ tag payload, (ContainerView.mk data layout).getRaw tag = some payload →
    ∃ r ∈ layout.sections, r.tag = tag ∧ payload = r.slice data ∧ payload.length = r.length ∧
      r.finish ≤ data.length - kTrailerBytes
  parsed : ∀ tag payload, (sectionsOf data layout).find? tag = some payload →
    ∃ r ∈ layout.sections, r.tag = tag.val ∧ payload = r.slice data ∧ payload.length = r.length ∧
      r.finish ≤ data.length - kTrailerBytes

lemma SafeLayout.reads {data : Bytes} {layout : ContainerLayout}
    (h : SafeLayout data layout.sections) : SafeReads data layout := by
  constructor
  · intro tag payload hraw
    obtain ⟨r,hr,htag,rfl⟩ := (getRaw_eq_some h.tags).mp hraw
    exact ⟨r,hr,htag,rfl,h.slices r hr,(h.within r hr).2⟩
  · intro tag payload hfound
    obtain ⟨r,hr,htag,rfl⟩ := (find?_sectionsOf h.tags h.wide).mp hfound
    exact ⟨r,hr,htag,rfl,h.slices r hr,(h.within r hr).2⟩

/-- The validation of a file accepts tables that are safe to read by only, and no step of it
wraps. -/
theorem validate64_sound (order : OffsetSort) {data : Bytes} (h : data.length < 2^64) :
    validateContainerLayout64 order data = validateContainerLayout order data ∧
      ∀ layout, validateContainerLayout64 order data = .ok layout →
        SafeLayout data layout.sections ∧ SafeReads data layout := by
  have heq := validate64_eq order h
  refine ⟨heq,?_⟩
  intro layout hlayout
  rw [heq] at hlayout
  have hsafe := validate_safe h hlayout
  exact ⟨hsafe,hsafe.reads⟩

open Container in
theorem validate64_byteBeforeEmpty : ∃ layout,
    validateContainerLayout64 longestFirst byteBeforeEmpty.serialize = .ok layout ∧
      layout.sections.length = 2 ∧ SafeLayout byteBeforeEmpty.serialize layout.sections := by
  have hsize : byteBeforeEmpty.serialize.length < 2^64 := by
    rw [serialize_length,body_length]
    decide
  have hemptyLast : byteBeforeEmpty.EmptyLast := by decide
  obtain ⟨heq,hsafe⟩ := validate64_sound longestFirst hsize
  have hlayout := (validate_serialize longestFirst byteBeforeEmpty (by decide) hsize).mpr
    ⟨hemptyLast.before longestFirst,rfl⟩
  rw [← heq] at hlayout
  refine ⟨_,hlayout,?_,(hsafe _ hlayout).1⟩
  rw [(longestFirst.perm _).length_eq,written,ranges_length]
  rfl

end RagRuntime.Store
