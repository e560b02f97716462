import RagRuntime.Base.Fallible
import RagRuntime.Core.Json
import RagRuntime.Ingestion.JobLogRun
import RagRuntime.Text.Tokenizer

/-! The JSON value of a job, member by member, and the job that is read out of one. -/
namespace RagRuntime.Core.Json
open RagRuntime.Base RagRuntime.Text

/-- An integer; of the values of the library that are equal to it, the one that is parsed. -/
def ofInt (i : ℤ) : Json := if 0 ≤ i then .unsigned i.toNat else .integer i

/-- The library keeps the members of an object in the order of their keys. -/
def ofMembers (members : List (Bytes × Json)) : Json :=
  .object (members.foldl (fun m e => m.emplace e.1 e.2) (∅ : OrdMap Bytes Json)).entries

/-- `at` of the source. -/
def member (name : String) (j : Json) : Except String Json :=
  if j.isObject = false then
    .error ("[json.exception.type_error.304] cannot use at() with " ++ j.typeName)
  else
    match j.find? (latin name) with
    | none => .error ("[json.exception.out_of_range.403] key '" ++ name ++ "' not found")
    | some member => .ok member

/-- Numbers of either kind are compared by their value. -/
def isInt (i : ℤ) : Json → Bool
  | unsigned n => (n : ℤ) = i
  | integer k => k = i
  | float q => q = i
  | _ => false

/-- An `int64_t`. -/
def getInt64 (j : Json) : Except String ℤ :=
  j.getInteger.map fun i : ℤ => (i + 2^63) % 2^64 - 2^63

def getArray {α : Type} (get : Json → Except String α) : Json → Except String (List α)
  | array items => items.mapM get
  | j => mismatch "array" j

/-- A component of a vector; infinities have no counterpart here. -/
def getComponent (j : Json) : Except String ℚ := do
  match ← j.getFloat with
  | some q => .ok q
  | none => .error "component is not finite"

/-- A map of strings. -/
def getStrings : Json → Except String Metadata
  | object members => members.foldlM (fun m e => do
      let s ← e.2.getString
      return m.emplace e.1 s) ∅
  | j => mismatch "object" j

def ofStrings (m : Metadata) : Json := .object (m.entries.map fun e => (e.1,.string e.2))

/-- The values that a parser makes: a number that is negative or not, members in the order of their
keys, and numbers that fit the types of the library. -/
inductive Canonical : Json → Prop
  | null : Canonical .null
  | boolean (b : Bool) : Canonical (.boolean b)
  | unsigned {n : ℕ} (h : n < 2^64) : Canonical (.unsigned n)
  | integer {i : ℤ} (hneg : i < 0) (h : -2^63 ≤ i) : Canonical (.integer i)
  | float {q : ℚ} (h : Single.IsFloat q) : Canonical (.float q)
  | string (s : Bytes) : Canonical (.string s)
  | array {items : List Json} (h : ∀ v ∈ items, Canonical v) : Canonical (.array items)
  | object {members : List (Bytes × Json)} (hsorted : (members.map Prod.fst).Pairwise (· < ·))
    (h : ∀ e ∈ members, Canonical e.2) : Canonical (.object members)

section
variable {l : List (Bytes × Json)} {k : Bytes} {v : Json}

lemma find?_object (m : OrdMap Bytes Json) (k : Bytes) :
    (object m.entries).find? k = m.find? k := by
  unfold find? OrdMap.find?
  dsimp only
  induction m.entries with
  | nil => rfl
  | cons e rest ih =>
    unfold OrdMap.lookupEntries
    split_ifs with h
    · rw [List.find?_cons_of_pos (by simpa using h.symm)]
      rfl
    · rw [List.find?_cons_of_neg (by simpa using Ne.symm h)]
      exact ih

/-- Members with different keys are all kept. -/
lemma find?_ofMembers (hl : (l.map Prod.fst).Nodup) :
    (ofMembers l).find? k = some v ↔ (k,v) ∈ l := by
  have hinsert := OrdMap.foldl_emplace_eq hl (m := ∅) fun e _ => rfl
  rw [ofMembers,find?_object,hinsert,OrdMap.find?_foldl_insert Prod.fst Prod.snd hl]
  simp only [OrdMap.find?_empty,reduceCtorEq,false_and,or_false]
  constructor
  · rintro ⟨e,he,rfl,rfl⟩
    exact he
  · exact fun h => ⟨(k,v),h,rfl,rfl⟩

lemma find?_ofMembers_none (hl : (l.map Prod.fst).Nodup) (h : k ∉ l.map Prod.fst) :
    (ofMembers l).find? k = none := by
  apply Option.eq_none_iff_forall_not_mem.mpr
  intro v hv
  exact h (List.mem_map_of_mem ((find?_ofMembers hl).mp hv))

lemma isObject_ofMembers (l : List (Bytes × Json)) : (ofMembers l).isObject = true := rfl

lemma member_ofMembers {name : String} (hl : (l.map Prod.fst).Nodup) (i : ℕ)
    (h : l[i]? = some (latin name,v)) : (ofMembers l).member name = .ok v := by
  unfold member
  rw [isObject_ofMembers,if_neg (by simp),(find?_ofMembers hl).mpr (List.mem_of_getElem? h)]

lemma value_ofMembers {α : Type} {name : String} (hl : (l.map Prod.fst).Nodup) (i : ℕ)
    (h : l[i]? = some (latin name,v)) (get : Json → Except String α) (default : α) :
    (ofMembers l).value get (latin name) default = get v := by
  unfold value
  rw [isObject_ofMembers,if_neg (by simp),(find?_ofMembers hl).mpr (List.mem_of_getElem? h)]

end

section
variable {α : Type} {get : Json → Except String α} {f : α → Json}

lemma getArray_map {items : List α} (h : ∀ a ∈ items, get (f a) = .ok a) :
    getArray get (.array (items.map f)) = .ok items := mapM_map h

end

lemma getComponent_float {q : ℚ} (h : Single.IsFloat q) : getComponent (.float q) = .ok q := by
  have hfloat : getFloat (.float q) = .ok (some q) := congrArg Except.ok (Single.round_of_isFloat h)
  unfold getComponent
  rw [hfloat]
  rfl

lemma getUnsigned_unsigned {width n : ℕ} (h : n < 2^width) :
    getUnsigned width (.unsigned n) = .ok n := by
  have hmod : ((n : ℤ) % (2 : ℤ)^width).toNat = n := by
    rw [Int.emod_eq_of_lt (Int.natCast_nonneg n) (by exact_mod_cast h),Int.toNat_natCast]
  change Except.ok ((n : ℤ) % (2 : ℤ)^width).toNat = _
  rw [hmod]

lemma getInteger_ofInt (i : ℤ) : getInteger (.ofInt i) = .ok i := by
  unfold ofInt
  split_ifs with h
  · exact congrArg Except.ok (Int.toNat_of_nonneg h)
  · rfl

lemma getInt64_ofInt {i : ℤ} (hlow : -2^63 ≤ i) (hhigh : i < 2^63) :
    getInt64 (.ofInt i) = .ok i := by
  have hmod : (i + 2^63) % 2^64 - 2^63 = i := by omega
  unfold getInt64
  rw [getInteger_ofInt]
  exact congrArg Except.ok hmod

/-- The strings of a map come back, whatever has been read already. -/
lemma getStrings_ofStrings (m : Metadata) : getStrings (.ofStrings m) = .ok m := by
  have hfold : ∀ (entries : List (Bytes × Bytes)) (acc : Metadata),
      (entries.map fun e => (e.1,Json.string e.2)).foldlM (fun (m : Metadata) e => do
        let s ← e.2.getString
        return m.emplace e.1 s) acc =
      (.ok (entries.foldl (fun m e => m.emplace e.1 e.2) acc) : Except String Metadata) := by
    intro entries
    induction entries with
    | nil => exact fun acc => rfl
    | cons e entries ih => exact fun acc => ih _
  have hkeys : (m.entries.map Prod.fst).Nodup := m.keys_nodup
  change List.foldlM _ _ _ = _
  rw [hfold,OrdMap.foldl_emplace_eq hkeys fun e _ => rfl,
    OrdMap.foldl_insert_entries (List.Perm.refl _)]

end RagRuntime.Core.Json

namespace RagRuntime.Ingestion
open RagRuntime.Base RagRuntime.Core RagRuntime.Backend RagRuntime.Store RagRuntime.Text

/-- The library: the text of a value, and the value of a text. Both fail with the text of an
exception. -/
structure JsonLibrary where
  dump : Json → Except String Bytes
  parse : Bytes → Except String Json

/-- A text that is written for a value is parsed into it. -/
def JsonLibrary.Inverse (lib : JsonLibrary) : Prop :=
  ∀ v text, v.Canonical → lib.dump v = .ok text → lib.parse text = .ok v

def chunkMembers (chunk : PreparedChunk) : List (Bytes × Json) :=
  [(latin "key",.string chunk.key),
    (latin "ordinal",.unsigned chunk.ordinal),
    (latin "text",.string chunk.text),
    (latin "indexed_text",.string chunk.indexedText),
    (latin "context",.string chunk.context),
    (latin "start_line",.unsigned chunk.startLine),
    (latin "end_line",.unsigned chunk.endLine),
    (latin "embedding",.array (chunk.embedding.map .float))]

def preparedMembers (document : PreparedDocument) : List (Bytes × Json) :=
  [(latin "key",.string document.key),
    (latin "title",.string document.title),
    (latin "content",.string document.content),
    (latin "metadata",.ofStrings document.metadata),
    (latin "content_hash",.string document.contentHash),
    (latin "chunking_fingerprint",.string document.chunkingFingerprint),
    (latin "embedding_identity",.string document.embeddingIdentity),
    (latin "chunks",.array (document.chunks.map fun chunk => .ofMembers (chunkMembers chunk)))]

/-- `prepared_json` of the source. -/
def preparedJson (document : PreparedDocument) : Json := .ofMembers (preparedMembers document)

def errorMembers (e : JobError) : List (Bytes × Json) :=
  [(latin "code",.ofInt (errorCodes.idxOf e.code)),(latin "message",.string e.message)]

/-- The members that every job has. -/
def fixedMembers (job : IngestionJob) : List (Bytes × Json) :=
  [(latin "version",.ofInt kJobVersion),
    (latin "id",.string job.id),
    (latin "operation",.ofInt (operations.idxOf job.operation)),
    (latin "document",.string job.input.document),
    (latin "title",.string job.input.title),
    (latin "content",.string job.input.content),
    (latin "metadata",.ofStrings job.input.metadata),
    (latin "revision",.unsigned job.revision),
    (latin "content_hash",.string job.contentHash),
    (latin "status",.ofInt (statuses.idxOf job.status)),
    (latin "created_at_ms",.ofInt job.createdAtMs),
    (latin "updated_at_ms",.ofInt job.updatedAtMs)]

def optionalMembers (job : IngestionJob) : List (Bytes × Json) :=
  (job.error.map fun e => (latin "error",Json.ofMembers (errorMembers e))).toList ++
    (job.prepared.map fun document => (latin "prepared",preparedJson document)).toList ++
    (job.mutationApplied.map fun applied => (latin "mutation_applied",Json.boolean applied)).toList

/-- `encode` of the source, before it is dumped. -/
def encode (job : IngestionJob) : Json := .ofMembers (fixedMembers job ++ optionalMembers job)

/-- A member that has to be there. -/
def field {α : Type} (get : Json → Except String α) (name : String) (j : Json) :
    Except String α := do
  get (← j.member name)

def parseChunk (value : Json) : Except String PreparedChunk := do
  let key ← field Json.getString "key" value
  let ordinal ← field (Json.getUnsigned 64) "ordinal" value
  let text ← field Json.getString "text" value
  let indexedText ← field Json.getString "indexed_text" value
  let context ← field Json.getString "context" value
  let startLine ← field (Json.getUnsigned 32) "start_line" value
  let endLine ← field (Json.getUnsigned 32) "end_line" value
  let embedding ← field (Json.getArray Json.getComponent) "embedding" value
  if embedding.length > kMaxVectorDimension then .error "job embedding dimension is invalid"
  else .ok ⟨key,ordinal,text,indexedText,context,startLine,endLine,embedding⟩

def parseChunks : Json → Except String (List PreparedChunk)
  | .array items =>
    if items.length > kMaxChunks then .error "job prepared chunk count is invalid"
    else items.mapM parseChunk
  | _ => .error "job prepared chunk count is invalid"

def parsePrepared (value : Json) : Except String PreparedDocument := do
  let key ← field Json.getString "key" value
  let title ← field Json.getString "title" value
  let content ← field Json.getString "content" value
  let metadata ← field Json.getStrings "metadata" value
  let contentHash ← field Json.getString "content_hash" value
  let chunkingFingerprint ← field Json.getString "chunking_fingerprint" value
  let embeddingIdentity ← value.value Json.getString (latin "embedding_identity") []
  let chunks ← field parseChunks "chunks" value
  return ⟨key,title,content,metadata,contentHash,chunkingFingerprint,embeddingIdentity,chunks⟩

/-- An enumerator by its number. -/
def checked {α : Type} (values : List α) (code : ℤ) (what : String) : Except String α :=
  match enumerator values code with
  | none => .error what
  | some a => .ok a

def parseError (value : Json) : Except String JobError := do
  let code ← field Json.getInt "code" value
  let code ← checked errorCodes code "job error code is invalid"
  let message ← field Json.getString "message" value
  return ⟨code,message⟩

/-- A member that may be absent. -/
def optional {α : Type} (get : Json → Except String α) (name : String) (value : Json) :
    Except String (Option α) :=
  if value.contains (latin name) then (field get name value).map some else .ok none

/-- `decode` of the source, behind the parser. -/
def decode (value : Json) : Except String IngestionJob := do
  if !(← value.member "version").isInt kJobVersion then .error "unsupported job record version"
  else
    let id ← field Json.getString "id" value
    let operation ← value.value Json.getInt (latin "operation") 0
    let operation ← checked operations operation "job operation is invalid"
    let document ← field Json.getString "document" value
    let title ← field Json.getString "title" value
    let content ← field Json.getString "content" value
    let metadata ← field Json.getStrings "metadata" value
    let revision ← field (Json.getUnsigned 64) "revision" value
    let contentHash ← field Json.getString "content_hash" value
    let status ← field Json.getInt "status" value
    let status ← checked statuses status "job status is invalid"
    let createdAtMs ← field Json.getInt64 "created_at_ms" value
    let updatedAtMs ← field Json.getInt64 "updated_at_ms" value
    let error ← optional parseError "error" value
    let prepared ← optional parsePrepared "prepared" value
    let mutationApplied ← optional Json.getBoolean "mutation_applied" value
    if id = [] ∨ document = [] ∨ revision = 0 then .error "job identity is invalid"
    else .ok ⟨id,operation,⟨document,title,content,metadata⟩,revision,contentHash,status,
      createdAtMs,
      updatedAtMs,error,prepared,mutationApplied⟩

/-- The numbers of a prepared document fit the types of its members. -/
def PreparedFits (document : PreparedDocument) : Prop :=
  ∀ chunk ∈ document.chunks, chunk.ordinal < 2^64 ∧ chunk.startLine < 2^32 ∧ chunk.endLine < 2^32 ∧
    ∀ q ∈ chunk.embedding, Single.IsFloat q

/-- The numbers of a job fit the types of its members, and those of its embeddings are finite. -/
structure IngestionJob.Fits (job : IngestionJob) : Prop where
  revision : job.revision < 2^64
  createdAt : -2^63 ≤ job.createdAtMs ∧ job.createdAtMs < 2^63
  updatedAt : -2^63 ≤ job.updatedAtMs ∧ job.updatedAtMs < 2^63
  prepared : ∀ document ∈ job.prepared, PreparedFits document

section
variable {α : Type} {get : Json → Except String α} {l : List (Bytes × Json)} {v : Json}

lemma field_ofMembers {name : String} (hl : (l.map Prod.fst).Nodup) (i : ℕ)
    (h : l[i]? = some (latin name,v)) (get : Json → Except String α) :
    field get name (.ofMembers l) = get v := by
  unfold field
  rw [Json.member_ofMembers hl i h]
  rfl

lemma checked_idxOf {values : List α} [BEq α] {a : α} {what : String}
    (h : enumerator values (values.idxOf a) = some a) :
    checked values (values.idxOf a) what = .ok a := by
  unfold checked
  rw [h]

lemma getInt_ofInt {i : ℤ} (hlow : 0 ≤ i) (hhigh : i < 2^31) : (Json.ofInt i).getInt = .ok i := by
  have hmod : (i + 2^31) % 2^32 - 2^31 = i := by omega
  unfold Json.getInt
  rw [Json.getInteger_ofInt]
  exact congrArg Except.ok hmod

end

def chunkKeys : List Bytes := (["key","ordinal","text","indexed_text","context","start_line",
  "end_line","embedding"] : List String).map latin

lemma chunkKeys_nodup : chunkKeys.Nodup := by decide

lemma parseChunk_encoded {chunk : PreparedChunk} (hordinal : chunk.ordinal < 2^64)
    (hstart : chunk.startLine < 2^32) (hend : chunk.endLine < 2^32)
    (hfloats : ∀ q ∈ chunk.embedding, Single.IsFloat q)
    (hdimension : chunk.embedding.length ≤ kMaxVectorDimension) :
    parseChunk (.ofMembers (chunkMembers chunk)) = .ok chunk := by
  have hkeys : ((chunkMembers chunk).map Prod.fst).Nodup := chunkKeys_nodup
  have hembedding : Json.getArray Json.getComponent (.array (chunk.embedding.map .float)) =
      .ok chunk.embedding := Json.getArray_map fun q hq => Json.getComponent_float (hfloats q hq)
  unfold parseChunk
  rw [field_ofMembers hkeys 0 rfl,field_ofMembers hkeys 1 rfl,field_ofMembers hkeys 2 rfl,
    field_ofMembers hkeys 3 rfl,field_ofMembers hkeys 4 rfl,field_ofMembers hkeys 5 rfl,
    field_ofMembers hkeys 6 rfl,field_ofMembers hkeys 7 rfl,Json.getUnsigned_unsigned hordinal,
    Json.getUnsigned_unsigned hstart,Json.getUnsigned_unsigned hend,hembedding]
  exact if_neg (not_lt.mpr hdimension)

def preparedKeys : List Bytes := (["key","title","content","metadata","content_hash",
  "chunking_fingerprint","embedding_identity","chunks"] : List String).map latin

lemma preparedKeys_nodup : preparedKeys.Nodup := by decide

lemma parsePrepared_encoded {document : PreparedDocument} (hfits : PreparedFits document)
    (hcount : document.chunks.length ≤ kMaxChunks)
    (hdimension : ∀ chunk ∈ document.chunks, chunk.embedding.length ≤ kMaxVectorDimension) :
    parsePrepared (preparedJson document) = .ok document := by
  have hkeys : ((preparedMembers document).map Prod.fst).Nodup := preparedKeys_nodup
  have hchunks : parseChunks (.array (document.chunks.map fun chunk =>
      .ofMembers (chunkMembers chunk))) = .ok document.chunks := by
    have hfew : ¬(document.chunks.map fun chunk => Json.ofMembers (chunkMembers chunk)).length >
        kMaxChunks := by
      rw [List.length_map]
      exact not_lt.mpr hcount
    unfold parseChunks
    dsimp only
    rw [if_neg hfew]
    apply mapM_map
    intro chunk hmem
    obtain ⟨hordinal,hstart,hend,hfloats⟩ := hfits chunk hmem
    exact parseChunk_encoded hordinal hstart hend hfloats (hdimension chunk hmem)
  unfold parsePrepared preparedJson
  rw [field_ofMembers hkeys 0 rfl,field_ofMembers hkeys 1 rfl,field_ofMembers hkeys 2 rfl,
    field_ofMembers hkeys 3 rfl,field_ofMembers hkeys 4 rfl,field_ofMembers hkeys 5 rfl,
    Json.value_ofMembers hkeys 6 rfl,field_ofMembers hkeys 7 rfl,Json.getStrings_ofStrings,hchunks]
  rfl

lemma parseError_encoded (e : JobError) : parseError (.ofMembers (errorMembers e)) = .ok e := by
  have hkeys : ((errorMembers e).map Prod.fst).Nodup := by
    change (([("code" : String),"message"]).map latin).Nodup
    decide
  have hcode : (Json.ofInt (errorCodes.idxOf e.code)).getInt =
    .ok (errorCodes.idxOf e.code : ℤ) := by
    apply getInt_ofInt (Int.natCast_nonneg _)
    cases e.code <;> decide
  unfold parseError
  rw [field_ofMembers hkeys 0 rfl,field_ofMembers hkeys 1 rfl,hcode]
  change (checked errorCodes (errorCodes.idxOf e.code) _ >>= _) = _
  rw [checked_idxOf (enumerator_errorCode e.code)]
  rfl

/-- The member of a list that is there exactly if there is a value for it. -/
lemma optional_ofMembers {α : Type} {get : Json → Except String α} {f : α → Json} {o : Option α}
    {before after : List (Bytes × Json)} {name : String}
    (hl : ((before ++ ((o.map fun a => (latin name,f a)).toList ++ after)).map Prod.fst).Nodup)
    (hbefore : latin name ∉ before.map Prod.fst) (hafter : latin name ∉ after.map Prod.fst)
    (hget : ∀ a ∈ o, get (f a) = .ok a) :
    optional get name (.ofMembers (before ++ ((o.map fun a => (latin name,f a)).toList ++ after))) =
      .ok o := by
  unfold optional Json.contains
  cases o with
  | none =>
    have hmissing : latin name ∉ (before ++ ((Option.map (fun a => (latin name,f a))
        none).toList ++ after)).map Prod.fst := by
      rw [Option.map_none,Option.toList_none,List.nil_append,List.map_append,List.mem_append]
      exact not_or.mpr ⟨hbefore,hafter⟩
    rw [Json.find?_ofMembers_none hl hmissing]
    rfl
  | some a =>
    have hmem : (latin name,f a) ∈ before ++ ((Option.map (fun a => (latin name,f a))
        (some a)).toList ++ after) := by simp
    rw [(Json.find?_ofMembers hl).mpr hmem]
    obtain ⟨i,hi⟩ := List.mem_iff_getElem?.mp hmem
    rw [field_ofMembers hl i hi,hget a rfl]
    rfl

def fixedKeys : List Bytes := (["version","id","operation","document","title","content","metadata",
  "revision","content_hash","status","created_at_ms","updated_at_ms"] : List String).map latin

def optionalKeys : List Bytes := (["error","prepared","mutation_applied"] : List String).map latin

lemma keys_nodup : (fixedKeys ++ optionalKeys).Nodup := by decide

lemma optional_sublist {β : Type} (o : Option β) (k : Bytes) (f : β → Json) :
    (((o.map fun a => (k,f a)).toList).map Prod.fst).Sublist [k] := by
  cases o with
  | none => exact List.nil_sublist _
  | some a => exact List.Sublist.refl _

lemma members_nodup (job : IngestionJob) :
    ((fixedMembers job ++ optionalMembers job).map Prod.fst).Nodup := by
  refine List.Nodup.sublist ?_ keys_nodup
  unfold optionalMembers
  simp only [List.map_append]
  apply List.Sublist.append (List.Sublist.refl _)
  exact ((optional_sublist _ _ _).append (optional_sublist _ _ _)).append (optional_sublist _ _ _)

section
variable (job : IngestionJob)

lemma errorKeys :
    (((job.error.map fun e => (latin "error",Json.ofMembers (errorMembers e))).toList).map
    Prod.fst).Sublist [latin "error"] := optional_sublist _ _ _

lemma preparedKey : (((job.prepared.map fun document =>
    (latin "prepared",preparedJson document)).toList).map Prod.fst).Sublist [latin "prepared"] :=
  optional_sublist _ _ _

lemma appliedKey : (((job.mutationApplied.map fun applied =>
    (latin "mutation_applied",Json.boolean applied)).toList).map Prod.fst).Sublist
      [latin "mutation_applied"] := optional_sublist _ _ _

lemma optional_error : optional parseError "error" (encode job) = .ok job.error := by
  have hl := members_nodup job
  have hothers := (preparedKey job).append (appliedKey job)
  unfold encode
  unfold optionalMembers at hl ⊢
  rw [List.append_assoc] at hl ⊢
  refine optional_ofMembers hl (show latin "error" ∉ fixedKeys by decide) ?_
    fun e _ => parseError_encoded e
  rw [List.map_append]
  intro hmem
  have hname := hothers.mem hmem
  revert hname
  decide

lemma optional_prepared {job : IngestionJob} (hjob : job.Recordable) (hfits : job.Fits) :
    optional parsePrepared "prepared" (encode job) = .ok job.prepared := by
  have hl := members_nodup job
  have hothers := (List.Sublist.refl fixedKeys).append (errorKeys job)
  unfold encode
  unfold optionalMembers at hl ⊢
  rw [List.append_assoc,← List.append_assoc] at hl ⊢
  refine optional_ofMembers hl ?_ ?_ fun document hdocument =>
    parsePrepared_encoded (hfits.prepared document hdocument) (hjob.chunkCount document hdocument)
      (hjob.dimension document hdocument)
  · rw [List.map_append]
    intro hmem
    have hname := hothers.mem hmem
    revert hname
    decide
  · intro hmem
    have hname := (appliedKey job).mem hmem
    revert hname
    decide

lemma optional_applied :
    optional Json.getBoolean "mutation_applied" (encode job) = .ok job.mutationApplied := by
  have hl := members_nodup job
  have hothers := ((List.Sublist.refl fixedKeys).append (errorKeys job)).append (preparedKey job)
  unfold encode
  unfold optionalMembers at hl ⊢
  rw [← List.append_assoc,← List.append_assoc,← List.append_nil (Option.toList (Option.map _
    job.mutationApplied))] at hl ⊢
  refine optional_ofMembers hl ?_ List.not_mem_nil fun applied _ => rfl
  rw [List.map_append,List.map_append]
  intro hmem
  have hname := hothers.mem hmem
  revert hname
  decide

end

lemma isInt_ofInt (i : ℤ) : (Json.ofInt i).isInt i = true := by
  unfold Json.ofInt
  split_ifs with h
  · simpa [Json.isInt] using h
  · simp [Json.isInt]

/-- A job is read out of its value. -/
theorem decode_encode {job : IngestionJob} (hjob : job.Recordable) (hfits : job.Fits) :
    decode (encode job) = .ok job := by
  have hl := members_nodup job
  have hoperation : (Json.ofInt (operations.idxOf job.operation)).getInt =
      .ok (operations.idxOf job.operation : ℤ) := by
    apply getInt_ofInt (Int.natCast_nonneg _)
    cases job.operation <;> decide
  have hstatus : (Json.ofInt (statuses.idxOf job.status)).getInt =
      .ok (statuses.idxOf job.status : ℤ) := by
    apply getInt_ofInt (Int.natCast_nonneg _)
    cases job.status <;> decide
  have hidentity : ¬(job.id = [] ∨ job.input.document = [] ∨ job.revision = 0) := by
    rintro (h | h | h)
    · exact hjob.id h
    · exact hjob.document h
    · exact hjob.revision h
  have herror := optional_error job
  have hprepared := optional_prepared hjob hfits
  have happlied := optional_applied job
  unfold encode at *
  unfold decode
  rw [Json.member_ofMembers hl 0 rfl,field_ofMembers hl 1 rfl,Json.value_ofMembers hl 2 rfl,
    field_ofMembers hl 3 rfl,field_ofMembers hl 4 rfl,field_ofMembers hl 5 rfl,
    field_ofMembers hl 6 rfl,field_ofMembers hl 7 rfl,field_ofMembers hl 8 rfl,
    field_ofMembers hl 9 rfl,field_ofMembers hl 10 rfl,field_ofMembers hl 11 rfl,
    herror,hprepared,happlied,hoperation,hstatus,Json.getStrings_ofStrings,
    Json.getUnsigned_unsigned hfits.revision,
      Json.getInt64_ofInt hfits.createdAt.1 hfits.createdAt.2,
    Json.getInt64_ofInt hfits.updatedAt.1 hfits.updatedAt.2]
  simp only [bind,Except.bind,Json.getString,isInt_ofInt,checked_idxOf (enumerator_operation _),
    checked_idxOf (enumerator_status _),Bool.not_true,Bool.false_eq_true,if_false,if_neg hidentity]

/-- Members are kept as they are, in the order of their keys. -/
lemma canonical_ofMembers {l : List (Bytes × Json)} (hl : (l.map Prod.fst).Nodup)
    (h : ∀ e ∈ l, e.2.Canonical) : (Json.ofMembers l).Canonical := by
  refine .object (OrdMap.keys_ascending _) fun e he => ?_
  have hfound : (Json.ofMembers l).find? e.1 = some e.2 := by
    rw [Json.ofMembers,Json.find?_object]
    exact OrdMap.find?_eq_some.mpr he
  exact h (e.1,e.2) ((Json.find?_ofMembers hl).mp hfound)

lemma canonical_ofInt {i : ℤ} (hlow : -2^63 ≤ i) (hhigh : i < 2^63) : (Json.ofInt i).Canonical := by
  unfold Json.ofInt
  split_ifs with h
  · exact .unsigned (by omega)
  · exact .integer (not_le.mp h) hlow

lemma canonical_ofStrings (m : Metadata) : (Json.ofStrings m).Canonical := by
  refine .object ?_ ?_
  · have hkeys := m.keys_ascending
    rw [List.map_map]
    exact hkeys
  · intro e he
    obtain ⟨a,-,rfl⟩ := List.mem_map.mp he
    exact .string _

lemma canonical_chunk {chunk : PreparedChunk} (hordinal : chunk.ordinal < 2^64)
    (hstart : chunk.startLine < 2^32) (hend : chunk.endLine < 2^32)
    (hfloats : ∀ q ∈ chunk.embedding, Single.IsFloat q) :
    (Json.ofMembers (chunkMembers chunk)).Canonical := by
  refine canonical_ofMembers (l := chunkMembers chunk) chunkKeys_nodup ?_
  have hembedding : (Json.array (chunk.embedding.map .float)).Canonical := by
    apply Json.Canonical.array
    intro v hv
    obtain ⟨q,hq,rfl⟩ := List.mem_map.mp hv
    exact .float (hfloats q hq)
  simp only [chunkMembers,List.forall_mem_cons,List.not_mem_nil,false_implies,implies_true,and_true]
  exact ⟨.string _,.unsigned hordinal,.string _,.string _,.string _,.unsigned (by omega),
    .unsigned (by omega),hembedding⟩

lemma canonical_prepared {document : PreparedDocument} (hfits : PreparedFits document) :
    (preparedJson document).Canonical := by
  refine canonical_ofMembers (l := preparedMembers document) preparedKeys_nodup ?_
  have hchunks : (Json.array (document.chunks.map fun chunk =>
      .ofMembers (chunkMembers chunk))).Canonical := by
    apply Json.Canonical.array
    intro v hv
    obtain ⟨chunk,hmem,rfl⟩ := List.mem_map.mp hv
    obtain ⟨hordinal,hstart,hend,hfloats⟩ := hfits chunk hmem
    exact canonical_chunk hordinal hstart hend hfloats
  simp only [preparedMembers,List.forall_mem_cons,List.not_mem_nil,false_implies,implies_true,
    and_true]
  exact ⟨.string _,.string _,.string _,canonical_ofStrings _,.string _,.string _,.string _,hchunks⟩

lemma canonical_error (e : JobError) : (Json.ofMembers (errorMembers e)).Canonical := by
  have hcode : (errorCodes.idxOf e.code : ℤ) < 2^63 := by
    cases e.code <;> decide
  apply canonical_ofMembers (by
    change (([("code" : String),"message"]).map latin).Nodup
    decide)
  simp only [errorMembers,List.forall_mem_cons,List.not_mem_nil,false_implies,implies_true,and_true]
  exact ⟨canonical_ofInt (by omega) hcode,.string _⟩

lemma canonical_fixed {job : IngestionJob} (hfits : job.Fits) :
    ∀ e ∈ fixedMembers job, e.2.Canonical := by
  have hoperation : (operations.idxOf job.operation : ℤ) < 2^63 := by
    cases job.operation <;> decide
  have hstatus : (statuses.idxOf job.status : ℤ) < 2^63 := by
    cases job.status <;> decide
  simp only [fixedMembers,List.forall_mem_cons,List.not_mem_nil,false_implies,implies_true,and_true]
  exact ⟨canonical_ofInt (by decide) (by decide),.string _,canonical_ofInt (by omega) hoperation,
    .string _,.string _,.string _,canonical_ofStrings _,.unsigned hfits.revision,.string _,
    canonical_ofInt (by omega) hstatus,canonical_ofInt hfits.createdAt.1 hfits.createdAt.2,
    canonical_ofInt hfits.updatedAt.1 hfits.updatedAt.2⟩

/-- What is written for a job is what is parsed from its text. -/
lemma canonical_encode {job : IngestionJob} (hfits : job.Fits) : (encode job).Canonical := by
  apply canonical_ofMembers (members_nodup job)
  intro e he
  obtain he | he := List.mem_append.mp he
  · exact canonical_fixed hfits e he
  · unfold optionalMembers at he
    simp only [List.mem_append,Option.mem_toList,Option.map_eq_some_iff] at he
    obtain (⟨x,-,rfl⟩ | ⟨x,hx,rfl⟩) | ⟨x,-,rfl⟩ := he
    · exact canonical_error x
    · exact canonical_prepared (hfits.prepared x hx)
    · exact .boolean x

namespace JsonLibrary

def serializeIngestionJob (lib : JsonLibrary) (job : IngestionJob) : Result Bytes :=
  match lib.dump (encode job) with
  | .error what => fail .invalidArgument ("job record serialization failed: " ++ what)
  | .ok payload =>
    if payload.length > kMaxWalRecordBytes then
      fail .invalidArgument "job record exceeds configured limit"
    else .ok payload

def deserializeIngestionJob (lib : JsonLibrary) (payload : Bytes) : Result IngestionJob :=
  match lib.parse payload >>= decode with
  | .error what => fail .corruptIndex ("job record is invalid: " ++ what)
  | .ok job => .ok job

/-- A job that is serialized is deserialized again, if it passes the checks on the way back. -/
theorem deserializeIngestionJob_serialize {lib : JsonLibrary} (hlib : lib.Inverse)
    {job : IngestionJob}
    (hjob : job.Recordable) (hfits : job.Fits) {text : Bytes}
    (h : lib.serializeIngestionJob job = .ok text) :
    lib.deserializeIngestionJob text = .ok job := by
  unfold serializeIngestionJob at h
  cases hdump : lib.dump (encode job) with
  | error what =>
    rw [hdump] at h
    cases h
  | ok payload =>
    rw [hdump] at h
    dsimp only at h
    split_ifs at h
    · cases h
    · cases h
      unfold deserializeIngestionJob
      rw [hlib _ _ (canonical_encode hfits) hdump]
      change (match decode (encode job) with | .error what => _ | .ok job => _) = _
      rw [decode_encode hjob hfits]

/-- A library that knows one value and its text. -/
def knowing (v : Json) (text : Bytes) : JsonLibrary where
  dump w := if w = v then .ok text else .error "unknown value"
  parse t := if t = text then .ok v else .error "unknown text"

lemma knowing_inverse (v : Json) (text : Bytes) : (knowing v text).Inverse := by
  intro w t _ hdump
  simp only [knowing] at hdump ⊢
  split_ifs at hdump with hw
  cases hdump
  rw [if_pos rfl,hw]

lemma serialize_knowing (job : IngestionJob) {text : Bytes} (h : text.length ≤ kMaxWalRecordBytes) :
    (knowing (encode job) text).serializeIngestionJob job = .ok text := by
  unfold serializeIngestionJob knowing
  dsimp only
  rw [if_pos rfl]
  exact if_neg (not_lt.mpr h)

/-- A job whose publication failed, with what has been prepared of it. -/
def unpublishedJob : IngestionJob :=
  ⟨latin "j",.upsert,⟨latin "d",latin "t",latin "x",OrdMap.insert ∅ (latin "k") (latin "v")⟩,2,
    latin "h",.failed,-1,7,some ⟨.ioError,latin "disk full"⟩,
    some ⟨latin "d",latin "t",latin "x",OrdMap.insert ∅ (latin "k") (latin "v"),latin "h",latin "f",
      latin "e",[⟨latin "c",0,latin "x",latin "x",[],1,1,[1/2,-1]⟩]⟩,none⟩

def unpublishedText : Bytes := ascii
  ("\x7b\"content\":\"x\",\"content_hash\":\"h\",\"created_at_ms\":-1,\"document\":\"d\"," ++
    "\"error\":\x7b\"code\":4,\"message\":\"disk full\"\x7d,\"id\":\"j\"," ++
    "\"metadata\":\x7b\"k\":\"v\"\x7d,\"operation\":0," ++
    "\"prepared\":\x7b\"chunking_fingerprint\":\"f\",\"chunks\":[\x7b\"context\":\"\"," ++
    "\"embedding\":[0.5,-1.0],\"end_line\":1,\"indexed_text\":\"x\",\"key\":\"c\",\"ordinal\":0," ++
    "\"start_line\":1,\"text\":\"x\"\x7d],\"content\":\"x\",\"content_hash\":\"h\"," ++
    "\"embedding_identity\":\"e\",\"key\":\"d\",\"metadata\":\x7b\"k\":\"v\"\x7d," ++
    "\"title\":\"t\"\x7d,\"revision\":2,\"status\":5,\"title\":\"t\"," ++
    "\"updated_at_ms\":7,\"version\":1\x7d").toList

/-- A job with an error and a prepared document, and its text. -/
theorem unpublishedJob_roundTrip :
    (knowing (encode unpublishedJob) unpublishedText).deserializeIngestionJob unpublishedText =
      .ok unpublishedJob := by
  have hdocument : ∀ d ∈ unpublishedJob.prepared, d.chunks.length ≤ kMaxChunks ∧
      ∀ chunk ∈ d.chunks, chunk.embedding.length ≤ kMaxVectorDimension ∧ chunk.ordinal < 2^64 ∧
        chunk.startLine < 2^32 ∧ chunk.endLine < 2^32 ∧
        ∀ q ∈ chunk.embedding, q ∈ ([1/2,-1] : Vec) := by
    decide +kernel
  have hfloat : ∀ q ∈ ([1/2,-1] : Vec), Single.IsFloat q := by
    intro q hq
    simp only [List.mem_cons,List.not_mem_nil,or_false] at hq
    obtain rfl | rfl := hq
    · exact ⟨0x3F000000,by decide,by decide +kernel⟩
    · exact ⟨0xBF800000,by decide,by decide +kernel⟩
  apply deserializeIngestionJob_serialize (knowing_inverse _ _)
  · exact ⟨by decide,by decide,by decide,fun d hd => (hdocument d hd).1,
      fun d hd chunk hchunk => ((hdocument d hd).2 chunk hchunk).1⟩
  · refine ⟨by decide,by decide,by decide,fun d hd chunk hchunk => ?_⟩
    obtain ⟨-,hordinal,hstart,hend,hfloats⟩ := (hdocument d hd).2 chunk hchunk
    exact ⟨hordinal,hstart,hend,fun q hq => hfloat q (hfloats q hq)⟩
  · apply serialize_knowing
    simp only [unpublishedText,ascii,kMaxWalRecordBytes,List.length_map,String.toList_append,
      List.length_append,String.reduceToList,List.length_cons,List.length_nil]
    omega

end JsonLibrary
end RagRuntime.Ingestion
