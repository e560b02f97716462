import RagRuntime.Dense.Sidecar
import RagRuntime.Store.ContainerFile

/-! The file of the exact sidecar: how it is written, and how its matrix is searched in place. -/
namespace RagRuntime.Dense
open RagRuntime.Base RagRuntime.Core RagRuntime.Backend RagRuntime.Store Decoder

def kImplementation : Bytes := ascii ['n','a','t','i','v','e']
def kAlgorithm : Bytes := ascii ['e','x','a','c','t']

section writing

def sidecarMetadata (fingerprint : Bytes) (rows dimension : ℕ) : Bytes :=
  leBytes 4 kSidecarVersion ++ (str kImplementation ++ (str kAlgorithm ++ (str fingerprint ++
    (leBytes 8 rows ++ leBytes 8 dimension))))

def putKey (_ : ℕ) (row : VectorRecord) : Bytes := str row.key

def sidecarKeys (source : List VectorRecord) : Bytes :=
  leBytes 8 source.length ++ encodeFrom putKey 0 source

def sidecarMatrix (source : List VectorRecord) : Bytes :=
  source.flatMap fun row => vectorBytes row.vector

def ExactSidecar.container (file : ExactSidecar) : Container :=
  (((Container.empty.put .«meta»
    (sidecarMetadata file.fingerprint file.rows.length file.dimension)).put .chunks
      (sidecarKeys file.rows)).put .embed (sidecarMatrix file.rows)).setFlags kHasEmbeddings

/-- The bytes that `write_exact_sidecar` hands to the file. -/
def writeExactSidecarFile (fingerprint : Bytes) (source : List VectorRecord) : Result Bytes := do
  let file ← writeExactSidecar fingerprint source
  return file.container.writeFile

end writing

/-- What ends a call early: an error, or an access outside of the mapped matrix. -/
inductive Stop where
  | failed (e : Error)
  | outside
  deriving DecidableEq

def Stop.lift {α : Type} : Result α → Except Stop α
  | .ok a => .ok a
  | .error e => .error (.failed e)

section rows

/-- Where a row starts, in the arithmetic of `std::size_t`. -/
def rowStart (dimension index : ℕ) : ℕ :=
  (UInt64.ofNat index*UInt64.ofNat dimension*4).toNat

/-- The copy of a row out of the matrix. -/
def readRow (matrix : Bytes) (dimension index : ℕ) : Option Bytes :=
  if rowStart dimension index + 4*dimension ≤ matrix.length then
    some ((matrix.drop (rowStart dimension index)).take (4*dimension))
  else none

/-- The numbers of a row; infinities and NaNs have no value. -/
def rowFloats : Bytes → List (Option ℚ)
  | a::b::c::d::rest => Single.ofBits (leValue [a,b,c,d])::rowFloats rest
  | _ => []

def rowVector (row : Bytes) : Vec := (rowFloats row).map fun x => x.getD 0

def normalizedRow (row : Bytes) : Bool :=
  (rowFloats row).all Option.isSome && normalizedDouble (rowVector row)

end rows

/-- The index over a mapped file. Its keys are its own, its matrix is the file's. -/
structure ExactMapping where
  mapping : ContainerView
  keys : List Bytes
  vectors : Bytes
  dimension : ℕ

namespace ExactMapping

/-- The fields of the metadata: how many rows there are, and their dimension. -/
def readFields (expectedFingerprint : Bytes) : Decoder Error (ℕ × ℕ) := do
  let e := corrupt "dense sidecar metadata is invalid"
  let version ← number e 4
  ensure e (version = kSidecarVersion)
  let implementation ← string e
  ensure e (implementation = kImplementation)
  let algorithm ← string e
  ensure e (algorithm = kAlgorithm)
  let fingerprint ← string e
  ensure e (fingerprint = expectedFingerprint)
  let rows ← number e 8
  let dimension ← number e 8
  return (rows,dimension)

def readMetadata (expectedFingerprint : Bytes) : Decoder Error (ℕ × ℕ) := do
  let found ← readFields expectedFingerprint
  ensure (corrupt "dense sidecar metadata is invalid") (found.1 ≤ kMaxChunks ∧
    found.2 ≤ kMaxVectorDimension ∧ (found.1 ≠ 0 → found.2 ≠ 0))
  return found

/-- A key and its row. -/
def readKeyedRow (matrix : Bytes) (dimension index : ℕ) (keys : List Bytes) :
    Decoder Stop (List Bytes) := do
  let e := Stop.failed (corrupt "dense sidecar key is invalid")
  let key ← string e
  ensure e (key ≠ [] ∧ key ∉ keys)
  match readRow matrix dimension index with
  | none => fun _ => .error .outside
  | some row => do
    ensure (.failed (corrupt "dense sidecar vector is invalid")) (normalizedRow row = true)
    return keys ++ [key]

def readKeys (matrix : Bytes) (rows dimension : ℕ) : Decoder Stop (List Bytes) := do
  let e := Stop.failed (corrupt "dense sidecar key count is invalid")
  let count ← number e 8
  ensure e (count = rows)
  repeatFrom (readKeyedRow matrix dimension) rows 0 []

/-- The products of the size check are those of `std::uint64_t`. -/
def checkMatrix (size rows dimension : ℕ) : Result Unit :=
  if dimension ≠ 0 ∧ rows > size/4/dimension then
    fail .corruptIndex "dense sidecar matrix is truncated"
  else if size ≠ (UInt64.ofNat rows*UInt64.ofNat dimension*4).toNat then
    fail .corruptIndex "dense sidecar matrix size is invalid"
  else .ok ()

/-- Open the sections of a mapped file. -/
def openSections (view : ContainerView) (metadata keys vectors expectedFingerprint : Bytes) :
    Except Stop ExactMapping :=
  match (readMetadata expectedFingerprint).whole (corrupt "dense sidecar metadata is invalid")
      metadata with
  | .error e => .error (.failed e)
  | .ok (rows,dimension) =>
    match checkMatrix vectors.length rows dimension with
    | .error e => .error (.failed e)
    | .ok () =>
      match (readKeys vectors rows dimension).whole
          (.failed (corrupt "dense sidecar has trailing keys")) keys with
      | .error stop => .error stop
      | .ok keys => .ok ⟨view,keys,vectors,dimension⟩

/-- Open a file of these bytes. -/
def «open» (order : OffsetSort) (data expectedFingerprint : Bytes) : Except Stop ExactMapping :=
  if data = [] then Stop.lift (fail .corruptIndex "invalid container file size")
  else
    match ContainerView.openFile order data with
    | .error e => .error (.failed e)
    | .ok view =>
      match view.get .«meta»,view.get .chunks,view.get .embed with
      | some metadata,some keys,some vectors =>
        if view.flags &&& kHasEmbeddings.val = 0 then
          Stop.lift (fail .corruptIndex "dense sidecar sections are invalid")
        else openSections view metadata keys vectors expectedFingerprint
      | _,_,_ => Stop.lift (fail .corruptIndex "dense sidecar sections are invalid")

variable (index : ExactMapping)

/-- The candidate of a key in the table. -/
def candidate (query : Vec) (e : Bytes × ℕ) : Except Stop Candidate :=
  match readRow index.vectors index.dimension e.2 with
  | none => .error .outside
  | some row => .ok ⟨e.1,dot query (rowVector row),.cosine⟩

def search (query : Vec) (allowed : List Bytes) (k : ℕ) : Except Stop CandidateList :=
  if k = 0 ∨ index.keys = [] then .ok []
  else if query.length ≠ index.dimension then
    Stop.lift (fail .dimensionMismatch "query dimension does not match dense sidecar")
  else if normalizedDouble query = false then
    Stop.lift (fail .invalidArgument "dense query is not unit normalized")
  else do
    let candidates ← (index.keys.zipIdx.filter fun e => allowed = [] ∨ e.1 ∈ allowed).mapM
      (index.candidate query)
    return topK CandidateOrder k candidates

end ExactMapping

section layout

lemma rowStart_eq {dimension index : ℕ} (hdimension : dimension ≤ kMaxVectorDimension)
    (hindex : index ≤ kMaxChunks) : rowStart dimension index = 4*dimension*index := by
  simp only [kMaxVectorDimension,kMaxChunks] at hdimension hindex
  have hcells : index*dimension ≤ 100000000*1000000 := Nat.mul_le_mul hindex hdimension
  have hd : (UInt64.ofNat dimension).toNat = dimension := toNat_ofNat64 (by omega)
  have hi : (UInt64.ofNat index).toNat = index := toNat_ofNat64 (by omega)
  have hprod : (UInt64.ofNat index*UInt64.ofNat dimension).toNat = index*dimension := by
    rw [toNat_mul64 (by rw [hi,hd]; omega),hi,hd]
  have hfour : (4 : UInt64).toNat = 4 := rfl
  rw [rowStart,toNat_mul64 (by rw [hprod,hfour]; omega),hprod,hfour]
  ring

lemma length_vectorBytes (v : Vec) : (vectorBytes v).length = 4*v.length := by
  induction v with
  | nil => rfl
  | cons x v ih =>
    rw [vectorBytes,List.flatMap_cons,List.length_append,leBytes_length,List.length_cons]
    change 4 + (vectorBytes v).length = _
    rw [ih]
    ring

lemma rowFloats_vectorBytes {v : Vec} (h : ∀ x ∈ v, Single.IsFloat x) :
    rowFloats (vectorBytes v) = v.map some := by
  induction v with
  | nil => rfl
  | cons x v ih =>
    obtain ⟨hx,hrest⟩ := List.forall_mem_cons.mp h
    obtain ⟨hvalue,hbits⟩ := Single.ofBits_bits hx
    have hle : leValue (leBytes 4 (Single.bits x)) = Single.bits x :=
      leValue_leBytes_of_lt (by omega)
    have hhead : rowFloats (leBytes 4 (Single.bits x) ++ vectorBytes v) =
        Single.ofBits (leValue (leBytes 4 (Single.bits x)))::rowFloats (vectorBytes v) := rfl
    rw [vectorBytes,List.flatMap_cons]
    change rowFloats (leBytes 4 (Single.bits x) ++ vectorBytes v) = _
    rw [hhead,hle,hvalue,ih hrest,List.map_cons]

lemma rowVector_vectorBytes {v : Vec} (h : ∀ x ∈ v, Single.IsFloat x) :
    rowVector (vectorBytes v) = v := by
  rw [rowVector,rowFloats_vectorBytes h,List.map_map]
  exact List.map_id v

lemma normalizedRow_vectorBytes {v : Vec} (h : ∀ x ∈ v, Single.IsFloat x) :
    normalizedRow (vectorBytes v) = normalizedDouble v := by
  have hfinite : (v.map some).all Option.isSome = true := by simp
  rw [normalizedRow,rowVector_vectorBytes h,rowFloats_vectorBytes h,hfinite,Bool.true_and]

lemma length_sidecarMatrix {source : List VectorRecord} {dimension : ℕ}
    (h : ∀ row ∈ source, row.vector.length = dimension) :
    (sidecarMatrix source).length = 4*dimension*source.length := by
  induction source with
  | nil => rfl
  | cons row source ih =>
    obtain ⟨hrow,hrest⟩ := List.forall_mem_cons.mp h
    rw [sidecarMatrix,List.flatMap_cons,List.length_append,length_vectorBytes,hrow]
    change _ + (sidecarMatrix source).length = _
    rw [ih hrest,List.length_cons]
    ring

/-- Each row is found where the reader looks for it. -/
lemma readRow_sidecarMatrix {before rest : List VectorRecord} {row : VectorRecord} {dimension : ℕ}
    (hrows : ∀ r ∈ before ++ row::rest, r.vector.length = dimension)
    (hdimension : dimension ≤ kMaxVectorDimension) (hindex : before.length ≤ kMaxChunks) :
    readRow (sidecarMatrix (before ++ row::rest)) dimension before.length =
      some (vectorBytes row.vector) := by
  have hbefore : (sidecarMatrix before).length = 4*dimension*before.length :=
    length_sidecarMatrix fun r hr => hrows r (List.mem_append_left _ hr)
  have hrow : (vectorBytes row.vector).length = 4*dimension := by
    rw [length_vectorBytes,hrows row (by simp)]
  have hsplit : sidecarMatrix (before ++ row::rest) =
      sidecarMatrix before ++ (vectorBytes row.vector ++ sidecarMatrix rest) := by
    simp only [sidecarMatrix,List.flatMap_append,List.flatMap_cons]
  have hroom : rowStart dimension before.length + 4*dimension ≤
      (sidecarMatrix (before ++ row::rest)).length := by
    rw [rowStart_eq hdimension hindex,hsplit,List.length_append,List.length_append,hbefore,hrow]
    omega
  rw [readRow,if_pos hroom,rowStart_eq hdimension hindex,hsplit,← hbefore,List.drop_left,← hrow,
    List.take_left]

end layout

namespace ExactMapping

/-- What an opened matrix is known to be. -/
structure Bounded (index : ExactMapping) : Prop where
  rows : index.keys.length ≤ kMaxChunks
  dimension : index.dimension ≤ kMaxVectorDimension
  size : index.vectors.length = 4*index.dimension*index.keys.length

lemma checkMatrix_ok {size rows dimension : ℕ} (hrows : rows ≤ kMaxChunks)
    (hdimension : dimension ≤ kMaxVectorDimension) (h : checkMatrix size rows dimension = .ok ()) :
    size = 4*dimension*rows := by
  unfold checkMatrix at h
  split_ifs at h with htruncated hsize
  · cases h
  · cases h
  · rw [← rowStart_eq hdimension hrows]
    exact not_ne_iff.mp hsize

/-- An access of a row that there is stays within the matrix. -/
lemma exists_row {matrix : Bytes} {rows dimension i : ℕ} (hrows : rows ≤ kMaxChunks)
    (hdimension : dimension ≤ kMaxVectorDimension) (hsize : matrix.length = 4*dimension*rows)
    (hi : i < rows) : rowStart dimension i + 4*dimension ≤ matrix.length := by
  have hcells : 4*dimension*(i+1) ≤ 4*dimension*rows := Nat.mul_le_mul_left _ hi
  rw [rowStart_eq hdimension (by omega),hsize]
  rw [Nat.mul_succ] at hcells
  exact hcells

/-- A decoder that never leaves the matrix. -/
def Inside {α : Type} (p : Decoder Stop α) : Prop := ∀ input, p input ≠ .error .outside

lemma Inside.bind {α β : Type} {p : Decoder Stop α} {f : α → Decoder Stop β} (hp : Inside p)
    (hf : ∀ a, Inside (f a)) : Inside (p >>= f) := by
  intro input h
  rw [bind_apply] at h
  cases hread : p input with
  | error e =>
    rw [hread] at h
    cases h
    exact hp input hread
  | ok found =>
    rw [hread] at h
    exact hf found.1 found.2 h

lemma inside_number (e : Error) (w : ℕ) : Inside (number (Stop.failed e) w) := by
  intro input h
  unfold number at h
  split at h <;> cases h

lemma inside_ensure (e : Error) (p : Prop) [Decidable p] : Inside (ensure (Stop.failed e) p) := by
  intro input h
  unfold ensure at h
  split_ifs at h
  cases h

lemma inside_string (e : Error) : Inside (string (Stop.failed e)) := by
  refine (inside_number e 4).bind ?_
  intro n input h
  unfold bytes at h
  split at h <;> cases h

lemma inside_pure {α : Type} (a : α) : Inside (pure a : Decoder Stop α) := by
  intro input h
  cases h

lemma inside_readKeyedRow {matrix : Bytes} {dimension i : ℕ} (keys : List Bytes)
    (h : rowStart dimension i + 4*dimension ≤ matrix.length) :
    Inside (readKeyedRow matrix dimension i keys) := by
  unfold readKeyedRow
  refine (inside_string _).bind fun key => (inside_ensure _ _).bind fun _ => ?_
  rw [readRow,if_pos h]
  exact (inside_ensure _ _).bind fun _ => inside_pure _

lemma inside_repeatFrom {matrix : Bytes} {dimension n first : ℕ} {keys : List Bytes}
    (h : ∀ i < first+n, rowStart dimension i + 4*dimension ≤ matrix.length) :
    Inside (repeatFrom (readKeyedRow matrix dimension) n first keys) := by
  induction n generalizing first keys with
  | zero => exact inside_pure _
  | succ n ih =>
    refine (inside_readKeyedRow keys (h first (by omega))).bind fun keys' => ih ?_
    intro i hi
    exact h i (by omega)

lemma inside_readKeys {matrix : Bytes} {rows dimension : ℕ}
    (h : ∀ i < rows, rowStart dimension i + 4*dimension ≤ matrix.length) :
    Inside (readKeys matrix rows dimension) := by
  refine (inside_number _ _).bind fun count => (inside_ensure _ _).bind fun _ =>
    inside_repeatFrom ?_
  intro i hi
  exact h i (by omega)

lemma yields_readMetadata (fingerprint : Bytes) : Yields (readMetadata fingerprint) fun found =>
    found.1 ≤ kMaxChunks ∧ found.2 ≤ kMaxVectorDimension := by
  unfold readMetadata
  exact (yields_true _).bind fun found _ => (yields_ensure _ _).bind fun _ h =>
    yields_pure ⟨h.1,h.2.1⟩

lemma yields_readKeyedRow {matrix : Bytes} {dimension i : ℕ} {keys : List Bytes} {n : ℕ}
    (h : keys.length = n) :
    Yields (readKeyedRow matrix dimension i keys) fun keys' => keys'.length = n+1 := by
  unfold readKeyedRow
  refine (yields_true _).bind fun key _ => (yields_true _).bind fun _ _ => ?_
  cases readRow matrix dimension i with
  | none =>
    intro input a rest hread
    cases hread
  | some row =>
    refine (yields_true _).bind fun _ _ => yields_pure ?_
    rw [List.length_append,h,List.length_singleton]

lemma yields_readKeys (matrix : Bytes) (rows dimension : ℕ) :
    Yields (readKeys matrix rows dimension) fun keys => keys.length = rows := by
  unfold readKeys
  refine (yields_true _).bind fun count _ => (yields_true _).bind fun _ _ => ?_
  have hread : Yields (repeatFrom (readKeyedRow matrix dimension) rows 0 []) fun keys =>
      keys.length = 0+rows :=
    yields_repeatFrom (fun n (keys : List Bytes) => keys.length = n)
      (fun n keys h => yields_readKeyedRow h) rfl
  rwa [Nat.zero_add] at hread

/-- Opening the sections of a file leaves no access outside, and what is opened is bounded. -/
lemma openSections_spec (view : ContainerView) (metadata keys vectors fingerprint : Bytes) :
    openSections view metadata keys vectors fingerprint ≠ .error .outside ∧
      ∀ index, openSections view metadata keys vectors fingerprint = .ok index →
        index.Bounded := by
  unfold openSections
  cases hmeta : (readMetadata fingerprint).whole (corrupt "dense sidecar metadata is invalid")
      metadata with
  | error e =>
    refine ⟨?_,?_⟩
    · intro h
      cases h
    · intro index h
      cases h
  | ok found =>
    obtain ⟨rows,dimension⟩ := found
    obtain ⟨hrows,hdimension⟩ := (yields_readMetadata fingerprint).whole hmeta
    dsimp only at hrows hdimension ⊢
    cases hcheck : checkMatrix vectors.length rows dimension with
    | error e =>
      refine ⟨?_,?_⟩
      · intro h
        cases h
      · intro index h
        cases h
    | ok u =>
      have hsize := checkMatrix_ok hrows hdimension hcheck
      have hinside : Inside (readKeys vectors rows dimension) :=
        inside_readKeys fun i hi => exists_row hrows hdimension hsize hi
      dsimp only
      cases hkeys : (readKeys vectors rows dimension).whole
          (.failed (corrupt "dense sidecar has trailing keys")) keys with
      | error stop =>
        refine ⟨?_,?_⟩
        · intro h
          cases h
          unfold Decoder.whole at hkeys
          cases hread : readKeys vectors rows dimension keys with
          | error stop =>
            rw [hread] at hkeys
            cases hkeys
            exact hinside keys hread
          | ok found =>
            rw [hread] at hkeys
            dsimp only at hkeys
            split_ifs at hkeys
            cases hkeys
        · intro index h
          cases h
      | ok read =>
        have hlength := (yields_readKeys vectors rows dimension).whole hkeys
        refine ⟨?_,?_⟩
        · intro h
          cases h
        · intro index h
          cases h
          exact ⟨hlength ▸ hrows,hdimension,hlength ▸ hsize⟩

/-- So does opening a file. -/
theorem open_spec (order : OffsetSort) (data fingerprint : Bytes) :
    «open» order data fingerprint ≠ .error .outside ∧
      ∀ index, «open» order data fingerprint = .ok index → index.Bounded := by
  have hfailed : ∀ e : Error, (Except.error (Stop.failed e) : Except Stop ExactMapping) ≠
      .error .outside ∧ ∀ index : ExactMapping, Except.error (Stop.failed e) = Except.ok index →
        index.Bounded := by
    intro e
    refine ⟨?_,?_⟩
    · intro h
      cases h
    · intro index h
      cases h
  unfold «open»
  split_ifs
  · exact hfailed _
  · cases ContainerView.openFile order data with
    | error e => exact hfailed e
    | ok view =>
      dsimp only
      split
      · split_ifs
        · exact hfailed _
        · exact openSections_spec view _ _ _ fingerprint
      · exact hfailed _

section search

variable {index : ExactMapping}

/-- The rows that a search sees. -/
def rows (index : ExactMapping) : List VectorRecord := index.keys.zipIdx.map fun e =>
  ⟨e.1,rowVector ((index.vectors.drop (rowStart index.dimension e.2)).take (4*index.dimension))⟩

lemma Bounded.exists_row (h : index.Bounded) {i : ℕ} (hi : i < index.keys.length) :
    rowStart index.dimension i + 4*index.dimension ≤ index.vectors.length :=
  ExactMapping.exists_row h.rows h.dimension h.size hi

lemma Bounded.candidate (h : index.Bounded) (query : Vec) {e : Bytes × ℕ}
    (he : e ∈ index.keys.zipIdx) : index.candidate query e = .ok (NativeExactIndex.candidate query
      ⟨e.1,rowVector ((index.vectors.drop (rowStart index.dimension e.2)).take
        (4*index.dimension))⟩) := by
  have hi : e.2 < index.keys.length := by
    have := List.snd_lt_add_of_mem_zipIdx he
    omega
  rw [ExactMapping.candidate,readRow,if_pos (h.exists_row hi)]
  rfl

/-- A search of an opened file is the one of its rows. -/
theorem Bounded.search_eq (h : index.Bounded) (query : Vec) (allowed : List Bytes) (k : ℕ) :
    index.search query allowed k =
      Stop.lift (MappedExactIndex.search ⟨index.rows,index.dimension⟩ query allowed k) := by
  have hempty : index.rows = [] ↔ index.keys = [] := by
    rw [ExactMapping.rows,List.map_eq_nil_iff,List.zipIdx_eq_nil_iff]
  have hread : (index.keys.zipIdx.filter fun e => allowed = [] ∨ e.1 ∈ allowed).mapM
      (index.candidate query) = .ok ((index.rows.filter fun row =>
        allowed = [] ∨ row.key ∈ allowed).map (NativeExactIndex.candidate query)) := by
    rw [mapM_ok fun e he => h.candidate query (List.mem_of_mem_filter he),ExactMapping.rows,
      List.filter_map,List.map_map]
    rfl
  unfold search MappedExactIndex.search
  dsimp only
  simp only [hempty]
  split_ifs
  · rfl
  · rfl
  · rfl
  · rw [hread]
    rfl

end search

end ExactMapping

end RagRuntime.Dense
