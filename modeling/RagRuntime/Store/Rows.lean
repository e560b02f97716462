import RagRuntime.Base.MapCodec
import RagRuntime.Base.Single
import RagRuntime.Core.Document
import RagRuntime.Store.Format

/-! The rows of the document, chunk and embedding sections: how they are written, and the reader
that each loader calls with errors of its own. -/
namespace RagRuntime.Store
open RagRuntime.Base RagRuntime.Core Decoder

def putPair (_ : ℕ) (e : Bytes × Bytes) : Bytes := str e.1 ++ str e.2
def putFloat (_ : ℕ) (x : ℚ) : Bytes := leBytes 4 (Single.bits x)

def putDocument (_ : ℕ) (d : Document) : Bytes :=
  leBytes 4 d.id ++ (str d.uri ++ (str d.title ++ (str d.text ++ (leBytes 4 d.metadata.size ++
    encodeFrom putPair 0 d.metadata.entries))))

def putChunk (_ : ℕ) (ch : Chunk) : Bytes :=
  leBytes 4 ch.id ++ (leBytes 4 ch.doc ++ (str ch.text ++ (str ch.context ++
    (leBytes 4 ch.startLine ++ leBytes 4 ch.endLine))))

def putEmbedding (_ : ℕ) (v : List ℚ) : Bytes := leBytes 4 v.length ++ encodeFrom putFloat 0 v

/-- Where `unique` is false, a later entry of a key replaces the one before. -/
def readPair (entry : Error) (unique : Bool) (_ : ℕ) (m : Metadata) : Decoder Error Metadata := do
  let key ← string entry
  let value ← string entry
  ensure entry (unique = true → m.contains key = false)
  pure (m.insert key value)

def readDocument (row count entry : Error) (unique : Bool) (i : ℕ) (docs : List Document) :
    Decoder Error (List Document) := do
  let id ← number row 4
  ensure row (id = i)
  let uri ← string row
  let title ← string row
  let text ← string row
  let n ← number count 4
  ensure count (n ≤ kMaxMetadataEntries)
  room count n 8
  let metadata ← repeatFrom (readPair entry unique) n 0 ∅
  pure (docs ++ [⟨id,uri,title,text,metadata⟩])

def readChunk (identity row : Error) (documents i : ℕ) (chunks : List Chunk) :
    Decoder Error (List Chunk) := do
  let id ← number identity 4
  ensure identity (id = i)
  let doc ← number identity 4
  ensure identity (doc < documents)
  let text ← string row
  let context ← string row
  let startLine ← number row 4
  let endLine ← number row 4
  ensure row (startLine ≤ endLine)
  pure (chunks ++ [⟨id,doc,text,context,startLine,endLine⟩])

/-- One number of a vector; infinities and NaNs are refused. -/
def readFloat (truncated nonFinite : Error) (_ : ℕ) (v : List ℚ) : Decoder Error (List ℚ) := do
  let bits ← number truncated 4
  match Single.ofBits bits with
  | some x => pure (v ++ [x])
  | none => fun _ => .error nonFinite

def readVector (truncated nonFinite : Error) (n : ℕ) : Decoder Error (List ℚ) := do
  room truncated n 4
  repeatFrom (readFloat truncated nonFinite) n 0 []

/-- What of a document fits its row. -/
structure WritableDocument (d : Document) : Prop where
  id : d.id < 256^4
  uri : d.uri.length < 256^4
  title : d.title.length < 256^4
  text : d.text.length < 256^4
  count : d.metadata.size ≤ kMaxMetadataEntries
  entries : ∀ e ∈ d.metadata.entries, e.1.length < 256^4 ∧ e.2.length < 256^4

structure WritableChunk (documents : ℕ) (ch : Chunk) : Prop where
  id : ch.id < 256^4
  doc : ch.doc < documents
  text : ch.text.length < 256^4
  context : ch.context.length < 256^4
  endLine : ch.endLine < 256^4
  lines : ch.startLine ≤ ch.endLine

section reads

variable {row count entry identity truncated nonFinite : Error}

lemma reads_metadata {unique : Bool} {m : Metadata}
    (h : ∀ e ∈ m.entries, e.1.length < 256^4 ∧ e.2.length < 256^4) :
    Reads (repeatFrom (readPair entry unique) m.size 0 ∅) (encodeFrom putPair 0 m.entries) m := by
  apply reads_map (List.Perm.refl _)
  intro e he seen i hnew
  obtain ⟨hkey,hvalue⟩ := h e he
  exact (reads_string hkey).bind ((reads_string hvalue).last ((reads_ensure fun _ => hnew).after
    (.pure _)))

lemma length_putPairs (m : Metadata) : 8*m.size ≤ (encodeFrom putPair 0 m.entries).length := by
  apply encodeFrom_length_le
  intro i e _
  simp only [putPair,List.length_append,str_length]
  omega

lemma reads_document {unique : Bool} {docs : List Document} {d : Document} {i j : ℕ}
    (h : WritableDocument d) (hid : d.id = i) :
    Reads (readDocument row count entry unique i docs) (putDocument j d) (docs ++ [d]) := by
  have hcount := h.count
  have hfits : d.metadata.size < 256^4 := by
    simp only [kMaxMetadataEntries] at hcount
    omega
  refine (reads_number h.id).bind ((reads_ensure hid).after ((reads_string h.uri).bind
    ((reads_string h.title).bind ((reads_string h.text).bind ((reads_number hfits).bind
      ((reads_ensure hcount).after ?_))))))
  exact reads_room (by decide) (length_putPairs d.metadata)
    ((reads_metadata h.entries).last (.pure _))

/-- Documents that are numbered from zero are read back. -/
theorem reads_documents {unique : Bool} {docs : List Document} (h : ∀ d ∈ docs, WritableDocument d)
    (hids : ∀ (i : ℕ) (d : Document), docs[i]? = some d → d.id = i) :
    Reads (repeatFrom (readDocument row count entry unique) docs.length 0 [])
      (encodeFrom putDocument 0 docs) docs := by
  refine reads_repeatFrom putDocument id [] ?_
  intro pre d post hsplit
  have hid : d.id = ([] : List Document).length + pre.length := by
    rw [List.length_nil,Nat.zero_add]
    exact hids _ _ (by rw [← hsplit]; simp)
  exact reads_document (h d (by rw [← hsplit]; simp)) hid

lemma reads_chunk {documents : ℕ} {chunks : List Chunk} {ch : Chunk} {i j : ℕ}
    (hdocuments : documents ≤ 256^4) (h : WritableChunk documents ch) (hid : ch.id = i) :
    Reads (readChunk identity row documents i chunks) (putChunk j ch) (chunks ++ [ch]) := by
  have hdoc : ch.doc < 256^4 := lt_of_lt_of_le h.doc hdocuments
  have hstart : ch.startLine < 256^4 := lt_of_le_of_lt h.lines h.endLine
  exact (reads_number h.id).bind ((reads_ensure hid).after ((reads_number hdoc).bind
    ((reads_ensure h.doc).after ((reads_string h.text).bind ((reads_string h.context).bind
      ((reads_number hstart).bind ((reads_number h.endLine).last ((reads_ensure h.lines).after
        (.pure _)))))))))

theorem reads_chunks {documents : ℕ} {chunks : List Chunk} (hdocuments : documents ≤ 256^4)
    (h : ∀ ch ∈ chunks, WritableChunk documents ch)
    (hids : ∀ (i : ℕ) (ch : Chunk), chunks[i]? = some ch → ch.id = i) :
    Reads (repeatFrom (readChunk identity row documents) chunks.length 0 [])
      (encodeFrom putChunk 0 chunks) chunks := by
  refine reads_repeatFrom putChunk id [] ?_
  intro pre ch post hsplit
  have hid : ch.id = ([] : List Chunk).length + pre.length := by
    rw [List.length_nil,Nat.zero_add]
    exact hids _ _ (by rw [← hsplit]; simp)
  exact reads_chunk hdocuments (h ch (by rw [← hsplit]; simp)) hid

theorem reads_vector {v : List ℚ} (h : ∀ x ∈ v, Single.IsFloat x) :
    Reads (readVector truncated nonFinite v.length) (encodeFrom putFloat 0 v) v := by
  have hroom : 4*v.length ≤ (encodeFrom putFloat 0 v).length :=
    encodeFrom_length_le (fun i x _ => by simp [putFloat]) 0
  apply reads_room (by decide) hroom
  refine reads_repeatFrom putFloat id [] ?_
  intro pre x post hsplit
  obtain ⟨hback,hlt⟩ := Single.ofBits_bits (h x (by rw [← hsplit]; simp))
  refine (reads_number (w := 4) hlt).last ?_
  rw [hback]
  exact .pure _

end reads

lemma length_putDocuments (docs : List Document) :
    20*docs.length ≤ (encodeFrom putDocument 0 docs).length := by
  apply encodeFrom_length_le
  intro i d _
  simp only [putDocument,List.length_append,str_length,leBytes_length]
  omega

lemma length_putChunks (chunks : List Chunk) :
    24*chunks.length ≤ (encodeFrom putChunk 0 chunks).length := by
  apply encodeFrom_length_le
  intro i ch _
  simp only [putChunk,List.length_append,str_length,leBytes_length]
  omega

end RagRuntime.Store
