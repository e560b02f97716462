import RagRuntime.Migration.EmbeddedEndpoint

/-! What an audit establishes of the documents that an endpoint returns. -/
namespace RagRuntime.Migration
open RagRuntime.Base RagRuntime.Core RagRuntime.Backend RagRuntime.Dense

def batchOf (page : Page RevisionedDocument Bytes) : DocumentBatch :=
  ⟨page.items,page.cursor,page.complete⟩

/-- The endpoint has these documents, in strictly ascending order of their keys, and its cursors are
exact. A read may fail. -/
structure Returns (endpoint : Endpoint) (records : List RevisionedDocument) : Prop where
  sorted : records.Pairwise fun a b => recordKey a < recordKey b
  batch : ∀ {cursor limit batch}, limit ≠ 0 → endpoint.readBatch cursor limit = .ok batch →
    batch = batchOf (page recordKey [] records cursor limit)

/-- The chunk at a position of a document that an audit lets pass. -/
structure SoundChunk (dimension index : ℕ) (chunk : PreparedChunk) : Prop where
  ordinal : chunk.ordinal = index
  dimension : chunk.embedding.length = dimension
  unit : UnitNorm chunk.embedding

structure SoundRecord (dimension : ℕ) (record : RevisionedDocument) : Prop where
  revision : record.revision ≠ 0
  key : recordKey record ≠ []
  chunks : ∀ i c, record.prepared.chunks[i]? = some c → SoundChunk dimension i c

/-- The records have been audited between the two tallies. -/
structure Audited (tally tally' : AuditTally) (records : List RevisionedDocument) : Prop where
  sound : ∀ record ∈ records, SoundRecord tally'.audit.dimension record
  kept : tally.audit.embeddingIdentity ≠ [] →
    tally'.audit.embeddingIdentity ≠ [] ∧ tally'.audit.dimension = tally.audit.dimension
  named : records ≠ [] → tally'.audit.embeddingIdentity ≠ []

variable {bits : ℚ → ℕ} {tally tally' tally'' : AuditTally}

lemma Audited.nil (tally : AuditTally) : Audited tally tally [] :=
  ⟨by simp,fun h => ⟨h,rfl⟩,by simp⟩

lemma Audited.append {records more : List RevisionedDocument} (h : Audited tally tally' records)
    (h' : Audited tally' tally'' more) : Audited tally tally'' (records ++ more) := by
  refine ⟨?_,?_,?_⟩
  · intro record hmem
    obtain hmem | hmem := List.mem_append.mp hmem
    · rw [(h'.kept (h.named (List.ne_nil_of_mem hmem))).2]
      exact h.sound record hmem
    · exact h'.sound record hmem
  · intro hne
    obtain ⟨hne',hdimension⟩ := h.kept hne
    obtain ⟨hne'',hdimension'⟩ := h'.kept hne'
    exact ⟨hne'',hdimension'.trans hdimension⟩
  · intro hne
    by_cases hmore : more = []
    · rw [hmore,List.append_nil] at hne
      exact (h'.kept (h.named hne)).1
    · exact h'.named hmore

/-- The identity of the corpus is not changed by a chunk. -/
def SameCorpus (a b : CorpusAudit) : Prop :=
  b.embeddingIdentity = a.embeddingIdentity ∧ b.dimension = a.dimension

lemma validateChunk_ok {document : Bytes} {entry : PreparedChunk × ℕ}
    (h : validateChunk bits document tally entry = .ok tally') :
    SoundChunk tally.audit.dimension entry.2 entry.1 ∧ SameCorpus tally.audit tally'.audit := by
  unfold validateChunk at h
  dsimp only at h
  split_ifs at h with hshape hunit
  · cases h
  · cases h
  · simp only [not_or,not_ne_iff] at hshape
    cases h
    exact ⟨⟨hshape.1,hshape.2.2.1,not_lt.mp hunit⟩,rfl,rfl⟩

lemma validateChunks_ok {document : Bytes} {chunks : List PreparedChunk} {first : ℕ}
    (h : (chunks.zipIdx first).foldlM (validateChunk bits document) tally = .ok tally') :
    (∀ i c, chunks[i]? = some c → SoundChunk tally.audit.dimension (first+i) c) ∧
      SameCorpus tally.audit tally'.audit := by
  induction chunks generalizing tally first with
  | nil =>
    cases h
    exact ⟨by simp,rfl,rfl⟩
  | cons chunk rest ih =>
    rw [List.zipIdx_cons,List.foldlM_cons] at h
    cases hchunk : validateChunk bits document tally (chunk,first) with
    | error e =>
      rw [hchunk] at h
      cases h
    | ok next =>
      rw [hchunk] at h
      obtain ⟨hsound,hidentity,hdimension⟩ := validateChunk_ok hchunk
      obtain ⟨hrest,hidentity',hdimension'⟩ := ih h
      refine ⟨?_,hidentity'.trans hidentity,hdimension'.trans hdimension⟩
      intro i c hc
      cases i with
      | zero =>
        cases hc
        exact hsound
      | succ i =>
        have := hrest i c hc
        rw [hdimension,show first+1+i = first+(i+1) by omega] at this
        exact this

/-- One document. -/
lemma validateDocument_ok {record : RevisionedDocument}
    (h : validateDocument bits tally record = .ok tally') : Audited tally tally' [record] := by
  unfold validateDocument at h
  dsimp only at h
  generalize haudit : (if tally.audit.embeddingIdentity = [] then
    ({ tally.audit with
      embeddingIdentity := record.prepared.embeddingIdentity
      chunkingFingerprint := record.prepared.chunkingFingerprint
      dimension := record.prepared.chunks.head?.elim 0 fun chunk => chunk.embedding.length } :
        CorpusAudit) else tally.audit) = audit at h
  split_ifs at h with hidentity hcontent hcorpus
  · cases h
  · cases h
  · cases h
  · simp only [not_or] at hidentity
    obtain ⟨hrevision,hkey,-,-,hembedding,-⟩ := hidentity
    cases hchunks : record.prepared.chunks.zipIdx.foldlM (validateChunk bits record.prepared.key)
      ⟨audit,_,tally.vectors⟩ with
    | error e =>
      rw [hchunks] at h
      cases h
    | ok next =>
      rw [hchunks] at h
      cases h
      obtain ⟨hsound,hsame,hdimension⟩ := validateChunks_ok hchunks
      have hnamed : audit.embeddingIdentity ≠ [] := by
        rw [← not_ne_iff.mp (not_or.mp hcorpus).1]
        exact hembedding
      refine ⟨?_,?_,fun _ => hsame ▸ hnamed⟩
      · intro other hmem
        rw [List.mem_singleton.mp hmem]
        change SoundRecord next.audit.dimension record
        refine ⟨hrevision,hkey,?_⟩
        intro i c hc
        have := hsound i c hc
        rwa [Nat.zero_add,← hdimension] at this
      · intro hne
        rw [if_neg hne] at haudit
        subst haudit
        exact ⟨hsame ▸ hne,hdimension⟩

lemma auditDocuments_ok {records : List RevisionedDocument} {cursor last : Bytes}
    (h : auditDocuments bits records cursor tally = .ok (last,tally')) :
    Audited tally tally' records := by
  induction records generalizing cursor tally with
  | nil =>
    cases h
    exact .nil _
  | cons record rest ih =>
    unfold auditDocuments at h
    split_ifs at h
    · cases h
    · cases hrecord : validateDocument bits tally record with
      | error e =>
        rw [hrecord] at h
        cases h
      | ok next =>
        rw [hrecord] at h
        exact (validateDocument_ok hrecord).append (ih h)

/-- A document without a key does not pass. -/
lemma Audited.ascending {records : List RevisionedDocument} (h : Audited tally tally' records)
    (hsorted : records.Pairwise fun a b => recordKey a < recordKey b) :
    Ascending recordKey [] records := ⟨hsorted,fun record hmem => (h.sound record hmem).key⟩

variable {endpoint : Endpoint} {records seen rest : List RevisionedDocument} {cursor : Bytes}
  {limit turns : ℕ} {batch : DocumentBatch}

/-- What a batch behind a cursor is. -/
lemma Returns.between (h : Returns endpoint records) (hnamed : Ascending recordKey [] records)
    (hb : Between recordKey [] records seen rest cursor) (hlimit : limit ≠ 0)
    (hread : endpoint.readBatch cursor limit = .ok batch) :
    batch.documents = rest.take limit ∧ (batch.complete = true ↔ rest.length ≤ limit) ∧
      Between recordKey [] records (seen ++ rest.take limit)
      (rest.drop limit) batch.nextCursor := by
  rw [h.batch hlimit hread]
  exact hb.page hnamed limit

/-- The audit of what is behind a cursor. -/
lemma auditBatches_ok (h : Returns endpoint records) (hnamed : Ascending recordKey [] records)
    (hb : Between recordKey [] records seen rest cursor) (hlimit : limit ≠ 0)
    (hok : auditBatches bits endpoint limit turns cursor tally = some (.ok tally')) :
    Audited tally tally' rest := by
  induction turns generalizing cursor seen rest tally with
  | zero => cases hok
  | succ turns ih =>
    unfold auditBatches at hok
    cases hread : endpoint.readBatch cursor limit with
    | error e =>
      rw [hread] at hok
      cases hok
    | ok batch =>
      obtain ⟨hdocuments,hcomplete,hb'⟩ := h.between hnamed hb hlimit hread
      rw [hread] at hok
      dsimp only at hok
      cases haudit : auditDocuments bits batch.documents cursor tally with
      | error e =>
        rw [haudit] at hok
        cases hok
      | ok p =>
        obtain ⟨last,next⟩ := p
        rw [haudit] at hok
        dsimp only at hok
        have htaken := auditDocuments_ok haudit
        rw [hdocuments] at htaken
        split_ifs at hok with hcursor hend
        · cases hok
        · cases hok
          rwa [List.take_of_length_le (hcomplete.mp hend)] at htaken
        · have := htaken.append (ih hb' hok)
          rwa [List.take_append_drop] at this

/-- The loop of an audit comes to an end. -/
lemma auditBatches_ends (h : Returns endpoint records) (hnamed : Ascending recordKey [] records)
    (hb : Between recordKey [] records seen rest cursor) (hlimit : limit ≠ 0)
    (hturns : rest.length < turns) : auditBatches bits endpoint limit turns cursor tally ≠
      none := by
  induction turns generalizing cursor seen rest tally with
  | zero => exact absurd hturns (Nat.not_lt_zero _)
  | succ turns ih =>
    unfold auditBatches
    cases hread : endpoint.readBatch cursor limit with
    | error e => simp
    | ok batch =>
      obtain ⟨hdocuments,hcomplete,hb'⟩ := h.between hnamed hb hlimit hread
      dsimp only
      cases auditDocuments bits batch.documents cursor tally with
      | error e => simp
      | ok p =>
        dsimp only
        split_ifs with hcursor hend
        · simp
        · simp
        · have hlong : limit < rest.length := not_le.mp fun hle => hend (hcomplete.mpr hle)
          apply ih hb'
          rw [List.length_drop]
          omega

/-- Where a document has no key, it comes first, and the audit fails at it. -/
lemma auditBatches_unnamed (bits : ℚ → ℕ) (h : Returns endpoint records) (hlimit : limit ≠ 0)
    (hbad : ∃ record ∈ records, recordKey record = []) (turns : ℕ) (tally : AuditTally) :
    ∃ e, auditBatches bits endpoint limit (turns+1) [] tally = some (.error e) := by
  obtain ⟨record,hmem,hkey⟩ := hbad
  unfold auditBatches
  cases hread : endpoint.readBatch [] limit with
  | error e => exact ⟨e,rfl⟩
  | ok batch =>
    have hfirst : recordKey record = [] ∧ record ∈ batch.documents := by
      rw [h.batch hlimit hread]
      obtain ⟨before,after,rfl⟩ := List.append_of_mem hmem
      cases before with
      | nil =>
        obtain ⟨n,rfl⟩ := Nat.exists_eq_succ_of_ne_zero hlimit
        exact ⟨hkey,List.mem_cons_self⟩
      | cons first before =>
        obtain ⟨-,-,hcross⟩ := List.pairwise_append.mp h.sorted
        have hlt := hcross first List.mem_cons_self record List.mem_cons_self
        rw [hkey] at hlt
        exact absurd hlt (List.not_lt_nil _)
    dsimp only
    cases haudit : auditDocuments bits batch.documents [] tally with
    | error e => exact ⟨e,rfl⟩
    | ok p =>
      obtain ⟨last,tally'⟩ := p
      exact absurd hkey ((auditDocuments_ok haudit).sound record hfirst.2).key

/-- What an audit says of the documents of an endpoint. -/
theorem audit_ok {output : CorpusAudit} (h : Returns endpoint records)
    (hok : audit bits turns endpoint limit = some (.ok output)) :
    limit ≠ 0 ∧ Ascending recordKey [] records ∧
      ∀ record ∈ records, SoundRecord output.dimension record := by
  unfold audit at hok
  split_ifs at hok with hlimit
  · cases hok
  · cases hbatches : auditBatches bits endpoint limit turns [] ⟨{},fnvOffset,fnvOffset⟩ with
    | none =>
      rw [hbatches] at hok
      cases hok
    | some result =>
      rw [hbatches] at hok
      cases result with
      | error e => cases hok
      | ok tally =>
        cases hok
        have hnamed : Ascending recordKey [] records := by
          refine ⟨h.sorted,fun record hmem hkey => ?_⟩
          obtain _ | turns := turns
          · cases hbatches
          · obtain ⟨e,he⟩ := auditBatches_unnamed bits h hlimit ⟨record,hmem,hkey⟩ turns
              ⟨{},fnvOffset,fnvOffset⟩
            rw [he] at hbatches
            cases hbatches
        exact ⟨hlimit,hnamed,(auditBatches_ok h hnamed (.start _ _ _) hlimit hbatches).sound⟩

/-- An audit comes to an end. -/
theorem audit_ends (h : Returns endpoint records) (hturns : records.length < turns) :
    audit bits turns endpoint limit ≠ none := by
  unfold audit
  split_ifs with hlimit
  · simp
  · rw [ne_eq,Option.map_eq_none_iff]
    by_cases hbad : ∃ record ∈ records, recordKey record = []
    · obtain _ | turns := turns
      · exact absurd hturns (Nat.not_lt_zero _)
      · obtain ⟨e,he⟩ := auditBatches_unnamed bits h hlimit hbad turns
          ⟨{},fnvOffset,fnvOffset⟩
        simp [he]
    · have hnamed : Ascending recordKey [] records :=
        ⟨h.sorted,fun record hmem hkey => hbad ⟨record,hmem,hkey⟩⟩
      exact auditBatches_ends h hnamed (.start _ _ _) hlimit hturns

end RagRuntime.Migration
