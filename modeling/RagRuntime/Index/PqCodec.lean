import RagRuntime.Index.PqTraining
import RagRuntime.Store.Rows

/-! The binary form of a product quantizer. The parameters of its training are not kept, and the
bytes of the codes are read as they are. -/
namespace RagRuntime.Index
open RagRuntime.Base RagRuntime.Core RagRuntime.Backend RagRuntime.Dense RagRuntime.Lexical
open RagRuntime.Store Decoder

namespace ProductQuantizer

def putId (_ : ℕ) (id : ℕ) : Bytes := leBytes 4 id

def pqMagic : Bytes := ascii ['2','P','Q','1']

def serialize (pq : ProductQuantizer) : Bytes :=
  (pqMagic ++ (leBytes 4 pq.cfg.m ++ (leBytes 4 pq.cfg.ksub ++ (leBytes 4 pq.dim ++
    (leBytes 4 pq.dsub ++ (leBytes 4 pq.centroids.length ++ (encodeFrom putFloat 0 pq.centroids ++
      (leBytes 4 pq.ids.length ++ encodeFrom putId 0 pq.ids)))))))) ++
        (leBytes 4 pq.codes.length ++ pq.codes)

def readId (_ : ℕ) (ids : List ℕ) : Decoder Error (List ℕ) := do
  let id ← number (corrupt "pq: id") 4
  pure (ids ++ [id])

/-- The numbers of the header, as far as they fit together. -/
structure FitsHeader (m ksub dim dsub ncent : ℕ) : Prop where
  someBlocks : m ≠ 0
  someWords : ksub ≠ 0
  byte : ksub ≤ 256
  dimension : dim ≠ 0
  limit : dim ≤ kMaxVectorDimension
  someNumbers : dsub ≠ 0
  blocks : m*dsub = dim
  words : m*ksub*dsub = ncent

instance (m ksub dim dsub ncent : ℕ) : Decidable (FitsHeader m ksub dim dsub ncent) :=
  decidable_of_iff (m ≠ 0 ∧ ksub ≠ 0 ∧ ksub ≤ 256 ∧ dim ≠ 0 ∧ dim ≤ kMaxVectorDimension ∧
    dsub ≠ 0 ∧ m*dsub = dim ∧ m*ksub*dsub = ncent)
    ⟨fun ⟨hm,hksub,hbyte,hdim,hlimit,hdsub,hblocks,hwords⟩ =>
      ⟨hm,hksub,hbyte,hdim,hlimit,hdsub,hblocks,hwords⟩,
      fun h => ⟨h.someBlocks,h.someWords,h.byte,h.dimension,h.limit,h.someNumbers,h.blocks,h.words⟩⟩

def readCentroids : Decoder Error ProductQuantizer := do
  let magic ← bytes (corrupt "pq: bad magic") 4
  ensure (corrupt "pq: bad magic") (magic = pqMagic)
  let m ← number (corrupt "pq: header") 4
  let ksub ← number (corrupt "pq: header") 4
  let dim ← number (corrupt "pq: header") 4
  let dsub ← number (corrupt "pq: header") 4
  let ncent ← number (corrupt "pq: header") 4
  ensure (corrupt "pq: header") (FitsHeader m ksub dim dsub ncent)
  room (corrupt "pq: header") ncent 4
  let e := corrupt "pq: centroids"
  let centroids ← repeatFrom (readFloat e e) ncent 0 []
  pure { cfg := { m := m, ksub := ksub }, dim := dim, dsub := dsub, centroids := centroids }

def readIds (pq : ProductQuantizer) : Decoder Error ProductQuantizer := do
  let nid ← number (corrupt "pq: ids") 4
  ensure (corrupt "pq: ids") (nid ≤ kMaxGraphNodes)
  room (corrupt "pq: ids") nid 4
  let ids ← repeatFrom readId nid 0 []
  pure { pq with ids := ids }

def readCodes (pq : ProductQuantizer) : Decoder Error ProductQuantizer := do
  let nc ← number (corrupt "pq: codes") 4
  ensure (corrupt "pq: codes") (nc = pq.ids.length*pq.cfg.m)
  room (corrupt "pq: codes") nc 1
  let codes ← bytes (corrupt "pq: code bytes") nc
  pure { pq with codes := codes }

def readQuantizer : Decoder Error ProductQuantizer := do
  let pq ← readCentroids
  let pq ← readIds pq
  readCodes pq

def deserialize (blob : Bytes) : Result ProductQuantizer :=
  readQuantizer.whole (corrupt "pq: trailing data") blob

section roundTrip

variable {pq : ProductQuantizer}

/-- What of a quantizer fits its binary form, but for the length of the codes. -/
structure Writable (pq : ProductQuantizer) : Prop where
  header : FitsHeader pq.cfg.m pq.cfg.ksub pq.dim pq.dsub pq.centroids.length
  floats : ∀ x ∈ pq.centroids, Single.IsFloat x
  count : pq.ids.length ≤ kMaxGraphNodes
  ids : ∀ id ∈ pq.ids, id < 256^4
  codes : pq.codes.length = pq.ids.length*pq.cfg.m

lemma FitsHeader.lt {m ksub dim dsub ncent : ℕ} (h : FitsHeader m ksub dim dsub ncent) :
    m < 256^4 ∧ ksub < 256^4 ∧ dim < 256^4 ∧ dsub < 256^4 ∧ ncent < 256^4 := by
  have hlimit := h.limit
  have hbyte := h.byte
  have hm : m ≤ dim := h.blocks ▸ Nat.le_mul_of_pos_right m (Nat.pos_of_ne_zero h.someNumbers)
  have hdsub : dsub ≤ dim :=
    h.blocks ▸ Nat.le_mul_of_pos_left dsub (Nat.pos_of_ne_zero h.someBlocks)
  have hncent : ncent ≤ dim*256 := by
    rw [← h.words,Nat.mul_right_comm,h.blocks]
    exact Nat.mul_le_mul_left dim hbyte
  simp only [kMaxVectorDimension] at hlimit
  omega

/-- The fields that are kept. -/
def kept (pq : ProductQuantizer) : ProductQuantizer :=
  { pq with cfg := { m := pq.cfg.m, ksub := pq.cfg.ksub } }

lemma reads_floats {truncated nonFinite : Error} {v : Vec} (h : ∀ x ∈ v, Single.IsFloat x) :
    Reads (repeatFrom (readFloat truncated nonFinite) v.length 0 [])
      (encodeFrom putFloat 0 v) v := by
  refine reads_repeatFrom putFloat id [] ?_
  intro pre x post hsplit
  obtain ⟨hback,hlt⟩ := Single.ofBits_bits (h x (by rw [← hsplit]; simp))
  refine (reads_number (w := 4) hlt).last ?_
  rw [hback]
  exact .pure _

lemma reads_centroids (h : pq.Writable) : Reads readCentroids
    (pqMagic ++ (leBytes 4 pq.cfg.m ++ (leBytes 4 pq.cfg.ksub ++ (leBytes 4 pq.dim ++
      (leBytes 4 pq.dsub ++ (leBytes 4 pq.centroids.length ++
        encodeFrom putFloat 0 pq.centroids))))))
    { pq.kept with ids := [], codes := [] } := by
  obtain ⟨hm,hksub,hdim,hdsub,hncent⟩ := h.header.lt
  have hroom : 4*pq.centroids.length ≤ (encodeFrom putFloat 0 pq.centroids).length :=
    encodeFrom_length_le (fun i x _ => by simp [putFloat]) 0
  refine (reads_bytes pqMagic).bind ((reads_ensure rfl).after ((reads_number hm).bind
    ((reads_number hksub).bind ((reads_number hdim).bind ((reads_number hdsub).bind
      ((reads_number hncent).bind ((reads_ensure h.header).after ?_)))))))
  exact reads_room (by decide) hroom ((reads_floats h.floats).last (.pure _))

lemma reads_ids (h : pq.Writable) : Reads (readIds { pq.kept with ids := [], codes := [] })
    (leBytes 4 pq.ids.length ++ encodeFrom putId 0 pq.ids) { pq.kept with codes := [] } := by
  have hroom : 4*pq.ids.length ≤ (encodeFrom putId 0 pq.ids).length :=
    encodeFrom_length_le (fun i x _ => by simp [putId]) 0
  have hcount := h.count
  have hfits : pq.ids.length < 256^4 := by
    simp only [kMaxGraphNodes] at hcount
    omega
  refine (reads_number hfits).bind ((reads_ensure hcount).after ?_)
  refine reads_room (by decide) hroom (Reads.last ?_ (.pure _))
  refine reads_repeatFrom putId id [] ?_
  intro pre id post hsplit
  exact (reads_number (h.ids id (by rw [← hsplit]; simp))).last (.pure _)

/-- The length of the codes is written in four bytes. -/
lemma readCodes_spec (h : pq.Writable) : readCodes { pq.kept with codes := [] }
    (leBytes 4 pq.codes.length ++ pq.codes) =
      if pq.codes.length < 2^32 then .ok (pq.kept,[]) else .error (corrupt "pq: codes") := by
  split_ifs with hlength
  · have hread : Reads (readCodes { pq.kept with codes := [] })
        (leBytes 4 pq.codes.length ++ pq.codes) pq.kept := by
      refine (reads_number (by omega)).bind ((reads_ensure h.codes).after ?_)
      exact reads_room (by decide) (by omega) ((reads_bytes pq.codes).last (.pure _))
    have hall := hread []
    rwa [List.append_nil] at hall
  · have hnumber : number (corrupt "pq: codes") 4 (leBytes 4 pq.codes.length ++ pq.codes) =
        .ok (pq.codes.length%256^4,pq.codes) := by
      rw [number,takeNumber,if_neg (by simp),List.take_left' (leBytes_length _ _),
        List.drop_left' (leBytes_length _ _),leValue_leBytes]
    have hwrong : ¬ pq.codes.length%256^4 = pq.kept.ids.length*pq.kept.cfg.m := by
      change ¬ pq.codes.length%256^4 = pq.ids.length*pq.cfg.m
      rw [← h.codes]
      omega
    rw [readCodes,bind_apply,hnumber]
    change (ensure _ _ >>= _) pq.codes = _
    rw [bind_apply,ensure,if_neg hwrong]
    rfl

lemma readQuantizer_serialize (h : pq.Writable) : readQuantizer pq.serialize =
    if pq.codes.length < 2^32 then .ok (pq.kept,[]) else .error (corrupt "pq: codes") := by
  have hcentroids := reads_centroids h
    ((leBytes 4 pq.ids.length ++ encodeFrom putId 0 pq.ids) ++
      (leBytes 4 pq.codes.length ++ pq.codes))
  have hids := reads_ids h (leBytes 4 pq.codes.length ++ pq.codes)
  have hserialize : pq.serialize = (pqMagic ++ (leBytes 4 pq.cfg.m ++ (leBytes 4 pq.cfg.ksub ++
      (leBytes 4 pq.dim ++ (leBytes 4 pq.dsub ++ (leBytes 4 pq.centroids.length ++
        encodeFrom putFloat 0 pq.centroids)))))) ++
      ((leBytes 4 pq.ids.length ++ encodeFrom putId 0 pq.ids) ++
        (leBytes 4 pq.codes.length ++ pq.codes)) := by
    simp only [serialize,List.append_assoc]
  rw [hserialize,readQuantizer,bind_apply,hcentroids]
  change (readIds _ >>= _) _ = _
  rw [bind_apply,hids]
  exact readCodes_spec h

/-- What is written is read back but for the parameters of the training, unless the codes take
four gigabytes. -/
theorem deserialize_written (h : pq.Writable) : deserialize pq.serialize =
    if pq.codes.length < 2^32 then .ok pq.kept else fail .corruptIndex "pq: codes" := by
  rw [deserialize,whole,readQuantizer_serialize h]
  split_ifs
  · rfl
  · rfl

/-- One number a block, coded as zero or one. -/
def zeroOrOne : ProductQuantizer :=
  { cfg := { m := 2, ksub := 2 }, dim := 2, dsub := 1, centroids := [0,1,0,1] }

/-- Three vectors under their codes. -/
def coded : ProductQuantizer := zeroOrOne.filled [(3,[1,1/4]),(5,[0,1]),(1,[1,3/4])]

lemma writable_coded : coded.Writable where
  header := ⟨by decide,by decide,by decide,by decide,by decide,by decide,rfl,rfl⟩
  floats := by
    have hzero : Single.IsFloat 0 := ⟨0,by decide,by norm_num [Single.ofBits,Single.units]⟩
    have hone : Single.IsFloat 1 := ⟨1065353216,by decide,by norm_num [Single.ofBits,Single.units]⟩
    intro x hx
    change x ∈ [0,1,0,1] at hx
    simp only [List.mem_cons,List.not_mem_nil,or_false] at hx
    obtain rfl | rfl | rfl | rfl := hx
    · exact hzero
    · exact hone
    · exact hzero
    · exact hone
  count := by decide
  ids := by decide
  codes := rfl

lemma coded_reads : deserialize coded.serialize = .ok coded.kept :=
  (deserialize_written writable_coded).trans (if_pos (by decide))

end roundTrip

section accepted

variable {blob : Bytes} {pq : ProductQuantizer}

/-- What holds of the centroids that are accepted, and stays so. -/
structure Loaded (pq : ProductQuantizer) : Prop where
  shaped : pq.Shaped
  some : 0 < pq.dsub
  limit : pq.dim ≤ kMaxVectorDimension

lemma yields_floats {truncated nonFinite : Error} (n : ℕ) :
    Yields (repeatFrom (readFloat truncated nonFinite) n 0 []) fun v => v.length = n := by
  have h := @yields_repeatFrom Error (List ℚ) (readFloat truncated nonFinite)
    (fun i v => v.length = i) (fun i v hv => ?_) n 0 [] rfl
  · rwa [Nat.zero_add] at h
  · refine (yields_true _).bind fun bits _ => ?_
    cases Single.ofBits bits with
    | none =>
      intro input v rest hnone
      cases hnone
    | some x => exact yields_pure (by rw [List.length_append,hv,List.length_singleton])

lemma yields_someIds (n : ℕ) :
    Yields (repeatFrom readId n 0 []) fun ids => ids.length = n := by
  have h := @yields_repeatFrom Error (List ℕ) readId (fun i ids => ids.length = i)
    (fun i ids hids => ?_) n 0 [] rfl
  · rwa [Nat.zero_add] at h
  · exact (yields_true _).bind fun id _ =>
      yields_pure (by rw [List.length_append,hids,List.length_singleton])

lemma yields_centroids : Yields readCentroids Loaded := by
  refine (yields_true _).bind fun magic _ => (yields_true _).bind fun _ _ => (yields_true _).bind
    fun m _ => (yields_true _).bind fun ksub _ => (yields_true _).bind fun dim _ =>
      (yields_true _).bind fun dsub _ => (yields_true _).bind fun ncent _ => ?_
  refine (yields_ensure _ _).bind fun _ hfits => (yields_true _).bind fun _ _ =>
    (yields_floats ncent).bind fun centroids hcentroids => yields_pure ?_
  exact ⟨⟨hfits.blocks.symm,hcentroids.trans hfits.words.symm,Nat.pos_of_ne_zero hfits.someWords,
    hfits.byte⟩,Nat.pos_of_ne_zero hfits.someNumbers,hfits.limit⟩

lemma yields_ids {front : ProductQuantizer} (h : front.Loaded) :
    Yields (readIds front) fun pq => pq.Loaded ∧ pq.ids.length ≤ kMaxGraphNodes := by
  refine (yields_true _).bind fun nid _ => (yields_ensure _ _).bind fun _ hcount =>
    (yields_true _).bind fun _ _ => (yields_someIds nid).bind fun ids hids => yields_pure ?_
  exact ⟨⟨⟨h.shaped.dim,h.shaped.centroids,h.shaped.some,h.shaped.byte⟩,h.some,h.limit⟩,
    hids.trans_le hcount⟩

lemma yields_codes {front : ProductQuantizer} (h : front.Loaded) :
    Yields (readCodes front) fun pq => pq.Loaded ∧ pq.ids = front.ids ∧
      pq.codes.length = pq.ids.length*pq.cfg.m := by
  refine (yields_true _).bind fun nc _ => (yields_ensure _ _).bind fun _ hnc =>
    (yields_true _).bind fun _ _ => (yields_bytes _ nc).bind fun codes hcodes => yields_pure ?_
  exact ⟨⟨⟨h.shaped.dim,h.shaped.centroids,h.shaped.some,h.shaped.byte⟩,h.some,h.limit⟩,rfl,
    hcodes.trans hnc⟩

/-- What is accepted has the shape of a trained quantizer and one code for each id. -/
theorem deserialize_loaded (h : deserialize blob = .ok pq) :
    pq.Loaded ∧ pq.ids.length ≤ kMaxGraphNodes ∧ pq.codes.length = pq.ids.length*pq.cfg.m := by
  have hread : Yields readQuantizer fun pq => pq.Loaded ∧ pq.ids.length ≤ kMaxGraphNodes ∧
      pq.codes.length = pq.ids.length*pq.cfg.m := by
    refine yields_centroids.bind fun front hfront => (yields_ids hfront).bind fun front hids => ?_
    refine (yields_codes hids.1).mono fun pq hcodes => ?_
    exact ⟨hcodes.1,hcodes.2.1 ▸ hids.2,hcodes.2.2⟩
  exact hread.whole h

/-- A blob whose codes are numbers of words is searched by the products with what the codes are
decoded to. -/
theorem deserialize_search (h : deserialize blob = .ok pq)
    (hcodes : ∀ c ∈ pq.codes, c.val < pq.cfg.ksub) (sort : PartialSort Hit.score) {query : Vec}
    (hquery : query.length = pq.dim) (k : ℕ) :
    Leads Hit.score (pq.ids.zipIdx.map fun entry =>
      ⟨entry.1,dot query (pq.decode (block pq.codes pq.cfg.m entry.2))⟩) k
        (pq.search sort query k) := by
  obtain ⟨hloaded,-,hlength⟩ := deserialize_loaded h
  have hhits : pq.hits query = pq.ids.zipIdx.map fun entry =>
      ⟨entry.1,dot query (pq.decode (block pq.codes pq.cfg.m entry.2))⟩ := by
    refine List.map_congr_left fun entry hentry => ?_
    have hi := List.snd_lt_of_mem_zipIdx hentry
    have hcoded : pq.Coded (block pq.codes pq.cfg.m entry.2) :=
      ⟨length_block hlength (by omega),fun c hc => hcodes c
        (List.mem_of_mem_drop (List.mem_of_mem_take hc))⟩
    exact congrArg (Hit.mk entry.1) (adcScore_decode hloaded.shaped hcoded hquery)
  rw [search,hhits]
  exact leads_top sort k _

/-- The two nearest of the three. -/
lemma coded_reread : Leads Hit.score
      (coded.kept.ids.zipIdx.map fun entry =>
        ⟨entry.1,dot [3/5,4/5] (coded.kept.decode (block coded.kept.codes 2 entry.2))⟩) 2
      (coded.kept.search (PartialSort.stable Hit.score) [3/5,4/5] 2) ∧
    coded.kept.search (PartialSort.stable Hit.score) [3/5,4/5] 2 = [⟨1,7/5⟩,⟨5,4/5⟩] := by
  have hread : deserialize coded.serialize = .ok coded.kept := by
    rw [deserialize,whole,readQuantizer_serialize writable_coded,if_pos (by decide)]
    rfl
  have hcodes : ∀ c ∈ coded.kept.codes, c.val < 2 := by decide +kernel
  exact ⟨deserialize_search hread hcodes (PartialSort.stable Hit.score) rfl 2,by decide +kernel⟩

end accepted
end ProductQuantizer
end RagRuntime.Index
