import RagRuntime.Store.Format

/-! The framing shared by the write-ahead log and the job log: a header of three
`uint32_t` (magic, payload length, payload CRC32) and the payload. -/
namespace RagRuntime.Store
open RagRuntime.Base RagRuntime.Core

def kHeaderBytes : ℕ := 12

def frameHeader (magic : ℕ) (payload : Bytes) : Bytes :=
  leBytes 4 magic ++ leBytes 4 payload.length ++ leBytes 4 (crc32 payload).toNat

def frame (magic : ℕ) (payload : Bytes) : Bytes := frameHeader magic payload ++ payload

/-- What a reader finds at the position it has reached. -/
inductive FrameRead where
  | short
  | badMagic
  | tooLarge
  | torn
  | badCrc (last : Bool)
  | payload (payload rest : Bytes)
  deriving DecidableEq, Repr

def readFrame (magic : ℕ) (input : Bytes) : FrameRead :=
  if input.length < kHeaderBytes then .short
  else
    let length := leValue ((input.drop 4).take 4)
    let checksum := leValue ((input.drop 8).take 4)
    let body := input.drop kHeaderBytes
    if leValue (input.take 4) ≠ magic then .badMagic
    else if length > kMaxWalRecordBytes then .tooLarge
    else if length > body.length then .torn
    else if (crc32 (body.take length)).toNat ≠ checksum then .badCrc (body.length = length)
    else .payload (body.take length) (body.drop length)

@[simp] theorem frameHeader_length (magic : ℕ) (payload : Bytes) :
    (frameHeader magic payload).length = kHeaderBytes := by simp [frameHeader,kHeaderBytes]

theorem frame_length (magic : ℕ) (payload : Bytes) :
    (frame magic payload).length = kHeaderBytes + payload.length := by simp [frame]

lemma uint32_fits {n : ℕ} (h : n ≤ kMaxWalRecordBytes) : n < 256^4 := by
  simp only [kMaxWalRecordBytes] at h
  omega

lemma crc32_fits (payload : Bytes) : (crc32 payload).toNat < 256^4 :=
  (crc32 payload).toNat_lt

lemma leBytes_four (n : ℕ) : ∃ a b c d : Byte, leBytes 4 n = [a,b,c,d] := ⟨_,_,_,_,rfl⟩

/-- The fields of a header, whatever part of the payload follows it. -/
lemma frameHeader_fields {magic : ℕ} (hm : magic < 256^4) {payload : Bytes}
    (hp : payload.length ≤ kMaxWalRecordBytes) (tail : Bytes) :
    leValue ((frameHeader magic payload ++ tail).take 4) = magic ∧
      leValue (((frameHeader magic payload ++ tail).drop 4).take 4) = payload.length ∧
      leValue (((frameHeader magic payload ++ tail).drop 8).take 4) = (crc32 payload).toNat ∧
      (frameHeader magic payload ++ tail).drop kHeaderBytes = tail := by
  have h1 := leValue_leBytes_of_lt hm
  have h2 := leValue_leBytes_of_lt (uint32_fits hp)
  have h3 := leValue_leBytes_of_lt (crc32_fits payload)
  obtain ⟨a,b,c,d,hA⟩ := leBytes_four magic
  obtain ⟨e,f,g,i,hB⟩ := leBytes_four payload.length
  obtain ⟨j,k,l,m,hC⟩ := leBytes_four (crc32 payload).toNat
  rw [hA] at h1
  rw [hB] at h2
  rw [hC] at h3
  simp only [frameHeader,hA,hB,hC,kHeaderBytes]
  exact ⟨h1,h2,h3,rfl⟩

/-- A whole frame is read back, and the reader stands at its end. -/
theorem readFrame_append {magic : ℕ} (hm : magic < 256^4) {payload : Bytes}
    (hp : payload.length ≤ kMaxWalRecordBytes) (rest : Bytes) :
    readFrame magic (frame magic payload ++ rest) = .payload payload rest := by
  obtain ⟨hmagic,hlen,hcrc,hbody⟩ := frameHeader_fields hm hp (payload ++ rest)
  have hshort : ¬ (frameHeader magic payload ++ (payload ++ rest)).length < kHeaderBytes := by
    rw [List.length_append,frameHeader_length]
    omega
  unfold readFrame
  rw [frame,List.append_assoc,if_neg hshort]
  simp only [hmagic,hlen,hcrc,hbody,List.take_left,List.drop_left]
  simp [hp]

/-- What is read as a whole frame is one. -/
theorem readFrame_payload {magic : ℕ} {input payload rest : Bytes}
    (h : readFrame magic input = .payload payload rest) :
    input = frame magic payload ++ rest ∧ payload.length ≤ kMaxWalRecordBytes := by
  unfold readFrame at h
  dsimp only at h
  split_ifs at h with hshort hmagic hlong htorn hcrc
  obtain ⟨rfl,rfl⟩ := FrameRead.payload.inj h
  have hlength : kHeaderBytes ≤ input.length := not_lt.mp hshort
  simp only [kHeaderBytes] at hlength
  have hbody : ((input.drop kHeaderBytes).take (leValue ((input.drop 4).take 4))).length =
      leValue ((input.drop 4).take 4) := by
    rw [List.length_take,Nat.min_eq_left (not_lt.mp htorn)]
  have hfield : ∀ k, k + 4 ≤ input.length →
      leBytes 4 (leValue ((input.drop k).take 4)) = (input.drop k).take 4 := by
    intro k hk
    have hfour : ((input.drop k).take 4).length = 4 := by
      rw [List.length_take,List.length_drop]
      omega
    have := leBytes_leValue ((input.drop k).take 4)
    rwa [hfour] at this
  have hfirst := hfield 0 (by omega)
  rw [List.drop_zero,not_not.mp hmagic] at hfirst
  refine ⟨?_,by rw [hbody]; exact not_lt.mp hlong⟩
  rw [frame,frameHeader,hbody,not_not.mp hcrc,hfirst,hfield 4 (by omega),hfield 8 (by omega)]
  simp only [List.append_assoc,List.take_append_drop]
  have hnext : ∀ k, (input.drop k).take 4 ++ input.drop (k+4) = input.drop k := by
    intro k
    rw [← List.drop_drop,List.take_append_drop]
  rw [show kHeaderBytes = 8+4 from rfl,hnext 8,hnext 4,← List.drop_zero (l := input)]
  exact (hnext 0).symm

/-- Of a frame that is cut anywhere, a reader sees a short or a torn tail, never an error. -/
theorem readFrame_take {magic : ℕ} (hm : magic < 256^4) {payload : Bytes}
    (hp : payload.length ≤ kMaxWalRecordBytes) {n : ℕ} (hn : n < (frame magic payload).length) :
    readFrame magic ((frame magic payload).take n) = .short ∨
      readFrame magic ((frame magic payload).take n) = .torn := by
  rw [frame_length] at hn
  by_cases hshort : n < kHeaderBytes
  · left
    have hl : ((frame magic payload).take n).length < kHeaderBytes := by
      rw [List.length_take,frame_length]
      omega
    unfold readFrame
    rw [if_pos hl]
  · right
    obtain ⟨m,rfl⟩ := Nat.exists_eq_add_of_le (not_lt.mp hshort)
    have he : (frame magic payload).take (kHeaderBytes+m) =
        frameHeader magic payload ++ payload.take m := by
      rw [frame,← frameHeader_length magic payload,List.take_length_add_append]
    obtain ⟨hmagic,hlen,hcrc,hbody⟩ := frameHeader_fields hm hp (payload.take m)
    have hl : ¬ (frameHeader magic payload ++ payload.take m).length < kHeaderBytes := by
      rw [List.length_append,frameHeader_length]
      omega
    have htorn : payload.length > (payload.take m).length := by
      rw [List.length_take]
      omega
    unfold readFrame
    rw [he,if_neg hl]
    simp only [hmagic,hlen,hcrc,hbody]
    rw [if_neg (by simp),if_neg (not_lt.mpr hp),if_pos htorn]

/-- The bytes of a sequence of payloads, each in its own frame. -/
def frames (magic : ℕ) (payloads : List Bytes) : Bytes := payloads.flatMap (frame magic)

/-- What an interrupted write of one frame leaves: a proper prefix of it, possibly nothing. -/
def Cut (magic : ℕ) (t : Bytes) : Prop :=
  ∃ p : Bytes, p.length ≤ kMaxWalRecordBytes ∧ ∃ n < (frame magic p).length,
    t = (frame magic p).take n

@[simp] theorem frames_nil (magic : ℕ) : frames magic [] = [] := rfl

@[simp] theorem frames_cons (magic : ℕ) (p : Bytes) (ps : List Bytes) :
    frames magic (p::ps) = frame magic p ++ frames magic ps := rfl

@[simp] theorem frames_append (magic : ℕ) (ps qs : List Bytes) :
    frames magic (ps ++ qs) = frames magic ps ++ frames magic qs := List.flatMap_append

lemma frame_ne_nil (magic : ℕ) (p : Bytes) : frame magic p ≠ [] := by
  intro h
  have hl := frame_length magic p
  rw [h] at hl
  simp only [List.length_nil,kHeaderBytes] at hl
  omega

lemma frames_length_ge (magic : ℕ) (ps : List Bytes) : ps.length ≤ (frames magic ps).length := by
  induction ps with
  | nil => simp
  | cons p ps ih =>
    rw [frames_cons,List.length_append,frame_length,List.length_cons,kHeaderBytes]
    omega

theorem cut_nil (magic : ℕ) : Cut magic [] :=
  ⟨[],Nat.zero_le _,0,by simp [frame_length,kHeaderBytes],rfl⟩

theorem Cut.readFrame {magic : ℕ} (hm : magic < 256^4) {t : Bytes} (h : Cut magic t) :
    readFrame magic t = .short ∨ readFrame magic t = .torn := by
  obtain ⟨p,hp,n,hn,rfl⟩ := h
  exact readFrame_take hm hp hn

/-- A log is split into whole frames and a cut tail in one way only. -/
theorem frames_split_unique {magic : ℕ} (hm : magic < 256^4) {ps qs : List Bytes}
    (hps : ∀ p ∈ ps, p.length ≤ kMaxWalRecordBytes) (hqs : ∀ q ∈ qs, q.length ≤ kMaxWalRecordBytes)
    {t u : Bytes} (ht : Cut magic t) (hu : Cut magic u)
    (h : frames magic ps ++ t = frames magic qs ++ u) : ps = qs ∧ t = u := by
  induction ps generalizing qs with
  | nil =>
    cases qs with
    | nil => exact ⟨rfl,by simpa using h⟩
    | cons q qs =>
      have hread := readFrame_append hm (hqs q (by simp)) (frames magic qs ++ u)
      rw [frames_cons,List.append_assoc] at h
      rw [← h,frames_nil,List.nil_append] at hread
      rcases ht.readFrame hm with he | he <;> simp [he] at hread
  | cons p ps ih =>
    have hread := readFrame_append hm (hps p (by simp)) (frames magic ps ++ t)
    rw [frames_cons,List.append_assoc] at h
    cases qs with
    | nil =>
      rw [h,frames_nil,List.nil_append] at hread
      rcases hu.readFrame hm with he | he <;> simp [he] at hread
    | cons q qs =>
      rw [h,frames_cons,List.append_assoc,readFrame_append hm (hqs q (by simp))] at hread
      obtain ⟨hq,hrest⟩ := FrameRead.payload.inj hread
      obtain ⟨hqs',htu⟩ := ih (fun a ha => hps a (by simp [ha])) (fun a ha => hqs a (by simp [ha]))
        hrest.symm
      exact ⟨by rw [hq,hqs'],htu⟩

end RagRuntime.Store
