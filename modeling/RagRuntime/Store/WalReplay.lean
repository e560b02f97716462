import RagRuntime.Store.Wal

/-! Records survive the codec, and replay returns the records of whole frames, whatever
cut tail follows them. -/
namespace RagRuntime.Store
open RagRuntime.Base RagRuntime.Core

/-- A record the log can take in and give back: within both limits of the format. -/
def WalRecord.Loggable (rec : WalRecord) : Prop :=
  (Wal.encode rec).length ≤ kMaxWalRecordBytes ∧ rec.metadata.size ≤ kMaxMetadataEntries

namespace Wal

lemma kRecordMagic_fits : kRecordMagic < 256^4 := by decide

lemma decodeOp_opByte (op : WalOp) : decodeOp (opByte op) = some op := by
  cases op <;> rfl

lemma opByte_fits (op : WalOp) : opByte op < 256^1 := by
  cases op <;> decide

lemma encodeMetadata_length (l : List (Bytes × Bytes)) :
    8*l.length ≤ (encodeMetadata l).length := by
  induction l with
  | nil => simp
  | cons e l ih =>
    simp only [encodeMetadata,List.flatMap_cons,List.length_append,str_length,
      List.length_cons] at ih ⊢
    omega

lemma emplace_lookup (l : List (Bytes × Bytes)) (m : Metadata) (k : Bytes) :
    (l.foldl (fun m e => m.emplace e.1 e.2) m).find? k =
      (m.find? k).or (OrdMap.lookupEntries k l) := by
  induction l generalizing m with
  | nil => simp [OrdMap.lookupEntries]
  | cons e l ih =>
    rw [List.foldl_cons,ih,OrdMap.find?_emplace]
    by_cases hk : k = e.1
    · subst hk
      cases hm : m.find? e.1 <;> simp [OrdMap.lookupEntries]
    · simp [OrdMap.lookupEntries,hk]

/-- Emplacing the entries of a map one after the other builds the map again. -/
lemma emplace_entries (m : Metadata) :
    m.entries.foldl (fun m e => m.emplace e.1 e.2) ∅ = m := by
  apply OrdMap.ext_find?
  intro k
  rw [emplace_lookup,OrdMap.find?_empty,Option.none_or]
  rfl

lemma decodeMetadata_append (l : List (Bytes × Bytes)) (rest : Bytes) (out : Metadata)
    (hl : ∀ e ∈ l, e.1.length < 256^4 ∧ e.2.length < 256^4) :
    decodeMetadata l.length (encodeMetadata l ++ rest) out =
      some (l.foldl (fun m e => m.emplace e.1 e.2) out,rest) := by
  induction l generalizing out with
  | nil => rfl
  | cons e l ih =>
    obtain ⟨h1,h2⟩ := hl e (by simp)
    have htail := ih (out.emplace e.1 e.2) (fun a ha => hl a (by simp [ha]))
    simp only [encodeMetadata] at htail
    simp only [List.length_cons,decodeMetadata,encodeMetadata,List.flatMap_cons,List.append_assoc,
      readStr_append h1,bind,Option.bind,readStr_append h2,List.foldl_cons]
    exact htail

lemma entry_length_le {l : List (Bytes × Bytes)} {e : Bytes × Bytes} (he : e ∈ l) :
    e.1.length + e.2.length ≤ (encodeMetadata l).length := by
  induction l with
  | nil => simp at he
  | cons a l ih =>
    simp only [encodeMetadata,List.flatMap_cons,List.length_append,str_length] at ih ⊢
    rcases List.mem_cons.mp he with rfl | he
    · omega
    · have := ih he
      omega

theorem decode_encode {rec : WalRecord} (h : rec.Loggable) : decode (encode rec) = some rec := by
  obtain ⟨hlen,hmeta⟩ := h
  have hsum : (encode rec).length = 1 + (4 + rec.uri.length + (4 + rec.title.length +
      (4 + rec.text.length + (4 + ((encodeMetadata rec.metadata.entries).length + 4))))) := by
    simp [encode]
  have hfit : ∀ n, n ≤ kMaxWalRecordBytes → n < 256^4 := fun n => uint32_fits
  have hu := hfit rec.uri.length (by omega)
  have ht := hfit rec.title.length (by omega)
  have hx := hfit rec.text.length (by omega)
  have hentries : ∀ e ∈ rec.metadata.entries, e.1.length < 256^4 ∧ e.2.length < 256^4 := by
    intro e he
    have hle := entry_length_le he
    exact ⟨hfit _ (by omega),hfit _ (by omega)⟩
  have hcount := encodeMetadata_length rec.metadata.entries
  have hn : rec.metadata.size < 256^4 := by
    simp only [kMaxMetadataEntries] at hmeta
    omega
  have hroom : rec.metadata.size ≤
      (encodeMetadata rec.metadata.entries ++ leBytes 4 rec.docId.toNat).length/8 := by
    simp only [List.length_append,leBytes_length,OrdMap.size]
    omega
  have hdoc := takeNumber_append (show rec.docId.toNat < 256^4 from rec.docId.toNat_lt) []
  rw [List.append_nil] at hdoc
  have hmetadata : decodeMetadata rec.metadata.size
      (encodeMetadata rec.metadata.entries ++ leBytes 4 rec.docId.toNat) ∅ =
        some (rec.metadata,leBytes 4 rec.docId.toNat) := by
    rw [OrdMap.size,decodeMetadata_append _ _ _ hentries,emplace_entries]
  simp only [decode,encode,takeNumber_append (opByte_fits rec.op),bind,Option.bind,decodeOp_opByte,
    readStr_append hu,readStr_append ht,readStr_append hx,takeNumber_append hn,
    hmeta,hroom,and_self,guard,if_true,hmetadata,hdoc]
  simp

/-- One turn of the replay loop over a whole frame. -/
lemma replayFrom_frame {rec : WalRecord} (h : rec.Loggable) (fuel : ℕ) (rest : Bytes)
    (out : List WalRecord) (hout : out.length < kMaxWalRecords) :
    replayFrom (fuel+1) (recordFrame rec ++ rest) out = replayFrom fuel rest (out ++ [rec]) := by
  simp only [replayFrom,recordFrame,readFrame_append kRecordMagic_fits h.1,decode_encode h]
  rw [if_neg (not_le.mpr hout)]

/-- A cut tail ends the replay with what was read before it. -/
lemma replayFrom_cut {t : Bytes} (h : Cut kRecordMagic t) (fuel : ℕ) {out : List WalRecord}
    (hout : t = [] ∨ out.length < kMaxWalRecords) : replayFrom (fuel+1) t out = .ok out := by
  simp only [replayFrom]
  rcases h.readFrame kRecordMagic_fits with he | he
  · rw [he]
  · rcases hout with rfl | hout
    · cases he
    · rw [he]
      simp only
      rw [if_neg (not_le.mpr hout)]

lemma replayFrom_frames {recs : List WalRecord} (h : ∀ r ∈ recs, r.Loggable) (fuel : ℕ)
    (rest : Bytes) (out : List WalRecord) (hout : out.length + recs.length ≤ kMaxWalRecords) :
    replayFrom (fuel + recs.length) (frames kRecordMagic (recs.map encode) ++ rest) out =
      replayFrom fuel rest (out ++ recs) := by
  induction recs generalizing out with
  | nil => simp
  | cons r recs ih =>
    simp only [List.length_cons] at hout
    have htail := ih (fun a ha => h a (by simp [ha])) (out ++ [r]) (by simp; omega)
    have hstep := replayFrom_frame (h r (by simp)) (fuel + recs.length)
      (frames kRecordMagic (recs.map encode) ++ rest) out (by omega)
    rw [List.map_cons,frames_cons,List.append_assoc,List.length_cons,← Nat.add_assoc]
    rw [recordFrame] at hstep
    rw [hstep,htail,List.append_assoc,List.singleton_append]

/-- More whole frames than the record limit are refused. -/
lemma replayFrom_frames_full {recs : List WalRecord} (h : ∀ r ∈ recs, r.Loggable) (fuel : ℕ)
    (out : List WalRecord) (hout : out.length ≤ kMaxWalRecords)
    (hfull : kMaxWalRecords < out.length + recs.length) (hfuel : recs.length ≤ fuel) :
    ∃ e, replayFrom fuel (frames kRecordMagic (recs.map encode)) out = .error e := by
  induction recs generalizing out fuel with
  | nil =>
    rw [List.length_nil] at hfull
    omega
  | cons r recs ih =>
    obtain ⟨fuel,rfl⟩ := Nat.exists_eq_add_of_le' hfuel
    simp only [List.length_cons] at hfull
    rw [List.map_cons,frames_cons,List.length_cons,← Nat.add_assoc]
    by_cases hroom : out.length < kMaxWalRecords
    · have hstep := replayFrom_frame (h r (by simp)) (fuel + recs.length)
        (frames kRecordMagic (recs.map encode)) out hroom
      rw [recordFrame] at hstep
      rw [hstep]
      apply ih (fun a ha => h a (by simp [ha]))
      · simp only [List.length_append,List.length_singleton]
        omega
      · simp only [List.length_append,List.length_singleton]
        omega
      · omega
    · simp only [replayFrom,readFrame_append kRecordMagic_fits (h r (by simp)).1]
      rw [if_pos (not_lt.mp hroom)]
      exact ⟨_,rfl⟩

theorem replay_frames_full {recs : List WalRecord} (h : ∀ r ∈ recs, r.Loggable)
    (hfull : kMaxWalRecords < recs.length) :
    ∃ e, replay (some (frames kRecordMagic (recs.map encode))) = .error e := by
  have hlen := frames_length_ge kRecordMagic (recs.map encode)
  rw [List.length_map] at hlen
  exact replayFrom_frames_full h _ [] (Nat.zero_le _) (by simpa using hfull) (by omega)

/-- Replay of whole frames and a cut tail returns the records of the frames. -/
theorem replay_frames {recs : List WalRecord} (h : ∀ r ∈ recs, r.Loggable) {t : Bytes}
    (ht : Cut kRecordMagic t) (hcount : recs.length + (if t = [] then 0 else 1) ≤ kMaxWalRecords) :
    replay (some (frames kRecordMagic (recs.map encode) ++ t)) = .ok recs := by
  have hlen := frames_length_ge kRecordMagic (recs.map encode)
  rw [List.length_map] at hlen
  obtain ⟨extra,hextra⟩ := Nat.exists_eq_add_of_le hlen
  have hfuel : (frames kRecordMagic (recs.map encode) ++ t).length + 1 =
      (extra + t.length + 1) + recs.length := by
    rw [List.length_append,hextra]
    omega
  simp only [replay]
  rw [hfuel,replayFrom_frames h _ _ [] (by simp only [List.length_nil]; omega),List.nil_append]
  apply replayFrom_cut ht
  by_cases hnil : t = []
  · exact Or.inl hnil
  · right
    rw [if_neg hnil] at hcount
    omega

end Wal
end RagRuntime.Store
