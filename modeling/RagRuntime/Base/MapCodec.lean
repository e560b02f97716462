import RagRuntime.Base.Codec
import RagRuntime.Base.OrdMap

/-! Decoders of maps: entries that are read one after the other into a map. -/
namespace RagRuntime.Base
namespace Decoder

variable {ε κ ν : Type} [LinearOrder κ]

/-- The entries of a map, read one after the other into another. -/
theorem reads_entries {step : ℕ → OrdMap κ ν → Decoder ε (OrdMap κ ν)} {put : ℕ → κ × ν → Bytes}
    {l : List (κ × ν)} (hnodup : (l.map Prod.fst).Nodup)
    (h : ∀ e ∈ l, ∀ (m : OrdMap κ ν) i, m.contains e.1 = false →
      Reads (step i m) (put i e) (m.insert e.1 e.2)) :
    Reads (repeatFrom step l.length 0 ∅) (encodeFrom put 0 l)
      (l.foldl (fun (m : OrdMap κ ν) e => m.insert e.1 e.2) ∅) := by
  refine reads_repeatFrom put
    (fun pre => pre.foldl (fun (m : OrdMap κ ν) e => m.insert e.1 e.2) ∅) [] ?_
  intro pre e post hsplit
  rw [← hsplit,List.map_append,List.nodup_append] at hnodup
  rw [List.nil_append,List.foldl_append,List.foldl_cons,List.foldl_nil]
  apply h e (by rw [← hsplit]; simp)
  rw [OrdMap.contains_eq_false]
  cases hfound : (pre.foldl (fun (m : OrdMap κ ν) e => m.insert e.1 e.2) ∅).find? e.1 with
  | none => rfl
  | some v =>
    obtain ⟨e',he',hkey,-⟩ | ⟨hnone,-⟩ :=
      (OrdMap.find?_foldl_insert Prod.fst Prod.snd hnodup.1).mp hfound
    · exact absurd hkey (hnodup.2.2 _ (List.mem_map_of_mem he') _ (by simp))
    · cases hnone

/-- All entries of a map, in any order, make the map again. -/
theorem reads_map {step : ℕ → OrdMap κ ν → Decoder ε (OrdMap κ ν)} {put : ℕ → κ × ν → Bytes}
    {l : List (κ × ν)} {m : OrdMap κ ν} (hperm : l.Perm m.entries)
    (h : ∀ e ∈ m.entries, ∀ (m : OrdMap κ ν) i, m.contains e.1 = false →
      Reads (step i m) (put i e) (m.insert e.1 e.2)) :
    Reads (repeatFrom step m.size 0 ∅) (encodeFrom put 0 l) m := by
  have hnodup : (l.map Prod.fst).Nodup := (hperm.map Prod.fst).nodup_iff.mpr m.keys_nodup
  have hentries := reads_entries hnodup fun e he => h e (hperm.mem_iff.mp he)
  rwa [OrdMap.foldl_insert_entries hperm,hperm.length_eq] at hentries

end Decoder
end RagRuntime.Base
