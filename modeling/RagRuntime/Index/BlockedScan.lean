import RagRuntime.Index.IndexedCorpus
import RagRuntime.Util.Parallel

/-! The exact scan of a dense search, cut into the blocks of its workers. -/
namespace RagRuntime.Index
open RagRuntime.Backend RagRuntime.Dense RagRuntime.Lexical RagRuntime.Util

/-- `hi - lo` of two `size_t`. -/
def extent (hi lo : ℕ) : ℕ := wrap (hi + 2^64 - lo)

/-- What the body reserves for the hits of its block. -/
def reserved (b : Block) : ℕ := wrap (extent b.hi b.lo/4 + 8)

/-- The size that the reservation means. -/
def expectedHits (b : Block) : ℤ := ((b.hi : ℤ) - b.lo)/4 + 8

lemma reserved_eq {b : Block} (h : b.lo ≤ b.hi) (hb : b.hi < 2^64) :
    (reserved b : ℤ) = expectedHits b := by
  have hextent : extent b.hi b.lo = b.hi - b.lo := by
    unfold extent wrap
    omega
  rw [reserved,hextent,wrap_of_lt (by omega),expectedHits]
  omega

/-- The loops of a scan over `n` rows run over each of them once, and each block has room for a part
of its rows and eight more. -/
structure ScansOnce (n workers : ℕ) : Prop where
  visited : ∀ i < n, ((parallelBlocks n workers).flatMap Block.rows).count i = 1
  inside : ∀ i ∈ (parallelBlocks n workers).flatMap Block.rows, i < n
  sized : ∀ b ∈ parallelBlocks n workers, (reserved b : ℤ) = expectedHits b

/-- Reading two lists position by position is reading their pairs. -/
lemma filterMap_range_zip {α β γ : Type*} (f : α → β → Option γ) (xs : List α) (ys : List β) :
    (List.range xs.length).filterMap (fun i => xs[i]?.bind fun x => ys[i]?.bind fun y => f x y) =
      (xs.zip ys).filterMap fun entry => f entry.1 entry.2 := by
  induction xs generalizing ys with
  | nil => simp
  | cons x xs ih =>
    rw [List.length_cons,List.range_succ_eq_map,List.filterMap_cons,List.filterMap_map]
    cases ys with
    | nil =>
      simp
    | cons y ys =>
      have htail := ih ys
      simp only [List.getElem?_cons_zero,Option.bind_some,Function.comp_def,
        List.getElem?_cons_succ,List.zip_cons_cons,List.filterMap_cons,htail]

namespace IndexedCorpus

def scanRow (c : IndexedCorpus) (query : Vec) (allow : ℕ → Bool) (i : ℕ) : Option Hit := do
  let ch ← c.core.chunks[i]?
  let embedding ← c.embeddings[i]?
  if embedding ≠ [] ∧ ch.doc ∉ c.core.deletedDocs ∧ allow ch.id = true then
    some ⟨ch.id,dot embedding query⟩
  else none

/-- The parts of the workers, one after the other. -/
def blockedScan (c : IndexedCorpus) (workers : ℕ) (query : Vec) (allow : ℕ → Bool) : List Hit :=
  (parallelBlocks c.core.chunks.length workers).flatMap fun b =>
    b.rows.filterMap (c.scanRow query allow)

/-- The scan of all the rows, whatever the number of workers. -/
theorem blockedScan_eq (c : IndexedCorpus) {workers : ℕ}
    (h : c.core.chunks.length + workers < 2^64) (query : Vec) (allow : ℕ → Bool) :
    c.blockedScan workers query allow = c.scanHits query allow := by
  have hrows : c.blockedScan workers query allow =
      (List.range c.core.chunks.length).filterMap (c.scanRow query allow) := by
    rw [← parallelBlocks_rows h,List.filterMap_flatMap]
    rfl
  rw [hrows]
  calc (List.range c.core.chunks.length).filterMap (c.scanRow query allow)
      = (c.core.chunks.zip c.embeddings).filterMap fun entry =>
          if entry.2 ≠ [] ∧ entry.1.doc ∉ c.core.deletedDocs ∧ allow entry.1.id = true then
            some ⟨entry.1.id,dot entry.2 query⟩
          else none := filterMap_range_zip _ _ _
    _ = c.scanHits query allow := by
      rw [scanHits,← List.filterMap_eq_map,List.filterMap_filter]
      simp

end IndexedCorpus

theorem parallelBlocks_iff (n workers : ℕ) (h : n + workers < 2^64) :
    Partitions n (blockCount n workers) (parallelBlocks n workers) ∧ ScansOnce n workers ↔
      FitsBlocks n workers := by
  rw [← ordered_iff h]
  constructor
  · rintro ⟨hp,-⟩
    exact hp.ordered
  · intro ho
    have hrows := parallelBlocks_rows h
    refine ⟨partitions_of_ordered h ho,?_,?_,?_⟩
    · intro i hi
      rw [hrows]
      exact List.count_eq_one_of_mem List.nodup_range (List.mem_range.mpr hi)
    · intro i hi
      rw [hrows] at hi
      exact List.mem_range.mp hi
    · intro b hb
      obtain ⟨hle,hn⟩ := ho b hb
      exact reserved_eq hle (by omega)

/-- On eight cores a scan of thousand rows has no block that starts behind its end. -/
theorem thousand_rows_partition :
    Partitions 1000 (blockCount 1000 8) (parallelBlocks 1000 8) ∧ ScansOnce 1000 8 :=
  (parallelBlocks_iff 1000 8 (by decide)).mpr (by decide)

/-- 32 workers share 513 rows by seventeen: the last one starts at row 527. -/
theorem last_block_starts_behind :
    (⟨527,513,31⟩ : Block) ∈ parallelBlocks 513 32 ∧ reserved ⟨527,513,31⟩ = 4611686018427387908 ∧
      ¬ (Partitions 513 (blockCount 513 32) (parallelBlocks 513 32) ∧ ScansOnce 513 32) := by
  have hmem : (⟨527,513,31⟩ : Block) ∈ parallelBlocks 513 32 := by decide
  refine ⟨hmem,by decide,?_⟩
  rintro ⟨hp,-⟩
  have hle := (hp.ordered _ hmem).1
  exact absurd hle (by decide)

end RagRuntime.Index
