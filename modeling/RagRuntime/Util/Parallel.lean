import Mathlib.Data.List.Nodup
import Mathlib.Data.List.Range
import Mathlib.Tactic.Common
import Mathlib.Tactic.Ring

/-! The blocks that `parallel_blocks` passes to its body, in the arithmetic of a 64-bit `size_t`. -/
namespace RagRuntime.Util

def kParallelMin : ℕ := 512

/-- What a `size_t` keeps of a number. -/
def wrap (n : ℕ) : ℕ := n % 2^64

@[simp] lemma wrap_of_lt {n : ℕ} (h : n < 2^64) : wrap n = n := Nat.mod_eq_of_lt h

def blockCount (n workers : ℕ) : ℕ :=
  if n = 0 then 0
  else if n < kParallelMin ∨ workers ≤ 1 then 1
  else min n workers

/-- One call of the body. -/
structure Block where
  lo : ℕ
  hi : ℕ
  number : ℕ
  deriving DecidableEq, Repr

/-- What `for (i = lo; i < hi; ++i)` runs over. -/
def Block.rows (b : Block) : List ℕ := List.range' b.lo (b.hi - b.lo)

def chunkSize (n blocks : ℕ) : ℕ := wrap (n + blocks - 1) / blocks

/-- The block of a helper thread. -/
def helperBlock (n chunk b : ℕ) : Block :=
  let lo := wrap (b*chunk)
  ⟨lo,min (wrap (lo + chunk)) n,b⟩

/-- The calls of the body; the caller takes the last block itself. -/
def parallelBlocks (n workers : ℕ) : List Block :=
  if n = 0 then []
  else
    let blocks := blockCount n workers
    if blocks ≤ 1 then [⟨0,n,0⟩]
    else
      let chunk := chunkSize n blocks
      (List.range (blocks-1)).map (helperBlock n chunk) ++ [⟨wrap ((blocks-1)*chunk),n,blocks-1⟩]

/-- The same blocks over the natural numbers: `m` of size `c`, the last one up to `n`. -/
def cutBlocks (n c m : ℕ) : List Block :=
  (List.range (m-1)).map (fun b => ⟨b*c,min (b*c + c) n,b⟩) ++ [⟨(m-1)*c,n,m-1⟩]

/-- The blocks are ranges of `[0,n)` that meet nowhere and leave nothing out. -/
structure Partitions (n count : ℕ) (blocks : List Block) : Prop where
  ordered : ∀ b ∈ blocks, b.lo ≤ b.hi ∧ b.hi ≤ n
  disjoint : blocks.Pairwise fun a b => ∀ i, ¬ ((a.lo ≤ i ∧ i < a.hi) ∧ b.lo ≤ i ∧ i < b.hi)
  covers : ∀ i < n, ∃ b ∈ blocks, b.lo ≤ i ∧ i < b.hi
  distinct : (blocks.map Block.number).Nodup
  numbered : ∀ b ∈ blocks, b.number < count

@[simp] lemma Block.mem_rows {b : Block} {i : ℕ} : i ∈ b.rows ↔ b.lo ≤ i ∧ i < b.hi := by
  simp only [rows,List.mem_range'_1]
  omega

lemma blockCount_le (n workers : ℕ) : blockCount n workers ≤ max 1 workers := by
  unfold blockCount
  split_ifs <;> omega

lemma blockCount_le_self (n workers : ℕ) : blockCount n workers ≤ n := by
  unfold blockCount
  split_ifs <;> omega

/-- Blocks of one size, cut off at `n`, follow each other. -/
lemma flatMap_cut (n c m : ℕ) :
    (List.range m).flatMap (fun b => List.range' (b*c) (min (b*c + c) n - b*c)) =
      List.range (min (m*c) n) := by
  induction m with
  | zero => simp
  | succ m ih =>
    rw [List.range_succ,List.flatMap_append,ih,List.flatMap_singleton]
    have hsucc : (m+1)*c = m*c + c := by ring
    by_cases hn : n ≤ m*c
    · have hempty : min (m*c + c) n - m*c = 0 := by omega
      rw [hempty,hsucc,min_eq_right hn,min_eq_right (by omega)]
      simp
    · have hfrom : min (m*c) n = m*c := by omega
      rw [hfrom,hsucc,List.range_eq_range',List.range_eq_range']
      have happend := @List.range'_append_1 0 (m*c) (min (m*c + c) n - m*c)
      rw [Nat.zero_add] at happend
      rw [happend]
      congr 1
      omega

lemma cutBlocks_rows (n c m : ℕ) : (cutBlocks n c m).flatMap Block.rows = List.range n := by
  simp only [cutBlocks,List.flatMap_append,List.flatMap_map,List.flatMap_singleton,Block.rows]
  rw [flatMap_cut]
  by_cases hn : n ≤ (m-1)*c
  · rw [min_eq_right hn,Nat.sub_eq_zero_of_le hn]
    simp
  · rw [min_eq_left (by omega),List.range_eq_range',List.range_eq_range']
    have happend := @List.range'_append_1 0 ((m-1)*c) (n - (m-1)*c)
    rw [Nat.zero_add] at happend
    rw [happend]
    congr 1
    omega

/-- Only the last block can be the one that starts behind the range and ends in front of it. -/
lemma cutBlocks_ordered (n c m : ℕ) :
    (∀ b ∈ cutBlocks n c m, b.lo ≤ b.hi ∧ b.hi ≤ n) ↔ (m-1)*c ≤ n := by
  constructor
  · intro ho
    exact (ho ⟨(m-1)*c,n,m-1⟩ (by simp [cutBlocks])).1
  · intro hle b hb
    simp only [cutBlocks,List.mem_append,List.mem_map,List.mem_range,List.mem_singleton] at hb
    rcases hb with ⟨i,hi,rfl⟩ | rfl
    · have hmul : (i+1)*c ≤ (m-1)*c := Nat.mul_le_mul_right c hi
      rw [Nat.add_mul,Nat.one_mul] at hmul
      exact ⟨le_min (Nat.le_add_right _ _) (by show i*c ≤ n; omega),min_le_right _ _⟩
    · exact ⟨hle,le_rfl⟩

lemma chunkSize_eq {n workers : ℕ} (h : n + workers < 2^64) : chunkSize n (blockCount n workers) =
    (n + blockCount n workers - 1)/blockCount n workers := by
  have hle := blockCount_le n workers
  rw [chunkSize,wrap_of_lt (by omega)]

/-- No block starts behind `n` plus the number of blocks. -/
lemma start_le {n workers : ℕ} (h : n + workers < 2^64) {b : ℕ} (hb : b < blockCount n workers) :
    b*chunkSize n (blockCount n workers) ≤ n + blockCount n workers - 1 := by
  rw [chunkSize_eq h]
  set m := blockCount n workers
  calc b*((n + m - 1)/m) ≤ m*((n + m - 1)/m) := Nat.mul_le_mul_right _ hb.le
    _ ≤ n + m - 1 := Nat.mul_div_le _ _

section
variable {n workers : ℕ} (h : n + workers < 2^64) (hblocks : 1 < blockCount n workers)
include h hblocks

lemma start_lt {b : ℕ} (hb : b < blockCount n workers) :
    b*chunkSize n (blockCount n workers) < 2^64 := by
  have hle := blockCount_le n workers
  have hstart := start_le h hb
  omega

lemma helperBlock_eq {b : ℕ} (hb : b + 1 < blockCount n workers) :
    helperBlock n (chunkSize n (blockCount n workers)) b =
      ⟨b*chunkSize n (blockCount n workers),
        min (b*chunkSize n (blockCount n workers) + chunkSize n (blockCount n workers)) n,b⟩ := by
  have hlo := start_lt h hblocks (Nat.lt_of_succ_lt hb)
  have hhi := start_lt h hblocks hb
  rw [Nat.add_mul,Nat.one_mul] at hhi
  simp only [helperBlock,wrap_of_lt hlo,wrap_of_lt hhi]

theorem parallelBlocks_eq : parallelBlocks n workers =
    cutBlocks n (chunkSize n (blockCount n workers)) (blockCount n workers) := by
  have hself := blockCount_le_self n workers
  rw [parallelBlocks,if_neg (by omega),if_neg (by omega)]
  simp only [cutBlocks]
  rw [wrap_of_lt (start_lt h hblocks (by omega))]
  congr 1
  apply List.map_congr_left
  intro b hb
  rw [List.mem_range] at hb
  exact helperBlock_eq h hblocks (by omega)

end

lemma parallelBlocks_bounds {n workers : ℕ} (h : n + workers < 2^64) {b : Block}
    (hb : b ∈ parallelBlocks n workers) : b.lo ≤ n + workers ∧ b.hi ≤ n := by
  by_cases hblocks : 1 < blockCount n workers
  · have hle := blockCount_le n workers
    rw [parallelBlocks_eq h hblocks] at hb
    simp only [cutBlocks,List.mem_append,List.mem_map,List.mem_range,List.mem_singleton] at hb
    rcases hb with ⟨i,hi,rfl⟩ | rfl
    · have hstart := start_le h (b := i) (by omega)
      exact ⟨by dsimp only; omega,min_le_right _ _⟩
    · have hstart := start_le h (b := blockCount n workers - 1) (by omega)
      exact ⟨by dsimp only; omega,le_rfl⟩
  · by_cases hn : n = 0
    · simp [parallelBlocks,hn] at hb
    · rw [parallelBlocks,if_neg hn,if_pos (by omega),List.mem_singleton] at hb
      subst hb
      exact ⟨Nat.zero_le _,le_rfl⟩

/-- Whatever the blocks are, the bodies' loops run over every row once and in order. -/
theorem parallelBlocks_rows {n workers : ℕ} (h : n + workers < 2^64) :
    (parallelBlocks n workers).flatMap Block.rows = List.range n := by
  by_cases hblocks : 1 < blockCount n workers
  · rw [parallelBlocks_eq h hblocks]
    exact cutBlocks_rows _ _ _
  · by_cases hn : n = 0
    · simp [parallelBlocks,hn]
    · rw [parallelBlocks,if_neg hn,if_pos (by omega)]
      simp [Block.rows,List.range_eq_range']

lemma parallelBlocks_number {n workers : ℕ} :
    (parallelBlocks n workers).map Block.number = List.range (blockCount n workers) := by
  by_cases hn : n = 0
  · simp [parallelBlocks,blockCount,hn]
  by_cases hblocks : blockCount n workers ≤ 1
  · have hone : blockCount n workers = 1 := by
      unfold blockCount at hblocks ⊢
      split_ifs at hblocks ⊢ <;> omega
    simp [parallelBlocks,hn,hone]
  · rw [parallelBlocks,if_neg hn,if_neg hblocks]
    have hpred : blockCount n workers = blockCount n workers - 1 + 1 := by omega
    simp only [List.map_append,List.map_map,List.map_singleton]
    conv_rhs => rw [hpred,List.range_succ]
    congr 1
    exact (List.map_congr_left fun b _ => rfl).trans (List.map_id _)

/-- What is left of a partition is that no block ends before it starts. -/
lemma partitions_of_ordered {n workers : ℕ} (h : n + workers < 2^64)
    (ho : ∀ b ∈ parallelBlocks n workers, b.lo ≤ b.hi ∧ b.hi ≤ n) :
    Partitions n (blockCount n workers) (parallelBlocks n workers) := by
  have hrows := parallelBlocks_rows h
  have hnumber := @parallelBlocks_number n workers
  constructor
  · exact ho
  · have hnodup : ((parallelBlocks n workers).flatMap Block.rows).Nodup := by
      rw [hrows]
      exact List.nodup_range
    apply (List.nodup_flatMap.mp hnodup).2.imp
    intro a b hab i hi
    exact hab (Block.mem_rows.mpr hi.1) (Block.mem_rows.mpr hi.2)
  · intro i hi
    have hmem : i ∈ (parallelBlocks n workers).flatMap Block.rows := by
      rw [hrows]
      exact List.mem_range.mpr hi
    obtain ⟨b,hb,hbi⟩ := List.mem_flatMap.mp hmem
    exact ⟨b,hb,Block.mem_rows.mp hbi⟩
  · rw [hnumber]
    exact List.nodup_range
  · intro b hb
    have hmem : b.number ∈ (parallelBlocks n workers).map Block.number := List.mem_map_of_mem hb
    rw [hnumber] at hmem
    exact List.mem_range.mp hmem

/-- The blocks in front of the last one, in full length, do not reach beyond the range. -/
def FitsBlocks (n workers : ℕ) : Prop :=
  n < kParallelMin ∨ workers ≤ 1 ∨
    (min n workers - 1)*((n + min n workers - 1)/min n workers) ≤ n

instance (n workers : ℕ) : Decidable (FitsBlocks n workers) := by
  unfold FitsBlocks
  infer_instance

/-- With at most one block there is nothing to cut. -/
lemma ordered_of_single {n workers : ℕ} (hcount : blockCount n workers ≤ 1) :
    ∀ b ∈ parallelBlocks n workers, b.lo ≤ b.hi ∧ b.hi ≤ n := by
  intro b hb
  by_cases hn : n = 0
  · simp [parallelBlocks,hn] at hb
  · rw [parallelBlocks,if_neg hn,if_pos hcount,List.mem_singleton] at hb
    subst hb
    exact ⟨Nat.zero_le _,le_rfl⟩

theorem ordered_iff {n workers : ℕ} (h : n + workers < 2^64) :
    (∀ b ∈ parallelBlocks n workers, b.lo ≤ b.hi ∧ b.hi ≤ n) ↔ FitsBlocks n workers := by
  by_cases hsmall : n < kParallelMin ∨ workers ≤ 1
  · have hfits : FitsBlocks n workers := by
      rcases hsmall with hn | hw
      · exact .inl hn
      · exact .inr (.inl hw)
    have hcount : blockCount n workers ≤ 1 := by
      unfold blockCount
      split_ifs <;> omega
    exact ⟨fun _ => hfits,fun _ => ordered_of_single hcount⟩
  · have hn : kParallelMin ≤ n := by omega
    have hw : 1 < workers := by omega
    unfold kParallelMin at hn
    have hcount : blockCount n workers = min n workers := by
      rw [blockCount,if_neg (by omega),if_neg hsmall]
    have hblocks : 1 < blockCount n workers := by omega
    rw [parallelBlocks_eq h hblocks,cutBlocks_ordered,chunkSize_eq h,hcount,FitsBlocks,
      kParallelMin]
    omega

end RagRuntime.Util
