import Mathlib.Data.List.DropRight
import Mathlib.Data.List.Flatten
import Mathlib.Data.List.GetD

/-! Rows of different lengths in one flat list, found by their offsets; and the trailing rows that
such a layout does not tell from none. -/
namespace RagRuntime.Base

variable {α : Type*}

/-- Where the rows begin, and where the last one ends. -/
def offsets : ℕ → List (List α) → List ℕ
  | start,[] => [start]
  | start,row::rows => start::offsets (start+row.length) rows

/-- What stands between two offsets; nothing outside. -/
def slice (offs : List ℕ) (flat : List α) (i : ℕ) : List α :=
  if i+1 ≥ offs.length then []
  else (flat.drop (offs.getD i 0)).take (offs.getD (i+1) 0 - offs.getD i 0)

lemma length_offsets (start : ℕ) (rows : List (List α)) :
    (offsets start rows).length = rows.length+1 := by
  induction rows generalizing start with
  | nil => rfl
  | cons row rows ih => rw [offsets,List.length_cons,ih,List.length_cons]

lemma getD_offsets (start : ℕ) (rows : List (List α)) {i : ℕ} (hi : i ≤ rows.length) :
    (offsets start rows).getD i 0 = start + (rows.take i).flatten.length := by
  induction rows generalizing start i with
  | nil =>
    obtain rfl := Nat.le_zero.mp hi
    rfl
  | cons row rows ih =>
    cases i with
    | zero => rfl
    | succ i =>
      rw [offsets,List.getD_cons_succ,ih _ (Nat.le_of_succ_le_succ hi),List.take_succ_cons,
        List.flatten_cons,List.length_append,Nat.add_assoc]

/-- A row is read back from its offsets. -/
theorem slice_offsets (rows : List (List α)) (i : ℕ) :
    slice (offsets 0 rows) rows.flatten i = rows.getD i [] := by
  rw [slice,length_offsets]
  split_ifs with hi
  · rw [List.getD_eq_default _ _ (by omega)]
  · have hi : i < rows.length := by omega
    have hsplit : rows.flatten = (rows.take i).flatten ++
        (rows[i] ++ (rows.drop (i+1)).flatten) := by
      rw [← List.flatten_cons,← List.flatten_append,List.getElem_cons_drop,
        List.take_append_drop]
    rw [getD_offsets 0 rows hi.le,getD_offsets 0 rows hi,Nat.zero_add,Nat.zero_add,
      List.take_succ_eq_append_getElem hi,List.flatten_append,List.length_append,
      List.flatten_singleton,Nat.add_sub_cancel_left,hsplit,List.drop_left,List.take_left,
      List.getD_eq_getElem _ _ hi]

/-- The number behind the last index below `n` at which there is something. -/
def height (f : ℕ → List α) (n : ℕ) : ℕ :=
  (List.range n).foldl (fun top i => if f i = [] then top else i+1) 0

lemma height_succ (f : ℕ → List α) (n : ℕ) :
    height f (n+1) = if f n = [] then height f n else n+1 := by
  rw [height,List.range_succ,List.foldl_append]
  rfl

lemma height_le (f : ℕ → List α) (n : ℕ) : height f n ≤ n := by
  induction n with
  | zero => exact le_rfl
  | succ n ih =>
    rw [height_succ]
    split_ifs
    · exact ih.trans (Nat.le_succ n)
    · exact le_rfl

lemma height_congr {f g : ℕ → List α} {n : ℕ} (h : ∀ i < n, f i = g i) :
    height f n = height g n := by
  induction n with
  | zero => rfl
  | succ n ih =>
    rw [height_succ,height_succ,h n (Nat.lt_succ_self n),
      ih fun i hi => h i (Nat.lt_succ_of_lt hi)]

/-- The rows up to the last one that is not empty. -/
theorem map_range_height (rows : List (List α)) {n : ℕ} (hn : rows.length ≤ n) :
    (List.range (height (fun i => rows.getD i []) n)).map (fun i => rows.getD i []) =
      rows.rdropWhile fun row => row = [] := by
  induction n, hn using Nat.le_induction with
  | base =>
    induction rows using List.reverseRecOn with
    | nil => rfl
    | append_singleton rows row ih =>
      have hbefore : ∀ i < rows.length, (rows ++ [row]).getD i [] = rows.getD i [] :=
        fun i hi => List.getD_append _ _ _ _ hi
      have hlast : (rows ++ [row]).getD rows.length [] = row := by simp
      rw [List.length_append,List.length_singleton,height_succ,hlast,
        height_congr (g := fun i => rows.getD i []) hbefore]
      by_cases hrow : row = []
      · rw [if_pos hrow,List.rdropWhile_concat_pos _ _ _ (by simpa using hrow),← ih]
        refine List.map_congr_left fun i hi => hbefore i ?_
        exact (List.mem_range.mp hi).trans_le (height_le _ _)
      · rw [if_neg hrow,List.rdropWhile_concat_neg _ _ _ (by simpa using hrow),List.range_succ,
          List.map_append,List.map_singleton,hlast]
        congr 1
        apply List.ext_getElem
        · simp
        intro i hi hi'
        rw [List.getElem_map,List.getElem_range,hbefore i hi',List.getD_eq_getElem _ _ hi']
  | succ n hn ih =>
    rw [height_succ,if_pos (List.getD_eq_default _ _ hn)]
    exact ih

end RagRuntime.Base
