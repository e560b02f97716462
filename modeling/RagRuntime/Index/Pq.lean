import RagRuntime.Base.Codebook
import RagRuntime.Base.Overfetch
import RagRuntime.Base.PartialSort
import RagRuntime.Dense.ExactIndex
import RagRuntime.Lexical.Bm25

/-! Product quantization: a vector is kept as one byte a block, the number of the nearest word of
the block's codebook, and scored by a table of the query's products with all words. -/
namespace RagRuntime.Index
open RagRuntime.Base RagRuntime.Core RagRuntime.Backend RagRuntime.Dense RagRuntime.Lexical

structure PqConfig where
  m : ℕ := 8
  ksub : ℕ := 256
  iters : ℕ := 25
  seed : UInt64 := 0x9E3779B97F4A7C15
  deriving DecidableEq

/-- The words of all codebooks in a row, and the codes of the vectors that were added. -/
structure ProductQuantizer where
  cfg : PqConfig := {}
  dim : ℕ := 0
  dsub : ℕ := 0
  centroids : Vec := []
  ids : List ℕ := []
  codes : Bytes := []
  deriving DecidableEq

namespace ProductQuantizer

def subDot (a b : Vec) : ℚ := pairSum (· * ·) a b
def subL2 (a b : Vec) : ℚ := sqDist a b

section codec

variable (pq : ProductQuantizer)

def centroid (sub c : ℕ) : Vec := block pq.centroids pq.dsub (sub*pq.cfg.ksub+c)

/-- The number of the nearest word for one block. -/
def nearestWord (v : Vec) (sub : ℕ) : ℕ :=
  nearest (fun c => subL2 (block v pq.dsub sub) (pq.centroid sub c)) pq.cfg.ksub

def encodeInto (v : Vec) (out : Bytes) : Bytes :=
  ((List.range (min pq.cfg.m out.length)).map fun s => Fin.ofNat 256 (pq.nearestWord v s)) ++
    out.drop pq.cfg.m

def encode (v : Vec) : Bytes := pq.encodeInto v (List.replicate pq.cfg.m 0)

/-- Every row is encoded into its own part of the output. -/
def encodeFlat (data : Vec) (n : ℕ) (out : Bytes) : Bytes :=
  if pq.dim = 0 ∨ out.length < n*pq.cfg.m then out
  else ((List.range n).map fun i =>
    pq.encodeInto (block data pq.dim i) (block out pq.cfg.m i)).flatten ++ out.drop (n*pq.cfg.m)

def copyAt (out : Vec) (position : ℕ) (word : Vec) : Vec :=
  out.take position ++ word ++ out.drop (position+word.length)

def decode (code : Bytes) : Vec :=
  (List.range (min pq.cfg.m code.length)).foldl (fun out s =>
    copyAt out (s*pq.dsub) (pq.centroid s (code.getD s 0))) (List.replicate pq.dim 0)

def adcTable (query : Vec) : Vec :=
  ((List.range pq.cfg.m).map fun s => (List.range pq.cfg.ksub).map fun c =>
    subDot (block query pq.dsub s) (pq.centroid s c)).flatten

def adcScore (code : Bytes) (table : Vec) : ℚ :=
  (List.range (min pq.cfg.m code.length)).foldl (fun total s =>
    total + table.getD (s*pq.cfg.ksub+(code.getD s 0).val) 0) 0

def add (id : ℕ) (v : Vec) : ProductQuantizer :=
  { pq with ids := pq.ids ++ [id], codes := pq.codes ++ pq.encode v }

def hits (query : Vec) : List Hit :=
  let table := pq.adcTable query
  pq.ids.zipIdx.map fun entry =>
    ⟨entry.1,pq.adcScore (block pq.codes pq.cfg.m entry.2) table⟩

def search (sort : PartialSort Hit.score) (query : Vec) (k : ℕ) : List Hit :=
  sort.top k (pq.hits query)

end codec

/-- What training and loading make sure of. -/
structure Shaped (pq : ProductQuantizer) : Prop where
  dim : pq.dim = pq.cfg.m*pq.dsub
  centroids : pq.centroids.length = pq.cfg.m*pq.cfg.ksub*pq.dsub
  some : 0 < pq.cfg.ksub
  byte : pq.cfg.ksub ≤ 256

/-- One byte a block, each the number of a word. -/
def Coded (pq : ProductQuantizer) (code : Bytes) : Prop :=
  code.length = pq.cfg.m ∧ ∀ c ∈ code, c.val < pq.cfg.ksub

section shaped

variable {pq : ProductQuantizer} {code : Bytes} {v query : Vec}

lemma Shaped.length_centroid (h : pq.Shaped) {s c : ℕ} (hs : s < pq.cfg.m)
    (hc : c < pq.cfg.ksub) : (pq.centroid s c).length = pq.dsub := by
  apply length_block h.centroids
  have := Nat.mul_le_mul_right pq.cfg.ksub (Nat.succ_le_of_lt hs)
  rw [Nat.succ_mul] at this
  omega

lemma Coded.lt (h : pq.Coded code) {s : ℕ} (hs : s < pq.cfg.m) :
    (code.getD s 0).val < pq.cfg.ksub := by
  have hlt : s < code.length := h.1 ▸ hs
  rw [List.getD_eq_getElem _ _ hlt]
  exact h.2 _ (List.getElem_mem hlt)

lemma copyAt_append (a b word : Vec) :
    copyAt (a ++ b) a.length word = a ++ word ++ b.drop word.length := by
  rw [copyAt,List.take_left,List.drop_length_add_append]

/-- A code is decoded to the row of its words. -/
lemma Shaped.decode_eq (h : pq.Shaped) (hcode : pq.Coded code) : pq.decode code =
    ((List.range pq.cfg.m).map fun s => pq.centroid s (code.getD s 0)).flatten := by
  have hwords : ∀ n ≤ pq.cfg.m, ∀ w ∈ (List.range n).map fun s => pq.centroid s (code.getD s 0),
      w.length = pq.dsub := by
    intro n hn w hw
    obtain ⟨s,hs,rfl⟩ := List.mem_map.mp hw
    have hs := (List.mem_range.mp hs).trans_le hn
    exact h.length_centroid hs (hcode.lt hs)
  -- the first blocks are written, the others are still zero
  have hrun : ∀ n ≤ pq.cfg.m, (List.range n).foldl (fun out s =>
      copyAt out (s*pq.dsub) (pq.centroid s (code.getD s 0))) (List.replicate pq.dim 0) =
      ((List.range n).map fun s => pq.centroid s (code.getD s 0)).flatten ++
        List.replicate ((pq.cfg.m-n)*pq.dsub) 0 := by
    intro n hn
    induction n with
    | zero => simp [h.dim]
    | succ n ih =>
      have hlength := length_flatten_words (hwords n (Nat.le_of_succ_le hn))
      rw [List.length_map,List.length_range] at hlength
      have hrest : (pq.cfg.m-n)*pq.dsub = pq.dsub + (pq.cfg.m-(n+1))*pq.dsub := by
        have hleft : pq.cfg.m-n = pq.cfg.m-(n+1)+1 := by omega
        rw [hleft,Nat.succ_mul,Nat.add_comm]
      rw [List.range_succ,List.foldl_append,ih (Nat.le_of_succ_le hn),List.foldl_cons,
        List.foldl_nil,← hlength,copyAt_append,h.length_centroid hn (hcode.lt hn),
        List.drop_replicate,List.map_append,List.flatten_append,List.map_singleton,
        List.flatten_singleton,hrest,Nat.add_sub_cancel_left]
  rw [decode,hcode.1,Nat.min_self,hrun _ le_rfl,Nat.sub_self,Nat.zero_mul,List.replicate_zero,
    List.append_nil]

lemma Shaped.length_decode (h : pq.Shaped) (hcode : pq.Coded code) :
    (pq.decode code).length = pq.dim := by
  rw [h.decode_eq hcode,length_flatten_words (d := pq.dsub),List.length_map,List.length_range,h.dim]
  intro w hw
  obtain ⟨s,hs,rfl⟩ := List.mem_map.mp hw
  exact h.length_centroid (List.mem_range.mp hs) (hcode.lt (List.mem_range.mp hs))

lemma encode_eq (pq : ProductQuantizer) (v : Vec) :
    pq.encode v = (List.range pq.cfg.m).map fun s => Fin.ofNat 256 (pq.nearestWord v s) := by
  rw [encode,encodeInto,List.length_replicate,Nat.min_self,List.drop_replicate,Nat.sub_self,
    List.replicate_zero,List.append_nil]

lemma Shaped.val_encode (h : pq.Shaped) (v : Vec) {s : ℕ} (hs : s < pq.cfg.m) :
    ((pq.encode v).getD s 0).val = pq.nearestWord v s := by
  have hlt := (nearest_spec (fun c => subL2 (block v pq.dsub s) (pq.centroid s c)) h.some).1
  rw [encode_eq,List.getD_eq_getElem _ _ (by simpa using hs),List.getElem_map,List.getElem_range]
  exact Nat.mod_eq_of_lt (hlt.trans_le h.byte)

lemma Shaped.coded_encode (h : pq.Shaped) (v : Vec) : pq.Coded (pq.encode v) := by
  have hlength : (pq.encode v).length = pq.cfg.m := by
    rw [encode_eq,List.length_map,List.length_range]
  refine ⟨hlength,fun c hc => ?_⟩
  obtain ⟨s,hs,rfl⟩ := List.getElem_of_mem hc
  have hval := h.val_encode v (hlength ▸ hs)
  rw [List.getD_eq_getElem _ _ hs] at hval
  rw [hval]
  exact (nearest_spec (fun c => subL2 (block v pq.dsub s) (pq.centroid s c)) h.some).1

lemma foldl_add_eq (f : ℕ → ℚ) (l : List ℕ) :
    l.foldl (fun total s => total + f s) 0 = (l.map f).sum := by
  rw [List.sum_eq_foldl,List.foldl_map]

/-- The score from the table is that of the decoded vector. -/
theorem adcScore_decode (h : pq.Shaped) (hcode : pq.Coded code) (hquery : query.length = pq.dim) :
    pq.adcScore code (pq.adcTable query) = dot query (pq.decode code) := by
  have hentry : ∀ s < pq.cfg.m, (pq.adcTable query).getD (s*pq.cfg.ksub+(code.getD s 0).val) 0 =
      subDot (block query pq.dsub s) (pq.centroid s (code.getD s 0)) := by
    intro s hs
    have hrow := @block_flatten _ ((List.range pq.cfg.m).map fun s =>
      (List.range pq.cfg.ksub).map fun c => subDot (block query pq.dsub s) (pq.centroid s c))
      pq.cfg.ksub (by simp) s (by simpa using hs)
    rw [← getD_block _ (hcode.lt hs),adcTable,hrow,List.getElem_map,List.getElem_range,
      List.getD_eq_getElem _ _ (by simpa using hcode.lt hs),List.getElem_map,List.getElem_range]
  have hwords := pairSum_words (fun x y : ℚ => x*y) (hquery.trans h.dim)
    fun s hs => h.length_centroid hs (hcode.lt hs)
  rw [adcScore,hcode.1,Nat.min_self,h.decode_eq hcode,dot]
  refine Eq.trans ?_ hwords.symm
  rw [foldl_add_eq]
  exact congrArg List.sum (List.map_congr_left fun s hs => hentry s (List.mem_range.mp hs))

/-- The distance to a decoded vector is that of the blocks to the words. -/
lemma Shaped.subL2_decode (h : pq.Shaped) (hv : v.length = pq.dim) (hcode : pq.Coded code) :
    subL2 v (pq.decode code) = ((List.range pq.cfg.m).map fun s =>
      subL2 (block v pq.dsub s) (pq.centroid s (code.getD s 0))).sum := by
  rw [h.decode_eq hcode]
  exact pairSum_words _ (hv.trans h.dim) fun s hs => h.length_centroid hs (hcode.lt hs)

/-- No other code is decoded to a vector that is closer. -/
theorem encode_nearest (h : pq.Shaped) (hv : v.length = pq.dim) (hcode : pq.Coded code) :
    subL2 v (pq.decode (pq.encode v)) ≤ subL2 v (pq.decode code) := by
  rw [h.subL2_decode hv (h.coded_encode v),h.subL2_decode hv hcode]
  apply List.sum_le_sum
  intro s hs
  have hs := List.mem_range.mp hs
  rw [h.val_encode v hs]
  exact (nearest_spec (fun c => subL2 (block v pq.dsub s) (pq.centroid s c)) h.some).2.1 _
    (hcode.lt hs)

/-- Rows are encoded one by one. -/
lemma encodeFlat_eq (hpos : pq.dim ≠ 0) {rows : List Vec}
    (hrows : ∀ row ∈ rows, row.length = pq.dim) {out : Bytes}
    (hout : out.length = rows.length*pq.cfg.m) :
    pq.encodeFlat rows.flatten rows.length out = (rows.map pq.encode).flatten := by
  rw [encodeFlat,if_neg (not_or.mpr ⟨hpos,by omega⟩),List.drop_of_length_le hout.le,List.append_nil]
  congr 1
  apply List.ext_getElem
  · simp
  intro i hi _
  have hi : i < rows.length := by simpa using hi
  have hlength := length_block hout hi
  rw [List.getElem_map,List.getElem_map,List.getElem_range,block_flatten hrows hi,encode_eq,
    encodeInto,hlength,Nat.min_self,List.drop_of_length_le hlength.le,List.append_nil]

/-- A decoded vector is coded without loss. -/
theorem decode_encode_decode (h : pq.Shaped) (hcode : pq.Coded code) :
    pq.decode (pq.encode (pq.decode code)) = pq.decode code := by
  have hlength := h.length_decode hcode
  have hbest := encode_nearest h hlength hcode
  have hself : subL2 (pq.decode code) (pq.decode code) = 0 := sqDist_self _
  rw [hself] at hbest
  have hcoded := h.length_decode (h.coded_encode (pq.decode code))
  exact (eq_of_sqDist_eq_zero (hlength.trans hcoded.symm)
    (le_antisymm hbest (sqDist_nonneg _ _))).symm

end shaped

section search

variable {pq : ProductQuantizer}

/-- A quantizer with the vectors `entries` added to it. -/
def filled (pq : ProductQuantizer) (entries : List (ℕ × Vec)) : ProductQuantizer :=
  entries.foldl (fun pq entry => pq.add entry.1 entry.2) pq

/-- Adding changes the ids and the codes, and no more. -/
lemma filled_eq (pq : ProductQuantizer) (entries : List (ℕ × Vec)) : pq.filled entries =
    { pq with
      ids := pq.ids ++ entries.map Prod.fst
      codes := pq.codes ++ (entries.map fun entry => pq.encode entry.2).flatten } := by
  induction entries using List.reverseRecOn with
  | nil => simp [filled]
  | append_singleton entries entry ih =>
    rw [filled,List.foldl_append]
    change (pq.filled entries).add entry.1 entry.2 = _
    rw [ih]
    simp [add,encode,encodeInto,nearestWord,centroid]

lemma leads_top {α : Type} {score : α → ℚ} (sort : PartialSort score) (k : ℕ) (l : List α) :
    Leads score l k (sort.top k l) where
  length := sort.length_top k l
  members := (List.take_sublist _ _).subperm.trans (sort.perm _ l).subperm
  descending := sort.sorted _ l
  greatest := by
    intro a ha b hb hnot
    refine sort.best _ l a ha b ?_
    have hmem := (sort.perm (min k l.length) l).mem_iff.mpr hb
    rw [← List.take_append_drop (min k l.length) (sort.sort _ l),List.mem_append] at hmem
    exact hmem.resolve_left hnot

lemma hits_filled (h : pq.Shaped) (hids : pq.ids = []) (hcodes : pq.codes = []) {query : Vec}
    (hquery : query.length = pq.dim) (entries : List (ℕ × Vec)) : (pq.filled entries).hits query =
      entries.map fun entry => ⟨entry.1,dot query (pq.decode (pq.encode entry.2))⟩ := by
  have hwords : ∀ w ∈ entries.map fun entry => pq.encode entry.2, w.length = pq.cfg.m := by
    intro w hw
    obtain ⟨entry,-,rfl⟩ := List.mem_map.mp hw
    exact (h.coded_encode entry.2).1
  rw [filled_eq,hits,hids,hcodes]
  apply List.ext_getElem
  · simp
  intro i hi _
  have hi : i < entries.length := by simpa using hi
  have hcode := block_flatten hwords (s := i) (by simpa using hi)
  rw [List.getElem_map] at hcode
  rw [List.getElem_map,List.getElem_zipIdx,List.getElem_map]
  simp only [List.nil_append,List.getElem_map,Nat.zero_add]
  rw [hcode]
  have hshaped : Shaped { pq with
      ids := entries.map Prod.fst
      codes := (entries.map fun entry => pq.encode entry.2).flatten } :=
    ⟨h.dim,h.centroids,h.some,h.byte⟩
  exact congrArg (Hit.mk entries[i].1) (adcScore_decode hshaped (h.coded_encode _) hquery)

/-- A search ranks what was added by the products with the decoded vectors. -/
theorem search_filled (h : pq.Shaped) (hids : pq.ids = []) (hcodes : pq.codes = [])
    (sort : PartialSort Hit.score) {query : Vec} (hquery : query.length = pq.dim)
    (entries : List (ℕ × Vec)) (k : ℕ) :
    Leads Hit.score
      (entries.map fun entry => ⟨entry.1,dot query (pq.decode (pq.encode entry.2))⟩) k
      ((pq.filled entries).search sort query k) := by
  rw [search,hits_filled h hids hcodes hquery]
  exact leads_top sort k _

end search
end ProductQuantizer
end RagRuntime.Index
