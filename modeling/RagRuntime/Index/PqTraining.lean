import RagRuntime.Base.Single
import RagRuntime.Index.Pq

/-! Training of a product quantizer: seeds drawn as by k-means++, then rounds of Lloyd's algorithm
that give a word without points to the point that is furthest from its own. Training is in an
arithmetic of its own, and what it does is compared with exact distances. -/
namespace RagRuntime.Index
open RagRuntime.Base RagRuntime.Core RagRuntime.Backend RagRuntime.Dense RagRuntime.Lexical

/-- The random engine, one for each block, and the two distributions that are drawn from it. -/
structure Engine (σ : Type) where
  seeded : UInt64 → σ
  below : ℕ → σ → ℕ × σ
  upTo : ℚ → σ → ℚ × σ
  below_lt : ∀ n s, 0 < n → (below n s).1 < n

/-- What a training computes with: the distances, the sums and quotients of entries, and the running
sums that a seed is drawn by. -/
structure PqArithmetic where
  subL2 : Vec → Vec → ℚ
  add : ℚ → ℚ → ℚ
  divide : ℚ → ℕ → ℚ
  accumulate : ℚ → ℚ → ℚ

namespace PqArithmetic

variable (A : PqArithmetic)

def vecSum (d : ℕ) (points : List Vec) : Vec :=
  points.foldl (List.zipWith A.add) (List.replicate d 0)

def mean (d : ℕ) (points : List Vec) : Vec := (A.vecSum d points).map (A.divide · points.length)

/-- A word that a training on these points can arrive at. -/
def Attained (d : ℕ) (points : List Vec) (w : Vec) : Prop :=
  w ∈ points ∨ ∃ part, List.Sublist part points ∧ part ≠ [] ∧ w = A.mean d part

/-- Distances are right up to the part `ε` of them and up to `η`, the entries of means up to `δ`. -/
structure Accurate (ε η δ : ℚ) (d : ℕ) (points : List Vec) : Prop where
  part : 0 ≤ ε ∧ ε < 1
  rest : 0 ≤ η
  subL2 : ∀ p ∈ points, ∀ w, A.Attained d points w → DistanceWithin ε η A.subL2 p w
  mean : ∀ part, List.Sublist part points → part ≠ [] → ∀ i < d,
    |(A.mean d part).getD i 0 - (Base.mean d part).getD i 0| ≤ δ

variable {A} {ε η δ : ℚ} {d : ℕ} {points : List Vec}

lemma length_vecSum (h : ∀ p ∈ points, p.length = d) : (A.vecSum d points).length = d :=
  length_foldl_zipWith _ h List.length_replicate

lemma Attained.length {w : Vec} (h : A.Attained d points w) (hpoints : ∀ p ∈ points, p.length = d) :
    w.length = d := by
  obtain hw | ⟨part,hpart,-,rfl⟩ := h
  · exact hpoints w hw
  · rw [mean,List.length_map,length_vecSum fun p hp => hpoints p (hpart.subset hp)]

lemma Accurate.one_le (h : A.Accurate ε η δ d points) : 1 ≤ (1+ε)/(1-ε) := by
  rw [le_div_iff₀ (sub_pos.mpr h.part.2)]
  linarith [h.part.1]

lemma Accurate.turn_nonneg (h : A.Accurate ε η δ d points) :
    0 ≤ (points.length : ℚ)*(2*η/(1-ε) + d*(δ*δ)) := by
  have hpart := div_nonneg (mul_nonneg zero_le_two h.rest) (sub_pos.mpr h.part.2).le
  have hentries := mul_nonneg (Nat.cast_nonneg (α := ℚ) d) (mul_self_nonneg δ)
  exact mul_nonneg (Nat.cast_nonneg _) (add_nonneg hpart hentries)

end PqArithmetic

namespace ProductQuantizer

/-- Arithmetic without rounding. -/
def exact : PqArithmetic := ⟨subL2,(· + ·),fun x n => x/n,(· + ·)⟩

/-- `d2` has no number before the first word is compared. -/
structure Seeding (σ : Type) where
  engine : σ
  d2 : List (Option ℚ)
  words : List Vec

structure Clusters where
  words : List Vec
  assign : List ℕ
  deriving DecidableEq

section training

variable {σ : Type} (A : PqArithmetic) (engine : Engine σ) (points : List Vec)

def lowered (prev v : Vec) (old : Option ℚ) : ℚ :=
  match old with
  | none => A.subL2 v prev
  | some d2 => if A.subL2 v prev < d2 then A.subL2 v prev else d2

/-- The point at which the running sum reaches the target, or the last one. -/
def reaching (target : ℚ) : ℕ → ℚ → List ℚ → ℕ → ℕ
  | _,_,[],chosen => chosen
  | i,total,d2::rest,_ =>
    if target ≤ A.accumulate total d2 then i
    else reaching target (i+1) (A.accumulate total d2) rest i

def seedTurn (run : Seeding σ) : Seeding σ :=
  let d2 := List.zipWith (lowered A (run.words.getLastD [])) points run.d2
  let total := d2.foldl A.accumulate 0
  let chosen := if total ≤ 0 then engine.below points.length run.engine
    else
      let target := engine.upTo total run.engine
      (reaching A target.1 0 0 d2 0,target.2)
  ⟨chosen.2,d2.map some,run.words ++ [points.getD chosen.1 []]⟩

def seeds (ksub : ℕ) (state : σ) : List Vec :=
  let first := engine.below points.length state
  ((List.range (ksub-1)).foldl (fun run _ => seedTurn A engine points run)
    ⟨first.2,List.replicate points.length none,[points.getD first.1 []]⟩).words

/-- The sum and the number of the points of each word. -/
def totals (dsub ksub : ℕ) (assign : List ℕ) : List Vec × List ℕ :=
  (points.zip assign).foldl (fun totals entry =>
    (totals.1.modify entry.2 (fun sum => List.zipWith A.add sum entry.1),
      totals.2.modify entry.2 (· + 1)))
    (List.replicate ksub (List.replicate dsub 0),List.replicate ksub 0)

/-- The first of the points that are furthest from their own words. -/
def furthest (run : Clusters) : ℕ :=
  ((points.zip run.assign).zipIdx.foldl (fun worst entry =>
    let d := A.subL2 entry.1.1 (run.words.getD entry.1.2 [])
    if worst.1 < d then (d,entry.2) else worst) ((-1 : ℚ),0)).2

/-- The flag tells that the assignment was changed. -/
def renewWord (totals : List Vec × List ℕ) (run : Clusters × Bool) (c : ℕ) : Clusters × Bool :=
  if totals.2.getD c 0 ≠ 0 then
    ({ run.1 with
      words := run.1.words.set c ((totals.1.getD c []).map (A.divide · (totals.2.getD c 0))) },
      run.2)
  else
    let worst := furthest A points run.1
    (⟨run.1.words.set c (points.getD worst []),run.1.assign.set worst c⟩,true)

def lloydTurn (dsub : ℕ) (run : Clusters) : Clusters × Bool :=
  let assign := points.map (nearestBy A.subL2 run.words)
  (List.range run.words.length).foldl
    (renewWord A points (totals A points dsub run.words.length assign))
    (⟨run.words,assign⟩,decide (run.assign ≠ assign))

/-- Rounds from the round `it` on, until nothing changes. -/
def lloyd (dsub : ℕ) : ℕ → ℕ → Clusters → Clusters
  | 0,_,run => run
  | left+1,it,run =>
    let next := lloydTurn A points dsub run
    if next.2 = false ∧ 0 < it then next.1 else lloyd dsub left (it+1) next.1

/-- The codebook of one block. -/
def trainBlock (cfg : PqConfig) (dsub s : ℕ) : List Vec :=
  (lloyd A points dsub cfg.iters 0 ⟨seeds A engine points (min cfg.ksub points.length)
    (engine.seeded (cfg.seed ^^^ (0x9E3779B97F4A7C15*(UInt64.ofNat s+1)))),
      List.replicate points.length 0⟩).words

end training

section train

variable {σ : Type} (A : PqArithmetic) (engine : Engine σ)

/-- Words that have no seed stay zero. -/
def trainFlat (data : Vec) (n dim : ℕ) (cfg : PqConfig) : Result ProductQuantizer :=
  if n = 0 then fail .invalidArgument "pq: no training data"
  else if dim = 0 ∨ cfg.m = 0 ∨ dim%cfg.m ≠ 0 then
    fail .invalidArgument "pq: dim must be divisible by m"
  else if cfg.ksub = 0 ∨ cfg.ksub > 256 then fail .invalidArgument "pq: ksub must be 1..256"
  else if data.length < n*dim then fail .invalidArgument "pq: short training arena"
  else
    let dsub := dim/cfg.m
    .ok { cfg := cfg, dim := dim, dsub := dsub
          centroids := ((List.range cfg.m).map fun s =>
            (trainBlock A engine ((List.range n).map fun i =>
              (data.drop (i*dim+s*dsub)).take dsub) cfg dsub s).flatten ++
                List.replicate ((cfg.ksub-min cfg.ksub n)*dsub) 0).flatten }

def train (data : List Vec) (cfg : PqConfig) : Result ProductQuantizer :=
  match data with
  | [] => fail .invalidArgument "pq: no training data"
  | first::_ =>
    if data.any fun v => v.length ≠ first.length then
      fail .invalidArgument "pq: ragged training data"
    else trainFlat A engine data.flatten data.length first.length cfg

end train

section turn

variable {A : PqArithmetic} {points : List Vec} {dsub : ℕ}

/-- Each word is credited with its own points, in their order. -/
lemma totals_spec (A : PqArithmetic) (points : List Vec) (dsub ksub : ℕ) (assign : List ℕ) :
    (totals A points dsub ksub assign).1.length = ksub ∧
      (totals A points dsub ksub assign).2.length = ksub ∧ ∀ c < ksub,
        (totals A points dsub ksub assign).1.getD c [] =
          A.vecSum dsub (members (points.zip assign) c) ∧
        (totals A points dsub ksub assign).2.getD c 0 =
          (members (points.zip assign) c).length := by
  rw [totals]
  induction points.zip assign using List.reverseRecOn with
  | nil =>
    refine ⟨List.length_replicate,List.length_replicate,fun c hc => ?_⟩
    rw [List.foldl_nil,List.getD_replicate _ hc,List.getD_replicate _ hc]
    exact ⟨rfl,rfl⟩
  | append_singleton entries e ih =>
    obtain ⟨hsums,hcounts,hrows⟩ := ih
    rw [List.foldl_append,List.foldl_cons,List.foldl_nil]
    refine ⟨by rw [List.length_modify,hsums],by rw [List.length_modify,hcounts],fun c hc => ?_⟩
    obtain ⟨hsum,hcount⟩ := hrows c hc
    rw [List.getD_eq_getElem _ _ (by rwa [hsums])] at hsum
    rw [List.getD_eq_getElem _ _ (by rwa [hcounts])] at hcount
    rw [List.getD_eq_getElem _ _ (by rwa [List.length_modify,hsums]),
      List.getD_eq_getElem _ _ (by rwa [List.length_modify,hcounts]),List.getElem_modify,
      List.getElem_modify,hsum,hcount]
    by_cases he : e.2 = c
    · rw [if_pos he,if_pos he]
      simp [members,he,PqArithmetic.vecSum]
    · rw [if_neg he,if_neg he]
      simp [members,he]

lemma furthest_lt (hsome : points ≠ []) (run : Clusters) :
    furthest A points run < points.length := by
  have hpos := List.length_pos_of_ne_nil hsome
  rw [furthest]
  have hall : ∀ entry ∈ (points.zip run.assign).zipIdx, entry.2 < points.length := by
    intro entry hentry
    have hlt := List.snd_lt_of_mem_zipIdx hentry
    rw [List.length_zip] at hlt
    omega
  generalize (points.zip run.assign).zipIdx = entries at hall
  induction entries using List.reverseRecOn with
  | nil => exact hpos
  | append_singleton entries entry ih =>
    rw [List.foldl_append,List.foldl_cons,List.foldl_nil]
    dsimp only
    split_ifs
    · exact hall entry (by simp)
    · exact ih fun entry hentry => hall entry (by simp [hentry])

lemma getD_mem {i : ℕ} (hi : i < points.length) : points.getD i [] ∈ points := by
  rw [List.getD_eq_getElem _ _ hi]
  exact List.getElem_mem hi

/-- What one word becomes does not touch the others. -/
lemma renewWord_spec (hsome : points ≠ []) (totals : List Vec × List ℕ) (run : Clusters × Bool)
    {c : ℕ} (hc : c < run.1.words.length)
    (hmean : totals.2.getD c 0 ≠ 0 →
      A.Attained dsub points ((totals.1.getD c []).map (A.divide · (totals.2.getD c 0)))) :
    (renewWord A points totals run c).1.words.length = run.1.words.length ∧
      ((∀ w ∈ run.1.words, A.Attained dsub points w) →
        ∀ w ∈ (renewWord A points totals run c).1.words, A.Attained dsub points w) ∧
      (∀ i ≠ c, (renewWord A points totals run c).1.words.getD i [] = run.1.words.getD i []) ∧
      (totals.2.getD c 0 ≠ 0 → (renewWord A points totals run c).1.words.getD c [] =
        (totals.1.getD c []).map (A.divide · (totals.2.getD c 0))) := by
  have hset : ∀ w : Vec, ∀ i ≠ c, (run.1.words.set c w).getD i [] = run.1.words.getD i [] := by
    intro w i hi
    rw [List.getD_eq_getElem?_getD,List.getElem?_set_ne (Ne.symm hi),List.getD_eq_getElem?_getD]
  have hmem : ∀ w : Vec, A.Attained dsub points w →
      (∀ w ∈ run.1.words, A.Attained dsub points w) →
      ∀ w' ∈ run.1.words.set c w, A.Attained dsub points w' := by
    intro w hw hwords w' hw'
    obtain hw' | rfl := List.mem_or_eq_of_mem_set hw'
    · exact hwords w' hw'
    · exact hw
  rw [renewWord]
  split_ifs with hcount
  · refine ⟨List.length_set,hmem _ (hmean hcount),hset _,fun _ => ?_⟩
    rw [List.getD_eq_getElem _ _ (by rwa [List.length_set]),List.getElem_set_self]
  · exact ⟨List.length_set,hmem _ (.inl (getD_mem (furthest_lt hsome _))),hset _,
      fun h => absurd h hcount⟩

/-- The words are ones that a training can arrive at, and are not none. -/
structure Worded (A : PqArithmetic) (dsub : ℕ) (points words : List Vec) : Prop where
  attained : ∀ w ∈ words, A.Attained dsub points w
  some : words ≠ []

/-- Every word with points becomes their mean. -/
lemma lloydTurn_spec (hsome : points ≠ []) {run : Clusters}
    (hwords : Worded A dsub points run.words) :
    (lloydTurn A points dsub run).1.words.length = run.words.length ∧
      Worded A dsub points (lloydTurn A points dsub run).1.words ∧
      ∀ c, members (points.map fun p => (p,nearestBy A.subL2 run.words p)) c ≠ [] →
        (lloydTurn A points dsub run).1.words.getD c [] =
          A.mean dsub (members (points.map fun p => (p,nearestBy A.subL2 run.words p)) c) := by
  set entries := points.map fun p => (p,nearestBy A.subL2 run.words p) with hentries
  have hzip : points.zip (points.map (nearestBy A.subL2 run.words)) = entries := by
    have h := @List.zip_map' _ _ _ id (nearestBy A.subL2 run.words) points
    rwa [List.map_id] at h
  obtain ⟨hsums,-,hrows⟩ := totals_spec A points dsub run.words.length
    (points.map (nearestBy A.subL2 run.words))
  rw [hzip] at hrows
  set total := totals A points dsub run.words.length (points.map (nearestBy A.subL2 run.words))
    with htotal
  have hmean : ∀ c < run.words.length, (total.1.getD c []).map (A.divide · (total.2.getD c 0)) =
      A.mean dsub (members entries c) := by
    intro c hc
    obtain ⟨hsum,hcount⟩ := hrows c hc
    rw [hsum,hcount,PqArithmetic.mean]
  have hattained : ∀ c < run.words.length, total.2.getD c 0 ≠ 0 →
      A.Attained dsub points ((total.1.getD c []).map (A.divide · (total.2.getD c 0))) := by
    intro c hc hcount
    rw [(hrows c hc).2] at hcount
    exact .inr ⟨_,members_sublist points _ c,List.length_pos_iff.mp (Nat.pos_of_ne_zero hcount),
      hmean c hc⟩
  -- the words before the `n`-th are renewed, the others are as they were
  have hrun : ∀ n ≤ run.words.length, ∀ start : Clusters × Bool, start.1.words = run.words →
      ((List.range n).foldl (renewWord A points total) start).1.words.length = run.words.length ∧
      (∀ w ∈ ((List.range n).foldl (renewWord A points total) start).1.words,
        A.Attained dsub points w) ∧
      ∀ c < n, total.2.getD c 0 ≠ 0 →
        ((List.range n).foldl (renewWord A points total) start).1.words.getD c [] =
          (total.1.getD c []).map (A.divide · (total.2.getD c 0)) := by
    intro n hn start hstart
    induction n with
    | zero =>
      rw [List.range_zero,List.foldl_nil,hstart]
      exact ⟨rfl,hwords.attained,fun c hc => absurd hc (Nat.not_lt_zero c)⟩
    | succ n ih =>
      obtain ⟨hlength,hlengths,hmeans⟩ := ih (Nat.le_of_succ_le hn)
      rw [List.range_succ,List.foldl_append,List.foldl_cons,List.foldl_nil]
      obtain ⟨hkeeps,hwords',hothers,hrenewed⟩ := renewWord_spec hsome total
        ((List.range n).foldl (renewWord A points total) start) (c := n) (by omega) (hattained n hn)
      refine ⟨hkeeps.trans hlength,hwords' hlengths,fun c hc hcount => ?_⟩
      obtain hc | rfl := Nat.lt_succ_iff_lt_or_eq.mp hc
      · rw [hothers c hc.ne]
        exact hmeans c hc hcount
      · exact hrenewed hcount
  obtain ⟨hlength,hlengths,hmeans⟩ := hrun run.words.length le_rfl
    (⟨run.words,points.map (nearestBy A.subL2 run.words)⟩,
      decide (run.assign ≠ points.map (nearestBy A.subL2 run.words))) rfl
  change (lloydTurn A points dsub run).1.words.length = _ at hlength
  refine ⟨hlength,⟨hlengths,?_⟩,fun c hc => ?_⟩
  · intro hnone
    rw [hnone,List.length_nil] at hlength
    exact hwords.some (List.length_eq_zero_iff.mp hlength.symm)
  · have hlt : c < run.words.length := by
      obtain ⟨p,hp⟩ := List.exists_mem_of_ne_nil _ hc
      obtain ⟨q,-,hq⟩ := List.mem_map.mp (mem_members.mp hp)
      rw [← (Prod.mk.inj hq).2]
      exact nearestBy_lt _ hwords.some q
    have hcount : total.2.getD c 0 ≠ 0 := by
      rw [(hrows c hlt).2]
      exact (List.length_pos_iff.mpr hc).ne'
    exact (hmeans c hlt hcount).trans (hmean c hlt)

lemma Worded.length {words : List Vec} (h : Worded A dsub points words)
    (hpoints : ∀ p ∈ points, p.length = dsub) : ∀ w ∈ words, w.length = dsub :=
  fun w hw => (h.attained w hw).length hpoints

/-- A round brings the points hardly further from the codebook. -/
lemma lloydTurn_distortion (hsome : points ≠ []) (hpoints : ∀ p ∈ points, p.length = dsub)
    {ε η δ : ℚ} (hA : A.Accurate ε η δ dsub points) {run : Clusters}
    (hwords : Worded A dsub points run.words) :
    distortion (lloydTurn A points dsub run).1.words points ≤
      (1+ε)/(1-ε)*distortion run.words points +
        points.length*(2*η/(1-ε) + dsub*(δ*δ)) := by
  obtain ⟨hlength,hnext,hmeans⟩ := lloydTurn_spec hsome hwords
  refine distortion_round_le hA.part.2 hpoints (hwords.length hpoints) hwords.some
    (hnext.length hpoints) hlength (fun p hp w hw => hA.subL2 p hp w (hwords.attained w hw)) ?_
  intro c hc i hi
  rw [hmeans c hc]
  exact hA.mean _ (members_sublist points _ c) hc i hi

lemma lloyd_spec (hsome : points ≠ []) (left it : ℕ) {run : Clusters}
    (hwords : Worded A dsub points run.words) :
    (lloyd A points dsub left it run).words.length = run.words.length ∧
      Worded A dsub points (lloyd A points dsub left it run).words := by
  induction left generalizing it run with
  | zero => exact ⟨rfl,hwords⟩
  | succ left ih =>
    obtain ⟨hlength,hnext,-⟩ := lloydTurn_spec hsome hwords
    rw [lloyd]
    split_ifs
    · exact ⟨hlength,hnext⟩
    · obtain ⟨hlength',hnext'⟩ := ih (it+1) hnext
      exact ⟨hlength'.trans hlength,hnext'⟩

/-- The bound of one round, as often as there are rounds. -/
lemma lloyd_distortion (hsome : points ≠ []) (hpoints : ∀ p ∈ points, p.length = dsub)
    {ε η δ : ℚ} (hA : A.Accurate ε η δ dsub points) (left it : ℕ) {run : Clusters}
    (hwords : Worded A dsub points run.words) :
    distortion (lloyd A points dsub left it run).words points ≤
      drifted ((1+ε)/(1-ε)) (points.length*(2*η/(1-ε) + dsub*(δ*δ))) left
        (distortion run.words points) := by
  induction left generalizing it run with
  | zero => rw [drifted_zero,lloyd]
  | succ left ih =>
    obtain ⟨-,hnext,-⟩ := lloydTurn_spec hsome hwords
    have hturn := lloydTurn_distortion hsome hpoints hA hwords
    have hmore := drifted_mono (b := points.length*(2*η/(1-ε) + dsub*(δ*δ))) hA.one_le left hturn
    rw [drifted_succ,lloyd]
    split_ifs
    · exact (le_drifted hA.one_le hA.turn_nonneg left (distortion_nonneg _ _)).trans hmore
    · exact (ih (it+1) hnext).trans hmore

/-- More rounds are further rounds, unless the fewer ones already stopped. -/
lemma lloyd_add (left more it : ℕ) (run : Clusters) :
    lloyd A points dsub (left+more) it run = lloyd A points dsub left it run ∨
      lloyd A points dsub (left+more) it run =
        lloyd A points dsub more (it+left) (lloyd A points dsub left it run) := by
  induction left generalizing it run with
  | zero => exact .inr (by rw [Nat.zero_add,Nat.add_zero,lloyd])
  | succ left ih =>
    rw [Nat.succ_add,lloyd,lloyd]
    split_ifs
    · exact .inl rfl
    · have hrest := ih (it+1) (lloydTurn A points dsub run).1
      rwa [Nat.add_right_comm it 1 left] at hrest

end turn

section seeding

variable {σ : Type} {A : PqArithmetic} {engine : Engine σ} {points : List Vec} {dsub : ℕ}

lemma reaching_lt {target total : ℚ} {i chosen n : ℕ} (d2 : List ℚ) (hn : i+d2.length ≤ n)
    (hchosen : chosen < n) : reaching A target i total d2 chosen < n := by
  induction d2 generalizing i total chosen with
  | nil => exact hchosen
  | cons d rest ih =>
    rw [List.length_cons] at hn
    rw [reaching]
    split_ifs
    · omega
    · exact ih (by omega) (by omega)

/-- A turn draws one more point as a word. -/
lemma seedTurn_spec (hsome : points ≠ []) {run : Seeding σ} (hd2 : run.d2.length = points.length) :
    (seedTurn A engine points run).d2.length = points.length ∧
      ∃ p ∈ points, (seedTurn A engine points run).words = run.words ++ [p] := by
  have hpos := List.length_pos_of_ne_nil hsome
  have hlength : (List.zipWith (lowered A (run.words.getLastD [])) points run.d2).length =
      points.length := by
    rw [List.length_zipWith,hd2,Nat.min_self]
  refine ⟨by rw [seedTurn,List.length_map,hlength],_,getD_mem ?_,rfl⟩
  split_ifs
  · exact engine.below_lt _ _ hpos
  · exact reaching_lt _ (by rw [Nat.zero_add,hlength]) hpos

/-- The seeds are points, as many as there are words. -/
lemma seeds_spec (hsome : points ≠ []) {ksub : ℕ} (hksub : 0 < ksub) (state : σ) :
    (seeds A engine points ksub state).length = ksub ∧
      ∀ w ∈ seeds A engine points ksub state, w ∈ points := by
  have hrun : ∀ n, ∀ start : Seeding σ, start.d2.length = points.length →
      ((List.range n).foldl (fun run _ => seedTurn A engine points run) start).d2.length =
        points.length ∧
      ((List.range n).foldl (fun run _ => seedTurn A engine points run) start).words.length =
        start.words.length+n ∧
      ((∀ w ∈ start.words, w ∈ points) →
        ∀ w ∈ ((List.range n).foldl (fun run _ => seedTurn A engine points run) start).words,
          w ∈ points) := by
    intro n start hstart
    induction n with
    | zero => exact ⟨hstart,rfl,id⟩
    | succ n ih =>
      obtain ⟨hd2,hlength,hmem⟩ := ih
      obtain ⟨hd2',p,hp,hwords⟩ := @seedTurn_spec _ A engine _ hsome _ hd2
      rw [List.range_succ,List.foldl_append,List.foldl_cons,List.foldl_nil,hwords]
      refine ⟨hd2',by rw [List.length_append,hlength,List.length_singleton,Nat.add_assoc],?_⟩
      intro h w hw
      obtain hw | hw := List.mem_append.mp hw
      · exact hmem h w hw
      · rwa [List.mem_singleton.mp hw]
  have hpos := List.length_pos_of_ne_nil hsome
  have hfirst := engine.below_lt points.length state hpos
  obtain ⟨-,hlength,hmem⟩ := hrun (ksub-1) ⟨(engine.below points.length state).2,
    List.replicate points.length none,[points.getD (engine.below points.length state).1 []]⟩
    List.length_replicate
  refine ⟨hlength.trans (by rw [List.length_singleton]; omega),hmem ?_⟩
  intro w hw
  rw [List.mem_singleton.mp hw]
  exact getD_mem hfirst

/-- The codebook of a block after `cfg.iters` rounds, and after fewer. -/
lemma trainBlock_spec (hsome : points ≠ []) (hpoints : ∀ p ∈ points, p.length = dsub)
    {cfg : PqConfig} (hksub : 0 < cfg.ksub) (s : ℕ) :
    (trainBlock A engine points cfg dsub s).length = min cfg.ksub points.length ∧
      (∀ w ∈ trainBlock A engine points cfg dsub s, w.length = dsub) ∧
      ∀ ε η δ, A.Accurate ε η δ dsub points → ∀ iters ≤ cfg.iters,
        distortion (trainBlock A engine points cfg dsub s) points ≤
          drifted ((1+ε)/(1-ε)) (points.length*(2*η/(1-ε) + dsub*(δ*δ))) (cfg.iters-iters)
            (distortion (trainBlock A engine points { cfg with iters := iters } dsub s)
              points) := by
  have hpos : 0 < min cfg.ksub points.length := lt_min hksub (List.length_pos_of_ne_nil hsome)
  set state := engine.seeded (cfg.seed ^^^ (0x9E3779B97F4A7C15*(UInt64.ofNat s+1))) with hstate
  obtain ⟨hseeds,hdrawn⟩ := @seeds_spec _ A engine _ hsome _ hpos state
  have hworded : Worded A dsub points
      (seeds A engine points (min cfg.ksub points.length) state) := by
    refine ⟨fun w hw => .inl (hdrawn w hw),fun hnone => ?_⟩
    rw [hnone,List.length_nil] at hseeds
    omega
  set start : Clusters := ⟨seeds A engine points (min cfg.ksub points.length) state,
    List.replicate points.length 0⟩
  obtain ⟨hlength,hwords⟩ := @lloyd_spec A points dsub hsome cfg.iters 0 start hworded
  refine ⟨hlength.trans hseeds,hwords.length hpoints,fun ε η δ hA iters hiters => ?_⟩
  obtain ⟨-,hfewer⟩ := @lloyd_spec A points dsub hsome iters 0 start hworded
  obtain ⟨more,hmore⟩ := Nat.exists_eq_add_of_le hiters
  change distortion (lloyd A points dsub cfg.iters 0 start).words points ≤ drifted _ _ _
    (distortion (lloyd A points dsub iters 0 start).words points)
  rw [hmore,Nat.add_sub_cancel_left]
  obtain hsame | hfurther := @lloyd_add A points dsub iters more 0 start
  · rw [hsame]
    exact le_drifted hA.one_le hA.turn_nonneg more (distortion_nonneg _ _)
  · rw [hfurther]
    exact lloyd_distortion hsome hpoints hA more _ hfewer

end seeding

section trained

variable {σ : Type} {A : PqArithmetic} {engine : Engine σ} {data : Vec} {n dim : ℕ} {cfg : PqConfig}
  {pq : ProductQuantizer}

/-- The numbers of one block of each training row. -/
def slices (data : Vec) (n dim dsub s : ℕ) : List Vec :=
  (List.range n).map fun i => (data.drop (i*dim+s*dsub)).take dsub

/-- The words of one block, with those that have no seed. -/
def slots (A : PqArithmetic) (engine : Engine σ) (data : Vec) (n dim : ℕ) (cfg : PqConfig) (s : ℕ) :
    List Vec :=
  trainBlock A engine (slices data n dim (dim/cfg.m) s) cfg (dim/cfg.m) s ++
    List.replicate (cfg.ksub-min cfg.ksub n) (List.replicate (dim/cfg.m) 0)

lemma slices_eq {dsub s : ℕ} (hs : (s+1)*dsub ≤ dim) : slices data n dim dsub s =
    ((List.range n).map (block data dim)).map fun row => block row dsub s := by
  rw [slices,List.map_map]
  refine List.map_congr_left fun i _ => ?_
  have hroom : dsub ≤ dim-s*dsub := by
    rw [Nat.succ_mul] at hs
    omega
  change _ = block (block data dim i) dsub s
  rw [block,block,List.drop_take,List.take_take,Nat.min_eq_left hroom,List.drop_drop]

lemma length_block_room {i : ℕ} (hdata : n*dim ≤ data.length) (hi : i < n) :
    (block data dim i).length = dim := by
  have hroom : (i+1)*dim ≤ n*dim := Nat.mul_le_mul_right dim hi
  rw [Nat.succ_mul] at hroom
  rw [block,List.length_take,List.length_drop]
  omega

/-- What was checked before a quantizer is trained, and what it becomes. -/
lemma trainFlat_spec (h : trainFlat A engine data n dim cfg = .ok pq) :
    (0 < n ∧ 0 < dim ∧ dim = cfg.m*(dim/cfg.m) ∧ 0 < cfg.ksub ∧ cfg.ksub ≤ 256 ∧
      n*dim ≤ data.length) ∧
      pq = { cfg := cfg, dim := dim, dsub := dim/cfg.m
             centroids := (((List.range cfg.m).map (slots A engine data n dim cfg)).map
               List.flatten).flatten } := by
  rw [trainFlat] at h
  split_ifs at h with hn hdim hksub hshort
  · cases h
  · cases h
  · cases h
  · cases h
  · obtain ⟨hdim,-,hrest⟩ := not_or.mp hdim |>.imp id not_or.mp
    have hdivides := (Nat.mul_div_cancel' (Nat.dvd_of_mod_eq_zero (not_not.mp hrest))).symm
    refine ⟨⟨by omega,by omega,hdivides,by omega,by omega,by omega⟩,?_⟩
    rw [← Except.ok.inj h,List.map_map]
    congr 2
    refine List.map_congr_left fun s _ => ?_
    change _ = (slots A engine data n dim cfg s).flatten
    rw [slots,List.flatten_append,List.flatten_replicate_replicate]
    rfl

lemma slices_spec (h : trainFlat A engine data n dim cfg = .ok pq) {s : ℕ} (hs : s < cfg.m) :
    slices data n dim (dim/cfg.m) s =
      (((List.range n).map (block data dim)).map fun row => block row (dim/cfg.m) s) ∧
    (slices data n dim (dim/cfg.m) s).length = n ∧ slices data n dim (dim/cfg.m) s ≠ [] ∧
      ∀ p ∈ slices data n dim (dim/cfg.m) s, p.length = dim/cfg.m := by
  obtain ⟨⟨hn,-,hdivides,-,-,hdata⟩,-⟩ := trainFlat_spec h
  have hroom : (s+1)*(dim/cfg.m) ≤ dim := by
    conv_rhs => rw [hdivides]
    exact Nat.mul_le_mul_right _ hs
  have hcount : (slices data n dim (dim/cfg.m) s).length = n := by
    rw [slices,List.length_map,List.length_range]
  refine ⟨slices_eq hroom,hcount,?_,?_⟩
  · rw [← List.length_pos_iff,hcount]
    exact hn
  · rw [slices_eq hroom]
    intro p hp
    obtain ⟨row,hrow,rfl⟩ := List.mem_map.mp hp
    obtain ⟨i,hi,rfl⟩ := List.mem_map.mp hrow
    have hlength := length_block_room hdata (List.mem_range.mp hi)
    exact length_block (hlength.trans hdivides) hs

/-- Every slot has a word of the length of a block. -/
lemma slots_spec (h : trainFlat A engine data n dim cfg = .ok pq) {s : ℕ} (hs : s < cfg.m) :
    (slots A engine data n dim cfg s).length = cfg.ksub ∧
      ∀ w ∈ slots A engine data n dim cfg s, w.length = dim/cfg.m := by
  obtain ⟨⟨-,-,-,hksub,-,-⟩,-⟩ := trainFlat_spec h
  obtain ⟨-,hcount,hsome,hpoints⟩ := slices_spec h hs
  obtain ⟨hlength,hwords,-⟩ := @trainBlock_spec _ A engine _ _ hsome hpoints _ hksub s
  rw [hcount] at hlength
  constructor
  · rw [slots,List.length_append,hlength,List.length_replicate]
    omega
  · intro w hw
    obtain hw | hw := List.mem_append.mp hw
    · exact hwords w hw
    · rw [(List.mem_replicate.mp hw).2,List.length_replicate]

/-- A trained quantizer is shaped and holds no vectors yet. -/
theorem trainFlat_shaped (h : trainFlat A engine data n dim cfg = .ok pq) :
    pq.Shaped ∧ pq.cfg = cfg ∧ pq.dim = dim ∧ pq.ids = [] ∧ pq.codes = [] := by
  obtain ⟨⟨-,-,hdivides,hksub,hbyte,-⟩,rfl⟩ := trainFlat_spec h
  refine ⟨⟨hdivides,?_,hksub,hbyte⟩,rfl,rfl,rfl,rfl⟩
  have hrows : ∀ row ∈ ((List.range cfg.m).map (slots A engine data n dim cfg)).map List.flatten,
      row.length = cfg.ksub*(dim/cfg.m) := by
    intro row hrow
    obtain ⟨words,hwords,rfl⟩ := List.mem_map.mp hrow
    obtain ⟨s,hs,rfl⟩ := List.mem_map.mp hwords
    obtain ⟨hlength,hlengths⟩ := slots_spec h (List.mem_range.mp hs)
    rw [length_flatten_words hlengths,hlength]
  rw [length_flatten_words hrows,List.length_map,List.length_map,List.length_range,Nat.mul_assoc]

/-- The words of a trained quantizer. -/
lemma centroid_trained (h : trainFlat A engine data n dim cfg = .ok pq) {s c : ℕ} (hs : s < cfg.m)
    (hc : c < cfg.ksub) : pq.centroid s c = (slots A engine data n dim cfg s).getD c [] := by
  have hlengths : ∀ words ∈ (List.range cfg.m).map (slots A engine data n dim cfg),
      words.length = cfg.ksub ∧ ∀ w ∈ words, w.length = dim/cfg.m := by
    intro words hwords
    obtain ⟨s,hs,rfl⟩ := List.mem_map.mp hwords
    exact slots_spec h (List.mem_range.mp hs)
  obtain ⟨-,rfl⟩ := trainFlat_spec h
  have hindex : s*cfg.ksub+c <
      ((List.range cfg.m).map (slots A engine data n dim cfg)).flatten.length := by
    have hroom := Nat.mul_le_mul_right cfg.ksub hs
    rw [Nat.succ_mul] at hroom
    rw [length_flatten_words fun words hwords => (hlengths words hwords).1,List.length_map,
      List.length_range]
    omega
  rw [centroid,← List.flatten_flatten]
  have hall : ∀ w ∈ ((List.range cfg.m).map (slots A engine data n dim cfg)).flatten,
      w.length = dim/cfg.m := by
    intro w hw
    obtain ⟨words,hwords,hw⟩ := List.mem_flatten.mp hw
    exact (hlengths words hwords).2 w hw
  change block _ (dim/cfg.m) (s*cfg.ksub+c) = _
  rw [block_flatten hall hindex,← List.getD_eq_getElem _ [] hindex,← getD_block [] hc,
    block_flatten (fun words hwords => (hlengths words hwords).1) (by simpa using hs),
    List.getElem_map,List.getElem_range]

/-- How far rows are from what their codes are decoded to. -/
def codingError (pq : ProductQuantizer) (rows : List Vec) : ℚ :=
  (rows.map fun row => subL2 row (pq.decode (pq.encode row))).sum

lemma sum_map_comm {ι κ : Type*} (l : List ι) (l' : List κ) (f : ι → κ → ℚ) :
    (l.map fun x => (l'.map fun y => f x y).sum).sum =
      (l'.map fun y => (l.map fun x => f x y).sum).sum := by
  induction l with
  | nil => simp
  | cons x l ih => simp only [List.map_cons,List.sum_cons,ih,List.sum_map_add]

/-- The error is that of the codebooks. -/
lemma codingError_trained (h : trainFlat A engine data n dim cfg = .ok pq) :
    pq.codingError ((List.range n).map (block data dim)) = ((List.range cfg.m).map fun s =>
      distortion (slots A engine data n dim cfg s) (slices data n dim (dim/cfg.m) s)).sum := by
  obtain ⟨hshaped,hcfg,hdim,-,-⟩ := trainFlat_shaped h
  obtain ⟨⟨-,-,-,-,-,hdata⟩,hpq⟩ := trainFlat_spec h
  have hdsub : pq.dsub = dim/cfg.m := by rw [hpq]
  have hrow : ∀ row ∈ (List.range n).map (block data dim),
      subL2 row (pq.decode (pq.encode row)) = ((List.range cfg.m).map fun s =>
        sqDist (block row (dim/cfg.m) s) ((slots A engine data n dim cfg s).getD
          (nearestOf (slots A engine data n dim cfg s) (block row (dim/cfg.m) s)) [])).sum := by
    intro row hrow
    obtain ⟨i,hi,rfl⟩ := List.mem_map.mp hrow
    have hlength := length_block_room hdata (List.mem_range.mp hi)
    rw [hshaped.subL2_decode (hlength.trans hdim.symm) (hshaped.coded_encode _),hcfg,hdsub]
    refine congrArg List.sum (List.map_congr_left fun s hs => ?_)
    have hs := List.mem_range.mp hs
    have hlt := (nearest_spec (fun c => subL2 (block (block data dim i) pq.dsub s)
      (pq.centroid s c)) hshaped.some).1
    have hsame : pq.nearestWord (block data dim i) s =
        nearestOf (slots A engine data n dim cfg s) (block (block data dim i) (dim/cfg.m) s) := by
      rw [nearestWord,nearestOf,(slots_spec h hs).1,hcfg,hdsub]
      exact nearest_congr fun c hc => by rw [centroid_trained h hs hc]; rfl
    rw [hshaped.val_encode _ (hcfg.symm ▸ hs)]
    change pq.nearestWord _ _ < _ at hlt
    rw [hcfg] at hlt
    rw [centroid_trained h hs hlt,hsame]
    rfl
  rw [codingError,List.map_congr_left hrow,sum_map_comm]
  refine congrArg List.sum (List.map_congr_left fun s hs => ?_)
  rw [distortion,(slices_spec h (List.mem_range.mp hs)).1]
  simp only [List.map_map]
  rfl

lemma exact_accurate (d : ℕ) (points : List Vec) : exact.Accurate 0 0 0 d points where
  part := ⟨le_rfl,zero_lt_one⟩
  rest := le_rfl
  subL2 p _ w _ := by simp [DistanceWithin,exact,ProductQuantizer.subL2]
  mean part _ _ i _ := by
    change |(Base.mean d part).getD i 0 - (Base.mean d part).getD i 0| ≤ 0
    rw [sub_self,abs_zero]

/-- More rounds never give a codebook with a greater error, as long as there are as many rows as
words, but for what the arithmetic of each round adds to it. -/
theorem trainFlat_rounds (h : trainFlat A engine data n dim cfg = .ok pq) (hrows : cfg.ksub ≤ n)
    {iters : ℕ} (hiters : iters ≤ cfg.iters) :
    ∃ fewer, trainFlat A engine data n dim { cfg with iters := iters } = .ok fewer ∧
      (∀ ε η δ, (∀ s < cfg.m, A.Accurate ε η δ (dim/cfg.m) (slices data n dim (dim/cfg.m) s)) →
        pq.codingError ((List.range n).map (block data dim)) ≤
          drifted ((1+ε)/(1-ε)) (cfg.m*(n*(2*η/(1-ε) + (dim/cfg.m : ℕ)*(δ*δ)))) (cfg.iters-iters)
            (fewer.codingError ((List.range n).map (block data dim)))) ∧
      (A = exact → pq.codingError ((List.range n).map (block data dim)) ≤
        fewer.codingError ((List.range n).map (block data dim))) := by
  obtain ⟨⟨-,-,-,hksub,-,-⟩,-⟩ := trainFlat_spec h
  have hfewer : ∃ fewer, trainFlat A engine data n dim { cfg with iters := iters } = .ok fewer := by
    rw [trainFlat] at h ⊢
    split_ifs at h ⊢ with hnone hshape
    · cases h
    · cases h
    · cases h
    · cases h
    · exact ⟨_,rfl⟩
  obtain ⟨fewer,hfewer⟩ := hfewer
  have hfull : ∀ words : List Vec, words ++
      List.replicate (cfg.ksub-min cfg.ksub n) (List.replicate (dim/cfg.m) (0 : ℚ)) = words := by
    intro words
    rw [Nat.min_eq_left hrows,Nat.sub_self,List.replicate_zero,List.append_nil]
  have hbound : ∀ ε η δ,
      (∀ s < cfg.m, A.Accurate ε η δ (dim/cfg.m) (slices data n dim (dim/cfg.m) s)) →
      pq.codingError ((List.range n).map (block data dim)) ≤
        drifted ((1+ε)/(1-ε)) (cfg.m*(n*(2*η/(1-ε) + (dim/cfg.m : ℕ)*(δ*δ)))) (cfg.iters-iters)
          (fewer.codingError ((List.range n).map (block data dim))) := by
    intro ε η δ hA
    have hsum := sum_drifted (List.range cfg.m) ((1+ε)/(1-ε))
      ((n : ℚ)*(2*η/(1-ε) + (dim/cfg.m : ℕ)*(δ*δ))) (cfg.iters-iters)
      fun s => distortion (slots A engine data n dim { cfg with iters := iters } s)
        (slices data n dim (dim/cfg.m) s)
    rw [List.length_range] at hsum
    rw [codingError_trained h,codingError_trained hfewer]
    refine le_of_le_of_eq (List.sum_le_sum ?_) hsum
    intro s hs
    have hs := List.mem_range.mp hs
    obtain ⟨-,hcount,hsome,hpoints⟩ := slices_spec h hs
    have hless := (@trainBlock_spec _ A engine _ _ hsome hpoints _ hksub s).2.2 ε η δ (hA s hs)
      iters hiters
    rw [hcount] at hless
    rw [slots,slots,hfull,hfull]
    exact hless
  refine ⟨fewer,hfewer,hbound,?_⟩
  rintro rfl
  simpa using hbound 0 0 0 fun s _ => exact_accurate _ _

/-- What was added to a trained quantizer is ranked by the products with vectors that no other code
comes closer to. -/
theorem search_trained (h : trainFlat A engine data n dim cfg = .ok pq)
    (sort : PartialSort Hit.score) {query : Vec} (hquery : query.length = dim)
    (entries : List (ℕ × Vec)) (k : ℕ) :
    Leads Hit.score
      (entries.map fun entry => ⟨entry.1,dot query (pq.decode (pq.encode entry.2))⟩) k
      ((pq.filled entries).search sort query k) ∧
    ∀ v : Vec, v.length = dim → ∀ code, pq.Coded code →
      subL2 v (pq.decode (pq.encode v)) ≤ subL2 v (pq.decode code) := by
  obtain ⟨hshaped,-,hdim,hids,hcodes⟩ := trainFlat_shaped h
  refine ⟨search_filled hshaped hids hcodes sort (hquery.trans hdim.symm) entries k,?_⟩
  exact fun v hv code hcode => encode_nearest hshaped (hv.trans hdim.symm) hcode

/-- An engine that draws the first point and the full distance. -/
def firstDraws : Engine Unit where
  seeded _ := ()
  below _ state := (0,state)
  upTo total state := (total,state)
  below_lt _ _ hn := hn

/-- Single precision, where no number overflows. -/
def rounded (q : ℚ) : ℚ := (Single.round q).getD q

/-- The numbers of a training as floats, but for the running sums. -/
def single : PqArithmetic where
  subL2 a b := (List.zipWith (fun x y => rounded (rounded (x-y)*rounded (x-y))) a b).foldl
    (fun s d => rounded (s+d)) 0
  add x y := rounded (x+y)
  divide x n := rounded (x/rounded n)
  accumulate := (· + ·)

/-- The float that is nearest to a tenth. -/
def tenth : ℚ := 13421773/2^27

lemma single_accurate : single.Accurate 0 0 (1/2^27) 1 (List.replicate 10 [tenth]) := by
  have hmeans : ∀ k < 11, k ≠ 0 →
      (∀ i < 1, |(single.mean 1 (List.replicate k [tenth])).getD i 0 -
        (mean 1 (List.replicate k [tenth])).getD i 0| ≤ 1/2^27) ∧
      DistanceWithin 0 0 single.subL2 [tenth] (single.mean 1 (List.replicate k [tenth])) := by
    unfold DistanceWithin
    decide +kernel
  have hpart : ∀ part, List.Sublist part (List.replicate 10 [tenth]) → part ≠ [] →
      ∃ k < 11, k ≠ 0 ∧ part = List.replicate k [tenth] := by
    intro part hpart hsome
    obtain ⟨k,hk,rfl⟩ := List.sublist_replicate_iff.mp hpart
    exact ⟨k,Nat.lt_succ_of_le hk,fun hnone => hsome (by rw [hnone,List.replicate_zero]),rfl⟩
  refine ⟨⟨le_rfl,zero_lt_one⟩,le_rfl,?_,?_⟩
  · intro p hp w hw
    rw [List.eq_of_mem_replicate hp]
    obtain hw | ⟨part,hsub,hsome,rfl⟩ := hw
    · rw [List.eq_of_mem_replicate hw]
      unfold DistanceWithin
      decide +kernel
    · obtain ⟨k,hk,hpos,rfl⟩ := hpart part hsub hsome
      exact (hmeans k hk hpos).2
  · intro part hsub hsome
    obtain ⟨k,hk,hpos,rfl⟩ := hpart part hsub hsome
    exact (hmeans k hk hpos).1

/-- The mean of ten equal floats can be another float. -/
theorem trainFlat_rounds_tenths : ∃ pq fewer,
    trainFlat single firstDraws (List.replicate 10 tenth) 10 1 { m := 1, ksub := 1, iters := 1 } =
      .ok pq ∧
    trainFlat single firstDraws (List.replicate 10 tenth) 10 1 { m := 1, ksub := 1, iters := 0 } =
      .ok fewer ∧
    pq.codingError ((List.range 10).map (block (List.replicate 10 tenth) 1)) ≤
      fewer.codingError ((List.range 10).map (block (List.replicate 10 tenth) 1)) + 10/2^54 := by
  have h : ∃ pq, trainFlat single firstDraws (List.replicate 10 tenth) 10 1
      { m := 1, ksub := 1, iters := 1 } = .ok pq := ⟨_,rfl⟩
  obtain ⟨pq,hpq⟩ := h
  obtain ⟨fewer,hfewer,hless,-⟩ := trainFlat_rounds hpq (by decide) (Nat.zero_le 1)
  have hslices : ∀ s < 1, single.Accurate 0 0 (1/2^27) 1
      (slices (List.replicate 10 tenth) 10 1 1 s) := by
    intro s hs
    rw [Nat.lt_one_iff.mp hs,show slices (List.replicate 10 tenth) 10 1 1 0 =
      List.replicate 10 [tenth] by decide +kernel]
    exact single_accurate
  refine ⟨pq,fewer,hpq,hfewer,(hless 0 0 (1/2^27) hslices).trans_eq ?_⟩
  norm_num [drifted]

/-- Rows of two blocks. -/
def corners : Vec := [0,1,1,0,1/2,1/2,1,1]

lemma firstDraws_search : ∃ pq,
    trainFlat exact firstDraws corners 4 2 { m := 2, ksub := 2, iters := 4 } = .ok pq ∧
    Leads Hit.score
      ([(7,[1,0]),(8,[0,1]),(9,[1,1])].map fun entry =>
        ⟨entry.1,dot [3/5,4/5] (pq.decode (pq.encode entry.2))⟩) 2
      ((pq.filled [(7,[1,0]),(8,[0,1]),(9,[1,1])]).search (PartialSort.stable Hit.score)
        [3/5,4/5] 2) ∧
    ∀ code, pq.Coded code →
      subL2 [1/4,1] (pq.decode (pq.encode [1/4,1])) ≤ subL2 [1/4,1] (pq.decode code) := by
  have h : ∃ pq, trainFlat exact firstDraws corners 4 2 { m := 2, ksub := 2, iters := 4 } =
      .ok pq := ⟨_,rfl⟩
  obtain ⟨pq,hpq⟩ := h
  obtain ⟨hleads,hnearest⟩ := search_trained hpq (PartialSort.stable Hit.score)
    (show ([3/5,4/5] : Vec).length = 2 from rfl) [(7,[1,0]),(8,[0,1]),(9,[1,1])] 2
  exact ⟨pq,hpq,hleads,hnearest [1/4,1] rfl⟩

end trained
end ProductQuantizer
end RagRuntime.Index
