import RagRuntime.Index.HnswSeal
import RagRuntime.Index.PqCodec

/-! The binary form of a graph. Removed ids and superseded nodes are not written as such, and no id
may be read twice. -/
namespace RagRuntime.Index
open RagRuntime.Base RagRuntime.Core RagRuntime.Backend RagRuntime.Lexical RagRuntime.Dense
open RagRuntime.Store Decoder

/-- The codes that stand in for the vectors of a graph. -/
structure PqPart where
  pq : ProductQuantizer
  m : ℕ
  codes : Bytes
  deriving DecidableEq

namespace HnswCodec

def kMagic : ℕ := 0x31574E48
def kVersion : ℕ := 2

def putFlag (b : Bool) : Bytes := leBytes 1 (if b then 1 else 0)

def putInt32 (z : ℤ) : Bytes := leBytes 4 (z%2^32).toNat

def putConfig (c : HnswConfig) : Bytes :=
  leBytes 8 c.m ++ (leBytes 8 c.efConstruction ++ (leBytes 8 c.efSearch ++
    (leBytes 4 (Single.bits c.ml) ++ (leBytes 8 c.matryoshkaDim ++ (putFlag c.binary ++
      (leBytes 8 c.pqCodes ++ (putFlag c.dropFloats ++ leBytes 8 c.seed)))))))

def putHeader (g : HnswIndex) : Bytes :=
  leBytes 4 kMagic ++ (leBytes 4 kVersion ++ (putConfig g.config ++ (leBytes 8 g.dim ++
    (putInt32 g.maxLayer ++ (leBytes 4 g.entry ++ leBytes 4 g.nodes.length)))))

def putPart : Option PqPart → Bytes
  | none => leBytes 1 0
  | some part => leBytes 1 1 ++ (leBytes 8 part.pq.serialize.length ++ (part.pq.serialize ++
      (leBytes 8 part.m ++ (leBytes 8 part.codes.length ++ part.codes))))

def putNeighbour (_ : ℕ) (nb : ℕ) : Bytes := leBytes 4 nb

def putLayer (_ : ℕ) (layer : List ℕ) : Bytes :=
  leBytes 4 layer.length ++ encodeFrom putNeighbour 0 layer

def putVector (coded : Bool) (dim : ℕ) (v : Vec) : Bytes :=
  if coded then leBytes 4 0 else leBytes 4 dim ++ encodeFrom putFloat 0 v

def putNode (coded : Bool) (dim : ℕ) (_ : ℕ) (nd : HnswNode) : Bytes :=
  leBytes 4 nd.id ++ (putVector coded dim nd.vector ++
    (leBytes 4 nd.links.length ++ encodeFrom putLayer 0 nd.links))

/-- The codes are written if there are no vectors beside them. -/
def storedPart (s : LiveGraph) (part : Option PqPart) : Option PqPart :=
  if s.floatsDropped then part else none

def serialize (s : LiveGraph) (part : Option PqPart) : Bytes :=
  let stored := storedPart s part
  let g := s.unsealed.graph
  putHeader g ++ (putPart stored ++ encodeFrom (putNode stored.isSome g.dim) 0 g.nodes)

/-- What a reader ends with if it does not return: an error, or a write outside of the vectors. -/
abbrev Stop := Option Error

def bad (message : String) : Stop := some (corrupt message)

def int32 (n : ℕ) : ℤ := if n < 2^31 then n else n-2^32

/-- The bits of `ml` are looked at with the other limits. -/
def readConfig : Decoder Stop (HnswConfig × ℕ) := do
  let m ← number (bad "cfg") 8
  let efc ← number (bad "cfg") 8
  let efs ← number (bad "cfg") 8
  let ml ← number (bad "cfg") 4
  let mat ← number (bad "cfg") 8
  let bin ← number (bad "cfg") 1
  let pqc ← number (bad "cfg") 8
  let drop ← number (bad "cfg") 1
  let seed ← number (bad "cfg") 8
  pure (⟨m,efc,efs,0,mat,decide (bin ≠ 0),pqc,decide (drop ≠ 0),seed⟩,ml)

/-- The numbers of a header within the limits of the format. -/
structure FitsLimits (c : HnswConfig) (dim : ℕ) (maxLayer : ℤ) (entry ncount : ℕ) : Prop where
  some : dim ≠ 0
  dimension : dim ≤ kMaxVectorDimension
  count : ncount ≤ kMaxGraphNodes
  layers : -1 ≤ maxLayer ∧ maxLayer ≤ 63
  entry : if ncount = 0 then entry = 0 else entry < ncount
  someLinks : c.m ≠ 0
  m : c.m ≤ kMaxGraphNodes
  efConstruction : c.efConstruction ≤ kMaxGraphNodes
  efSearch : c.efSearch ≤ kMaxGraphNodes

instance (c : HnswConfig) (dim : ℕ) (maxLayer : ℤ) (entry ncount : ℕ) :
    Decidable (FitsLimits c dim maxLayer entry ncount) :=
  decidable_of_iff (dim ≠ 0 ∧ dim ≤ kMaxVectorDimension ∧ ncount ≤ kMaxGraphNodes ∧
    (-1 ≤ maxLayer ∧ maxLayer ≤ 63) ∧ (if ncount = 0 then entry = 0 else entry < ncount) ∧
    c.m ≠ 0 ∧ c.m ≤ kMaxGraphNodes ∧ c.efConstruction ≤ kMaxGraphNodes ∧
    c.efSearch ≤ kMaxGraphNodes)
    ⟨fun ⟨h₁,h₂,h₃,h₄,h₅,h₆,h₇,h₈,h₉⟩ => ⟨h₁,h₂,h₃,h₄,h₅,h₆,h₇,h₈,h₉⟩,
      fun h => ⟨h.some,h.dimension,h.count,h.layers,h.entry,h.someLinks,h.m,h.efConstruction,
        h.efSearch⟩⟩

/-- A finite positive number. -/
def readMl (bits : ℕ) : Option ℚ := (Single.ofBits bits).filter fun ml => 0 < ml

/-- A graph without nodes yet, the bits of its `ml`, and how many nodes there are. -/
def readNumbers : Decoder Stop ((HnswIndex × ℕ) × ℕ) := do
  let magic ← number (bad "hnsw magic") 4
  ensure (bad "hnsw magic") (magic = kMagic)
  let version ← number (bad "hnsw version") 4
  ensure (bad "hnsw version") (version = kVersion)
  let config ← readConfig
  let dim ← number (bad "header") 8
  let maxl ← number (bad "header") 4
  let entry ← number (bad "header") 4
  let ncount ← number (bad "header") 4
  ensure (bad "invalid hnsw limits") (FitsLimits config.1 dim (int32 maxl) entry ncount)
  pure ((⟨config.1,dim,int32 maxl,entry,[],∅⟩,config.2),ncount)

def withMl (g : HnswIndex) (ncount : ℕ) : Option ℚ → Decoder Stop (HnswIndex × ℕ)
  | none => fun _ => .error (bad "invalid hnsw limits")
  | some ml => pure ({ g with config.ml := ml },ncount)

def readHeader : Decoder Stop (HnswIndex × ℕ) := do
  let numbers ← readNumbers
  room (bad "invalid hnsw limits") numbers.2 12
  withMl numbers.1.1 numbers.2 (readMl numbers.1.2)

def readPart (dim ncount : ℕ) : Decoder Stop (Option PqPart) := do
  let flag ← number (bad "pq flag") 1
  if flag = 0 then pure none
  else
    let blen ← number (bad "pq blob") 8
    let blob ← bytes (bad "pq blob") blen
    match ProductQuantizer.deserialize blob with
    | .error e => fun _ => .error (some e)
    | .ok pq =>
      let pm ← number (bad "pq codes") 8
      ensure (bad "pq codes") (pm ≠ 0 ∧ pm ≤ dim)
      let clen ← number (bad "pq codes") 8
      ensure (bad "pq codes") (clen = ncount*pm)
      let codes ← bytes (bad "pq codes") clen
      pure (some ⟨pq,pm,codes⟩)

def readComponent (_ : ℕ) (v : Vec) : Decoder Stop Vec := do
  let bits ← number (bad "vec") 4
  match Single.ofBits bits with
  | some x => pure (v ++ [x])
  | none => fun _ => .error (bad "non-finite hnsw vector")

/-- The zeros of the arena stand where there is no vector. A vector beside codes is written into an
arena that is empty. -/
def readVector (coded : Bool) (dim : ℕ) : Decoder Stop Vec := do
  let vlen ← number (bad "node") 4
  if vlen = 0 then pure (if coded then [] else List.replicate dim 0)
  else
    ensure (bad "vec dim") (vlen = dim)
    room (bad "vec") vlen 4
    if coded then fun _ => .error none
    else
      let v ← repeatFrom readComponent vlen 0 []
      ensure (bad "invalid hnsw vector norm") (|dot v v - 1| ≤ 1/100)
      pure v

def readNeighbour (_ : ℕ) (layer : List ℕ) : Decoder Stop (List ℕ) := do
  let nb ← number (bad "links") 4
  pure (layer ++ [nb])

def readLayer (ncount : ℕ) (_ : ℕ) (links : List (List ℕ)) : Decoder Stop (List (List ℕ)) := do
  let llen ← number (bad "llen") 4
  ensure (bad "llen") (llen ≤ ncount)
  room (bad "llen") llen 4
  let layer ← repeatFrom readNeighbour llen 0 []
  ensure (bad "invalid hnsw neighbour") (∀ nb ∈ layer, nb < ncount)
  pure (links ++ [layer])

def readNode (coded : Bool) (dim ncount : ℕ) (_ : ℕ) (nodes : List HnswNode) :
    Decoder Stop (List HnswNode) := do
  let id ← number (bad "node") 4
  ensure (bad "node") (id ∉ nodes.map HnswNode.id)
  let vector ← readVector coded dim
  let nlayers ← number (bad "nlayers") 4
  ensure (bad "nlayers") (nlayers ≤ 64)
  let links ← repeatFrom (readLayer ncount) nlayers 0 []
  pure (nodes ++ [⟨id,false,vector,links⟩])

def readGraph : Decoder Stop (LiveGraph × Option PqPart) := do
  let front ← readHeader
  let part ← readPart front.1.dim front.2
  let nodes ← repeatFrom (readNode part.isSome front.1.dim front.2) front.2 0 []
  pure (⟨{ front.1 with nodes := nodes },some (LiveGraph.idIndex nodes),false,part.isSome⟩,part)

/-- There is no result where the reader writes outside of the vectors. -/
def deserialize (blob : Bytes) : Option (Result (LiveGraph × Option PqPart)) :=
  match readGraph.whole (bad "trailing hnsw data") blob with
  | .ok found => some (.ok found)
  | .error (some e) => some (.error e)
  | .error none => none

section roundTrip

/-- What of a node fits its binary form. -/
structure WritableNode (coded : Bool) (dim n : ℕ) (nd : HnswNode) : Prop where
  id : nd.id < 256^4
  dimension : coded = false → nd.vector.length = dim
  floats : coded = false → ∀ x ∈ nd.vector, Single.IsFloat x
  norm : coded = false → |dot nd.vector nd.vector - 1| ≤ 1/100
  layers : nd.links.length ≤ 64
  lengths : ∀ layer ∈ nd.links, layer.length ≤ n
  neighbours : ∀ layer ∈ nd.links, ∀ nb ∈ layer, nb < n

/-- What of codes fits their binary form. -/
structure WritablePart (dim n : ℕ) (part : PqPart) : Prop where
  pq : part.pq.Writable
  short : part.pq.codes.length < 2^32
  blob : part.pq.serialize.length < 256^8
  m : part.m ≠ 0 ∧ part.m ≤ dim
  codes : part.codes.length = n*part.m

/-- What of a graph fits its binary form. -/
structure Writable (s : LiveGraph) (part : Option PqPart) : Prop where
  limits : FitsLimits s.graph.config s.graph.dim s.graph.maxLayer s.graph.entry
    s.graph.nodes.length
  ml : Single.IsFloat s.graph.config.ml ∧ 0 < s.graph.config.ml
  numbers : s.graph.config.matryoshkaDim < 256^8 ∧ s.graph.config.pqCodes < 256^8 ∧
    s.graph.config.seed < 256^8
  nodes : ∀ nd ∈ s.graph.nodes,
    WritableNode (storedPart s part).isSome s.graph.dim s.graph.nodes.length nd
  stored : ∀ p, storedPart s part = some p → WritablePart s.graph.dim s.graph.nodes.length p
  vectors : s.floatsDropped = true → part ≠ none

lemma reads_flag {e : Stop} (b : Bool) : Reads (number e 1) (putFlag b) (if b then 1 else 0) := by
  cases b
  · exact reads_number (by decide)
  · exact reads_number (by decide)

lemma int32_put {z : ℤ} (h : -1 ≤ z ∧ z ≤ 63) :
    int32 (z%2^32).toNat = z ∧ (z%2^32).toNat < 256^4 := by
  rw [int32]
  split_ifs <;> omega

lemma readMl_bits {ml : ℚ} (h : Single.IsFloat ml ∧ 0 < ml) :
    readMl (Single.bits ml) = some ml ∧ Single.bits ml < 256^4 := by
  obtain ⟨hback,hlt⟩ := Single.ofBits_bits h.1
  rw [readMl,hback]
  exact ⟨by simp [h.2],by omega⟩

lemma FitsLimits.lt {c : HnswConfig} {dim entry n : ℕ} {maxLayer : ℤ}
    (h : FitsLimits c dim maxLayer entry n) : c.m < 256^8 ∧ c.efConstruction < 256^8 ∧
      c.efSearch < 256^8 ∧ dim < 256^8 ∧ entry < 256^4 ∧ n < 256^4 ∧ dim < 256^4 := by
  obtain ⟨-,hdim,hcount,-,hentry,-,hm,hefc,hefs⟩ := h
  simp only [kMaxGraphNodes,kMaxVectorDimension] at hdim hcount hm hefc hefs
  split_ifs at hentry <;> omega

lemma reads_config {c : HnswConfig} (hm : c.m < 256^8) (hefc : c.efConstruction < 256^8)
    (hefs : c.efSearch < 256^8) (hml : Single.bits c.ml < 256^4)
    (hnumbers : c.matryoshkaDim < 256^8 ∧ c.pqCodes < 256^8 ∧ c.seed < 256^8) :
    Reads readConfig (putConfig c) ({ c with ml := 0 },Single.bits c.ml) := by
  obtain ⟨hmat,hpqc,hseed⟩ := hnumbers
  refine (reads_number hm).bind ((reads_number hefc).bind ((reads_number hefs).bind
    ((reads_number hml).bind ((reads_number hmat).bind ((reads_flag c.binary).bind
      ((reads_number hpqc).bind ((reads_flag c.dropFloats).bind
        ((reads_number hseed).last ?_))))))))
  have hflag : ∀ b : Bool, decide ((if b then 1 else 0) ≠ 0) = b := by decide
  rw [hflag,hflag]
  exact .pure _

/-- A graph without its nodes. -/
def bare (g : HnswIndex) : HnswIndex := { g with nodes := [], deleted := ∅ }

lemma reads_numbers {s : LiveGraph} {part : Option PqPart} (h : Writable s part) :
    Reads readNumbers (putHeader s.graph)
      (({ bare s.graph with config.ml := 0 },Single.bits s.graph.config.ml),
        s.graph.nodes.length) := by
  obtain ⟨hm,hefc,hefs,hdim,hentry,hn,-⟩ := h.limits.lt
  obtain ⟨-,hml⟩ := readMl_bits h.ml
  obtain ⟨hlayer,hlayerLt⟩ := int32_put h.limits.layers
  have hlimits := h.limits
  have hfits : FitsLimits { s.graph.config with ml := 0 } s.graph.dim
      (int32 (s.graph.maxLayer%2^32).toNat) s.graph.entry s.graph.nodes.length := by
    rw [hlayer]
    exact ⟨hlimits.some,hlimits.dimension,hlimits.count,hlimits.layers,hlimits.entry,
      hlimits.someLinks,hlimits.m,hlimits.efConstruction,hlimits.efSearch⟩
  have hmagic : kMagic < 256^4 := by decide
  have hversion : kVersion < 256^4 := by decide
  refine (reads_number hmagic).bind ((reads_ensure rfl).after ((reads_number hversion).bind
    ((reads_ensure rfl).after ((reads_config hm hefc hefs hml h.numbers).bind
      ((reads_number hdim).bind ((reads_number hlayerLt).bind ((reads_number hentry).bind
        ((reads_number hn).last ((reads_ensure hfits).after ?_)))))))))
  rw [hlayer]
  exact .pure _

lemma bind_of_ok {ε α β : Type} {p : Decoder ε α} {f : α → Decoder ε β} {input rest : Bytes} {a : α}
    (h : p input = .ok (a,rest)) : (p >>= f) input = f a rest := by
  rw [bind_apply,h]
  rfl

lemma readHeader_put {s : LiveGraph} {part : Option PqPart} (h : Writable s part) {rest : Bytes}
    (hroom : 12*s.graph.nodes.length ≤ rest.length) :
    readHeader (putHeader s.graph ++ rest) = .ok ((bare s.graph,s.graph.nodes.length),rest) := by
  have hfits : s.graph.nodes.length ≤ rest.length/12 := by omega
  have hroomy : room (bad "invalid hnsw limits") s.graph.nodes.length 12 rest = .ok ((),rest) :=
    if_pos hfits
  rw [readHeader,bind_of_ok (reads_numbers h rest)]
  dsimp only
  rw [bind_of_ok hroomy,(readMl_bits h.ml).1]
  rfl

lemma reads_part {dim n : ℕ} {stored : Option PqPart}
    (h : ∀ p, stored = some p → WritablePart dim n p) (hdim : dim ≤ kMaxVectorDimension)
    (hn : n ≤ kMaxGraphNodes) : Reads (readPart dim n) (putPart stored)
      (stored.map fun p => { p with pq := p.pq.kept }) := by
  cases stored with
  | none => exact (reads_number (by decide)).last (.pure _)
  | some p =>
    obtain ⟨hpq,hshort,hblob,hm,hcodes⟩ := h p rfl
    have hpart : p.m < 256^8 ∧ p.codes.length < 256^8 := by
      simp only [kMaxVectorDimension,kMaxGraphNodes] at hdim hn
      have := Nat.mul_le_mul hn (hm.2.trans hdim)
      omega
    have hback : ProductQuantizer.deserialize p.pq.serialize = .ok p.pq.kept := by
      rw [ProductQuantizer.deserialize,whole,ProductQuantizer.readQuantizer_serialize hpq,
        if_pos hshort]
      rfl
    refine (reads_number (by decide)).bind ((reads_number hblob).bind
      ((reads_bytes p.pq.serialize).bind ?_))
    rw [hback]
    refine (reads_number hpart.1).bind ((reads_ensure hm).after ((reads_number hpart.2).bind
      ((reads_ensure hcodes).after ((reads_bytes p.codes).last (.pure _)))))

lemma reads_vector {coded : Bool} {dim n : ℕ} {nd : HnswNode} (h : WritableNode coded dim n nd)
    (hpos : dim ≠ 0) (hdim : dim < 256^4) : Reads (readVector coded dim)
      (putVector coded dim nd.vector) (if coded then [] else nd.vector) := by
  cases coded with
  | true => exact (reads_number (by decide)).last (.pure _)
  | false =>
    have hlength := h.dimension rfl
    have hroom : 4*dim ≤ (encodeFrom putFloat 0 nd.vector).length := by
      rw [← hlength]
      exact encodeFrom_length_le (fun i x _ => by simp [putFloat]) 0
    have hcomponents : Reads (repeatFrom readComponent dim 0 [])
        (encodeFrom putFloat 0 nd.vector) nd.vector := by
      rw [← hlength]
      refine reads_repeatFrom putFloat id [] ?_
      intro pre x post hsplit
      obtain ⟨hback,hlt⟩ := Single.ofBits_bits (h.floats rfl x (by rw [← hsplit]; simp))
      refine (reads_number (w := 4) hlt).last ?_
      rw [hback]
      exact .pure _
    refine (reads_number hdim).bind ?_
    rw [if_neg hpos]
    refine (reads_ensure rfl).after (reads_room (by decide) hroom ?_)
    exact hcomponents.last ((reads_ensure (h.norm rfl)).after (.pure _))

lemma reads_layer {n : ℕ} {links : List (List ℕ)} {layer : List ℕ} {i j : ℕ} (hn : n < 256^4)
    (hlength : layer.length ≤ n) (hbound : ∀ nb ∈ layer, nb < n) :
    Reads (readLayer n i links) (putLayer j layer) (links ++ [layer]) := by
  have hroom : 4*layer.length ≤ (encodeFrom putNeighbour 0 layer).length :=
    encodeFrom_length_le (fun i x _ => by simp [putNeighbour]) 0
  have hneighbours : Reads (repeatFrom readNeighbour layer.length 0 [])
      (encodeFrom putNeighbour 0 layer) layer := by
    refine reads_repeatFrom putNeighbour id [] ?_
    intro pre nb post hsplit
    have hnb := hbound nb (by rw [← hsplit]; simp)
    exact (reads_number (hnb.trans hn)).last (.pure _)
  refine (reads_number (hlength.trans_lt hn)).bind ((reads_ensure hlength).after
    (reads_room (by decide) hroom ?_))
  exact hneighbours.last ((reads_ensure hbound).after (.pure _))

/-- What of a node is read back. -/
def keptNode (coded : Bool) (nd : HnswNode) : HnswNode :=
  { nd with superseded := false, vector := if coded then [] else nd.vector }

lemma reads_node {coded : Bool} {dim n : ℕ} {nodes : List HnswNode} {nd : HnswNode} {i j : ℕ}
    (h : WritableNode coded dim n nd) (hpos : dim ≠ 0) (hdim : dim < 256^4) (hn : n < 256^4)
    (hnew : nd.id ∉ nodes.map HnswNode.id) : Reads (readNode coded dim n i nodes)
      (putNode coded dim j nd) (nodes ++ [keptNode coded nd]) := by
  have hlinks : Reads (repeatFrom (readLayer n) nd.links.length 0 [])
      (encodeFrom putLayer 0 nd.links) nd.links := by
    refine reads_repeatFrom putLayer id [] ?_
    intro pre layer post hsplit
    have hmem : layer ∈ nd.links := by rw [← hsplit]; simp
    exact reads_layer hn (h.lengths layer hmem) (h.neighbours layer hmem)
  have hlayers := h.layers
  exact (reads_number h.id).bind ((reads_ensure hnew).after ((reads_vector h hpos hdim).bind
    ((reads_number (by omega)).bind ((reads_ensure hlayers).after (hlinks.last (.pure _))))))

lemma repeatFrom_add {ε σ : Type} (step : ℕ → σ → Decoder ε σ) (m n index : ℕ) (s : σ)
    (input : Bytes) : repeatFrom step (m+n) index s input =
      (repeatFrom step m index s input).bind fun found =>
        repeatFrom step n (index+m) found.1 found.2 := by
  induction m generalizing index s input with
  | zero => rw [Nat.zero_add]; rfl
  | succ m ih =>
    rw [Nat.succ_add,repeatFrom,bind_apply,repeatFrom,bind_apply]
    cases step index s input with
    | error e => rfl
    | ok found =>
      simp only [Except.bind]
      rw [ih,Nat.add_right_comm index 1 m]
      rfl

section nodes

variable {coded : Bool} {dim n : ℕ} {nodes : List HnswNode}

/-- Nodes of different ids are read back. -/
lemma reads_nodes (h : ∀ nd ∈ nodes, WritableNode coded dim n nd) (hpos : dim ≠ 0)
    (hdim : dim < 256^4) (hn : n < 256^4) (hids : (nodes.map HnswNode.id).Nodup) :
    Reads (repeatFrom (readNode coded dim n) nodes.length 0 [])
      (encodeFrom (putNode coded dim) 0 nodes) (nodes.map (keptNode coded)) := by
  have hread := @reads_repeatFrom Stop HnswNode (List HnswNode) (readNode coded dim n)
    (putNode coded dim) (fun before => before.map (keptNode coded)) [] nodes
  refine hread fun pre nd post hsplit => ?_
  have hmem : nd ∈ nodes := by rw [← hsplit]; simp
  have hnew : nd.id ∉ (pre.map (keptNode coded)).map HnswNode.id := by
    rw [← hsplit,List.map_append,List.nodup_append] at hids
    rw [List.map_map]
    exact fun hseen => hids.2.2 _ hseen _ (by simp) rfl
  have hnode := @reads_node coded dim n (pre.map (keptNode coded)) nd
    (([] : List HnswNode).length+pre.length) (([] : List HnswNode).length+pre.length)
    (h nd hmem) hpos hdim hn hnew
  simpa using hnode

/-- Where some numbers are not different, one of them is the first that was there before. -/
lemma exists_first_repeat (h : ¬(nodes.map HnswNode.id).Nodup) : ∃ pre nd post,
    nodes = pre ++ nd::post ∧ (pre.map HnswNode.id).Nodup ∧ nd.id ∈ pre.map HnswNode.id := by
  induction nodes using List.reverseRecOn with
  | nil => exact absurd List.nodup_nil h
  | append_singleton nodes last ih =>
    by_cases hnodup : (nodes.map HnswNode.id).Nodup
    · refine ⟨nodes,last,[],rfl,hnodup,?_⟩
      by_contra hnew
      refine h ?_
      rw [List.map_append,List.nodup_append]
      refine ⟨hnodup,List.nodup_singleton _,fun a ha b hb hab => ?_⟩
      rw [List.map_singleton,List.mem_singleton] at hb
      exact hnew (hb ▸ hab ▸ ha)
    · obtain ⟨pre,nd,post,rfl,hbefore,hseen⟩ := ih hnodup
      exact ⟨pre,nd,post ++ [last],by simp,hbefore,hseen⟩

/-- At the second node of an id the reader stops. -/
lemma readNodes_error (h : ∀ nd ∈ nodes, WritableNode coded dim n nd) (hpos : dim ≠ 0)
    (hdim : dim < 256^4) (hn : n < 256^4) (hids : ¬(nodes.map HnswNode.id).Nodup) (rest : Bytes) :
    repeatFrom (readNode coded dim n) nodes.length 0 [] (encodeFrom (putNode coded dim) 0 nodes ++
      rest) = .error (bad "node") := by
  obtain ⟨pre,nd,post,hsplit,hbefore,hseen⟩ := exists_first_repeat hids
  have hpre : ∀ x ∈ pre, WritableNode coded dim n x :=
    fun x hx => h x (by rw [hsplit]; exact List.mem_append_left _ hx)
  have hnd : WritableNode coded dim n nd := h nd (by rw [hsplit]; simp)
  have hlength : nodes.length = pre.length+(post.length+1) := by rw [hsplit]; simp
  have hread := reads_nodes hpre hpos hdim hn hbefore
    (putNode coded dim pre.length nd ++
      (encodeFrom (putNode coded dim) (pre.length+1) post ++ rest))
  have hnumber : number (bad "node") 4 (putNode coded dim pre.length nd ++
      (encodeFrom (putNode coded dim) (pre.length+1) post ++ rest)) = .ok (nd.id,
        (putVector coded dim nd.vector ++ (leBytes 4 nd.links.length ++
          encodeFrom putLayer 0 nd.links)) ++
            (encodeFrom (putNode coded dim) (pre.length+1) post ++ rest)) := by
    rw [putNode,List.append_assoc]
    exact reads_number hnd.id _
  have hold : ¬ nd.id ∉ (pre.map (keptNode coded)).map HnswNode.id := by
    rw [List.map_map]
    exact not_not.mpr hseen
  rw [hlength,repeatFrom_add,hsplit,encodeFrom_append,encodeFrom,Nat.zero_add,List.append_assoc,
    List.append_assoc,hread]
  simp only [Except.bind]
  rw [repeatFrom,bind_apply,readNode,bind_apply,hnumber]
  simp only [Except.bind]
  rw [bind_apply,ensure,if_neg hold]
  rfl

end nodes

section graph

variable {s : LiveGraph} {part : Option PqPart}

lemma unsealed_eq (s : LiveGraph) : s.unsealed.floatsDropped = s.floatsDropped ∧
    s.unsealed.graph = { s.graph with nodes := s.unsealed.graph.nodes } := by
  rw [LiveGraph.unsealed]
  split_ifs
  · exact ⟨rfl,rfl⟩
  · exact ⟨rfl,rfl⟩

lemma WritableNode.unpackLinks {coded : Bool} {dim n : ℕ} {nd : HnswNode}
    (h : WritableNode coded dim n nd) : WritableNode coded dim n (LiveGraph.unpackLinks nd) := by
  have hpre := List.rdropWhile_prefix (fun layer : List ℕ => layer = []) (l := nd.links)
  exact ⟨h.id,h.dimension,h.floats,h.norm,hpre.length_le.trans h.layers,
    fun layer hlayer => h.lengths layer (hpre.subset hlayer),
    fun layer hlayer => h.neighbours layer (hpre.subset hlayer)⟩

lemma Writable.unsealed (h : Writable s part) : Writable s.unsealed part := by
  rw [LiveGraph.unsealed]
  split_ifs
  · refine ⟨?_,h.ml,h.numbers,?_,?_,h.vectors⟩
    · rw [List.length_map]
      exact h.limits
    · intro nd hnd
      obtain ⟨before,hbefore,rfl⟩ := List.mem_map.mp hnd
      rw [List.length_map]
      exact (h.nodes before hbefore).unpackLinks
    · intro p hp
      rw [List.length_map]
      exact h.stored p hp
  · exact h

lemma length_putNodes (coded : Bool) (dim : ℕ) (nodes : List HnswNode) :
    12*nodes.length ≤ (encodeFrom (putNode coded dim) 0 nodes).length := by
  apply encodeFrom_length_le
  intro i nd _
  have hvector : 4 ≤ (putVector coded dim nd.vector).length := by
    rw [putVector]
    split_ifs
    · exact (leBytes_length _ _).ge
    · rw [List.length_append,leBytes_length]
      exact Nat.le_add_right _ _
  simp only [putNode,List.length_append,leBytes_length]
  omega

/-- What is read back of a graph: no removals, and no codes beside vectors. -/
def loaded (s : LiveGraph) (part : Option PqPart) : LiveGraph × Option PqPart :=
  let g := s.unsealed.graph
  let coded := (storedPart s part).isSome
  let nodes := g.nodes.map (keptNode coded)
  (⟨{ g with nodes := nodes, deleted := ∅ },some (LiveGraph.idIndex nodes),false,coded⟩,
    (storedPart s part).map fun p => { p with pq := p.pq.kept })

lemma readGraph_serialize (h : Writable s part) : readGraph (serialize s part) =
    if (s.unsealed.graph.nodes.map HnswNode.id).Nodup then .ok (loaded s part,[])
    else .error (bad "node") := by
  have hstored : storedPart s.unsealed part = storedPart s part := by
    rw [storedPart,storedPart,(unsealed_eq s).1]
  have hw := h.unsealed
  have hnodes := hw.nodes
  rw [hstored] at hnodes
  obtain ⟨-,-,-,-,-,hn,hdim⟩ := hw.limits.lt
  have hpart := reads_part (hstored ▸ hw.stored) hw.limits.dimension hw.limits.count
    (encodeFrom (putNode (storedPart s part).isSome s.unsealed.graph.dim) 0
      s.unsealed.graph.nodes)
  have hroom : 12*s.unsealed.graph.nodes.length ≤ (putPart (storedPart s part) ++
      encodeFrom (putNode (storedPart s part).isSome s.unsealed.graph.dim) 0
        s.unsealed.graph.nodes).length := by
    rw [List.length_append]
    exact (length_putNodes _ _ _).trans (Nat.le_add_left _ _)
  rw [readGraph,serialize,bind_of_ok (readHeader_put hw hroom)]
  dsimp only [bare]
  rw [bind_of_ok hpart]
  have hcoded : ((storedPart s part).map fun p => { p with pq := p.pq.kept }).isSome =
      (storedPart s part).isSome := by
    cases storedPart s part <;> rfl
  rw [hcoded]
  split_ifs with hids
  · have hread := reads_nodes hnodes hw.limits.some hdim hn hids []
    rw [List.append_nil] at hread
    rw [bind_of_ok hread,loaded,(unsealed_eq s).2]
    rfl
  · have hread := readNodes_error hnodes hw.limits.some hdim hn hids []
    rw [List.append_nil] at hread
    rw [bind_apply,hread]
    rfl

/-- A graph is read back without its removals, or not at all if an id was given to two nodes. -/
theorem deserialize_saved (h : Writable s part) : deserialize (serialize s part) =
    some (if (s.graph.nodes.map HnswNode.id).Nodup then .ok (loaded s part)
      else fail .corruptIndex "node") := by
  have hids : s.unsealed.graph.nodes.map HnswNode.id = s.graph.nodes.map HnswNode.id :=
    WatchedGraph.unsealed_ids s
  rw [deserialize,whole,readGraph_serialize h,hids]
  split_ifs
  · rfl
  · rfl

/-- A scan does not look at links. -/
lemma searchExactFiltered_congr {similarity : Similarity} {s t : LiveGraph}
    (hdropped : t.floatsDropped = s.floatsDropped)
    (hgraph : t.graph.dim = s.graph.dim ∧ t.graph.deleted = s.graph.deleted ∧
      t.graph.nodes.map (fun nd => (nd.id,nd.superseded,nd.vector)) =
        s.graph.nodes.map fun nd => (nd.id,nd.superseded,nd.vector))
    (query : Vec) (k : ℕ) (allow : ℕ → Bool) :
    t.searchExactFiltered similarity query k allow =
      s.searchExactFiltered similarity query k allow := by
  obtain ⟨hdim,hdeleted,hnodes⟩ := hgraph
  have hnil : (t.graph.nodes = []) = (s.graph.nodes = []) := by
    have hlength : t.graph.nodes.length = s.graph.nodes.length := by
      simpa using congrArg List.length hnodes
    rw [← List.length_eq_zero_iff,hlength,List.length_eq_zero_iff]
  have hscan : ∀ g : LiveGraph, (g.survivors.filter fun nd => allow nd.id).map (fun nd =>
      (⟨nd.id,dot nd.vector (similarity.normalize query)⟩ : Hit)) =
      (((g.graph.nodes.map fun nd => (nd.id,nd.superseded,nd.vector)).filter fun x =>
        x.1 ∉ g.graph.deleted ∧ x.2.1 = false).filter fun x => allow x.1).map fun x =>
          (⟨x.1,dot x.2.2 (similarity.normalize query)⟩ : Hit) := by
    intro g
    rw [List.filter_map,List.filter_map,List.map_map]
    rfl
  rw [LiveGraph.searchExactFiltered,LiveGraph.searchExactFiltered]
  simp only [hnil,hdim,hdropped,hscan,hnodes,hdeleted]

/-- A graph that has its vectors and nothing that is removed is searched after loading as it was
before. -/
theorem saved_search (h : Writable s part) : deserialize (serialize s part) =
      some (if (s.graph.nodes.map HnswNode.id).Nodup then .ok (loaded s part)
        else fail .corruptIndex "node") ∧
    (s.floatsDropped = false → s.graph.deleted = ∅ →
      (∀ nd ∈ s.graph.nodes, nd.superseded = false) → ∀ similarity query k allow,
        (∀ ef, (loaded s part).1.graph.beamSearch similarity query k allow ef =
          s.graph.beamSearch similarity query k allow ef) ∧
        (loaded s part).1.searchExactFiltered similarity query k allow =
          s.searchExactFiltered similarity query k allow) := by
  refine ⟨deserialize_saved h,fun hfloats hdeleted hcurrent similarity query k allow => ?_⟩
  have hstored : storedPart s part = none := by rw [storedPart,hfloats]; rfl
  have hkept : ∀ nd ∈ s.unsealed.graph.nodes, keptNode false nd = nd := by
    intro nd hnd
    have hold : nd.superseded = false := by
      rw [LiveGraph.unsealed] at hnd
      split_ifs at hnd
      · obtain ⟨before,hbefore,rfl⟩ := List.mem_map.mp hnd
        exact hcurrent before hbefore
      · exact hcurrent nd hnd
    obtain ⟨id,superseded,vector,links⟩ := nd
    cases (hold : superseded = false)
    rfl
  have hgraph : (loaded s part).1.graph = s.unsealed.graph := by
    have hnone : s.unsealed.graph.deleted = ∅ := by rw [(unsealed_eq s).2,← hdeleted]
    rw [loaded,hstored]
    dsimp only [Option.isSome_none]
    rw [List.map_congr_left hkept,List.map_id',← hnone]
  have hlayout : s.unsealed.graph = s.graph ∨ s.unsealed.graph = s.graph.unpacked := by
    rw [LiveGraph.unsealed,HnswIndex.unpacked_eq]
    split_ifs
    · exact .inr rfl
    · exact .inl rfl
  refine ⟨fun ef => ?_,?_⟩
  · rw [hgraph]
    obtain hlayout | hlayout := hlayout
    · rw [hlayout]
    · rw [hlayout]
      exact (HnswIndex.alike_unpacked s.graph).beamSearch query k allow ef
  · have hdropped : (loaded s part).1.floatsDropped = s.floatsDropped := by
      rw [loaded,hstored,hfloats]
      rfl
    refine searchExactFiltered_congr hdropped ?_ query k allow
    rw [hgraph]
    obtain hlayout | hlayout := hlayout
    · rw [hlayout]
      exact ⟨rfl,rfl,rfl⟩
    · rw [hlayout,HnswIndex.unpacked_eq]
      refine ⟨rfl,rfl,?_⟩
      rw [List.map_map]
      rfl

end graph

end roundTrip

section accepted

/-- What is made sure of for a node that is read: it has the zeros of the arena, no vector beside
codes, or a vector of about unit length. -/
structure AcceptedNode (coded : Bool) (dim n : ℕ) (nd : HnswNode) : Prop where
  id : nd.id < 256^4
  current : nd.superseded = false
  vector : coded = false → nd.vector = List.replicate dim 0 ∨
    nd.vector.length = dim ∧ (∀ x ∈ nd.vector, Single.IsFloat x) ∧
      |dot nd.vector nd.vector - 1| ≤ 1/100
  layers : nd.links.length ≤ 64
  lengths : ∀ layer ∈ nd.links, layer.length ≤ n
  neighbours : ∀ layer ∈ nd.links, ∀ nb ∈ layer, nb < n

/-- What is made sure of for a graph without its nodes. -/
structure AcceptedHeader (g : HnswIndex) (n : ℕ) : Prop where
  limits : FitsLimits g.config g.dim g.maxLayer g.entry n
  ml : Single.IsFloat g.config.ml ∧ 0 < g.config.ml
  numbers : g.config.matryoshkaDim < 256^8 ∧ g.config.pqCodes < 256^8 ∧ g.config.seed < 256^8
  deleted : g.deleted = ∅

lemma yields_config : Yields readConfig fun c => (c.1.matryoshkaDim < 256^8 ∧
    c.1.pqCodes < 256^8 ∧ c.1.seed < 256^8) ∧ c.2 < 256^4 := by
  refine (yields_true _).bind fun m _ => (yields_true _).bind fun efc _ => (yields_true _).bind
    fun efs _ => (yields_number _ _).bind fun ml hml => (yields_number _ _).bind fun mat hmat => ?_
  exact (yields_true _).bind fun bin _ => (yields_number _ _).bind fun pqc hpqc =>
    (yields_true _).bind fun drop _ => (yields_number _ _).bind fun seed hseed =>
      yields_pure ⟨⟨hmat,hpqc,hseed⟩,hml⟩

lemma readMl_spec {bits : ℕ} (hbits : bits < 256^4) {ml : ℚ} (h : readMl bits = some ml) :
    Single.IsFloat ml ∧ 0 < ml := by
  obtain ⟨hvalue,hpos⟩ := Option.filter_eq_some_iff.mp h
  exact ⟨⟨bits,by omega,hvalue⟩,of_decide_eq_true hpos⟩

lemma yields_numbers : Yields readNumbers fun numbers =>
    (FitsLimits numbers.1.1.config numbers.1.1.dim numbers.1.1.maxLayer numbers.1.1.entry
      numbers.2 ∧ (numbers.1.1.config.matryoshkaDim < 256^8 ∧
        numbers.1.1.config.pqCodes < 256^8 ∧ numbers.1.1.config.seed < 256^8) ∧
      numbers.1.1.deleted = ∅) ∧ numbers.1.2 < 256^4 := by
  refine (yields_true _).bind fun magic _ => (yields_true _).bind fun _ _ => (yields_true _).bind
    fun version _ => (yields_true _).bind fun _ _ => yields_config.bind fun config hconfig => ?_
  exact (yields_true _).bind fun dim _ => (yields_true _).bind fun maxl _ => (yields_true _).bind
    fun entry _ => (yields_true _).bind fun ncount _ => (yields_ensure _ _).bind fun _ hfits =>
      yields_pure ⟨⟨hfits,hconfig.1,rfl⟩,hconfig.2⟩

lemma yields_header : Yields readHeader fun front => AcceptedHeader front.1 front.2 := by
  refine yields_numbers.bind fun numbers hnumbers => (yields_true _).bind fun _ _ => ?_
  obtain ⟨⟨hfits,hconfig,hdeleted⟩,hbits⟩ := hnumbers
  cases hml : readMl numbers.1.2 with
  | none =>
    intro input found rest hfound
    cases hfound
  | some ml =>
    exact yields_pure ⟨⟨hfits.some,hfits.dimension,hfits.count,hfits.layers,hfits.entry,
      hfits.someLinks,hfits.m,hfits.efConstruction,hfits.efSearch⟩,readMl_spec hbits hml,hconfig,
      hdeleted⟩

lemma yields_vector (coded : Bool) (dim : ℕ) : Yields (readVector coded dim) fun v =>
    coded = false → v = List.replicate dim 0 ∨ v.length = dim ∧ (∀ x ∈ v, Single.IsFloat x) ∧
      |dot v v - 1| ≤ 1/100 := by
  refine (yields_true _).bind fun vlen _ => ?_
  by_cases hnone : vlen = 0
  · rw [if_pos hnone]
    refine yields_pure fun hcoded => .inl ?_
    rw [hcoded]
    rfl
  rw [if_neg hnone]
  refine (yields_ensure _ _).bind fun _ hdim => (yields_true _).bind fun _ _ => ?_
  cases coded with
  | true =>
    intro input found rest hfound
    cases hfound
  | false =>
    have hcomponents := @yields_repeatFrom Stop Vec readComponent
      (fun i v => v.length = i ∧ ∀ x ∈ v, Single.IsFloat x) (fun i v hv => ?_) vlen 0 []
      ⟨rfl,fun x hx => absurd hx List.not_mem_nil⟩
    · refine hcomponents.bind fun v hv => (yields_ensure _ _).bind fun _ hnorm => yields_pure ?_
      exact fun _ => .inr ⟨hv.1.trans ((Nat.zero_add vlen).trans hdim),hv.2,hnorm⟩
    · refine (yields_number _ _).bind fun bits hbits => ?_
      cases hx : Single.ofBits bits with
      | none =>
        intro input found rest hfound
        cases hfound
      | some x =>
        refine yields_pure ⟨by rw [List.length_append,hv.1,List.length_singleton],?_⟩
        intro y hy
        obtain hy | hy := List.mem_append.mp hy
        · exact hv.2 y hy
        · rw [List.mem_singleton.mp hy]
          exact ⟨bits,by omega,hx⟩

lemma yields_layer (n i : ℕ) {links : List (List ℕ)} (hlength : links.length = i)
    (hall : ∀ layer ∈ links, layer.length ≤ n ∧ ∀ nb ∈ layer, nb < n) :
    Yields (readLayer n i links) fun links => links.length = i+1 ∧
      ∀ layer ∈ links, layer.length ≤ n ∧ ∀ nb ∈ layer, nb < n := by
  refine (yields_true _).bind fun llen _ => (yields_ensure _ _).bind fun _ hllen =>
    (yields_true _).bind fun _ _ => ?_
  have hneighbours := @yields_repeatFrom Stop (List ℕ) readNeighbour
    (fun i layer => layer.length = i) (fun i layer hlayer => ?_) llen 0 [] rfl
  · refine hneighbours.bind fun layer hlayer => (yields_ensure _ _).bind fun _ hbound =>
      yields_pure ⟨by rw [List.length_append,hlength,List.length_singleton],?_⟩
    intro other hother
    obtain hother | hother := List.mem_append.mp hother
    · exact hall other hother
    · rw [List.mem_singleton.mp hother]
      exact ⟨by omega,hbound⟩
  · exact (yields_true _).bind fun nb _ =>
      yields_pure (by rw [List.length_append,hlayer,List.length_singleton])

/-- The nodes read so far, by how many they are. -/
structure AcceptedNodes (coded : Bool) (dim n i : ℕ) (nodes : List HnswNode) : Prop where
  length : nodes.length = i
  ids : (nodes.map HnswNode.id).Nodup
  all : ∀ nd ∈ nodes, AcceptedNode coded dim n nd

lemma yields_node {coded : Bool} {dim n i : ℕ} {nodes : List HnswNode}
    (h : AcceptedNodes coded dim n i nodes) :
    Yields (readNode coded dim n i nodes) (AcceptedNodes coded dim n (i+1)) := by
  refine (yields_number _ _).bind fun id hid => (yields_ensure _ _).bind fun _ hnew =>
    (yields_vector coded dim).bind fun vector hvector => (yields_true _).bind fun nlayers _ =>
      (yields_ensure _ _).bind fun _ hlayers => ?_
  have hlinks := @yields_repeatFrom Stop (List (List ℕ)) (readLayer n)
    (fun i links => links.length = i ∧ ∀ layer ∈ links, layer.length ≤ n ∧ ∀ nb ∈ layer, nb < n)
    (fun i links hlinks => yields_layer n i hlinks.1 hlinks.2) nlayers 0 []
    ⟨rfl,fun layer hlayer => absurd hlayer List.not_mem_nil⟩
  refine hlinks.bind fun links hlinks => yields_pure ⟨?_,?_,?_⟩
  · rw [List.length_append,h.length,List.length_singleton]
  · rw [List.map_append,List.nodup_append]
    refine ⟨h.ids,List.nodup_singleton _,fun a ha b hb hab => ?_⟩
    rw [List.map_singleton,List.mem_singleton] at hb
    have hsame : a = id := hab.trans hb
    exact hnew (hsame ▸ ha)
  · intro nd hnd
    obtain hnd | hnd := List.mem_append.mp hnd
    · exact h.all nd hnd
    · have hcount : links.length ≤ 64 := by omega
      rw [List.mem_singleton.mp hnd]
      exact ⟨hid,rfl,hvector,hcount,fun layer hlayer => (hlinks.2 layer hlayer).1,
        fun layer hlayer => (hlinks.2 layer hlayer).2⟩

/-- What is made sure of for a graph that is read. -/
structure Accepted (t : LiveGraph) (part : Option PqPart) : Prop where
  header : AcceptedHeader t.graph t.graph.nodes.length
  ids : (t.graph.nodes.map HnswNode.id).Nodup
  nodes : ∀ nd ∈ t.graph.nodes,
    AcceptedNode part.isSome t.graph.dim t.graph.nodes.length nd
  layout : t.idToOrd = some (LiveGraph.idIndex t.graph.nodes) ∧ t.isSealed = false ∧
    t.floatsDropped = part.isSome

lemma yields_graph : Yields readGraph fun found => Accepted found.1 found.2 := by
  refine yields_header.bind fun front hfront => (yields_true _).bind fun part _ => ?_
  have hnodes := @yields_repeatFrom Stop (List HnswNode)
    (readNode part.isSome front.1.dim front.2) (AcceptedNodes part.isSome front.1.dim front.2)
    (fun i nodes h => yields_node h) front.2 0 []
    ⟨rfl,List.nodup_nil,fun nd hnd => absurd hnd List.not_mem_nil⟩
  refine hnodes.bind fun nodes h => yields_pure ?_
  obtain ⟨hlength,hids,hall⟩ := h
  rw [Nat.zero_add] at hlength
  rw [← hlength] at hfront hall
  exact ⟨⟨hfront.limits,hfront.ml,hfront.numbers,hfront.deleted⟩,hids,hall,rfl,rfl,rfl⟩

variable {blob : Bytes} {t : LiveGraph} {part : Option PqPart}

lemma accepted_of_deserialize (h : deserialize blob = some (.ok (t,part))) : Accepted t part := by
  rw [deserialize] at h
  cases hread : readGraph.whole (bad "trailing hnsw data") blob with
  | error e =>
    rw [hread] at h
    cases e <;> cases h
  | ok found =>
    rw [hread] at h
    cases h
    exact yields_graph.whole hread

lemma Accepted.writable (h : Accepted t none)
    (hvectors : ∀ nd ∈ t.graph.nodes, nd.vector ≠ List.replicate t.graph.dim 0) :
    Writable t none where
  limits := h.header.limits
  ml := h.header.ml
  numbers := h.header.numbers
  nodes nd hnd := by
    have hnode := h.nodes nd hnd
    have hvector := (hnode.vector rfl).resolve_left (hvectors nd hnd)
    have hstored : (storedPart t none).isSome = false := by
      rw [storedPart]
      split_ifs <;> rfl
    rw [hstored]
    exact ⟨hnode.id,fun _ => hvector.1,fun _ => hvector.2.1,fun _ => hvector.2.2,hnode.layers,
      hnode.lengths,hnode.neighbours⟩
  stored p hp := by
    rw [storedPart] at hp
    split_ifs at hp
  vectors hdropped := by
    rw [h.layout.2.2] at hdropped
    cases hdropped

/-- What is accepted refers to its own nodes only, and if it has vectors, none of them zero, it is
saved and read back as it is. -/
theorem accepted_saved (h : deserialize blob = some (.ok (t,part))) : Accepted t part ∧
    (part = none → (∀ nd ∈ t.graph.nodes, nd.vector ≠ List.replicate t.graph.dim 0) →
      deserialize (serialize t none) = some (.ok (t,none))) := by
  have haccepted := accepted_of_deserialize h
  refine ⟨haccepted,?_⟩
  rintro rfl hvectors
  obtain ⟨hindex,hsealed,hdropped⟩ := haccepted.layout
  have hkept : ∀ nd ∈ t.graph.nodes, keptNode false nd = nd := by
    intro nd hnd
    have hcurrent := (haccepted.nodes nd hnd).current
    obtain ⟨id,superseded,vector,links⟩ := nd
    cases (hcurrent : superseded = false)
    rfl
  have hloaded : loaded t none = (t,none) := by
    have hstored : storedPart t none = none := by
      rw [storedPart]
      split_ifs <;> rfl
    have hunsealed : t.unsealed = t := by rw [LiveGraph.unsealed,if_neg (by simp [hsealed])]
    rw [loaded,hstored,hunsealed]
    dsimp only [Option.isSome_none,Option.map_none]
    rw [List.map_congr_left hkept,List.map_id',← hindex,← haccepted.header.deleted]
    obtain ⟨graph,idToOrd,isSealed,floatsDropped⟩ := t
    cases (hsealed : isSealed = false)
    cases (hdropped : floatsDropped = false)
    rfl
  rw [deserialize,whole,readGraph_serialize (haccepted.writable hvectors),
    WatchedGraph.unsealed_ids,if_pos haccepted.ids,hloaded]
  rfl

/-- Three nodes, two of them on a second layer. -/
def threeNodes : List HnswNode :=
  [⟨7,false,[1,0],[[1,2],[1]]⟩,⟨9,false,[0,1],[[0],[0]]⟩,⟨4,false,[-1,0],[[0]]⟩]

/-- Before it was sealed, or after a removal. -/
def three (isSealed : Bool) : LiveGraph :=
  ⟨⟨{ ml := 1 },2,1,0,threeNodes,if isSealed then {9} else ∅⟩,
    if isSealed then none else some (LiveGraph.idIndex threeNodes),isSealed,false⟩

lemma isFloat_unit : ∀ x ∈ ([1,0,-1] : Vec), Single.IsFloat x := by
  intro x hx
  simp only [List.mem_cons,List.not_mem_nil,or_false] at hx
  obtain rfl | rfl | rfl := hx
  · exact ⟨0x3F800000,by decide,by decide +kernel⟩
  · exact ⟨0,by decide,by decide +kernel⟩
  · exact ⟨0xBF800000,by decide,by decide +kernel⟩

lemma writable_three (isSealed : Bool) : Writable (three isSealed) none where
  limits := (by decide : FitsLimits { ml := 1 } 2 1 0 3)
  ml := ⟨isFloat_unit 1 (by decide +kernel),one_pos⟩
  numbers := (by decide : 0 < 256^8 ∧ 0 < 256^8 ∧ ({ ml := 1 } : HnswConfig).seed < 256^8)
  nodes nd hnd := by
    have hnodes : ∀ nd ∈ threeNodes, nd.id < 256^4 ∧ nd.vector.length = 2 ∧
        (∀ x ∈ nd.vector, x ∈ ([1,0,-1] : Vec)) ∧ |dot nd.vector nd.vector - 1| ≤ 1/100 ∧
        nd.links.length ≤ 64 ∧ (∀ layer ∈ nd.links, layer.length ≤ 3) ∧
        ∀ layer ∈ nd.links, ∀ nb ∈ layer, nb < 3 := by
      decide +kernel
    obtain ⟨hid,hlength,hdigits,hnorm,hlayers,hlengths,hneighbours⟩ := hnodes nd hnd
    exact ⟨hid,fun _ => hlength,fun _ x hx => isFloat_unit x (hdigits x hx),fun _ => hnorm,hlayers,
      hlengths,hneighbours⟩
  stored p hp := by cases hp
  vectors hdropped := by cases hdropped

/-- A sealed graph comes back without the removal, and another one is searched as before. -/
lemma three_saved :
    deserialize (serialize (three true) none) = some (.ok (three false,none)) ∧
    ∀ similarity query k allow,
      (loaded (three false) none).1.searchExactFiltered similarity query k allow =
        (three false).searchExactFiltered similarity query k allow := by
  have hloaded : loaded (three true) none = (three false,none) := by
    rfl
  have hsaved := (saved_search (writable_three true)).1
  rw [if_pos (by decide),hloaded] at hsaved
  have hsearch := (saved_search (writable_three false)).2 rfl rfl (by decide +kernel)
  exact ⟨hsaved,fun similarity query k allow => (hsearch similarity query k allow).2⟩

lemma three_accepted : Accepted (three false) none ∧
    deserialize (serialize (three false) none) = some (.ok (three false,none)) := by
  have hread := three_saved.1
  exact ⟨(accepted_saved hread).1,(accepted_saved hread).2 rfl (by decide +kernel)⟩

end accepted
end HnswCodec
end RagRuntime.Index
