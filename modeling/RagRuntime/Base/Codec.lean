import RagRuntime.Base.LittleEndian

/-! Decoders of byte strings: what it means that a decoder reads a value off the front of its
input, and what holds of every value that it accepts. -/
namespace RagRuntime.Base

/-- A decoder takes a value off the front of its input, or fails. -/
abbrev Decoder (ε α : Type) := StateT Bytes (Except ε) α

namespace Decoder

variable {ε α β σ : Type}

def ensure (e : ε) (p : Prop) [Decidable p] : Decoder ε Unit :=
  fun input => if p then .ok ((),input) else .error e

def number (e : ε) (w : ℕ) : Decoder ε ℕ := fun input =>
  match takeNumber w input with
  | some found => .ok found
  | none => .error e

def bytes (e : ε) (n : ℕ) : Decoder ε Bytes := fun input =>
  match takeBytes n input with
  | some found => .ok found
  | none => .error e

/-- A string behind its length of four bytes. -/
def string (e : ε) : Decoder ε Bytes := do
  let n ← number e 4
  bytes e n

/-- There is room for `n` records of at least `unit` bytes in what is left. -/
def room (e : ε) (n unit : ℕ) : Decoder ε Unit :=
  fun input => if n ≤ input.length/unit then .ok ((),input) else .error e

/-- Read `n` records, the first of which has the given index. -/
def repeatFrom (step : ℕ → σ → Decoder ε σ) : ℕ → ℕ → σ → Decoder ε σ
  | 0,_,s => pure s
  | n+1,index,s => do
    let s ← step index s
    repeatFrom step n (index+1) s

/-- Decode an input that holds nothing else. -/
def whole (p : Decoder ε α) (trailing : ε) (input : Bytes) : Except ε α :=
  match p input with
  | .error e => .error e
  | .ok (a,rest) => if rest = [] then .ok a else .error trailing

/-- The decoder takes exactly `input` off whatever begins with it, as `a`. -/
def Reads (p : Decoder ε α) (input : Bytes) (a : α) : Prop :=
  ∀ rest, p (input ++ rest) = .ok (a,rest)

/-- Whatever the decoder accepts has the property. -/
def Yields (p : Decoder ε α) (post : α → Prop) : Prop :=
  ∀ input a rest, p input = .ok (a,rest) → post a

theorem bind_apply (p : Decoder ε α) (f : α → Decoder ε β) (input : Bytes) :
    (p >>= f) input = (p input).bind fun found => f found.1 found.2 := rfl

section reads

theorem Reads.pure (a : α) : Reads (Pure.pure a : Decoder ε α) [] a := fun _ => rfl

theorem Reads.bind {p : Decoder ε α} {f : α → Decoder ε β} {xs ys : Bytes} {a : α} {b : β}
    (hp : Reads p xs a) (hf : Reads (f a) ys b) : Reads (p >>= f) (xs ++ ys) b := by
  intro rest
  rw [bind_apply,List.append_assoc,hp (ys ++ rest)]
  exact hf rest

/-- A check that takes nothing off. -/
theorem Reads.after {p : Decoder ε α} {f : α → Decoder ε β} {ys : Bytes} {a : α} {b : β}
    (hp : Reads p [] a) (hf : Reads (f a) ys b) : Reads (p >>= f) ys b := by
  have h := hp.bind hf
  rwa [List.nil_append] at h

theorem Reads.last {p : Decoder ε α} {f : α → Decoder ε β} {xs : Bytes} {a : α} {b : β}
    (hp : Reads p xs a) (hf : Reads (f a) [] b) : Reads (p >>= f) xs b := by
  have h := hp.bind hf
  rwa [List.append_nil] at h

theorem reads_ensure {e : ε} {p : Prop} [Decidable p] (h : p) : Reads (ensure e p) [] () := by
  intro rest
  simp [ensure,h]

theorem reads_number {e : ε} {w n : ℕ} (h : n < 256^w) : Reads (number e w) (leBytes w n) n := by
  intro rest
  simp [number,takeNumber_append h]

theorem reads_bytes {e : ε} (s : Bytes) : Reads (bytes e s.length) s s := by
  intro rest
  simp [bytes]

theorem reads_string {e : ε} {s : Bytes} (h : s.length < 256^4) :
    Reads (string e) (leBytes 4 s.length ++ s) s :=
  (reads_number h).bind (reads_bytes s)

/-- The room is there if the records are. -/
theorem reads_room {e : ε} {n unit : ℕ} {p : Decoder ε α} {ys : Bytes} {a : α} (hunit : 0 < unit)
    (h : unit*n ≤ ys.length) (hp : Reads p ys a) : Reads (room e n unit >>= fun _ => p) ys a := by
  intro rest
  have hroom : n ≤ (ys ++ rest).length/unit := by
    rw [Nat.le_div_iff_mul_le hunit,List.length_append,Nat.mul_comm]
    omega
  rw [bind_apply,room,if_pos hroom]
  exact hp rest

/-- The records of a list, each encoded with its index. -/
def encodeFrom (encode : ℕ → α → Bytes) : ℕ → List α → Bytes
  | _,[] => []
  | index,x::xs => encode index x ++ encodeFrom encode (index+1) xs

theorem encodeFrom_append (encode : ℕ → α → Bytes) (index : ℕ) (xs ys : List α) :
    encodeFrom encode index (xs ++ ys) =
      encodeFrom encode index xs ++ encodeFrom encode (index+xs.length) ys := by
  induction xs generalizing index with
  | nil => rfl
  | cons x xs ih =>
    have hindex : index+1+xs.length = index+(x::xs).length := by
      rw [List.length_cons]
      omega
    rw [List.cons_append,encodeFrom,encodeFrom,ih,List.append_assoc,hindex]

/-- The records are read one after the other; `state` is what has become of those before. -/
theorem reads_repeatFrom {step : ℕ → σ → Decoder ε σ} (encode : ℕ → α → Bytes)
    (state : List α → σ) (before : List α) {xs : List α}
    (h : ∀ pre x post, pre ++ x::post = xs →
      Reads (step (before.length + pre.length) (state (before ++ pre)))
        (encode (before.length + pre.length) x) (state (before ++ pre ++ [x]))) :
    Reads (repeatFrom step xs.length before.length (state before))
      (encodeFrom encode before.length xs) (state (before ++ xs)) := by
  induction xs generalizing before with
  | nil =>
    rw [List.append_nil]
    exact .pure _
  | cons x xs ih =>
    have hx := h [] x xs rfl
    have htail := ih (before ++ [x]) fun pre y post hsplit => by
      have := h (x::pre) y post (by rw [List.cons_append,hsplit])
      rw [List.length_append,List.length_singleton,List.append_assoc,List.singleton_append]
      rw [List.length_cons,← Nat.add_assoc,Nat.add_right_comm] at this
      exact this
    rw [List.length_append,List.length_singleton,List.append_assoc,List.singleton_append] at htail
    rw [List.append_nil,List.length_nil,Nat.add_zero] at hx
    exact hx.bind htail

theorem Reads.whole {p : Decoder ε α} {input : Bytes} {a : α} (h : Reads p input a)
    (trailing : ε) : p.whole trailing input = .ok a := by
  have := h []
  rw [List.append_nil] at this
  simp [Decoder.whole,this]

theorem encodeFrom_length_le {encode : ℕ → α → Bytes} {unit : ℕ} {xs : List α}
    (h : ∀ i, ∀ x ∈ xs, unit ≤ (encode i x).length) (index : ℕ) :
    unit*xs.length ≤ (encodeFrom encode index xs).length := by
  induction xs generalizing index with
  | nil => exact Nat.le_refl _
  | cons x xs ih =>
    have hx := h index x List.mem_cons_self
    have htail := ih (fun i y hy => h i y (List.mem_cons_of_mem _ hy)) (index+1)
    rw [encodeFrom,List.length_append,List.length_cons,Nat.mul_succ]
    omega

theorem length_encodeFrom_le {encode : ℕ → α → Bytes} {unit : ℕ} {xs : List α}
    (h : ∀ i, ∀ x ∈ xs, (encode i x).length ≤ unit) (index : ℕ) :
    (encodeFrom encode index xs).length ≤ unit*xs.length := by
  induction xs generalizing index with
  | nil => exact Nat.zero_le _
  | cons x xs ih =>
    have hx := h index x List.mem_cons_self
    have htail := ih (fun i y hy => h i y (List.mem_cons_of_mem _ hy)) (index+1)
    rw [encodeFrom,List.length_append,List.length_cons,Nat.mul_succ]
    omega

end reads

section yields

theorem Yields.mono {p : Decoder ε α} {post post' : α → Prop} (h : Yields p post)
    (himp : ∀ a, post a → post' a) : Yields p post' :=
  fun input a rest ha => himp a (h input a rest ha)

theorem yields_pure {a : α} {post : α → Prop} (h : post a) :
    Yields (pure a : Decoder ε α) post := by
  intro input b rest hb
  cases hb
  exact h

theorem Yields.bind {p : Decoder ε α} {f : α → Decoder ε β} {mid : α → Prop} {post : β → Prop}
    (hp : Yields p mid) (hf : ∀ a, mid a → Yields (f a) post) : Yields (p >>= f) post := by
  intro input b rest hb
  rw [bind_apply] at hb
  cases hp' : p input with
  | error e =>
    rw [hp'] at hb
    cases hb
  | ok found =>
    rw [hp'] at hb
    exact hf found.1 (hp input found.1 found.2 hp') found.2 b rest hb

theorem yields_true (p : Decoder ε α) : Yields p fun _ => True := fun _ _ _ _ => trivial

theorem yields_ensure (e : ε) (p : Prop) [Decidable p] : Yields (ensure e p) fun _ => p := by
  intro input a rest h
  unfold ensure at h
  split_ifs at h with hp
  exact hp

theorem yields_number (e : ε) (w : ℕ) : Yields (number e w) fun n => n < 256^w := by
  intro input n rest h
  unfold number takeNumber at h
  split_ifs at h with hshort
  have hlt := leValue_lt (input.take w)
  rw [List.length_take,Nat.min_eq_left (not_lt.mp hshort)] at hlt
  cases h
  exact hlt

theorem yields_bytes (e : ε) (n : ℕ) : Yields (bytes e n) fun s => s.length = n := by
  intro input s rest h
  unfold bytes takeBytes at h
  split_ifs at h with hshort
  cases h
  rw [List.length_take,Nat.min_eq_left (not_lt.mp hshort)]

/-- An invariant of the records read so far, by how many they are. -/
theorem yields_repeatFrom {step : ℕ → σ → Decoder ε σ} (inv : ℕ → σ → Prop)
    (h : ∀ i s, inv i s → Yields (step i s) (inv (i+1))) {n index : ℕ} {s : σ}
    (hs : inv index s) : Yields (repeatFrom step n index s) (inv (index+n)) := by
  induction n generalizing index s with
  | zero => exact yields_pure hs
  | succ n ih =>
    refine (h index s hs).bind fun t ht => ?_
    have := ih ht
    rwa [Nat.add_right_comm] at this

theorem Yields.whole {p : Decoder ε α} {post : α → Prop} (h : Yields p post) {trailing : ε}
    {input : Bytes} {a : α} (ha : p.whole trailing input = .ok a) : post a := by
  unfold Decoder.whole at ha
  cases hp : p input with
  | error e =>
    rw [hp] at ha
    cases ha
  | ok found =>
    simp only [hp] at ha
    split_ifs at ha
    cases ha
    exact h input found.1 found.2 hp

end yields

end Decoder
end RagRuntime.Base
