import Mathlib.Algebra.GroupWithZero.Nat
import Mathlib.Data.List.Basic
import Mathlib.Order.Lattice
import Mathlib.Tactic.Common

/-! Finite maps as strictly ascending association lists. The order of the entries is a
field, so iterating the list is iterating the map in key order, and two maps with the
same lookups are the same map. -/
namespace RagRuntime.Base

structure OrdMap (κ ν : Type*) [LinearOrder κ] where
  entries : List (κ × ν)
  ascending : entries.Pairwise fun a b => a.1 < b.1

namespace OrdMap

variable {κ ν : Type*} [LinearOrder κ]

theorem entries_injective : Function.Injective (entries : OrdMap κ ν → List (κ × ν)) := by
  rintro ⟨a,_⟩ ⟨b,_⟩ rfl
  rfl

instance [DecidableEq ν] : DecidableEq (OrdMap κ ν) := fun a b =>
  decidable_of_iff (a.entries = b.entries) entries_injective.eq_iff

instance : EmptyCollection (OrdMap κ ν) := ⟨⟨[],.nil⟩⟩
instance : Inhabited (OrdMap κ ν) := ⟨∅⟩

def lookupEntries (k : κ) : List (κ × ν) → Option ν
  | [] => none
  | e::rest => if k = e.1 then some e.2 else lookupEntries k rest

def insertEntries (k : κ) (v : ν) : List (κ × ν) → List (κ × ν)
  | [] => [(k,v)]
  | e::rest =>
    if k < e.1 then (k,v)::e::rest
    else if k = e.1 then (k,v)::rest
    else e::insertEntries k v rest

def eraseEntries (k : κ) (l : List (κ × ν)) : List (κ × ν) := l.filter fun e => e.1 ≠ k

lemma lookupEntries_eq_some {k : κ} {v : ν} {l : List (κ × ν)}
    (hl : l.Pairwise fun a b => a.1 < b.1) : lookupEntries k l = some v ↔ (k,v) ∈ l := by
  induction l with
  | nil => simp [lookupEntries]
  | cons e rest ih =>
    obtain ⟨hhead,htail⟩ := List.pairwise_cons.mp hl
    by_cases hk : k = e.1
    · subst hk
      have hnot : (e.1,v) ∉ rest := fun hm => lt_irrefl _ (hhead (e.1,v) hm)
      simp [lookupEntries,hnot,Prod.ext_iff,eq_comm]
    · simp [lookupEntries,hk,ih htail,Prod.ext_iff]

lemma mem_insertEntries {k : κ} {v : ν} {l : List (κ × ν)} {e : κ × ν}
    (he : e ∈ insertEntries k v l) : e = (k,v) ∨ e ∈ l := by
  induction l with
  | nil => simpa [insertEntries] using he
  | cons a rest ih =>
    simp only [insertEntries] at he
    split_ifs at he
    · simpa using he
    · rcases List.mem_cons.mp he with h | h
      · exact Or.inl h
      · exact Or.inr (List.mem_cons_of_mem _ h)
    · rcases List.mem_cons.mp he with h | h
      · exact Or.inr (by simp [h])
      · exact (ih h).imp_right (List.mem_cons_of_mem _)

lemma pairwise_insertEntries (k : κ) (v : ν) {l : List (κ × ν)}
    (hl : l.Pairwise fun a b => a.1 < b.1) :
    (insertEntries k v l).Pairwise fun a b => a.1 < b.1 := by
  induction l with
  | nil => simp [insertEntries]
  | cons a rest ih =>
    obtain ⟨hhead,htail⟩ := List.pairwise_cons.mp hl
    simp only [insertEntries]
    split_ifs with hlt heq
    · refine List.pairwise_cons.mpr ⟨?_,hl⟩
      intro e he
      rcases List.mem_cons.mp he with rfl | he
      · exact hlt
      · exact hlt.trans (hhead e he)
    · exact List.pairwise_cons.mpr ⟨fun e he => heq ▸ hhead e he,htail⟩
    · refine List.pairwise_cons.mpr ⟨?_,ih htail⟩
      intro e he
      rcases mem_insertEntries he with rfl | he
      · exact lt_of_le_of_ne (not_lt.mp hlt) (Ne.symm heq)
      · exact hhead e he

lemma lookupEntries_insertEntries (k k' : κ) (v : ν) {l : List (κ × ν)}
    (hl : l.Pairwise fun a b => a.1 < b.1) :
    lookupEntries k' (insertEntries k v l) = if k' = k then some v else lookupEntries k' l := by
  induction l with
  | nil => simp [insertEntries,lookupEntries]
  | cons a rest ih =>
    simp only [insertEntries]
    split_ifs with hlt heq hk hk <;> simp_all [lookupEntries]

lemma lookupEntries_eraseEntries (k k' : κ) (l : List (κ × ν)) :
    lookupEntries k' (eraseEntries k l) = if k' = k then none else lookupEntries k' l := by
  induction l with
  | nil => simp [eraseEntries,lookupEntries]
  | cons a rest ih =>
    simp only [eraseEntries] at ih
    by_cases ha : a.1 = k
    · simp only [eraseEntries,List.filter_cons,ha,ne_eq,not_true,decide_false,Bool.false_eq_true,
        if_false,ih,lookupEntries]
      split_ifs <;> rfl
    · simp only [eraseEntries,List.filter_cons,ne_eq,ha,not_false_eq_true,decide_true,if_true,
        lookupEntries,ih]
      split_ifs with h1 h2
      · exact absurd (h1 ▸ h2) ha
      · rfl
      · rfl
      · rfl

def find? (m : OrdMap κ ν) (k : κ) : Option ν := lookupEntries k m.entries
def insert (m : OrdMap κ ν) (k : κ) (v : ν) : OrdMap κ ν :=
  ⟨insertEntries k v m.entries,pairwise_insertEntries k v m.ascending⟩
def erase (m : OrdMap κ ν) (k : κ) : OrdMap κ ν :=
  ⟨eraseEntries k m.entries,m.ascending.filter _⟩
def contains (m : OrdMap κ ν) (k : κ) : Bool := (m.find? k).isSome
def keys (m : OrdMap κ ν) : List κ := m.entries.map Prod.fst
def values (m : OrdMap κ ν) : List ν := m.entries.map Prod.snd
def size (m : OrdMap κ ν) : ℕ := m.entries.length

/-- Keep the entry that is already there, as an emplacing insertion does. -/
def emplace (m : OrdMap κ ν) (k : κ) (v : ν) : OrdMap κ ν :=
  if m.contains k then m else m.insert k v

@[simp] theorem find?_empty (k : κ) : (∅ : OrdMap κ ν).find? k = none := rfl
@[simp] theorem entries_empty : (∅ : OrdMap κ ν).entries = [] := rfl

@[simp] theorem find?_insert (m : OrdMap κ ν) (k k' : κ) (v : ν) :
    (m.insert k v).find? k' = if k' = k then some v else m.find? k' :=
  lookupEntries_insertEntries k k' v m.ascending

@[simp] theorem find?_erase (m : OrdMap κ ν) (k k' : κ) :
    (m.erase k).find? k' = if k' = k then none else m.find? k' :=
  lookupEntries_eraseEntries k k' m.entries

theorem find?_eq_some {m : OrdMap κ ν} {k : κ} {v : ν} :
    m.find? k = some v ↔ (k,v) ∈ m.entries := lookupEntries_eq_some m.ascending

theorem find?_eq_none {m : OrdMap κ ν} {k : κ} : m.find? k = none ↔ k ∉ m.keys := by
  rw [Option.eq_none_iff_forall_not_mem]
  simp [find?_eq_some,keys]

@[simp] theorem contains_eq_true {m : OrdMap κ ν} {k : κ} :
    m.contains k = true ↔ ∃ v, m.find? k = some v := Option.isSome_iff_exists

@[simp] theorem contains_eq_false {m : OrdMap κ ν} {k : κ} :
    m.contains k = false ↔ m.find? k = none := by simp [contains]

theorem mem_keys {m : OrdMap κ ν} {k : κ} : k ∈ m.keys ↔ ∃ v, m.find? k = some v := by
  simp [find?_eq_some,keys]

theorem keys_ascending (m : OrdMap κ ν) : m.keys.Pairwise (· < ·) :=
  List.pairwise_map.mpr m.ascending

theorem keys_nodup (m : OrdMap κ ν) : m.keys.Nodup :=
  m.keys_ascending.imp fun h => ne_of_lt h

theorem mem_values {m : OrdMap κ ν} {v : ν} : v ∈ m.values ↔ ∃ k, m.find? k = some v := by
  simp [find?_eq_some,values]

lemma insertEntries_length (k : κ) (v : ν) {l : List (κ × ν)}
    (hl : l.Pairwise fun a b => a.1 < b.1) (h : lookupEntries k l = none) :
    (insertEntries k v l).length = l.length + 1 := by
  induction l with
  | nil => rfl
  | cons e rest ih =>
    by_cases hk : k = e.1
    · simp [lookupEntries,hk] at h
    · have hrest := ih (List.pairwise_cons.mp hl).2 (by simpa [lookupEntries,hk] using h)
      simp only [insertEntries,if_neg hk]
      split_ifs
      · rfl
      · rw [List.length_cons,hrest,List.length_cons]

theorem size_insert {m : OrdMap κ ν} {k : κ} (v : ν) (h : m.find? k = none) :
    (m.insert k v).size = m.size + 1 := insertEntries_length k v m.ascending h

theorem size_insert_le (m : OrdMap κ ν) (k : κ) (v : ν) : (m.insert k v).size ≤ m.size + 1 := by
  have h : ∀ l : List (κ × ν), (insertEntries k v l).length ≤ l.length + 1 := by
    intro l
    induction l with
    | nil => exact le_rfl
    | cons e rest ih =>
      unfold insertEntries
      split_ifs
      · exact le_rfl
      · simp
      · simpa using ih
  exact h m.entries

lemma head_le_of_mem {e : κ × ν} {l : List (κ × ν)} {a : κ × ν}
    (hl : (e::l).Pairwise fun a b => a.1 < b.1) (ha : a ∈ e::l) : e.1 ≤ a.1 := by
  rcases List.mem_cons.mp ha with rfl | h
  · exact le_rfl
  · exact ((List.pairwise_cons.mp hl).1 a h).le

lemma entries_eq_of_mem_iff {l l' : List (κ × ν)} (hl : l.Pairwise fun a b => a.1 < b.1)
    (hl' : l'.Pairwise fun a b => a.1 < b.1) (h : ∀ e, e ∈ l ↔ e ∈ l') : l = l' := by
  induction l generalizing l' with
  | nil =>
    cases l' with
    | nil => rfl
    | cons e' r' => exact absurd ((h e').mpr (by simp)) (by simp)
  | cons e r ih =>
    cases l' with
    | nil => exact absurd ((h e).mp (by simp)) (by simp)
    | cons e' r' =>
      have hm : e ∈ e'::r' := (h e).mp (by simp)
      have hm' : e' ∈ e::r := (h e').mpr (by simp)
      have hfst : e.1 = e'.1 := le_antisymm (head_le_of_mem hl hm') (head_le_of_mem hl' hm)
      have he : e = e' := by
        rcases List.mem_cons.mp hm with h1 | h1
        · exact h1
        · exact absurd ((List.pairwise_cons.mp hl').1 e h1) (by simp [hfst])
      subst he
      congr 1
      apply ih (List.pairwise_cons.mp hl).2 (List.pairwise_cons.mp hl').2
      intro a
      have hne : a ∈ r → a ≠ e := fun ha hae =>
        lt_irrefl e.1 (hae ▸ (List.pairwise_cons.mp hl).1 a ha)
      have hne' : a ∈ r' → a ≠ e := fun ha hae =>
        lt_irrefl e.1 (hae ▸ (List.pairwise_cons.mp hl').1 a ha)
      constructor
      · intro ha
        exact ((List.mem_cons.mp ((h a).mp (List.mem_cons_of_mem _ ha))).resolve_left (hne ha))
      · intro ha
        exact ((List.mem_cons.mp ((h a).mpr (List.mem_cons_of_mem _ ha))).resolve_left (hne' ha))

/-- Maps are determined by their lookups. -/
@[ext] theorem ext_find? {m m' : OrdMap κ ν} (h : ∀ k, m.find? k = m'.find? k) : m = m' := by
  apply entries_injective
  apply entries_eq_of_mem_iff m.ascending m'.ascending
  rintro ⟨k,v⟩
  rw [← find?_eq_some,← find?_eq_some,h]

/-- The entry that an insertion makes stands among those of the other keys. -/
theorem entries_insert_perm (m : OrdMap κ ν) (k : κ) (v : ν) :
    (m.insert k v).entries.Perm ((k,v)::(m.erase k).entries) := by
  have hnodup : ∀ m : OrdMap κ ν, m.entries.Nodup := fun m =>
    m.ascending.imp fun hlt => ne_of_apply_ne Prod.fst (ne_of_lt hlt)
  have hnone : (k,v) ∉ (m.erase k).entries := by
    rw [← find?_eq_some,find?_erase,if_pos rfl]
    exact Option.some_ne_none v ∘ Eq.symm
  refine (List.perm_ext_iff_of_nodup (hnodup _) (List.nodup_cons.mpr ⟨hnone,hnodup _⟩)).mpr ?_
  rintro ⟨k',v'⟩
  rw [List.mem_cons,← find?_eq_some,← find?_eq_some,find?_insert,find?_erase]
  by_cases hk : k' = k
  · simp [hk,eq_comm]
  · simp [hk]

theorem erase_of_find?_eq_none {m : OrdMap κ ν} {k : κ} (h : m.find? k = none) :
    m.erase k = m := by
  ext k' : 1
  rw [find?_erase]
  split_ifs with hk
  · rw [hk,h]
  · rfl

@[simp] theorem find?_emplace (m : OrdMap κ ν) (k k' : κ) (v : ν) :
    (m.emplace k v).find? k' =
      if k' = k then some ((m.find? k).getD v) else m.find? k' := by
  unfold emplace
  cases hk : m.find? k with
  | none => simp [contains,hk]
  | some w =>
    simp only [contains,hk,Option.isSome_some,if_true,Option.getD_some]
    split_ifs with h
    · rw [h,hk]
    · rfl

lemma insertEntries_last {k : κ} (v : ν) {l : List (κ × ν)} (h : ∀ e ∈ l, e.1 < k) :
    insertEntries k v l = l ++ [(k,v)] := by
  induction l with
  | nil => rfl
  | cons e rest ih =>
    have he := h e List.mem_cons_self
    rw [insertEntries,if_neg he.asymm,if_neg he.ne',
      ih fun e hmem => h e (List.mem_cons_of_mem _ hmem),List.cons_append]

/-- What comes behind all keys is put at the end. -/
lemma entries_emplace_last {m : OrdMap κ ν} {k : κ} (v : ν) (h : ∀ e ∈ m.entries, e.1 < k) :
    (m.emplace k v).entries = m.entries ++ [(k,v)] := by
  have hnew : m.contains k = false := by
    rw [contains_eq_false,find?_eq_none]
    intro hmem
    obtain ⟨e,he,rfl⟩ := List.mem_map.mp hmem
    exact lt_irrefl _ (h e he)
  rw [emplace,hnew]
  exact insertEntries_last v h

/-- Records emplaced in the order of their keys, behind all that is there. -/
theorem entries_foldl_emplace {α : Type*} (key : α → κ) (value : α → ν) {l : List α}
    (hl : l.Pairwise fun a b => key a < key b) {m : OrdMap κ ν}
    (h : ∀ e ∈ m.entries, ∀ a ∈ l, e.1 < key a) :
    (l.foldl (fun m a => m.emplace (key a) (value a)) m).entries =
      m.entries ++ l.map fun a => (key a,value a) := by
  induction l generalizing m with
  | nil => simp
  | cons a l ih =>
    obtain ⟨hhead,htail⟩ := List.pairwise_cons.mp hl
    have hlast := entries_emplace_last (m := m) (value a) fun e he => h e he a List.mem_cons_self
    have hbelow : ∀ e ∈ (m.emplace (key a) (value a)).entries, ∀ b ∈ l, e.1 < key b := by
      intro e he b hb
      rw [hlast] at he
      obtain he | he := List.mem_append.mp he
      · exact h e he b (List.mem_cons_of_mem _ hb)
      · rw [List.mem_singleton.mp he]
        exact hhead b hb
    rw [List.foldl_cons,ih htail hbelow,hlast,List.map_cons,List.append_assoc]
    rfl

/-- Records with different keys, inserted in any order, are found under their keys. -/
theorem find?_foldl_insert {α : Type*} (key : α → κ) (value : α → ν) {l : List α}
    (hl : (l.map key).Nodup) {m : OrdMap κ ν} {k : κ} {v : ν} :
    (l.foldl (fun m a => m.insert (key a) (value a)) m).find? k = some v ↔
      (∃ a ∈ l, key a = k ∧ value a = v) ∨ m.find? k = some v ∧ ∀ a ∈ l, key a ≠ k := by
  induction l generalizing m with
  | nil => simp
  | cons a l ih =>
    obtain ⟨hnot,hl⟩ := List.nodup_cons.mp hl
    rw [List.foldl_cons,ih hl,find?_insert]
    by_cases hk : k = key a
    · have hothers : ∀ b ∈ l, key b ≠ k := by
        rintro b hb rfl
        exact hnot (hk ▸ List.mem_map_of_mem hb)
      have hnone : ¬∃ b ∈ l, key b = k ∧ value b = v := fun ⟨b,hb,hkey,_⟩ => hothers b hb hkey
      rw [if_pos hk]
      constructor
      · rintro (h | ⟨h,-⟩)
        · exact absurd h hnone
        · exact Or.inl ⟨a,List.mem_cons_self,hk.symm,Option.some.inj h⟩
      · rintro (⟨b,hb,hkey,hvalue⟩ | ⟨-,h⟩)
        · obtain rfl | hb := List.mem_cons.mp hb
          · exact Or.inr ⟨congrArg some hvalue,hothers⟩
          · exact absurd ⟨b,hb,hkey,hvalue⟩ hnone
        · exact absurd hk.symm (h a List.mem_cons_self)
    · rw [if_neg hk]
      simp only [List.mem_cons,exists_eq_or_imp,forall_eq_or_imp]
      constructor
      · rintro (h | ⟨h,hothers⟩)
        · exact Or.inl (Or.inr h)
        · exact Or.inr ⟨h,Ne.symm hk,hothers⟩
      · rintro ((⟨hkey,-⟩ | h) | ⟨h,-,hothers⟩)
        · exact absurd hkey.symm hk
        · exact Or.inl h
        · exact Or.inr ⟨h,hothers⟩

/-- Records with different keys can be emplaced or inserted. -/
lemma foldl_emplace_eq {l : List (κ × ν)} (hl : (l.map Prod.fst).Nodup) {m : OrdMap κ ν}
    (h : ∀ e ∈ l, m.find? e.1 = none) :
    l.foldl (fun m e => m.emplace e.1 e.2) m = l.foldl (fun m e => m.insert e.1 e.2) m := by
  induction l generalizing m with
  | nil => rfl
  | cons e l ih =>
    obtain ⟨hnot,hl⟩ := List.nodup_cons.mp hl
    have hnew : m.emplace e.1 e.2 = m.insert e.1 e.2 := by
      rw [emplace,contains_eq_false.mpr (h e List.mem_cons_self)]
      rfl
    rw [List.foldl_cons,List.foldl_cons,hnew]
    apply ih hl
    intro a ha
    rw [find?_insert,if_neg,h a (List.mem_cons_of_mem _ ha)]
    intro hkey
    exact hnot (hkey ▸ List.mem_map_of_mem ha)

/-- The entries of a map in any order make the map. -/
theorem foldl_insert_entries {m : OrdMap κ ν} {l : List (κ × ν)} (h : l.Perm m.entries) :
    l.foldl (fun m e => m.insert e.1 e.2) ∅ = m := by
  have hkeys : (l.map Prod.fst).Nodup := (h.map Prod.fst).nodup_iff.mpr m.keys_nodup
  ext k v
  rw [find?_foldl_insert Prod.fst Prod.snd hkeys,find?_eq_some (m := m)]
  simp only [find?_empty,reduceCtorEq,false_and,or_false]
  constructor
  · rintro ⟨e,he,rfl,rfl⟩
    exact h.mem_iff.mp he
  · intro hmem
    exact ⟨(k,v),h.mem_iff.mpr hmem,rfl,rfl⟩

/-- Each key of the list has its entry replaced once. -/
theorem find?_foldl_update {α : Type*} (key : α → κ) (update : α → Option ν → ν) {l : List α}
    (hl : (l.map key).Nodup) (m : OrdMap κ ν) (k : κ) :
    (l.foldl (fun m a => m.insert (key a) (update a (m.find? (key a)))) m).find? k =
      match l.find? fun a => key a = k with
      | some a => some (update a (m.find? k))
      | none => m.find? k := by
  induction l generalizing m with
  | nil => rfl
  | cons a l ih =>
    obtain ⟨hnot,hl⟩ := List.nodup_cons.mp hl
    rw [List.foldl_cons,ih hl,find?_insert]
    by_cases hk : key a = k
    · have hnone : l.find? (fun b => key b = k) = none := by
        rw [List.find?_eq_none]
        intro b hb hkb
        rw [decide_eq_true_eq] at hkb
        exact hnot (hk ▸ hkb ▸ List.mem_map_of_mem hb)
      rw [hnone,List.find?_cons_of_pos (by simpa using hk),← hk]
      simp
    · rw [if_neg (Ne.symm hk),List.find?_cons_of_neg (by simpa using hk)]

/-- The sum over the values. -/
def total (f : ν → ℕ) (m : OrdMap κ ν) : ℕ := (m.values.map f).sum

lemma sum_insertEntries (f : ν → ℕ) (k : κ) (v : ν) {l : List (κ × ν)}
    (hl : l.Pairwise fun a b => a.1 < b.1) :
    ((insertEntries k v l).map fun e => f e.2).sum + (lookupEntries k l).elim 0 f =
      (l.map fun e => f e.2).sum + f v := by
  induction l with
  | nil => simp [insertEntries,lookupEntries]
  | cons e rest ih =>
    obtain ⟨hhead,htail⟩ := List.pairwise_cons.mp hl
    unfold insertEntries
    split_ifs with hlt heq
    · have hnone : lookupEntries k (e::rest) = none := by
        apply Option.eq_none_iff_forall_not_mem.mpr
        intro w hw
        obtain hw | hw := List.mem_cons.mp ((lookupEntries_eq_some hl).mp hw)
        · exact hlt.ne (congrArg Prod.fst hw)
        · exact lt_asymm hlt (hhead _ hw)
      simp only [hnone,Option.elim_none,List.map_cons,List.sum_cons]
      omega
    · simp only [lookupEntries,if_pos heq,Option.elim_some,List.map_cons,List.sum_cons]
      omega
    · have hrest := ih htail
      simp only [lookupEntries,if_neg heq,List.map_cons,List.sum_cons]
      omega

theorem total_insert (f : ν → ℕ) (m : OrdMap κ ν) (k : κ) (v : ν) :
    (m.insert k v).total f + (m.find? k).elim 0 f = m.total f + f v := by
  have h := sum_insertEntries f k v m.ascending
  simp only [total,values,List.map_map]
  exact h

theorem total_erase (f : ν → ℕ) (m : OrdMap κ ν) (k : κ) :
    (m.erase k).total f + (m.find? k).elim 0 f = m.total f := by
  cases hk : m.find? k with
  | none => rw [erase_of_find?_eq_none hk,Option.elim_none,Nat.add_zero]
  | some v =>
    have hm : (m.erase k).insert k v = m := by
      ext k' : 1
      rw [find?_insert,find?_erase]
      split_ifs with hk'
      · rw [hk',hk]
      · rfl
    have h := total_insert f (m.erase k) k v
    rw [hm,find?_erase,if_pos rfl] at h
    exact h.symm

end OrdMap
end RagRuntime.Base
