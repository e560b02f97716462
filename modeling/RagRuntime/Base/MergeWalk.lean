import Mathlib.Data.List.Sort

/-! Sorted lists: `std::unique`, and two of them walked with one cursor each. -/
namespace RagRuntime.Base

section unique
variable {α : Type*}

/-- `std::unique`: of equal elements next to each other one stays. -/
def unique [DecidableEq α] : List α → List α
  | [] => []
  | [a] => [a]
  | a::b::l => if a = b then unique (b::l) else a::unique (b::l)

@[simp] lemma mem_unique [DecidableEq α] {l : List α} {a : α} : a ∈ unique l ↔ a ∈ l := by
  induction l using unique.induct with
  | case1 => rfl
  | case2 b => rfl
  | case3 b l ih =>
    rw [unique,if_pos rfl,ih]
    simp
  | case4 b c l hne ih =>
    rw [unique,if_neg hne,List.mem_cons,ih]
    simp

/-- What is sorted is left without repetitions. -/
lemma pairwise_unique [LinearOrder α] [DecidableEq α] {l : List α} (h : l.Pairwise (· ≤ ·)) :
    (unique l).Pairwise (· < ·) := by
  induction l using unique.induct with
  | case1 => exact List.Pairwise.nil
  | case2 b => exact List.pairwise_singleton _ _
  | case3 b l ih =>
    rw [unique,if_pos rfl]
    exact ih (List.pairwise_cons.mp h).2
  | case4 b c l hne ih =>
    obtain ⟨hhead,htail⟩ := List.pairwise_cons.mp h
    rw [unique,if_neg hne]
    refine List.pairwise_cons.mpr ⟨?_,ih htail⟩
    intro d hd
    have hlt : b < c := lt_of_le_of_ne (hhead c List.mem_cons_self) hne
    rcases List.mem_cons.mp (mem_unique.mp hd) with rfl | hd
    · exact hlt
    · exact hlt.trans_le ((List.pairwise_cons.mp htail).1 d hd)

end unique

section walk
variable {α β κ σ : Type*} [LinearOrder κ]

/-- Walk two lists at once; `hit` is called where the keys meet, and both cursors move on. -/
def mergeWalk (key : α → κ) (key' : β → κ) (hit : σ → β → σ) : List α → List β → σ → σ
  | a::as,b::bs,s =>
    if key a < key' b then mergeWalk key key' hit as (b::bs) s
    else if key' b < key a then mergeWalk key key' hit (a::as) bs s
    else mergeWalk key key' hit as bs (hit s b)
  | _,_,s => s
termination_by as bs => as.length + bs.length

/-- In ascending order the walk comes upon the members of the second list that have a partner in the
first. -/
theorem mergeWalk_eq {key : α → κ} {key' : β → κ} (hit : σ → β → σ) {as : List α} {bs : List β}
    (has : as.Pairwise fun a a' => key a < key a') (hbs : bs.Pairwise fun b b' => key' b < key' b')
    (s : σ) : mergeWalk key key' hit as bs s =
      (bs.filter fun b => key' b ∈ as.map key).foldl hit s := by
  fun_induction mergeWalk key key' hit as bs s with
  | case1 a as b bs s hlt ih =>
    -- the first key is below all that are left
    obtain ⟨-,htail⟩ := List.pairwise_cons.mp has
    rw [ih htail hbs]
    congr 1
    apply List.filter_congr
    intro b' hb'
    have hbelow : key a < key' b' := by
      rcases List.mem_cons.mp hb' with rfl | hb'
      · exact hlt
      · exact hlt.trans ((List.pairwise_cons.mp hbs).1 b' hb')
    simp [hbelow.ne']
  | case2 a as b bs s hnot hlt ih =>
    obtain ⟨-,htail⟩ := List.pairwise_cons.mp hbs
    have hmissing : key' b ∉ (a::as).map key := by
      intro hmem
      obtain ⟨a',ha',hkey⟩ := List.mem_map.mp hmem
      rcases List.mem_cons.mp ha' with rfl | ha'
      · exact hlt.ne hkey.symm
      · exact absurd hkey (hlt.trans ((List.pairwise_cons.mp has).1 a' ha')).ne'
    rw [ih has htail,List.filter_cons_of_neg (by simpa using hmissing)]
  | case3 a as b bs s hnot hnot' ih =>
    have hsame : key a = key' b := le_antisymm (not_lt.mp hnot') (not_lt.mp hnot)
    obtain ⟨-,hatail⟩ := List.pairwise_cons.mp has
    obtain ⟨hbhead,hbtail⟩ := List.pairwise_cons.mp hbs
    rw [ih hatail hbtail,List.filter_cons_of_pos (by simp [hsame]),List.foldl_cons]
    congr 1
    apply List.filter_congr
    intro b' hb'
    have habove : key' b' ≠ key a := hsame ▸ (hbhead b' hb').ne'
    simp [habove]
  | case4 as bs s hdone =>
    cases as with
    | nil => simp
    | cons a as =>
      cases bs with
      | nil => rfl
      | cons b bs => exact absurd rfl (hdone a as b bs rfl)

end walk
end RagRuntime.Base
