import Mathlib.Data.List.GetD
import Mathlib.Data.List.Nodup
import Mathlib.Data.List.TakeWhile

/-!
The id arrays of the protection database (`coda-src/al/pdbarray.c`): sorted arrays without
repetitions. On sorted arrays the operations are those of finite sets, and they keep the order.
-/

namespace Coda.Al

open List

/-- `pdb_array`: the `size` entries of `data`. -/
abbrev PdbArray := List Int

/-- Strictly increasing. -/
def PdbArray.Sorted (l : PdbArray) : Prop := l.Pairwise (· < ·)

/-! ### The operations -/

/-- The loop of `pdb_array_search`, for at most as many rounds as there are entries. -/
def searchLoop (l : PdbArray) (x : Int) : Nat → Int → Int → Option Nat
  | 0, _, _ => none
  | k + 1, b, t =>
    let m := (b + t).tdiv 2
    if l.getD m.toNat 0 = x then some m.toNat
    else if b ≥ t then none
    else if l.getD m.toNat 0 > x then searchLoop l x k b (m - 1)
    else searchLoop l x k (m + 1) t

/-- `pdb_array_search`; `none` is the result -1. -/
def pdbArraySearch (l : PdbArray) (x : Int) : Option Nat :=
  if l.length = 0 then none else searchLoop l x l.length 0 (l.length - 1)

/-- `pdb_array_add`. -/
def pdbArrayAdd : PdbArray → Int → PdbArray
  | [], x => [x]
  | a :: l, x => if a ≥ x then (if a = x then a :: l else x :: a :: l) else a :: pdbArrayAdd l x

/-- `pdb_array_del`. -/
def pdbArrayDel (l : PdbArray) (x : Int) : PdbArray :=
  match pdbArraySearch l x with
  | none => l
  | some i => l.eraseIdx i

/-- `pdb_array_merge` of `s` into `d`. -/
def pdbArrayMerge : PdbArray → PdbArray → PdbArray
  | d, [] => d
  | [], s => s
  | x :: d, y :: s =>
    if y < x then y :: pdbArrayMerge (x :: d) s
    else if y = x then x :: pdbArrayMerge d s
    else x :: pdbArrayMerge d (y :: s)
termination_by d s => d.length + s.length

/-- The ids that `pdb_array_head` and `pdb_array_next` step through; 0 is their end mark. -/
def pdbArrayIds (l : PdbArray) : List Int := l.takeWhile (· ≠ 0)

theorem pdbArrayIds_eq {l : PdbArray} (h : 0 ∉ l) : pdbArrayIds l = l := by
  refine takeWhile_eq_self_iff.mpr fun x hx => ?_
  rw [decide_eq_true_iff]
  rintro rfl
  exact h hx

/-! ### Search and deletion -/

section Search

variable {l : PdbArray} {x : Int}

theorem PdbArray.Sorted.getElem_lt (h : l.Sorted) {i j : Nat} (hj : j < l.length) (hij : i < j) :
    l.getD i 0 < l.getD j 0 := by
  rw [getD_eq_getElem _ _ (lt_trans hij hj), getD_eq_getElem _ _ hj]
  exact pairwise_iff_getElem.mp h i j (lt_trans hij hj) hj hij

theorem PdbArray.Sorted.nodup (h : l.Sorted) : l.Nodup := h.imp fun hlt => Int.ne_of_lt hlt

/-- The place in the middle is inside the array, also when the bounds have crossed. -/
theorem mid_bounds {n : Nat} (hn : 0 < n) {b t m : Int} (hb : 0 ≤ b) (ht : t < n) (hbt : b ≤ t + 1)
    (hm : (b + t).tdiv 2 = m) : 0 ≤ m ∧ m < n ∧ (b < t → b ≤ m ∧ m ≤ t) := by
  rcases Int.le_total 0 (b + t) with h | h
  · rw [Int.tdiv_eq_ediv_of_nonneg h] at hm
    omega
  · have hbt : b + t = 0 ∨ b + t = -1 := by omega
    rcases hbt with h' | h'
    · rw [h'] at hm
      simp at hm
      omega
    · rw [h'] at hm
      simp at hm
      omega

variable (sorted : l.Sorted)
include sorted

/-- Every occurrence of `x` stays between `b` and `t`. -/
theorem searchLoop_spec (hlen : 0 < l.length) (k : Nat) (b t : Int) (hb : 0 ≤ b)
    (ht : t < l.length) (hbt : b ≤ t + 1) (hk : t - b < k)
    (inv : ∀ i : Nat, i < l.length → l.getD i 0 = x → b ≤ i ∧ i ≤ t) :
    (∀ i, searchLoop l x k b t = some i → i < l.length ∧ l.getD i 0 = x) ∧
      (searchLoop l x k b t = none → x ∉ l) := by
  induction k generalizing b t with
  | zero =>
    refine ⟨fun i h => (by cases h), fun _ hx => ?_⟩
    obtain ⟨i, hi, rfl⟩ := getElem_of_mem hx
    have := inv i hi (getD_eq_getElem _ _ hi)
    omega
  | succ k ih =>
    rw [searchLoop]
    generalize hm : (b + t).tdiv 2 = m
    obtain ⟨hm₀, hm₁, hm₂⟩ := mid_bounds hlen hb ht hbt hm
    have hlt : m.toNat < l.length := by omega
    by_cases hfound : l.getD m.toNat 0 = x
    · rw [if_pos hfound]
      refine ⟨fun i h => ?_, fun h => (by cases h)⟩
      obtain rfl := Option.some.inj h
      exact ⟨hlt, hfound⟩
    rw [if_neg hfound]
    by_cases hdone : b ≥ t
    · rw [if_pos hdone]
      refine ⟨fun i h => (by cases h), fun _ hx => ?_⟩
      -- the last candidate was the one just compared
      obtain ⟨i, hi, hix⟩ := getElem_of_mem hx
      have hxi : l.getD i 0 = x := (getD_eq_getElem _ _ hi).trans hix
      have hrange := inv i hi hxi
      have hit : (i : Int) = b ∧ b = t := by omega
      have : i = m.toNat := by
        rw [← hit.2, ← hit.1, show (i : Int) + i = i * 2 by omega,
          Int.mul_tdiv_cancel _ (by omega)] at hm
        omega
      exact hfound (this ▸ hxi)
    rw [if_neg hdone]
    by_cases hgt : l.getD m.toNat 0 > x
    · rw [if_pos hgt]
      refine ih b (m - 1) hb (by omega) (by omega) (by omega) fun i hi hxi => ?_
      refine ⟨(inv i hi hxi).1, ?_⟩
      by_contra hle
      rcases Nat.lt_or_eq_of_le (show m.toNat ≤ i by omega) with h | h
      · have := sorted.getElem_lt hi h
        omega
      · exact hfound (h ▸ hxi)
    · rw [if_neg hgt]
      refine ih (m + 1) t (by omega) ht (by omega) (by omega) fun i hi hxi => ?_
      refine ⟨?_, (inv i hi hxi).2⟩
      by_contra hle
      rcases Nat.lt_or_eq_of_le (show i ≤ m.toNat by omega) with h | h
      · have := sorted.getElem_lt hlt h
        omega
      · exact hfound (h ▸ hxi)

theorem pdbArraySearch_spec (x : Int) :
    (∀ i, pdbArraySearch l x = some i → i < l.length ∧ l.getD i 0 = x) ∧
      (pdbArraySearch l x = none → x ∉ l) := by
  unfold pdbArraySearch
  by_cases hlen : l.length = 0
  · rw [if_pos hlen]
    refine ⟨fun i h => (by cases h), fun _ hx => ?_⟩
    exact ne_of_gt (length_pos_of_mem hx) hlen
  · rw [if_neg hlen]
    exact searchLoop_spec sorted (by omega) _ _ _ (by omega) (by omega) (by omega) (by omega)
      fun i hi _ => by omega

theorem pdbArraySearch_eq_none_iff (x : Int) : pdbArraySearch l x = none ↔ x ∉ l := by
  refine ⟨(pdbArraySearch_spec sorted x).2, fun hx => ?_⟩
  cases h : pdbArraySearch l x with
  | none => rfl
  | some i =>
    obtain ⟨hi, hxi⟩ := (pdbArraySearch_spec sorted x).1 i h
    rw [getD_eq_getElem _ _ hi] at hxi
    exact absurd (hxi ▸ getElem_mem hi) hx

theorem mem_pdbArrayDel (x y : Int) : y ∈ pdbArrayDel l x ↔ y ∈ l ∧ y ≠ x := by
  unfold pdbArrayDel
  cases h : pdbArraySearch l x with
  | none =>
    have hx := (pdbArraySearch_spec sorted x).2 h
    refine ⟨fun hy => ⟨hy, ?_⟩, fun hy => hy.1⟩
    rintro rfl
    exact hx hy
  | some i =>
    obtain ⟨hi, hxi⟩ := (pdbArraySearch_spec sorted x).1 i h
    rw [getD_eq_getElem _ _ hi] at hxi
    rw [mem_eraseIdx_iff_getElem]
    constructor
    · rintro ⟨j, hj, hne, rfl⟩
      refine ⟨getElem_mem hj, fun heq => hne ?_⟩
      exact (sorted.nodup.getElem_inj_iff).mp (heq.trans hxi.symm)
    · rintro ⟨hy, hne⟩
      obtain ⟨j, hj, rfl⟩ := getElem_of_mem hy
      refine ⟨j, hj, ?_, rfl⟩
      rintro rfl
      exact hne hxi

theorem sorted_pdbArrayDel (x : Int) : (pdbArrayDel l x).Sorted := by
  unfold pdbArrayDel
  cases pdbArraySearch l x with
  | none => exact sorted
  | some i => exact sorted.sublist (eraseIdx_sublist l i)

end Search

/-! ### Addition and merging -/

theorem mem_pdbArrayAdd (l : PdbArray) (x y : Int) : y ∈ pdbArrayAdd l x ↔ y = x ∨ y ∈ l := by
  induction l with
  | nil => simp [pdbArrayAdd]
  | cons a l ih =>
    rw [pdbArrayAdd]
    split_ifs with hge heq
    · subst heq
      simp
    · rw [mem_cons]
    · rw [mem_cons, ih, mem_cons, or_left_comm]

theorem sorted_pdbArrayAdd {l : PdbArray} (sorted : l.Sorted) (x : Int) :
    (pdbArrayAdd l x).Sorted := by
  induction l with
  | nil => exact pairwise_singleton _ _
  | cons a l ih =>
    obtain ⟨hhead, htail⟩ := pairwise_cons.mp sorted
    rw [pdbArrayAdd]
    split_ifs with hge heq
    · exact sorted
    · refine pairwise_cons.mpr ⟨fun y hy => ?_, sorted⟩
      rcases mem_cons.mp hy with rfl | hy
      · omega
      · have := hhead y hy
        omega
    · refine pairwise_cons.mpr ⟨fun y hy => ?_, ih htail⟩
      rcases (mem_pdbArrayAdd l x y).mp hy with rfl | hy
      · omega
      · exact hhead y hy

theorem mem_pdbArrayMerge (d s : PdbArray) (y : Int) :
    y ∈ pdbArrayMerge d s ↔ y ∈ d ∨ y ∈ s := by
  induction d, s using pdbArrayMerge.induct with
  | case1 d => simp [pdbArrayMerge]
  | case2 s hs =>
    cases s with
    | nil => exact (hs rfl).elim
    | cons a s => simp [pdbArrayMerge]
  | case3 x d a s hlt ih =>
    rw [pdbArrayMerge, if_pos hlt, mem_cons, ih, mem_cons (l := s), or_left_comm]
  | case4 x d s hlt ih =>
    rw [pdbArrayMerge, if_neg hlt, if_pos rfl, mem_cons]
    simp only [mem_cons]
    tauto
  | case5 x d a s hlt hne ih =>
    rw [pdbArrayMerge, if_neg hlt, if_neg hne, mem_cons, ih, mem_cons (l := d), or_assoc]

theorem sorted_pdbArrayMerge {d s : PdbArray} (hd : d.Sorted) (hs : s.Sorted) :
    (pdbArrayMerge d s).Sorted := by
  induction d, s using pdbArrayMerge.induct with
  | case1 d => rwa [pdbArrayMerge]
  | case2 s hne =>
    cases s with
    | nil => exact (hne rfl).elim
    | cons a s =>
      rw [pdbArrayMerge]
      · exact hs
      · exact cons_ne_nil a s
  | case3 x d a s hlt ih =>
    obtain ⟨hx, -⟩ := pairwise_cons.mp hd
    obtain ⟨ha, hs'⟩ := pairwise_cons.mp hs
    rw [pdbArrayMerge, if_pos hlt]
    refine pairwise_cons.mpr ⟨fun y hy => ?_, ih hd hs'⟩
    rcases (mem_pdbArrayMerge _ _ y).mp hy with hy | hy
    · rcases mem_cons.mp hy with rfl | hy
      · exact hlt
      · exact Int.lt_trans hlt (hx y hy)
    · exact ha y hy
  | case4 x d s hlt ih =>
    obtain ⟨hx, hd'⟩ := pairwise_cons.mp hd
    obtain ⟨ha, hs'⟩ := pairwise_cons.mp hs
    rw [pdbArrayMerge, if_neg hlt, if_pos rfl]
    refine pairwise_cons.mpr ⟨fun y hy => ?_, ih hd' hs'⟩
    rcases (mem_pdbArrayMerge _ _ y).mp hy with hy | hy
    · exact hx y hy
    · exact ha y hy
  | case5 x d a s hlt hne ih =>
    obtain ⟨hx, hd'⟩ := pairwise_cons.mp hd
    obtain ⟨ha, -⟩ := pairwise_cons.mp hs
    rw [pdbArrayMerge, if_neg hlt, if_neg hne]
    refine pairwise_cons.mpr ⟨fun y hy => ?_, ih hd' hs⟩
    rcases (mem_pdbArrayMerge _ _ y).mp hy with hy | hy
    · exact hx y hy
    · rcases mem_cons.mp hy with rfl | hy
      · omega
      · have := ha y hy
        omega

end Coda.Al
