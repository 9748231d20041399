import Mathlib

/-!
Single bits of machine words: masks `1 << j`, setting and clearing one bit, counting.
-/

namespace Coda.Lib

open BitVec

section Masks

variable {w : Nat} {x : BitVec w} {j : Nat}

/-- `x & (1 << j)` tests bit `j`. -/
theorem and_twoPow_ne_zero (h : j < w) : x &&& BitVec.twoPow w j ≠ 0#w ↔ x.getLsbD j = true := by
  rw [and_twoPow]
  cases hx : x.getLsbD j with
  | false => simp
  | true =>
    simp only [if_true, ne_eq, iff_true]
    intro hzero
    have := congrArg (fun v : BitVec w => v.getLsbD j) hzero
    simp [h] at this

/-- `x |= 1 << j`. -/
theorem getLsbD_or_twoPow (h : j < w) (t : Nat) :
    (x ||| BitVec.twoPow w j).getLsbD t = if t = j then true else x.getLsbD t := by
  by_cases ht : t = j
  · subst ht
    simp [h]
  · have hne : ¬ j = t := fun e => ht e.symm
    simp [ht, hne]

/-- `x &= ~(1 << j)`. -/
theorem getLsbD_and_not_twoPow (x : BitVec w) (j t : Nat) :
    (x &&& ~~~(BitVec.twoPow w j)).getLsbD t = if t = j then false else x.getLsbD t := by
  rw [getLsbD_and, getLsbD_not, getLsbD_twoPow]
  by_cases ht : t < w
  · by_cases htj : t = j
    · subst htj
      simp [ht]
    · have : ¬ j = t := fun h => htj h.symm
      simp [ht, htj, this]
  · rw [getLsbD_of_ge x t (Nat.le_of_not_lt ht)]
    simp

/-- `(x >> j) & 1`. -/
theorem ushiftRight_and_one_ne_zero {n : Nat} (x : BitVec (n + 1)) (j : Nat) :
    x >>> j &&& 1#(n + 1) ≠ 0#(n + 1) ↔ x.getLsbD j = true := by
  have hbit : (x >>> j).getLsbD 0 = x.getLsbD j := getLsbD_ushiftRight x j 0
  rw [← hbit, ← twoPow_zero]
  exact and_twoPow_ne_zero (Nat.succ_pos n)

end Masks

/-- Counting in a list is summing over the range. -/
theorem length_filter_range (p : Nat → Bool) (n : Nat) :
    ((List.range n).filter p).length = ∑ k ∈ Finset.range n, if p k = true then 1 else 0 := by
  rw [← Finset.card_filter]
  simp [Finset.filter, Finset.range, Multiset.range]

theorem sum_map_range (f : Nat → Nat) (n : Nat) :
    ((List.range n).map f).sum = ∑ k ∈ Finset.range n, f k := by
  induction n with
  | zero => rfl
  | succ n ih =>
    rw [List.range_succ, List.map_append, List.sum_append, ih, List.map_singleton,
      List.sum_singleton, Finset.sum_range_succ]

/-- A count over `w * n` bits, taken word by word. -/
theorem sum_range_mul (f : Nat → Nat) (w n : Nat) :
    ∑ k ∈ Finset.range (w * n), f k = ∑ i ∈ Finset.range n, ∑ t ∈ Finset.range w, f (w * i + t) := by
  induction n with
  | zero => rfl
  | succ n ih => rw [Nat.mul_succ, Finset.sum_range_add, ih, Finset.sum_range_succ]

/-- A word read as unsigned and a word read as signed have one value only if they are one word, and
its highest bit is clear. -/
theorem toNat_eq_toInt_iff {u w : BitVec 32} :
    (w.toNat : Int) = u.toInt ↔ u.msb = false ∧ w = u := by
  constructor
  · intro h
    have hu : u.msb = false := by
      rw [msb_eq_false_iff_two_mul_lt]
      have := toInt_eq_toNat_cond u
      split at this <;> omega
    rw [toInt_eq_toNat_of_msb hu] at h
    exact ⟨hu, eq_of_toNat_eq (Int.ofNat.inj h)⟩
  · rintro ⟨hu, rfl⟩
    exact (toInt_eq_toNat_of_msb hu).symm

end Coda.Lib
