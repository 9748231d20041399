import Mathlib

/-!
Rings of `n` slots, addressed by numbers that share a slot when they differ by a multiple of `n`.
As long as the numbers in use lie in a window of at most `n`, no two of them meet.
-/

namespace Coda.Lib

/-- A ring of `n` slots, some of which are empty. -/
def Ring (_n : Nat) (α : Type*) := Nat → Option α

namespace Ring

variable {n : Nat} {α : Type*}

def empty (n : Nat) (α : Type*) : Ring n α := fun _ => none

def slot (r : Ring n α) (x : Nat) : Option α := r (x % n)

def put (r : Ring n α) (x : Nat) (v : Option α) : Ring n α :=
  fun i => if i = x % n then v else r i

/-- The slots of `base + 1`, …, `base + count`. -/
def fill (r : Ring n α) (base : Nat) (f : Nat → Option α) : Nat → Ring n α
  | 0 => r
  | count + 1 => (fill r base f count).put (base + (count + 1)) (f (count + 1))

theorem slot_put (r : Ring n α) (x : Nat) (v : Option α) : (r.put x v).slot x = v :=
  if_pos rfl

theorem slot_put_of_ne (r : Ring n α) {x y : Nat} (v : Option α) (h : y % n ≠ x % n) :
    (r.put x v).slot y = r.slot y :=
  if_neg h

/-- Numbers less than `n` apart have slots of their own. -/
theorem mod_ne_of_window {x y : Nat} (h : x < y) (window : y < x + n) : y % n ≠ x % n := by
  intro heq
  have hsub := Nat.sub_mod_eq_zero_of_mod_eq heq
  rw [Nat.mod_eq_of_lt (by omega)] at hsub
  omega

theorem slot_put_window (r : Ring n α) {x y : Nat} (v : Option α) (h : x ≠ y)
    (below : y < x + n) (above : x < y + n) : (r.put x v).slot y = r.slot y := by
  apply slot_put_of_ne
  rcases Nat.lt_or_gt_of_ne h with hlt | hgt
  · exact mod_ne_of_window hlt below
  · exact (mod_ne_of_window hgt above).symm

theorem slot_fill (r : Ring n α) (base : Nat) (f : Nat → Option α) {count i : Nat}
    (pos : 1 ≤ i) (le : i ≤ count) (size : count ≤ n) :
    (r.fill base f count).slot (base + i) = f i := by
  induction count with
  | zero => omega
  | succ count ih =>
    rw [fill]
    by_cases hi : i = count + 1
    · subst hi
      exact slot_put _ _ _
    · rw [slot_put_window _ _ (by omega) (by omega) (by omega)]
      exact ih (by omega) (by omega)

/-- Numbers on either side of the filled ones, but less than a round away, keep their slots. -/
theorem slot_fill_window (r : Ring n α) (base : Nat) (f : Nat → Option α) {count y : Nat}
    (outside : y ≤ base ∨ base + count < y) (below : y < base + 1 + n) (above : base + count < y + n) :
    (r.fill base f count).slot y = r.slot y := by
  induction count with
  | zero => rfl
  | succ count ih =>
    rw [fill, slot_put_window _ _ (by omega) (by omega) (by omega)]
    exact ih (by omega) (by omega)

end Ring

end Coda.Lib
