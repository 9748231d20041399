import Mathlib

/-!
Slices of lists: `Slice l p x` says that `x` stands at position `p` of `l`. Layouts of byte
strings are stated with it and taken apart along `++` and `flatMap`.
-/

namespace Coda.Lib

open List

variable {α β : Type*}

/-- `x` stands at position `p` of `l`. -/
def Slice (l : List α) (p : Nat) (x : List α) : Prop := ∃ a b, l = a ++ x ++ b ∧ a.length = p

variable {l x y : List α} {p q : Nat}

namespace Slice

theorem le (h : Slice l p x) : p + x.length ≤ l.length := by
  obtain ⟨a, b, rfl, rfl⟩ := h
  simp only [length_append]
  omega

theorem read (h : Slice l p x) : (l.drop p).take x.length = x := by
  obtain ⟨a, b, rfl, rfl⟩ := h
  rw [append_assoc, drop_left, take_left]

theorem left (h : Slice l p (x ++ y)) : Slice l p x := by
  obtain ⟨a, b, rfl, rfl⟩ := h
  exact ⟨a, y ++ b, by simp only [append_assoc], rfl⟩

theorem right (h : Slice l p (x ++ y)) : Slice l (p + x.length) y := by
  obtain ⟨a, b, rfl, rfl⟩ := h
  exact ⟨a ++ x, b, by simp only [append_assoc], length_append⟩

theorem trans (h : Slice l p x) (h' : Slice x q y) : Slice l (p + q) y := by
  obtain ⟨a, b, rfl, rfl⟩ := h
  obtain ⟨a', b', rfl, rfl⟩ := h'
  exact ⟨a ++ a', b' ++ b, by simp only [append_assoc], length_append⟩

end Slice

theorem slice_append_left (a x : List α) : Slice (a ++ x) a.length x :=
  ⟨a, [], by rw [append_nil], rfl⟩

theorem Slice.append (h : Slice l p x) (b : List α) : Slice (l ++ b) p x := by
  obtain ⟨a, c, rfl, rfl⟩ := h
  exact ⟨a, c ++ b, by simp only [append_assoc], rfl⟩

theorem Slice.prepend (h : Slice l p x) (a : List α) : Slice (a ++ l) (a.length + p) x :=
  (slice_append_left a l).trans h

/-- Blocks of one width, the `j`-th of which stands at `w * j`. -/
theorem slice_flatMap {f : α → List β} {w : Nat} (width : ∀ x, (f x).length = w) {x : α} {j : Nat}
    (h : l[j]? = some x) : Slice (l.flatMap f) (w * j) (f x) := by
  induction l generalizing j with
  | nil => exact absurd h (by simp)
  | cons y l ih =>
    cases j with
    | zero =>
      obtain rfl : y = x := by simpa using h
      exact ⟨[], l.flatMap f, rfl, rfl⟩
    | succ j =>
      have := (ih (by simpa using h)).prepend (f y)
      rw [width, Nat.add_comm] at this
      exact this

theorem length_flatMap_width {f : α → List β} {w : Nat} (width : ∀ x, (f x).length = w)
    (l : List α) : (l.flatMap f).length = w * l.length := by
  induction l with
  | nil => rfl
  | cons x l ih =>
    rw [flatMap_cons, length_append, ih, width, length_cons, Nat.mul_succ, Nat.add_comm]

end Coda.Lib
