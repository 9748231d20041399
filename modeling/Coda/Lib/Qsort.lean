import Mathlib.Data.List.Sort

/-!
The contract of the C library's `qsort`: a permutation that is in order under the comparison
function. It says nothing on the order of elements that compare equal, so a result about code
that calls `qsort` is a result about every `Qsort`.
-/

namespace Coda.Lib

open List

variable {α : Type*}

/-- A comparison that `qsort` may be called with. -/
structure Comparison (cmp : α → α → Int) : Prop where
  total : ∀ a b, cmp a b ≤ 0 ∨ cmp b a ≤ 0
  trans : ∀ a b c, cmp a b ≤ 0 → cmp b c ≤ 0 → cmp a c ≤ 0

structure Qsort (α : Type*) where
  sort : (α → α → Int) → List α → List α
  perm : ∀ cmp l, (sort cmp l).Perm l
  sorted : ∀ cmp, Comparison cmp → ∀ l, (sort cmp l).Pairwise fun a b => cmp a b ≤ 0

section Keys

variable {κ : Type*} [LinearOrder κ] {cmp : α → α → Int} (f : α → κ)

theorem Comparison.of_le (h : ∀ a b, cmp a b ≤ 0 ↔ f a ≤ f b) : Comparison cmp where
  total a b := by
    rw [h, h]
    exact le_total _ _
  trans a b c := by
    rw [h, h, h]
    exact le_trans

theorem Qsort.sorted_le (q : Qsort α) (h : ∀ a b, cmp a b ≤ 0 ↔ f a ≤ f b) (l : List α) :
    (q.sort cmp l).Pairwise fun a b => f a ≤ f b :=
  (q.sorted cmp (.of_le f h) l).imp (h _ _).mp

end Keys

namespace Qsort

theorem length_sort (q : Qsort α) (cmp : α → α → Int) (l : List α) :
    (q.sort cmp l).length = l.length :=
  (q.perm cmp l).length_eq

theorem sort_of_length_le_one (q : Qsort α) (cmp : α → α → Int) {l : List α} (h : l.length ≤ 1) :
    q.sort cmp l = l := by
  have hperm := q.perm cmp l
  match l with
  | [] => exact perm_nil.mp hperm
  | [a] => exact perm_singleton.mp hperm
  | a :: b :: l =>
    rw [length_cons, length_cons] at h
    omega

/-- Elements that compare equal come out in the reverse of their order. -/
def reversing (α : Type*) : Qsort α where
  sort cmp l := l.reverse.insertionSort fun a b => cmp a b ≤ 0
  perm cmp l := (perm_insertionSort _ _).trans l.reverse_perm
  sorted cmp h l := by
    have : Std.Total fun a b : α => cmp a b ≤ 0 := ⟨h.total⟩
    have : IsTrans α fun a b : α => cmp a b ≤ 0 := ⟨h.trans⟩
    exact pairwise_insertionSort _ _

/-- `b` comes before `a` when it stood behind it and does not have to come after it. -/
theorem reversing_pair {cmp : α → α → Int} (h : Comparison cmp) {l : List α} {a b : α}
    (hab : [a, b].Sublist l) (hle : cmp b a ≤ 0) :
    [b, a].Sublist ((reversing α).sort cmp l) := by
  have : Std.Total fun a b : α => cmp a b ≤ 0 := ⟨h.total⟩
  have : IsTrans α fun a b : α => cmp a b ≤ 0 := ⟨h.trans⟩
  exact pair_sublist_insertionSort hle hab.reverse

end Qsort

/-! ### Sorted lists -/

/-- A sorted list splits where an upward closed property ends. -/
theorem eq_filter_append_filter {r : α → α → Prop} {q : α → Bool} {l : List α} (sorted : l.Pairwise r)
    (closed : ∀ a b, r a b → q b = true → q a = true) :
    l = l.filter q ++ l.filter fun a => !q a := by
  induction l with
  | nil => rfl
  | cons a l ih =>
    rw [pairwise_cons] at sorted
    have ih := ih sorted.2
    by_cases ha : q a = true
    · rw [filter_cons_of_pos ha, filter_cons_of_neg (by simp [ha]), cons_append, ← ih]
    · have hnone : ∀ b ∈ l, ¬ q b = true := fun b hb hq => ha (closed a b (sorted.1 b hb) hq)
      rw [filter_eq_nil_iff.mpr hnone] at ih
      rw [filter_cons_of_neg ha, filter_eq_nil_iff.mpr hnone, nil_append,
        filter_cons_of_pos (by simpa using ha), ← nil_append (l.filter _), ← ih]

end Coda.Lib
