import Mathlib.Logic.Relation

/-!
Reachability in ranked graphs. A rank that decreases along every edge rules out cycles, and
then a labelling that is locally right, each node carrying itself and what its successors
carry, is the set of reachable nodes.
-/

namespace Coda.Lib

open Relation

variable {α : Type*} {R : α → α → Prop} {rank : α → Nat}

section

variable (dec : ∀ x y, R x y → rank y < rank x)
include dec

theorem rank_lt_of_transGen {x y : α} (h : TransGen R x y) : rank y < rank x := by
  induction h with
  | single hxy => exact dec _ _ hxy
  | tail _ hyz ih => exact Nat.lt_trans (dec _ _ hyz) ih

theorem not_transGen_self (x : α) : ¬ TransGen R x x :=
  fun h => Nat.lt_irrefl _ (rank_lt_of_transGen dec h)

/-- `carries x y`: node `x` carries the label `y`. Only nodes in `dom` are looked at. -/
theorem carries_iff_reflTransGen {dom : α → Prop} {carries : α → α → Prop}
    (closed : ∀ x y, dom x → R x y → dom y)
    (locally_ : ∀ x, dom x → ∀ y, carries x y ↔ y = x ∨ ∃ z, R x z ∧ carries z y) {x : α}
    (hx : dom x) (y : α) : carries x y ↔ ReflTransGen R x y := by
  induction hr : rank x using Nat.strongRecOn generalizing x with
  | ind n ih =>
    subst hr
    rw [locally_ x hx, ReflTransGen.cases_head_iff]
    refine or_congr eq_comm (exists_congr fun z => and_congr_right fun hxz => ?_)
    exact ih (rank z) (dec x z hxz) (closed x z hx hxz) rfl

end

end Coda.Lib
