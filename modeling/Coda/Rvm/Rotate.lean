import Coda.Rvm.Balance

/-!
The rotations of `tree_insert` and `tree_delete`.
-/

namespace Coda.Rvm

open Coda.Lib Option

variable {α : Type} [DecidableEq α]

/-! ### Rotations -/

section Rotations

variable {t : TreeRoot α} {p : Option α} {s : Side} {b c : α} {L M R : BTree α} {fs : List (Frame α)}

/-- The factors that a double rotation gives to the old balance point and the root of its heavy
sub-tree. -/
theorem doubleFactors_spec (t' : TreeRoot α) {bf x : Int} {l m m₁ m₂ r : Nat}
    (hbf : Factor s bf m₂ m₁) (hm : m = max m₂ m₁ + 1) (hl : m = l + 1) (hr : r = l ∨ r = l + 1 ∧ bf ≠ -weight s)
    (hx : x = weight s * (r - m) + weight s) :
    ∃ u v : Int, doubleFactors t' s b c bf x = some ((t'.setBf b u).setBf c v) ∧
      Factor s u m₁ l ∧ Factor s v r m₂ := by
  unfold doubleFactors
  by_cases hzero : bf = 0
  · refine ⟨0, x, if_pos hzero, ?_⟩
    cases s <;> simp only [Factor, weight] at * <;> omega
  rw [if_neg hzero]
  by_cases hheavy : bf = weight s
  · refine ⟨-weight s, x, if_pos hheavy, ?_⟩
    cases s <;> simp only [Factor, weight] at * <;> omega
  rw [if_neg hheavy]
  have hlight : bf = -weight s := by
    cases s <;> simp only [Factor, weight] at * <;> omega
  refine ⟨0, weight s, if_pos hlight, ?_⟩
  cases s <;> simp only [Factor, weight] at * <;> omega

omit [DecidableEq α] in
/-- The inner child decides only where the heavy sub-tree is balanced. -/
theorem isSingle_spec (hcM : Points t.links (t.links c s.flip) M)
    (hc : Factor s (t.bf c) R.height M.height) {l : Nat} (hheight : max R.height M.height = l + 1) :
    ∃ single, isSingle t c s = some single ∧
      (single = true → R.height = l + 1 ∧ (M.height = l ∨ M.height = l + 1)) ∧
      (single = false → M.height = l + 1 ∧ (R.height = l ∨ R.height = l + 1 ∧
        ∀ n, t.links c s.flip = some n → t.bf n ≠ -weight s)) := by
  unfold isSingle
  by_cases hheavy : t.bf c = weight s
  · refine ⟨true, if_pos hheavy, fun _ => ?_, by simp⟩
    cases s <;> simp only [Factor, weight] at * <;> omega
  rw [if_neg hheavy]
  by_cases hzero : t.bf c = 0
  · have hheights : R.height = l + 1 ∧ M.height = l + 1 := by
      cases s <;> simp only [Factor, weight] at * <;> omega
    obtain ⟨n, M₁, M₂, rfl⟩ := exists_fill s (T := M) (by omega)
    rw [if_pos hzero, (points_fill.mp hcM).1]
    refine ⟨_, rfl, fun _ => ⟨hheights.1, .inr hheights.2⟩, fun hinner => ⟨hheights.2, .inr ⟨hheights.1, ?_⟩⟩⟩
    rintro n' ⟨⟩
    exact of_decide_eq_false hinner
  · refine ⟨false, if_neg hzero, by simp, fun _ => ?_⟩
    have hheights : M.height = l + 1 ∧ R.height = l := by
      cases s <;> simp only [Factor, weight] at * <;> omega
    exact ⟨hheights.1, .inl hheights.2⟩

section

variable (hole : Hole t.links t.root fs p) (hp : Points t.links p (heavyTree s b L c M R))
  (nodup : (plug fs (heavyTree s b L c M R)).nodes.Nodup) (hL : Avl t.bf L)
  (hC : Avl t.bf (Frame.fill ⟨s, c, M⟩ R)) (hheight : max R.height M.height = L.height + 1)
include hole hp nodup hL hC hheight

/-- A rotation after an insertion gives the tree its old height. -/
theorem insertRotate_spec (hbf : t.bf c ≠ 0) :
    ∃ t' S', insertRotate t b (fs.head?.map Frame.node) c s = some t' ∧
      Rotated t t' fs (heavyTree s b L c M R) S' ∧ Avl t'.bf S' ∧ S'.height = L.height + 2 := by
  obtain ⟨⟨hcbf, hcrange, hM⟩, hR⟩ := avl_fill.mp hC
  dsimp only at hcbf hcrange hM
  unfold insertRotate
  by_cases hsingle : t.bf c = weight s
  · rw [if_pos hsingle]
    rw [hsingle] at hcbf
    have hheights : R.height = L.height + 1 ∧ M.height = L.height := by
      cases s <;> simp only [weight] at hcbf <;> omega
    obtain ⟨t', hrun, hrot, havl, hh⟩ := rotated_single_avl hole hp nodup hL hM hR
      (factor_zero hheights.2) (factor_zero (by omega))
    exact ⟨t', _, congrArg some hrun, hrot, havl, by omega⟩
  · rw [if_neg hsingle]
    have hheights : R.height = L.height ∧ M.height = L.height + 1 := by
      cases s <;> simp only [weight] at hcbf hsingle <;> omega
    obtain ⟨n, M₁, M₂, rfl⟩ := exists_fill s (T := M) (by omega)
    obtain ⟨⟨hnbf, hnrange, hM₁⟩, hM₂⟩ := avl_fill.mp hM
    rw [height_fill] at hheights
    dsimp only at hnbf hnrange hM₁ hheights
    obtain ⟨u, v, hfactors, hu, hv⟩ := doubleFactors_spec (x := 0)
      (rotateDouble t s b c n) ⟨hnbf, hnrange⟩ rfl hheights.2 (.inl hheights.1)
      (by cases s <;> simp only [weight] <;> omega)
    obtain ⟨t', hrun, hrot, havl, hh⟩ := rotated_double_avl hole hp nodup hL hM₁ hM₂ hR
      hu hv (factor_zero (by omega))
    refine ⟨t', _, ?_, hrot, havl, by omega⟩
    rw [(rotated_double hole hp nodup 0 0 0 rfl).1, bind_eq_bind, bind_some]
    dsimp only
    rw [hfactors, bind_eq_bind]
    exact congrArg some hrun

/-- A rotation after a deletion tells whether it made the tree lower. -/
theorem deleteRotate_spec :
    ∃ lower t' S', deleteRotate t b (fs.head?.map Frame.node) c s = some (lower, t') ∧
      Rotated t t' fs (heavyTree s b L c M R) S' ∧ Avl t'.bf S' ∧
      S'.height = if lower then L.height + 2 else L.height + 3 := by
  obtain ⟨⟨hcbf, hcrange, hM⟩, hR⟩ := avl_fill.mp hC
  have hcM : Points t.links (t.links c s.flip) M :=
    (points_fill.mp (points_fill.mp hp).2.1).2.2
  obtain ⟨single, hdecided, hone, htwo⟩ := isSingle_spec hcM ⟨hcbf, hcrange⟩ hheight
  unfold deleteRotate
  rw [hdecided, bind_eq_bind, bind_some]
  cases single with
  | true =>
    obtain ⟨hRh, hMh⟩ := hone rfl
    dsimp only
    by_cases hheavy : t.bf c = weight s
    · have hM' : M.height = L.height := by
        cases s <;> simp only [weight] at * <;> omega
      obtain ⟨t', hrun, hrot, havl, hh⟩ := rotated_single_avl hole hp nodup hL hM hR
        (factor_zero hM') (factor_zero (by omega))
      refine ⟨true, t', _, ?_, hrot, havl, ?_⟩
      · rw [if_pos hheavy, hrun]
        simp [TreeRoot.setBf]
      · rw [if_pos rfl]
        omega
    · have hM' : M.height = L.height + 1 := by
        cases s <;> simp only [weight] at * <;> omega
      obtain ⟨t', hrun, hrot, havl, hh⟩ := rotated_single_avl (v := weight s) (w := -weight s) hole hp
        nodup hL hM hR (by cases s <;> simp only [Factor, weight] <;> omega)
        (by cases s <;> simp only [Factor, weight] <;> omega)
      refine ⟨false, t', _, ?_, hrot, havl, ?_⟩
      · rw [if_neg hheavy, hrun]
        cases s <;> simp [TreeRoot.setBf, weight]
      · rw [if_neg Bool.false_ne_true]
        omega
  | false =>
    obtain ⟨hMh, hRh⟩ := htwo rfl
    obtain ⟨n, M₁, M₂, rfl⟩ := exists_fill s (T := M) (by omega)
    obtain ⟨⟨hnbf, hnrange, hM₁⟩, hM₂⟩ := avl_fill.mp hM
    rw [height_fill] at hMh hcbf
    have hcn := (points_fill.mp hcM).1
    replace hRh : R.height = L.height ∨ R.height = L.height + 1 ∧ t.bf n ≠ -weight s :=
      hRh.imp_right fun h => ⟨h.1, h.2 n hcn⟩
    obtain ⟨u, v, hfactors, hu, hv⟩ := doubleFactors_spec (x := t.bf c + weight s) (b := b)
      (c := c) (rotateDouble t s b c n) ⟨hnbf, hnrange⟩ rfl hMh hRh (by rw [hcbf])
    obtain ⟨t', hrun, hrot, havl, hh⟩ := rotated_double_avl
      (w := if t.bf c = 0 then weight s else 0) hole hp nodup hL hM₁ hM₂ hR hu hv
      (by cases s <;> simp only [Factor, weight] at * <;> split <;> omega)
    refine ⟨!decide (t.bf c = 0), t', _, ?_, hrot, havl, ?_⟩
    · rw [hcn, bind_eq_bind, bind_some]
      dsimp only
      rw [hfactors, bind_eq_bind, bind_some, hrun]
      cases s <;> by_cases hzero : t.bf c = 0 <;> simp [TreeRoot.setBf, weight, hzero]
    · cases s <;> by_cases hzero : t.bf c = 0 <;> simp only [weight] at * <;> simp [hzero] <;> omega

end

end Rotations

end Coda.Rvm
