import Coda.Util.BstreeOps

/-!
The iterators of the binary search trees.

An iterator that is at a node finds the next one by the pointers around this node: the first node
of its sub-tree on the side of the walk, or the nearest node above it that lies ahead.
-/

namespace Coda.Util

open Coda.Lib List Option

variable {α τ : Type} [LinearOrder α] {t : Bstree α τ} {s : Side} {fs : List (Frame α)} {T : BTree α}

/-- The climb ends at the nearest node above that lies ahead. -/
theorem climb_spec {x : α} {fuel : Nat} (place : Place t fs (some x))
    (hx : t.parent x = fs.head?.map Frame.node) (hxfs : x ∉ around fs) (nodup : (around fs).Nodup)
    (hfuel : fs.length < fuel) : climb t s fuel x = some (ahead s fs).head? := by
  induction fs generalizing x fuel with
  | nil =>
    obtain ⟨fuel, rfl⟩ : ∃ n, fuel = n + 1 := ⟨fuel - 1, by omega⟩
    rw [climb, hx]
    cases s <;> rfl
  | cons f fs ih =>
    obtain ⟨fuel, rfl⟩ : ∃ n, fuel = n + 1 := ⟨fuel - 1, by omega⟩
    obtain ⟨⟨hlink, hsib, hole⟩, hf, -, hpath⟩ := place
    obtain ⟨-, hnode, -, hnodup, -⟩ := nodup_around_cons.mp nodup
    rw [climb, hx, List.head?_cons, map_some]
    dsimp only
    obtain ⟨side, a, sib⟩ := f
    by_cases hside : side = s
    · subst hside
      rw [if_pos hlink, ahead_same]
      exact ih ⟨hole, hpath⟩ hf hnode hnodup (by simp at hfuel; omega)
    · obtain rfl : side = s.flip := by cases side <;> cases s <;> first | rfl | exact absurd rfl hside
      have hother : t.child a s ≠ some x := by
        intro heq
        have : s.flip.flip = s := by cases s <;> rfl
        refine hxfs (mem_around_cons.mpr (.inr (.inl (mem_of_points (l := t.child) ?_))))
        rw [this, heq] at hsib
        exact hsib
      rw [if_neg hother, ahead_flip]
      rfl

omit [LinearOrder α] in
/-- `FIRST` and `LAST` are the first nodes of a walk. -/
theorem extreme_spec {a : α} (hp : Points t.child (some a) T) (hbound : T.height ≤ t.bound) :
    ∃ cur ys, extreme t s.flip a = some cur ∧ inOrder s T = cur :: ys := by
  obtain ⟨ws, cur, W, hrun, rfl, hside⟩ := extremeLoop_spec (s := s.flip) hp hbound
  obtain ⟨ys, hys⟩ := inOrder_extreme hside
  exact ⟨cur, ys, hrun, hys⟩

section

variable (linked : Linked t T)
include linked

omit [LinearOrder α] in
theorem firstOn_spec (hbound : T.height ≤ t.bound) :
    firstOn t s.flip = some (inOrder s T).head? := by
  have hpoints := linked.points
  unfold firstOn
  cases hroot : t.root with
  | none =>
    rw [hroot] at hpoints
    rw [points_none.mp hpoints]
    cases s <;> rfl
  | some root =>
    rw [hroot] at hpoints
    obtain ⟨cur, ys, hrun, hys⟩ := extreme_spec hpoints hbound
    dsimp only
    rw [hrun, hys]
    rfl

/-- The iterator goes through the nodes in order. -/
theorem next_spec (nodup : T.nodes.Nodup) (hbound : T.height ≤ t.bound) {x : α} {pre ys : List α}
    (hpos : inOrder s T = pre ++ x :: ys) : next t s (.inProgress x) = some ys.head? := by
  have hxmem : x ∈ T.nodes := mem_inOrder.mp (hpos ▸ mem_append_right _ mem_cons_self)
  obtain ⟨fs, sib, U, rfl⟩ : ∃ fs sib U, T = plug fs (Frame.fill ⟨s, x, sib⟩ U) := by
    obtain ⟨fs, l, r, rfl⟩ := exists_place hxmem
    cases s with
    | left => exact ⟨fs, r, l, rfl⟩
    | right => exact ⟨fs, l, r, rfl⟩
  -- the nodes ahead of this place are those that are left
  have hys : ys = inOrder s U ++ ahead s fs := by
    have hnodup := inOrder_nodup (s := s) nodup
    rw [inOrder_plug, inOrder_fill, append_assoc, append_assoc, cons_append,
      ← append_assoc] at hpos hnodup
    have hx : x ∉ behind s fs ++ inOrder s sib ∧ x ∉ inOrder s U ++ ahead s fs := by
      have hnot := (nodup_cons.mp (nodup_middle.mp hnodup)).1
      rw [mem_append, not_or] at hnot
      exact hnot
    exact ((append_cons_inj_of_notMem hx.1 hx.2).mp hpos).2.2.symm
  obtain ⟨p, place, hangs⟩ := linked_plug.mp linked
  obtain ⟨rfl, hU, -⟩ := points_fill.mp hangs.points
  obtain ⟨hx, -, -⟩ := parents_fill.mp hangs.parents
  obtain ⟨hnodup, hnodup', hapart⟩ := nodup_plug.mp nodup
  obtain ⟨-, hxU, -, -, -⟩ := nodup_fill.mp hnodup'
  have hxfs : x ∉ around fs := hapart x (mem_nodes_fill.mpr (.inl rfl))
  have hlength := length_le_outHeight fs (Frame.fill ⟨s, x, sib⟩ U).height
  rw [height_plug] at hbound
  rw [height_fill] at hlength hbound
  -- the prevention of loops does nothing
  have hloop : ¬(ys.head? ≠ none ∧ ys.head?.map Cursor.inProgress = some (.inProgress x)) := by
    rintro ⟨-, hhead⟩
    obtain ⟨y, hy, ⟨⟩⟩ := map_eq_some_iff.mp hhead
    have hmem := mem_of_mem_head? hy
    rw [hys, mem_append, mem_inOrder] at hmem
    rcases hmem with hmem | hmem
    · exact hxU hmem
    · exact hxfs (mem_around_of_ahead hmem)
  have hstep : advance t s (.inProgress x) = some ys.head? := by
    cases hc : t.child x s with
    | none =>
      rw [hc] at hU
      obtain rfl := points_none.mp hU
      rw [advance, hc]
      rw [hys, show inOrder s (.nil : BTree α) = [] by cases s <;> rfl]
      exact climb_spec place hx hxfs hnodup (by omega)
    | some m =>
      rw [hc] at hU
      obtain ⟨cur, zs, hrun, hzs⟩ := extreme_spec hU (by omega)
      rw [advance, hc]
      dsimp only
      rw [hrun, hys, hzs]
      rfl
  rw [next, hstep, bind_eq_bind, bind_some, if_neg hloop]
  rfl

theorem next_notStarted (hbound : T.height ≤ t.bound) :
    next t s .notStarted = some (inOrder s T).head? := by
  rw [next, advance, firstOn_spec linked hbound, bind_eq_bind, bind_some, if_neg]
  · rfl
  · rintro ⟨-, h⟩
    obtain ⟨y, -, hy⟩ := map_eq_some_iff.mp h
    cases hy

theorem iterateLoop_spec (nodup : T.nodes.Nodup) (hbound : T.height ≤ t.bound) {x : α}
    (pre : List α) {ys : List α} (fuel : Nat) (hpos : inOrder s T = pre ++ x :: ys)
    (hfuel : ys.length < fuel) : iterateLoop t s fuel (.inProgress x) = some ys := by
  induction ys generalizing x pre fuel with
  | nil =>
    obtain ⟨fuel, rfl⟩ : ∃ n, fuel = n + 1 := ⟨fuel - 1, by omega⟩
    rw [iterateLoop, next_spec linked nodup hbound hpos]
    rfl
  | cons y ys ih =>
    obtain ⟨fuel, rfl⟩ : ∃ n, fuel = n + 1 := ⟨fuel - 1, by omega⟩
    have hrest := ih (x := y) (pre ++ [x]) fuel (by rw [hpos]; simp)
      (by simp at hfuel; omega)
    rw [iterateLoop, next_spec linked nodup hbound hpos, List.head?_cons, bind_eq_bind,
      bind_some]
    dsimp only
    rw [hrest]
    rfl

/-- An iterator returns every node once, in order. -/
theorem iterate_spec (nodup : T.nodes.Nodup) (hcnt : t.cnt = T.nodes.length) :
    iterate t s = some (inOrder s T) := by
  have hbound : T.height ≤ t.bound := by
    have := T.height_le_length
    rw [Bstree.bound, hcnt]
    omega
  have hlength : (inOrder s T).length = T.nodes.length := by
    cases s with
    | right => rfl
    | left => exact length_reverse
  have hfuel : t.bound = (inOrder s T).length + 1 := by rw [Bstree.bound, hcnt, hlength]; rfl
  rw [iterate, hfuel, iterateLoop, next_notStarted linked hbound, bind_eq_bind, bind_some]
  cases hpos : inOrder s T with
  | nil => rfl
  | cons x ys =>
    have hrest := iterateLoop_spec linked nodup hbound [] (x :: ys).length hpos (by simp)
    rw [List.head?_cons]
    dsimp only
    rw [hrest]
    rfl

end

end Coda.Util
