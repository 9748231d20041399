import Coda.Lib.LinkedTree

/-!
Parent pointers of linked binary trees, and the order in which they are walked.

`Parents parent par t` says that the root of `t` has parent `par`, and every other node the node
above it. `inOrder s t` are the nodes towards side `s`: in ascending order for the right side, in
descending order for the left one.
-/

namespace Coda.Lib

open List

variable {α : Type*}

/-! ### Parent pointers -/

def Parents (parent : α → Option α) : Option α → BTree α → Prop
  | _, .nil => True
  | par, .node l a r => parent a = par ∧ Parents parent (some a) l ∧ Parents parent (some a) r

/-- The same along the way to a place. -/
def ParentPath (parent : α → Option α) : List (Frame α) → Prop
  | [] => True
  | f :: fs => parent f.node = fs.head?.map Frame.node ∧ Parents parent (some f.node) f.sib ∧
      ParentPath parent fs

variable {parent parent' : α → Option α} {par : Option α} {f : Frame α} {fs gs : List (Frame α)}
  {t : BTree α}

theorem parents_fill : Parents parent par (f.fill t) ↔
    parent f.node = par ∧ Parents parent (some f.node) t ∧ Parents parent (some f.node) f.sib := by
  obtain ⟨side, a, sib⟩ := f
  cases side with
  | left => exact .rfl
  | right => exact and_congr_right fun _ => and_comm

theorem parents_plug : Parents parent none (plug fs t) ↔
    ParentPath parent fs ∧ Parents parent (fs.head?.map Frame.node) t := by
  induction fs generalizing t with
  | nil => exact ⟨fun h => ⟨trivial, h⟩, And.right⟩
  | cons f fs ih =>
    rw [plug, ih, parents_fill, ParentPath, List.head?_cons, Option.map_some]
    tauto

theorem Parents.congr (h : Parents parent par t) (same : ∀ a ∈ t.nodes, parent' a = parent a) :
    Parents parent' par t := by
  induction t generalizing par with
  | nil => trivial
  | node l a r ihl ihr =>
    obtain ⟨ha, hl, hr⟩ := h
    refine ⟨(same a (mem_append_right _ (.head _))).trans ha, ihl hl fun b hb => ?_,
      ihr hr fun b hb => ?_⟩
    · exact same b (mem_append_left _ hb)
    · exact same b (mem_append_right _ (.tail a hb))

theorem ParentPath.congr (h : ParentPath parent fs) (same : ∀ a ∈ around fs, parent' a = parent a) :
    ParentPath parent' fs := by
  induction fs with
  | nil => trivial
  | cons f fs ih =>
    obtain ⟨hf, hsib, hpath⟩ := h
    refine ⟨(same _ (mem_around_cons.mpr (.inl rfl))).trans hf, hsib.congr fun a ha => ?_,
      ih hpath fun a ha => ?_⟩
    · exact same a (mem_around_cons.mpr (.inr (.inl ha)))
    · exact same a (mem_around_cons.mpr (.inr (.inr ha)))

/-- The root of a tree gets another parent. -/
theorem Parents.reparent (h : Parents parent par t) (nodup : t.nodes.Nodup)
    {links : Links α} {p : Option α} (hp : Points links p t) (q : Option α)
    (hset : ∀ a ∈ p, parent' a = q) (same : ∀ a ∈ t.nodes, some a ≠ p → parent' a = parent a) :
    Parents parent' q t := by
  cases t with
  | nil => trivial
  | node l a r =>
    obtain ⟨rfl, -, -⟩ := points_node.mp hp
    obtain ⟨-, hl, hr⟩ := h
    obtain ⟨-, hnodupr, hal⟩ := nodup_append.mp nodup
    refine ⟨hset a rfl, hl.congr fun b hb => same b (mem_append_left _ hb) ?_,
      hr.congr fun b hb => same b (mem_append_right _ (.tail a hb)) ?_⟩
    · rintro ⟨⟩
      exact hal a hb a (.head _) rfl
    · rintro ⟨⟩
      exact (nodup_cons.mp hnodupr).1 hb

/-! ### Walks -/

/-- The nodes towards side `s`. -/
def inOrder : Side → BTree α → List α
  | .right, t => t.nodes
  | .left, t => t.nodes.reverse

/-- The nodes of the tree that a walk towards `s` has left behind at a place. -/
def behind : Side → List (Frame α) → List α
  | .right, fs => before fs
  | .left, fs => (after fs).reverse

/-- The nodes of the tree that it has not reached. -/
def ahead : Side → List (Frame α) → List α
  | .right, fs => after fs
  | .left, fs => (before fs).reverse

theorem inOrder_plug (s : Side) (fs : List (Frame α)) (t : BTree α) :
    inOrder s (plug fs t) = behind s fs ++ inOrder s t ++ ahead s fs := by
  cases s with
  | right => exact nodes_plug fs t
  | left =>
    simp only [inOrder, behind, ahead, nodes_plug, reverse_append, append_assoc]

theorem inOrder_fill (s : Side) (a : α) (sib t : BTree α) :
    inOrder s (Frame.fill ⟨s, a, sib⟩ t) = inOrder s sib ++ a :: inOrder s t := by
  cases s with
  | right => rfl
  | left =>
    simp only [inOrder, Frame.fill, BTree.nodes, reverse_append, reverse_cons,
      append_assoc, singleton_append]

theorem ahead_same (s : Side) (a : α) (sib : BTree α) (fs : List (Frame α)) :
    ahead s (⟨s, a, sib⟩ :: fs) = ahead s fs := by cases s <;> rfl

theorem ahead_flip (s : Side) (a : α) (sib : BTree α) (fs : List (Frame α)) :
    ahead s (⟨s.flip, a, sib⟩ :: fs) = a :: inOrder s sib ++ ahead s fs := by
  cases s with
  | right => rfl
  | left =>
    simp only [ahead, inOrder, Side.flip, before, reverse_append, reverse_singleton,
      cons_append, nil_append]

/-- Every node of a tree has its place. -/
theorem exists_place {a : α} (h : a ∈ t.nodes) : ∃ fs l r, t = plug fs (.node l a r) := by
  induction t with
  | nil => cases h
  | node l b r ihl ihr =>
    rcases mem_append.mp h with h | h
    · obtain ⟨fs, l', r', rfl⟩ := ihl h
      exact ⟨fs ++ [⟨.left, b, r⟩], l', r', by rw [plug_append]; rfl⟩
    · rcases mem_cons.mp h with rfl | h
      · exact ⟨[], l, r, rfl⟩
      · obtain ⟨fs, l', r', rfl⟩ := ihr h
        exact ⟨fs ++ [⟨.right, b, l⟩], l', r', by rw [plug_append]; rfl⟩

variable {s : Side}

theorem inOrder_nodup (nodup : t.nodes.Nodup) : (inOrder s t).Nodup := by
  cases s with
  | right => exact nodup
  | left => exact nodup_reverse.mpr nodup

theorem mem_inOrder {a : α} : a ∈ inOrder s t ↔ a ∈ t.nodes := by
  cases s with
  | right => exact .rfl
  | left => exact mem_reverse

theorem mem_around_of_ahead {a : α} (h : a ∈ ahead s fs) : a ∈ around fs := by
  cases s with
  | right => exact mem_append_right _ h
  | left => exact mem_append_left _ (mem_reverse.mp h)

/-- A way that keeps to one side ends at the first node of the walk away from it. -/
theorem inOrder_extreme {cur : α} {w : BTree α} (hside : ∀ g ∈ fs, g.side = s.flip) :
    ∃ ys, inOrder s (plug (⟨s.flip, cur, w⟩ :: fs) .nil) = cur :: ys := by
  have hall : ∀ g ∈ (⟨s.flip, cur, w⟩ :: fs : List (Frame α)), g.side = s.flip :=
    forall_mem_cons.mpr ⟨rfl, hside⟩
  have hbehind : behind s (⟨s.flip, cur, w⟩ :: fs) = [] := by
    cases s with
    | right => exact before_eq_nil hall
    | left => exact congrArg List.reverse (after_eq_nil hall)
  have hnil : inOrder s (.nil : BTree α) = [] := by cases s <;> rfl
  rw [inOrder_plug, hbehind, hnil, ahead_flip]
  exact ⟨_, rfl⟩

end Coda.Lib
