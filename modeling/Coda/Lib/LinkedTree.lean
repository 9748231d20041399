import Mathlib

/-!
Binary trees that are linked by pointers.

`Points links p t` says that pointer `p` leads to the nodes of `t`, linked as in `t`. A place in
a tree is a list of frames, innermost first; `Hole links root fs p` says that the way from the
root along `fs` ends at a link that holds `p`.
-/

namespace Coda.Lib

open List

inductive BTree (α : Type*) where
  | nil
  | node (l : BTree α) (a : α) (r : BTree α)

namespace BTree

variable {α : Type*}

/-- The nodes from left to right. -/
def nodes : BTree α → List α
  | nil => []
  | node l a r => l.nodes ++ a :: r.nodes

def height : BTree α → Nat
  | nil => 0
  | node l _ r => max l.height r.height + 1

theorem height_le_length (t : BTree α) : t.height ≤ t.nodes.length := by
  induction t with
  | nil => exact Nat.le_refl 0
  | node l a r ihl ihr =>
    rw [height, nodes, length_append, length_cons]
    omega

theorem length_lt_two_pow (t : BTree α) : t.nodes.length < 2 ^ t.height := by
  induction t with
  | nil => exact Nat.one_pos
  | node l a r ihl ihr =>
    have hl : 2 ^ l.height ≤ 2 ^ max l.height r.height := Nat.pow_le_pow_right (by omega) (by omega)
    have hr : 2 ^ r.height ≤ 2 ^ max l.height r.height := Nat.pow_le_pow_right (by omega) (by omega)
    rw [height, nodes, length_append, length_cons]
    omega

theorem nodes_eq_nil {t : BTree α} : t.nodes = [] ↔ t = nil := by
  cases t with
  | nil => exact iff_of_true rfl rfl
  | node l a r =>
    exact iff_of_false (append_ne_nil_of_right_ne_nil _ (cons_ne_nil _ _)) (by simp)

end BTree

inductive Side where
  | left
  | right
deriving DecidableEq, Repr

def Side.flip : Side → Side
  | left => right
  | right => left

theorem Side.flip_ne (s : Side) : s.flip ≠ s := by cases s <;> decide

theorem Side.ne_flip (s : Side) : s ≠ s.flip := by cases s <;> decide

theorem Side.flip_flip (s : Side) : s.flip.flip = s := by cases s <;> rfl

/-- A node that was entered on one side, with the tree on its other side. -/
structure Frame (α : Type*) where
  side : Side
  node : α
  sib : BTree α

section Plug

variable {α : Type*}

def Frame.fill (f : Frame α) (t : BTree α) : BTree α :=
  match f.side with
  | .left => .node t f.node f.sib
  | .right => .node f.sib f.node t

/-- The whole tree around `t`. -/
def plug : List (Frame α) → BTree α → BTree α
  | [], t => t
  | f :: fs, t => plug fs (f.fill t)

/-- The nodes left of the place. -/
def before : List (Frame α) → List α
  | [] => []
  | ⟨.left, _, _⟩ :: fs => before fs
  | ⟨.right, a, l⟩ :: fs => before fs ++ (l.nodes ++ [a])

/-- The nodes right of the place. -/
def after : List (Frame α) → List α
  | [] => []
  | ⟨.left, a, r⟩ :: fs => a :: r.nodes ++ after fs
  | ⟨.right, _, _⟩ :: fs => after fs

/-- All nodes around the place. -/
def around (fs : List (Frame α)) : List α := before fs ++ after fs

theorem plug_append (fs gs : List (Frame α)) (t : BTree α) : plug (fs ++ gs) t = plug gs (plug fs t) := by
  induction fs generalizing t with
  | nil => rfl
  | cons f fs ih => exact ih (f.fill t)

theorem nodes_plug (fs : List (Frame α)) (t : BTree α) :
    (plug fs t).nodes = before fs ++ t.nodes ++ after fs := by
  induction fs generalizing t with
  | nil => simp only [plug, before, after, nil_append, append_nil]
  | cons f fs ih =>
    obtain ⟨side, a, sib⟩ := f
    rw [plug, ih]
    cases side with
    | left => simp only [Frame.fill, BTree.nodes, before, after, append_assoc]
    | right => simp only [Frame.fill, BTree.nodes, before, after, append_assoc, cons_append,
        nil_append]

theorem before_append (fs gs : List (Frame α)) : before (fs ++ gs) = before gs ++ before fs := by
  induction fs with
  | nil => simp only [nil_append, before, append_nil]
  | cons f fs ih =>
    obtain ⟨side, a, sib⟩ := f
    cases side with
    | left => simp only [cons_append, before, ih]
    | right => simp only [cons_append, before, ih, append_assoc]

theorem after_append (fs gs : List (Frame α)) : after (fs ++ gs) = after fs ++ after gs := by
  induction fs with
  | nil => simp only [nil_append, after]
  | cons f fs ih =>
    obtain ⟨side, a, sib⟩ := f
    cases side with
    | left => simp only [cons_append, after, ih, append_assoc]
    | right => simp only [cons_append, after, ih]

variable {fs : List (Frame α)} {f : Frame α}

theorem before_eq_nil (h : ∀ f ∈ fs, f.side = .left) : before fs = [] := by
  induction fs with
  | nil => rfl
  | cons f fs ih =>
    obtain ⟨side, a, sib⟩ := f
    obtain rfl : side = .left := h _ (.head _)
    exact ih fun g hg => h g (.tail _ hg)

theorem after_eq_nil (h : ∀ f ∈ fs, f.side = .right) : after fs = [] := by
  induction fs with
  | nil => rfl
  | cons f fs ih =>
    obtain ⟨side, a, sib⟩ := f
    obtain rfl : side = .right := h _ (.head _)
    exact ih fun g hg => h g (.tail _ hg)

theorem mem_around_cons {b : α} :
    b ∈ around (f :: fs) ↔ b = f.node ∨ b ∈ f.sib.nodes ∨ b ∈ around fs := by
  obtain ⟨side, a, sib⟩ := f
  cases side with
  | left => simp only [around, after, mem_append, mem_cons]; tauto
  | right => simp only [around, before, mem_append, mem_cons]; tauto

theorem mem_around_append {gs : List (Frame α)} {b : α} :
    b ∈ around (fs ++ gs) ↔ b ∈ around fs ∨ b ∈ around gs := by
  simp only [around, before_append, after_append, mem_append]
  tauto

theorem mem_around_of_mem (h : f ∈ fs) : f.node ∈ around fs := by
  induction fs with
  | nil => cases h
  | cons g fs ih =>
    rcases mem_cons.mp h with rfl | h
    · exact mem_around_cons.mpr (.inl rfl)
    · exact mem_around_cons.mpr (.inr (.inr (ih h)))

theorem mem_around_sib (h : f ∈ fs) {a : α} (ha : a ∈ f.sib.nodes) : a ∈ around fs := by
  induction fs with
  | nil => cases h
  | cons g fs ih =>
    rcases mem_cons.mp h with rfl | h
    · exact mem_around_cons.mpr (.inr (.inl ha))
    · exact mem_around_cons.mpr (.inr (.inr (ih h)))

theorem mem_nodes_plug {t : BTree α} {b : α} :
    b ∈ (plug fs t).nodes ↔ b ∈ t.nodes ∨ b ∈ around fs := by
  rw [nodes_plug, around, mem_append, mem_append, mem_append]
  tauto

/-- In a tree without repeated nodes, a place and what stands there share none. -/
theorem nodup_plug {w : List (Frame α)} {t : BTree α} :
    (plug w t).nodes.Nodup ↔
      (around w).Nodup ∧ t.nodes.Nodup ∧ ∀ b ∈ t.nodes, b ∉ around w := by
  have perm : (plug w t).nodes.Perm (around w ++ t.nodes) := by
    rw [nodes_plug, around, append_assoc, append_assoc]
    exact List.Perm.append_left _ perm_append_comm
  rw [perm.nodup_iff, nodup_append']
  refine and_congr_right fun _ => and_congr_right fun _ => ?_
  exact ⟨fun h b hb hb' => h hb' hb, fun h b hb' hb => h b hb hb'⟩

theorem nodup_around_cons :
    (around (f :: fs)).Nodup ↔ f.node ∉ f.sib.nodes ∧ f.node ∉ around fs ∧ f.sib.nodes.Nodup ∧
      (around fs).Nodup ∧ ∀ b ∈ f.sib.nodes, b ∉ around fs := by
  have perm : (around (f :: fs)).Perm (f.node :: (around fs ++ f.sib.nodes)) := by
    obtain ⟨side, a, sib⟩ := f
    cases side with
    | left =>
      simp only [around, before]
      refine perm_middle.trans (List.Perm.cons a ?_)
      rw [append_assoc]
      exact List.Perm.append_left _ perm_append_comm
    | right =>
      simp only [around, before, append_assoc]
      refine (List.Perm.append_left (before fs) perm_middle).trans ?_
      refine perm_middle.trans (List.Perm.cons a ?_)
      exact List.Perm.append_left _ perm_append_comm
  rw [perm.nodup_iff, nodup_cons, nodup_append', mem_append, not_or]
  constructor
  · rintro ⟨⟨h₁, h₂⟩, h₃, h₄, h₅⟩
    exact ⟨h₂, h₁, h₄, h₃, fun b hb hb' => h₅ hb' hb⟩
  · rintro ⟨h₂, h₁, h₄, h₃, h₅⟩
    exact ⟨⟨h₁, h₂⟩, h₃, h₄, fun b hb hb' => h₅ b hb' hb⟩

theorem nodup_around_append {gs : List (Frame α)} (nodup : (around (fs ++ gs)).Nodup) :
    (around fs).Nodup ∧ (around gs).Nodup ∧ ∀ b ∈ around fs, b ∉ around gs := by
  have h := nodup_plug (t := .nil).mpr
    ⟨nodup, nodup_nil, nofun⟩
  rw [plug_append] at h
  obtain ⟨hgs, hfs, hapart⟩ := nodup_plug.mp h
  exact ⟨(nodup_plug.mp hfs).1, hgs, fun b hb => hapart b (mem_nodes_plug.mpr (.inr hb))⟩

/-- The nodes on the way are none of those beside it. -/
theorem node_ne_of_mem_sib (nodup : (around fs).Nodup) {g : Frame α} (hf : f ∈ fs) (hg : g ∈ fs) :
    f.node ∉ g.sib.nodes := by
  induction fs with
  | nil => cases hf
  | cons e fs ih =>
    obtain ⟨hsib, hnode, -, hnodup, hapart⟩ := nodup_around_cons.mp nodup
    rcases mem_cons.mp hf with rfl | hf' <;> rcases mem_cons.mp hg with rfl | hg'
    · exact hsib
    · exact fun h => hnode (mem_around_sib hg' h)
    · exact fun h => hapart _ h (mem_around_of_mem hf')
    · exact ih hnodup hf' hg'

end Plug

/-! ### Heights and nodes at a place -/

section Place

variable {α : Type*}

/-- The height of the whole tree around a tree of height `h`. -/
def outHeight : List (Frame α) → Nat → Nat
  | [], h => h
  | f :: fs, h => outHeight fs (max h f.sib.height + 1)

theorem height_fill (f : Frame α) (t : BTree α) : (f.fill t).height = max t.height f.sib.height + 1 := by
  obtain ⟨side, a, sib⟩ := f
  cases side with
  | left => rfl
  | right => rw [Frame.fill, BTree.height, Nat.max_comm]

theorem height_plug (fs : List (Frame α)) (t : BTree α) : (plug fs t).height = outHeight fs t.height := by
  induction fs generalizing t with
  | nil => rfl
  | cons f fs ih => rw [plug, ih, height_fill, outHeight]

theorem outHeight_append {fs gs : List (Frame α)} {h : Nat} : outHeight (fs ++ gs) h = outHeight gs (outHeight fs h) := by
  induction fs generalizing h with
  | nil => rfl
  | cons f fs ih => exact ih

theorem length_le_outHeight (fs : List (Frame α)) (h : Nat) : h + fs.length ≤ outHeight fs h := by
  induction fs generalizing h with
  | nil => exact Nat.le_refl h
  | cons f fs ih =>
    have := ih (max h f.sib.height + 1)
    rw [outHeight, length_cons]
    omega

theorem fill_flip (f : Frame α) (t : BTree α) : f.fill t = Frame.fill ⟨f.side.flip, f.node, t⟩ f.sib := by
  obtain ⟨side, a, sib⟩ := f
  cases side <;> rfl

theorem mem_nodes_fill {f : Frame α} {t : BTree α} {x : α} :
    x ∈ (f.fill t).nodes ↔ x = f.node ∨ x ∈ f.sib.nodes ∨ x ∈ t.nodes := by
  obtain ⟨side, a, sib⟩ := f
  cases side <;> simp only [Frame.fill, BTree.nodes, mem_append, mem_cons] <;> tauto

theorem nodup_fill {f : Frame α} {t : BTree α} : (f.fill t).nodes.Nodup ↔
    f.node ∉ f.sib.nodes ∧ f.node ∉ t.nodes ∧ f.sib.nodes.Nodup ∧ t.nodes.Nodup ∧
      ∀ x ∈ t.nodes, x ∉ f.sib.nodes := by
  have := nodup_plug (w := [f]) (t := t)
  rw [show plug [f] t = f.fill t from rfl] at this
  rw [this, nodup_around_cons]
  constructor
  · rintro ⟨⟨h₁, -, h₂, -, -⟩, h₃, h₄⟩
    refine ⟨h₁, fun hf => h₄ f.node hf (mem_around_cons.mpr (.inl rfl)), h₂, h₃, fun x hx hx' => ?_⟩
    exact h₄ x hx (mem_around_cons.mpr (.inr (.inl hx')))
  · rintro ⟨h₁, hf, h₂, h₃, h₄⟩
    refine ⟨⟨h₁, not_mem_nil, h₂, nodup_nil, fun _ _ => not_mem_nil⟩, h₃, fun x hx hx' => ?_⟩
    rcases mem_around_cons.mp hx' with rfl | hx' | hx'
    · exact hf hx
    · exact h₄ x hx hx'
    · exact not_mem_nil hx'

/-- A tree that is not empty, seen from one side. -/
theorem exists_fill (s : Side) {T : BTree α} (h : 0 < T.height) :
    ∃ n M₁ M₂, T = Frame.fill ⟨s, n, M₁⟩ M₂ := by
  cases T with
  | nil => exact absurd h (Nat.lt_irrefl 0)
  | node l a r =>
    cases s with
    | left => exact ⟨a, r, l, rfl⟩
    | right => exact ⟨a, l, r, rfl⟩

end Place

/-! ### Removal -/

section Removal

variable {α : Type*}

/-- The node that leaves the list of nodes. -/
def Removed (node : α) (xs ys : List α) : Prop := ∃ l r, xs = l ++ node :: r ∧ ys = l ++ r

variable {node : α} {xs ys : List α}

section

variable (h : Removed node xs ys)
include h

theorem Removed.length : xs.length = ys.length + 1 := by
  obtain ⟨l, r, rfl, rfl⟩ := h
  rw [length_append, length_cons, length_append]
  omega

theorem Removed.sublist : ys.Sublist xs := by
  obtain ⟨l, r, rfl, rfl⟩ := h
  exact (sublist_cons_self node r).append_left l

theorem Removed.mem {a : α} (ha : a ∈ ys) : a ∈ xs :=
  h.sublist.subset ha

theorem Removed.mem_iff {a : α} (nodup : xs.Nodup) : a ∈ ys ↔ a ≠ node ∧ a ∈ xs := by
  obtain ⟨l, r, rfl, rfl⟩ := h
  obtain ⟨hnode, -⟩ := nodup_cons.mp (nodup_middle.mp nodup)
  rw [mem_append, mem_append, mem_cons]
  constructor
  · intro ha
    exact ⟨fun h => hnode (h ▸ mem_append.mpr ha), by tauto⟩
  · tauto

end

theorem Removed.plug {S S' : BTree α} (h : Removed node S.nodes S'.nodes) (fs : List (Frame α)) :
    Removed node (plug fs S).nodes (plug fs S').nodes := by
  obtain ⟨l, r, hl, hr⟩ := h
  refine ⟨before fs ++ l, r ++ after fs, ?_, ?_⟩
  · rw [nodes_plug, hl, append_assoc, append_assoc, append_assoc, cons_append]
  · rw [nodes_plug, hr, append_assoc, append_assoc, append_assoc]

/-- The next node on one side of `node` takes its place. -/
theorem nodes_promote {s : Side} {gs : List (Frame α)} (hside : ∀ g ∈ gs, g.side = s.flip) (node cur : α)
    (sib W : BTree α) :
    Removed node (Frame.fill ⟨s, node, sib⟩ (plug (⟨s.flip, cur, W⟩ :: gs) .nil)).nodes
      (Frame.fill ⟨s, cur, sib⟩ (plug gs W)).nodes := by
  cases s with
  | right =>
    have hbefore : before gs = [] := before_eq_nil hside
    refine ⟨sib.nodes, (plug (⟨.left, cur, W⟩ :: gs) .nil).nodes, rfl, ?_⟩
    simp only [Frame.fill, BTree.nodes, nodes_plug, before, after, hbefore, nil_append,
      cons_append]
  | left =>
    have hafter : after gs = [] := after_eq_nil hside
    refine ⟨(plug (⟨.right, cur, W⟩ :: gs) .nil).nodes, sib.nodes, rfl, ?_⟩
    simp only [Frame.fill, BTree.nodes, nodes_plug, before, after, hafter, append_nil,
      append_assoc, singleton_append]

end Removal

/-- A node at the end of a longest way. -/
theorem exists_deepest {α : Type*} {t : BTree α} (h : t ≠ .nil) :
    ∃ fs l a r, t = plug fs (.node l a r) ∧ fs.length + 1 = t.height := by
  induction t with
  | nil => exact absurd rfl h
  | node l a r ihl ihr =>
    rw [BTree.height]
    by_cases hle : r.height ≤ l.height
    · cases hl : l with
      | nil =>
        rw [hl, BTree.height] at hle
        exact ⟨[], .nil, a, r, rfl, by simp only [BTree.height, length_nil]; omega⟩
      | node _ _ _ =>
        obtain ⟨fs, l', b, r', hplug, hlength⟩ := ihl (by rw [hl]; exact nofun)
        refine ⟨fs ++ [⟨.left, a, r⟩], l', b, r', ?_, ?_⟩
        · rw [plug_append, ← hplug, hl]
          rfl
        · rw [← hl, length_append, length_singleton]
          omega
    · obtain ⟨fs, l', b, r', hplug, hlength⟩ := ihr (by rintro rfl; exact hle (Nat.zero_le _))
      refine ⟨fs ++ [⟨.right, a, l⟩], l', b, r', ?_, ?_⟩
      · rw [plug_append, ← hplug]
        rfl
      · rw [length_append, length_singleton]
        omega

/-! ### Search -/

section Search

variable {α : Type*}

/-- The way down from a place, as `dir` directs it at each node: to the node where it stops, or
to an empty place. -/
def descend (dir : α → Option Side) : BTree α → List (Frame α) → List (Frame α) × BTree α
  | .nil, fs => (fs, .nil)
  | .node l a r, fs =>
    match dir a with
    | none => (fs, .node l a r)
    | some .left => descend dir l (⟨.left, a, r⟩ :: fs)
    | some .right => descend dir r (⟨.right, a, l⟩ :: fs)

variable {dir : α → Option Side} {t : BTree α} {fs : List (Frame α)}

/-- The way down does not change the tree. -/
theorem plug_descend (dir : α → Option Side) (t : BTree α) (fs : List (Frame α)) :
    plug (descend dir t fs).1 (descend dir t fs).2 = plug fs t := by
  induction t generalizing fs with
  | nil => rfl
  | node l a r ihl ihr =>
    unfold descend
    split
    · rfl
    · exact ihl _
    · exact ihr _

theorem descend_side {f : Frame α} (h : f ∈ (descend dir t fs).1) : f ∈ fs ∨ dir f.node = some f.side := by
  induction t generalizing fs with
  | nil => exact .inl h
  | node l a r ihl ihr =>
    unfold descend at h
    split at h
    · exact .inl h
    · rename_i hdir
      rcases ihl h with h | h
      · rcases mem_cons.mp h with rfl | h
        · exact .inr hdir
        · exact .inl h
      · exact .inr h
    · rename_i hdir
      rcases ihr h with h | h
      · rcases mem_cons.mp h with rfl | h
        · exact .inr hdir
        · exact .inl h
      · exact .inr h

theorem descend_stop (dir : α → Option Side) (t : BTree α) (fs : List (Frame α)) :
    (descend dir t fs).2 = .nil ∨
    ∃ l a r, (descend dir t fs).2 = .node l a r ∧ dir a = none := by
  induction t generalizing fs with
  | nil => exact .inl rfl
  | node l a r ihl ihr =>
    unfold descend
    split
    · rename_i hdir
      exact .inr ⟨l, a, r, rfl, hdir⟩
    · exact ihl _
    · exact ihr _

/-- The directions at the nodes of a list agree: what stands before a node on the left of the place
looked for is on the left of it as well. -/
def Directed (dir : α → Option Side) (xs : List α) : Prop :=
  xs.Pairwise fun x y =>
    (dir y = some .right → dir x = some .right) ∧ (dir x = some .left → dir y = some .left)

/-- The way down leads between the nodes on its left and those on its right. -/
theorem Directed.between (directed : Directed dir (plug fs t).nodes)
    (way : ∀ f ∈ fs, dir f.node = some f.side) :
    (∀ x ∈ before fs, dir x = some .right) ∧ ∀ x ∈ after fs, dir x = some .left := by
  induction fs generalizing t with
  | nil => exact ⟨nofun, nofun⟩
  | cons f fs ih =>
    obtain ⟨hbefore, hafter⟩ := ih directed fun g hg => way g (.tail f hg)
    have hf := way f (.head _)
    have hfill : Directed dir (f.fill t).nodes := by
      have := directed
      rw [plug, nodes_plug, append_assoc] at this
      exact (pairwise_append.mp (pairwise_append.mp this).2.1).1
    obtain ⟨side, a, sib⟩ := f
    cases side with
    | left =>
      have hsib := (pairwise_cons.mp (pairwise_append.mp hfill).2.1).1
      exact ⟨hbefore, forall_mem_cons.mpr
        ⟨hf, forall_mem_append.mpr ⟨fun x hx => (hsib x hx).2 hf, hafter⟩⟩⟩
    | right =>
      have hsib := (pairwise_append.mp hfill).2.2
      exact ⟨forall_mem_append.mpr ⟨hbefore, forall_mem_append.mpr
        ⟨fun x hx => (hsib x hx a (.head _)).1 hf, forall_mem_singleton.mpr hf⟩⟩,
        hafter⟩

/-- The way down from the root, and the two places where it can end. -/
theorem descend_cases (dir : α → Option Side) (t : BTree α) :
    ∃ gs, (∀ f ∈ gs, dir f.node = some f.side) ∧
      ((descend dir t [] = (gs, .nil) ∧ t = plug gs .nil) ∨
        ∃ l a r, descend dir t [] = (gs, .node l a r) ∧ dir a = none ∧ t = plug gs (.node l a r)) := by
  have hplug := plug_descend dir t []
  refine ⟨(descend dir t []).1, fun f hf => (descend_side hf).resolve_left not_mem_nil, ?_⟩
  rcases descend_stop dir t [] with hnil | ⟨l, a, r, hnode, ha⟩
  · rw [hnil] at hplug
    exact .inl ⟨Prod.ext rfl hnil, hplug.symm⟩
  · rw [hnode] at hplug
    exact .inr ⟨l, a, r, Prod.ext rfl hnode, ha, hplug.symm⟩

theorem mem_plug_node (gs : List (Frame α)) (l : BTree α) (a : α) (r : BTree α) :
    a ∈ (plug gs (.node l a r)).nodes :=
  mem_nodes_plug.mpr (Or.inl (mem_append_right _ (.head _)))

/-- The way down passes every node that has a direction. -/
theorem Directed.dir_ne_none {gs : List (Frame α)} (directed : Directed dir (plug gs .nil).nodes)
    (way : ∀ f ∈ gs, dir f.node = some f.side) {a : α} (ha : a ∈ (plug gs .nil).nodes) :
    dir a ≠ none := by
  obtain ⟨hbefore, hafter⟩ := directed.between way
  rw [nodes_plug, BTree.nodes, append_nil, mem_append] at ha
  intro hnone
  rcases ha with ha | ha
  · cases (hbefore a ha).symm.trans hnone
  · cases (hafter a ha).symm.trans hnone

section Order

variable {κ : Type*} [LinearOrder κ] (key : α → κ)

/-- The direction of key `k` at a node. -/
def toward (k : κ) (a : α) : Option Side :=
  if k < key a then some .left else if key a < k then some .right else none

/-- A search tree: the keys increase from left to right. -/
def Sorted (t : BTree α) : Prop := t.nodes.Pairwise (key · < key ·)

variable {key} {k : κ} {a : α}

theorem toward_eq_left : toward key k a = some .left ↔ k < key a := by
  unfold toward
  split_ifs with h₁ h₂ <;> simp [h₁]

theorem toward_eq_right : toward key k a = some .right ↔ key a < k := by
  unfold toward
  split_ifs with h₁ h₂
  · simp [le_of_lt h₁]
  · simp [h₂]
  · simp [h₂]

theorem toward_eq_none : toward key k a = none ↔ key a = k := by
  unfold toward
  split_ifs with h₁ h₂
  · simp [ne_of_gt h₁]
  · simp [ne_of_lt h₂]
  · simp [le_antisymm (not_lt.mp h₁) (not_lt.mp h₂)]

section

variable (sorted : Sorted key t)
include sorted

theorem Sorted.nodup_map : (t.nodes.map key).Nodup :=
  pairwise_map.mpr (sorted.imp fun h => ne_of_lt h)

theorem Sorted.nodup : t.nodes.Nodup := sorted.nodup_map.of_map key

theorem Sorted.eq_of_key {b : α} (ha : a ∈ t.nodes) (hb : b ∈ t.nodes) (h : key a = key b) :
    a = b :=
  inj_on_of_nodup_map sorted.nodup_map ha hb h

theorem Sorted.directed (k : κ) : Directed (toward key k) t.nodes :=
  sorted.imp fun hlt => ⟨fun hy => toward_eq_right.mpr (lt_trans hlt (toward_eq_right.mp hy)),
    fun hx => toward_eq_left.mpr (lt_trans (toward_eq_left.mp hx) hlt)⟩

end

/-- The way of a key leads between the smaller and the larger ones. -/
theorem Sorted.between (sorted : Sorted key (plug fs t))
    (way : ∀ f ∈ fs, toward key k f.node = some f.side) :
    (∀ x ∈ before fs, key x < k) ∧ ∀ x ∈ after fs, k < key x := by
  obtain ⟨hbefore, hafter⟩ := (sorted.directed k).between way
  exact ⟨fun x hx => toward_eq_right.mp (hbefore x hx), fun x hx => toward_eq_left.mp (hafter x hx)⟩

/-- The nodes above a key direct the search to it. -/
theorem Sorted.way (sorted : Sorted key (plug fs t)) (ha : a ∈ t.nodes) :
    ∀ f ∈ fs, toward key (key a) f.node = some f.side := by
  induction fs generalizing t with
  | nil => exact nofun
  | cons f fs ih =>
    have hfill : Sorted key (f.fill t) := by
      have := sorted
      rw [Sorted, plug, nodes_plug, append_assoc] at this
      exact (pairwise_append.mp (pairwise_append.mp this).2.1).1
    have hrest : ∀ g ∈ fs, toward key (key a) g.node = some g.side := by
      refine ih sorted ?_
      obtain ⟨side, b, sib⟩ := f
      cases side with
      | left => exact mem_append_left _ ha
      | right => exact mem_append_right _ (.tail b ha)
    intro g hg
    rcases mem_cons.mp hg with rfl | hg
    · obtain ⟨side, b, sib⟩ := g
      cases side with
      | left => exact toward_eq_left.mpr ((pairwise_append.mp hfill).2.2 a ha b (.head _))
      | right =>
        exact toward_eq_right.mpr ((pairwise_cons.mp (pairwise_append.mp hfill).2.1).1 a ha)
    · exact hrest g hg

/-- A new node at the end of its way. -/
theorem Sorted.insert (sorted : Sorted key (plug fs .nil))
    (way : ∀ f ∈ fs, toward key (key a) f.node = some f.side) :
    Sorted key (plug fs (.node .nil a .nil)) := by
  obtain ⟨hbefore, hafter⟩ := sorted.between way
  rw [Sorted, nodes_plug, BTree.nodes, append_nil, pairwise_append] at sorted
  obtain ⟨hl, hr, hlr⟩ := sorted
  rw [Sorted, nodes_plug, append_assoc, pairwise_append]
  exact ⟨hl, pairwise_cons.mpr ⟨hafter, hr⟩,
    fun x hx => forall_mem_cons.mpr ⟨hbefore x hx, hlr x hx⟩⟩

end Order

end Search

/-! ### Links -/

/-- The two links of every node. -/
abbrev Links (α : Type*) := α → Side → Option α

section Links

variable {α : Type*} [DecidableEq α]

/-- Store `p` in one link. -/
def Links.set (links : Links α) (a : α) (s : Side) (p : Option α) : Links α :=
  fun b s' => if b = a ∧ s' = s then p else links b s'

variable {links : Links α} {a b : α} {s s' : Side} {p : Option α}

@[simp] theorem Links.set_self : links.set a s p a s = p := if_pos ⟨rfl, rfl⟩

theorem Links.set_of_node_ne (h : b ≠ a) : links.set a s p b = links b :=
  funext fun _ => if_neg fun h' => h h'.1

theorem Links.set_of_side_ne (h : s' ≠ s) : links.set a s p b s' = links b s' :=
  if_neg fun h' => h h'.2

end Links

section Points

variable {α : Type*}

inductive Points (links : Links α) : Option α → BTree α → Prop where
  | nil : Points links none .nil
  | node {l r : BTree α} {a : α} (hl : Points links (links a .left) l)
      (hr : Points links (links a .right) r) : Points links (some a) (.node l a r)

/-- The link at the end of the way along `fs`. -/
def Hole (links : Links α) (root : Option α) : List (Frame α) → Option α → Prop
  | [], p => p = root
  | f :: fs, p => links f.node f.side = p ∧ Points links (links f.node f.side.flip) f.sib ∧
      Hole links root fs (some f.node)

variable {links links' : Links α} {root p : Option α} {t : BTree α} {fs : List (Frame α)}

theorem points_none : Points links none t ↔ t = .nil := by
  constructor
  · intro h
    cases h
    rfl
  · rintro rfl
    exact .nil

theorem points_some {a : α} : Points links (some a) t ↔
    ∃ l r, t = .node l a r ∧ Points links (links a .left) l ∧ Points links (links a .right) r := by
  constructor
  · intro h
    cases h with
    | node hl hr => exact ⟨_, _, rfl, hl, hr⟩
  · rintro ⟨l, r, rfl, hl, hr⟩
    exact .node hl hr

theorem points_nil : Points links p .nil ↔ p = none := by
  constructor
  · intro h
    cases h
    rfl
  · rintro rfl
    exact .nil

theorem points_node {l r : BTree α} {a : α} : Points links p (.node l a r) ↔
    p = some a ∧ Points links (links a .left) l ∧ Points links (links a .right) r := by
  constructor
  · intro h
    cases h with
    | node hl hr => exact ⟨rfl, hl, hr⟩
  · rintro ⟨rfl, hl, hr⟩
    exact .node hl hr

theorem mem_of_points {l : Links α} {a : α} (h : Points l (some a) t) : a ∈ t.nodes := by
  obtain ⟨l, r, rfl, -, -⟩ := points_some.mp h
  exact mem_append_right _ (.head _)

theorem points_fill {f : Frame α} : Points links p (f.fill t) ↔
    p = some f.node ∧ Points links (links f.node f.side) t ∧
      Points links (links f.node f.side.flip) f.sib := by
  obtain ⟨side, a, sib⟩ := f
  cases side with
  | left => exact points_node
  | right => exact points_node.trans (and_congr_right fun _ => and_comm)

/-- A linked tree, taken apart at a place. -/
theorem points_plug : Points links root (plug fs t) ↔ ∃ p, Hole links root fs p ∧ Points links p t := by
  induction fs generalizing t with
  | nil =>
    constructor
    · exact fun h => ⟨root, rfl, h⟩
    · rintro ⟨p, rfl, h⟩
      exact h
  | cons f fs ih =>
    rw [plug, ih]
    constructor
    · rintro ⟨p, hole, h⟩
      obtain ⟨rfl, ht, hsib⟩ := points_fill.mp h
      exact ⟨_, ⟨rfl, hsib, hole⟩, ht⟩
    · rintro ⟨p, ⟨rfl, hsib, hole⟩, ht⟩
      exact ⟨_, hole, points_fill.mpr ⟨rfl, ht, hsib⟩⟩

theorem hole_append {gs : List (Frame α)} : Hole links root (fs ++ gs) p ↔
    ∃ q, Hole links q fs p ∧ Hole links root gs q := by
  induction fs generalizing p with
  | nil =>
    constructor
    · exact fun h => ⟨p, rfl, h⟩
    · rintro ⟨q, rfl, h⟩
      exact h
  | cons f fs ih =>
    rw [cons_append, Hole, ih]
    constructor
    · rintro ⟨hp, hsib, q, hole, rest⟩
      exact ⟨q, ⟨hp, hsib, hole⟩, rest⟩
    · rintro ⟨q, ⟨hp, hsib, hole⟩, rest⟩
      exact ⟨hp, hsib, q, hole, rest⟩

/-- Links outside of a tree do not matter. -/
theorem Points.congr (h : Points links p t) (same : ∀ a ∈ t.nodes, links' a = links a) :
    Points links' p t := by
  induction h with
  | nil => exact .nil
  | @node l r a hl hr ihl ihr =>
    have ha : links' a = links a := same a (mem_append_right _ (.head _))
    refine .node ?_ ?_
    · rw [ha]
      exact ihl fun b hb => same b (mem_append_left _ hb)
    · rw [ha]
      exact ihr fun b hb => same b (mem_append_right _ (.tail a hb))

theorem Hole.congr (h : Hole links root fs p) (same : ∀ a ∈ around fs, links' a = links a) :
    Hole links' root fs p := by
  induction fs generalizing p with
  | nil => exact h
  | cons f fs ih =>
    obtain ⟨hp, hsib, hole⟩ := h
    have hf : links' f.node = links f.node := same _ (mem_around_cons.mpr (.inl rfl))
    refine ⟨by rw [hf]; exact hp, ?_, ih hole fun a ha => same a (mem_around_cons.mpr (.inr (.inr ha)))⟩
    rw [hf]
    exact hsib.congr fun a ha => same a (mem_around_cons.mpr (.inr (.inl ha)))

/-- Storing a pointer in the link at the end of the way. -/
theorem Hole.set [DecidableEq α] {f : Frame α} (h : Hole links root (f :: fs) p)
    (nodup : (around (f :: fs)).Nodup) (q : Option α) :
    Hole (links.set f.node f.side q) root (f :: fs) q := by
  obtain ⟨hsib, haround, -, -, -⟩ := nodup_around_cons.mp nodup
  obtain ⟨-, hpoints, hole⟩ := h
  refine ⟨Links.set_self, ?_, hole.congr fun a ha => Links.set_of_node_ne fun h => haround (h ▸ ha)⟩
  rw [Links.set_of_side_ne (by cases f.side <;> decide)]
  exact hpoints.congr fun a ha => Links.set_of_node_ne fun h => hsib (h ▸ ha)

end Points

end Coda.Lib
