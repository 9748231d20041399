import Coda.Lib.Run
import Coda.Util.BstreeWalk

/-!
Runs of insertions and removals on a binary search tree.

The nodes are ordered by the comparison function and, where this calls them equal, by their
addresses; `Rank` makes a linear order of it.
-/

namespace Coda.Util

open Coda.Lib List Option Function Links

/-! ### The order -/

/-- A comparison function that is a total preorder. -/
class TotalPreorder {α : Type} (cmp : α → α → Int) : Prop where
  flip : ∀ a b, cmp a b < 0 ↔ 0 < cmp b a
  trans : ∀ a b c, cmp a b ≤ 0 → cmp b c ≤ 0 → cmp a c ≤ 0

/-- The place of a node in the order of comparison and address. -/
@[ext] structure Rank {α : Type} (cmp : α → α → Int) where
  addr : α

section Order

variable {α : Type} [LinearOrder α] {cmp : α → α → Int}

/-- The order of comparison and address. -/
def Before (cmp : α → α → Int) (a b : α) : Prop := cmp a b < 0 ∨ (cmp a b = 0 ∧ a < b)

variable [TotalPreorder cmp]

section Laws

omit [LinearOrder α]

theorem cmp_flip (cmp : α → α → Int) [TotalPreorder cmp] (a b : α) : cmp a b < 0 ↔ 0 < cmp b a :=
  TotalPreorder.flip a b

theorem cmp_trans (cmp : α → α → Int) [TotalPreorder cmp] (a b c : α) (hab : cmp a b ≤ 0)
    (hbc : cmp b c ≤ 0) : cmp a c ≤ 0 :=
  TotalPreorder.trans a b c hab hbc

theorem cmp_self (a : α) : cmp a a = 0 := by
  have := cmp_flip cmp a a
  omega

end Laws

/-- A node with its rank. -/
def rank (cmp : α → α → Int) (a : α) : Rank cmp := ⟨a⟩

instance : LinearOrder (Rank cmp) where
  le a b := cmp a.addr b.addr < 0 ∨ (cmp a.addr b.addr = 0 ∧ a.addr ≤ b.addr)
  lt a b := Before cmp a.addr b.addr
  le_refl a := Or.inr ⟨cmp_self a.addr, le_refl _⟩
  le_trans a b c hab hbc := by
    have flip := cmp_flip cmp
    have h₁ := cmp_trans cmp a.addr b.addr c.addr
    have h₂ := cmp_trans cmp c.addr a.addr b.addr
    have h₃ := cmp_trans cmp b.addr c.addr a.addr
    have := flip a.addr b.addr
    have := flip b.addr a.addr
    have := flip b.addr c.addr
    have := flip c.addr b.addr
    have := flip a.addr c.addr
    have := flip c.addr a.addr
    by_cases hac : cmp a.addr c.addr = 0
    · refine .inr ⟨hac, le_trans (b := b.addr) ?_ ?_⟩
      · rcases hab with h | ⟨-, h⟩
        · omega
        · exact h
      · rcases hbc with h | ⟨-, h⟩
        · omega
        · exact h
    · exact .inl (by omega)
  le_antisymm a b hab hba := by
    have := cmp_flip cmp a.addr b.addr
    have := cmp_flip cmp b.addr a.addr
    rcases hab with h | ⟨h, h'⟩
    · omega
    · rcases hba with hb | ⟨-, hb⟩
      · omega
      · exact Rank.ext (le_antisymm h' hb)
  le_total a b := by
    have := cmp_flip cmp a.addr b.addr
    have := cmp_flip cmp b.addr a.addr
    rcases le_total a.addr b.addr with h | h
    · by_cases hlt : cmp b.addr a.addr < 0
      · exact .inr (.inl hlt)
      · by_cases hzero : cmp a.addr b.addr = 0
        · exact .inl (.inr ⟨hzero, h⟩)
        · exact .inl (.inl (by omega))
    · by_cases hlt : cmp a.addr b.addr < 0
      · exact .inl (.inl hlt)
      · by_cases hzero : cmp b.addr a.addr = 0
        · exact .inr (.inr ⟨hzero, h⟩)
        · exact .inr (.inl (by omega))
  lt_iff_le_not_ge a b := by
    have := cmp_flip cmp a.addr b.addr
    have := cmp_flip cmp b.addr a.addr
    unfold Before
    constructor
    · rintro (h | ⟨h, h'⟩)
      · exact ⟨.inl h, by omega⟩
      · refine ⟨.inr ⟨h, h'.le⟩, ?_⟩
        rintro (hb | ⟨-, hb⟩)
        · omega
        · exact absurd h' (not_lt.mpr hb)
    · rintro ⟨h | ⟨h, h'⟩, hnot⟩
      · exact .inl h
      · refine .inr ⟨h, lt_of_not_ge fun hba => hnot (.inr ⟨by omega, hba⟩)⟩
  toDecidableLE a b := inferInstanceAs (Decidable (_ ∨ _))

variable {a b : α}

theorem rank_lt : (⟨a⟩ : Rank cmp) < ⟨b⟩ ↔ Before cmp a b := Iff.rfl

theorem breakTie_left (h : toward (rank cmp) (rank cmp b) a = some .left) :
    breakTie cmp b a < 0 := by
  have hlt := rank_lt.mp (toward_eq_left.mp h)
  unfold breakTie
  rcases hlt with h | ⟨h, h'⟩
  · rw [if_neg (by omega)]
    exact h
  · rw [if_pos h, if_neg (not_lt.mpr h'.le), if_pos h']
    decide

theorem breakTie_right (h : toward (rank cmp) (rank cmp b) a = some .right) :
    0 < breakTie cmp b a := by
  have hlt := rank_lt.mp (toward_eq_right.mp h)
  have := cmp_flip cmp a b
  have := cmp_flip cmp b a
  unfold breakTie
  rcases hlt with h | ⟨h, h'⟩
  · rw [if_neg (by omega)]
    omega
  · rw [if_pos (by omega), if_pos h']
    decide

omit [TotalPreorder cmp] in
theorem not_outOfOrder (h : Before cmp a b) : ¬outOfOrder cmp a b := by
  unfold outOfOrder
  rcases h with h | ⟨h, h'⟩
  · omega
  · rintro (hb | ⟨-, hb⟩)
    · omega
    · exact absurd h' (not_lt.mpr hb)

end Order

/-! ### insert -/

section Insert

variable {α τ : Type} [LinearOrder α] {cmp : α → α → Int} [TotalPreorder cmp] {t : Bstree α τ}
  {b : α}

/-- The search ends at an empty link and stores the node there. -/
theorem insertLoop_spec (cmp : α → α → Int) [TotalPreorder cmp] (fs : List (Frame α)) {T : BTree α} {a : α} {fuel : Nat}
    (hp : Points t.child (some a) T) (hb : b ∉ T.nodes) (hfuel : T.height ≤ fuel) :
    ∃ f gs, descend (toward (rank cmp) (rank cmp b)) T fs = (f :: gs, .nil) ∧
      insertLoop cmp t b fuel a = some ((t.setParent b (some f.node)).setChild f.node f.side (some b)) := by
  induction T generalizing a fs fuel with
  | nil => exact absurd (points_nil.mp hp) (by simp)
  | node l c r ihl ihr =>
    obtain ⟨hc, hl, hr⟩ := points_node.mp hp
    obtain rfl := some.inj hc
    rw [BTree.height] at hfuel
    obtain ⟨fuel, rfl⟩ : ∃ n, fuel = n + 1 := ⟨fuel - 1, by omega⟩
    have hbl : b ∉ l.nodes := fun h => hb (mem_append_left _ h)
    have hbr : b ∉ r.nodes := fun h => hb (mem_append_right _ (mem_cons_of_mem a h))
    -- one step to side `s`
    have step : ∀ s U sib, Points t.child (t.child a s) U →
        breakTie cmp b a ≠ 0 → (if breakTie cmp b a < 0 then Side.left else .right) = s →
        let Ends := fun out => ∃ f gs,
          descend (toward (rank cmp) (rank cmp b)) U (⟨s, a, sib⟩ :: fs) = (f :: gs, .nil) ∧
          out = some ((t.setParent b (some f.node)).setChild f.node f.side (some b))
        (∀ d, t.child a s = some d → Ends (insertLoop cmp t b fuel d)) →
          Ends (insertLoop cmp t b (fuel + 1) a) := by
      intro s U sib hU hne hs Ends ih
      rw [insertLoop]
      dsimp only
      rw [if_neg hne, hs]
      cases hd : t.child a s with
      | none =>
        rw [hd] at hU
        obtain rfl := points_none.mp hU
        exact ⟨⟨s, a, sib⟩, fs, rfl, rfl⟩
      | some d => exact ih d hd
    cases hdir : toward (rank cmp) (rank cmp b) a with
    | none =>
      have heq : (⟨a⟩ : Rank cmp) = ⟨b⟩ := toward_eq_none.mp hdir
      obtain rfl : a = b := congrArg Rank.addr heq
      exact absurd (mem_append_right _ mem_cons_self) hb
    | some s =>
      rw [descend, hdir]
      cases s with
      | left =>
        have hlt := breakTie_left hdir
        exact step .left l r hl (by omega) (if_pos hlt) fun d hd =>
          ihl _ (hd ▸ hl) hbl (by omega)
      | right =>
        have hgt := breakTie_right hdir
        exact step .right r l hr (by omega) (if_neg (by omega)) fun d hd =>
          ihr _ (hd ▸ hr) hbr (by omega)

/-- The new node, linked in both directions. -/
theorem link_spec {f : Frame α} {gs : List (Frame α)} (linked : Linked t (plug (f :: gs) .nil))
    (nodup : (plug (f :: gs) .nil).nodes.Nodup) (hb : b ∉ (plug (f :: gs) .nil).nodes)
    (hchild : ∀ s, t.child b s = none) :
    Linked ((t.setParent b (some f.node)).setChild f.node f.side (some b))
      (plug (f :: gs) (.node .nil b .nil)) := by
  obtain ⟨p, place, -⟩ := linked_plug.mp linked
  obtain ⟨hnodup, -, -⟩ := nodup_plug.mp nodup
  have hbfs : b ∉ around (f :: gs) := fun h => hb (mem_nodes_plug.mpr (.inr h))
  have hbf : b ≠ f.node := fun h => hbfs (mem_around_cons.mpr (.inl h))
  have hlink : ∀ s, (t.child.set f.node f.side (some b)) b s = none := fun s =>
    (congrFun (set_of_node_ne hbf) s).trans (hchild s)
  refine linked_plug.mpr ⟨some b, ⟨place.hole.set hnodup (some b), place.path.congr fun x hx => ?_⟩, ?_, ?_⟩
  · exact update_of_ne (fun h : x = b => hbfs (h ▸ hx)) _ _
  · exact points_node.mpr ⟨rfl, points_nil.mpr (hlink _), points_nil.mpr (hlink _)⟩
  · exact ⟨update_self _ _ _, trivial, trivial⟩

theorem attach_spec (cmp : α → α → Int) [TotalPreorder cmp] {T : BTree α} (linked : Linked t T) (nodup : T.nodes.Nodup) (hbound : T.height ≤ t.bound)
    (hb : b ∉ T.nodes) (hparent : t.parent b = none) (hchild : ∀ s, t.child b s = none) :
    ∃ t' fs, attach cmp t b = some t' ∧ plug fs .nil = T ∧
      (∀ f ∈ fs, toward (rank cmp) (rank cmp b) f.node = some f.side) ∧
      Linked t' (plug fs (.node .nil b .nil)) ∧ Frozen t t' (b :: T.nodes) := by
  have hpoints := linked.points
  unfold attach
  cases hroot : t.root with
  | none =>
    rw [hroot] at hpoints
    obtain rfl := points_none.mp hpoints
    refine ⟨_, [], rfl, rfl, fun f hf => absurd hf not_mem_nil, ⟨?_, hparent, trivial, trivial⟩,
      ⟨rfl, rfl, rfl⟩, fun _ _ => rfl, fun _ _ => rfl⟩
    exact points_node.mpr ⟨rfl, points_nil.mpr (hchild _), points_nil.mpr (hchild _)⟩
  | some root =>
    rw [hroot] at hpoints
    obtain ⟨f, gs, hdescend, hrun⟩ := insertLoop_spec cmp [] hpoints hb hbound
    have hplug := plug_descend (toward (rank cmp) (rank cmp b)) T []
    have hway : ∀ g ∈ (descend (toward (rank cmp) (rank cmp b)) T []).1,
        toward (rank cmp) (rank cmp b) g.node = some g.side := fun g hg =>
      (descend_side hg).resolve_left not_mem_nil
    rw [hdescend] at hplug hway
    obtain rfl : plug (f :: gs) .nil = T := hplug
    refine ⟨_, f :: gs, hrun, rfl, hway, link_spec linked nodup hb hchild, ⟨rfl, rfl, rfl⟩,
      fun y hy => ?_, fun y hy => ?_⟩
    · refine set_of_node_ne fun h => hy (mem_cons_of_mem b ?_)
      exact mem_nodes_plug.mpr (.inr (mem_around_cons.mpr (.inl h)))
    · exact update_of_ne (fun h : y = b => hy (h ▸ mem_cons_self)) _ _

end Insert

/-! ### Runs -/

section Runs

variable {α τ : Type} [LinearOrder α] {cmp : α → α → Int}

inductive BstOp (α : Type) where
  | insert (b : α)
  | remove (b : α)
  | get (s : Side)

/-- A tree, with the nodes that were inserted and not yet removed. -/
structure BstTrace (α τ : Type) where
  tree : Bstree α τ
  live : Finset α

def BstOp.run [DecidableEq τ] (cmp : α → α → Int) (s : BstTrace α τ) : BstOp α → Option (BstTrace α τ)
  | .insert b => (Util.insert cmp s.tree b).map fun t => ⟨t, Insert.insert b s.live⟩
  | .remove b => (Util.remove s.tree b).map fun x => ⟨x.2, s.live.erase b⟩
  | .get side => (Util.get s.tree side).map fun x => ⟨x.2, x.1.elim s.live s.live.erase⟩

/-- A node is inserted while it is on no tree; otherwise the source aborts. -/
def BstOp.Allowed (s : BstTrace α τ) : BstOp α → Prop
  | .insert b => s.tree.mytree b = none
  | _ => True

instance (s : BstTrace α τ) (op : BstOp α) : Decidable (op.Allowed s) := by
  cases op <;> unfold BstOp.Allowed <;> infer_instance

/-- The pointers of nodes that are on no tree are 0, as the constructor leaves them. -/
def Idle (t : Bstree α τ) : Prop :=
  ∀ a, t.mytree a = none → t.parent a = none ∧ ∀ s, t.child a s = none

/-- The tree holds exactly the live nodes. -/
structure BstInv (cmp : α → α → Int) [TotalPreorder cmp] (s : BstTrace α τ) (T : BTree α) : Prop where
  linked : Linked s.tree T
  sorted : Sorted (rank cmp) T
  live : ∀ a, a ∈ T.nodes ↔ a ∈ s.live
  owned : ∀ a, s.tree.mytree a = some s.tree.this ↔ a ∈ s.live
  cnt : s.tree.cnt = T.nodes.length
  idle : Idle s.tree

variable [TotalPreorder cmp] {s : BstTrace α τ} {T : BTree α} {b : α}

section

variable (inv : BstInv cmp s T)
include inv

theorem BstInv.bound : T.height ≤ s.tree.bound := by
  have := T.height_le_length
  rw [Bstree.bound, inv.cnt]
  omega

theorem BstInv.tree (b : α) : Util.tree s.tree b = some (s.tree.mytree b) := by
  refine if_neg ?_
  rintro ⟨hnone, hptr⟩
  obtain ⟨hparent, hchild⟩ := inv.idle b hnone
  rw [hparent, hchild, hchild] at hptr
  simp at hptr

theorem BstInv.insert [DecidableEq τ] (allowed : s.tree.mytree b = none) :
    ∃ s', (BstOp.insert b).run cmp s = some s' ∧ ∃ T', BstInv cmp s' T' := by
  obtain ⟨hparent, hchild⟩ := inv.idle b allowed
  have hblive : b ∉ s.live := fun h => by
    have := (inv.owned b).mpr h
    rw [allowed] at this
    cases this
  have hbT : b ∉ T.nodes := fun h => hblive ((inv.live b).mp h)
  obtain ⟨t', fs, hrun, hT, hway, hlinked, hfrozen⟩ :=
    attach_spec cmp inv.linked inv.sorted.nodup inv.bound hbT hparent hchild
  subst hT
  have hnodes : (plug fs (.node .nil b .nil)).nodes.Perm (b :: (plug fs .nil).nodes) := by
    rw [nodes_plug, nodes_plug, BTree.nodes, append_nil, append_assoc]
    exact perm_middle
  refine ⟨⟨{ t' with mytree := Function.update t'.mytree b (some t'.this), cnt := t'.cnt + 1 },
    Insert.insert b s.live⟩, ?_, plug fs (.node .nil b .nil), ⟨⟨hlinked.points, hlinked.parents⟩,
    inv.sorted.insert hway, fun a => ?_, fun a => ?_, ?_, fun a ha => ?_⟩⟩
  · rw [BstOp.run, Util.insert, inv.tree, allowed, bind_eq_bind, bind_some, if_neg (by simp),
      hrun]
    rfl
  · rw [hnodes.mem_iff, mem_cons, Finset.mem_insert, inv.live]
  · dsimp only
    rw [Finset.mem_insert, ← inv.owned, hfrozen.mytree, hfrozen.this]
    by_cases hab : a = b
    · subst hab
      simp
    · rw [update_of_ne hab]
      simp [hab]
  · dsimp only
    rw [hfrozen.cnt, inv.cnt, hnodes.length_eq]
    rfl
  · dsimp only at ha
    have hab : a ≠ b := by
      rintro rfl
      rw [update_self] at ha
      cases ha
    rw [update_of_ne hab, hfrozen.mytree] at ha
    have haT : a ∉ b :: (plug fs .nil).nodes := by
      rw [mem_cons, inv.live, ← inv.owned, ha]
      simp [hab]
    obtain ⟨hp, hc⟩ := inv.idle a ha
    exact ⟨(hfrozen.parent a haT).trans hp, fun side => (congrFun (hfrozen.child a haT) side).trans (hc side)⟩

/-- A node that left the tree is cleared. -/
theorem BstInv.leave {t' : Bstree α τ} {T' : BTree α} (linked : Linked t' T')
    (hremoved : Removed b T.nodes T'.nodes) (hfrozen : Frozen s.tree t' T.nodes) :
    BstInv cmp ⟨{ zeroNode t' b with cnt := (zeroNode t' b).cnt - 1 }, s.live.erase b⟩ T' := by
  have hnodup := inv.sorted.nodup
  have hbT' : b ∉ T'.nodes := fun h => ((hremoved.mem_iff hnodup).mp h).1 rfl
  have hne : ∀ a ∈ T'.nodes, a ≠ b := fun a ha h => hbT' (h ▸ ha)
  have hchild : ∀ a, a ≠ b → (zeroNode t' b).child a = t'.child a := fun a ha => by
    simp only [zeroNode, set_of_node_ne ha]
  have hparent : ∀ a, a ≠ b → (zeroNode t' b).parent a = t'.parent a := fun a ha =>
    update_of_ne ha _ _
  have hmytree : ∀ a, a ≠ b → (zeroNode t' b).mytree a = s.tree.mytree a := fun a ha =>
    (update_of_ne ha _ _).trans (congrFun hfrozen.mytree a)
  refine ⟨⟨?_, ?_⟩, inv.sorted.sublist hremoved.sublist, fun a => ?_, fun a => ?_, ?_, fun a ha => ?_⟩
  · exact linked.points.congr fun a ha => hchild a (hne a ha)
  · exact linked.parents.congr fun a ha => hparent a (hne a ha)
  · rw [hremoved.mem_iff hnodup, Finset.mem_erase, inv.live]
  · rw [Finset.mem_erase, ← inv.owned]
    by_cases hab : a = b
    · subst hab
      rw [show (zeroNode t' a).mytree a = none from update_self _ _ _]
      simp
    · dsimp only
      rw [hmytree a hab, show (zeroNode t' b).this = s.tree.this from hfrozen.this]
      simp [hab]
  · have hcnt : (zeroNode t' b).cnt = T.nodes.length := hfrozen.cnt.trans inv.cnt
    have := hremoved.length
    dsimp only
    omega
  · by_cases hab : a = b
    · subst hab
      refine ⟨update_self _ _ _, ?_⟩
      rintro (_ | _)
      · exact (set_of_side_ne (by decide)).trans set_self
      · exact set_self
    · dsimp only at ha
      rw [hmytree a hab] at ha
      have haT : a ∉ T.nodes := by
        rw [inv.live, ← inv.owned, ha]
        simp
      obtain ⟨hp, hc⟩ := inv.idle a ha
      refine ⟨(hparent a hab).trans ((hfrozen.parent a haT).trans hp), fun side => ?_⟩
      exact (congrFun (hchild a hab) side).trans ((congrFun (hfrozen.child a haT) side).trans (hc side))

theorem BstInv.remove [DecidableEq τ] (b : α) :
    ∃ s', (BstOp.remove b).run cmp s = some s' ∧ ∃ T', BstInv cmp s' T' := by
  rw [BstOp.run, Util.remove, inv.tree, bind_eq_bind, bind_some]
  by_cases hmem : s.tree.mytree b = some s.tree.this
  · rw [if_neg (not_not.mpr hmem)]
    have hbT : b ∈ T.nodes := (inv.live b).mpr ((inv.owned b).mp hmem)
    obtain ⟨fs, l, r, rfl⟩ := exists_place hbT
    have hbound := inv.bound
    rw [height_plug] at hbound
    have := length_le_outHeight fs (BTree.node l b r).height
    rw [BTree.height] at hbound this
    obtain ⟨t', T', hrun, hlinked, hremoved, hfrozen⟩ :=
      unplug_spec inv.linked inv.sorted.nodup (by omega)
    refine ⟨_, ?_, T', inv.leave hlinked hremoved hfrozen⟩
    rw [hrun]
    rfl
  · rw [if_pos hmem]
    have hblive : b ∉ s.live := fun h => hmem ((inv.owned b).mpr h)
    refine ⟨_, rfl, T, ?_⟩
    rw [Finset.erase_eq_of_notMem hblive]
    exact inv

/-- `get` takes the first node of a walk away from the side. -/
theorem BstInv.get (side : Side) :
    ∃ r t', Util.get s.tree side = some (r, t') ∧ r = (inOrder side.flip T).head? ∧
      ∃ T', BstInv cmp ⟨t', r.elim s.live s.live.erase⟩ T' := by
  have hpoints := inv.linked.points
  unfold Util.get
  cases hroot : s.tree.root with
  | none =>
    rw [hroot] at hpoints
    obtain rfl := points_none.mp hpoints
    exact ⟨none, s.tree, rfl, by cases side <;> rfl, .nil, inv⟩
  | some root =>
    rw [hroot] at hpoints
    obtain ⟨ws, cur, W, hrun, hT, hside⟩ := extremeLoop_spec (s := side) hpoints inv.bound
    subst hT
    have hhead : ∃ ys, inOrder side.flip (plug (⟨side, cur, W⟩ :: ws) .nil) = cur :: ys := by
      cases side with
      | left => exact inOrder_extreme hside
      | right => exact inOrder_extreme hside
    -- one side of the node is empty
    obtain ⟨hlinked, hremoved, hfrozen⟩ :
        Linked (splice s.tree cur (s.tree.child cur side.flip)) (plug ws W) ∧
        Removed cur (plug (⟨side, cur, W⟩ :: ws) .nil).nodes (plug ws W).nodes ∧
        Frozen s.tree (splice s.tree cur (s.tree.child cur side.flip))
          (plug (⟨side, cur, W⟩ :: ws) .nil).nodes := by
      obtain ⟨q, -, hcur⟩ := linked_plug (w := ws).mp inv.linked
      obtain ⟨rfl, -, hW⟩ := points_fill.mp hcur.points
      obtain ⟨-, -, hparW⟩ := parents_fill.mp hcur.parents
      cases side with
      | left =>
        exact splice_removed inv.linked inv.sorted.nodup ⟨hW, hparW⟩
          ⟨[], W.nodes, rfl, rfl⟩
      | right =>
        exact splice_removed inv.linked inv.sorted.nodup ⟨hW, hparW⟩
          ⟨W.nodes, [], rfl, (append_nil _).symm⟩
    obtain ⟨ys, hys⟩ := hhead
    refine ⟨some cur, _, ?_, by rw [hys]; rfl, plug ws W, inv.leave hlinked hremoved hfrozen⟩
    dsimp only
    rw [extreme, hrun]
    rfl

/-! ### IsOrdered -/

theorem BstInv.before {p ys : List α} {x y : α} (h : T.nodes = p ++ x :: ys) (hy : y ∈ ys) :
    Before cmp x y := by
  have hsorted := inv.sorted
  rw [Sorted, h] at hsorted
  exact (pairwise_cons.mp (pairwise_append.mp hsorted).2.1).1 y hy

/-- The children of a node are on their sides of the order. -/
theorem BstInv.children {x : α} (hx : x ∈ T.nodes) :
    (∀ a ∈ s.tree.child x .left, Before cmp a x) ∧ ∀ a ∈ s.tree.child x .right, Before cmp x a := by
  obtain ⟨fs, l, r, rfl⟩ := exists_place hx
  obtain ⟨p, -, hangs⟩ := linked_plug.mp inv.linked
  obtain ⟨rfl, hl, hr⟩ := points_node.mp hangs.points
  have hsorted := inv.sorted
  rw [Sorted, nodes_plug, append_assoc] at hsorted
  have hnode := (pairwise_append.mp (pairwise_append.mp hsorted).2.1).1
  obtain ⟨-, hxr, hlx⟩ := pairwise_append.mp hnode
  constructor
  · intro a ha
    rw [mem_def.mp ha] at hl
    exact hlx a (mem_of_points hl) x mem_cons_self
  · intro a ha
    rw [mem_def.mp ha] at hr
    exact (pairwise_cons.mp hxr).1 a (mem_of_points hr)

theorem BstInv.isOrderedLoop {x : α} (pre : List α) {ys : List α} (fuel : Nat)
    (hpos : T.nodes = pre ++ x :: ys) (hfuel : ys.length < fuel) :
    isOrderedLoop cmp s.tree fuel (.inProgress x) (some x) = some true := by
  induction ys generalizing x pre fuel with
  | nil =>
    obtain ⟨fuel, rfl⟩ : ∃ n, fuel = n + 1 := ⟨fuel - 1, by omega⟩
    rw [Util.isOrderedLoop, next_spec (s := .right) inv.linked inv.sorted.nodup inv.bound hpos]
    rfl
  | cons y ys ih =>
    obtain ⟨fuel, rfl⟩ : ∃ n, fuel = n + 1 := ⟨fuel - 1, by omega⟩
    have hpos' : T.nodes = (pre ++ [x]) ++ y :: ys := by
      rw [hpos]
      simp
    have hy : y ∈ T.nodes := hpos' ▸ mem_append_right _ mem_cons_self
    obtain ⟨hleft, hright⟩ := inv.children hy
    have hrest := ih (pre ++ [x]) fuel hpos' (by simp at hfuel; omega)
    rw [Util.isOrderedLoop, next_spec (s := .right) inv.linked inv.sorted.nodup inv.bound hpos,
      List.head?_cons, bind_eq_bind, bind_some]
    dsimp only
    rw [if_neg, hrest]
    rintro (⟨a, ⟨⟩, hout⟩ | ⟨a, ha, hout⟩ | ⟨a, ha, hout⟩)
    · exact not_outOfOrder (inv.before hpos mem_cons_self) hout
    · exact not_outOfOrder (hleft a ha) hout
    · exact not_outOfOrder (hright a ha) hout

theorem BstInv.isOrdered : isOrdered cmp s.tree = some true := by
  have hfuel : s.tree.bound = T.nodes.length + 1 := by
    rw [Bstree.bound, inv.cnt]
    rfl
  rw [Util.isOrdered, hfuel, Util.isOrderedLoop, next_notStarted inv.linked inv.bound,
    bind_eq_bind, bind_some]
  cases hpos : T.nodes with
  | nil => rw [show inOrder .right T = [] from hpos]; rfl
  | cons x ys =>
    have hx : x ∈ T.nodes := hpos ▸ mem_cons_self
    obtain ⟨hleft, hright⟩ := inv.children hx
    have hrest := inv.isOrderedLoop [] (x :: ys).length hpos (by simp)
    rw [show inOrder .right T = x :: ys from hpos, List.head?_cons]
    dsimp only
    rw [if_neg, hrest]
    rintro (⟨a, ⟨⟩, hout⟩ | ⟨a, ha, hout⟩ | ⟨a, ha, hout⟩)
    · exact not_outOfOrder (hleft a ha) hout
    · exact not_outOfOrder (hright a ha) hout

end

/-! ### The whole run -/

/-- A tree as it is constructed, among nodes that are on no tree or on other ones. -/
structure Bstree.Fresh (t : Bstree α τ) : Prop where
  root : t.root = none
  cnt : t.cnt = 0
  others : ∀ a, t.mytree a ≠ some t.this
  idle : Idle t

theorem Bstree.Fresh.inv {t : Bstree α τ} (fresh : t.Fresh) : BstInv cmp ⟨t, ∅⟩ .nil where
  linked := ⟨fresh.root ▸ .nil, trivial⟩
  sorted := List.Pairwise.nil
  live := fun a => iff_of_false not_mem_nil (Finset.notMem_empty a)
  owned := fun a => iff_of_false (fresh.others a) (Finset.notMem_empty a)
  cnt := fresh.cnt
  idle := fresh.idle

theorem BstOp.run_spec [DecidableEq τ] {op : BstOp α} (inv : ∃ T, BstInv cmp s T) (allowed : op.Allowed s) :
    ∃ s', op.run cmp s = some s' ∧ ∃ T, BstInv cmp s' T := by
  obtain ⟨T, inv⟩ := inv
  cases op with
  | insert b => exact inv.insert allowed
  | remove b => exact inv.remove b
  | get side =>
    obtain ⟨r, t', hrun, -, inv'⟩ := inv.get side
    exact ⟨_, by rw [BstOp.run, hrun]; rfl, inv'⟩

/-- What `get` returns: the node that comes first on one side of the order. -/
def First (cmp : α → α → Int) (side : Side) (live : Finset α) : Option α → Prop
  | none => live = ∅
  | some b => b ∈ live ∧ ∀ a ∈ live, a ≠ b → match side with
    | .left => Before cmp b a
    | .right => Before cmp a b

theorem BstInv.first (inv : BstInv cmp s T) (side : Side) :
    First cmp side s.live (inOrder side.flip T).head? := by
  have hmem : ∀ a, a ∈ inOrder side.flip T ↔ a ∈ s.live := fun a => mem_inOrder.trans (inv.live a)
  cases hpos : inOrder side.flip T with
  | nil =>
    rw [hpos] at hmem
    exact Finset.eq_empty_of_forall_notMem fun a ha => absurd ((hmem a).mpr ha) not_mem_nil
  | cons b ys =>
    rw [hpos] at hmem
    refine ⟨(hmem b).mp mem_cons_self, fun a ha hab => ?_⟩
    have hys : a ∈ ys := (mem_cons.mp ((hmem a).mpr ha)).resolve_left hab
    cases side with
    | left => exact inv.before (p := []) hpos hys
    | right =>
      have hnodes : T.nodes = ys.reverse ++ [b] := by
        rw [← reverse_cons, ← hpos]
        exact T.nodes.reverse_reverse.symm
      have hsorted := inv.sorted
      rw [Sorted, hnodes] at hsorted
      exact (pairwise_append.mp hsorted).2.2 a (mem_reverse.mpr hys) b mem_cons_self

/-- In every run the pointers form one ordered tree of the live nodes, iterators visit it in order and
`get` returns the least or the greatest node. -/
theorem bstree_run_ordered [DecidableEq τ] (cmp : α → α → Int) [TotalPreorder cmp] (t : Bstree α τ)
    (fresh : t.Fresh) (ops : List (BstOp α))
    (allowed : Guarded (fun s op => op.run cmp s) (fun s op => op.Allowed s) ⟨t, ∅⟩ ops) :
    ∃ s T, ops.foldlM (fun s op => op.run cmp s) ⟨t, ∅⟩ = some s ∧
      Points s.tree.child s.tree.root T ∧ Parents s.tree.parent none T ∧ T.nodes.Nodup ∧
      (∀ a, a ∈ T.nodes ↔ a ∈ s.live) ∧ s.tree.cnt = s.live.card ∧
      isOrdered cmp s.tree = some true ∧ T.nodes.Pairwise (Before cmp) ∧
      iterate s.tree .right = some T.nodes ∧ iterate s.tree .left = some T.nodes.reverse ∧
      ∀ side, ∃ r t', Util.get s.tree side = some (r, t') ∧ First cmp side s.live r := by
  obtain ⟨s, hrun, T, inv⟩ := run_of_guarded
    (fun s op => BstOp.run_spec) ⟨.nil, fresh.inv⟩ allowed
  have hnodup := inv.sorted.nodup
  have hlive : s.live = T.nodes.toFinset := by
    ext a
    rw [List.mem_toFinset, inv.live]
  refine ⟨s, T, hrun, inv.linked.points, inv.linked.parents, hnodup, inv.live, ?_, inv.isOrdered,
    inv.sorted, iterate_spec inv.linked hnodup inv.cnt, iterate_spec inv.linked hnodup inv.cnt,
    fun side => ?_⟩
  · rw [inv.cnt, hlive, toFinset_card_of_nodup hnodup]
  · obtain ⟨r, t', hget, rfl, -⟩ := inv.get side
    exact ⟨_, t', hget, inv.first side⟩

/-- Keys are compared by tens, so that 11 and 12 are ordered by their addresses. -/
def byTens (a b : Nat) : Int := (a / 10 : Nat) - (b / 10 : Nat)

instance : TotalPreorder byTens where
  flip := fun a b => by unfold byTens; omega
  trans := fun a b c => by unfold byTens; omega

/-- Two nodes with equal keys, one of them removed while it has two children. -/
theorem bstree_run_ordered_tens : ∃ s T,
    [BstOp.insert 12, .insert 11, .insert 25, .remove 12, .get .right].foldlM
      (fun s op => op.run byTens s)
      ⟨⟨(), none, 0, fun _ => none, fun _ => none, fun _ _ => none⟩, ∅⟩ = some s ∧
      Points s.tree.child s.tree.root T ∧ Parents s.tree.parent none T ∧ T.nodes.Nodup ∧
      (∀ a, a ∈ T.nodes ↔ a ∈ s.live) ∧ s.tree.cnt = s.live.card ∧
      isOrdered byTens s.tree = some true ∧ T.nodes.Pairwise (Before byTens) ∧
      iterate s.tree .right = some T.nodes ∧ iterate s.tree .left = some T.nodes.reverse ∧
      ∀ side, ∃ r t', Util.get s.tree side = some (r, t') ∧ First byTens side s.live r :=
  bstree_run_ordered byTens ⟨(), none, 0, fun _ => none, fun _ => none, fun _ _ => none⟩
    ⟨rfl, rfl, fun _ => some_ne_none _ ∘ Eq.symm, fun _ _ => ⟨rfl, fun _ => rfl⟩⟩
    [.insert 12, .insert 11, .insert 25, .remove 12, .get .right] (by decide +kernel)

end Runs

end Coda.Util
