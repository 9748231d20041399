import Coda.Lib.Run
import Coda.Rvm.Delete

/-!
Runs of `tree_insert` and `tree_delete`.

The traversal vector is enlarged by the recorded depth of the tree, `max_depth`. The recorded depth
only has to be right when the tree grows, so that deletions may leave any number there, as long as
`max_depth + 1` is not 0 again.
-/

namespace Coda.Rvm

open Coda.Lib List Option

variable {α : Type} [DecidableEq α] {κ : Type} [LinearOrder κ] {key : α → κ}

/-! ### tree_lookup -/

section Lookup

variable {t : TreeRoot α} {cmp : α → α → Int} {node : α} {dir : α → Option Side}

theorem lookupLoop_spec (fs : List (Frame α)) (hcmp : ∀ a, cmp node a = valOf (dir a)) {T : BTree α}
    {fuel : Nat} {par p : Option α} (hp : Points t.links p T) (nodup : T.nodes.Nodup)
    (hpar : ∀ a ∈ par, a ∉ T.nodes) (hfuel : T.height ≤ fuel) :
    lookupLoop cmp t node fuel par p =
      some (match (descend dir T fs).2 with
        | .nil => none
        | .node _ a _ => some a) := by
  induction T generalizing fs p par fuel with
  | nil =>
    obtain rfl := points_nil.mp hp
    rw [lookupLoop]
    rfl
  | node l a r ihl ihr =>
    obtain ⟨rfl, hl, hr⟩ := points_node.mp hp
    rw [BTree.height] at hfuel
    obtain ⟨fuel, rfl⟩ : ∃ n, fuel = n + 1 := ⟨fuel - 1, by omega⟩
    have hne : par ≠ some a := fun h => hpar a h (mem_append_right _ (.head _))
    obtain ⟨hnodupl, hnodupr, hal⟩ := nodup_append.mp nodup
    have har := (nodup_cons.mp hnodupr).1
    unfold lookupLoop descend
    rw [if_neg hne, hcmp a]
    cases hdir : dir a with
    | none => rw [if_neg (by decide), if_pos (show valOf none = 0 from rfl)]
    | some side =>
      cases side with
      | left =>
        refine ihl _ hl hnodupl ?_ (by omega)
        rintro b ⟨⟩ hb
        exact hal a hb a (.head _) rfl
      | right =>
        refine ihr _ hr (nodup_cons.mp hnodupr).2 ?_ (by omega)
        rintro b ⟨⟩ hb
        exact har hb

/-- `tree_lookup` finds the node with an equal key, if there is one. -/
theorem treeLookup_spec {T : BTree α} (holds : Holds key t T) (node : α) :
    ∃ r, treeLookup (keyCmp key) t node = some r ∧
      ∀ x, r = some x ↔ x ∈ T.nodes ∧ key x = key node := by
  have hheight := T.height_le_length
  have hrun : treeLookup (keyCmp key) t node = _ := lookupLoop_spec [] (keyCmp_eq node) holds.points
    holds.sorted.nodup (fun a ha => by cases ha) (by rw [holds.nNodes]; omega)
  refine ⟨_, hrun, fun x => ?_⟩
  obtain ⟨gs, way, ⟨hdescend, rfl⟩ | ⟨l, a, r, hdescend, ha, rfl⟩⟩ :=
    descend_cases (toward key (key node)) T
  · rw [hdescend]
    refine iff_of_false nofun ?_
    rintro ⟨hx, hkey⟩
    exact (holds.sorted.directed _).dir_ne_none way hx (toward_eq_none.mpr hkey)
  · have hmem := mem_plug_node gs l a r
    rw [hdescend]
    rw [some_inj]
    constructor
    · rintro rfl
      exact ⟨hmem, toward_eq_none.mp ha⟩
    · rintro ⟨hx, hkey⟩
      exact holds.sorted.eq_of_key hmem hx ((toward_eq_none.mp ha).trans hkey.symm)

end Lookup

/-! ### Runs -/

inductive TreeOp (α : Type) where
  | insert (node : α)
  | delete (node : α)
deriving Repr

/-- A tree, with the nodes that were inserted and not deleted. -/
structure TreeTrace (α : Type) where
  tree : TreeRoot α
  live : Finset α

def TreeOp.run (key : α → κ) (s : TreeTrace α) : TreeOp α → Option (TreeTrace α)
  | .insert node => (treeInsert (keyCmp key) s.tree node).map fun x =>
      ⟨x.2, if ∃ a ∈ s.live, key a = key node then s.live else Insert.insert node s.live⟩
  | .delete node => (treeDelete (keyCmp key) s.tree node).map fun x => ⟨x.2, s.live.erase node⟩

/-- What the callers see to: a node is inserted once, and a node that is to be deleted is not
confused with another one. -/
def TreeOp.Allowed (key : α → κ) (s : TreeTrace α) : TreeOp α → Prop
  | .insert node => node ∉ s.live
  | .delete node => s.live.Nonempty ∧ ∀ a ∈ s.live, key a = key node → a = node

/-- The same, and `max_depth + 1` does not overflow. -/
def TreeOp.Safe (key : α → κ) (s : TreeTrace α) (op : TreeOp α) : Prop :=
  op.Allowed key s ∧ s.tree.maxDepth + 1 < 2 ^ 64

instance (key : α → κ) (s : TreeTrace α) (op : TreeOp α) : Decidable (op.Allowed key s) := by
  cases op <;> unfold TreeOp.Allowed <;> infer_instance

instance (key : α → κ) (s : TreeTrace α) (op : TreeOp α) : Decidable (op.Safe key s) := by
  unfold TreeOp.Safe
  infer_instance

/-- The vector has room for every way in the tree, or will be enlarged before the next one. -/
def Roomy (t : TreeRoot α) (T : BTree α) : Prop :=
  T.height ≤ t.traverseLen ∨ T.height = t.traverseLen + 1 ∧ T.height ≤ t.maxDepth

/-- The tree holds exactly the live nodes. -/
structure TreeInv (key : α → κ) (s : TreeTrace α) (T : BTree α) : Prop where
  holds : Holds key s.tree T
  live : ∀ a, a ∈ T.nodes ↔ a ∈ s.live
  roomy : Roomy s.tree T

variable {T : BTree α} {s : TreeTrace α} {count : Nat}

omit [DecidableEq α] in
theorem Roomy.chkTraverse {t : TreeRoot α} (roomy : Roomy t T) (hdepth : t.maxDepth + 1 < 2 ^ 64) :
    T.height ≤ (chkTraverse t).traverseLen := by
  unfold Coda.Rvm.chkTraverse
  rcases roomy with h | ⟨h, h'⟩
  · split_ifs
    · dsimp only
      omega
    · exact h
  · rw [if_pos (by omega)]
    dsimp only
    omega

theorem TreeInv.insert {node : α} (inv : TreeInv key s T) (allowed : node ∉ s.live)
    (hroom : T.height ≤ (chkTraverse s.tree).traverseLen) :
    ∃ s' T', (TreeOp.insert node).run key s = some s' ∧ TreeInv key s' T' ∧
      s'.tree.traverseLen = (chkTraverse s.tree).traverseLen ∧ T'.height ≤ T.height + 1 ∧
      (T ≠ .nil → ∃ depth ≤ T'.height, s'.tree.maxDepth = max s.tree.maxDepth depth) := by
  have hnode : node ∉ T.nodes := fun h => allowed ((inv.live node).mp h)
  obtain ⟨done, t', T', hrun, holds, hdone, hperm, hlen, hheight, hdepth⟩ :=
    treeInsert_spec inv.holds hnode hroom
  refine ⟨_, T', by rw [TreeOp.run, hrun]; rfl, ⟨holds, fun a => ?_, ?_⟩, hlen, by omega, hdepth⟩
  · dsimp only
    rw [hperm.mem_iff]
    cases done with
    | true =>
      have hfresh : ¬∃ a ∈ s.live, key a = key node := by
        rintro ⟨x, hx, hkey⟩
        exact hdone.mp rfl x ((inv.live x).mpr hx) hkey
      rw [if_pos rfl, if_neg hfresh, mem_cons, Finset.mem_insert, inv.live]
    | false =>
      have hequal : ∃ a ∈ s.live, key a = key node := by
        by_contra hne
        push Not at hne
        exact Bool.false_ne_true (hdone.mpr fun x hx => hne x ((inv.live x).mp hx))
      rw [if_neg Bool.false_ne_true, if_pos hequal, inv.live]
  · rcases hheight with h | ⟨h, h'⟩
    · exact .inl (by dsimp only; omega)
    · by_cases hroom' : T'.height ≤ t'.traverseLen
      · exact .inl hroom'
      · exact .inr ⟨by dsimp only; omega, h'⟩

theorem TreeInv.delete {node : α} (inv : TreeInv key s T)
    (allowed : (TreeOp.delete node).Allowed key s)
    (hroom : T.height ≤ (chkTraverse s.tree).traverseLen) :
    ∃ s', (TreeOp.delete node).run key s = some s' ∧ ∃ T', TreeInv key s' T' := by
  obtain ⟨⟨a, ha⟩, hsame⟩ := allowed
  have hT : T ≠ .nil := fun h => by
    have := (inv.live a).mpr ha
    rw [h] at this
    cases this
  obtain ⟨done, t', T', hrun, holds, hdone, hnodes, hheight, hlen⟩ := treeDelete_spec inv.holds hT node
    (fun x hx => hsame x ((inv.live x).mp hx)) hroom
  refine ⟨_, by rw [TreeOp.run, hrun]; rfl, T', ⟨holds, fun x => ?_, .inl ?_⟩⟩
  · rw [Finset.mem_erase, ← inv.live]
    cases done with
    | true =>
      have hremoved : Removed node T.nodes T'.nodes := hnodes
      exact hremoved.mem_iff inv.holds.sorted.nodup
    | false =>
      obtain rfl : T' = T := hnodes
      have hnot : node ∉ T'.nodes := fun h => Bool.false_ne_true (hdone.mpr h)
      exact ⟨fun h => ⟨fun hx => hnot (hx ▸ h), h⟩, And.right⟩
  · dsimp only
    rw [hlen]
    split_ifs with hnil
    · rw [BTree.nodes_eq_nil.mp hnil]
      exact le_refl 0
    · exact hheight.trans hroom

theorem TreeOp.run_spec {op : TreeOp α} (inv : ∃ T, TreeInv key s T) (safe : op.Safe key s) :
    ∃ s', op.run key s = some s' ∧ ∃ T, TreeInv key s' T := by
  obtain ⟨T, inv⟩ := inv
  have hroom := inv.roomy.chkTraverse safe.2
  cases op with
  | insert node =>
    obtain ⟨s', T', hrun, inv', -, -, -⟩ := inv.insert safe.1 hroom
    exact ⟨s', hrun, T', inv'⟩
  | delete node => exact inv.delete safe.1 hroom

/-- An empty tree, around nodes with any contents. -/
def TreeTrace.init (links : Links α) (bf : α → Int) : TreeTrace α := ⟨initTreeRoot links bf, ∅⟩

omit [DecidableEq α] in
theorem treeInv_init (links : Links α) (bf : α → Int) : TreeInv key (TreeTrace.init links bf) .nil where
  holds := ⟨.nil, trivial, List.Pairwise.nil, rfl⟩
  live := fun a => iff_of_false not_mem_nil (Finset.notMem_empty a)
  roomy := Or.inl (le_refl 0)

/-- The tree stays a height-balanced search tree of the live nodes, if `max_depth + 1` does not
overflow in any state. -/
theorem tree_balanced_of_safe (key : α → κ) (links : Links α) (bf : α → Int) (ops : List (TreeOp α))
    (safe : Guarded (fun s op => op.run key s) (fun s op => op.Safe key s) (TreeTrace.init links bf) ops) :
    ∃ s T, ops.foldlM (fun s op => op.run key s) (TreeTrace.init links bf) = some s ∧
      Points s.tree.links s.tree.root T ∧ T.nodes.Pairwise (key · < key ·) ∧ Avl s.tree.bf T ∧
      s.tree.nNodes = T.nodes.length ∧ (∀ a, a ∈ T.nodes ↔ a ∈ s.live) ∧
      ∀ node, ∃ r, treeLookup (keyCmp key) s.tree node = some r ∧
        ∀ a, r = some a ↔ a ∈ s.live ∧ key a = key node := by
  obtain ⟨s, hrun, T, inv⟩ := run_of_guarded
    (fun s op => TreeOp.run_spec) ⟨.nil, treeInv_init links bf⟩ safe
  refine ⟨s, T, hrun, inv.holds.points, inv.holds.sorted, inv.holds.avl, inv.holds.nNodes, inv.live,
    fun node => ?_⟩
  obtain ⟨r, hlookup, hr⟩ := treeLookup_spec inv.holds node
  refine ⟨r, hlookup, fun a => ?_⟩
  rw [hr, inv.live]

/-- Three nodes in ascending order, which need a rotation, and the root deleted. -/
theorem tree_balanced_three : ∃ s T,
    [TreeOp.insert 1, .insert 2, .insert 3, .delete 2].foldlM (fun s op => op.run (id : Nat → Nat) s)
      (TreeTrace.init (fun _ _ => none) fun _ => 0) = some s ∧
    Points s.tree.links s.tree.root T ∧ T.nodes.Pairwise (id · < id ·) ∧ Avl s.tree.bf T ∧
    s.tree.nNodes = T.nodes.length ∧ (∀ a, a ∈ T.nodes ↔ a ∈ s.live) ∧
    ∀ node, ∃ r, treeLookup (keyCmp id) s.tree node = some r ∧
      ∀ a, r = some a ↔ a ∈ s.live ∧ id a = id node :=
  tree_balanced_of_safe id _ _ _ (by decide +kernel)

/-! ### The length of a search -/

/-- `tree_lookup` is done after `2 * log₂ (n + 1) + 1` rounds, for `n` nodes. -/
def Shallow (key : α → κ) (s : TreeTrace α) : Prop :=
  ∀ node, ∃ found, treeLookup (keyCmp key) s.tree node = some found ∧
    lookupLoop (keyCmp key) s.tree node (2 * Nat.log 2 (s.tree.nNodes + 1) + 1) none s.tree.root =
      some found

theorem tree_shallow (key : α → κ) (links : Links α) (bf : α → Int) (ops : List (TreeOp α))
    (safe : Guarded (fun s op => op.run key s) (fun s op => op.Safe key s) (TreeTrace.init links bf) ops) :
    Always (fun s op => op.run key s) (Shallow key) (TreeTrace.init links bf) ops := by
  refine always_of_guarded (I := fun s => ∃ T, TreeInv key s T) ?_ ?_ ⟨_, treeInv_init links bf⟩ safe
  · intro s op s' inv hsafe run
    obtain ⟨s₁, hrun, inv'⟩ := TreeOp.run_spec inv hsafe
    rw [hrun] at run
    exact some.inj run ▸ inv'
  · rintro s ⟨T, inv⟩ node
    have hlog := Nat.le_log_of_pow_le one_lt_two inv.holds.avl.two_pow_le
    have hheight := T.height_le_length
    rw [← inv.holds.nNodes] at hlog hheight
    have hrun : ∀ fuel, T.height ≤ fuel →
        lookupLoop (keyCmp key) s.tree node fuel none s.tree.root = _ :=
      fun _ => lookupLoop_spec [] (keyCmp_eq node) inv.holds.points inv.holds.sorted.nodup
        fun a ha => by cases ha
    exact ⟨_, hrun _ (by omega), hrun _ (by omega)⟩

theorem tree_shallow_three : Always (fun s (op : TreeOp Nat) => op.run id s) (Shallow id)
    (TreeTrace.init (fun _ _ => none) fun _ => 0) [.insert 1, .insert 2, .insert 3, .delete 2] :=
  tree_shallow id _ _ _ (by decide +kernel)

/-! ### The recorded depth wraps -/

/-- `max_depth` is recorded as -1, so that the traversal vector is not enlarged any more. -/
structure Wedged (count : Nat) (s : TreeTrace Nat) (T : BTree Nat) : Prop where
  inv : TreeInv id s T
  nonempty : T ≠ .nil
  maxDepth : s.tree.maxDepth = 2 ^ 64 - 1
  traverseLen : s.tree.traverseLen = 15
  fresh : ∀ a ∈ s.live, a < 31 + count
  count : count ≤ T.nodes.length

variable {s : TreeTrace Nat} {T : BTree Nat}

theorem Wedged.chkTraverse (h : Wedged count s T) : Coda.Rvm.chkTraverse s.tree = s.tree := by
  unfold Coda.Rvm.chkTraverse
  rw [h.maxDepth, h.traverseLen]
  exact if_neg (by decide)

/-- The next node. -/
theorem Wedged.insert (h : Wedged count s T) (hheight : T.height ≤ 15) :
    (TreeOp.insert (31 + count)).Allowed id s ∧
      ∃ s' T', (TreeOp.insert (31 + count)).run id s = some s' ∧ Wedged (count + 1) s' T' ∧
        T'.height ≤ 16 := by
  have hnew : 31 + count ∉ s.live := fun hmem => absurd (h.fresh _ hmem) (lt_irrefl _)
  refine ⟨hnew, ?_⟩
  obtain ⟨s', T', hrun, inv', hlen, hT', hdepth⟩ :=
    h.inv.insert hnew (by rw [h.chkTraverse, h.traverseLen]; exact hheight)
  obtain ⟨depth, hle, hmax⟩ := hdepth h.nonempty
  have hlive : s'.live = Insert.insert (31 + count) s.live := by
    obtain ⟨x, -, rfl⟩ := map_eq_some_iff.mp hrun
    refine if_neg ?_
    rintro ⟨a, ha, hkey⟩
    obtain rfl : a = 31 + count := hkey
    exact hnew ha
  have hperm : T'.nodes.Perm ((31 + count) :: T.nodes) := by
    refine (perm_ext_iff_of_nodup inv'.holds.sorted.nodup ?_).mpr fun a => ?_
    · exact nodup_cons.mpr ⟨fun hmem => hnew ((h.inv.live _).mp hmem), h.inv.holds.sorted.nodup⟩
    · rw [inv'.live, hlive, Finset.mem_insert, mem_cons, h.inv.live]
  refine ⟨s', T', hrun, ⟨inv', ?_, ?_, ?_, fun a ha => ?_, ?_⟩, by omega⟩
  · rintro rfl
    exact cons_ne_nil _ _ hperm.symm.eq_nil
  · rw [hmax, h.maxDepth]
    omega
  · rw [hlen, h.chkTraverse, h.traverseLen]
  · rw [hlive, Finset.mem_insert] at ha
    rcases ha with rfl | ha
    · omega
    · exact Nat.lt_succ_of_lt (h.fresh a ha)
  · rw [hperm.length_eq]
    exact Nat.succ_le_succ h.count

/-- A node at depth 16 has no place in the vector. -/
theorem Wedged.overflow (h : Wedged count s T) (hheight : T.height = 16) :
    ∃ a, (TreeOp.delete a).Allowed id s ∧ (TreeOp.delete a).run id s = none := by
  obtain ⟨fs, l, a, r, rfl, hlength⟩ := exists_deepest h.nonempty
  have hmem : a ∈ (plug fs (.node l a r)).nodes :=
    mem_nodes_plug.mpr (.inl (mem_append_right _ (.head _)))
  refine ⟨a, ⟨⟨a, (h.inv.live a).mp hmem⟩, fun _ _ hkey => hkey⟩, ?_⟩
  obtain ⟨q, hole, hq⟩ := points_plug.mp h.inv.holds.points
  obtain rfl := (points_node.mp hq).1
  have way := h.inv.holds.sorted.way (mem_append_right _ (.head _))
  have hsearch : deleteSearch (keyCmp id) s.tree a s.tree.traverseLen s.tree.root [] = none := by
    refine deleteSearch_overflow (fun f hf => ?_) hole (by rw [h.traverseLen]; omega)
    rw [keyCmp_eq, way f hf]
    rfl
  rw [TreeOp.run, treeDelete, h.chkTraverse]
  cases hroot : s.tree.root with
  | none => rfl
  | some root =>
    rw [hroot] at hsearch
    rw [bind_eq_bind, bind_some]
    dsimp only
    rw [hsearch]
    rfl

/-- 31 nodes in ascending order, and the root deleted six times. -/
def shrinking : List (TreeOp Nat) :=
  (List.range 31).map TreeOp.insert ++ [15, 14, 13, 12, 11, 10].map TreeOp.delete

/-- The result, which is evaluated below. -/
def shrunk : Option (TreeTrace Nat) :=
  shrinking.foldlM (fun s op => op.run id s) (TreeTrace.init (fun _ _ => none) fun _ => 0)

theorem wedged_shrinking : ∃ s T, shrunk = some s ∧ Wedged 0 s T ∧ T.height ≤ 15 := by
  obtain ⟨s, hrun, T, inv⟩ := run_of_guarded
    (fun s op => TreeOp.run_spec) ⟨.nil, treeInv_init (fun _ _ => none) fun _ => 0⟩
    (show Guarded (fun s op => op.run id s) (fun s op => op.Safe id s)
      (TreeTrace.init (fun _ _ => none) fun _ => 0) shrinking by decide +kernel)
  change shrunk = some s at hrun
  have heval : shrunk.map (fun s => (s.tree.maxDepth, s.tree.traverseLen, s.tree.nNodes)) =
      some (2 ^ 64 - 1, 15, 25) := by
    decide +kernel
  have hlive : shrunk.map (fun s => decide (∀ a ∈ s.live, a < 31)) = some true := by
    decide +kernel
  rw [hrun, map_some, some_inj, Prod.mk.injEq, Prod.mk.injEq] at heval
  rw [hrun, map_some, some_inj, decide_eq_true_iff] at hlive
  obtain ⟨hmax, hlen, hn⟩ := heval
  have hcount : T.nodes.length = 25 := inv.holds.nNodes.symm.trans hn
  refine ⟨s, T, hrun, ⟨inv, ?_, hmax, hlen, hlive, Nat.zero_le _⟩, ?_⟩
  · rintro rfl
    cases hcount
  · -- 25 nodes are too few for a balanced tree of height 16
    have hpow := inv.holds.avl.two_pow_le
    by_contra hhigh
    have : 2 ^ 8 ≤ 2 ^ (T.height / 2) := Nat.pow_le_pow_right (by omega) (by omega)
    omega

/-- Deletions make `max_depth` wrap around; then nodes are inserted until a way in the tree is
longer than the traversal vector. -/
theorem tree_traverse_overflow : ∃ ops : List (TreeOp Nat),
    Guarded (fun s op => op.run id s) (fun s op => op.Allowed id s)
      (TreeTrace.init (fun _ _ => none) fun _ => 0) ops ∧
    ops.foldlM (fun s op => op.run id s) (TreeTrace.init (fun _ _ => none) fun _ => 0) = none := by
  by_contra hnone
  push Not at hnone
  -- then the tree never gets higher than the vector is long
  have hall : ∀ count, ∃ (ops : List (TreeOp Nat)) (s : TreeTrace Nat) (T : BTree Nat), Guarded (fun s op => op.run id s) (fun s op => op.Allowed id s)
      (TreeTrace.init (fun _ _ => none) fun _ => 0) ops ∧
      ops.foldlM (fun s op => op.run id s) (TreeTrace.init (fun _ _ => none) fun _ => 0) = some s ∧
      Wedged count s T ∧ T.height ≤ 15 := by
    intro count
    induction count with
    | zero =>
      obtain ⟨s, T, hrun, hwedged, hheight⟩ := wedged_shrinking
      exact ⟨shrinking, s, T, by decide +kernel, hrun, hwedged, hheight⟩
    | succ count ih =>
      obtain ⟨ops, s, T, hguarded, hrun, hwedged, hheight⟩ := ih
      obtain ⟨hallowed, s', T', hstep, hwedged', hheight'⟩ := hwedged.insert hheight
      have hguarded' := guarded_concat hguarded hrun hallowed
      have hrun' := (run_concat hrun (TreeOp.insert (31 + count))).trans hstep
      refine ⟨ops ++ [.insert (31 + count)], s', T', hguarded', hrun', hwedged', ?_⟩
      by_contra hhigh
      obtain ⟨a, hallowed', hfault⟩ := hwedged'.overflow (by omega)
      exact hnone _ (guarded_concat hguarded' hrun' hallowed') ((run_concat hrun' _).trans hfault)
  obtain ⟨ops, s, T, -, -, hwedged, hheight⟩ := hall (2 ^ 15)
  have hlt := T.length_lt_two_pow
  have hpow : 2 ^ T.height ≤ 2 ^ 15 := Nat.pow_le_pow_right (by omega) hheight
  have := hwedged.count
  omega

end Coda.Rvm
