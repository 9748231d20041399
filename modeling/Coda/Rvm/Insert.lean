import Coda.Rvm.Rotate

/-!
`tree_insert` on a linked, balanced search tree.

The search leaves a place of the tree, split at the last unbalanced node: below it every node is
balanced, so that the new node makes all of them heavy on the side of the place.
-/

namespace Coda.Rvm

open Coda.Lib List Option Function TreeRoot Links

variable {α : Type} [DecidableEq α] {t : TreeRoot α} {fs : List (Frame α)} {p : Option α}
  {cmp : α → α → Int} {node : α} {dir : α → Option Side}

/-- The comparison that sends the search in this direction. -/
def valOf : Option Side → Int
  | none => 0
  | some s => weight s

/-- The entry of a node that the search for an insertion point has passed. -/
def passed (f : Frame α) : TreePos α :=
  match f.side with
  | .left => ⟨some f.node, .lss⟩
  | .right => ⟨none, .gtr⟩

/-- What the search knows at a place. -/
structure SearchAt (t : TreeRoot α) (fs : List (Frame α)) (p : Option α) (s : Search α) : Prop where
  par : s.par = fs.head?.map Frame.node
  val : ∀ f ∈ fs.head?, s.val = weight f.side
  traverse : s.traverse = fs.map passed
  unbal : (fs = [] ∧ p = some s.lastUnbal ∧ s.lastUnbalPar = none) ∨
    ∃ below f above, fs = below ++ f :: above ∧ (∀ g ∈ below, t.bf g.node = 0) ∧
      s.lastUnbal = f.node ∧ s.lastUnbalPar = above.head?.map Frame.node ∧
      (t.bf f.node = 0 → above = [])

variable {s : Search α} {T : BTree α}

omit [DecidableEq α] in
theorem SearchAt.length (here : SearchAt t fs p s) : s.traverse.length = fs.length := by
  rw [here.traverse, length_map]

omit [DecidableEq α] in
/-- One step down. -/
theorem SearchAt.enter {cur : α} (here : SearchAt t fs (some cur) s) (side : Side) (sib : BTree α)
    (q : Option α) :
    SearchAt t (⟨side, cur, sib⟩ :: fs) q
      (s.visit (t.bf cur) cur (weight side) (passed ⟨side, cur, sib⟩)) where
  par := rfl
  val := by
    rintro f ⟨⟩
    rfl
  traverse := congrArg (passed ⟨side, cur, sib⟩ :: ·) here.traverse
  unbal := by
    refine .inr ?_
    unfold Search.visit
    by_cases hbf : t.bf cur = 0
    · rw [if_neg (not_not.mpr hbf), if_neg (not_not.mpr hbf)]
      rcases here.unbal with ⟨rfl, hcur, hpar⟩ | ⟨below, f, above, rfl, hzero, hnode, hpar, habove⟩
      · exact ⟨[], _, [], rfl, nofun, (some.inj hcur).symm, hpar,
          fun _ => rfl⟩
      · refine ⟨⟨side, cur, sib⟩ :: below, f, above, rfl, ?_, hnode, hpar, habove⟩
        exact forall_mem_cons.mpr ⟨hbf, hzero⟩
    · rw [if_pos hbf, if_pos hbf]
      exact ⟨[], _, fs, rfl, nofun, rfl, here.par,
        fun h => absurd h hbf⟩

omit [DecidableEq α] in
/-- The search follows `dir`. -/
theorem insertSearch_spec (hcmp : ∀ a, cmp node a = valOf (dir a)) {room : Nat}
    (hp : Points t.links p T) (avl : Avl t.bf T) (hroom : T.height ≤ room)
    (here : SearchAt t fs p s) :
    (∀ gs, descend dir T fs = (gs, .nil) →
      ∃ s', insertSearch cmp t node room p s = some (false, s') ∧ SearchAt t gs none s') ∧
    ∀ gs l a r, descend dir T fs = (gs, .node l a r) →
      ∃ s', insertSearch cmp t node room p s = some (true, s') ∧
        s'.traverse = ⟨some a, .self⟩ :: gs.map passed := by
  induction T generalizing fs p room s with
  | nil =>
    obtain rfl := points_nil.mp hp
    refine ⟨?_, fun gs l a r h => by cases h⟩
    rintro gs ⟨⟩
    exact ⟨s, by rw [insertSearch], here⟩
  | node l a r ihl ihr =>
    obtain ⟨rfl, hl, hr⟩ := points_node.mp hp
    obtain ⟨-, hrange, havl, havr⟩ := avl
    obtain ⟨room, rfl⟩ : ∃ n, room = n + 1 := ⟨room - 1, by rw [BTree.height] at hroom; omega⟩
    rw [BTree.height] at hroom
    have hbf : ¬(t.bf a < -1 ∨ t.bf a > 1) := by omega
    have ha := hcmp a
    unfold insertSearch descend
    rw [if_neg hbf, ha]
    cases hdir : dir a with
    | none =>
      refine ⟨fun gs h => (by cases h), ?_⟩
      rintro gs l' b r' ⟨⟩
      exact ⟨_, rfl, congrArg (List.cons (⟨some a, .self⟩ : TreePos α)) here.traverse⟩
    | some side =>
      cases side with
      | left => exact ihl hl havl (by omega) (here.enter .left r _)
      | right => exact ihr hr havr (by omega) (here.enter .right l _)

variable {below gs : List (Frame α)}

/-- The balance factors below the last unbalanced node, up to the new node. -/
theorem setFactors_spec (hcmp : ∀ a, cmp node a = valOf (dir a))
    (way : ∀ g ∈ below, dir g.node = some g.side) (hole : Hole t.links p below (some node))
    (nodup : (plug below (.node .nil node .nil)).nodes.Nodup)
    (zero : ∀ g ∈ below, t.bf g.node = 0) {fuel : Nat} (hfuel : below.length ≤ fuel) :
    ∃ bf', setFactors cmp node fuel p t = some { t with bf := bf' } ∧
      (∀ g ∈ below, bf' g.node = weight g.side) ∧ ∀ x, x ∉ below.map Frame.node → bf' x = t.bf x := by
  induction below using List.reverseRecOn generalizing t p fuel with
  | nil =>
    obtain rfl : some node = p := hole
    refine ⟨t.bf, ?_, nofun, fun x _ => rfl⟩
    unfold setFactors
    rw [if_pos rfl]
  | append_singleton below g ih =>
    obtain ⟨q, hbelow, rfl, -, rfl⟩ := hole_append.mp hole
    rw [plug_append] at nodup
    obtain ⟨-, hg, -, hnodup, -⟩ := nodup_fill.mp nodup
    have hgnode : g.node ≠ node := fun h => hg (mem_nodes_plug.mpr (.inl (by rw [h]; simp [BTree.nodes])))
    have hgbelow : ∀ f ∈ below, f.node ≠ g.node := fun f hf h =>
      hg (mem_nodes_plug.mpr (.inr (h ▸ mem_around_of_mem hf)))
    have hval : cmp node g.node = weight g.side := by
      rw [hcmp, way g (by simp)]
      rfl
    obtain ⟨fuel, rfl⟩ : ∃ n, fuel = n + 1 := ⟨fuel - 1, by simp at hfuel; omega⟩
    obtain ⟨bf', hrun, hset, hsame⟩ := ih (t := t.setBf g.node (weight g.side))
      (fun f hf => way f (mem_append_left _ hf)) hbelow hnodup
      (fun f hf => (update_of_ne (hgbelow f hf) _ _).trans (zero f (mem_append_left _ hf)))
      (show below.length ≤ fuel by simp at hfuel; omega)
    refine ⟨bf', ?_, fun f hf => ?_, fun x hx => ?_⟩
    · unfold setFactors
      rw [if_neg hgnode]
      dsimp only
      rw [if_neg (not_not.mpr (zero g (by simp))), hval]
      have hside : (if weight g.side = 1 then Side.right else .left) = g.side := by
        cases g.side <;> rfl
      rw [hside]
      exact hrun
    · rcases mem_append.mp hf with hf | hf
      · exact hset f hf
      · obtain rfl := mem_singleton.mp hf
        rw [hsame]
        · exact update_self _ _ _
        · intro h
          obtain ⟨f', hf', heq⟩ := mem_map.mp h
          exact hgbelow f' hf' heq
    · rw [map_append, mem_append, not_or] at hx
      rw [hsame x hx.1]
      exact update_of_ne (fun h => hx.2 (by rw [h]; simp)) _ _

omit [DecidableEq α] in
theorem sideOf_weight (s : Side) : sideOf (weight s) = s := by cases s <;> rfl

/-- At the last unbalanced node, below which the tree `X` became one higher. -/
theorem rebalanceInsert_spec {f : Frame α} {above : List (Frame α)} {X : BTree α} {subRoot : α}
    {h : Nat} (hole : Hole t.links t.root above (some f.node))
    (hp : Points t.links (some f.node) (f.fill X)) (nodup : (plug above (f.fill X)).nodes.Nodup)
    (hX : Avl t.bf X) (hheight : X.height = h + 1) (hframe : AvlFrame t.bf f h)
    (hsub : t.links f.node f.side = some subRoot) (hbf : t.bf subRoot ≠ 0 ∨ h = 0)
    (hnode : s.lastUnbal = f.node) (hpar : s.lastUnbalPar = above.head?.map Frame.node) :
    ∃ depth t' S', rebalanceInsert t s subRoot (weight f.side) = some (depth, t') ∧
      Rotated t t' above (f.fill X) S' ∧ Avl t'.bf S' ∧
      ((t.bf f.node = 0 ∧ depth = s.traverse.length + 1 ∧ S'.height = max h f.sib.height + 2) ∨
        t.bf f.node ≠ 0 ∧ depth = s.traverse.length ∧ S'.height = max h f.sib.height + 1) := by
  obtain ⟨hfbf, hfrange, hsib⟩ := hframe
  obtain ⟨-, hnodup, -⟩ := nodup_plug.mp nodup
  -- where only the factor of the node is set
  have set_rotated : ∀ v, Rotated t (t.setBf f.node v) above (f.fill X) (f.fill X) := fun v =>
    ⟨points_plug.mpr ⟨_, hole, hp⟩, rfl,
      fun x hx => update_of_ne (fun hxf => hx (mem_nodes_fill.mpr (.inl hxf))) _ _,
      rfl, rfl, rfl⟩
  have set_avl := fun v => avl_setBf hnodup hsib hX (v := v)
  unfold rebalanceInsert
  rw [hnode]
  by_cases hzero : t.bf f.node = 0
  · have hh : h = f.sib.height := by
      cases hs : f.side <;> rw [hs] at hfbf <;> simp only [weight] at hfbf <;> omega
    refine ⟨_, _, _, if_pos hzero, set_rotated _, set_avl _ ?_ ?_, .inl ⟨hzero, rfl, ?_⟩⟩
    · cases f.side <;> simp only [weight] <;> omega
    · cases f.side <;> decide
    · rw [height_fill]
      omega
  rw [if_neg hzero]
  by_cases hlight : t.bf f.node + weight f.side = 0
  · have hh : f.sib.height = h + 1 := by
      cases hs : f.side <;> rw [hs] at hfbf hlight <;> simp only [weight] at hfbf hlight <;> omega
    refine ⟨_, _, _, if_pos hlight, set_rotated _, set_avl _ ?_ (by decide), .inr ⟨hzero, rfl, ?_⟩⟩
    · cases f.side <;> simp only [weight] <;> omega
    · rw [height_fill]
      omega
  rw [if_neg hlight]
  have hh : h = f.sib.height + 1 := by
    cases hs : f.side <;> rw [hs] at hfbf hlight <;> simp only [weight] at hfbf hlight <;> omega
  obtain ⟨c, M, R, rfl⟩ := exists_fill f.side (T := X) (by omega)
  obtain rfl : c = subRoot := by
    have := (points_fill.mp (points_fill.mp hp).2.1).1
    rw [hsub] at this
    exact (some.inj this).symm
  rw [height_fill] at hheight
  dsimp only at hheight
  obtain ⟨t', S', hrun, hrot, havl, hS'⟩ := insertRotate_spec
    hole hp nodup hsib hX (by omega) (hbf.resolve_right (by omega))
  refine ⟨_, t', S', ?_, hrot, havl, .inr ⟨hzero, rfl, by omega⟩⟩
  rw [sideOf_weight, hpar, hrun, bind_eq_bind]
  rfl

/-- A node without children. -/
def leaf (a : α) : BTree α := .node .nil a .nil

omit [DecidableEq α] in
theorem mem_leaf {a b : α} : a ∈ (leaf b).nodes ↔ a = b := mem_singleton

/-- The tree below the last unbalanced node, with the new node. -/
theorem growBelow_spec {subRoot : α} (hcmp : ∀ a, cmp node a = valOf (dir a))
    (way : ∀ g ∈ below, dir g.node = some g.side)
    (hole : Hole t.links (some subRoot) below (some node))
    (nodup : (plug below (leaf node)).nodes.Nodup) (hbf : t.bf node = 0)
    (avl : AvlPath t.bf below 0) (zero : ∀ g ∈ below, t.bf g.node = 0) {fuel : Nat}
    (hfuel : below.length ≤ fuel) :
    ∃ bf', setFactors cmp node fuel (some subRoot) t = some { t with bf := bf' } ∧
      Avl bf' (plug below (leaf node)) ∧
      (plug below (leaf node)).height = outHeight below 0 + 1 ∧
      (bf' subRoot ≠ 0 ∨ outHeight below 0 = 0) ∧ ∀ x, x ∉ around below → bf' x = t.bf x := by
  obtain ⟨bf', hrun, hset, hsame⟩ := setFactors_spec hcmp way hole nodup zero hfuel
  obtain ⟨hnodup, -, hapart⟩ := nodup_plug.mp nodup
  have hsame' : ∀ x, x ∉ around below → bf' x = t.bf x := by
    intro x hx
    refine hsame x fun h => ?_
    obtain ⟨g, hg, rfl⟩ := mem_map.mp h
    exact hx (mem_around_of_mem hg)
  have hsib : ∀ g ∈ below, ∀ x ∈ g.sib.nodes, bf' x = t.bf x := by
    intro g hg x hx
    refine hsame x fun h => ?_
    obtain ⟨g', hg', rfl⟩ := mem_map.mp h
    exact node_ne_of_mem_sib hnodup hg' hg hx
  obtain ⟨hpath, hheight⟩ := avl.grow zero hset hsib
  have hleaf : Avl bf' (leaf node) := by
    have : bf' node = 0 := (hsame' node (hapart node (mem_leaf.mpr rfl))).trans hbf
    exact ⟨by rw [this]; rfl, by rw [this]; decide, trivial, trivial⟩
  refine ⟨bf', hrun, avl_plug.mpr ⟨hpath, hleaf⟩, (height_plug _ _).trans hheight, ?_, hsame'⟩
  -- the outermost node of the way is the root of the sub-tree
  induction below using List.reverseRecOn with
  | nil => exact .inr rfl
  | append_singleton below g _ =>
    obtain ⟨q, -, -, -, hg⟩ := hole_append.mp hole
    refine .inl ?_
    rw [← some.inj hg, hset g (by simp)]
    cases g.side <;> decide

/-- The new node at the end of the search. -/
theorem insertAt_spec (hcmp : ∀ a, cmp node a = valOf (dir a))
    (way : ∀ f ∈ fs, dir f.node = some f.side) (hole : Hole t.links t.root fs none)
    (hlinks : ∀ side, t.links node side = none) (hbf : t.bf node = 0)
    (nodup : (plug fs (leaf node)).nodes.Nodup) (avl : AvlPath t.bf fs 0)
    (here : SearchAt t fs none s) :
    ∃ t' T' depth, insertAt cmp t node s = some t' ∧ Points t'.links t'.root T' ∧ Avl t'.bf T' ∧
      T'.nodes = (plug fs (leaf node)).nodes ∧ t'.nNodes = t.nNodes + 1 ∧
      t'.traverseLen = t.traverseLen ∧ t'.maxDepth = max t.maxDepth depth ∧ depth ≤ T'.height ∧
      (T'.height = outHeight fs 0 ∨ T'.height = outHeight fs 0 + 1 ∧ depth = T'.height) := by
  obtain ⟨below, f, above, hfs, hzero, hlast, hlastPar, habove⟩ :=
    here.unbal.resolve_left fun h => by cases h.2.1
  obtain ⟨hnodup, -, hapart⟩ := nodup_plug.mp nodup
  have hnode : node ∉ around fs := hapart node (mem_leaf.mpr rfl)
  -- the node is linked to its parent
  obtain ⟨par, hpar, hole₁, hleaf⟩ : ∃ par, s.par = some par ∧
      Hole (t.setLink par (sideOf s.val) (some node)).links t.root fs (some node) ∧
      Points (t.setLink par (sideOf s.val) (some node)).links (some node) (leaf node) := by
    cases fs with
    | nil => exact absurd hfs (by simp)
    | cons f₀ fs =>
      have hne : node ≠ f₀.node := fun h => hnode (mem_around_cons.mpr (.inl h))
      refine ⟨f₀.node, here.par, ?_, ?_⟩
      · rw [here.val f₀ rfl, sideOf_weight]
        exact hole.set hnodup (some node)
      · refine points_node.mpr ⟨rfl, points_nil.mpr ?_, points_nil.mpr ?_⟩
        · exact (congrFun (set_of_node_ne hne) _).trans (hlinks _)
        · exact (congrFun (set_of_node_ne hne) _).trans (hlinks _)
  rw [hfs] at hole₁
  obtain ⟨q, hbelow, hq, hsib, hole₂⟩ := hole_append.mp hole₁
  have hX : Points (t.setLink par (sideOf s.val) (some node)).links q (plug below (leaf node)) :=
    points_plug.mpr ⟨_, hbelow, hleaf⟩
  obtain ⟨subRoot, rfl⟩ : ∃ c, q = some c := by
    cases q with
    | some c => exact ⟨c, rfl⟩
    | none =>
      have hmem : node ∈ (plug below (leaf node)).nodes := mem_nodes_plug.mpr (.inl (mem_leaf.mpr rfl))
      rw [points_none.mp hX] at hmem
      cases hmem
  -- the factors below the last unbalanced node
  rw [hfs, avlPath_append] at avl
  obtain ⟨hpath, hframe, hpath'⟩ := avl
  rw [hfs, plug_append] at nodup
  obtain ⟨hnodup', hnodupX, hapart'⟩ := nodup_plug.mp nodup
  obtain ⟨bf', hset, havlX, hheight, hsub, hsame⟩ := growBelow_spec
    (t := { t.setLink par (sideOf s.val) (some node) with nNodes := t.nNodes + 1, traverse := s.traverse })
    hcmp (fun g hg => way g (by rw [hfs]; exact mem_append_left _ hg)) hbelow hnodupX hbf hpath hzero
    (show below.length ≤ s.traverse.length by rw [here.length, hfs, length_append]; omega)
  have hout : ∀ x ∈ around (f :: above), bf' x = t.bf x := by
    intro x hx
    exact hsame x fun h => hapart' x (mem_nodes_plug.mpr (.inr h)) hx
  have hframe' : AvlFrame bf' f (outHeight below 0) := by
    obtain ⟨h₁, h₂, h₃⟩ := hframe
    have hf := hout f.node (mem_around_cons.mpr (.inl rfl))
    refine ⟨hf.trans h₁, by rw [hf]; exact h₂, h₃.congr fun x hx => ?_⟩
    exact hout x (mem_around_cons.mpr (.inr (.inl hx)))
  -- and at this node
  obtain ⟨depth, t', S', hrun, hrot, havl, hdepth⟩ := rebalanceInsert_spec
    (t := { t.setLink par (sideOf s.val) (some node) with
      nNodes := t.nNodes + 1, traverse := s.traverse, bf := bf' })
    hole₂ (points_fill.mpr ⟨rfl, by rw [hq]; exact hX, hsib⟩) nodup havlX hheight hframe' hq hsub hlast hlastPar
  have hval : cmp node s.lastUnbal = weight f.side := by
    rw [hlast, hcmp, way f (by rw [hfs]; simp)]
    rfl
  have hinsert : insertAt cmp t node s =
      some (if depth > t'.maxDepth then { t' with maxDepth := depth } else t') := by
    unfold insertAt
    rw [hpar, bind_eq_bind, bind_some]
    dsimp only
    rw [hval, sideOf_weight, hlast, hq, bind_eq_bind, bind_some]
    dsimp only [setLink] at hset ⊢
    rw [hset, bind_eq_bind, bind_some]
    dsimp only [setLink] at hrun ⊢
    rw [hrun]
    rfl
  have hmaxDepth : t'.maxDepth = t.maxDepth := hrot.maxDepth
  have htree : Points t'.links t'.root (plug above S') := hrot.points
  have hold : outHeight fs 0 = outHeight above (max (outHeight below 0) f.sib.height + 1) := by
    rw [hfs, outHeight_append, outHeight]
  have hnodes : (plug above S').nodes = (plug fs (leaf node)).nodes := by
    rw [nodes_plug, hrot.nodes, ← nodes_plug, hfs, plug_append, plug]
  have havlOut : AvlPath t'.bf above (max (outHeight below 0) f.sib.height + 1) := by
    refine hpath'.congr fun x hx => ?_
    rw [hrot.bf x]
    · exact hout x (mem_around_cons.mpr (.inr (.inr hx)))
    · exact fun h => (nodup_plug (w := above).mp nodup).2.2 x h hx
  obtain ⟨hT, hdepth', hgrown⟩ : Avl t'.bf (plug above S') ∧ depth ≤ (plug above S').height ∧
      ((plug above S').height = outHeight fs 0 ∨
        (plug above S').height = outHeight fs 0 + 1 ∧ depth = (plug above S').height) := by
    have hfbf : bf' f.node = t.bf f.node := hout f.node (mem_around_cons.mpr (.inl rfl))
    rw [here.length] at hdepth
    rcases hdepth with ⟨hz, rfl, hh⟩ | ⟨hz, rfl, hh⟩
    · -- every node on the way was balanced
      obtain rfl := habove (hfbf.symm.trans hz)
      have hlength : outHeight fs 0 = 0 + fs.length := by
        have hall : AvlPath t.bf (below ++ [f]) 0 := avlPath_append.mpr ⟨hpath, ⟨hframe, hpath'⟩⟩
        rw [hfs]
        exact hall.length_of_zero (forall_mem_append.mpr
          ⟨hzero, forall_mem_singleton.mpr (hfbf.symm.trans hz)⟩)
      rw [outHeight] at hold
      refine ⟨havl, ?_, .inr ⟨?_, ?_⟩⟩ <;> rw [plug] <;> omega
    · have hheight' : (plug above S').height = outHeight fs 0 := by rw [height_plug, hh, hold]
      have := length_le_outHeight fs 0
      refine ⟨avl_plug.mpr ⟨by rw [hh]; exact havlOut, havl⟩, by omega, .inl hheight'⟩
  refine ⟨_, plug above S', depth, hinsert, ?_⟩
  split_ifs with hdeeper
  · refine ⟨htree, hT, hnodes, hrot.nNodes, hrot.traverseLen, ?_, hdepth', hgrown⟩
    rw [max_eq_right (by omega)]
  · refine ⟨htree, hT, hnodes, hrot.nNodes, hrot.traverseLen, ?_, hdepth', hgrown⟩
    rw [max_eq_left (by omega), hmaxDepth]

/-! ### The whole function -/

/-- The root holds a height-balanced tree. -/
structure Shape (t : TreeRoot α) (T : BTree α) : Prop where
  points : Points t.links t.root T
  avl : Avl t.bf T
  nodup : T.nodes.Nodup
  nNodes : t.nNodes = T.nodes.length

omit [DecidableEq α] in
theorem chkTraverse_eq (t : TreeRoot α) :
    chkTraverse t = { t with traverseLen := (chkTraverse t).traverseLen } := by
  unfold chkTraverse
  split_ifs <;> rfl

/-- The node as `tree_insert` prepares it. -/
def prepare (t : TreeRoot α) (node : α) : TreeRoot α :=
  (((chkTraverse t).setLink node .right none).setLink node .left none).setBf node 0

theorem prepare_spec (shape : Shape t T) (hnode : node ∉ T.nodes) :
    Shape (prepare t node) T ∧ (∀ side, (prepare t node).links node side = none) ∧
      (prepare t node).bf node = 0 ∧ (prepare t node).root = t.root ∧
      (prepare t node).maxDepth = t.maxDepth ∧
      (prepare t node).traverseLen = (chkTraverse t).traverseLen := by
  have hchk := chkTraverse_eq t
  have hlinks : (chkTraverse t).links = t.links := by rw [hchk]
  have hbf : (chkTraverse t).bf = t.bf := by rw [hchk]
  have hroot : (prepare t node).root = t.root := by
    unfold prepare
    rw [hchk]
    rfl
  have hnNodes : (prepare t node).nNodes = t.nNodes := by
    unfold prepare
    rw [hchk]
    rfl
  refine ⟨⟨?_, ?_, shape.nodup, hnNodes.trans shape.nNodes⟩, ?_, update_self _ _ _, hroot, ?_, rfl⟩
  · rw [hroot]
    refine shape.points.congr fun x hx => ?_
    have hne : x ≠ node := fun h => hnode (h ▸ hx)
    simp only [prepare, setBf, setLink, set_of_node_ne hne, hlinks]
  · refine shape.avl.congr fun x hx => ?_
    have hne : x ≠ node := fun h => hnode (h ▸ hx)
    simp only [prepare, setBf, setLink, update_of_ne hne, hbf]
  · rintro (_ | _)
    · exact set_self
    · exact (set_of_side_ne (by decide)).trans set_self
  · unfold prepare
    rw [hchk]
    rfl

theorem treeInsert_eq (cmp : α → α → Int) (t : TreeRoot α) (node : α) :
    treeInsert cmp t node = match (prepare t node).root with
    | none => some (true, { prepare t node with root := some node, nNodes := 1, maxDepth := 1 })
    | some root => do
      let (found, s) ← insertSearch cmp (prepare t node) node (prepare t node).traverseLen
        (some root) ⟨none, 0, root, none, []⟩
      if found then return (false, { prepare t node with traverse := s.traverse })
      else return (true, ← insertAt cmp (prepare t node) node s) := rfl

omit [DecidableEq α] in
theorem searchAt_root {root : α} (hroot : t.root = some root) :
    SearchAt t [] t.root ⟨none, 0, root, none, []⟩ :=
  ⟨rfl, fun f hf => absurd hf (by simp), rfl, Or.inl ⟨rfl, hroot, rfl⟩⟩

section

variable (hcmp : ∀ a, cmp node a = valOf (dir a)) (shape : Shape t T) (hnode : node ∉ T.nodes)
  (hroom : T.height ≤ (chkTraverse t).traverseLen)
include hcmp shape hnode hroom

/-- The way down ends at a node: the tree stays as it is, with the way in the traversal vector. -/
theorem treeInsert_found {l r : BTree α} {a : α} (hdescend : descend dir T [] = (gs, .node l a r)) :
    treeInsert cmp t node =
      some (false, { prepare t node with traverse := ⟨some a, .self⟩ :: gs.map passed }) := by
  obtain ⟨shape₁, -, -, -, -, htraverseLen⟩ := prepare_spec shape hnode
  rw [treeInsert_eq]
  generalize prepare t node = t₁ at *
  cases hroot : t₁.root with
  | none =>
    obtain rfl := points_none.mp (hroot ▸ shape₁.points)
    cases hdescend
  | some root =>
    obtain ⟨s, hsearch, htraverse⟩ := (insertSearch_spec hcmp shape₁.points shape₁.avl
      (hroom.trans_eq htraverseLen.symm) (searchAt_root hroot)).2 gs l a r hdescend
    rw [hroot] at hsearch
    dsimp only
    rw [hsearch, bind_eq_bind, ← htraverse]
    rfl

/-- The way down ends at an empty place: the node is inserted there. -/
theorem treeInsert_new (way : ∀ f ∈ gs, dir f.node = some f.side)
    (hdescend : descend dir T [] = (gs, .nil)) (hplug : T = plug gs .nil) :
    ∃ t' T', treeInsert cmp t node = some (true, t') ∧ Shape t' T' ∧
      T'.nodes = before gs ++ node :: after gs ∧
      t'.traverseLen = (chkTraverse t).traverseLen ∧
      (T'.height = T.height ∨ T'.height = T.height + 1 ∧ T'.height ≤ t'.maxDepth) ∧
      (T ≠ .nil → ∃ depth ≤ T'.height, t'.maxDepth = max t.maxDepth depth) := by
  obtain ⟨shape₁, hlinks, hbf, hroot, hmaxDepth, htraverseLen⟩ := prepare_spec shape hnode
  rw [treeInsert_eq]
  generalize prepare t node = t₁ at *
  have hnodes : T.nodes = before gs ++ after gs := by
    rw [hplug, nodes_plug, BTree.nodes, append_nil]
  cases hcase : t₁.root with
  | none =>
    have hT : T = .nil := points_none.mp (hcase ▸ shape₁.points)
    subst hT
    cases hdescend
    refine ⟨_, leaf node, rfl, ⟨?_, ?_, nodup_singleton node, rfl⟩, rfl,
      htraverseLen, .inr ⟨rfl, le_refl 1⟩, fun h => absurd rfl h⟩
    · exact points_node.mpr ⟨rfl, points_nil.mpr (hlinks _), points_nil.mpr (hlinks _)⟩
    · exact ⟨by rw [hbf]; rfl, by rw [hbf]; decide, trivial, trivial⟩
  | some root =>
    obtain ⟨s, hsearch, hat⟩ := (insertSearch_spec hcmp shape₁.points shape₁.avl
      (hroom.trans_eq htraverseLen.symm) (searchAt_root hcase)).1 gs hdescend
    rw [hcase] at hsearch
    subst hplug
    obtain ⟨q, hole, hq⟩ := points_plug.mp shape₁.points
    obtain rfl := points_nil.mp hq
    have hperm : (plug gs (leaf node)).nodes.Perm (node :: (plug gs .nil).nodes) := by
      rw [nodes_plug, nodes_plug, leaf, BTree.nodes, append_nil, append_assoc]
      exact perm_middle
    obtain ⟨t', T', depth, hrun, hpoints, havl, hnodes', hnNodes, hlen, hmax, hdepth, hgrown⟩ :=
      insertAt_spec hcmp way hole hlinks hbf
        (hperm.nodup_iff.mpr (nodup_cons.mpr ⟨hnode, shape.nodup⟩)) (avl_plug.mp shape₁.avl).1 hat
    rw [height_plug]
    refine ⟨t', T', ?_, ⟨hpoints, havl, ?_, ?_⟩, ?_, hlen.trans htraverseLen, ?_, fun _ => ?_⟩
    · dsimp only
      rw [hsearch, bind_eq_bind, bind_some]
      rw [hrun]
      rfl
    · rw [hnodes', hperm.nodup_iff]
      exact nodup_cons.mpr ⟨hnode, shape.nodup⟩
    · rw [hnNodes, shape₁.nNodes, hnodes', hperm.length_eq, length_cons]
    · rw [hnodes', nodes_plug, append_assoc]
      rfl
    · rcases hgrown with h | ⟨h, hd⟩
      · exact .inl h
      · refine .inr ⟨h, ?_⟩
        rw [hmax, ← hd]
        exact le_max_right _ _
    · exact ⟨depth, hdepth, by rw [hmax, hmaxDepth]⟩

end

section Order

variable {κ : Type} [LinearOrder κ] {key : α → κ}

/-- The comparator of a total order on the keys. -/
def keyCmp (key : α → κ) (a b : α) : Int :=
  if key a < key b then -1 else if key b < key a then 1 else 0

omit [DecidableEq α] in
theorem keyCmp_eq (a b : α) : keyCmp key a b = valOf (toward key (key a) b) := by
  unfold keyCmp toward
  split_ifs <;> rfl

/-- The root holds a height-balanced search tree. -/
structure Holds (key : α → κ) (t : TreeRoot α) (T : BTree α) : Prop where
  points : Points t.links t.root T
  avl : Avl t.bf T
  sorted : Sorted key T
  nNodes : t.nNodes = T.nodes.length

variable {T : BTree α}

omit [DecidableEq α] in
theorem Holds.shape (holds : Holds key t T) : Shape t T :=
  ⟨holds.points, holds.avl, holds.sorted.nodup, holds.nNodes⟩

omit [DecidableEq α] in
theorem Shape.holds (shape : Shape t T) (sorted : Sorted key T) : Holds key t T :=
  ⟨shape.points, shape.avl, sorted, shape.nNodes⟩

/-- `tree_insert` adds the node, unless there is one with an equal key. -/
theorem treeInsert_spec (holds : Holds key t T) (hnode : node ∉ T.nodes)
    (hroom : T.height ≤ (chkTraverse t).traverseLen) :
    ∃ done t' T', treeInsert (keyCmp key) t node = some (done, t') ∧ Holds key t' T' ∧
      (done = true ↔ ∀ x ∈ T.nodes, key x ≠ key node) ∧
      T'.nodes.Perm (if done then node :: T.nodes else T.nodes) ∧
      t'.traverseLen = (chkTraverse t).traverseLen ∧
      (T'.height = T.height ∨ T'.height = T.height + 1 ∧ T'.height ≤ t'.maxDepth) ∧
      (T ≠ .nil → ∃ depth ≤ T'.height, t'.maxDepth = max t.maxDepth depth) := by
  obtain ⟨gs, way, ⟨hdescend, hplug⟩ | ⟨l, a, r, hdescend, ha, rfl⟩⟩ :=
    descend_cases (toward key (key node)) T
  · obtain ⟨t', T', hrun, shape, hnodes, hlen, hheight, hdepth⟩ :=
      treeInsert_new (keyCmp_eq node) holds.shape hnode hroom way hdescend hplug
    subst hplug
    have hsorted := holds.sorted.insert way
    rw [Sorted, nodes_plug, append_assoc] at hsorted
    refine ⟨true, t', T', hrun, shape.holds ?_, iff_of_true rfl fun x hx hkey => ?_, ?_, hlen, hheight, hdepth⟩
    · rw [Sorted, hnodes]
      exact hsorted
    · exact (holds.sorted.directed _).dir_ne_none way hx (toward_eq_none.mpr hkey)
    · rw [hnodes, nodes_plug, BTree.nodes, append_nil]
      exact perm_middle
  · obtain ⟨shape, -, -, -, hmaxDepth, hlen⟩ := prepare_spec holds.shape hnode
    refine ⟨false, _, _, treeInsert_found (keyCmp_eq node) holds.shape hnode hroom hdescend,
      ⟨shape.points, shape.avl, holds.sorted, shape.nNodes⟩, ?_, .refl _, hlen, .inl rfl,
      fun _ => ⟨0, Nat.zero_le _, hmaxDepth.trans (Nat.max_zero _).symm⟩⟩
    exact iff_of_false Bool.false_ne_true fun h => h a (mem_plug_node gs l a r) (toward_eq_none.mp ha)

end Order

end Coda.Rvm
