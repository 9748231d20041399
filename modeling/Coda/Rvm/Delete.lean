import Coda.Rvm.Insert

/-!
`tree_delete` on a linked, balanced search tree.

The entries of the traversal vector are the frames of the place. Where the deleted node has two
children, its replacement is the innermost frame of a way that keeps to one side.
-/

namespace Coda.Rvm

open Coda.Lib List Option Function Links TreeRoot

variable {α : Type}

/-- The entry of the traversal vector for a frame. -/
def entry (f : Frame α) : TreePos α := ⟨some f.node, stateOf f.side⟩

theorem head_entry (fs : List (Frame α)) :
    (fs.map entry).head?.bind TreePos.ptr = fs.head?.map Frame.node := by
  cases fs <;> rfl

variable [DecidableEq α] {t : TreeRoot α} {fs : List (Frame α)} {p : Option α}
  {cmp : α → α → Int} {node : α} {dir : α → Option Side}

/-! ### Rebalancing -/

theorem rebalance_cons (f : Frame α) (above : List (TreePos α)) (t : TreeRoot α) :
    rebalance (entry f :: above) t =
      if t.bf f.node = 0 then some (t.setBf f.node (weight f.side.flip))
      else if t.bf f.node + weight f.side.flip = 0 then rebalance above (t.setBf f.node 0)
      else (t.links f.node f.side.flip).bind fun subRoot =>
        (deleteRotate t f.node (above.head?.bind TreePos.ptr) subRoot f.side.flip).bind fun x =>
          if x.1 then rebalance above x.2 else some x.2 := by
  obtain ⟨side, a, sib⟩ := f
  cases side <;> rfl

/-- The loop up the path, from a place where the tree became one lower. -/
theorem rebalance_spec {S : BTree α} (hole : Hole t.links t.root fs p) (hp : Points t.links p S)
    (nodup : (plug fs S).nodes.Nodup) (hS : Avl t.bf S) (path : AvlPath t.bf fs (S.height + 1)) :
    ∃ t' T', rebalance (fs.map entry) t = some t' ∧ Points t'.links t'.root T' ∧ Avl t'.bf T' ∧
      T'.nodes = (plug fs S).nodes ∧ T'.height ≤ outHeight fs (S.height + 1) ∧
      t'.nNodes = t.nNodes ∧ t'.traverseLen = t.traverseLen := by
  induction fs generalizing t p S with
  | nil =>
    obtain rfl : p = t.root := hole
    exact ⟨t, S, rfl, hp, hS, rfl, Nat.le_succ _, rfl, rfl⟩
  | cons f fs ih =>
    obtain ⟨hlink, hsib, hole'⟩ := hole
    obtain ⟨⟨hfbf, hfrange, havlsib⟩, path'⟩ := path
    have hfill : Points t.links (some f.node) (f.fill S) := points_fill.mpr ⟨rfl, by rw [hlink]; exact hp, hsib⟩
    obtain ⟨-, hnodup, hapart⟩ := nodup_plug (w := fs).mp nodup
    have hlight : weight f.side.flip = -weight f.side := weight_flip f.side
    have set_points : ∀ v, Points (t.setBf f.node v).links (some f.node) (f.fill S) := fun _ => hfill
    have set_avl := fun v => avl_setBf hnodup havlsib hS (v := v)
    have set_path : ∀ v h, AvlPath t.bf fs h → AvlPath (t.setBf f.node v).bf fs h := by
      intro v h hpath
      refine hpath.congr fun x hx => update_of_ne (fun hxf => ?_) _ _
      exact hapart x (mem_nodes_fill.mpr (.inl hxf)) hx
    rw [map_cons, rebalance_cons]
    by_cases hzero : t.bf f.node = 0
    · -- the other side is higher now, by one
      have hh : f.sib.height = S.height + 1 := by
        cases hs : f.side <;> rw [hs] at hfbf <;> simp only [weight] at hfbf <;> omega
      have hmax : max S.height f.sib.height = max (S.height + 1) f.sib.height := by omega
      rw [if_pos hzero]
      refine ⟨_, plug fs (f.fill S), rfl, points_plug.mpr ⟨_, hole', set_points _⟩,
        avl_plug.mpr ⟨set_path _ _ ?_, set_avl _ ?_ ?_⟩, rfl, ?_, rfl, rfl⟩
      · rw [height_fill, hmax]
        exact path'
      · rw [hlight]
        cases f.side <;> simp only [weight] <;> omega
      · cases f.side <;> decide
      · rw [height_plug, height_fill, outHeight, hmax]
    rw [if_neg hzero]
    by_cases hlower : t.bf f.node + weight f.side.flip = 0
    · -- balanced now, and one lower
      have hh : f.sib.height = S.height := by
        rw [hlight] at hlower
        cases hs : f.side <;> rw [hs] at hfbf hlower <;> simp only [weight] at hfbf hlower <;> omega
      rw [if_pos hlower]
      have hheight : (f.fill S).height + 1 = max (S.height + 1) f.sib.height + 1 := by
        rw [height_fill]
        omega
      obtain ⟨t', T', hrun, hpoints, havl, hnodes, hT', hn, hl⟩ := ih (t := t.setBf f.node 0) hole' (set_points _)
        nodup (set_avl 0 (by rw [hh, Int.sub_self, Int.mul_zero]) (by decide))
        (set_path _ _ (by rw [hheight]; exact path'))
      refine ⟨t', T', hrun, hpoints, havl, hnodes, ?_, hn, hl⟩
      rw [outHeight, ← hheight]
      exact hT'
    rw [if_neg hlower]
    have hh : f.sib.height = S.height + 2 := by
      rw [hlight] at hlower
      cases hs : f.side <;> rw [hs] at hfbf hlower <;> simp only [weight] at hfbf hlower <;> omega
    -- two lower than the other side
    rw [fill_flip] at hfill
    rw [plug, fill_flip] at nodup
    rw [plug, fill_flip]
    obtain ⟨side, a, sib⟩ := f
    dsimp only at *
    obtain ⟨c, M, R, rfl⟩ := exists_fill side.flip (T := sib) (by omega)
    have hsub : t.links a side.flip = some c := (points_fill.mp hsib).1
    have hM : max R.height M.height = S.height + 1 := by
      rw [height_fill] at hh
      dsimp only at hh
      omega
    obtain ⟨lower, t₁, S₁, hrun, hrot, havl, hS₁⟩ := deleteRotate_spec hole' hfill nodup hS havlsib hM
    have hmax : max (S.height + 1) (S.height + 2) + 1 = S.height + 3 := by omega
    have hpath₁ : AvlPath t₁.bf fs (S.height + 3) := by
      rw [hh, hmax] at path'
      exact path'.congr fun x hx => hrot.bf x fun h => (nodup_plug.mp nodup).2.2 x h hx
    have hnodes₁ : (plug fs S₁).nodes =
        (plug fs (Frame.fill ⟨side.flip, a, S⟩ (Frame.fill ⟨side.flip, c, M⟩ R))).nodes := by
      rw [nodes_plug, hrot.nodes, ← nodes_plug]
      rfl
    have hold : outHeight (⟨side, a, Frame.fill ⟨side.flip, c, M⟩ R⟩ :: fs) (S.height + 1) =
        outHeight fs (S.height + 3) := by
      rw [outHeight, hh, hmax]
    rw [hsub, bind_some, head_entry, hrun, bind_some, hold]
    cases lower with
    | false =>
      rw [if_neg Bool.false_ne_true] at hS₁ ⊢
      refine ⟨t₁, plug fs S₁, rfl, hrot.points, avl_plug.mpr ⟨by rw [hS₁]; exact hpath₁, havl⟩, hnodes₁, ?_,
        hrot.nNodes, hrot.traverseLen⟩
      rw [height_plug, hS₁]
    | true =>
      obtain ⟨q, hole₁, hq⟩ := points_plug.mp hrot.points
      obtain ⟨t', T', hrun', hpoints, havl', hnodes, hT', hn, hl⟩ := ih hole₁ hq
        (by rw [hnodes₁]; exact nodup) havl (by rw [hS₁]; exact hpath₁)
      refine ⟨t', T', hrun', hpoints, havl', hnodes.trans hnodes₁, ?_, hn.trans hrot.nNodes,
        hl.trans hrot.traverseLen⟩
      rw [hS₁] at hT'
      exact hT'

/-! ### The node and its replacement -/

variable {T : BTree α} {room : Nat}

/-- The search follows `dir`. -/
theorem deleteSearch_spec (fs : List (Frame α)) (hcmp : ∀ a, cmp node a = valOf (dir a))
    (hp : Points t.links p T) (avl : Avl t.bf T) (hroom : T.height ≤ room)
    (hnode : ∀ a ∈ T.nodes, dir a = none → a = node) :
    deleteSearch cmp t node room p (fs.map entry) =
      some (match (descend dir T fs).2 with
        | .nil => none
        | .node _ _ _ => some ((descend dir T fs).1.map entry)) := by
  induction T generalizing fs p room with
  | nil =>
    obtain rfl := points_nil.mp hp
    rw [deleteSearch]
    rfl
  | node l a r ihl ihr =>
    obtain ⟨rfl, hl, hr⟩ := points_node.mp hp
    obtain ⟨-, hrange, havl, havr⟩ := avl
    rw [BTree.height] at hroom
    obtain ⟨room, rfl⟩ : ∃ n, room = n + 1 := ⟨room - 1, by omega⟩
    have hbf : ¬(t.bf a < -1 ∨ t.bf a > 1) := by omega
    have ha := hcmp a
    unfold deleteSearch descend
    rw [if_neg hbf, ha]
    cases hdir : dir a with
    | none =>
      have hself := hnode a (mem_append_right _ (.head _)) hdir
      rw [if_neg (by decide), if_pos (show valOf none = 0 from rfl), if_pos hself]
    | some side =>
      cases side with
      | left =>
        exact ihl (⟨.left, a, r⟩ :: fs) hl havl (by omega) fun x hx =>
          hnode x (mem_append_left _ hx)
      | right =>
        exact ihr (⟨.right, a, l⟩ :: fs) hr havr (by omega) fun x hx =>
          hnode x (mem_append_right _ (.tail a hx))

/-- The search writes behind the vector, where the way to the node is too long for it. -/
theorem deleteSearch_overflow {a : α} {traverse : List (TreePos α)}
    (hcmp : ∀ f ∈ fs, cmp node f.node = weight f.side) (hole : Hole t.links p fs (some a))
    (hroom : room ≤ fs.length) : deleteSearch cmp t node room p traverse = none := by
  induction fs using List.reverseRecOn generalizing p room traverse with
  | nil =>
    obtain rfl : some a = p := hole
    obtain rfl := Nat.le_zero.mp hroom
    rfl
  | append_singleton fs g ih =>
    obtain ⟨q, hole', hq, -, rfl⟩ := hole_append.mp hole
    cases room with
    | zero => rfl
    | succ room =>
      have hrest : ∀ traverse, deleteSearch cmp t node room q traverse = none := fun traverse =>
        ih (fun f hf => hcmp f (mem_append_left _ hf)) hole' (by simp at hroom; omega)
      have hval := hcmp g (by simp)
      unfold deleteSearch
      rw [hval]
      cases hside : g.side with
      | left =>
        rw [hside] at hq
        rw [hq, hrest, if_pos (show weight .left = -1 from rfl)]
        split_ifs <;> rfl
      | right =>
        rw [hside] at hq
        rw [hq, hrest, if_neg (show weight .right ≠ -1 by decide),
          if_neg (show weight .right ≠ 0 by decide)]
        split_ifs <;> rfl

omit [DecidableEq α] in
/-- The way to the replacement keeps to one side, down to an empty link. -/
theorem selectLoop_spec (fs : List (Frame α)) (sel : List (TreePos α)) {s : Side}
    (hp : Points t.links p T) (avl : Avl t.bf T) (hroom : T.height ≤ room) :
    selectLoop t s room p (fs.map entry ++ sel) =
      some ((descend (fun _ => some s) T fs).1.map entry ++ sel) := by
  induction T generalizing fs p room with
  | nil =>
    obtain rfl := points_nil.mp hp
    rw [selectLoop]
    rfl
  | node l a r ihl ihr =>
    obtain ⟨rfl, hl, hr⟩ := points_node.mp hp
    obtain ⟨-, hrange, havl, havr⟩ := avl
    rw [BTree.height] at hroom
    obtain ⟨room, rfl⟩ : ∃ n, room = n + 1 := ⟨room - 1, by omega⟩
    have hbf : ¬(t.bf a < -1 ∨ t.bf a > 1) := by omega
    unfold selectLoop descend
    rw [if_neg hbf]
    cases s with
    | left => exact ihl (⟨.left, a, r⟩ :: fs) hl havl (by omega)
    | right => exact ihr (⟨.right, a, l⟩ :: fs) hr havr (by omega)

/-- The link that the entries lead to is replaced. -/
theorem replace_spec (hole : Hole t.links t.root fs p) (nodup : (around fs).Nodup) (q : Option α) :
    ∃ t', replace t (fs.map entry) q = some t' ∧ Hole t'.links t'.root fs q ∧
      (∀ x, x ∉ around fs → t'.links x = t.links x) ∧ t'.bf = t.bf ∧ t'.nNodes = t.nNodes ∧
      t'.traverseLen = t.traverseLen := by
  cases fs with
  | nil => exact ⟨_, rfl, rfl, fun _ _ => rfl, rfl, rfl, rfl⟩
  | cons f fs =>
    have hside : (if (entry f).state = .lss then Side.left else .right) = f.side := by
      obtain ⟨side, a, sib⟩ := f
      cases side <;> rfl
    refine ⟨t.setLink f.node f.side q, ?_, hole.set nodup q, fun x hx => ?_, rfl, rfl, rfl⟩
    · rw [map_cons, replace, hside]
      rfl
    · exact set_of_node_ne fun h => hx (mem_around_cons.mpr (.inl h))

/-- A place below which the tree became one lower, when `node` left it. -/
structure Lowered (t t' : TreeRoot α) (node : α) (T : BTree α) (gs : List (Frame α)) (q : Option α)
    (W : BTree α) : Prop where
  hole : Hole t'.links t'.root gs q
  points : Points t'.links q W
  avl : Avl t'.bf W
  path : AvlPath t'.bf gs (W.height + 1)
  height : outHeight gs (W.height + 1) = T.height
  removed : Removed node T.nodes (plug gs W).nodes
  nNodes : t'.nNodes = t.nNodes
  traverseLen : t'.traverseLen = t.traverseLen

/-- The place of an inner node after its replacement. -/
theorem deleteInner_spec (s : Side) (sib U : BTree α) (hT : T = Frame.fill ⟨s, node, sib⟩ U)
    (hole : Hole t.links t.root fs (some node)) (hp : Points t.links (some node) T)
    (nodup : (plug fs T).nodes.Nodup) (hU : U ≠ .nil) (avl : Avl t.bf T)
    (path : AvlPath t.bf fs T.height) (hroom : U.height ≤ t.traverseLen - (fs.length + 1)) :
    ∃ t' gs q W, deleteInner t node (fs.map entry) s = some (gs.map entry, t') ∧
      Lowered t t' node (plug fs T) gs q W := by
  subst hT
  obtain ⟨-, hpU, hpsib⟩ := points_fill.mp hp
  obtain ⟨⟨hnbf, hnrange, havlsib⟩, havlU⟩ := avl_fill.mp avl
  -- the way to the selected node
  have hselect := selectLoop_spec [] [] (s := s.flip) hpU havlU hroom
  rw [map_nil, append_nil, append_nil] at hselect
  have hplug := plug_descend (fun _ : α => some s.flip) U []
  have hside : ∀ g ∈ (descend (fun _ : α => some s.flip) U []).1, g.side = s.flip := fun g hg =>
    (some.inj ((descend_side hg).resolve_left not_mem_nil)).symm
  have hnil : (descend (fun _ : α => some s.flip) U []).2 = .nil :=
    (descend_stop _ U []).resolve_right fun ⟨_, _, _, _, h⟩ => by cases h
  rw [hnil] at hplug
  generalize (descend (fun _ : α => some s.flip) U []).1 = ws at hselect hplug hside
  obtain rfl : plug ws .nil = U := hplug
  cases ws with
  | nil => exact absurd rfl hU
  | cons w ws =>
    obtain ⟨side, cur, W⟩ := w
    obtain rfl : side = s.flip := hside _ (.head _)
    replace hside : ∀ g ∈ ws, g.side = s.flip := fun g hg => hside g (.tail _ hg)
    have hway : plug fs (Frame.fill ⟨s, node, sib⟩ (plug (⟨s.flip, cur, W⟩ :: ws) .nil)) =
        plug (⟨s.flip, cur, W⟩ :: (ws ++ ⟨s, node, sib⟩ :: fs)) .nil :=
      (plug_append (⟨s.flip, cur, W⟩ :: ws) (⟨s, node, sib⟩ :: fs) .nil).symm
    have hpoints := points_plug.mpr ⟨_, hole, hp⟩
    rw [hway] at nodup hpoints
    obtain ⟨q, ⟨-, hpW, hole₀⟩, -⟩ := points_plug.mp hpoints
    rw [Side.flip_flip] at hpW
    obtain ⟨hnodup, -, -⟩ := nodup_plug.mp nodup
    obtain ⟨hcurW, hcur, -, hnodup', hapartW⟩ := nodup_around_cons.mp hnodup
    obtain ⟨-, hnodupF, hapart⟩ := nodup_around_append hnodup'
    obtain ⟨hnodesib, hnodefs, -, hnodupfs, hapartsib⟩ := nodup_around_cons.mp hnodupF
    simp only [mem_around_append, mem_around_cons, not_or] at hcur hapartW hapart
    -- unlink selected node
    obtain ⟨t₁, hrun₁, hole₁, hlinks₁, hbf₁, hn₁, hl₁⟩ := replace_spec hole₀ hnodup' (t.links cur s)
    obtain ⟨q₁, hole₁', hq₁, hsib₁, holefs₁⟩ := hole_append.mp hole₁
    -- update selected node's state with target state
    let t₂ := ((t₁.setBf cur (t₁.bf node)).setLink cur .right (t₁.links node .right)).setLink cur .left
      (t₁.links node .left)
    have hlinks₂ : ∀ x, x ≠ cur → t₂.links x = t₁.links x := fun x hx => by
      simp only [t₂, setLink, setBf, set_of_node_ne hx]
    have hcur₂ : ∀ side, t₂.links cur side = t₁.links node side := by
      rintro (_ | _)
      · exact set_self
      · exact (set_of_side_ne (by decide)).trans set_self
    have holefs₂ : Hole t₂.links t₂.root fs (some node) :=
      holefs₁.congr fun x hx => hlinks₂ x fun h => hcur.2.2.2 (h ▸ hx)
    obtain ⟨t₃, hrun₃, hole₃, hlinks₃, hbf₃, hn₃, hl₃⟩ := replace_spec holefs₂ hnodupfs (some cur)
    have hbf₃' : t₃.bf = update t.bf cur (t.bf node) := by
      rw [hbf₃]
      simp only [t₂, setLink, setBf, hbf₁]
    have hcur₃ : ∀ side, t₃.links cur side = t₁.links node side := fun side => by
      rw [hlinks₃ cur hcur.2.2.2, hcur₂]
    have hlinks₃₁ : ∀ x, x ≠ cur → x ∉ around fs → t₃.links x = t₁.links x := fun x hx hx' =>
      (hlinks₃ x hx').trans (hlinks₂ x hx)
    -- its balance factor is the only one that changed
    have hsame : ∀ x, x ≠ cur → t₃.bf x = t.bf x := fun x hx => by
      rw [hbf₃', update_of_ne hx]
    have hcurbf : t₃.bf cur = t.bf node := by rw [hbf₃', update_self]
    obtain ⟨⟨⟨-, -, havlW⟩, hpathws⟩, -⟩ := avl_plug.mp havlU
    have hheight : (plug (⟨s.flip, cur, W⟩ :: ws) .nil).height = outHeight ws (W.height + 1) := by
      rw [height_plug, BTree.height, outHeight, Nat.zero_max]
    rw [hheight] at hnbf
    rw [height_fill, hheight] at path
    refine ⟨t₃, ws ++ ⟨s, cur, sib⟩ :: fs, t.links cur s, W, ?_, ?_, ?_, ?_, ?_, ?_, ?_, ?_, ?_⟩
    · unfold deleteInner
      rw [length_map]
      rw [hselect, bind_eq_bind, bind_some]
      rw [map_append, map_cons] at hrun₁ ⊢
      dsimp only [entry] at hrun₁ ⊢
      rw [bind_eq_bind, bind_some, hrun₁, bind_eq_bind, bind_some]
      have hread : ((t₁.setBf cur (t₁.bf node)).setLink cur .right
          ((t₁.setBf cur (t₁.bf node)).links node .right)).links node .left = t₁.links node .left :=
        congrFun (set_of_node_ne (Ne.symm hcur.2.1)) _
      rw [hread]
      change (replace t₂ (fs.map entry) (some cur)).bind _ = _
      rw [hrun₃]
      rfl
    · refine hole_append.mpr ⟨q₁, ?_, (hcur₃ s).trans hq₁, ?_, hole₃⟩
      · refine hole₁'.congr fun x hx => hlinks₃₁ x (fun h => hcur.1 (h ▸ hx)) (hapart x hx).2.2
      · rw [hcur₃]
        exact hsib₁.congr fun x hx => hlinks₃₁ x (fun h => hcur.2.2.1 (h ▸ hx)) (hapartsib x hx)
    · refine hpW.congr fun x hx => ?_
      obtain ⟨hx₁, hx₂, hx₃, hx₄⟩ := hapartW x hx
      rw [hlinks₃₁ x (fun h => hcurW (h ▸ hx)) hx₄, hlinks₁ x]
      simp only [mem_around_append, mem_around_cons, not_or]
      exact ⟨hx₁, hx₂, hx₃, hx₄⟩
    · exact havlW.congr fun x hx => hsame x fun h => hcurW (h ▸ hx)
    · refine avlPath_append.mpr ⟨?_, ⟨hcurbf.trans hnbf, by rw [hcurbf]; exact hnrange, ?_⟩, ?_⟩
      · exact hpathws.congr fun x hx => hsame x fun h => hcur.1 (h ▸ hx)
      · exact havlsib.congr fun x hx => hsame x fun h => hcur.2.2.1 (h ▸ hx)
      · exact path.congr fun x hx => hsame x fun h => hcur.2.2.2 (h ▸ hx)
    · rw [outHeight_append, outHeight, height_plug, height_fill, hheight]
    · rw [plug_append]
      exact (nodes_promote hside node cur sib W).plug fs
    · rw [hn₃]
      exact hn₁
    · rw [hl₃]
      exact hl₁

/-- The place of a node after it was unlinked: a tree that is one lower. -/
theorem unlink_spec {l r : BTree α} (hole : Hole t.links t.root fs (some node))
    (hp : Points t.links (some node) (.node l node r))
    (nodup : (plug fs (.node l node r)).nodes.Nodup) (avl : Avl t.bf (.node l node r))
    (path : AvlPath t.bf fs (BTree.node l node r).height)
    (hroom : (plug fs (.node l node r)).height ≤ t.traverseLen) :
    ∃ t' gs q W, unlink t node (fs.map entry) = some (gs.map entry, t') ∧
      Lowered t t' node (plug fs (.node l node r)) gs q W := by
  obtain ⟨-, hl, hr⟩ := points_node.mp hp
  obtain ⟨-, -, havll, havlr⟩ := id avl
  obtain ⟨hnodup, -, hapart⟩ := nodup_plug.mp nodup
  -- with an empty side, the other one takes the place
  have one : ∀ s W, Points t.links (t.links node s) W → Avl t.bf W →
      (BTree.node l node r).height = W.height + 1 → Removed node (BTree.node l node r).nodes W.nodes →
      ∃ t' gs q W, (replace t (fs.map entry) (t.links node s)).map (fun t => (fs.map entry, t)) =
        some (gs.map entry, t') ∧ Lowered t t' node (plug fs (.node l node r)) gs q W := by
    intro s W hW havlW hheight hremoved
    obtain ⟨t', hrun, hole', hlinks, hbf, hn, hlen⟩ := replace_spec hole hnodup (t.links node s)
    refine ⟨t', fs, t.links node s, W, by rw [hrun]; rfl, hole', ?_, by rw [hbf]; exact havlW, ?_, ?_,
      hremoved.plug fs, hn, hlen⟩
    · exact hW.congr fun x hx => hlinks x (hapart x (hremoved.mem hx))
    · rw [hbf, ← hheight]
      exact path
    · rw [height_plug, hheight]
  unfold unlink
  by_cases hleft : t.links node .left = none
  · rw [if_pos hleft]
    obtain rfl : l = .nil := points_none.mp (hleft ▸ hl)
    refine one .right r hr havlr ?_ ⟨[], r.nodes, rfl, rfl⟩
    rw [BTree.height, BTree.height, Nat.zero_max]
  rw [if_neg hleft]
  by_cases hright : t.links node .right = none
  · rw [if_pos hright]
    obtain rfl : r = .nil := points_none.mp (hright ▸ hr)
    refine one .left l hl havll ?_ ⟨l.nodes, [], rfl, (append_nil _).symm⟩
    rw [BTree.height, BTree.height, Nat.max_zero]
  rw [if_neg hright]
  have hlength := length_le_outHeight fs (BTree.node l node r).height
  rw [height_plug] at hroom
  rw [BTree.height] at hroom hlength
  cases replacementSide (t.bf node) (fs.map entry).length with
  | left =>
    refine deleteInner_spec .left r l rfl hole hp nodup ?_ avl path (by omega)
    exact fun h => hleft (points_nil.mp (h ▸ hl))
  | right =>
    refine deleteInner_spec .right l r rfl hole hp nodup ?_ avl path (by omega)
    exact fun h => hright (points_nil.mp (h ▸ hr))

/-! ### The whole function -/

theorem adjustDepth_eq (t : TreeRoot α) (oldRoot : α) (oldRootBf : Int) :
    ∃ d, adjustDepth t oldRoot oldRootBf = { t with maxDepth := d } := by
  unfold adjustDepth
  dsimp only
  split_ifs
  · exact ⟨_, rfl⟩
  · exact ⟨t.maxDepth, rfl⟩

omit [DecidableEq α] in
theorem Shape.chkTraverse (shape : Shape t T) : Shape (chkTraverse t) T := by
  rw [chkTraverse_eq]
  exact { shape with }

omit [DecidableEq α] in
theorem Shape.exists_root (shape : Shape t T) (hT : T ≠ .nil) : ∃ root, t.root = some root := by
  cases hroot : t.root with
  | some root => exact ⟨root, rfl⟩
  | none => exact absurd (points_none.mp (hroot ▸ shape.points)) hT

/-- The way down ends at an empty place. -/
theorem treeDelete_missing (hcmp : ∀ a, cmp node a = valOf (dir a)) (shape : Shape t T)
    (hT : T ≠ .nil) (hnode : ∀ x ∈ T.nodes, dir x = none → x = node)
    (hroom : T.height ≤ (chkTraverse t).traverseLen) {gs : List (Frame α)}
    (hdescend : descend dir T [] = (gs, .nil)) :
    treeDelete cmp t node = some (false, chkTraverse t) := by
  have shape₀ := shape.chkTraverse
  obtain ⟨oldRoot, hroot⟩ := shape.exists_root hT
  have hroot₀ : (chkTraverse t).root = t.root := by rw [chkTraverse_eq]
  have hsearch := deleteSearch_spec [] hcmp shape₀.points shape₀.avl hroom hnode
  rw [hroot₀, hroot, map_nil, hdescend] at hsearch
  unfold treeDelete
  rw [hroot, bind_eq_bind, bind_some]
  dsimp only
  rw [hsearch]
  rfl

/-- The way down ends at the node, which is removed. -/
theorem treeDelete_found (hcmp : ∀ a, cmp node a = valOf (dir a)) (shape : Shape t T)
    (hnode : ∀ x ∈ T.nodes, dir x = none → x = node)
    (hroom : T.height ≤ (chkTraverse t).traverseLen) {gs : List (Frame α)} {l r : BTree α}
    (hdescend : descend dir T [] = (gs, .node l node r)) :
    ∃ t' T', treeDelete cmp t node = some (true, t') ∧ Shape t' T' ∧ Removed node T.nodes T'.nodes ∧
      T'.height ≤ T.height ∧
      t'.traverseLen = if T'.nodes = [] then 0 else (chkTraverse t).traverseLen := by
  obtain ⟨points₀, avl₀, nodup, hn₀⟩ := shape.chkTraverse
  obtain ⟨oldRoot, hroot⟩ := shape.exists_root (by rintro rfl; cases hdescend)
  have hroot₀ : (chkTraverse t).root = t.root := by rw [chkTraverse_eq]
  have hsearch := deleteSearch_spec [] hcmp points₀ avl₀ hroom hnode
  rw [hroot₀, hroot, map_nil, hdescend] at hsearch
  have hplug := plug_descend dir T []
  rw [hdescend] at hplug
  obtain rfl : plug gs (.node l node r) = T := hplug
  generalize hT₀ : chkTraverse t = t₀ at *
  unfold treeDelete
  rw [hroot, bind_eq_bind, bind_some, hT₀]
  dsimp only
  rw [hsearch, bind_eq_bind, bind_some]
  obtain ⟨q, hole, hq⟩ := points_plug.mp points₀
  obtain rfl := (points_node.mp hq).1
  obtain ⟨hpath, havl⟩ := avl_plug.mp avl₀
  obtain ⟨t₁, gs', q, W, hunlink, hlow⟩ := unlink_spec (t := { t₀ with nNodes := t₀.nNodes - 1 }) hole hq
    nodup havl hpath hroom
  obtain ⟨t₂, T', hrun, hpoints, havl', hnodes, hheight, hn, hl⟩ := rebalance_spec hlow.hole hlow.points
    (hlow.removed.sublist.nodup nodup) hlow.avl hlow.path
  obtain ⟨d, hadjust⟩ := adjustDepth_eq t₂ oldRoot (t.bf oldRoot)
  dsimp only
  rw [hunlink, bind_eq_bind, bind_some]
  rw [hrun, bind_eq_bind, bind_some, hadjust]
  have hremoved := hlow.removed
  rw [← hnodes] at hremoved
  have hcount : t₂.nNodes = T'.nodes.length := by
    rw [hn, hlow.nNodes]
    rw [hn₀, hremoved.length, Nat.add_sub_cancel]
  refine ⟨_, T', rfl, ⟨hpoints, havl', hremoved.sublist.nodup nodup, hcount⟩, hremoved,
    hheight.trans_eq hlow.height, ?_⟩
  simp only [hcount, length_eq_zero_iff, hl, hlow.traverseLen]

section Order

variable {κ : Type} [LinearOrder κ] {key : α → κ}

/-- `tree_delete` removes the node, if it is in the tree. -/
theorem treeDelete_spec (holds : Holds key t T) (hT : T ≠ .nil) (node : α)
    (hnode : ∀ x ∈ T.nodes, key x = key node → x = node)
    (hroom : T.height ≤ (chkTraverse t).traverseLen) :
    ∃ done t' T', treeDelete (keyCmp key) t node = some (done, t') ∧ Holds key t' T' ∧
      (done = true ↔ node ∈ T.nodes) ∧
      (if done then Removed node T.nodes T'.nodes else T' = T) ∧ T'.height ≤ T.height ∧
      t'.traverseLen = if T'.nodes = [] then 0 else (chkTraverse t).traverseLen := by
  have hdir : ∀ x ∈ T.nodes, toward key (key node) x = none → x = node :=
    fun x hx h => hnode x hx (toward_eq_none.mp h)
  obtain ⟨gs, way, ⟨hdescend, hplug⟩ | ⟨l, a, r, hdescend, ha, hplug⟩⟩ :=
    descend_cases (toward key (key node)) T
  · refine ⟨false, _, T, treeDelete_missing (keyCmp_eq node) holds.shape hT hdir hroom hdescend,
      holds.shape.chkTraverse.holds holds.sorted, iff_of_false Bool.false_ne_true fun hmem => ?_, rfl,
      le_rfl, ?_⟩
    · subst hplug
      exact (holds.sorted.directed _).dir_ne_none way hmem (toward_eq_none.mpr rfl)
    · rw [if_neg fun h => hT (BTree.nodes_eq_nil.mp h)]
  · have hamem : a ∈ T.nodes := hplug ▸ mem_plug_node gs l a r
    obtain rfl : a = node := hdir a hamem ha
    obtain ⟨t', T', hrun, shape, hremoved, hheight, hlen⟩ :=
      treeDelete_found (keyCmp_eq a) holds.shape hdir hroom hdescend
    exact ⟨true, t', T', hrun, shape.holds (holds.sorted.sublist hremoved.sublist), iff_of_true rfl hamem,
      hremoved, hheight, hlen⟩

end Order

end Coda.Rvm
