import Coda.Rvm.Tree

/-!
Height balance of the trees, at a place of a tree and through rotations.

A node with its heavy child is two frames on the heavy side, so that one lemma covers both
mirror images of a rotation.
-/

namespace Coda.Rvm

open Coda.Lib List Function Links TreeRoot Frame

section Avl

variable {α : Type}

/-- Balance factors are the differences of heights, and at most 1. -/
def Avl (bf : α → Int) : BTree α → Prop
  | .nil => True
  | .node l a r => bf a = r.height - l.height ∧ (-1 ≤ bf a ∧ bf a ≤ 1) ∧ Avl bf l ∧ Avl bf r

/-- The same for the node of a frame, around a tree of height `h`. -/
def AvlFrame (bf : α → Int) (f : Frame α) (h : Nat) : Prop :=
  bf f.node = weight f.side * (h - f.sib.height) ∧ (-1 ≤ bf f.node ∧ bf f.node ≤ 1) ∧ Avl bf f.sib

/-- The same for a place, around a tree of height `h`. -/
def AvlPath (bf : α → Int) : List (Frame α) → Nat → Prop
  | [], _ => True
  | f :: fs, h => AvlFrame bf f h ∧ AvlPath bf fs (max h f.sib.height + 1)

variable {bf bf' : α → Int} {f : Frame α} {fs gs : List (Frame α)} {t : BTree α} {h : Nat}

theorem avl_fill : Avl bf (f.fill t) ↔ AvlFrame bf f t.height ∧ Avl bf t := by
  obtain ⟨side, a, sib⟩ := f
  cases side with
  | left =>
    simp only [fill, AvlFrame, weight]
    constructor
    · rintro ⟨h₁, h₂, ht, hs⟩
      exact ⟨⟨by omega, h₂, hs⟩, ht⟩
    · rintro ⟨⟨h₁, h₂, hs⟩, ht⟩
      exact ⟨by omega, h₂, ht, hs⟩
  | right =>
    simp only [fill, AvlFrame, weight]
    constructor
    · rintro ⟨h₁, h₂, hs, ht⟩
      exact ⟨⟨by omega, h₂, hs⟩, ht⟩
    · rintro ⟨⟨h₁, h₂, hs⟩, ht⟩
      exact ⟨by omega, h₂, hs, ht⟩

theorem avl_plug : Avl bf (plug fs t) ↔ AvlPath bf fs t.height ∧ Avl bf t := by
  induction fs generalizing t with
  | nil => exact ⟨fun h => ⟨trivial, h⟩, And.right⟩
  | cons f fs ih => rw [plug, ih, height_fill, avl_fill, AvlPath, and_assoc, and_left_comm]

theorem avlPath_append : AvlPath bf (fs ++ gs) h ↔ AvlPath bf fs h ∧ AvlPath bf gs (outHeight fs h) := by
  induction fs generalizing h with
  | nil => exact ⟨fun h => ⟨trivial, h⟩, And.right⟩
  | cons f fs ih => rw [cons_append, AvlPath, ih, AvlPath, outHeight, and_assoc]

theorem Avl.congr (avl : Avl bf t) (same : ∀ a ∈ t.nodes, bf' a = bf a) : Avl bf' t := by
  induction t with
  | nil => trivial
  | node l a r ihl ihr =>
    obtain ⟨h₁, h₂, hl, hr⟩ := avl
    have ha : bf' a = bf a := same a (mem_append_right _ (.head _))
    refine ⟨ha.trans h₁, by rw [ha]; exact h₂, ?_, ?_⟩
    · exact ihl hl fun b hb => same b (mem_append_left _ hb)
    · exact ihr hr fun b hb => same b (mem_append_right _ (.tail a hb))

/-- A balanced tree has exponentially many nodes. -/
theorem Avl.two_pow_le (avl : Avl bf t) : 2 ^ (t.height / 2) ≤ t.nodes.length + 1 := by
  induction t with
  | nil => simp [BTree.height, BTree.nodes]
  | node l a r ihl ihr =>
    obtain ⟨h₁, h₂, hl, hr⟩ := avl
    have hle : 2 ^ ((max l.height r.height - 1) / 2) ≤ 2 ^ (l.height / 2) :=
      Nat.pow_le_pow_right (by omega) (Nat.div_le_div_right (by omega))
    have hre : 2 ^ ((max l.height r.height - 1) / 2) ≤ 2 ^ (r.height / 2) :=
      Nat.pow_le_pow_right (by omega) (Nat.div_le_div_right (by omega))
    have := ihl hl
    have := ihr hr
    rw [BTree.height, BTree.nodes, length_append, length_cons]
    by_cases hzero : max l.height r.height = 0
    · rw [hzero]
      exact Nat.le_add_left 1 _
    · rw [show (max l.height r.height + 1) / 2 = (max l.height r.height - 1) / 2 + 1 by omega]
      omega

theorem AvlPath.congr (avl : AvlPath bf fs h) (same : ∀ a ∈ around fs, bf' a = bf a) :
    AvlPath bf' fs h := by
  induction fs generalizing h with
  | nil => trivial
  | cons f fs ih =>
    obtain ⟨⟨h₁, h₂, hsib⟩, hrest⟩ := avl
    have hf : bf' f.node = bf f.node := same _ (mem_around_cons.mpr (.inl rfl))
    refine ⟨⟨hf.trans h₁, by rw [hf]; exact h₂, ?_⟩, ?_⟩
    · exact hsib.congr fun a ha => same a (mem_around_cons.mpr (.inr (.inl ha)))
    · exact ih hrest fun a ha => same a (mem_around_cons.mpr (.inr (.inr ha)))

theorem weight_flip (s : Side) : weight s.flip = -weight s := by cases s <;> rfl

/-- Below the last unbalanced node a tree that is one higher makes every node heavy on the side
of the place. -/
theorem AvlPath.grow (avl : AvlPath bf fs h) (zero : ∀ f ∈ fs, bf f.node = 0)
    (grown : ∀ f ∈ fs, bf' f.node = weight f.side) (same : ∀ f ∈ fs, ∀ a ∈ f.sib.nodes, bf' a = bf a) :
    AvlPath bf' fs (h + 1) ∧ outHeight fs (h + 1) = outHeight fs h + 1 := by
  induction fs generalizing h with
  | nil => exact ⟨trivial, rfl⟩
  | cons f fs ih =>
    obtain ⟨⟨h₁, -, hsib⟩, hrest⟩ := avl
    have hf := grown f (.head _)
    rw [zero f (.head _)] at h₁
    have hh : h = f.sib.height := by
      cases hside : f.side <;> rw [hside, weight] at h₁ <;> omega
    subst hh
    rw [max_self] at hrest
    obtain ⟨ihpath, ihheight⟩ := ih hrest (fun g hg => zero g (.tail f hg))
      (fun g hg => grown g (.tail f hg)) (fun g hg => same g (.tail f hg))
    have hmax : max (f.sib.height + 1) f.sib.height = f.sib.height + 1 := max_eq_left (by omega)
    refine ⟨⟨⟨?_, ?_, hsib.congr (same f (.head _))⟩, ?_⟩, ?_⟩
    · rw [hf]
      cases f.side <;> rw [weight] <;> omega
    · rw [hf]
      cases f.side <;> rw [weight] <;> decide
    · rw [hmax]
      exact ihpath
    · rw [outHeight, hmax, ihheight, outHeight, max_self]

/-- A way along balanced nodes is as long as the tree is high. -/
theorem AvlPath.length_of_zero (avl : AvlPath bf fs h) (zero : ∀ f ∈ fs, bf f.node = 0) :
    outHeight fs h = h + fs.length := by
  induction fs generalizing h with
  | nil => rfl
  | cons f fs ih =>
    obtain ⟨⟨h₁, -, -⟩, hrest⟩ := avl
    rw [zero f (.head _)] at h₁
    have hh : h = f.sib.height := by
      cases hside : f.side <;> rw [hside, weight] at h₁ <;> omega
    subst hh
    rw [max_self] at hrest
    rw [outHeight, max_self, ih hrest fun g hg => zero g (.tail f hg),
      length_cons]
    omega

end Avl

/-! ### Rotations -/

section Rotate

variable {α : Type}

/-- `b` with `c` on its heavy side. -/
def heavyTree (s : Side) (b : α) (L : BTree α) (c : α) (M R : BTree α) : BTree α :=
  Frame.fill ⟨s, b, L⟩ (Frame.fill ⟨s, c, M⟩ R)

/-- The tree after a single rotation. -/
def singleTree (s : Side) (b : α) (L : BTree α) (c : α) (M R : BTree α) : BTree α :=
  Frame.fill ⟨s, c, Frame.fill ⟨s, b, L⟩ M⟩ R

/-- The tree after a double rotation, where `n` with `M₁` and `M₂` was between `b` and `c`. -/
def doubleTree (s : Side) (b : α) (L : BTree α) (n : α) (M₁ M₂ : BTree α) (c : α) (R : BTree α) :
    BTree α :=
  Frame.fill ⟨s, n, Frame.fill ⟨s, b, L⟩ M₁⟩ (Frame.fill ⟨s, c, M₂⟩ R)

variable {s : Side} {b c n : α} {L M R M₁ M₂ : BTree α}

theorem nodes_single : (singleTree s b L c M R).nodes = (heavyTree s b L c M R).nodes := by
  cases s <;>
    simp only [singleTree, heavyTree, fill, BTree.nodes, append_assoc, cons_append]

theorem nodes_double : (doubleTree s b L n M₁ M₂ c R).nodes =
    (heavyTree s b L c (Frame.fill ⟨s, n, M₁⟩ M₂) R).nodes := by
  cases s <;>
    simp only [doubleTree, heavyTree, fill, BTree.nodes, append_assoc, cons_append]

variable {bf : α → Int}

/-- The balance factor of a node with trees of heights `m` and `l`, the first on the side `s`. -/
def Factor (s : Side) (v : Int) (m l : Nat) : Prop := v = weight s * (m - l) ∧ (-1 ≤ v ∧ v ≤ 1)

theorem factor_zero {m l : Nat} (h : m = l) : Factor s 0 m l := by
  rw [Factor, h, Int.sub_self, Int.mul_zero]
  decide

theorem avl_singleTree (hL : Avl bf L) (hM : Avl bf M) (hR : Avl bf R)
    (hb : Factor s (bf b) M.height L.height)
    (hc : Factor s (bf c) R.height (max M.height L.height + 1)) :
    Avl bf (singleTree s b L c M R) ∧
      (singleTree s b L c M R).height = max R.height (max M.height L.height + 1) + 1 := by
  constructor
  · refine avl_fill.mpr ⟨⟨?_, hc.2, avl_fill.mpr ⟨⟨hb.1, hb.2, hL⟩, hM⟩⟩, hR⟩
    rw [height_fill]
    exact hc.1
  · rw [singleTree, height_fill, height_fill]

theorem avl_doubleTree (hL : Avl bf L) (hM₁ : Avl bf M₁) (hM₂ : Avl bf M₂) (hR : Avl bf R)
    (hb : Factor s (bf b) M₁.height L.height) (hc : Factor s (bf c) R.height M₂.height)
    (hn : Factor s (bf n) (max R.height M₂.height + 1) (max M₁.height L.height + 1)) :
    Avl bf (doubleTree s b L n M₁ M₂ c R) ∧ (doubleTree s b L n M₁ M₂ c R).height =
      max (max R.height M₂.height + 1) (max M₁.height L.height + 1) + 1 := by
  constructor
  · refine avl_fill.mpr ⟨⟨?_, hn.2, avl_fill.mpr ⟨⟨hb.1, hb.2, hL⟩, hM₁⟩⟩,
      avl_fill.mpr ⟨⟨hc.1, hc.2, hM₂⟩, hR⟩⟩
    rw [height_fill, height_fill]
    exact hn.1
  · rw [doubleTree, height_fill, height_fill, height_fill]

/-- The nodes of a heavy tree are different ones. -/
theorem nodup_heavyTree (nodup : (heavyTree s b L c M R).nodes.Nodup) : b ≠ c ∧
    (∀ x ∈ L.nodes, x ≠ b ∧ x ≠ c) ∧ (∀ x ∈ M.nodes, x ≠ b ∧ x ≠ c) ∧ ∀ x ∈ R.nodes, x ≠ b ∧ x ≠ c := by
  obtain ⟨hbL, hb, -, hnodup, hL⟩ := nodup_fill.mp nodup
  obtain ⟨hcM, hcR, -, -, hM⟩ := nodup_fill.mp hnodup
  simp only [mem_nodes_fill, not_or] at hb
  refine ⟨hb.1, fun x hx => ⟨?_, ?_⟩, fun x hx => ⟨?_, ?_⟩, fun x hx => ⟨?_, ?_⟩⟩
  · rintro rfl
    exact hbL hx
  · rintro rfl
    exact hL x (mem_nodes_fill.mpr (.inl rfl)) hx
  · rintro rfl
    exact hb.2.1 hx
  · rintro rfl
    exact hcM hx
  · rintro rfl
    exact hb.2.2 hx
  · rintro rfl
    exact hcR hx

variable [DecidableEq α] {t : TreeRoot α} {p : Option α}

theorem rotateSingle_points (hp : Points t.links p (heavyTree s b L c M R))
    (nodup : (heavyTree s b L c M R).nodes.Nodup) :
    Points (rotateSingle t s b c).links (some c) (singleTree s b L c M R) ∧
      ∀ x, x ≠ b → x ≠ c → (rotateSingle t s b c).links x = t.links x := by
  obtain ⟨hbc, hL, hM, hR⟩ := nodup_heavyTree nodup
  obtain ⟨-, hc, hpL⟩ := points_fill.mp hp
  obtain ⟨-, hpR, hpM⟩ := points_fill.mp hc
  have other : ∀ x, x ≠ b → x ≠ c → (rotateSingle t s b c).links x = t.links x := by
    intro x hxb hxc
    simp only [rotateSingle, setLink, set_of_node_ne hxc, set_of_node_ne hxb]
  have hcs : (rotateSingle t s b c).links c s = t.links c s := by
    simp only [rotateSingle, setLink, set_of_side_ne s.ne_flip,
      set_of_node_ne hbc.symm]
  have hcf : (rotateSingle t s b c).links c s.flip = some b := set_self
  have hbs : (rotateSingle t s b c).links b s = t.links c s.flip := by
    simp only [rotateSingle, setLink, set_of_node_ne hbc, set_self]
  have hbf : (rotateSingle t s b c).links b s.flip = t.links b s.flip := by
    simp only [rotateSingle, setLink, set_of_node_ne hbc,
      set_of_side_ne s.flip_ne]
  refine ⟨points_fill.mpr ⟨rfl, ?_, points_fill.mpr ⟨hcf, ?_, ?_⟩⟩, other⟩
  · rw [hcs]
    exact hpR.congr fun x hx => other x (hR x hx).1 (hR x hx).2
  · rw [hbs]
    exact hpM.congr fun x hx => other x (hM x hx).1 (hM x hx).2
  · rw [hbf]
    exact hpL.congr fun x hx => other x (hL x hx).1 (hL x hx).2

omit [DecidableEq α] in
/-- The same, with a node between the two. -/
theorem nodup_heavyTree_double (nodup : (heavyTree s b L c (Frame.fill ⟨s, n, M₁⟩ M₂) R).nodes.Nodup) :
    b ≠ c ∧ b ≠ n ∧ c ≠ n ∧ ∀ T : BTree α, T = L ∨ T = M₁ ∨ T = M₂ ∨ T = R →
      ∀ x ∈ T.nodes, x ≠ b ∧ x ≠ c ∧ x ≠ n := by
  obtain ⟨hbc, hL, hM, hR⟩ := nodup_heavyTree nodup
  obtain ⟨-, -, -, hnodupC, hLC⟩ := nodup_fill.mp nodup
  obtain ⟨-, -, hnodupM, -, hRM⟩ := nodup_fill.mp hnodupC
  obtain ⟨hn₁, hn₂, -, -, -⟩ := nodup_fill.mp hnodupM
  have hnmem : n ∈ (fill ⟨s, n, M₁⟩ M₂).nodes := mem_nodes_fill.mpr (.inl rfl)
  refine ⟨hbc, (hM n hnmem).1.symm, (hM n hnmem).2.symm, ?_⟩
  rintro T (rfl | rfl | rfl | rfl) x hx
  · refine ⟨(hL x hx).1, (hL x hx).2, ?_⟩
    rintro rfl
    exact hLC x (mem_nodes_fill.mpr (.inr (.inl hnmem))) hx
  · obtain ⟨h₁, h₂⟩ := hM x (mem_nodes_fill.mpr (.inr (.inl hx)))
    exact ⟨h₁, h₂, fun h => hn₁ (h ▸ hx)⟩
  · obtain ⟨h₁, h₂⟩ := hM x (mem_nodes_fill.mpr (.inr (.inr hx)))
    exact ⟨h₁, h₂, fun h => hn₂ (h ▸ hx)⟩
  · refine ⟨(hR x hx).1, (hR x hx).2, ?_⟩
    rintro rfl
    exact hRM x hx hnmem

theorem rotateDouble_points (hp : Points t.links p (heavyTree s b L c (Frame.fill ⟨s, n, M₁⟩ M₂) R))
    (nodup : (heavyTree s b L c (Frame.fill ⟨s, n, M₁⟩ M₂) R).nodes.Nodup) :
    t.links c s.flip = some n ∧
    Points (rotateDouble t s b c n).links (some n) (doubleTree s b L n M₁ M₂ c R) ∧
      ∀ x, x ≠ b → x ≠ c → x ≠ n → (rotateDouble t s b c n).links x = t.links x := by
  obtain ⟨hbc, hbn, hcn', hne⟩ := nodup_heavyTree_double nodup
  have hnb := hbn.symm
  have hnc := hcn'.symm
  obtain ⟨-, hc, hpL⟩ := points_fill.mp hp
  obtain ⟨-, hpR, hpM⟩ := points_fill.mp hc
  obtain ⟨hcn, hpM₂, hpM₁⟩ := points_fill.mp hpM
  have other : ∀ x, x ≠ b → x ≠ c → x ≠ n → (rotateDouble t s b c n).links x = t.links x := by
    intro x hxb hxc hxn
    simp only [rotateDouble, setLink, set_of_node_ne hxb, set_of_node_ne hxc,
      set_of_node_ne hxn]
  have hcs : (rotateDouble t s b c n).links c s = t.links c s := by
    simp only [rotateDouble, setLink, set_of_node_ne hnc.symm,
      set_of_node_ne hbc.symm, set_of_side_ne s.ne_flip]
  have hcf : (rotateDouble t s b c n).links c s.flip = t.links n s := by
    simp only [rotateDouble, setLink, set_of_node_ne hnc.symm,
      set_of_node_ne hbc.symm, set_self]
  have hbs : (rotateDouble t s b c n).links b s = t.links n s.flip := by
    simp only [rotateDouble, setLink, set_of_node_ne hnb.symm, set_self,
      set_of_node_ne hnc]
  have hbf : (rotateDouble t s b c n).links b s.flip = t.links b s.flip := by
    simp only [rotateDouble, setLink, set_of_node_ne hnb.symm,
      set_of_side_ne s.flip_ne, set_of_node_ne hbc]
  have hns : (rotateDouble t s b c n).links n s = some c := by
    simp only [rotateDouble, setLink, set_of_side_ne s.ne_flip, set_self]
  have hnf : (rotateDouble t s b c n).links n s.flip = some b := set_self
  have keep : ∀ T : BTree α, T = L ∨ T = M₁ ∨ T = M₂ ∨ T = R → ∀ {q}, Points t.links q T →
      Points (rotateDouble t s b c n).links q T := by
    intro T hT q hq
    exact hq.congr fun x hx => other x (hne T hT x hx).1 (hne T hT x hx).2.1 (hne T hT x hx).2.2
  refine ⟨hcn, points_fill.mpr ⟨rfl, points_fill.mpr ⟨hns, ?_, ?_⟩, points_fill.mpr ⟨hnf, ?_, ?_⟩⟩, other⟩
  · rw [hcs]
    exact keep R (by tauto) hpR
  · rw [hcf]
    exact keep M₂ (by tauto) hpM₂
  · rw [hbs]
    exact keep M₁ (by tauto) hpM₁
  · rw [hbf]
    exact keep L (by tauto) hpL

/-- The end of a rotation: the link that led to `b` leads to `n`. -/
theorem relink_hole {fs : List (Frame α)} (hole : Hole t.links t.root fs (some b))
    (nodup : (around fs).Nodup) (hb : b ∉ around fs) {t' : TreeRoot α}
    (hrun : relink t b (fs.head?.map Frame.node) n = t') :
    Hole t'.links t'.root fs (some n) ∧ (∀ x, x ∉ around fs → t'.links x = t.links x) ∧
      t'.bf = t.bf ∧ t'.nNodes = t.nNodes ∧ t'.maxDepth = t.maxDepth ∧
      t'.traverseLen = t.traverseLen := by
  subst hrun
  cases fs with
  | nil => exact ⟨rfl, fun _ _ => rfl, rfl, rfl, rfl, rfl⟩
  | cons f fs =>
    have hset : relink t b ((f :: fs).head?.map node) n = t.setLink f.node f.side (some n) := by
      obtain ⟨hlink, hsib, -⟩ := hole
      rw [List.head?_cons, Option.map_some, relink]
      cases hside : f.side with
      | right =>
        rw [hside] at hlink
        rw [if_pos hlink]
      | left =>
        rw [hside] at hlink hsib
        have hne : t.links f.node .right ≠ some b := by
          intro heq
          rw [show Side.left.flip = .right from rfl, heq] at hsib
          obtain ⟨l, r, hsibeq, -, -⟩ := points_some.mp hsib
          refine hb (mem_around_cons.mpr (.inr (.inl ?_)))
          rw [hsibeq]
          exact mem_append_right _ (.head _)
        rw [if_neg hne, if_pos hlink]
    rw [hset]
    refine ⟨hole.set nodup (some n), fun x hx => ?_, rfl, rfl, rfl, rfl⟩
    exact set_of_node_ne fun h => hx (mem_around_cons.mpr (.inl h))

/-- The tree at a place was replaced by one with the same nodes. -/
structure Rotated (t t' : TreeRoot α) (fs : List (Frame α)) (S S' : BTree α) : Prop where
  points : Points t'.links t'.root (plug fs S')
  nodes : S'.nodes = S.nodes
  bf : ∀ x, x ∉ S.nodes → t'.bf x = t.bf x
  nNodes : t'.nNodes = t.nNodes
  maxDepth : t'.maxDepth = t.maxDepth
  traverseLen : t'.traverseLen = t.traverseLen

variable {fs : List (Frame α)}

/-- A tree is rebuilt at its place, and nothing else has changed. -/
theorem rotated_of_local {t₁ : TreeRoot α} {S S' : BTree α} (hole : Hole t.links t.root fs (some b))
    (nodup : (plug fs S).nodes.Nodup) (hb : b ∈ S.nodes) (points : Points t₁.links (some n) S')
    (nodes : S'.nodes = S.nodes) (links : ∀ x ∉ S.nodes, t₁.links x = t.links x)
    (bf : ∀ x ∉ S.nodes, t₁.bf x = t.bf x) (root : t₁.root = t.root) (nNodes : t₁.nNodes = t.nNodes)
    (maxDepth : t₁.maxDepth = t.maxDepth) (traverseLen : t₁.traverseLen = t.traverseLen) :
    Rotated t (relink t₁ b (fs.head?.map Frame.node) n) fs S S' ∧
      (relink t₁ b (fs.head?.map Frame.node) n).bf = t₁.bf := by
  obtain ⟨hnodup, -, hapart⟩ := nodup_plug.mp nodup
  have hole' : Hole t₁.links t₁.root fs (some b) := by
    rw [root]
    exact hole.congr fun x hx => links x fun h => hapart x h hx
  obtain ⟨hhole, hlinks, hbf, h₁, h₂, h₃⟩ := relink_hole hole' hnodup (hapart b hb) rfl
  refine ⟨⟨?_, nodes, fun x hx => ?_, h₁.trans nNodes, h₂.trans maxDepth, h₃.trans traverseLen⟩, hbf⟩
  · refine points_plug.mpr ⟨some n, hhole, points.congr fun x hx => hlinks x ?_⟩
    rw [nodes] at hx
    exact hapart x hx
  · rw [hbf]
    exact bf x hx

/-- Balance factors that were set at nodes outside of a tree. -/
theorem Avl.update {T : BTree α} (h : Avl bf T) {x : α} (hx : ∀ y ∈ T.nodes, y ≠ x) (v : Int) :
    Avl (update bf x v) T :=
  h.congr fun y hy => update_of_ne (hx y hy) _ _

/-- The balance factor of a node set to what its subtrees give. -/
theorem avl_setBf {f : Frame α} {X : BTree α} {v : Int} (nodup : (f.fill X).nodes.Nodup)
    (hsib : Avl t.bf f.sib) (hX : Avl t.bf X) (hv : v = weight f.side * (X.height - f.sib.height))
    (hrange : -1 ≤ v ∧ v ≤ 1) : Avl (t.setBf f.node v).bf (f.fill X) := by
  obtain ⟨hfsib, hfX, -, -, -⟩ := nodup_fill.mp nodup
  have hself : (t.setBf f.node v).bf f.node = v := update_self _ _ _
  refine avl_fill.mpr ⟨⟨hself.trans hv, by rw [hself]; exact hrange, ?_⟩, ?_⟩
  · exact hsib.update (x := f.node) (fun y hy hyf => hfsib (hyf ▸ hy)) v
  · exact hX.update (x := f.node) (fun y hy hyf => hfX (hyf ▸ hy)) v

section

variable (hole : Hole t.links t.root fs p) (hp : Points t.links p (heavyTree s b L c M R))
  (nodup : (plug fs (heavyTree s b L c M R)).nodes.Nodup)
include hole hp nodup

theorem rotated_single (v w : Int) {t' : TreeRoot α}
    (hrun : relink (((rotateSingle t s b c).setBf b v).setBf c w) b (fs.head?.map Frame.node) c = t') :
    Rotated t t' fs (heavyTree s b L c M R) (singleTree s b L c M R) ∧
      t'.bf = update (update t.bf b v) c w := by
  subst hrun
  obtain ⟨hpoints, hother⟩ := rotateSingle_points hp (nodup_plug.mp nodup).2.1
  obtain rfl : p = some b := (points_fill.mp hp).1
  have hb : b ∈ (heavyTree s b L c M R).nodes := mem_nodes_fill.mpr (.inl rfl)
  have hne : ∀ x ∉ (heavyTree s b L c M R).nodes, x ≠ b ∧ x ≠ c := by
    simp only [heavyTree, mem_nodes_fill, not_or]
    exact fun x hx => ⟨hx.1, hx.2.2.1⟩
  refine rotated_of_local hole nodup hb hpoints nodes_single (fun x hx => ?_) (fun x hx => ?_)
    rfl rfl rfl rfl
  · exact hother x (hne x hx).1 (hne x hx).2
  · exact (update_of_ne (hne x hx).2 _ _).trans (update_of_ne (hne x hx).1 _ _)

theorem rotated_single_avl (hL : Avl t.bf L) (hM : Avl t.bf M) (hR : Avl t.bf R) {v w : Int}
    (hv : Factor s v M.height L.height) (hw : Factor s w R.height (max M.height L.height + 1)) :
    ∃ t', relink (((rotateSingle t s b c).setBf b v).setBf c w) b (fs.head?.map Frame.node) c = t' ∧
      Rotated t t' fs (heavyTree s b L c M R) (singleTree s b L c M R) ∧
      Avl t'.bf (singleTree s b L c M R) ∧
      (singleTree s b L c M R).height = max R.height (max M.height L.height + 1) + 1 := by
  obtain ⟨-, hnodup, -⟩ := nodup_plug.mp nodup
  obtain ⟨hbc, hLne, hMne, hRne⟩ := nodup_heavyTree hnodup
  obtain ⟨hrot, hbf⟩ := rotated_single hole hp nodup v w rfl
  have hb : update (update t.bf b v) c w b = v := by
    rw [update_of_ne hbc, update_self]
  have hc : update (update t.bf b v) c w c = w := update_self _ _ _
  refine ⟨_, rfl, hrot, ?_⟩
  rw [hbf]
  refine avl_singleTree ?_ ?_ ?_ (hb.symm ▸ hv) (hc.symm ▸ hw)
  · exact (hL.update (fun y hy => (hLne y hy).1) v).update (fun y hy => (hLne y hy).2) w
  · exact (hM.update (fun y hy => (hMne y hy).1) v).update (fun y hy => (hMne y hy).2) w
  · exact (hR.update (fun y hy => (hRne y hy).1) v).update (fun y hy => (hRne y hy).2) w

end

section

variable (hole : Hole t.links t.root fs p)
  (hp : Points t.links p (heavyTree s b L c (Frame.fill ⟨s, n, M₁⟩ M₂) R))
  (nodup : (plug fs (heavyTree s b L c (Frame.fill ⟨s, n, M₁⟩ M₂) R)).nodes.Nodup)
include hole hp nodup

theorem rotated_double (u v w : Int) {t' : TreeRoot α}
    (hrun : relink ((((rotateDouble t s b c n).setBf b u).setBf c v).setBf n w) b
      (fs.head?.map Frame.node) n = t') :
    t.links c s.flip = some n ∧
      Rotated t t' fs (heavyTree s b L c (Frame.fill ⟨s, n, M₁⟩ M₂) R) (doubleTree s b L n M₁ M₂ c R) ∧
      t'.bf = update (update (update t.bf b u) c v) n w := by
  subst hrun
  obtain ⟨hcn, hpoints, hother⟩ := rotateDouble_points hp (nodup_plug.mp nodup).2.1
  obtain rfl : p = some b := (points_fill.mp hp).1
  have hb : b ∈ (heavyTree s b L c (fill ⟨s, n, M₁⟩ M₂) R).nodes :=
    mem_nodes_fill.mpr (.inl rfl)
  have hne : ∀ x ∉ (heavyTree s b L c (fill ⟨s, n, M₁⟩ M₂) R).nodes,
      x ≠ b ∧ x ≠ c ∧ x ≠ n := by
    simp only [heavyTree, mem_nodes_fill, not_or]
    exact fun x hx => ⟨hx.1, hx.2.2.1, hx.2.2.2.1.1⟩
  refine ⟨hcn, rotated_of_local hole nodup hb hpoints nodes_double (fun x hx => ?_)
    (fun x hx => ?_) rfl rfl rfl rfl⟩
  · exact hother x (hne x hx).1 (hne x hx).2.1 (hne x hx).2.2
  · exact (update_of_ne (hne x hx).2.2 _ _).trans
      ((update_of_ne (hne x hx).2.1 _ _).trans (update_of_ne (hne x hx).1 _ _))

theorem rotated_double_avl (hL : Avl t.bf L) (hM₁ : Avl t.bf M₁) (hM₂ : Avl t.bf M₂)
    (hR : Avl t.bf R) {u v w : Int} (hu : Factor s u M₁.height L.height)
    (hv : Factor s v R.height M₂.height)
    (hw : Factor s w (max R.height M₂.height + 1) (max M₁.height L.height + 1)) :
    ∃ t', relink ((((rotateDouble t s b c n).setBf b u).setBf c v).setBf n w) b
        (fs.head?.map Frame.node) n = t' ∧
      Rotated t t' fs (heavyTree s b L c (Frame.fill ⟨s, n, M₁⟩ M₂) R) (doubleTree s b L n M₁ M₂ c R) ∧
      Avl t'.bf (doubleTree s b L n M₁ M₂ c R) ∧ (doubleTree s b L n M₁ M₂ c R).height =
        max (max R.height M₂.height + 1) (max M₁.height L.height + 1) + 1 := by
  obtain ⟨-, hrot, hbf⟩ := rotated_double hole hp nodup u v w rfl
  obtain ⟨-, hnodup, -⟩ := nodup_plug.mp nodup
  obtain ⟨hbc, hbn, hcn, hne⟩ := nodup_heavyTree_double hnodup
  set bf' := update (update (update t.bf b u) c v) n w with hbf'
  have hb : bf' b = u := by rw [hbf', update_of_ne hbn, update_of_ne hbc, update_self]
  have hc : bf' c = v := by rw [hbf', update_of_ne hcn, update_self]
  have hn : bf' n = w := update_self _ _ _
  have keep : ∀ T : BTree α, T = L ∨ T = M₁ ∨ T = M₂ ∨ T = R → Avl t.bf T → Avl bf' T := by
    intro T hT h
    exact ((h.update (fun y hy => (hne T hT y hy).1) u).update (fun y hy => (hne T hT y hy).2.1) v).update
      (fun y hy => (hne T hT y hy).2.2) w
  refine ⟨_, rfl, hrot, ?_⟩
  rw [hbf]
  exact avl_doubleTree (keep L (by tauto) hL) (keep M₁ (by tauto) hM₁) (keep M₂ (by tauto) hM₂)
    (keep R (by tauto) hR) (hb.symm ▸ hu) (hc.symm ▸ hv) (hn.symm ▸ hw)

end

end Rotate

end Coda.Rvm
