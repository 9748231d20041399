import Coda.Lib.ParentTree
import Coda.Util.Bstree

/-!
The operations of the binary search trees, on the linked tree.

`Linked t T` says that the pointers of the nodes form the tree `T`, in both directions. Each
operation is a replacement at one place of it.
-/

namespace Coda.Util

open Coda.Lib List Function

variable {α τ : Type} [LinearOrder α]

/-- Child and parent pointers form the tree. -/
structure Linked (t : Bstree α τ) (T : BTree α) : Prop where
  points : Points t.child t.root T
  parents : Parents t.parent none T

/-- The same for a place with a link that holds `p`. -/
structure Place (t : Bstree α τ) (fs : List (Frame α)) (p : Option α) : Prop where
  hole : Hole t.child t.root fs p
  path : ParentPath t.parent fs

/-- The same for a tree that hangs below `par`. -/
structure Hangs (t : Bstree α τ) (par p : Option α) (T : BTree α) : Prop where
  points : Points t.child p T
  parents : Parents t.parent par T

/-- The owner of the nodes and their number. -/
structure SameBook (t t' : Bstree α τ) : Prop where
  this : t'.this = t.this
  cnt : t'.cnt = t.cnt
  mytree : t'.mytree = t.mytree

variable {t t' : Bstree α τ} {fs : List (Frame α)} {p q par : Option α} {T W : BTree α} {a b x : α}

variable {w : List (Frame α)} {l r : BTree α}

omit [LinearOrder α] in
theorem linked_plug : Linked t (plug w T) ↔
    ∃ p, Place t w p ∧ Hangs t (w.head?.map Frame.node) p T := by
  constructor
  · rintro ⟨hpoints, hparents⟩
    obtain ⟨p, hole, hp⟩ := points_plug.mp hpoints
    obtain ⟨hpath, hpar⟩ := parents_plug.mp hparents
    exact ⟨p, ⟨hole, hpath⟩, hp, hpar⟩
  · rintro ⟨p, ⟨hole, hpath⟩, hp, hpar⟩
    exact ⟨points_plug.mpr ⟨p, hole, hp⟩, parents_plug.mpr ⟨hpath, hpar⟩⟩

omit [LinearOrder α] in
theorem Place.congr (h : Place t fs p) (hroot : t'.root = t.root)
    (hchild : ∀ x ∈ around fs, t'.child x = t.child x)
    (hparent : ∀ x ∈ around fs, t'.parent x = t.parent x) : Place t' fs p :=
  ⟨hroot ▸ h.hole.congr hchild, h.path.congr hparent⟩

/-! ### SPLICE -/

section

variable (place : Place t fs (some x)) (hx : t.parent x = fs.head?.map Frame.node)
include place hx

/-- The link that held `x` holds `q`, and this node has a new parent. -/
theorem splice_place (nodup : (around fs).Nodup) (hxfs : x ∉ around fs)
    (hq : ∀ y ∈ q, y ∉ around fs) :
    Place (splice t x q) fs q ∧ (∀ y ∈ q, (splice t x q).parent y = fs.head?.map Frame.node) ∧
      (∀ y, y ∉ around fs → (splice t x q).child y = t.child y) ∧
      (∀ y, some y ≠ q → (splice t x q).parent y = t.parent y) ∧ SameBook t (splice t x q) := by
  -- the link of the parent, or the root
  obtain ⟨t₁, hsplice, hole₁, hchild₁, hparent₁, hbook₁⟩ : ∃ t₁,
      splice t x q = q.elim t₁ (t₁.setParent · (fs.head?.map Frame.node)) ∧
      Hole t₁.child t₁.root fs q ∧ (∀ y, y ∉ around fs → t₁.child y = t.child y) ∧
      t₁.parent = t.parent ∧ SameBook t t₁ := by
    cases fs with
    | nil =>
      refine ⟨{ t with root := q }, ?_, rfl, fun _ _ => rfl, rfl, rfl, rfl, rfl⟩
      unfold splice
      rw [hx]
      cases q <;> rfl
    | cons f fs =>
      refine ⟨t.setChild f.node f.side q, ?_, place.hole.set nodup q, fun y hy => ?_, rfl, rfl, rfl, rfl⟩
      · obtain ⟨hlink, hsib, -⟩ := place.hole
        have hside : (if t.child f.node .left = some x then t.setChild f.node .left q
            else t.setChild f.node .right q) = t.setChild f.node f.side q := by
          cases hside : f.side with
          | left =>
            rw [hside] at hlink
            exact if_pos hlink
          | right =>
            rw [hside] at hsib
            refine if_neg fun heq => hxfs (mem_around_cons.mpr (.inr (.inl ?_)))
            exact mem_of_points (heq ▸ hsib)
        unfold splice
        rw [hx, List.head?_cons, Option.map_some]
        dsimp only
        rewrite [hside]
        cases q <;> rfl
      · exact Links.set_of_node_ne fun h => hy (mem_around_cons.mpr (.inl h))
  -- the parent of the node that takes the place
  obtain ⟨parent', heq, hset, hsame⟩ : ∃ parent', splice t x q = { t₁ with parent := parent' } ∧
      (∀ y ∈ q, parent' y = fs.head?.map Frame.node) ∧ ∀ y, some y ≠ q → parent' y = t.parent y := by
    rw [hsplice, ← hparent₁]
    cases q with
    | none => exact ⟨t₁.parent, rfl, fun y hy => absurd hy (by simp), fun _ _ => rfl⟩
    | some n =>
      refine ⟨_, rfl, fun y hy => ?_, fun y hy => ?_⟩
      · obtain rfl := Option.some.inj hy
        exact update_self _ _ _
      · exact update_of_ne (fun h : y = n => hy (congrArg some h)) _ _
  have hpath : ∀ y ∈ around fs, parent' y = t.parent y := fun y hy =>
    hsame y fun h => hq y h.symm hy
  rw [heq]
  exact ⟨⟨hole₁, place.path.congr hpath⟩, hset, hchild₁, hsame, hbook₁.this, hbook₁.cnt, hbook₁.mytree⟩

/-- The tree that hangs below `x` takes its place. -/
theorem splice_spec (hangs : Hangs t par q W) (nodup : (plug fs W).nodes.Nodup)
    (hxfs : x ∉ around fs) :
    Linked (splice t x q) (plug fs W) ∧
      (∀ y, y ∉ around fs → (splice t x q).child y = t.child y) ∧
      (∀ y, y ∉ W.nodes → (splice t x q).parent y = t.parent y) ∧ SameBook t (splice t x q) := by
  obtain ⟨hnodup, hnodupW, hapart⟩ := nodup_plug.mp nodup
  have hq : ∀ y ∈ q, y ∈ W.nodes := by
    rintro y rfl
    exact mem_of_points hangs.points
  obtain ⟨place', hset, hchild, hparent, hbook⟩ := splice_place place hx hnodup hxfs
    fun y hy => hapart y (hq y hy)
  refine ⟨linked_plug.mpr ⟨q, place', hangs.points.congr fun y hy => hchild y (hapart y hy), ?_⟩, hchild,
    fun y hy => hparent y fun h => hy (hq y h.symm), hbook⟩
  exact hangs.parents.reparent hnodupW hangs.points _ hset fun y _ => hparent y

end

/-! ### FIRST and LAST -/

omit [LinearOrder α] in
/-- The way that keeps to side `s` ends at a node with nothing on this side. -/
theorem extremeLoop_spec {s : Side} {fuel : Nat} (hp : Points t.child (some a) T)
    (hfuel : T.height ≤ fuel) :
    ∃ ws cur W, extremeLoop t s fuel a = some cur ∧ T = plug (⟨s, cur, W⟩ :: ws) .nil ∧
      ∀ g ∈ ws, g.side = s := by
  induction T generalizing a fuel with
  | nil => exact absurd (points_nil.mp hp) (by simp)
  | node l b r ihl ihr =>
    obtain ⟨hb, hl, hr⟩ := points_node.mp hp
    obtain rfl := Option.some.inj hb
    rw [BTree.height] at hfuel
    obtain ⟨fuel, rfl⟩ : ∃ n, fuel = n + 1 := ⟨fuel - 1, by omega⟩
    -- one step towards the sub-tree on this side
    have step : ∀ U sib : BTree α, Points t.child (t.child a s) U → U.height ≤ fuel →
        (∀ c, Points t.child (some c) U → ∃ ws cur W, extremeLoop t s fuel c = some cur ∧
          U = plug (⟨s, cur, W⟩ :: ws) .nil ∧ ∀ g ∈ ws, g.side = s) →
        ∃ ws cur W, extremeLoop t s (fuel + 1) a = some cur ∧
          Frame.fill ⟨s, a, sib⟩ U = plug (⟨s, cur, W⟩ :: ws) .nil ∧ ∀ g ∈ ws, g.side = s := by
      intro U sib hU _ ih
      rw [extremeLoop]
      cases hc : t.child a s with
      | none =>
        rw [hc] at hU
        obtain rfl := points_none.mp hU
        exact ⟨[], a, sib, rfl, rfl, fun g hg => absurd hg not_mem_nil⟩
      | some c =>
        rw [hc] at hU
        obtain ⟨ws, cur, W, hrun, rfl, hside⟩ := ih c hU
        refine ⟨ws ++ [⟨s, a, sib⟩], cur, W, hrun, ?_, ?_⟩
        · rw [← cons_append, plug_append]
          rfl
        · exact forall_mem_append.mpr ⟨hside, forall_mem_singleton.mpr rfl⟩
    cases s with
    | left => exact step l r hl (by omega) fun c hc => ihl hc (by omega)
    | right => exact step r l hr (by omega) fun c hc => ihr hc (by omega)

/-! ### Removal of a node -/

/-- What a removal leaves as it was. -/
structure Frozen (t t' : Bstree α τ) (xs : List α) : Prop extends SameBook t t' where
  child : ∀ y, y ∉ xs → t'.child y = t.child y
  parent : ∀ y, y ∉ xs → t'.parent y = t.parent y

theorem adopt_spec (s : Side) :
    (adopt t b a s).child a s = t.child b s ∧
      (∀ s', s' ≠ s → (adopt t b a s).child a s' = t.child a s') ∧
      (∀ y, y ≠ a → (adopt t b a s).child y = t.child y) ∧
      (∀ y ∈ t.child b s, (adopt t b a s).parent y = some a) ∧
      (∀ y, some y ≠ t.child b s → (adopt t b a s).parent y = t.parent y) ∧
      (adopt t b a s).root = t.root ∧ SameBook t (adopt t b a s) := by
  have heq : adopt t b a s = (t.child b s).elim (t.setChild a s (t.child b s)) fun c =>
      (t.setChild a s (t.child b s)).setParent c (some a) := by
    unfold adopt
    dsimp only
    rewrite [show (t.setChild a s (t.child b s)).child a s = t.child b s from Links.set_self]
    cases t.child b s <;> rfl
  have hself : (t.child.set a s (t.child b s)) a s = t.child b s := Links.set_self
  have hside : ∀ s', s' ≠ s → (t.child.set a s (t.child b s)) a s' = t.child a s' := fun s' h =>
    Links.set_of_side_ne h
  have hother : ∀ y, y ≠ a → (t.child.set a s (t.child b s)) y = t.child y := fun y h =>
    Links.set_of_node_ne h
  rw [heq]
  cases hc : t.child b s with
  | none =>
    rw [hc] at hself hside hother
    exact ⟨hself, hside, hother, fun y hy => absurd hy (by simp), fun _ _ => rfl, rfl, rfl, rfl, rfl⟩
  | some c =>
    rw [hc] at hself hside hother
    refine ⟨hself, hside, hother, fun y hy => ?_, fun y hy => ?_, rfl, rfl, rfl, rfl⟩
    · obtain rfl := Option.some.inj hy
      exact update_self _ _ _
    · exact update_of_ne (fun h : y = c => hy (congrArg some h)) _ _

/-- A node that is not in the tree is plugged in for `x`. -/
theorem plugIn_spec {n : α} (linked : Linked t (plug fs (.node l x r)))
    (nodup : (plug fs (.node l x r)).nodes.Nodup) (hn : n ∉ (plug fs (.node l x r)).nodes) :
    Linked (plugIn t x n) (plug fs (.node l n r)) ∧
      Frozen t (plugIn t x n) (n :: (plug fs (.node l x r)).nodes) := by
  obtain ⟨p, place, hangs⟩ := linked_plug.mp linked
  obtain ⟨rfl, hl, hr⟩ := points_node.mp hangs.points
  obtain ⟨hx, hparl, hparr⟩ := hangs.parents
  obtain ⟨hnodup, hnodupx, hapart⟩ := nodup_plug.mp nodup
  obtain ⟨hnodupl, hnodupr, hxl⟩ := nodup_append.mp hnodupx
  have hxmem : x ∈ (BTree.node l x r).nodes := mem_append_right _ mem_cons_self
  have hlmem : ∀ y ∈ l.nodes, y ∈ (BTree.node l x r).nodes := fun y hy => mem_append_left _ hy
  have hrmem : ∀ y ∈ r.nodes, y ∈ (BTree.node l x r).nodes := fun y hy =>
    mem_append_right _ (mem_cons_of_mem x hy)
  simp only [mem_nodes_plug, not_or] at hn
  have hxn : x ≠ n := fun h => hn.1 (h ▸ hxmem)
  obtain ⟨place', hset, hchild, hparent, hbook⟩ := splice_place (q := some n) place hx hnodup
    (hapart x hxmem) (by rintro y ⟨⟩; exact hn.2)
  obtain ⟨h₁self, h₁side, h₁other, h₁set, h₁parent, h₁root, h₁book⟩ :=
    adopt_spec (t := splice t x (some n)) .left
  obtain ⟨h₂self, h₂side, h₂other, h₂set, h₂parent, h₂root, h₂book⟩ :=
    adopt_spec (t := adopt (splice t x (some n)) x n .left) .right
  have hchildx : ∀ s, (splice t x (some n)).child x s = t.child x s := fun s =>
    congrFun (hchild x (hapart x hxmem)) s
  rw [hchildx] at h₁self h₁set h₁parent
  rw [h₁other x hxn, hchildx] at h₂self h₂set h₂parent
  -- children: those of `x` are those of `n` now
  have hleft : (plugIn t x n).child n .left = t.child x .left :=
    (h₂side .left (by decide)).trans h₁self
  have hright : (plugIn t x n).child n .right = t.child x .right := h₂self
  have hothers : ∀ y, y ≠ n → y ∉ around fs → (plugIn t x n).child y = t.child y := fun y hy hy' =>
    (h₂other y hy).trans ((h₁other y hy).trans (hchild y hy'))
  -- parents
  have hadopted : ∀ s, ∀ y ∈ t.child x s, (plugIn t x n).parent y = some n := by
    intro s y hy
    by_cases hyr : some y = t.child x .right
    · exact h₂set y hyr.symm
    · cases s with
      | left => exact (h₂parent y hyr).trans (h₁set y hy)
      | right => exact absurd hy.symm hyr
  have hkept : ∀ y, some y ≠ t.child x .left → some y ≠ t.child x .right →
      (plugIn t x n).parent y = (splice t x (some n)).parent y := fun y hyl hyr =>
    (h₂parent y hyr).trans (h₁parent y hyl)
  have hkept' : ∀ y, y ∉ (BTree.node l x r).nodes →
      (plugIn t x n).parent y = (splice t x (some n)).parent y := by
    intro y hy
    refine hkept y (fun h => hy ?_) fun h => hy ?_
    · exact hlmem y (mem_of_points (h ▸ hl))
    · exact hrmem y (mem_of_points (h ▸ hr))
  refine ⟨linked_plug.mpr ⟨some n, ?_, points_node.mpr ⟨rfl, ?_, ?_⟩, ?_, ?_, ?_⟩, ⟨?_, ?_, ?_⟩, ?_, ?_⟩
  · refine place'.congr (h₂root.trans h₁root) (fun y hy => ?_) fun y hy => hkept' y fun h => hapart y h hy
    have hyn : y ≠ n := fun h => hn.2 (h ▸ hy)
    exact (h₂other y hyn).trans (h₁other y hyn)
  · rw [hleft]
    refine hl.congr fun y hy => hothers y (fun h => hn.1 (h ▸ hlmem y hy)) (hapart y (hlmem y hy))
  · rw [hright]
    refine hr.congr fun y hy => hothers y (fun h => hn.1 (h ▸ hrmem y hy)) (hapart y (hrmem y hy))
  · exact (hkept' n hn.1).trans (hset n rfl)
  · refine hparl.reparent hnodupl hl _ (hadopted .left) fun y hy hne => ?_
    rw [hkept y hne fun h => ?_]
    · exact hparent y fun h => hn.1 (Option.some.inj h ▸ hlmem y hy)
    · exact hxl y hy y (mem_cons_of_mem x (mem_of_points (h ▸ hr))) rfl
  · refine hparr.reparent (nodup_cons.mp hnodupr).2 hr _ (hadopted .right) fun y hy hne => ?_
    rw [hkept y (fun h => ?_) hne]
    · exact hparent y fun h => hn.1 (Option.some.inj h ▸ hrmem y hy)
    · exact hxl y (mem_of_points (h ▸ hl)) y (.tail x hy) rfl
  · exact h₂book.this.trans (h₁book.this.trans hbook.this)
  · exact h₂book.cnt.trans (h₁book.cnt.trans hbook.cnt)
  · exact h₂book.mytree.trans (h₁book.mytree.trans hbook.mytree)
  · intro y hy
    simp only [mem_cons, mem_nodes_plug, not_or] at hy
    exact hothers y hy.1 hy.2.2
  · intro y hy
    simp only [mem_cons, mem_nodes_plug, not_or] at hy
    exact (hkept' y hy.2.1).trans (hparent y fun h => hy.1 (Option.some.inj h))

omit [LinearOrder α] in
theorem Frozen.trans {t'' : Bstree α τ} {xs ys : List α} (h : Frozen t t' xs) (h' : Frozen t' t'' ys)
    (hsub : ∀ y ∈ ys, y ∈ xs) : Frozen t t'' xs where
  this := h'.this.trans h.this
  cnt := h'.cnt.trans h.cnt
  mytree := h'.mytree.trans h.mytree
  child := fun y hy => (h'.child y fun hys => hy (hsub y hys)).trans (h.child y hy)
  parent := fun y hy => (h'.parent y fun hys => hy (hsub y hys)).trans (h.parent y hy)

/-- A node with an empty side: the tree on the other side takes its place. -/
theorem splice_removed (linked : Linked t (plug w (.node l x r)))
    (nodup : (plug w (.node l x r)).nodes.Nodup) (hangs : Hangs t (some x) q W)
    (hremoved : Removed x (BTree.node l x r).nodes W.nodes) :
    Linked (splice t x q) (plug w W) ∧ Removed x (plug w (.node l x r)).nodes (plug w W).nodes ∧
      Frozen t (splice t x q) (plug w (.node l x r)).nodes := by
  obtain ⟨p, place, hangsx⟩ := linked_plug.mp linked
  obtain ⟨rfl, -, -⟩ := points_node.mp hangsx.points
  have hremoved' := hremoved.plug w
  obtain ⟨hlinked, hchild, hparent, hbook⟩ := splice_spec place hangsx.parents.1 hangs
    (hremoved'.sublist.nodup nodup)
    ((nodup_plug.mp nodup).2.2 x (mem_append_right _ (.head _)))
  refine ⟨hlinked, hremoved', hbook, fun y hy => hchild y ?_, fun y hy => hparent y ?_⟩
  · exact fun h => hy (mem_nodes_plug.mpr (.inr h))
  · exact fun h => hy (mem_nodes_plug.mpr (.inl (hremoved.mem h)))

/-- `x` leaves the tree. -/
theorem unplug_spec (linked : Linked t (plug fs (.node l x r)))
    (nodup : (plug fs (.node l x r)).nodes.Nodup) (hbound : r.height ≤ t.bound) :
    ∃ t' T', unplug t x = some t' ∧ Linked t' T' ∧
      Removed x (plug fs (.node l x r)).nodes T'.nodes ∧ Frozen t t' (plug fs (.node l x r)).nodes := by
  obtain ⟨p, -, hangs⟩ := linked_plug.mp linked
  obtain ⟨rfl, hl, hr⟩ := points_node.mp hangs.points
  obtain ⟨-, hparl, hparr⟩ := hangs.parents
  unfold unplug
  cases hleft : t.child x .left with
  | none =>
    rw [hleft] at hl
    obtain rfl := points_none.mp hl
    exact ⟨_, _, rfl, splice_removed linked nodup ⟨hr, hparr⟩ ⟨[], r.nodes, rfl, rfl⟩⟩
  | some c =>
    rw [hleft] at hl
    cases hright : t.child x .right with
    | none =>
      rw [hright] at hr
      obtain rfl := points_none.mp hr
      exact ⟨_, _, rfl, splice_removed linked nodup ⟨hl, hparl⟩
        ⟨l.nodes, [], rfl, (append_nil _).symm⟩⟩
    | some d =>
      rw [hright] at hr
      obtain ⟨ws, cur, W, hrun, rfl, hside⟩ := extremeLoop_spec (s := .left) hr hbound
      -- the place of the node to be promoted
      have hway : plug fs (.node l x (plug (⟨.left, cur, W⟩ :: ws) .nil)) =
          plug (ws ++ ⟨.right, x, l⟩ :: fs) (.node .nil cur W) :=
        (plug_append ws (⟨.right, x, l⟩ :: fs) (.node .nil cur W)).symm
      have hremovedx := (nodes_promote (s := .right) hside x cur l W).plug fs
      rw [hway] at linked nodup
      obtain ⟨q, -, hcur⟩ := linked_plug.mp linked
      obtain ⟨rfl, -, hW⟩ := points_node.mp hcur.points
      obtain ⟨hlinked₁, hremoved₁, hfrozen₁⟩ := splice_removed linked nodup ⟨hW, hcur.parents.2.2⟩
        ⟨[], W.nodes, rfl, rfl⟩
      have hplug₁ : plug (ws ++ ⟨.right, x, l⟩ :: fs) W = plug fs (.node l x (plug ws W)) :=
        plug_append ws (⟨.right, x, l⟩ :: fs) W
      have hcurnot : cur ∉ (plug (ws ++ ⟨.right, x, l⟩ :: fs) W).nodes := fun h =>
        ((hremoved₁.mem_iff nodup).mp h).1 rfl
      have hnodup₁ := hremoved₁.sublist.nodup nodup
      have hsub := hremoved₁.sublist.subset
      rw [hplug₁] at hlinked₁ hcurnot hnodup₁ hsub
      obtain ⟨hlinked₂, hfrozen₂⟩ := plugIn_spec hlinked₁ hnodup₁ hcurnot
      refine ⟨_, _, ?_, hlinked₂, hremovedx, ?_⟩
      · dsimp only
        rw [extreme, hrun]
        rfl
      · rw [hway]
        refine hfrozen₁.trans hfrozen₂ fun y hy => ?_
        rcases mem_cons.mp hy with rfl | hy
        · exact mem_nodes_plug.mpr (.inl (.head _))
        · exact hsub hy

end Coda.Util
