import Mathlib.Data.Set.Basic
import Mathlib.Tactic.Common

/-!
The protection database as a graph: which ids exist, which groups an id is a member of, which
ids a profile lists and who owns a group. The lists of groups and of users mean different
things: a group lists its members, a user the groups it owns.

For every operation of the database there is the change it makes to the graph, as the code
makes it. The code should keep two properties: `Symmetric`, memberships are recorded at both
ends, and `Owned`, so are ownerships.
-/

namespace Coda.Al

/-- The references between the profiles of a database. -/
@[ext]
structure Graph where
  dom : Int → Prop
  memberOf : Int → Int → Prop
  lists : Int → Int → Prop
  owner : Int → Int → Prop

namespace Graph

/-! ### Changes -/

section Changes

variable (G : Graph)

def newUser (u : Int) : Graph where
  dom x := x = u ∨ G.dom x
  memberOf := G.memberOf
  lists := G.lists
  owner x w := (x = u ∧ w = 0) ∨ G.owner x w

/-- A new user with the groups and the owned list of `c`. -/
def clone (u c : Int) : Graph where
  dom x := x = u ∨ G.dom x
  memberOf x g := (x = u ∧ G.memberOf c g) ∨ G.memberOf x g
  lists g x := (g = u ∧ G.lists c x) ∨ (x = u ∧ G.memberOf c g) ∨ G.lists g x
  owner x w := (x = u ∧ G.owner c w) ∨ G.owner x w

def delUser (u : Int) : Graph where
  dom x := x ≠ u ∧ G.dom x
  memberOf x g := x ≠ u ∧ G.memberOf x g
  lists g x := g ≠ u ∧ G.lists g x ∧ ¬ (x = u ∧ G.memberOf u g)
  owner x w := x ≠ u ∧ G.owner x w

/-- The owner becomes the first member. -/
def newGroup (g u : Int) : Graph where
  dom x := x = g ∨ G.dom x
  memberOf x h := (x = u ∧ h = g) ∨ G.memberOf x h
  lists h x := (h = g ∧ x = u) ∨ (h = u ∧ x = g) ∨ G.lists h x
  owner x w := (x = g ∧ w = u) ∨ G.owner x w

def delGroup (g u : Int) : Graph where
  dom x := x ≠ g ∧ G.dom x
  memberOf x h := x ≠ g ∧ G.memberOf x h ∧ ¬ (h = g ∧ G.lists g x)
  lists h x := h ≠ g ∧ G.lists h x ∧ ¬ (h = u ∧ x = g)
  owner x w := x ≠ g ∧ G.owner x w

def join (x g : Int) : Graph where
  dom := G.dom
  memberOf y h := (y = x ∧ h = g) ∨ G.memberOf y h
  lists h y := (h = g ∧ y = x) ∨ G.lists h y
  owner := G.owner

def leave (x g : Int) : Graph where
  dom := G.dom
  memberOf y h := G.memberOf y h ∧ ¬ (y = x ∧ h = g)
  lists h y := G.lists h y ∧ ¬ (h = g ∧ y = x)
  owner := G.owner

/-- The profile of `a` under the key `b`; nothing else is changed. -/
def move (a b : Int) : Graph where
  dom x := x = b ∨ (x ≠ a ∧ G.dom x)
  memberOf x g := (x = b ∧ G.memberOf a g) ∨ (x ≠ a ∧ x ≠ b ∧ G.memberOf x g)
  lists g x := (g = b ∧ G.lists a x) ∨ (g ≠ a ∧ g ≠ b ∧ G.lists g x)
  owner x w := (x = b ∧ G.owner a w) ∨ (x ≠ a ∧ x ≠ b ∧ G.owner x w)

/-- `b` takes the place of `a` in the lists of `hs`. -/
def relist (hs : Int → Prop) (a b : Int) : Graph where
  dom := G.dom
  memberOf := G.memberOf
  lists h x := (hs h ∧ G.dom h ∧ (x = b ∨ (G.lists h x ∧ x ≠ a))) ∨ (¬ hs h ∧ G.lists h x)
  owner := G.owner

/-- `b` takes the place of `a` among the parents of `xs`. -/
def regroup (xs : Int → Prop) (a b : Int) : Graph where
  dom := G.dom
  memberOf x g := (xs x ∧ G.dom x ∧ (g = b ∨ (G.memberOf x g ∧ g ≠ a))) ∨
    (¬ xs x ∧ G.memberOf x g)
  lists := G.lists
  owner := G.owner

/-- `b` takes the place of `a` as the owner of the groups among `xs`. -/
def reown (xs : Int → Prop) (a b : Int) : Graph where
  dom := G.dom
  memberOf := G.memberOf
  lists := G.lists
  owner x w := (xs x ∧ x < 0 ∧ G.owner x a ∧ w = b) ∨
    (¬ (xs x ∧ x < 0 ∧ G.owner x a) ∧ G.owner x w)

/-- User `a` becomes `b`. -/
def renameUser (a b : Int) : Graph :=
  ((G.move a b).relist (G.memberOf a) a b).reown (G.lists a) a b

/-- Group `a`, owned by `u`, becomes `b`. -/
def renameGroup (a b u : Int) : Graph :=
  (((G.move a b).relist (· = u) a b).relist (G.memberOf a) a b).regroup (G.lists a) a b

end Changes

/-! ### Memberships at both ends -/

/-- References are from and to existing ids, and only groups are parents. -/
structure WellFormed (G : Graph) : Prop where
  memberOf : ∀ x g, G.memberOf x g → G.dom x ∧ g < 0
  lists : ∀ g x, G.lists g x → G.dom g
  owner : ∀ x w, G.owner x w → G.dom x
  unique : ∀ x w w', G.owner x w → G.owner x w' → w = w'
  user : ∀ u w, 0 < u → G.owner u w → w = 0
  group : ∀ g w, g < 0 → G.owner g w → 0 < w

theorem WellFormed.not_memberOf {G : Graph} (wf : G.WellFormed) {x g : Int} (hg : 0 < g) :
    ¬ G.memberOf x g := fun h => by
  have := (wf.memberOf x g h).2
  omega

def Symmetric (G : Graph) : Prop := ∀ g x, g < 0 → (G.memberOf x g ↔ G.lists g x)

section Symmetric

variable {G : Graph}

variable {g u : Int}

theorem Symmetric.dom_of_memberOf (wf : G.WellFormed) (symm : G.Symmetric) {x : Int}
    (h : G.memberOf x g) : G.dom x ∧ G.dom g := by
  obtain ⟨hx, hg⟩ := wf.memberOf x g h
  exact ⟨hx, wf.lists g x ((symm g x hg).mp h)⟩

section

variable (symm : G.Symmetric)
include symm

theorem Symmetric.newUser (u : Int) : (G.newUser u).Symmetric := symm

theorem Symmetric.clone {c : Int} (hu : 0 < u) : (G.clone u c).Symmetric := by
  intro g x hg
  have := symm g x hg
  constructor
  · rintro (h | h)
    · exact .inr (.inl h)
    · exact .inr (.inr (this.mp h))
  · rintro (⟨rfl, -⟩ | h | h)
    · omega
    · exact .inl h
    · exact .inr (this.mpr h)

theorem Symmetric.delUser (hu : 0 ≤ u) : (G.delUser u).Symmetric := by
  intro g x hg
  have := symm g x hg
  constructor
  · rintro ⟨hx, h⟩
    exact ⟨by omega, this.mp h, fun h' => hx h'.1⟩
  · rintro ⟨-, h, hnot⟩
    refine ⟨?_, this.mpr h⟩
    rintro rfl
    exact hnot ⟨rfl, this.mpr h⟩

theorem Symmetric.newGroup (hu : 0 < u) : (G.newGroup g u).Symmetric := by
  intro h x hh
  have := symm h x hh
  constructor
  · rintro (⟨rfl, rfl⟩ | h')
    · exact .inl ⟨rfl, rfl⟩
    · exact .inr (.inr (this.mp h'))
  · rintro (⟨rfl, rfl⟩ | ⟨rfl, -⟩ | h')
    · exact .inl ⟨rfl, rfl⟩
    · omega
    · exact .inr (this.mpr h')

theorem Symmetric.delGroup (hg : g < 0) (hu : 0 < u) (top : ∀ h, ¬ G.memberOf g h) :
    (G.delGroup g u).Symmetric := by
  intro h x hh
  have := symm h x hh
  constructor
  · rintro ⟨hx, h', hnot⟩
    refine ⟨?_, this.mp h', fun h'' => by omega⟩
    rintro rfl
    exact hnot ⟨rfl, this.mp h'⟩
  · rintro ⟨hne, h', -⟩
    refine ⟨?_, this.mpr h', fun h'' => hne h''.1⟩
    rintro rfl
    exact top h (this.mpr h')

theorem Symmetric.join (x g : Int) : (G.join x g).Symmetric := by
  intro h y hh
  have := symm h y hh
  simp only [Graph.join]
  tauto

theorem Symmetric.leave (x g : Int) : (G.leave x g).Symmetric := by
  intro h y hh
  have := symm h y hh
  simp only [Graph.leave]
  tauto

end

section

variable (wf : G.WellFormed) (symm : G.Symmetric) {a b : Int}
include wf symm

theorem Symmetric.renameUser (ha : 0 < a) (hb : 0 < b) (fresh : ¬ G.dom b) :
    (G.renameUser a b).Symmetric := by
  intro g x hg
  have hgx := symm g x hg
  have hne : ∀ y, G.memberOf y g → y ≠ b := by
    rintro y hy rfl
    exact fresh (wf.memberOf y g hy).1
  constructor
  · rintro (⟨rfl, h⟩ | ⟨hxa, hxb, h⟩)
    · exact .inl ⟨h, .inr ⟨by omega, (symm.dom_of_memberOf wf h).2⟩, .inl rfl⟩
    · by_cases hag : G.memberOf a g
      · exact .inl ⟨hag, .inr ⟨by omega, (symm.dom_of_memberOf wf h).2⟩,
          .inr ⟨.inr ⟨by omega, by omega, hgx.mp h⟩, hxa⟩⟩
      · exact .inr ⟨hag, .inr ⟨by omega, by omega, hgx.mp h⟩⟩
  · rintro (⟨hag, -, rfl | ⟨⟨rfl, -⟩ | ⟨-, -, h⟩, hxa⟩⟩ | ⟨hag, ⟨rfl, -⟩ | ⟨-, -, h⟩⟩)
    · exact .inl ⟨rfl, hag⟩
    · omega
    · exact .inr ⟨hxa, hne x (hgx.mpr h), hgx.mpr h⟩
    · omega
    · refine .inr ⟨?_, hne x (hgx.mpr h), hgx.mpr h⟩
      rintro rfl
      exact hag (hgx.mpr h)

/-- Once the parents of `a` list `b`, every id of the moved graph is listed by its parents. -/
theorem Symmetric.known_moved (fresh : ¬ G.dom b) {H : Graph} (hdom : H.dom = (G.move a b).dom)
    (hmem : H.memberOf = (G.move a b).memberOf)
    (hlists : ∀ g x, g < 0 → (G.move a b).lists g x → H.lists g x) {x : Int}
    (h : (H.relist (G.memberOf a) a b).memberOf x g) (hg : (H.relist (G.memberOf a) a b).dom g) :
    (H.relist (G.memberOf a) a b).lists g x := by
  simp only [relist, hdom, hmem] at h hg ⊢
  rcases h with ⟨rfl, h⟩ | ⟨hxa, hxb, h⟩
  · exact .inl ⟨h, hg, .inl rfl⟩
  · have hgdom := (symm.dom_of_memberOf wf h).2
    have hneg := (wf.memberOf x g h).2
    have hgb : g ≠ b := fun heq => fresh (heq ▸ hgdom)
    have hga : g ≠ a := (hg.resolve_left hgb).1
    have hl := hlists g x hneg (.inr ⟨hga, hgb, (symm g x hneg).mp h⟩)
    by_cases hag : G.memberOf a g
    · exact .inl ⟨hag, hg, .inr ⟨hl, hxa⟩⟩
    · exact .inr ⟨hag, hl⟩

theorem Symmetric.renameGroup (ha : a < 0) (hu : 0 < u) (irrefl : ¬ G.memberOf a a)
    (fresh : ¬ G.dom b) : (G.renameGroup a b u).Symmetric := by
  intro g x hg
  have hgx := symm g x hg
  have hax := symm a x ha
  have domx : ∀ {y h}, G.memberOf y h → y ≠ b ∧ h ≠ b := fun hy => by
    obtain ⟨h₁, h₂⟩ := symm.dom_of_memberOf wf hy
    exact ⟨fun h => fresh (h ▸ h₁), fun h => fresh (h ▸ h₂)⟩
  -- an entry between two others stays
  have listed : g ≠ a → x ≠ a → G.memberOf x g →
      ((G.move a b).relist (G.memberOf a) a b).lists g x := by
    intro hga hxa h
    have hl : (G.move a b).lists g x := .inr ⟨hga, (domx h).2, hgx.mp h⟩
    by_cases hag : G.memberOf a g
    · exact .inl ⟨hag, .inr ⟨hga, (symm.dom_of_memberOf wf h).2⟩, .inr ⟨hl, hxa⟩⟩
    · exact .inr ⟨hag, hl⟩
  have member : g ≠ a → x ≠ a → G.memberOf x g →
      ((G.move a b).regroup (G.lists a) a b).memberOf x g := by
    intro hga hxa h
    have hm : (G.move a b).memberOf x g := .inr ⟨hxa, (domx h).1, h⟩
    by_cases hlx : G.lists a x
    · exact .inl ⟨hlx, .inr ⟨hxa, (wf.memberOf x g h).1⟩, .inr ⟨hm, hga⟩⟩
    · exact .inr ⟨hlx, hm⟩
  have hgu : g ≠ u := by omega
  simp only [Graph.renameGroup, regroup, relist, move, hgu, false_and, false_or, not_false_eq_true,
    true_and]
  constructor
  · rintro (⟨hlx, -, rfl | ⟨⟨rfl, -⟩ | ⟨hxa, -, h⟩, hga⟩⟩ | ⟨hlx, ⟨rfl, h⟩ | ⟨hxa, -, h⟩⟩)
    · -- a member of the renamed group
      exact .inr ⟨fun h => (domx h).2 rfl, .inl ⟨rfl, hlx⟩⟩
    · exact absurd rfl (domx (hax.mpr hlx)).1
    · exact listed hga hxa h
    · -- the renamed group itself
      have hga : g ≠ a := by
        rintro rfl
        exact irrefl h
      exact .inl ⟨h, .inr ⟨hga, (symm.dom_of_memberOf wf h).2⟩, .inl rfl⟩
    · have hga : g ≠ a := by
        rintro rfl
        exact hlx (hgx.mp h)
      exact listed hga hxa h
  · rintro (⟨hag, -, rfl | ⟨⟨rfl, -⟩ | ⟨hga, -, h⟩, hxa⟩⟩ | ⟨hag, ⟨rfl, h⟩ | ⟨hga, -, h⟩⟩)
    · exact .inr ⟨fun h => (domx (hax.mpr h)).1 rfl, .inl ⟨rfl, hag⟩⟩
    · exact absurd rfl (domx hag).2
    · exact member hga hxa (hgx.mpr h)
    · have hxa : x ≠ a := by
        rintro rfl
        exact irrefl (hax.mpr h)
      exact .inl ⟨h, .inr ⟨hxa, (wf.memberOf x a (hax.mpr h)).1⟩, .inl rfl⟩
    · have hxa : x ≠ a := by
        rintro rfl
        exact hag (hgx.mpr h)
      exact member hga hxa (hgx.mpr h)

end

end Symmetric

/-! ### Ownerships at both ends -/

/-- Every group's owner is an existing user, and users list exactly the groups they own. -/
structure Owned (G : Graph) : Prop where
  owner : ∀ g, g < 0 → G.dom g → ∃ u, 0 < u ∧ G.dom u ∧ G.owner g u
  lists : ∀ u, 0 < u → G.dom u → ∀ g, G.lists u g ↔ g < 0 ∧ G.owner g u

section Owned

variable {G : Graph}

variable {g u : Int}

section

variable (wf : G.WellFormed) (own : G.Owned)
include wf own

/-- An owner of a group exists. -/
theorem Owned.dom_owner (hg : g < 0) (h : G.owner g u) : G.dom u := by
  obtain ⟨u', -, hdom, h'⟩ := own.owner g hg (wf.owner g u h)
  rw [wf.unique g u u' h h']
  exact hdom

/-- Ownerships stay when a user is added who owns nothing. -/
theorem Owned.added {H : Graph} (fresh : ¬ G.dom u) (hu : 0 < u)
    (hdom : ∀ x, H.dom x ↔ x = u ∨ G.dom x) (hlists : ∀ w g, 0 < w → (H.lists w g ↔ G.lists w g))
    (howner : ∀ g w, g < 0 → (H.owner g w ↔ G.owner g w)) : H.Owned := by
  refine ⟨fun g hg hdomg => ?_, fun w hw hdomw g => ?_⟩
  · obtain ⟨w, hw, hwdom, h⟩ := own.owner g hg (((hdom g).mp hdomg).resolve_left (by omega))
    exact ⟨w, hw, (hdom w).mpr (.inr hwdom), (howner g w hg).mpr h⟩
  · rw [hlists w g hw]
    refine Iff.trans ?_ (and_congr_right fun hg => (howner g w hg).symm)
    by_cases hwu : w = u
    · subst hwu
      exact iff_of_false (fun h => fresh (wf.lists w g h)) fun h => fresh (own.dom_owner wf h.1 h.2)
    · exact own.lists w hw (((hdom w).mp hdomw).resolve_left hwu) g

theorem Owned.newUser (hu : 0 < u) (fresh : ¬ G.dom u) : (G.newUser u).Owned :=
  own.added wf fresh hu (fun _ => .rfl) (fun _ _ _ => .rfl) fun g w hg => or_iff_right fun h => by omega

/-- Cloning keeps ownerships exactly when the cloned user owns nothing. -/
theorem Owned.clone_iff {c : Int} (hu : 0 < u) (hc : 0 < c) (fresh : ¬ G.dom u) (hdomc : G.dom c) :
    (G.clone u c).Owned ↔ ∀ g, ¬ G.lists c g := by
  constructor
  · intro own' g h
    obtain ⟨hg, howner⟩ := (own.lists c hc hdomc g).mp h
    rcases ((own'.lists u hu (.inl rfl) g).mp (.inl ⟨rfl, h⟩)).2 with ⟨rfl, -⟩ | h'
    · omega
    · exact fresh (own.dom_owner wf hg h')
  · intro none
    refine own.added wf fresh hu (fun _ => .rfl) (fun w g hw => ⟨?_, fun h => .inr (.inr h)⟩)
      fun g w hg => or_iff_right fun h => by omega
    rintro (⟨-, h⟩ | ⟨-, h⟩ | h)
    · exact absurd h (none g)
    · exact absurd h (wf.not_memberOf hw)
    · exact h

/-- Deleting a user keeps ownerships exactly when the user owns nothing. -/
theorem Owned.delUser_iff (hu : 0 < u) (hdomu : G.dom u) :
    (G.delUser u).Owned ↔ ∀ g, ¬ G.lists u g := by
  constructor
  · intro own' g h
    obtain ⟨hg, howner⟩ := (own.lists u hu hdomu g).mp h
    obtain ⟨w, -, hdom, h'⟩ := own'.owner g hg ⟨by omega, wf.owner g u howner⟩
    exact hdom.1 (wf.unique g w u h'.2 howner)
  · intro none
    refine ⟨fun g hg hdom => ?_, fun w hw hdom g => ?_⟩
    · obtain ⟨w, hw, hwdom, h⟩ := own.owner g hg hdom.2
      refine ⟨w, hw, ⟨?_, hwdom⟩, ⟨hdom.1, h⟩⟩
      rintro rfl
      exact none g ((own.lists w hw hwdom g).mpr ⟨hg, h⟩)
    · have hlists := own.lists w hw hdom.2 g
      constructor
      · rintro ⟨-, h, -⟩
        obtain ⟨hg, howner⟩ := hlists.mp h
        exact ⟨hg, by omega, howner⟩
      · rintro ⟨hg, -, howner⟩
        exact ⟨hdom.1, hlists.mpr ⟨hg, howner⟩, fun h => wf.not_memberOf hw h.2⟩

end

/-- A new group is on the list of its owner. -/
theorem Owned.newGroup (own : G.Owned) (hg : g < 0) (hu : 0 < u) (hdomu : G.dom u) :
    (G.newGroup g u).Owned := by
  refine ⟨fun h hh hdom => ?_, fun w hw hdom h => ?_⟩
  · rcases hdom with rfl | hdom
    · exact ⟨u, hu, .inr hdomu, .inl ⟨rfl, rfl⟩⟩
    · obtain ⟨w, hw, hwdom, h'⟩ := own.owner h hh hdom
      exact ⟨w, hw, .inr hwdom, .inr h'⟩
  · have hdomw : G.dom w := by
      rcases hdom with rfl | hdom
      · omega
      · exact hdom
    have hlists := own.lists w hw hdomw h
    constructor
    · rintro (⟨rfl, -⟩ | ⟨rfl, rfl⟩ | h')
      · omega
      · exact ⟨hg, .inl ⟨rfl, rfl⟩⟩
      · exact ⟨(hlists.mp h').1, .inr (hlists.mp h').2⟩
    · rintro ⟨hh, ⟨rfl, rfl⟩ | h'⟩
      · exact .inr (.inl ⟨rfl, rfl⟩)
      · exact .inr (.inr (hlists.mpr ⟨hh, h'⟩))

theorem Owned.delGroup (wf : G.WellFormed) (own : G.Owned) (hg : g < 0) (howner : G.owner g u) :
    (G.delGroup g u).Owned := by
  refine ⟨fun h hh hdom => ?_, fun w hw hdom h => ?_⟩
  · obtain ⟨w, hw, hwdom, h'⟩ := own.owner h hh hdom.2
    exact ⟨w, hw, ⟨by omega, hwdom⟩, ⟨hdom.1, h'⟩⟩
  · have hlists := own.lists w hw hdom.2 h
    constructor
    · rintro ⟨-, h', hnot⟩
      obtain ⟨hh, howner'⟩ := hlists.mp h'
      refine ⟨hh, ?_, howner'⟩
      rintro rfl
      exact hnot ⟨wf.unique h w u howner' howner, rfl⟩
    · rintro ⟨hh, hne, howner'⟩
      exact ⟨hdom.1, hlists.mpr ⟨hh, howner'⟩, fun h'' => hne h''.2⟩

theorem Owned.join (own : G.Owned) {x : Int} (hg : g < 0) : (G.join x g).Owned := by
  refine ⟨own.owner, fun w hw hdom h => ?_⟩
  refine Iff.trans ⟨?_, .inr⟩ (own.lists w hw hdom h)
  rintro (⟨rfl, -⟩ | h')
  · omega
  · exact h'

theorem Owned.leave (own : G.Owned) {x : Int} (hg : g < 0) : (G.leave x g).Owned := by
  refine ⟨own.owner, fun w hw hdom h => ?_⟩
  exact Iff.trans ⟨And.left, fun h' => ⟨h', by omega⟩⟩ (own.lists w hw hdom h)

theorem Owned.renameUser (wf : G.WellFormed) (own : G.Owned) {a b : Int} (ha : 0 < a) (hb : 0 < b)
    (hdoma : G.dom a) (fresh : ¬ G.dom b) : (G.renameUser a b).Owned := by
  have hb_owner : ∀ g, g < 0 → ¬ G.owner g b := fun g hg h => fresh (own.dom_owner wf hg h)
  refine ⟨fun g hg hdom => ?_, fun w hw hdom g => ?_⟩
  · rcases hdom with rfl | ⟨-, hdom⟩
    · omega
    obtain ⟨w, hw, hwdom, h⟩ := own.owner g hg hdom
    have h₁ : (G.move a b).owner g w := .inr ⟨by omega, by omega, h⟩
    by_cases hwa : w = a
    · subst hwa
      exact ⟨b, hb, .inl rfl, .inl ⟨(own.lists w ha hdoma g).mpr ⟨hg, h⟩, hg, h₁, rfl⟩⟩
    · refine ⟨w, hw, .inr ⟨hwa, hwdom⟩, .inr ⟨?_, h₁⟩⟩
      rintro ⟨-, -, ⟨rfl, -⟩ | ⟨-, -, h'⟩⟩
      · omega
      · exact hwa (wf.unique g w a h h')
  · have hmem : ¬ G.memberOf a w := wf.not_memberOf hw
    simp only [Graph.renameUser, reown, relist, move, hmem, false_and, false_or, not_false_eq_true,
      true_and]
    rcases hdom with rfl | ⟨hwa, hwdom⟩
    · have hlists := own.lists a ha hdoma g
      constructor
      · rintro (⟨-, h⟩ | ⟨-, hne, -⟩)
        · obtain ⟨hg, howner⟩ := hlists.mp h
          exact ⟨hg, .inl ⟨h, hg, .inr ⟨by omega, by omega, howner⟩, rfl⟩⟩
        · exact absurd rfl hne
      · rintro ⟨hg, ⟨h, -⟩ | ⟨-, ⟨rfl, -⟩ | ⟨-, -, h⟩⟩⟩
        · exact .inl ⟨rfl, h⟩
        · omega
        · exact absurd h (hb_owner g hg)
    · have hlists := own.lists w hw hwdom g
      have hwb : w ≠ b := fun h => fresh (h ▸ hwdom)
      constructor
      · rintro (⟨rfl, -⟩ | ⟨-, -, h⟩)
        · exact absurd rfl hwb
        · obtain ⟨hg, howner⟩ := hlists.mp h
          refine ⟨hg, .inr ⟨?_, .inr ⟨by omega, by omega, howner⟩⟩⟩
          rintro ⟨-, -, ⟨rfl, -⟩ | ⟨-, -, h'⟩⟩
          · omega
          · exact hwa (wf.unique g w a howner h')
      · rintro ⟨hg, ⟨-, -, -, rfl⟩ | ⟨-, ⟨rfl, -⟩ | ⟨-, -, h⟩⟩⟩
        · exact absurd rfl hwb
        · omega
        · exact .inr ⟨hwa, hwb, hlists.mpr ⟨hg, h⟩⟩

theorem Owned.renameGroup (wf : G.WellFormed) (own : G.Owned) {a b : Int} (ha : a < 0)
    (hb : b < 0) (hu : 0 < u) (howner : G.owner a u) (fresh : ¬ G.dom b) :
    (G.renameGroup a b u).Owned := by
  have hdomu := own.dom_owner wf ha howner
  refine ⟨fun g hg hdom => ?_, fun w hw hdom g => ?_⟩
  · rcases hdom with rfl | ⟨hga, hdom⟩
    · exact ⟨u, hu, .inr ⟨by omega, hdomu⟩, .inl ⟨rfl, howner⟩⟩
    · obtain ⟨w, hw, hwdom, h⟩ := own.owner g hg hdom
      exact ⟨w, hw, .inr ⟨by omega, hwdom⟩, .inr ⟨hga, fun h' => fresh (h' ▸ hdom), h⟩⟩
  · have hmem : ¬ G.memberOf a w := wf.not_memberOf hw
    have hwdom : G.dom w := by
      rcases hdom with rfl | ⟨-, hwdom⟩
      · omega
      · exact hwdom
    have hwa : w ≠ a := by omega
    have hwb : w ≠ b := by omega
    have hlists := own.lists w hw hwdom g
    have hgb : ∀ {w'}, G.owner g w' → g ≠ b := fun h h' => fresh (h' ▸ wf.owner g _ h)
    simp only [Graph.renameGroup, regroup, relist, move, hmem, false_and, false_or,
      not_false_eq_true, true_and, hwa, hwb, ne_eq]
    constructor
    · rintro (⟨rfl, -, rfl | ⟨h, hga⟩⟩ | ⟨hwu, h⟩)
      · exact ⟨hb, .inl ⟨rfl, howner⟩⟩
      · obtain ⟨hg, h'⟩ := hlists.mp h
        exact ⟨hg, .inr ⟨hga, hgb h', h'⟩⟩
      · obtain ⟨hg, h'⟩ := hlists.mp h
        refine ⟨hg, .inr ⟨?_, hgb h', h'⟩⟩
        rintro rfl
        exact hwu (wf.unique g w u h' howner)
    · rintro ⟨hg, ⟨rfl, h⟩ | ⟨hga, -, h⟩⟩
      · obtain rfl := wf.unique a w u h howner
        exact .inl ⟨rfl, hwdom, .inl rfl⟩
      · by_cases hwu : w = u
        · exact .inl ⟨hwu, hwdom, .inr ⟨hlists.mpr ⟨hg, h⟩, hga⟩⟩
        · exact .inr ⟨hwu, hlists.mpr ⟨hg, h⟩⟩

end Owned

end Graph

end Coda.Al
