import Coda.Al.PdbInv

/-!
The graph of a database after a profile was written, deleted, or a list of profiles edited.
-/

namespace Coda.Al

open Coda.Lib PdbProfile

/-! ### Graphs of changed databases -/

section GraphOf

variable {db db' : Pdb} {r : PdbProfile}

theorem Graph.ext_iffs {G H : Graph} (dom : ∀ x, G.dom x ↔ H.dom x)
    (memberOf : ∀ x g, G.memberOf x g ↔ H.memberOf x g)
    (lists : ∀ g x, G.lists g x ↔ H.lists g x) (owner : ∀ x w, G.owner x w ↔ H.owner x w) : G = H :=
  Graph.ext (funext fun x => propext (dom x)) (funext₂ fun x g => propext (memberOf x g))
    (funext₂ fun g x => propext (lists g x)) (funext₂ fun x w => propext (owner x w))

/-- A field of the profile under key `x`, in a database where that of `r` was written. -/
theorem exists_put (P : PdbProfile → Prop) (x : Int) :
    (∃ p, (db.put r).profiles x = some p ∧ P p) ↔
      (x = r.id ∧ P r) ∨ (x ≠ r.id ∧ ∃ p, db.profiles x = some p ∧ P p) := by
  by_cases hx : x = r.id
  · subst hx
    simp
  · simp [hx]

theorem dom_put (x : Int) : (db.put r).graph.dom x ↔ x = r.id ∨ db.graph.dom x := by
  have := @exists_put db r (fun _ => True) x
  simp only [and_true] at this
  refine this.trans ⟨fun h => h.imp id And.right, ?_⟩
  rintro (h | h)
  · exact .inl h
  · by_cases hx : x = r.id
    · exact .inl hx
    · exact .inr ⟨hx, h⟩

theorem memberOf_put (x g : Int) : (db.put r).graph.memberOf x g ↔
    (x = r.id ∧ g ∈ r.memberOf) ∨ (x ≠ r.id ∧ db.graph.memberOf x g) :=
  exists_put (fun p => g ∈ p.memberOf) x

theorem lists_put (g x : Int) : (db.put r).graph.lists g x ↔
    (g = r.id ∧ x ∈ r.groupsOrMembers) ∨ (g ≠ r.id ∧ db.graph.lists g x) :=
  exists_put (fun p => x ∈ p.groupsOrMembers) g

theorem owner_put (x w : Int) : (db.put r).graph.owner x w ↔
    (x = r.id ∧ r.ownerId = w) ∨ (x ≠ r.id ∧ db.graph.owner x w) :=
  exists_put (fun p => p.ownerId = w) x

variable {p : PdbProfile} {x : Int}

section

variable (hp : db.profiles x = some p)
include hp

theorem exists_read (P : PdbProfile → Prop) : (∃ q, db.profiles x = some q ∧ P q) ↔ P p := by
  simp [hp]

theorem memberOf_read (g : Int) : db.graph.memberOf x g ↔ g ∈ p.memberOf :=
  exists_read hp (g ∈ ·.memberOf)

theorem lists_read (y : Int) : db.graph.lists x y ↔ y ∈ p.groupsOrMembers :=
  exists_read hp (y ∈ ·.groupsOrMembers)

theorem owner_read (w : Int) : db.graph.owner x w ↔ p.ownerId = w :=
  exists_read hp (·.ownerId = w)

end

/-! A profile under a new key. -/

section New

variable (fresh : ¬ db.graph.dom r.id)
include fresh

theorem exists_put_new (P : PdbProfile → Prop) (x : Int) :
    (∃ p, (db.put r).profiles x = some p ∧ P p) ↔
      (x = r.id ∧ P r) ∨ ∃ p, db.profiles x = some p ∧ P p := by
  rw [exists_put]
  refine or_congr_right ⟨And.right, fun h => ⟨?_, h⟩⟩
  rintro rfl
  exact fresh (h.imp fun _ => And.left)

theorem memberOf_put_new (x g : Int) : (db.put r).graph.memberOf x g ↔
    (x = r.id ∧ g ∈ r.memberOf) ∨ db.graph.memberOf x g :=
  exists_put_new fresh (g ∈ ·.memberOf) x

theorem lists_put_new (g x : Int) : (db.put r).graph.lists g x ↔
    (g = r.id ∧ x ∈ r.groupsOrMembers) ∨ db.graph.lists g x :=
  exists_put_new fresh (x ∈ ·.groupsOrMembers) g

theorem owner_put_new (x w : Int) : (db.put r).graph.owner x w ↔
    (x = r.id ∧ r.ownerId = w) ∨ db.graph.owner x w :=
  exists_put_new fresh (·.ownerId = w) x

end New

/-! A profile written again, with other members or other parents. -/

section Again

variable (hp : db.profiles r.id = some p)
include hp

theorem exists_put_same {P : PdbProfile → Prop} (hP : P r ↔ P p) (x : Int) :
    (∃ q, (db.put r).profiles x = some q ∧ P q) ↔ ∃ q, db.profiles x = some q ∧ P q := by
  by_cases hx : x = r.id
  · subst hx
    simp [hp, hP]
  · simp [hx]

theorem dom_put_same (x : Int) : (db.put r).graph.dom x ↔ db.graph.dom x := by
  rw [dom_put]
  exact or_iff_right_of_imp fun h => ⟨p, h ▸ hp⟩

theorem graph_put_lists {lists : Int → Int → Prop} (hmem : r.memberOf = p.memberOf)
    (hown : r.ownerId = p.ownerId) (own : ∀ y, y ∈ r.groupsOrMembers ↔ lists r.id y)
    (others : ∀ g ≠ r.id, ∀ y, db.graph.lists g y ↔ lists g y) :
    (db.put r).graph = { db.graph with lists } := by
  refine Graph.ext_iffs (dom_put_same hp)
    (fun x g => exists_put_same hp (by rw [hmem]) x) (fun g y => ?_)
    (fun x w => exists_put_same hp (by rw [hown]) x)
  rw [lists_put]
  by_cases hg : g = r.id
  · subst hg
    simp [own]
  · simp [hg, others g hg]

theorem graph_put_memberOf {memberOf : Int → Int → Prop}
    (hgom : r.groupsOrMembers = p.groupsOrMembers) (hown : r.ownerId = p.ownerId)
    (own : ∀ g, g ∈ r.memberOf ↔ memberOf r.id g)
    (others : ∀ x ≠ r.id, ∀ g, db.graph.memberOf x g ↔ memberOf x g) :
    (db.put r).graph = { db.graph with memberOf } := by
  refine Graph.ext_iffs (dom_put_same hp) (fun x g => ?_)
    (fun g x => exists_put_same hp (by rw [hgom]) g)
    (fun x w => exists_put_same hp (by rw [hown]) x)
  rw [memberOf_put]
  by_cases hx : x = r.id
  · subst hx
    simp [own]
  · simp [hx, others x hx]

end Again

section Members

variable {rank : Int → Nat} {x : Int} (hp : db.profiles x = some p) (ok : ProfileOK rank x p) (c : Int)
include hp ok

theorem graph_addMember : (db.put (p.addMember c)).graph =
    { db.graph with lists := fun g y => (g = x ∧ y = c) ∨ db.graph.lists g y } := by
  obtain rfl := ok.id
  refine graph_put_lists (r := p.addMember c) hp rfl rfl (fun y => ?_) fun g hg y => ?_
  · simp [addMember, mem_pdbArrayAdd, lists_read hp]
  · simp [show g ≠ p.id from hg]

theorem graph_delMember : (db.put (p.delMember c)).graph =
    { db.graph with lists := fun g y => db.graph.lists g y ∧ ¬ (g = x ∧ y = c) } := by
  obtain rfl := ok.id
  refine graph_put_lists (r := p.delMember c) hp rfl rfl (fun y => ?_) fun g hg y => ?_
  · simp [delMember, mem_pdbArrayDel ok.members_sorted, lists_read hp]
  · simp [show g ≠ p.id from hg]

theorem graph_addParent : (db.put (p.addParent c)).graph =
    { db.graph with memberOf := fun y g => (y = x ∧ g = c) ∨ db.graph.memberOf y g } := by
  obtain rfl := ok.id
  refine graph_put_memberOf (r := p.addParent c) hp rfl rfl (fun g => ?_) fun y hy g => ?_
  · simp [addParent, mem_pdbArrayAdd, memberOf_read hp]
  · simp [show y ≠ p.id from hy]

theorem graph_delParent : (db.put (p.delParent c)).graph =
    { db.graph with memberOf := fun y g => db.graph.memberOf y g ∧ ¬ (y = x ∧ g = c) } := by
  obtain rfl := ok.id
  refine graph_put_memberOf (r := p.delParent c) hp rfl rfl (fun g => ?_) fun y hy g => ?_
  · simp [delParent, mem_pdbArrayDel ok.memberOf_sorted, memberOf_read hp]
  · simp [show y ≠ p.id from hy]

end Members

/-! Profiles edited in a loop. -/

section Edited

variable {f : PdbProfile → PdbProfile} {ids : List Int}
variable (hfinal : ∀ x, db'.profiles x = if x ∈ ids then (db.profiles x).map f else db.profiles x)
include hfinal

theorem exists_edited (P : PdbProfile → Prop) (x : Int) :
    (∃ q, db'.profiles x = some q ∧ P q) ↔
      (x ∈ ids ∧ ∃ p, db.profiles x = some p ∧ P (f p)) ∨
        (x ∉ ids ∧ ∃ p, db.profiles x = some p ∧ P p) := by
  rw [hfinal]
  by_cases hx : x ∈ ids
  · cases hp : db.profiles x with
    | none => simp
    | some p => simp [hx]
  · simp [hx]

theorem exists_edited_same {P : PdbProfile → Prop} (hP : ∀ p, P (f p) ↔ P p) (x : Int) :
    (∃ q, db'.profiles x = some q ∧ P q) ↔ ∃ p, db.profiles x = some p ∧ P p := by
  rw [exists_edited hfinal P x]
  simp only [hP]
  rw [← or_and_right]
  exact and_iff_right (Classical.em _)

theorem dom_edited (x : Int) : db'.graph.dom x ↔ db.graph.dom x := by
  have hdom := exists_edited_same hfinal (P := fun _ => True) (fun _ => .rfl) x
  simp only [and_true] at hdom
  exact hdom

theorem graph_edited (hmem : ∀ p, (f p).memberOf = p.memberOf)
    (hown : ∀ p, (f p).ownerId = p.ownerId) :
    db'.graph = { db.graph with
      lists := fun g y => (g ∈ ids ∧ ∃ p, db.profiles g = some p ∧ y ∈ (f p).groupsOrMembers) ∨
        (g ∉ ids ∧ db.graph.lists g y) } :=
  Graph.ext_iffs (dom_edited hfinal)
    (fun x g => exists_edited_same hfinal (fun p => by rw [hmem]) x)
    (fun g y => exists_edited hfinal (y ∈ ·.groupsOrMembers) g)
    (fun x w => exists_edited_same hfinal (fun p => by rw [hown]) x)

theorem graph_edited_parents (hgom : ∀ p, (f p).groupsOrMembers = p.groupsOrMembers)
    (hown : ∀ p, (f p).ownerId = p.ownerId) :
    db'.graph = { db.graph with
      memberOf := fun x g => (x ∈ ids ∧ ∃ p, db.profiles x = some p ∧ g ∈ (f p).memberOf) ∨
        (x ∉ ids ∧ db.graph.memberOf x g) } :=
  Graph.ext_iffs (dom_edited hfinal) (fun x g => exists_edited hfinal (g ∈ ·.memberOf) x)
    (fun g y => exists_edited_same hfinal (fun p => by rw [hgom]) g)
    (fun x w => exists_edited_same hfinal (fun p => by rw [hown]) x)

theorem graph_edited_owners (hgom : ∀ p, (f p).groupsOrMembers = p.groupsOrMembers)
    (hmem : ∀ p, (f p).memberOf = p.memberOf) :
    db'.graph = { db.graph with
      owner := fun x w => (x ∈ ids ∧ ∃ p, db.profiles x = some p ∧ (f p).ownerId = w) ∨
        (x ∉ ids ∧ db.graph.owner x w) } :=
  Graph.ext_iffs (dom_edited hfinal)
    (fun x g => exists_edited_same hfinal (fun p => by rw [hmem]) x)
    (fun g y => exists_edited_same hfinal (fun p => by rw [hgom]) g)
    (fun x w => exists_edited hfinal (·.ownerId = w) x)

theorem AllOK.edited {rank : Int → Nat} (ok : AllOK rank db)
    (hf : ∀ x ∈ ids, ∀ p, db.profiles x = some p → ProfileOK rank x (f p)) : AllOK rank db' := by
  intro x q hq
  rw [hfinal] at hq
  split_ifs at hq with hx
  · obtain ⟨p, hp, rfl⟩ := Option.map_eq_some_iff.mp hq
    exact hf x hx p hp
  · exact ok x q hq

end Edited

/-! A profile deleted. -/

section Deleted

theorem exists_deleted (P : PdbProfile → Prop) (x : Int) :
    (∃ p, (pdbDeleteProfile db r).profiles x = some p ∧ P p) ↔
      x ≠ r.id ∧ ∃ p, db.profiles x = some p ∧ P p := by
  rw [pdbDeleteProfile]
  by_cases hx : x = r.id
  · subst hx
    simp
  · simp [hx]

theorem dom_deleted (x : Int) :
    (pdbDeleteProfile db r).graph.dom x ↔ x ≠ r.id ∧ db.graph.dom x := by
  have := @exists_deleted db r (fun _ => True) x
  simp only [and_true] at this
  exact this

theorem memberOf_deleted (x g : Int) : (pdbDeleteProfile db r).graph.memberOf x g ↔
    x ≠ r.id ∧ db.graph.memberOf x g :=
  exists_deleted (g ∈ ·.memberOf) x

theorem lists_deleted (g x : Int) : (pdbDeleteProfile db r).graph.lists g x ↔
    g ≠ r.id ∧ db.graph.lists g x :=
  exists_deleted (x ∈ ·.groupsOrMembers) g

theorem owner_deleted (x w : Int) : (pdbDeleteProfile db r).graph.owner x w ↔
    x ≠ r.id ∧ db.graph.owner x w :=
  exists_deleted (·.ownerId = w) x

theorem deleted_of_ne (hx : x ≠ r.id) :
    (pdbDeleteProfile db r).profiles x = db.profiles x :=
  Function.update_of_ne hx _ _

theorem of_deleted (hp : (pdbDeleteProfile db r).profiles x = some p) :
    x ≠ r.id ∧ db.profiles x = some p := by
  obtain ⟨hx, q, hq, rfl⟩ := (exists_deleted (· = p) x).mp ⟨p, hp, rfl⟩
  exact ⟨hx, hq⟩

theorem AllOK.deleted {rank : Int → Nat} (ok : AllOK rank db) : AllOK rank (pdbDeleteProfile db r) :=
  fun x p hp => ok x p (of_deleted hp).2

theorem Bounded.deleted (bounded : Bounded db) : Bounded (pdbDeleteProfile db r) :=
  ⟨bounded.uid, bounded.gid, fun x p hp => bounded.range x p (of_deleted hp).2⟩

/-- Who was not a member of the deleted group stays good. -/
theorem Good.deleted (hnone : ¬ db.graph.memberOf x r.id) (good : Good db x) :
    Good (pdbDeleteProfile db r) x := by
  intro p hp y
  have hx := of_deleted hp
  rw [good p hx.2 y]
  refine or_congr_right (exists_congr fun g => and_congr_right fun hg => ?_)
  rw [show cpsOf (pdbDeleteProfile db r) g = cpsOf db g from cpsOf_congr (deleted_of_ne ?_)]
  rintro rfl
  exact hnone ⟨p, hx.2, hg⟩

end Deleted

/-! Profiles edited in a loop that also brings their cps up to date: the graph is the same
as after plain writes. -/

def Pdb.edited (db : Pdb) (f : PdbProfile → PdbProfile) (ids : List Int) : Pdb :=
  { db with profiles := fun x => if x ∈ ids then (db.profiles x).map f else db.profiles x }

theorem UpdatedAll.graph_eq {rank : Int → Nat} {f : PdbProfile → PdbProfile} {ids : List Int}
    (updated : UpdatedAll rank f ids db db') : db'.graph = (db.edited f ids).graph := by
  refine SameShape.graph_eq fun x => ?_
  rw [updated.shape, Pdb.edited]
  dsimp only
  split_ifs
  · rw [Option.map_map]
    rfl
  · rfl

end GraphOf

end Coda.Al
