import Coda.Al.PdbRename
import Coda.Lib.Run

/-!
Every run of the protection database. `PdbOp.run_spec` says that a completed call keeps the
invariant and makes one of the changes of `GraphStep`; by induction over the calls, and with
reachability from the ranks, all databases reached are `Consistent`.

Ownership is another matter. `PDB_cloneUser` copies the list of owned groups to the new user,
and `PDB_deleteUser` leaves the groups of the deleted one behind.
-/

namespace Coda.Al

open Coda.Lib Relation Option PdbOp

/-! ### One call -/

/-- What a completed call makes of the graph. -/
inductive GraphStep (G : Graph) : PdbOp → Graph → Prop where
  | newUser {name : CString} {u : Int} (hu : 0 < u) (fresh : ¬ G.dom u) :
      GraphStep G (.createUser name) (G.newUser u)
  | clone {name : CString} {u c : Int} (hu : 0 < u) (hc : 0 < c) (fresh : ¬ G.dom u) (dom : G.dom c) :
      GraphStep G (.cloneUser name c) (G.clone u c)
  | newGroup {name : CString} {g u : Int} (hg : g < 0) (hu : 0 < u) (dom : G.dom u) :
      GraphStep G (.createGroup name u) (G.newGroup g u)
  | noJoin (x g : Int) : GraphStep G (.addToGroup x g) G
  | join (x : Int) {g : Int} (hg : g < 0) : GraphStep G (.addToGroup x g) (G.join x g)
  | leave (x : Int) {g : Int} (hg : g < 0) : GraphStep G (.removeFromGroup x g) (G.leave x g)
  | noRename (a b : Int) : GraphStep G (.changeId a b) G
  | renameUser {a b : Int} (ha : 0 < a) (hb : 0 < b) (dom : G.dom a) (fresh : ¬ G.dom b) :
      GraphStep G (.changeId a b) (G.renameUser a b)
  | renameGroup {a b u : Int} (ha : a < 0) (hb : b < 0) (hu : 0 < u) (owner : G.owner a u)
      (fresh : ¬ G.dom b) : GraphStep G (.changeId a b) (G.renameGroup a b u)
  | noUser {u : Int} (absent : ¬ G.dom u) : GraphStep G (.deleteUser u) G
  | delUser {u : Int} (hu : 0 < u) (dom : G.dom u) : GraphStep G (.deleteUser u) (G.delUser u)
  | noGroup (g : Int) : GraphStep G (.deleteGroup g) G
  | delGroup {g u : Int} (hg : g < 0) (owner : G.owner g u) :
      GraphStep G (.deleteGroup g) (G.delGroup g u)

variable {db db' : Pdb} {rank : Int → Nat} {fuel : Nat}

theorem PdbOp.run_spec {op : PdbOp} (inv : PdbInv rank db) (valid : op.Valid)
    (run : op.run fuel db = some db') :
    (∃ rank', PdbInv rank' db') ∧ GraphStep db.graph op db'.graph := by
  cases op with
  | createUser name =>
    obtain ⟨⟨id, db₁⟩, h, rfl⟩ := map_eq_some_iff.mp run
    obtain ⟨hpos, fresh, inv', graph⟩ := pdbCreateUser_spec inv h
    exact ⟨⟨rank, inv'⟩, graph ▸ .newUser hpos fresh⟩
  | cloneUser name cloneid =>
    obtain ⟨⟨id, db₁⟩, h, rfl⟩ := map_eq_some_iff.mp run
    obtain ⟨hpos, fresh, hdom, inv', graph⟩ := pdbCloneUser_spec inv valid h
    exact ⟨inv', graph ▸ .clone hpos valid fresh hdom⟩
  | createGroup name owner =>
    obtain ⟨⟨id, db₁⟩, h, rfl⟩ := map_eq_some_iff.mp run
    obtain ⟨hneg, hpos, hdom, -, inv', graph⟩ := pdbCreateGroup_spec inv h
    exact ⟨inv', graph ▸ .newGroup hneg hpos hdom⟩
  | addToGroup id groupId =>
    obtain ⟨hneg, rfl | ⟨inv', graph⟩⟩ := pdbAddToGroup_spec inv run
    · exact ⟨⟨rank, inv⟩, .noJoin id groupId⟩
    · exact ⟨inv', graph ▸ .join id hneg⟩
  | removeFromGroup id groupId =>
    obtain ⟨hneg, inv', graph⟩ := pdbRemoveFromGroup_spec inv run
    exact ⟨⟨rank, inv'⟩, graph ▸ .leave id hneg⟩
  | changeId a b =>
    obtain rfl | ⟨fresh, hdom, inv', h⟩ := pdbChangeId_spec inv valid run
    · exact ⟨⟨rank, inv⟩, .noRename a b⟩
    · obtain ⟨ha, hb, graph⟩ | ⟨ha, hb, u, hu, howner, graph⟩ := h
      · exact ⟨inv', graph ▸ .renameUser ha hb hdom fresh⟩
      · exact ⟨inv', graph ▸ .renameGroup ha hb hu howner fresh⟩
  | deleteUser id =>
    obtain ⟨absent, rfl⟩ | ⟨hpos, hdom, inv', graph⟩ := pdbDeleteUser_spec inv valid run
    · exact ⟨⟨rank, inv⟩, .noUser absent⟩
    · exact ⟨⟨rank, inv'⟩, graph ▸ .delUser hpos hdom⟩
  | deleteGroup id =>
    obtain ⟨-, rfl⟩ | ⟨hneg, inv', u, -, howner, graph⟩ := pdbDeleteGroup_spec inv run
    · exact ⟨⟨rank, inv⟩, .noGroup id⟩
    · exact ⟨⟨rank, inv'⟩, graph ▸ .delGroup hneg howner⟩

/-! ### Memberships and cps -/

/-- Memberships are recorded at both ends and have no cycles, and every cps is the sorted
list of the ids reached over memberships. -/
structure Consistent (db : Pdb) : Prop where
  symmetric : ∀ g x, g < 0 → (db.graph.memberOf x g ↔ db.graph.lists g x)
  acyclic : ∀ x, ¬ TransGen db.graph.memberOf x x
  cps : ∀ x p, db.profiles x = some p →
    p.cps.Sorted ∧ ∀ y, y ∈ p.cps ↔ ReflTransGen db.graph.memberOf x y

theorem pdbInv_empty : PdbInv (fun _ => 0) Pdb.empty where
  ok := fun _ _ h => absurd h.symm nofun
  bounded := ⟨Int.le_refl 0, Int.le_refl 0, fun _ _ h => absurd h.symm nofun⟩
  symm := fun _ _ _ => iff_of_false (fun ⟨_, h, _⟩ => some_ne_none _ h.symm)
    fun ⟨_, h, _⟩ => some_ne_none _ h.symm
  good := fun _ _ h => absurd h.symm nofun

theorem PdbInv.consistent (inv : PdbInv rank db) : Consistent db where
  symmetric := inv.symm
  acyclic := not_transGen_self fun x g ⟨p, hp, hg⟩ => ((inv.ok x p hp).parent g hg).2
  cps := by
    intro x p hp
    refine ⟨(inv.ok x p hp).cps_sorted, fun y => ?_⟩
    have dec : ∀ x g, db.graph.memberOf x g → rank g < rank x :=
      fun x g ⟨p, hp, hg⟩ => ((inv.ok x p hp).parent g hg).2
    have hgood : ∀ x, db.graph.dom x → ∀ y,
        y ∈ cpsOf db x ↔ y = x ∨ ∃ g, db.graph.memberOf x g ∧ y ∈ cpsOf db g := by
      rintro x ⟨p, hp⟩ y
      rw [cpsOf, hp]
      refine (inv.good x p hp y).trans (or_congr_right (exists_congr fun g => ?_))
      rw [memberOf_read hp]
    have reach : y ∈ cpsOf db x ↔ ReflTransGen db.graph.memberOf x y := carries_iff_reflTransGen dec
      (fun x g _ h => (inv.symm.dom_of_memberOf inv.ok.wellFormed h).2) hgood ⟨p, hp⟩ y
    rwa [cpsOf, hp] at reach

/-- In every database that completed calls reach from the empty one. -/
theorem pdb_reachable_consistent (fuel : Nat) (ops : List PdbOp) (valid : ∀ op ∈ ops, op.Valid) :
    Always (PdbOp.run fuel) Consistent Pdb.empty ops :=
  always_of_guarded (I := fun db => ∃ rank, PdbInv rank db)
    (fun _ _ _ ⟨_, inv⟩ hvalid run => (run_spec inv hvalid run).1)
    (fun _ ⟨_, inv⟩ => inv.consistent) ⟨_, pdbInv_empty⟩ (guarded_of_forall (fun op hop _ => valid op hop) _)

/-- A user with a group inside another one, who is cloned, renamed and taken out again. -/
theorem pdb_consistent_after_rename :
    ([.createUser ⟨[117#8], by decide⟩, .createGroup ⟨[103#8], by decide⟩ 1,
      .createGroup ⟨[104#8], by decide⟩ 1, .addToGroup (-2) (-1), .cloneUser ⟨[118#8], by decide⟩ 1,
      .changeId (-1) (-7), .removeFromGroup 1 (-7), .deleteUser 2].foldlM (PdbOp.run 4)
        Pdb.empty).isSome ∧
    Always (PdbOp.run 4) Consistent Pdb.empty
      [.createUser ⟨[117#8], by decide⟩, .createGroup ⟨[103#8], by decide⟩ 1,
        .createGroup ⟨[104#8], by decide⟩ 1, .addToGroup (-2) (-1), .cloneUser ⟨[118#8], by decide⟩ 1,
        .changeId (-1) (-7), .removeFromGroup 1 (-7), .deleteUser 2] := by
  refine ⟨by decide, pdb_reachable_consistent 4 _ fun op hop => ?_⟩
  simp only [List.mem_cons, List.not_mem_nil, or_false] at hop
  rcases hop with rfl | rfl | rfl | rfl | rfl | rfl | rfl | rfl <;>
    simp [PdbOp.Valid, SameSign]

/-- `PDB_deleteUser` of a group leaves its members behind. -/
theorem pdb_inconsistent_after_deleteUser :
    ∃ db, [.createUser ⟨[117#8], by decide⟩, .createGroup ⟨[103#8], by decide⟩ 1,
      .deleteUser (-1)].foldlM (PdbOp.run 4) Pdb.empty = some db ∧
        ¬ ∀ g x, g < 0 → (db.graph.memberOf x g ↔ db.graph.lists g x) := by
  refine ⟨_, rfl, fun symmetric => ?_⟩
  obtain ⟨p, hp, -⟩ := (symmetric (-1) 1 (by decide)).mp ⟨_, rfl, by decide⟩
  cases hp

/-! ### Ownership -/

/-- Cloned and deleted users own nothing. -/
def PdbOp.OwnsNothing (G : Graph) : PdbOp → Prop
  | .cloneUser _ cloneid => ∀ g, ¬ G.lists cloneid g
  | .deleteUser id => ∀ g, ¬ G.lists id g
  | _ => True

theorem GraphStep.owned_iff {G G' : Graph} {op : PdbOp} (wf : G.WellFormed) (own : G.Owned)
    (step : GraphStep G op G') : G'.Owned ↔ op.OwnsNothing G := by
  cases step with
  | newUser hu fresh => exact iff_true_intro (own.newUser wf hu fresh)
  | clone hu hc fresh dom => exact own.clone_iff wf hu hc fresh dom
  | newGroup hg hu dom => exact iff_true_intro (own.newGroup hg hu dom)
  | noJoin | noRename | noGroup => exact iff_true_intro own
  | join x hg => exact iff_true_intro (own.join hg)
  | leave x hg => exact iff_true_intro (own.leave hg)
  | renameUser ha hb dom fresh => exact iff_true_intro (own.renameUser wf ha hb dom fresh)
  | renameGroup ha hb hu owner fresh =>
    exact iff_true_intro (own.renameGroup wf ha hb hu owner fresh)
  | noUser absent => exact iff_of_true own fun g h => absent (wf.lists _ g h)
  | delUser hu dom => exact own.delUser_iff wf hu dom
  | delGroup hg owner => exact iff_true_intro (own.delGroup wf hg owner)

/-- Groups' owners exist and users list exactly the groups they own, in all databases that a
run reaches, exactly when no user is cloned or deleted who owns groups. -/
theorem pdb_owned_iff_guarded (fuel : Nat) (ops : List PdbOp) (valid : ∀ op ∈ ops, op.Valid) :
    Always (PdbOp.run fuel) (fun db => db.graph.Owned) Pdb.empty ops ↔
      Guarded (PdbOp.run fuel)
        (fun db op => (op.run fuel db).isSome → op.OwnsNothing db.graph) Pdb.empty ops := by
  refine always_iff_guarded (I := fun db => ∃ rank, PdbInv rank db)
    (fun _ _ _ ⟨_, inv⟩ hvalid run => (run_spec inv hvalid run).1) ?_ ⟨_, pdbInv_empty⟩ ?_
    (guarded_of_forall (fun op hop _ => valid op hop) _)
  · rintro db op ⟨rank, inv⟩ own hvalid
    have step := fun db' (run : op.run fuel db = some db') =>
      (run_spec inv hvalid run).2.owned_iff inv.ok.wellFormed own
    constructor
    · intro h hsome
      obtain ⟨db', run⟩ := isSome_iff_exists.mp hsome
      exact (step db' run).mp (h db' run)
    · intro h db' run
      exact (step db' run).mpr (h (isSome_iff_exists.mpr ⟨db', run⟩))
  · exact ⟨fun _ _ ⟨_, h⟩ => absurd h.symm nofun,
      fun _ _ ⟨_, h⟩ => absurd h.symm nofun⟩

/-- A user whose group is deleted first. -/
theorem pdb_owned_after_deleteGroup :
    Always (PdbOp.run 2) (fun db => db.graph.Owned) Pdb.empty
      [.createUser ⟨[117#8], by decide⟩, .createGroup ⟨[103#8], by decide⟩ 1, .deleteGroup (-1),
        .deleteUser 1] := by
  refine (pdb_owned_iff_guarded 2 _ fun op hop => ?_).mpr ?_
  · simp only [List.mem_cons, List.not_mem_nil, or_false] at hop
    rcases hop with rfl | rfl | rfl | rfl <;> simp [PdbOp.Valid]
  · refine ⟨fun _ => trivial, fun db₁ run₁ => ⟨fun _ => trivial, fun db₂ run₂ =>
      ⟨fun _ => trivial, fun db₃ run₃ => ⟨fun _ g h => ?_, fun _ _ => trivial⟩⟩⟩⟩
    obtain ⟨p, hp, hg⟩ := h
    have hrun : ([.createUser ⟨[117#8], by decide⟩, .createGroup ⟨[103#8], by decide⟩ 1,
        .deleteGroup (-1)].foldlM (run 2) Pdb.empty) = some db₃ := by
      simp only [List.foldlM_cons, List.foldlM_nil, run₁, run₂, run₃, bind_eq_bind,
        bind_some, pure_def]
    have hlist : (([.createUser ⟨[117#8], by decide⟩, .createGroup ⟨[103#8], by decide⟩ 1,
        .deleteGroup (-1)].foldlM (run 2) Pdb.empty).bind fun db =>
          (db.profiles 1).map PdbProfile.groupsOrMembers) = some [] := by
      decide
    rw [hrun, bind_some, hp] at hlist
    rw [some.inj hlist] at hg
    exact List.not_mem_nil hg

/-- The group of a deleted user has an owner that does not exist. -/
theorem pdb_deleteUser_leaves_group :
    ∃ db, [.createUser ⟨[117#8], by decide⟩, .createGroup ⟨[103#8], by decide⟩ 1,
        .deleteUser 1].foldlM (PdbOp.run 1) Pdb.empty = some db ∧ ¬ db.graph.Owned := by
  have hend : (([.createUser ⟨[117#8], by decide⟩, .createGroup ⟨[103#8], by decide⟩ 1,
      .deleteUser 1].foldlM (run 1) Pdb.empty).map fun db =>
        ((db.profiles (-1)).map PdbProfile.ownerId, db.profiles 1)) = some (some 1, none) := by
    decide
  obtain ⟨db, hrun, heq⟩ := map_eq_some_iff.mp hend
  obtain ⟨howner, habsent⟩ := Prod.mk.inj heq
  obtain ⟨p, hp, hpowner⟩ := map_eq_some_iff.mp howner
  refine ⟨db, hrun, fun own => ?_⟩
  obtain ⟨u, -, ⟨q, hq⟩, q', hq', hu⟩ := own.owner (-1) (by decide) ⟨p, hp⟩
  obtain rfl := some.inj (hp.symm.trans hq')
  obtain rfl : 1 = u := hpowner.symm.trans hu
  exact some_ne_none q (hq.symm.trans habsent)

end Coda.Al
