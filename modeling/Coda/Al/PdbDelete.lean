import Coda.Al.Protection

/-!
`PDB_deleteGroup`. On the way to the members of the group it passes the groups that the group is
itself a member of, and asserts there that their profiles do not exist; they do, so deleting a
nested group fails with the database half changed.

That `PDB_updateCps` returns follows from the ranks: a member has a higher rank than its group, and
the ranks of the profiles of a database are bounded.
-/

namespace Coda.Al

open Coda.Lib Relation Option

/-! ### `PDB_updateCps` returns -/

section Total

variable {db db' : Pdb} {rank : Int → Nat} {fuel top : Nat} {r : PdbProfile}

/-- The ranks of all profiles are at most `top`. -/
def RankedBelow (rank : Int → Nat) (top : Nat) (db : Pdb) : Prop :=
  ∀ x, db.graph.dom x → rank x ≤ top

theorem Bounded.exists_write (bounded : Bounded db) (hr : r.id ≠ 0) :
    ∃ db', pdbWriteProfile db r = some db' :=
  exists_writeProfile hr (.inl bounded.uid)

/-- The ids of a database are in a finite range. -/
theorem Bounded.exists_top (bounded : Bounded db) (rank : Int → Nat) :
    ∃ top, RankedBelow rank top db := by
  refine ⟨(Finset.Icc (pdbDbMaxids db).2 (pdbDbMaxids db).1).sup rank, ?_⟩
  rintro x ⟨p, hp⟩
  exact Finset.le_sup (Finset.mem_Icc.mpr (bounded.range x p hp))

theorem RankedBelow.of_graph (h : RankedBelow rank top db) (graph : db'.graph = db.graph) :
    RankedBelow rank top db' := by
  intro x hx
  exact h x (graph ▸ hx)

/-- The walk over the members returns, if the calls do. -/
theorem members_total
    (call : ∀ (db : Pdb) (c : PdbProfile), AllOK rank (db.put c) → Bounded db →
      RankedBelow rank top (db.put c) → top < fuel + rank c.id →
      ∃ db', pdbUpdateCps fuel db c = some db')
    (l : List Int) (ok : AllOK rank db) (bounded : Bounded db) (ranked : RankedBelow rank top db)
    (above : ∀ c ∈ l, top < fuel + rank c) :
    ∃ db', l.foldlM (fun db id =>
      match pdbReadProfile db id with
      | some c => pdbUpdateCps fuel db c
      | none => some db) db = some db' := by
  induction l generalizing db with
  | nil => exact ⟨db, rfl⟩
  | cons c l ih =>
    obtain ⟨hc, hl⟩ := List.forall_mem_cons.mp above
    rw [List.foldlM_cons]
    cases hread : db.profiles c with
    | none =>
      simp only [pdbReadProfile, hread, bind_eq_bind]
      exact ih ok bounded ranked hl
    | some q =>
      obtain ⟨hid, hput⟩ := ok.put_eq hread
      obtain ⟨db₁, run₁⟩ := call db q (hput.symm ▸ ok) bounded (hput.symm ▸ ranked) (hid.symm ▸ hc)
      have updated := pdbUpdateCps_spec fuel db db₁ q (hput.symm ▸ ok) bounded run₁
      have graph := updated.shape.graph_eq
      rw [hput] at graph
      simp only [pdbReadProfile, hread, run₁, bind_eq_bind]
      exact ih updated.ok updated.bounded (ranked.of_graph graph) hl

theorem pdbUpdateCps_total (fuel : Nat) (db : Pdb) (r : PdbProfile) (ok : AllOK rank (db.put r))
    (bounded : Bounded db) (ranked : RankedBelow rank top (db.put r))
    (enough : top < fuel + rank r.id) : ∃ db', pdbUpdateCps fuel db r = some db' := by
  induction fuel generalizing db r with
  | zero =>
    have hle := ranked r.id ⟨r, by simp⟩
    omega
  | succ fuel ih =>
    have hr := ok r.id r (by simp)
    obtain ⟨db₁, run₁⟩ := bounded.exists_write
      (r := { r with cps := pdbArrayAdd (parentsCps db r) r.id }) hr.nonzero
    have wrote := pdbWriteProfile_wrote run₁
    obtain ⟨ok₁, shape₁, -⟩ := wrote_cps ok wrote
    rw [pdbUpdateCps, run₁, bind_eq_bind, bind_some]
    by_cases hgroup : pdbIsGroup r.id
    · have hneg : r.id < 0 := of_decide_eq_true hgroup
      rw [if_neg (not_not_intro hgroup), hr.ids_members]
      refine members_total ih r.groupsOrMembers ok₁ (wrote.bounded bounded)
        (ranked.of_graph shape₁.graph_eq) fun c hc => ?_
      have hlt := (hr.member c hc).2 hneg
      omega
    · rw [if_pos hgroup]
      exact ⟨db₁, rfl⟩

/-- A loop of `PDB_updateCps` calls on profiles that exist returns. -/
theorem updateAll_total {f : PdbProfile → PdbProfile} {ids : List Int} (hid : ∀ p, (f p).id = p.id)
    (hf : ∀ x p, ProfileOK rank x p → ProfileOK rank x (f p)) (ok : AllOK rank db)
    (bounded : Bounded db) (ranked : RankedBelow rank top db) (enough : top < fuel)
    (exist : ∀ x ∈ ids, db.graph.dom x) :
    ∃ db', updateAll fuel f ids db = some db' ∧ AllOK rank db' ∧ Bounded db' ∧
      ∀ x, db'.graph.dom x ↔ db.graph.dom x := by
  induction ids generalizing db with
  | nil => exact ⟨db, rfl, ok, bounded, fun _ => .rfl⟩
  | cons c ids ih =>
    obtain ⟨⟨p, hp⟩, hids⟩ := List.forall_mem_cons.mp exist
    have hcid : (f p).id = c := (hid p).trans (ok c p hp).id
    have ok' : AllOK rank (db.put (f p)) := ok.put (hf c p (ok c p hp))
    have dom' : ∀ x, (db.put (f p)).graph.dom x ↔ db.graph.dom x := by
      intro x
      rw [dom_put, hcid]
      refine ⟨?_, .inr⟩
      rintro (rfl | hx)
      · exact ⟨p, hp⟩
      · exact hx
    obtain ⟨db₁, run₁⟩ := pdbUpdateCps_total fuel db (f p) ok' bounded
      (fun x hx => ranked x ((dom' x).mp hx)) (by omega)
    have updated := pdbUpdateCps_spec fuel db db₁ (f p) ok' bounded run₁
    have dom₁ : ∀ x, db₁.graph.dom x ↔ db.graph.dom x := by
      intro x
      rw [updated.shape.graph_eq]
      exact dom' x
    obtain ⟨db₂, run₂, ok₂, bounded₂, dom₂⟩ := ih updated.ok updated.bounded
      (fun x hx => ranked x ((dom₁ x).mp hx)) fun x hx => (dom₁ x).mpr (hids x hx)
    refine ⟨db₂, ?_, ok₂, bounded₂, fun x => (dom₂ x).trans (dom₁ x)⟩
    refine bind_eq_some_iff.mpr ⟨db₁, ?_, run₂⟩
    exact bind_eq_some_iff.mpr ⟨p, hp, run₁⟩

end Total

/-! ### Deleting a group -/

section Delete

variable {db db' : Pdb} {rank : Int → Nat} {fuel : Nat} {id : Int} {r : PdbProfile}

/-- No profile refers to `id`. -/
def Unmentioned (db : Pdb) (id : Int) : Prop :=
  ∀ x p, db.profiles x = some p → id ∉ p.memberOf ∧ id ∉ p.cps ∧ id ∉ p.groupsOrMembers

/-- The loop over the groups that the group is a member of fails for the first of them. -/
theorem memberOf_eq_nil_of_deleted (ok : AllOK rank db) (hr : db.profiles id = some r)
    (run : pdbDeleteGroup fuel db id = some db') : r.memberOf = [] := by
  unfold pdbDeleteGroup at run
  rw [pdbReadProfile, hr] at run
  obtain ⟨p, -, run⟩ := bind_eq_some_iff.mp run
  obtain ⟨db₂, -, run⟩ := bind_eq_some_iff.mp run
  obtain ⟨db₃, run₃, -⟩ := bind_eq_some_iff.mp run
  rw [(ok id r hr).ids_memberOf] at run₃
  cases hmem : r.memberOf with
  | nil => rfl
  | cons g gs =>
    rw [hmem] at run₃
    cases run₃

section Owned

variable (inv : PdbInv rank db) (own : db.graph.Owned) (hneg : id < 0) (hr : db.profiles id = some r)
  (alone : r.memberOf = [])
include inv own hneg hr alone

theorem pdbDeleteGroup_total : ∃ n, ∀ fuel ≥ n, ∃ db', pdbDeleteGroup fuel db id = some db' := by
  have wf := inv.ok.wellFormed
  have hrok := inv.ok id r hr
  obtain ⟨top, ranked⟩ := inv.bounded.exists_top rank
  refine ⟨top + 1, fun fuel enough => ?_⟩
  -- the owner
  obtain ⟨u, hu, ⟨p, hp⟩, howner⟩ := own.owner id hneg ⟨r, hr⟩
  obtain rfl := (owner_read hr u).mp howner
  have hne : r.ownerId ≠ r.id := by
    rw [hrok.id]
    omega
  have hp₁ : (pdbDeleteProfile db r).profiles r.ownerId = some p := by
    rw [deleted_of_ne hne, hp]
  have ok₁ : AllOK rank (pdbDeleteProfile db r) := inv.ok.deleted
  have hpok := ok₁ r.ownerId p hp₁
  obtain ⟨db₂, run₂⟩ := inv.bounded.deleted.exists_write
    (by rw [show (p.delMember id).id = p.id from rfl, hpok.id]; exact hpok.nonzero)
  have wrote := pdbWriteProfile_wrote run₂
  have ok₂ : AllOK rank db₂ := AllOK.of_profiles wrote.profiles (ok₁.put (hpok.delMember id))
  have dom₂ : ∀ x, db₂.graph.dom x ↔ x ≠ id ∧ db.graph.dom x := by
    rw [graph_of_profiles wrote.profiles, graph_delMember hp₁ hpok id, ← hrok.id]
    exact dom_deleted
  have ranked₂ : RankedBelow rank top db₂ := fun x hx => ranked x ((dom₂ x).mp hx).2
  -- the members, which know that they are
  have exist : ∀ x ∈ r.groupsOrMembers, db₂.graph.dom x := by
    intro x hx
    have hmem := (inv.symm id x hneg).mpr ((lists_read hr x).mpr hx)
    refine (dom₂ x).mpr ⟨?_, (wf.memberOf x id hmem).1⟩
    rintro rfl
    exact lt_irrefl _ ((hrok.member x hx).2 hneg)
  obtain ⟨db₄, run₄, ok₄, bounded₄, dom₄⟩ := updateAll_total (f := (·.delParent id)) (fun _ => rfl)
    (fun x p hok => hok.delParent id) ok₂ (wrote.bounded inv.bounded.deleted) ranked₂ enough exist
  -- the owner again
  obtain ⟨q, hq⟩ := (dom₄ r.ownerId).mpr ((dom₂ r.ownerId).mpr ⟨hrok.id ▸ hne, p, hp⟩)
  have hput := put_stored ((ok₄ r.ownerId q hq).stored hq)
  obtain ⟨db₅, run₅⟩ := pdbUpdateCps_total fuel db₄ q (ok₄.of_profiles hput) bounded₄
    (fun x hx => ranked₂ x ((dom₄ x).mp (graph_of_profiles hput ▸ hx))) (by omega)
  refine ⟨db₅, ?_⟩
  have hloop : (pdbArrayIds r.memberOf).foldlM (fun _ _ => none) db₂ = some db₂ := by
    rw [alone]
    rfl
  have hmembers : updateAll fuel (·.delParent id) (pdbArrayIds r.groupsOrMembers) db₂ = some db₄ := by
    rw [hrok.ids_members]
    exact run₄
  rw [pdbDeleteGroup, pdbReadProfile, hr]
  refine bind_eq_some_iff.mpr ⟨p, hp₁, ?_⟩
  refine bind_eq_some_iff.mpr ⟨db₂, run₂, ?_⟩
  refine bind_eq_some_iff.mpr ⟨db₂, hloop, ?_⟩
  refine bind_eq_some_iff.mpr ⟨db₄, hmembers, ?_⟩
  exact bind_eq_some_iff.mpr ⟨q, hq, run₅⟩

theorem unmentioned_of_deleted (run : pdbDeleteGroup fuel db id = some db') : Unmentioned db' id := by
  have wf := inv.ok.wellFormed
  obtain ⟨absent, -⟩ | ⟨-, inv', u, -, howner, graph⟩ := pdbDeleteGroup_spec inv run
  · exact absurd ⟨r, hr⟩ absent
  have hmember : ∀ x, ¬ db'.graph.memberOf x id := by
    intro x hx
    rw [graph] at hx
    exact hx.2.2 ⟨rfl, (inv.symm id x hneg).mp hx.2.1⟩
  intro x p hp
  have hx : x ≠ id ∧ db.graph.dom x := by
    have hdom : db'.graph.dom x := ⟨p, hp⟩
    rwa [graph] at hdom
  refine ⟨fun h => hmember x ⟨p, hp, h⟩, fun h => ?_, fun h => ?_⟩
  · -- what is in the cps is reached over memberships
    have hreach := ((inv'.consistent.cps x p hp).2 id).mp h
    obtain heq | ⟨y, -, hy⟩ := hreach.cases_tail
    · exact hx.1 heq.symm
    · exact hmember y hy
  · have hlists : db'.graph.lists x id := ⟨p, hp, h⟩
    rw [graph] at hlists
    obtain ⟨-, hlists, hnot⟩ := hlists
    obtain ⟨q, hq⟩ := hx.2
    rcases lt_trichotomy x 0 with hx0 | hx0 | hx0
    · -- a group lists its members, and this one is in no group
      have hparent := (inv.symm x id hx0).mpr hlists
      rw [memberOf_read hr, alone] at hparent
      cases hparent
    · exact absurd hx0 (inv.ok x q hq).nonzero
    · have howner' := ((own.lists x hx0 ⟨q, hq⟩ id).mp hlists).2
      exact hnot ⟨wf.unique id x u howner' howner, rfl⟩

end Owned

/-! ### Databases that calls reach -/

/-- The calls that build a database up. -/
def PdbOp.Builds : PdbOp → Prop
  | .createUser _ => True
  | .createGroup _ _ => True
  | .addToGroup _ _ => True
  | .removeFromGroup _ _ => True
  | _ => False

theorem PdbOp.Builds.valid {op : PdbOp} (builds : op.Builds) : op.Valid := by
  cases op <;> trivial

theorem PdbOp.Builds.ownsNothing {op : PdbOp} (builds : op.Builds) (G : Graph) :
    op.OwnsNothing G := by
  cases op <;> trivial

theorem built_inv {ops : List PdbOp} (builds : ∀ op ∈ ops, op.Builds)
    (run : ops.foldlM (PdbOp.run fuel) Pdb.empty = some db) :
    ∃ rank, PdbInv rank db ∧ db.graph.Owned := by
  have always : Always (PdbOp.run fuel) (fun db => ∃ rank, PdbInv rank db ∧ db.graph.Owned)
      Pdb.empty ops := by
    refine always_of_guarded ?_ (fun _ h => h)
      ⟨_, pdbInv_empty, ?_⟩ (guarded_of_forall (fun op hop _ => builds op hop) _)
    · rintro db₁ op db₂ ⟨rank, inv, own⟩ hbuilds run₁
      obtain ⟨⟨rank', inv'⟩, step⟩ := PdbOp.run_spec inv hbuilds.valid run₁
      exact ⟨rank', inv', (step.owned_iff inv.ok.wellFormed own).mpr (hbuilds.ownsNothing _)⟩
    · exact ⟨fun _ _ ⟨_, h⟩ => absurd h.symm (some_ne_none _),
        fun _ _ ⟨_, h⟩ => absurd h.symm (some_ne_none _)⟩
  exact always.reached run

/-- Deleting a group returns and leaves no mention of it, exactly when the group is in no other
one. -/
theorem pdbDeleteGroup_complete_iff {ops : List PdbOp} (builds : ∀ op ∈ ops, op.Builds)
    (run : ops.foldlM (PdbOp.run fuel) Pdb.empty = some db) (hneg : id < 0)
    (hr : db.profiles id = some r) :
    (∃ n, ∀ k ≥ n, ∃ db', pdbDeleteGroup k db id = some db' ∧ Unmentioned db' id) ↔
      r.memberOf = [] := by
  obtain ⟨rank, inv, own⟩ := built_inv builds run
  constructor
  · rintro ⟨n, h⟩
    obtain ⟨db', hdel, -⟩ := h n (le_refl n)
    exact memberOf_eq_nil_of_deleted inv.ok hr hdel
  · intro alone
    obtain ⟨n, h⟩ := pdbDeleteGroup_total inv own hneg hr alone
    refine ⟨n, fun k hk => ?_⟩
    obtain ⟨db', hdel⟩ := h k hk
    exact ⟨db', hdel, unmentioned_of_deleted inv own hneg hr alone hdel⟩

/-- A user with two groups, the first of which is a member of the second. -/
def nested : List PdbOp :=
  [.createUser ⟨[117#8], by decide⟩, .createGroup ⟨[103#8], by decide⟩ 1,
    .createGroup ⟨[104#8], by decide⟩ 1, .addToGroup (-1) (-2)]

theorem nested_builds : ∀ op ∈ nested, op.Builds := by
  simp [nested, PdbOp.Builds]

theorem nested_run : ∃ db p q, nested.foldlM (PdbOp.run 3) Pdb.empty = some db ∧
    db.profiles (-1) = some p ∧ p.memberOf = [-2] ∧ db.profiles (-2) = some q ∧
      q.memberOf = [] := by
  have hend : (nested.foldlM (PdbOp.run 3) Pdb.empty).map (fun db =>
      ((db.profiles (-1)).map PdbProfile.memberOf, (db.profiles (-2)).map PdbProfile.memberOf)) =
      some (some [-2], some []) := by decide
  obtain ⟨db, run, heq⟩ := map_eq_some_iff.mp hend
  obtain ⟨hinner, houter⟩ := Prod.mk.inj heq
  obtain ⟨p, hp, hpmem⟩ := map_eq_some_iff.mp hinner
  obtain ⟨q, hq, hqmem⟩ := map_eq_some_iff.mp houter
  exact ⟨db, p, q, run, hp, hpmem, hq, hqmem⟩

/-- The outer group is deleted. -/
theorem pdbDeleteGroup_complete_outer :
    ∃ db, nested.foldlM (PdbOp.run 3) Pdb.empty = some db ∧
      ∃ n, ∀ k ≥ n, ∃ db', pdbDeleteGroup k db (-2) = some db' ∧ Unmentioned db' (-2) := by
  obtain ⟨db, p, q, run, -, -, hq, hqmem⟩ := nested_run
  exact ⟨db, run, (pdbDeleteGroup_complete_iff nested_builds run (by decide) hq).mpr hqmem⟩

/-- The inner one is not. -/
theorem pdbDeleteGroup_fails :
    ∃ db r, nested.foldlM (PdbOp.run 3) Pdb.empty = some db ∧ db.profiles (-1) = some r ∧
      ∀ k, pdbDeleteGroup k db (-1) = none := by
  obtain ⟨db, p, q, run, hp, hpmem, -⟩ := nested_run
  obtain ⟨rank, inv, -⟩ := built_inv nested_builds run
  refine ⟨db, p, run, hp, fun k => ?_⟩
  cases hdel : pdbDeleteGroup k db (-1) with
  | none => rfl
  | some db' =>
    rw [memberOf_eq_nil_of_deleted inv.ok hp hdel] at hpmem
    cases hpmem

end Delete

end Coda.Al
