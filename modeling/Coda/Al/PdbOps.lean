import Coda.Al.PdbEdit

/-!
One specification for each operation of the protection database: when the call completes, it
keeps the invariant and changes the graph in the way that `Graph` has it.
-/

namespace Coda.Al

open Coda.Lib Option Function Graph PdbProfile Good AllOK

/-! ### New ids -/

section Fresh

variable {db db' : Pdb} {id : Int}

theorem int32_eq {x y : Int} (h : int32 x = some y) : y = x := by
  unfold int32 at h
  split_ifs at h
  exact (some.inj h).symm

theorem not_dom_of_read (hr : pdbReadProfile db id = none) : ¬ db.graph.dom id := by
  rintro ⟨p, hp⟩
  exact some_ne_none p (hp.symm.trans hr)

theorem Bounded.fresh_user (b : Bounded db) (h : int32 ((pdbDbMaxids db).1 + 1) = some id) :
    0 < id ∧ ¬ db.graph.dom id := by
  obtain rfl := int32_eq h
  have := b.uid
  refine ⟨by omega, ?_⟩
  rintro ⟨p, hp⟩
  have := (b.range _ p hp).2
  omega

theorem Bounded.fresh_group (b : Bounded db) (h : int32 ((pdbDbMaxids db).2 - 1) = some id) :
    id < 0 ∧ ¬ db.graph.dom id := by
  obtain rfl := int32_eq h
  have := b.gid
  refine ⟨by omega, ?_⟩
  rintro ⟨p, hp⟩
  have := (b.range _ p hp).1
  omega

end Fresh

/-! ### Users -/

section Users

variable {db db' : Pdb} {rank : Int → Nat} {fuel : Nat} {name : CString} {id : Int}

theorem pdbCreateUser_spec (inv : PdbInv rank db) (run : pdbCreateUser db name = some (id, db')) :
    0 < id ∧ ¬ db.graph.dom id ∧ PdbInv rank db' ∧ db'.graph = db.graph.newUser id := by
  unfold pdbCreateUser at run
  split_ifs at run with hname
  obtain ⟨id₁, hid, run⟩ := bind_eq_some_iff.mp run
  obtain ⟨db₁, run₁, run⟩ := bind_eq_some_iff.mp run
  obtain ⟨db₂, run₂, run⟩ := bind_eq_some_iff.mp run
  obtain ⟨rfl, rfl⟩ := Prod.mk.inj (some.inj run)
  obtain ⟨hpos, fresh⟩ := inv.bounded.fresh_user hid
  have wrote := pdbWriteProfile_wrote run₂
  have hprof := wrote.profiles.trans (put_of_profiles (pdbDbUpdateMaxids_eq run₁).1 _)
  have graph : db₂.graph = db.graph.newUser id₁ := by
    rw [graph_of_profiles hprof]
    refine ext_iffs dom_put (fun x g => ?_) (fun g x => ?_) (fun x w => ?_)
    · rw [memberOf_put_new fresh]
      simp [newUser]
    · rw [lists_put_new fresh]
      simp [newUser]
    · rw [owner_put_new fresh]
      simp [newUser, eq_comm]
  refine ⟨hpos, fresh, ⟨?_, ?_, ?_, fun x => ?_⟩, graph⟩
  · refine of_profiles hprof (inv.ok.put (x := id₁) ?_)
    exact { id := rfl, nonzero := Int.ne_of_gt hpos, memberOf_sorted := List.Pairwise.nil,
            cps_sorted := List.pairwise_singleton _ _, members_sorted := List.Pairwise.nil,
            parent := nofun,
            member := nofun,
            user := fun _ => rfl, owner := fun h => by omega }
  · exact wrote.bounded (pdbDbUpdateMaxids_bounded inv.bounded run₁)
  · rw [graph]
    exact inv.symm.newUser id₁
  · refine of_profiles hprof ?_
    by_cases hx : x = id₁
    · subst hx
      intro p hp y
      rw [put_profiles, update_self] at hp
      cases hp
      simp [pdbArrayAdd]
    · exact (inv.good x).put_new hx (inv.ok.wellFormed.not_memberOf hpos)

theorem pdbCloneUser_spec {cloneid : Int} (inv : PdbInv rank db) (hclone : 0 < cloneid)
    (run : pdbCloneUser fuel db name cloneid = some (id, db')) :
    0 < id ∧ ¬ db.graph.dom id ∧ db.graph.dom cloneid ∧
      (∃ rank', PdbInv rank' db') ∧ db'.graph = db.graph.clone id cloneid := by
  unfold pdbCloneUser at run
  split_ifs at run with hname
  obtain ⟨r, hr, run⟩ := bind_eq_some_iff.mp run
  obtain ⟨id₁, hid, run⟩ := bind_eq_some_iff.mp run
  obtain ⟨db₁, run₁, run⟩ := bind_eq_some_iff.mp run
  obtain ⟨db₂, run₂, run⟩ := bind_eq_some_iff.mp run
  obtain ⟨db₃, run₃, run⟩ := bind_eq_some_iff.mp run
  obtain ⟨rfl, rfl⟩ := Prod.mk.inj (some.inj run)
  obtain ⟨hpos, fresh⟩ := inv.bounded.fresh_user hid
  have wf := inv.ok.wellFormed
  have hrok := inv.ok cloneid r hr
  have hprof₁ := (pdbDbUpdateMaxids_eq run₁).1
  have run₂ : editAll (·.addMember id₁) r.memberOf db₁ = some db₂ := by
    rw [← hrok.ids_memberOf]
    exact run₂
  obtain ⟨-, bounded₂, hfinal⟩ := editAll_spec (f := (·.addMember id₁)) (fun _ => rfl)
    hrok.memberOf_sorted.nodup (fun x p hp => (inv.ok x p (hprof₁ ▸ hp)).id) run₂
  simp only [hprof₁] at hfinal
  -- the rank of the clone is that of the original
  have hne : ∀ {x}, db.graph.dom x → x ≠ id₁ := fun hx h => fresh (h ▸ hx)
  have ok : AllOK (update rank id₁ (rank cloneid)) db := by
    refine inv.ok.rerank inv.symm fun x g h => ?_
    obtain ⟨hx, hg⟩ := inv.symm.dom_of_memberOf wf h
    rw [update_of_ne (hne hx), update_of_ne (hne hg)]
    obtain ⟨p, hp, hmem⟩ := h
    exact ((inv.ok x p hp).parent g hmem).2
  have hrank : ∀ g ∈ r.memberOf, update rank id₁ (rank cloneid) g <
      update rank id₁ (rank cloneid) id₁ := by
    intro g hg
    have hdom := (inv.symm.dom_of_memberOf wf ⟨r, hr, hg⟩).2
    rw [update_self, update_of_ne (hne hdom)]
    exact (hrok.parent g hg).2
  have ok₂ : AllOK (update rank id₁ (rank cloneid)) db₂ :=
    ok.edited hfinal fun g hg q hq => (ok g q hq).addMember (by omega) fun _ => hrank g hg
  have graph₂ := graph_edited hfinal (fun _ => rfl) (fun _ => rfl)
  have fresh₂ : ¬ db₂.graph.dom id₁ := by
    rw [graph₂]
    exact fresh
  have graph : (db₂.put { r with id := id₁, name := name }).graph = db.graph.clone id₁ cloneid := by
    refine ext_iffs (fun x => ?_) (fun x g => ?_) (fun g x => ?_) (fun x w => ?_)
    · rw [dom_put, graph₂]
      exact .rfl
    · rw [memberOf_put_new fresh₂, graph₂, ← memberOf_read hr]
      exact .rfl
    · rw [lists_put_new fresh₂, graph₂]
      simp only [addMember, mem_pdbArrayAdd, clone, lists_read hr, memberOf_read hr]
      refine or_congr_right ?_
      constructor
      · rintro (⟨hg, p, hp, rfl | hx⟩ | ⟨-, h⟩)
        · exact .inl ⟨rfl, hg⟩
        · exact .inr ⟨p, hp, hx⟩
        · exact .inr h
      · rintro (⟨rfl, hg⟩ | ⟨p, hp, hx⟩)
        · obtain ⟨p, hp⟩ := (inv.symm.dom_of_memberOf wf ⟨r, hr, hg⟩).2
          exact .inl ⟨hg, p, hp, .inl rfl⟩
        · by_cases hg : g ∈ r.memberOf
          · exact .inl ⟨hg, p, hp, .inr hx⟩
          · exact .inr ⟨hg, p, hp, hx⟩
    · rw [owner_put_new fresh₂, graph₂, ← owner_read hr]
      exact .rfl
  have finished := finish (ok₂.put (x := id₁) ?_)
    (bounded₂ (pdbDbUpdateMaxids_bounded inv.bounded run₁)) ?_ (fun x hx => ?_) run₃
  · exact ⟨hpos, fresh, ⟨r, hr⟩, ⟨_, finished.1⟩, finished.2.trans graph⟩
  · exact { hrok with
      id := rfl, nonzero := Int.ne_of_gt hpos,
      parent := fun g hg => ⟨(hrok.parent g hg).1, hrank g hg⟩,
      member := fun c hc => ⟨(hrok.member c hc).1, fun h => by omega⟩,
      user := fun _ => hrok.user hclone, owner := fun h => by omega }
  · rw [graph]
    exact inv.symm.clone hpos
  · refine put_new hx ?_ (editAll_good (f := (·.addMember id₁)) (fun _ => rfl)
      (fun _ => rfl) hfinal (inv.good x))
    rw [graph₂]
    exact wf.not_memberOf hpos

/-- Deleting a user takes them off the lists of their groups. -/
theorem pdbDeleteUser_spec (inv : PdbInv rank db) (hid : 0 ≤ id)
    (run : pdbDeleteUser db id = some db') :
    (¬ db.graph.dom id ∧ db' = db) ∨
      (0 < id ∧ db.graph.dom id ∧ PdbInv rank db' ∧ db'.graph = db.graph.delUser id) := by
  unfold pdbDeleteUser at run
  cases hr : pdbReadProfile db id with
  | none =>
    rw [hr] at run
    exact .inl ⟨not_dom_of_read hr, (some.inj run).symm⟩
  | some r =>
    have hrok := inv.ok id r hr
    have hpos : 0 < id := by
      have := hrok.nonzero
      omega
    rw [hr] at run
    dsimp only at run
    rw [hrok.ids_memberOf] at run
    obtain ⟨-, bounded, hfinal⟩ := editAll_spec (f := (·.delMember id)) (fun _ => rfl)
      hrok.memberOf_sorted.nodup (fun x p hp => (inv.ok.deleted x p hp).id) run
    have ok := inv.ok.deleted.edited hfinal fun x _ p hp => (inv.ok.deleted x p hp).delMember id
    have graph : db'.graph = db.graph.delUser id := by
      rw [graph_edited hfinal (fun _ => rfl) fun _ => rfl]
      refine ext_iffs (fun x => ?_) (fun x g => ?_) (fun g x => ?_) (fun x w => ?_)
      · rw [← hrok.id]
        exact dom_deleted x
      · rw [← hrok.id]
        exact memberOf_deleted x g
      · simp only [delUser, lists_deleted, memberOf_read hr, hrok.id]
        constructor
        · rintro (⟨hg, p, hp, hx⟩ | ⟨hg, hne, h⟩)
          · obtain ⟨hne, hp⟩ := of_deleted hp
            obtain ⟨hx, hxid⟩ := (mem_pdbArrayDel (inv.ok g p hp).members_sorted id x).mp hx
            exact ⟨hrok.id ▸ hne, ⟨p, hp, hx⟩, fun h => hxid h.1⟩
          · exact ⟨hne, h, fun h' => hg h'.2⟩
        · rintro ⟨hne, ⟨p, hp, hx⟩, hnot⟩
          by_cases hg : g ∈ r.memberOf
          · refine .inl ⟨hg, p, ?_, ?_⟩
            · rw [deleted_of_ne (by rwa [hrok.id]), hp]
            · exact (mem_pdbArrayDel (inv.ok g p hp).members_sorted id x).mpr
                ⟨hx, fun h => hnot ⟨h, hg⟩⟩
          · exact .inr ⟨hg, hne, p, hp, hx⟩
      · rw [← hrok.id]
        exact owner_deleted x w
    refine .inr ⟨hpos, ⟨r, hr⟩, ⟨ok, bounded inv.bounded.deleted, ?_, fun x => ?_⟩, graph⟩
    · rw [graph]
      exact inv.symm.delUser hid
    · refine editAll_good (f := (·.delMember id)) (fun _ => rfl) (fun _ => rfl) hfinal
        ((inv.good x).deleted ?_)
      rw [hrok.id]
      exact inv.ok.wellFormed.not_memberOf hpos

end Users

/-! ### Groups -/

section Groups

variable {db db' : Pdb} {rank : Int → Nat} {fuel : Nat} {name : CString} {id groupId : Int}

variable (inv : PdbInv rank db)
include inv

/-- A new group with its owner as the only member. The ranks make room for the group below
all that exists. -/
theorem pdbCreateGroup_spec {owner : Int} (run : pdbCreateGroup db name owner = some (id, db')) :
    id < 0 ∧ 0 < owner ∧ db.graph.dom owner ∧ ¬ db.graph.dom id ∧
      (∃ rank', PdbInv rank' db') ∧ db'.graph = db.graph.newGroup id owner := by
  unfold pdbCreateGroup at run
  split_ifs at run with hargs
  obtain ⟨p, hp, run⟩ := bind_eq_some_iff.mp run
  obtain ⟨id₁, hid, run⟩ := bind_eq_some_iff.mp run
  obtain ⟨db₁, run₁, run⟩ := bind_eq_some_iff.mp run
  obtain ⟨db₂, run₂, run⟩ := bind_eq_some_iff.mp run
  obtain ⟨db₃, run₃, run⟩ := bind_eq_some_iff.mp run
  obtain ⟨rfl, rfl⟩ := Prod.mk.inj (some.inj run)
  obtain ⟨hneg, fresh⟩ := inv.bounded.fresh_group hid
  have wf := inv.ok.wellFormed
  have hpos : 0 < owner := by
    by_contra h
    exact hargs (.inr (.inl (by simpa [pdbIsUser] using h)))
  have hpok := inv.ok owner p hp
  have hne : owner ≠ id₁ := by omega
  let rank' : Int → Nat := fun x => if x = id₁ then 0 else rank x + 1
  have hrank : rank' id₁ < rank' owner := by
    simp [rank', hne]
  have ok : AllOK rank' db := by
    refine inv.ok.rerank inv.symm fun x g h => ?_
    obtain ⟨hx, hg⟩ := inv.symm.dom_of_memberOf wf h
    dsimp only [rank']
    have hx' : x ≠ id₁ := fun h => fresh (h ▸ hx)
    have hg' : g ≠ id₁ := fun h => fresh (h ▸ hg)
    rw [if_neg hx', if_neg hg']
    obtain ⟨q, hq, hmem⟩ := h
    have := ((inv.ok x q hq).parent g hmem).2
    omega
  generalize hr : mk id₁ name owner p.name [] (pdbArrayAdd [] id₁) (pdbArrayAdd [] owner)
    = r at run₂
  have hrok : ProfileOK rank' id₁ r := by
    subst hr
    exact { id := rfl, nonzero := Int.ne_of_lt hneg, memberOf_sorted := List.Pairwise.nil,
            cps_sorted := List.pairwise_singleton _ _, members_sorted := List.pairwise_singleton _ _,
            parent := nofun,
            member := fun c hc => by
              obtain rfl := List.mem_singleton.mp hc
              exact ⟨Int.ne_of_gt hpos, fun _ => hrank⟩,
            user := fun h => by omega, owner := fun _ => hpos }
  have wrote₂ := pdbWriteProfile_wrote run₂
  have wrote₃ := pdbWriteProfile_wrote run₃
  have hprof₂ := wrote₂.profiles.trans (put_of_profiles (pdbDbUpdateMaxids_eq run₁).1 _)
  have hp₂ : db₂.profiles owner = some p := by
    rw [hprof₂, put_profiles, hrok.id, update_of_ne hne]
    exact hp
  have ok₂ : AllOK rank' db₂ := of_profiles hprof₂ (ok.put hrok)
  have fresh' : ¬ db.graph.dom r.id := hrok.id.symm ▸ fresh
  have good₂ : ∀ x, Good db₂ x := by
    intro x
    refine of_profiles hprof₂ ?_
    by_cases hx : x = r.id
    · subst hx
      intro q hq y
      rw [put_profiles, update_self] at hq
      cases hq
      simp [← hr, pdbArrayAdd]
    · exact (inv.good x).put_new hx fun h => fresh' (inv.symm.dom_of_memberOf wf h).2
  have graph₂ : db₂.graph = (db.put r).graph := graph_of_profiles hprof₂
  have hcps₂ : cpsOf db₂ id₁ = [id₁] := by
    rw [cpsOf, hprof₂, put_profiles, hrok.id, update_self, ← hr]
    rfl
  -- the owner's profile is written once: members, parents and cps together
  have hwok : ProfileOK rank' owner
      { (p.addMember id₁).addParent id₁ with cps := pdbArrayAdd p.cps id₁ } :=
    { ((ok owner p hp).addMember (Int.ne_of_lt hneg) fun h => by omega).addParent hneg hrank with
      cps_sorted := sorted_pdbArrayAdd hpok.cps_sorted id₁ }
  have graph : db₃.graph = db.graph.newGroup id₁ owner := by
    rw [graph_of_profiles wrote₃.profiles]
    refine ext_iffs (fun x => ?_) (fun x h => ?_) (fun h x => ?_) (fun x w => ?_)
    · rw [dom_put, graph₂, dom_put, hrok.id, hwok.id]
      refine or_iff_right_of_imp ?_
      rintro rfl
      exact .inr ⟨p, hp⟩
    · rw [memberOf_put, graph₂, memberOf_put_new fresh', hwok.id]
      by_cases hx : x = owner
      · subst hx
        simp [addParent, addMember, mem_pdbArrayAdd, newGroup,
          memberOf_read hp]
      · simp [hx, newGroup, ← hr]
    · rw [lists_put, graph₂, lists_put_new fresh', hwok.id]
      by_cases hh : h = owner
      · subst hh
        simp [addParent, addMember, mem_pdbArrayAdd, newGroup, hne,
          lists_read hp]
      · simp [hh, newGroup, ← hr, pdbArrayAdd]
    · rw [owner_put, graph₂, owner_put_new fresh', hwok.id]
      by_cases hx : x = owner
      · subst hx
        simp [addParent, addMember, newGroup, hne, owner_read hp]
      · simp [hx, newGroup, ← hr, eq_comm]
  refine ⟨hneg, hpos, ⟨p, hp⟩, fresh, ⟨rank', ⟨?_, ?_, ?_, fun x => ?_⟩⟩, graph⟩
  · exact of_profiles wrote₃.profiles (ok₂.put hwok)
  · exact wrote₃.bounded (wrote₂.bounded (pdbDbUpdateMaxids_bounded inv.bounded run₁))
  · rw [graph]
    exact inv.symm.newGroup hpos
  · refine of_profiles wrote₃.profiles ?_
    have frame : ∀ h, h < 0 → cpsOf (db₂.put _) h = cpsOf db₂ h := fun h hh =>
      cpsOf_put_of_ne
        (by rw [hwok.id]; omega)
    by_cases hx : x = owner
    · subst hx
      intro q hq y
      rw [put_profiles, hwok.id, update_self] at hq
      cases hq
      have hgood := good₂ x p hp₂ y
      refine (mem_pdbArrayAdd p.cps id₁ y).trans ?_
      constructor
      · rintro (rfl | hy)
        · refine .inr ⟨y, (mem_pdbArrayAdd p.memberOf y y).mpr (.inl rfl), ?_⟩
          rw [frame y hneg, hcps₂]
          exact List.mem_singleton_self y
        · refine (hgood.mp hy).imp_right ?_
          rintro ⟨h, hh, hy⟩
          refine ⟨h, (mem_pdbArrayAdd p.memberOf id₁ h).mpr (.inr hh), ?_⟩
          rwa [frame h (hpok.parent h hh).1]
      · rintro (rfl | ⟨h, hh, hy⟩)
        · exact .inr (hgood.mpr (.inl rfl))
        · rcases (mem_pdbArrayAdd p.memberOf id₁ h).mp hh with rfl | hh
          · rw [frame h hneg, hcps₂] at hy
            exact .inl (List.mem_singleton.mp hy)
          · rw [frame h (hpok.parent h hh).1] at hy
            exact .inr (hgood.mpr (.inr ⟨h, hh, hy⟩))
    · refine (good₂ x).put_new (by rwa [hwok.id]) ?_
      rw [hwok.id]
      exact ok₂.wellFormed.not_memberOf hpos

/-- A member that is not above the group joins it. The ranks of all that have the member in
their cps grow past that of the group. -/
theorem pdbAddToGroup_spec (run : pdbAddToGroup fuel db id groupId = some db') :
    groupId < 0 ∧ (db' = db ∨
      ((∃ rank', PdbInv rank' db') ∧ db'.graph = db.graph.join id groupId)) := by
  obtain ⟨hargs, run⟩ := ite_none_left_eq_some.mp run
  rw [not_not] at hargs
  obtain ⟨r, hr, run⟩ := bind_eq_some_iff.mp run
  have hgroup : groupId < 0 := of_decide_eq_true hargs.1
  refine ⟨hgroup, ?_⟩
  split_ifs at run with hcps
  · exact .inl (some.inj run).symm
  obtain ⟨db₁, run₁, run⟩ := bind_eq_some_iff.mp run
  obtain ⟨q, hq, run⟩ := bind_eq_some_iff.mp run
  have hrok := inv.ok groupId r hr
  have hr' : db.profiles groupId = some r := hr
  rw [not_isSome_iff_eq_none, pdbArraySearch_eq_none_iff hrok.cps_sorted] at hcps
  have hnot : id ∉ cpsOf db groupId := by rwa [cpsOf, hr']
  have hne : id ≠ groupId := by
    rintro rfl
    exact hnot (inv.mem_cpsOf_self ⟨r, hr⟩)
  have hprof := (pdbWriteProfile_wrote run₁).profiles
  have hq₀ : db.profiles id = some q := by
    have hq' : db₁.profiles id = some q := hq
    rwa [hprof, put_profiles, update_of_ne (hrok.id.symm ▸ hne)] at hq'
  have hself : id ∈ cpsOf db id := inv.mem_cpsOf_self ⟨q, hq₀⟩
  let rank' : Int → Nat := fun y => rank y + if id ∈ cpsOf db y then rank groupId + 1 else 0
  have ok : AllOK rank' db := by
    refine inv.ok.rerank inv.symm fun x g h => ?_
    obtain ⟨p, hp, hg⟩ := h
    have hlt := ((inv.ok x p hp).parent g hg).2
    have hmono : id ∈ cpsOf db g → id ∈ cpsOf db x := inv.mem_cpsOf_of_parent ⟨p, hp, hg⟩
    dsimp only [rank']
    split_ifs with hin hin'
    · omega
    · exact absurd (hmono hin) hin'
    · omega
    · omega
  have hrank : rank' groupId < rank' id := by
    dsimp only [rank']
    rw [if_neg hnot, if_pos hself]
    omega
  have ok₁ : AllOK rank' db₁ :=
    of_profiles hprof (ok.put ((ok groupId r hr).addMember hargs.2 fun _ => hrank))
  have graph : (db₁.put (q.addParent groupId)).graph = db.graph.join id groupId := by
    rw [graph_addParent hq (ok₁ id q hq), graph_of_profiles hprof, graph_addMember hr hrok]
    rfl
  have finished := finish (ok₁.put ((ok₁ id q hq).addParent hgroup hrank))
    ((pdbWriteProfile_wrote run₁).bounded inv.bounded) ?_ (fun x hx => ?_) run
  · exact .inr ⟨⟨rank', finished.1⟩, finished.2.trans graph⟩
  · rw [graph]
    exact inv.symm.join id groupId
  · refine put_other ((ok₁ id q hq).stored hq) rfl hx (of_profiles hprof ?_)
    exact put_edit (hrok.stored hr) rfl rfl (inv.good x)

/-- A member leaves a group, or neither end of the membership was there. -/
theorem pdbRemoveFromGroup_spec (run : pdbRemoveFromGroup fuel db id groupId = some db') :
    groupId < 0 ∧ PdbInv rank db' ∧ db'.graph = db.graph.leave id groupId := by
  obtain ⟨hargs, run⟩ := ite_none_left_eq_some.mp run
  rw [not_not] at hargs
  obtain ⟨r, hr, run⟩ := bind_eq_some_iff.mp run
  obtain ⟨db₁, run₁, run⟩ := bind_eq_some_iff.mp run
  obtain ⟨q, hq, run⟩ := bind_eq_some_iff.mp run
  have hrok := inv.ok groupId r hr
  have hprof := (pdbWriteProfile_wrote run₁).profiles
  have ok₁ : AllOK rank db₁ :=
    of_profiles hprof (inv.ok.put (hrok.delMember id))
  have hqok := ok₁ id q hq
  have graph : (db₁.put (q.delParent groupId)).graph = db.graph.leave id groupId := by
    rw [graph_delParent hq hqok, graph_of_profiles hprof, graph_delMember hr hrok]
    rfl
  have finished := finish (ok₁.put (hqok.delParent groupId))
    ((pdbWriteProfile_wrote run₁).bounded inv.bounded) ?_ (fun x hx => ?_) run
  · exact ⟨of_decide_eq_true hargs.1, finished.1, finished.2.trans graph⟩
  · rw [graph]
    exact inv.symm.leave id groupId
  · refine put_other (hqok.stored hq) rfl hx (of_profiles hprof ?_)
    exact put_edit (hrok.stored hr) rfl rfl (inv.good x)

/-- A group that is in no other group is deleted. -/
theorem pdbDeleteGroup_spec (run : pdbDeleteGroup fuel db id = some db') :
    (¬ db.graph.dom id ∧ db' = db) ∨
      (id < 0 ∧ PdbInv rank db' ∧ ∃ owner, 0 < owner ∧ db.graph.owner id owner ∧
        db'.graph = db.graph.delGroup id owner) := by
  unfold pdbDeleteGroup at run
  cases hr : pdbReadProfile db id with
  | none =>
    rw [hr] at run
    exact .inl ⟨not_dom_of_read hr, (some.inj run).symm⟩
  | some r =>
    rw [hr] at run
    obtain ⟨p, hp, run⟩ := bind_eq_some_iff.mp run
    obtain ⟨db₂, run₂, run⟩ := bind_eq_some_iff.mp run
    obtain ⟨db₃, run₃, run⟩ := bind_eq_some_iff.mp run
    obtain ⟨db₄, run₄, run⟩ := bind_eq_some_iff.mp run
    obtain ⟨q, hq, run₅⟩ := bind_eq_some_iff.mp run
    have hrok := inv.ok id r hr
    have ok₁ := inv.ok.deleted (r := r)
    have hpok := ok₁ r.ownerId p hp
    have wrote := pdbWriteProfile_wrote run₂
    have hneg : id < 0 := by
      by_contra h
      have := hrok.nonzero
      exact hpok.nonzero (hrok.user (by omega))
    have hown := hrok.owner hneg
    -- the group has no parents, or the loop over them would have failed
    have htop : r.memberOf = [] := by
      rw [hrok.ids_memberOf] at run₃
      cases hmem : r.memberOf with
      | nil => rfl
      | cons g gs =>
        rw [hmem] at run₃
        exact absurd run₃.symm nofun
    obtain rfl : db₂ = db₃ := by
      rw [htop] at run₃
      exact some.inj run₃
    rw [hrok.ids_members] at run₄
    have ok₂ : AllOK rank db₂ := of_profiles wrote.profiles (ok₁.put (hpok.delMember id))
    have graph₂ := (graph_of_profiles wrote.profiles).trans (graph_delMember hp hpok id)
    have dom₂ : ∀ x, db₂.graph.dom x ↔ x ≠ id ∧ db.graph.dom x := by
      rw [graph₂, ← hrok.id]
      exact dom_deleted
    have memberOf₂ : ∀ x g, db₂.graph.memberOf x g ↔ x ≠ id ∧ db.graph.memberOf x g := by
      rw [graph₂, ← hrok.id]
      exact memberOf_deleted
    have lists₂ : ∀ g x, db₂.graph.lists g x ↔
        (g ≠ id ∧ db.graph.lists g x) ∧ ¬ (g = r.ownerId ∧ x = id) := by
      intro g x
      rw [graph₂]
      simp only [lists_deleted, hrok.id]
    have owner₂ : ∀ x w, db₂.graph.owner x w ↔ x ≠ id ∧ db.graph.owner x w := by
      rw [graph₂, ← hrok.id]
      exact owner_deleted
    have known : ∀ x, Known db₂ x := by
      intro x px hpx g hg qg hqg
      have hmem : db₂.graph.memberOf x g := ⟨px, hpx, hg⟩
      have hg0 := (ok₂.wellFormed.memberOf x g hmem).2
      rw [← lists_read hqg, lists₂]
      refine ⟨⟨((dom₂ g).mp ⟨qg, hqg⟩).1, (inv.symm g x hg0).mp ((memberOf₂ x g).mp hmem).2⟩, ?_⟩
      omega
    have change : Changeable rank (·.delParent id) r.groupsOrMembers db₂ := by
      refine ⟨fun x _ px hpx => (ok₂ x px hpx).delParent id, fun x _ px hpx g hg qg hqg => ?_⟩
      exact known x px hpx g ((mem_pdbArrayDel (ok₂ x px hpx).memberOf_sorted id g).mp hg).1 qg hqg
    have updated := updateAll_spec (f := (·.delParent id)) (fun _ => rfl) (fun _ => rfl) (fun _ => rfl)
      (fun p p' h => congrArg (·.delParent id) h) hrok.members_sorted.nodup ok₂
      (wrote.bounded inv.bounded.deleted) known change run₄
    have good₄ : ∀ x, Good db₄ x := by
      intro x
      by_cases hx : x ∈ r.groupsOrMembers
      · exact updated.done x hx
      · refine updated.keep x hx (of_profiles wrote.profiles ?_)
        refine put_edit (hpok.stored hp) rfl rfl ((inv.good x).deleted ?_)
        rw [hrok.id]
        exact fun h => hx ((lists_read hr x).mp ((inv.symm id x hneg).mp h))
    have hprof := put_stored ((updated.ok r.ownerId q hq).stored hq)
    have graph : (db₄.put q).graph = db.graph.delGroup id r.ownerId := by
      rw [graph_of_profiles hprof, updated.graph_eq,
        graph_edited_parents (f := (·.delParent id)) (fun _ => rfl) (fun _ => rfl) fun _ => rfl]
      refine ext_iffs dom₂ (fun x g => ?_) (fun g x => (lists₂ g x).trans and_assoc) owner₂
      have hdel : (∃ p, db₂.profiles x = some p ∧ g ∈ (p.delParent id).memberOf) ↔
          db₂.graph.memberOf x g ∧ g ≠ id := by
        constructor
        · rintro ⟨px, hpx, hg⟩
          obtain ⟨hg, hne⟩ := (mem_pdbArrayDel (ok₂ x px hpx).memberOf_sorted id g).mp hg
          exact ⟨⟨px, hpx, hg⟩, hne⟩
        · rintro ⟨⟨px, hpx, hg⟩, hne⟩
          exact ⟨px, hpx, (mem_pdbArrayDel (ok₂ x px hpx).memberOf_sorted id g).mpr ⟨hg, hne⟩⟩
      simp only [hdel, memberOf₂, delGroup, lists_read hr]
      tauto
    have finished := finish (updated.ok.of_profiles hprof) updated.bounded ?_
      (fun x _ => (good₄ x).of_profiles hprof) run₅
    · exact .inr ⟨hneg, finished.1, r.ownerId, hown, ⟨r, hr, rfl⟩, finished.2.trans graph⟩
    · rw [graph]
      refine inv.symm.delGroup hneg hown fun h hmem => ?_
      rw [memberOf_read hr, htop] at hmem
      exact List.not_mem_nil hmem

end Groups

end Coda.Al
