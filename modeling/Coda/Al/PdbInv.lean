import Coda.Al.Cps
import Coda.Al.Graph

/-!
The invariant of the protection database, and how writing profiles, deleting them and the
loops over id lists act on it.
-/

namespace Coda.Al

open Coda.Lib List Option Function

/-- The references between the stored profiles. -/
def Pdb.graph (db : Pdb) : Graph where
  dom x := ∃ p, db.profiles x = some p
  memberOf x g := ∃ p, db.profiles x = some p ∧ g ∈ p.memberOf
  lists g x := ∃ p, db.profiles g = some p ∧ x ∈ p.groupsOrMembers
  owner x w := ∃ p, db.profiles x = some p ∧ p.ownerId = w

/-- What every operation keeps. -/
structure PdbInv (rank : Int → Nat) (db : Pdb) : Prop where
  ok : AllOK rank db
  bounded : Bounded db
  symm : db.graph.Symmetric
  good : ∀ x, Good db x

/-! ### Databases with the same profiles -/

section Congr

variable {db db' : Pdb} {rank : Int → Nat} {x : Int}

section

variable (h : db'.profiles = db.profiles)
include h

theorem AllOK.of_profiles (ok : AllOK rank db) : AllOK rank db' := by
  unfold AllOK
  rwa [h]

theorem Good.of_profiles (good : Good db x) : Good db' x :=
  good.congr (by rw [h]) fun _ _ g _ => cpsOf_congr (by rw [h])

theorem graph_of_profiles : db'.graph = db.graph := by
  unfold Pdb.graph
  rw [h]

theorem put_of_profiles (r : PdbProfile) : (db'.put r).profiles = (db.put r).profiles := by
  rw [put_profiles, put_profiles, h]

end

theorem SameShape.graph_eq (h : SameShape db db') : db'.graph = db.graph := by
  have fields : ∀ {db db' : Pdb}, SameShape db db' → ∀ {x p'}, db'.profiles x = some p' →
      ∃ p, db.profiles x = some p ∧ p'.ownerId = p.ownerId ∧ p'.memberOf = p.memberOf ∧
        p'.groupsOrMembers = p.groupsOrMembers := fun h _ _ hp' => by
    obtain ⟨p, hp, hshape⟩ := h.of_some hp'
    exact ⟨p, hp, (shape_fields hshape).2⟩
  have le : ∀ {db db' : Pdb}, SameShape db db' →
      (∀ x, db'.graph.dom x → db.graph.dom x) ∧
      (∀ x g, db'.graph.memberOf x g → db.graph.memberOf x g) ∧
      (∀ g x, db'.graph.lists g x → db.graph.lists g x) ∧
      ∀ x w, db'.graph.owner x w → db.graph.owner x w := fun h => by
    refine ⟨?_, ?_, ?_, ?_⟩
    · rintro x ⟨p', hp'⟩
      obtain ⟨p, hp, -⟩ := fields h hp'
      exact ⟨p, hp⟩
    · rintro x g ⟨p', hp', hg⟩
      obtain ⟨p, hp, -, heq, -⟩ := fields h hp'
      exact ⟨p, hp, heq ▸ hg⟩
    · rintro g x ⟨p', hp', hx⟩
      obtain ⟨p, hp, -, -, heq⟩ := fields h hp'
      exact ⟨p, hp, heq ▸ hx⟩
    · rintro x w ⟨p', hp', hw⟩
      obtain ⟨p, hp, heq, -⟩ := fields h hp'
      exact ⟨p, hp, heq ▸ hw⟩
  obtain ⟨h₁, h₂, h₃, h₄⟩ := le h
  obtain ⟨h₁', h₂', h₃', h₄'⟩ := le h.symm
  refine Graph.ext ?_ ?_ ?_ ?_
  · exact funext fun x => propext ⟨h₁ x, h₁' x⟩
  · exact funext₂ fun x g => propext ⟨h₂ x g, h₂' x g⟩
  · exact funext₂ fun g x => propext ⟨h₃ g x, h₃' g x⟩
  · exact funext₂ fun x w => propext ⟨h₄ x w, h₄' x w⟩

end Congr

/-! ### Reading the invariant -/

section Inv

variable {db db' : Pdb} {rank rank' : Int → Nat} {x y : Int} {p : PdbProfile}

theorem AllOK.wellFormed (ok : AllOK rank db) : db.graph.WellFormed where
  memberOf := by
    rintro x g ⟨p, hp, hg⟩
    exact ⟨⟨p, hp⟩, ((ok x p hp).parent g hg).1⟩
  lists := by
    rintro g x ⟨p, hp, -⟩
    exact ⟨p, hp⟩
  owner := by
    rintro x w ⟨p, hp, -⟩
    exact ⟨p, hp⟩
  unique := by
    rintro x w w' ⟨p, hp, rfl⟩ ⟨p', hp', rfl⟩
    obtain rfl := some.inj (hp.symm.trans hp')
    rfl
  user := by
    rintro u w hu ⟨p, hp, rfl⟩
    exact (ok u p hp).user hu
  group := by
    rintro g w hg ⟨p, hp, rfl⟩
    exact (ok g p hp).owner hg

theorem known_iff : Known db x ↔
    ∀ g, db.graph.memberOf x g → db.graph.dom g → db.graph.lists g x := by
  constructor
  · rintro known g ⟨p, hp, hg⟩ ⟨q, hq⟩
    exact ⟨q, hq, known p hp g hg q hq⟩
  · intro h p hp g hg q hq
    obtain ⟨q', hq', hx⟩ := h g ⟨p, hp, hg⟩ ⟨q, hq⟩
    obtain rfl := some.inj (hq.symm.trans hq')
    exact hx

theorem known_of_symmetric (ok : AllOK rank db) (symm : db.graph.Symmetric) (x : Int) : Known db x :=
  known_iff.mpr fun g h _ => (symm g x (ok.wellFormed.memberOf x g h).2).mp h

/-- Any rank that decreases along the memberships will do. -/
theorem AllOK.rerank (ok : AllOK rank db) (symm : db.graph.Symmetric)
    (dec : ∀ x g, db.graph.memberOf x g → rank' g < rank' x) : AllOK rank' db := by
  intro x p hp
  have h := ok x p hp
  refine { h with parent := fun g hg => ⟨(h.parent g hg).1, dec x g ⟨p, hp, hg⟩⟩,
                  member := fun c hc => ⟨(h.member c hc).1, fun hx => ?_⟩ }
  exact dec c x ((symm x c hx).mpr ⟨p, hp, hc⟩)

theorem PdbInv.mem_cpsOf_self (inv : PdbInv rank db) (hx : db.graph.dom x) : x ∈ cpsOf db x := by
  obtain ⟨p, hp⟩ := hx
  have := ((inv.good x p hp) x).mpr (.inl rfl)
  rwa [cpsOf, hp]

theorem PdbInv.mem_cpsOf_of_parent (inv : PdbInv rank db) {g : Int} (h : db.graph.memberOf x g)
    (hy : y ∈ cpsOf db g) : y ∈ cpsOf db x := by
  obtain ⟨p, hp, hg⟩ := h
  have := ((inv.good x p hp) y).mpr (.inr ⟨g, hg, hy⟩)
  rwa [cpsOf, hp]

/-- `PDB_updateCps` as the last step of an operation. -/
theorem finish {fuel : Nat} {r : PdbProfile} (ok : AllOK rank (db.put r)) (bounded : Bounded db)
    (symm : (db.put r).graph.Symmetric) (good : ∀ x, x ≠ r.id → Good (db.put r) x)
    (run : pdbUpdateCps fuel db r = some db') :
    PdbInv rank db' ∧ db'.graph = (db.put r).graph := by
  have updated := pdbUpdateCps_spec fuel db db' r ok bounded run
  have graph := updated.shape.graph_eq
  refine ⟨⟨updated.ok, updated.bounded, graph ▸ symm, fun x => ?_⟩, graph⟩
  by_cases hx : x = r.id
  · exact hx ▸ updated.own
  · exact updated.keep x (known_of_symmetric ok symm x) (good x hx)

end Inv

/-! ### Edits of one profile -/

section Edits

variable {rank : Int → Nat} {x : Int} {p : PdbProfile}

section

variable (ok : ProfileOK rank x p)
include ok

theorem ProfileOK.addMember {c : Int} (hc : c ≠ 0) (hrank : x < 0 → rank x < rank c) :
    ProfileOK rank x (p.addMember c) := by
  refine { ok with members_sorted := sorted_pdbArrayAdd ok.members_sorted c, member := fun y hy => ?_ }
  rcases (mem_pdbArrayAdd _ _ y).mp hy with rfl | hy
  · exact ⟨hc, hrank⟩
  · exact ok.member y hy

theorem ProfileOK.delMember (c : Int) : ProfileOK rank x (p.delMember c) :=
  { ok with
    members_sorted := sorted_pdbArrayDel ok.members_sorted c
    member := fun y hy => ok.member y ((mem_pdbArrayDel ok.members_sorted c y).mp hy).1 }

theorem ProfileOK.addParent {g : Int} (hg : g < 0) (hrank : rank g < rank x) :
    ProfileOK rank x (p.addParent g) := by
  refine { ok with memberOf_sorted := sorted_pdbArrayAdd ok.memberOf_sorted g, parent := fun h hh => ?_ }
  rcases (mem_pdbArrayAdd _ _ h).mp hh with rfl | hh
  · exact ⟨hg, hrank⟩
  · exact ok.parent h hh

theorem ProfileOK.delParent (g : Int) : ProfileOK rank x (p.delParent g) :=
  { ok with
    memberOf_sorted := sorted_pdbArrayDel ok.memberOf_sorted g
    parent := fun h hh => ok.parent h ((mem_pdbArrayDel ok.memberOf_sorted g h).mp hh).1 }

end

variable {db : Pdb} {r : PdbProfile}

theorem ProfileOK.stored (ok : ProfileOK rank x p) (hp : db.profiles x = some p) :
    db.profiles p.id = some p := by
  rwa [ok.id]

theorem AllOK.put (ok : AllOK rank db) (hr : ProfileOK rank x r) : AllOK rank (db.put r) := by
  intro y q hq
  obtain rfl := hr.id
  rw [put_profiles] at hq
  by_cases hy : y = r.id
  · subst hy
    rw [update_self] at hq
    cases hq
    exact hr
  · rw [update_of_ne hy] at hq
    exact ok y q hq

theorem put_stored (hp : db.profiles p.id = some p) : (db.put p).profiles = db.profiles := by
  rw [put_profiles, ← hp, update_eq_self]

/-- Only the profile that is written changes its cps. -/
theorem cpsOf_put_of_ne {g : Int} (hg : g ≠ r.id) : cpsOf (db.put r) g = cpsOf db g :=
  cpsOf_congr (by rw [put_profiles, update_of_ne hg])

section

variable (hp : db.profiles r.id = some p) (hcps : r.cps = p.cps)
include hp hcps

theorem cpsOf_put_same (g : Int) : cpsOf (db.put r) g = cpsOf db g := by
  by_cases hg : g = r.id
  · subst hg
    rw [cpsOf, cpsOf, put_profiles, update_self, hp]
    exact hcps
  · exact cpsOf_put_of_ne hg

/-- Other profiles stay good when a profile is written with its old cps. -/
theorem Good.put_other (hx : x ≠ r.id) (good : Good db x) : Good (db.put r) x :=
  good.congr (by rw [put_profiles, update_of_ne hx]) fun _ _ g _ => cpsOf_put_same hp hcps g

/-- And so does the profile itself when its parents are the same. -/
theorem Good.put_edit (hmem : r.memberOf = p.memberOf) (good : Good db x) : Good (db.put r) x := by
  by_cases hx : x = r.id
  · subst hx
    intro q hq y
    rw [put_profiles, update_self] at hq
    cases hq
    simp only [cpsOf_put_same hp hcps, hcps, hmem]
    exact good p hp y
  · exact good.put_other hp hcps hx

end

/-- A new profile, whose id is nobody's parent, spoils nothing. -/
theorem Good.put_new (hx : x ≠ r.id) (hnone : ¬ db.graph.memberOf x r.id) (good : Good db x) :
    Good (db.put r) x := by
  refine good.congr (by rw [put_profiles, update_of_ne hx]) fun q hq g hg => ?_
  refine cpsOf_put_of_ne ?_
  rintro rfl
  exact hnone ⟨q, hq, hg⟩

end Edits

/-! ### Loops over an id list -/

section Loops

variable {rank : Int → Nat} {fuel : Nat} {f : PdbProfile → PdbProfile} {ids : List Int}

variable {db db' : Pdb}

theorem editAll_spec (hf : ∀ p, (f p).id = p.id) (nodup : ids.Nodup)
    (hid : ∀ x p, db.profiles x = some p → p.id = x) (run : editAll f ids db = some db') :
    (∀ x ∈ ids, db.graph.dom x) ∧ (Bounded db → Bounded db') ∧
      ∀ x, db'.profiles x = if x ∈ ids then (db.profiles x).map f else db.profiles x := by
  induction ids generalizing db with
  | nil =>
    cases run
    exact ⟨nofun, id, fun x => (if_neg not_mem_nil).symm⟩
  | cons c ids ih =>
    rw [nodup_cons] at nodup
    obtain ⟨db₁, run₁, run₂⟩ := bind_eq_some_iff.mp run
    obtain ⟨p, hp, run₁⟩ := bind_eq_some_iff.mp run₁
    have wrote := pdbWriteProfile_wrote run₁
    have hcid : (f p).id = c := (hf p).trans (hid c p hp)
    have hprof : ∀ x, db₁.profiles x = if x = c then some (f p) else db.profiles x := by
      intro x
      rw [wrote.profiles, put_profiles, hcid, update_apply]
    have hid₁ : ∀ x q, db₁.profiles x = some q → q.id = x := by
      intro x q hq
      rw [hprof] at hq
      split_ifs at hq with hx
      · cases hq
        exact hcid.trans hx.symm
      · exact hid x q hq
    obtain ⟨hdom, hbounded, hfinal⟩ := ih nodup.2 hid₁ run₂
    refine ⟨forall_mem_cons.mpr ⟨⟨p, hp⟩, fun x hx => ?_⟩,
      fun b => hbounded (wrote.bounded b), fun x => ?_⟩
    · obtain ⟨q, hq⟩ := hdom x hx
      have hne : x ≠ c := fun h => nodup.1 (h ▸ hx)
      rw [hprof, if_neg hne] at hq
      exact ⟨q, hq⟩
    · rw [hfinal, hprof]
      by_cases hx : x = c
      · subst hx
        rw [if_neg nodup.1, if_pos rfl, if_pos (.head _), show db.profiles x = some p from hp]
        rfl
      · simp only [hx, if_false, mem_cons, false_or]

/-- A loop of writes that change the lists of profiles only. -/
theorem editAll_good (hcps : ∀ p, (f p).cps = p.cps) (hmem : ∀ p, (f p).memberOf = p.memberOf)
    (hfinal : ∀ x, db'.profiles x = if x ∈ ids then (db.profiles x).map f else db.profiles x)
    {x : Int} (good : Good db x) : Good db' x := by
  have read : ∀ y q, db'.profiles y = some q →
      ∃ p, db.profiles y = some p ∧ q.cps = p.cps ∧ q.memberOf = p.memberOf := by
    intro y q hq
    rw [hfinal] at hq
    split_ifs at hq with hy
    · obtain ⟨p, hp, rfl⟩ := map_eq_some_iff.mp hq
      exact ⟨p, hp, hcps p, hmem p⟩
    · exact ⟨q, hq, rfl, rfl⟩
  have same : ∀ y, cpsOf db' y = cpsOf db y := by
    intro y
    unfold cpsOf
    rw [hfinal]
    split_ifs with hy
    · cases db.profiles y with
      | none => rfl
      | some p => exact hcps p
    · rfl
  intro q hq y
  obtain ⟨p, hp, hc, hm⟩ := read x q hq
  simp only [hc, hm, same]
  exact good p hp y

/-- A loop of `PDB_updateCps` calls on profiles whose parents or owners are changed by `f`. -/
structure UpdatedAll (rank : Int → Nat) (f : PdbProfile → PdbProfile) (ids : List Int)
    (db db' : Pdb) : Prop where
  ok : AllOK rank db'
  bounded : Bounded db'
  dom : ∀ x ∈ ids, db.graph.dom x
  shape : ∀ x, (db'.profiles x).map PdbProfile.shape =
    if x ∈ ids then (db.profiles x).map fun p => (f p).shape
    else (db.profiles x).map PdbProfile.shape
  done : ∀ x ∈ ids, Good db' x
  keep : ∀ x, x ∉ ids → Good db x → Good db' x

/-- The profiles of `ids` may be changed by `f`. -/
structure Changeable (rank : Int → Nat) (f : PdbProfile → PdbProfile) (ids : List Int)
    (db : Pdb) : Prop where
  ok : ∀ x ∈ ids, ∀ p, db.profiles x = some p → ProfileOK rank x (f p)
  known : ∀ x ∈ ids, ∀ p, db.profiles x = some p → ∀ g ∈ (f p).memberOf, ∀ q,
    db.profiles g = some q → x ∈ q.groupsOrMembers

theorem updateAll_spec (hid : ∀ p, (f p).id = p.id) (hcps : ∀ p, (f p).cps = p.cps)
    (hgom : ∀ p, (f p).groupsOrMembers = p.groupsOrMembers)
    (hshape : ∀ p p', p'.shape = p.shape → (f p').shape = (f p).shape) (nodup : ids.Nodup)
    (ok : AllOK rank db) (bounded : Bounded db) (known : ∀ x, Known db x)
    (change : Changeable rank f ids db) (run : updateAll fuel f ids db = some db') :
    UpdatedAll rank f ids db db' := by
  induction ids generalizing db with
  | nil =>
    cases run
    exact ⟨ok, bounded, nofun,
      fun x => (if_neg not_mem_nil).symm, nofun,
      fun x _ good => good⟩
  | cons c ids ih =>
    rw [nodup_cons] at nodup
    obtain ⟨db₁, run₁, run₂⟩ := bind_eq_some_iff.mp run
    obtain ⟨p, hp, run₁⟩ := bind_eq_some_iff.mp run₁
    have hcid : (f p).id = c := (hid p).trans (ok c p hp).id
    have hfp : ProfileOK rank c (f p) := change.ok c (.head _) p hp
    have hput : ∀ x, (db.put (f p)).profiles x = if x = c then some (f p) else db.profiles x := by
      intro x
      rw [put_profiles, hcid, update_apply]
    have hlist : ∀ g q, (db.put (f p)).profiles g = some q →
        ∃ q', db.profiles g = some q' ∧ q.groupsOrMembers = q'.groupsOrMembers := by
      intro g q hq
      rw [hput] at hq
      split_ifs at hq with hg
      · cases hq
        exact ⟨p, hg ▸ hp, hgom p⟩
      · exact ⟨q, hq, rfl⟩
    have updated := pdbUpdateCps_spec fuel db db₁ (f p) (ok.put hfp) bounded run₁
    have known' : ∀ x, Known (db.put (f p)) x := by
      intro x px hpx g hg q hq
      obtain ⟨q', hq', heq⟩ := hlist g q hq
      rw [heq]
      rw [hput] at hpx
      split_ifs at hpx with hx
      · cases hpx
        rw [hx]
        exact change.known c (.head _) p hp g hg q' hq'
      · exact known x px hpx g hg q' hq'
    -- the profiles still to be changed have kept their shape
    have later : ∀ x ∈ ids, ∀ p₁, db₁.profiles x = some p₁ →
        ∃ p₀, db.profiles x = some p₀ ∧ p₁.shape = p₀.shape := by
      intro x hx p₁ hp₁
      obtain ⟨p₀, hp₀, heq⟩ := updated.shape.of_some hp₁
      have hne : x ≠ c := fun h => nodup.1 (h ▸ hx)
      rw [hput, if_neg hne] at hp₀
      exact ⟨p₀, hp₀, heq⟩
    have change₁ : Changeable rank f ids db₁ := by
      refine ⟨fun x hx p₁ hp₁ => ?_, fun x hx p₁ hp₁ g hg q hq => ?_⟩
      · obtain ⟨p₀, hp₀, heq⟩ := later x hx p₁ hp₁
        refine (change.ok x (.tail _ hx) p₀ hp₀).of_shape (hshape _ _ heq) ?_
        rw [hcps]
        exact (updated.ok x p₁ hp₁).cps_sorted
      · obtain ⟨p₀, hp₀, heq⟩ := later x hx p₁ hp₁
        obtain ⟨q₀, hq₀, heq'⟩ := updated.shape.of_some hq
        obtain ⟨q', hq', hgoms⟩ := hlist g q₀ hq₀
        rw [(shape_fields heq').2.2.2, hgoms]
        rw [(shape_fields (hshape _ _ heq)).2.2.1] at hg
        exact change.known x (.tail _ hx) p₀ hp₀ g hg q' hq'
    have rest := ih nodup.2 updated.ok updated.bounded
      (fun x => (known' x).congr updated.shape) change₁ run₂
    refine ⟨rest.ok, rest.bounded, ?_, fun x => ?_, ?_, fun x hx good => ?_⟩
    · refine forall_mem_cons.mpr ⟨⟨p, hp⟩, fun x hx => ?_⟩
      obtain ⟨q, hq⟩ := rest.dom x hx
      obtain ⟨p₀, hp₀, -⟩ := later x hx q hq
      exact ⟨p₀, hp₀⟩
    · rw [rest.shape]
      by_cases hx : x = c
      · subst hx
        rw [if_neg nodup.1, if_pos (.head _), updated.shape, hput, if_pos rfl,
          show db.profiles x = some p from hp]
        rfl
      · have hsame := updated.shape x
        rw [hput, if_neg hx] at hsame
        simp only [mem_cons, hx, false_or]
        split_ifs with hmem
        · cases h₁ : db₁.profiles x with
          | none =>
            rw [h₁] at hsame
            rw [map_eq_none_iff.mp hsame.symm]
          | some p₁ =>
            obtain ⟨p₀, hp₀, heq⟩ := later x hmem p₁ h₁
            rw [hp₀]
            exact congrArg some (hshape _ _ heq)
        · exact hsame
    · refine forall_mem_cons.mpr ⟨?_, rest.done⟩
      exact rest.keep c nodup.1 (hcid ▸ updated.own)
    · rw [mem_cons, not_or] at hx
      refine rest.keep x hx.2 (updated.keep x (known' x) ?_)
      exact good.put_other (hcid.symm ▸ hp) (hcps p) (by rw [hcid]; exact hx.1)

end Loops

end Coda.Al
