import Coda.Al.Pdb
import Coda.Lib.Closure

/-!
`PDB_updateCps` on a database whose profiles may be half updated.

`Good db x` says that the cps of `x` is right as far as the cps of its parents are:
itself and all they hold. The call makes its own profile good and spoils no other one: the
rank that every membership edge decreases keeps the walk over the members from coming back to
a profile it has finished.
-/

namespace Coda.Al

open Coda.Lib Function

/-! ### Profiles and what they refer to -/

/-- A stored profile under key `x`: its arrays are sorted, its parents are groups of lower
rank and, for a group, its members have higher rank. Only groups have owners. -/
structure ProfileOK (rank : Int → Nat) (x : Int) (p : PdbProfile) : Prop where
  id : p.id = x
  nonzero : x ≠ 0
  memberOf_sorted : p.memberOf.Sorted
  cps_sorted : p.cps.Sorted
  members_sorted : p.groupsOrMembers.Sorted
  parent : ∀ g ∈ p.memberOf, g < 0 ∧ rank g < rank x
  member : ∀ c ∈ p.groupsOrMembers, c ≠ 0 ∧ (x < 0 → rank x < rank c)
  user : 0 < x → p.ownerId = 0
  owner : x < 0 → 0 < p.ownerId

def AllOK (rank : Int → Nat) (db : Pdb) : Prop :=
  ∀ x p, db.profiles x = some p → ProfileOK rank x p

/-- No id in use is outside the recorded range. -/
structure Bounded (db : Pdb) : Prop where
  uid : 0 ≤ (pdbDbMaxids db).1
  gid : (pdbDbMaxids db).2 ≤ 0
  range : ∀ x p, db.profiles x = some p → (pdbDbMaxids db).2 ≤ x ∧ x ≤ (pdbDbMaxids db).1

/-- The database with the profile written, leaving names and id range alone. -/
def Pdb.put (db : Pdb) (r : PdbProfile) : Pdb :=
  { db with profiles := Function.update db.profiles r.id (some r) }

/-- The cps of `g`, empty when there is no profile. -/
def cpsOf (db : Pdb) (g : Int) : PdbArray :=
  match db.profiles g with
  | some q => q.cps
  | none => []

/-- The cps of `x` holds `x` and what the cps of its parents hold. -/
def Good (db : Pdb) (x : Int) : Prop :=
  ∀ p, db.profiles x = some p → ∀ y, y ∈ p.cps ↔ y = x ∨ ∃ g ∈ p.memberOf, y ∈ cpsOf db g

/-- `x` is listed by all its parents. -/
def Known (db : Pdb) (x : Int) : Prop :=
  ∀ p, db.profiles x = some p → ∀ g ∈ p.memberOf, ∀ q, db.profiles g = some q →
    x ∈ q.groupsOrMembers

/-- A profile without its cps. -/
def PdbProfile.shape (p : PdbProfile) : PdbProfile := { p with cps := [] }

/-- The databases differ in cps only. -/
def SameShape (db db' : Pdb) : Prop :=
  ∀ x, (db'.profiles x).map PdbProfile.shape = (db.profiles x).map PdbProfile.shape

section Shape

variable {db db' : Pdb} {rank : Int → Nat} {x : Int}

theorem SameShape.symm (h : SameShape db db') : SameShape db' db := fun x => (h x).symm

theorem SameShape.trans {db'' : Pdb} (h : SameShape db db') (h' : SameShape db' db'') :
    SameShape db db'' := fun x => (h' x).trans (h x)

theorem SameShape.of_some (h : SameShape db db') {p' : PdbProfile} (hp : db'.profiles x = some p') :
    ∃ p, db.profiles x = some p ∧ p'.shape = p.shape := by
  have hx := h x
  rw [hp] at hx
  obtain ⟨p, hp, heq⟩ := Option.map_eq_some_iff.mp hx.symm
  exact ⟨p, hp, heq.symm⟩

theorem shape_fields {p p' : PdbProfile} (h : p'.shape = p.shape) :
    p'.id = p.id ∧ p'.ownerId = p.ownerId ∧ p'.memberOf = p.memberOf ∧
      p'.groupsOrMembers = p.groupsOrMembers := by
  cases p
  simp only [PdbProfile.shape, PdbProfile.mk.injEq, true_and] at h
  exact ⟨h.1, h.2.2.1, h.2.2.2.2.1, h.2.2.2.2.2⟩

theorem ProfileOK.of_shape {p p' : PdbProfile} (ok : ProfileOK rank x p) (h : p'.shape = p.shape)
    (sorted : p'.cps.Sorted) : ProfileOK rank x p' := by
  obtain ⟨hid, hown, hmem, hgom⟩ := shape_fields h
  refine ⟨hid.trans ok.id, ok.nonzero, ?_, sorted, ?_, ?_, ?_, ?_, ?_⟩
  · exact hmem ▸ ok.memberOf_sorted
  · exact hgom ▸ ok.members_sorted
  · exact hmem ▸ ok.parent
  · exact hgom ▸ ok.member
  · exact hown ▸ ok.user
  · exact hown ▸ ok.owner

theorem Known.congr (h : SameShape db db') (known : Known db x) : Known db' x := by
  intro p' hp' g hg q' hq'
  obtain ⟨p, hp, hshape⟩ := h.of_some hp'
  obtain ⟨q, hq, hshape'⟩ := h.of_some hq'
  rw [(shape_fields hshape).2.2.1] at hg
  rw [(shape_fields hshape').2.2.2]
  exact known p hp g hg q hq

theorem cpsOf_congr (h : db'.profiles x = db.profiles x) : cpsOf db' x = cpsOf db x := by
  rw [cpsOf, cpsOf, h]

/-- Goodness is read from the profile and the cps of the parents. -/
theorem Good.congr (h : db'.profiles x = db.profiles x)
    (parents : ∀ p, db.profiles x = some p → ∀ g ∈ p.memberOf, cpsOf db' g = cpsOf db g)
    (good : Good db x) : Good db' x := by
  intro p hp y
  rw [h] at hp
  rw [good p hp y]
  refine or_congr_right (exists_congr fun g => and_congr_right fun hg => ?_)
  rw [parents p hp g hg]

@[simp] theorem put_profiles (db : Pdb) (r : PdbProfile) :
    (db.put r).profiles = update db.profiles r.id (some r) := rfl

end Shape

/-! ### Writing a profile -/

section Write

variable {db db' : Pdb} {r : PdbProfile}

/-- What a write leaves. -/
structure Wrote (db db' : Pdb) (r : PdbProfile) : Prop where
  profiles : db'.profiles = (db.put r).profiles
  nonzero : r.id ≠ 0
  bounded : Bounded db → Bounded db'

theorem pdbDbUpdateMaxids_eq {uid gid : Int} (h : pdbDbUpdateMaxids db uid gid = some db') :
    db'.profiles = db.profiles ∧ 0 ≤ uid ∧ gid ≤ 0 ∧
      (pdbDbMaxids db').1 = max uid (pdbDbMaxids db).1 ∧
      (pdbDbMaxids db').2 = min gid (pdbDbMaxids db).2 := by
  obtain ⟨hargs, h⟩ := Option.ite_none_left_eq_some.mp h
  obtain ⟨-, h⟩ := Option.ite_none_left_eq_some.mp h
  cases h
  refine ⟨rfl, (not_not.mp hargs).1, (not_not.mp hargs).2, ?_, ?_⟩
  · change (if uid > _ then uid else _) = _
    split_ifs <;> omega
  · change (if gid < _ then gid else _) = _
    split_ifs <;> omega

/-- A range that covers all old ids and the new one. -/
theorem Bounded.extend (b : Bounded db)
    (profiles : ∀ x p, db'.profiles x = some p → (∃ q, db.profiles x = some q) ∨
      ((pdbDbMaxids db').2 ≤ x ∧ x ≤ (pdbDbMaxids db').1))
    (uid : (pdbDbMaxids db).1 ≤ (pdbDbMaxids db').1)
    (gid : (pdbDbMaxids db').2 ≤ (pdbDbMaxids db).2) : Bounded db' := by
  have hu := b.uid
  have hg := b.gid
  refine ⟨by omega, by omega, fun x p hp => ?_⟩
  rcases profiles x p hp with ⟨q, hq⟩ | hx
  · have := b.range x q hq
    omega
  · exact hx

theorem pdbDbUpdateMaxids_bounded {uid gid : Int} (b : Bounded db)
    (h : pdbDbUpdateMaxids db uid gid = some db') : Bounded db' := by
  obtain ⟨hprof, -, -, hu, hg⟩ := pdbDbUpdateMaxids_eq h
  refine b.extend (fun x p hp => .inl ⟨p, hprof ▸ hp⟩) ?_ ?_ <;> omega

theorem pdbWriteProfile_wrote (h : pdbWriteProfile db r = some db') : Wrote db db' r := by
  unfold pdbWriteProfile at h
  split_ifs at h with hzero hpos
  all_goals
    obtain ⟨hprof, -, -, hu, hg⟩ := pdbDbUpdateMaxids_eq h
    change _ = max _ (pdbDbMaxids db).1 at hu
    change _ = min _ (pdbDbMaxids db).2 at hg
    refine ⟨hprof, hzero, fun b => b.extend (fun x p hp => ?_) (by omega) (by omega)⟩
    rw [hprof] at hp
    change update db.profiles r.id (some r) x = some p at hp
    by_cases hx : x = r.id
    · exact .inr (by omega)
    · rw [update_of_ne hx] at hp
      exact .inl ⟨p, hp⟩

/-- An id of the right sign is taken into the range. -/
theorem exists_updateMaxids {uid gid : Int} (huid : 0 ≤ uid) (hgid : gid ≤ 0)
    (range : (pdbDbMaxids db).1 ≥ 0 ∨ (pdbDbMaxids db).2 ≤ 0) :
    ∃ db', pdbDbUpdateMaxids db uid gid = some db' := by
  unfold pdbDbUpdateMaxids
  rw [if_neg (not_not_intro ⟨huid, hgid⟩), if_neg (not_not_intro range)]
  exact ⟨_, rfl⟩

theorem exists_writeProfile (hr : r.id ≠ 0)
    (range : (pdbDbMaxids db).1 ≥ 0 ∨ (pdbDbMaxids db).2 ≤ 0) :
    ∃ db', pdbWriteProfile db r = some db' := by
  unfold pdbWriteProfile
  rw [if_neg hr]
  split_ifs with hpos
  · exact exists_updateMaxids (Int.le_of_lt hpos) (Int.le_refl 0) range
  · exact exists_updateMaxids (Int.le_refl 0) (Int.not_lt.mp hpos) range

end Write

/-! ### The ids of the parents -/

section Parents

variable {db : Pdb} {rank : Int → Nat}

theorem parentsCps_eq (db : Pdb) (r : PdbProfile) :
    parentsCps db r =
      (pdbArrayIds r.memberOf).foldl (fun cps g => pdbArrayMerge cps (cpsOf db g)) [] := by
  unfold parentsCps
  congr 1
  funext cps g
  unfold pdbReadProfile cpsOf
  cases db.profiles g with
  | none => exact (pdbArrayMerge.eq_1 cps).symm
  | some p => rfl

theorem mem_foldl_merge (f : Int → PdbArray) (l : List Int) (d : PdbArray) (y : Int) :
    y ∈ l.foldl (fun cps g => pdbArrayMerge cps (f g)) d ↔ y ∈ d ∨ ∃ g ∈ l, y ∈ f g := by
  induction l generalizing d with
  | nil => simp
  | cons g l ih =>
    rw [List.foldl_cons, ih, mem_pdbArrayMerge, List.exists_mem_cons_iff, or_assoc]

theorem sorted_foldl_merge {f : Int → PdbArray} {l : List Int} (hf : ∀ g ∈ l, (f g).Sorted)
    {d : PdbArray} (hd : d.Sorted) :
    (l.foldl (fun cps g => pdbArrayMerge cps (f g)) d).Sorted := by
  induction l generalizing d with
  | nil => exact hd
  | cons g l ih =>
    obtain ⟨hg, hl⟩ := List.forall_mem_cons.mp hf
    exact ih hl (sorted_pdbArrayMerge hd hg)

theorem ProfileOK.ids_memberOf {x : Int} {p : PdbProfile} (ok : ProfileOK rank x p) :
    pdbArrayIds p.memberOf = p.memberOf := by
  refine pdbArrayIds_eq fun h => ?_
  have := (ok.parent 0 h).1
  omega

theorem ProfileOK.ids_members {x : Int} {p : PdbProfile} (ok : ProfileOK rank x p) :
    pdbArrayIds p.groupsOrMembers = p.groupsOrMembers :=
  pdbArrayIds_eq fun h => (ok.member 0 h).1 rfl

theorem AllOK.cpsOf_sorted (ok : AllOK rank db) (g : Int) : (cpsOf db g).Sorted := by
  unfold cpsOf
  cases h : db.profiles g with
  | none => exact List.Pairwise.nil
  | some q => exact (ok g q h).cps_sorted

/-- The cps that `PDB_updateCps` writes for `r`, in a database where `r` may be stale. -/
theorem cps_spec {r : PdbProfile} (ok : AllOK rank (db.put r)) :
    (pdbArrayAdd (parentsCps db r) r.id).Sorted ∧
      ∀ y, y ∈ pdbArrayAdd (parentsCps db r) r.id ↔
        y = r.id ∨ ∃ g ∈ r.memberOf, y ∈ cpsOf db g := by
  have hr := ok r.id r (by simp)
  rw [parentsCps_eq, hr.ids_memberOf]
  constructor
  · refine sorted_pdbArrayAdd (sorted_foldl_merge (fun g hg => ?_) List.Pairwise.nil) _
    have hne : g ≠ r.id := by
      rintro rfl
      exact lt_irrefl _ (hr.parent _ hg).2
    have := ok.cpsOf_sorted g
    rwa [cpsOf_congr (show (db.put r).profiles g = db.profiles g by simp [hne])] at this
  · intro y
    rw [mem_pdbArrayAdd, mem_foldl_merge]
    simp

end Parents

/-! ### The recursion -/

section Update

variable {db db' : Pdb} {rank : Int → Nat} {r : PdbProfile}

/-- A profile that is stored already. -/
theorem AllOK.put_eq {c : Int} (ok : AllOK rank db) (hread : db.profiles c = some r) :
    r.id = c ∧ db.put r = db := by
  have hid : r.id = c := (ok c r hread).id
  refine ⟨hid, ?_⟩
  unfold Pdb.put
  rw [hid, ← hread, update_eq_self]

/-- What `PDB_updateCps` on `r` leaves of a database that holds `r`. -/
structure Updated (rank : Int → Nat) (db db' : Pdb) (r : PdbProfile) : Prop where
  ok : AllOK rank db'
  bounded : Bounded db'
  shape : SameShape db db'
  frame : ∀ x, rank x ≤ rank r.id → x ≠ r.id → db'.profiles x = db.profiles x
  own : Good db' r.id
  keep : ∀ x, Known db x → Good db x → Good db' x

/-- The profile itself, before the walk over the members. -/
theorem wrote_cps (ok : AllOK rank (db.put r))
    (wrote : Wrote db db' { r with cps := pdbArrayAdd (parentsCps db r) r.id }) :
    AllOK rank db' ∧ SameShape (db.put r) db' ∧ Good db' r.id ∧
      (∀ x, x ≠ r.id → db'.profiles x = (db.put r).profiles x) ∧
      ∀ x, x ≠ r.id → (∀ p, db'.profiles x = some p → r.id ∉ p.memberOf) →
        Good (db.put r) x → Good db' x := by
  have hr := ok r.id r (by simp)
  obtain ⟨sorted, hmem⟩ := cps_spec ok
  have hself : db'.profiles r.id = some { r with cps := pdbArrayAdd (parentsCps db r) r.id } := by
    rw [wrote.profiles]
    simp
  have hother : ∀ x, x ≠ r.id → db'.profiles x = (db.put r).profiles x := by
    intro x hx
    rw [wrote.profiles]
    simp [hx]
  refine ⟨fun x p hp => ?_, fun x => ?_, fun p hp y => ?_, hother, fun x hx hno => ?_⟩
  · by_cases hx : x = r.id
    · subst hx
      obtain rfl := Option.some.inj (hself.symm.trans hp)
      exact hr.of_shape rfl sorted
    · exact ok x p ((hother x hx).symm.trans hp)
  · by_cases hx : x = r.id
    · subst hx
      rw [hself]
      simp [PdbProfile.shape]
    · rw [hother x hx]
  · obtain rfl := Option.some.inj (hself.symm.trans hp)
    rw [hmem y]
    refine or_congr_right (exists_congr fun g => and_congr_right fun hg => ?_)
    have hne : g ≠ r.id := by
      rintro rfl
      exact lt_irrefl _ (hr.parent _ hg).2
    rw [cpsOf_congr (show db'.profiles g = db.profiles g by rw [hother g hne]; simp [hne])]
  · refine Good.congr (hother x hx) fun p hp g hg => cpsOf_congr (hother g ?_)
    rintro rfl
    exact hno p ((hother x hx).trans hp) hg

/-- The walk over the members, given what one call does. -/
theorem members_spec {fuel : Nat}
    (call : ∀ (db db' : Pdb) (c : PdbProfile), AllOK rank (db.put c) → Bounded db →
      pdbUpdateCps fuel db c = some db' → Updated rank (db.put c) db' c)
    (low : Nat) (l : List Int) (db db' : Pdb) (ok : AllOK rank db) (bounded : Bounded db)
    (above : ∀ c ∈ l, low < rank c)
    (run : l.foldlM (fun db id =>
      match pdbReadProfile db id with
      | some c => pdbUpdateCps fuel db c
      | none => some db) db = some db') :
    AllOK rank db' ∧ Bounded db' ∧ SameShape db db' ∧
      (∀ x, rank x ≤ low → db'.profiles x = db.profiles x) ∧
      (∀ c ∈ l, Known db c → Good db' c) ∧ ∀ x, Known db x → Good db x → Good db' x := by
  induction l generalizing db with
  | nil =>
    cases run
    exact ⟨ok, bounded, fun _ => rfl, fun _ _ => rfl, nofun,
      fun x _ h => h⟩
  | cons c l ih =>
    obtain ⟨hc, hl⟩ := List.forall_mem_cons.mp above
    obtain ⟨db₁, run₁, run₂⟩ := Option.bind_eq_some_iff.mp run
    -- one member: its profile is as stored, so putting it changes nothing
    have step : AllOK rank db₁ ∧ Bounded db₁ ∧ SameShape db db₁ ∧
        (∀ x, rank x ≤ low → db₁.profiles x = db.profiles x) ∧ Good db₁ c ∧
        ∀ x, Known db x → Good db x → Good db₁ x := by
      cases hread : db.profiles c with
      | none =>
        simp only [pdbReadProfile, hread] at run₁
        cases run₁
        refine ⟨ok, bounded, fun _ => rfl, fun _ _ => rfl, fun p hp => ?_, fun x _ h => h⟩
        rw [hread] at hp
        cases hp
      | some q =>
        simp only [pdbReadProfile, hread] at run₁
        obtain ⟨hid, hput⟩ := ok.put_eq hread
        have updated := call db db₁ q (hput.symm ▸ ok) bounded run₁
        rw [hput] at updated
        have own := updated.own
        rw [hid] at own
        refine ⟨updated.ok, updated.bounded, updated.shape, fun x hx => ?_, own, updated.keep⟩
        refine updated.frame x (by rw [hid]; omega) ?_
        rintro rfl
        rw [hid] at hx
        omega
    obtain ⟨ok₁, bounded₁, shape₁, frame₁, own₁, keep₁⟩ := step
    obtain ⟨ok₂, bounded₂, shape₂, frame₂, done₂, keep₂⟩ := ih db₁ ok₁ bounded₁ hl run₂
    refine ⟨ok₂, bounded₂, shape₁.trans shape₂, fun x hx => (frame₂ x hx).trans (frame₁ x hx), ?_,
      fun x known good => keep₂ x (known.congr shape₁) (keep₁ x known good)⟩
    intro x hx known
    rcases List.mem_cons.mp hx with rfl | hx
    · exact keep₂ x (known.congr shape₁) own₁
    · exact done₂ x hx (known.congr shape₁)

/-- `PDB_updateCps` makes its profile good and spoils no other. -/
theorem pdbUpdateCps_spec (fuel : Nat) (db db' : Pdb) (r : PdbProfile) (ok : AllOK rank (db.put r))
    (bounded : Bounded db) (run : pdbUpdateCps fuel db r = some db') :
    Updated rank (db.put r) db' r := by
  induction fuel generalizing db db' r with
  | zero => cases run
  | succ fuel ih =>
    obtain ⟨db₁, run₁, run₂⟩ := Option.bind_eq_some_iff.mp run
    have wrote := pdbWriteProfile_wrote run₁
    have hr := ok r.id r (by simp)
    obtain ⟨ok₁, shape₁, own₁, frame₁, keep₁⟩ := wrote_cps ok wrote
    have bounded₁ := wrote.bounded bounded
    by_cases hgroup : pdbIsGroup r.id
    · -- a group: its members follow
      rw [if_neg (not_not.mpr hgroup), hr.ids_members] at run₂
      have hneg : r.id < 0 := of_decide_eq_true hgroup
      obtain ⟨ok₂, bounded₂, shape₂, frame₂, done₂, keep₂⟩ :=
        members_spec (fun db db' c => ih db db' c) (rank r.id) r.groupsOrMembers db₁ db' ok₁ bounded₁
          (fun c hc => (hr.member c hc).2 hneg) run₂
      have own₂ : Good db' r.id := by
        refine own₁.congr (frame₂ _ le_rfl) fun p hp g hg => cpsOf_congr (frame₂ g ?_)
        exact le_of_lt ((ok₁ r.id p hp).parent g hg).2
      refine ⟨ok₂, bounded₂, shape₁.trans shape₂,
        fun x hx hne => (frame₂ x hx).trans (frame₁ x hne), own₂, fun x known good => ?_⟩
      by_cases hx : x = r.id
      · exact hx ▸ own₂
      by_cases hparent : ∃ p, db₁.profiles x = some p ∧ r.id ∈ p.memberOf
      · -- a member of the group is listed, so it was updated
        obtain ⟨p, hp, hmem⟩ := hparent
        refine done₂ x ?_ (known.congr shape₁)
        exact known p ((frame₁ x hx).symm.trans hp) r.id hmem r (by simp)
      · refine keep₂ x (known.congr shape₁) (keep₁ x hx (fun p hp hmem => ?_) good)
        exact hparent ⟨p, hp, hmem⟩
    · rw [if_pos hgroup] at run₂
      cases run₂
      refine ⟨ok₁, bounded₁, shape₁, fun x _ hne => frame₁ x hne, own₁, fun x known good => ?_⟩
      by_cases hx : x = r.id
      · exact hx ▸ own₁
      · -- a user is nobody's parent
        refine keep₁ x hx (fun p hp hmem => hgroup ?_) good
        exact decide_eq_true ((ok₁ x p hp).parent _ hmem).1

end Update

end Coda.Al
