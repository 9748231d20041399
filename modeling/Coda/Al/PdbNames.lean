import Coda.Al.Cps
import Coda.Lib.Run

/-!
The index of names of the protection database (`coda-src/al/pdb.c`, `pdbdb.c`).

Every write of a profile also enters its name in the index, so a profile is found under its own name
as long as no two profiles have the same one. `PDB_createUser` and `PDB_createGroup` refuse a name
that is in use; `PDB_changeName` does not.
-/

namespace Coda.Al

open Coda.Lib Option Function

/-- `PDB_db_delete_xfer`. -/
def pdbDbDeleteXfer (db : Pdb) (name : CString) : Pdb :=
  { db with names := Function.update db.names name none }

/-- The loop of `PDB_changeName` over the ids a user owns. The profile of an id that does not exist
is that of no group. -/
def changeOwnerName (name : CString) (ids : List Int) (db : Pdb) : Option Pdb :=
  ids.foldlM (fun db nextid =>
    match pdbReadProfile db nextid with
    | some p =>
      if pdbIsGroup p.id then pdbWriteProfile db { p with ownerName := name } else some db
    | none => some db) db

/-- `PDB_changeName`. -/
def pdbChangeName (db : Pdb) (id : Int) (name : CString) : Option Pdb := do
  let r ← pdbReadProfile db id
  let db := pdbDbDeleteXfer db r.name
  let r := { r with name }
  let db ← pdbWriteProfile db r
  if pdbIsUser id then changeOwnerName name (pdbArrayIds r.groupsOrMembers) db else some db

/-- `PDB_lookupByName`, 0 when there is no such profile. -/
def pdbLookupByName (db : Pdb) (name : CString) : Int :=
  match (db.names name).bind (pdbReadProfile db) with
  | some r => r.id
  | none => 0

/-- The calls that deal with names. -/
inductive NameOp where
  | changeName (id : Int) (name : CString)
  | createUser (name : CString)
  | createGroup (name : CString) (owner : Int)
  | deleteUser (id : Int)

def NameOp.run (db : Pdb) : NameOp → Option Pdb
  | .changeName id name => pdbChangeName db id name
  | .createUser name => (pdbCreateUser db name).map Prod.snd
  | .createGroup name owner => (pdbCreateGroup db name owner).map Prod.snd
  | .deleteUser id => pdbDeleteUser db id

/-- Every profile is found by its own name. -/
def Found (db : Pdb) : Prop :=
  ∀ x p, db.profiles x = some p → pdbLookupByName db p.name = p.id

/-- A profile is not given the name of another one. -/
def NameOp.Fresh (db : Pdb) : NameOp → Prop
  | .changeName id name =>
    (∃ r, db.profiles id = some r) → ∀ x p, db.profiles x = some p → x ≠ id → p.name ≠ name
  | _ => True

/-! ### Names and ids -/

/-- Profiles are stored under their ids, which are not 0, and writing does not run into the
assertion about the range of ids. -/
structure Keyed (db : Pdb) : Prop where
  id : ∀ x p, db.profiles x = some p → p.id = x
  nonzero : db.profiles 0 = none
  range : (pdbDbMaxids db).1 ≥ 0 ∨ (pdbDbMaxids db).2 ≤ 0

/-- The name of the profile with an id. -/
def nameOf (db : Pdb) (x : Int) : Option CString := (db.profiles x).map PdbProfile.name

/-- The index has every profile under its name. -/
def Indexed (db : Pdb) : Prop := ∀ x name, nameOf db x = some name → db.names name = some x

variable {db db' : Pdb} {r p : PdbProfile} {x y : Int} {name : CString}

theorem nameOf_read (h : db.profiles x = some p) : nameOf db x = some p.name := by
  rw [nameOf, h]
  rfl

theorem Keyed.ne_zero (keyed : Keyed db) (h : db.profiles x = some p) : x ≠ 0 := by
  rintro rfl
  rw [keyed.nonzero] at h
  cases h

theorem found_iff_indexed (keyed : Keyed db) : Found db ↔ Indexed db := by
  constructor
  · intro found x name hname
    obtain ⟨p, hp, rfl⟩ := map_eq_some_iff.mp hname
    have hlookup := found x p hp
    rw [keyed.id x p hp, pdbLookupByName] at hlookup
    split at hlookup
    · next r hr =>
      -- what the lookup returned is stored under its id, and that is `x`
      obtain ⟨y, hy, hr⟩ := bind_eq_some_iff.mp hr
      rw [hy, ← hlookup, keyed.id y r hr]
    · exact absurd hlookup.symm (keyed.ne_zero hp)
  · intro indexed x p hp
    rw [pdbLookupByName, indexed x p.name (nameOf_read hp), bind_some, pdbReadProfile, hp]

/-- Two profiles with one name cannot both be found. -/
theorem Indexed.eq_of_name (indexed : Indexed db) (hx : nameOf db x = some name)
    (hy : nameOf db y = some name) : x = y :=
  Option.some.inj ((indexed x name hx).symm.trans (indexed y name hy))

/-! ### Writing -/

/-- What a write does to names and ids. -/
structure Named (db db' : Pdb) (r : PdbProfile) : Prop where
  names : db'.names = Function.update db.names r.name (some r.id)
  stored : nameOf db' = Function.update (nameOf db) r.id (some r.name)
  keyed : Keyed db → Keyed db'

theorem pdbDbUpdateMaxids_range {uid gid : Int} (h : pdbDbUpdateMaxids db uid gid = some db') :
    db'.profiles = db.profiles ∧ db'.names = db.names ∧
      ((pdbDbMaxids db').1 ≥ 0 ∨ (pdbDbMaxids db').2 ≤ 0) := by
  obtain ⟨hprof, huid, hgid, hu, hg⟩ := pdbDbUpdateMaxids_eq h
  refine ⟨hprof, ?_, .inl (by omega)⟩
  obtain ⟨-, h⟩ := ite_none_left_eq_some.mp h
  obtain ⟨-, h⟩ := ite_none_left_eq_some.mp h
  cases h
  rfl

theorem pdbWriteProfile_named (h : pdbWriteProfile db r = some db') : Named db db' r := by
  have hprof := (pdbWriteProfile_wrote h).profiles
  have hid := (pdbWriteProfile_wrote h).nonzero
  unfold pdbWriteProfile at h
  have hrange : db'.names = update db.names r.name (some r.id) ∧
      ((pdbDbMaxids db').1 ≥ 0 ∨ (pdbDbMaxids db').2 ≤ 0) := by
    split_ifs at h
    · exact (pdbDbUpdateMaxids_range h).2
    · exact (pdbDbUpdateMaxids_range h).2
  refine ⟨hrange.1, ?_, fun keyed => ⟨fun x p hp => ?_, ?_, hrange.2⟩⟩
  · funext x
    rw [nameOf, hprof, put_profiles]
    by_cases hx : x = r.id
    · rw [hx, update_self, update_self]
      rfl
    · rw [update_of_ne hx, update_of_ne hx]
      rfl
  · rw [hprof, put_profiles] at hp
    by_cases hx : x = r.id
    · rw [hx, update_self] at hp
      cases hp
      exact hx.symm
    · rw [update_of_ne hx] at hp
      exact keyed.id x p hp
  · rw [hprof, put_profiles, update_of_ne hid.symm]
    exact keyed.nonzero

/-- A write of a profile under a name that no other profile has. -/
theorem Indexed.write (named : Named db db' r)
    (indexed : ∀ x name, x ≠ r.id → nameOf db x = some name → db.names name = some x)
    (fresh : ∀ x, x ≠ r.id → nameOf db x ≠ some r.name) : Indexed db' := by
  intro x name hname
  rw [named.stored] at hname
  rw [named.names]
  by_cases hx : x = r.id
  · rw [hx, update_self] at hname
    cases hname
    rw [update_self, hx]
  · rw [update_of_ne hx] at hname
    have hne : name ≠ r.name := by
      rintro rfl
      exact fresh x hx hname
    rw [update_of_ne hne]
    exact indexed x name hx hname

/-- A profile that is written again under its name. -/
theorem Named.stored_eq (named : Named db db' r) (hr : nameOf db r.id = some r.name) :
    nameOf db' = nameOf db := by
  rw [named.stored, ← hr, update_eq_self]

theorem Indexed.rewrite (indexed : Indexed db) (named : Named db db' r)
    (hr : nameOf db r.id = some r.name) : Indexed db' :=
  Indexed.write named (fun x name _ => indexed x name)
    fun _ hx h => hx (indexed.eq_of_name h hr)

/-! ### Loops of writes under unchanged names -/

/-- The database after writes that change no name. -/
structure SameNames (db db' : Pdb) : Prop where
  keyed : Keyed db'
  stored : nameOf db' = nameOf db
  indexed : Indexed db → Indexed db'

theorem SameNames.refl (keyed : Keyed db) : SameNames db db := ⟨keyed, rfl, id⟩

theorem SameNames.trans {db'' : Pdb} (h : SameNames db db') (h' : SameNames db' db'') :
    SameNames db db'' :=
  ⟨h'.keyed, h'.stored.trans h.stored, fun indexed => h'.indexed (h.indexed indexed)⟩

theorem sameNames_write (keyed : Keyed db) (hp : db.profiles x = some p) (hid : r.id = p.id)
    (hname : r.name = p.name) (run : pdbWriteProfile db r = some db') : SameNames db db' := by
  have named := pdbWriteProfile_named run
  have hr : nameOf db r.id = some r.name := by
    rw [hid, keyed.id x p hp, hname]
    exact nameOf_read hp
  exact ⟨named.keyed keyed, named.stored_eq hr, fun indexed => indexed.rewrite named hr⟩

theorem sameNames_editAll {f : PdbProfile → PdbProfile} {ids : List Int} (keyed : Keyed db)
    (hid : ∀ p, (f p).id = p.id) (hname : ∀ p, (f p).name = p.name)
    (run : editAll f ids db = some db') : SameNames db db' := by
  induction ids generalizing db with
  | nil =>
    cases run
    exact .refl keyed
  | cons x ids ih =>
    obtain ⟨db₁, run₁, run₂⟩ := bind_eq_some_iff.mp run
    obtain ⟨p, hp, run₁⟩ := bind_eq_some_iff.mp run₁
    have first := sameNames_write keyed hp (hid p) (hname p) run₁
    exact first.trans (ih first.keyed run₂)

/-- The loop over the owned groups completes and changes no name. -/
theorem changeOwnerName_spec (keyed : Keyed db) (name : CString) (ids : List Int) :
    ∃ db', changeOwnerName name ids db = some db' ∧ SameNames db db' := by
  induction ids generalizing db with
  | nil => exact ⟨db, rfl, .refl keyed⟩
  | cons x ids ih =>
    have hstep : ∃ db₁, (match pdbReadProfile db x with
        | some p =>
          if pdbIsGroup p.id then pdbWriteProfile db { p with ownerName := name } else some db
        | none => some db) = some db₁ ∧ SameNames db db₁ := by
      cases hx : pdbReadProfile db x with
      | none => exact ⟨db, rfl, .refl keyed⟩
      | some p =>
        by_cases hgroup : pdbIsGroup p.id
        · have hne : p.id ≠ 0 := by
            rw [keyed.id x p hx]
            exact keyed.ne_zero hx
          obtain ⟨db₁, run⟩ := exists_writeProfile (r := { p with ownerName := name }) hne keyed.range
          have same := sameNames_write (r := { p with ownerName := name }) keyed hx rfl rfl run
          exact ⟨db₁, by simp only [if_pos hgroup, run], same⟩
        · exact ⟨db, by simp only [if_neg hgroup], .refl keyed⟩
    obtain ⟨db₁, run₁, same₁⟩ := hstep
    obtain ⟨db₂, run₂, same₂⟩ := ih same₁.keyed
    refine ⟨db₂, ?_, same₁.trans same₂⟩
    exact bind_eq_some_iff.mpr ⟨db₁, run₁, run₂⟩

/-! ### The calls -/

/-- Changing a name completes, and keeps the index exactly when the name was not that of another
profile. -/
theorem pdbChangeName_spec (keyed : Keyed db) (hr : db.profiles x = some r) (name : CString) :
    ∃ db', pdbChangeName db x name = some db' ∧ Keyed db' ∧
      (Indexed db → (Indexed db' ↔ ∀ y, y ≠ x → nameOf db y ≠ some name)) := by
  have hid := keyed.id x r hr
  have keyed₁ : Keyed (pdbDbDeleteXfer db r.name) := ⟨keyed.id, keyed.nonzero, keyed.range⟩
  have hne : ({ r with name } : PdbProfile).id ≠ 0 := by
    rw [hid]
    exact keyed.ne_zero hr
  obtain ⟨db₂, run₂⟩ := exists_writeProfile hne keyed₁.range
  have named := pdbWriteProfile_named run₂
  have keyed₂ := named.keyed keyed₁
  have hnames : nameOf db₂ = update (nameOf db) x (some name) := by
    rw [named.stored, hid]
    rfl
  have hloop : ∃ db₃, (if pdbIsUser x then
        changeOwnerName name (pdbArrayIds r.groupsOrMembers) db₂ else some db₂) = some db₃ ∧
      SameNames db₂ db₃ := by
    split
    · exact changeOwnerName_spec keyed₂ name _
    · exact ⟨db₂, rfl, .refl keyed₂⟩
  obtain ⟨db₃, run₃, same⟩ := hloop
  refine ⟨db₃, ?_, same.keyed, fun indexed => ⟨fun indexed₃ y hy hname => ?_, fun fresh => ?_⟩⟩
  · rw [pdbChangeName, pdbReadProfile, hr]
    simp only [bind_eq_bind, bind_some, run₂]
    exact run₃
  · have hother : nameOf db₃ y = some name := by
      rw [same.stored, hnames, update_of_ne hy, hname]
    have hself : nameOf db₃ x = some name := by rw [same.stored, hnames, update_self]
    exact hy (indexed₃.eq_of_name hother hself)
  · refine same.indexed (Indexed.write named (fun y other hy hother => ?_) fun y hy => ?_)
    · have hold : other ≠ r.name := by
        rintro rfl
        exact hy (hid.trans (indexed.eq_of_name (nameOf_read hr) hother)).symm
      change update db.names r.name none other = some y
      rw [update_of_ne hold]
      exact indexed y other hother
    · exact fresh y (fun h => hy (h.trans hid.symm))

/-- A profile under a name that is not in use. -/
theorem indexed_new (indexed : Indexed db) (unused : pdbNameInUse db r.name = false)
    (named : Named db db' r) : Indexed db' := by
  refine Indexed.write named (fun x name _ => indexed x name) fun x _ h => ?_
  obtain ⟨p, hp, -⟩ := map_eq_some_iff.mp h
  rw [pdbNameInUse, indexed x r.name h, bind_some, pdbReadProfile, hp] at unused
  cases unused

section Maxids

variable {uid gid : Int} (h : pdbDbUpdateMaxids db uid gid = some db')
include h

theorem Keyed.updateMaxids (keyed : Keyed db) : Keyed db' := by
  obtain ⟨hprof, -, hrange⟩ := pdbDbUpdateMaxids_range h
  exact ⟨hprof ▸ keyed.id, hprof ▸ keyed.nonzero, hrange⟩

theorem nameOf_updateMaxids : nameOf db' = nameOf db := by
  funext x
  rw [nameOf, nameOf, (pdbDbUpdateMaxids_range h).1]

theorem Indexed.updateMaxids (indexed : Indexed db) : Indexed db' := by
  intro x name hname
  rw [nameOf_updateMaxids h] at hname
  rw [(pdbDbUpdateMaxids_range h).2.1]
  exact indexed x name hname

theorem pdbNameInUse_updateMaxids (name : CString) : pdbNameInUse db' name = pdbNameInUse db name := by
  obtain ⟨hprof, hnames, -⟩ := pdbDbUpdateMaxids_range h
  rw [pdbNameInUse, pdbNameInUse, hnames]
  unfold pdbReadProfile
  rw [hprof]

end Maxids

section

variable (keyed : Keyed db)
include keyed

theorem pdbCreateUser_indexed {id : Int} (run : pdbCreateUser db name = some (id, db')) :
    Keyed db' ∧ (Indexed db → Indexed db') := by
  unfold pdbCreateUser at run
  split_ifs at run with hargs
  obtain ⟨id', -, run⟩ := bind_eq_some_iff.mp run
  obtain ⟨db₁, run₁, run⟩ := bind_eq_some_iff.mp run
  obtain ⟨db₂, run₂, run⟩ := bind_eq_some_iff.mp run
  cases run
  have named := pdbWriteProfile_named run₂
  refine ⟨named.keyed (keyed.updateMaxids run₁), fun indexed => ?_⟩
  refine indexed_new (indexed.updateMaxids run₁) ?_ named
  rw [pdbNameInUse_updateMaxids run₁]
  exact eq_false_of_ne_true fun h => hargs (.inr h)

theorem pdbCreateGroup_indexed {id owner : Int}
    (run : pdbCreateGroup db name owner = some (id, db')) :
    Keyed db' ∧ (Indexed db → Indexed db') := by
  unfold pdbCreateGroup at run
  split_ifs at run with hargs
  obtain ⟨p, hp, run⟩ := bind_eq_some_iff.mp run
  obtain ⟨id', -, run⟩ := bind_eq_some_iff.mp run
  obtain ⟨db₁, run₁, run⟩ := bind_eq_some_iff.mp run
  obtain ⟨db₂, run₂, run⟩ := bind_eq_some_iff.mp run
  obtain ⟨db₃, run₃, run⟩ := bind_eq_some_iff.mp run
  cases run
  have named := pdbWriteProfile_named run₂
  have keyed₂ := named.keyed (keyed.updateMaxids run₁)
  have named₃ := pdbWriteProfile_named run₃
  refine ⟨named₃.keyed keyed₂, fun indexed => ?_⟩
  have indexed₂ : Indexed db₂ := by
    refine indexed_new (indexed.updateMaxids run₁) ?_ named
    rw [pdbNameInUse_updateMaxids run₁]
    exact eq_false_of_ne_true fun h => hargs (.inr (.inr h))
  -- the owner, who is a user, is written again under their name
  refine indexed₂.rewrite named₃ ?_
  have howner : owner ≠ id := by
    have huser : pdbIsUser owner := by
      by_contra h
      exact hargs (.inr (.inl h))
    have hpos : 0 < owner := of_decide_eq_true huser
    have hneg := (pdbDbUpdateMaxids_eq run₁).2.2.1
    omega
  change nameOf db₂ p.id = some p.name
  rw [named.stored, keyed.id owner p hp, update_of_ne howner, nameOf_updateMaxids run₁]
  exact nameOf_read hp

theorem pdbDeleteUser_indexed (run : pdbDeleteUser db x = some db') :
    Keyed db' ∧ (Indexed db → Indexed db') := by
  unfold pdbDeleteUser at run
  split at run
  · cases run
    exact ⟨keyed, id⟩
  · next r hr =>
    have hid := keyed.id x r hr
    have hprof : (pdbDeleteProfile db r).profiles = update db.profiles x none := by
      rw [← hid]
      rfl
    have keyed₁ : Keyed (pdbDeleteProfile db r) := by
      refine ⟨fun y p hp => ?_, ?_, keyed.range⟩
      · rw [hprof] at hp
        by_cases hy : y = x
        · rw [hy, update_self] at hp
          cases hp
        · rw [update_of_ne hy] at hp
          exact keyed.id y p hp
      · rw [hprof, update_of_ne (keyed.ne_zero hr).symm]
        exact keyed.nonzero
    have same := sameNames_editAll (f := (·.delMember x)) keyed₁ (fun _ => rfl) (fun _ => rfl) run
    refine ⟨same.keyed, fun indexed => same.indexed fun y name hname => ?_⟩
    rw [nameOf, hprof] at hname
    have hy : y ≠ x := by
      rintro rfl
      rw [update_self] at hname
      cases hname
    rw [update_of_ne hy] at hname
    have hne : name ≠ r.name := by
      rintro rfl
      exact hy (indexed.eq_of_name hname (nameOf_read hr))
    change update db.names r.name none name = some y
    rw [update_of_ne hne]
    exact indexed y name hname

/-! ### Runs -/

/-- A call that completes keeps the index exactly when it does not give a profile the name of another
one. -/
theorem NameOp.spec {op : NameOp} (run : op.run db = some db') :
    Keyed db' ∧ (Indexed db → (Indexed db' ↔ op.Fresh db)) := by
  cases op with
  | changeName id name =>
    obtain ⟨r, hr, -⟩ := bind_eq_some_iff.mp run
    obtain ⟨db₁, run₁, keyed₁, exact₁⟩ := pdbChangeName_spec keyed hr name
    cases run₁.symm.trans run
    refine ⟨keyed₁, fun indexed => (exact₁ indexed).trans
      ⟨fun h _ x p hp hx hname => ?_, fun h y hy hname => ?_⟩⟩
    · exact h x hx (hname ▸ nameOf_read hp)
    · obtain ⟨p, hp, hpname⟩ := map_eq_some_iff.mp hname
      exact h ⟨r, hr⟩ y p hp hy hpname
  | createUser name =>
    obtain ⟨⟨id, db₁⟩, h, rfl⟩ := map_eq_some_iff.mp run
    obtain ⟨keyed₁, indexed₁⟩ := pdbCreateUser_indexed keyed h
    exact ⟨keyed₁, fun indexed => iff_of_true (indexed₁ indexed) trivial⟩
  | createGroup name owner =>
    obtain ⟨⟨id, db₁⟩, h, rfl⟩ := map_eq_some_iff.mp run
    obtain ⟨keyed₁, indexed₁⟩ := pdbCreateGroup_indexed keyed h
    exact ⟨keyed₁, fun indexed => iff_of_true (indexed₁ indexed) trivial⟩
  | deleteUser id =>
    obtain ⟨keyed₁, indexed₁⟩ := pdbDeleteUser_indexed keyed run
    exact ⟨keyed₁, fun indexed => iff_of_true (indexed₁ indexed) trivial⟩

theorem NameOp.indexed_iff (indexed : Indexed db) (op : NameOp) :
    (∀ db', op.run db = some db' → Indexed db') ↔ op.Fresh db := by
  refine ⟨fun all => ?_, fun fresh db' run => ((spec keyed run).2 indexed).mpr fresh⟩
  cases op with
  | changeName id name =>
    rintro ⟨r, hr⟩
    obtain ⟨db₁, run₁, -⟩ := pdbChangeName_spec keyed hr name
    have run : run db (.changeName id name) = some db₁ := run₁
    exact ((spec keyed run).2 indexed).mp (all db₁ run) ⟨r, hr⟩
  | _ => trivial

end

/-- A database in which every profile is found by its own name. -/
structure NamedPdb where
  db : Pdb
  keyed : Keyed db
  found : Found db

/-- Every profile is found by its own name in all databases that a run reaches, exactly when no
profile is given the name of another one. -/
theorem found_iff_fresh (start : NamedPdb) (ops : List NameOp) :
    Always NameOp.run Found start.db ops ↔ Guarded NameOp.run NameOp.Fresh start.db ops := by
  refine always_iff_guarded
    (fun db op db' keyed _ run => (NameOp.spec keyed run).1) ?_ start.keyed start.found
    (guarded_of_forall (fun _ _ _ => trivial) _)
  intro db op keyed found _
  rw [← op.indexed_iff keyed ((found_iff_indexed keyed).mp found)]
  refine forall₂_congr fun db' run => ?_
  exact found_iff_indexed (NameOp.spec keyed run).1

/-- User 1 takes the name of user 2, who is then no longer found. -/
theorem found_not_kept : ¬ ∀ (start : NamedPdb) (ops : List NameOp),
    (∀ id, .changeName id noName ∉ ops) → Always NameOp.run Found start.db ops := by
  intro h
  have keyed : Keyed Pdb.empty := ⟨fun _ _ h => (nomatch h), rfl, .inl (Int.le_refl 0)⟩
  have always := h ⟨Pdb.empty, keyed, fun _ _ h => (nomatch h)⟩
    [.createUser ⟨[97#8], by decide⟩, .createUser ⟨[98#8], by decide⟩,
      .changeName 1 ⟨[98#8], by decide⟩] (by simp [noName])
  have hend : (([.createUser ⟨[97#8], by decide⟩, .createUser ⟨[98#8], by decide⟩,
      .changeName 1 ⟨[98#8], by decide⟩].foldlM NameOp.run Pdb.empty).map fun db =>
        ((db.profiles 2).map PdbProfile.name, (db.profiles 2).map PdbProfile.id,
          pdbLookupByName db ⟨[98#8], by decide⟩)) =
      some (some ⟨[98#8], by decide⟩, some 2, 1) := by decide
  obtain ⟨db, run, heq⟩ := map_eq_some_iff.mp hend
  obtain ⟨hname, heq⟩ := Prod.mk.inj heq
  obtain ⟨hid, hlookup⟩ := Prod.mk.inj heq
  obtain ⟨p, hp, hpname⟩ := map_eq_some_iff.mp hname
  rw [hp] at hid
  have hfound := always.reached run 2 p hp
  rw [hpname, hlookup, some.inj hid] at hfound
  exact absurd hfound (by decide)

end Coda.Al
