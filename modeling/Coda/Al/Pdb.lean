import Coda.Al.PdbArray
import Coda.Lib.Memory

/-!
The protection database (`coda-src/al/pdb.c`, `pdbprofile.c`, `pdbdb.c`).

Users have positive ids, groups negative ones. The store behind it is three finite maps, one
for each kind of key: a profile for every id, an id for every name, and the pair of the
largest user id and the smallest group id. Packing a profile and unpacking it again is the
identity on these.

Results are `none` where the source fails an assertion or overflows an `int32_t`.
`PDB_updateCps` calls itself on the members of a group; `fuel` bounds the depth of these
calls, and statements about completed calls hold for every `fuel`.
-/

namespace Coda.Al

open Coda.Lib

/-- `PDB_profile`. The name of the owner of a user, `NULL` in the source, is packed like the
empty string. -/
structure PdbProfile where
  id : Int
  name : CString
  ownerId : Int
  ownerName : CString
  memberOf : PdbArray
  cps : PdbArray
  groupsOrMembers : PdbArray
deriving DecidableEq

/-- The key/value store. -/
structure Pdb where
  profiles : Int → Option PdbProfile
  names : CString → Option Int
  maxids : Option (Int × Int)

def Pdb.empty : Pdb := ⟨fun _ => none, fun _ => none, none⟩

def noName : CString := ⟨[], List.not_mem_nil⟩

/-- `PDB_ISUSER`. -/
def pdbIsUser (x : Int) : Bool := x > 0

/-- `PDB_ISGROUP`. -/
def pdbIsGroup (x : Int) : Bool := x < 0

/-- The result of an `int32_t` computation. -/
def int32 (x : Int) : Option Int := if -2147483648 ≤ x ∧ x ≤ 2147483647 then some x else none

/-! ### The store -/

/-- `PDB_db_maxids`. -/
def pdbDbMaxids (db : Pdb) : Int × Int := db.maxids.getD (0, 0)

/-- `PDB_db_update_maxids` with `PDB_MAXID_SET`. -/
def pdbDbUpdateMaxids (db : Pdb) (uid gid : Int) : Option Pdb :=
  if ¬ (uid ≥ 0 ∧ gid ≤ 0) then none
  else
    let old := pdbDbMaxids db
    if ¬ (old.1 ≥ 0 ∨ old.2 ≤ 0) then none
    else some { db with
      maxids := some (if uid > old.1 then uid else old.1, if gid < old.2 then gid else old.2) }

/-- `PDB_writeProfile`. -/
def pdbWriteProfile (db : Pdb) (r : PdbProfile) : Option Pdb :=
  if r.id = 0 then none
  else
    let db := { db with
      profiles := Function.update db.profiles r.id (some r)
      names := Function.update db.names r.name (some r.id) }
    if r.id > 0 then pdbDbUpdateMaxids db r.id 0 else pdbDbUpdateMaxids db 0 r.id

/-- `PDB_readProfile`; a profile with id 0 is `none`. -/
def pdbReadProfile (db : Pdb) (id : Int) : Option PdbProfile := db.profiles id

/-- `PDB_deleteProfile`. -/
def pdbDeleteProfile (db : Pdb) (r : PdbProfile) : Pdb :=
  { db with
    profiles := Function.update db.profiles r.id none
    names := Function.update db.names r.name none }

/-- `pdb_nameInUse`. -/
def pdbNameInUse (db : Pdb) (name : CString) : Bool :=
  ((db.names name).bind (pdbReadProfile db)).isSome

/-- The ids that `PDB_updateCps` collects from the parents of `r`. -/
def parentsCps (db : Pdb) (r : PdbProfile) : PdbArray :=
  (pdbArrayIds r.memberOf).foldl (fun cps g =>
    match pdbReadProfile db g with
    | some p => pdbArrayMerge cps p.cps
    | none => cps) []

/-- `PDB_updateCps`. -/
def pdbUpdateCps : Nat → Pdb → PdbProfile → Option Pdb
  | 0, _, _ => none
  | fuel + 1, db, r => do
    let db ← pdbWriteProfile db { r with cps := pdbArrayAdd (parentsCps db r) r.id }
    if ¬ pdbIsGroup r.id then return db
    else (pdbArrayIds r.groupsOrMembers).foldlM (fun db id =>
      match pdbReadProfile db id with
      | some c => pdbUpdateCps fuel db c
      | none => some db) db

/-! ### Loops over an id list -/

/-- Reads the profile of each id, which must exist, and writes it changed by `f`. -/
def editAll (f : PdbProfile → PdbProfile) (ids : List Int) (db : Pdb) : Option Pdb :=
  ids.foldlM (fun db id => do
    let p ← pdbReadProfile db id
    pdbWriteProfile db (f p)) db

/-- The same with `PDB_updateCps` in place of `PDB_writeProfile`. -/
def updateAll (fuel : Nat) (f : PdbProfile → PdbProfile) (ids : List Int) (db : Pdb) : Option Pdb :=
  ids.foldlM (fun db id => do
    let p ← pdbReadProfile db id
    pdbUpdateCps fuel db (f p)) db

section Edits

variable (p : PdbProfile) (id : Int)

def PdbProfile.addMember : PdbProfile :=
  { p with groupsOrMembers := pdbArrayAdd p.groupsOrMembers id }

def PdbProfile.delMember : PdbProfile :=
  { p with groupsOrMembers := pdbArrayDel p.groupsOrMembers id }

def PdbProfile.addParent : PdbProfile := { p with memberOf := pdbArrayAdd p.memberOf id }

def PdbProfile.delParent : PdbProfile := { p with memberOf := pdbArrayDel p.memberOf id }

end Edits

/-! ### The operations -/

/-- `PDB_addToGroup`. An id that is already a parent of the group is refused. -/
def pdbAddToGroup (fuel : Nat) (db : Pdb) (id groupId : Int) : Option Pdb :=
  if ¬ (pdbIsGroup groupId ∧ id ≠ 0) then none
  else do
    let r ← pdbReadProfile db groupId
    if (pdbArraySearch r.cps id).isSome then return db
    else
      let db ← pdbWriteProfile db (r.addMember id)
      let r ← pdbReadProfile db id
      pdbUpdateCps fuel db (r.addParent groupId)

/-- `PDB_removeFromGroup`. -/
def pdbRemoveFromGroup (fuel : Nat) (db : Pdb) (id groupId : Int) : Option Pdb :=
  if ¬ (pdbIsGroup groupId ∧ id ≠ 0) then none
  else do
    let r ← pdbReadProfile db groupId
    let db ← pdbWriteProfile db (r.delMember id)
    let r ← pdbReadProfile db id
    pdbUpdateCps fuel db (r.delParent groupId)

/-- `PDB_createUser`, with the new id. -/
def pdbCreateUser (db : Pdb) (name : CString) : Option (Int × Pdb) :=
  if name.bytes = [] ∨ pdbNameInUse db name then none
  else do
    let maxids := pdbDbMaxids db
    let id ← int32 (maxids.1 + 1)
    let db ← pdbDbUpdateMaxids db id maxids.2
    let db ← pdbWriteProfile db
      { id, name, ownerId := 0, ownerName := noName, memberOf := [], cps := pdbArrayAdd [] id,
        groupsOrMembers := [] }
    return (id, db)

/-- `PDB_cloneUser`, with the new id. -/
def pdbCloneUser (fuel : Nat) (db : Pdb) (name : CString) (cloneid : Int) : Option (Int × Pdb) :=
  if name.bytes = [] ∨ cloneid = 0 ∨ pdbNameInUse db name then none
  else do
    let r ← pdbReadProfile db cloneid
    let maxids := pdbDbMaxids db
    let id ← int32 (maxids.1 + 1)
    let db ← pdbDbUpdateMaxids db id maxids.2
    let r := { r with id, name }
    let db ← editAll (·.addMember id) (pdbArrayIds r.memberOf) db
    let db ← pdbUpdateCps fuel db r
    return (id, db)

/-- `PDB_deleteUser`. -/
def pdbDeleteUser (db : Pdb) (id : Int) : Option Pdb :=
  match pdbReadProfile db id with
  | none => some db
  | some r => editAll (·.delMember id) (pdbArrayIds r.memberOf) (pdbDeleteProfile db r)

/-- `PDB_createGroup`, with the new id. -/
def pdbCreateGroup (db : Pdb) (name : CString) (owner : Int) : Option (Int × Pdb) :=
  if name.bytes = [] ∨ ¬ pdbIsUser owner ∨ pdbNameInUse db name then none
  else do
    let p ← pdbReadProfile db owner
    let maxids := pdbDbMaxids db
    let id ← int32 (maxids.2 - 1)
    let db ← pdbDbUpdateMaxids db maxids.1 id
    let db ← pdbWriteProfile db
      { id, name, ownerId := owner, ownerName := p.name, memberOf := [], cps := pdbArrayAdd [] id,
        groupsOrMembers := pdbArrayAdd [] owner }
    let db ← pdbWriteProfile db { (p.addMember id).addParent id with cps := pdbArrayAdd p.cps id }
    return (id, db)

/-- `PDB_deleteGroup`. The loop over the groups that the group is a member of fails for each
of them: the source asserts that their profile does not exist, and writing a profile that
does not exist fails as well. -/
def pdbDeleteGroup (fuel : Nat) (db : Pdb) (id : Int) : Option Pdb :=
  match pdbReadProfile db id with
  | none => some db
  | some r => do
    let db := pdbDeleteProfile db r
    let p ← pdbReadProfile db r.ownerId
    let db ← pdbWriteProfile db (p.delMember id)
    let db ← (pdbArrayIds r.memberOf).foldlM (fun _ _ => none) db
    let db ← updateAll fuel (·.delParent id) (pdbArrayIds r.groupsOrMembers) db
    let p ← pdbReadProfile db r.ownerId
    pdbUpdateCps fuel db p

/-- The change of a member's or an owned group's profile in `PDB_changeId`. -/
def renamed (oldId newId : Int) (p : PdbProfile) : PdbProfile :=
  if pdbIsGroup oldId then (p.delParent oldId).addParent newId
  else if pdbIsGroup p.id ∧ p.ownerId = oldId then { p with ownerId := newId }
  else p

/-- `PDB_changeId`. -/
def pdbChangeId (fuel : Nat) (db : Pdb) (oldId newId : Int) : Option Pdb :=
  if oldId = newId then some db
  else if (pdbReadProfile db newId).isSome then none
  else do
    let r ← pdbReadProfile db oldId
    let db := pdbDeleteProfile db r
    let r := { r with id := newId }
    let db ← pdbUpdateCps fuel db r
    let db ←
      if pdbIsGroup oldId then do
        let p ← pdbReadProfile db r.ownerId
        let db ← pdbWriteProfile db ((p.delMember oldId).addMember newId)
        pdbDbUpdateMaxids db 0 newId
      else pdbDbUpdateMaxids db newId 0
    let db ← editAll (fun p => (p.delMember oldId).addMember newId) (pdbArrayIds r.memberOf) db
    updateAll fuel (renamed oldId newId) (pdbArrayIds r.groupsOrMembers) db

/-- The calls that change the database. -/
inductive PdbOp where
  | createUser (name : CString)
  | cloneUser (name : CString) (cloneid : Int)
  | createGroup (name : CString) (owner : Int)
  | addToGroup (id groupId : Int)
  | removeFromGroup (id groupId : Int)
  | changeId (oldId newId : Int)
  | deleteUser (id : Int)
  | deleteGroup (id : Int)

/-- The database after a call. -/
def PdbOp.run (fuel : Nat) (db : Pdb) : PdbOp → Option Pdb
  | .createUser name => (pdbCreateUser db name).map Prod.snd
  | .cloneUser name cloneid => (pdbCloneUser fuel db name cloneid).map Prod.snd
  | .createGroup name owner => (pdbCreateGroup db name owner).map Prod.snd
  | .addToGroup id groupId => pdbAddToGroup fuel db id groupId
  | .removeFromGroup id groupId => pdbRemoveFromGroup fuel db id groupId
  | .changeId oldId newId => pdbChangeId fuel db oldId newId
  | .deleteUser id => pdbDeleteUser db id
  | .deleteGroup id => pdbDeleteGroup fuel db id

/-- Both ids are users or both are groups. -/
def SameSign (a b : Int) : Prop := (0 < a ∧ 0 < b) ∨ (a < 0 ∧ b < 0)

/-- What the callers promise: only users are cloned or deleted as users, and an id is changed
to one of the same sign. -/
def PdbOp.Valid : PdbOp → Prop
  | .cloneUser _ cloneid => 0 < cloneid
  | .changeId oldId newId => SameSign oldId newId
  | .deleteUser id => 0 ≤ id
  | _ => True

end Coda.Al
