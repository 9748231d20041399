import Coda.Lib.Qsort
import Mathlib.Data.BitVec

/-!
Access lists (`coda-src/al/alprocs.c`): `AL_Internalize` reads the external form, and
`AL_CheckRights` walks over an access list and a CPS, both taken to be in ascending order.

`undefined` is where C leaves the result open: a number that does not fit an `int`, a name
that does not fit `tbuf`, text read beyond its end, negative counts, and `qsort` on entries
beyond the end of the list.
-/

namespace Coda.Al

open Coda.Lib

inductive AlError where
  | einval
  | e2big
  | enoent
  | undefined
deriving DecidableEq, Repr

/-- `AL_AccessEntry`. -/
structure AccessEntry where
  id : Int
  rights : BitVec 32
deriving DecidableEq, Repr

/-- `AL_AccessList`. -/
structure AccessList where
  totalNoOfEntries : Nat
  plusEntriesInUse : Nat
  minusEntriesInUse : Nat
  actualEntries : List AccessEntry
deriving DecidableEq, Repr

/-- `AL_MaxExtEntries`. -/
def alMaxExtEntries : Int := 20

/-- `PRS_MAXNAMELEN`. -/
def prsMaxNameLen : Nat := 100

/-! ### Scanning text -/

def isspace (c : Char) : Bool := c.toNat = 32 || (9 ≤ c.toNat && c.toNat ≤ 13)

def digit (c : Char) : Nat := c.toNat - 48

/-- `%d` of `sscanf`: the number and what follows it; `none` if there is none. -/
def scanInt (s : List Char) : Except AlError (Option (Int × List Char)) :=
  let s := s.dropWhile isspace
  let sign : Int := if s.head? = some '-' then -1 else 1
  let s := if s.head? = some '-' ∨ s.head? = some '+' then s.tail else s
  let ds := s.takeWhile Char.isDigit
  if ds = [] then .ok none
  else
    let n := sign * (ds.foldl (fun n c => 10 * n + digit c) 0 : Nat)
    if n < -2147483648 ∨ n > 2147483647 then .error .undefined
    else .ok (some (n, s.dropWhile Char.isDigit))

/-- `%s` of `sscanf` into `tbuf`. -/
def scanName (s : List Char) : Except AlError (Option (List Char × List Char)) :=
  let s := s.dropWhile isspace
  let name := s.takeWhile fun c => !isspace c
  if name = [] then .ok none
  else if name.length > prsMaxNameLen then .error .undefined
  else .ok (some (name, s.dropWhile fun c => !isspace c))

/-- The text behind the first newline, `none` for a pointer outside the text. -/
def nextLine (s : List Char) : Option (List Char) :=
  match s.dropWhile (· ≠ '\n') with
  | [] => none
  | _ :: rest => some rest

/-! ### AL_Internalize -/

/-- The loop over the entries. `nameToId` is `AL_NameToId`, 0 for an unknown name. -/
def readEntries (nameToId : List Char → Int) :
    Nat → Option (List Char) → Except AlError (List AccessEntry)
  | 0, _ => .ok []
  | _ + 1, none => .error .undefined
  | n + 1, some nextc => do
    let some (tbuf, rest) ← scanName nextc | .error .einval
    let some (rights, _) ← scanInt rest | .error .einval
    if nameToId tbuf = 0 then .error .enoent
    else do
      let entries ← readEntries nameToId n (nextLine nextc)
      return ⟨nameToId tbuf, BitVec.ofInt 32 rights⟩ :: entries

/-- What `AL_Internalize` reads: the counts and the entries in the order of the text. -/
def readAlist (nameToId : List Char → Int) (elist : List Char) :
    Except AlError (Nat × Nat × List AccessEntry) := do
  let some (p, rest) ← scanInt elist | .error .einval
  let some (m, _) ← scanInt rest | .error .einval
  if p + m > 2147483647 then .error .undefined
  else if p + m > alMaxExtEntries then .error .e2big
  else if p + m < 0 then .error .undefined
  else do
    let some nextc := nextLine elist | .error .undefined
    let entries ← readEntries nameToId (p + m).toNat (nextLine nextc)
    -- a negative count is a huge one for qsort
    if p < 0 ∨ m < 0 then .error .undefined
    else return (p.toNat, m.toNat, entries)

def cmpPlus (a b : AccessEntry) : Int := if a.id < b.id then -1 else if a.id = b.id then 0 else 1

def cmpMinus (a b : AccessEntry) : Int := if a.id > b.id then -1 else if a.id = b.id then 0 else 1

/-- The two calls of `qsort`: `p` entries from 0 on, and `m` entries from `m` on. -/
def sortEntries (q : Qsort AccessEntry) (p m : Nat) (entries : List AccessEntry) :
    Except AlError (List AccessEntry) :=
  let entries := q.sort cmpPlus (entries.take p) ++ entries.drop p
  -- a single entry is not looked at
  if 1 < m ∧ m + m > entries.length then .error .undefined
  else .ok (entries.take m ++ q.sort cmpMinus ((entries.drop m).take m) ++ entries.drop (m + m))

/-- `AL_Internalize`. -/
def alInternalize (q : Qsort AccessEntry) (nameToId : List Char → Int) (elist : List Char) :
    Except AlError AccessList := do
  let (p, m, entries) ← readAlist nameToId elist
  let entries ← sortEntries q p m entries
  return ⟨p + m, p, m, entries⟩

/-! ### AL_CheckRights -/

/-- The loops of `AL_CheckRights`: the rights collected from a part of the entries. -/
def collectRights (rights : BitVec 32) : List AccessEntry → List Int → BitVec 32
  | [], _ => rights
  | _ :: _, [] => rights
  | a :: as, c :: cs =>
    if a.id < c then collectRights rights as (c :: cs)
    else if a.id = c then collectRights (rights ||| a.rights) as (c :: cs)
    else collectRights rights (a :: as) cs
termination_by as cs => as.length + cs.length

/-- `AL_CheckRights`, for the included ids of a CPS. -/
def alCheckRights (alist : AccessList) (cps : List Int) : BitVec 32 :=
  if alist.plusEntriesInUse = 0 ∨ cps.length = 0 then 0
  else
    let plusrights := collectRights 0 (alist.actualEntries.take alist.plusEntriesInUse) cps
    let minusrights := collectRights 0
      ((alist.actualEntries.take alist.totalNoOfEntries).drop alist.plusEntriesInUse) cps
    plusrights &&& ~~~minusrights

/-! ### What the rights should be -/

/-- The rights of the entries for ids of a CPS. -/
def rightsOf (entries : List AccessEntry) (cps : List Int) : BitVec 32 :=
  (entries.filter fun e => e.id ∈ cps).foldr (fun e rights => e.rights ||| rights) 0

/-- The rights that the first `p` entries give and the others do not take. -/
def grantedRights (p : Nat) (entries : List AccessEntry) (cps : List Int) : BitVec 32 :=
  rightsOf (entries.take p) cps &&& ~~~rightsOf (entries.drop p) cps

end Coda.Al
