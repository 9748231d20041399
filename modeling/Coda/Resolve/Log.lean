import Coda.Dir.Body

/-!
Resolution logs: the entries that replicas ship to one another, and how they are compared.

An entry that was shipped carries the server it comes from in the field `index`, as an `int`.
The logs of all servers are kept by host and then by directory (`parselog.cc`); a host is
identified by a `long`, which is that `int` sign-extended.
-/

namespace Coda.Resolve

open Coda.Lib

/-- A fid of the volume that is resolved. -/
abbrev Fid := Dir.DirFid

/-- `ViceStoreId`. -/
structure StoreId where
  hostId : BitVec 32
  uniquifier : BitVec 32
deriving DecidableEq, Repr

def nullSid : StoreId := ⟨0#32, 0#32⟩

/-- `ViceVersionVector`, with its eight sites. -/
structure VersionVector where
  versions : Vector Int 8
  storeId : StoreId
  flags : BitVec 32
deriving DecidableEq, Repr

/-- The operands of a removal (`u.rm`, `name1`) and of a rename onto an object (`u.mv`, `name2`):
the object that is deleted, its version vector and its name. -/
structure Operands where
  child : Fid
  cvv : VersionVector
  name1 : CString
  target : Fid
  tvv : VersionVector
  name2 : CString
deriving DecidableEq

/-- `rsle`. -/
structure Rsle where
  serverid : BitVec 32
  seqno : Int
  storeid : StoreId
  opcode : Nat
  u : Operands
deriving DecidableEq

/-- `index`, where a shipped entry keeps its server. -/
def Rsle.index (r : Rsle) : Int := r.serverid.toInt

/-- `ISNONRESOLVEOP`. -/
def isNonResolveOp (opcode : Nat) : Bool := opcode < 128 ∨ opcode = 138

/-- The log of one directory at one host. -/
structure RemoteLogList where
  vnode : BitVec 32
  unique : BitVec 32
  slelist : List Rsle
deriving DecidableEq

/-- `he`, the logs of one host. -/
structure He where
  server : BitVec 32
  vlist : List RemoteLogList
deriving DecidableEq

def He.hid (h : He) : Int := h.server.toInt

/-! ### Comparisons -/

def compareStoreId (a b : StoreId) : Int :=
  if a.hostId < b.hostId then -1
  else if a.hostId > b.hostId then 1
  else if a.uniquifier < b.uniquifier then -1
  else if a.uniquifier > b.uniquifier then 1
  else 0

def cmpIndex (a b : Rsle) : Int :=
  if a.index < b.index then -1 else if a.index > b.index then 1 else 0

/-- By store id, then by server. -/
def cmpSleEntries (a b : Rsle) : Int :=
  let res := compareStoreId a.storeid b.storeid
  if res ≠ 0 then res else cmpIndex a b

/-- By server, then by sequence number. -/
def cmpCompEntries (a b : Rsle) : Int :=
  let res := cmpIndex a b
  if res ≠ 0 then res
  else if a.seqno < b.seqno then -1 else if a.seqno > b.seqno then 1 else 0

def isLater (a b : Rsle) : Bool := a.seqno > b.seqno

/-- `qsort`. No two entries that are sorted here compare equal, so that any way to sort gives the
same list. -/
def qsort (cmp : Rsle → Rsle → Int) (l : List Rsle) : List Rsle :=
  l.insertionSort fun a b => cmp a b ≤ 0

/-- The place of a store id in the order of `CompareStoreId`. -/
def StoreId.key (s : StoreId) : Nat := s.hostId.toNat * 4294967296 + s.uniquifier.toNat

section Compare

variable (a b : StoreId) (x y : Rsle)

theorem StoreId.key_inj {a b : StoreId} : a.key = b.key ↔ a = b := by
  constructor
  · intro h
    have h₁ := a.uniquifier.isLt
    have h₂ := b.uniquifier.isLt
    unfold key at h
    cases a
    cases b
    rw [mk.injEq, ← BitVec.toNat_inj, ← BitVec.toNat_inj]
    dsimp only at h h₁ h₂ ⊢
    omega
  · rintro rfl
    rfl

/-- `CompareStoreId` compares the keys. -/
theorem compareStoreId_eq :
    compareStoreId a b = if a.key < b.key then -1 else if b.key < a.key then 1 else 0 := by
  unfold compareStoreId StoreId.key
  simp only [BitVec.lt_def, GT.gt]
  split_ifs <;> first | rfl | omega

theorem compareStoreId_neg : compareStoreId a b < 0 ↔ a.key < b.key := by
  rw [compareStoreId_eq]
  split_ifs <;> omega

theorem compareStoreId_pos : 0 < compareStoreId a b ↔ b.key < a.key := by
  rw [compareStoreId_eq]
  split_ifs <;> omega

theorem compareStoreId_zero : compareStoreId a b = 0 ↔ a = b := by
  rw [compareStoreId_eq, ← StoreId.key_inj]
  split_ifs with h₁ h₂
  · exact iff_of_false (by decide) (ne_of_lt h₁)
  · exact iff_of_false (by decide) (ne_of_gt h₂)
  · exact iff_of_true rfl (by omega)

theorem cmpSleEntries_nonpos :
    cmpSleEntries x y ≤ 0 ↔
      x.storeid.key < y.storeid.key ∨ x.storeid.key = y.storeid.key ∧ x.index ≤ y.index := by
  unfold cmpSleEntries cmpIndex
  rw [compareStoreId_eq]
  dsimp only
  split_ifs <;> omega

theorem cmpCompEntries_nonpos :
    cmpCompEntries x y ≤ 0 ↔ x.index < y.index ∨ x.index = y.index ∧ x.seqno ≤ y.seqno := by
  unfold cmpCompEntries cmpIndex
  dsimp only
  split_ifs <;> omega

end Compare

section Sorting

theorem qsort_perm (cmp : Rsle → Rsle → Int) (l : List Rsle) : (qsort cmp l).Perm l :=
  List.perm_insertionSort _ l

variable {cmp : Rsle → Rsle → Int}

theorem mem_qsort {l : List Rsle} {r : Rsle} : r ∈ qsort cmp l ↔ r ∈ l :=
  (qsort_perm cmp l).mem_iff

/-- A comparison that agrees with a total preorder sorts by it. -/
theorem pairwise_qsort {le : Rsle → Rsle → Prop} (hcmp : ∀ a b, cmp a b ≤ 0 ↔ le a b)
    (htotal : ∀ a b, le a b ∨ le b a) (htrans : ∀ a b c, le a b → le b c → le a c) (l : List Rsle) :
    (qsort cmp l).Pairwise le := by
  simp only [← hcmp] at htotal htrans
  have total : Std.Total fun a b => cmp a b ≤ 0 := ⟨htotal⟩
  have trans : IsTrans Rsle fun a b => cmp a b ≤ 0 := ⟨htrans⟩
  exact (List.pairwise_insertionSort _ l).imp fun h => (hcmp _ _).mp h

theorem qsort_cmpSleEntries (l : List Rsle) :
    (qsort cmpSleEntries l).Pairwise fun a b =>
      a.storeid.key < b.storeid.key ∨ a.storeid.key = b.storeid.key ∧ a.index ≤ b.index :=
  pairwise_qsort cmpSleEntries_nonpos (fun a b => by omega) (fun a b c => by omega) l

theorem qsort_cmpCompEntries (l : List Rsle) :
    (qsort cmpCompEntries l).Pairwise fun a b =>
      a.index < b.index ∨ a.index = b.index ∧ a.seqno ≤ b.seqno :=
  pairwise_qsort cmpCompEntries_nonpos (fun a b => by omega) (fun a b c => by omega) l

end Sorting

end Coda.Resolve
