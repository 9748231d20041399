import Coda.Dir.Compare
import Coda.Resolve.CompOps
import Coda.Vv.Inconsist

/-!
Remove/update conflicts: may a directory that another server has removed be removed here too?

`RUConflict` is to find any object of the local subtree that was changed after what the removing
server saw. `NewDirRUConf` compares the directory's own log and is then to go on with its
children; it does so only for a directory that `DH_IsEmpty` says is empty.
-/

namespace Coda.Resolve

open Coda.Lib Option
open Coda.Dir (Directory Entry Live dot dotdot isDot dirIsEmpty dirEnumerateDir readEntry
  allEntries mem_allEntries)

/-! ### Version vectors -/

/-- The part of a vector that is compared. -/
def VersionVector.toVv (vv : VersionVector) : Vv.VersionVector := ⟨fun i => vv.versions[i], vv.flags⟩

/-- `IsWeaklyEqual`, of two vectors. -/
def isWeaklyEqual (a b : VersionVector) : Bool := a.storeId = b.storeId

/-- `FileRUConf`, of an object that is there. -/
def fileRUConf (deletedVV : Option VersionVector) (vv : VersionVector) : Int :=
  match deletedVV with
  | none => 1
  | some deletedVV =>
    if isWeaklyEqual deletedVV vv then 0
    else
      match Vv.vvCmp vv.toVv deletedVV.toVv with
      | .eq | .sub => 0
      | .dom | .inc => 1

/-- A vector is below another: no site has seen more updates, and neither is inconsistent. -/
def VersionVector.Below (a b : VersionVector) : Prop :=
  a.toVv.isIncon = false ∧ b.toVv.isIncon = false ∧ a.toVv ≤ b.toVv

section Vectors

/-- A file was changed: its vector is neither weakly equal to the deleted one nor below it, or
there is none. -/
theorem fileRUConf_ne_zero_iff (deletedVV : Option VersionVector) (vv : VersionVector) :
    fileRUConf deletedVV vv ≠ 0 ↔
      ∀ d, deletedVV = some d → d.storeId ≠ vv.storeId ∧ ¬ vv.Below d := by
  cases deletedVV with
  | none => simp [fileRUConf]
  | some d =>
    have hbelow : (Vv.vvCmp vv.toVv d.toVv = .eq ∨ Vv.vvCmp vv.toVv d.toVv = .sub) ↔ vv.Below d := by
      unfold Vv.vvCmp VersionVector.Below
      rw [← not_not (a := vv.toVv ≤ d.toVv), Vv.not_le_iff, Vv.vvCmpIgnoreInc_eq, Vv.outcome]
      cases vv.toVv.isIncon <;> cases d.toVv.isIncon <;> simp
      split_ifs <;> simp_all
    have hone : (∀ d', some d = some d' → d'.storeId ≠ vv.storeId ∧ ¬ vv.Below d') ↔
        d.storeId ≠ vv.storeId ∧ ¬ vv.Below d := by simp
    rw [hone, ← hbelow, fileRUConf, isWeaklyEqual]
    by_cases hweak : d.storeId = vv.storeId
    · simp [hweak]
    · simp only [hweak, decide_false, Bool.false_eq_true, if_false, ne_eq, not_false_eq_true,
        true_and]
      cases Vv.vvCmp vv.toVv d.toVv <;> simp

end Vectors

/-! ### The check -/

/-- An entry of the log of a local directory. -/
structure Recle where
  storeid : StoreId
  opcode : Nat
deriving DecidableEq, Repr

/-- A local object. A directory may have no log, but not an empty one. -/
structure Vnode where
  isDirectory : Bool
  vv : VersionVector
  parent : Fid
  log : Option (List Recle)
  logged : log ≠ some []
  dir : Directory

/-- The local objects (`vlist`). Every entry of a directory but `.` and `..` is an object with that
directory as its parent. -/
structure Objects where
  vnodes : Fid → Option Vnode
  children : ∀ d v, vnodes d = some v → v.isDirectory = true →
    ∀ e, Live v.dir.chains e → isDot e = false →
      ∃ c, vnodes e.fid = some c ∧ c.parent = d

/-- `RUParm` without the result: the logs, this host and the server where the removal happened. -/
structure RUParm where
  objects : Objects
  allLogs : List He
  thisHost : BitVec 32
  srvrid : BitVec 32

/-- `FindRemoteLog`. -/
def findRemoteLog (rup : RUParm) (fid : Fid) : Option (Option (List Rsle)) :=
  if rup.srvrid.toInt = rup.thisHost.toNat then none
  else do
    let rhe ← rup.allLogs.find? fun h => h.hid = rup.srvrid.toInt
    return (rhe.vlist.find? fun l => l.vnode = fid.vnode ∧ l.unique = fid.unique).map
      RemoteLogList.slelist

/-- The test of `FindDeletedFileVV` on one entry. -/
def deletionVV (filefid : Fid) (name : CString) (ep : Rsle) : Option VersionVector :=
  if (ep.opcode = 4 ∨ ep.opcode = 131) ∧ ep.u.child = filefid ∧ ep.u.name1 = name then
    some ep.u.cvv
  else if (ep.opcode = 6 ∨ ep.opcode = 133) ∧ ep.u.target.vnode ≠ 0#32 ∧ ep.u.target = filefid ∧
      ep.u.name2 = name then
    some ep.u.tvv
  else none

/-- `FindDeletedFileVV`. -/
def findDeletedFileVV (rup : RUParm) (filefid : Fid) (name : CString) (pFid : Fid) :
    Option (Option VersionVector) := do
  match ← findRemoteLog rup pFid with
  | none => none
  | some log => return log.findSome? (deletionVV filefid name)

/-- `ChildDirRUConf`. -/
def childDirRUConf (rup : RUParm) (cFid : Fid) (cvptr : Vnode) : Option Int := do
  match ← findRemoteLog rup cFid with
  | none => return 1
  | some deletedDirLog =>
    match cvptr.log with
    | none => return 0
    | some log => do
      let lastLocalle ← log.getLast?
      if deletedDirLog.any fun r =>
          r.storeid = lastLocalle.storeid ∧ r.opcode = lastLocalle.opcode then return 0
      else return 1

/-- `NewDirRUConf`, at most `k` directories deep: the value returned, and `rcode`. -/
def newDirRUConf (rup : RUParm) : Nat → CString → Fid → Int → Option (Int × Int)
  | 0, _, _, _ => none
  | k + 1, name, cFid, rcode =>
    if rcode ≠ 0 then some (1, rcode)
    else if name = dot ∨ name = dotdot then some (0, rcode)
    else do
      let cv ← rup.objects.vnodes cFid
      let _ ← rup.objects.vnodes cv.parent
      if cv.isDirectory = false then
        let deletedVV ← findDeletedFileVV rup cFid name cv.parent
        let rcode := fileRUConf deletedVV cv.vv
        return (rcode, rcode)
      else
        let rcode ← childDirRUConf rup cFid cv
        if rcode ≠ 0 then return (rcode, rcode)
        else if ← dirIsEmpty cv.dir.image then
          -- `ENewDirRUConf`; an assertion that fails ends the enumeration
          let hook := fun blob (st : Option Int) =>
            match st.bind (newDirRUConf rup k (readEntry cv.dir.image blob).name
              (Dir.fid cv.dir.image blob)) with
            | none => ((1 : Int), (none : Option Int))
            | some (rc, rcode) => (rc, some rcode)
          let r ← dirEnumerateDir cv.dir.image hook (some rcode)
          let rcode ← r.2
          return (rcode, rcode)
        else return (rcode, rcode)

/-- `RUConflict`, for the removal `r` of an object. -/
def ruConflict (rup : RUParm) (k : Nat) (r : Rsle) : Option Int :=
  if r.opcode = 4 ∨ r.opcode = 131 then do
    let cv ← rup.objects.vnodes r.u.child
    return fileRUConf (some r.u.cvv) cv.vv
  else if r.opcode = 10 ∨ r.opcode = 137 then do
    let _ ← rup.objects.vnodes r.u.child
    let (_, rcode) ← newDirRUConf rup k r.u.name1 r.u.child 0
    return rcode
  else none

/-! ### The subtree -/

/-- The objects below a directory, by the name in their parent. -/
inductive Below (o : Objects) (top : Fid) : CString → Fid → Prop where
  | child {v : Vnode} {e : Entry} : o.vnodes top = some v → v.isDirectory = true →
      Live v.dir.chains e → isDot e = false → Below o top e.name e.fid
  | deeper {name : CString} {d : Fid} {v : Vnode} {e : Entry} : Below o top name d →
      o.vnodes d = some v → v.isDirectory = true → Live v.dir.chains e → isDot e = false →
      Below o top e.name e.fid

/-- The log of an object at the server that removed it. -/
def RUParm.remoteLog (rup : RUParm) (fid : Fid) : Option (List Rsle) := (findRemoteLog rup fid).join

/-- A directory was changed after what the removing server saw: the last entry of its log is not
in the remote log. -/
def DirChanged (rup : RUParm) (d : Fid) (v : Vnode) : Prop :=
  ∀ remote, rup.remoteLog d = some remote → ∃ log last, v.log = some log ∧
    log.getLast? = some last ∧ ∀ r ∈ remote, ¬ (r.storeid = last.storeid ∧ r.opcode = last.opcode)

/-- A file or link was changed: its version vector is neither weakly equal to the deleted one nor
below it, or there is no record of its deletion. -/
def FileChanged (rup : RUParm) (name : CString) (f : Fid) (v : Vnode) : Prop :=
  ∀ remote d, rup.remoteLog v.parent = some remote →
    remote.findSome? (deletionVV f name) = some d → d.storeId ≠ v.vv.storeId ∧ ¬ v.vv.Below d

/-- An object was changed. -/
def Changed (rup : RUParm) (name : CString) (f : Fid) : Prop :=
  ∃ v, rup.objects.vnodes f = some v ∧
    if v.isDirectory then DirChanged rup f v else FileChanged rup name f v

/-- A directory that is there, and that another server, whose log of it was shipped, removed. -/
structure Removal where
  rup : RUParm
  record : Rsle
  top : Vnode
  isRemoval : record.opcode = 10 ∨ record.opcode = 137
  named : ¬ (record.u.name1 = dot ∨ record.u.name1 = dotdot)
  present : rup.objects.vnodes record.u.child = some top
  isDirectory : top.isDirectory = true
  parent : (rup.objects.vnodes top.parent).isSome = true
  shipped : (rup.remoteLog record.u.child).isSome = true

section Check

variable {rup : RUParm}

theorem findRemoteLog_eq {d : Fid} {remote : List Rsle} (h : rup.remoteLog d = some remote) :
    findRemoteLog rup d = some (some remote) := by
  unfold RUParm.remoteLog at h
  cases hfind : findRemoteLog rup d with
  | none =>
    rw [hfind] at h
    cases h
  | some log =>
    rw [hfind, join_some] at h
    rw [h]

/-- The test on the directory itself is right. -/
theorem childDirRUConf_eq {d : Fid} {v : Vnode} {remote : List Rsle}
    (h : rup.remoteLog d = some remote) :
    ∃ rc, childDirRUConf rup d v = some rc ∧ (rc ≠ 0 ↔ DirChanged rup d v) := by
  unfold childDirRUConf DirChanged
  rw [findRemoteLog_eq h, h, bind_eq_bind, bind_some]
  cases hlog : v.log with
  | none => exact ⟨0, rfl, by simp⟩
  | some log =>
    cases hlast : log.getLast? with
    | none =>
      rw [List.getLast?_eq_none_iff] at hlast
      exact absurd (hlog.trans (congrArg some hlast)) v.logged
    | some last =>
      dsimp only
      rw [hlast, bind_eq_bind, bind_some]
      split_ifs with hany
      · refine ⟨0, rfl, iff_of_false (by decide) fun hch => ?_⟩
        obtain ⟨_, _, hl, hlast', hmiss⟩ := hch remote rfl
        cases some.inj hl
        cases some.inj (hlast.symm.trans hlast')
        obtain ⟨r, hr, hsame⟩ := List.any_eq_true.mp hany
        exact hmiss r hr (decide_eq_true_iff.mp hsame)
      · refine ⟨1, rfl, iff_of_true (by decide) fun remote' hremote => ?_⟩
        cases some.inj hremote
        refine ⟨log, last, rfl, hlast, fun r hr hsame => hany ?_⟩
        exact List.any_eq_true.mpr ⟨r, hr, decide_eq_true hsame⟩

/-- The enumeration of an empty directory meets `.` and `..` only. -/
theorem runHook_dots (l : List Entry) (hook : Nat → Option Int → Int × Option Int)
    (h : ∀ e ∈ l, hook e.blob (some 0) = (0, some 0)) :
    Dir.runHook hook (l.map Entry.blob) (some 0) = (0, some 0) := by
  induction l with
  | nil => rfl
  | cons e l ih =>
    obtain ⟨he, hl⟩ := List.forall_mem_cons.mp h
    rw [List.map_cons, Dir.runHook, he]
    exact ih hl

/-- `RUConflict` looks at the directory itself and no further. -/
theorem Removal.ruConflict_eq (R : Removal) (k : Nat) :
    ∃ rc, ruConflict R.rup (k + 2) R.record = some rc ∧
      (rc ≠ 0 ↔ DirChanged R.rup R.record.u.child R.top) := by
  obtain ⟨remote, hremote⟩ := isSome_iff_exists.mp R.shipped
  obtain ⟨rc, hchild, hiff⟩ := childDirRUConf_eq hremote
  obtain ⟨pv, hparent⟩ := isSome_iff_exists.mp R.parent
  refine ⟨rc, ?_, hiff⟩
  have hnot : ¬ (R.record.opcode = 4 ∨ R.record.opcode = 131) := by
    rcases R.isRemoval with h | h <;> omega
  have hnew : newDirRUConf R.rup (k + 2) R.record.u.name1 R.record.u.child 0 = some (rc, rc) := by
    rw [newDirRUConf, if_neg (by decide), if_neg R.named, R.present, bind_eq_bind,
      bind_some, hparent, bind_some, if_neg (by rw [R.isDirectory]; decide), hchild,
      bind_eq_bind, bind_some]
    by_cases hrc : rc = 0
    · subst hrc
      rw [R.top.dir.rep.dirIsEmpty_eq, bind_eq_bind, bind_some]
      by_cases hempty : (allEntries R.top.dir.chains).all isDot = true
      · rw [if_pos hempty]
        dsimp only
        rw [R.top.dir.rep.dirEnumerateDir_eq, bind_eq_bind, runHook_dots]
        · rfl
        · intro e he
          have hdot : e.name = dotdot ∨ e.name = dot :=
            decide_eq_true_iff.mp (List.all_eq_true.mp hempty e he)
          rw [R.top.dir.rep.readEntry_name (mem_allEntries.mp he), bind_some, newDirRUConf,
            if_neg (by decide), if_pos hdot.symm]
      · rw [if_neg hempty]
        rfl
    · rw [if_pos hrc]
      rfl
  rw [ruConflict, if_neg hnot, if_pos R.isRemoval, R.present, bind_eq_bind,
    bind_some, hnew]
  rfl

end Check

/-- `RUConflict` tells whether some object of the subtree was changed exactly when the directory
itself was, or nothing below it. -/
theorem ruConflict_iff (R : Removal) (k : Nat) :
    (∃ rc, ruConflict R.rup (k + 2) R.record = some rc ∧
        (rc ≠ 0 ↔ Changed R.rup R.record.u.name1 R.record.u.child ∨
          ∃ name f, Below R.rup.objects R.record.u.child name f ∧ Changed R.rup name f)) ↔
      DirChanged R.rup R.record.u.child R.top ∨
        ∀ name f, Below R.rup.objects R.record.u.child name f → ¬ Changed R.rup name f := by
  obtain ⟨rc, hrun, hiff⟩ := R.ruConflict_eq k
  have htop : Changed R.rup R.record.u.name1 R.record.u.child ↔
      DirChanged R.rup R.record.u.child R.top := by
    unfold Changed
    rw [R.present]
    constructor
    · rintro ⟨v, hv, hch⟩
      cases some.inj hv
      rwa [if_pos R.isDirectory] at hch
    · intro hch
      exact ⟨R.top, rfl, by rwa [if_pos R.isDirectory]⟩
  have hbelow : (∀ name f, Below R.rup.objects R.record.u.child name f → ¬ Changed R.rup name f) ↔
      ¬ ∃ name f, Below R.rup.objects R.record.u.child name f ∧ Changed R.rup name f := by
    push Not
    rfl
  rw [htop, hbelow]
  constructor
  · rintro ⟨rc', hrun', hiff'⟩
    cases some.inj (hrun.symm.trans hrun')
    by_cases hD : DirChanged R.rup R.record.u.child R.top
    · exact .inl hD
    · exact .inr fun hB => hD (hiff.mp (hiff'.mpr (.inr hB)))
  · intro h
    refine ⟨rc, hrun, hiff.trans ⟨.inl, ?_⟩⟩
    rintro (hD | hB)
    · exact hD
    · exact h.resolve_right fun hno => hno hB

/-! ### A change that is missed -/

section Missed

/-- The name `f`. -/
def fileName : CString := ⟨[0x66#8], by decide⟩

/-- A version vector with this count at its first site. -/
def seen (n : Int) (uniquifier : BitVec 32) : VersionVector :=
  ⟨#v[n, 0, 0, 0, 0, 0, 0, 0], ⟨7#32, uniquifier⟩, 0#32⟩

/-- The directory 3.3 of the root, with the file 2.2 in it. -/
def missedVnodes (d : Directory) (f : Fid) : Option Vnode :=
  if f = ⟨1#32, 1#32⟩ then
    some ⟨true, seen 0 0#32, ⟨1#32, 1#32⟩, none, by simp, Directory.blank⟩
  else if f = ⟨3#32, 3#32⟩ then
    some ⟨true, seen 1 1#32, ⟨1#32, 1#32⟩, some [⟨⟨7#32, 1#32⟩, 9⟩], by simp, d⟩
  else if f = ⟨2#32, 2#32⟩ then
    some ⟨false, seen 5 5#32, ⟨3#32, 3#32⟩, none, by simp, Directory.blank⟩
  else none

/-- The log of the directory at the server that removed it: it was made, and the file removed. -/
def missedLog : List Rsle :=
  [⟨2#32, 1, ⟨7#32, 1#32⟩, 9, ⟨⟨0#32, 0#32⟩, seen 0 0#32, fileName, ⟨0#32, 0#32⟩, seen 0 0#32, fileName⟩⟩,
    ⟨2#32, 2, ⟨7#32, 3#32⟩, 4, ⟨⟨2#32, 2#32⟩, seen 1 1#32, fileName, ⟨0#32, 0#32⟩, seen 0 0#32, fileName⟩⟩]

/-- The removal of the directory, as the server logged it in the root. -/
def missedRecord : Rsle :=
  ⟨2#32, 3, ⟨7#32, 4#32⟩, 10,
    ⟨⟨3#32, 3#32⟩, seen 1 1#32, ⟨[0x64#8], by decide⟩, ⟨0#32, 0#32⟩, seen 0 0#32, fileName⟩⟩

/-- The file was updated here since the version that was removed there, and `RUConflict` says that
the directory may go. -/
theorem ruConflict_misses_update :
    ∃ R : Removal, ruConflict R.rup 2 R.record = some 0 ∧
      Below R.rup.objects R.record.u.child fileName ⟨2#32, 2#32⟩ ∧
      Changed R.rup fileName ⟨2#32, 2#32⟩ := by
  obtain ⟨b, P, m, -, -, -, rep⟩ := (Dir.dirHeader_formatted fun _ => 0#8).rep.dirCreate_new
    fileName ⟨2#32, 2#32⟩ (by decide) (by decide) (fun e ⟨_, _, he⟩ => by cases he)
    (by decide)
  let d : Directory := ⟨m, P, _, rep⟩
  have hlive : ∀ e, Live d.chains e ↔ e = ⟨b, fileName, ⟨2#32, 2#32⟩⟩ := by
    intro e
    constructor
    · intro he
      rcases Dir.live_pushEntry.mp he with rfl | ⟨_, _, he⟩
      · rfl
      · cases he
    · rintro rfl
      exact Dir.live_pushEntry.mpr (.inl rfl)
  have hblank : ∀ e, ¬ Live Directory.blank.chains e := fun e ⟨_, _, he⟩ => by cases he
  let objects : Objects := ⟨missedVnodes d, by
    intro f v hv hdir e he _
    unfold missedVnodes at hv
    split_ifs at hv with h₁ h₂ h₃
    · cases hv
      exact absurd he (hblank e)
    · cases hv
      cases (hlive e).mp he
      exact ⟨_, rfl, h₂.symm⟩
    · cases hv
      cases hdir⟩
  let rup : RUParm := ⟨objects, [⟨2#32, [⟨3#32, 3#32, missedLog⟩]⟩], 1#32, 2#32⟩
  have hlog : rup.remoteLog ⟨3#32, 3#32⟩ = some missedLog := rfl
  let R : Removal := ⟨rup, missedRecord, _, .inl rfl, by decide, rfl, rfl, rfl, by
    change (rup.remoteLog ⟨3#32, 3#32⟩).isSome = true
    rfl⟩
  refine ⟨R, ?_, ?_, ?_⟩
  · obtain ⟨rc, hrun, hiff⟩ := R.ruConflict_eq 0
    have hzero : rc = 0 := by
      by_contra hne
      obtain ⟨log, last, hl, hlast, hmiss⟩ := hiff.mp hne missedLog hlog
      cases hl
      cases hlast
      exact hmiss _ List.mem_cons_self ⟨rfl, rfl⟩
    rwa [hzero] at hrun
  · exact Below.child R.present rfl ((hlive _).mpr rfl)
      (decide_eq_false (by decide : ¬ (fileName = dotdot ∨ fileName = dot)))
  · refine ⟨_, rfl, ?_⟩
    intro remote vv hremote hvv
    cases some.inj (hlog.symm.trans hremote)
    have hfound : missedLog.findSome? (deletionVV ⟨2#32, 2#32⟩ fileName) = some (seen 1 1#32) := by
      decide +kernel
    cases some.inj (hfound.symm.trans hvv)
    refine ⟨by decide, fun hbelow => ?_⟩
    have hfirst := hbelow.2.2 0
    exact absurd hfirst (by decide)

end Missed

end Coda.Resolve
