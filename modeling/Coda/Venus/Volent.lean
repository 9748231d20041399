import Coda.Lib.Run

/-!
Entering, leaving and locking a volume (`venusvol.cc`, `vol_reintegrate.cc`, `vol_resolve.cc`).

A thread runs until it waits or calls a server, so what lies between is one step. `Enter` first
deals with a pending demotion and a pending transition, then tests whether the thread may go in,
and waits and tests again until it may; a waiting thread may be woken at any time. The counters are
of type `short`. The lists of the threads that wait and of those that are in the volume, or hold a
lock on it, are not in the code: they are what the counters stand for.

The threads that enter in resolving mode are those of `repvol::Resolve`, which leaves at once if
the volume is no longer in the resolving state.
-/

namespace Coda.Venus.Volent

open Coda.Lib

/-- `VolumeStateType`. -/
inductive VolumeState where
  | reachable
  | unreachable
  | resolving
deriving DecidableEq, Repr

/-- What a thread asks for: `Enter` in one of three modes, or `Lock`. -/
inductive Kind where
  | mutating
  | observing
  | resolving
  | shVolLk
  | exVolLk
deriving DecidableEq, Repr

/-- `uid_t`. -/
abbrev Uid := BitVec 32

def unsetUid : Uid := BitVec.ofInt 32 (-666)

/-- `ASR_UID`. -/
def asrUid : Uid := 0#32

/-- A call of `Enter` or `Lock` by a thread. `asr` says that an ASR was running when the thread was
let in. -/
structure Thread where
  kind : Kind
  uid : Uid
  pgid : BitVec 32
  ndelay : Bool
  asr : Bool
deriving DecidableEq, Repr

/-- `volent` with the fields of `reintvol` and `repvol` that are read here. -/
structure Volume where
  state : VolumeState
  transitionPending : Bool
  demotionPending : Bool
  observerCount : BitVec 16
  mutatorCount : BitVec 16
  resolverCount : BitVec 16
  shrdCount : BitVec 16
  exclCount : BitVec 16
  exclPgid : BitVec 32
  replicated : Bool
  nonReplicated : Bool
  /-- The modify log: its owner, its length, and whether its lock is write locked. -/
  owner : Uid
  cmlCount : Nat
  cmlWriteLocked : Bool
  reintegrating : Bool
  syncReintegrate : Bool
  asrRunning : Bool
  avsgSize : Nat
  resListCount : Nat
deriving DecidableEq, Repr

namespace Volume

def isReadWrite (v : Volume) : Bool := v.replicated || v.nonReplicated

/-- `VOLBUSY`. -/
def busy (v : Volume) : Bool :=
  v.resolverCount != 0#16 || v.mutatorCount != 0#16 || v.observerCount != 0#16

/-- `ResetVolTransients`. -/
def resetVolTransients (v : Volume) : Volume :=
  { v with
    state := .reachable, observerCount := 0#16, mutatorCount := 0#16, shrdCount := 0#16,
    exclCount := 0#16, exclPgid := 0#32, resolverCount := 0#16, transitionPending := true,
    demotionPending := false, asrRunning := false, reintegrating := false, syncReintegrate := false }

/-- The state that `TakeTransition` goes to. -/
def nextState (v : Volume) : VolumeState :=
  if !v.isReadWrite then
    if v.avsgSize = 0 then .unreachable else .reachable
  else if v.replicated then
    if v.avsgSize = 0 then .unreachable
    else if v.resListCount ≠ 0 then .resolving
    else .reachable
  else .reachable

/-- `TakeTransition`, up to the start of a reintegration or resolution. -/
def takeTransition (v : Volume) : Volume :=
  { v with state := v.nextState, transitionPending := false }

end Volume

/-- What comes of a test in `Enter` or `Lock`: the thread waits, goes away with `EWOULDBLOCK`, or
is in; or Venus stops at an assertion or `CHOKE`. -/
inductive Outcome where
  | wait
  | wouldBlock
  | choke
  | entered (v : Volume)
deriving DecidableEq, Repr

section Code

variable (v : Volume) (t : Thread)

/-- Another process group has the volume exclusively. -/
def excluded : Bool := decide (0 < v.exclCount.toInt) && t.pgid != v.exclPgid

/-- `Enter` in mutating mode. -/
def enterMutating : Outcome :=
  let inside := { v with mutatorCount := v.mutatorCount + 1#16, shrdCount := v.shrdCount + 1#16 }
  if excluded v t || v.state == .resolving || (v.isReadWrite && v.cmlWriteLocked) ||
      v.transitionPending then
    if t.ndelay then .wouldBlock else .wait
  else if v.isReadWrite then
    if v.owner = unsetUid then
      if v.mutatorCount ≠ 0#16 ∨ v.cmlCount ≠ 0 ∨ v.reintegrating then .choke
      else .entered { inside with owner := t.uid }
    else if v.owner = t.uid then
      if v.mutatorCount = 0#16 ∧ v.cmlCount = 0 ∧ !v.reintegrating then .choke
      else .entered inside
    else if v.asrRunning ∧ t.uid = asrUid then .entered inside
    else if t.ndelay then .wouldBlock
    else .wait
  else .entered inside

/-- `Enter` in observing mode. -/
def enterObserving : Outcome :=
  if excluded v t || v.state == .resolving || v.transitionPending then
    if t.ndelay then .wouldBlock else .wait
  else .entered
    { v with observerCount := v.observerCount + 1#16, shrdCount := v.shrdCount + 1#16 }

/-- `Enter` in resolving mode. -/
def enterResolving : Outcome :=
  if !v.replicated then .choke
  else if v.busy || v.transitionPending || decide (0 < v.shrdCount.toInt) || excluded v t then .wait
  else .entered
    { v with
      exclPgid := t.pgid, exclCount := v.exclCount + 1#16,
      resolverCount := v.resolverCount + 1#16 }

/-- `Lock` with `SH_VOL_LK`. -/
def lockShared : Outcome :=
  if excluded v t then .wait else .entered { v with shrdCount := v.shrdCount + 1#16 }

/-- `Lock` with `EX_VOL_LK`. -/
def lockExclusive : Outcome :=
  if decide (0 < v.shrdCount.toInt) || excluded v t then .wait
  else .entered { v with exclCount := v.exclCount + 1#16, exclPgid := t.pgid }

/-- The test of a thread. -/
def test : Outcome :=
  match t.kind with
  | .mutating => enterMutating v t
  | .observing => enterObserving v t
  | .resolving => enterResolving v t
  | .shVolLk => lockShared v t
  | .exVolLk => lockExclusive v t

/-- Steps 1 and 2 of `Enter`. -/
def prologue : Volume :=
  let v := { v with demotionPending := false }
  if v.transitionPending && !v.busy then v.takeTransition else v

/-- Step 2 of `Exit`, for a mutator: the last one gives up the log if it is empty. -/
def exitMutating : Option Volume :=
  if v.state = .resolving ∨ v.mutatorCount.toInt ≤ 0 then none
  else
    let v := { v with mutatorCount := v.mutatorCount - 1#16, shrdCount := v.shrdCount - 1#16 }
    if v.isReadWrite ∧ v.mutatorCount = 0#16 ∧ v.cmlCount = 0 ∧ !v.reintegrating then
      some { v with
        transitionPending := v.transitionPending || v.state == .unreachable, owner := unsetUid }
    else some v

def exitObserving : Option Volume :=
  if v.state = .resolving ∨ v.observerCount.toInt ≤ 0 then none
  else some { v with observerCount := v.observerCount - 1#16, shrdCount := v.shrdCount - 1#16 }

/-- The key is reset when nothing is held exclusively. -/
def dropExclusive : Volume :=
  let v := { v with exclCount := v.exclCount - 1#16 }
  if v.exclCount = 0#16 then { v with exclPgid := 0#32 } else v

def exitResolving : Option Volume :=
  if !v.replicated ∨ v.state ≠ .resolving ∨ v.resolverCount = 0#16 ∨ !v.transitionPending then none
  else some (dropExclusive { v with resolverCount := v.resolverCount - 1#16 })

/-- Step 3 of `Exit`. -/
def exitTransition : Volume :=
  if v.transitionPending && !v.busy then v.takeTransition else v

/-- `UnLock`. -/
def unLock (l : Kind) : Option Volume :=
  if v.exclCount.toInt < 0 ∨ v.shrdCount.toInt < 0 then none
  else if l = .exVolLk then some (dropExclusive v)
  else
    let v := { v with shrdCount := v.shrdCount - 1#16 }
    some (if v.exclCount = 0#16 then { v with exclPgid := 0#32 } else v)

/-- `Exit` or `UnLock`, as the thread has entered or locked. `Resolve` sets the pending transition
before it leaves. -/
def leave (kind : Kind) : Option Volume :=
  let w := { v with demotionPending := false }
  match kind with
  | .mutating => (exitMutating w).map exitTransition
  | .observing => (exitObserving w).map exitTransition
  | .resolving => (exitResolving { w with transitionPending := true }).map exitTransition
  | .shVolLk => unLock v .shVolLk
  | .exVolLk => unLock v .exVolLk

/-- `repvol::UpMember`. -/
def upMember : Volume :=
  { v with
    avsgSize := v.avsgSize + 1, demotionPending := true,
    transitionPending := v.transitionPending || v.avsgSize + 1 == 1 }

/-- `repvol::DownMember`. -/
def downMember : Volume :=
  { v with
    avsgSize := v.avsgSize - 1, transitionPending := v.transitionPending || v.avsgSize - 1 == 0 }

/-- The end of `Reintegrate`. -/
def reintegrated : Volume :=
  let v := { v with reintegrating := false, syncReintegrate := false }
  if v.cmlCount = 0 ∧ v.mutatorCount = 0#16 then { v with owner := unsetUid } else v

end Code

/-! ### Runs -/

structure World where
  volume : Volume
  waiting : List Thread
  inside : List Thread
deriving DecidableEq, Repr

inductive Event where
  /-- A thread calls `Enter` or `Lock`. -/
  | call (t : Thread)
  /-- A waiting thread is the next to run. -/
  | look (k : Nat)
  /-- A waiting thread was interrupted. -/
  | interrupt (k : Nat)
  /-- A thread calls `Exit` or `UnLock`. -/
  | leave (k : Nat)
  /-- A thread in step 2 of `Enter` or in `SyncCache` takes the pending transition. -/
  | transition
  | upMember
  | downMember
  /-- A transition is asked for, with this many objects to resolve. -/
  | request (resListCount : Nat)
  /-- The modify log gets another length. -/
  | logged (cmlCount : Nat)
  /-- A checkpointer has or does not have the lock of the modify log. -/
  | checkpoint (locked : Bool)
  | asr (running : Bool)
  /-- `Reintegrate` sets its flag. -/
  | reintegrate (sync : Bool)
  | reintegrated
deriving DecidableEq, Repr

/-- A waiting thread runs. A resolver that is let in goes on to `Exit` at once if the volume is
not in the resolving state. -/
def look (w : World) (k : Nat) (t : Thread) : Option World :=
  match test w.volume t with
  | .wait => some w
  | .wouldBlock => some { w with waiting := w.waiting.eraseIdx k }
  | .choke => none
  | .entered v =>
    let waiting := w.waiting.eraseIdx k
    if t.kind = .resolving ∧ v.state ≠ .resolving then
      (leave v .resolving).map fun v => ⟨v, waiting, w.inside⟩
    else some ⟨v, waiting, { t with asr := w.volume.asrRunning } :: w.inside⟩

def step (w : World) : Event → Option World
  | .call t =>
    match t.kind with
    | .mutating | .observing | .resolving =>
      some { w with volume := prologue w.volume, waiting := t :: w.waiting }
    | .shVolLk | .exVolLk => some { w with waiting := t :: w.waiting }
  | .look k =>
    match w.waiting[k]? with
    | none => none
    | some t => look w k t
  | .interrupt k => some { w with waiting := w.waiting.eraseIdx k }
  | .leave k =>
    match w.inside[k]? with
    | none => none
    | some t => (leave w.volume t.kind).map fun v => { w with volume := v, inside := w.inside.eraseIdx k }
  | .transition =>
    if w.volume.transitionPending && !w.volume.busy then
      some { w with volume := w.volume.takeTransition }
    else none
  | .upMember => some { w with volume := upMember w.volume }
  | .downMember => some { w with volume := downMember w.volume }
  | .request n =>
    some { w with volume := { w.volume with resListCount := n, transitionPending := true } }
  | .logged n => some { w with volume := { w.volume with cmlCount := n } }
  | .checkpoint b => some { w with volume := { w.volume with cmlWriteLocked := b } }
  | .asr b => some { w with volume := { w.volume with asrRunning := b } }
  | .reintegrate b =>
    some { w with volume := { w.volume with reintegrating := true, syncReintegrate := b } }
  | .reintegrated => some { w with volume := reintegrated w.volume }

/-- Venus starts with whatever the recoverable fields of the volume are. -/
def start (v : Volume) : World := ⟨v.resetVolTransients, [], []⟩

/-! ### The property -/

/-- The number of threads of a kind. -/
def cnt (kind : Kind) (l : List Thread) : Nat := l.countP fun t => t.kind = kind

def World.count (w : World) (kind : Kind) : Nat := cnt kind w.inside

/-- What holds between two steps. -/
structure Safe (w : World) : Prop where
  exclusive : ∀ r ∈ w.inside, r.kind = .resolving →
    ∀ t ∈ w.inside, t.kind ≠ .mutating ∧ t.kind ≠ .observing
  shared : w.volume.shrdCount.toInt = w.count .mutating + w.count .observing + w.count .shVolLk
  exclusively : w.volume.exclCount.toInt = w.count .resolving + w.count .exVolLk
  group : ∀ t ∈ w.inside, t.kind = .resolving ∨ t.kind = .exVolLk → t.pgid = w.volume.exclPgid
  owner : w.volume.isReadWrite = true → ∀ t ∈ w.inside, t.kind = .mutating →
    t.uid = w.volume.owner ∨ (t.uid = asrUid ∧ t.asr = true)

end Coda.Venus.Volent
