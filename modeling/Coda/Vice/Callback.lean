import Coda.Lib.Run

/-!
The callbacks of the file server (`vicecb.cc`): which clients are to be told when a file changes.

A thread runs until it waits for a lock or calls a client, so what lies between is one step.
`BreakCallBack` waits for the lock of the file entry, then for the locks of the clients one by one,
and then until its calls are answered. The other functions do not wait. `qsort` only chooses the
order of the client locks, so a run may take them in any order.

The chains of the hash table are one list here: a fid is always looked for in its own chain, and
new entries go to the head. An entry is known by its address, since a waiting thread has the
address of an entry that may be freed and used again meanwhile; the lock belongs to the address.
-/

namespace Coda.Vice.Callback

open Coda.Lib

structure ViceFid where
  volume : BitVec 32
  vnode : BitVec 32
  unique : BitVec 32
deriving DecidableEq, Repr

/-- `aVCB`: the fid stands for the volume. -/
def ViceFid.isVolume (fid : ViceFid) : Bool := fid.vnode == 0#32 && fid.unique == 0#32

/-- `vFid` of `BreakCallBack`. -/
def ViceFid.vFid (fid : ViceFid) : ViceFid := ⟨fid.volume, 0#32, 0#32⟩

/-- A `HostTable` entry. -/
abbrev Host := Nat

abbrev Tid := Nat

/-- `FileEntry`. A callback entry is its `conn`, which is `none` once it is dead. -/
structure FileEntry where
  addr : Nat
  theFid : ViceFid
  users : Int
  callBacks : List (Option Host)
deriving DecidableEq, Repr

inductive CallBackStatus where
  | noCallBack
  | callBackSet
deriving DecidableEq, Repr

/-- The variables of `vicecb.cc`, and who has the lock of the entry at an address. -/
structure Server where
  hashTable : List FileEntry
  feFree : List Nat
  feBlocks : Nat
  fes : Int
  ves : Int
  cbes : Int
  vcbes : Int
  cblock : Nat → Option Tid

/-- `FESPERBLOCK`. -/
def fesPerBlock : Nat := 219

namespace Server

variable (s : Server)

def findEntry (fid : ViceFid) : Option FileEntry := s.hashTable.find? fun e => e.theFid = fid

/-- The entry that a pointer into the table points to. -/
def entryAt (addr : Nat) : Option FileEntry := s.hashTable.find? fun e => e.addr = addr

def checkLock (addr : Nat) : Bool := (s.cblock addr).isSome

/-- Writing to the entry at an address. -/
def update (addr : Nat) (f : FileEntry → FileEntry) : Server :=
  { s with hashTable := s.hashTable.map fun e => if e.addr = addr then f e else e }

def getFEBlock : Server :=
  { s with
    feFree := List.range' (fesPerBlock * s.feBlocks) fesPerBlock, feBlocks := s.feBlocks + 1 }

def getFE : Nat × Server :=
  let s := if s.feFree = [] then s.getFEBlock else s
  (s.feFree.headD 0, { s with feFree := s.feFree.tail, fes := s.fes + 1 })

def freeFE (e : FileEntry) : Server :=
  { s with
    ves := if e.theFid.isVolume then s.ves - 1 else s.ves
    feFree := e.addr :: s.feFree, fes := s.fes - 1 }

def deleteFileStruct (e : FileEntry) : Server :=
  if s.hashTable.any fun e' => e'.addr = e.addr then
    { s with hashTable := s.hashTable.filter fun e' => e'.addr ≠ e.addr }.freeFE e
  else s

/-- `GetCBE` and `VCBEs++`. -/
def getCBE (fid : ViceFid) : Server :=
  { s with cbes := s.cbes + 1, vcbes := if fid.isVolume then s.vcbes + 1 else s.vcbes }

/-- `FreeCBE` and `VCBEs--`, `n` times. -/
def freeCBEs (n : Nat) (fid : ViceFid) : Server :=
  { s with cbes := s.cbes - n, vcbes := if fid.isVolume then s.vcbes - n else s.vcbes }

/-- The new file entry of `AddCallBack`. -/
def createEntry (fid : ViceFid) : FileEntry × Server :=
  let (addr, s) := s.getFE
  let e := ⟨addr, fid, 0, []⟩
  (e, { s with
    hashTable := e :: s.hashTable, ves := if fid.isVolume then s.ves + 1 else s.ves })

def addCallBack (client : Host) (fid : ViceFid) : CallBackStatus × Server :=
  let (e, s) := match s.findEntry fid with
    | some e => (e, s)
    | none => s.createEntry fid
  if s.checkLock e.addr then (.noCallBack, s)
  else if some client ∈ e.callBacks then (.callBackSet, s)
  else (.callBackSet, (s.getCBE fid).update e.addr fun e =>
    { e with users := e.users + 1, callBacks := some client :: e.callBacks })

/-- The loop of `SDeleteCallBack` over an entry that is not busy. -/
def dropCallBack (client : Host) (e : FileEntry) : FileEntry × Server :=
  if some client ∈ e.callBacks then
    let e' := { e with users := e.users - 1, callBacks := e.callBacks.erase (some client) }
    (e', (s.freeCBEs 1 e.theFid).update e.addr fun _ => e')
  else (e, s)

def sDeleteCallBack (client : Host) (e : FileEntry) : Server :=
  if s.checkLock e.addr then
    s.update e.addr fun e => { e with callBacks := e.callBacks.replace (some client) none }
  else
    let (e', s) := s.dropCallBack client e
    if e'.users ≤ 0 then s.deleteFileStruct e' else s

def deleteCallBack (client : Host) (fid : ViceFid) : Server :=
  match s.findEntry fid with
  | some e => s.sDeleteCallBack client e
  | none => s

/-- One round of `DeleteVenus`. -/
def deleteVenusAt (client : Host) (s : Server) (addr : Nat) : Server :=
  match s.entryAt addr with
  | some e => s.sDeleteCallBack client e
  | none => s

def deleteVenus (client : Host) : Server :=
  (s.hashTable.map (·.addr)).foldl (deleteVenusAt client) s

def deleteFile (fid : ViceFid) : Server :=
  match s.findEntry fid with
  | none => s
  | some e =>
    if s.checkLock e.addr then
      s.update e.addr fun e => { e with callBacks := e.callBacks.map fun _ => none }
    else (s.freeCBEs e.callBacks.length fid).deleteFileStruct e

/-- The end of `BreakCallBack`: nuke all callback entries but that of the client. -/
def nuke (client : Option Host) (e : FileEntry) : Server :=
  let good := e.callBacks.filter fun conn => conn.isSome && conn == client
  let s := s.freeCBEs (e.callBacks.length - good.length) e.theFid
  match good.getLast? with
  | some goodc => s.update e.addr fun e => { e with users := 1, callBacks := [goodc] }
  | none => s.deleteFileStruct e

/-- The clients that hold a callback on a fid. -/
def holders (fid : ViceFid) : List Host :=
  match s.findEntry fid with
  | some e => e.callBacks.reduceOption
  | none => []

end Server

/-! ### Threads -/

inductive Phase where
  /-- Waits for the lock of the file entry. -/
  | obtaining
  /-- Takes the locks of the clients. -/
  | locking
  /-- The break calls are out. -/
  | calling
deriving DecidableEq, Repr

/-- A call of `BreakCallBack`. `helist` are the clients still to be locked, `locked` those that are
locked and have a connection. Not in the code: `held`, the clients other than the exempt one that
held a callback when the entry was obtained, and `since`, how often each client had been cleaned up
by then. -/
structure Break where
  client : Option Host
  fid : ViceFid
  tf : Nat
  phase : Phase
  helist : List Host
  locked : List Host
  held : List Host
  since : Host → Nat

/-- What there is to say of a `BreakCallBack` that has returned after it obtained the entry. -/
structure Return where
  client : Option Host
  held : List Host
  /-- The clients the break was sent to. -/
  sent : List Host
  /-- The clients that were cleaned up since the entry was obtained. -/
  cleaned : List Host
  /-- The clients that hold a callback on the fid now. -/
  holders : List Host
deriving DecidableEq, Repr

/-- Who has the lock of a client. -/
inductive Owner where
  | breaker (t : Tid)
  | other
deriving DecidableEq, Repr

/-- `id` says whether a client has a callback connection, `id ≠ 0`. `cleaned` counts the calls of
`CLIENT_CleanUpHost` for a client. -/
structure World where
  server : Server
  id : Host → Bool
  hostLock : Host → Option Owner
  breaks : Tid → Option Break
  cleaned : Host → Nat
  returned : List Return

namespace World

variable (w : World)

/-- `CLIENT_CleanUpHost`. -/
def cleanUpHost (client : Host) : World :=
  { w with
    server := w.server.deleteVenus client
    id := Function.update w.id client false
    cleaned := Function.update w.cleaned client (w.cleaned client + 1) }

def setBreak (t : Tid) (b : Option Break) : World :=
  { w with breaks := Function.update w.breaks t b }

def setCblock (addr : Nat) (holder : Option Tid) : World :=
  { w with server := { w.server with cblock := Function.update w.server.cblock addr holder } }

def setHostLock (client : Host) (owner : Option Owner) : World :=
  { w with hostLock := Function.update w.hostLock client owner }

/-- What `BreakCallBack` does about a client whose call was answered. -/
def answered (fid : ViceFid) (failed : List Host) (w : World) (client : Host) : World :=
  let w := if fid.isVolume then w else { w with server := w.server.deleteCallBack client fid.vFid }
  let w := if client ∈ failed then w.cleanUpHost client else w
  w.setHostLock client none

/-- `BreakCallBack` from the answers to its end. -/
def finish (t : Tid) (b : Break) (failed : List Host) : World :=
  let w := (b.locked.foldl (answered b.fid failed) w).setCblock b.tf none
  let server := match w.server.entryAt b.tf with
    | some e => w.server.nuke b.client e
    | none => w.server
  let w := { w with server }.setBreak t none
  { w with returned :=
    ⟨b.client, b.held, b.locked, b.held.filter fun client => b.since client < w.cleaned client,
      w.server.holders b.fid⟩ :: w.returned }

/-- `BreakCallBack` between two client locks: when all are taken, the calls go out, if any. -/
def goOn (t : Tid) (b : Break) : World :=
  if b.helist ≠ [] then w.setBreak t (some b)
  else if b.locked ≠ [] then w.setBreak t (some { b with phase := .calling })
  else w.finish t b []

/-- `BreakCallBack` from `ObtainWriteLock(&tf->cblock)` to the first client lock. -/
def obtain (t : Tid) (b : Break) : World :=
  if w.server.checkLock b.tf then w.setBreak t (some b)
  else match w.server.findEntry b.fid with
    | some e =>
      if e.addr = b.tf then
        let helist := (e.callBacks.filter (· ≠ b.client)).reduceOption
        (w.setCblock b.tf (some t)).goOn t
          { b with
            phase := .locking, helist := helist, locked := [], held := helist, since := w.cleaned }
      else w.setBreak t none
    | none => w.setBreak t none

/-- `BreakCallBack` obtains the lock of a client, and rechecks its connection. -/
def lockClient (t : Tid) (b : Break) (k : Nat) : Option World :=
  match b.helist[k]? with
  | none => none
  | some client =>
    if (w.hostLock client).isSome then none
    else if w.id client then
      some ((w.setHostLock client (some (.breaker t))).goOn t
        { b with helist := b.helist.eraseIdx k, locked := client :: b.locked })
    else some (w.goOn t { b with helist := b.helist.eraseIdx k })

end World

/-- What a thread that had the lock of a client has done to its connection. -/
inductive Outcome where
  | keep
  /-- There is a connection: `CLIENT_MakeCallBackConn`. -/
  | bound
  /-- `CLIENT_CleanUpHost`. -/
  | cleanedUp
  /-- `ViceGetTime` unbinds a connection that does not answer, and builds no new one if `DoUnbind`
  is set. -/
  | unbound
deriving DecidableEq, Repr

inductive Event where
  | addCallBack (client : Host) (fid : ViceFid)
  | deleteCallBack (client : Host) (fid : ViceFid)
  | deleteVenus (client : Host)
  | deleteFile (fid : ViceFid)
  /-- A thread calls `BreakCallBack`. -/
  | breakCallBack (t : Tid) (client : Option Host) (fid : ViceFid)
  /-- A thread that waits for a lock runs. -/
  | run (t : Tid) (k : Nat)
  /-- The calls of a thread are answered, and failed for some clients. -/
  | answer (t : Tid) (failed : List Host)
  | lockHost (client : Host)
  | unlockHost (client : Host) (outcome : Outcome)
deriving DecidableEq, Repr

def unlocked (w : World) (client : Host) : Outcome → World
  | .keep => w
  | .bound => { w with id := Function.update w.id client true }
  | .cleanedUp => w.cleanUpHost client
  | .unbound => { w with id := Function.update w.id client false }

def step (w : World) : Event → Option World
  | .addCallBack client fid => some { w with server := (w.server.addCallBack client fid).2 }
  | .deleteCallBack client fid => some { w with server := w.server.deleteCallBack client fid }
  | .deleteVenus client => some { w with server := w.server.deleteVenus client }
  | .deleteFile fid => some { w with server := w.server.deleteFile fid }
  | .breakCallBack t client fid =>
    if (w.breaks t).isSome then none
    else match w.server.findEntry fid with
      | none => some w
      | some e => some (w.obtain t ⟨client, fid, e.addr, .obtaining, [], [], [], fun _ => 0⟩)
  | .run t k =>
    match w.breaks t with
    | none => none
    | some b =>
      match b.phase with
      | .obtaining => some (w.obtain t b)
      | .locking => w.lockClient t b k
      | .calling => none
  | .answer t failed =>
    match w.breaks t with
    | none => none
    | some b => if b.phase = .calling then some (w.finish t b failed) else none
  | .lockHost client =>
    if (w.hostLock client).isSome then none else some (w.setHostLock client (some .other))
  | .unlockHost client outcome =>
    if w.hostLock client = some .other then
      some ((unlocked w client outcome).setHostLock client none)
    else none

/-- The server after `InitCallBack`, when no client has been heard of. -/
def start : World where
  server := ⟨[], [], 0, 0, 0, 0, 0, fun _ => none⟩
  id := fun _ => false
  hostLock := fun _ => none
  breaks := fun _ => none
  cleaned := fun _ => 0
  returned := []

/-! ### The property -/

/-- Every other client was sent the break or cleaned up, and none holds a callback. -/
def Return.Kept (r : Return) : Prop :=
  (∀ client ∈ r.held, client ∈ r.sent ∨ client ∈ r.cleaned) ∧
    ∀ client ∈ r.holders, some client = r.client

instance (r : Return) : Decidable r.Kept := inferInstanceAs (Decidable (_ ∧ _))

/-- What holds at every yield point. -/
structure Safe (w : World) : Prop where
  returned : ∀ r ∈ w.returned, r.Kept
  users : ∀ e ∈ w.server.hashTable, e.users = e.callBacks.length
  fes : w.server.fes = w.server.hashTable.length
  ves : w.server.ves = (w.server.hashTable.filter (·.theFid.isVolume)).length
  cbes : w.server.cbes = (w.server.hashTable.map (·.callBacks.length)).sum
  vcbes : w.server.vcbes =
    ((w.server.hashTable.filter (·.theFid.isVolume)).map (·.callBacks.length)).sum

/-- Callbacks are added only for clients that have a callback connection, and a connection is given
up only by cleaning up the client. -/
def Connected (w : World) : Event → Prop
  | .addCallBack client _ => w.id client = true
  | .unlockHost _ outcome => outcome ≠ .unbound
  | _ => True

instance (w : World) (e : Event) : Decidable (Connected w e) := by
  cases e <;> unfold Connected <;> infer_instance

end Coda.Vice.Callback
