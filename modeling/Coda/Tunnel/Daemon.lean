import Coda.Tunnel.Record

/-!
The tunnel daemon (`codatunnel/codatunneld.c`, `remotedest.c`, `cookie.c`): the table of
registrations, the slots of `destarray`, and every event of its loop that touches a registration.

Worker threads decrypt records and queue them for the loop (`file_async_q`), and send the pump's
chunks. A slot is cleared when its channel has closed and may then be given to another peer, while
queued records and pumps still refer to it. The callbacks of libuv do not check the state of a slot,
and neither do the steps here.

Addresses are compared as values. The slots of the cookie table are a list, in the order of their
registration. A step is `none` where the daemon aborts on an assertion, or where the event is not due.
-/

namespace Coda.Tunnel

/-- A slot of `destarray`. `addr` is `none` in a clear slot; `closing` is set while `uv_close` has not
called back. -/
structure Channel (A : Type*) where
  addr : Option A
  dest : Dest
  closing : Bool
deriving DecidableEq

/-- A registration. `slot` is the channel of its pump, `p->d`. -/
structure Entry (A F : Type*) extends Rec A F where
  slot : Nat

inductive AsyncOp where
  | message (m : Message)
  | failDest
deriving DecidableEq, Repr

/-- `ct_async_req_t`. `origin` is the peer of the channel when the request was queued; it is not in
the code. -/
structure AsyncReq (A : Type*) where
  slot : Nat
  origin : Option A
  op : AsyncOp
deriving DecidableEq

/-- `ct_filereg`, with the length of the packet's body. -/
structure FileReg (A : Type*) where
  bodylen : Nat
  cookie : Nat
  role : Nat
  driver : Bool
  peerlen : Nat
  offset : Nat
  length : Nat
  peer : A

/-- `sizeof(ct_filereg)` and `sizeof(struct sockaddr_storage)`. -/
def sizeofFilereg : Nat := 168
def sizeofPeer : Nat := 128

def FileReg.wellFormed {A : Type*} (reg : FileReg A) : Bool :=
  !(reg.cookie = 0 ∨ reg.bodylen < sizeofFilereg) &&
    !(1 < reg.role ∨ reg.peerlen < 2 ∨ sizeofPeer < reg.peerlen)

/-- `CT_COOKIE_MAX` and `DESTARRAY_SIZE`. -/
def cookieMax : Nat := 256
def destarraySize : Nat := 100

/-- A message that was sent, the slot and the peer of the channel it was sent on, and the peer of the
registration it is about. -/
structure Sent (A : Type*) where
  slot : Nat
  channel : Option A
  peer : A
  message : Message
deriving DecidableEq

/-- The table, and its history: the registrations told apart by serial numbers, what the app was told
of each, those that asked for a cookie that was free, those the app took back, and those whose channel
was freed. -/
structure Ledger (A F : Type*) where
  table : List (Entry A F)
  serials : Nat
  toApp : List (Nat × Report)
  asked : List Nat
  unregistered : List Nat
  orphans : List Nat

structure Daemon (A F : Type*) extends Ledger A F where
  channels : Nat → Channel A
  hilimit : Nat
  queue : List (AsyncReq A)
  files : F → File
  sent : List (Sent A)

/-! ### The table -/

namespace Ledger

variable {A F : Type*}

/-- `ct_cookie_waiter`. -/
def waiter (l : Ledger A F) (cookie : Nat) : Option (Entry A F) :=
  l.table.find? fun e => e.cookie = cookie

/-- The entry of its cookie is set to `e`. -/
def replace (e : Entry A F) (l : Ledger A F) : Ledger A F :=
  { l with table := l.table.map fun e' => if e'.cookie = e.cookie then e else e' }

/-- `ct_cookie_remove`. -/
def remove (cookie : Nat) (l : Ledger A F) : Ledger A F :=
  { l with table := l.table.filter fun e => e.cookie ≠ cookie }

/-- What becomes of the entry `e`. -/
def settle (e : Entry A F) (record : Option (Rec A F)) (l : Ledger A F) : Ledger A F :=
  match record with
  | some r => l.replace { e with toRec := r }
  | none => l.remove e.cookie

/-- `ct_push_filedone` and `ct_push_progress`. -/
def tell (serial : Nat) (reports : List Report) (l : Ledger A F) : Ledger A F :=
  { l with toApp := l.toApp ++ reports.map fun report => (serial, report) }

end Ledger

namespace Daemon

variable {A F : Type*} [DecidableEq A] [DecidableEq F]

def dest (σ : Daemon A F) (slot : Nat) : Dest :=
  (σ.channels slot).dest

def setState (slot : Nat) (state : DestState) (σ : Daemon A F) : Daemon A F :=
  { σ with
    channels := Function.update σ.channels slot
      { σ.channels slot with dest := { σ.dest slot with state } } }

/-- What a handler did for the entry `e`, on the channel in `slot`. -/
def handled (e : Entry A F) (slot : Nat) (h : Handled A F) (σ : Daemon A F) : Daemon A F :=
  let σ' : Daemon A F :=
    { σ with
      toLedger := (σ.toLedger.settle e h.record).tell e.serial h.toApp
      files := Function.update σ.files e.file h.file
      sent := σ.sent ++ h.toPeer.map fun m => ⟨slot, (σ.channels slot).addr, e.peer, m⟩ }
  if h.drop then σ'.setState slot .tlsError else σ'

/-! ### Channels -/

/-- `getdest`. -/
def getdest (σ : Daemon A F) (a : A) : Option Nat :=
  (List.range σ.hilimit).find? fun i =>
    (σ.dest i).state ≠ .free ∧ (σ.channels i).addr = some a

/-- `createdest`, for an address that is in no slot. -/
def createdest (a : A) (σ : Daemon A F) : Option (Nat × Daemon A F) :=
  let slot := ((List.range σ.hilimit).find? fun i => (σ.dest i).state = .free).getD σ.hilimit
  let hilimit := if slot = σ.hilimit then σ.hilimit + 1 else σ.hilimit
  if slot = σ.hilimit ∧ ¬ hilimit < destarraySize then none
  else
    some (slot,
      { σ with
        hilimit
        channels := Function.update σ.channels slot
          ⟨some a, { σ.dest slot with state := .allocated }, false⟩ })

/-- The slot of an address, a new one if need be. -/
def destFor (a : A) (σ : Daemon A F) : Option (Nat × Daemon A F) :=
  match σ.getdest a with
  | some slot => some (slot, σ)
  | none => σ.createdest a

/-- `ct_fail_one`. -/
def failOne (slot : Nat) (σ : Daemon A F) (cookie : Nat) : Daemon A F :=
  match σ.waiter cookie with
  | none => σ
  | some e =>
    if some e.peer = (σ.channels slot).addr then
      σ.handled e slot
        { record := e.toRec.freeNow
          file := σ.files e.file
          toApp := [.fileDone statusTimeout e.toRec.moved]
          toPeer := []
          drop := false }
    else σ

/-- `ct_fail_dest_transfers`. -/
def failDestTransfers (slot : Nat) (σ : Daemon A F) : Daemon A F :=
  (σ.table.map fun e => e.cookie).foldl (failOne slot) σ

/-- The part of `drain_outbound_queues` that concerns pumps. -/
def drainOutboundQueues (slot : Nat) (σ : Daemon A F) : Daemon A F :=
  { σ with
    table := σ.table.map fun e => if e.slot = slot then { e with toRec := e.toRec.drained } else e }

/-- `free_dest`. -/
def freeDest (slot : Nat) (σ : Daemon A F) : Daemon A F :=
  if (σ.dest slot).state = .tcpClosing then σ
  else
    let closing : Daemon A F :=
      { σ with
        channels := Function.update σ.channels slot
          ⟨(σ.channels slot).addr, { σ.dest slot with state := .tcpClosing }, true⟩ }
    let σ' := (closing.drainOutboundQueues slot).failDestTransfers slot
    { σ' with
      orphans := σ'.orphans ++
        (σ.table.filter fun e => some e.peer = (σ.channels slot).addr).map fun e => e.serial }

/-- `_free_dest_cb`. -/
def freeDestCb (slot : Nat) (σ : Daemon A F) : Option (Daemon A F) :=
  if (σ.channels slot).closing then
    some
      { σ with
        channels := Function.update σ.channels slot
          ⟨none, { σ.dest slot with state := .free }, false⟩ }
  else none

/-! ### Registrations -/

/-- `ct_pump_do_start` for a source, and the first request of a sink. -/
def drive (slot : Nat) (io : Io) (e : Entry A F) (σ : Daemon A F) : Option (Daemon A F) :=
  match e.role with
  | .source =>
    match σ.getdest e.peer with
    | some s =>
      (pumpDoStart (σ.dest s) io e.toRec (σ.files e.file)).map (σ.handled { e with slot := s } s)
    | none => (pumpDoStart ⟨.free, 0⟩ io e.toRec (σ.files e.file)).map (σ.handled e slot)
  | .sink => (Tunnel.drive (σ.dest slot) io e.toRec (σ.files e.file)).map (σ.handled e slot)

/-- The record that `ct_filereg_handler` makes. -/
def newEntry (reg : FileReg A) (file : F) (serial : Nat) : Entry A F where
  cookie := reg.cookie
  serial := serial
  file := file
  role := if reg.role = 0 then .source else .sink
  offset := reg.offset
  next := reg.offset
  length := reg.length
  peer := reg.peer
  pump := none
  cancel := false
  isDriver := reg.driver
  slot := 0

/-- `ct_filereg_handler` from the `ct_cookie_add` on. -/
def register (e : Entry A F) (io : Io) (σ : Daemon A F) : Option (Daemon A F) :=
  if (σ.waiter e.cookie).isSome ∨ cookieMax ≤ σ.table.length then some σ
  else
    let σ' : Daemon A F := { σ with table := σ.table ++ [e] }
    if e.isDriver then
      match σ'.getdest e.peer with
      | some slot => if (σ'.dest slot).active then σ'.drive slot io e else some σ'
      | none => some σ'
    else some σ'

/-- `ct_filereg_handler`; `fd` is `none` when no file came with the packet. -/
def fileregHandler (reg : FileReg A) (fd : Option F) (io : Io) (σ : Daemon A F) :
    Option (Daemon A F) :=
  let serial := σ.serials
  let σ₁ : Daemon A F := { σ with serials := serial + 1 }
  if !reg.wellFormed then some σ₁
  else
    let σ₂ : Daemon A F :=
      { σ₁ with asked := if (σ.waiter reg.cookie).isNone then σ.asked ++ [serial] else σ.asked }
    match fd with
    | none => some { σ₂ with toLedger := σ₂.toLedger.tell serial [.fileDone statusIoerr 0] }
    | some file => σ₂.register (newEntry reg file serial) io

/-- `ct_fileunreg_handler`. -/
def fileunregHandler (cookie : Nat) (σ : Daemon A F) : Daemon A F :=
  match σ.waiter cookie with
  | none => σ
  | some e =>
    let σ' : Daemon A F := { σ with unregistered := σ.unregistered ++ [e.serial] }
    { σ' with
      toLedger :=
        σ'.toLedger.settle e (if e.pump.isSome then some { e.toRec with cancel := true } else none) }

/-- `ct_redrive_one`. -/
def redriveOne (slot : Nat) (io : Nat → Io) (σ : Daemon A F) (cookie : Nat) : Option (Daemon A F) :=
  match σ.waiter cookie with
  | none => some σ
  | some e =>
    if e.isDriver && !e.cancel && e.pump.isNone && some e.peer = (σ.channels slot).addr then
      σ.drive slot (io cookie) e
    else some σ

/-- `ct_redrive_cb`. -/
def redriveCb (slot : Nat) (io : Nat → Io) (σ : Daemon A F) : Option (Daemon A F) :=
  (σ.table.map fun e => e.cookie).foldlM (redriveOne slot io) σ

/-! ### Records -/

/-- A message in `file_async_cb`. -/
def messageArrived (slot : Nat) (m : Message) (io : Io) (σ : Daemon A F) : Option (Daemon A F) :=
  match σ.waiter m.cookie with
  | none => some (if m.dropsUnknown then σ.setState slot .tlsError else σ)
  | some e => (arrives (σ.dest slot) m io e.toRec (σ.files e.file)).map (σ.handled e slot)

/-- `file_async_cb`, for the first request of the queue. -/
def fileAsyncCb (io : Io) (σ : Daemon A F) : Option (Daemon A F) :=
  match σ.queue with
  | [] => none
  | r :: rs =>
    match r.op with
    | .message m => { σ with queue := rs }.messageArrived r.slot m io
    | .failDest => some ({ σ with queue := rs }.failDestTransfers r.slot)

/-- `peeloff_and_decrypt` hands a message to the loop. -/
def peeloff (slot : Nat) (m : Message) (σ : Daemon A F) : Option (Daemon A F) :=
  if (σ.dest slot).active then
    some { σ with queue := σ.queue ++ [⟨slot, (σ.channels slot).addr, .message m⟩] }
  else none

/-- A pump's send is taken by a worker thread, or ends. -/
def sendMoves (move : Rec A F → Option (Rec A F)) (cookie : Nat) (σ : Daemon A F) :
    Option (Daemon A F) :=
  match σ.waiter cookie with
  | none => none
  | some e => (move e.toRec).map fun r => { σ with toLedger := σ.toLedger.settle e (some r) }

/-- `ct_pump_arm_cb`, once it was posted. -/
def armCb (cookie : Nat) (io : Io) (σ : Daemon A F) : Option (Daemon A F) :=
  match σ.waiter cookie with
  | none => none
  | some e =>
    match e.pump with
    | none => none
    | some p =>
      if p.hook = .posted then
        (pumpArmCb (σ.dest e.slot) io e.toRec (σ.files e.file) p).map (σ.handled e e.slot)
      else none

end Daemon

/-! ### Runs -/

inductive DaemonAction (A F : Type*) where
  | fileReg (reg : FileReg A) (fd : Option F) (io : Io)
  | fileUnreg (cookie : Nat)
  | peeloff (slot : Nat) (m : Message)
  | fileAsync (io : Io)
  | sendStarts (cookie : Nat)
  | sendEnds (cookie : Nat)
  | armed (cookie : Nat) (io : Io)
  | init0 (a : A)
  | connected (slot : Nat)
  | connectFails (slot : Nat)
  | accepted (a : A)
  | handshakeDone (slot maxDataPayload : Nat)
  | handshakeFails (slot : Nat)
  | redrive (slot : Nat) (io : Nat → Io)
  | tlsError (slot : Nat)
  | freeDest (slot : Nat)
  | freeDestCb (slot : Nat)

namespace Daemon

variable {A F : Type*} [DecidableEq A] [DecidableEq F]

def initial (files : F → File) : Daemon A F where
  table := []
  serials := 0
  toApp := []
  asked := []
  unregistered := []
  orphans := []
  channels _ := ⟨none, ⟨.free, 0⟩, false⟩
  hilimit := 0
  queue := []
  files := files
  sent := []

def step (σ : Daemon A F) : DaemonAction A F → Option (Daemon A F)
  | .fileReg reg fd io => σ.fileregHandler reg fd io
  | .fileUnreg cookie => some (σ.fileunregHandler cookie)
  | .peeloff slot m => σ.peeloff slot m
  | .fileAsync io => σ.fileAsyncCb io
  | .sendStarts cookie => σ.sendMoves Rec.sendStarts cookie
  | .sendEnds cookie => σ.sendMoves Rec.sendEnds cookie
  | .armed cookie io => σ.armCb cookie io
  | .init0 a => (σ.destFor a).map fun (slot, σ') =>
    if (σ'.dest slot).state = .allocated then σ'.setState slot .tcpAttempting else σ'
  | .connected slot => some (σ.setState slot .tlsHandshake)
  | .connectFails slot => some ((σ.setState slot .allocated).failDestTransfers slot)
  | .accepted a => (σ.destFor a).map fun (slot, σ') => σ'.setState slot .tlsHandshake
  | .handshakeDone slot maxDataPayload => some
    { σ with
      channels := Function.update σ.channels slot
        { σ.channels slot with dest := ⟨.tcpActive, maxDataPayload⟩ } }
  | .handshakeFails slot => some
    (if (σ.dest slot).state = .tcpClosing then σ
    else
      let σ' := σ.setState slot .allocated
      { σ' with queue := σ'.queue ++ [⟨slot, (σ.channels slot).addr, .failDest⟩] })
  | .redrive slot io => σ.redriveCb slot io
  | .tlsError slot => some (σ.setState slot .tlsError)
  | .freeDest slot => some (σ.freeDest slot)
  | .freeDestCb slot => σ.freeDestCb slot

end Daemon

end Coda.Tunnel
