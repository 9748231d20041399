import Coda.Lib.Run

/-!
The two ends of an RPC2 connection (`rpc2-src/sl.c`, `rpc2a.c`, `packet.c`, `multi1.c`) after the
bind, when both ends hold the same sequence number.

A thread of either side runs until it waits, and so does the socket listener: what happens between
two waits is one event. The network is the history of what was sent; a packet of it arrives any
number of times, at any time, or never. The bodies of the packets are left open: a request carries
the number of the call it was made for, and a reply the number of the call that the worker which
produced it was given.

`S_INSE` is not told from `S_PROCESS`, which handles packets alike. Time stamps, retry intervals and
the retry limit are left open: an event says what they came to.
-/

namespace Coda.Rpc2

open Coda.Lib

structure Request where
  seqNumber : BitVec 32
  call : Nat
deriving DecidableEq, Repr

structure Reply where
  seqNumber : BitVec 32
  call : Nat
deriving DecidableEq, Repr

/-- `C_THINK`, `C_AWAITREPLY` and `C_HARDERROR`. -/
inductive ClientState where
  | think
  | awaitReply
  | hardError
deriving DecidableEq, Repr

/-- `S_AWAITREQUEST`, `S_REQINQUEUE`, `S_PROCESS` and `S_HARDERROR`. -/
inductive ServerState where
  | awaitRequest
  | reqInQueue
  | process
  | hardError
deriving DecidableEq, Repr

/-- The `ReturnCode` of an `SL_Entry`. -/
inductive ReturnCode where
  | waiting
  | keptAlive
  | timeout
  | naked
  | arrived
deriving DecidableEq, Repr

/-- The `SL_Entry` of a call, with the packet that is sent for it. `multi` tells the calls of
`RPC2_MultiRPC`, whose entries are `pending` until the connection is done with. -/
structure SlEntry where
  returnCode : ReturnCode
  request : Request
  multi : Bool
  pending : Bool
deriving DecidableEq, Repr

/-- The client's `CEntry`; a call's entry is found under its number. -/
structure Client where
  state : ClientState
  nextSeqNumber : BitVec 32
  mySl : Option Nat
  entries : Nat → Option SlEntry

/-- The types of the server's `MySl`. -/
inductive SlType where
  | reply
  | delack
deriving DecidableEq, Repr

/-- The server's `CEntry`, the request that is held for it, and the call its worker was given. -/
structure Server where
  state : ServerState
  nextSeqNumber : BitVec 32
  mySl : Option SlType
  heldPacket : Option Reply
  holdQueue : Option Request
  worker : Option Nat
deriving DecidableEq, Repr

/-- Both ends, what was sent, and what came of it: how many calls were made, which of them were
handed to a server thread, in that order, and for which call which reply was accepted. -/
structure Connection where
  client : Client
  server : Server
  requests : List Request
  replies : List Reply
  busies : List (BitVec 32)
  nakSent : Bool
  calls : Nat
  handed : List Nat
  accepted : List (Nat × Nat)

/-- A connection that has just been bound and enabled. -/
def bound (start : BitVec 32) : Connection where
  client := ⟨.think, start, none, fun _ => none⟩
  server := ⟨.awaitRequest, start, none, none, none, none⟩
  requests := []
  replies := []
  busies := []
  nakSent := false
  calls := 0
  handed := []
  accepted := []

/-! ### The client -/

section Client

/-- `rpc2_FreeSle`: the connection forgets its entry, whichever entry is freed. -/
def Client.freeSle (id : Nat) (c : Client) : Client :=
  { c with mySl := none, entries := Function.update c.entries id none }

def Client.setEntry (id : Nat) (e : SlEntry) (c : Client) : Client :=
  { c with entries := Function.update c.entries id (some e) }

theorem Client.freeSle_entries (id i : Nat) (c : Client) :
    (c.freeSle id).entries i = if i = id then none else c.entries i :=
  Function.update_apply ..

theorem Client.setEntry_entries (id i : Nat) (e : SlEntry) (c : Client) :
    (c.setEntry id e).entries i = if i = id then some e else c.entries i :=
  Function.update_apply ..

/-- `rpc2_IncrementSeqNumber`. -/
def incrementSeqNumber (n : BitVec 32) : BitVec 32 :=
  n + 2

/-- The number is advanced and the connection is free for the next call. -/
def Client.think (c : Client) : Client :=
  { c with state := .think, nextSeqNumber := incrementSeqNumber c.nextSeqNumber }

/-- `rpc2_SetConnError`. -/
def Client.setConnError (c : Client) : Client :=
  { c with state := .hardError }

/-- `BogusSl`, with the entry that is found where it passes. -/
def Client.listening (c : Client) : Option (Nat × SlEntry) :=
  match c.mySl with
  | none => none
  | some id =>
    match c.entries id with
    | none => none
    | some e => if e.returnCode = .waiting ∨ e.returnCode = .keptAlive then some (id, e) else none

/-- A call is made, by `RPC2_MakeRPC` from `SetState` on, or by `SetupPackets` and the first round
of `mrpc_SendPacketsReliably`. -/
def Connection.startCall (multi : Bool) (k : Connection) : Connection :=
  let request : Request := ⟨k.client.nextSeqNumber, k.calls⟩
  { k with
    client :=
      { k.client with
        state := .awaitReply
        mySl := some k.calls
        entries := Function.update k.client.entries k.calls (some ⟨.waiting, request, multi, true⟩) }
    requests := request :: k.requests
    calls := k.calls + 1 }

theorem Connection.startCall_entries (multi : Bool) (i : Nat) (k : Connection) :
    (k.startCall multi).client.entries i =
      if i = k.calls then some ⟨.waiting, ⟨k.client.nextSeqNumber, k.calls⟩, multi, true⟩
      else k.client.entries i :=
  Function.update_apply ..

/-- `RPC2_MakeRPC`. A thread that finds the connection busy is refused or tries again later. -/
def Connection.makeRpc (k : Connection) : Connection :=
  if k.client.state = .think then k.startCall false else k

/-- `DecodePacket` for `RPC2_REPLY`, and `HandleCurrentReply`. -/
def Connection.replyArrives (r : Reply) (k : Connection) : Connection :=
  if k.client.state ≠ .awaitReply then k
  else if k.client.nextSeqNumber ≠ r.seqNumber - 1 then k
  else
    match k.client.listening with
    | none => k
    | some (id, e) =>
      { k with
        client := (k.client.setEntry id { e with returnCode := .arrived }).think
        accepted := (id, r.call) :: k.accepted }

/-- `DecodePacket` for `RPC2_BUSY`, and `HandleBusy`. -/
def Connection.busyArrives (seqNumber : BitVec 32) (k : Connection) : Connection :=
  if k.client.state ≠ .awaitReply then k
  else if k.client.nextSeqNumber ≠ seqNumber - 1 then k
  else
    match k.client.listening with
    | none => k
    | some (id, e) => { k with client := k.client.setEntry id { e with returnCode := .keptAlive } }

/-- `HandleSLPacket`, and whether it signals the connection. -/
def Connection.nakArrives (k : Connection) : Connection × Bool :=
  if k.client.state ≠ .awaitReply then (k, false)
  else
    match k.client.listening with
    | none => (k, false)
    | some (id, e) =>
      ({ k with client := (k.client.setEntry id { e with returnCode := .naked }).setConnError }, true)

/-- `rpc2_ExpireEvents`, for the retry timer of a call, which runs while the call waits. -/
def Connection.expires (id : Nat) (k : Connection) : Option Connection :=
  match k.client.entries id with
  | none => none
  | some e =>
    if e.returnCode = .waiting then
      some { k with client := k.client.setEntry id { e with returnCode := .timeout } }
    else none

/-- What `rpc2_CancelRetry` and `rpc2_RetryInterval` come to: the packet is sent again, or not since
the side effect was heard of, or there are no retries left. -/
inductive Retry where
  | resend
  | quiet
  | exhausted
deriving DecidableEq, Repr

/-- The call waits on; the packet is sent again unless the server was heard. -/
def Connection.waitOn (id : Nat) (e : SlEntry) (retry : Retry) (k : Connection) : Connection :=
  { k with
    client := k.client.setEntry id { e with returnCode := .waiting }
    requests := if e.returnCode = .timeout ∧ retry = .resend then e.request :: k.requests else k.requests }

/-- `rpc2_SendReliably` after `LWP_WaitProcess`, and the rest of `RPC2_MakeRPC`; `timeBomb` says that
the time for the whole call is over. The flag is whether the connection is signalled. -/
def Connection.woken (id : Nat) (timeBomb : Bool) (retry : Retry) (k : Connection) :
    Option (Connection × Bool) :=
  match k.client.entries id with
  | none => none
  | some e =>
    if e.multi ∨ e.returnCode = .waiting then none
    -- also when the reply has come in the meantime
    else if timeBomb then some ({ k with client := k.client.think.freeSle id }, true)
    else
      match e.returnCode with
      | .waiting => none
      | .arrived => some ({ k with client := k.client.freeSle id }, true)
      | .naked => some ({ k with client := (k.client.freeSle id).setConnError }, true)
      | .timeout =>
        if retry = .exhausted then
          some ({ k with client := (k.client.freeSle id).setConnError }, true)
        else some (k.waitOn id e retry, false)
      | .keptAlive =>
        -- `assert(FALSE)`
        if retry = .exhausted then none else some (k.waitOn id e retry, false)

/-- What `mrpc_SendPacketsReliably` does with one of its connections after `LWP_MwaitProcess`. -/
def Connection.multiWoken (id : Nat) (retry : Retry) (k : Connection) : Option (Connection × Bool) :=
  match k.client.entries id with
  | none => none
  | some e =>
    if e.multi && e.pending then
      match e.returnCode with
      | .waiting => some (k, false)
      | .arrived => some ({ k with client := k.client.setEntry id { e with pending := false } }, false)
      | .naked =>
        some ({ k with client := (k.client.setEntry id { e with pending := false }).setConnError }, true)
      | .timeout | .keptAlive =>
        if retry = .exhausted then
          some ({ k with client := (k.client.setEntry id { e with pending := false }).setConnError },
            true)
        else some (k.waitOn id e retry, false)
    else none

/-- `MSend_Cleanup` for a connection that is still pending, whatever has happened on it. -/
def Connection.multiCleanup (id : Nat) (k : Connection) : Option Connection :=
  match k.client.entries id with
  | none => none
  | some e =>
    if e.multi && e.pending then
      some { k with client := (k.client.setEntry id { e with pending := false }).think }
    else none

/-- `FreeMultiCon` for a connection. -/
def Connection.freeMultiCon (id : Nat) (k : Connection) : Option Connection :=
  match k.client.entries id with
  | none => none
  | some e =>
    if e.multi && !e.pending then some { k with client := k.client.freeSle id } else none

end Client

/-! ### The server -/

section Server

/-- `SendBusy`. -/
def Connection.sendBusy (k : Connection) : Connection :=
  { k with busies := (k.server.nextSeqNumber - 1) :: k.busies }

/-- `FreeHeld`. -/
def Server.freeHeld (s : Server) : Server :=
  { s with heldPacket := none, mySl := none }

/-- A request comes to a server thread. -/
def Connection.handOver (r : Request) (k : Connection) : Connection :=
  { k with
    server := { k.server with state := .process, worker := some r.call }
    handed := k.handed ++ [r.call] }

/-- `HandleNewRequest` up to `FindRecipient`. -/
def Server.newRequest (s : Server) : Server :=
  let s := if s.mySl.isSome then s.freeHeld else s
  { s with nextSeqNumber := incrementSeqNumber s.nextSeqNumber, mySl := some .delack }

/-- `HandleNewRequest`; `recipient` says that a thread waits for such a request. -/
def Connection.handleNewRequest (recipient : Bool) (r : Request) (k : Connection) : Connection :=
  let k := { k with server := k.server.newRequest }
  if recipient then k.handOver r
  else { k with server := { k.server with state := .reqInQueue, holdQueue := some r } }

/-- `HandleOldRequest`. -/
def Connection.handleOldRequest (k : Connection) : Connection :=
  match k.server.heldPacket with
  | none => k
  | some reply => { k with replies := reply :: k.replies }

/-- What `DecodePacket` does with a request that is neither the next nor the last one. -/
def Connection.outOfOrder (r : Request) (k : Connection) : Connection :=
  if k.server.nextSeqNumber + 2 < r.seqNumber ∧ r.seqNumber &&& 1 = 0 then { k with nakSent := true }
  else k

/-- `DecodePacket` for a request, after `FindOrNak`. -/
def Connection.requestArrives (recipient : Bool) (r : Request) (k : Connection) : Connection :=
  match k.server.state with
  | .hardError => { k with nakSent := true }
  | .awaitRequest =>
    if k.server.nextSeqNumber = r.seqNumber then k.handleNewRequest recipient r
    else if k.server.nextSeqNumber = r.seqNumber + 2 then k.handleOldRequest
    else k.outOfOrder r
  | .process | .reqInQueue =>
    if k.server.nextSeqNumber = r.seqNumber + 2 then k.sendBusy
    else k.outOfOrder r

/-- `RPC2_GetRequest`, for a request that was held. `HeldReq` does not look at the state. -/
def Connection.getRequest (k : Connection) : Option Connection :=
  match k.server.holdQueue with
  | some r => some ({ k with server := { k.server with holdQueue := none } }.handOver r)
  | none => none

/-- `RPC2_SendResponse` and `SavePacketForRetry`; without a reply the connection only becomes
free. -/
def Connection.sendResponse (withReply : Bool) (k : Connection) : Option Connection :=
  match k.server.state, k.server.worker with
  | .process, some call =>
    let server := { k.server with state := .awaitRequest, worker := none }
    if withReply then
      let reply : Reply := ⟨k.server.nextSeqNumber - 1, call⟩
      some { k with
        server := { server with mySl := some .reply, heldPacket := some reply }
        replies := reply :: k.replies }
    else some { k with server }
  | _, _ => none

/-- `rpc2_ExpireEvents`, for the server's entry: `DelayedAck` or `FreeHeld`. -/
def Connection.serverExpires (k : Connection) : Option Connection :=
  match k.server.mySl with
  | none => none
  | some .delack => some { k.sendBusy with server := { k.server with mySl := none } }
  | some .reply => some { k with server := k.server.freeHeld }

/-- `rpc2_SetConnError` on the server's side, after an error of the side effect. -/
def Connection.serverError (k : Connection) : Connection :=
  { k with server := { k.server with state := .hardError } }

end Server

/-! ### Events -/

/-- What happens on a connection once calls are made. -/
inductive Event where
  | request (r : Request) (recipient : Bool)
  | reply (r : Reply)
  | busy (seqNumber : BitVec 32)
  | nak
  | expires (call : Nat)
  | woken (call : Nat) (timeBomb : Bool) (retry : Retry)
  | multiWoken (call : Nat) (retry : Retry)
  | multiCleanup (call : Nat)
  | freeMultiCon (call : Nat)
  | getRequest
  | sendResponse (withReply : Bool)
  | serverExpires
  | serverError
deriving DecidableEq, Repr

/-- One event, and whether it signals the client's connection. Only what was sent arrives. -/
def Connection.step (k : Connection) : Event → Option (Connection × Bool)
  | .request r recipient => if r ∈ k.requests then some (k.requestArrives recipient r, false) else none
  | .reply r => if r ∈ k.replies then some (k.replyArrives r, false) else none
  | .busy seqNumber => if seqNumber ∈ k.busies then some (k.busyArrives seqNumber, false) else none
  | .nak => if k.nakSent then some k.nakArrives else none
  | .expires id => (k.expires id).map fun k => (k, false)
  | .woken id timeBomb retry => k.woken id timeBomb retry
  | .multiWoken id retry => k.multiWoken id retry
  | .multiCleanup id => (k.multiCleanup id).map fun k => (k, false)
  | .freeMultiCon id => (k.freeMultiCon id).map fun k => (k, true)
  | .getRequest => k.getRequest.map fun k => (k, false)
  | .sendResponse withReply => (k.sendResponse withReply).map fun k => (k, false)
  | .serverExpires => k.serverExpires.map fun k => (k, false)
  | .serverError => some (k.serverError, false)

/-- What a connection promises: calls are handed over in the order they were made and at most once,
and a reply is accepted at most once, by the call for which the server produced it. -/
structure Exact (k : Connection) : Prop where
  handed : k.handed.Pairwise (· < ·)
  made : ∀ call ∈ k.handed, call < k.calls
  genuine : ∀ a ∈ k.accepted, a.1 = a.2 ∧ a.2 ∈ k.handed
  once : (k.accepted.map Prod.fst).Nodup

end Coda.Rpc2
