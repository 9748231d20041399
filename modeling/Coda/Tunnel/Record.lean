import Mathlib

/-!
File transfers of the tunnel daemon (`codatunnel/codatunneld.c`), one registration at a time.

The app hands the daemon an open file with a cookie, a role and a peer. A driver source sends its
file to the peer's channel chunk by chunk (the pump), each chunk when the one before has gone out; a
driver sink asks for each chunk. A handler says what an event does to one record.

The results of `pread` and `pwrite` are the environment's. Offsets are unsigned 64-bit numbers. A
handler is `none` where `send_to_tcp_dest` asserts that the channel is active and it is not. Memory
allocation succeeds.
-/

namespace Coda.Tunnel

open List

/-! ### Files -/

/-- The contents of a file. -/
structure File where
  size : Nat
  byte : Nat → UInt8

/-- At most `count` bytes from `offset` on. -/
def File.read (f : File) (offset count : Nat) : List UInt8 :=
  (List.range (min count (f.size - offset))).map fun i => f.byte (offset + i)

def File.write (f : File) (offset : Nat) (bytes : List UInt8) : File where
  size := if bytes = [] then f.size else max f.size (offset + bytes.length)
  byte i := if offset ≤ i ∧ i < offset + bytes.length then bytes.getD (i - offset) 0 else f.byte i

theorem File.length_read (f : File) (offset count : Nat) :
    (f.read offset count).length = min count (f.size - offset) := by
  rw [read, length_map, length_range]

variable {offset i : Nat} {bytes : List UInt8}

theorem File.getD_read (f : File) {count : Nat} (h : i < (f.read offset count).length) :
    (f.read offset count).getD i 0 = f.byte (offset + i) := by
  rw [getD_eq_getElem _ _ h]
  simp only [read, getElem_map, getElem_range]

theorem File.read_length (f : File) (offset count : Nat) :
    f.read offset (f.read offset count).length = f.read offset count := by
  rw [read, read, length_map, length_range, Nat.min_assoc, Nat.min_self]

theorem File.write_byte_of_mem (f : File) (low : offset ≤ i) (high : i < offset + bytes.length) :
    (f.write offset bytes).byte i = bytes.getD (i - offset) 0 :=
  if_pos ⟨low, high⟩

theorem File.write_byte_of_lt (f : File) (bytes : List UInt8) (h : i < offset) :
    (f.write offset bytes).byte i = f.byte i :=
  if_neg fun hmem => Nat.not_le_of_lt h hmem.1

theorem File.size_le_write (f : File) (offset : Nat) (bytes : List UInt8) :
    f.size ≤ (f.write offset bytes).size := by
  unfold write
  split
  · exact Nat.le_refl _
  · exact Nat.le_max_left _ _

theorem File.stop_le_write (f : File) (low : offset ≤ i) (h : i < offset + bytes.length) :
    i < (f.write offset bytes).size := by
  unfold write
  split
  · next hempty =>
    rw [hempty, length_nil] at h
    exact absurd h (Nat.not_lt_of_le low)
  · exact Nat.lt_of_lt_of_le h (Nat.le_max_right _ _)

inductive Errno where
  | enoent
  | enotdir
  | eacces
  | eperm
  | enospc
  | edquot
  | other
deriving DecidableEq, Repr

/-- How `pread` or `pwrite` ends: with an error, or with at most so many bytes moved. -/
inductive Io where
  | fail (errno : Errno)
  | upTo (count : Nat)
deriving DecidableEq, Repr

def pread (f : File) (want offset : Nat) : Io → Except Errno (List UInt8)
  | .fail errno => .error errno
  | .upTo count => .ok (f.read offset (min count want))

/-- The file afterwards, and how many bytes were written. -/
def pwrite (f : File) (bytes : List UInt8) (offset : Nat) : Io → Except Errno (File × Nat)
  | .fail errno => .error errno
  | .upTo count => .ok (f.write offset (bytes.take count), min count bytes.length)

/-! ### Records and messages -/

def statusSuccess : BitVec 32 := 0
def statusNoent : BitVec 32 := 1
def statusAcces : BitVec 32 := 2
def statusNospc : BitVec 32 := 3
def statusIoerr : BitVec 32 := 4
def statusTimeout : BitVec 32 := 5

/-- `ct_errno_to_status`. -/
def errnoToStatus : Errno → BitVec 32
  | .enoent | .enotdir => statusNoent
  | .eacces | .eperm => statusAcces
  | .enospc | .edquot => statusNospc
  | .other => statusIoerr

theorem errnoToStatus_ne_success (errno : Errno) : errnoToStatus errno ≠ statusSuccess := by
  cases errno <;> decide

/-- Sums and differences of `uint64_t`. -/
def add64 (a b : Nat) : Nat :=
  (a + b) % 2 ^ 64

def sub64 (a b : Nat) : Nat :=
  (a + 2 ^ 64 - b) % 2 ^ 64

theorem add64_of_lt {a b : Nat} (h : a + b < 2 ^ 64) : add64 a b = a + b :=
  Nat.mod_eq_of_lt h

theorem sub64_of_le {a b : Nat} (hb : b ≤ a) (ha : a < 2 ^ 64) : sub64 a b = a - b := by
  rw [sub64, show a + 2 ^ 64 - b = a - b + 2 ^ 64 by omega, Nat.add_mod_right]
  exact Nat.mod_eq_of_lt (by omega)

/-- `CT_CHUNKMAX`: a TLS record without the headers of 152 and 16 bytes. -/
def chunkMax : Nat :=
  16384 - 152 - 16

/-- `enum deststate`. -/
inductive DestState where
  | free
  | allocated
  | tcpAttempting
  | tlsHandshake
  | tcpActive
  | tlsError
  | tcpClosing
deriving DecidableEq, Repr

/-- A channel, with the largest payload its TLS session carries. -/
structure Dest where
  state : DestState
  maxDataPayload : Nat
deriving DecidableEq, Repr

def Dest.active (d : Dest) : Bool :=
  d.state = .tcpActive

/-- The `CT_TRANSFER_*` records between daemons. -/
inductive Message where
  | ready (cookie : Nat)
  | data (cookie offset : Nat) (payload : List UInt8)
  | eof (cookie : Nat)
  | error (cookie : Nat) (status : BitVec 32)
  | request (cookie offset len : Nat)
deriving DecidableEq, Repr

def Message.cookie : Message → Nat
  | .ready c | .data c _ _ | .eof c | .error c _ | .request c _ _ => c

/-- `CT_FILEDONE` and `CT_FILEPROGRESS`. -/
inductive Report where
  | fileDone (status : BitVec 32) (nbytes : Nat)
  | progress (nbytes : Nat)
deriving DecidableEq, Repr

def Report.isDone : Report → Bool
  | .fileDone _ _ => true
  | .progress _ => false

inductive Role where
  | source
  | sink
deriving DecidableEq, Repr

/-- What has become of the send that is to re-arm a pump: it waits in `tls_send_queue`, a worker
thread has it, the pump's callback is due, or it was dropped with its channel. -/
inductive Hook where
  | queued
  | running
  | posted
  | dropped
deriving DecidableEq, Repr

/-- `ct_pump_t`. Its `begin` and `length` are the `offset` and `length` of its record. -/
structure Pump where
  off : Nat
  eofSent : Bool
  hook : Hook
deriving DecidableEq, Repr

/-- `struct ct_filerec`, with its cookie. `refs` is positive while there is a pump. `serial` tells
registrations apart that use a cookie one after the other; it is not in the code. -/
structure Rec (A F : Type*) where
  cookie : Nat
  serial : Nat
  file : F
  role : Role
  offset : Nat
  next : Nat
  length : Nat
  peer : A
  pump : Option Pump
  cancel : Bool
  isDriver : Bool

/-- What a handler does for a record. `record` is `none` when it is released; `drop` is
`async_free_dest` on the channel. -/
structure Handled (A F : Type*) where
  record : Option (Rec A F)
  file : File
  toApp : List Report
  toPeer : List Message
  drop : Bool

section Handlers

variable {A F : Type*}

/-- The bytes moved so far, as the app is told. -/
def Rec.moved (r : Rec A F) : Nat :=
  sub64 r.next r.offset

/-- `ct_rec_free_now`. -/
def Rec.freeNow (r : Rec A F) : Option (Rec A F) :=
  if r.pump.isSome then some r else none

theorem Rec.freeNow_eq_some {r r' : Rec A F} (h : r.freeNow = some r') : r' = r := by
  unfold Rec.freeNow at h
  split at h
  · exact (Option.some.inj h).symm
  · cases h

/-- The record is not concerned. -/
def Rec.ignores (r : Rec A F) (f : File) (drop : Bool) : Handled A F where
  record := some r
  file := f
  toApp := []
  toPeer := []
  drop := drop

/-- `if (d->state == TCPACTIVE) ct_send_transfer_error(..)`. -/
def errorTo (d : Dest) (cookie : Nat) (status : BitVec 32) : List Message :=
  if d.active then [.error cookie status] else []

/-- The ends of `ct_transfer_data_arrived` and `ct_transfer_request_arrived` on an error. -/
def Rec.fails (d : Dest) (r : Rec A F) (f : File) (status : BitVec 32) (drop : Bool) : Handled A F where
  record := r.freeNow
  file := f
  toApp := [.fileDone status r.moved]
  toPeer := errorTo d r.cookie status
  drop := drop

/-- `ct_transfer_data_arrived`, for a record that was found. -/
def transferDataArrived (d : Dest) (offset : Nat) (payload : List UInt8) (io : Io) (r : Rec A F)
    (f : File) : Handled A F :=
  if r.role ≠ .sink then r.ignores f true
  else if offset ≠ r.next then r.fails d f statusIoerr true
  else
    match pwrite f payload offset io with
    | .error errno => r.fails d f (errnoToStatus errno) true
    | .ok (f', written) =>
      if written ≠ payload.length then r.fails d f' statusIoerr true
      else
        let r' := { r with next := add64 offset payload.length }
        { record := some r'
          file := f'
          toApp := [.progress r'.moved]
          toPeer := if r.isDriver && d.active then [.request r.cookie r'.next chunkMax] else []
          drop := false }

/-- `ct_transfer_finish_arrived`, for a record that was found. -/
def transferFinishArrived (status : BitVec 32) (r : Rec A F) (f : File) : Handled A F :=
  if r.role ≠ .sink then r.ignores f true
  else
    let status :=
      if status = statusSuccess ∧ r.length ≠ 0 ∧ r.moved ≠ r.length then statusIoerr else status
    { record := r.freeNow
      file := f
      toApp := [.fileDone status r.moved]
      toPeer := []
      drop := false }

/-- The `done` of `ct_transfer_request_arrived`, after what was already said and sent. -/
def Rec.served (d : Dest) (r : Rec A F) (f : File) (toApp : List Report) (toPeer : List Message) :
    Option (Handled A F) :=
  if d.active then
    some
      { record := r.freeNow
        file := f
        toApp := toApp ++ [.fileDone statusSuccess r.moved]
        toPeer := toPeer ++ [.eof r.cookie]
        drop := false }
  else none

/-- How much of a request is served: `want` in `ct_transfer_request_arrived`. -/
def requestWant (d : Dest) (offset len : Nat) (r : Rec A F) : Nat :=
  min (min (min (len % 2 ^ 32) (sub64 (add64 r.offset r.length) offset)) chunkMax) d.maxDataPayload

/-- `ct_transfer_request_arrived`, for a record that was found. -/
def transferRequestArrived (d : Dest) (offset len : Nat) (io : Io) (r : Rec A F) (f : File) :
    Option (Handled A F) :=
  if r.role ≠ .source ∨ r.isDriver then some (r.ignores f false)
  else if offset ≠ r.next then some (r.fails d f statusIoerr false)
  else if requestWant d offset len r = 0 then r.served d f [] []
  else
    match pread f (requestWant d offset len r) offset io with
    | .error _ | .ok [] => some (r.fails d f statusIoerr false)
    | .ok (b :: bs) =>
      let r' := { r with next := add64 offset (b :: bs).length }
      let data := Message.data r.cookie offset (b :: bs)
      if !d.active then none
      else if add64 r.offset r.length ≤ r'.next then r'.served d f [.progress r'.moved] [data]
      else
        some
          { record := some r'
            file := f
            toApp := [.progress r'.moved]
            toPeer := [data]
            drop := false }

/-- `file_async_cb` for a message whose cookie is registered. -/
def arrives (d : Dest) (m : Message) (io : Io) (r : Rec A F) (f : File) : Option (Handled A F) :=
  match m with
  | .ready _ => some (r.ignores f false)
  | .data _ offset payload => some (transferDataArrived d offset payload io r f)
  | .eof _ => some (transferFinishArrived statusSuccess r f)
  | .error _ status => some (transferFinishArrived status r f)
  | .request _ offset len => transferRequestArrived d offset len io r f

/-- A message whose cookie is not registered costs its channel, unless it is a request. -/
def Message.dropsUnknown : Message → Bool
  | .request _ _ _ => false
  | _ => true

/-! ### The pump -/

/-- `ct_pump_finish`. -/
def pumpFinish (r : Rec A F) (f : File) (p : Pump) (status : BitVec 32) (toPeer : List Message) :
    Handled A F where
  record := { r with pump := none }.freeNow
  file := f
  toApp := [.fileDone status (sub64 p.off r.offset)]
  toPeer := toPeer
  drop := false

/-- The size of the next chunk: `want` in `ct_pump_send_next`. -/
def pumpWant (d : Dest) (r : Rec A F) (p : Pump) : Nat :=
  min (r.length - p.off) (min d.maxDataPayload chunkMax)

/-- `ct_pump_send_next`. -/
def pumpSendNext (d : Dest) (io : Io) (r : Rec A F) (f : File) (p : Pump) : Option (Handled A F) :=
  if r.length ≤ p.off then
    if p.eofSent then some (r.ignores f false)
    else if !d.active then none
    else
      some
        { record := some { r with pump := some { p with eofSent := true, hook := .queued } }
          file := f
          toApp := []
          toPeer := [.eof r.cookie]
          drop := false }
  else
    match pread f (pumpWant d r p) p.off io with
    | .error errno =>
      some (pumpFinish r f p (errnoToStatus errno) (errorTo d r.cookie (errnoToStatus errno)))
    | .ok [] => some (pumpFinish r f p statusIoerr (errorTo d r.cookie statusIoerr))
    | .ok (b :: bs) =>
      let off := add64 p.off (b :: bs).length
      if !d.active then none
      else
        some
          { record := some { r with next := off, pump := some { p with off := off, hook := .queued } }
            file := f
            toApp := [.progress (sub64 off r.offset)]
            toPeer := [.data r.cookie p.off (b :: bs)]
            drop := false }

/-- `ct_pump_arm_cb`. -/
def pumpArmCb (d : Dest) (io : Io) (r : Rec A F) (f : File) (p : Pump) : Option (Handled A F) :=
  if r.cancel || !d.active then
    some (pumpFinish r f p statusTimeout (errorTo d r.cookie statusTimeout))
  else if r.length ≤ p.off ∧ p.eofSent then some (pumpFinish r f p statusSuccess [])
  else pumpSendNext d io r f p

/-- `ct_pump_do_start`. -/
def pumpDoStart (d : Dest) (io : Io) (r : Rec A F) (f : File) : Option (Handled A F) :=
  if r.role ≠ .source ∨ r.pump.isSome then some (r.ignores f false)
  else if !d.active then
    some
      { record := r.freeNow
        file := f
        toApp := [.fileDone statusIoerr 0]
        toPeer := []
        drop := false }
  else
    let p : Pump := ⟨r.offset, false, .queued⟩
    (pumpSendNext d io { r with cancel := false, pump := some p } f p).map fun h =>
      { h with toPeer := .ready r.cookie :: h.toPeer }

/-- What a driver does when its channel is up: `ct_redrive_one` for a record that matches, and the
end of `ct_filereg_handler`. -/
def drive (d : Dest) (io : Io) (r : Rec A F) (f : File) : Option (Handled A F) :=
  match r.role with
  | .source => pumpDoStart d io r f
  | .sink =>
    if d.active then
      some
        { record := some r
          file := f
          toApp := []
          toPeer := [.request r.cookie r.offset chunkMax]
          drop := false }
    else none

/-! ### The sends of a pump -/

def Rec.setHook (r : Rec A F) (p : Pump) (hook : Hook) : Rec A F :=
  { r with pump := some { p with hook := hook } }

/-- A worker thread takes the pump's record from the queue. -/
def Rec.sendStarts (r : Rec A F) : Option (Rec A F) :=
  match r.pump with
  | some p => if p.hook = .queued then some (r.setHook p .running) else none
  | none => none

/-- `drain_outbound_queues`: the pump's record goes with the queue unless a worker thread has it. -/
def Rec.drained (r : Rec A F) : Rec A F :=
  match r.pump with
  | some p => if p.hook = .queued then r.setHook p .dropped else r
  | none => r

/-- `send_to_tls_dest` ends, in one way or another, and posts the pump's callback. -/
def Rec.sendEnds (r : Rec A F) : Option (Rec A F) :=
  match r.pump with
  | some p => if p.hook = .running then some (r.setHook p .posted) else none
  | none => none

end Handlers

/-! ### Lengths -/

/-- `tcpftp_reglen` (`rpc2-src/tcpftp1.c`). -/
def tcpftpReglen (seekOffset byteQuota : Int) (role : Role) (size : Nat) : Nat :=
  match role with
  | .sink => 0
  | .source =>
    let seek := if 0 < seekOffset then seekOffset.toNat else 0
    let reglen := if seek < size then size - seek else 0
    if 0 < byteQuota ∧ byteQuota.toNat < reglen then byteQuota.toNat else reglen

end Coda.Tunnel
