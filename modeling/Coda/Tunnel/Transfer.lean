import Coda.Lib.Run
import Coda.Tunnel.Record

/-!
One transfer between two daemons, over one channel.

Both ends have registered the file under one cookie, the source with the length that
`tcpftp_reglen` gives and the sink with none. Either the source drives (a fetch: the pump) or the
sink does (a store: it asks for each chunk). The channel delivers in order, and when it fails at one
end what was under way may never come.
-/

namespace Coda.Tunnel

open Coda.Lib List Option File Rec Report

/-- What is to be transferred. `long` and `off_t` are 64 bits wide. -/
structure Job where
  file : File
  size_lt : file.size < 2 ^ 63
  seek : Nat
  seek_lt : seek < 2 ^ 63
  byteQuota : Int
  maxDataPayload : Nat
  driver : Role

namespace Job

variable (j : Job)

def reglen : Nat :=
  tcpftpReglen j.seek j.byteQuota .source j.file.size

/-- The first offset that is not transferred. -/
def stop : Nat :=
  j.seek + j.reglen

/-- The record of an end as `tcpftp_register_local` has it registered. -/
def record (role : Role) : Rec Unit Unit where
  cookie := 1
  serial := 0
  file := ()
  role := role
  offset := j.seek
  next := j.seek
  length := tcpftpReglen j.seek j.byteQuota role j.file.size
  peer := ()
  pump := none
  cancel := false
  isDriver := j.driver = role

end Job

/-- An end of the transfer: its record, its side of the channel, and what its app was told. -/
structure Endpoint where
  record : Option (Rec Unit Unit)
  dest : Dest
  file : File
  told : List Report

/-- Both ends, and the messages under way. -/
structure Transfer where
  source : Endpoint
  sink : Endpoint
  toSink : List Message
  toSource : List Message

namespace Endpoint

def registered (j : Job) (role : Role) (f : File) : Endpoint where
  record := some (j.record role)
  dest := ⟨.tcpActive, j.maxDataPayload⟩
  file := f
  told := []

def setDest (state : DestState) (e : Endpoint) : Endpoint :=
  { e with dest := { e.dest with state } }

/-- The end afterwards; the messages are sent by the caller. -/
def handled (h : Handled Unit Unit) (e : Endpoint) : Endpoint where
  record := h.record
  dest := if h.drop then { e.dest with state := .tlsError } else e.dest
  file := h.file
  told := e.told ++ h.toApp

/-- `file_async_cb` for a message of the peer; also what is sent back. -/
def receive (m : Message) (io : Io) (e : Endpoint) : Option (Endpoint × List Message) :=
  match e.record with
  | none => some (if m.dropsUnknown then e.setDest .tlsError else e, [])
  | some r => (arrives e.dest m io r e.file).map fun h => (e.handled h, h.toPeer)

/-- `ct_filereg_handler` of a driver, or `ct_redrive_one`. -/
def drives (io : Io) (e : Endpoint) : Option (Endpoint × List Message) :=
  match e.record with
  | none => none
  | some r =>
    if r.isDriver && !r.cancel && r.pump.isNone then
      (drive e.dest io r e.file).map fun h => (e.handled h, h.toPeer)
    else none

def sendStarts (e : Endpoint) : Option Endpoint :=
  (e.record.bind Rec.sendStarts).map fun r => { e with record := some r }

def sendEnds (e : Endpoint) : Option Endpoint :=
  (e.record.bind Rec.sendEnds).map fun r => { e with record := some r }

/-- `ct_pump_arm_cb`, once it was posted. -/
def armed (io : Io) (e : Endpoint) : Option (Endpoint × List Message) :=
  match e.record with
  | none => none
  | some r =>
    match r.pump with
    | none => none
    | some p =>
      if p.hook = .posted then
        (pumpArmCb e.dest io r e.file p).map fun h => (e.handled h, h.toPeer)
      else none

/-- `ct_fileunreg_handler`. -/
def unreg (e : Endpoint) : Endpoint :=
  { e with
    record := e.record.bind fun r => if r.pump.isSome then some { r with cancel := true } else none }

/-- `free_dest` and `ct_fail_dest_transfers`. -/
def freeDest (e : Endpoint) : Endpoint :=
  if e.dest.state = .tcpClosing then e
  else
    match e.record with
    | none => e.setDest .tcpClosing
    | some r =>
      { e with
        record := r.drained.freeNow
        dest := { e.dest with state := .tcpClosing }
        told := e.told ++ [.fileDone statusTimeout r.moved] }

end Endpoint

inductive TransferAction where
  | drive (role : Role) (io : Io)
  | sinkReceives (io : Io)
  | sourceReceives (io : Io)
  | sendStarts
  | sendEnds
  | armed (io : Io)
  | unreg (role : Role)
  | tlsError (role : Role)
  | freeDest (role : Role)
deriving DecidableEq, Repr

namespace Transfer

/-- Both ends are registered; `sinkFile` is what the sink's file holds before. -/
def initial (j : Job) (sinkFile : File) : Transfer where
  source := .registered j .source j.file
  sink := .registered j .sink sinkFile
  toSink := []
  toSource := []

def sourceDoes (t : Transfer) (out : Endpoint × List Message) : Transfer :=
  { t with source := out.1, toSink := t.toSink ++ out.2 }

def sinkDoes (t : Transfer) (out : Endpoint × List Message) : Transfer :=
  { t with sink := out.1, toSource := t.toSource ++ out.2 }

def step (t : Transfer) : TransferAction → Option Transfer
  | .drive .source io => (t.source.drives io).map t.sourceDoes
  | .drive .sink io => (t.sink.drives io).map t.sinkDoes
  | .sinkReceives io =>
    match t.toSink with
    | [] => none
    | m :: ms => (t.sink.receive m io).map { t with toSink := ms }.sinkDoes
  | .sourceReceives io =>
    match t.toSource with
    | [] => none
    | m :: ms => (t.source.receive m io).map { t with toSource := ms }.sourceDoes
  | .sendStarts => t.source.sendStarts.map fun e => { t with source := e }
  | .sendEnds => t.source.sendEnds.map fun e => { t with source := e }
  | .armed io => (t.source.armed io).map t.sourceDoes
  | .unreg .source => some { t with source := t.source.unreg }
  | .unreg .sink => some { t with sink := t.sink.unreg }
  | .tlsError .source => some { t with source := t.source.setDest .tlsError }
  | .tlsError .sink => some { t with sink := t.sink.setDest .tlsError }
  | .freeDest .source => some { t with source := t.source.freeDest }
  | .freeDest .sink => some { t with sink := t.sink.freeDest }

end Transfer

/-- The bytes of the two files agree between two offsets. -/
def Agrees (source sink : File) (start stop : Nat) : Prop :=
  ∀ i, start ≤ i → i < stop → i < source.size ∧ i < sink.size ∧ sink.byte i = source.byte i

/-- What success at both ends promises. -/
def Faithful (j : Job) (t : Transfer) : Prop :=
  ∀ n m, .fileDone statusSuccess n ∈ t.source.told → .fileDone statusSuccess m ∈ t.sink.told →
    n = j.reglen ∧ m = j.reglen ∧ Agrees j.file t.sink.file j.seek j.stop

/-! ### What the registered length is -/

namespace Job

variable (j : Job)

theorem reglen_le : j.reglen ≤ j.file.size - j.seek := by
  unfold Job.reglen tcpftpReglen
  dsimp only
  have hseek : (if 0 < (j.seek : Int) then (j.seek : Int).toNat else 0) = j.seek := by
    split <;> omega
  rw [hseek]
  split <;> split <;> omega

theorem stop_lt : j.stop < 2 ^ 63 := by
  have := j.reglen_le
  have := j.size_lt
  have := j.seek_lt
  unfold Job.stop
  omega

end Job

/-! ### What the source sends -/

/-- Messages that carry the bytes of `f` from one offset to another in order. Where they end the
transfer they do so at `stop`, or with an error; what comes after the end does not matter. -/
def Stream (f : File) (stop : Nat) (start upto : Nat) : List Message → Prop
  | [] => start = upto
  | .ready _ :: ms => Stream f stop start upto ms
  | .data _ offset payload :: ms =>
    offset = start ∧ payload = f.read start payload.length ∧ start + payload.length ≤ stop ∧
      Stream f stop (start + payload.length) upto ms
  | .eof _ :: _ => start = stop
  | .error _ status :: _ => status ≠ statusSuccess
  | .request _ _ _ :: _ => False

theorem Stream.append {f : File} {stop start middle upto : Nat} {ms ms' : List Message}
    (h : Stream f stop start middle ms) (h' : Stream f stop middle upto ms') :
    Stream f stop start upto (ms ++ ms') := by
  induction ms generalizing start with
  | nil =>
    have hstart : start = middle := h
    rw [hstart]
    exact h'
  | cons m ms ih =>
    cases m with
    | ready c => exact ih h
    | data c offset payload => exact ⟨h.1, h.2.1, h.2.2.1, ih h.2.2.2⟩
    | eof c => exact h
    | error c status => exact h
    | request c offset len => exact h

section Source

variable {j : Job} {upto : Nat}

/-- The source's record when it has sent everything before `upto`. -/
structure SourceRec (j : Job) (upto : Nat) (r : Rec Unit Unit) : Prop where
  role : r.role = .source
  offset : r.offset = j.seek
  length : r.length = j.reglen
  next : r.next = upto
  driver : r.isDriver = decide (j.driver = .source)
  pump : ∀ p, r.pump = some p → p.off = upto ∧ r.isDriver = true
  fresh : r.isDriver = true → r.pump = none → upto = j.seek

/-- What a handler of the source may do. -/
structure SourceDoes (j : Job) (upto : Nat) (h : Handled Unit Unit) (upto' : Nat) : Prop where
  low : upto ≤ upto'
  high : upto' ≤ j.stop
  record : ∀ r, h.record = some r → SourceRec j upto' r
  file : h.file = j.file
  sends : Stream j.file j.stop upto upto' h.toPeer
  tells : ∀ n, .fileDone statusSuccess n ∈ h.toApp → n = j.reglen

/-- The ends that keep to the registered length: the pump takes it for the offset to stop at, and
the request server takes a payload of nothing for the end. -/
structure Honest (j : Job) : Prop where
  pump : j.driver = .source → j.seek = 0 ∨ j.reglen = 0
  serve : j.driver = .sink → 0 < j.maxDataPayload ∨ j.reglen = 0

variable {status : BitVec 32} {toPeer : List Message}

theorem stream_errorTo (d : Dest) (cookie : Nat) (h : status ≠ statusSuccess) (f : File)
    (stop start : Nat) : Stream f stop start start (errorTo d cookie status) := by
  unfold errorTo
  split
  · exact h
  · rfl

variable {r : Rec Unit Unit} {d : Dest} {h : Handled Unit Unit} {io : Io} {p : Pump}

section

variable (src : SourceRec j upto r)
include src

theorem SourceRec.moved (low : j.seek ≤ upto) (high : upto ≤ j.stop) : r.moved = upto - j.seek := by
  rw [Rec.moved, src.next, src.offset]
  have := j.stop_lt
  exact sub64_of_le low (by omega)

theorem SourceRec.ignores (high : upto ≤ j.stop) (drop : Bool) :
    SourceDoes j upto (r.ignores j.file drop) upto where
  low := Nat.le_refl _
  high := high
  record _ h := Option.some.inj h ▸ src
  file := rfl
  sends := rfl
  tells _ h := by cases h

theorem SourceRec.fails (high : upto ≤ j.stop) (d : Dest) :
    SourceDoes j upto (r.fails d j.file statusIoerr false) upto where
  low := Nat.le_refl _
  high := high
  record _ h := freeNow_eq_some h ▸ src
  file := rfl
  sends := stream_errorTo d _ (by decide) _ _ _
  tells n h := by
    obtain ⟨hstatus, -⟩ := fileDone.inj (mem_singleton.mp h)
    exact absurd hstatus (by decide)

/-- Success is reported with everything sent, and the end of the file follows. -/
theorem SourceRec.served {start : Nat} (done : upto = j.stop) (low : start ≤ upto)
    {toApp : List Report} (sends : Stream j.file j.stop start upto toPeer)
    (quiet : ∀ n, .fileDone statusSuccess n ∉ toApp)
    (run : r.served d j.file toApp toPeer = some h) : SourceDoes j start h upto := by
  subst done
  unfold served at run
  split at run
  · cases run
    refine ⟨low, Nat.le_refl _, fun r' h => freeNow_eq_some h ▸ src, rfl, sends.append rfl, ?_⟩
    intro n hn
    rcases mem_append.mp hn with hn | hn
    · exact absurd hn (quiet n)
    · obtain ⟨-, rfl⟩ := fileDone.inj (mem_singleton.mp hn)
      rw [src.moved (Nat.le_add_right _ _) (Nat.le_refl _), Job.stop, Nat.add_sub_cancel_left]
  · cases run

end

/-- A chunk as `pread` gives it continues the stream. -/
theorem chunk_stream {want : Nat} {bytes : List UInt8}
    (read : pread j.file want upto io = .ok bytes) (fits : upto + want ≤ j.stop) (cookie : Nat) :
    upto + bytes.length ≤ j.stop ∧
      Stream j.file j.stop upto (upto + bytes.length) [.data cookie upto bytes] := by
  cases io with
  | fail errno => cases read
  | upTo count =>
    obtain rfl := Except.ok.inj read
    have hle : (j.file.read upto (min count want)).length ≤ want := by
      rw [length_read]
      omega
    exact ⟨by omega, rfl, (read_length ..).symm, by omega, rfl⟩

theorem SourceRec.advance (src : SourceRec j upto r) {n : Nat} (passive : r.isDriver = false)
    (idle : r.pump = none) : SourceRec j n { r with next := n } :=
  { src with
    next := rfl
    pump := fun p hp => absurd (idle.symm.trans hp) (by simp)
    fresh := fun hdriver => absurd (passive.symm.trans hdriver) (by decide) }

/-- A record whose pump stands at `n`. -/
theorem SourceRec.setPump {r' : Rec Unit Unit} (src : SourceRec j upto r) {n : Nat}
    (same : r' = { r with next := n, cancel := r'.cancel, pump := some p }) (off : p.off = n)
    (driver : r.isDriver = true) : SourceRec j n r' := by
  rw [same]
  exact { src with
    next := rfl
    pump := fun q hq => some.inj hq ▸ ⟨off, driver⟩
    fresh := fun _ h => by cases h }

theorem transferRequestArrived_source (honest : Honest j) (src : SourceRec j upto r)
    (low : j.seek ≤ upto) (high : upto ≤ j.stop) (cap : d.maxDataPayload = j.maxDataPayload)
    {offset : Nat} (run : transferRequestArrived d offset chunkMax io r j.file = some h) :
    ∃ upto', SourceDoes j upto h upto' := by
  have hstop := j.stop_lt
  unfold transferRequestArrived at run
  split at run
  · cases run
    exact ⟨upto, src.ignores high false⟩
  next hserves =>
  split at run
  · cases run
    exact ⟨upto, src.fails high d⟩
  next hoffset =>
  have hoff : offset = upto := (not_not.mp hoffset).trans src.next
  have hdriver : r.isDriver = false := by simpa using (not_or.mp hserves).2
  have hsink : j.driver = .sink := by
    have hnot : j.driver ≠ .source := of_decide_eq_false (src.driver.symm.trans hdriver)
    cases hd : j.driver with
    | source => exact absurd hd hnot
    | sink => rfl
  have hend : add64 r.offset r.length = j.stop := by
    rw [src.offset, src.length]
    exact add64_of_lt (by unfold Job.stop at hstop; omega)
  have hidle : r.pump = none := by
    cases hp : r.pump with
    | none => rfl
    | some p => exact absurd ((src.pump p hp).2.symm.trans hdriver) (by decide)
  have hwant : requestWant d offset chunkMax r =
      min (min chunkMax (j.stop - upto)) j.maxDataPayload := by
    rw [requestWant, hend, hoff, sub64_of_le high (by omega)]
    simp only [chunkMax]
    omega
  rw [hwant, hoff, hend] at run
  split at run
  · next hzero =>
    -- nothing is left
    have hdone : upto = j.stop := by
      rcases honest.serve hsink with hcap | hlen
      · simp only [chunkMax] at hzero
        omega
      · have : j.stop = j.seek := by rw [Job.stop, hlen, Nat.add_zero]
        omega
    refine ⟨upto, src.served hdone (Nat.le_refl _) ?_ ?_ run⟩
    · exact rfl
    · exact fun n hn => by cases hn
  next hpos =>
  split at run
  · cases run
    exact ⟨upto, src.fails high d⟩
  · cases run
    exact ⟨upto, src.fails high d⟩
  next b bs hread =>
  obtain ⟨hle, hstream⟩ := chunk_stream hread (by omega) r.cookie
  have hnext : add64 upto (b :: bs).length = upto + (b :: bs).length := add64_of_lt (by omega)
  rw [hnext] at run
  have hsrc : SourceRec j (upto + (b :: bs).length) { r with next := upto + (b :: bs).length } :=
    src.advance hdriver hidle
  dsimp only at run
  split at run
  · cases run
  split at run
  · next hall =>
    have hdone : upto + (b :: bs).length = j.stop := Nat.le_antisymm hle hall
    refine ⟨_, hsrc.served hdone (Nat.le_add_right _ _) hstream ?_ run⟩
    intro n hn
    cases mem_singleton.mp hn
  · cases run
    refine ⟨_, Nat.le_add_right _ _, hle, fun r' hr => some.inj hr ▸ hsrc, rfl, hstream, ?_⟩
    intro n hn
    cases mem_singleton.mp hn

/-- The pump's end of the file is the end of the transfer, or there is none. -/
theorem Honest.pump_done (honest : Honest j) (drives : j.driver = .source) (low : j.seek ≤ upto)
    (high : upto ≤ j.stop) (all : j.reglen ≤ upto) : upto = j.stop := by
  unfold Job.stop at high ⊢
  rcases honest.pump drives with h | h <;> omega

theorem Honest.pump_left (honest : Honest j) (drives : j.driver = .source)
    (some_left : ¬ j.reglen ≤ upto) : j.stop = j.reglen := by
  unfold Job.stop
  rcases honest.pump drives with h | h <;> omega

theorem pumpFinish_source (high : upto ≤ j.stop) (sends : Stream j.file j.stop upto upto toPeer)
    (success : status = statusSuccess → sub64 p.off r.offset = j.reglen) :
    SourceDoes j upto (pumpFinish r j.file p status toPeer) upto where
  low := Nat.le_refl _
  high := high
  record r' h := by cases h
  file := rfl
  sends := sends
  tells n h := by
    obtain ⟨hstatus, rfl⟩ := fileDone.inj (mem_singleton.mp h)
    exact success hstatus.symm

section

variable (honest : Honest j) (src : SourceRec j upto r) (low : j.seek ≤ upto)
  (high : upto ≤ j.stop) (pumped : r.pump = some p)
include honest src low high pumped

theorem pumpSendNext_source (run : pumpSendNext d io r j.file p = some h) :
    ∃ upto', SourceDoes j upto h upto' := by
  have hstop := j.stop_lt
  obtain ⟨rfl, hdriver⟩ := src.pump p pumped
  have hdrives : j.driver = .source := of_decide_eq_true (src.driver.symm.trans hdriver)
  unfold pumpSendNext at run
  split at run
  · next hall =>
    rw [src.length] at hall
    split at run
    · cases run
      exact ⟨p.off, src.ignores high false⟩
    split at run
    · cases run
    · cases run
      refine ⟨p.off, Nat.le_refl _, high, ?_, rfl, honest.pump_done hdrives low high hall, ?_⟩
      · intro r' hr
        cases hr
        exact src.setPump (p := { p with eofSent := true, hook := .queued }) (by rw [← src.next]) rfl
          hdriver
      · exact fun n hn => by cases hn
  next hleft =>
  rw [src.length] at hleft
  have hend := honest.pump_left hdrives hleft
  split at run
  · next errno _ =>
    cases run
    have hstatus := errnoToStatus_ne_success errno
    exact ⟨p.off, pumpFinish_source high (stream_errorTo d _ hstatus _ _ _) fun h => absurd h hstatus⟩
  · cases run
    exact ⟨p.off, pumpFinish_source high (stream_errorTo d _ (by decide) _ _ _)
      fun h => absurd h (by decide)⟩
  next b bs hread =>
  have hwant : p.off + pumpWant d r p ≤ j.stop := by
    rw [pumpWant, src.length]
    omega
  obtain ⟨hle, hstream⟩ := chunk_stream hread hwant r.cookie
  have hnext : add64 p.off (b :: bs).length = p.off + (b :: bs).length := add64_of_lt (by omega)
  rw [hnext] at run
  split at run
  · cases run
  · cases run
    refine ⟨_, Nat.le_add_right _ _, hle, ?_, rfl, hstream, ?_⟩
    · intro r' hr
      cases hr
      exact src.setPump rfl rfl hdriver
    · intro n hn
      cases mem_singleton.mp hn

theorem pumpArmCb_source (run : pumpArmCb d io r j.file p = some h) :
    ∃ upto', SourceDoes j upto h upto' := by
  have hstop := j.stop_lt
  obtain ⟨hoff, hdriver⟩ := src.pump p pumped
  have hdrives : j.driver = .source := of_decide_eq_true (src.driver.symm.trans hdriver)
  unfold pumpArmCb at run
  split at run
  · cases run
    exact ⟨upto, pumpFinish_source high (stream_errorTo d _ (by decide) _ _ _)
      fun h => absurd h (by decide)⟩
  split at run
  · next hall =>
    cases run
    refine ⟨upto, pumpFinish_source high rfl fun _ => ?_⟩
    rw [src.length, hoff] at hall
    have hdone := honest.pump_done hdrives low high hall.1
    rw [hoff, src.offset, sub64_of_le low (by omega), hdone, Job.stop, Nat.add_sub_cancel_left]
  · exact pumpSendNext_source honest src low high pumped run

end

theorem drive_source (honest : Honest j) (src : SourceRec j upto r) (start : upto = j.seek)
    (driver : r.isDriver = true) (run : drive d io r j.file = some h) :
    ∃ upto', SourceDoes j upto h upto' := by
  have low : j.seek ≤ upto := start ▸ Nat.le_refl _
  have high : upto ≤ j.stop := start ▸ Nat.le_add_right _ _
  unfold drive at run
  rw [src.role] at run
  dsimp only at run
  unfold pumpDoStart at run
  split at run
  · cases run
    exact ⟨upto, src.ignores high false⟩
  split at run
  · cases run
    refine ⟨upto, Nat.le_refl _, high, fun r' hr => freeNow_eq_some hr ▸ src, rfl, rfl, ?_⟩
    intro n hn
    obtain ⟨hstatus, -⟩ := fileDone.inj (mem_singleton.mp hn)
    exact absurd hstatus (by decide)
  · obtain ⟨h', run', rfl⟩ := map_eq_some_iff.mp run
    have hsrc : SourceRec j upto
        { r with cancel := false, pump := some ⟨r.offset, false, .queued⟩ } :=
      src.setPump (by rw [← src.next]) (src.offset.trans start.symm)
        driver
    obtain ⟨upto', hdoes⟩ := pumpSendNext_source honest hsrc low high rfl run'
    exact ⟨upto', { hdoes with }⟩

end Source

/-! ### What the sink does with it -/

section Sink

variable {j : Job} {f : File}

/-- The sink's record: everything before its `next` has arrived. -/
structure SinkRec (j : Job) (f : File) (r : Rec Unit Unit) : Prop where
  role : r.role = .sink
  offset : r.offset = j.seek
  length : r.length = 0
  low : j.seek ≤ r.next
  high : r.next ≤ j.stop
  agrees : Agrees j.file f j.seek r.next
  pump : r.pump = none

variable {r : Rec Unit Unit} {status : BitVec 32}

theorem SinkRec.freeNow (snk : SinkRec j f r) : r.freeNow = none := by
  rw [Rec.freeNow, snk.pump]
  rfl

theorem SinkRec.moved (snk : SinkRec j f r) : r.moved = r.next - j.seek := by
  have := j.stop_lt
  have := snk.high
  rw [Rec.moved, snk.offset]
  exact sub64_of_le snk.low (by omega)

/-- A chunk that follows what was written extends it. -/
theorem Agrees.write {start offset n : Nat} (h : Agrees j.file f start offset)
    (inside : offset + n ≤ j.file.size) :
    Agrees j.file (f.write offset (j.file.read offset n)) start (offset + n) := by
  have hlen : (j.file.read offset n).length = n := by
    rw [length_read]
    omega
  intro i hi hlt
  by_cases hold : i < offset
  · obtain ⟨hsource, hsink, hbyte⟩ := h i hi hold
    exact ⟨hsource, Nat.lt_of_lt_of_le hsink (size_le_write ..),
      by rw [write_byte_of_lt _ _ hold, hbyte]⟩
  · have hge : offset ≤ i := Nat.le_of_not_lt hold
    have hin : i < offset + (j.file.read offset n).length := by rwa [hlen]
    refine ⟨by omega, stop_le_write f hge hin, ?_⟩
    rw [write_byte_of_mem _ hge hin, getD_read _ (by omega)]
    congr 1
    omega

/-- What a handler of the sink may do with a message of the stream. -/
structure SinkDoes (j : Job) (upto : Nat) (ms : List Message) (h : Handled Unit Unit) : Prop where
  record : ∀ r, h.record = some r → SinkRec j h.file r ∧ Stream j.file j.stop r.next upto ms
  tells : ∀ n, .fileDone statusSuccess n ∈ h.toApp →
    n = j.reglen ∧ h.record = none ∧ Agrees j.file h.file j.seek j.stop
  requests : ∀ c offset len, .request c offset len ∈ h.toPeer → len = chunkMax

theorem mem_errorTo {d : Dest} {cookie : Nat} {m : Message} (h : m ∈ errorTo d cookie status) :
    m = .error cookie status := by
  unfold errorTo at h
  split at h
  · exact mem_singleton.mp h
  · cases h

section

variable (snk : SinkRec j f r)
include snk

theorem SinkRec.fails (upto : Nat) (ms : List Message) (d : Dest) (f' : File)
    (failure : status ≠ statusSuccess) (drop : Bool) :
    SinkDoes j upto ms (r.fails d f' status drop) where
  record r' h := absurd (snk.freeNow.symm.trans h) (by simp)
  tells n h := by
    obtain ⟨hstatus, -⟩ := fileDone.inj (mem_singleton.mp h)
    exact absurd hstatus.symm failure
  requests c offset len h := by cases mem_errorTo h

theorem SinkRec.finish (upto : Nat) (ms : List Message)
    (complete : status = statusSuccess → r.next = j.stop) :
    SinkDoes j upto ms (transferFinishArrived status r f) := by
  unfold transferFinishArrived
  rw [if_neg (not_not.mpr snk.role)]
  refine ⟨fun r' h => absurd (snk.freeNow.symm.trans h) (by simp), ?_, fun c o l h => by cases h⟩
  intro n hn
  obtain ⟨hstatus, rfl⟩ := fileDone.inj (mem_singleton.mp hn)
  rw [if_neg (fun h => h.2.1 snk.length)] at hstatus
  have hend := complete hstatus.symm
  refine ⟨?_, snk.freeNow, hend ▸ snk.agrees⟩
  rw [snk.moved, hend, Job.stop, Nat.add_sub_cancel_left]

theorem SinkRec.data {upto : Nat} {ms : List Message} {payload : List UInt8}
    (bytes : payload = j.file.read r.next payload.length)
    (fits : r.next + payload.length ≤ j.stop)
    (rest : Stream j.file j.stop (r.next + payload.length) upto ms) (d : Dest) (io : Io) :
    SinkDoes j upto ms (transferDataArrived d r.next payload io r f) := by
  have hstop := j.stop_lt
  unfold transferDataArrived
  rw [if_neg (not_not.mpr snk.role), if_neg (not_not.mpr rfl)]
  cases io with
  | fail errno => exact snk.fails upto ms d f (errnoToStatus_ne_success errno) true
  | upTo count =>
    dsimp only [pwrite]
    split
    · exact snk.fails upto ms d _ (by decide) true
    next hwritten =>
    have hall : payload.take count = payload := take_of_length_le (by omega)
    rw [hall]
    have hinside : r.next + payload.length ≤ j.file.size ∨ payload.length = 0 := by
      rw [bytes, length_read]
      omega
    have hagrees : Agrees j.file (f.write r.next payload) j.seek (r.next + payload.length) := by
      rcases hinside with hin | hempty
      · have := snk.agrees.write hin
        rwa [← bytes] at this
      · rw [hempty, Nat.add_zero]
        intro i hi hlt
        obtain ⟨hsource, hsink, hbyte⟩ := snk.agrees i hi hlt
        exact ⟨hsource, Nat.lt_of_lt_of_le hsink (size_le_write ..),
          by rw [write_byte_of_lt _ _ hlt, hbyte]⟩
    have hnext : add64 r.next payload.length = r.next + payload.length := add64_of_lt (by omega)
    refine ⟨?_, ?_, ?_⟩
    · intro r' hr
      cases hr
      have hlow := snk.low
      rw [hnext]
      exact ⟨{ snk with low := by dsimp only; omega, high := fits, agrees := hagrees }, rest⟩
    · intro n hn
      cases mem_singleton.mp hn
    · intro c offset len hmem
      split at hmem
      · exact (Message.request.inj (mem_singleton.mp hmem)).2.2
      · cases hmem

/-- The sink handles the next message of the stream. -/
theorem arrives_sink {upto : Nat} {m : Message} {ms : List Message}
    (stream : Stream j.file j.stop r.next upto (m :: ms)) {d : Dest} {io : Io}
    {h : Handled Unit Unit} (run : arrives d m io r f = some h) : SinkDoes j upto ms h := by
  cases m with
  | ready c =>
    cases run
    exact ⟨fun r' hr => some.inj hr ▸ ⟨snk, stream⟩, fun n hn => (by cases hn),
      fun c o l h => (by cases h)⟩
  | data c offset payload =>
    cases run
    obtain ⟨rfl, hbytes, hfits, hrest⟩ := stream
    exact snk.data hbytes hfits hrest d io
  | eof c =>
    cases run
    exact snk.finish upto ms fun _ => stream
  | error c status =>
    cases run
    exact snk.finish upto ms fun h => absurd h stream
  | request c offset len => exact absurd stream id

end

end Sink

/-! ### The transfer -/

section Runs

variable {j : Job}

/-- The state of an honest transfer in which the source has sent everything before `upto`. -/
structure Safe (j : Job) (upto : Nat) (t : Transfer) : Prop where
  low : j.seek ≤ upto
  high : upto ≤ j.stop
  source : ∀ r, t.source.record = some r → SourceRec j upto r
  sourceFile : t.source.file = j.file
  cap : t.source.dest.maxDataPayload = j.maxDataPayload
  sourceTold : ∀ n, .fileDone statusSuccess n ∈ t.source.told → n = j.reglen
  sink : ∀ r, t.sink.record = some r →
    SinkRec j t.sink.file r ∧ Stream j.file j.stop r.next upto t.toSink
  sinkTold : ∀ n, .fileDone statusSuccess n ∈ t.sink.told →
    n = j.reglen ∧ t.sink.record = none ∧ Agrees j.file t.sink.file j.seek j.stop
  requests : ∀ c offset len, .request c offset len ∈ t.toSource → len = chunkMax

theorem safe_initial (j : Job) (sinkFile : File) : Safe j j.seek (.initial j sinkFile) where
  low := Nat.le_refl _
  high := Nat.le_add_right _ _
  source r h := by
    cases h
    exact ⟨rfl, rfl, rfl, rfl, rfl, fun p hp => (by cases hp), fun _ _ => rfl⟩
  sourceFile := rfl
  cap := rfl
  sourceTold n h := by cases h
  sink r h := by
    cases h
    refine ⟨⟨rfl, rfl, rfl, Nat.le_refl _, Nat.le_add_right _ _, ?_, rfl⟩, rfl⟩
    intro i hi hlt
    exact absurd hi (Nat.not_le_of_lt hlt)
  sinkTold n h := by cases h
  requests c o l h := by cases h

variable {upto : Nat} {t t' : Transfer} {r : Rec Unit Unit} {io : Io}

section

variable (safe : Safe j upto t)
include safe

theorem Safe.faithful : Faithful j t := by
  intro n m hn hm
  obtain ⟨hm, -, hagrees⟩ := safe.sinkTold m hm
  exact ⟨safe.sourceTold n hn, hm, hagrees⟩

/-- A handler of the source that keeps to the stream keeps the transfer safe. -/
theorem Safe.sourceHandled {upto' : Nat} {h : Handled Unit Unit}
    (does : SourceDoes j upto h upto') :
    Safe j upto' (t.sourceDoes (t.source.handled h, h.toPeer)) where
  low := Nat.le_trans safe.low does.low
  high := does.high
  source := does.record
  sourceFile := does.file
  cap := by
    rw [← safe.cap]
    unfold Transfer.sourceDoes Endpoint.handled
    split <;> rfl
  sourceTold n hn := by
    rcases mem_append.mp hn with hn | hn
    · exact safe.sourceTold n hn
    · exact does.tells n hn
  sink r hr := ⟨(safe.sink r hr).1, (safe.sink r hr).2.append does.sends⟩
  sinkTold := safe.sinkTold
  requests := safe.requests

/-- What the source does to itself without sending or telling anything of success. -/
theorem Safe.setSource {e : Endpoint} (record : ∀ r, e.record = some r → SourceRec j upto r)
    (file : e.file = t.source.file) (cap : e.dest.maxDataPayload = t.source.dest.maxDataPayload)
    (told : ∀ n, .fileDone statusSuccess n ∈ e.told → .fileDone statusSuccess n ∈ t.source.told) :
    Safe j upto { t with source := e } :=
  { safe with
    source := record
    sourceFile := file.trans safe.sourceFile
    cap := cap.trans safe.cap
    sourceTold := fun n hn => safe.sourceTold n (told n hn) }

theorem Safe.setSink {e : Endpoint} (record : ∀ r, e.record = some r → t.sink.record = some r)
    (file : e.file = t.sink.file)
    (told : ∀ n, .fileDone statusSuccess n ∈ e.told → .fileDone statusSuccess n ∈ t.sink.told) :
    Safe j upto { t with sink := e } :=
  { safe with
    sink := fun r hr => by
      obtain ⟨snk, stream⟩ := safe.sink r (record r hr)
      exact ⟨file.symm ▸ snk, stream⟩
    sinkTold := fun n hn => by
      obtain ⟨hlen, hnone, hagrees⟩ := safe.sinkTold n (told n hn)
      refine ⟨hlen, ?_, file.symm ▸ hagrees⟩
      cases hr : e.record with
      | none => rfl
      | some r => exact absurd (hnone.symm.trans (record r hr)) (by simp) }

end

theorem SourceRec.setHook (src : SourceRec j upto r) {p : Pump} (hp : r.pump = some p)
    (hook : Hook) : SourceRec j upto (r.setHook p hook) :=
  src.setPump (p := { p with hook := hook }) (by rw [← src.next]; rfl) (src.pump p hp).1
    (src.pump p hp).2

variable {r' : Rec Unit Unit}

theorem SourceRec.sendStarts (src : SourceRec j upto r) (h : r.sendStarts = some r') :
    SourceRec j upto r' := by
  unfold Rec.sendStarts at h
  split at h
  · next p hp =>
    split at h
    · exact some.inj h ▸ src.setHook hp .running
    · cases h
  · cases h

theorem SourceRec.sendEnds (src : SourceRec j upto r) (h : r.sendEnds = some r') :
    SourceRec j upto r' := by
  unfold Rec.sendEnds at h
  split at h
  · next p hp =>
    split at h
    · exact some.inj h ▸ src.setHook hp .posted
    · cases h
  · cases h

theorem SourceRec.drained (src : SourceRec j upto r) : SourceRec j upto r.drained := by
  unfold Rec.drained
  split
  · next p hp =>
    split
    · exact src.setHook hp .dropped
    · exact src
  · exact src

theorem success_of_mem_timeout {told : List Report} {n m : Nat}
    (h : .fileDone statusSuccess n ∈ told ++ [.fileDone statusTimeout m]) :
    .fileDone statusSuccess n ∈ told := by
  rcases mem_append.mp h with h | h
  · exact h
  · obtain ⟨hstatus, -⟩ := fileDone.inj (mem_singleton.mp h)
    exact absurd hstatus (by decide)

section

variable (safe : Safe j upto t)
include safe

theorem Safe.sourceFreeDest : Safe j upto { t with source := t.source.freeDest } := by
  unfold Endpoint.freeDest
  split
  · exact safe
  split
  · exact safe.setSource safe.source rfl rfl fun n hn => hn
  · next r hr =>
    apply safe.setSource
    · exact fun r' h => freeNow_eq_some h ▸ (safe.source r hr).drained
    · rfl
    · rfl
    · exact fun n hn => success_of_mem_timeout hn

theorem Safe.sinkFreeDest : Safe j upto { t with sink := t.sink.freeDest } := by
  unfold Endpoint.freeDest
  split
  · exact safe
  split
  · exact safe.setSink (fun r hr => hr) rfl fun n hn => hn
  · next r hr =>
    have hpump := (safe.sink r hr).1.pump
    apply safe.setSink
    · intro r' h
      unfold drained at h
      rw [hpump] at h
      exact freeNow_eq_some h ▸ hr
    · rfl
    · exact fun n hn => success_of_mem_timeout hn

theorem Safe.unreg (role : Role) (run : t.step (.unreg role) = some t') : Safe j upto t' := by
  cases role with
  | source =>
    cases run
    apply safe.setSource
    · intro r' h
      obtain ⟨r, hr, h⟩ := bind_eq_some_iff.mp h
      split at h
      · exact some.inj h ▸ { safe.source r hr with }
      · cases h
    · rfl
    · rfl
    · exact fun n hn => hn
  | sink =>
    cases run
    apply safe.setSink
    · intro r' h
      obtain ⟨r, hr, h⟩ := bind_eq_some_iff.mp h
      rw [(safe.sink r hr).1.pump] at h
      cases h
    · rfl
    · exact fun n hn => hn

theorem Safe.sinkReceives (run : t.step (.sinkReceives io) = some t') : Safe j upto t' := by
  rw [Transfer.step] at run
  split at run
  · cases run
  next m ms hqueue =>
  obtain ⟨⟨e, out⟩, hreceive, rfl⟩ := map_eq_some_iff.mp run
  unfold Endpoint.receive at hreceive
  split at hreceive
  · next hnone =>
    obtain ⟨rfl, rfl⟩ := Prod.mk.inj (some.inj hreceive)
    -- without a record the stream is not looked at any more
    have hrest : Safe j upto { t with toSink := ms } :=
      { safe with sink := fun r hr => absurd (hnone.symm.trans hr) (by simp) }
    have hsink := hrest.setSink (e := if m.dropsUnknown then t.sink.setDest .tlsError else t.sink)
      (fun r hr => by split at hr <;> exact hr) (by split <;> rfl)
      (fun n hn => by split at hn <;> exact hn)
    unfold Transfer.sinkDoes
    rw [append_nil]
    exact hsink
  · next r hr =>
    obtain ⟨h, harrives, hout⟩ := map_eq_some_iff.mp hreceive
    cases hout
    obtain ⟨snk, stream⟩ := safe.sink r hr
    have does := arrives_sink snk (hqueue ▸ stream) harrives
    exact { safe with
      sink := does.record
      sinkTold := fun n hn => by
        rcases mem_append.mp hn with hn | hn
        · exact absurd ((safe.sinkTold n hn).2.1.symm.trans hr) (by simp)
        · exact does.tells n hn
      requests := fun c o l hmem => by
        rcases mem_append.mp hmem with hmem | hmem
        · exact safe.requests c o l hmem
        · exact does.requests c o l hmem }

end

theorem Safe.sourceReceives (honest : Honest j) (safe : Safe j upto t)
    (run : t.step (.sourceReceives io) = some t') : ∃ upto', Safe j upto' t' := by
  rw [Transfer.step] at run
  split at run
  · cases run
  next m ms hqueue =>
  obtain ⟨⟨e, out⟩, hreceive, rfl⟩ := map_eq_some_iff.mp run
  have hrest : Safe j upto { t with toSource := ms } :=
    { safe with
      requests := fun c o l h => safe.requests c o l (hqueue ▸ mem_cons_of_mem m h) }
  unfold Endpoint.receive at hreceive
  split at hreceive
  · next hnone =>
    obtain ⟨rfl, rfl⟩ := Prod.mk.inj (some.inj hreceive)
    refine ⟨upto, ?_⟩
    have hsource := hrest.setSource
      (e := if m.dropsUnknown then t.source.setDest .tlsError else t.source)
      (fun r hr => by split at hr <;> exact absurd (hnone.symm.trans hr) (by simp))
      (by split <;> rfl) (by split <;> rfl) (fun n hn => by split at hn <;> exact hn)
    unfold Transfer.sourceDoes
    rw [append_nil]
    exact hsource
  · next r hr =>
    obtain ⟨h, harrives, hout⟩ := map_eq_some_iff.mp hreceive
    cases hout
    have src := safe.source r hr
    have ignored := fun dropped => hrest.sourceHandled (src.ignores safe.high dropped)
    have hrole : r.role ≠ .sink := by rw [src.role]; decide
    rw [safe.sourceFile] at harrives
    cases m with
    | ready c =>
      cases harrives
      exact ⟨upto, ignored false⟩
    | data c offset payload =>
      cases harrives
      rw [transferDataArrived, if_pos hrole]
      exact ⟨upto, ignored true⟩
    | eof c | error c status =>
      cases harrives
      rw [transferFinishArrived, if_pos hrole]
      exact ⟨upto, ignored true⟩
    | request c offset len =>
      have hlen : len = chunkMax := safe.requests c offset len (hqueue ▸ (.head _))
      rw [hlen] at harrives
      obtain ⟨upto', does⟩ :=
        transferRequestArrived_source honest src safe.low safe.high safe.cap harrives
      exact ⟨upto', hrest.sourceHandled does⟩

theorem Safe.sourceDrives (honest : Honest j) (safe : Safe j upto t)
    (run : t.step (.drive .source io) = some t') : ∃ upto', Safe j upto' t' := by
  obtain ⟨⟨e, out⟩, hdrives, rfl⟩ := map_eq_some_iff.mp run
  unfold Endpoint.drives at hdrives
  split at hdrives
  · cases hdrives
  next r hr =>
  obtain ⟨hdriver, hdrives⟩ := ite_none_right_eq_some.mp hdrives
  obtain ⟨h, hdrive, hout⟩ := map_eq_some_iff.mp hdrives
  cases hout
  have src := safe.source r hr
  simp only [Bool.and_eq_true, isNone_iff_eq_none] at hdriver
  rw [safe.sourceFile] at hdrive
  have hstart := src.fresh hdriver.1.1 hdriver.2
  obtain ⟨upto', does⟩ := drive_source honest src hstart hdriver.1.1 hdrive
  exact ⟨upto', safe.sourceHandled does⟩

theorem Safe.sinkDrives (safe : Safe j upto t) (run : t.step (.drive .sink io) = some t') :
    Safe j upto t' := by
  obtain ⟨⟨e, out⟩, hdrives, rfl⟩ := map_eq_some_iff.mp run
  unfold Endpoint.drives at hdrives
  split at hdrives
  · cases hdrives
  next r hr =>
  obtain ⟨-, hdrives⟩ := ite_none_right_eq_some.mp hdrives
  obtain ⟨h, hdrive, hout⟩ := map_eq_some_iff.mp hdrives
  cases hout
  unfold drive at hdrive
  rw [(safe.sink r hr).1.role] at hdrive
  obtain ⟨-, ⟨⟩⟩ := ite_none_right_eq_some.mp hdrive
  have hsink := safe.setSink
    (e := t.sink.handled
      ⟨some r, t.sink.file, [], [.request r.cookie r.offset chunkMax], false⟩)
    (fun r' h => some.inj h ▸ hr) rfl
    (fun n hn => (append_nil t.sink.told) ▸ hn)
  exact { hsink with
    requests := fun c o l hmem => by
      rcases mem_append.mp hmem with hmem | hmem
      · exact safe.requests c o l hmem
      · exact (Message.request.inj (mem_singleton.mp hmem)).2.2 }

theorem Safe.armed (honest : Honest j) (safe : Safe j upto t) (run : t.step (.armed io) = some t') :
    ∃ upto', Safe j upto' t' := by
  obtain ⟨⟨e, out⟩, harmed, rfl⟩ := map_eq_some_iff.mp run
  unfold Endpoint.armed at harmed
  split at harmed
  · cases harmed
  next r hr =>
  split at harmed
  · cases harmed
  next p hp =>
  split at harmed
  · obtain ⟨h, hcb, hout⟩ := map_eq_some_iff.mp harmed
    cases hout
    rw [safe.sourceFile] at hcb
    obtain ⟨upto', does⟩ := pumpArmCb_source honest (safe.source r hr) safe.low safe.high hp hcb
    exact ⟨upto', safe.sourceHandled does⟩
  · cases harmed

theorem step_safe (honest : Honest j) (safe : Safe j upto t) {action : TransferAction}
    (run : t.step action = some t') : ∃ upto', Safe j upto' t' := by
  cases action with
  | drive role io =>
    cases role with
    | source => exact safe.sourceDrives honest run
    | sink => exact ⟨upto, safe.sinkDrives run⟩
  | sinkReceives io => exact ⟨upto, safe.sinkReceives run⟩
  | sourceReceives io => exact safe.sourceReceives honest run
  | sendStarts =>
    obtain ⟨e, hstarts, rfl⟩ := map_eq_some_iff.mp run
    obtain ⟨r', h, rfl⟩ := map_eq_some_iff.mp hstarts
    obtain ⟨r, hr, h⟩ := bind_eq_some_iff.mp h
    refine ⟨upto, safe.setSource (fun q hq => ?_) rfl rfl fun n hn => hn⟩
    exact some.inj hq ▸ (safe.source r hr).sendStarts h
  | sendEnds =>
    obtain ⟨e, hends, rfl⟩ := map_eq_some_iff.mp run
    obtain ⟨r', h, rfl⟩ := map_eq_some_iff.mp hends
    obtain ⟨r, hr, h⟩ := bind_eq_some_iff.mp h
    refine ⟨upto, safe.setSource (fun q hq => ?_) rfl rfl fun n hn => hn⟩
    exact some.inj hq ▸ (safe.source r hr).sendEnds h
  | armed io => exact safe.armed honest run
  | unreg role => exact ⟨upto, safe.unreg role run⟩
  | tlsError role =>
    cases role with
    | source =>
      cases run
      exact ⟨upto, safe.setSource safe.source rfl rfl fun n hn => hn⟩
    | sink =>
      cases run
      exact ⟨upto, safe.setSink (fun r hr => hr) rfl fun n hn => hn⟩
  | freeDest role =>
    cases role with
    | source =>
      cases run
      exact ⟨upto, safe.sourceFreeDest⟩
    | sink =>
      cases run
      exact ⟨upto, safe.sinkFreeDest⟩

theorem honest_faithful (honest : Honest j) (sinkFile : File) (actions : List TransferAction) :
    Always Transfer.step (Faithful j) (.initial j sinkFile) actions :=
  always_of_invariant (I := fun t => ∃ upto, Safe j upto t)
    (fun _ _ _ inv run => inv.elim fun _ safe => step_safe honest safe run)
    (fun _ inv => inv.elim fun _ safe => safe.faithful) ⟨_, safe_initial j sinkFile⟩ actions

end Runs

end Coda.Tunnel
