import Coda.Lib.Run
import Coda.Sftp.Sink
import Coda.Sftp.Source

/-!
A whole transfer (`sftp1.c`, `sftp2.c`): a source, a sink and the network between them.

Every packet ever sent stays in the network and may arrive any number of times, in any order, or
never; timers go off at any time. The server is the active side (`PutFile`, `GetFile`), the client
answers packets as they come (`ClientPacket`). Limits on the number of retries are left out: they
only end a transfer early.
-/

namespace Coda.Sftp

open Coda.Lib

/-- The two ends, whether a `SFTP_START` was sent, and all packets sent so far. -/
structure World where
  source : Source
  sink : Sink
  started : Bool
  data : List DataPacket
  acks : List AckPacket
  sourceFailed : Bool
  sinkFailed : Bool

/-- What happens next. -/
inductive Action where
  /-- The server begins to send (`PutFile`). -/
  | putFile (ch : Choices)
  /-- The timer of `PutFile` goes off. -/
  | sourceTimeout (ch : Choices)
  /-- A `SFTP_START` arrives at the client. -/
  | start (ch : Choices)
  | ackArrives (ch : Choices) (ack : AckPacket)
  /-- The server begins to receive (`GetFile`). -/
  | getFile
  /-- The timer of `GetFile` goes off. -/
  | sinkTimeout
  | dataArrives (ch : Choices) (pb : DataPacket)

def Side.other : Side → Side
  | .server => .client
  | .client => .server

/-- The limits of a source before a transfer. `SFTP_MakeRPC1` of a client clears twice the bytes of
`SendTheseBits`, and the two limits are the fields behind it. -/
def Side.firstLimit : Side → BitVec 32 → BitVec 32
  | .server, first => first
  | .client, _ => 0

/-- Both ends before a transfer, with all counters at `first`. -/
def initial (file : List Byte) (first : BitVec 32) (side : Side) : World where
  source :=
    { whoAmI := side, xferState := .notStarted, rest := file, hitEof := false,
      retransmitting := false, readAheadCount := 0, sendLastContig := first, sendMostRecent := first,
      sendAckLimit := side.firstLimit first, sendWorriedLimit := side.firstLimit first,
      sendTheseBits := Mask.zero, thesePackets := Ring.empty _ _ }
  sink :=
    { whoAmI := side.other, xferState := .notStarted, startMode := false, hitEof := false,
      recvLastContig := first, recvMostRecent := first, recvTheseBits := Mask.zero,
      dupsSinceAck := 0, recvSinceAck := 0, thesePackets := Ring.empty _ _, written := [] }
  started := false
  data := []
  acks := []
  sourceFailed := false
  sinkFailed := false

/-- The source took a step: its packets go out, or it gives up. -/
def World.fromSource (w : World) : SourceResult → World
  | .error _ => { w with sourceFailed := true }
  | .ok (s, sent) => { w with source := s, data := sent ++ w.data }

/-- The sink took a step. -/
def World.fromSink (w : World) : Except Failure (Sink × List AckPacket) → World
  | .error _ => { w with sinkFailed := true }
  | .ok (s, acks) => { w with sink := s, acks := acks ++ w.acks }

/-- A step of the system; `none` if it cannot happen. -/
def step (p : Params) (w : World) : Action → Option World
  | .putFile ch =>
    let s := w.source
    if !w.sourceFailed ∧ s.whoAmI = .server ∧ s.xferState = .notStarted then
      some (w.fromSource (sendStrategy p ch
        { s with
          hitEof := false, xferState := .inProgress, sendMostRecent := s.sendLastContig,
          sendWorriedLimit := s.sendLastContig, sendAckLimit := s.sendLastContig,
          sendTheseBits := Mask.zero }))
    else none
  | .sourceTimeout ch =>
    let s := w.source
    if !w.sourceFailed ∧ s.whoAmI = .server ∧ s.xferState = .inProgress then
      some (w.fromSource (sendStrategy p ch { s with retransmitting := true }))
    else none
  | .start ch =>
    let s := w.source
    if !w.sourceFailed ∧ s.whoAmI = .client ∧ w.started then
      some (w.fromSource (sendStrategy p ch { s with xferState := .inProgress }))
    else none
  | .ackArrives ch ack =>
    let s := w.source
    if !w.sourceFailed ∧ ack ∈ w.acks then
      match s.whoAmI with
      | .client => some (w.fromSource (ackArrived p ch ack s))
      | .server =>
        -- `ServerPacket` drops it unless a transfer is in progress
        if s.xferState = .inProgress then
          some (w.fromSource (ackArrived p ch ack { s with retransmitting := false }))
        else none
    else none
  | .getFile =>
    let s := w.sink
    if !w.sinkFailed ∧ s.whoAmI = .server ∧ s.xferState = .notStarted then
      some { w with
        sink := { s with
          xferState := .inProgress, hitEof := false, recvMostRecent := s.recvLastContig,
          recvTheseBits := Mask.zero, startMode := true }
        started := true }
    else none
  | .sinkTimeout =>
    let s := w.sink
    if !w.sinkFailed ∧ s.whoAmI = .server ∧ s.xferState = .inProgress then
      if s.startMode then some { w with started := true }
      else some (w.fromSink (sendTrigger p s))
    else none
  | .dataArrives ch pb =>
    let s := w.sink
    if !w.sinkFailed ∧ pb ∈ w.data then
      match s.whoAmI with
      | .client => some (w.fromSink (dataArrived p ch pb s))
      | .server =>
        if s.xferState = .inProgress then
          some (w.fromSink (dataArrived p ch pb { s with startMode := false }))
        else none
    else none

/-- The sequence numbers last for one more read of the source. -/
def Unwrapped (p : Params) (w : World) : Action → Prop
  | .getFile | .sinkTimeout | .dataArrives _ _ => True
  | _ => w.source.sendMostRecent.toNat + p.sendAhead < 2 ^ 32

instance (p : Params) (w : World) (act : Action) : Decidable (Unwrapped p w act) := by
  cases act <;> unfold Unwrapped <;> infer_instance

/-- What a transfer is for: the sink writes the file from its beginning, all of it when it says so,
and the source does not say so before the sink has every packet. -/
structure Faithful (file : List Byte) (w : World) : Prop where
  inOrder : w.sink.written <+: file
  sinkDone : w.sink.xferState = .completed → w.sink.written = file
  sourceDone : w.source.xferState = .completed →
    w.sink.recvLastContig = w.source.sendMostRecent ∧ w.sink.written = file

/-! ### The invariant -/

/-- The ends agree about the packets `r` that were read: `a` of them are known to the source to have
arrived, `c` are written, and what is in the network is about these packets. -/
structure Joint (p : Params) (file : List Byte) (w : World) (r : Reads) (a c d : Nat) : Prop where
  file : r.file = file
  source : Sending p r a r.count w.source
  sink : Receiving p r c d w.sink
  acked_le : a ≤ c
  data : ∀ q ∈ w.data, ∃ k, Carries p r k q
  acks : ∀ ack ∈ w.acks, Acks r c ack
  fresh : w.source.xferState = .notStarted → a = r.count ∧ r.eof = false

section Invariant

variable {p : Params} {file : List Byte} {w : World} {r : Reads} {a c d : Nat}

theorem Side.firstLimit_le (side : Side) (first : BitVec 32) :
    (side.firstLimit first).toNat ≤ first.toNat := by
  cases side with
  | server => exact le_rfl
  | client => exact Nat.zero_le _

theorem initial_joint (p : Params) (file : List Byte) (first : BitVec 32) (side : Side) :
    Joint p file (initial file first side) ⟨file, first.toNat, 0, false⟩ 0 0 0 where
  file := rfl
  source :=
    { fits := first.isLt
      lastContig := rfl
      mostRecent := rfl
      contig_le := le_refl 0
      ahead := rfl
      window := Nat.zero_le _
      rest := by rw [zero_mul]; rfl
      hitEof := rfl
      atEof := nofun
      held := fun k low high => absurd high (Nat.not_le_of_lt low)
      ackLimit := side.firstLimit_le first
      worriedLimit := le_rfl
      completed := nofun }
  sink :=
    { fits := first.isLt
      lastContig := rfl
      mostRecent := rfl
      contig_le := le_refl 0
      recent_le := le_refl 0
      window := Nat.zero_le _
      written := by rw [zero_mul]; rfl
      held := by
        intro i pos le bit
        rw [initial, Mask.testBit_zero] at bit
        cases bit
      hitEof := nofun
      completed := nofun }
  acked_le := le_refl 0
  data := nofun
  acks := nofun
  fresh := fun _ => ⟨rfl, rfl⟩

variable (h : Joint p file w r a c d)
include h

/-- A transfer in which the ends agree is faithful. -/
theorem Joint.faithful : Faithful file w where
  inOrder := by
    rw [h.sink.written, h.file]
    exact List.take_prefix _ _
  sinkDone := by
    intro hdone
    obtain ⟨heof, hc⟩ := h.sink.completed hdone
    have hlength := h.source.atEof (h.sink.hitEof heof).1
    rw [h.sink.written, hc, ← h.file, List.take_of_length_le hlength]
  sourceDone := by
    intro hdone
    obtain ⟨heof, ha⟩ := h.source.completed hdone
    have hc : c = r.count :=
      le_antisymm (h.sink.contig_le.trans h.sink.recent_le) (ha ▸ h.acked_le)
    have hlength := h.source.atEof heof
    constructor
    · apply BitVec.eq_of_toNat_eq
      rw [h.sink.lastContig, h.source.mostRecent, hc]
    · rw [h.sink.written, hc, ← h.file, List.take_of_length_le hlength]

/-- A step of the source that sends packets of the file. -/
theorem Joint.fromSource {r' : Reads} {a' : Nat} {s' : Source} {sent : List DataPacket}
    (ext : r.Extends r') (acked : a' ≤ c) (sending : Sending p r' a' r'.count s')
    (carry : ∀ q ∈ sent, ∃ k, Carries p r' k q)
    (fresh : s'.xferState = .notStarted → a' = r'.count ∧ r'.eof = false) :
    Joint p file (w.fromSource (.ok (s', sent))) r' a' c d where
  file := ext.file.trans h.file
  source := sending
  sink := h.sink.extend ext sending.fits
  acked_le := acked
  data := by
    refine List.forall_mem_append.mpr ⟨carry, fun q hmem => ?_⟩
    obtain ⟨k, hk⟩ := h.data q hmem
    exact ⟨k, hk.extend ext⟩
  acks := fun ack hmem => (h.acks ack hmem).extend ext (le_refl c)
  fresh := fresh

/-- `sftp_SendStrategy` from a state that stands for the same packets. -/
theorem Joint.sendStrategy {s : Source} (sending : Sending p r a r.count s)
    (state : s.xferState = .inProgress) (ch : Choices)
    (room : s.sendMostRecent.toNat + p.sendAhead < 2 ^ 32) :
    ∃ r' a' c' d', Joint p file (w.fromSource (sendStrategy p ch s)) r' a' c' d' := by
  rw [sending.mostRecent, add_assoc] at room
  obtain ⟨r', ext, hsends, -⟩ := sendStrategy_sending sending ch room
  obtain ⟨s', sent, hsend, hsending, hstate, hcarry⟩ := hsends.sends
  rw [hsend]
  refine ⟨r', a, c, d, h.fromSource ext h.acked_le hsending hcarry fun hnot => ?_⟩
  rw [hstate, state] at hnot
  cases hnot

/-- The source gives up. -/
theorem Joint.sourceFails (e : Failure) : Joint p file (w.fromSource (.error e)) r a c d :=
  { h with }

/-- `sftp_AckArrived` from a state that stands for the same packets. -/
theorem Joint.ackArrived {s : Source} (sending : Sending p r a r.count s)
    (state : s.xferState = w.source.xferState) (ch : Choices)
    (room : s.sendMostRecent.toNat + p.sendAhead < 2 ^ 32) {ack : AckPacket} (mem : ack ∈ w.acks) :
    ∃ r' a' c' d', Joint p file (w.fromSource (ackArrived p ch ack s)) r' a' c' d' := by
  have hacks := h.acks ack mem
  by_cases hfresh : s.sendLastContig ≤ ack.gotEmAll
  · rw [sending.mostRecent, add_assoc] at room
    obtain ⟨r', a', s', sent, ext, hle, hack, hsending, hcarry, hnot⟩ :=
      ackArrived_sending sending ch room hacks (h.sink.contig_le.trans h.sink.recent_le) hfresh
    rw [hack]
    refine ⟨r', a', c, d, h.fromSource ext hle hsending hcarry fun hstate => ?_⟩
    obtain ⟨rfl, rfl⟩ := hnot hstate
    have ha : a' = a := by
      have hsame := hsending.lastContig.symm.trans sending.lastContig
      omega
    rw [ha]
    exact h.fresh (state ▸ hstate)
  · rw [ackArrived_late sending ch hacks (BitVec.not_le.mp hfresh)]
    exact ⟨r, a, c, d, h.sourceFails _⟩

/-- A step of the sink that keeps what it stands for. -/
theorem Joint.fromSink {d' : Nat} {out : Except Failure (Sink × List AckPacket)}
    (goes : Goes p r c d' out) : ∃ r' a' c' d', Joint p file (w.fromSink out) r' a' c' d' := by
  obtain ⟨s', acks, c', hout, hrec, hle, hacks⟩ := goes.goes
  rw [hout]
  refine ⟨r, a, c', d', h.file, h.source, hrec, h.acked_le.trans hle, h.data, ?_, h.fresh⟩
  exact List.forall_mem_append.mpr
    ⟨hacks, fun ack hmem => (h.acks ack hmem).extend (Reads.Extends.refl r) hle⟩

/-- `sftp_DataArrived` from a state that stands for the same packets: the window of the source keeps
every packet near. -/
theorem Joint.dataArrived {s : Sink} (receiving : Receiving p r c d s) (ch : Choices)
    {pb : DataPacket} (mem : pb ∈ w.data) :
    ∃ r' a' c' d', Joint p file (w.fromSink (dataArrived p ch pb s)) r' a' c' d' := by
  obtain ⟨k, carries⟩ := h.data pb mem
  have hle := carries.le
  have hwindow := h.source.window
  have hacked := h.acked_le
  obtain ⟨d', goes⟩ := dataArrived_receiving receiving ch carries (by omega)
  exact h.fromSink goes

/-- `PutFile` sets the counters to `SendLastContig`. -/
theorem Joint.putFile (fresh : w.source.xferState = .notStarted) :
    Sending p r a r.count
      { w.source with
        hitEof := false, xferState := .inProgress, sendMostRecent := w.source.sendLastContig,
        sendWorriedLimit := w.source.sendLastContig, sendAckLimit := w.source.sendLastContig,
        sendTheseBits := Mask.zero } := by
  obtain ⟨ha, heof⟩ := h.fresh fresh
  have hcontig := h.source.lastContig
  exact
    { h.source with
      mostRecent := ha ▸ hcontig
      hitEof := heof.symm
      ackLimit := le_of_eq (ha ▸ hcontig)
      worriedLimit := le_rfl
      completed := nofun }

/-- What one step keeps. -/
theorem step_joint {act : Action} {w' : World} (guard : Unwrapped p w act)
    (run : step p w act = some w') : ∃ r' a' c' d', Joint p file w' r' a' c' d' := by
  cases act with
  | putFile ch =>
    obtain ⟨henabled, ⟨⟩⟩ := Option.ite_none_right_eq_some.mp run
    have hsending := h.putFile henabled.2.2
    apply h.sendStrategy hsending rfl ch
    rw [hsending.mostRecent, ← h.source.mostRecent]
    exact guard
  | sourceTimeout ch =>
    obtain ⟨henabled, ⟨⟩⟩ := Option.ite_none_right_eq_some.mp run
    have hsending : Sending p r a r.count { w.source with retransmitting := true } :=
      { h.source with }
    exact h.sendStrategy hsending henabled.2.2 ch guard
  | start ch =>
    obtain ⟨henabled, ⟨⟩⟩ := Option.ite_none_right_eq_some.mp run
    have hsending : Sending p r a r.count { w.source with xferState := .inProgress } :=
      { h.source with completed := nofun }
    exact h.sendStrategy hsending rfl ch guard
  | ackArrives ch ack =>
    obtain ⟨henabled, run⟩ := Option.ite_none_right_eq_some.mp run
    split at run
    · cases run
      exact h.ackArrived h.source rfl ch guard henabled.2
    · split at run
      · cases run
        have hsending : Sending p r a r.count { w.source with retransmitting := false } :=
          { h.source with }
        exact h.ackArrived hsending rfl ch guard henabled.2
      · cases run
  | getFile =>
    obtain ⟨-, ⟨⟩⟩ := Option.ite_none_right_eq_some.mp run
    refine ⟨r, a, c, c, h.file, h.source, ?_, h.acked_le, h.data, h.acks, h.fresh⟩
    exact
      { h.sink with
        mostRecent := h.sink.lastContig
        contig_le := le_refl c
        recent_le := h.sink.contig_le.trans h.sink.recent_le
        window := Nat.le_add_right c 64
        held := by
          intro i pos le bit
          rw [Mask.testBit_zero] at bit
          cases bit
        hitEof := nofun
        completed := nofun }
  | sinkTimeout =>
    obtain ⟨-, run⟩ := Option.ite_none_right_eq_some.mp run
    split at run
    · cases run
      exact ⟨r, a, c, d, h.file, h.source, h.sink, h.acked_le, h.data, h.acks, h.fresh⟩
    · cases run
      exact h.fromSink (sendTrigger_receiving h.sink)
  | dataArrives ch pb =>
    obtain ⟨henabled, run⟩ := Option.ite_none_right_eq_some.mp run
    split at run
    · cases run
      exact h.dataArrived h.sink ch henabled.2
    · split at run
      · cases run
        have hreceiving : Receiving p r c d { w.sink with startMode := false } := { h.sink with }
        exact h.dataArrived hreceiving ch henabled.2
      · cases run

end Invariant

section Runs

variable (p : Params) (file : List Byte) (first : BitVec 32) (side : Side) (acts : List Action)
  (guarded : Guarded (step p) (Unwrapped p) (initial file first side) acts)
include guarded

/-- While the sequence numbers last, the ends agree in every state of a run. -/
theorem run_joint :
    Always (step p) (fun w => ∃ r a c d, Joint p file w r a c d) (initial file first side) acts := by
  apply always_of_guarded _ (fun _ h => h) _ guarded
  · rintro w act w' ⟨r, a, c, d, h⟩ guard run
    exact step_joint h guard run
  · exact ⟨_, 0, 0, 0, initial_joint p file first side⟩

/-- While the sequence numbers last, every run is faithful, whatever the network does. -/
theorem transfer_faithful : Always (step p) (Faithful file) (initial file first side) acts := by
  apply (run_joint p file first side acts guarded).mono
  rintro w ⟨r, a, c, d, h⟩
  exact h.faithful

end Runs

/-- The parameters of the runs below: small packets, one packet a read. -/
def smallParams : Params where
  bodyLength := 180
  bodyLength_ge := le_rfl
  windowSize := 3
  sendAhead := 1
  ackPoint := 1
  dupThreshold := 0
  ackPoint_pos := by decide
  ackPoint_le := by decide
  sendAhead_le := by decide
  windowSize_le := by decide

/-- Nothing is measured, waiting or old. -/
def quiet : Choices := ⟨false, false, fun _ => false⟩

/-- A file that makes `n` packets. -/
def zeros (n : Nat) : List Byte := List.replicate (180 * n) 0

/-- Packet `k` of such a file, as it is first sent. -/
def zeroPacket (k : Nat) : DataPacket := ⟨BitVec.ofNat 32 k, zeros 1, true, true⟩

def fullAck (k : Nat) : AckPacket := ⟨BitVec.ofNat 32 k, Mask.zero⟩

/-- The first packet is lost, and arrives behind the second one after all. -/
def reorderedRun : List Action :=
  [.putFile quiet, .sourceTimeout quiet, .dataArrives quiet (zeroPacket 2),
    .dataArrives quiet (zeroPacket 1), .ackArrives quiet (fullAck 2),
    .dataArrives quiet ⟨3, [], false, true⟩, .ackArrives quiet (fullAck 3)]

theorem reorderedRun_end :
    Guarded (step smallParams) (Unwrapped smallParams) (initial (zeros 2) 0 .server) reorderedRun ∧
      (reorderedRun.foldlM (step smallParams) (initial (zeros 2) 0 .server)).map (·.sink.written) =
        some (zeros 2) := by
  decide +kernel

theorem transfer_faithful_reordered :
    (reorderedRun.foldlM (step smallParams) (initial (zeros 2) 0 .server)).map (·.sink.written) =
        some (zeros 2) ∧
      Always (step smallParams) (Faithful (zeros 2)) (initial (zeros 2) 0 .server) reorderedRun :=
  ⟨reorderedRun_end.2, transfer_faithful smallParams (zeros 2) 0 .server reorderedRun reorderedRun_end.1⟩

/-- The acknowledgement is taken, and a late one changes nothing and sends nothing. -/
def TakesAck (p : Params) (ch : Choices) (ack : AckPacket) (s : Source) : Prop :=
  ∃ s' sent, ackArrived p ch ack s = .ok (s', sent) ∧
    (ack.gotEmAll < s.sendLastContig → s' = s ∧ sent = [])

/-- Of the acknowledgements the sink has sent, the source takes those that are not late; a late one
ends the transfer. -/
theorem takesAck_iff (p : Params) (file : List Byte) (first : BitVec 32) (side : Side)
    (acts : List Action) (w : World)
    (guarded : Guarded (step p) (Unwrapped p) (initial file first side) acts)
    (run : acts.foldlM (step p) (initial file first side) = some w) (ch : Choices) (ack : AckPacket)
    (mem : ack ∈ w.acks) (guard : Unwrapped p w (.ackArrives ch ack)) :
    TakesAck p ch ack w.source ↔ w.source.sendLastContig ≤ ack.gotEmAll := by
  obtain ⟨r, a, c, d, h⟩ := (run_joint p file first side acts guarded).reached run
  have hacks := h.acks ack mem
  constructor
  · rintro ⟨s', sent, hack, -⟩
    by_contra hlate
    rw [ackArrived_late h.source ch hacks (BitVec.not_le.mp hlate)] at hack
    cases hack
  · intro hfresh
    have room : r.first + (r.count + p.sendAhead) < 2 ^ 32 := by
      rw [← add_assoc, ← h.source.mostRecent]
      exact guard
    obtain ⟨r', a', s', sent, -, -, hack, -⟩ :=
      ackArrived_sending h.source ch room hacks (h.sink.contig_le.trans h.sink.recent_le) hfresh
    exact ⟨s', sent, hack, fun hlate => absurd hlate (BitVec.not_lt.mpr hfresh)⟩

/-- One packet after the other, each acknowledged. -/
def twoRounds : Option World :=
  [.putFile quiet, .dataArrives quiet (zeroPacket 1), .ackArrives quiet (fullAck 1),
    .dataArrives quiet (zeroPacket 2), .ackArrives quiet (fullAck 2)].foldlM (step smallParams)
    (initial (zeros 3) 0 .server)

def isFatal : SourceResult → Bool
  | .error e => e == .fatal
  | .ok _ => false

/-- After the second round the first acknowledgement would be late, and the worried limit is left
behind. -/
theorem twoRounds_end : ∃ w, twoRounds = some w ∧ fullAck 1 ∈ w.acks ∧
    (fullAck 1).gotEmAll < w.source.sendLastContig ∧
    isFatal (ackArrived smallParams quiet (fullAck 1) w.source) = true ∧
    w.source.xferState = .inProgress ∧ w.source.sendWorriedLimit < w.source.sendLastContig := by
  decide +kernel

theorem twoRounds_isSome : twoRounds.isSome = true := by
  obtain ⟨w, hw, -⟩ := twoRounds_end
  rw [hw]
  rfl

theorem takesAck_iff_twice : fullAck 2 ∈ (twoRounds.get twoRounds_isSome).acks ∧
    TakesAck smallParams quiet (fullAck 2) (twoRounds.get twoRounds_isSome).source :=
  ⟨by decide +kernel, (takesAck_iff smallParams (zeros 3) 0 .server _ _ (by decide +kernel)
    (Option.some_get twoRounds_isSome).symm quiet (fullAck 2) (by decide +kernel)
    (by decide +kernel)).mpr (by decide +kernel)⟩

theorem eq_fatal_of_isFatal {out : SourceResult} (h : isFatal out = true) : out = .error .fatal := by
  cases out with
  | error e =>
    cases e with
    | fatal => rfl
    | abort => cases h
  | ok _ => cases h

/-- The acknowledgement of the first packet comes again after that of the second. -/
theorem late_ack_fatal : ∃ w, twoRounds = some w ∧ fullAck 1 ∈ w.acks ∧
    (fullAck 1).gotEmAll < w.source.sendLastContig ∧
    ackArrived smallParams quiet (fullAck 1) w.source = .error .fatal := by
  obtain ⟨w, hw, hmem, hlate, hfatal, -⟩ := twoRounds_end
  exact ⟨w, hw, hmem, hlate, eq_fatal_of_isFatal hfatal⟩

end Coda.Sftp
