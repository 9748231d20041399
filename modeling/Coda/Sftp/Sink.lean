import Coda.Sftp.Entry

/-!
The sink side of a transfer (`sftp3.c`): `sftp_DataArrived`, `sftp_WriteStrategy` and
`sftp_SendAck`.

`Receiving` says what the counters, the bit mask and the ring of packets of a sink stand for. Data
packets of the file that are not too far ahead keep it, in any order and any number of times.
-/

namespace Coda.Sftp

open Coda.Lib List

/-- The fields of `SFTP_Entry` a sink uses, and the bytes it has written to its file. `startMode` is
the local variable of `GetFile`. -/
structure Sink where
  whoAmI : Side
  xferState : XferState
  startMode : Bool
  hitEof : Bool
  recvLastContig : BitVec 32
  recvMostRecent : BitVec 32
  recvTheseBits : Mask
  dupsSinceAck : BitVec 32
  recvSinceAck : BitVec 32
  thesePackets : Packets
  written : List Byte

/-- The bodies of the first `count` packets behind `RecvLastContig`, if all buffers are there. -/
def Sink.gather (s : Sink) : Nat → Option (List Byte)
  | 0 => some []
  | count + 1 => do
    let before ← s.gather count
    let pb ← s.thesePackets.slot (s.recvLastContig.toNat + (count + 1))
    return before ++ pb.body

/-- `sftp_WriteStrategy`; writes to the file do not fail. -/
def writeStrategy (s : Sink) : Except Failure Sink :=
  let iovlen := s.recvTheseBits.leadingOnes maxOPackets
  match s.gather iovlen with
  | none => .error .abort
  | some bytes =>
    if iovlen = 0 then .ok s
    else .ok
      { s with
        written := s.written ++ bytes
        thesePackets := s.thesePackets.fill s.recvLastContig.toNat (fun _ => none) iovlen
        recvLastContig := s.recvLastContig + BitVec.ofNat 32 iovlen
        recvTheseBits := s.recvTheseBits.shiftLeft iovlen }

/-- The packet that `sftp_SendAck` sends. -/
def ackPacket (p : Params) (s : Sink) : AckPacket :=
  let shiftlen := s.recvTheseBits.leadingOnes p.windowSize
  { gotEmAll := s.recvLastContig + BitVec.ofNat 32 shiftlen
    bitMask := if shiftlen > 0 then s.recvTheseBits.shiftLeft shiftlen else s.recvTheseBits }

/-- `sftp_SendAck`, then `sftp_WriteStrategy`. -/
def sendAckAndWrite (p : Params) (s : Sink) : Except Failure (Sink × List AckPacket) :=
  match writeStrategy { s with recvSinceAck := 0 } with
  | .error e => .error e
  | .ok s' => .ok (s', [ackPacket p s])

/-- `sftp_SendTrigger`. -/
def sendTrigger (p : Params) (s : Sink) : Except Failure (Sink × List AckPacket) :=
  sendAckAndWrite p s

/-- The buffers that `sftp_DataArrived` looks into to measure the bandwidth are there. -/
def Sink.measurable (s : Sink) : Bool :=
  (List.range (s.recvMostRecent.toNat - s.recvLastContig.toNat)).all fun i =>
    !s.recvTheseBits.testBit (i + 1) ||
      (s.thesePackets.slot (s.recvLastContig.toNat + (i + 1))).isSome

/-- Whether every packet behind `RecvLastContig` up to `RecvMostRecent` is in. -/
def Sink.allIn (s : Sink) : Bool :=
  (List.range (s.recvMostRecent.toNat - s.recvLastContig.toNat)).all fun i =>
    s.recvTheseBits.testBit (i + 1)

/-- `sftp_DataArrived`: a packet that was seen before. -/
def duplicateArrived (p : Params) (pb : DataPacket) (s : Sink) :
    Except Failure (Sink × List AckPacket) :=
  let s := { s with dupsSinceAck := s.dupsSinceAck + 1 }
  if s.whoAmI = .server ∧ (pb.ackMe ∨ s.dupsSinceAck.toNat > p.dupThreshold) then
    match sendAckAndWrite p s with
    | .error e => .error e
    | .ok (s, acks) => .ok ({ s with dupsSinceAck := 0 }, acks)
  else .ok (s, [])

/-- `sftp_DataArrived`: a new packet is kept. -/
def keepPacket (pb : DataPacket) (moffset : Nat) (s : Sink) : Sink :=
  { s with
    recvSinceAck := s.recvSinceAck + 1
    xferState := .inProgress
    recvTheseBits := s.recvTheseBits.setBit moffset
    recvMostRecent :=
      if pb.seqNumber > s.recvMostRecent then pb.seqNumber else s.recvMostRecent
    thesePackets := s.thesePackets.put pb.seqNumber.toNat (some pb) }

/-- `sftp_DataArrived`: the end of the file, once a new packet was kept and acknowledged. -/
def lookForEnd (pb : DataPacket) (s : Sink) : Except Failure Sink :=
  let s := if pb.moreData then s else { s with hitEof := true }
  if s.hitEof ∧ s.allIn then
    match writeStrategy s with
    | .error e => .error e
    | .ok s => .ok { s with xferState := .completed }
  else .ok s

/-- `sftp_DataArrived`, without a limit on packets in use. -/
def dataArrived (p : Params) (ch : Choices) (pb : DataPacket) (s : Sink) :
    Except Failure (Sink × List AckPacket) :=
  let moffset : Int := pb.seqNumber.toNat - s.recvLastContig.toNat
  if moffset > p.windowSize then .error .fatal
  else if moffset ≤ 0 ∨ s.recvTheseBits.testBit moffset.toNat then duplicateArrived p pb s
  else
    let s := keepPacket pb moffset.toNat s
    if pb.ackMe ∧ ch.echo ∧ !s.measurable then .error .abort
    else if pb.ackMe ∨ (s.whoAmI = .server ∧ s.recvSinceAck.toNat ≥ p.windowSize) then
      match sendAckAndWrite p s with
      | .error e => .error e
      | .ok (s, acks) =>
        match lookForEnd pb s with
        | .error e => .error e
        | .ok s => .ok (s, acks)
    else
      match lookForEnd pb s with
      | .error e => .error e
      | .ok s => .ok (s, [])

/-! ### What a sink stands for -/

/-- The sink has written the first `c` packets, and has seen none behind the `d`th. -/
structure Receiving (p : Params) (r : Reads) (c d : Nat) (s : Sink) : Prop where
  fits : r.first + r.count < 2 ^ 32
  lastContig : s.recvLastContig.toNat = r.first + c
  mostRecent : s.recvMostRecent.toNat = r.first + d
  contig_le : c ≤ d
  recent_le : d ≤ r.count
  window : d ≤ c + 64
  written : s.written = r.file.take (c * p.bodyLength)
  held : ∀ i, 1 ≤ i → i ≤ 64 → s.recvTheseBits.testBit i = true → c + i ≤ d ∧
    ∃ q, s.thesePackets.slot (r.first + (c + i)) = some q ∧ Carries p r (c + i) q
  hitEof : s.hitEof = true → r.eof = true ∧ d = r.count
  completed : s.xferState = .completed → s.hitEof = true ∧ c = r.count

theorem Receiving.extend {p : Params} {r r' : Reads} {c d : Nat} {s : Sink}
    (ext : r.Extends r') (fits : r'.first + r'.count < 2 ^ 32) (h : Receiving p r c d s) :
    Receiving p r' c d s where
  fits := fits
  lastContig := ext.first ▸ h.lastContig
  mostRecent := ext.first ▸ h.mostRecent
  contig_le := h.contig_le
  recent_le := h.recent_le.trans ext.count_le
  window := h.window
  written := ext.file ▸ h.written
  held i pos le bit := by
    obtain ⟨hle, q, hq, carries⟩ := h.held i pos le bit
    exact ⟨hle, q, ext.first ▸ hq, carries.extend ext⟩
  hitEof heof := by
    obtain ⟨heof', hd⟩ := h.hitEof heof
    rcases ext with rfl | ⟨-, -, hfalse, -⟩
    · exact ⟨heof', hd⟩
    · rw [heof'] at hfalse
      cases hfalse
  completed hdone := by
    obtain ⟨heof, hc⟩ := h.completed hdone
    rcases ext with rfl | ⟨-, -, hfalse, -⟩
    · exact ⟨heof, hc⟩
    · rw [(h.hitEof heof).1] at hfalse
      cases hfalse

section Sink

variable {p : Params} {r : Reads} {c d : Nat} {s : Sink}

variable (h : Receiving p r c d s)
include h

/-- The run of ones at the head of the mask ends before `RecvMostRecent`. -/
theorem Receiving.leadingOnes_le {limit : Nat} (hlimit : limit ≤ 64) :
    c + s.recvTheseBits.leadingOnes limit ≤ d := by
  have hle := s.recvTheseBits.leadingOnes_le limit
  by_cases hzero : s.recvTheseBits.leadingOnes limit = 0
  · rw [hzero]
    exact h.contig_le
  · apply (h.held _ (by omega) (by omega) _).1
    exact s.recvTheseBits.testBit_of_le_leadingOnes (by omega) le_rfl

theorem Receiving.gather {count : Nat} (hcount : count ≤ s.recvTheseBits.leadingOnes maxOPackets) :
    ∃ bytes, s.gather count = some bytes ∧
      s.written ++ bytes = r.file.take ((c + count) * p.bodyLength) := by
  induction count with
  | zero => exact ⟨[], rfl, by rw [append_nil, add_zero, h.written]⟩
  | succ count ih =>
    obtain ⟨bytes, hbytes, happend⟩ := ih (by omega)
    have hle : s.recvTheseBits.leadingOnes maxOPackets ≤ 64 := s.recvTheseBits.leadingOnes_le _
    have hbit := s.recvTheseBits.testBit_of_le_leadingOnes (by omega) hcount
    obtain ⟨-, q, hslot, carries⟩ := h.held (count + 1) (by omega) (by omega) hbit
    refine ⟨bytes ++ q.body, ?_, ?_⟩
    · rw [Sink.gather, hbytes, h.lastContig, add_assoc, hslot]
      rfl
    · rw [← append_assoc, happend, carries.body]
      exact r.take_append_chunk p (c + count)

/-- `sftp_WriteStrategy` writes what is in, in order. -/
theorem writeStrategy_receiving :
    ∃ s', writeStrategy s = .ok s' ∧
      Receiving p r (c + s.recvTheseBits.leadingOnes maxOPackets) d s' ∧
      s'.xferState = s.xferState ∧ s'.hitEof = s.hitEof ∧ s'.whoAmI = s.whoAmI := by
  obtain ⟨bytes, hbytes, happend⟩ := h.gather le_rfl
  have hones := h.leadingOnes_le (le_refl maxOPackets)
  unfold writeStrategy
  dsimp only
  rw [hbytes]
  dsimp only
  by_cases hzero : s.recvTheseBits.leadingOnes maxOPackets = 0
  · rw [hzero]
    exact ⟨s, rfl, h, rfl, rfl, rfl⟩
  · rw [if_neg hzero]
    generalize s.recvTheseBits.leadingOnes maxOPackets = ones at *
    refine ⟨_, rfl, ?_, rfl, rfl, rfl⟩
    have hfits := h.fits
    have hrecent := h.recent_le
    exact
      { fits := h.fits
        lastContig := by
          rw [BitVec.toNat_add, h.lastContig, BitVec.toNat_ofNat]
          omega
        mostRecent := h.mostRecent
        contig_le := hones
        recent_le := h.recent_le
        window := h.window.trans (by omega)
        written := happend
        held := by
          intro i pos le bit
          rw [Mask.testBit_shiftLeft _ _ ⟨pos, le⟩] at bit
          by_cases hin : i + ones ≤ 64
          · rw [if_pos hin] at bit
            obtain ⟨hle, q, hslot, carries⟩ := h.held (i + ones) (by omega) hin bit
            have hindex : c + (i + ones) = c + ones + i := by omega
            rw [hindex] at hle hslot carries
            refine ⟨hle, q, ?_, carries⟩
            rw [h.lastContig, Ring.slot_fill_window _ _ _ (by omega) (by unfold maxOPackets; omega)
              (by unfold maxOPackets; omega), hslot]
          · rw [if_neg hin] at bit
            cases bit
        hitEof := h.hitEof
        completed := by
          intro hdone
          obtain ⟨heof, hc⟩ := h.completed hdone
          exact ⟨heof, by omega⟩ }

/-- The acknowledgement covers no more than what is written right after it. -/
theorem ackPacket_acks : Acks r (c + s.recvTheseBits.leadingOnes maxOPackets) (ackPacket p s) := by
  have hlimit : p.windowSize ≤ 64 := p.windowSize_le
  have hones := h.leadingOnes_le hlimit
  have hmore : s.recvTheseBits.leadingOnes p.windowSize ≤ s.recvTheseBits.leadingOnes maxOPackets :=
    s.recvTheseBits.le_leadingOnes ((s.recvTheseBits.leadingOnes_le _).trans hlimit)
      fun i pos le => s.recvTheseBits.testBit_of_le_leadingOnes pos le
  have hfits := h.fits
  have hrecent := h.recent_le
  refine ⟨c + s.recvTheseBits.leadingOnes p.windowSize, by omega, ?_, ?_⟩
  · rw [ackPacket, BitVec.toNat_add, h.lastContig, BitVec.toNat_ofNat]
    omega
  · intro i pos le bit
    rw [ackPacket] at bit
    split at bit
    · rw [Mask.testBit_shiftLeft _ _ ⟨pos, le⟩] at bit
      split at bit
      next hin =>
        have hheld := (h.held _ (by omega) hin bit).1
        omega
      next => cases bit
    next hzero =>
      have hheld := (h.held i pos le bit).1
      omega

theorem Receiving.setRecvSinceAck (n : BitVec 32) :
    Receiving p r c d { s with recvSinceAck := n } :=
  { h with }

theorem Receiving.setDupsSinceAck (n : BitVec 32) :
    Receiving p r c d { s with dupsSinceAck := n } :=
  { h with }

/-- The sink goes on, has written at least `c` packets, and acknowledges no more than it has
written. -/
structure Goes (p : Params) (r : Reads) (c d : Nat) (out : Except Failure (Sink × List AckPacket)) :
    Prop where
  goes : ∃ s' acks c', out = .ok (s', acks) ∧ Receiving p r c' d s' ∧ c ≤ c' ∧
    ∀ ack ∈ acks, Acks r c' ack

theorem sendAckAndWrite_receiving :
    ∃ s' c', sendAckAndWrite p s = .ok (s', [ackPacket p s]) ∧ Receiving p r c' d s' ∧ c ≤ c' ∧
      Acks r c' (ackPacket p s) ∧ s'.xferState = s.xferState ∧ s'.hitEof = s.hitEof := by
  obtain ⟨s', hwrite, hrec, hstate, heof, -⟩ := writeStrategy_receiving (h.setRecvSinceAck 0)
  have hack := ackPacket_acks h
  refine ⟨s', _, ?_, hrec, Nat.le_add_right _ _, hack, hstate, heof⟩
  rw [sendAckAndWrite, hwrite]

theorem sendTrigger_receiving : Goes p r c d (sendTrigger p s) := by
  obtain ⟨s', c', hsend, hrec, hle, hack, -⟩ := sendAckAndWrite_receiving h
  refine ⟨s', _, c', hsend, hrec, hle, ?_⟩
  intro ack hmem
  rwa [mem_singleton.mp hmem]

theorem duplicateArrived_receiving (pb : DataPacket) : Goes p r c d (duplicateArrived p pb s) := by
  have h' := h.setDupsSinceAck (s.dupsSinceAck + 1)
  unfold duplicateArrived
  dsimp only
  split
  · obtain ⟨s', c', hsend, hrec, hle, hack, -⟩ := sendAckAndWrite_receiving h'
    rw [hsend]
    refine ⟨_, _, c', rfl, hrec.setDupsSinceAck 0, hle, ?_⟩
    intro ack hmem
    rwa [mem_singleton.mp hmem]
  · exact ⟨_, [], c, rfl, h', le_refl c, nofun⟩

variable {pb : DataPacket}

/-- A new packet takes its place in the ring and in the mask. -/
theorem keepPacket_receiving {k : Nat} (carries : Carries p r k pb) (new : c < k)
    (near : k ≤ c + 64) :
    Receiving p r c (max d k) (keepPacket pb (k - c) s) where
  fits := h.fits
  lastContig := h.lastContig
  mostRecent := by
    unfold keepPacket
    split
    next hgt =>
      rw [gt_iff_lt, BitVec.lt_def, h.mostRecent, carries.seqNumber] at hgt
      rw [carries.seqNumber, max_eq_right (by omega)]
    next hle =>
      rw [gt_iff_lt, BitVec.lt_def, h.mostRecent, carries.seqNumber] at hle
      rw [h.mostRecent, max_eq_left (by omega)]
  contig_le := h.contig_le.trans (le_max_left d k)
  recent_le := Nat.max_le.mpr ⟨h.recent_le, carries.le⟩
  window := Nat.max_le.mpr ⟨h.window, near⟩
  written := h.written
  held := by
    intro i pos le bit
    unfold keepPacket at bit ⊢
    rw [Mask.testBit_setBit _ ⟨by omega, by omega⟩ ⟨pos, le⟩] at bit
    by_cases hi : i = k - c
    · have hik : c + i = k := by omega
      rw [hik, carries.seqNumber]
      exact ⟨le_max_right d k, pb, Ring.slot_put _ _ _, carries⟩
    · rw [if_neg hi] at bit
      obtain ⟨hle, q, hslot, hcarries⟩ := h.held i pos le bit
      refine ⟨hle.trans (le_max_left d k), q, ?_, hcarries⟩
      rw [carries.seqNumber, Ring.slot_put_window _ _ (by omega) (by unfold maxOPackets; omega)
        (by unfold maxOPackets; omega), hslot]
  hitEof := by
    intro heof
    obtain ⟨heof', hd⟩ := h.hitEof heof
    exact ⟨heof', by rw [hd, max_eq_left carries.le]⟩
  completed := by
    intro hdone
    cases hdone

theorem Receiving.measurable : s.measurable = true := by
  rw [Sink.measurable, all_eq_true]
  intro i hi
  have hwindow := h.window
  rw [mem_range, h.mostRecent, h.lastContig] at hi
  cases hbit : s.recvTheseBits.testBit (i + 1) with
  | false => rfl
  | true =>
    obtain ⟨-, q, hslot, -⟩ := h.held (i + 1) (by omega) (by omega) hbit
    rw [h.lastContig, add_assoc, hslot]
    rfl

/-- When all packets up to the last one are in, they are all written. -/
theorem Receiving.leadingOnes_of_allIn (hall : s.allIn = true) :
    c + s.recvTheseBits.leadingOnes maxOPackets = d := by
  have hwindow := h.window
  have hmost := h.leadingOnes_le (le_refl maxOPackets)
  have hones : d - c ≤ s.recvTheseBits.leadingOnes maxOPackets := by
    apply s.recvTheseBits.le_leadingOnes
    · unfold maxOPackets
      omega
    · intro i pos le
      rw [Sink.allIn, all_eq_true, h.mostRecent, h.lastContig] at hall
      have hbit := hall (i - 1) (mem_range.mpr (by omega))
      rwa [Nat.sub_add_cancel pos] at hbit
  omega

theorem lookForEnd_receiving {k : Nat} (carries : Carries p r k pb) (seen : k ≤ d) :
    ∃ s' c', lookForEnd pb s = .ok s' ∧ Receiving p r c' d s' ∧ c ≤ c' := by
  have hmarked : Receiving p r c d (if pb.moreData = true then s else { s with hitEof := true }) := by
    split
    · exact h
    next hlast =>
      obtain ⟨heof, hk⟩ := carries.last.mp (Bool.eq_false_iff.mpr hlast)
      have hd : d = r.count := le_antisymm h.recent_le (hk ▸ seen)
      exact { h with
        hitEof := fun _ => ⟨heof, hd⟩
        completed := fun hdone => ⟨rfl, (h.completed hdone).2⟩ }
  unfold lookForEnd
  dsimp only
  generalize (if pb.moreData = true then s else { s with hitEof := true }) = s₁ at *
  split
  next hend =>
    obtain ⟨s', hwrite, hrec, -, heof, -⟩ := writeStrategy_receiving hmarked
    rw [hmarked.leadingOnes_of_allIn hend.2] at hrec
    rw [hwrite]
    refine ⟨_, d, rfl, ?_, h.contig_le⟩
    exact { hrec with completed := fun _ => ⟨heof.trans hend.1, (hmarked.hitEof hend.1).2⟩ }
  · exact ⟨s₁, c, rfl, hmarked, le_refl c⟩

/-- A data packet of the file that is not too far ahead keeps what the sink stands for, whether it
was seen before or not. -/
theorem dataArrived_receiving (ch : Choices) {k : Nat} (carries : Carries p r k pb)
    (near : k ≤ c + p.windowSize) : ∃ d', Goes p r c d' (dataArrived p ch pb s) := by
  have hlimit : p.windowSize ≤ 64 := p.windowSize_le
  have hoffset : (pb.seqNumber.toNat : Int) - s.recvLastContig.toNat = (k : Int) - c := by
    rw [carries.seqNumber, h.lastContig]
    omega
  unfold dataArrived
  dsimp only
  rw [hoffset, if_neg (by omega)]
  split
  · exact ⟨d, duplicateArrived_receiving h pb⟩
  next hnew =>
    have hpos : c < k := by
      by_contra hle
      exact hnew (.inl (by omega))
    have hnat : ((k : Int) - c).toNat = k - c := by omega
    have hkept := keepPacket_receiving h carries hpos (by omega)
    rw [hnat, hkept.measurable]
    refine ⟨max d k, ?_⟩
    rw [if_neg (by simp)]
    split
    · obtain ⟨s₂, c₂, hsend, hrec, hle, hack, -⟩ := sendAckAndWrite_receiving hkept
      obtain ⟨s₃, c₃, hlook, hrec₃, hle₃⟩ := lookForEnd_receiving hrec carries (le_max_right d k)
      rw [hsend]
      dsimp only
      rw [hlook]
      refine ⟨s₃, _, c₃, rfl, hrec₃, hle.trans hle₃, ?_⟩
      intro ack hmem
      rw [mem_singleton.mp hmem]
      exact hack.extend (Reads.Extends.refl r) hle₃
    · obtain ⟨s₃, c₃, hlook, hrec₃, hle₃⟩ := lookForEnd_receiving hkept carries (le_max_right d k)
      rw [hlook]
      exact ⟨s₃, [], c₃, rfl, hrec₃, hle₃, nofun⟩

end Sink

end Coda.Sftp
