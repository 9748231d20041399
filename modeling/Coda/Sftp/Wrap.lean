import Coda.Sftp.Transfer

/-!
What happens when the sequence numbers of one transfer wrap around: the source takes the oldest
acknowledgement for one of its last packets, and reports a transfer of which the sink has not seen
the end.

The run is as long as the number range, so it is not evaluated.
-/

namespace Coda.Sftp

open Coda.Lib List Option

/-- Packet number `k`. -/
abbrev seq (k : Nat) : BitVec 32 := BitVec.ofNat 32 k

section Steps

variable {s : Source} {rest : List Byte}

/-- The ring does not see a number wrap around. -/
theorem toNat_succ_mod (x : BitVec 32) : (x + 1).toNat % 64 = (x.toNat + 1) % 64 := by
  have hone : BitVec.toNat (1 : BitVec 32) = 1 := rfl
  rw [BitVec.toNat_add]
  omega

theorem worriedLoop_quiet (s : Source) (i : Nat) :
    worriedLoop quiet s i = min i s.sendWorriedLimit.toNat := by
  induction i with
  | zero => exact (Nat.zero_min _).symm
  | succ i ih =>
    rw [worriedLoop]
    split
    next hle => exact (min_eq_left hle).symm
    next hgt =>
      have hsame : worriedLoop quiet s i = min (i + 1) s.sendWorriedLimit.toNat := by
        omega
      split
      · exact hsame
      · split
        · exact hsame
        · exact hsame

/-- The source has read one more packet. -/
def afterRead (s : Source) (rest : List Byte) : Source :=
  { s with
    rest := rest
    hitEof := false
    thesePackets := s.thesePackets.put (s.sendMostRecent.toNat + 1) (some (readPacket smallParams s 1))
    readAheadCount := 1 }

theorem readStrategy_one (heof : s.hitEof = false) (hrest : s.rest = zeros 1 ++ rest)
    (hopen : winIsOpen smallParams s = true) : readStrategy smallParams s = afterRead s rest := by
  have hread : min (smallParams.sendAhead * smallParams.bodyLength) s.rest.length = 180 := by
    rw [hrest, length_append]
    exact min_eq_left (Nat.le_add_right 180 _)
  have hdrop : (zeros 1 ++ rest).drop 180 = rest := drop_left' (length_replicate ..)
  rw [readStrategy, heof, hopen]
  dsimp only
  rw [hread, hrest, hdrop]
  rfl

/-- Nothing is old, so `CheckWorried` finds nothing while it had found nothing before. -/
theorem checkWorried_calm (heof : s.hitEof = false) (hcalm : s.sendWorriedLimit ≤ s.sendLastContig) :
    ∃ limit, limit ≤ s.sendLastContig ∧
      checkWorried quiet s = ({ s with sendWorriedLimit := limit }, false) := by
  have hbound : ∀ s₁ : Source, s₁.sendWorriedLimit ≤ s.sendLastContig →
      BitVec.ofNat 32 (worriedLoop quiet s₁ s₁.sendAckLimit.toNat) ≤ s.sendLastContig := by
    intro s₁ hle
    rw [BitVec.le_def] at hle ⊢
    rw [worriedLoop_quiet]
    exact (Nat.mod_le _ _).trans ((min_le_right _ _).trans hle)
  rw [checkWorried, if_neg (by rw [heof]; decide)]
  split
  · refine ⟨_, hbound _ (BitVec.le_refl _), Prod.ext rfl ?_⟩
    exact decide_eq_false (BitVec.not_lt.mpr (hbound _ (BitVec.le_refl _)))
  · refine ⟨_, hbound _ hcalm, Prod.ext rfl ?_⟩
    exact decide_eq_false (BitVec.not_lt.mpr (hbound _ hcalm))

/-- The one packet that was read ahead is sent and demands an acknowledgement. -/
theorem sendSendAhead_one (hahead : s.readAheadCount = 1) (pb : DataPacket)
    (hslot : s.thesePackets.slot (s.sendMostRecent + 1).toNat = some pb) :
    sendSendAhead smallParams quiet s =
      .ok ({ sendNext true pb s with readAheadCount := 0 }, [{ pb with ackMe := true }]) := by
  have hwants : (!(decide (s.readAheadCount < smallParams.sendAhead) && quiet.morePackets) &&
      s.sendMostRecent + 1 == s.sendMostRecent + BitVec.ofNat 32
        (if smallParams.ackPoint > s.readAheadCount then s.readAheadCount else smallParams.ackPoint)) =
      true := by
    rw [hahead]
    exact beq_self_eq_true (s.sendMostRecent + 1)
  rw [sendSendAhead]
  dsimp only
  rw [hahead] at hwants ⊢
  rw [sendAheadLoop, hslot]
  rw [hwants]
  rfl

/-- One more packet is read and sent. -/
theorem sendStrategy_one (hahead : s.readAheadCount = 0) (heof : s.hitEof = false)
    (hrest : s.rest = zeros 1 ++ rest) (hopen : winIsOpen smallParams s = true)
    (hcalm : s.sendWorriedLimit ≤ s.sendLastContig) :
    ∃ limit packets, sendStrategy smallParams quiet s =
        .ok ({ s with
          rest := rest
          hitEof := false
          readAheadCount := 0
          sendMostRecent := s.sendMostRecent + 1
          sendAckLimit := s.sendMostRecent + 1
          sendWorriedLimit := limit
          thesePackets := packets }, [⟨s.sendMostRecent + 1, zeros 1, true, true⟩]) ∧
      limit ≤ s.sendLastContig ∧ (packets.slot (s.sendMostRecent + 1).toNat).isSome = true ∧
      ∀ y, y % 64 ≠ (s.sendMostRecent + 1).toNat % 64 → packets.slot y = s.thesePackets.slot y := by
  have hmod := toNat_succ_mod s.sendMostRecent
  have hpacket : readPacket smallParams s 1 = ⟨s.sendMostRecent + 1, zeros 1, true, false⟩ := by
    rw [readPacket, hrest]
    exact congrArg (DataPacket.mk _ · _ _) (take_left' (length_replicate ..))
  have hslot : (afterRead s rest).thesePackets.slot (s.sendMostRecent + 1).toNat =
      some ⟨s.sendMostRecent + 1, zeros 1, true, false⟩ := by
    rw [← hpacket]
    exact if_pos hmod
  have hchecked : ∃ limit, limit ≤ s.sendLastContig ∧
      (if (afterRead s rest).whoAmI = .client ∨ (afterRead s rest).retransmitting = true then
        checkWorried quiet (afterRead s rest) else (afterRead s rest, false)) =
      ({ afterRead s rest with sendWorriedLimit := limit }, false) := by
    split
    · exact checkWorried_calm (s := afterRead s rest) rfl hcalm
    · exact ⟨s.sendWorriedLimit, hcalm, rfl⟩
  obtain ⟨limit, hlimit, heq⟩ := hchecked
  refine ⟨limit, (afterRead s rest).thesePackets.put (s.sendMostRecent + 1).toNat
    (some ⟨s.sendMostRecent + 1, zeros 1, true, true⟩), ?_, hlimit, ?_, ?_⟩
  · have hopen' : winIsOpen smallParams (afterRead s rest) = true := hopen
    rw [sendStrategy, if_pos hahead, readStrategy_one heof hrest hopen, sendPackets, heq, hopen']
    exact sendSendAhead_one (s := { afterRead s rest with sendWorriedLimit := limit }) rfl _ hslot
  · exact congrArg Option.isSome (Ring.slot_put _ _ _)
  · intro y hy
    exact (Ring.slot_put_of_ne _ _ hy).trans (Ring.slot_put_of_ne _ _ (hmod ▸ hy))

theorem ofNat_succ (k : Nat) : seq k + 1 = seq (k + 1) :=
  (BitVec.ofNat_add k 1).symm

theorem toNat_seq {k : Nat} (hk : k < 2 ^ 32) : (seq k).toNat = k := by
  rw [BitVec.toNat_ofNat, Nat.mod_eq_of_lt hk]

theorem seq_lt_succ {k : Nat} (hk : k + 1 < 2 ^ 32) : seq k < seq (k + 1) := by
  rw [BitVec.lt_def, toNat_seq hk, toNat_seq (by omega)]
  omega

theorem leadingOnes_one : (Mask.zero.setBit 1).leadingOnes maxOPackets = 1 := by decide

theorem writeStrategy_one {s : Sink} {pb : DataPacket} (hbits : s.recvTheseBits = Mask.zero.setBit 1)
    (hslot : s.thesePackets.slot (s.recvLastContig.toNat + 1) = some pb) :
    ∃ packets, writeStrategy s =
      .ok { s with
        written := s.written ++ pb.body
        thesePackets := packets
        recvLastContig := s.recvLastContig + 1
        recvTheseBits := Mask.zero } := by
  have hgather : s.gather 1 = some pb.body := by
    rw [Sink.gather, hslot]
    rfl
  rw [writeStrategy, hbits, leadingOnes_one, hgather]
  exact ⟨_, rfl⟩

theorem sendAckAndWrite_one {s : Sink} (pb : DataPacket) {k : Nat}
    (hcontig : s.recvLastContig = seq k) (hbits : s.recvTheseBits = Mask.zero.setBit 1)
    (hslot : s.thesePackets.slot (s.recvLastContig.toNat + 1) = some pb) :
    ∃ packets, sendAckAndWrite smallParams s =
      .ok ({ s with
        recvSinceAck := 0
        written := s.written ++ pb.body
        thesePackets := packets
        recvLastContig := seq (k + 1)
        recvTheseBits := Mask.zero }, [fullAck (k + 1)]) := by
  have hones : (Mask.zero.setBit 1).leadingOnes smallParams.windowSize = 1 := by decide
  have hack : ackPacket smallParams s = fullAck (k + 1) := by
    rw [ackPacket, hbits, hones, hcontig]
    exact congrArg (AckPacket.mk · Mask.zero) (ofNat_succ k)
  obtain ⟨packets, hwrite⟩ := writeStrategy_one (s := { s with recvSinceAck := 0 }) hbits hslot
  refine ⟨packets, ?_⟩
  rw [sendAckAndWrite, hwrite, hack, ← ofNat_succ, ← hcontig]

theorem lookForEnd_more {s : Sink} {pb : DataPacket} (hmore : pb.moreData = true)
    (heof : s.hitEof = false) : lookForEnd pb s = .ok s := by
  rw [lookForEnd, if_pos hmore, if_neg (by rw [heof]; simp)]

/-- The next packet arrives in order, is written and acknowledged. -/
theorem dataArrived_one {s : Sink} {k : Nat} (hk : k + 1 < 2 ^ 32)
    (hcontig : s.recvLastContig = seq k) (hrecent : s.recvMostRecent = seq k)
    (hbits : s.recvTheseBits = Mask.zero) (heof : s.hitEof = false) :
    ∃ packets, dataArrived smallParams quiet (zeroPacket (k + 1)) s =
      .ok ({ s with
        xferState := .inProgress
        recvLastContig := seq (k + 1)
        recvMostRecent := seq (k + 1)
        recvTheseBits := Mask.zero
        recvSinceAck := 0
        thesePackets := packets
        written := s.written ++ zeros 1 }, [fullAck (k + 1)]) := by
  have hoffset : ((zeroPacket (k + 1)).seqNumber.toNat : Int) - s.recvLastContig.toNat = 1 := by
    rw [hcontig, zeroPacket, toNat_seq hk, toNat_seq (by omega)]
    omega
  have hseq : (zeroPacket (k + 1)).seqNumber = seq (k + 1) := rfl
  have hackMe : (zeroPacket (k + 1)).ackMe = true := rfl
  have hmore : (zeroPacket (k + 1)).moreData = true := rfl
  let kept : Sink :=
    { s with
      recvSinceAck := s.recvSinceAck + 1
      xferState := .inProgress
      recvTheseBits := Mask.zero.setBit 1
      recvMostRecent := seq (k + 1)
      thesePackets := s.thesePackets.put (k + 1) (some (zeroPacket (k + 1))) }
  have hkept : keepPacket (zeroPacket (k + 1)) 1 s = kept := by
    rw [keepPacket, hbits, hrecent, hseq, if_pos (seq_lt_succ hk), toNat_seq hk]
  obtain ⟨packets, hsend⟩ := sendAckAndWrite_one (zeroPacket (k + 1)) (s := kept) hcontig rfl (by
    rw [hcontig, toNat_seq (by omega)]
    exact Ring.slot_put _ _ _)
  have hwindow : ¬(1 : Int) > smallParams.windowSize := by decide
  have hnew : ¬((1 : Int) ≤ 0 ∨ s.recvTheseBits.testBit (Int.toNat 1) = true) := by
    rw [hbits]
    decide
  refine ⟨packets, ?_⟩
  rw [dataArrived, hoffset]
  rw [if_neg hwindow, if_neg hnew, show Int.toNat 1 = 1 from rfl, hkept, if_neg (by simp [quiet]),
    if_pos (Or.inl hackMe), hsend]
  dsimp only
  rw [lookForEnd_more hmore]
  · rfl
  · exact heof

/-- The next packet is acknowledged, and one more is sent. -/
theorem ackArrived_one {k : Nat} (hk : k + 2 < 2 ^ 32)
    (hcontig : s.sendLastContig = seq k)
    (hrecent : s.sendMostRecent = seq (k + 1)) (hahead : s.readAheadCount = 0)
    (heof : s.hitEof = false) (hrest : s.rest = zeros 1 ++ rest)
    (hcalm : s.sendWorriedLimit ≤ s.sendLastContig) :
    ∃ limit packets, ackArrived smallParams quiet (fullAck (k + 1)) s =
        .ok ({ s with
          xferState := .inProgress
          rest := rest
          hitEof := false
          readAheadCount := 0
          sendLastContig := seq (k + 1)
          sendMostRecent := seq (k + 2)
          sendAckLimit := seq (k + 2)
          sendWorriedLimit := limit
          sendTheseBits := Mask.zero
          thesePackets := packets }, [zeroPacket (k + 2)]) ∧
      limit ≤ seq (k + 1) ∧ (packets.slot (k + 2)).isSome = true := by
  have hgot : (fullAck (k + 1)).gotEmAll = seq (k + 1) := rfl
  have hmask : (fullAck (k + 1)).bitMask = Mask.zero := rfl
  have hrun : (seq (k + 1) - seq k).toNat = 1 := by
    rw [BitVec.toNat_sub, toNat_seq (by omega), toNat_seq (by omega)]
    omega
  have hless : seq k ≤ seq (k + 1) :=
    BitVec.le_of_lt (seq_lt_succ (by omega))
  have hopen : (BitVec.ofNat 32 smallParams.sendAhead + s.sendMostRecent -
      seq (k + 1)).toNat ≤ smallParams.windowSize := by
    rw [hrecent, BitVec.add_sub_cancel]
    decide
  obtain ⟨limit, packets, hsend, hlimit, hslot, -⟩ := sendStrategy_one
    (s := { s with
      sendLastContig := seq (k + 1)
      sendTheseBits := Mask.zero
      thesePackets := s.thesePackets.fill s.sendLastContig.toNat (fun _ => none) 1
      xferState := .inProgress }) hahead heof hrest (decide_eq_true hopen)
    (BitVec.le_trans hcalm (hcontig ▸ hless))
  rw [hrecent, ofNat_succ] at hsend hslot
  rw [toNat_seq hk] at hslot
  refine ⟨limit, packets, ?_, hlimit, hslot⟩
  rw [ackArrived, hgot, hmask, hrecent, hcontig, hrun]
  rw [if_neg (by decide), if_neg (by simp), if_neg (by decide), if_neg (by simp [quiet]),
    if_neg (by rw [heof]; simp), Int.toNat_natCast, ← hcontig, hsend]
  dsimp only
  rw [if_pos (seq_lt_succ hk)]
  rfl

/-- The source goes on with one packet more, the last one. -/
def SendsLast (s : Source) (out : SourceResult) : Prop :=
  ∃ s' sent, out = .ok (s', sent) ∧ s'.whoAmI = s.whoAmI ∧ s'.xferState = s.xferState ∧
    s'.hitEof = true ∧ s'.readAheadCount = 0 ∧ s'.sendLastContig = s.sendLastContig ∧
    s'.sendMostRecent = s.sendMostRecent + 1

/-- At the end of the file the first unacknowledged packet is sent again before the last one. -/
theorem sendPackets_last (hahead : s.readAheadCount = 1) (heof : s.hitEof = true)
    (hopen : winIsOpen smallParams s = true) (hretry : s.retransmitting = true)
    {first last : DataPacket} (hfirst : s.thesePackets.slot (s.sendLastContig + 1).toNat = some first)
    (hlast : s.thesePackets.slot (s.sendMostRecent + 1).toNat = some last)
    (hapart : (s.sendMostRecent + 1).toNat % 64 ≠ (s.sendLastContig + 1).toNat % 64) :
    SendsLast s (sendPackets smallParams quiet s) := by
  have hchecked : checkWorried quiet s = ({ s with sendWorriedLimit := s.sendAckLimit }, true) := by
    rw [checkWorried, if_pos heof]
  let again : Source :=
    { s with
      sendWorriedLimit := s.sendAckLimit
      thesePackets := s.thesePackets.put (s.sendLastContig + 1).toNat
        (some { first with ackMe := false }) }
  have hagain : sendFirstUnacked true { s with sendWorriedLimit := s.sendAckLimit } =
      .ok (again, [{ first with ackMe := false }]) := by
    rw [sendFirstUnacked]
    rw [hfirst]
    rfl
  have hsend := sendSendAhead_one (s := again) hahead last
    ((Ring.slot_put_of_ne _ _ hapart).trans hlast)
  rw [sendPackets, if_neg (by omega), if_pos (Or.inr hretry), hchecked]
  dsimp only
  rw [if_neg (by rw [hopen]; decide), if_pos (by omega), hagain]
  dsimp only
  rw [hsend]
  exact ⟨_, _, rfl, rfl, rfl, heof, rfl, rfl, rfl⟩

/-- The end of the file is met. -/
theorem sendStrategy_last (hahead : s.readAheadCount = 0) (heof : s.hitEof = false)
    (hrest : s.rest = []) (hopen : winIsOpen smallParams s = true) (hretry : s.retransmitting = true)
    (hheld : (s.thesePackets.slot (s.sendLastContig + 1).toNat).isSome = true)
    (hapart : (s.sendMostRecent + 1).toNat % 64 ≠ (s.sendLastContig + 1).toNat % 64) :
    SendsLast s (sendStrategy smallParams quiet s) := by
  have hmod := toNat_succ_mod s.sendMostRecent
  obtain ⟨last, hread⟩ : ∃ last, readStrategy smallParams s =
      { s with
        hitEof := true
        thesePackets := (s.thesePackets.put (s.sendMostRecent.toNat + 1)
          (some (readPacket smallParams s 1))).put (s.sendMostRecent.toNat + 1) (some last)
        readAheadCount := 1 } := by
    rw [readStrategy, if_neg (by rw [heof]; decide), if_neg (by rw [hopen]; decide), hrest]
    exact ⟨_, rfl⟩
  obtain ⟨first, hfirst⟩ := isSome_iff_exists.mp hheld
  have hne := (hmod ▸ hapart).symm
  rw [sendStrategy, if_pos hahead, hread]
  exact sendPackets_last rfl rfl hopen hretry
    ((Ring.slot_put_of_ne _ _ hne).trans ((Ring.slot_put_of_ne _ _ hne).trans hfirst))
    (if_pos hmod) hapart

/-- Behind the wrap, the acknowledgement of packet 1 is one of the last packet. -/
theorem ackArrived_wrapped (heof : s.hitEof = true) (hahead : s.readAheadCount = 0)
    (hcontig : s.sendLastContig = seq (2 ^ 32 - 2)) (hrecent : s.sendMostRecent = 0 + 1) :
    ∃ s', ackArrived smallParams quiet (fullAck 1) s = .ok (s', []) ∧ s'.xferState = .completed := by
  have hgot : (fullAck 1).gotEmAll = 1 := rfl
  have hrun : ((1 : BitVec 32) - seq (2 ^ 32 - 2)).toNat = 3 := by decide
  have hwin : ((0 + 1 : BitVec 32) - seq (2 ^ 32 - 2)).toNat = 3 := by decide
  rw [ackArrived, hgot, hrecent, hcontig, hrun]
  dsimp only
  rw [if_neg (by decide), if_neg (by simp), if_neg (by decide), if_neg (by simp [quiet]),
    if_pos ⟨heof, hahead, by decide⟩]
  exact ⟨_, rfl, rfl⟩

end Steps

section Enabled

variable {p : Params} {w : World} {ch : Choices}

theorem step_sourceTimeout (failed : w.sourceFailed = false) (side : w.source.whoAmI = .server)
    (state : w.source.xferState = .inProgress) : step p w (.sourceTimeout ch) =
      some (w.fromSource (sendStrategy p ch { w.source with retransmitting := true })) := by
  rw [step, if_pos ⟨by rw [failed]; rfl, side, state⟩]

theorem step_ackArrives {ack : AckPacket} (failed : w.sourceFailed = false) (mem : ack ∈ w.acks)
    (side : w.source.whoAmI = .server) (state : w.source.xferState = .inProgress) :
    step p w (.ackArrives ch ack) =
      some (w.fromSource (ackArrived p ch ack { w.source with retransmitting := false })) := by
  rw [step, if_pos ⟨by rw [failed]; rfl, mem⟩]
  split
  next hclient =>
    rw [side] at hclient
    cases hclient
  · rw [if_pos state]

theorem step_dataArrives {pb : DataPacket} (failed : w.sinkFailed = false) (mem : pb ∈ w.data)
    (side : w.sink.whoAmI = .client) :
    step p w (.dataArrives ch pb) = some (w.fromSink (dataArrived p ch pb w.sink)) := by
  rw [step, if_pos ⟨by rw [failed]; rfl, mem⟩]
  split
  · rfl
  next hserver =>
    rw [side] at hserver
    cases hserver

end Enabled

/-- The first `k` packets are acknowledged, packet `k + 1` is on its way, and `rest` is unread. -/
structure Round (k : Nat) (rest : List Byte) (w : World) : Prop where
  sourceFailed : w.sourceFailed = false
  sourceSide : w.source.whoAmI = .server
  sourceState : w.source.xferState = .inProgress
  rest : w.source.rest = rest
  sourceEof : w.source.hitEof = false
  readAheadCount : w.source.readAheadCount = 0
  sendLastContig : w.source.sendLastContig = seq k
  sendMostRecent : w.source.sendMostRecent = seq (k + 1)
  calm : w.source.sendWorriedLimit ≤ w.source.sendLastContig
  held : (w.source.thesePackets.slot (k + 1)).isSome = true
  sinkFailed : w.sinkFailed = false
  sinkSide : w.sink.whoAmI = .client
  sinkEof : w.sink.hitEof = false
  recvLastContig : w.sink.recvLastContig = seq k
  recvMostRecent : w.sink.recvMostRecent = seq k
  recvTheseBits : w.sink.recvTheseBits = Mask.zero
  written : w.sink.written.length = 180 * k
  data : zeroPacket (k + 1) ∈ w.data
  acks : 1 ≤ k → fullAck 1 ∈ w.acks

theorem start_round (rest : List Byte) : ∃ w,
    step smallParams (initial (zeros 1 ++ rest) 0 .server) (.putFile quiet) = some w ∧ Round 0 rest w := by
  have hopen : (BitVec.ofNat 32 smallParams.sendAhead + 0 - 0 : BitVec 32).toNat ≤
      smallParams.windowSize := by decide
  obtain ⟨limit, packets, hsend, hlimit, hslot, -⟩ := sendStrategy_one (s :=
    { (initial (zeros 1 ++ rest) 0 .server).source with xferState := .inProgress })
    rfl rfl rfl (decide_eq_true hopen) (BitVec.le_refl _)
  refine ⟨_, congrArg (fun out => some ((initial (zeros 1 ++ rest) 0 .server).fromSource out)) hsend, ?_⟩
  exact
    { sourceFailed := rfl
      sourceSide := rfl
      sourceState := rfl
      rest := rfl
      sourceEof := rfl
      readAheadCount := rfl
      sendLastContig := rfl
      sendMostRecent := rfl
      calm := hlimit
      held := hslot
      sinkFailed := rfl
      sinkSide := rfl
      sinkEof := rfl
      recvLastContig := rfl
      recvMostRecent := rfl
      recvTheseBits := rfl
      written := rfl
      data := mem_singleton.mpr rfl
      acks := fun h => absurd h (by decide) }

/-- One packet of the run: it arrives, and so does its acknowledgement. -/
def roundActs (k : Nat) : List Action :=
  [.dataArrives quiet (zeroPacket (k + 1)), .ackArrives quiet (fullAck (k + 1))]

theorem round_step {k : Nat} {rest : List Byte} {w : World} (hk : k + 2 < 2 ^ 32)
    (h : Round k (zeros 1 ++ rest) w) :
    ∃ w', (roundActs k).foldlM (step smallParams) w = some w' ∧ Round (k + 1) rest w' := by
  obtain ⟨received, hdata⟩ := dataArrived_one (by omega) h.recvLastContig h.recvMostRecent
    h.recvTheseBits h.sinkEof
  obtain ⟨limit, packets, hack, hlimit, hslot⟩ := ackArrived_one
    (s := { w.source with retransmitting := false }) hk h.sendLastContig h.sendMostRecent
    h.readAheadCount h.sourceEof h.rest h.calm
  rw [roundActs, foldlM_cons, step_dataArrives h.sinkFailed h.data h.sinkSide, hdata,
    bind_eq_bind, bind_some, foldlM_cons, World.fromSink]
  have hmem : fullAck (k + 1) ∈ [fullAck (k + 1)] ++ w.acks :=
    mem_append_left _ (mem_singleton_self _)
  rw [step_ackArrives (by exact h.sourceFailed) (hmem) (by exact h.sourceSide)
    (by exact h.sourceState), hack]
  refine ⟨_, rfl, ?_⟩
  exact
    { sourceFailed := h.sourceFailed
      sourceSide := h.sourceSide
      sourceState := rfl
      rest := rfl
      sourceEof := rfl
      readAheadCount := rfl
      sendLastContig := rfl
      sendMostRecent := rfl
      calm := hlimit
      held := hslot
      sinkFailed := h.sinkFailed
      sinkSide := h.sinkSide
      sinkEof := h.sinkEof
      recvLastContig := rfl
      recvMostRecent := rfl
      recvTheseBits := rfl
      written := by
        show (w.sink.written ++ zeros 1).length = 180 * (k + 1)
        rw [length_append, h.written]
        rfl
      data := mem_append_left _ (mem_singleton_self _)
      acks := by
        intro _
        cases k with
        | zero => exact mem_append_left _ (mem_singleton_self _)
        | succ k => exact mem_append_right _ (h.acks (Nat.le_add_left 1 k)) }

theorem zeros_add (m n : Nat) : zeros (m + n) = zeros m ++ zeros n := by
  rw [zeros, zeros, zeros, replicate_append_replicate, Nat.mul_add]

theorem rounds {k n : Nat} {w : World} {rest : List Byte} (hk : k + n + 1 < 2 ^ 32)
    (h : Round k (zeros n ++ rest) w) :
    ∃ (acts : List Action) (w' : World), acts.foldlM (step smallParams) w = some w' ∧ Round (k + n) rest w' := by
  induction n generalizing k w with
  | zero => exact ⟨[], w, rfl, h⟩
  | succ n ih =>
    rw [add_comm n, zeros_add, append_assoc] at h
    obtain ⟨w₁, hrun₁, hround₁⟩ := round_step (by omega) h
    obtain ⟨acts, w₂, hrun₂, hround₂⟩ := ih (by omega) hround₁
    refine ⟨roundActs k ++ acts, w₂, ?_, by rwa [add_right_comm, add_assoc] at hround₂⟩
    rw [foldlM_append, hrun₁, bind_eq_bind, bind_some, hrun₂]

/-- The last steps: two timeouts send the packets behind the wrap, and the first acknowledgement of
the transfer arrives again. -/
def wrapActs : List Action :=
  [.sourceTimeout quiet, .sourceTimeout quiet, .ackArrives quiet (fullAck 1)]

theorem wrap_completes {w : World} (h : Round (2 ^ 32 - 2) (zeros 1) w) :
    ∃ w', wrapActs.foldlM (step smallParams) w = some w' ∧ w'.source.xferState = .completed ∧
      w'.sink = w.sink := by
  have hopen₁ : (BitVec.ofNat 32 smallParams.sendAhead + w.source.sendMostRecent -
      w.source.sendLastContig).toNat ≤ smallParams.windowSize := by
    rw [h.sendMostRecent, h.sendLastContig]
    decide
  obtain ⟨limit, packets, hsend₁, -, -, hother⟩ := sendStrategy_one
    (s := { w.source with retransmitting := true }) h.readAheadCount h.sourceEof
    (h.rest.trans (append_nil _).symm) (decide_eq_true hopen₁) h.calm
  have hrecent : w.source.sendMostRecent + 1 = 0 := by
    rw [h.sendMostRecent]
    decide
  rw [hrecent] at hsend₁ hother
  have hnext : (w.source.sendLastContig + 1).toNat = 2 ^ 32 - 2 + 1 := by
    rw [h.sendLastContig]
    decide
  have hopen₂ : (BitVec.ofNat 32 smallParams.sendAhead + 0 - w.source.sendLastContig).toNat ≤
      smallParams.windowSize := by
    rw [h.sendLastContig]
    decide
  have hapart : ((0 : BitVec 32) + 1).toNat % 64 ≠ (w.source.sendLastContig + 1).toNat % 64 := by
    rw [hnext]
    decide
  have hheld : (packets.slot (w.source.sendLastContig + 1).toNat).isSome = true := by
    rw [hnext, hother _ (by decide)]
    exact h.held
  obtain ⟨s', sent, hsend₂, hside, hstate, heof, hahead, hcontig, hmost⟩ := sendStrategy_last
    (s := { w.source with
      rest := []
      hitEof := false
      retransmitting := true
      readAheadCount := 0
      sendMostRecent := 0
      sendAckLimit := 0
      sendWorriedLimit := limit
      thesePackets := packets }) rfl rfl rfl (decide_eq_true hopen₂) rfl hheld hapart
  have hdone := ackArrived_wrapped (s := { s' with retransmitting := false }) heof hahead
    (hcontig.trans h.sendLastContig) hmost
  have hmem : fullAck 1 ∈ w.acks := h.acks (by decide)
  rw [wrapActs, foldlM_cons, step_sourceTimeout h.sourceFailed h.sourceSide h.sourceState, hsend₁,
    bind_eq_bind, bind_some, World.fromSource, foldlM_cons,
    step_sourceTimeout (by exact h.sourceFailed) (by exact h.sourceSide) (by exact h.sourceState),
    hsend₂, bind_eq_bind, bind_some, World.fromSource, foldlM_cons,
    step_ackArrives (by exact h.sourceFailed) (by exact hmem) (by exact hside.trans h.sourceSide)
      (by exact hstate.trans h.sourceState)]
  obtain ⟨s'', hack, hcompleted⟩ := hdone
  rw [hack]
  exact ⟨_, rfl, hcompleted, rfl⟩

/-- A file of as many packets as there are sequence numbers. -/
def longFile : List Byte := zeros (2 ^ 32)

/-- There is a run in which the source reports the whole file sent while the sink lacks the end. -/
theorem wrapped_transfer_unfaithful : ∃ (acts : List Action) (w : World),
    acts.foldlM (step smallParams) (initial longFile 0 .server) = some w ∧
      w.source.xferState = .completed ∧ ¬Faithful longFile w := by
  have hfile : longFile = zeros 1 ++ (zeros (2 ^ 32 - 2) ++ zeros 1) := by
    rw [← zeros_add, ← zeros_add]
    rfl
  obtain ⟨w₁, hrun₁, hround₁⟩ := start_round (zeros (2 ^ 32 - 2) ++ zeros 1)
  obtain ⟨acts, w₂, hrun₂, hround₂⟩ := rounds (by decide) hround₁
  obtain ⟨w₃, hrun₃, hdone, hsink⟩ := wrap_completes hround₂
  refine ⟨.putFile quiet :: (acts ++ wrapActs), w₃, ?_, hdone, fun hfaithful => ?_⟩
  · rw [foldlM_cons, hfile, hrun₁, bind_eq_bind, bind_some, foldlM_append, hrun₂,
      bind_eq_bind, bind_some, hrun₃]
  · have hlength := congrArg List.length (hfaithful.sourceDone hdone).2
    rw [hsink, hround₂.written, longFile, zeros, length_replicate] at hlength
    exact absurd hlength (by decide)

end Coda.Sftp
