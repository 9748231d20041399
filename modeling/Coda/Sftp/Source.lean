import Coda.Sftp.Entry

/-!
The source side of a transfer (`sftp3.c`): `sftp_ReadStrategy`, `sftp_SendStrategy` and
`sftp_AckArrived`.

`Sending` says what the counters and the ring of packets of a source stand for. It is kept as long
as the sequence numbers do not wrap around and no acknowledgement is older than `SendLastContig`.
-/

namespace Coda.Sftp

open Coda.Lib List BitVec

/-- The fields of `SFTP_Entry` a source uses, and what it has not read of its file yet. -/
structure Source where
  whoAmI : Side
  xferState : XferState
  rest : List Byte
  hitEof : Bool
  retransmitting : Bool
  readAheadCount : Nat
  sendLastContig : BitVec 32
  sendMostRecent : BitVec 32
  sendAckLimit : BitVec 32
  sendWorriedLimit : BitVec 32
  sendTheseBits : Mask
  thesePackets : Packets

/-- A source that goes on or fails, and the data packets it sends. -/
abbrev SourceResult := Except Failure (Source × List DataPacket)

/-- `WinIsOpen`, without a limit on packets in use. -/
def winIsOpen (p : Params) (s : Source) : Bool :=
  (BitVec.ofNat 32 p.sendAhead + s.sendMostRecent - s.sendLastContig).toNat ≤ p.windowSize

/-- `sftp_ReadStrategy`: what `sftp_vfreadv` makes of the `i`th buffer. -/
def readPacket (p : Params) (s : Source) (i : Nat) : DataPacket where
  seqNumber := s.sendMostRecent + BitVec.ofNat 32 i
  body := (s.rest.drop ((i - 1) * p.bodyLength)).take p.bodyLength
  moreData := true
  ackMe := false

/-- `sftp_ReadStrategy`: the loop that looks for the packet with the last byte; its index, and the
bytes in it. -/
def lastPacket (bodyLength : Nat) : (fuel i bytesRead : Nat) → Nat × Nat
  | 0, i, bytesRead => (i, bytesRead)
  | fuel + 1, i, bytesRead =>
    if bytesRead > bodyLength then lastPacket bodyLength fuel (i + 1) (bytesRead - bodyLength)
    else (i, bytesRead)

/-- `sftp_ReadStrategy`: the packets of a read that met the end of the file. -/
def markLast (p : Params) (s : Source) (i left : Nat) (packets : Packets) : Packets :=
  let last := { readPacket p s i with
    body := (readPacket p s i).body.take left, moreData := false, ackMe := true }
  let marked :=
    if i ≤ p.sendAhead then packets.put (s.sendMostRecent.toNat + i) (some last) else packets
  marked.fill (s.sendMostRecent.toNat + i) (fun _ => none) (p.sendAhead - i)

/-- `sftp_ReadStrategy`; reads do not fail and fill the buffers as far as the file goes. -/
def readStrategy (p : Params) (s : Source) : Source :=
  if s.hitEof then s
  else if !winIsOpen p s then s
  else
    let bytesWanted := p.sendAhead * p.bodyLength
    let bytesRead := min bytesWanted s.rest.length
    let packets := s.thesePackets.fill s.sendMostRecent.toNat (fun i => some (readPacket p s i))
      p.sendAhead
    if bytesRead = bytesWanted then
      { s with
        rest := s.rest.drop bytesRead
        thesePackets := packets
        readAheadCount := p.sendAhead }
    else
      let last := lastPacket p.bodyLength p.sendAhead 1 bytesRead
      { s with
        rest := s.rest.drop bytesRead
        hitEof := true
        thesePackets := markLast p s last.1 last.2 packets
        readAheadCount := last.1 }

/-- `SendSendAhead`: the packet after `SendMostRecent` is sent. -/
def sendNext (ackMe : Bool) (pb : DataPacket) (s : Source) : Source :=
  { s with
    sendMostRecent := s.sendMostRecent + 1
    sendAckLimit := if ackMe then s.sendMostRecent + 1 else s.sendAckLimit
    thesePackets := s.thesePackets.put (s.sendMostRecent + 1).toNat
      (some (if ackMe then { pb with ackMe := true } else pb)) }

/-- `SendSendAhead`: the loop over `ReadAheadCount`; `wantsAck` is the packet to be acked. -/
def sendAheadLoop (wantsAck : BitVec 32 → Bool) : Nat → Source → SourceResult
  | 0, s => .ok (s, [])
  | n + 1, s =>
    let ackMe := wantsAck (s.sendMostRecent + 1)
    match s.thesePackets.slot (s.sendMostRecent + 1).toNat with
    | none => .error .abort
    | some pb =>
      match sendAheadLoop wantsAck n (sendNext ackMe pb s) with
      | .error e => .error e
      | .ok (s, sent) => .ok (s, (if ackMe then { pb with ackMe := true } else pb) :: sent)

/-- `SendSendAhead`. -/
def sendSendAhead (p : Params) (ch : Choices) (s : Source) : SourceResult :=
  if s.readAheadCount = 0 then .ok ({ s with sendAckLimit := s.sendMostRecent }, [])
  else
    let dontAckMe := decide (s.readAheadCount < p.sendAhead) && ch.morePackets
    let j := s.sendMostRecent +
      BitVec.ofNat 32 (if p.ackPoint > s.readAheadCount then s.readAheadCount else p.ackPoint)
    match sendAheadLoop (fun number => !dontAckMe && number == j) s.readAheadCount s with
    | .error e => .error e
    | .ok (s, sent) => .ok ({ s with readAheadCount := 0 }, sent)

/-- `SendFirstUnacked`. -/
def sendFirstUnacked (winopen : Bool) (s : Source) : SourceResult :=
  let number := (s.sendLastContig + 1).toNat
  match s.thesePackets.slot number with
  | none => .error .abort
  | some pb =>
    let pb := { pb with ackMe := !winopen }
    .ok ({ s with thesePackets := s.thesePackets.put number (some pb) }, [pb])

/-- `CheckWorried`: the loop, from `i` down to `SendWorriedLimit`. -/
def worriedLoop (ch : Choices) (s : Source) : Nat → Nat
  | 0 => 0
  | i + 1 =>
    if i + 1 ≤ s.sendWorriedLimit.toNat then i + 1
    else if s.sendTheseBits.testBit (i + 1 - s.sendLastContig.toNat) then worriedLoop ch s i
    else if (s.thesePackets.slot (i + 1)).isNone then worriedLoop ch s i
    else if ch.old (i + 1) then i + 1
    else worriedLoop ch s i

/-- `CheckWorried`; the connection is there. -/
def checkWorried (ch : Choices) (s : Source) : Source × Bool :=
  if s.hitEof then ({ s with sendWorriedLimit := s.sendAckLimit }, true)
  else
    let s := if s.sendWorriedLimit < s.sendLastContig then
      { s with sendWorriedLimit := s.sendLastContig } else s
    let limit := BitVec.ofNat 32 (worriedLoop ch s s.sendAckLimit.toNat)
    ({ s with sendWorriedLimit := limit }, s.sendLastContig < limit)

/-- `ResendWorried`: `count` packets from number `i` on; the first one sent demands an ack. -/
def resendLoop : (count i : Nat) → (acked : Bool) → Source → SourceResult
  | 0, _, _, s => .ok (s, [])
  | count + 1, i, acked, s =>
    if s.sendTheseBits.testBit (i - s.sendLastContig.toNat) then resendLoop count (i + 1) acked s
    else
      match s.thesePackets.slot i with
      | none => .error .abort
      | some pb =>
        let pb := { pb with ackMe := !acked }
        match resendLoop count (i + 1) true
            { s with thesePackets := s.thesePackets.put i (some pb) } with
        | .error e => .error e
        | .ok (s, sent) => .ok (s, pb :: sent)

/-- `ResendWorried`. -/
def resendWorried (s : Source) : SourceResult :=
  let start := (s.sendLastContig + 1).toNat
  resendLoop (s.sendWorriedLimit.toNat + 1 - start) start false s

/-- `sftp_SendStrategy`, once the packets to be sent are read. -/
def sendPackets (p : Params) (ch : Choices) (s : Source) : SourceResult :=
  let winopen := winIsOpen p s
  if s.readAheadCount = 0 ∧ !s.hitEof ∧ winopen then .error .abort
  else
    let checked := if s.whoAmI = .client ∨ s.retransmitting then checkWorried ch s else (s, false)
    let s := checked.1
    if !winopen then sendFirstUnacked false s
    else if s.readAheadCount > 0 then
      if checked.2 then
        match sendFirstUnacked true s with
        | .error e => .error e
        | .ok (s, first) =>
          match sendSendAhead p ch s with
          | .error e => .error e
          | .ok (s, sent) => .ok (s, first ++ sent)
      else sendSendAhead p ch s
    else resendWorried s

/-- `sftp_SendStrategy`. -/
def sendStrategy (p : Params) (ch : Choices) (s : Source) : SourceResult :=
  sendPackets p ch (if s.readAheadCount = 0 then readStrategy p s else s)

/-- The buffers that `sftp_AckArrived` looks into to measure the bandwidth are there. -/
def Source.measurable (s : Source) (ack : AckPacket) : Bool :=
  ((List.range (ack.gotEmAll.toNat + 1 - (s.sendLastContig + 1).toNat)).all fun i =>
    (s.thesePackets.slot ((s.sendLastContig + 1).toNat + i)).isSome) &&
  (List.range 8).all fun i =>
    !ack.bitMask.testBit (i + 1) || (s.thesePackets.slot (ack.gotEmAll.toNat + (i + 1))).isSome

/-- `sftp_AckArrived`. The difference of two `uint32_t` is not negative in a `long`. -/
def ackArrived (p : Params) (ch : Choices) (ack : AckPacket) (s : Source) : SourceResult :=
  let prun : Int := (ack.gotEmAll - s.sendLastContig).toNat
  if prun < 0 then .ok (s, [])
  else if prun = 0 ∧ s.whoAmI = .client then .ok (s, [])
  else if prun > (s.sendMostRecent - s.sendLastContig).toNat then .error .fatal
  else if ch.echo ∧ !s.measurable ack then .error .abort
  else
    let s := { s with
      sendLastContig := ack.gotEmAll
      sendTheseBits := ack.bitMask
      thesePackets := s.thesePackets.fill s.sendLastContig.toNat (fun _ => none) prun.toNat }
    if s.hitEof ∧ s.readAheadCount = 0 ∧ s.sendMostRecent = s.sendLastContig then
      .ok ({ s with xferState := .completed }, [])
    else
      match sendStrategy p ch { s with xferState := .inProgress } with
      | .error e => .error e
      | .ok (s, sent) => if s.sendMostRecent > s.sendLastContig then .ok (s, sent) else .error .abort

/-! ### What a source stands for -/

/-- The first `a` packets are acknowledged, the first `m` are sent, and all that were read but not
acknowledged are in the ring. -/
structure Sending (p : Params) (r : Reads) (a m : Nat) (s : Source) : Prop where
  fits : r.first + r.count < 2 ^ 32
  lastContig : s.sendLastContig.toNat = r.first + a
  mostRecent : s.sendMostRecent.toNat = r.first + m
  contig_le : a ≤ m
  ahead : m + s.readAheadCount = r.count
  window : r.count ≤ a + p.windowSize
  rest : s.rest = r.file.drop (r.count * p.bodyLength)
  hitEof : s.hitEof = r.eof
  atEof : r.eof = true → r.file.length ≤ r.count * p.bodyLength
  held : ∀ k, a < k → k ≤ r.count →
    ∃ q, s.thesePackets.slot (r.first + k) = some q ∧ Carries p r k q
  ackLimit : s.sendAckLimit.toNat ≤ r.first + m
  worriedLimit : s.sendWorriedLimit.toNat ≤ s.sendAckLimit.toNat
  completed : s.xferState = .completed → r.eof = true ∧ a = r.count

/-- The source goes on; what it sends are packets of the file. -/
structure Sends (p : Params) (r : Reads) (a m : Nat) (state : XferState) (out : SourceResult) :
    Prop where
  sends : ∃ s' sent, out = .ok (s', sent) ∧ Sending p r a m s' ∧ s'.xferState = state ∧
    ∀ q ∈ sent, ∃ k, Carries p r k q

section Source

variable {p : Params} {r : Reads} {a m : Nat} {s : Source}

theorem Sending.winIsOpen_iff (h : Sending p r a m s) :
    winIsOpen p s = true ↔ m + p.sendAhead ≤ a + p.windowSize := by
  have hfits := h.fits
  have hwindow := h.window
  have hahead := h.ahead
  have hle := h.contig_le
  have hsize : p.windowSize ≤ 64 := p.windowSize_le
  have hsend := p.sendAhead_le
  have hopen : (BitVec.ofNat 32 p.sendAhead + s.sendMostRecent - s.sendLastContig).toNat =
      p.sendAhead + (m - a) := by
    rw [toNat_sub, toNat_add, toNat_ofNat, h.mostRecent, h.lastContig]
    omega
  rw [winIsOpen, decide_eq_true_iff, hopen]
  omega

variable {i k n : Nat} {ack : AckPacket}

theorem lastPacket_spec {bodyLength fuel bytesRead : Nat} (h : bytesRead < fuel * bodyLength) :
    ∃ n left, lastPacket bodyLength fuel i bytesRead = (n, left) ∧ i ≤ n ∧ n < i + fuel ∧
      left ≤ bodyLength ∧ bytesRead = (n - i) * bodyLength + left := by
  induction fuel generalizing i bytesRead with
  | zero => omega
  | succ fuel ih =>
    rw [Nat.add_mul, one_mul] at h
    rw [lastPacket]
    split
    next hmore =>
      obtain ⟨n, left, hlast, hlow, hhigh, hleft, hsum⟩ :=
        @ih (i + 1) (bytesRead - bodyLength) (by omega)
      refine ⟨n, left, hlast, by omega, by omega, hleft, ?_⟩
      have hstep : n - i = n - (i + 1) + 1 := by omega
      rw [hstep, Nat.add_mul, one_mul]
      omega
    · exact ⟨i, bytesRead, rfl, le_refl i, by omega, by omega, by simp⟩

/-- The bytes of the `i`th buffer are those of the packet it becomes. -/
theorem Sending.readPacket_body (h : Sending p r a m s) (pos : 1 ≤ i) :
    (readPacket p s i).body = r.chunk p (r.count + i) := by
  have hindex : r.count * p.bodyLength + (i - 1) * p.bodyLength =
      (r.count + i - 1) * p.bodyLength := by
    rw [← Nat.add_mul, Nat.add_sub_assoc pos]
  rw [readPacket, Reads.chunk, h.rest, drop_drop, hindex]

section

variable (h : Sending p r a r.count s)
include h

/-- The next `n` packets come into the ring. -/
theorem Sending.read (n : Nat) (eof : Bool) (packets : Packets) (notEof : r.eof = false)
    (pos : 1 ≤ n) (opened : r.count + n ≤ a + p.windowSize)
    (room : r.first + (r.count + n) < 2 ^ 32)
    (atEof : eof = true → r.file.length ≤ (r.count + n) * p.bodyLength)
    (old : ∀ k, a < k → k ≤ r.count →
      packets.slot (r.first + k) = s.thesePackets.slot (r.first + k))
    (new : ∀ i, 1 ≤ i → i ≤ n → ∃ q, packets.slot (r.first + (r.count + i)) = some q ∧
      q.seqNumber = s.sendMostRecent + BitVec.ofNat 32 i ∧ q.body = r.chunk p (r.count + i) ∧
      (q.moreData = false ↔ eof = true ∧ i = n)) :
    r.Extends { r with count := r.count + n, eof := eof } ∧
      Sending p { r with count := r.count + n, eof := eof } a r.count
        { s with
          rest := r.file.drop ((r.count + n) * p.bodyLength)
          hitEof := eof
          thesePackets := packets
          readAheadCount := n } := by
  have ext : r.Extends { r with count := r.count + n, eof := eof } :=
    .inr ⟨rfl, rfl, notEof, Nat.lt_add_of_pos_right pos⟩
  refine ⟨ext, ?_⟩
  exact
    { fits := room
      lastContig := h.lastContig
      mostRecent := h.mostRecent
      contig_le := h.contig_le
      ahead := rfl
      window := opened
      rest := rfl
      hitEof := rfl
      atEof := atEof
      held := by
        intro k hlow hhigh
        dsimp only at hhigh ⊢
        by_cases hk : k ≤ r.count
        · obtain ⟨q, hslot, carries⟩ := h.held k hlow hk
          exact ⟨q, (old k hlow hk).trans hslot, carries.extend ext⟩
        · obtain ⟨q, hslot, hseq, hbody, hlast⟩ := new (k - r.count) (by omega) (by omega)
          have hindex : r.count + (k - r.count) = k := by omega
          rw [hindex] at hslot hbody
          have hnumber : q.seqNumber.toNat = r.first + k := by
            rw [hseq, toNat_add, h.mostRecent, toNat_ofNat]
            omega
          have hend : k - r.count = n ↔ k = r.count + n := by omega
          exact ⟨q, hslot, by omega, hhigh, hnumber, hbody, hlast.trans (and_congr_right' hend)⟩
      ackLimit := h.ackLimit
      worriedLimit := h.worriedLimit
      completed := by
        intro hdone
        rw [(h.completed hdone).1] at notEof
        cases notEof }

/-- The buffers of a read take the place of no packet that is still needed. -/
theorem Sending.slot_fill_old (opened : r.count + p.sendAhead ≤ a + p.windowSize)
    (f : Nat → Option DataPacket) (low : a < k) (high : k ≤ r.count) :
    (s.thesePackets.fill s.sendMostRecent.toNat f p.sendAhead).slot (r.first + k) =
      s.thesePackets.slot (r.first + k) := by
  have hsize : p.windowSize ≤ maxOPackets := p.windowSize_le
  rw [h.mostRecent]
  apply Ring.slot_fill_window
  · omega
  · omega
  · omega

theorem Sending.slot_fill_new (f : Nat → Option DataPacket) (low : 1 ≤ i) (high : i ≤ p.sendAhead) :
    (s.thesePackets.fill s.sendMostRecent.toNat f p.sendAhead).slot (r.first + (r.count + i)) =
      f i := by
  rw [h.mostRecent, ← add_assoc]
  exact Ring.slot_fill _ _ _ low high (p.sendAhead_le.trans p.windowSize_le)

theorem readStrategy_full (notEof : r.eof = false)
    (opened : r.count + p.sendAhead ≤ a + p.windowSize)
    (room : r.first + (r.count + p.sendAhead) < 2 ^ 32)
    (full : p.sendAhead * p.bodyLength ≤ s.rest.length) :
    r.Extends { r with count := r.count + p.sendAhead, eof := false } ∧
      Sending p { r with count := r.count + p.sendAhead, eof := false } a r.count
        (readStrategy p s) ∧
      (readStrategy p s).xferState = s.xferState := by
  have hread : readStrategy p s =
      { s with
        rest := r.file.drop ((r.count + p.sendAhead) * p.bodyLength)
        hitEof := false
        thesePackets := s.thesePackets.fill s.sendMostRecent.toNat
          (fun i => some (readPacket p s i)) p.sendAhead
        readAheadCount := p.sendAhead } := by
    rw [readStrategy, if_neg (by simp [h.hitEof, notEof]), if_neg (by simp [h.winIsOpen_iff.mpr opened])]
    dsimp only
    rw [min_eq_left full, if_pos rfl, h.rest, drop_drop, ← Nat.add_mul, h.hitEof, notEof]
  rw [hread]
  have hsending := h.read p.sendAhead false _ notEof (p.ackPoint_pos.trans p.ackPoint_le) opened room
    (fun heof => absurd heof (by decide)) (fun k low high => h.slot_fill_old opened _ low high)
    (fun i low high => ⟨_, h.slot_fill_new _ low high, rfl, h.readPacket_body low, by simp [readPacket]⟩)
  exact ⟨hsending.1, hsending.2, rfl⟩

theorem Sending.slot_markLast_old (opened : r.count + p.sendAhead ≤ a + p.windowSize) {left : Nat}
    (pos : 1 ≤ n) (le : n ≤ p.sendAhead) (low : a < k) (high : k ≤ r.count) :
    (markLast p s n left (s.thesePackets.fill s.sendMostRecent.toNat
      (fun i => some (readPacket p s i)) p.sendAhead)).slot (r.first + k) =
      s.thesePackets.slot (r.first + k) := by
  have hsize : p.windowSize ≤ maxOPackets := p.windowSize_le
  have hnumber := h.mostRecent
  rw [markLast, if_pos le, Ring.slot_fill_window _ _ _ (by omega) (by omega) (by omega),
    Ring.slot_put_window _ _ (by omega) (by omega) (by omega), h.slot_fill_old opened _ low high]

/-- Of the packets of the last read the last one is marked, and the buffers behind it are released. -/
theorem Sending.slot_markLast_new {left : Nat}
    (sum : s.rest.length = (n - 1) * p.bodyLength + left) (low : 1 ≤ i) (high : i ≤ n)
    (le : n ≤ p.sendAhead) :
    ∃ q, (markLast p s n left (s.thesePackets.fill s.sendMostRecent.toNat
      (fun i => some (readPacket p s i)) p.sendAhead)).slot (r.first + (r.count + i)) = some q ∧
      q.seqNumber = s.sendMostRecent + BitVec.ofNat 32 i ∧ q.body = r.chunk p (r.count + i) ∧
      (q.moreData = false ↔ true = true ∧ i = n) := by
  have hsize : p.sendAhead ≤ maxOPackets := p.sendAhead_le.trans p.windowSize_le
  have hnumber := h.mostRecent
  rw [markLast, if_pos le, Ring.slot_fill_window _ _ _ (by omega) (by omega) (by omega)]
  by_cases hlast : i = n
  · subst hlast
    rw [hnumber, add_assoc, Ring.slot_put]
    refine ⟨_, rfl, rfl, ?_, by simp⟩
    have hlength : (readPacket p s i).body.length ≤ left := by
      rw [readPacket, length_take, length_drop, sum]
      omega
    rw [take_of_length_le hlength]
    exact h.readPacket_body low
  · rw [Ring.slot_put_window _ _ (by omega) (by omega) (by omega),
      h.slot_fill_new _ low (high.trans le)]
    exact ⟨_, rfl, rfl, h.readPacket_body low, by simp [readPacket, hlast]⟩

theorem readStrategy_short (notEof : r.eof = false)
    (opened : r.count + p.sendAhead ≤ a + p.windowSize)
    (room : r.first + (r.count + p.sendAhead) < 2 ^ 32)
    (short : s.rest.length < p.sendAhead * p.bodyLength) :
    ∃ n, 1 ≤ n ∧ r.Extends { r with count := r.count + n, eof := true } ∧
      Sending p { r with count := r.count + n, eof := true } a r.count (readStrategy p s) ∧
      (readStrategy p s).xferState = s.xferState := by
  obtain ⟨n, left, hlast, hlow, hhigh, hleft, hsum⟩ := lastPacket_spec short
  have hread : readStrategy p s =
      { s with
        rest := s.rest.drop s.rest.length
        hitEof := true
        thesePackets := markLast p s n left
          (s.thesePackets.fill s.sendMostRecent.toNat (fun i => some (readPacket p s i)) p.sendAhead)
        readAheadCount := n } := by
    rw [readStrategy, if_neg (by simp [h.hitEof, notEof]), if_neg (by simp [h.winIsOpen_iff.mpr opened])]
    dsimp only
    rw [min_eq_right short.le, if_neg (ne_of_lt short), hlast]
  rw [hread]
  have hatEof : r.file.length ≤ (r.count + n) * p.bodyLength := by
    have hlength := hsum
    rw [h.rest, length_drop] at hlength
    have hn : n = n - 1 + 1 := by omega
    rw [Nat.add_mul, hn, Nat.add_mul, one_mul]
    omega
  have hrest : s.rest.drop s.rest.length = r.file.drop ((r.count + n) * p.bodyLength) := by
    rw [drop_length, drop_eq_nil_of_le hatEof]
  rw [hrest]
  obtain ⟨ext, hsending⟩ := h.read n true _ notEof hlow (by omega) (by omega) (fun _ => hatEof)
    (fun k low high => h.slot_markLast_old opened hlow (by omega) low high)
    (fun i low high => h.slot_markLast_new hsum low high (by omega))
  exact ⟨n, hlow, ext, hsending, rfl⟩

/-- `sftp_ReadStrategy` reads on while the window is open and the file goes on. -/
theorem readStrategy_sending (room : r.first + (r.count + p.sendAhead) < 2 ^ 32) :
    ∃ r', r.Extends r' ∧ Sending p r' a r.count (readStrategy p s) ∧
      (readStrategy p s).xferState = s.xferState ∧
      (r.eof = false → r.count + p.sendAhead ≤ a + p.windowSize → r.count < r'.count) ∧
      (r.count < r'.count → r.count + p.sendAhead ≤ a + p.windowSize) := by
  by_cases hreads : r.eof = false ∧ r.count + p.sendAhead ≤ a + p.windowSize
  · obtain ⟨hnot, hopen⟩ := hreads
    have hpos : 1 ≤ p.sendAhead := p.ackPoint_pos.trans p.ackPoint_le
    by_cases hfull : p.sendAhead * p.bodyLength ≤ s.rest.length
    · obtain ⟨ext, hsending, hstate⟩ := readStrategy_full h hnot hopen room hfull
      exact ⟨_, ext, hsending, hstate, fun _ _ => Nat.lt_add_of_pos_right hpos, fun _ => hopen⟩
    · obtain ⟨n, hn, ext, hsending, hstate⟩ :=
        readStrategy_short h hnot hopen room (Nat.lt_of_not_le hfull)
      exact ⟨_, ext, hsending, hstate, fun _ _ => Nat.lt_add_of_pos_right hn, fun _ => hopen⟩
  · have hread : readStrategy p s = s := by
      rw [readStrategy]
      split
      · rfl
      next heof =>
        rw [if_pos]
        rw [Bool.not_eq_true', Bool.eq_false_iff]
        intro hopen
        exact hreads ⟨h.hitEof ▸ Bool.eq_false_iff.mpr heof, h.winIsOpen_iff.mp hopen⟩
    rw [hread]
    exact ⟨r, Reads.Extends.refl r, h, rfl, fun hnot hopen => absurd ⟨hnot, hopen⟩ hreads,
      fun hlt => absurd hlt (lt_irrefl _)⟩

end

/-- Packets are sent again with another demand for an acknowledgement. -/
theorem Sending.post (h : Sending p r a m s) {q : DataPacket} (low : a < k) (high : k ≤ r.count)
    (carries : Carries p r k q) :
    Sending p r a m { s with thesePackets := s.thesePackets.put (r.first + k) (some q) } := by
  have hwindow := h.window
  have hsize : p.windowSize ≤ maxOPackets := p.windowSize_le
  refine { h with held := ?_ }
  intro k' low' high'
  by_cases hk : k = k'
  · subst hk
    exact ⟨q, Ring.slot_put _ _ _, carries⟩
  · obtain ⟨q', hslot, carries'⟩ := h.held k' low' high'
    refine ⟨q', ?_, carries'⟩
    rw [Ring.slot_put_window _ _ (by omega) (by omega) (by omega), hslot]

theorem sendFirstUnacked_sends (h : Sending p r a m s) (unacked : a < r.count) (winopen : Bool) :
    Sends p r a m s.xferState (sendFirstUnacked winopen s) := by
  have hfits := h.fits
  have hnumber : (s.sendLastContig + 1).toNat = r.first + (a + 1) := by
    rw [toNat_succ (by rw [h.lastContig]; omega), h.lastContig, add_assoc]
  obtain ⟨q, hslot, carries⟩ := h.held (a + 1) (Nat.lt_succ_self a) unacked
  have carries' := carries.setAckMe (!winopen)
  rw [sendFirstUnacked, hnumber]
  rw [hslot]
  refine ⟨_, _, rfl, h.post (Nat.lt_succ_self a) unacked carries', rfl, ?_⟩
  intro q' hmem
  rw [mem_singleton.mp hmem]
  exact ⟨a + 1, carries'⟩

/-- One packet of the packets read ahead is sent. -/
theorem Sending.advance (h : Sending p r a m { s with readAheadCount := n + 1 }) (ackMe : Bool) :
    ∃ pb, s.thesePackets.slot (s.sendMostRecent + 1).toNat = some pb ∧
      Carries p r (m + 1) (if ackMe then { pb with ackMe := true } else pb) ∧
      Sending p r a (m + 1) { sendNext ackMe pb s with readAheadCount := n } := by
  have hfits := h.fits
  have hle := h.contig_le
  have hahead : m + (n + 1) = r.count := h.ahead
  have hrecent : s.sendMostRecent.toNat = r.first + m := h.mostRecent
  have hlimit : s.sendAckLimit.toNat ≤ r.first + m := h.ackLimit
  have hnumber : (s.sendMostRecent + 1).toNat = r.first + (m + 1) := by
    rw [toNat_succ (by omega), hrecent, add_assoc]
  obtain ⟨pb, hslot, carries⟩ := h.held (m + 1) (by omega) (by omega)
  have carries' : Carries p r (m + 1) (if ackMe then { pb with ackMe := true } else pb) := by
    cases ackMe with
    | false => exact carries
    | true => exact carries.setAckMe true
  have hpost := h.post (by omega) (by omega) carries'
  refine ⟨pb, hnumber ▸ hslot, carries', ?_⟩
  rw [sendNext, hnumber]
  exact
    { hpost with
      mostRecent := hnumber
      contig_le := by omega
      ahead := (Nat.succ_add_eq_add_succ m n).trans hahead
      ackLimit := by
        cases ackMe with
        | false => exact hlimit.trans (by omega)
        | true => exact le_of_eq hnumber
      worriedLimit := by
        cases ackMe with
        | false => exact h.worriedLimit
        | true =>
          have hnext : r.first + m ≤ (s.sendMostRecent + 1).toNat := by omega
          exact h.worriedLimit.trans (hlimit.trans hnext) }

theorem sendAheadLoop_sends (wantsAck : BitVec 32 → Bool)
    (h : Sending p r a m { s with readAheadCount := n }) :
    ∃ s' sent, sendAheadLoop wantsAck n s = .ok (s', sent) ∧
      Sending p r a r.count { s' with readAheadCount := 0 } ∧ s'.xferState = s.xferState ∧
      ∀ q ∈ sent, ∃ k, Carries p r k q := by
  induction n generalizing s m with
  | zero =>
    have hm : m = r.count := h.ahead
    refine ⟨s, [], rfl, ?_, rfl, nofun⟩
    rw [hm] at h
    exact h
  | succ n ih =>
    obtain ⟨pb, hslot, carries, hnext⟩ := h.advance (wantsAck (s.sendMostRecent + 1))
    obtain ⟨s', sent, hloop, hsending, hstate, hsent⟩ :=
      ih (s := sendNext (wantsAck (s.sendMostRecent + 1)) pb s) hnext
    rw [sendAheadLoop, hslot]
    dsimp only
    rw [hloop]
    exact ⟨s', _, rfl, hsending, hstate, forall_mem_cons.mpr ⟨⟨m + 1, carries⟩, hsent⟩⟩

theorem sendSendAhead_sends (h : Sending p r a m s) (ch : Choices) :
    Sends p r a r.count s.xferState (sendSendAhead p ch s) := by
  rw [sendSendAhead]
  split
  next hzero =>
    have hm : m = r.count := by
      have hahead := h.ahead
      rwa [hzero] at hahead
    refine ⟨_, [], rfl, ?_, rfl, nofun⟩
    rw [← hm]
    have hsent := h.worriedLimit.trans h.ackLimit
    rw [← h.mostRecent] at hsent
    exact { h with ackLimit := le_of_eq h.mostRecent, worriedLimit := hsent }
  · dsimp only
    obtain ⟨s', sent, hloop, hsending, hstate, hsent⟩ := sendAheadLoop_sends _ h
    rw [hloop]
    exact ⟨_, sent, rfl, hsending, hstate, hsent⟩

theorem worriedLoop_bounds (ch : Choices) (s : Source) (i : Nat) :
    min i s.sendWorriedLimit.toNat ≤ worriedLoop ch s i ∧ worriedLoop ch s i ≤ i := by
  induction i with
  | zero => exact ⟨(Nat.zero_min _).le, le_refl 0⟩
  | succ i ih =>
    rw [worriedLoop]
    split
    · exact ⟨min_le_left _ _, le_rfl⟩
    · have hnext : min (i + 1) s.sendWorriedLimit.toNat ≤ worriedLoop ch s i ∧
          worriedLoop ch s i ≤ i + 1 := by omega
      split
      · exact hnext
      · split
        · exact hnext
        · split
          · exact ⟨min_le_left _ _, le_rfl⟩
          · exact hnext

section

variable (h : Sending p r a m s)
include h

/-- `CheckWorried` moves `SendWorriedLimit` only, and not beyond `SendAckLimit`. -/
theorem checkWorried_sending (ch : Choices) :
    ∃ limit : BitVec 32, (checkWorried ch s).1 = { s with sendWorriedLimit := limit } ∧
      Sending p r a m { s with sendWorriedLimit := limit } := by
  rw [checkWorried]
  split
  · exact ⟨_, rfl, { h with worriedLimit := le_rfl }⟩
  · have hbound : ∀ s₁ : Source, s₁.sendAckLimit = s.sendAckLimit →
        (BitVec.ofNat 32 (worriedLoop ch s₁ s₁.sendAckLimit.toNat)).toNat ≤ s.sendAckLimit.toNat := by
      intro s₁ hlimit
      rw [toNat_ofNat, hlimit]
      exact (Nat.mod_le _ _).trans (worriedLoop_bounds ch s₁ _).2
    split
    · exact ⟨_, rfl, { h with worriedLimit := hbound _ rfl }⟩
    · exact ⟨_, rfl, { h with worriedLimit := hbound _ rfl }⟩

theorem resendLoop_sends {count : Nat} (low : a < k) (high : k + count ≤ m + 1) (acked : Bool) :
    Sends p r a m s.xferState (resendLoop count (r.first + k) acked s) := by
  induction count generalizing k acked s with
  | zero => exact ⟨s, [], rfl, h, rfl, nofun⟩
  | succ count ih =>
    have hahead := h.ahead
    rw [resendLoop]
    split
    · rw [add_assoc]
      exact ih h (Nat.lt_succ_of_lt low) (by omega) acked
    · obtain ⟨q, hslot, carries⟩ := h.held k low (by omega)
      have carries' := carries.setAckMe (!acked)
      obtain ⟨s', sent, hloop, hsending, hstate, hsent⟩ :=
        (ih (h.post low (by omega) carries') (Nat.lt_succ_of_lt low) (by omega) true).sends
      rw [hslot]
      dsimp only
      rw [add_assoc, hloop]
      exact ⟨s', _, rfl, hsending, hstate, forall_mem_cons.mpr ⟨⟨k, carries'⟩, hsent⟩⟩

theorem resendWorried_sends (room : r.first + a + 1 < 2 ^ 32) :
    Sends p r a m s.xferState (resendWorried s) := by
  have hnumber : (s.sendLastContig + 1).toNat = r.first + (a + 1) := by
    rw [toNat_succ (by rw [h.lastContig]; omega), h.lastContig, add_assoc]
  have hlimit := h.worriedLimit.trans h.ackLimit
  have hle := h.contig_le
  rw [resendWorried, hnumber]
  exact resendLoop_sends h (Nat.lt_succ_self a) (by omega) false

/-- What was read ahead is sent, or what was sent before is sent again. -/
theorem sendPackets_sends (ch : Choices) (room : r.first + a + 1 < 2 ^ 32)
    (ready : m = r.count → r.eof = false → a + p.windowSize < m + p.sendAhead)
    (idle : a + p.windowSize < m + p.sendAhead → m = r.count) :
    Sends p r a r.count s.xferState (sendPackets p ch s) := by
  have hahead := h.ahead
  have hsend := p.sendAhead_le
  have hopen := h.winIsOpen_iff
  have hchecked : ∃ limit worried,
      (if s.whoAmI = .client ∨ s.retransmitting = true then checkWorried ch s else (s, false)) =
        ({ s with sendWorriedLimit := limit }, worried) ∧
      Sending p r a m { s with sendWorriedLimit := limit } := by
    split
    · obtain ⟨limit, hlimit, hsending⟩ := checkWorried_sending h ch
      exact ⟨limit, _, Prod.ext hlimit rfl, hsending⟩
    · exact ⟨_, _, rfl, h⟩
  obtain ⟨limit, worried, heq, hsending⟩ := hchecked
  rw [sendPackets]
  rw [heq]
  dsimp only
  split
  next habort =>
    obtain ⟨hzero, hnot, hin⟩ := habort
    have hclosed := ready (by omega) (by rw [← h.hitEof]; simpa using hnot)
    have := hopen.mp hin
    omega
  · split
    next hclosed =>
      have hout : a + p.windowSize < m + p.sendAhead := by
        by_contra hle
        rw [hopen.mpr (by omega)] at hclosed
        cases hclosed
      have hm := idle hout
      have hfirst := sendFirstUnacked_sends hsending (by omega) false
      rw [hm] at hfirst
      exact hfirst
    · split
      next hmore =>
        split
        · obtain ⟨s₁, first, hfirst, hsending₁, hstate₁, hsent₁⟩ :=
            (sendFirstUnacked_sends hsending (by have := h.contig_le; omega) true).sends
          obtain ⟨s₂, sent, hahead, hsending₂, hstate₂, hsent₂⟩ := (sendSendAhead_sends hsending₁ ch).sends
          rw [hfirst]
          dsimp only
          rw [hahead]
          exact ⟨s₂, _, rfl, hsending₂, hstate₂.trans hstate₁,
            forall_mem_append.mpr ⟨hsent₁, hsent₂⟩⟩
        · exact sendSendAhead_sends hsending ch
      next hnone =>
        have hm : m = r.count := by omega
        have hresend := resendWorried_sends hsending room
        rw [hm] at hresend
        exact hresend

end

section

variable (h : Sending p r a r.count s)
include h

theorem Sending.readAheadCount_eq : s.readAheadCount = 0 := by
  have hahead := h.ahead
  omega

/-- `sftp_SendStrategy` between two steps, with sequence numbers left for a read. -/
theorem sendStrategy_sending (ch : Choices) (room : r.first + (r.count + p.sendAhead) < 2 ^ 32) :
    ∃ r', r.Extends r' ∧ Sends p r' a r'.count s.xferState (sendStrategy p ch s) ∧
      (r.eof = false → r.count + p.sendAhead ≤ a + p.windowSize → r.count < r'.count) := by
  have hpos : 1 ≤ p.sendAhead := p.ackPoint_pos.trans p.ackPoint_le
  have hle := h.contig_le
  have hzero := h.readAheadCount_eq
  obtain ⟨r', ext, hsending, hstate, hprogress, hopen⟩ := readStrategy_sending h room
  refine ⟨r', ext, ?_, hprogress⟩
  rw [sendStrategy, if_pos hzero, ← hstate]
  have hcount := ext.count_le
  apply sendPackets_sends hsending ch
  · rw [ext.first]
    omega
  · intro hm heof
    by_contra hin
    have hnot : r.eof = false := by
      rcases ext with rfl | ⟨-, -, hnot, -⟩
      · exact heof
      · exact hnot
    have := hprogress hnot (by omega)
    omega
  · intro hclosed
    by_contra hm
    omega

/-- The packets up to number `g` are acknowledged and released. -/
theorem Sending.acked {g : Nat} {got : BitVec 32} (low : a ≤ g) (high : g ≤ r.count)
    (number : got.toNat = r.first + g) (mask : Mask) (state : XferState)
    (done : state = .completed → r.eof = true ∧ g = r.count) :
    Sending p r g r.count
      { s with
        sendLastContig := got
        sendTheseBits := mask
        thesePackets := s.thesePackets.fill s.sendLastContig.toNat (fun _ => none) (g - a)
        xferState := state } := by
  have hwindow := h.window
  have hsize : p.windowSize ≤ maxOPackets := p.windowSize_le
  refine
    { h with
      lastContig := number, contig_le := high, window := by omega, held := ?_, completed := done }
  intro k low' high'
  obtain ⟨q, hslot, carries⟩ := h.held k (by omega) high'
  refine ⟨q, ?_, carries⟩
  rw [h.lastContig, Ring.slot_fill_window _ _ _ (by omega) (by omega) (by omega), hslot]

theorem Sending.measurable {g : Nat} (room : r.first + a + 1 < 2 ^ 32) (low : a ≤ g)
    (high : g ≤ r.count) (number : ack.gotEmAll.toNat = r.first + g)
    (bits : ∀ i, 1 ≤ i → i ≤ 64 → ack.bitMask.testBit i = true → g + i ≤ r.count) :
    s.measurable ack = true := by
  have hheld : ∀ k, a < k → k ≤ r.count → (s.thesePackets.slot (r.first + k)).isSome = true := by
    intro k low high
    obtain ⟨q, hslot, -⟩ := h.held k low high
    rw [hslot]
    rfl
  have hstart : (s.sendLastContig + 1).toNat = r.first + (a + 1) := by
    rw [toNat_succ (by rw [h.lastContig]; omega), h.lastContig, add_assoc]
  rw [Source.measurable, hstart, number, Bool.and_eq_true]
  constructor
  · rw [all_eq_true]
    intro i hi
    rw [mem_range] at hi
    rw [add_assoc]
    exact hheld (a + 1 + i) (by omega) (by omega)
  · rw [all_eq_true]
    intro i hi
    rw [mem_range] at hi
    cases hbit : ack.bitMask.testBit (i + 1) with
    | false => rfl
    | true =>
      rw [add_assoc]
      exact hheld (g + (i + 1)) (by omega) (bits (i + 1) (by omega) (by omega) hbit)

theorem Sending.toNat_unacked : (s.sendMostRecent - s.sendLastContig).toNat = r.count - a := by
  have hcontig := h.contig_le
  have hfits := h.fits
  rw [toNat_sub, h.mostRecent, h.lastContig]
  omega

/-- An acknowledgement that is not older than `SendLastContig`. -/
theorem ackArrived_sending (ch : Choices) {c : Nat}
    (room : r.first + (r.count + p.sendAhead) < 2 ^ 32) (acks : Acks r c ack) (le : c ≤ r.count)
    (fresh : s.sendLastContig ≤ ack.gotEmAll) :
    ∃ r' a' s' sent, r.Extends r' ∧ a' ≤ c ∧ ackArrived p ch ack s = .ok (s', sent) ∧
      Sending p r' a' r'.count s' ∧ (∀ q ∈ sent, ∃ k, Carries p r' k q) ∧
      (s'.xferState = .notStarted → s' = s ∧ r' = r) := by
  obtain ⟨g, hg, hgot, hbits⟩ := acks.got
  have hpos : 1 ≤ p.sendAhead := p.ackPoint_pos.trans p.ackPoint_le
  have hahead := h.readAheadCount_eq
  have hlow : a ≤ g := by
    rw [le_def, h.lastContig, hgot] at fresh
    omega
  have hrun : (ack.gotEmAll - s.sendLastContig).toNat = g - a := by
    rw [toNat_sub, hgot, h.lastContig]
    omega
  rw [ackArrived, hrun, h.toNat_unacked, h.measurable (by omega) hlow (by omega) hgot hbits]
  dsimp only
  rw [if_neg (by omega)]
  split
  next hsame =>
    exact ⟨r, a, s, [], Reads.Extends.refl r, by omega, rfl, h,
      nofun, fun _ => ⟨rfl, rfl⟩⟩
  · rw [if_neg (by omega), if_neg (by simp), Int.toNat_natCast]
    split
    next hdone =>
      obtain ⟨heof, -, hall⟩ := hdone
      have hcount : g = r.count := by
        have hnumber := congrArg BitVec.toNat hall
        rw [h.mostRecent, hgot] at hnumber
        omega
      refine ⟨r, g, _, [], Reads.Extends.refl r, hg, rfl, ?_,
        nofun, nofun⟩
      exact h.acked hlow (by omega) hgot _ _ fun _ => ⟨h.hitEof ▸ heof, hcount⟩
    next hmore =>
      have hacked := h.acked hlow (hg.trans le) hgot ack.bitMask .inProgress
        (fun hdone => absurd hdone (by decide))
      obtain ⟨r', ext, hsends, hprogress⟩ := sendStrategy_sending hacked ch room
      obtain ⟨s', sent, hsend, hsending, hstate, hsent⟩ := hsends.sends
      rw [hsend]
      dsimp only
      -- the last assertion: something is not acknowledged yet
      have hunacked : g < r'.count := by
        have hcount := ext.count_le
        by_cases hall : g = r.count
        · have hnot : r.eof = false := by
            rw [← h.hitEof, Bool.eq_false_iff]
            intro heof
            refine hmore ⟨heof, hahead, eq_of_toNat_eq ?_⟩
            rw [h.mostRecent, hgot, hall]
          have := hprogress hnot (by have := p.sendAhead_le; omega)
          omega
        · omega
      rw [if_pos]
      · refine ⟨r', g, s', sent, ext, hg, rfl, hsending, hsent, fun hnot => ?_⟩
        rw [hstate] at hnot
        cases hnot
      · rw [gt_iff_lt, lt_def, hsending.lastContig, hsending.mostRecent]
        omega

/-- A late acknowledgement is taken for one far ahead. -/
theorem ackArrived_late (ch : Choices) {c : Nat} (acks : Acks r c ack)
    (late : ack.gotEmAll < s.sendLastContig) : ackArrived p ch ack s = .error .fatal := by
  obtain ⟨g, -, hgot, -⟩ := acks.got
  have hcontig := h.contig_le
  have hfits := h.fits
  rw [lt_def, h.lastContig, hgot] at late
  have hrun : (ack.gotEmAll - s.sendLastContig).toNat = 2 ^ 32 - (a - g) := by
    rw [toNat_sub, hgot, h.lastContig]
    omega
  rw [ackArrived, hrun, h.toNat_unacked]
  rw [if_neg (by omega), if_neg (by omega), if_pos (by omega)]

end

end Source

end Coda.Sftp
