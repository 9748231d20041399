import Coda.Sftp.Transfer

/-!
The relations between the counters of a transfer that `sftp.h` writes down for a transfer in
progress.

Those of the sink, and of the source all but two, are kept whatever the network does (`Counters`).
`SendWorriedLimit` is left behind where `CheckWorried` is not called or finds `SendAckLimit` behind
`SendLastContig`, and `SendAckLimit` is left behind where the last packets of a file are sent while
other packets wait.
-/

namespace Coda.Sftp

open Coda.Lib List BitVec

/-- What holds of the counters of the ends in every state. -/
structure Counters (p : Params) (w : World) : Prop where
  contig : w.source.sendLastContig ≤ w.source.sendMostRecent
  worriedLimit : w.source.sendWorriedLimit ≤ w.source.sendAckLimit
  ackLimit : w.source.sendAckLimit ≤ w.source.sendMostRecent
  window : w.source.sendMostRecent.toNat ≤ w.source.sendLastContig.toNat + p.windowSize
  recvContig : w.sink.recvLastContig ≤ w.sink.recvMostRecent
  recvWindow : w.sink.recvMostRecent.toNat ≤ w.sink.recvLastContig.toNat + p.windowSize

theorem Joint.counters {p : Params} {file : List Byte} {w : World} {r : Reads} {a c d : Nat}
    (h : Joint p file w r a c d) : Counters p w := by
  obtain ⟨-, hlast, hrecent, -, -, hwindow, -, -, -, -, hlimit, hworried, -⟩ := h.source
  obtain ⟨-, hcontig, hmost, hle, hcount, -⟩ := h.sink
  have hacked := h.acked_le
  refine ⟨BitVec.le_def.mpr ?_, BitVec.le_def.mpr ?_, BitVec.le_def.mpr ?_, ?_,
    BitVec.le_def.mpr ?_, ?_⟩
  all_goals omega

/-- The invariants of `SFTP_Entry` for a transfer in progress. -/
structure Documented (p : Params) (w : World) : Prop where
  contig : w.source.sendLastContig ≤ w.source.sendWorriedLimit
  worriedLimit : w.source.sendWorriedLimit ≤ w.source.sendAckLimit
  ackLimit : w.source.sendAckLimit ≤ w.source.sendMostRecent
  window : (w.source.sendMostRecent - w.source.sendLastContig).toNat ≤ p.windowSize
  ahead : (w.source.sendMostRecent - w.source.sendAckLimit).toNat ≤ p.sendAhead
  recvContig : w.sink.recvLastContig ≤ w.sink.recvMostRecent
  recvWindow : (w.sink.recvMostRecent - w.sink.recvLastContig).toNat ≤ p.windowSize

/-- The two of them that are not always kept. -/
def Source.InLimits (p : Params) (s : Source) : Prop :=
  s.sendLastContig.toNat ≤ s.sendWorriedLimit.toNat ∧
    s.sendMostRecent.toNat ≤ s.sendAckLimit.toNat + p.sendAhead

theorem toNat_sub_le_iff {x y : BitVec 32} (h : y ≤ x) (n : Nat) :
    (x - y).toNat ≤ n ↔ x.toNat ≤ y.toNat + n := by
  rw [toNat_sub_of_le h]
  omega

theorem Counters.documented_iff {p : Params} {w : World} (h : Counters p w) :
    Documented p w ↔ w.source.InLimits p := by
  constructor
  · intro doc
    exact ⟨BitVec.le_def.mp doc.contig, (toNat_sub_le_iff h.ackLimit _).mp doc.ahead⟩
  · rintro ⟨hcontig, hahead⟩
    exact ⟨BitVec.le_def.mpr hcontig, h.worriedLimit, h.ackLimit,
      (toNat_sub_le_iff h.contig _).mpr h.window, (toNat_sub_le_iff h.ackLimit _).mpr hahead,
      h.recvContig, (toNat_sub_le_iff h.recvContig _).mpr h.recvWindow⟩

/-- The number of packets that `sftp_ReadStrategy` reads. -/
def Source.packetsRead (p : Params) (s : Source) : Nat :=
  if s.hitEof ∨ !winIsOpen p s then 0
  else if p.sendAhead * p.bodyLength ≤ s.rest.length then p.sendAhead
  else (lastPacket p.bodyLength p.sendAhead 1 s.rest.length).1

/-- `SendWorriedLimit` is not behind, or `CheckWorried` can raise it; and unless `n > 0` packets are
sent of which one is to be acknowledged, all that are sent are near to `SendAckLimit`. -/
def Source.PacedFor (p : Params) (ch : Choices) (n : Nat) (s : Source) : Prop :=
  (if s.whoAmI = .client ∨ s.retransmitting then s.sendLastContig.toNat ≤ s.sendAckLimit.toNat
    else s.sendLastContig.toNat ≤ s.sendWorriedLimit.toNat) ∧
  (n = 0 ∨ (n < p.sendAhead ∧ ch.morePackets) →
    s.sendMostRecent.toNat + n ≤ s.sendAckLimit.toNat + p.sendAhead)

def Source.Paced (p : Params) (ch : Choices) (s : Source) : Prop := s.PacedFor p ch (s.packetsRead p)

instance (p : Params) (ch : Choices) (s : Source) : Decidable (s.Paced p ch) :=
  inferInstanceAs (Decidable (_ ∧ _))

/-- The acknowledgement is late, a client has it twice, it completes the transfer, or the source is
paced for what is sent on it. -/
def Source.AckPaced (p : Params) (ch : Choices) (ack : AckPacket) (s : Source) : Prop :=
  ack.gotEmAll < s.sendLastContig ∨
    (s.whoAmI = .client ∧ ack.gotEmAll = s.sendLastContig) ∨
    (s.hitEof = true ∧ s.sendMostRecent = ack.gotEmAll) ∨
    ({ s with sendLastContig := ack.gotEmAll } : Source).Paced p ch

/-! ### What the routines do to the counters -/

section Routines

variable {p : Params} {r : Reads} {a m : Nat} {s s' : Source} {ch : Choices}
  {sent : List DataPacket}

/-- Only buffers differ. -/
def Source.SameCounters (s s' : Source) : Prop := ∃ packets, s' = { s with thesePackets := packets }

theorem sendFirstUnacked_counters {winopen : Bool}
    (run : sendFirstUnacked winopen s = .ok (s', sent)) : s.SameCounters s' := by
  rw [sendFirstUnacked] at run
  dsimp only at run
  split at run
  · cases run
  · cases run
    exact ⟨_, rfl⟩

theorem resendLoop_counters {count i : Nat} {acked : Bool}
    (run : resendLoop count i acked s = .ok (s', sent)) : s.SameCounters s' := by
  induction count generalizing i acked s sent with
  | zero =>
    cases run
    exact ⟨_, rfl⟩
  | succ count ih =>
    rw [resendLoop] at run
    split at run
    · exact ih run
    · split at run
      · cases run
      · dsimp only at run
        split at run
        · cases run
        next hrest =>
          cases run
          obtain ⟨packets, rfl⟩ := ih hrest
          exact ⟨packets, rfl⟩

/-- `CheckWorried` raises `SendWorriedLimit` to `SendLastContig` if `SendAckLimit` is there. -/
theorem checkWorried_counters (ch : Choices) (s : Source) :
    ∃ limit : BitVec 32, (checkWorried ch s).1 = { s with sendWorriedLimit := limit } ∧
      (s.sendLastContig.toNat ≤ limit.toNat ↔ s.sendLastContig.toNat ≤ s.sendAckLimit.toNat) := by
  rw [checkWorried]
  split
  · exact ⟨_, rfl, .rfl⟩
  · have hlimit : ∀ s₁ : Source, s₁.sendAckLimit = s.sendAckLimit →
        s₁.sendWorriedLimit.toNat = max s.sendWorriedLimit.toNat s.sendLastContig.toNat →
        (s.sendLastContig.toNat ≤
            (BitVec.ofNat 32 (worriedLoop ch s₁ s₁.sendAckLimit.toNat)).toNat ↔
          s.sendLastContig.toNat ≤ s.sendAckLimit.toNat) := by
      intro s₁ hack hworried
      obtain ⟨hge, hle⟩ := worriedLoop_bounds ch s₁ s₁.sendAckLimit.toNat
      rw [toNat_ofNat, Nat.mod_eq_of_lt (hle.trans_lt (isLt _))]
      rw [hack] at hle hge ⊢
      omega
    split
    next hlt => exact ⟨_, rfl, hlimit _ rfl (max_eq_right (BitVec.lt_def.mp hlt).le).symm⟩
    next hge =>
      exact ⟨_, rfl, hlimit _ rfl (max_eq_left (BitVec.le_def.mp (BitVec.not_lt.mp hge))).symm⟩

/-- Packets are sent: `SendAckLimit` comes to one of them if it is to be acknowledged. -/
theorem sendAheadLoop_counters {wantsAck : BitVec 32 → Bool} {n : Nat}
    (room : s.sendMostRecent.toNat + n < 2 ^ 32)
    (run : sendAheadLoop wantsAck n s = .ok (s', sent)) :
    s'.sendLastContig = s.sendLastContig ∧ s'.sendWorriedLimit = s.sendWorriedLimit ∧
      s'.sendMostRecent.toNat = s.sendMostRecent.toNat + n ∧
      ((∃ k, 1 ≤ k ∧ k ≤ n ∧ wantsAck (s.sendMostRecent + BitVec.ofNat 32 k) = true) →
        s.sendMostRecent.toNat < s'.sendAckLimit.toNat) ∧
      ((∀ k, 1 ≤ k → k ≤ n → wantsAck (s.sendMostRecent + BitVec.ofNat 32 k) = false) →
        s'.sendAckLimit = s.sendAckLimit) := by
  induction n generalizing s sent with
  | zero =>
    cases run
    refine ⟨rfl, rfl, rfl, ?_, fun _ => rfl⟩
    rintro ⟨k, hpos, hle, -⟩
    omega
  | succ n ih =>
    have hnext := toNat_succ (x := s.sendMostRecent) (by omega)
    have hindex : ∀ k, s.sendMostRecent + BitVec.ofNat 32 (k + 1) =
        s.sendMostRecent + 1 + BitVec.ofNat 32 k := by
      intro k
      rw [BitVec.ofNat_add, add_assoc, add_comm (BitVec.ofNat 32 k)]
      rfl
    have hone : s.sendMostRecent + BitVec.ofNat 32 1 = s.sendMostRecent + 1 := rfl
    rw [sendAheadLoop] at run
    split at run
    · cases run
    next pb _ =>
      split at run
      · cases run
      next hloop =>
        cases run
        obtain ⟨hcontig, hworried, hrecent, hasked, hsilent⟩ :=
          ih (s := sendNext (wantsAck (s.sendMostRecent + 1)) pb s)
            (by dsimp only [sendNext]; omega) hloop
        dsimp only [sendNext] at hcontig hworried hrecent hasked hsilent
        refine ⟨hcontig, hworried, by omega, ?_, fun hnone => ?_⟩
        · rintro ⟨k, hpos, hle, hwants⟩
          by_cases hlater : ∃ k, 1 ≤ k ∧ k ≤ n ∧
              wantsAck (s.sendMostRecent + 1 + BitVec.ofNat 32 k) = true
          · have := hasked hlater
            omega
          · -- then it is the first of them
            have hfirst : k = 1 := by
              by_contra hne
              obtain ⟨k, rfl⟩ := Nat.exists_eq_add_of_le' hpos
              rw [hindex] at hwants
              exact hlater ⟨k, by omega, by omega, hwants⟩
            subst hfirst
            rw [hone] at hwants
            have hsame := hsilent fun k hpos hle => by
              rw [← Bool.not_eq_true]
              exact fun hwants => hlater ⟨k, hpos, hle, hwants⟩
            rw [hsame, if_pos hwants]
            omega
        · have hfirst := hnone 1 le_rfl (by omega)
          rw [hone] at hfirst
          rw [hsilent fun k hpos hle => ?_, if_neg (by rw [hfirst]; decide)]
          rw [← hindex]
          exact hnone (k + 1) (by omega) (by omega)

/-- `SendSendAhead` of at least one packet. -/
theorem sendSendAhead_counters (run : sendSendAhead p ch s = .ok (s', sent))
    (pos : 0 < s.readAheadCount) (few : s.readAheadCount ≤ p.sendAhead)
    (room : s.sendMostRecent.toNat + s.readAheadCount < 2 ^ 32) :
    s'.InLimits p ↔ s.sendLastContig.toNat ≤ s.sendWorriedLimit.toNat ∧
      (s.readAheadCount < p.sendAhead ∧ ch.morePackets = true →
        s.sendMostRecent.toNat + s.readAheadCount ≤ s.sendAckLimit.toNat + p.sendAhead) := by
  rw [sendSendAhead, if_neg (ne_of_gt pos)] at run
  dsimp only at run
  split at run
  · cases run
  next hloop =>
    cases run
    obtain ⟨hcontig, hworried, hrecent, hasked, hsilent⟩ := sendAheadLoop_counters room hloop
    unfold Source.InLimits
    dsimp only
    rw [hcontig, hworried, hrecent]
    refine and_congr_right fun _ => ?_
    by_cases hdont : s.readAheadCount < p.sendAhead ∧ ch.morePackets = true
    · rw [forall_prop_of_true hdont, hsilent fun k _ _ => ?_]
      simp [hdont]
    · refine iff_of_true ?_ fun h => absurd h hdont
      have hpoint := p.ackPoint_pos
      have hlimit := hasked ⟨if p.ackPoint > s.readAheadCount then s.readAheadCount
        else p.ackPoint, by split <;> omega, by split <;> omega, ?_⟩
      · omega
      · have hask : (decide (s.readAheadCount < p.sendAhead) && ch.morePackets) = false := by
          simpa [Bool.and_eq_true] using hdont
        rw [hask]
        simp

theorem readStrategy_counters (zero : s.readAheadCount = 0) :
    ∃ rest eof packets, readStrategy p s =
      { s with rest := rest, hitEof := eof, thesePackets := packets,
               readAheadCount := s.packetsRead p } := by
  rw [readStrategy]
  split
  next heof =>
    have hnone : s.packetsRead p = 0 := if_pos (.inl heof)
    rw [hnone, ← zero]
    exact ⟨_, _, _, rfl⟩
  next heof =>
    split
    next hclosed =>
      have hnone : s.packetsRead p = 0 := if_pos (.inr hclosed)
      rw [hnone, ← zero]
      exact ⟨_, _, _, rfl⟩
    next hopen =>
      rw [Source.packetsRead, if_neg (not_or.mpr ⟨heof, hopen⟩)]
      dsimp only
      by_cases hfull : p.sendAhead * p.bodyLength ≤ s.rest.length
      · rw [if_pos hfull, if_pos (min_eq_left hfull)]
        exact ⟨_, _, _, rfl⟩
      · rw [if_neg hfull, if_neg (by omega), min_eq_right (by omega)]
        exact ⟨_, _, _, rfl⟩

theorem Source.packetsRead_le (p : Params) (s : Source) : s.packetsRead p ≤ p.sendAhead := by
  unfold Source.packetsRead
  split
  · exact Nat.zero_le _
  · split
    · exact le_rfl
    next hshort =>
      obtain ⟨n, left, hlast, -, hle, -⟩ := lastPacket_spec (i := 1) (Nat.lt_of_not_le hshort)
      rw [hlast]
      omega

/-- What has been read is sent. -/
theorem sendPackets_inLimits_iff (few : s.readAheadCount ≤ p.sendAhead)
    (closed : (!winIsOpen p s) = true → s.readAheadCount = 0)
    (room : s.sendMostRecent.toNat + s.readAheadCount < 2 ^ 32)
    (run : sendPackets p ch s = .ok (s', sent)) :
    s'.InLimits p ↔ s.PacedFor p ch s.readAheadCount := by
  have hchecked : ∃ limit worried, (if s.whoAmI = .client ∨ s.retransmitting = true
        then checkWorried ch s else (s, false)) = ({ s with sendWorriedLimit := limit }, worried) ∧
      (s.sendLastContig.toNat ≤ limit.toNat ↔
        if s.whoAmI = .client ∨ s.retransmitting then s.sendLastContig.toNat ≤ s.sendAckLimit.toNat
        else s.sendLastContig.toNat ≤ s.sendWorriedLimit.toNat) := by
    split
    · obtain ⟨limit, hlimit, hiff⟩ := checkWorried_counters ch s
      exact ⟨limit, _, Prod.ext hlimit rfl, hiff⟩
    · exact ⟨_, _, rfl, .rfl⟩
  obtain ⟨limit, worried, hcheck, hworried⟩ := hchecked
  rw [sendPackets, hcheck] at run
  dsimp only at run
  -- where nothing is sent ahead, and where packets are
  have hidle (hnone : s.readAheadCount = 0)
      (same : Source.SameCounters { s with sendWorriedLimit := limit } s') :
      s'.InLimits p ↔ s.PacedFor p ch s.readAheadCount := by
    obtain ⟨packets, rfl⟩ := same
    rw [Source.PacedFor, forall_prop_of_true (.inl hnone), hnone]
    exact and_congr hworried .rfl
  have hsends {packets sent'} (hpos : 0 < s.readAheadCount) (hsend : sendSendAhead p ch
      { s with sendWorriedLimit := limit, thesePackets := packets } = .ok (s', sent')) :
      s'.InLimits p ↔ s.PacedFor p ch s.readAheadCount := by
    rw [sendSendAhead_counters hsend hpos few room]
    exact and_congr hworried (by rw [or_iff_right (ne_of_gt hpos)])
  split at run
  · cases run
  · split at run
    next hclosed => exact hidle (closed hclosed) (sendFirstUnacked_counters run)
    · split at run
      next hpos =>
        split at run
        · split at run
          · cases run
          next hfirst =>
            obtain ⟨packets, rfl⟩ := sendFirstUnacked_counters hfirst
            split at run
            · cases run
            next hsend =>
              cases run
              exact hsends hpos hsend
        · exact hsends hpos run
      next hzero => exact hidle (Nat.eq_zero_of_not_pos hzero) (resendLoop_counters run)

/-- `sftp_SendStrategy` leaves the limits in order exactly if the source is paced. -/
theorem sendStrategy_inLimits_iff (zero : s.readAheadCount = 0)
    (room : s.sendMostRecent.toNat + p.sendAhead < 2 ^ 32)
    (run : sendStrategy p ch s = .ok (s', sent)) : s'.InLimits p ↔ s.Paced p ch := by
  have hfew := s.packetsRead_le p
  obtain ⟨rest, eof, packets, hread⟩ := readStrategy_counters (p := p) zero
  rw [sendStrategy, if_pos zero, hread] at run
  exact sendPackets_inLimits_iff hfew (fun hclosed => if_pos (.inr hclosed))
    (by dsimp only; omega) run

/-- `sftp_SendStrategy` of a transfer in progress. -/
theorem sendStrategy_paced_iff (ch : Choices) (h : Sending p r a r.count s)
    (state : s.xferState = .inProgress) (room : s.sendMostRecent.toNat + p.sendAhead < 2 ^ 32) :
    ∃ s' sent, sendStrategy p ch s = .ok (s', sent) ∧
      ((s'.xferState = .inProgress → s'.InLimits p) ↔ s.Paced p ch) := by
  have hroom := room
  rw [h.mostRecent, add_assoc] at hroom
  obtain ⟨r', -, hsends, -⟩ := sendStrategy_sending h ch hroom
  obtain ⟨s', sent, hsend, -, hstate, -⟩ := hsends.sends
  refine ⟨s', sent, hsend, ?_⟩
  rw [← sendStrategy_inLimits_iff h.readAheadCount_eq room hsend]
  exact forall_prop_of_true (hstate.trans state)

/-- `sftp_AckArrived`, of an acknowledgement that is not late. -/
theorem ackArrived_inLimits_iff (h : Sending p r a r.count s) {ack : AckPacket} {c : Nat}
    (room : s.sendMostRecent.toNat + p.sendAhead < 2 ^ 32) (acks : Acks r c ack) (le : c ≤ r.count)
    (fresh : s.sendLastContig ≤ ack.gotEmAll) (prior : s.xferState = .inProgress → s.InLimits p)
    (run : ackArrived p ch ack s = .ok (s', sent)) :
    (s'.xferState = .inProgress → s'.InLimits p) ↔ s.AckPaced p ch ack := by
  rw [Source.AckPaced, or_iff_right (BitVec.not_lt.mpr fresh)]
  obtain ⟨g, hg, hgot, -⟩ := acks.got
  have hahead := h.readAheadCount_eq
  have hlow : a ≤ g := by
    rw [le_def, h.lastContig, hgot] at fresh
    omega
  have hrun : (ack.gotEmAll - s.sendLastContig).toNat = g - a := by
    rw [toNat_sub, hgot, h.lastContig]
    omega
  have hsame : ack.gotEmAll = s.sendLastContig ↔ g - a = 0 := by
    rw [← BitVec.toNat_inj, hgot, h.lastContig]
    omega
  rw [ackArrived, hrun] at run
  dsimp only at run
  rw [if_neg (by omega)] at run
  split at run
  next hdup =>
    cases run
    exact iff_of_true prior (.inl ⟨hdup.2, hsame.mpr (by omega)⟩)
  next hdup =>
    split at run
    · cases run
    · split at run
      · cases run
      · split at run
        next hdone =>
          cases run
          exact iff_of_true (fun hstate => by cases hstate) (.inr (.inl ⟨hdone.1, hdone.2.2⟩))
        next hmore =>
          rw [Int.toNat_natCast] at run
          have hacked := h.acked hlow (hg.trans le) hgot ack.bitMask .inProgress
            (fun hdone => absurd hdone (by decide))
          obtain ⟨s'', sent', hsend, hiff⟩ := sendStrategy_paced_iff ch hacked rfl room
          rw [hsend] at run
          dsimp only at run
          split at run
          · cases run
            rw [hiff, or_iff_right fun hclient => hdup ⟨?_, hclient.1⟩,
              or_iff_right fun hall => hmore ⟨hall.1, hahead, hall.2⟩]
            · exact .rfl
            · have := hsame.mp hclient.2
              omega
          · cases run

end Routines

/-! ### Runs -/

/-- The source keeps its limits in order when this happens. -/
def Pace (p : Params) (w : World) : Action → Prop
  | .putFile _ | .getFile | .sinkTimeout | .dataArrives _ _ => True
  | .sourceTimeout ch => ({ w.source with retransmitting := true } : Source).Paced p ch
  | .start ch => w.source.Paced p ch
  | .ackArrives ch ack => ({ w.source with retransmitting := false } : Source).AckPaced p ch ack

instance (p : Params) (w : World) : ∀ act, Decidable (Pace p w act)
  | .putFile _ | .getFile | .sinkTimeout | .dataArrives _ _ => inferInstanceAs (Decidable True)
  | .sourceTimeout _ | .start _ => inferInstanceAs (Decidable (Source.Paced _ _ _))
  | .ackArrives _ _ => inferInstanceAs (Decidable (_ ∨ _))

theorem World.fromSink_source (w : World) (out : Except Failure (Sink × List AckPacket)) :
    (w.fromSink out).source = w.source := by
  cases out <;> rfl

section Steps

variable {p : Params} {file : List Byte} {w w' : World} {r : Reads} {a c d : Nat}
  (h : Joint p file w r a c d)
  (prior : w.source.xferState = .inProgress → w.source.InLimits p)
include h prior

theorem step_inLimits_iff {act : Action} (guard : Unwrapped p w act)
    (run : step p w act = some w') :
    (w'.source.xferState = .inProgress → w'.source.InLimits p) ↔ Pace p w act := by
  have hsends : ∀ {s : Source} {ch : Choices}, Sending p r a r.count s → s.xferState = .inProgress →
      s.sendMostRecent.toNat + p.sendAhead < 2 ^ 32 →
      (((w.fromSource (sendStrategy p ch s)).source.xferState = .inProgress →
        (w.fromSource (sendStrategy p ch s)).source.InLimits p) ↔ s.Paced p ch) := by
    intro s ch sending state room
    obtain ⟨s', sent, hsend, hiff⟩ := sendStrategy_paced_iff ch sending state room
    rw [hsend]
    exact hiff
  have hacks : ∀ {s : Source} {ch : Choices} {ack : AckPacket}, Sending p r a r.count s →
      (s.xferState = .inProgress → s.InLimits p) → ack ∈ w.acks →
      s.sendMostRecent.toNat + p.sendAhead < 2 ^ 32 →
      (((w.fromSource (ackArrived p ch ack s)).source.xferState = .inProgress →
        (w.fromSource (ackArrived p ch ack s)).source.InLimits p) ↔ s.AckPaced p ch ack) := by
    intro s ch ack sending inLimits hmem room
    have hack := h.acks ack hmem
    have hle := h.sink.contig_le.trans h.sink.recent_le
    by_cases hlate : ack.gotEmAll < s.sendLastContig
    · rw [ackArrived_late sending ch hack hlate]
      exact iff_of_true prior (.inl hlate)
    · have hroom := room
      rw [sending.mostRecent, add_assoc] at hroom
      obtain ⟨-, -, s', sent, -, -, hok, -⟩ :=
        ackArrived_sending sending ch hroom hack hle (BitVec.not_lt.mp hlate)
      rw [hok]
      exact ackArrived_inLimits_iff sending room hack hle (BitVec.not_lt.mp hlate) inLimits hok
  cases act with
  | putFile ch =>
    obtain ⟨henabled, ⟨⟩⟩ := Option.ite_none_right_eq_some.mp run
    have hsending := h.putFile henabled.2.2
    have hroom : w.source.sendLastContig.toNat + p.sendAhead < 2 ^ 32 := by
      rw [hsending.mostRecent, ← h.source.mostRecent]
      exact guard
    refine (hsends hsending rfl hroom).trans (iff_true_intro ⟨?_, fun _ => ?_⟩)
    · split <;> exact le_rfl
    · exact Nat.add_le_add_left (Source.packetsRead_le p _) _
  | sourceTimeout ch =>
    obtain ⟨henabled, ⟨⟩⟩ := Option.ite_none_right_eq_some.mp run
    have hsending : Sending p r a r.count { w.source with retransmitting := true } :=
      { h.source with }
    exact hsends hsending henabled.2.2 guard
  | start ch =>
    obtain ⟨henabled, ⟨⟩⟩ := Option.ite_none_right_eq_some.mp run
    have hsending : Sending p r a r.count { w.source with xferState := .inProgress } :=
      { h.source with completed := nofun }
    exact hsends hsending rfl guard
  | ackArrives ch ack =>
    obtain ⟨henabled, run⟩ := Option.ite_none_right_eq_some.mp run
    split at run
    next hclient =>
      cases run
      rw [hacks h.source prior henabled.2 guard]
      unfold Pace Source.AckPaced Source.Paced Source.PacedFor
      simp only [hclient]
      exact .rfl
    next hserver =>
      split at run
      · cases run
        have hsending : Sending p r a r.count { w.source with retransmitting := false } :=
          { h.source with }
        exact hacks hsending prior henabled.2 guard
      · cases run
  | getFile =>
    obtain ⟨-, ⟨⟩⟩ := Option.ite_none_right_eq_some.mp run
    exact iff_of_true prior trivial
  | sinkTimeout =>
    obtain ⟨-, run⟩ := Option.ite_none_right_eq_some.mp run
    split at run
    · cases run
      exact iff_of_true prior trivial
    · cases run
      rw [World.fromSink_source]
      exact iff_of_true prior trivial
  | dataArrives ch pb =>
    obtain ⟨-, run⟩ := Option.ite_none_right_eq_some.mp run
    split at run
    · cases run
      rw [World.fromSink_source]
      exact iff_of_true prior trivial
    · split at run
      · cases run
        rw [World.fromSink_source]
        exact iff_of_true prior trivial
      · cases run

end Steps

/-- The documented invariants hold in all states of a run in which a transfer is in progress, exactly
if the source is paced at every step. -/
theorem documented_iff_paced (p : Params) (file : List Byte) (first : BitVec 32) (side : Side)
    (acts : List Action)
    (guarded : Guarded (step p) (Unwrapped p) (initial file first side) acts) :
    Always (step p) (fun w => w.source.xferState = .inProgress → Documented p w)
        (initial file first side) acts ↔
      Guarded (step p) (fun w act => (step p w act).isSome → Pace p w act)
        (initial file first side) acts := by
  have hiff : ∀ {w r a c d}, Joint p file w r a c d →
      ((w.source.xferState = .inProgress → Documented p w) ↔
        (w.source.xferState = .inProgress → w.source.InLimits p)) :=
    fun h => imp_congr_right fun _ => h.counters.documented_iff
  refine always_iff_guarded (I := fun w => ∃ r a c d, Joint p file w r a c d)
    (fun w act w' ⟨r, a, c, d, h⟩ guard run => step_joint h guard run) ?_
    ⟨_, 0, 0, 0, initial_joint p file first side⟩ (fun hstate => by cases hstate) guarded
  rintro w act ⟨r, a, c, d, h⟩ prior guard
  have hstep : ∀ w', step p w act = some w' →
      ((w'.source.xferState = .inProgress → Documented p w') ↔ Pace p w act) := by
    intro w' run
    obtain ⟨_, _, _, _, h'⟩ := step_joint h guard run
    rw [hiff h']
    exact step_inLimits_iff h ((hiff h).mp prior) guard run
  constructor
  · intro hall hsome
    obtain ⟨w', run⟩ := Option.isSome_iff_exists.mp hsome
    exact (hstep w' run).mp (hall w' run)
  · intro hpace w' run
    exact (hstep w' run).mpr (hpace (Option.isSome_iff_exists.mpr ⟨w', run⟩))

/-- A client sends two packets of its first file, and each is acknowledged before the next. -/
def acknowledgedRun : List Action :=
  [.getFile, .start quiet, .dataArrives quiet (zeroPacket 1), .ackArrives quiet (fullAck 1),
    .dataArrives quiet (zeroPacket 2), .ackArrives quiet (fullAck 2)]

theorem documented_iff_paced_acknowledged :
    (acknowledgedRun.foldlM (step smallParams) (initial (zeros 3) 0 .client)).map
        (·.source.sendLastContig) = some 2 ∧
      Always (step smallParams) (fun w => w.source.xferState = .inProgress → Documented smallParams w)
        (initial (zeros 3) 0 .client) acknowledgedRun :=
  ⟨by decide +kernel, (documented_iff_paced smallParams (zeros 3) 0 .client acknowledgedRun
    (by decide +kernel)).mpr (by decide +kernel)⟩

/-- Three packets a read, the first of them to be acknowledged. -/
def threeAhead : Params :=
  { smallParams with
    windowSize := 6
    sendAhead := 3
    ackPoint_le := by decide
    sendAhead_le := by decide
    windowSize_le := by decide }

/-- The last packets are sent while other packets wait: `SendAckLimit` stays where it is. -/
def suppressedRun : Option World :=
  [.putFile quiet, .sourceTimeout { quiet with morePackets := true }].foldlM (step threeAhead)
    (initial (zeros 5) 0 .server)

/-- A server that does not retransmit leaves the worried limit behind its acknowledgements; a client
that has sent five packets before starts with a worried limit of 0; and the limit of
acknowledgements can be behind by more than a read. -/
theorem limits_left_behind :
    (∃ w, twoRounds = some w ∧ w.source.xferState = .inProgress ∧
      w.source.sendWorriedLimit < w.source.sendLastContig) ∧
    (∃ w, [.getFile, .start quiet].foldlM (step smallParams) (initial (zeros 3) 5 .client) = some w ∧
      w.source.xferState = .inProgress ∧ w.source.sendWorriedLimit < w.source.sendLastContig) ∧
    ∃ w, suppressedRun = some w ∧ w.source.xferState = .inProgress ∧
      threeAhead.sendAhead < (w.source.sendMostRecent - w.source.sendAckLimit).toNat := by
  obtain ⟨w, hw, -, -, -, hstate, hlimit⟩ := twoRounds_end
  exact ⟨⟨w, hw, hstate, hlimit⟩, by decide +kernel, by decide +kernel⟩

end Coda.Sftp
