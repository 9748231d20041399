import Coda.Lib.Bits
import Coda.Lib.Run
import Coda.Secure.Association

/-!
The receive window against replayed packets.

The window of 64 bits says which of the 64 numbers ending at `recv_seq` were accepted, and
`recv_seq` is the highest of them. A number that is 64 or more above it makes the window be
shifted by at least its width, which C leaves undefined; the other numbers keep the invariant.
-/

namespace Coda.Secure

open Coda.Lib List

/-! ### Authentic packets -/

/-- The part of a packet in front of its authenticator. -/
def covered (sa : Association) (packet : List Byte) : List Byte :=
  packet.take (packet.length - sa.validate.icvLen)

/-- A packet of the association that passes every check but the one of its sequence number. -/
structure Authentic (sa : Association) (packet : List Byte) (len : Nat) : Prop where
  short : packet.length ≤ maxPacketSize
  spi : ntohl packet = sa.recvSpi
  long : sa.validate.icvLen + 8 + sa.decrypt.ivLen + 2 ≤ packet.length
  fits : packet.length ≤ len + (sa.validate.icvLen + 8 + sa.decrypt.ivLen + 2)
  aligned : sa.validate.icvLen ≠ 0 → (packet.length - sa.validate.icvLen) % 4 = 0
  authentic : sa.validate.icvLen ≠ 0 → packet.drop (packet.length - sa.validate.icvLen) =
    (sa.validate.auth (covered sa packet)).take sa.validate.icvLen
  decrypts : ∃ written n, packetDecryption sa (covered sa packet) = some (written, n)

/-- An association whose packets are authenticated. -/
structure Protected (sa : Association) : Prop where
  spi : 256 ≤ sa.recvSpi.toNat
  service : sa.validate.icvLen ≠ 0 ∨ sa.decrypt.icvLen ≠ 0
  icvLen : sa.validate.icvLen ≤ maxIcvLen

/-- The sequence number of a packet. -/
def seqOf (packet : List Byte) : BitVec 32 := ntohl (packet.drop 4)

/-- What is left of `secure_recvfrom` for an authentic packet: the two checks of its number. -/
def acceptSeq (sa : Association) (seq : BitVec 32) : Option (Bool × Association) :=
  if sequenceNumberVerification sa seq then integrityCheckPassed sa seq else some (false, sa)

/-- The same, for an association that may have no authentication service. -/
def checkSeq (sa : Association) (seq : BitVec 32) : Option (Bool × Association) :=
  if sa.validate.icvLen ≠ 0 ∨ sa.decrypt.icvLen ≠ 0 then acceptSeq sa seq else some (true, sa)

variable {sa sa' : Association} {seq q : BitVec 32} {events : Events} {s : Receiver}
  {a : List Byte × Nat}

theorem checkSeq_protected (protect : Protected sa) (seq : BitVec 32) :
    checkSeq sa seq = acceptSeq sa seq := if_pos protect.service

/-- The same algorithms, with any window. -/
def SameKeys (sa sa' : Association) : Prop :=
  ∃ seq win, sa' = { sa with recvSeq := seq, recvWin := win }

theorem SameKeys.refl (sa : Association) : SameKeys sa sa := ⟨sa.recvSeq, sa.recvWin, rfl⟩

theorem SameKeys.trans {sa'' : Association} (h : SameKeys sa sa') (h' : SameKeys sa' sa'') :
    SameKeys sa sa'' := by
  obtain ⟨seq, win, rfl⟩ := h
  exact h'

theorem Authentic.congr {packet : List Byte} {len : Nat} (h : Authentic sa packet len)
    (same : SameKeys sa sa') : Authentic sa' packet len := by
  obtain ⟨seq, win, rfl⟩ := same
  exact { h with }

theorem Protected.congr (h : Protected sa) (same : SameKeys sa sa') : Protected sa' := by
  obtain ⟨seq, win, rfl⟩ := same
  exact ⟨h.spi, h.service, h.icvLen⟩

theorem advanceWindow_sameKeys (h : advanceWindow sa seq = some sa') : SameKeys sa sa' := by
  unfold advanceWindow at h
  dsimp only at h
  split_ifs at h
  · cases h
    exact ⟨_, _, rfl⟩
  · cases h
    exact SameKeys.refl sa

theorem integrityCheckPassed_sameKeys {fresh : Bool}
    (h : integrityCheckPassed sa seq = some (fresh, sa')) : SameKeys sa sa' := by
  obtain ⟨sa₁, hadvance, hrest⟩ := Option.bind_eq_some_iff.mp h
  have same := advanceWindow_sameKeys hadvance
  generalize (if seqOffset sa seq < 0 then 0 else (seqOffset sa seq).toNat) = offset at hrest
  split_ifs at hrest
  · cases hrest
    exact same
  · cases hrest
    exact same.trans ⟨_, _, rfl⟩

theorem acceptSeq_sameKeys {fresh : Bool} (h : acceptSeq sa seq = some (fresh, sa')) :
    SameKeys sa sa' := by
  unfold acceptSeq at h
  split_ifs at h
  · exact integrityCheckPassed_sameKeys h
  · cases h
    exact SameKeys.refl sa

/-! ### secure_recvfrom of an authentic packet -/

/-- Whether a packet was accepted. -/
def Received.isDone : Received → Bool
  | .dropped _ => false
  | .done _ _ => true

/-- A packet that decrypts to these bytes, by whether its number is fresh. -/
def verdict (written : List Byte) (n : Nat) (fresh : Bool) : Received :=
  if fresh then .done written n else .dropped .eagain

theorem isDone_verdict (written : List Byte) (n : Nat) (fresh : Bool) :
    (verdict written n fresh).isDone = fresh := by
  cases fresh <;> rfl

section Receive

variable {sa : Association} {packet written : List Byte} {len n : Nat}

theorem openPayload_validated (hdecrypt : packetDecryption sa packet = some (written, n))
    (hicv : ¬(sa.validate.icvLen = 0 ∧ sa.decrypt.icvLen ≠ 0)) (seq : BitVec 32) :
    openPayload sa seq packet = some (.done written n, sa) := by
  unfold openPayload
  rw [hdecrypt]
  exact if_neg hicv

theorem openPayload_combined (hdecrypt : packetDecryption sa packet = some (written, n))
    (hicv : sa.validate.icvLen = 0 ∧ sa.decrypt.icvLen ≠ 0) (seq : BitVec 32) :
    openPayload sa seq packet =
      (integrityCheckPassed sa seq).map fun x => (verdict written n x.1, x.2) := by
  unfold openPayload
  rw [hdecrypt]
  dsimp only
  rw [if_pos hicv]
  cases integrityCheckPassed sa seq with
  | none => rfl
  | some x =>
    obtain ⟨fresh, sa'⟩ := x
    cases fresh <;> rfl

/-- Only the number of an authentic packet decides. -/
theorem receiveOn_authentic (h : Authentic sa packet len) (hicvLen : sa.validate.icvLen ≤ maxIcvLen)
    (hdecrypt : packetDecryption sa (covered sa packet) = some (written, n)) (seq : BitVec 32) :
    receiveOn sa seq packet len = (checkSeq sa seq).map fun x => (verdict written n x.1, x.2) := by
  have hlong := h.long
  have hfits := h.fits
  have hestimate : ¬((packet.length : Int) - sa.validate.icvLen - 8 - sa.decrypt.ivLen - 2 < 0 ∨
      (len : Int) < packet.length - sa.validate.icvLen - 8 - sa.decrypt.ivLen - 2) := by omega
  unfold receiveOn checkSeq acceptSeq
  rw [if_neg hestimate]
  by_cases hicv : sa.validate.icvLen = 0
  · have hcovered : covered sa packet = packet := by
      rw [covered, hicv]
      exact take_length
    rw [hcovered] at hdecrypt
    rw [if_pos hicv]
    by_cases hcombined : sa.decrypt.icvLen = 0
    · have hplain : ¬(sa.validate.icvLen ≠ 0 ∨ sa.decrypt.icvLen ≠ 0) := by
        rintro (h | h)
        · exact h hicv
        · exact h hcombined
      rw [if_neg fun hbad => hplain hbad.1, if_neg hplain,
        openPayload_validated hdecrypt fun hboth => hboth.2 hcombined]
      rfl
    · rw [if_pos (Or.inr hcombined), openPayload_combined hdecrypt ⟨hicv, hcombined⟩]
      cases hverify : sequenceNumberVerification sa seq with
      | false => exact if_pos ⟨Or.inr hcombined, rfl⟩
      | true => exact if_neg fun hbad => Bool.false_ne_true hbad.2
  · rw [if_neg hicv, if_neg (not_not.mpr (h.aligned hicv)), if_neg (not_lt.mpr hicvLen),
      if_pos (Or.inl hicv)]
    rw [if_neg (show ¬packet.drop (packet.length - sa.validate.icvLen) ≠
      (sa.validate.auth (packet.take (packet.length - sa.validate.icvLen))).take sa.validate.icvLen
      from not_not.mpr (h.authentic hicv))]
    cases hverify : sequenceNumberVerification sa seq with
    | false => exact if_pos ⟨Or.inl hicv, rfl⟩
    | true =>
      rw [if_neg fun hbad => Bool.false_ne_true hbad.2]
      cases hcheck : integrityCheckPassed sa seq with
      | none => rfl
      | some x =>
        obtain ⟨fresh, sa'⟩ := x
        cases fresh with
        | false => rfl
        | true =>
          -- the window moves before the payload is decrypted
          obtain ⟨seq', win', rfl⟩ := integrityCheckPassed_sameKeys hcheck
          have hmoved : packetDecryption { sa with recvSeq := seq', recvWin := win' }
            (packet.take (packet.length - sa.validate.icvLen)) = some (written, n) := hdecrypt
          exact openPayload_validated hmoved (fun hboth => hicv hboth.1) seq

/-- `secure_recvfrom` finds the association of a packet. -/
theorem secureRecvfrom_eq (hspi : 256 ≤ sa.recvSpi.toNat) (hshort : packet.length ≤ maxPacketSize)
    (hlong : 8 ≤ packet.length) (hhead : ntohl packet = sa.recvSpi) :
    secureRecvfrom (fun spi => if spi = sa.recvSpi then some sa else none) packet len =
      (receiveOn sa (seqOf packet) packet len).map fun x => (x.1, some x.2) := by
  have htake : packet.take maxPacketSize = packet := take_of_length_le hshort
  unfold secureRecvfrom
  dsimp only
  rw [htake, if_pos hlong, hhead, if_neg (by omega), if_neg (by omega), if_neg (by omega), if_pos rfl]
  rfl

theorem secureRecvfrom_authentic (hspi : 256 ≤ sa.recvSpi.toNat) (h : Authentic sa packet len)
    (hicvLen : sa.validate.icvLen ≤ maxIcvLen)
    (hdecrypt : packetDecryption sa (covered sa packet) = some (written, n)) :
    secureRecvfrom (fun spi => if spi = sa.recvSpi then some sa else none) packet len =
      (checkSeq sa (seqOf packet)).map fun x => (verdict written n x.1, some x.2) := by
  have hlong := h.long
  rw [secureRecvfrom_eq hspi h.short (by omega) h.spi, receiveOn_authentic h hicvLen hdecrypt,
    Option.map_map]
  rfl

end Receive

/-! ### The window -/

/-- What was received, in order: the numbers, and whether they were accepted. -/
abbrev Events := List (BitVec 32 × Bool)

def accepted (events : Events) : List (BitVec 32) := (events.filter Prod.snd).map Prod.fst

/-- The highest accepted number, 0 if there is none. -/
def highest (events : Events) : Nat := (accepted events).foldl (fun m q => max m q.toNat) 0

theorem accepted_concat (events : Events) (q : BitVec 32) (ok : Bool) :
    accepted (events ++ [(q, ok)]) = accepted events ++ if ok then [q] else [] := by
  unfold accepted
  rw [filter_append, map_append]
  cases ok <;> rfl

theorem accepted_concat_false (events : Events) (q : BitVec 32) :
    accepted (events ++ [(q, false)]) = accepted events :=
  (accepted_concat events q false).trans (append_nil _)

theorem highest_concat_false (events : Events) (q : BitVec 32) :
    highest (events ++ [(q, false)]) = highest events := by
  rw [highest, accepted_concat_false, highest]

theorem highest_concat_true (events : Events) (q : BitVec 32) :
    highest (events ++ [(q, true)]) = max (highest events) q.toNat := by
  rw [highest, accepted_concat, foldl_append]
  rfl

/-- No number is accepted twice, and a number is accepted whenever it is new and above the highest one
or within the 64 numbers ending at it. -/
structure ReplaySafe (events : Events) : Prop where
  once : (accepted events).Nodup
  complete : ∀ past q ok rest, events = past ++ (q, ok) :: rest → q ∉ accepted past →
    (highest past < q.toNat ∨ q.toNat ≤ highest past ∧ highest past < q.toNat + 64) → ok = true

theorem ReplaySafe.nil : ReplaySafe [] where
  once := nodup_nil
  complete := by
    intro past q ok rest heq
    exact absurd heq.symm (append_ne_nil_of_right_ne_nil past (cons_ne_nil _ rest))

theorem ReplaySafe.concat (h : ReplaySafe events) {ok : Bool}
    (hok : ok = true ↔ q ∉ accepted events ∧ highest events < q.toNat + 64) :
    ReplaySafe (events ++ [(q, ok)]) where
  once := by
    cases ok with
    | false =>
      rw [accepted_concat_false]
      exact h.once
    | true =>
      rw [accepted_concat, if_pos rfl]
      rw [← concat_eq_append]
      exact h.once.concat (hok.mp rfl).1
  complete := by
    intro past q' ok' rest heq hnew hhigh
    obtain rfl | ⟨rest', last, rfl⟩ := eq_nil_or_concat' rest
    · obtain ⟨rfl, hlast⟩ := append_inj' heq rfl
      cases hlast
      exact hok.mpr ⟨hnew, by omega⟩
    · rw [← cons_append, ← append_assoc] at heq
      obtain ⟨hpast, -⟩ := append_inj' heq rfl
      exact h.complete past q' ok' rest' hpast hnew hhigh

/-- The window holds what was accepted. -/
structure Window (sa : Association) (events : Events) : Prop where
  seq : sa.recvSeq.toNat = highest events
  top : ∀ q ∈ accepted events, q.toNat ≤ highest events
  win : ∀ k < 64, sa.recvWin.getLsbD k = true ↔ ∃ q ∈ accepted events, q.toNat + k = sa.recvSeq.toNat

theorem Window.initial (hseq : sa.recvSeq = 0) (hwin : sa.recvWin = 0) :
    Window sa [] where
  seq := by
    rw [hseq]
    rfl
  top := by
    intro q hq
    cases hq
  win := by
    intro k _
    rw [hwin]
    constructor
    · intro hbit
      exact absurd hbit (by rw [BitVec.ofNat_eq_ofNat, BitVec.getLsbD_zero]; exact Bool.false_ne_true)
    · rintro ⟨q, hq, -⟩
      cases hq

section

variable (h : Window sa events)
include h

/-- A number that is rejected changes nothing. -/
theorem Window.reject (q : BitVec 32) :
    Window sa (events ++ [(q, false)]) where
  seq := by
    rw [highest_concat_false]
    exact h.seq
  top := by
    rw [highest_concat_false, accepted_concat_false]
    exact h.top
  win := by
    rw [accepted_concat_false]
    exact h.win

/-- A number within the window is in it when its bit is set. -/
theorem Window.mem_iff (hle : q.toNat ≤ sa.recvSeq.toNat) (hin : sa.recvSeq.toNat < q.toNat + 64) :
    sa.recvWin.getLsbD (sa.recvSeq.toNat - q.toNat) = true ↔ q ∈ accepted events := by
  rw [h.win _ (by omega)]
  constructor
  · rintro ⟨q', hq', heq⟩
    have : q' = q := BitVec.eq_of_toNat_eq (by omega)
    exact this ▸ hq'
  · intro hq
    exact ⟨q, hq, by omega⟩

theorem Window.top_concat (q : BitVec 32) :
    ∀ q' ∈ accepted (events ++ [(q, true)]), q'.toNat ≤ highest (events ++ [(q, true)]) := by
  rw [accepted_concat, highest_concat_true]
  exact forall_mem_append.mpr ⟨fun q' hq' => (h.top q' hq').trans (le_max_left _ _),
    forall_mem_singleton.mpr (le_max_right _ _)⟩

/-- The bit of a number within the window. -/
theorem Window.mark (hle : q.toNat ≤ sa.recvSeq.toNat) (hin : sa.recvSeq.toNat < q.toNat + 64) :
    Window { sa with recvWin := sa.recvWin ||| BitVec.twoPow 64 (sa.recvSeq.toNat - q.toNat) }
      (events ++ [(q, true)]) where
  seq := by
    have := h.seq
    rw [highest_concat_true]
    change sa.recvSeq.toNat = _
    omega
  top := h.top_concat q
  win := by
    intro k hk
    rw [getLsbD_or_twoPow (by omega), accepted_concat, if_pos rfl]
    simp only [mem_append, mem_singleton, or_and_right, exists_or, exists_eq_left]
    by_cases hlast : k = sa.recvSeq.toNat - q.toNat
    · rw [if_pos hlast]
      exact ⟨fun _ => Or.inr (by omega), fun _ => rfl⟩
    · rw [if_neg hlast, h.win k hk]
      constructor
      · exact Or.inl
      · rintro (hold | heq)
        · exact hold
        · omega

/-- The window shifted up to a higher number. -/
theorem Window.shift (hlt : sa.recvSeq.toNat < q.toNat) :
    Window { sa with
      recvSeq := q
      recvWin := sa.recvWin <<< (q.toNat - sa.recvSeq.toNat) ||| BitVec.twoPow 64 0 }
      (events ++ [(q, true)]) where
  seq := by
    have := h.seq
    rw [highest_concat_true]
    change q.toNat = _
    omega
  top := h.top_concat q
  win := by
    intro k hk
    have hseq := h.seq
    rw [getLsbD_or_twoPow (by decide), accepted_concat, if_pos rfl]
    simp only [mem_append, mem_singleton, or_and_right, exists_or, exists_eq_left]
    by_cases hzero : k = 0
    · rw [if_pos hzero]
      exact ⟨fun _ => Or.inr (by omega), fun _ => rfl⟩
    · rw [if_neg hzero, BitVec.getLsbD_shiftLeft, decide_eq_true hk, Bool.true_and]
      by_cases hlow : k < q.toNat - sa.recvSeq.toNat
      · rw [decide_eq_true hlow]
        constructor
        · intro hbit
          cases hbit
        · rintro (⟨q', hq', heq⟩ | heq)
          · have := h.top q' hq'
            omega
          · omega
      · rw [decide_eq_false hlow, Bool.not_false, Bool.true_and, h.win _ (by omega)]
        constructor
        · rintro ⟨q', hq', heq⟩
          exact Or.inl ⟨q', hq', by omega⟩
        · rintro (⟨q', hq', heq⟩ | heq)
          · exact ⟨q', hq', by omega⟩
          · omega

end

section Numbers

variable {sa : Association} {q : BitVec 32}

theorem seqOffset_above (h : sa.recvSeq.toNat < q.toNat) (h' : q.toNat < sa.recvSeq.toNat + 2 ^ 31) :
    seqOffset sa q = -(q.toNat - sa.recvSeq.toNat : Nat) := by
  unfold seqOffset
  rw [BitVec.toInt_eq_toNat_cond, BitVec.toNat_sub]
  omega

theorem seqOffset_below (h : q.toNat ≤ sa.recvSeq.toNat) (h' : sa.recvSeq.toNat < q.toNat + 2 ^ 31) :
    seqOffset sa q = (sa.recvSeq.toNat - q.toNat : Nat) := by
  unfold seqOffset
  rw [BitVec.toInt_eq_toNat_cond, BitVec.toNat_sub]
  omega

theorem seqOffset_far (h : q.toNat + 2 ^ 31 ≤ sa.recvSeq.toNat) : seqOffset sa q < 0 := by
  unfold seqOffset
  rw [BitVec.toInt_eq_toNat_cond, BitVec.toNat_sub]
  omega

/-- A number above the highest one: accepted, unless the shift is too wide. -/
theorem acceptSeq_above (h : sa.recvSeq.toNat < q.toNat) (h' : q.toNat < sa.recvSeq.toNat + 2 ^ 31) :
    acceptSeq sa q = if sa.recvSeq.toNat + 64 ≤ q.toNat then none
      else some (true, { sa with
        recvSeq := q
        recvWin := sa.recvWin <<< (q.toNat - sa.recvSeq.toNat) ||| BitVec.twoPow 64 0 }) := by
  have hoffset := seqOffset_above h h'
  have hnot : ¬q < sa.recvSeq := fun hlt => lt_asymm h hlt
  have hverify : sequenceNumberVerification sa q = true := by
    unfold sequenceNumberVerification
    rw [if_pos (by omega), decide_eq_false hnot]
    rfl
  rw [acceptSeq, if_pos hverify]
  unfold integrityCheckPassed advanceWindow
  rw [if_pos (show seqOffset sa q < 0 by omega), if_pos (show seqOffset sa q < 0 by omega)]
  by_cases hwide : sa.recvSeq.toNat + 64 ≤ q.toNat
  · rw [if_pos (by omega), if_pos hwide]
    rfl
  · have hshift : (-seqOffset sa q).toNat = q.toNat - sa.recvSeq.toNat := by omega
    have hbit : (sa.recvWin <<< (q.toNat - sa.recvSeq.toNat)).getLsbD 0 = false := by
      rw [BitVec.getLsbD_shiftLeft]
      simp only [show 0 < q.toNat - sa.recvSeq.toNat by omega, decide_true, Bool.not_true,
        Bool.and_false, Bool.false_and]
    rw [if_neg (by omega), if_neg hwide, Option.bind_eq_bind, Option.bind_some, hshift]
    rw [if_neg (by decide), if_neg (by rw [hbit]; exact Bool.false_ne_true)]
    rfl

/-- A number within the window: accepted if its bit is not set. -/
theorem acceptSeq_within (h : q.toNat ≤ sa.recvSeq.toNat) (h' : sa.recvSeq.toNat < q.toNat + 64) :
    acceptSeq sa q = some (if sa.recvWin.getLsbD (sa.recvSeq.toNat - q.toNat) = true then (false, sa)
      else (true, { sa with
        recvWin := sa.recvWin ||| BitVec.twoPow 64 (sa.recvSeq.toNat - q.toNat) })) := by
  have hoffset := seqOffset_below h (by omega)
  have hnat : (seqOffset sa q).toNat = sa.recvSeq.toNat - q.toNat := by omega
  have hpos : ¬seqOffset sa q < 0 := by omega
  unfold acceptSeq sequenceNumberVerification integrityCheckPassed advanceWindow
  rw [if_neg hpos, if_neg (show ¬64 ≤ seqOffset sa q by omega), if_neg hpos, if_neg hpos, hnat]
  cases hbit : sa.recvWin.getLsbD (sa.recvSeq.toNat - q.toNat) with
  | true => rfl
  | false =>
    rw [if_pos Bool.not_false, Option.bind_eq_bind, Option.bind_some, if_neg (by omega), hbit]
    rfl

/-- A number behind the window. -/
theorem acceptSeq_behind (h : q.toNat + 64 ≤ sa.recvSeq.toNat) : acceptSeq sa q = some (false, sa) := by
  have hverify : sequenceNumberVerification sa q = false := by
    unfold sequenceNumberVerification
    by_cases hfar : q.toNat + 2 ^ 31 ≤ sa.recvSeq.toNat
    · have hlt : q < sa.recvSeq := show q.toNat < sa.recvSeq.toNat by omega
      rw [if_pos (seqOffset_far hfar), decide_eq_true hlt]
      rfl
    · have hbelow : q.toNat ≤ sa.recvSeq.toNat := by omega
      have hoffset := seqOffset_below hbelow (by omega)
      rw [if_neg (by omega), if_pos (by omega)]
  rw [acceptSeq, hverify]
  rfl

end Numbers

/-- A number less than 64 above the highest one: the window stays right, and the number is accepted
when it is new and not behind the window. -/
theorem acceptSeq_spec (h : Window sa events) (hjump : q.toNat < highest events + 64) :
    ∃ ok sa', acceptSeq sa q = some (ok, sa') ∧ Window sa' (events ++ [(q, ok)]) ∧
      (ok = true ↔ q ∉ accepted events ∧ highest events < q.toNat + 64) := by
  have hseq := h.seq
  by_cases habove : sa.recvSeq.toNat < q.toNat
  · have hstep := acceptSeq_above habove (by omega)
    rw [if_neg (by omega)] at hstep
    refine ⟨true, _, hstep, h.shift habove, fun _ => ⟨fun hmem => ?_, by omega⟩, fun _ => rfl⟩
    have := h.top q hmem
    omega
  · by_cases hbehind : q.toNat + 64 ≤ sa.recvSeq.toNat
    · refine ⟨false, sa, acceptSeq_behind hbehind, h.reject q, ?_⟩
      constructor
      · intro hok
        cases hok
      · rintro ⟨-, hin⟩
        omega
    · have hle : q.toNat ≤ sa.recvSeq.toNat := by omega
      have hin : sa.recvSeq.toNat < q.toNat + 64 := by omega
      have hstep := acceptSeq_within hle hin
      have hmem := h.mem_iff hle hin
      cases hbit : sa.recvWin.getLsbD (sa.recvSeq.toNat - q.toNat) with
      | true =>
        rw [if_pos hbit] at hstep
        refine ⟨false, sa, hstep, h.reject q, ?_⟩
        constructor
        · intro hok
          cases hok
        · rintro ⟨hnew, -⟩
          exact absurd (hmem.mp hbit) hnew
      | false =>
        have hclear : ¬sa.recvWin.getLsbD (sa.recvSeq.toNat - q.toNat) = true := by
          rw [hbit]
          exact Bool.false_ne_true
        rw [if_neg hclear] at hstep
        exact ⟨true, _, hstep, h.mark hle hin, fun _ => ⟨fun hq => hclear (hmem.mpr hq), by omega⟩,
          fun _ => rfl⟩

/-! ### Runs -/

/-- The receiving end of an association, with what it received. -/
structure Receiver where
  sa : Association
  events : Events

/-- `secure_recvfrom` of one packet into a buffer of some length. -/
def Receiver.receive (s : Receiver) (a : List Byte × Nat) : Option Receiver :=
  (secureRecvfrom (fun spi => if spi = s.sa.recvSpi then some s.sa else none) a.1 a.2).map fun x =>
    ⟨x.2.getD s.sa, s.events ++ [(seqOf a.1, x.1.isDone)]⟩

/-- What holds of a receiver between packets. -/
structure Receiver.Ok (s : Receiver) : Prop where
  protect : Protected s.sa
  window : Window s.sa s.events
  safe : ReplaySafe s.events

theorem receive_eq (protect : Protected s.sa) (h : Authentic s.sa a.1 a.2) : s.receive a =
      (acceptSeq s.sa (seqOf a.1)).map fun x => ⟨x.2, s.events ++ [(seqOf a.1, x.1)]⟩ := by
  obtain ⟨written, n, hdecrypt⟩ := h.decrypts
  unfold Receiver.receive
  rw [secureRecvfrom_authentic protect.spi h protect.icvLen hdecrypt, checkSeq_protected protect,
    Option.map_map]
  refine congrArg (fun f => Option.map f _) (funext fun x => ?_)
  change Receiver.mk x.2 _ = _
  rw [isDone_verdict]

/-- An authentic packet whose number is less than 2^31 above the highest accepted one. -/
def Expected (s : Receiver) (a : List Byte × Nat) : Prop :=
  Authentic s.sa a.1 a.2 ∧ (seqOf a.1).toNat < highest s.events + 2 ^ 31

/-- The packet's number is less than the window's width above the highest accepted one. -/
def SmallJump (s : Receiver) (a : List Byte × Nat) : Prop :=
  (seqOf a.1).toNat < highest s.events + 64

theorem receive_smallJump (h : s.Ok) (expect : Expected s a) (jump : SmallJump s a) :
    ∃ s', s.receive a = some s' ∧ s'.Ok := by
  obtain ⟨ok, sa', hstep, window, hok⟩ := acceptSeq_spec h.window jump
  refine ⟨⟨sa', s.events ++ [(seqOf a.1, ok)]⟩, ?_, ?_⟩
  · rw [receive_eq h.protect expect.1, hstep]
    rfl
  · exact ⟨h.protect.congr (acceptSeq_sameKeys hstep), window, h.safe.concat hok⟩

theorem receive_wideJump (h : s.Ok) (expect : Expected s a) (jump : ¬SmallJump s a) :
    s.receive a = none := by
  have hseq := h.window.seq
  have hexpect := expect.2
  unfold SmallJump at jump
  rw [receive_eq h.protect expect.1, acceptSeq_above (by omega) (by omega), if_pos (by omega)]
  rfl

/-- Numbers are accepted once and completely, with every shift defined, in exactly the runs where no
number is 64 or more above the highest one accepted before it. -/
theorem receive_replaySafe_iff {sa : Association} (protect : Protected sa) (hseq : sa.recvSeq = 0)
    (hwin : sa.recvWin = 0) {packets : List (List Byte × Nat)}
    (expect : Guarded Receiver.receive Expected ⟨sa, []⟩ packets) :
    (∃ s, packets.foldlM Receiver.receive ⟨sa, []⟩ = some s ∧ ReplaySafe s.events) ↔
      Guarded Receiver.receive SmallJump ⟨sa, []⟩ packets := by
  have start : Receiver.Ok ⟨sa, []⟩ := ⟨protect, Window.initial hseq hwin, ReplaySafe.nil⟩
  have keep : ∀ s a s', Receiver.Ok s → Expected s a → s.receive a = some s' → s'.Ok := by
    intro s a s' ok hexpect run
    by_cases jump : SmallJump s a
    · obtain ⟨s₁, run₁, ok₁⟩ := receive_smallJump ok hexpect jump
      rw [run₁] at run
      exact Option.some.inj run ▸ ok₁
    · rw [receive_wideJump ok hexpect jump] at run
      cases run
  have sharp : ∀ s a, Receiver.Ok s → Expected s a →
      ((∃ s', s.receive a = some s') ↔ SmallJump s a) := by
    intro s a ok hexpect
    constructor
    · rintro ⟨s', run⟩
      by_contra jump
      rw [receive_wideJump ok hexpect jump] at run
      cases run
    · intro jump
      obtain ⟨s', run, -⟩ := receive_smallJump ok hexpect jump
      exact ⟨s', run⟩
  exact run_iff_guarded (fun s ok => ok.safe) keep sharp start expect

/-- An association that only adds up the bytes of a packet. -/
def plainAssociation : Association where
  recvSpi := 256
  recvSeq := 0
  recvWin := 0
  validate := ⟨4, fun data => htonl (data.foldl (fun sum b => sum + b.setWidth 32) 0)⟩
  decrypt := ⟨0, 0, 0, fun data iv _ => some (iv, data), fun data _ _ => some data⟩
  peerSpi := 256
  peerSeq := 0
  sendIv := List.replicate maxIvLen 0
  encrypt := ⟨0, 0, 0, fun data iv _ => some (iv, data), fun data _ _ => some data⟩
  authenticate := ⟨4, fun data => htonl (data.foldl (fun sum b => sum + b.setWidth 32) 0)⟩

/-- Its packet without a payload. -/
def emptyPacket (q : BitVec 32) : List Byte :=
  let body := htonl 256 ++ htonl q ++ trailer 2
  body ++ plainAssociation.validate.auth body

theorem plain_protected : Protected plainAssociation := ⟨by decide, Or.inl (by decide), by decide⟩

theorem length_emptyPacket (q : BitVec 32) : (emptyPacket q).length = 16 := rfl

theorem emptyPacket_authentic (same : SameKeys plainAssociation sa) (q : BitVec 32) :
    Authentic sa (emptyPacket q) 2 := by
  refine Authentic.congr ?_ same
  constructor
  · rw [length_emptyPacket]
    decide
  · exact ntohl_htonl_append 256 _
  · rw [length_emptyPacket]
    decide
  · rw [length_emptyPacket]
    decide
  · intro _
    rw [length_emptyPacket]
    rfl
  · intro _
    rfl
  · exact ⟨trailer 2, 0, rfl⟩

theorem seqOf_emptyPacket (q : BitVec 32) : seqOf (emptyPacket q) = q := ntohl_htonl_append q _

/-- Two packets with any two numbers, the second not too far ahead. -/
theorem emptyPackets_expected (q q' : BitVec 32) (h : q.toNat < 64) (h' : q'.toNat < q.toNat + 2 ^ 31) :
    Guarded Receiver.receive Expected ⟨plainAssociation, []⟩
      [(emptyPacket q, 2), (emptyPacket q', 2)] := by
  have auth := emptyPacket_authentic (SameKeys.refl plainAssociation) q
  have window : Window plainAssociation [] := Window.initial rfl rfl
  have hzero : highest [] = 0 := rfl
  have expect : Expected ⟨plainAssociation, []⟩ (emptyPacket q, 2) := by
    refine ⟨auth, ?_⟩
    rw [seqOf_emptyPacket, hzero]
    omega
  refine ⟨expect, fun s run => ⟨?_, fun _ _ => trivial⟩⟩
  have hjump : q.toNat < highest [] + 64 := by
    omega
  obtain ⟨ok, sa', hstep, -, hok⟩ := acceptSeq_spec window hjump
  have hyes : ok = true := by
    apply hok.mpr
    exact ⟨not_mem_nil, by omega⟩
  subst hyes
  rw [receive_eq plain_protected auth, seqOf_emptyPacket, hstep] at run
  cases run
  refine ⟨emptyPacket_authentic (acceptSeq_sameKeys hstep) q', ?_⟩
  rw [seqOf_emptyPacket, highest_concat_true]
  omega

/-- Number 1 after number 3. -/
theorem receive_replaySafe_iff_reordered :
    ∃ s, [(emptyPacket 3, 2), (emptyPacket 1, 2)].foldlM Receiver.receive
      ⟨plainAssociation, []⟩ = some s ∧ ReplaySafe s.events := by
  apply (receive_replaySafe_iff plain_protected rfl rfl
    (emptyPackets_expected 3 1 (by decide) (by decide))).mpr
  refine guarded_of_forall (forall_mem_cons.mpr ⟨fun s => ?_, forall_mem_singleton.mpr fun s => ?_⟩) _
  all_goals
    unfold SmallJump
    rw [seqOf_emptyPacket]
    exact Nat.lt_add_left _ (by decide)

/-- Number 100 after number 1: the window is to be shifted by 99. -/
theorem receive_wide_shift :
    Protected plainAssociation ∧ plainAssociation.recvSeq = 0 ∧ plainAssociation.recvWin = 0 ∧
      Guarded Receiver.receive Expected ⟨plainAssociation, []⟩
        [(emptyPacket 1, 2), (emptyPacket 100, 2)] ∧
      ¬∃ s, [(emptyPacket 1, 2), (emptyPacket 100, 2)].foldlM Receiver.receive
        ⟨plainAssociation, []⟩ = some s ∧ ReplaySafe s.events := by
  refine ⟨plain_protected, rfl, rfl, emptyPackets_expected 1 100 (by decide) (by decide), ?_⟩
  rintro ⟨s, run, -⟩
  have hnone : [(emptyPacket 1, 2), (emptyPacket 100, 2)].foldlM Receiver.receive
      ⟨plainAssociation, []⟩ = none := rfl
  cases run

end Coda.Secure
