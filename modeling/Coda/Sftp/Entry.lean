import Coda.Lib.Ring
import Coda.Sftp.Mask

/-!
What the two ends of an SFTP transfer share (`sftp.h`): packets as `sftp_ExaminePacket` hands them
on, the parameters of the connection, and which part of the file a data packet carries.

Times, statistics and the encryption of single packets (connections without a security association
of their own) are left out; where the code reads a packet buffer only to measure, a null pointer is
still a fault.
-/

namespace Coda.Sftp

open Coda.Lib

abbrev Byte := BitVec 8

/-- `MAXOPACKETS`. -/
def maxOPackets : Nat := 64

/-- `WhoAmI`, of an end that is not in error. -/
inductive Side where
  | server
  | client
deriving DecidableEq, Repr

/-- `XferState`. -/
inductive XferState where
  | notStarted
  | inProgress
  | completed
deriving DecidableEq, Repr

/-- A packet with opcode `SFTP_DATA`; `body` is the first `BodyLength` bytes. -/
structure DataPacket where
  seqNumber : BitVec 32
  body : List Byte
  moreData : Bool
  ackMe : Bool
deriving DecidableEq, Repr

/-- A packet with opcode `SFTP_ACK`. -/
structure AckPacket where
  gotEmAll : BitVec 32
  bitMask : Mask
deriving DecidableEq, Repr

/-- `ThesePackets`; the slot of a sequence number is its `PBUFF`. -/
abbrev Packets := Ring maxOPackets DataPacket

/-- What the ends have agreed on. `bodyLength` is `PacketSize` without the header, at least
`SFTP_MINBODYSIZE`. -/
structure Params where
  bodyLength : Nat
  bodyLength_ge : 180 ≤ bodyLength
  windowSize : Nat
  sendAhead : Nat
  ackPoint : Nat
  dupThreshold : Nat
  ackPoint_pos : 1 ≤ ackPoint
  ackPoint_le : ackPoint ≤ sendAhead
  sendAhead_le : sendAhead ≤ windowSize
  windowSize_le : windowSize ≤ maxOPackets

/-- How a routine can fail: it returns -1, or the process dies of an assertion or a null pointer. -/
inductive Failure where
  | fatal
  | abort
deriving DecidableEq, Repr

/-- What the code learns from the clock and the network: whether an arriving packet echoes a time,
whether more packets wait at the socket, and which packets were sent long ago. -/
structure Choices where
  echo : Bool
  morePackets : Bool
  old : Nat → Bool

/-- What the source has read so far: `count` packets of `file`, numbered from `first + 1` on. -/
structure Reads where
  file : List Byte
  first : Nat
  count : Nat
  eof : Bool

/-- The bytes of packet `k`. -/
def Reads.chunk (r : Reads) (p : Params) (k : Nat) : List Byte :=
  (r.file.drop ((k - 1) * p.bodyLength)).take p.bodyLength

/-- The data packet is number `k` of those that were read. -/
structure Carries (p : Params) (r : Reads) (k : Nat) (q : DataPacket) : Prop where
  pos : 1 ≤ k
  le : k ≤ r.count
  seqNumber : q.seqNumber.toNat = r.first + k
  body : q.body = r.chunk p k
  last : q.moreData = false ↔ r.eof = true ∧ k = r.count

/-- Reading goes on until the end of the file. -/
def Reads.Extends (r r' : Reads) : Prop :=
  r' = r ∨ (r'.file = r.file ∧ r'.first = r.first ∧ r.eof = false ∧ r.count < r'.count)

theorem Reads.Extends.refl (r : Reads) : r.Extends r := Or.inl rfl

variable {r r' : Reads}

theorem Reads.Extends.file (h : r.Extends r') : r'.file = r.file := by
  rcases h with rfl | ⟨h, -⟩
  · rfl
  · exact h

theorem Reads.Extends.first (h : r.Extends r') : r'.first = r.first := by
  rcases h with rfl | ⟨-, h, -⟩
  · rfl
  · exact h

theorem Reads.Extends.count_le (h : r.Extends r') : r.count ≤ r'.count := by
  rcases h with rfl | ⟨-, -, -, h⟩
  · exact Nat.le_refl _
  · exact Nat.le_of_lt h

/-- A packet keeps its place: only the last packet of the file is marked, and it is read last. -/
theorem Carries.extend {p : Params} {k : Nat} {q : DataPacket} (ext : r.Extends r')
    (h : Carries p r k q) : Carries p r' k q := by
  rcases ext with rfl | ⟨hfile, hfirst, heof, hcount⟩
  · exact h
  · refine ⟨h.pos, h.le.trans (Nat.le_of_lt hcount), hfirst ▸ h.seqNumber, ?_, ?_⟩
    · rw [h.body, Reads.chunk, Reads.chunk, hfile]
    · rw [h.last, heof]
      constructor
      · rintro ⟨h, -⟩
        cases h
      · rintro ⟨-, rfl⟩
        exact absurd h.le (Nat.not_le_of_lt hcount)

theorem Carries.setAckMe {p : Params} {k : Nat} {q : DataPacket} (h : Carries p r k q)
    (ackMe : Bool) : Carries p r k { q with ackMe := ackMe } :=
  ⟨h.pos, h.le, h.seqNumber, h.body, h.last⟩

/-- Chunk by chunk, the packets make up the file. -/
theorem Reads.take_append_chunk (r : Reads) (p : Params) (k : Nat) :
    r.file.take (k * p.bodyLength) ++ r.chunk p (k + 1) = r.file.take ((k + 1) * p.bodyLength) := by
  rw [Reads.chunk, Nat.add_sub_cancel, Nat.add_mul, Nat.one_mul, List.take_add]

/-- An acknowledgement of at most the first `c` packets. -/
structure Acks (r : Reads) (c : Nat) (ack : AckPacket) : Prop where
  got : ∃ g ≤ c, ack.gotEmAll.toNat = r.first + g ∧
    ∀ i, 1 ≤ i → i ≤ 64 → ack.bitMask.testBit i = true → g + i ≤ r.count

theorem Acks.extend {c c' : Nat} {ack : AckPacket} (ext : r.Extends r') (le : c ≤ c')
    (h : Acks r c ack) : Acks r' c' ack := by
  obtain ⟨g, hg, hgot, hbits⟩ := h.got
  exact ⟨g, hg.trans le, ext.first ▸ hgot, fun i pos le' bit =>
    (hbits i pos le' bit).trans ext.count_le⟩

theorem toNat_succ {x : BitVec 32} (h : x.toNat + 1 < 2 ^ 32) : (x + 1).toNat = x.toNat + 1 := by
  rw [BitVec.toNat_add]
  exact Nat.mod_eq_of_lt h

end Coda.Sftp
