import Mathlib.Tactic.Common

/-!
Packets of a security association (`rpc2/secure/secure_sendto.c`, `secure_recvfrom.c`).

The algorithms of an association are those of `struct secure_encr` and `struct secure_auth`, with
their keys already in place: any functions on bytes, with the lengths the structures declare.
Results are `none` where an assertion fails or the behaviour of C is undefined (the receive window
shifted by its width or more).
-/

namespace Coda.Secure

abbrev Byte := BitVec 8

def maxPacketSize : Nat := 4500
def maxIvLen : Nat := 32
def maxIcvLen : Nat := 32

inductive Errno where
  | einval
  | epipe
  | emsgsize
  | enomem
  | enoent
  | eagain
deriving DecidableEq, Repr

/-- `struct secure_encr`. `encrypt` may change the iv it is given, which is sent along, and appends
`icvLen` bytes in a combined mode; both are `none` where the function returns a negative number. -/
structure SecureEncr where
  blocksize : Nat
  ivLen : Nat
  icvLen : Nat
  encrypt : (data iv aad : List Byte) → Option (List Byte × List Byte)
  decrypt : (data iv aad : List Byte) → Option (List Byte)

/-- `struct secure_auth`. -/
structure SecureAuth where
  icvLen : Nat
  auth : List Byte → List Byte

/-- `struct security_association`, without the addresses of the peers. -/
structure Association where
  recvSpi : BitVec 32
  recvSeq : BitVec 32
  recvWin : BitVec 64
  validate : SecureAuth
  decrypt : SecureEncr
  peerSpi : BitVec 32
  peerSeq : BitVec 32
  sendIv : List Byte
  encrypt : SecureEncr
  authenticate : SecureAuth

/-- A number in network order. -/
def htonl (v : BitVec 32) : List Byte :=
  [v.extractLsb' 24 8, v.extractLsb' 16 8, v.extractLsb' 8 8, v.extractLsb' 0 8]

/-- The number at the head of these bytes, 0 if there are too few. -/
def ntohl : List Byte → BitVec 32
  | a :: b :: c :: d :: _ => a ++ b ++ c ++ d
  | _ => 0

/-- A number goes over the network unchanged. -/
theorem ntohl_htonl_append (v : BitVec 32) (rest : List Byte) : ntohl (htonl v ++ rest) = v := by
  apply BitVec.eq_of_getLsbD_eq
  intro i hi
  simp only [htonl, List.cons_append, List.nil_append, ntohl, BitVec.getLsbD_append,
    BitVec.getLsbD_extractLsb']
  by_cases h₀ : i < 8
  · simp [h₀]
  · by_cases h₁ : i - 8 < 8
    · have hbit : 8 + (i - 8) = i := by omega
      simp [h₀, h₁, hbit]
    · by_cases h₂ : i - 8 - 8 < 8
      · have hbit : 16 + (i - 8 - 8) = i := by omega
        simp [h₀, h₁, h₂, hbit]
      · have h₃ : i - 8 - 8 - 8 < 8 := by omega
        have hbit : 24 + (i - 8 - 8 - 8) = i := by omega
        simp [h₀, h₁, h₂, h₃, hbit]

/-! ### secure_sendto -/

/-- The loop that increments the iv, over its bytes from the last to the first. -/
def incrementLoop : List Byte → List Byte
  | [] => []
  | b :: bs => if b + 1 ≠ 0 then (b + 1) :: bs else 0 :: incrementLoop bs

def incrementIv (iv : List Byte) : List Byte := (incrementLoop iv.reverse).reverse

def padAlign (e : SecureEncr) : Nat := (if e.blocksize > 4 then e.blocksize else 4) - 1

/-- `(len + 2 + pad_align) & ~pad_align`. -/
def paddedSize (e : SecureEncr) (len : Nat) : Nat :=
  let size := len + 2 + padAlign e
  size - (size &&& padAlign e)

/-- The padding bytes 1, 2, ..., its length and the next header. -/
def trailer (padding : Nat) : List Byte :=
  ((List.range padding).map fun i => BitVec.ofNat 8 (i + 1)) ++ [BitVec.ofNat 8 padding, 0]

/-- The packet around an encrypted payload: its header, iv and authenticator. -/
def sealPacket (sa : Association) (payload : List Byte) : Option (List Byte) := do
  let aad := htonl sa.peerSpi ++ htonl sa.peerSeq
  let (iv, data) ← sa.encrypt.encrypt payload (sa.sendIv.take sa.encrypt.ivLen) aad
  let out := aad ++ iv ++ data
  return out ++ (sa.authenticate.auth out).take sa.authenticate.icvLen

/-- `secure_sendto`: the packet that goes out, and the association with its new counters. Without an
association the payload is sent as it is, unless it would be taken for an encrypted one. -/
def secureSendto (sa : Option Association) (buf : List Byte) :
    Option (Except Errno (List Byte) × Option Association) :=
  match sa with
  | none =>
    if 8 ≤ buf.length ∧ 256 ≤ (ntohl buf).toNat then some (.error .einval, none)
    else some (.ok buf, none)
  | some sa =>
    if sa.peerSeq + 1 = 0 then some (.error .epipe, some sa)
    else
      let sa := { sa with peerSeq := sa.peerSeq + 1 }
      let padded := paddedSize sa.encrypt buf.length
      -- assert(padded_size - len >= 2)
      if padded < buf.length + 2 then none
      else if 8 + sa.encrypt.ivLen + padded + sa.authenticate.icvLen > maxPacketSize then
        some (.error .emsgsize, some sa)
      else
        let iv := incrementIv (sa.sendIv.take sa.encrypt.ivLen) ++ sa.sendIv.drop sa.encrypt.ivLen
        let sa := { sa with sendIv := iv }
        match sealPacket sa (buf ++ trailer (padded - 2 - buf.length)) with
        | none => some (.error .emsgsize, some sa)
        | some out => some (.ok out, some sa)

/-! ### secure_recvfrom -/

/-- `(int)sa->recv_seq - (int)seq`, in two's complement. -/
def seqOffset (sa : Association) (seq : BitVec 32) : Int := (sa.recvSeq - seq).toInt

/-- `sequence_number_verification`: whether the number was not seen before. -/
def sequenceNumberVerification (sa : Association) (seq : BitVec 32) : Bool :=
  if seqOffset sa seq < 0 then !decide (seq < sa.recvSeq)
  else if 64 ≤ seqOffset sa seq then false
  else !sa.recvWin.getLsbD (seqOffset sa seq).toNat

/-- The receive window moved up to a newer number. -/
def advanceWindow (sa : Association) (seq : BitVec 32) : Option Association :=
  let offset := seqOffset sa seq
  if offset < 0 then
    -- the shift is by `-offset`
    if 64 ≤ -offset then none
    else some { sa with recvSeq := seq, recvWin := sa.recvWin <<< (-offset).toNat }
  else some sa

/-- `integrity_check_passed`: whether the packet is no duplicate, and the new window. -/
def integrityCheckPassed (sa : Association) (seq : BitVec 32) : Option (Bool × Association) := do
  let offset := if seqOffset sa seq < 0 then 0 else (seqOffset sa seq).toNat
  let sa ← advanceWindow sa seq
  if 64 ≤ offset then none
  else if sa.recvWin.getLsbD offset then return (false, sa)
  else return (true, { sa with recvWin := sa.recvWin ||| BitVec.twoPow 64 offset })

/-- The loop that checks the padding, from the last byte to the first; the data is reversed. -/
def stripPadding : Nat → List Byte → Option (List Byte)
  | 0, data => some data
  | _ + 1, [] => none
  | i + 1, b :: data => if b = BitVec.ofNat 8 (i + 1) then stripPadding i data else none

/-- The length of the payload in decrypted data. -/
def unpad (out : List Byte) : Option Nat :=
  match out.reverse with
  | nextHeader :: padlength :: data =>
    if nextHeader ≠ 0 then none
    else if padlength.toNat > data.length then none
    else (stripPadding padlength.toNat data).map List.length
  | _ => none

/-- `packet_decryption`: what is written to the buffer, and the length of the payload. -/
def packetDecryption (sa : Association) (packet : List Byte) : Option (List Byte × Nat) := do
  let aad := packet.take 8
  let iv := (packet.drop 8).take sa.decrypt.ivLen
  let out ← sa.decrypt.decrypt (packet.drop (8 + sa.decrypt.ivLen)) iv aad
  let n ← unpad out
  return (out, n)

/-- What `secure_recvfrom` does with a packet: `dropped`, or `done` with the bytes it wrote to the
buffer and the number it returns. -/
inductive Received where
  | dropped (err : Errno)
  | done (written : List Byte) (n : Nat)

/-- The end of `secure_recvfrom`, behind the authenticator. -/
def openPayload (sa : Association) (seq : BitVec 32) (packet : List Byte) :
    Option (Received × Association) :=
  match packetDecryption sa packet with
  | none => some (.dropped .eagain, sa)
  | some (written, n) =>
    if sa.validate.icvLen = 0 ∧ sa.decrypt.icvLen ≠ 0 then do
      let (fresh, sa) ← integrityCheckPassed sa seq
      if fresh then return (.done written n, sa) else return (.dropped .eagain, sa)
    else some (.done written n, sa)

/-- `secure_recvfrom`, once the association is found. -/
def receiveOn (sa : Association) (seq : BitVec 32) (packet : List Byte) (len : Nat) :
    Option (Received × Association) :=
  if (sa.validate.icvLen ≠ 0 ∨ sa.decrypt.icvLen ≠ 0) ∧ !sequenceNumberVerification sa seq then
    some (.dropped .eagain, sa)
  else
    let estimatedPayload : Int := packet.length - sa.validate.icvLen - 8 - sa.decrypt.ivLen - 2
    if estimatedPayload < 0 ∨ len < estimatedPayload then some (.dropped .eagain, sa)
    else
      let n := packet.length - sa.validate.icvLen
      if sa.validate.icvLen = 0 then openPayload sa seq packet
      else if n % 4 ≠ 0 then some (.dropped .eagain, sa)
      else if sa.validate.icvLen > maxIcvLen then none
      else if packet.drop n ≠ (sa.validate.auth (packet.take n)).take sa.validate.icvLen then
        some (.dropped .eagain, sa)
      else do
        let (fresh, sa) ← integrityCheckPassed sa seq
        if fresh then openPayload sa seq (packet.take n) else return (.dropped .eagain, sa)

/-- `secure_recvfrom` of a packet, with a buffer of `len` bytes. The association, if one is found,
comes back with its new window. -/
def secureRecvfrom (getsa : BitVec 32 → Option Association) (packet : List Byte) (len : Nat) :
    Option (Received × Option Association) :=
  let n := packet.length
  let packet := packet.take maxPacketSize
  let spi := if 8 ≤ n then ntohl packet else 0
  if n > maxPacketSize ∧ n ≤ len then some (.dropped .enomem, none)
  else if spi.toNat < 256 then
    let n := if len < n then len else n
    some (.done (packet.take n) n, none)
  else if n > maxPacketSize then some (.dropped .enomem, none)
  else
    match getsa spi with
    | none => some (.dropped .enoent, none)
    | some sa => (receiveOn sa (ntohl (packet.drop 4)) packet len).map fun x => (x.1, some x.2)

end Coda.Secure
