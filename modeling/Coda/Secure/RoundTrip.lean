import Coda.Secure.Replay

/-!
What `secure_sendto` packs, `secure_recvfrom` unpacks.

The two sides add and subtract the padding, the iv, the tag of a combined mode and the separate
authenticator in different places. The sender's check for room leaves the tag of a combined mode out,
the receiver's allows for two bytes less than are decrypted into the buffer, the length of the padding
is a byte, and the authenticator has to be aligned.
-/

namespace Coda.Secure

open List Option

/-! ### Padding -/

theorem le_paddedSize (e : SecureEncr) (len : Nat) : len + 2 ≤ paddedSize e len := by
  have hand : (len + 2 + padAlign e) &&& padAlign e ≤ padAlign e := Nat.and_le_right
  unfold paddedSize
  dsimp only
  omega

/-- The padding bytes of the trailer. -/
def padBytes (padding : Nat) : List Byte := (List.range padding).map fun i => BitVec.ofNat 8 (i + 1)

theorem trailer_eq (padding : Nat) :
    trailer padding = padBytes padding ++ [BitVec.ofNat 8 padding, 0] := rfl

theorem padBytes_succ (padding : Nat) :
    padBytes (padding + 1) = padBytes padding ++ [BitVec.ofNat 8 (padding + 1)] := by
  rw [padBytes, range_succ, map_append]
  rfl

theorem length_padBytes (padding : Nat) : (padBytes padding).length = padding := by
  rw [padBytes, length_map, length_range]

theorem length_trailer (padding : Nat) : (trailer padding).length = padding + 2 := by
  rw [trailer_eq, length_append, length_padBytes]
  rfl

theorem ofNat_add_rounds (m k : Nat) : BitVec.ofNat 8 (m + 256 * k) = BitVec.ofNat 8 m := by
  apply BitVec.eq_of_toNat_eq
  exact Nat.add_mul_mod_self_left m 256 k

/-- The padding is checked up to a multiple of 256 from its start. -/
theorem stripPadding_padBytes (k m : Nat) (data : List Byte) :
    stripPadding m ((padBytes (m + 256 * k)).reverse ++ data) =
      some ((padBytes (256 * k)).reverse ++ data) := by
  induction m with
  | zero =>
    rw [zero_add]
    rfl
  | succ m ih =>
    have hlast : BitVec.ofNat 8 (m + 256 * k + 1) = BitVec.ofNat 8 (m + 1) := by
      rw [add_right_comm]
      exact ofNat_add_rounds (m + 1) k
    rw [add_right_comm, padBytes_succ, reverse_append, reverse_singleton,
      append_assoc, singleton_append, stripPadding, if_pos hlast, ih]

theorem unpad_trailer (data : List Byte) (padding : Nat) :
    unpad (data ++ trailer padding) = some (data.length + 256 * (padding / 256)) := by
  have hreverse : (data ++ trailer padding).reverse =
      0 :: BitVec.ofNat 8 padding :: ((padBytes padding).reverse ++ data.reverse) := by
    rw [trailer_eq, reverse_append, reverse_append]
    rfl
  have hlength : (BitVec.ofNat 8 padding).toNat = padding % 256 := BitVec.toNat_ofNat _ _
  have hrounds : padding % 256 + 256 * (padding / 256) = padding := Nat.mod_add_div padding 256
  have hstrip := stripPadding_padBytes (padding / 256) (padding % 256) data.reverse
  rw [hrounds] at hstrip
  unfold unpad
  rw [hreverse]
  dsimp only
  rw [if_neg (not_not.mpr rfl), hlength, hstrip, if_neg, map_some, length_append,
    length_reverse, length_reverse, length_padBytes, add_comm]
  rw [length_append, length_reverse, length_padBytes]
  omega

theorem length_incrementLoop (iv : List Byte) : (incrementLoop iv).length = iv.length := by
  induction iv with
  | nil => rfl
  | cons b bs ih =>
    rw [incrementLoop]
    split_ifs
    · rfl
    · rw [length_cons, length_cons, ih]

theorem length_incrementIv (iv : List Byte) : (incrementIv iv).length = iv.length := by
  rw [incrementIv, length_reverse, length_incrementLoop, length_reverse]

/-! ### Matching ends -/

/-- What is asked of an encryption algorithm: it keeps the length of the iv, adds its tag, and
decryption inverts it. -/
structure SecureEncr.Lawful (e : SecureEncr) : Prop where
  ivLen : e.ivLen ≤ maxIvLen
  inverts : ∀ data iv aad iv' out, e.encrypt data iv aad = some (iv', out) →
    iv'.length = iv.length ∧ out.length = data.length + e.icvLen ∧ e.decrypt out iv' aad = some data

/-- What is asked of an authentication algorithm. -/
structure SecureAuth.Lawful (a : SecureAuth) : Prop where
  icvLen : a.icvLen ≤ maxIcvLen
  full : ∀ data, a.icvLen ≤ (a.auth data).length

/-- A sender and a receiver with the same algorithms and keys. The receiver's window accepts the
sender's next number. -/
structure Matching (tx rx : Association) : Prop where
  encr : rx.decrypt = tx.encrypt
  auth : rx.validate = tx.authenticate
  spi : rx.recvSpi = tx.peerSpi
  large : 256 ≤ tx.peerSpi.toNat
  lawfulEncr : tx.encrypt.Lawful
  lawfulAuth : tx.authenticate.Lawful
  sendIv : tx.sendIv.length = maxIvLen
  fresh : ∃ rx', checkSeq rx (tx.peerSeq + 1) = some (true, rx')

/-- `secure_sendto` refuses the payload, or its packet fits and is received: at most `len` bytes are
written and the payload is returned. -/
def Transfer (tx rx : Association) (payload : List Byte) (len : Nat) : Prop :=
  ∃ sent tx', secureSendto (some tx) payload = some (sent, tx') ∧
    ∀ packet, sent = .ok packet → packet.length ≤ maxPacketSize ∧
      ∃ written rx', secureRecvfrom (fun spi => if spi = rx.recvSpi then some rx else none) packet len =
          some (.done written payload.length, rx') ∧
        written.length ≤ len ∧ written.take payload.length = payload

/-- The payload with its padding. -/
def padPayload (e : SecureEncr) (payload : List Byte) : List Byte :=
  payload ++ trailer (paddedSize e payload.length - 2 - payload.length)

/-- The iv of the next packet. -/
def nextIv (tx : Association) : List Byte := incrementIv (tx.sendIv.take tx.encrypt.ivLen)

/-- The head of the next packet. -/
def nextHeader (tx : Association) : List Byte := htonl tx.peerSpi ++ htonl (tx.peerSeq + 1)

/-- The payloads that `secure_sendto` refuses. -/
def Refused (tx : Association) (payload : List Byte) : Prop :=
  tx.peerSeq + 1 = 0 ∨
    maxPacketSize <
      8 + tx.encrypt.ivLen + paddedSize tx.encrypt payload.length + tx.authenticate.icvLen ∨
    tx.encrypt.encrypt (padPayload tx.encrypt payload) (nextIv tx) (nextHeader tx) = none

/-- The sizes that both sides can handle. -/
structure Roomy (tx : Association) (payload len : Nat) : Prop where
  packet : 8 + tx.encrypt.ivLen + paddedSize tx.encrypt payload + tx.encrypt.icvLen +
    tx.authenticate.icvLen ≤ maxPacketSize
  padded : paddedSize tx.encrypt payload ≤ len
  tag : paddedSize tx.encrypt payload + tx.encrypt.icvLen ≤ len + 2
  padding : paddedSize tx.encrypt payload < payload + 2 + 256
  aligned : tx.authenticate.icvLen = 0 ∨
    (8 + tx.encrypt.ivLen + paddedSize tx.encrypt payload + tx.encrypt.icvLen) % 4 = 0

section Ends

variable {tx rx : Association} {payload iv out : List Byte} {len : Nat}

/-- The packet around this iv and this encrypted payload. -/
def packetOf (tx : Association) (iv out : List Byte) : List Byte :=
  (nextHeader tx ++ iv ++ out) ++
    (tx.authenticate.auth (nextHeader tx ++ iv ++ out)).take tx.authenticate.icvLen

/-- The sender after a packet. -/
def advance (tx : Association) : Association :=
  { tx with
    peerSeq := tx.peerSeq + 1
    sendIv := nextIv tx ++ tx.sendIv.drop tx.encrypt.ivLen }

theorem length_nextIv (hiv : tx.encrypt.ivLen ≤ tx.sendIv.length) :
    (nextIv tx).length = tx.encrypt.ivLen := by
  rw [nextIv, length_incrementIv, length_take, min_eq_left hiv]

theorem sealPacket_advance (hiv : tx.encrypt.ivLen ≤ tx.sendIv.length) (data : List Byte) :
    sealPacket (advance tx) data =
      (tx.encrypt.encrypt data (nextIv tx) (nextHeader tx)).map fun x => packetOf tx x.1 x.2 := by
  have htake : (nextIv tx ++ tx.sendIv.drop tx.encrypt.ivLen).take tx.encrypt.ivLen = nextIv tx :=
    take_left' (length_nextIv hiv)
  change (tx.encrypt.encrypt data ((nextIv tx ++ tx.sendIv.drop tx.encrypt.ivLen).take tx.encrypt.ivLen)
    (nextHeader tx)).bind (fun x => some (packetOf tx x.1 x.2)) = _
  rw [htake]
  cases tx.encrypt.encrypt data (nextIv tx) (nextHeader tx) <;> rfl

/-- What is sent when there is room. -/
theorem secureSendto_eq (payload : List Byte) (hiv : tx.encrypt.ivLen ≤ tx.sendIv.length) (hseq : tx.peerSeq + 1 ≠ 0)
    (hroom : 8 + tx.encrypt.ivLen + paddedSize tx.encrypt payload.length + tx.authenticate.icvLen ≤
      maxPacketSize) :
    ∃ sent, secureSendto (some tx) payload = some (sent, some (advance tx)) ∧
      ∀ packet, sent = .ok packet ↔
        ∃ iv out, tx.encrypt.encrypt (padPayload tx.encrypt payload) (nextIv tx) (nextHeader tx) =
          some (iv, out) ∧ packet = packetOf tx iv out := by
  have hpadded := le_paddedSize tx.encrypt payload.length
  unfold secureSendto
  dsimp only
  rw [if_neg hseq, if_neg (by omega), if_neg (by omega)]
  split
  · next hseal =>
    have hnone := (sealPacket_advance hiv (padPayload tx.encrypt payload)).symm.trans hseal
    rw [map_eq_none_iff] at hnone
    refine ⟨_, rfl, fun packet => ?_⟩
    constructor
    · intro hok
      cases hok
    · rintro ⟨iv, out, hsome, -⟩
      rw [hnone] at hsome
      cases hsome
  · next sent hseal =>
    have hsome := (sealPacket_advance hiv (padPayload tx.encrypt payload)).symm.trans hseal
    rw [map_eq_some_iff] at hsome
    obtain ⟨⟨iv, out⟩, hencrypt, rfl⟩ := hsome
    refine ⟨_, rfl, fun packet => ?_⟩
    constructor
    · intro hok
      cases hok
      exact ⟨iv, out, hencrypt, rfl⟩
    · rintro ⟨iv', out', hsome, rfl⟩
      rw [hencrypt] at hsome
      cases hsome
      rfl

theorem secureSendto_refused (hiv : tx.encrypt.ivLen ≤ tx.sendIv.length) (h : Refused tx payload) :
    ∃ err tx', secureSendto (some tx) payload = some (.error err, tx') := by
  have hpadded := le_paddedSize tx.encrypt payload.length
  by_cases hseq : tx.peerSeq + 1 = 0
  · exact ⟨.epipe, some tx, if_pos hseq⟩
  · by_cases hroom : maxPacketSize <
        8 + tx.encrypt.ivLen + paddedSize tx.encrypt payload.length + tx.authenticate.icvLen
    · unfold secureSendto
      dsimp only
      rw [if_neg hseq, if_neg (by omega), if_pos hroom]
      exact ⟨.emsgsize, _, rfl⟩
    · obtain ⟨sent, hsend, hok⟩ := secureSendto_eq payload hiv hseq (by omega)
      have hencrypt := (h.resolve_left hseq).resolve_left hroom
      cases sent with
      | error err => exact ⟨err, _, hsend⟩
      | ok packet =>
        obtain ⟨iv, out, hsome, -⟩ := (hok packet).mp rfl
        rw [hencrypt] at hsome
        cases hsome

theorem length_nextHeader (tx : Association) : (nextHeader tx).length = 8 := rfl

/-! ### The packet at the receiver -/

section Packet

variable (ends : Matching tx rx)
  (hencrypt : tx.encrypt.encrypt (padPayload tx.encrypt payload) (nextIv tx) (nextHeader tx) =
    some (iv, out))

theorem length_padPayload (e : SecureEncr) (payload : List Byte) :
    (padPayload e payload).length = paddedSize e payload.length := by
  have := le_paddedSize e payload.length
  rw [padPayload, length_append, length_trailer]
  omega

include ends

theorem Matching.ivLen_le : tx.encrypt.ivLen ≤ tx.sendIv.length := by
  rw [ends.sendIv]
  exact ends.lawfulEncr.ivLen

theorem Matching.recvSpi_large : 256 ≤ rx.recvSpi.toNat := by
  rw [ends.spi]
  exact ends.large

include hencrypt

theorem length_iv_out : iv.length = tx.encrypt.ivLen ∧
    out.length = paddedSize tx.encrypt payload.length + tx.encrypt.icvLen := by
  have hlaw := ends.lawfulEncr.inverts _ _ _ _ _ hencrypt
  rw [length_nextIv ends.ivLen_le, length_padPayload] at hlaw
  exact ⟨hlaw.1, hlaw.2.1⟩

theorem length_body : (nextHeader tx ++ iv ++ out).length =
    8 + tx.encrypt.ivLen + paddedSize tx.encrypt payload.length + tx.encrypt.icvLen := by
  obtain ⟨hiv, hout⟩ := length_iv_out ends hencrypt
  rw [length_append, length_append, length_nextHeader, hiv]
  omega

theorem length_packetOf : (packetOf tx iv out).length =
    8 + tx.encrypt.ivLen + paddedSize tx.encrypt payload.length + tx.encrypt.icvLen +
      tx.authenticate.icvLen := by
  rw [packetOf, length_append, length_body ends hencrypt, length_take,
    min_eq_left (ends.lawfulAuth.full _)]

theorem covered_packetOf : covered rx (packetOf tx iv out) = nextHeader tx ++ iv ++ out := by
  have hlength := length_packetOf ends hencrypt
  have hbody := length_body ends hencrypt
  rw [covered, ends.auth]
  refine take_left' ?_
  omega

theorem packetDecryption_packetOf : packetDecryption rx (covered rx (packetOf tx iv out)) =
    some (padPayload tx.encrypt payload, payload.length +
      256 * ((paddedSize tx.encrypt payload.length - 2 - payload.length) / 256)) := by
  obtain ⟨hiv, -⟩ := length_iv_out ends hencrypt
  have hlaw := (ends.lawfulEncr.inverts _ _ _ _ _ hencrypt).2.2
  have haad : (nextHeader tx ++ iv ++ out).take 8 = nextHeader tx := by
    exact take_left' (length_nextHeader tx)
  have hdrop : (nextHeader tx ++ iv ++ out).drop 8 = iv ++ out := by
    exact drop_left' (length_nextHeader tx)
  have hdata : (nextHeader tx ++ iv ++ out).drop (8 + tx.encrypt.ivLen) = out := by
    refine drop_left' ?_
    rw [length_append, length_nextHeader, hiv]
  rw [covered_packetOf ends hencrypt]
  unfold packetDecryption
  dsimp only
  rw [ends.encr, haad, hdrop, hdata, take_left' hiv, hlaw, bind_eq_bind,
    bind_some, padPayload, unpad_trailer]
  rfl

/-- What the packet needs to get through to the window. -/
theorem authentic_packetOf
    (hpacket : (packetOf tx iv out).length ≤ maxPacketSize)
    (htag : paddedSize tx.encrypt payload.length + tx.encrypt.icvLen ≤ len + 2)
    (haligned : tx.authenticate.icvLen = 0 ∨ (8 + tx.encrypt.ivLen +
      paddedSize tx.encrypt payload.length + tx.encrypt.icvLen) % 4 = 0) :
    Authentic rx (packetOf tx iv out) len := by
  have hlength := length_packetOf ends hencrypt
  have hbody := length_body ends hencrypt
  have hpadded := le_paddedSize tx.encrypt payload.length
  have hcut : (packetOf tx iv out).length - tx.authenticate.icvLen =
      (nextHeader tx ++ iv ++ out).length := by omega
  constructor
  · exact hpacket
  · rw [ends.spi, packetOf, append_assoc]
    exact ntohl_htonl_append _ _
  · rw [ends.auth, ends.encr]
    omega
  · rw [ends.auth, ends.encr]
    omega
  · rw [ends.auth]
    intro hicv
    rw [hcut, hbody]
    exact haligned.resolve_left hicv
  · intro _
    rw [covered_packetOf ends hencrypt, ends.auth, hcut]
    exact drop_left
  · exact ⟨_, _, packetDecryption_packetOf ends hencrypt⟩

omit ends hencrypt in
theorem seqOf_packetOf : seqOf (packetOf tx iv out) = tx.peerSeq + 1 := by
  exact ntohl_htonl_append _ _

/-- The packet that gets through is decrypted. -/
theorem secureRecvfrom_packetOf (h : Authentic rx (packetOf tx iv out) len) :
    ∃ rx', secureRecvfrom (fun spi => if spi = rx.recvSpi then some rx else none)
      (packetOf tx iv out) len = some (.done (padPayload tx.encrypt payload) (payload.length +
        256 * ((paddedSize tx.encrypt payload.length - 2 - payload.length) / 256)), rx') := by
  obtain ⟨rx', hfresh⟩ := ends.fresh
  have hicv : rx.validate.icvLen ≤ maxIcvLen := by
    rw [ends.auth]
    exact ends.lawfulAuth.icvLen
  refine ⟨some rx', ?_⟩
  rw [secureRecvfrom_authentic ends.recvSpi_large h hicv (packetDecryption_packetOf ends hencrypt), seqOf_packetOf,
    hfresh]
  rfl

end Packet

/-- A packet that is not dropped fits the buffer by the estimate, and its authenticator is aligned. -/
theorem receiveOn_done {sa sa' : Association} {seq : BitVec 32} {packet written : List Byte} {n : Nat}
    (h : receiveOn sa seq packet len = some (.done written n, sa')) :
    packet.length ≤ len + (sa.validate.icvLen + 8 + sa.decrypt.ivLen + 2) ∧
      (sa.validate.icvLen = 0 ∨ (packet.length - sa.validate.icvLen) % 4 = 0) := by
  unfold receiveOn at h
  dsimp only at h
  split_ifs at h with hverify hestimate hicv haligned hmax hauth
  · cases h
  · cases h
  · exact ⟨by omega, .inl hicv⟩
  · cases h
  · cases h
  · exact ⟨by omega, .inr (not_not.mp haligned)⟩

end Ends

/-! ### The round trip -/

section Transfer

variable {tx rx : Association} {payload : List Byte} {len : Nat}

theorem transfer_of_roomy (ends : Matching tx rx) (hseq : tx.peerSeq + 1 ≠ 0)
    (roomy : Roomy tx payload.length len) : Transfer tx rx payload len := by
  have hpacket := roomy.packet
  have hpadding := roomy.padding
  obtain ⟨sent, hsend, hok⟩ := secureSendto_eq payload ends.ivLen_le hseq (by omega)
  refine ⟨sent, _, hsend, fun packet hsent => ?_⟩
  obtain ⟨iv, out, hencrypt, rfl⟩ := (hok packet).mp hsent
  have hshort : (packetOf tx iv out).length ≤ maxPacketSize := by
    rw [length_packetOf ends hencrypt]
    exact hpacket
  obtain ⟨rx', hrecv⟩ := secureRecvfrom_packetOf ends hencrypt
    (authentic_packetOf ends hencrypt hshort roomy.tag roomy.aligned)
  have hrounds : (paddedSize tx.encrypt payload.length - 2 - payload.length) / 256 = 0 := by omega
  rw [hrounds] at hrecv
  refine ⟨hshort, _, rx', hrecv, ?_, take_left⟩
  rw [length_padPayload]
  exact roomy.padded

theorem roomy_of_transfer (ends : Matching tx rx) (sends : ¬Refused tx payload)
    (h : Transfer tx rx payload len) : Roomy tx payload.length len := by
  unfold Refused at sends
  push Not at sends
  obtain ⟨hseq, hroom, hencrypt⟩ := sends
  obtain ⟨⟨iv, out⟩, hencrypt⟩ := ne_none_iff_exists'.mp hencrypt
  obtain ⟨sent, hsend, hok⟩ := secureSendto_eq payload ends.ivLen_le hseq hroom
  obtain ⟨sent', tx', hsend', hreceive⟩ := h
  rw [hsend] at hsend'
  cases hsend'
  obtain ⟨hshort, written, rx', hrecv, hwritten, htake⟩ :=
    hreceive (packetOf tx iv out) ((hok _).mpr ⟨iv, out, hencrypt, rfl⟩)
  have hlength := length_packetOf ends hencrypt
  have hhead : ntohl (packetOf tx iv out) = rx.recvSpi := by
    rw [ends.spi, packetOf, append_assoc]
    exact ntohl_htonl_append _ _
  have hon := hrecv
  rw [secureRecvfrom_eq ends.recvSpi_large hshort (by omega) hhead, map_eq_some_iff] at hon
  obtain ⟨⟨r, sa'⟩, hon, heq⟩ := hon
  cases heq
  obtain ⟨hfits, haligned⟩ := receiveOn_done hon
  rw [ends.auth, ends.encr] at hfits
  rw [ends.auth] at haligned
  have htag : paddedSize tx.encrypt payload.length + tx.encrypt.icvLen ≤ len + 2 := by omega
  have halign : tx.authenticate.icvLen = 0 ∨ (8 + tx.encrypt.ivLen +
      paddedSize tx.encrypt payload.length + tx.encrypt.icvLen) % 4 = 0 := by
    refine haligned.imp_right fun hmod => ?_
    rwa [hlength, Nat.add_sub_cancel] at hmod
  obtain ⟨rx'', hdone⟩ := secureRecvfrom_packetOf ends hencrypt
    (authentic_packetOf ends hencrypt hshort htag halign)
  rw [hdone] at hrecv
  obtain ⟨hdone, -⟩ := Prod.mk.inj (some.inj hrecv)
  obtain ⟨hbytes, hn⟩ := Received.done.inj hdone
  refine ⟨by omega, ?_, htag, by omega, halign⟩
  rw [← length_padPayload, hbytes]
  exact hwritten

/-- A payload is refused or gets through exactly when it is refused or both sides have the room. -/
theorem transfer_iff (ends : Matching tx rx) :
    Transfer tx rx payload len ↔ Refused tx payload ∨ Roomy tx payload.length len := by
  constructor
  · intro h
    by_cases refused : Refused tx payload
    · exact .inl refused
    · exact .inr (roomy_of_transfer ends refused h)
  · intro h
    by_cases refused : Refused tx payload
    · obtain ⟨err, tx', hsend⟩ := secureSendto_refused ends.ivLen_le refused
      exact ⟨_, _, hsend, fun packet hsent => by cases hsent⟩
    · refine transfer_of_roomy ends (fun hseq => refused (.inl hseq)) (h.resolve_left refused)

/-- Algorithms that leave the data as it is and append a tag of zeros. -/
def taggingEncr (icvLen : Nat) : SecureEncr where
  blocksize := 16
  ivLen := 8
  icvLen := icvLen
  encrypt data iv _ := some (iv, data ++ List.replicate icvLen 0)
  decrypt data _ _ := some (data.take (data.length - icvLen))

theorem taggingEncr_lawful (icvLen : Nat) : (taggingEncr icvLen).Lawful where
  ivLen := Nat.le_of_ble_eq_true rfl
  inverts := by
    intro data iv aad iv' out h
    cases h
    have hlength : (data ++ List.replicate icvLen (0 : Byte)).length = data.length + icvLen := by
      rw [length_append, length_replicate]
    refine ⟨rfl, hlength, congrArg some ?_⟩
    rw [hlength, Nat.add_sub_cancel]
    exact take_left

/-- An association with these algorithms, and the sum of the bytes if the tag is empty. -/
def taggingAssociation (icvLen : Nat) : Association :=
  { plainAssociation with
    validate := ⟨if icvLen = 0 then 4 else 0, plainAssociation.validate.auth⟩
    decrypt := taggingEncr icvLen
    encrypt := taggingEncr icvLen
    authenticate := ⟨if icvLen = 0 then 4 else 0, plainAssociation.validate.auth⟩ }

theorem tagging_matching (icvLen : Nat) :
    Matching (taggingAssociation icvLen) (taggingAssociation icvLen) where
  encr := rfl
  auth := rfl
  spi := rfl
  large := le_refl 256
  lawfulEncr := taggingEncr_lawful icvLen
  lawfulAuth := by
    constructor
    · change (if icvLen = 0 then 4 else 0) ≤ 32
      split_ifs <;> decide
    · intro data
      change (if icvLen = 0 then 4 else 0) ≤ 4
      split_ifs <;> decide
  sendIv := rfl
  fresh := by
    have hservice : (taggingAssociation icvLen).validate.icvLen ≠ 0 ∨
        (taggingAssociation icvLen).decrypt.icvLen ≠ 0 := by
      change (if icvLen = 0 then 4 else 0) ≠ 0 ∨ icvLen ≠ 0
      split_ifs with h
      · exact .inl (by decide)
      · exact .inr h
    have hlow : (taggingAssociation icvLen).recvSeq.toNat < (1 : BitVec 32).toNat := Nat.zero_lt_one
    have hhigh : (1 : BitVec 32).toNat < (taggingAssociation icvLen).recvSeq.toNat + 2 ^ 31 := by
      change 1 < 0 + 2 ^ 31
      decide
    refine ⟨_, (if_pos hservice).trans ((acceptSeq_above hlow hhigh).trans (if_neg ?_))⟩
    change ¬0 + 64 ≤ 1
    decide

theorem transfer_iff_tagging :
    Transfer (taggingAssociation 16) (taggingAssociation 16) [1, 2, 3] 40 :=
  (transfer_iff (tagging_matching 16)).mpr (.inr (by constructor <;> decide))

/-- 14 bytes for a buffer of 14: the padding is decrypted beyond its end. With a tag of 16 bytes, 4464
bytes leave the sender in a packet of 4512. -/
theorem transfer_overflows :
    (Matching (taggingAssociation 0) (taggingAssociation 0) ∧
      ¬Transfer (taggingAssociation 0) (taggingAssociation 0) (List.replicate 14 1) 14) ∧
    (Matching (taggingAssociation 16) (taggingAssociation 16) ∧
      ¬Transfer (taggingAssociation 16) (taggingAssociation 16) (List.replicate 4464 1) 5000) := by
  refine ⟨⟨tagging_matching 0, fun h => ?_⟩, ⟨tagging_matching 16, fun h => ?_⟩⟩
  · have roomy := roomy_of_transfer (tagging_matching 0) (by
      rintro (hseq | hroom | hnone)
      · exact absurd hseq (by decide)
      · rw [length_replicate] at hroom
        exact absurd hroom (by decide)
      · cases hnone) h
    have hpadded := roomy.padded
    exact absurd hpadded (by decide)
  · have roomy := roomy_of_transfer (tagging_matching 16) (by
      rintro (hseq | hroom | hnone)
      · exact absurd hseq (by decide)
      · rw [length_replicate] at hroom
        exact absurd hroom (by decide)
      · cases hnone) h
    have hpacket := roomy.packet
    rw [length_replicate] at hpacket
    exact absurd hpacket (by decide)

end Transfer

end Coda.Secure
