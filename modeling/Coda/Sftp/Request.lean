import Coda.Sftp.Entry

/-!
What a server takes out of a request (`sftp1.c`): the parameters of its peer
(`sftp_ExtractParmsFromPacket`), a piggybacked file (`sftp_ExtractFileFromPacket`) and the cookie of
a transfer over TCP (`SFTP_GetRequest`).

All lengths are differences of `uint32_t`. A `SEDataOffset` behind the end of the body makes them
wrap around, and then what is copied starts before the body.
-/

namespace Coda.Sftp

open BitVec

/-! ### The parameters of a connection -/

/-- The parameters in an `SFTP_Entry`, and those of an `SFTP_Parms` in host order. -/
structure Parms where
  windowSize : BitVec 32
  sendAhead : BitVec 32
  ackPoint : BitVec 32
  packetSize : BitVec 32
  dupThreshold : BitVec 32
deriving DecidableEq, Repr

/-- `SFTP_SetDefaults`; a packet has 1024 bytes and a header of 60. -/
def Parms.default : Parms := ⟨32, 8, 8, 1024 + 60, 4⟩

/-- `sftp_ExtractParmsFromPacket`: the smaller of two values, as unsigned numbers. -/
def smaller (own sp : BitVec 32) : BitVec 32 := if own > sp then sp else own

/-- `sftp_ExtractParmsFromPacket`: a server takes the smaller values, a client accepts the server's
without question. -/
def Parms.accept (whoAmI : Option Side) (own sp : Parms) : Parms :=
  if whoAmI = some .server then
    ⟨smaller own.windowSize sp.windowSize, smaller own.sendAhead sp.sendAhead,
      smaller own.ackPoint sp.ackPoint, smaller own.packetSize sp.packetSize,
      smaller own.dupThreshold sp.dupThreshold⟩
  else sp

/-- `sftp_ExtractParmsFromPacket`: no value is below `SFTP_MINWINDOWSIZE`, `SFTP_MINSENDAHEAD`,
`SFTP_MINPACKETSIZE`. -/
def Parms.clamp (q : Parms) : Parms :=
  { q with
    windowSize := if q.windowSize < 2 then 2 else q.windowSize
    sendAhead := if q.sendAhead < 1 then 1 else q.sendAhead
    packetSize := if q.packetSize < 240 then 240 else q.packetSize }

/-- `WinIsOpen`, from the counters it reads. -/
def Parms.winIsOpen (q : Parms) (maxPackets packetsInUse : Int)
    (sendMostRecent sendLastContig : BitVec 32) : Bool :=
  if q.sendAhead + sendMostRecent - sendLastContig > q.windowSize then false
  else if maxPackets > 0 ∧ packetsInUse + q.sendAhead.toNat > maxPackets then false
  else true

/-- What the ring of packets, the arrays of `sftp_ReadStrategy` and the window rely on. -/
structure Parms.Agreed (q : Parms) : Prop where
  ackPoint : 1 ≤ q.ackPoint.toNat
  sendAhead : 1 ≤ q.sendAhead.toNat
  window : q.sendAhead.toNat ≤ q.windowSize.toNat
  ring : q.windowSize.toNat ≤ maxOPackets
  low : 240 ≤ q.packetSize.toNat
  high : q.packetSize.toNat ≤ 2900

/-- The values, before they are raised to their minima, that agree afterwards. -/
structure Parms.Compatible (q : Parms) : Prop where
  ackPoint : 1 ≤ q.ackPoint.toNat
  window : q.sendAhead.toNat ≤ max q.windowSize.toNat 2
  ring : q.windowSize.toNat ≤ maxOPackets
  high : q.packetSize.toNat ≤ 2900

theorem toNat_raised {x low : BitVec 32} :
    (if x < low then low else x).toNat = max x.toNat low.toNat := by
  split
  next h =>
    rw [lt_def] at h
    omega
  next h =>
    rw [lt_def] at h
    omega

theorem Parms.agreed_clamp_iff (q : Parms) : q.clamp.Agreed ↔ q.Compatible := by
  have hring : maxOPackets = 64 := rfl
  have hwindow : q.clamp.windowSize.toNat = max q.windowSize.toNat 2 := toNat_raised
  have hahead : q.clamp.sendAhead.toNat = max q.sendAhead.toNat 1 := toNat_raised
  have hsize : q.clamp.packetSize.toNat = max q.packetSize.toNat 240 := toNat_raised
  constructor
  · rintro ⟨hack, -, hle, hmax, -, hhigh⟩
    exact ⟨hack, by omega, by omega, by omega⟩
  · rintro ⟨hack, hle, hmax, hhigh⟩
    exact ⟨hack, by omega, by omega, by omega, by omega, by omega⟩

/-- With nothing outstanding and no limit on packets, the window is open. -/
theorem Parms.Agreed.winIsOpen {q : Parms} (h : q.Agreed) {maxPackets : Int}
    (unlimited : maxPackets ≤ 0) (packetsInUse : Int) (number : BitVec 32) :
    q.winIsOpen maxPackets packetsInUse number number = true := by
  have hopen : ¬ q.sendAhead + number - number > q.windowSize := by
    rw [add_sub_cancel, gt_iff_lt]
    exact not_lt.mpr h.window
  rw [Parms.winIsOpen, if_neg hopen, if_neg fun hlimit => absurd hlimit.1 (not_lt.mpr unlimited)]

/-! ### The request -/

/-- A request, with the memory around it: the first byte of the body is at 0. -/
structure Request where
  bodyLength : BitVec 32
  seDataOffset : BitVec 32
  /-- `SFTP_PIGGY`, `SFTP_TCPFTP`. -/
  piggy : Bool
  tcpFtp : Bool
  memory : Int → Byte

/-- The fields of `SFTP_Entry` that `SFTP_GetRequest` reads or sets; an end in error has no side. -/
structure Entry where
  whoAmI : Option Side
  gotParms : Bool
  parms : Parms
  piggySDesc : Option (List Byte)
  cookie : List Byte
  gotBlock : Bool

/-- Bytes that were taken out of the memory of a request. -/
structure Block where
  start : Int
  length : Nat
deriving DecidableEq, Repr

def Request.copy (r : Request) (b : Block) : List Byte :=
  (List.range b.length).map fun i => r.memory (b.start + i)

/-- `ntohl` of the word at an index. -/
def Request.ntohl (r : Request) (i : Int) : BitVec 32 :=
  r.memory i ++ r.memory (i + 1) ++ r.memory (i + 2) ++ r.memory (i + 3)

/-- The last `n` bytes of the body. -/
def Request.tail (r : Request) (n : Nat) : Block := ⟨r.bodyLength.toNat - n, n⟩

def Request.shorten (r : Request) (n : Nat) : Request :=
  { r with bodyLength := r.bodyLength - BitVec.ofNat 32 n }

/-- `sizeof(struct SFTP_Parms)`: a port of 24 bytes and five words. -/
def parmsSize : Nat := 44

/-- The parameters at the end of the body. -/
def Request.parms (r : Request) : Parms :=
  let i := (r.tail parmsSize).start + 24
  ⟨r.ntohl i, r.ntohl (i + 4), r.ntohl (i + 8), r.ntohl (i + 12), r.ntohl (i + 16)⟩

/-- `BodyLength - SEDataOffset`. -/
def Request.seLength (r : Request) : Nat := (r.bodyLength - r.seDataOffset).toNat

/-- `sftp_ExtractParmsFromPacket`; `none` if it returns -1. -/
def extractParmsFromPacket (e : Entry) (r : Request) : Option (Entry × Request) :=
  if r.seLength < parmsSize then none
  else some
    ({ e with parms := (Parms.accept e.whoAmI e.parms r.parms).clamp, gotParms := true },
      r.shorten parmsSize)

/-- Which parameters are fit for a transfer once they are extracted. -/
theorem extractParms_agreed_iff {e e' : Entry} {r r' : Request}
    (run : extractParmsFromPacket e r = some (e', r')) :
    (e'.parms.Agreed ↔ (Parms.accept e.whoAmI e.parms r.parms).Compatible) ∧
      (e'.parms.Agreed → ∀ maxPackets ≤ 0, ∀ packetsInUse number,
        e'.parms.winIsOpen maxPackets packetsInUse number number = true) := by
  rw [extractParmsFromPacket] at run
  split at run
  · cases run
  · cases run
    exact ⟨Parms.agreed_clamp_iff _, fun h _ unlimited => h.winIsOpen unlimited⟩

/-- A request with parameters: each is less than 256, but for the packet size. -/
def parmsRequest (windowSize sendAhead ackPoint : Byte) : Request where
  bodyLength := 44
  seDataOffset := 0
  piggy := true
  tcpFtp := false
  memory := fun i =>
    if i = 27 then windowSize else if i = 31 then sendAhead else if i = 35 then ackPoint
    else if i = 38 then 4 else 0

/-- A server before its first request. -/
def newEntry : Entry := ⟨some .server, false, .default, none, [], false⟩

theorem extractParms_agreed_equal :
    ∃ e' r', extractParmsFromPacket newEntry (parmsRequest 32 8 8) = some (e', r') ∧
      (e'.parms.Agreed ↔ (Parms.accept (some .server) .default (parmsRequest 32 8 8).parms).Compatible)
        ∧ (Parms.accept (some .server) .default (parmsRequest 32 8 8).parms).Compatible :=
  ⟨_, _, rfl, (extractParms_agreed_iff (r := parmsRequest 32 8 8) rfl).1,
    by constructor <;> decide⟩

/-- A window of one packet leaves a server that has the defaults with a window that never opens, and
an ack point of 0 is accepted. -/
theorem extractParms_window_closed :
    Parms.default.Agreed ∧
      ∃ e' r', extractParmsFromPacket newEntry (parmsRequest 1 8 0) = some (e', r') ∧
        ¬ e'.parms.Agreed ∧ e'.parms.ackPoint = 0 ∧
        ∀ number, e'.parms.winIsOpen (-1) 0 number number = false := by
  refine ⟨by constructor <;> decide, _, _, rfl, fun h => absurd h.window (by decide), rfl, ?_⟩
  intro number
  have hclosed : (8 : BitVec 32) + number - number > 2 := by
    rw [add_sub_cancel]
    decide
  exact if_pos hclosed

/-! ### What is taken out -/

/-- `SFTP_GetRequest` returns: whether with success, and which blocks it has copied. -/
structure Received where
  success : Bool
  entry : Entry
  request : Request
  blocks : List Block

/-- `SFTP_GetRequest`: the cookie is the end of what is left of the body. -/
def getCookie (e : Entry) (r : Request) (blocks : List Block) : Received :=
  let e := { e with cookie := [], gotBlock := false }
  if !r.tcpFtp then ⟨true, e, r, blocks⟩
  else if e.piggySDesc.isSome ∨ r.bodyLength.toNat < 8 then ⟨false, e, r, blocks⟩
  else ⟨true, { e with cookie := r.copy (r.tail 8), gotBlock := true }, r.shorten 8,
    r.tail 8 :: blocks⟩

/-- `SFTP_GetRequest`; `none` if an assertion fails, as `len <= INT_MAX` in `sftp_AllocPiggySDesc`
may. The file is copied into memory of its size, so writing it does not fail. -/
def getRequest (e : Entry) (r : Request) : Option Received :=
  if e.whoAmI ≠ some .server then some ⟨false, e, r, []⟩
  else
    let e := { e with piggySDesc := none }
    if !r.piggy then some (getCookie e r [])
    else if !e.gotParms then
      match extractParmsFromPacket e r with
      | none => some ⟨false, e, r, []⟩
      | some (e, left) => some (getCookie e left [r.tail parmsSize])
    else if r.seLength ≥ 2 ^ 31 then none
    else
      let file := r.tail r.seLength
      some (getCookie { e with piggySDesc := some (r.copy file) } (r.shorten r.seLength) [file])

/-- What was copied is the peer's data: it lies in the body, not before `SEDataOffset`. -/
def Block.Inside (b : Block) (r : Request) : Prop :=
  (r.seDataOffset.toNat : Int) ≤ b.start ∧ b.start + b.length ≤ r.bodyLength.toNat

/-- All blocks are in the body and the body does not grow. -/
structure Received.Inside (out : Received) (r : Request) : Prop where
  blocks : ∀ b ∈ out.blocks, b.Inside r
  length : out.request.bodyLength.toNat ≤ r.bodyLength.toNat

/-- How many bytes of cookie are taken out of what is left. -/
def Request.cookieLength (isFile : Bool) (r : Request) : Nat :=
  if r.tcpFtp ∧ isFile = false ∧ 8 ≤ r.bodyLength.toNat then 8 else 0

/-- How many bytes `SFTP_GetRequest` takes out. -/
def Request.taken (e : Entry) (r : Request) : Nat :=
  if e.whoAmI ≠ some .server then 0
  else if !r.piggy then r.cookieLength false
  else if e.gotParms then r.seLength
  else if r.seLength < parmsSize then 0
  else parmsSize + (r.shorten parmsSize).cookieLength false

section Inside

variable {e : Entry} {r left : Request} {blocks : List Block} {n : Nat}

theorem Request.shorten_length (le : n ≤ r.bodyLength.toNat) :
    (r.shorten n).bodyLength.toNat = r.bodyLength.toNat - n := by
  rw [Request.shorten, BitVec.toNat_sub, BitVec.toNat_ofNat]
  omega

/-- The end of what is left of a body is inside if it does not reach over `SEDataOffset`. -/
theorem Request.tail_inside_iff (le : left.bodyLength.toNat ≤ r.bodyLength.toNat) :
    (left.tail n).Inside r ↔ r.seDataOffset.toNat + n ≤ left.bodyLength.toNat := by
  dsimp only [Block.Inside, Request.tail]
  omega

/-- The blocks taken before the cookie are among all of them. -/
theorem getCookie_blocks (h : (getCookie e left blocks).Inside r) : ∀ b ∈ blocks, b.Inside r := by
  rw [getCookie] at h
  split_ifs at h
  · exact h.blocks
  · exact h.blocks
  · exact fun b mem => h.blocks b (List.mem_cons_of_mem _ mem)

theorem getCookie_inside_iff (le : left.bodyLength.toNat ≤ r.bodyLength.toNat) :
    (getCookie e left blocks).Inside r ↔ (∀ b ∈ blocks, b.Inside r) ∧
      (left.cookieLength e.piggySDesc.isSome = 0 ∨
        r.seDataOffset.toNat + left.cookieLength e.piggySDesc.isSome ≤ left.bodyLength.toNat) := by
  by_cases hcookie : left.tcpFtp ∧ e.piggySDesc.isSome = false ∧ 8 ≤ left.bodyLength.toNat
  · obtain ⟨htcp, hfile, hlong⟩ := hcookie
    have hleft := left.shorten_length hlong
    rw [getCookie, if_neg (by simp [htcp]), if_neg (by simp [hfile, hlong]), Request.cookieLength,
      if_pos ⟨htcp, hfile, hlong⟩]
    constructor
    · intro h
      obtain ⟨htail, hblocks⟩ := List.forall_mem_cons.mp h.blocks
      exact ⟨hblocks, Or.inr ((Request.tail_inside_iff le).mp htail)⟩
    · rintro ⟨hblocks, hsum⟩
      have htail := (Request.tail_inside_iff le).mpr (hsum.resolve_left (by decide))
      exact ⟨List.forall_mem_cons.mpr ⟨htail, hblocks⟩, by dsimp only; omega⟩
  · have hzero : left.cookieLength e.piggySDesc.isSome = 0 := if_neg hcookie
    refine ⟨fun h => ⟨getCookie_blocks h, Or.inl hzero⟩, fun h => ?_⟩
    rw [getCookie]
    split_ifs with htcp hfits
    · exact ⟨h.1, le⟩
    · exact ⟨h.1, le⟩
    · push Not at hfits
      exact absurd ⟨by simpa using htcp, by simpa using hfits.1, hfits.2⟩ hcookie

/-- Of what is taken out of the body, a cookie stands before the rest. -/
theorem getCookie_shorten_inside_iff :
    (getCookie e (r.shorten n) [r.tail n]).Inside r ↔
      r.seDataOffset.toNat + (n + (r.shorten n).cookieLength e.piggySDesc.isSome) ≤
        r.bodyLength.toNat := by
  by_cases hroom : r.seDataOffset.toNat + n ≤ r.bodyLength.toNat
  · have hleft := r.shorten_length (n := n) (by omega)
    rw [getCookie_inside_iff (by omega), List.forall_mem_singleton,
      Request.tail_inside_iff (le_refl _)]
    omega
  · constructor
    · intro h
      have htail := getCookie_blocks h _ List.mem_cons_self
      exact absurd ((Request.tail_inside_iff (le_refl _)).mp htail) hroom
    · omega

/-- What is taken out is inside the body exactly if it fits behind `SEDataOffset`. -/
theorem getRequest_inside_iff {out : Received} (run : getRequest e r = some out) :
    out.Inside r ↔
      r.taken e = 0 ∨ r.seDataOffset.toNat + r.taken e ≤ r.bodyLength.toNat := by
  have hnothing : ∀ success e, (Received.mk success e r []).Inside r ↔
      0 = 0 ∨ r.seDataOffset.toNat + 0 ≤ r.bodyLength.toNat := fun _ _ =>
    ⟨fun _ => Or.inl rfl, fun _ => ⟨nofun, le_refl _⟩⟩
  rw [getRequest] at run
  rw [Request.taken]
  by_cases hserver : e.whoAmI ≠ some .server
  · rw [if_pos hserver] at run ⊢
    cases run
    exact hnothing _ _
  rw [if_neg hserver] at run ⊢
  cases hpiggy : r.piggy with
  | false =>
    rw [if_pos (by simp [hpiggy])] at run ⊢
    cases run
    rw [getCookie_inside_iff (le_refl _)]
    exact and_iff_right nofun
  | true =>
    rw [if_neg (by simp [hpiggy])] at run ⊢
    cases hgot : e.gotParms with
    | true =>
      rw [if_neg (by simp [hgot])] at run
      obtain ⟨-, run⟩ := Option.ite_none_left_eq_some.mp run
      cases run
      have hlength : r.seLength = (2 ^ 32 - r.seDataOffset.toNat + r.bodyLength.toNat) % 2 ^ 32 :=
        BitVec.toNat_sub _ _
      have hnone : (r.shorten r.seLength).cookieLength true = 0 := if_neg (by simp)
      rw [getCookie_shorten_inside_iff, if_pos rfl, Option.isSome_some]
      omega
    | false =>
      rw [if_pos (by simp [hgot]), extractParmsFromPacket] at run
      by_cases hshort : r.seLength < parmsSize
      · rw [if_pos hshort] at run ⊢
        cases run
        exact hnothing _ _
      · rw [if_neg hshort] at run ⊢
        cases run
        rw [getCookie_shorten_inside_iff]
        exact (or_iff_right (by simp [parmsSize])).symm

end Inside

/-- The parameters of a first request. -/
theorem getRequest_inside_parms :
    ∃ out, getRequest newEntry (parmsRequest 32 8 8) = some out ∧ out.blocks = [⟨0, 44⟩] ∧
      out.Inside (parmsRequest 32 8 8) :=
  ⟨_, rfl, rfl, (getRequest_inside_iff (e := newEntry) rfl).mpr
    (Or.inr (by decide))⟩

/-- A file of 11 bytes is taken out of a body of 10: it begins before the body, and the body that is
left has 2^32 - 1 bytes. -/
theorem getRequest_file_outside :
    ∃ out, getRequest { newEntry with gotParms := true }
        { parmsRequest 32 8 8 with bodyLength := 10, seDataOffset := 2 ^ 32 - 1 } = some out ∧
      out.success = true ∧ out.blocks = [⟨-1, 11⟩] ∧
      out.request.bodyLength.toNat = 2 ^ 32 - 1 :=
  ⟨_, rfl, rfl, by decide, by decide⟩

end Coda.Sftp
