import Coda.Lib.Memory
import Coda.Secure.Association

/-!
AES-XCBC in memory (`rpc2/secure/auth_aes_xcbc.c`, `secure_aes.c`).

The block cipher is any function of a key and a block. Buffers are addresses, so that input and
output may be the same bytes: `aes_xcbc_mac_128` clears its output before it reads its input.
-/

namespace Coda.Secure

open Coda.Lib

/-- `aes_block`. -/
abbrev Block := Fin 16 → Byte

/-- A block of zeros. -/
def zeroBlock : Block := fun _ => 0

/-- `xor128`. -/
def xor128 (a b : Block) : Block := fun i => a i ^^^ b i

theorem xor128_assoc (a b c : Block) : xor128 (xor128 a b) c = xor128 a (xor128 b c) := by
  funext i
  exact BitVec.xor_assoc _ _ _

@[simp] theorem xor128_self (a : Block) : xor128 a a = zeroBlock := by
  funext i
  exact BitVec.xor_self

@[simp] theorem xor128_zero (a : Block) : xor128 a zeroBlock = a := by
  funext i
  exact BitVec.xor_zero

@[simp] theorem zero_xor128 (a : Block) : xor128 zeroBlock a = a := by
  funext i
  exact BitVec.zero_xor

/-! ### The algorithm (RFC 3566, RFC 4434) -/

/-- `struct aes_xcbc_state`: the cipher with the first derived key, and the other two. -/
structure XcbcState where
  C1 : Block → Block
  K2 : Block
  K3 : Block

/-- The `i`-th block of the message. -/
def dataBlock (data : List Byte) (i : Nat) : Block := fun j => data.getD (16 * i + j) 0

/-- The last `r` bytes of the message, with a one bit and zeros behind them. -/
def padBlock (data : List Byte) (i r : Nat) : Block :=
  fun j => if j < r then data.getD (16 * i + j) 0 else if j = r then 0x80 else 0

/-- The chaining value in front of block `i`. -/
def xcbcChain (st : XcbcState) (data : List Byte) : Nat → Block
  | 0 => zeroBlock
  | i + 1 => st.C1 (xor128 (xcbcChain st data i) (dataBlock data i))

/-- AES-XCBC-MAC: the last block is mixed with `K2` if it is full, and padded and mixed with `K3`
otherwise. -/
def xcbc (st : XcbcState) (data : List Byte) : Block :=
  let last := (data.length + 15) / 16 - 1
  if data.length % 16 = 0 ∧ data ≠ [] then
    st.C1 (xor128 (xor128 (xcbcChain st data last) (dataBlock data last)) st.K2)
  else st.C1 (xor128 (xor128 (xcbcChain st data last) (padBlock data last (data.length % 16))) st.K3)

/-! ### The code -/

section Code

variable (aes : Block → Block → Block)

/-- `aes_xcbc_mac_init`. -/
def aesXcbcMacInit (key : Block) : XcbcState where
  C1 := aes (aes key fun _ => 0x01)
  K2 := aes key fun _ => 0x02
  K3 := aes key fun _ => 0x03

/-- The body of the loop of `aes_xcbc_mac_128`; the pair is the memory and `in`. -/
def macStep (st : XcbcState) (mac : Nat) (s : Mem × Nat) : Mem × Nat :=
  let m := s.1.setVec mac (xor128 (s.1.vec mac) (s.1.vec s.2))
  (m.setVec mac (st.C1 (m.vec mac)), s.2 + 16)

/-- `aes_xcbc_mac_128` of the `len` bytes at `buf`, into the block at `mac`. -/
def aesXcbcMac128 (st : XcbcState) (m : Mem) (buf len mac : Nat) : Mem :=
  let nblocks := (len + 15) / 16
  let m := m.setVec mac zeroBlock
  let (m, input) := (macStep st mac)^[nblocks - 1] (m, buf)
  let len := len % 16
  let m :=
    if len ≠ 0 then
      let tmp : Block := fun j => if j < len then m (input + j) else if j = len then 0x80 else 0
      let m := m.setVec mac (xor128 (m.vec mac) tmp)
      m.setVec mac (xor128 (m.vec mac) st.K3)
    else
      let m := m.setVec mac (xor128 (m.vec mac) (m.vec input))
      m.setVec mac (xor128 (m.vec mac) st.K2)
  m.setVec mac (st.C1 (m.vec mac))

/-- `aes_xcbc_prf_init` with the `len` bytes at `key`; `tmp` is its local block. -/
def aesXcbcPrfInit (m : Mem) (key len tmp : Nat) : XcbcState × Mem :=
  if len ≠ 16 then
    let m := m.setVec tmp zeroBlock
    let m :=
      if len > 16 then aesXcbcMac128 (aesXcbcMacInit aes (m.vec tmp)) m key len tmp
      else m.store tmp (m.bytes key len)
    (aesXcbcMacInit aes (m.vec tmp), m.setVec tmp zeroBlock)
  else (aesXcbcMacInit aes (m.vec key), m)

/-- The key of AES-XCBC-PRF-128 for a password of any length. -/
def prfKey (password : List Byte) : Block :=
  if password.length > 16 then xcbc (aesXcbcMacInit aes zeroBlock) password else dataBlock password 0

/-- AES-XCBC-PRF-128. -/
def xcbcPrf (password data : List Byte) : Block :=
  xcbc (aesXcbcMacInit aes (prfKey aes password)) data

end Code

/-! ### Input and output apart -/

section Apart

variable {st : XcbcState} {m : Mem} {buf len mac : Nat}

theorem dataBlock_bytes {i : Nat} (h : 16 * i + 16 ≤ len) :
    dataBlock (m.bytes buf len) i = m.vec (buf + 16 * i) := by
  funext j
  rw [dataBlock, Mem.getD_bytes (by omega), ← Nat.add_assoc]
  rfl

/-- The loop, when it does not write its own input. -/
theorem macStep_iterate (st : XcbcState) (apart : Mem.Apart buf len mac 16) (h₀ : m.vec mac = zeroBlock) {k : Nat}
    (hk : 16 * k ≤ len) :
    ((macStep st mac)^[k] (m, buf)).2 = buf + 16 * k ∧
      ((macStep st mac)^[k] (m, buf)).1.vec mac = xcbcChain st (m.bytes buf len) k ∧
      ∀ x, x < mac ∨ mac + 16 ≤ x → ((macStep st mac)^[k] (m, buf)).1 x = m x := by
  induction k with
  | zero => exact ⟨rfl, h₀, fun _ _ => rfl⟩
  | succ k ih =>
    obtain ⟨hin, hmac, hframe⟩ := ih (by omega)
    rw [Function.iterate_succ_apply']
    generalize (macStep st mac)^[k] (m, buf) = s at hin hmac hframe
    have hread : (s.1.vec s.2 : Block) = dataBlock (m.bytes buf len) k := by
      rw [dataBlock_bytes (by omega), hin]
      refine Mem.vec_congr fun x h₁ h₂ => hframe x ?_
      unfold Mem.Apart at apart
      omega
    refine ⟨?_, ?_, ?_⟩
    · change s.2 + 16 = _
      omega
    · change ((s.1.setVec mac _).setVec mac _).vec mac = _
      rw [Mem.vec_setVec, Mem.vec_setVec, hmac, hread]
      rfl
    · intro x hx
      change ((s.1.setVec mac _).setVec mac _) x = _
      rw [Mem.setVec_outside hx, Mem.setVec_outside hx, hframe x hx]

/-- Only the block at `mac` changes. -/
theorem aesXcbcMac128_outside {x : Nat} (hx : x < mac ∨ mac + 16 ≤ x) :
    aesXcbcMac128 st m buf len mac x = m x := by
  have hloop : ∀ (k : Nat) (s : Mem × Nat), ((macStep st mac)^[k] s).1 x = s.1 x := by
    intro k
    induction k with
    | zero =>
      intro s
      rfl
    | succ k ih =>
      intro s
      rw [Function.iterate_succ_apply, ih]
      change ((s.1.setVec mac _).setVec mac _) x = _
      rw [Mem.setVec_outside hx, Mem.setVec_outside hx]
  unfold aesXcbcMac128
  dsimp only
  rw [Mem.setVec_outside hx]
  split_ifs
  · rw [Mem.setVec_outside hx, Mem.setVec_outside hx, hloop]
    exact Mem.setVec_outside hx
  · rw [Mem.setVec_outside hx, Mem.setVec_outside hx, hloop]
    exact Mem.setVec_outside hx

/-- `aes_xcbc_mac_128` of a message apart from its output. -/
theorem aesXcbcMac128_apart (hlen : 0 < len) (apart : Mem.Apart buf len mac 16) :
    (aesXcbcMac128 st m buf len mac).vec mac = xcbc st (m.bytes buf len) := by
  have hbytes : (m.setVec mac zeroBlock).bytes buf len = m.bytes buf len := by
    refine Mem.bytes_congr fun x h₁ h₂ => Mem.setVec_outside ?_
    unfold Mem.Apart at apart
    omega
  have hne : m.bytes buf len ≠ [] := by
    rw [← List.length_pos_iff, Mem.length_bytes]
    exact hlen
  have hloop : 16 * ((len + 15) / 16 - 1) ≤ len := by omega
  obtain ⟨hin, hmac, hframe⟩ :=
    macStep_iterate st apart (Mem.vec_setVec) hloop
  rw [hbytes] at hmac
  unfold aesXcbcMac128 xcbc
  rw [Mem.vec_setVec, Mem.length_bytes]
  generalize (macStep st mac)^[(len + 15) / 16 - 1] (m.setVec mac zeroBlock, buf) = s
    at hin hmac hframe
  have hread : ∀ j, j < len - 16 * ((len + 15) / 16 - 1) →
      s.1 (s.2 + j) = m (buf + (16 * ((len + 15) / 16 - 1) + j)) := by
    intro j hj
    unfold Mem.Apart at apart
    rw [hframe _ (by omega), Mem.setVec_outside (by omega), hin, Nat.add_assoc]
  by_cases hfull : len % 16 = 0
  · have hblock : (s.1.vec s.2 : Block) = dataBlock (m.bytes buf len) ((len + 15) / 16 - 1) := by
      funext j
      rw [dataBlock, Mem.getD_bytes (by omega)]
      exact hread j (by omega)
    rw [if_neg (not_not.mpr hfull), if_pos ⟨hfull, hne⟩, Mem.vec_setVec, Mem.vec_setVec, hmac, hblock]
  · have hblock : (fun j : Fin 16 => if (j : Nat) < len % 16 then s.1 (s.2 + j)
        else if (j : Nat) = len % 16 then (0x80 : Byte) else 0) =
        padBlock (m.bytes buf len) ((len + 15) / 16 - 1) (len % 16) := by
      funext j
      unfold padBlock
      by_cases hj : (j : Nat) < len % 16
      · rw [if_pos hj, if_pos hj, Mem.getD_bytes (by omega)]
        exact hread j (by omega)
      · rw [if_neg hj, if_neg hj]
    rw [if_pos hfull, if_neg (fun h => hfull h.1), Mem.vec_setVec, Mem.vec_setVec, hmac, hblock]

/-- A block that is its own output: the code reads the zeros it has just written. -/
theorem aesXcbcMac128_alias (st : XcbcState) (m : Mem) (mac : Nat) :
    (aesXcbcMac128 st m mac 16 mac).vec mac = xcbc st (List.replicate 16 0) := by
  have hzero : dataBlock (List.replicate 16 0) 0 = zeroBlock := by
    funext j
    rw [dataBlock, List.getD_replicate _ (by omega)]
    rfl
  change (Mem.setVec _ mac (st.C1 _)).vec mac =
    st.C1 (xor128 (xor128 zeroBlock (dataBlock (List.replicate 16 0) 0)) st.K2)
  rw [Mem.vec_setVec, hzero]
  change st.C1 ((Mem.setVec _ mac (xor128 _ st.K2)).vec mac) = _
  rw [Mem.vec_setVec, Mem.vec_setVec, Mem.vec_setVec]

end Apart

/-! ### The pseudo random function -/

/-- `aes_xcbc_prf_init` of a password apart from its local block. -/
theorem aesXcbcPrfInit_eq (aes : Block → Block → Block) (m : Mem) {key len tmp : Nat}
    (apart : Mem.Apart key len tmp 16) :
    (aesXcbcPrfInit aes m key len tmp).1 =
        aesXcbcMacInit aes (prfKey aes (m.bytes key len)) ∧
      ∀ x, x < tmp ∨ tmp + 16 ≤ x → (aesXcbcPrfInit aes m key len tmp).2 x = m x := by
  have hbytes : (m.setVec tmp zeroBlock).bytes key len = m.bytes key len := by
    refine Mem.bytes_congr fun x h₁ h₂ => Mem.setVec_outside ?_
    unfold Mem.Apart at apart
    omega
  unfold aesXcbcPrfInit prfKey
  rw [Mem.length_bytes]
  dsimp only
  by_cases hfull : len = 16
  · subst hfull
    rw [dataBlock_bytes (by omega)]
    exact ⟨rfl, fun _ _ => rfl⟩
  · rw [if_pos hfull]
    by_cases hlong : len > 16
    · rw [if_pos hlong, if_pos hlong, aesXcbcMac128_apart (by omega) apart, hbytes, Mem.vec_setVec]
      refine ⟨rfl, fun x hx => ?_⟩
      dsimp only
      rw [Mem.setVec_outside hx, aesXcbcMac128_outside hx, Mem.setVec_outside hx]
    · rw [if_neg hlong, if_neg hlong, hbytes]
      constructor
      · refine congrArg (aesXcbcMacInit aes) (funext fun j => ?_)
        rw [Mem.vec, dataBlock, Nat.zero_add]
        by_cases hin : (j : Nat) < len
        · rw [Mem.store_add (by rwa [Mem.length_bytes]), List.getD_eq_getElem]
        · rw [Mem.store_outside (by rw [Mem.length_bytes]; omega),
            List.getD_eq_default _ _ (by rw [Mem.length_bytes]; omega)]
          change (m.setVec tmp zeroBlock).vec tmp j = 0
          rw [Mem.vec_setVec]
          rfl
      · intro x hx
        dsimp only
        rw [Mem.setVec_outside hx, Mem.store_outside (by rw [Mem.length_bytes]; omega),
          Mem.setVec_outside hx]

end Coda.Secure
