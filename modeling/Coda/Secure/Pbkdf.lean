import Coda.Secure.Xcbc

/-!
Password based keys (`rpc2/secure/secure_pbkdf.c`) against PBKDF2 of RFC 2898.

`F` feeds the output block of the pseudo random function back as its input, in place. The function
clears its output first, so from the second iteration on it always sees a block of zeros, and all
the iterations together add at most one constant block to the first one.
-/

namespace Coda.Secure

open Coda.Lib

/-! ### The code -/

/-- Where the local variables and the allocated buffer stand. -/
structure PbkdfFrame where
  U0 : Nat
  UN : Nat
  tmp : Nat
  /-- The local block of `aes_xcbc_prf_init`. -/
  prf : Nat

/-- The body of the loop of `F`. -/
def iterationStep (st : XcbcState) (UN prv : Nat) (m : Mem) : Mem :=
  let m := aesXcbcMac128 st m UN 16 UN
  m.setVec prv (xor128 (m.vec prv) (m.vec UN))

/-- `F`: one block of the key, to address `prv`. -/
def F (st : XcbcState) (m : Mem) (U0 U0len : Nat) (i : BitVec 32) (iterations UN prv : Nat) : Mem :=
  let m := m.store (U0 + U0len - 4) (htonl i)
  let m := aesXcbcMac128 st m U0 U0len UN
  let m := m.setVec prv (m.vec UN : Block)
  (iterationStep st UN prv)^[iterations - 1] m

/-- The loop over the full blocks. `i` is 32 bits wide and `nblocks` is not, so the loop may never
end: `none` when the fuel is used up. -/
def pbkdfLoop (st : XcbcState) (l : PbkdfFrame) (U0len iterations nblocks : Nat) :
    Nat → Mem → BitVec 32 → Nat → Option (Mem × BitVec 32 × Nat)
  | 0, _, _, _ => none
  | fuel + 1, m, i, key =>
    if i.toNat ≤ nblocks then
      pbkdfLoop st l U0len iterations nblocks fuel (F st m l.U0 U0len i iterations l.UN key) (i + 1)
        (key + 16)
    else some (m, i, key)

/-- The end of `secure_pbkdf`: the last block, if it is not a full one. -/
def lastBlock (st : XcbcState) (l : PbkdfFrame) (U0len iterations keylen : Nat) (m : Mem)
    (i : BitVec 32) (key : Nat) : Mem :=
  if keylen ≠ 0 then
    let m := F st m l.U0 U0len i iterations l.UN l.tmp
    let m := m.store key (m.bytes l.tmp keylen)
    m.setVec l.tmp zeroBlock
  else m

/-- `secure_pbkdf`, when its allocations succeed. -/
def securePbkdf (aes : Block → Block → Block) (fuel : Nat) (m : Mem) (l : PbkdfFrame)
    (password plen salt slen iterations key keylen : Nat) : Option Mem := do
  let nblocks := keylen / 16
  let U0len := slen + 4
  let (st, m) := aesXcbcPrfInit aes m password plen l.prf
  -- recommended minimum number of iterations is 1000
  let iterations := if iterations < 1000 then 1000 else iterations
  let m := m.fill l.U0 U0len 0
  let m := if salt ≠ 0 ∧ slen ≠ 0 then m.store l.U0 (m.bytes salt slen) else m
  let (m, i, key) ← pbkdfLoop st l U0len iterations nblocks fuel m 1 key
  let m := lastBlock st l U0len iterations (keylen - 16 * nblocks) m i key
  return m.fill l.U0 U0len 0

/-! ### RFC 2898 -/

section Rfc

variable (prf : List Byte → Block) (salt : List Byte)

/-- `U_1`, `U_2`, ... of block `i`; the index here starts at 0. -/
def pbkdf2U (i : Nat) : Nat → Block
  | 0 => prf (salt ++ htonl (BitVec.ofNat 32 i))
  | n + 1 => prf (List.ofFn (pbkdf2U i n))

/-- The xor of the first `c` blocks. -/
def xorAll (u : Nat → Block) : Nat → Block
  | 0 => zeroBlock
  | n + 1 => xor128 (xorAll u n) (u n)

/-- Byte `k` of the blocks `T 1`, `T 2`, ... in a row. -/
def rowByte (T : Nat → Block) (k : Nat) : Byte := T (k / 16 + 1) ⟨k % 16, Nat.mod_lt k (by decide)⟩

/-- The key: the first `keylen` bytes of the blocks, each of them the xor of `U_1` to `U_c`. -/
def pbkdf2 (c keylen : Nat) : List Byte :=
  (List.range keylen).map (rowByte fun i => xorAll (pbkdf2U prf salt i) c)

/-- What all iterations but the first are to add to block `i`. -/
def pbkdf2Tail (c i : Nat) : Block := xorAll (fun n => pbkdf2U prf salt i (n + 1)) (c - 1)

/-- What they add in the code. -/
def codeTail (c : Nat) : Block := if c % 2 = 0 then prf (List.replicate 16 0) else zeroBlock

/-- Block `i` of the code's key. -/
def codeBlock (c i : Nat) : Block :=
  xor128 (prf (salt ++ htonl (BitVec.ofNat 32 i))) (codeTail prf c)

end Rfc

theorem xorAll_succ_first (u : Nat → Block) (n : Nat) :
    xorAll u (n + 1) = xor128 (u 0) (xorAll (fun k => u (k + 1)) n) := by
  induction n with
  | zero =>
    change xor128 zeroBlock (u 0) = xor128 (u 0) zeroBlock
    rw [zero_xor128, xor128_zero]
  | succ n ih =>
    rw [xorAll, ih, xor128_assoc]
    rfl

theorem pbkdf2_block (prf : List Byte → Block) (salt : List Byte) {c : Nat} (hc : 0 < c) (i : Nat) :
    xorAll (pbkdf2U prf salt i) c =
      xor128 (prf (salt ++ htonl (BitVec.ofNat 32 i))) (pbkdf2Tail prf salt c i) := by
  obtain ⟨n, rfl⟩ := Nat.exists_eq_succ_of_ne_zero (Nat.ne_of_gt hc)
  exact xorAll_succ_first _ n

/-! ### One block -/

section OneBlock

variable {st : XcbcState} {m : Mem} {U0 slen UN prv : Nat}

theorem iterationStep_outside {x : Nat} (hUN : x < UN ∨ UN + 16 ≤ x) (hprv : x < prv ∨ prv + 16 ≤ x) :
    iterationStep st UN prv m x = m x := by
  unfold iterationStep
  rw [Mem.setVec_outside hprv, aesXcbcMac128_outside hUN]

/-- Every iteration adds the same block. -/
theorem iterationStep_prv (apart : Mem.Apart UN 16 prv 16) :
    (iterationStep st UN prv m).vec prv =
      xor128 (m.vec prv) (xcbc st (List.replicate 16 0)) := by
  have hprv : ((aesXcbcMac128 st m UN 16 UN).vec prv : Block) = m.vec prv := by
    refine Mem.vec_congr fun x h₁ h₂ => aesXcbcMac128_outside ?_
    unfold Mem.Apart at apart
    omega
  unfold iterationStep
  rw [Mem.vec_setVec, hprv, aesXcbcMac128_alias]

theorem iterationStep_iterate (st : XcbcState) (m : Mem) (apart : Mem.Apart UN 16 prv 16) (n : Nat) :
    ((iterationStep st UN prv)^[n] m).vec prv = xor128 (m.vec prv)
        (if n % 2 = 1 then xcbc st (List.replicate 16 0) else zeroBlock) ∧
      ∀ x, (x < UN ∨ UN + 16 ≤ x) → (x < prv ∨ prv + 16 ≤ x) →
        (iterationStep st UN prv)^[n] m x = m x := by
  induction n with
  | zero => exact ⟨(xor128_zero _).symm, fun _ _ _ => rfl⟩
  | succ n ih =>
    obtain ⟨hprv, hframe⟩ := ih
    rw [Function.iterate_succ_apply']
    constructor
    · rw [iterationStep_prv apart, hprv, xor128_assoc]
      by_cases hodd : n % 2 = 1
      · rw [if_pos hodd, if_neg (by omega), xor128_self]
      · rw [if_neg hodd, if_pos (by omega), zero_xor128]
    · intro x hUN hprv'
      rw [iterationStep_outside hUN hprv', hframe x hUN hprv']

theorem F_spec (st : XcbcState) (m : Mem) (i : BitVec 32) {c : Nat} (hc : 0 < c) (u0Un : Mem.Apart U0 (slen + 4) UN 16)
    (unPrv : Mem.Apart UN 16 prv 16) :
    (F st m U0 (slen + 4) i c UN prv).vec prv =
        xor128 (xcbc st (m.bytes U0 slen ++ htonl i)) (codeTail (xcbc st) c) ∧
      ∀ x, (x < UN ∨ UN + 16 ≤ x) → (x < prv ∨ prv + 16 ≤ x) →
        (x < U0 + slen ∨ U0 + slen + 4 ≤ x) → F st m U0 (slen + 4) i c UN prv x = m x := by
  have hbytes : (m.store (U0 + slen) (htonl i)).bytes U0 (slen + 4) = m.bytes U0 slen ++ htonl i :=
    Mem.bytes_store_behind m U0 slen (htonl i)
  have htail : (if (c - 1) % 2 = 1 then xcbc st (List.replicate 16 0) else zeroBlock) =
      codeTail (xcbc st) c := by
    unfold codeTail
    by_cases heven : c % 2 = 0
    · rw [if_pos heven, if_pos (by omega)]
    · rw [if_neg heven, if_neg (by omega)]
  have hU0 : U0 + (slen + 4) - 4 = U0 + slen := by omega
  unfold F
  rw [hU0]
  obtain ⟨hprv, hframe⟩ := iterationStep_iterate st ((aesXcbcMac128 st
    (m.store (U0 + slen) (htonl i)) U0 (slen + 4) UN).setVec prv ((aesXcbcMac128 st
    (m.store (U0 + slen) (htonl i)) U0 (slen + 4) UN).vec UN : Block)) unPrv (c - 1)
  constructor
  · rw [hprv, Mem.vec_setVec, aesXcbcMac128_apart (by omega) u0Un, hbytes, htail]
  · intro x hUN hprv' hx
    rw [hframe x hUN hprv', Mem.setVec_outside hprv', aesXcbcMac128_outside hUN]
    exact Mem.store_outside hx

end OneBlock

/-! ### The loop over the blocks -/

section Loop

variable {st : XcbcState} {l : PbkdfFrame} {U0len c nblocks : Nat}

/-- What every block keeps, the whole loop keeps, and the loop ends. -/
theorem pbkdfLoop_spec {I : Mem → Nat → Prop} {key : Nat} (hn : nblocks + 1 < 2 ^ 32)
    (keep : ∀ m j, j < nblocks → I m j →
      I (F st m l.U0 U0len (BitVec.ofNat 32 (j + 1)) c l.UN (key + 16 * j)) (j + 1))
    (fuel : Nat) {m : Mem} {j : Nat} (hj : j ≤ nblocks) (inv : I m j) :
    (nblocks - j < fuel → ∃ m', pbkdfLoop st l U0len c nblocks fuel m (BitVec.ofNat 32 (j + 1))
        (key + 16 * j) = some (m', BitVec.ofNat 32 (nblocks + 1), key + 16 * nblocks) ∧
          I m' nblocks) ∧
      (fuel ≤ nblocks - j → pbkdfLoop st l U0len c nblocks fuel m (BitVec.ofNat 32 (j + 1))
        (key + 16 * j) = none) := by
  induction fuel generalizing m j with
  | zero =>
    constructor
    · intro hfuel
      omega
    · intro _
      rfl
  | succ fuel ih =>
    have htoNat : (BitVec.ofNat 32 (j + 1)).toNat = j + 1 := by
      rw [BitVec.toNat_ofNat, Nat.mod_eq_of_lt (by omega)]
    have hnext : BitVec.ofNat 32 (j + 1) + 1 = BitVec.ofNat 32 (j + 1 + 1) :=
      (BitVec.ofNat_add (j + 1) 1).symm
    rw [pbkdfLoop]
    by_cases hlast : j < nblocks
    · obtain ⟨hdone, hnone⟩ := ih (by omega) (keep m j hlast inv)
      rw [if_pos (by omega), hnext]
      exact ⟨fun hfuel => hdone (by omega), fun hfuel => hnone (by omega)⟩
    · obtain rfl : j = nblocks := by omega
      rw [if_neg (by omega)]
      exact ⟨fun _ => ⟨m, rfl, inv⟩, fun hfuel => by omega⟩

/-- A counter of 32 bits never gets past `nblocks`. -/
theorem pbkdfLoop_forever (hn : 2 ^ 32 ≤ nblocks + 1) (fuel : Nat) (m : Mem) (i : BitVec 32)
    (key : Nat) : pbkdfLoop st l U0len c nblocks fuel m i key = none := by
  induction fuel generalizing m i key with
  | zero => rfl
  | succ fuel ih =>
    rw [pbkdfLoop, if_pos (by omega), ih]

end Loop

/-! ### secure_pbkdf -/

/-- The buffers do not overlap. -/
structure Layout (l : PbkdfFrame) (password plen salt slen key keylen : Nat) : Prop where
  passwordPrf : Mem.Apart password plen l.prf 16
  saltPrf : Mem.Apart salt slen l.prf 16
  saltU0 : Mem.Apart salt slen l.U0 (slen + 4)
  u0UN : Mem.Apart l.U0 (slen + 4) l.UN 16
  u0Tmp : Mem.Apart l.U0 (slen + 4) l.tmp 16
  u0Key : Mem.Apart l.U0 (slen + 4) key keylen
  unTmp : Mem.Apart l.UN 16 l.tmp 16
  unKey : Mem.Apart l.UN 16 key keylen
  tmpKey : Mem.Apart l.tmp 16 key keylen
  /-- There is a salt unless its length is 0. -/
  given : salt ≠ 0 ∨ slen = 0

section Key

variable {st : XcbcState} {l : PbkdfFrame} {password plen salt slen key keylen c : Nat}

/-- The salt stands in front of the buffer, and `j` blocks of the key are done. -/
structure Written (st : XcbcState) (l : PbkdfFrame) (s : List Byte) (c key : Nat) (m : Mem) (j : Nat) :
    Prop where
  salt : m.bytes l.U0 s.length = s
  done : ∀ k < 16 * j, m (key + k) = rowByte (codeBlock (xcbc st) s c) k

theorem rowByte_block (T : Nat → Block) (j : Nat) (r : Fin 16) : rowByte T (16 * j + r) = T (j + 1) r := by
  have hdiv : (16 * j + r) / 16 = j := by omega
  have hmod : (⟨(16 * j + r) % 16, Nat.mod_lt _ (by decide)⟩ : Fin 16) = r := Fin.ext (by
    change (16 * j + r) % 16 = r
    omega)
  rw [rowByte, hdiv, hmod]

variable (aes : Block → Block → Block) (m : Mem)

section

variable (layout : Layout l password plen salt slen key keylen)
include layout

theorem Written.block (hc : 0 < c) {m : Mem} {j : Nat} {s : List Byte} (hs : s.length = slen)
    (hj : j < keylen / 16) (h : Written st l s c key m j) :
    Written st l s c key
      (F st m l.U0 (slen + 4) (BitVec.ofNat 32 (j + 1)) c l.UN (key + 16 * j)) (j + 1) := by
  obtain ⟨-, -, -, u0UN, -, u0Key, -, unKey, -, -⟩ := layout
  have unPrv : Mem.Apart l.UN 16 (key + 16 * j) 16 := by
    unfold Mem.Apart at unKey ⊢
    omega
  obtain ⟨hprv, hframe⟩ := F_spec st m (BitVec.ofNat 32 (j + 1)) hc u0UN unPrv
  unfold Mem.Apart at u0UN u0Key unKey
  subst hs
  constructor
  · refine (Mem.bytes_congr fun x h₁ h₂ => ?_).trans h.salt
    exact hframe x (by omega) (by omega) (by omega)
  · intro k hk
    by_cases hold : k < 16 * j
    · rw [hframe _ (by omega) (by omega) (by omega)]
      exact h.done k hold
    · obtain ⟨r, rfl⟩ : ∃ r : Fin 16, k = 16 * j + r := ⟨⟨k - 16 * j, by omega⟩, by
        change k = 16 * j + (k - 16 * j)
        omega⟩
      have hbyte := congrFun hprv r
      rw [h.salt] at hbyte
      rw [rowByte_block, ← Nat.add_assoc]
      exact hbyte

/-- The last block and the clearing of the buffer. -/
theorem Written.last (hc : 0 < c) {m : Mem} {s : List Byte} (hs : s.length = slen)
    (h : Written st l s c key m (keylen / 16)) :
    ((lastBlock st l (slen + 4) c (keylen - 16 * (keylen / 16)) m
      (BitVec.ofNat 32 (keylen / 16 + 1)) (key + 16 * (keylen / 16))).fill l.U0 (slen + 4) 0).bytes
        key keylen = (List.range keylen).map (rowByte (codeBlock (xcbc st) s c)) := by
  obtain ⟨-, -, -, u0UN, u0Tmp, u0Key, unTmp, unKey, tmpKey, -⟩ := layout
  obtain ⟨hprv, hframe⟩ :=
    F_spec st m (BitVec.ofNat 32 (keylen / 16 + 1)) hc u0UN unTmp
  unfold Mem.Apart at u0UN u0Key u0Tmp unKey unTmp tmpKey
  subst hs
  rw [h.salt] at hprv
  rw [Mem.bytes_eq_map]
  refine List.map_congr_left fun k hk => ?_
  have hk := List.mem_range.mp hk
  rw [Mem.fill, if_neg (by omega), lastBlock]
  by_cases hold : k < 16 * (keylen / 16)
  · split_ifs
    · rw [Mem.setVec_outside (by omega), Mem.store_outside (by omega),
        hframe _ (by omega) (by omega) (by omega)]
      exact h.done k hold
    · exact h.done k hold
  · obtain ⟨r, rfl⟩ : ∃ r : Fin 16, k = 16 * (keylen / 16) + r :=
      ⟨⟨k - 16 * (keylen / 16), by omega⟩, by
        change k = 16 * (keylen / 16) + (k - 16 * (keylen / 16))
        omega⟩
    have hr : (r : Nat) < keylen - 16 * (keylen / 16) := by omega
    rw [if_pos (by omega), Mem.setVec_outside (by omega), ← Nat.add_assoc,
      Mem.store_add (by rwa [Mem.length_bytes]), ← List.getD_eq_getElem _ 0, Mem.getD_bytes hr,
      rowByte_block]
    exact congrFun hprv r

/-- The salt goes to the front of the buffer. -/
theorem salt_written {m m' : Mem} (hframe : ∀ x, x < l.prf ∨ l.prf + 16 ≤ x → m' x = m x) :
    let m₀ := m'.fill l.U0 (slen + 4) 0
    (if salt ≠ 0 ∧ slen ≠ 0 then m₀.store l.U0 (m₀.bytes salt slen) else m₀).bytes l.U0
      (m.bytes salt slen).length = m.bytes salt slen := by
  obtain ⟨-, saltPrf, saltU0, -, -, -, -, -, -, given⟩ := layout
  unfold Mem.Apart at saltPrf saltU0
  intro m₀
  have hsalt : m₀.bytes salt slen = m.bytes salt slen := by
    refine Mem.bytes_congr fun x h₁ h₂ => ?_
    rw [← hframe x (by omega)]
    exact if_neg (by omega)
  by_cases hslen : slen = 0
  · subst hslen
    rfl
  · rw [if_pos ⟨given.resolve_right hslen, hslen⟩, hsalt]
    have hstore := Mem.bytes_store_behind m₀ l.U0 0 (m.bytes salt slen)
    rw [Nat.zero_add] at hstore
    exact hstore

/-- What `secure_pbkdf` computes, once its counter is wide enough for the blocks. -/
theorem securePbkdf_spec (hc : 1000 ≤ c) (hn : keylen / 16 + 1 < 2 ^ 32) (fuel : Nat) :
    (keylen / 16 < fuel →
      ∃ m', securePbkdf aes fuel m l password plen salt slen c key keylen = some m' ∧
        m'.bytes key keylen = (List.range keylen).map (rowByte (codeBlock
          (xcbcPrf aes (m.bytes password plen)) (m.bytes salt slen) c))) ∧
    (fuel ≤ keylen / 16 →
      securePbkdf aes fuel m l password plen salt slen c key keylen = none) := by
  obtain ⟨hst, hframe⟩ := aesXcbcPrfInit_eq aes m layout.passwordPrf
  have hsalt := salt_written layout hframe
  have hs : (m.bytes salt slen).length = slen := Mem.length_bytes m salt slen
  have hpos : 0 < c := by omega
  unfold securePbkdf
  dsimp only at hsalt ⊢
  rw [if_neg (by omega), hst]
  generalize (aesXcbcPrfInit aes m password plen l.prf).2 = m₁ at hsalt
  generalize (if salt ≠ 0 ∧ slen ≠ 0 then (m₁.fill l.U0 (slen + 4) 0).store l.U0
    ((m₁.fill l.U0 (slen + 4) 0).bytes salt slen) else m₁.fill l.U0 (slen + 4) 0) = m₂ at hsalt
  have start : Written (aesXcbcMacInit aes (prfKey aes (m.bytes password plen))) l (m.bytes salt slen)
      c key m₂ 0 := ⟨hsalt, fun k hk => absurd hk (Nat.not_lt_zero k)⟩
  obtain ⟨hdone, hnone⟩ := pbkdfLoop_spec hn (fun m j hj h => h.block layout hpos hs hj) fuel
    (Nat.zero_le _) start
  constructor
  · intro hfuel
    obtain ⟨m', hloop, written⟩ := hdone hfuel
    refine ⟨_, ?_, written.last layout hpos hs⟩
    exact congrArg (fun r => Option.bind r _) hloop
  · intro hfuel
    exact congrArg (fun r => Option.bind r _) (hnone hfuel)

end

theorem securePbkdf_forever (hn : 2 ^ 32 ≤ keylen / 16 + 1) (fuel : Nat) :
    securePbkdf aes fuel m l password plen salt slen c key keylen = none := by
  unfold securePbkdf
  dsimp only
  rw [pbkdfLoop_forever hn]
  rfl

/-- `secure_pbkdf` computes the key of RFC 2898 exactly when its counter is wide enough and, in every
byte of the key, the iterations from the second on add up to what a single block of zeros gives. -/
theorem securePbkdf_eq_pbkdf2_iff (layout : Layout l password plen salt slen key keylen)
    (hc : 1000 ≤ c) :
    (∃ fuel m', securePbkdf aes fuel m l password plen salt slen c key keylen = some m' ∧
      m'.bytes key keylen =
        pbkdf2 (xcbcPrf aes (m.bytes password plen)) (m.bytes salt slen) c keylen) ↔
      keylen / 16 + 1 < 2 ^ 32 ∧ ∀ k < keylen,
        rowByte (pbkdf2Tail (xcbcPrf aes (m.bytes password plen)) (m.bytes salt slen) c) k =
          rowByte (fun _ => codeTail (xcbcPrf aes (m.bytes password plen)) c) k := by
  generalize hprf : xcbcPrf aes (m.bytes password plen) = prf
  generalize hsalt : m.bytes salt slen = s
  -- both keys start from the same first block
  have hbyte : ∀ k, rowByte (codeBlock prf s c) k =
      rowByte (fun i => xorAll (pbkdf2U prf s i) c) k ↔
        rowByte (pbkdf2Tail prf s c) k = rowByte (fun _ => codeTail prf c) k := by
    intro k
    unfold rowByte
    dsimp only
    rw [pbkdf2_block prf s (Nat.lt_of_lt_of_le (by decide) hc)]
    unfold codeBlock xor128
    rw [BitVec.xor_right_inj]
    exact eq_comm
  have hkey : (List.range keylen).map (rowByte (codeBlock prf s c)) = pbkdf2 prf s c keylen ↔
      ∀ k < keylen, rowByte (pbkdf2Tail prf s c) k = rowByte (fun _ => codeTail prf c) k := by
    unfold pbkdf2
    rw [List.map_inj_left]
    simp only [List.mem_range, hbyte]
  have hspec := securePbkdf_spec aes m layout hc
  rw [hprf, hsalt] at hspec
  rw [← hkey]
  constructor
  · rintro ⟨fuel, m', hrun, hbytes⟩
    by_cases hn : keylen / 16 + 1 < 2 ^ 32
    · refine ⟨hn, ?_⟩
      obtain ⟨hdone, hnone⟩ := hspec hn fuel
      by_cases hfuel : keylen / 16 < fuel
      · obtain ⟨m'', hrun', hbytes'⟩ := hdone hfuel
        rw [hrun] at hrun'
        cases hrun'
        exact hbytes'.symm.trans hbytes
      · rw [hnone (by omega)] at hrun
        cases hrun
    · rw [securePbkdf_forever aes m (by omega)] at hrun
      cases hrun
  · rintro ⟨hn, hsame⟩
    obtain ⟨m', hrun, hbytes⟩ := (hspec hn (keylen / 16 + 1)).1 (Nat.lt_succ_self _)
    exact ⟨_, m', hrun, hbytes.trans hsame⟩

end Key

/-! ### A cipher that tells the difference -/

/-- A block function with two values, chosen by the first byte. -/
def twoValued (_key block : Block) : Block :=
  if block 0 = 0x02 then fun _ => 0x02 else fun _ => 0x05

/-- Addresses that are far apart. -/
def farFrame : PbkdfFrame := ⟨1000, 2000, 3000, 4000⟩

theorem farFrame_layout : Layout farFrame 100 0 0 0 5000 16 := by
  constructor <;> decide

theorem xorAll_const (b : Block) (n : Nat) : xorAll (fun _ => b) (2 * n) = zeroBlock := by
  induction n with
  | zero => rfl
  | succ n ih =>
    change xor128 (xor128 (xorAll (fun _ => b) (2 * n)) b) b = zeroBlock
    rw [ih, zero_xor128, xor128_self]

theorem pbkdf2U_const {prf : List Byte → Block} {salt : List Byte} {b : Block} (i : Nat)
    (first : ∀ j, prf (salt ++ htonl (BitVec.ofNat 32 i)) j = b j)
    (next : ∀ j, prf (List.ofFn b) j = b j) (n : Nat) : pbkdf2U prf salt i n = b := by
  induction n with
  | zero => exact funext first
  | succ n ih =>
    rw [pbkdf2U, ih]
    exact funext next

/-- A password and a salt of several bytes, and an odd number of iterations. -/
theorem securePbkdf_eq_pbkdf2_odd :
    ∃ fuel m', securePbkdf twoValued fuel (BitVec.ofNat 8) farFrame 100 2 200 3 1001 5000 16 =
        some m' ∧
      m'.bytes 5000 16 = pbkdf2 (xcbcPrf twoValued [100, 101]) [200, 201, 202] 1001 16 := by
  refine (securePbkdf_eq_pbkdf2_iff twoValued (BitVec.ofNat 8) (l := farFrame)
    (by constructor <;> decide) (by decide)).mpr ⟨by decide, fun k hk => ?_⟩
  have hconst := @pbkdf2U_const (xcbcPrf twoValued [100, 101]) [200, 201, 202] (fun _ => 0x05) 1
    (by decide) (by decide)
  have htail : pbkdf2Tail (xcbcPrf twoValued [100, 101]) [200, 201, 202] 1001 1 = zeroBlock := by
    unfold pbkdf2Tail
    simp only [hconst]
    exact xorAll_const _ 500
  unfold rowByte
  rw [show k / 16 + 1 = 1 by omega]
  exact congrFun htail _

/-- The empty password and the empty salt, 1000 iterations and one block: all `U_n` are the same, so
that they cancel out, but the code adds the function of zeros to the first of them. -/
theorem securePbkdf_wrong_key : Layout farFrame 100 0 0 0 5000 16 ∧
    ¬∃ fuel m', securePbkdf twoValued fuel (fun _ => 0) farFrame 100 0 0 0 1000 5000 16 = some m' ∧
      m'.bytes 5000 16 = pbkdf2 (xcbcPrf twoValued []) [] 1000 16 := by
  refine ⟨farFrame_layout, ?_⟩
  rintro ⟨fuel, m', hrun, hbytes⟩
  obtain ⟨hdone, hnone⟩ :=
    securePbkdf_spec twoValued (fun _ => 0) farFrame_layout (Nat.le_refl 1000) (by decide) fuel
  by_cases hfuel : 16 / 16 < fuel
  · obtain ⟨m'', hrun', hbytes'⟩ := hdone hfuel
    rw [hrun] at hrun'
    cases hrun'
    have hkey := hbytes'.symm.trans hbytes
    unfold pbkdf2 at hkey
    rw [List.map_inj_left] at hkey
    have hbyte := hkey 0 (List.mem_range.mpr (by decide))
    have hblock : xorAll (pbkdf2U (xcbcPrf twoValued []) [] 1) 1000 = zeroBlock := by
      rw [funext (pbkdf2U_const (b := fun _ => 0x05) 1 (by decide) (by decide))]
      exact xorAll_const _ 500
    change codeBlock (xcbcPrf twoValued []) [] 1000 1 0 =
      xorAll (pbkdf2U (xcbcPrf twoValued []) [] 1) 1000 0 at hbyte
    rw [hblock] at hbyte
    exact absurd hbyte (by decide)
  · rw [hnone (by omega)] at hrun
    cases hrun

end Coda.Secure
