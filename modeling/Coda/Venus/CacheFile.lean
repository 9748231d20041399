import Coda.Lib.Run
import Coda.Util.Bitmap7

/-!
Partially cached container files: the bookkeeping of `coda-src/venus/fso_cachefile.cc`.

A `CacheFile` knows its `length`, the amount of valid data and a bitmap with one bit
for each cache chunk block of `2 ^ bits` bytes (`CacheChunkBlockSizeBits`). `Truncate`
and `SetLength` recompute `validdata` from the number of set bits, `SetValidData`
adds to it block by block.

`SetLength` to a shorter length frees `ceil(length - newlen)` blocks from `floor(newlen)`
on, which can stop one block short of the old end.

The block counts stay below `2 ^ 32 / 2 ^ bits`, the size of the bitmap, so the 64-bit
and `int` arithmetic of the source does not wrap and is read as `Nat` here.
-/

namespace Coda.Venus

open Coda.Bitmap Coda.Lib Finset

/-! ### Blocks and bytes -/

section Blocks

variable (bits : Nat)

/-- `CacheChunkBlockSize`. -/
def cacheChunkBlockSize : Nat := 1 <<< bits

/-- `CacheChunkBlockSizeMax`. -/
def cacheChunkBlockSizeMax : Nat := cacheChunkBlockSize bits - 1

def ccblocksToBytes (ccblocks : Nat) : Nat := ccblocks <<< bits

def bytesToCcblocks (bytes : Nat) : Nat := bytes >>> bits

def bytesToCcblocksFloor (bytes : Nat) : Nat := bytesToCcblocks bits bytes

def bytesToCcblocksCeil (bytes : Nat) : Nat :=
  bytesToCcblocks bits (bytes + cacheChunkBlockSizeMax bits)

end Blocks

/-- The fields of `class CacheFile` that describe a partially cached file. -/
structure CacheFile where
  length : Nat
  validdata : Nat
  cachedChunks : Bitmap7
deriving DecidableEq, Repr

section Operations

variable (bits : Nat)

/-- `CacheFile::Create`. -/
def create (c : CacheFile) (newlength : Nat) : Option CacheFile := do
  let chunks ← freeRange c.cachedChunks 0 (-1)
  return { length := newlength, validdata := 0, cachedChunks := chunks }

/-- `CacheFile::UpdateValidData`. -/
def updateValidData (c : CacheFile) : CacheFile :=
  let lengthCb := bytesToCcblocksCeil bits c.length
  let validdata := ccblocksToBytes bits (count c.cachedChunks)
  if lengthCb ≠ 0 ∧ value c.cachedChunks (lengthCb - 1) ≠ 0 then
    { c with validdata := validdata - (ccblocksToBytes bits lengthCb - c.length) }
  else
    { c with validdata := validdata }

/-- `CacheFile::Truncate`, without the zeroing of the released data area. -/
def truncate (c : CacheFile) (newlen : Nat) : Option CacheFile :=
  if c.length = newlen then some c
  else do
    let chunks ←
      if newlen < c.length then
        freeRange c.cachedChunks (bytesToCcblocksCeil bits newlen)
          (bytesToCcblocksCeil bits c.length - bytesToCcblocksCeil bits newlen : Nat)
      else some c.cachedChunks
    return updateValidData bits { c with length := newlen, cachedChunks := chunks }

/-- `CacheFile::SetLength`. -/
def setLength (c : CacheFile) (newlen : Nat) : Option CacheFile :=
  if c.length = newlen then some c
  else do
    let chunks ←
      if newlen < c.length then
        freeRange c.cachedChunks (bytesToCcblocksFloor bits newlen)
          (bytesToCcblocksCeil bits (c.length - newlen) : Nat)
      else some c.cachedChunks
    return updateValidData bits { c with length := newlen, cachedChunks := chunks }

/-- One round of the loop in `SetValidData`: account for a full block. -/
def markBlock (acc : Bitmap7 × Nat) (i : Nat) : Option (Bitmap7 × Nat) :=
  if value acc.1 i ≠ 0 then some acc
  else do
    let chunks ← setIndex acc.1 i
    return (chunks, acc.2 + cacheChunkBlockSize bits)

/-- `CacheFile::SetValidData(start, len)`. -/
def setValidData (c : CacheFile) (start : Nat) (len : Int) : Option CacheFile :=
  if ¬ start ≤ c.length then none
  else
    let len := if len < 0 then c.length - start else len.toNat
    if ¬ start + len ≤ c.length then none
    else if len = 0 then some c
    else do
      let startCb := bytesToCcblocksCeil bits start
      let endCb := bytesToCcblocksFloor bits (start + len)
      let lengthCb := bytesToCcblocksCeil bits c.length
      let acc ← (List.range' startCb (endCb - startCb)).foldlM (markBlock bits)
        (c.cachedChunks, 0)
      if ¬ 0 < lengthCb then none
      -- End of file? The last block is allowed to not be full.
      else if start + len = c.length ∧ value acc.1 (lengthCb - 1) = 0 then do
        let chunks ← setIndex acc.1 (lengthCb - 1)
        let tail := c.length - ccblocksToBytes bits (lengthCb - 1)
        return { c with validdata := c.validdata + (acc.2 + tail), cachedChunks := chunks }
      else
        return { c with validdata := c.validdata + acc.2, cachedChunks := acc.1 }

/-- `CacheFile::IsComplete`. -/
def isComplete (c : CacheFile) : Bool := c.length = c.validdata

end Operations

/-! ### Block arithmetic -/

section Arithmetic

variable {bits : Nat}

theorem blockSize_pos (bits : Nat) : 0 < 2 ^ bits := Nat.two_pow_pos bits

@[simp] theorem cacheChunkBlockSize_eq (bits : Nat) : cacheChunkBlockSize bits = 2 ^ bits := by
  rw [cacheChunkBlockSize, Nat.shiftLeft_eq, one_mul]

@[simp] theorem ccblocksToBytes_eq (bits n : Nat) : ccblocksToBytes bits n = n * 2 ^ bits :=
  Nat.shiftLeft_eq n bits

@[simp] theorem bytesToCcblocksFloor_eq (bits n : Nat) :
    bytesToCcblocksFloor bits n = n / 2 ^ bits :=
  Nat.shiftRight_eq_div_pow n bits

theorem bytesToCcblocksCeil_le_iff {n k : Nat} :
    bytesToCcblocksCeil bits n ≤ k ↔ n ≤ k * 2 ^ bits := by
  have hceil : bytesToCcblocksCeil bits n = n ⌈/⌉ 2 ^ bits := by
    have hpos := blockSize_pos bits
    rw [bytesToCcblocksCeil, bytesToCcblocks, Nat.shiftRight_eq_div_pow,
      Nat.ceilDiv_eq_add_pred_div, cacheChunkBlockSizeMax, cacheChunkBlockSize_eq]
    congr 1
    omega
  rw [hceil, ceilDiv_le_iff_le_mul (blockSize_pos bits), mul_comm]

theorem lt_bytesToCcblocksCeil_iff {n k : Nat} :
    k < bytesToCcblocksCeil bits n ↔ k * 2 ^ bits < n := by
  rw [← not_le, bytesToCcblocksCeil_le_iff, not_le]

theorem bytesToCcblocksCeil_mono {m n : Nat} (h : m ≤ n) :
    bytesToCcblocksCeil bits m ≤ bytesToCcblocksCeil bits n :=
  bytesToCcblocksCeil_le_iff.mpr (h.trans (bytesToCcblocksCeil_le_iff.mp le_rfl))

/-- The bytes of block `i` that lie inside a file of the given length. -/
def blockBytes (bits length i : Nat) : Nat := min (2 ^ bits) (length - i * 2 ^ bits)

theorem blockBytes_full {length i : Nat} (h : (i + 1) * 2 ^ bits ≤ length) :
    blockBytes bits length i = 2 ^ bits := by
  rw [add_mul] at h
  exact min_eq_left (by omega)

theorem blockBytes_pos {length i : Nat} (h : i < bytesToCcblocksCeil bits length) :
    0 < blockBytes bits length i := by
  have := lt_bytesToCcblocksCeil_iff.mp h
  exact lt_min (blockSize_pos bits) (by omega)

/-- The last block is short by what the blocks exceed the file. -/
theorem blockBytes_last {length n : Nat} (h : bytesToCcblocksCeil bits length = n + 1) :
    blockBytes bits length n = length - n * 2 ^ bits ∧
      blockBytes bits length n + ((n + 1) * 2 ^ bits - length) = 2 ^ bits := by
  have hlo : n * 2 ^ bits < length := lt_bytesToCcblocksCeil_iff.mp (by omega)
  have hhi : length ≤ (n + 1) * 2 ^ bits := bytesToCcblocksCeil_le_iff.mp h.le
  rw [add_mul] at hhi ⊢
  have hmin : blockBytes bits length n = length - n * 2 ^ bits := min_eq_right (by omega)
  exact ⟨hmin, by rw [hmin]; omega⟩

/-- Whole blocks, less the part of the last block beyond the end of the file. -/
theorem sum_blockBytes {length : Nat} {s : Finset Nat}
    (hs : ∀ i ∈ s, i < bytesToCcblocksCeil bits length) :
    (∑ i ∈ s, blockBytes bits length i) +
      (if bytesToCcblocksCeil bits length - 1 ∈ s then
        bytesToCcblocksCeil bits length * 2 ^ bits - length else 0) = s.card * 2 ^ bits := by
  cases hn : bytesToCcblocksCeil bits length with
  | zero =>
    have : s = ∅ := eq_empty_of_forall_notMem fun i hi => by
      have := hs i hi
      omega
    simp [this]
  | succ n =>
    have hsum : ∀ i ∈ s, blockBytes bits length i +
        (if n = i then (n + 1) * 2 ^ bits - length else 0) = 2 ^ bits := by
      intro i hi
      have hin := hs i hi
      by_cases he : n = i
      · subst he
        rw [if_pos rfl]
        exact (blockBytes_last hn).2
      · rw [if_neg he]
        refine blockBytes_full (le_of_lt (lt_bytesToCcblocksCeil_iff.mp ?_))
        omega
    have htotal := sum_congr rfl hsum
    rw [sum_add_distrib, sum_ite_eq, sum_const] at htotal
    exact htotal

theorem sum_range_blockBytes (length : Nat) :
    ∑ i ∈ Finset.range (bytesToCcblocksCeil bits length), blockBytes bits length i = length := by
  have h := @sum_blockBytes bits length (Finset.range (bytesToCcblocksCeil bits length))
    fun i hi => mem_range.mp hi
  have hle : length ≤ bytesToCcblocksCeil bits length * 2 ^ bits :=
    bytesToCcblocksCeil_le_iff.mp le_rfl
  rw [card_range] at h
  cases hn : bytesToCcblocksCeil bits length with
  | zero =>
    rw [hn] at hle
    simp only [range_zero, sum_empty]
    omega
  | succ n =>
    rw [hn] at h hle
    rw [if_pos (mem_range.mpr (by omega))] at h
    omega

end Arithmetic

/-! ### Consistency of `length`, `validdata` and the bitmap -/

/-- What `validdata` and the bitmap owe each other: nothing is marked beyond the file,
`validdata` is the number of file bytes in marked blocks, and therefore a file is
complete exactly when every one of its blocks is marked. -/
structure Consistent (bits : Nat) (c : CacheFile) : Prop where
  beyond : ∀ i, bytesToCcblocksCeil bits c.length ≤ i → c.cachedChunks.bit i = false
  validdata : c.validdata = ∑ i ∈ c.cachedChunks.marked, min (2 ^ bits) (c.length - i * 2 ^ bits)
  bound : c.validdata ≤ c.length
  complete : isComplete c = true ↔
    ∀ i < bytesToCcblocksCeil bits c.length, c.cachedChunks.bit i = true

theorem Consistent.of_sum {bits : Nat} {c : CacheFile}
    (beyond : ∀ i, bytesToCcblocksCeil bits c.length ≤ i → c.cachedChunks.bit i = false)
    (sum : c.validdata = ∑ i ∈ c.cachedChunks.marked, blockBytes bits c.length i) :
    Consistent bits c := by
  have sub : c.cachedChunks.marked ⊆ Finset.range (bytesToCcblocksCeil bits c.length) := by
    intro i hi
    by_contra hout
    have := beyond i (by simpa using hout)
    rw [mem_marked.mp hi] at this
    cases this
  have total := @sum_range_blockBytes bits c.length
  have le : c.validdata ≤ c.length := by
    rw [sum]
    exact (sum_le_sum_of_subset sub).trans total.le
  refine ⟨beyond, sum, le, ?_⟩
  rw [isComplete, decide_eq_true_iff]
  constructor
  · intro hfull i hi
    by_contra hclear
    -- A block left out makes the sum strictly smaller than the file.
    have hlt := sum_lt_sum_of_subset sub (mem_range.mpr hi)
      (fun h => hclear (mem_marked.mp h)) (blockBytes_pos hi) fun j _ _ => Nat.zero_le _
    rw [total, ← sum, ← hfull] at hlt
    exact lt_irrefl _ hlt
  · intro hall
    have heq : c.cachedChunks.marked = Finset.range (bytesToCcblocksCeil bits c.length) :=
      Finset.Subset.antisymm sub fun i hi => mem_marked.mpr (hall i (mem_range.mp hi))
    rw [sum, heq, total]

/-- The file fits the bitmap, which was allocated for `cap` blocks. -/
structure Fits (bits cap : Nat) (c : CacheFile) : Prop where
  indexsize : c.cachedChunks.indexsize = cap
  allocated : cap ≤ 8 * c.cachedChunks.mapsize
  capacity : bytesToCcblocksCeil bits c.length ≤ cap
  outside : ∀ i, cap ≤ i → c.cachedChunks.bit i = false

theorem updateValidData_fields (bits : Nat) (c : CacheFile) :
    (updateValidData bits c).length = c.length ∧
      (updateValidData bits c).cachedChunks = c.cachedChunks := by
  unfold updateValidData
  dsimp only
  split <;> exact ⟨rfl, rfl⟩

/-- Recomputing `validdata` is right as soon as no bit beyond the file is set. -/
theorem updateValidData_consistent {bits cap : Nat} {c : CacheFile} (fits : Fits bits cap c)
    (beyond : ∀ i, bytesToCcblocksCeil bits c.length ≤ i → c.cachedChunks.bit i = false) :
    Consistent bits (updateValidData bits c) := by
  obtain ⟨hlen, hchunks⟩ := updateValidData_fields bits c
  refine .of_sum (by rw [hlen, hchunks]; exact beyond) ?_
  have hs : ∀ i ∈ c.cachedChunks.marked, i < bytesToCcblocksCeil bits c.length := by
    intro i hi
    by_contra hout
    have := beyond i (by omega)
    rw [mem_marked.mp hi] at this
    cases this
  have sum := sum_blockBytes hs
  unfold updateValidData
  rw [count_eq_card]
  simp only [ccblocksToBytes_eq]
  cases hn : bytesToCcblocksCeil bits c.length with
  | zero =>
    have hempty : c.cachedChunks.marked = ∅ :=
      eq_empty_of_forall_notMem fun i hi => by have := hs i hi; omega
    rw [if_neg (by simp), hempty]
    simp
  | succ n =>
    have hcap := fits.capacity
    have halloc := fits.allocated
    have hvalue : value c.cachedChunks (n + 1 - 1) ≠ 0 ↔ n ∈ c.cachedChunks.marked := by
      rw [value_ne_zero_iff (by omega), mem_marked]
      rfl
    rw [hn] at sum
    by_cases hlast : n ∈ c.cachedChunks.marked
    · rw [if_pos ⟨by omega, hvalue.mpr hlast⟩]
      rw [if_pos (by simpa using hlast)] at sum
      simp only
      omega
    · rw [if_neg fun h => hlast (hvalue.mp h.2)]
      rw [if_neg (by simpa using hlast)] at sum
      exact sum.symm

/-! ### `Create`, `Truncate` and `SetLength` -/

section Lengths

variable {bits cap : Nat} {c : CacheFile}

/-- Freeing the blocks `[start, start + len)` and giving the file a new length. -/
theorem freeRange_spec (fits : Fits bits cap c) (newlen start len : Nat)
    (hlen : bytesToCcblocksCeil bits newlen ≤ cap) (hstop : start + len ≤ cap) :
    ∃ chunks, freeRange c.cachedChunks start (len : Int) = some chunks ∧
      Fits bits cap { c with length := newlen, cachedChunks := chunks } ∧
      Patched c.cachedChunks chunks (fun _ => false) start (start + len) := by
  have hend : endBit c.cachedChunks.indexsize start (len : Int) = start + len := by
    simp [endBit]
  obtain ⟨chunks, run, patched⟩ := setRangeValue_spec start (len : Int) false
    (by rw [hend]; exact hstop.trans fits.allocated)
  refine ⟨chunks, run, ⟨patched.indexsize.trans fits.indexsize, ?_, hlen, fun i hi => ?_⟩,
    patched⟩
  · exact fits.allocated.trans_eq (by rw [← patched.mapsize])
  · rw [patched.bit, fits.outside i hi]
    split_ifs <;> rfl

/-- `Create` leaves a file of the new length with nothing marked. -/
structure Created (c c' : CacheFile) (newlength : Nat) : Prop where
  length : c'.length = newlength
  mapsize : c'.cachedChunks.mapsize = c.cachedChunks.mapsize
  bit : ∀ i, c'.cachedChunks.bit i = false

theorem create_spec (fits : Fits bits cap c) {newlength : Nat}
    (h : bytesToCcblocksCeil bits newlength ≤ cap) :
    ∃ c', create c newlength = some c' ∧ Fits bits cap c' ∧ Consistent bits c' ∧
      Created c c' newlength := by
  have hend : freeRange c.cachedChunks 0 (-1) = freeRange c.cachedChunks 0 (cap : Int) := by
    simp [freeRange, setRangeValue, endBit, fits.indexsize]
  obtain ⟨chunks, run, fits', patched⟩ := freeRange_spec fits newlength 0 cap h (by omega)
  have none_set : ∀ i, chunks.bit i = false := by
    intro i
    rw [patched.bit]
    split_ifs with hi
    · rfl
    · exact fits.outside i (by omega)
  refine ⟨⟨newlength, 0, chunks⟩, by simp [create, hend, run], ?_, .of_sum ?_ ?_,
    ⟨rfl, patched.mapsize, none_set⟩⟩
  · exact ⟨fits'.indexsize, fits'.allocated, h, fits'.outside⟩
  · exact fun i _ => none_set i
  · have : chunks.marked = ∅ := eq_empty_of_forall_notMem fun i hi => by
      have := mem_marked.mp hi
      rw [none_set i] at this
      cases this
    simp [this]

theorem Fits.updateValidData (fits : Fits bits cap c) :
    Fits bits cap (updateValidData bits c) := by
  obtain ⟨hlen, hchunks⟩ := updateValidData_fields bits c
  refine ⟨?_, ?_, ?_, ?_⟩
  · rw [hchunks]; exact fits.indexsize
  · rw [hchunks]; exact fits.allocated
  · rw [hlen]; exact fits.capacity
  · rw [hchunks]; exact fits.outside

/-- `Truncate` clears the blocks between the new and the old end. -/
structure Truncated (bits : Nat) (c c' : CacheFile) (newlen : Nat) : Prop where
  length : c'.length = newlen
  patched : Patched c.cachedChunks c'.cachedChunks (fun _ => false)
    (bytesToCcblocksCeil bits newlen) (bytesToCcblocksCeil bits c.length)

theorem truncate_spec (fits : Fits bits cap c) {newlen : Nat}
    (h : bytesToCcblocksCeil bits newlen ≤ cap) :
    ∃ c', truncate bits c newlen = some c' ∧ Fits bits cap c' ∧ Truncated bits c c' newlen ∧
      (Consistent bits c → Consistent bits c') := by
  unfold truncate
  by_cases heq : c.length = newlen
  · exact ⟨c, if_pos heq, fits, ⟨heq, .empty _ _ (by rw [heq])⟩, id⟩
  rw [if_neg heq]
  by_cases hlt : newlen < c.length
  · have hmono : bytesToCcblocksCeil bits newlen ≤ bytesToCcblocksCeil bits c.length :=
      bytesToCcblocksCeil_mono hlt.le
    obtain ⟨chunks, run, fits', patched⟩ := freeRange_spec fits newlen
      (bytesToCcblocksCeil bits newlen)
      (bytesToCcblocksCeil bits c.length - bytesToCcblocksCeil bits newlen) h
      (by have := fits.capacity; omega)
    rw [Nat.add_sub_cancel' hmono] at patched
    obtain ⟨hlen', hchunks'⟩ :=
      updateValidData_fields bits { c with length := newlen, cachedChunks := chunks }
    refine ⟨_, by rw [if_pos hlt, run]; rfl, fits'.updateValidData,
      ⟨hlen', by rw [hchunks']; exact patched⟩, fun old => ?_⟩
    refine updateValidData_consistent fits' fun i hi => ?_
    rw [patched.bit]
    split_ifs with hr
    · rfl
    · exact old.beyond i (by change bytesToCcblocksCeil bits newlen ≤ i at hi; omega)
  · have hmono : bytesToCcblocksCeil bits c.length ≤ bytesToCcblocksCeil bits newlen :=
      bytesToCcblocksCeil_mono (Nat.le_of_not_lt hlt)
    have fits' : Fits bits cap { c with length := newlen } :=
      ⟨fits.indexsize, fits.allocated, h, fits.outside⟩
    obtain ⟨hlen', hchunks'⟩ := updateValidData_fields bits { c with length := newlen }
    refine ⟨_, by rw [if_neg hlt]; rfl, fits'.updateValidData,
      ⟨hlen', by rw [hchunks']; exact .empty _ _ hmono⟩, fun old => ?_⟩
    exact updateValidData_consistent fits' fun i hi => old.beyond i (hmono.trans hi)

/-- The old last block survives a shortening `SetLength` exactly when it holds no more
file bytes than the new length has beyond its last whole block. -/
def SetLengthMet (bits : Nat) (c : CacheFile) (newlen : Nat) : Prop :=
  newlen < c.length →
    c.cachedChunks.bit (bytesToCcblocksCeil bits c.length - 1) = true →
      newlen % 2 ^ bits < c.length - (bytesToCcblocksCeil bits c.length - 1) * 2 ^ bits

/-- `SetLength` frees block `i` exactly when it lies in the new last block or after it
and starts `newlen % 2 ^ bits` bytes or more before the old end. -/
theorem setLength_freed_iff {newlen i : Nat} (hlt : newlen < c.length) :
    (newlen / 2 ^ bits ≤ i ∧
      i < newlen / 2 ^ bits + bytesToCcblocksCeil bits (c.length - newlen)) ↔
      newlen / 2 ^ bits ≤ i ∧ i * 2 ^ bits + newlen % 2 ^ bits < c.length := by
  refine and_congr_right fun hlo => ?_
  have hsub : i < newlen / 2 ^ bits + bytesToCcblocksCeil bits (c.length - newlen) ↔
      i - newlen / 2 ^ bits < bytesToCcblocksCeil bits (c.length - newlen) := by omega
  rw [hsub, lt_bytesToCcblocksCeil_iff, Nat.sub_mul]
  have hdm := Nat.div_add_mod' newlen (2 ^ bits)
  omega

theorem setLength_spec (fits : Fits bits cap c) {newlen : Nat}
    (h : bytesToCcblocksCeil bits newlen ≤ cap) :
    ∃ c', setLength bits c newlen = some c' ∧ Fits bits cap c' ∧
      (Consistent bits c → (Consistent bits c' ↔ SetLengthMet bits c newlen)) := by
  unfold setLength
  by_cases heq : c.length = newlen
  · refine ⟨c, if_pos heq, fits, fun old => ⟨fun _ hlt => ?_, fun _ => old⟩⟩
    omega
  rw [if_neg heq]
  by_cases hlt : newlen < c.length
  · have hpos := blockSize_pos bits
    -- The freed range ends no later than the old end of the file.
    have hstop : newlen / 2 ^ bits + bytesToCcblocksCeil bits (c.length - newlen) ≤ cap := by
      by_contra hgt
      have hlast := (@setLength_freed_iff bits c newlen
        (newlen / 2 ^ bits + bytesToCcblocksCeil bits (c.length - newlen) - 1) hlt).mp
        ⟨by
          have : 0 < bytesToCcblocksCeil bits (c.length - newlen) :=
            lt_bytesToCcblocksCeil_iff.mpr (by omega)
          omega, by omega⟩
      have := @lt_bytesToCcblocksCeil_iff bits c.length
        (newlen / 2 ^ bits + bytesToCcblocksCeil bits (c.length - newlen) - 1)
      have := fits.capacity
      omega
    obtain ⟨chunks, run, fits', patched⟩ := freeRange_spec fits newlen (newlen / 2 ^ bits)
      (bytesToCcblocksCeil bits (c.length - newlen)) h hstop
    refine ⟨_, by rw [if_pos hlt, bytesToCcblocksFloor_eq, run]; rfl,
      fits'.updateValidData, fun old => ?_⟩
    obtain ⟨hlen', hchunks'⟩ :=
      updateValidData_fields bits { c with length := newlen, cachedChunks := chunks }
    constructor
    · -- The old last block starts at or after the new end, so it may not stay marked.
      intro new _ hbit
      by_contra hge
      have hbeyond := new.beyond (bytesToCcblocksCeil bits c.length - 1)
      rw [hlen', hchunks'] at hbeyond
      have hout : newlen ≤ (bytesToCcblocksCeil bits c.length - 1) * 2 ^ bits := by
        have hdm := Nat.div_add_mod' newlen (2 ^ bits)
        by_contra hin
        -- Otherwise `newlen` lies in the old last block, whose bytes it cannot exceed.
        have hq : newlen / 2 ^ bits = bytesToCcblocksCeil bits c.length - 1 := by
          refine Nat.div_eq_of_lt_le (by omega) ?_
          have hceil : c.length ≤ bytesToCcblocksCeil bits c.length * 2 ^ bits :=
            bytesToCcblocksCeil_le_iff.mp le_rfl
          have hone : 1 ≤ bytesToCcblocksCeil bits c.length :=
            lt_bytesToCcblocksCeil_iff.mpr (by omega)
          rw [Nat.sub_add_cancel hone]
          omega
        rw [hq] at hdm
        omega
      rw [patched.bit, if_neg, hbit] at hbeyond
      · exact absurd (hbeyond (bytesToCcblocksCeil_le_iff.mpr hout)) (by simp)
      · rw [setLength_freed_iff hlt]
        omega
    · intro met
      refine updateValidData_consistent fits' fun i hi => ?_
      simp only [patched.bit, setLength_freed_iff hlt]
      split_ifs with hfreed
      · rfl
      · by_cases hold : bytesToCcblocksCeil bits c.length ≤ i
        · exact old.beyond i hold
        · -- `i` is not freed but lies in the old file: it is the old last block.
          have hi' := bytesToCcblocksCeil_le_iff.mp hi
          have hquot : newlen / 2 ^ bits ≤ i := Nat.div_le_of_le_mul (by rwa [mul_comm])
          have hlast : i = bytesToCcblocksCeil bits c.length - 1 := by
            have hnext : bytesToCcblocksCeil bits c.length ≤ i + 1 :=
              bytesToCcblocksCeil_le_iff.mpr (by rw [add_mul]; omega)
            omega
          by_contra hbit
          have := met hlt (by rw [← hlast]; simpa using hbit)
          rw [← hlast] at this
          omega
  · have fits' : Fits bits cap { c with length := newlen } :=
      ⟨fits.indexsize, fits.allocated, h, fits.outside⟩
    refine ⟨_, by rw [if_neg hlt]; rfl, fits'.updateValidData, fun old => ?_⟩
    refine ⟨fun _ hlt' => absurd hlt' hlt, fun _ => ?_⟩
    refine updateValidData_consistent fits' fun i hi => old.beyond i ?_
    exact (bytesToCcblocksCeil_mono (Nat.le_of_not_lt hlt)).trans hi

end Lengths

/-! ### `SetValidData` -/

section Marking

variable {bits cap : Nat} {c : CacheFile}

/-- The marking loop marks every block of the range and counts the bytes of the blocks
that were not marked before; all of them are whole blocks of the file. -/
theorem markLoop_spec {length n : Nat} (start : Nat) (acc : Bitmap7 × Nat)
    (full : (start + n) * 2 ^ bits ≤ length) (inside : start + n ≤ 8 * acc.1.mapsize) :
    ∃ acc', (List.range' start n).foldlM (markBlock bits) acc = some acc' ∧
      acc'.1.indexsize = acc.1.indexsize ∧ acc'.1.mapsize = acc.1.mapsize ∧
      acc'.1.marked = acc.1.marked ∪ Finset.Ico start (start + n) ∧
      (∑ i ∈ acc'.1.marked, blockBytes bits length i) + acc.2 =
        (∑ i ∈ acc.1.marked, blockBytes bits length i) + acc'.2 := by
  induction n generalizing start acc with
  | zero => exact ⟨acc, rfl, rfl, rfl, by simp, rfl⟩
  | succ n ih =>
    have hvalue := @value_ne_zero_iff acc.1 start (by omega)
    have hico : Finset.Ico start (start + (n + 1)) =
        insert start (Finset.Ico (start + 1) (start + 1 + n)) := by
      ext k
      simp only [mem_insert, mem_Ico]
      omega
    rw [List.range'_succ, List.foldlM_cons, markBlock]
    by_cases hset : value acc.1 start ≠ 0
    · rw [if_pos hset]
      obtain ⟨acc', run, hi, hm, hmarked, hsum⟩ := ih (start + 1) acc
        (by rwa [add_right_comm]) (by omega)
      refine ⟨acc', run, hi, hm, ?_, hsum⟩
      rw [hmarked, hico, union_insert,
        insert_eq_of_mem (mem_union_left _ (mem_marked.mpr (hvalue.mp hset)))]
    · rw [if_neg hset]
      obtain ⟨b', runSet, hi', hm', hmarked'⟩ := @setIndex_spec acc.1 start (by omega)
      rw [runSet]
      obtain ⟨acc', run, hi, hm, hmarked, hsum⟩ := ih (start + 1)
        (b', acc.2 + cacheChunkBlockSize bits) (by rwa [add_right_comm])
        (by rw [hm']; omega)
      refine ⟨acc', run, hi.trans hi', hm.trans hm', ?_, ?_⟩
      · rw [hmarked, hmarked', hico, union_insert, insert_union]
      · have hnot : start ∉ acc.1.marked := fun hmem => hset (hvalue.mpr (mem_marked.mp hmem))
        have hblock : blockBytes bits length start = 2 ^ bits := by
          refine blockBytes_full (le_trans ?_ full)
          exact Nat.mul_le_mul_right _ (by omega)
        rw [hmarked', sum_insert hnot, cacheChunkBlockSize_eq] at hsum
        omega

theorem setValidData_spec (fits : Fits bits cap c) {start : Nat} {len : Int} {c' : CacheFile}
    (run : setValidData bits c start len = some c') :
    Fits bits cap c' ∧ (Consistent bits c → Consistent bits c') := by
  unfold setValidData at run
  generalize hL : (if len < 0 then c.length - start else len.toNat) = L at run
  by_cases hstart : ¬ start ≤ c.length
  · simp [hstart] at run
  by_cases hend : ¬ start + L ≤ c.length
  · simp [hend] at run
  by_cases hzero : L = 0
  · have same : c = c' := by simpa [hstart, hend, hzero] using run
    subst same
    exact ⟨fits, id⟩
  simp only [hstart, hend, hzero] at run
  have hcap := fits.capacity
  have halloc := fits.allocated
  have hpos : 0 < bytesToCcblocksCeil bits c.length := lt_bytesToCcblocksCeil_iff.mpr (by omega)
  set startCb := bytesToCcblocksCeil bits start
  set lengthCb := bytesToCcblocksCeil bits c.length with hlengthCb
  -- Every block of the loop lies whole inside the requested range.
  generalize hn : bytesToCcblocksFloor bits (start + L) - startCb = n at run
  have hfull : 0 < n → (startCb + n) * 2 ^ bits ≤ c.length := by
    intro hn0
    have hfloor := Nat.div_mul_le_self (start + L) (2 ^ bits)
    rw [← bytesToCcblocksFloor_eq] at hfloor
    have : startCb + n = bytesToCcblocksFloor bits (start + L) := by omega
    rw [this]
    omega
  have hbelow : ∀ i ∈ Finset.Ico startCb (startCb + n), i < lengthCb := by
    intro i hi
    rw [mem_Ico] at hi
    refine lt_bytesToCcblocksCeil_iff.mpr (lt_of_lt_of_le ?_ (hfull (by omega)))
    exact Nat.mul_lt_mul_of_pos_right (by omega) (blockSize_pos bits)
  obtain ⟨acc, runLoop, hi, hm, hmarked, hsum⟩ :
      ∃ acc : Bitmap7 × Nat,
      (List.range' startCb n).foldlM (markBlock bits) (c.cachedChunks, 0) = some acc ∧
      acc.1.indexsize = c.cachedChunks.indexsize ∧ acc.1.mapsize = c.cachedChunks.mapsize ∧
      acc.1.marked = c.cachedChunks.marked ∪ Finset.Ico startCb (startCb + n) ∧
      (∑ i ∈ acc.1.marked, blockBytes bits c.length i) =
        (∑ i ∈ c.cachedChunks.marked, blockBytes bits c.length i) + acc.2 := by
    cases n with
    | zero => exact ⟨(c.cachedChunks, 0), rfl, rfl, rfl, by simp, rfl⟩
    | succ n =>
      have hlast := hbelow (startCb + n) (by simp)
      exact markLoop_spec startCb (c.cachedChunks, 0) (hfull (by omega)) (by simp only; omega)
  rw [runLoop] at run
  -- Whatever else is marked lies below the end of the file as well.
  have finish : ∀ {b : Bitmap7} {total : Nat}, b.indexsize = c.cachedChunks.indexsize →
      b.mapsize = c.cachedChunks.mapsize →
      (∀ i ∈ b.marked, i ∈ c.cachedChunks.marked ∨ i < lengthCb) →
      (∑ i ∈ b.marked, blockBytes bits c.length i) =
        (∑ i ∈ c.cachedChunks.marked, blockBytes bits c.length i) + total →
      Fits bits cap { c with validdata := c.validdata + total, cachedChunks := b } ∧
        (Consistent bits c →
          Consistent bits { c with validdata := c.validdata + total, cachedChunks := b }) := by
    intro b total hi hm hsub htotal
    have clear : ∀ i, lengthCb ≤ i → c.cachedChunks.bit i = false →
        b.bit i = false := by
      intro i hge hold
      by_contra hbit
      rcases hsub i (mem_marked.mpr (by simpa using hbit)) with hmem | hlt
      · rw [mem_marked.mp hmem] at hold
        cases hold
      · omega
    refine ⟨⟨hi.trans fits.indexsize, by rw [hm]; exact halloc, hcap, fun i hge => ?_⟩,
      fun old => .of_sum (fun i hge => clear i hge (old.beyond i hge)) ?_⟩
    · exact clear i (by omega) (fits.outside i hge)
    · change c.validdata + total = _
      rw [htotal, old.validdata]
      rfl
  have hloop : ∀ i ∈ acc.1.marked, i ∈ c.cachedChunks.marked ∨ i < lengthCb := by
    intro i hmem
    rw [hmarked, mem_union] at hmem
    exact hmem.imp id (hbelow i)
  simp only [Option.bind_eq_bind, Option.bind_some, hpos, not_true_eq_false, if_false] at run
  split at run
  · rename_i htail
    obtain ⟨b', runSet, hi', hm', hmarked'⟩ :=
      @setIndex_spec acc.1 (lengthCb - 1) (by rw [hm]; omega)
    rw [runSet] at run
    simp only [Option.bind_some, Option.pure_def, Option.some.injEq] at run
    subst run
    refine finish (hi'.trans hi) (hm'.trans hm) ?_ ?_
    · intro i hmem
      rw [hmarked', mem_insert] at hmem
      rcases hmem with rfl | hmem
      · exact .inr (by omega)
      · exact hloop i hmem
    · have hnot : lengthCb - 1 ∉ acc.1.marked := by
        intro hmem
        exact (value_ne_zero_iff (by rw [hm]; omega)).mpr (mem_marked.mp hmem) htail.2
      have hlast := (@blockBytes_last bits c.length (lengthCb - 1) (by omega)).1
      rw [hmarked', sum_insert hnot, ccblocksToBytes_eq]
      omega
  · simp only [Option.pure_def, Option.some.injEq] at run
    subst run
    exact finish hi hm hloop hsum

end Marking

/-! ### Every sequence of calls -/

inductive Op where
  | create (newlength : Nat)
  | truncate (newlen : Nat)
  | setLength (newlen : Nat)
  | setValidData (start : Nat) (len : Int)
deriving DecidableEq, Repr

/-- One call; `none` is a failed `CODA_ASSERT`. -/
def step (bits : Nat) (c : CacheFile) : Op → Option CacheFile
  | .create n => create c n
  | .truncate n => truncate bits c n
  | .setLength n => setLength bits c n
  | .setValidData start len => setValidData bits c start len

/-- The length a call asks for is at most the capacity of a bitmap of `cap` blocks. -/
def Op.Valid (bits cap : Nat) : Op → Prop
  | .create n | .truncate n | .setLength n => n ≤ ccblocksToBytes bits cap
  | .setValidData _ _ => True

/-- `CacheFile::CacheFile` of a partial file. -/
def cacheFile (cap : Nat) : CacheFile where
  length := 0
  validdata := 0
  cachedChunks := bitmap7 cap

/-- Only a shortening `SetLength` is restricted. -/
def Met (bits : Nat) (c : CacheFile) : Op → Prop
  | .setLength newlen => SetLengthMet bits c newlen
  | .create _ | .truncate _ | .setValidData _ _ => True

theorem cacheFile_fits (bits cap : Nat) : Fits bits cap (cacheFile cap) where
  indexsize := rfl
  allocated := by
    simp only [cacheFile, bitmap7, Bitmap7.mapsize, List.length_replicate,
      Nat.shiftRight_eq_div_pow]
    omega
  capacity := bytesToCcblocksCeil_le_iff.mpr (Nat.zero_le _)
  outside i _ := bit_bitmap7 cap i

section Steps

variable {bits cap : Nat} {c : CacheFile}

theorem capacity_of_valid {n : Nat} (h : n ≤ ccblocksToBytes bits cap) :
    bytesToCcblocksCeil bits n ≤ cap := by
  rw [ccblocksToBytes_eq] at h
  exact bytesToCcblocksCeil_le_iff.mpr h

theorem step_spec {op : Op} {c' : CacheFile} (fits : Fits bits cap c) (valid : op.Valid bits cap)
    (run : step bits c op = some c') :
    Fits bits cap c' ∧ (Consistent bits c → (Consistent bits c' ↔ Met bits c op)) := by
  cases op with
  | create n =>
    obtain ⟨c₁, run₁, fits₁, new, -⟩ := create_spec fits (capacity_of_valid valid)
    cases run₁.symm.trans run
    exact ⟨fits₁, fun _ => iff_of_true new trivial⟩
  | truncate n =>
    obtain ⟨c₁, run₁, fits₁, -, new⟩ := truncate_spec fits (capacity_of_valid valid)
    cases run₁.symm.trans run
    exact ⟨fits₁, fun old => iff_of_true (new old) trivial⟩
  | setLength n =>
    obtain ⟨c₁, run₁, fits₁, new⟩ := setLength_spec fits (capacity_of_valid valid)
    cases run₁.symm.trans run
    exact ⟨fits₁, new⟩
  | setValidData start len =>
    obtain ⟨fits₁, new⟩ := setValidData_spec fits run
    exact ⟨fits₁, fun old => iff_of_true (new old) trivial⟩

theorem step_consistent_iff (op : Op) (fits : Fits bits cap c) (old : Consistent bits c)
    (valid : op.Valid bits cap) :
    (∀ c', step bits c op = some c' → Consistent bits c') ↔ Met bits c op := by
  refine ⟨fun all => ?_, fun met c' run => ((step_spec fits valid run).2 old).mpr met⟩
  cases op with
  | setLength n =>
    obtain ⟨c₁, run₁, -, new⟩ := setLength_spec fits (capacity_of_valid valid)
    exact (new old).mp (all c₁ run₁)
  | _ => trivial

end Steps

/-- From `Create` on, the bitmap and `validdata` stay consistent through exactly those
sequences of calls in which no `SetLength` leaves the old last block marked. -/
theorem cachefile_consistent_iff_met (bits cap newlength : Nat)
    (fit : newlength ≤ ccblocksToBytes bits cap) (ops : List Op)
    (valid : ∀ op ∈ ops, op.Valid bits cap) :
    ∃ c, create (cacheFile cap) newlength = some c ∧
      (Always (step bits) (Consistent bits) c ops ↔ Guarded (step bits) (Met bits) c ops) := by
  obtain ⟨c, run, fits, start, -⟩ :=
    create_spec (cacheFile_fits bits cap) (capacity_of_valid fit)
  refine ⟨c, run, ?_⟩
  exact always_iff_guarded
    (fun _ _ _ inv v run => (step_spec inv v run).1)
    (fun _ op inv old v => step_consistent_iff op inv old v) fits start
    (guarded_of_forall (fun op hop _ => valid op hop) _)

theorem cachefile_consistent_after_truncate :
    ∃ c, create (cacheFile 4) 0 = some c ∧
      Always (step 30) (Consistent 30) c [.truncate 5000, .setValidData 0 (-1), .setLength 17] := by
  obtain ⟨c, run, hiff⟩ := cachefile_consistent_iff_met 30 4 0 (by decide)
    [.truncate 5000, .setValidData 0 (-1), .setLength 17] (by simp [Op.Valid])
  have h : create (cacheFile 4) 0 = some ⟨0, 0, ⟨4, [0#8]⟩⟩ := rfl
  have h₁ : step 30 ⟨0, 0, ⟨4, [0#8]⟩⟩ (.truncate 5000) = some ⟨5000, 0, ⟨4, [0#8]⟩⟩ := rfl
  have h₂ : step 30 ⟨5000, 0, ⟨4, [0#8]⟩⟩ (.setValidData 0 (-1)) =
    some ⟨5000, 5000, ⟨4, [0x80#8]⟩⟩ := rfl
  refine ⟨c, run, hiff.mpr ⟨trivial, fun c₁ run₁ => ⟨trivial, fun c₂ run₂ =>
    ⟨fun _ _ => ?_, fun _ _ => trivial⟩⟩⟩⟩
  obtain rfl := Option.some.inj (h.symm.trans run)
  obtain rfl := Option.some.inj (h₁.symm.trans run₁)
  obtain rfl := Option.some.inj (h₂.symm.trans run₂)
  decide

/-- A file of one whole block and one byte, both blocks marked, set to length 1: block 0
is freed and block 1 stays marked. -/
theorem cachefile_setLength_leaves_block :
    ∃ c, create (cacheFile 4) 0 = some c ∧
      ¬ Always (step 30) (Consistent 30) c
        [.truncate (2 ^ 30 + 1), .setValidData 0 (-1), .setLength 1] := by
  refine ⟨⟨0, 0, ⟨4, [0#8]⟩⟩, rfl, fun always => ?_⟩
  have h₁ := always.2 ⟨2 ^ 30 + 1, 0, ⟨4, [0#8]⟩⟩ rfl
  have h₂ := h₁.2 ⟨2 ^ 30 + 1, 2 ^ 30 + 1, ⟨4, [0xC0#8]⟩⟩ rfl
  have h₃ := (h₂.2 ⟨1, 2 ^ 30, ⟨4, [0x40#8]⟩⟩ rfl).beyond 1 (by decide)
  exact absurd h₃ (by decide)

end Coda.Venus
