import Coda.Venus.CacheFile

/-!
Discarding the inactive part of a partially cached file: `fsobj::DiscardPartialData`
(`coda-src/venus/fso1.cc`) and the copying of segments between container files
(`coda-src/venus/fso_cachefile.cc`).

The active segments are extracted into a temporary container file, the file is cut to
nothing and back to its length, and the segments are injected again. A segment is moved
by two mechanisms: the bitmap by `CopyRange`, the bytes by the chunks that
`GetValidChunks` lists. They do not agree for a marked run that reaches the end of a
segment: its chunk is given in block numbers where bytes are meant.
-/

namespace Coda.Venus

open Coda.Bitmap Coda.Lib List Option

/-- A container file: its bookkeeping and its bytes. The file on disk is `file.length`
bytes long; only the offsets below that are read. -/
structure Container where
  file : CacheFile
  data : Nat → UInt8

/-- `CacheChunk`, valid ones; also an entry of `active_segments`. -/
structure CacheChunk where
  start : Nat
  len : Int
deriving DecidableEq, Repr

/-- A value converted to `uint64_t`. -/
def uint64 (z : Int) : Nat := (z % 2 ^ 64).toNat

/-- A value converted to `uint32_t`. -/
def uint32 (n : Nat) : Nat := n % 2 ^ 32

section Segments

variable (bits : Nat)

/-- `CacheChunkBlockBitmapSize`. -/
def cacheChunkBlockBitmapSize : Nat := ((2 ^ 32 - 1) >>> bits) + 1

def ccblockStart (pos : Nat) : Nat := bytesToCcblocksFloor bits pos

def ccblockEnd (pos : Nat) (count : Int) : Nat :=
  bytesToCcblocks bits (uint64 (uint64 (pos + count) + cacheChunkBlockSizeMax bits : Nat))

def ccblockLength (pos : Nat) (count : Int) : Nat :=
  uint64 ((ccblockEnd bits pos count : Int) - ccblockStart bits pos)

/-- `b_pos & ~CacheChunkBlockSizeMax`. -/
def posAlignToCcblock (pos : Nat) : Nat := (pos >>> bits) <<< bits

def lengthAlignToCcblock (pos : Nat) (count : Int) : Nat :=
  uint64 (ccblocksToBytes bits (ccblockLength bits pos count) : Nat)

/-- The first index from `i` on that satisfies `p`, looking at `k` indices. -/
def scan (p : Nat → Bool) : Nat → Nat → Nat
  | 0, i => i
  | k + 1, i => if p i then i else scan p k (i + 1)

/-- `CacheFile::GetNextHole`; the outer `none` is a failed `CODA_ASSERT`, the inner one
the invalid chunk. -/
def getNextHole (f : CacheFile) (startB endB : Nat) : Option (Option CacheChunk) :=
  let nblocks := bytesToCcblocksCeil bits f.length
  let nblocksFull := bytesToCcblocksFloor bits f.length
  if ¬ (startB ≤ endB ∧ startB ≤ nblocks) then none
  else
    let endB := min endB nblocks
    let holeStart := scan (fun i => value f.cachedChunks i = 0) (endB - startB) startB
    if holeStart = endB then some none
    else
      let holeEnd := scan (fun i => value f.cachedChunks i ≠ 0) (endB - holeStart) holeStart
      if ¬ holeStart < holeEnd then none
      else
        let whole := ccblocksToBytes bits (holeEnd - holeStart - 1)
        let last :=
          if holeEnd = nblocks ∧ nblocksFull ≠ nblocks then
            f.length - ccblocksToBytes bits (nblocks - 1)
          else cacheChunkBlockSize bits
        some (some ⟨ccblocksToBytes bits holeStart, (whole + last : Nat)⟩)

/-- The loop of `GetValidChunks` from block `i` on. `AddChunk` puts a chunk in front. -/
def validLoop (f : CacheFile) (endB : Nat) :
    Nat → Nat → List CacheChunk → Option (Nat × List CacheChunk)
  | 0, i, clist => some (i, clist)
  | k + 1, i, clist =>
    if i < endB then do
      match ← getNextHole bits f i endB with
      | none => return (i, clist)
      | some hole =>
        let startBytes := ccblocksToBytes bits i
        let clist :=
          if startBytes ≠ hole.start then
            ⟨startBytes, (hole.start : Int) - startBytes + 1⟩ :: clist
          else clist
        validLoop f endB k (bytesToCcblocks bits (uint64 (hole.start + hole.len - 1)) + 1) clist
    else some (i, clist)

/-- `CacheFile::GetValidChunks`. The chunk for a range that ends with valid data is
`AddChunk(i, end_b - i + 1)`. -/
def getValidChunks (f : CacheFile) (start : Nat) (len : Int) : Option (List CacheChunk) := do
  let startB := ccblockStart bits start
  let endB := if len < 0 then bytesToCcblocksCeil bits f.length else ccblockEnd bits start len
  let (i, clist) ← validLoop bits f endB (endB - startB) startB []
  if i < endB then return ⟨i, (endB : Int) - i + 1⟩ :: clist else return clist

/-- `copyfile_seg`: the bytes of the chunk that the source file has. -/
def copyfileSeg (src : Container) (data : Nat → UInt8) (chunk : CacheChunk) : Nat → UInt8 :=
  fun x =>
    if chunk.start ≤ x ∧ (x : Int) < chunk.start + chunk.len ∧ x < src.file.length then src.data x
    else data x

/-- `CacheFile::CopySegment`. Both files are partial and no system call fails. -/
def copySegment (src dst : Container) (seg : CacheChunk) : Option Container := do
  let byteStart := uint32 (posAlignToCcblock bits seg.start)
  let blockStart := bytesToCcblocks bits byteStart
  let byteLen := uint32 (lengthAlignToCcblock bits seg.start seg.len)
  let clist ← getValidChunks bits src.file byteStart byteLen
  let data := clist.foldl (copyfileSeg src) dst.data
  -- `CODA_ASSERT(from->length == tstat.st_size)`
  if src.file.length ≠ dst.file.length then none
  else do
    let chunks ← copyRange src.file.cachedChunks blockStart (bytesToCcblocks bits byteLen : Nat)
      dst.file.cachedChunks
    return ⟨updateValidData bits { dst.file with cachedChunks := chunks }, data⟩

/-- A `SegmentedCacheFile` after `Associate`. `Create` takes an `int`; `ftruncate` refuses
a negative one. -/
def associate (length : Nat) : Option Container :=
  let newlength := uint32 length
  if 2 ^ 31 ≤ newlength then none
  else do
    let file ← create (cacheFile (cacheChunkBlockBitmapSize bits)) newlength
    return ⟨file, fun _ => 0⟩

/-- `CacheFile::Truncate` with the `ftruncate` of the container. -/
def Container.truncate (c : Container) (newlen : Nat) : Option Container := do
  let file ← Venus.truncate bits c.file newlen
  return ⟨file, fun x => if x < newlen then c.data x else 0⟩

/-- `fsobj::DiscardPartialData` on the container `c`. -/
def discardPartialData (c : Container) (activeSegments : List CacheChunk) : Option Container := do
  let len := c.file.length
  let tmpcpy ← associate bits len
  let tmpcpy ← activeSegments.foldlM (copySegment bits c) tmpcpy
  let cut ← c.truncate bits 0
  let cut ← cut.truncate bits len
  activeSegments.foldlM (copySegment bits tmpcpy) cut

end Segments

/-! ### The specification -/

section Specification

variable (bits : Nat)

/-- The block holds a byte of the segment; a negative length means up to the end of the
file. -/
def Overlaps (length : Nat) (seg : CacheChunk) (b : Nat) : Prop :=
  ∃ x, x / 2 ^ bits = b ∧ seg.start ≤ x ∧
    if seg.len < 0 then x < length else (x : Int) < seg.start + seg.len

/-- Nothing active is lost: what is marked afterwards holds its old bytes, and what was
marked and is active is still marked. -/
structure Preserved (c out : Container) (segs : List CacheChunk) : Prop where
  length : out.file.length = c.file.length
  data : ∀ x < c.file.length, out.file.cachedChunks.bit (x / 2 ^ bits) = true →
    out.data x = c.data x
  marked : ∀ b, c.file.cachedChunks.bit b = true →
    (∃ seg ∈ segs, Overlaps bits c.file.length seg b) → out.file.cachedChunks.bit b = true

/-- The first block `CopySegment` works on. -/
def firstBlock (seg : CacheChunk) : Nat := seg.start / 2 ^ bits % 2 ^ (32 - bits)

/-- The number of blocks `CopySegment` works on: the aligned length, computed with
unsigned wraparound and cut to 32 bits. -/
def blockCount (seg : CacheChunk) : Nat :=
  (((((seg.start : Int) + seg.len + (2 ^ bits - 1)) % 2 ^ 64 / 2 ^ bits
    - seg.start / 2 ^ bits) % 2 ^ (32 - bits))).toNat

/-- The blocks `CopySegment` works on. -/
def InRange (seg : CacheChunk) (b : Nat) : Prop :=
  firstBlock bits seg ≤ b ∧ b < firstBlock bits seg + blockCount bits seg

/-- No assertion fails on the segment: its blocks fit the bitmap and start in the file. -/
def Admitted (f : CacheFile) (seg : CacheChunk) : Prop :=
  firstBlock bits seg + blockCount bits seg ≤ 8 * f.cachedChunks.mapsize ∧
    (blockCount bits seg = 0 ∨ firstBlock bits seg ≤ bytesToCcblocksCeil bits f.length)

/-- `CopySegment` copies byte `x` of a marked block: a hole follows its block within the
range, or `x`, read as a block number, lies in the marked run that ends the range. -/
def Copies (f : CacheFile) (seg : CacheChunk) (x : Nat) : Prop :=
  let first := firstBlock bits seg
  let stop := first + blockCount bits seg
  let inFile := min stop (bytesToCcblocksCeil bits f.length)
  (first ≤ x / 2 ^ bits ∧ ∃ u, x / 2 ^ bits < u ∧ u < inFile ∧ f.cachedChunks.bit u = false) ∨
  (first < stop ∧ (inFile < stop ∨ f.cachedChunks.bit (stop - 1) = true) ∧
    first ≤ x ∧ x ≤ stop ∧ ∀ u, x ≤ u → u < inFile → f.cachedChunks.bit u = true)

/-- The condition under which discarding is safe. -/
structure DiscardMet (c : Container) (segs : List CacheChunk) : Prop where
  created : c.file.length % 2 ^ 32 < 2 ^ 31
  sized : segs ≠ [] → c.file.length < 2 ^ 32
  admitted : ∀ seg ∈ segs, Admitted bits c.file seg
  covered : ∀ b, c.file.cachedChunks.bit b = true →
    (∃ seg ∈ segs, Overlaps bits c.file.length seg b) → ∃ seg ∈ segs, InRange bits seg b
  copied : ∀ x < c.file.length, c.file.cachedChunks.bit (x / 2 ^ bits) = true →
    (∃ seg ∈ segs, InRange bits seg (x / 2 ^ bits)) →
    c.data x = 0 ∨ ∃ seg ∈ segs, Copies bits c.file seg x

end Specification

/-! ### The range `CopySegment` works on -/

section Range

variable {bits : Nat}

theorem pow_split (h : bits ≤ 32) : 2 ^ 32 = 2 ^ (32 - bits) * 2 ^ bits := by
  rw [← Nat.pow_add, Nat.sub_add_cancel h]

theorem coe_uint64 (z : Int) : (uint64 z : Int) = z % 2 ^ 64 := by
  unfold uint64
  omega

theorem uint64_of_lt {n : Nat} (h : n < 2 ^ 64) : uint64 (n : Int) = n := by
  unfold uint64
  omega

theorem bytesToCcblocks_mul (n : Nat) : bytesToCcblocks bits (n * 2 ^ bits) = n := by
  rw [bytesToCcblocks, Nat.shiftRight_eq_div_pow, Nat.mul_div_cancel _ (blockSize_pos bits)]

theorem byteStart_eq (h : bits ≤ 32) (seg : CacheChunk) :
    uint32 (posAlignToCcblock bits seg.start) = firstBlock bits seg * 2 ^ bits := by
  rw [uint32, posAlignToCcblock, Nat.shiftRight_eq_div_pow, Nat.shiftLeft_eq, pow_split h,
    Nat.mul_mod_mul_right, firstBlock]

theorem ccblockEnd_eq (pos : Nat) (count : Int) :
    (ccblockEnd bits pos count : Int) = (pos + count + (2 ^ bits - 1)) % 2 ^ 64 / 2 ^ bits := by
  have hpos := blockSize_pos bits
  have hmax : ((cacheChunkBlockSizeMax bits : Nat) : Int) = 2 ^ bits - 1 := by
    rw [cacheChunkBlockSizeMax, cacheChunkBlockSize_eq]
    push_cast [hpos]
    rfl
  rw [ccblockEnd, bytesToCcblocks, Nat.shiftRight_eq_div_pow, Int.natCast_ediv, coe_uint64,
    Nat.cast_add, coe_uint64, hmax, Int.emod_add_emod, Nat.cast_pow, Nat.cast_ofNat]

theorem byteLen_eq (h : bits ≤ 32) (seg : CacheChunk) :
    uint32 (lengthAlignToCcblock bits seg.start seg.len) = blockCount bits seg * 2 ^ bits := by
  have hdvd : (2 : Int) ^ (32 - bits) ∣ 2 ^ 64 := pow_dvd_pow 2 (by omega)
  have hlen : uint32 (lengthAlignToCcblock bits seg.start seg.len) =
      ccblockLength bits seg.start seg.len % 2 ^ (32 - bits) * 2 ^ bits := by
    rw [uint32, lengthAlignToCcblock, ccblocksToBytes_eq, ← Nat.mul_mod_mul_right, ← pow_split h]
    unfold uint64
    omega
  have hcount : ((ccblockLength bits seg.start seg.len % 2 ^ (32 - bits) : Nat) : Int) =
      blockCount bits seg := by
    have hne : (2 : Int) ^ (32 - bits) ≠ 0 := pow_ne_zero _ (by decide)
    rw [Int.natCast_emod, ccblockLength, coe_uint64, ccblockEnd_eq, ccblockStart,
      bytesToCcblocksFloor_eq, Nat.cast_pow, Nat.cast_ofNat, Int.emod_emod_of_dvd _ hdvd,
      blockCount, Int.toNat_of_nonneg (Int.emod_nonneg _ hne), Int.natCast_ediv, Nat.cast_pow,
      Nat.cast_ofNat]
  rw [hlen, Int.ofNat_inj.mp hcount]

theorem cacheChunkBlockBitmapSize_eq (h : bits ≤ 32) :
    cacheChunkBlockBitmapSize bits = 2 ^ (32 - bits) := by
  have hpos : 0 < 2 ^ (32 - bits) := Nat.two_pow_pos _
  have hdiv : (2 ^ 32 - 1) / 2 ^ bits = 2 ^ (32 - bits) - 1 := by
    have hbits := blockSize_pos bits
    refine Nat.div_eq_of_lt_le ?_ ?_
    · rw [Nat.sub_mul, ← pow_split h]
      omega
    · rw [Nat.sub_add_cancel hpos, ← pow_split h]
      omega
  rw [cacheChunkBlockBitmapSize, Nat.shiftRight_eq_div_pow]
  omega

end Range

/-! ### Holes and valid chunks -/

theorem scan_spec (p : Nat → Bool) (k i : Nat) :
    i ≤ scan p k i ∧ scan p k i ≤ i + k ∧ (∀ j, i ≤ j → j < scan p k i → p j = false) ∧
      (scan p k i < i + k → p (scan p k i) = true) := by
  induction k generalizing i with
  | zero => exact ⟨le_rfl, le_rfl, fun j hj hlt => absurd hlt (not_lt.mpr hj), fun h => by simp [scan] at h⟩
  | succ k ih =>
    obtain ⟨lo, hi, before, found⟩ := ih (i + 1)
    rw [scan]
    split_ifs with hp
    · exact ⟨le_rfl, by omega, fun j hj hlt => absurd hlt (not_lt.mpr hj), fun _ => hp⟩
    · refine ⟨by omega, by omega, fun j hj hlt => ?_, fun h => found (by omega)⟩
      rcases Nat.eq_or_lt_of_le hj with rfl | hj
      · simpa using hp
      · exact before j hj hlt

section Chunks

variable {bits : Nat} {f : CacheFile}

/-- A cache file that fits the bitmap every container file gets. -/
structure FitsBitmap (bits : Nat) (f : CacheFile) : Prop
    extends Fits bits (cacheChunkBlockBitmapSize bits) f where
  mapsize : f.cachedChunks.mapsize = (bitmap7 (cacheChunkBlockBitmapSize bits)).mapsize

theorem FitsBitmap.value_iff (fits : FitsBitmap bits f) {i : Nat}
    (h : i < bytesToCcblocksCeil bits f.length) :
    value f.cachedChunks i ≠ 0 ↔ f.cachedChunks.bit i = true :=
  value_ne_zero_iff (h.trans_le (fits.capacity.trans fits.allocated))

theorem FitsBitmap.bytes_le (fits : FitsBitmap bits f) (hb : bits ≤ 32) :
    bytesToCcblocksCeil bits f.length * 2 ^ bits ≤ 2 ^ 32 := by
  rw [pow_split hb, ← cacheChunkBlockBitmapSize_eq hb]
  exact Nat.mul_le_mul_right _ fits.capacity

/-- The last byte of a hole lies in its last block, also when that is cut short by the end
of the file. -/
theorem hole_last_block {hs he last : Nat} (hne : hs < he) (hpos : 0 < last)
    (hle : last ≤ 2 ^ bits) (hbytes : he * 2 ^ bits ≤ 2 ^ 32) :
    bytesToCcblocks bits
      (uint64 ((hs * 2 ^ bits : Nat) + (((he - hs - 1) * 2 ^ bits + last : Nat) : Int) - 1)) + 1 =
      he := by
  obtain ⟨k, rfl⟩ : ∃ k, he = hs + k + 1 := ⟨he - hs - 1, by omega⟩
  have hk : hs + k + 1 - hs - 1 = k := by omega
  have hword : uint64 ((hs * 2 ^ bits : Nat) + ((k * 2 ^ bits + last : Nat) : Int) - 1) =
      (last - 1) + (hs + k) * 2 ^ bits := by
    rw [add_mul, add_mul] at hbytes
    rw [add_mul]
    unfold uint64
    omega
  rw [hk, hword, bytesToCcblocks, Nat.shiftRight_eq_div_pow,
    Nat.add_mul_div_right _ _ (blockSize_pos bits), Nat.div_eq_of_lt (by omega), zero_add]

/-- What `GetNextHole` finds: nothing, or the blocks `[holeStart, holeEnd)`. -/
theorem getNextHole_spec (hb : bits ≤ 32) (fits : FitsBitmap bits f) {startB endB stop : Nat}
    (hstop : min endB (bytesToCcblocksCeil bits f.length) = stop) (hstart : startB ≤ stop) :
    (getNextHole bits f startB endB = some none ∧
      ∀ u, startB ≤ u → u < stop → f.cachedChunks.bit u = true) ∨
    ∃ holeStart holeEnd, startB ≤ holeStart ∧ holeStart < holeEnd ∧ holeEnd ≤ stop ∧
      (∀ u, startB ≤ u → u < holeStart → f.cachedChunks.bit u = true) ∧
      (∀ u, holeStart ≤ u → u < holeEnd → f.cachedChunks.bit u = false) ∧
      ∃ len : Nat, getNextHole bits f startB endB = some (some ⟨holeStart * 2 ^ bits, len⟩) ∧
        bytesToCcblocks bits (uint64 ((holeStart * 2 ^ bits : Nat) + (len : Int) - 1)) + 1 =
          holeEnd := by
  have hvalue : ∀ i < stop, (value f.cachedChunks i ≠ 0 ↔ f.cachedChunks.bit i = true) :=
    fun i hi => fits.value_iff (by omega)
  unfold getNextHole
  dsimp only
  rw [if_neg (by omega), hstop]
  obtain ⟨lo, hi, before, found⟩ :=
    scan_spec (fun i => value f.cachedChunks i = 0) (stop - startB) startB
  generalize scan (fun i => value f.cachedChunks i = 0) (stop - startB) startB = hs
    at lo hi before found ⊢
  have marked : ∀ u, startB ≤ u → u < hs → f.cachedChunks.bit u = true := fun u h₁ h₂ =>
    (hvalue u (by omega)).mp (by simpa using before u h₁ h₂)
  by_cases hnone : hs = stop
  · subst hnone
    exact .inl ⟨if_pos rfl, marked⟩
  rw [if_neg hnone]
  obtain ⟨lo', hi', before', found'⟩ :=
    scan_spec (fun i => value f.cachedChunks i ≠ 0) (stop - hs) hs
  generalize scan (fun i => value f.cachedChunks i ≠ 0) (stop - hs) hs = he
    at lo' hi' before' found' ⊢
  have hzero : value f.cachedChunks hs = 0 := by simpa using found (by omega)
  -- The hole has at least the block it starts with.
  have hne : hs < he := by
    rcases Nat.eq_or_lt_of_le lo' with rfl | hlt
    · exact absurd hzero (by simpa using found' (by omega))
    · exact hlt
  have clear : ∀ u, hs ≤ u → u < he → f.cachedChunks.bit u = false := by
    intro u h₁ h₂
    have hnot := mt (hvalue u (by omega)).mpr
    simpa using hnot (by simpa using before' u h₁ h₂)
  rw [if_neg (not_not.mpr hne)]
  refine .inr ⟨hs, he, lo, hne, by omega, marked, clear, _, by rw [ccblocksToBytes_eq], ?_⟩
  rw [ccblocksToBytes_eq, cacheChunkBlockSize_eq, ccblocksToBytes_eq]
  generalize hlast : (if he = bytesToCcblocksCeil bits f.length ∧
    bytesToCcblocksFloor bits f.length ≠ bytesToCcblocksCeil bits f.length then
      f.length - (bytesToCcblocksCeil bits f.length - 1) * 2 ^ bits else 2 ^ bits) = last
  have hbound : 0 < last ∧ last ≤ 2 ^ bits := by
    have hpos := blockSize_pos bits
    rw [← hlast]
    split_ifs with htail
    · have := @blockBytes_last bits f.length (bytesToCcblocksCeil bits f.length - 1) (by omega)
      have hin := @blockBytes_pos bits f.length (bytesToCcblocksCeil bits f.length - 1) (by omega)
      omega
    · omega
  have hbytes : he * 2 ^ bits ≤ 2 ^ 32 :=
    (Nat.mul_le_mul_right _ (by omega)).trans (fits.bytes_le hb)
  exact hole_last_block hne hbound.1 hbound.2 hbytes

/-- Some chunk of the list contains the byte. -/
def Covered (clist : List CacheChunk) (x : Nat) : Prop :=
  ∃ c ∈ clist, c.start ≤ x ∧ (x : Int) < c.start + c.len

theorem covered_cons {c : CacheChunk} {clist : List CacheChunk} {x : Nat} :
    Covered (c :: clist) x ↔ (c.start ≤ x ∧ (x : Int) < c.start + c.len) ∨ Covered clist x := by
  simp [Covered]

/-- `t` starts the marked run that ends the blocks `[first, stop)`. -/
structure TailStart (f : CacheFile) (first stop t : Nat) : Prop where
  lower : first ≤ t
  upper : t ≤ stop
  marked : ∀ u, t ≤ u → u < stop → f.cachedChunks.bit u = true
  hole : first < t → f.cachedChunks.bit (t - 1) = false

/-- The chunk in front of a hole covers the marked blocks up to the hole. It is one byte
too long, but that byte belongs to the hole. -/
theorem chunk_before_hole {i hs x : Nat}
    (hole : f.cachedChunks.bit hs = false) (hx : f.cachedChunks.bit (x / 2 ^ bits) = true) :
    (i * 2 ^ bits ≤ x ∧ (x : Int) < (i * 2 ^ bits : Nat) +
      (((hs * 2 ^ bits : Nat) : Int) - (i * 2 ^ bits : Nat) + 1)) ↔
      i ≤ x / 2 ^ bits ∧ x / 2 ^ bits < hs := by
  have hpos := blockSize_pos bits
  rw [Nat.le_div_iff_mul_le hpos, Nat.div_lt_iff_lt_mul hpos]
  have hne : x ≠ hs * 2 ^ bits := by
    rintro rfl
    rw [Nat.mul_div_cancel _ hpos, hole] at hx
    cases hx
  omega

/-- The loop stops at the start of the final marked run, with the marked blocks before it
covered. -/
def Listed (bits : Nat) (f : CacheFile) (stop i : Nat) (clist : List CacheChunk)
    (r : Option (Nat × List CacheChunk)) : Prop :=
  ∃ t clist', r = some (t, clist') ∧ TailStart f i stop t ∧
    ∀ x, f.cachedChunks.bit (x / 2 ^ bits) = true →
      (Covered clist' x ↔ Covered clist x ∨ (i ≤ x / 2 ^ bits ∧ x / 2 ^ bits < t))

theorem listed_stop {stop i : Nat} {clist : List CacheChunk} (hi : i ≤ stop)
    (marked : ∀ u, i ≤ u → u < stop → f.cachedChunks.bit u = true) :
    Listed bits f stop i clist (some (i, clist)) := by
  refine ⟨i, clist, rfl, ⟨le_rfl, hi, marked, by omega⟩, fun x _ => ?_⟩
  rw [iff_self_or]
  omega

theorem validLoop_spec (hb : bits ≤ 32) (fits : FitsBitmap bits f) {stop : Nat} (endB k i : Nat)
    (clist : List CacheChunk) (hstop : min endB (bytesToCcblocksCeil bits f.length) = stop)
    (hi : i ≤ stop) (hk : endB ≤ i + k) :
    Listed bits f stop i clist (validLoop bits f endB k i clist) := by
  induction k generalizing i clist with
  | zero => exact listed_stop hi (by omega)
  | succ k ih =>
    unfold validLoop
    by_cases hlt : i < endB
    swap
    · rw [if_neg hlt]
      exact listed_stop hi (by omega)
    rw [if_pos hlt]
    rcases getNextHole_spec hb fits hstop hi with ⟨run, marked⟩ |
      ⟨hs, he, hlo, hne, hhi, before, clear, len, run, next⟩
    · rw [run]
      exact listed_stop hi marked
    · rw [run]
      simp only [bind_eq_bind, bind_some, ccblocksToBytes_eq, next]
      obtain ⟨t, clist', run', tail, cov⟩ := ih he
        (if i * 2 ^ bits ≠ hs * 2 ^ bits then
          ⟨i * 2 ^ bits, ((hs * 2 ^ bits : Nat) : Int) - (i * 2 ^ bits : Nat) + 1⟩ :: clist
        else clist) hhi (by omega)
      have hcut : he ≤ t := tail.lower
      refine ⟨t, clist', run', ⟨by omega, tail.upper, tail.marked, fun h => ?_⟩, fun x hx => ?_⟩
      · rcases Nat.eq_or_lt_of_le hcut with rfl | hlt'
        · exact clear _ (by omega) (by omega)
        · exact tail.hole hlt'
      · have hnot : ¬ (hs ≤ x / 2 ^ bits ∧ x / 2 ^ bits < he) := by
          rintro ⟨h₁, h₂⟩
          rw [clear _ h₁ h₂] at hx
          cases hx
        have hchunk := @chunk_before_hole bits f i hs x (clear hs le_rfl hne) hx
        rw [cov x hx]
        split_ifs with hstart
        · rw [covered_cons]
          by_cases hc : Covered clist x <;> simp only [hc, true_or, or_true, or_false, false_or]
          omega
        · have : i = hs := Nat.eq_of_mul_eq_mul_right (blockSize_pos bits) (not_not.mp hstart)
          by_cases hc : Covered clist x <;> simp only [hc, true_or, false_or]
          omega

/-- `Copies`, in terms of the start of the final marked run. -/
theorem TailStart.copies_iff {seg : CacheChunk} {t x : Nat}
    (tail : TailStart f (firstBlock bits seg)
      (min (firstBlock bits seg + blockCount bits seg) (bytesToCcblocksCeil bits f.length)) t)
    (hx : f.cachedChunks.bit (x / 2 ^ bits) = true) :
    Copies bits f seg x ↔
      (firstBlock bits seg ≤ x / 2 ^ bits ∧ x / 2 ^ bits < t) ∨
      (t < firstBlock bits seg + blockCount bits seg ∧ t ≤ x ∧
        x ≤ firstBlock bits seg + blockCount bits seg) := by
  obtain ⟨lower, upper, marked, hole⟩ := tail
  unfold Copies
  dsimp only
  generalize firstBlock bits seg + blockCount bits seg = stop at *
  generalize hin : min stop (bytesToCcblocksCeil bits f.length) = inFile at *
  refine or_congr ⟨?_, ?_⟩ ⟨?_, ?_⟩
  · rintro ⟨hfirst, u, hlt, hu, hclear⟩
    by_contra hge
    rw [marked u (by omega) hu] at hclear
    cases hclear
  · rintro ⟨hfirst, hlt⟩
    have hclear := hole (by omega)
    have hne : x / 2 ^ bits ≠ t - 1 := by
      intro h
      rw [← h, hx] at hclear
      cases hclear
    exact ⟨hfirst, t - 1, by omega, by omega, hclear⟩
  · rintro ⟨hpos, hend, hfirst, hstop, hmarked⟩
    have hle : t ≤ x := by
      by_contra hgt
      have hclear := hole (by omega)
      rw [hmarked (t - 1) (by omega) (by omega)] at hclear
      cases hclear
    rcases hend with hend | hend
    · omega
    · by_contra hge
      have hclear := hole (by omega)
      rw [show t - 1 = stop - 1 by omega, hend] at hclear
      cases hclear
  · rintro ⟨hlt, hle, hstop⟩
    refine ⟨by omega, ?_, by omega, hstop, fun u h₁ h₂ => marked u (by omega) h₂⟩
    by_cases hcut : inFile < stop
    · exact .inl hcut
    · exact .inr (marked _ (by omega) (by omega))

theorem firstBlock_lt (bits : Nat) (seg : CacheChunk) : firstBlock bits seg < 2 ^ (32 - bits) :=
  Nat.mod_lt _ (Nat.two_pow_pos _)

theorem blockCount_lt (bits : Nat) (seg : CacheChunk) : blockCount bits seg < 2 ^ (32 - bits) := by
  have hpos : (0 : Int) < 2 ^ (32 - bits) := Int.pow_pos (by decide)
  rw [blockCount, Int.toNat_lt (Int.emod_nonneg _ hpos.ne'), Nat.cast_pow]
  exact Int.emod_lt_of_pos _ hpos

/-- The block after the aligned range; nothing wraps here any more. -/
theorem ccblockEnd_aligned (hb : bits ≤ 32) (seg : CacheChunk) :
    ccblockEnd bits (firstBlock bits seg * 2 ^ bits) ((blockCount bits seg * 2 ^ bits : Nat) : Int) =
      firstBlock bits seg + blockCount bits seg := by
  have hpos := blockSize_pos bits
  have h₁ : firstBlock bits seg * 2 ^ bits < 2 ^ 32 := by
    rw [pow_split hb]
    exact Nat.mul_lt_mul_of_pos_right (firstBlock_lt bits seg) hpos
  have h₂ : blockCount bits seg * 2 ^ bits < 2 ^ 32 := by
    rw [pow_split hb]
    exact Nat.mul_lt_mul_of_pos_right (blockCount_lt bits seg) hpos
  have h₃ : 2 ^ bits ≤ 2 ^ 32 := Nat.pow_le_pow_right (by decide) hb
  have hsum : firstBlock bits seg * 2 ^ bits + blockCount bits seg * 2 ^ bits < 2 ^ 33 := by omega
  rw [ccblockEnd, ← Nat.cast_add, uint64_of_lt (hsum.trans (by decide)), cacheChunkBlockSizeMax,
    cacheChunkBlockSize_eq, uint64_of_lt (by omega), bytesToCcblocks,
    Nat.shiftRight_eq_div_pow, ← add_mul, add_comm,
    Nat.add_mul_div_right _ _ hpos, Nat.div_eq_of_lt (by omega), zero_add]

/-- `GetValidChunks` on the aligned range of a segment. -/
theorem getValidChunks_eq (hb : bits ≤ 32) (seg : CacheChunk) :
    getValidChunks bits f (firstBlock bits seg * 2 ^ bits)
        ((blockCount bits seg * 2 ^ bits : Nat) : Int) =
      (validLoop bits f (firstBlock bits seg + blockCount bits seg) (blockCount bits seg)
        (firstBlock bits seg) []).map fun r =>
          if r.1 < firstBlock bits seg + blockCount bits seg then
            ⟨r.1, ((firstBlock bits seg + blockCount bits seg : Nat) : Int) - r.1 + 1⟩ :: r.2
          else r.2 := by
  have hstart : ccblockStart bits (firstBlock bits seg * 2 ^ bits) = firstBlock bits seg := by
    rw [ccblockStart, bytesToCcblocksFloor_eq, Nat.mul_div_cancel _ (blockSize_pos bits)]
  unfold getValidChunks
  rw [if_neg (by omega), hstart, ccblockEnd_aligned hb seg]
  dsimp only
  rw [Nat.add_sub_cancel_left]
  cases validLoop bits f (firstBlock bits seg + blockCount bits seg) (blockCount bits seg)
    (firstBlock bits seg) [] with
  | none => rfl
  | some r =>
    simp only [bind_eq_bind, bind_some, map_some]
    split_ifs <;> rfl

/-- The bytes of marked blocks in the chunks of a segment. -/
theorem getValidChunks_spec (hb : bits ≤ 32) (fits : FitsBitmap bits f) (seg : CacheChunk)
    (h : blockCount bits seg = 0 ∨ firstBlock bits seg ≤ bytesToCcblocksCeil bits f.length) :
    ∃ clist, getValidChunks bits f (firstBlock bits seg * 2 ^ bits)
        ((blockCount bits seg * 2 ^ bits : Nat) : Int) = some clist ∧
      ∀ x, f.cachedChunks.bit (x / 2 ^ bits) = true →
        (Covered clist x ↔ Copies bits f seg x) := by
  rw [getValidChunks_eq hb seg]
  rcases eq_zero_or_pos (blockCount bits seg) with hzero | hcount
  · refine ⟨[], by simp [hzero, validLoop], fun x hx => ?_⟩
    simp only [Covered, not_mem_nil, false_and, exists_false, false_iff]
    rintro (⟨hle, u, h₁, h₂, -⟩ | ⟨hlt, -⟩) <;> omega
  · obtain ⟨t, clist, run, tail, cov⟩ := validLoop_spec hb fits
      (firstBlock bits seg + blockCount bits seg) (blockCount bits seg) (firstBlock bits seg) [] rfl
      (by omega) (by omega)
    rw [run, map_some]
    have hnil : ∀ x, ¬ Covered [] x := fun x h => by simp [Covered] at h
    split_ifs with hlt
    · refine ⟨_, rfl, fun x hx => ?_⟩
      rw [covered_cons, cov x hx, tail.copies_iff hx, or_iff_right (hnil x), or_comm]
      simp only
      omega
    · refine ⟨_, rfl, fun x hx => ?_⟩
      rw [cov x hx, tail.copies_iff hx, or_iff_right (hnil x)]
      omega

/-- `GetNextHole` asserts that it starts inside the file. -/
theorem getValidChunks_start (hb : bits ≤ 32) {seg : CacheChunk} {clist : List CacheChunk}
    (run : getValidChunks bits f (firstBlock bits seg * 2 ^ bits)
      ((blockCount bits seg * 2 ^ bits : Nat) : Int) = some clist) :
    blockCount bits seg = 0 ∨ firstBlock bits seg ≤ bytesToCcblocksCeil bits f.length := by
  rw [getValidChunks_eq hb seg] at run
  cases hcount : blockCount bits seg with
  | zero => exact .inl rfl
  | succ k =>
    by_contra hgt
    have hhole : getNextHole bits f (firstBlock bits seg) (firstBlock bits seg + (k + 1)) = none := by
      unfold getNextHole
      rw [if_pos (by omega)]
    rw [hcount, validLoop, if_pos (by omega), hhole] at run
    cases run

end Chunks

/-! ### Copying segments -/

section Copying

variable {bits : Nat} {src dst : Container}

theorem foldl_copyfileSeg (clist : List CacheChunk) (data : Nat → UInt8) (x : Nat) :
    (x < src.file.length → Covered clist x →
      clist.foldl (copyfileSeg src) data x = src.data x) ∧
    (¬ Covered clist x → clist.foldl (copyfileSeg src) data x = data x) := by
  induction clist generalizing data with
  | nil => exact ⟨fun _ h => by simp [Covered] at h, fun _ => rfl⟩
  | cons c clist ih =>
    obtain ⟨inside, outside⟩ := ih (copyfileSeg src data c)
    rw [covered_cons, foldl_cons]
    constructor
    · intro hlen hcov
      by_cases hrest : Covered clist x
      · exact inside hlen hrest
      · obtain ⟨h₁, h₂⟩ := hcov.resolve_right hrest
        rw [outside hrest, copyfileSeg, if_pos ⟨h₁, h₂, hlen⟩]
    · intro hcov
      rw [not_or] at hcov
      rw [outside hcov.2, copyfileSeg, if_neg fun h => hcov.1 ⟨h.1, h.2.1⟩]

/-- `dst'` is `dst` with the marks of `src` on the blocks `blocks`, and, as far as the
marked blocks of `src` go, the bytes of `src` on `bytes`. -/
structure CopiedFrom (bits : Nat) (src dst dst' : Container) (blocks bytes : Nat → Prop) :
    Prop where
  fits : FitsBitmap bits dst'.file
  length : dst'.file.length = dst.file.length
  bit_in : ∀ b, blocks b → dst'.file.cachedChunks.bit b = src.file.cachedChunks.bit b
  bit_out : ∀ b, ¬ blocks b → dst'.file.cachedChunks.bit b = dst.file.cachedChunks.bit b
  data_in : ∀ x < src.file.length, src.file.cachedChunks.bit (x / 2 ^ bits) = true → bytes x →
    dst'.data x = src.data x
  data_out : ∀ x, src.file.cachedChunks.bit (x / 2 ^ bits) = true → ¬ bytes x →
    dst'.data x = dst.data x

section

variable (hb : bits ≤ 32) (hsrc : FitsBitmap bits src.file)
include hb hsrc

theorem copySegment_spec (hdst : FitsBitmap bits dst.file)
    (hlen : src.file.length = dst.file.length) {seg : CacheChunk}
    (adm : Admitted bits src.file seg) :
    ∃ dst', copySegment bits src dst seg = some dst' ∧
      CopiedFrom bits src dst dst' (InRange bits seg) (Copies bits src.file seg) := by
  obtain ⟨hfit, hstart⟩ := adm
  obtain ⟨clist, chunks_run, cov⟩ := getValidChunks_spec hb hsrc seg hstart
  have hend : endBit src.file.cachedChunks.indexsize (firstBlock bits seg)
      (blockCount bits seg : Int) = firstBlock bits seg + blockCount bits seg := by simp [endBit]
  have hsize : dst.file.cachedChunks.mapsize = src.file.cachedChunks.mapsize :=
    hdst.mapsize.trans hsrc.mapsize.symm
  obtain ⟨chunks, run, patched⟩ := @copyRange_spec src.file.cachedChunks dst.file.cachedChunks
    (firstBlock bits seg) (blockCount bits seg : Int) (by rw [hend]; exact hfit)
    (by rw [hsize]; exact hfit)
  obtain ⟨hlen', hchunks'⟩ := updateValidData_fields bits { dst.file with cachedChunks := chunks }
  have fits' : Fits bits (cacheChunkBlockBitmapSize bits)
      { dst.file with cachedChunks := chunks } := by
    refine ⟨patched.indexsize.trans hdst.indexsize, ?_, hdst.capacity, fun i hi => ?_⟩
    · exact hdst.allocated.trans_eq (by rw [← patched.mapsize])
    · rw [patched.bit]
      split_ifs
      · exact hsrc.outside i hi
      · exact hdst.outside i hi
  refine ⟨⟨updateValidData bits { dst.file with cachedChunks := chunks },
    clist.foldl (copyfileSeg src) dst.data⟩, ?_, ?_⟩
  · unfold copySegment
    simp only [byteStart_eq hb, byteLen_eq hb, bytesToCcblocks_mul, chunks_run, run, bind_eq_bind,
      bind_some, hlen, ne_eq, not_true_eq_false, if_false, Option.pure_def]
  · refine ⟨⟨fits'.updateValidData, ?_⟩, hlen', fun b hin => ?_, fun b hout => ?_,
      fun x hx hmark hcopy => ?_, fun x hmark hcopy => ?_⟩
    · exact (congrArg Bitmap7.mapsize hchunks').trans (patched.mapsize.trans hdst.mapsize)
    · rw [hchunks']
      exact (patched.bit b).trans (if_pos hin)
    · rw [hchunks']
      exact (patched.bit b).trans (if_neg hout)
    · exact (foldl_copyfileSeg clist dst.data x).1 hx ((cov x hmark).mpr hcopy)
    · exact (foldl_copyfileSeg clist dst.data x).2 fun h => hcopy ((cov x hmark).mp h)

/-- A segment that is copied without a failed assertion. -/
theorem admitted_of_copySegment (hdst : FitsBitmap bits dst.file) {dst' : Container}
    {seg : CacheChunk} (run : copySegment bits src dst seg = some dst') :
    src.file.length = dst.file.length ∧ Admitted bits src.file seg := by
  have hcap : cacheChunkBlockBitmapSize bits ≤ 8 * src.file.cachedChunks.mapsize := hsrc.allocated
  have hfirst := firstBlock_lt bits seg
  rw [← cacheChunkBlockBitmapSize_eq hb] at hfirst
  have hmap : src.file.cachedChunks.map ≠ [] := by
    intro hnil
    rw [Bitmap7.mapsize, hnil] at hcap
    simp only [length_nil] at hcap
    omega
  have hsize : dst.file.cachedChunks.mapsize = src.file.cachedChunks.mapsize :=
    hdst.mapsize.trans hsrc.mapsize.symm
  unfold copySegment at run
  simp only [byteStart_eq hb, byteLen_eq hb, bytesToCcblocks_mul] at run
  obtain ⟨clist, chunks_run, run⟩ := bind_eq_some_iff.mp run
  split_ifs at run with hlen
  obtain ⟨chunks, copy_run, -⟩ := bind_eq_some_iff.mp run
  refine ⟨not_not.mp hlen, ?_, getValidChunks_start hb chunks_run⟩
  rcases eq_zero_or_pos (blockCount bits seg) with hzero | hpos
  · omega
  · rw [← hsize]
    exact copyRange_inside hmap hpos copy_run

/-- One segment after the other. -/
theorem copySegments_spec (segs : List CacheChunk) (dst : Container)
    (hdst : FitsBitmap bits dst.file) (hlen : segs ≠ [] → src.file.length = dst.file.length)
    (adm : ∀ seg ∈ segs, Admitted bits src.file seg) :
    ∃ dst', segs.foldlM (copySegment bits src) dst = some dst' ∧
      CopiedFrom bits src dst dst' (fun b => ∃ seg ∈ segs, InRange bits seg b)
        (fun x => ∃ seg ∈ segs, Copies bits src.file seg x) := by
  induction segs generalizing dst with
  | nil =>
    refine ⟨dst, rfl, hdst, rfl, fun b h => ?_, fun b _ => rfl, fun x _ _ h => ?_, fun x _ _ => rfl⟩
    · simp at h
    · simp at h
  | cons seg segs ih =>
    rw [forall_mem_cons] at adm
    obtain ⟨d₁, run₁, c₁⟩ := copySegment_spec hb hsrc hdst (hlen (by simp)) adm.1
    obtain ⟨d₂, run₂, c₂⟩ := ih d₁ c₁.fits
      (fun _ => (hlen (by simp)).trans c₁.length.symm) adm.2
    refine ⟨d₂, ?_, c₂.fits, c₂.length.trans c₁.length, fun b h => ?_, fun b h => ?_,
      fun x hx hmark h => ?_, fun x hmark h => ?_⟩
    · rw [foldlM_cons, run₁]
      exact run₂
    · simp only [mem_cons, exists_eq_or_imp] at h
      by_cases hrest : ∃ seg ∈ segs, InRange bits seg b
      · exact c₂.bit_in b hrest
      · rw [c₂.bit_out b hrest]
        exact c₁.bit_in b (h.resolve_right hrest)
    · simp only [mem_cons, exists_eq_or_imp, not_or] at h
      rw [c₂.bit_out b h.2, c₁.bit_out b h.1]
    · simp only [mem_cons, exists_eq_or_imp] at h
      by_cases hrest : ∃ seg ∈ segs, Copies bits src.file seg x
      · exact c₂.data_in x hx hmark hrest
      · rw [c₂.data_out x hmark hrest]
        exact c₁.data_in x hx hmark (h.resolve_right hrest)
    · simp only [mem_cons, exists_eq_or_imp, not_or] at h
      rw [c₂.data_out x hmark h.2, c₁.data_out x hmark h.1]

theorem admitted_of_copySegments (segs : List CacheChunk) (dst : Container)
    (hdst : FitsBitmap bits dst.file) {dst' : Container}
    (run : segs.foldlM (copySegment bits src) dst = some dst') :
    (segs ≠ [] → src.file.length = dst.file.length) ∧
      ∀ seg ∈ segs, Admitted bits src.file seg := by
  induction segs generalizing dst with
  | nil => exact ⟨fun h => absurd rfl h, by simp⟩
  | cons seg segs ih =>
    obtain ⟨d₁, run₁, run₂⟩ := bind_eq_some_iff.mp run
    obtain ⟨hlen, adm⟩ := admitted_of_copySegment hb hsrc hdst run₁
    obtain ⟨d', run', c₁⟩ := copySegment_spec hb hsrc hdst hlen adm
    rw [run₁, Option.some.injEq] at run'
    subst run'
    exact ⟨fun _ => hlen, forall_mem_cons.mpr ⟨adm, (ih d₁ c₁.fits run₂).2⟩⟩

end

end Copying

/-! ### Discarding -/

section Discarding

variable {bits : Nat} {c : Container}

/-- A container of the given length with nothing marked and only zero bytes. -/
structure Blank (bits : Nat) (c : Container) (length : Nat) : Prop where
  fits : FitsBitmap bits c.file
  length : c.file.length = length
  bit : ∀ b, c.file.cachedChunks.bit b = false
  data : ∀ x, c.data x = 0

theorem associate_spec {length : Nat} (hlen : bytesToCcblocksCeil bits length ≤
      cacheChunkBlockBitmapSize bits) (h : length % 2 ^ 32 < 2 ^ 31) :
    ∃ tmp, associate bits length = some tmp ∧ Blank bits tmp (length % 2 ^ 32) := by
  have hmod := @bytesToCcblocksCeil_mono bits _ _ (Nat.mod_le length (2 ^ 32))
  obtain ⟨file, run, fits, -, new⟩ := create_spec
    (cacheFile_fits bits (cacheChunkBlockBitmapSize bits)) (hmod.trans hlen)
  refine ⟨⟨file, fun _ => 0⟩, ?_, ⟨fits, new.mapsize⟩, new.length, new.bit, fun _ => rfl⟩
  unfold associate
  rw [if_neg (by rw [uint32]; omega), uint32, run]
  rfl

theorem created_of_associate {length : Nat} {tmp : Container}
    (run : associate bits length = some tmp) : length % 2 ^ 32 < 2 ^ 31 := by
  unfold associate at run
  dsimp only at run
  split_ifs at run with h
  exact Nat.lt_of_not_le h

/-- Cutting the file to nothing and back to its length leaves it blank. -/
theorem cut_spec (fits : FitsBitmap bits c.file)
    (inside : ∀ b, bytesToCcblocksCeil bits c.file.length ≤ b → c.file.cachedChunks.bit b = false) :
    ∃ cut, (c.truncate bits 0 >>= fun cut => cut.truncate bits c.file.length) = some cut ∧
      Blank bits cut c.file.length := by
  have hzero : bytesToCcblocksCeil bits 0 = 0 :=
    Nat.le_zero.mp (bytesToCcblocksCeil_le_iff.mpr (Nat.zero_le _))
  obtain ⟨f₁, run₁, fits₁, t₁, -⟩ := truncate_spec fits.toFits
    (hzero.le.trans (Nat.zero_le _))
  obtain ⟨f₂, run₂, fits₂, t₂, -⟩ := truncate_spec fits₁ fits.capacity
  have clear₁ : ∀ b, f₁.cachedChunks.bit b = false := by
    intro b
    rw [t₁.patched.bit]
    split_ifs with h
    · rfl
    · exact inside b (by omega)
  refine ⟨⟨f₂, fun x => if x < c.file.length then (if x < 0 then c.data x else 0) else 0⟩, ?_,
    ⟨fits₂, ?_⟩, t₂.length, fun b => ?_, fun x => ?_⟩
  · simp only [Container.truncate, run₁, run₂, bind_eq_bind, bind_some,
      Option.pure_def]
  · exact t₂.patched.mapsize.trans (t₁.patched.mapsize.trans fits.mapsize)
  · rw [t₂.patched.bit, clear₁]
    split_ifs <;> rfl
  · simp

/-- `Copies` reads the marks of the segment's own blocks only. -/
theorem copies_congr {f g : CacheFile} {seg : CacheChunk} (hlen : f.length = g.length)
    (marks : ∀ b, InRange bits seg b → f.cachedChunks.bit b = g.cachedChunks.bit b) (x : Nat) :
    Copies bits f seg x → Copies bits g seg x := by
  unfold Copies
  rw [hlen]
  unfold InRange at marks
  rintro (⟨hfirst, u, h₁, h₂, hu⟩ | ⟨h₁, h₂, h₃, h₄, h₅⟩)
  · exact .inl ⟨hfirst, u, h₁, h₂, by rw [← marks u (by omega)]; exact hu⟩
  · refine .inr ⟨h₁, h₂.imp id fun h => ?_, h₃, h₄, fun u h₆ h₇ => ?_⟩
    · rw [← marks _ (by omega)]
      exact h
    · rw [← marks u (by omega)]
      exact h₅ u h₆ h₇

/-- What discarding leaves: the marks of the blocks in some range, and in these blocks the
bytes that are copied. -/
structure Discarded (bits : Nat) (c out : Container) (segs : List CacheChunk) : Prop where
  length : out.file.length = c.file.length
  bit : ∀ b, out.file.cachedChunks.bit b = true ↔
    c.file.cachedChunks.bit b = true ∧ ∃ seg ∈ segs, InRange bits seg b
  kept : ∀ x < c.file.length, out.file.cachedChunks.bit (x / 2 ^ bits) = true →
    (∃ seg ∈ segs, Copies bits c.file seg x) → out.data x = c.data x
  lost : ∀ x, out.file.cachedChunks.bit (x / 2 ^ bits) = true →
    (¬ ∃ seg ∈ segs, Copies bits c.file seg x) → out.data x = 0

theorem discardPartialData_spec (hb : bits ≤ 32) (fits : FitsBitmap bits c.file)
    (inside : ∀ b, bytesToCcblocksCeil bits c.file.length ≤ b → c.file.cachedChunks.bit b = false)
    (segs : List CacheChunk) (created : c.file.length % 2 ^ 32 < 2 ^ 31)
    (sized : segs ≠ [] → c.file.length < 2 ^ 32)
    (adm : ∀ seg ∈ segs, Admitted bits c.file seg) :
    ∃ out, discardPartialData bits c segs = some out ∧ Discarded bits c out segs := by
  obtain ⟨tmp, run, blank⟩ := associate_spec fits.capacity created
  have hlen : segs ≠ [] → c.file.length = tmp.file.length := fun h => by
    rw [blank.length, Nat.mod_eq_of_lt (sized h)]
  obtain ⟨ext, runExt, ce⟩ := copySegments_spec hb fits segs tmp blank.fits hlen adm
  obtain ⟨cut, runCut, blankCut⟩ := cut_spec fits inside
  have hext : segs ≠ [] → ext.file.length = c.file.length := fun h =>
    ce.length.trans (hlen h).symm
  have adm' : ∀ seg ∈ segs, Admitted bits ext.file seg := by
    intro seg hseg
    rw [Admitted, ce.fits.mapsize, ← fits.mapsize, hext (ne_nil_of_mem hseg)]
    exact adm seg hseg
  obtain ⟨out, runOut, co⟩ := copySegments_spec hb ce.fits segs cut blankCut.fits
    (fun h => (hext h).trans blankCut.length.symm) adm'
  have run_all : discardPartialData bits c segs = some out := by
    obtain ⟨c₁, run₁, run₂⟩ := bind_eq_some_iff.mp runCut
    simp only [discardPartialData, run, runExt, run₁, run₂, runOut, bind_eq_bind,
      bind_some]
  have hbit : ∀ b, out.file.cachedChunks.bit b = true ↔
      c.file.cachedChunks.bit b = true ∧ ∃ seg ∈ segs, InRange bits seg b := by
    intro b
    by_cases hin : ∃ seg ∈ segs, InRange bits seg b
    · rw [co.bit_in b hin, ce.bit_in b hin, and_iff_left hin]
    · rw [co.bit_out b hin, blankCut.bit b]
      simp [hin]
  -- On a block marked afterwards all three files agree on what is copied.
  have hcopies : ∀ x, (∃ seg ∈ segs, Copies bits ext.file seg x) ↔
      ∃ seg ∈ segs, Copies bits c.file seg x := by
    intro x
    constructor
    · rintro ⟨seg, hseg, h⟩
      exact ⟨seg, hseg, copies_congr (hext (ne_nil_of_mem hseg))
        (fun b hin => ce.bit_in b ⟨seg, hseg, hin⟩) x h⟩
    · rintro ⟨seg, hseg, h⟩
      exact ⟨seg, hseg, copies_congr (hext (ne_nil_of_mem hseg)).symm
        (fun b hin => (ce.bit_in b ⟨seg, hseg, hin⟩).symm) x h⟩
  have hmarks : ∀ b, out.file.cachedChunks.bit b = true →
      ext.file.cachedChunks.bit b = true ∧ c.file.cachedChunks.bit b = true := by
    intro b h
    obtain ⟨hc, hin⟩ := (hbit b).mp h
    exact ⟨(ce.bit_in b hin).trans hc, hc⟩
  refine ⟨out, run_all, ?_, hbit, fun x hx hout hcopy => ?_, fun x hout hcopy => ?_⟩
  · exact co.length.trans blankCut.length
  · obtain ⟨seg, hseg, -⟩ := id hcopy
    obtain ⟨he, hc⟩ := hmarks _ hout
    rw [co.data_in x (by rw [hext (ne_nil_of_mem hseg)]; exact hx) he ((hcopies x).mpr hcopy),
      ce.data_in x hx hc hcopy]
  · obtain ⟨he, -⟩ := hmarks _ hout
    rw [co.data_out x he (mt (hcopies x).mp hcopy), blankCut.data]

/-- Discarding runs through only if the length and all segments are admissible. -/
theorem admitted_of_discard (hb : bits ≤ 32) (fits : FitsBitmap bits c.file)
    {segs : List CacheChunk} {out : Container} (run : discardPartialData bits c segs = some out) :
    c.file.length % 2 ^ 32 < 2 ^ 31 ∧ (segs ≠ [] → c.file.length < 2 ^ 32) ∧
      ∀ seg ∈ segs, Admitted bits c.file seg := by
  obtain ⟨tmp, run₁, run⟩ := bind_eq_some_iff.mp run
  obtain ⟨ext, run₂, -⟩ := bind_eq_some_iff.mp run
  have created := created_of_associate run₁
  obtain ⟨tmp', run₁', blank⟩ := associate_spec fits.capacity created
  rw [run₁, Option.some.injEq] at run₁'
  subst run₁'
  obtain ⟨hlen, adm⟩ := admitted_of_copySegments hb fits segs tmp blank.fits run₂
  refine ⟨created, fun h => ?_, adm⟩
  rw [hlen h, blank.length]
  exact Nat.mod_lt _ (by decide)

/-- Discarding runs through and loses no active data in exactly the cases of
`DiscardMet`. -/
theorem discard_preserves_iff_met (bits : Nat) (hb : bits ≤ 32) (c : Container)
    (fits : FitsBitmap bits c.file)
    (inside : ∀ b, bytesToCcblocksCeil bits c.file.length ≤ b → c.file.cachedChunks.bit b = false)
    (segs : List CacheChunk) :
    (∃ out, discardPartialData bits c segs = some out ∧ Preserved bits c out segs) ↔
      DiscardMet bits c segs := by
  constructor
  · rintro ⟨out, run, kept⟩
    obtain ⟨created, sized, adm⟩ := admitted_of_discard hb fits run
    obtain ⟨out', run', d⟩ := discardPartialData_spec hb fits inside segs created sized adm
    rw [run, Option.some.injEq] at run'
    subst run'
    refine ⟨created, sized, adm, fun b hbit hact => ?_, fun x hx hbit hin => ?_⟩
    · exact ((d.bit b).mp (kept.marked b hbit hact)).2
    · have hout := (d.bit _).mpr ⟨hbit, hin⟩
      by_cases hcopy : ∃ seg ∈ segs, Copies bits c.file seg x
      · exact .inr hcopy
      · rw [← kept.data x hx hout, d.lost x hout hcopy]
        exact .inl rfl
  · intro met
    obtain ⟨out, run, d⟩ := discardPartialData_spec hb fits inside segs met.created met.sized
      met.admitted
    refine ⟨out, run, d.length, fun x hx hout => ?_, fun b hb hact => ?_⟩
    · by_cases hcopy : ∃ seg ∈ segs, Copies bits c.file seg x
      · exact d.kept x hx hout hcopy
      · obtain ⟨hc, hin⟩ := (d.bit _).mp hout
        rw [d.lost x hout hcopy, (met.copied x hx hc hin).resolve_right hcopy]
    · exact (d.bit b).mpr ⟨hb, met.covered b hb hact⟩

/-- A file of two blocks of `2 ^ 30` bytes, the second one byte short. The first block is
marked, and every byte is a one. -/
def halfCached : Container where
  file := ⟨2 ^ 31 - 1, 2 ^ 30, ⟨4, [0x80#8]⟩⟩
  data := fun _ => 1

theorem halfCached_bit (b : Nat) : halfCached.file.cachedChunks.bit b = true ↔ b = 0 := by
  constructor
  · intro h
    by_contra hne
    by_cases hb : b < 8
    · have low : ∀ i < 8, i ≠ 0 → halfCached.file.cachedChunks.bit i = false := by decide
      rw [low b hb hne] at h
      cases h
    · rw [bit_eq_false_of_le (Nat.le_of_not_lt hb)] at h
      cases h
  · rintro rfl
    decide

theorem halfCached_inside {b : Nat} (h : b ≠ 0) : halfCached.file.cachedChunks.bit b = false :=
  Bool.eq_false_iff.mpr (mt (halfCached_bit b).mp h)

theorem halfCached_fits : FitsBitmap 30 halfCached.file where
  indexsize := by decide
  allocated := by decide
  capacity := by decide
  outside i hi := halfCached_inside (ne_of_gt (lt_of_lt_of_le (by decide) hi))
  mapsize := by decide

/-- With the hole of the second block inside the active segment, the first one is kept. -/
theorem discard_preserves_before_hole :
    ∃ out, discardPartialData 30 halfCached [⟨0, 2 ^ 31 - 1⟩] = some out ∧
      Preserved 30 halfCached out [⟨0, 2 ^ 31 - 1⟩] := by
  refine (discard_preserves_iff_met 30 (by decide) halfCached halfCached_fits
    (fun b hb => halfCached_inside (ne_of_gt (lt_of_lt_of_le (by decide) hb))) _).mpr
    ⟨by decide, fun _ => by decide, fun seg hseg => ?_, fun b hb _ => ?_, fun x _ hbit _ => ?_⟩
  · rw [mem_singleton] at hseg
    subst hseg
    exact ⟨by decide, by decide⟩
  · rw [(halfCached_bit b).mp hb]
    exact ⟨_, mem_singleton_self _, by decide, by decide⟩
  · have hzero := (halfCached_bit _).mp hbit
    refine .inr ⟨_, mem_singleton_self _, .inl ⟨Nat.zero_le _, 1, ?_, by decide, ?_⟩⟩
    · rw [hzero]
      decide
    · exact halfCached_inside (by decide)

/-- With the first block alone as the active segment, only its bytes 0 and 1 are copied,
and the block stays marked. -/
theorem discard_loses_final_run :
    ∃ out, discardPartialData 30 halfCached [⟨0, 2 ^ 30⟩] = some out ∧
      out.file.cachedChunks.bit 0 = true ∧ halfCached.data 2 = 1 ∧ out.data 2 = 0 ∧
      ¬ Preserved 30 halfCached out [⟨0, 2 ^ 30⟩] := by
  have run : (discardPartialData 30 halfCached [⟨0, 2 ^ 30⟩]).map
      (fun out => (out.file.cachedChunks.bit 0, out.data 2)) = some (true, 0) := by
    decide +kernel
  obtain ⟨out, hout, hread⟩ := map_eq_some_iff.mp run
  obtain ⟨hbit, hdata⟩ := Prod.mk.inj hread
  refine ⟨out, hout, hbit, rfl, hdata, fun kept => ?_⟩
  have hkept := kept.data 2 (by decide) hbit
  rw [hdata] at hkept
  exact absurd hkept (by decide)

end Discarding

end Coda.Venus
