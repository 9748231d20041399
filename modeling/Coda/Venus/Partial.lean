import Coda.Venus.Discard

/-!
The caching mode of a container file (`coda-src/venus/fso_cachefile.cc`): `SetPartial` keeps the
byte count only where there is nothing to count again (`setPartial_truthful_iff`).
-/

namespace Coda.Venus

open Coda.Bitmap Coda.Lib List Option

/-! ### Switching the mode -/

section Mode

variable (bits : Nat)

/-- A `CacheFile` with its mode. The bitmap is only there in partial mode. -/
structure ModedFile where
  isPartial : Bool
  file : CacheFile
deriving DecidableEq

/-- `CacheFile::SetValidData(len)` in either mode. -/
def ModedFile.setValidData (m : ModedFile) (len : Nat) : Option ModedFile :=
  if m.isPartial then (Venus.setValidData bits m.file 0 len).map fun file => { m with file }
  else if ¬ len ≤ m.file.length then none
  else if len = 0 then some m
  else some { m with file := { m.file with validdata := len } }

/-- `CacheFile::ConsecutiveValidData`. -/
def ModedFile.consecutiveValidData (m : ModedFile) : Nat :=
  let lengthCcb := bytesToCcblocksCeil bits m.file.length
  if ¬ m.isPartial then m.file.validdata
  else
    let index := scan (fun i => value m.file.cachedChunks i = 0) lengthCcb 0
    if index = lengthCcb then m.file.length else ccblocksToBytes bits index

/-- `CacheFile::SetPartial`. The mode is set before anything is counted. -/
def ModedFile.setPartial (m : ModedFile) (isPartial : Bool) : Option ModedFile :=
  if isPartial = m.isPartial then some m
  else if isPartial then
    let chunks := bitmap7 (cacheChunkBlockBitmapSize bits)
    ModedFile.setValidData bits ⟨true, { m.file with cachedChunks := chunks }⟩ m.file.validdata
  else
    let m : ModedFile := { m with isPartial := false }
    (m.setValidData bits (m.consecutiveValidData bits)).map fun m =>
      { m with file := { m.file with cachedChunks := bitmap7 0 } }

end Mode

section Truthful

variable {bits : Nat}

/-- The loop of `SetValidData` counts every block it marks. -/
theorem markLoop_count {l : List Nat} {acc acc' : Bitmap7 × Nat}
    (run : l.foldlM (markBlock bits) acc = some acc') :
    acc.2 ≤ acc'.2 ∧ (acc'.2 = acc.2 → acc' = acc) := by
  induction l generalizing acc with
  | nil =>
    cases run
    exact ⟨le_rfl, fun _ => rfl⟩
  | cons i l ih =>
    rw [foldlM_cons, markBlock] at run
    split_ifs at run with hv
    · exact ih run
    · obtain ⟨acc₁, mark, run⟩ := bind_eq_some_iff.mp run
      obtain ⟨chunks, -, heq⟩ := bind_eq_some_iff.mp mark
      cases heq
      obtain ⟨le, -⟩ := ih run
      have hpos := blockSize_pos bits
      simp only [cacheChunkBlockSize_eq] at le
      exact ⟨by omega, fun h => by omega⟩

/-- `SetValidData` adds to the byte count unless it marks nothing. -/
theorem setValidData_count {c c' : CacheFile} {start : Nat} {len : Int}
    (run : setValidData bits c start len = some c') (hle : c'.validdata ≤ c.validdata) :
    c' = c := by
  unfold setValidData at run
  generalize (if len < 0 then c.length - start else len.toNat) = n at run
  dsimp only at run
  split_ifs at run with hstart hlen hzero hpos
  · exact (some.inj run).symm
  · obtain ⟨acc, loop, run⟩ := bind_eq_some_iff.mp run
    obtain ⟨-, same⟩ := markLoop_count loop
    split_ifs at run
    · obtain ⟨chunks, -, run⟩ := bind_eq_some_iff.mp run
      cases run
      have := lt_bytesToCcblocksCeil_iff.mp (Nat.sub_lt hpos one_pos)
      simp only [ccblocksToBytes_eq] at hle
      omega
    · cases run
      simp only at hle
      have hacc := same (by simp only; omega)
      subst hacc
      rfl
  · obtain ⟨acc, -, run⟩ := bind_eq_some_iff.mp run
    cases run

/-- The prefixes of the file whose blocks are all marked. -/
def markedPrefixes (bits : Nat) (c : CacheFile) : Set Nat :=
  { n | n ≤ c.length ∧ ∀ i, i * 2 ^ bits < n → c.cachedChunks.bit i = true }

/-- Entering partial mode is right only without valid data, leaving it only when the valid data
is a prefix. -/
theorem setPartial_truthful_iff (m : ModedFile) (h : m.file.validdata ≤ m.file.length) :
    (m.isPartial = false →
      ((∃ m', m.setPartial bits true = some m' ∧ m'.file.validdata ≤ m.file.validdata ∧
        m'.file.validdata =
          ∑ i ∈ m'.file.cachedChunks.marked, blockBytes bits m.file.length i) ↔
        m.file.validdata = 0)) ∧
    (m.isPartial = true →
      ((∃ m', m.setPartial bits false = some m' ∧
        IsGreatest (markedPrefixes bits m.file) m'.file.validdata) ↔
        IsGreatest (markedPrefixes bits m.file) m.file.validdata)) := by
  obtain ⟨isPartial, c⟩ := m
  have hempty : (bitmap7 (cacheChunkBlockBitmapSize bits)).marked = ∅ :=
    Finset.eq_empty_of_forall_notMem fun i hi => by
      rw [mem_marked, bit_bitmap7] at hi
      cases hi
  constructor
  · rintro rfl
    constructor
    · rintro ⟨m', run, hle, sum⟩
      obtain ⟨c', mark, rfl⟩ := map_eq_some_iff.mp run
      rw [setValidData_count mark hle] at sum
      simpa [hempty] using sum
    · intro hzero
      simp only at hzero
      refine ⟨⟨true, { c with cachedChunks := bitmap7 (cacheChunkBlockBitmapSize bits) }⟩, ?_,
        le_rfl, ?_⟩
      · simp [ModedFile.setPartial, ModedFile.setValidData, setValidData, hzero]
      · simp [hempty, hzero]
  · rintro rfl
    -- the mode is already off, so the count is taken for the prefix
    have hrun : ModedFile.setPartial bits ⟨true, c⟩ false =
        some ⟨false, { c with cachedChunks := bitmap7 0 }⟩ := by
      simp only [ModedFile.setPartial, ModedFile.consecutiveValidData, ModedFile.setValidData]
      by_cases hzero : c.validdata = 0 <;> simp_all
    rw [hrun]
    simp

theorem setPartial_truthful_empty :
    ∃ m', ModedFile.setPartial 12 ⟨false, ⟨5, 0, bitmap7 0⟩⟩ true = some m' ∧
      m'.file.validdata ≤ 0 ∧
      m'.file.validdata = ∑ i ∈ m'.file.cachedChunks.marked, blockBytes 12 5 i :=
  ((@setPartial_truthful_iff 12 ⟨false, ⟨5, 0, bitmap7 0⟩⟩ (by decide)).1 rfl).mpr rfl

/-- A complete file of one block is counted twice; a file whose second block is marked keeps
the count of that block when it has no valid prefix. -/
theorem setPartial_counts_twice :
    ModedFile.setPartial 30 ⟨false, ⟨2 ^ 30, 2 ^ 30, bitmap7 0⟩⟩ true =
      some ⟨true, ⟨2 ^ 30, 2 ^ 31, ⟨4, [0x80#8]⟩⟩⟩ ∧
    ModedFile.setPartial 30 ⟨true, ⟨2 ^ 31, 2 ^ 30, ⟨4, [0x40#8]⟩⟩⟩ false =
      some ⟨false, ⟨2 ^ 31, 2 ^ 30, bitmap7 0⟩⟩ := by
  decide +kernel

end Truthful

end Coda.Venus
