import Mathlib

/-!
The heap of the recoverable allocator (`rds/rds_init.c`).

`rds_init_heap` puts the list headers at the start of a region and makes the rest one free block.
The block starts at a multiple of the chunk size, but its size is the space that was there before
the start was rounded up.
-/

namespace Coda.Rds

def freeGuard : Nat := 0x345298af
def endGuard : Nat := 0xfd10a32e
def freeListGuard : Nat := 0xad938945

/-- `free_block_t`, with the guard in the last word of the block. -/
structure FreeBlock where
  addr : Nat
  size : Nat
  type : Nat
  blockEnd : Nat

/-- `free_list_t`, with the blocks from `head` on. -/
structure FreeList where
  guard : Nat
  blocks : List FreeBlock

structure HeapHeader where
  heaplength : Nat
  chunkSize : Nat
  nlists : Nat
  maxlist : Nat
  freebytes : Nat
  lists : Nat → FreeList

inductive InitError
  | enoRoom
  | assertion
  deriving DecidableEq

/-- `sizeof(heap_header_t)` and the list headers behind it. -/
def heapHdrLen (nlists : Nat) : Nat := 264 + nlists * 16

/-- `rds_init_heap` where each `rvm_set_range` succeeds. The list headers hold `old` before. -/
def rdsInitHeap (old : Nat → FreeList) (base length chunkSize nlists : Nat) :
    Except InitError HeapHeader :=
  if length < heapHdrLen nlists % 2 ^ 64 then .error .enoRoom
  -- `sizeof(free_block_t) + sizeof(guard_t)`
  else if chunkSize < 40 then .error .assertion
  else
    -- the counter of the loop is an `int`
    let lists := fun i =>
      if 1 ≤ i ∧ i < (nlists + 1) % 2 ^ 64 ∧ i < 2 ^ 31 then ⟨freeListGuard, []⟩ else old i
    let remainingSpace := length - heapHdrLen nlists % 2 ^ 64
    let fbp := (base + heapHdrLen nlists + chunkSize - 1) % 2 ^ 64 / chunkSize * chunkSize
    let size := remainingSpace / chunkSize
    if base + length < (fbp + size * chunkSize) % 2 ^ 64 then .error .assertion
    else .ok
      { heaplength := length, chunkSize, nlists, maxlist := nlists
        freebytes := size * chunkSize % 2 ^ 32
        lists := Function.update lists nlists
          { lists nlists with blocks := [⟨fbp, size, freeGuard, endGuard⟩] } }

/-- A new heap in `[base, base + length)`: the lists are empty but for the last one, which has one
block of a chunk or more behind the list headers. -/
structure HeapHeader.WellFormed (h : HeapHeader) (base length : Nat) : Prop where
  nonempty : 1 ≤ h.nlists
  guards : ∀ i, 1 ≤ i → i ≤ h.nlists → (h.lists i).guard = freeListGuard
  empty : ∀ i, 1 ≤ i → i < h.nlists → (h.lists i).blocks = []
  last : h.maxlist = h.nlists ∧ h.heaplength = length
  block : ∃ b, (h.lists h.nlists).blocks = [b] ∧ b.type = freeGuard ∧ b.blockEnd = endGuard ∧
    1 ≤ b.size ∧ base + heapHdrLen h.nlists ≤ b.addr ∧
    b.addr + b.size * h.chunkSize ≤ base + length

/-- A region with room for a chunk behind the list headers, where the chunks leave over the bytes
that the first block is moved by. -/
def Fits (base length chunkSize nlists : Nat) : Prop :=
  1 ≤ nlists ∧ nlists < 2 ^ 31 ∧ heapHdrLen nlists + chunkSize ≤ length ∧
    (chunkSize - (base + heapHdrLen nlists) % chunkSize) % chunkSize ≤
      (length - heapHdrLen nlists) % chunkSize

variable {base length chunkSize nlists : Nat}

theorem roundUp_eq {a c : Nat} (hc : 0 < c) : (a + c - 1) / c * c = a + (c - a % c) % c := by
  have hdiv := Nat.div_add_mod a c
  have hmod := Nat.mod_lt a hc
  rcases Nat.eq_zero_or_pos (a % c) with hzero | hpos
  · have hq : (a + c - 1) / c = a / c := by
      rw [Nat.div_eq_iff hc]
      constructor <;> grind
    rw [hq, hzero, Nat.sub_zero, Nat.mod_self, Nat.mul_comm]
    omega
  · have hq : (a + c - 1) / c = a / c + 1 := by
      rw [Nat.div_eq_iff hc]
      constructor <;> grind
    rw [hq, Nat.mod_eq_of_lt (by omega : c - a % c < c), Nat.add_mul, Nat.mul_comm]
    omega

/-- The rounded block ends in the region if what it is moved by is left over. -/
theorem roundUp_add_le_iff {a l c : Nat} (hc : 0 < c) :
    (a + c - 1) / c * c + l / c * c ≤ a + l ↔ (c - a % c) % c ≤ l % c := by
  have hdiv := Nat.div_add_mod l c
  rw [roundUp_eq hc, Nat.mul_comm (l / c)]
  omega

/-- Whatever the region holds before. -/
theorem rdsInitHeap_ok_iff (hchunk : 40 ≤ chunkSize) (hregion : base + length < 2 ^ 64) :
    (∀ old, rdsInitHeap old base length chunkSize nlists = .error .enoRoom ∨
        ∃ h, rdsInitHeap old base length chunkSize nlists = .ok h ∧ h.WellFormed base length) ↔
      length < heapHdrLen nlists % 2 ^ 64 ∨ Fits base length chunkSize nlists := by
  have hpos : 0 < chunkSize := by omega
  unfold rdsInitHeap
  by_cases hroom : length < heapHdrLen nlists % 2 ^ 64
  · exact iff_of_true (fun _ => .inl (if_pos hroom)) (.inl hroom)
  simp only [if_neg hroom, if_neg (Nat.not_lt.mpr hchunk), or_iff_right hroom]
  constructor
  · intro hall
    obtain herr | ⟨h, hok, wf⟩ := hall fun _ => ⟨0, []⟩
    · split at herr <;> cases herr
    split at hok
    · cases hok
    cases hok
    obtain ⟨b, hb, -, -, hsize, hstart, hend⟩ := wf.block
    simp only [Function.update_self, List.cons.injEq, and_true] at hb
    subst hb
    dsimp only at hsize hstart hend
    -- the block is behind the list headers, so that their length does not wrap
    have hfbp := Nat.div_mul_le_self
      ((base + heapHdrLen nlists + chunkSize - 1) % 2 ^ 64) chunkSize
    have hhdr : heapHdrLen nlists % 2 ^ 64 = heapHdrLen nlists := Nat.mod_eq_of_lt (by omega)
    simp only [hhdr] at hsize hstart hend hroom
    have hlen : chunkSize ≤ length - heapHdrLen nlists := (Nat.one_le_div_iff hpos).mp hsize
    rw [Nat.mod_eq_of_lt (by omega : base + heapHdrLen nlists + chunkSize - 1 < 2 ^ 64)] at hend
    refine ⟨wf.nonempty, ?_, by omega, (roundUp_add_le_iff hpos).mp (by omega)⟩
    have hguard := wf.guards nlists wf.nonempty (Nat.le_refl _)
    simp only [Function.update_self] at hguard
    split at hguard
    · omega
    · cases hguard
  · rintro ⟨hone, hint, hlen, hleft⟩ old
    have hhdr : heapHdrLen nlists % 2 ^ 64 = heapHdrLen nlists := Nat.mod_eq_of_lt (by omega)
    have hend := (roundUp_add_le_iff hpos).mpr hleft
    rw [hhdr, Nat.mod_eq_of_lt (by omega : base + heapHdrLen nlists + chunkSize - 1 < 2 ^ 64),
      Nat.mod_eq_of_lt (by omega), if_neg (by omega)]
    have hset (i : Nat) (hi : 1 ≤ i) (hin : i ≤ nlists) :
        1 ≤ i ∧ i < (nlists + 1) % 2 ^ 64 ∧ i < 2 ^ 31 := by omega
    refine .inr ⟨_, rfl, hone, fun i hi hin => ?_, fun i hi hin => ?_, ⟨rfl, rfl⟩, ?_⟩
    · by_cases hlast : i = nlists
      · simp only [hlast, Function.update_self, if_pos (hset nlists hone (Nat.le_refl _))]
      · simp only [Function.update_of_ne hlast, if_pos (hset i hi hin)]
    · simp only [Function.update_of_ne (Nat.ne_of_lt hin), if_pos (hset i hi (Nat.le_of_lt hin))]
    · have hsize := (Nat.one_le_div_iff hpos).mpr (Nat.le_sub_of_add_le' hlen)
      simp only [Function.update_self]
      exact ⟨_, rfl, rfl, rfl, hsize, Nat.le.intro (roundUp_eq hpos).symm,
        by dsimp only; omega⟩

theorem rdsInitHeap_ok_page : Fits 4096 4096 64 10 ∧ ∀ old,
    rdsInitHeap old 4096 4096 64 10 = .error .enoRoom ∨
      ∃ h, rdsInitHeap old 4096 4096 64 10 = .ok h ∧ h.WellFormed 4096 4096 := by
  have fits : Fits 4096 4096 64 10 := by unfold Fits; decide
  exact ⟨fits, (rdsInitHeap_ok_iff (by decide) (by decide)).mpr (.inr fits)⟩

/-- A region for the list headers and one chunk, which the block is moved out of. -/
theorem rdsInitHeap_assertion :
    rdsInitHeap (fun _ => ⟨0, []⟩) 4096 344 64 1 = .error .assertion := rfl

end Coda.Rds
