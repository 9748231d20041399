import Mathlib.Algebra.BigOperators.Intervals
import Mathlib.Data.BitVec

/-!
The checksum of a logged range (`rvm/rvm_utils.c`) and its check during recovery
(`rvm/rvm_logrecovr.c`).

`chk_sum` adds up the words of a range, the first and the last one padded with zeros. A range of
two words loses its second word, and a range inside one word keeps the bytes behind it. This does
not matter as long as the same range is summed again, but `range_chk_sum` sums a range in pieces.
-/

namespace Coda.Rvm

open Finset

/-- `CHOP_TO_LENGTH`; `sizeof(rvm_length_t)` is 8. -/
def chopToLength (len : Nat) : Nat := len / 8 * 8

/-- `ROUND_TO_LENGTH`. -/
def roundToLength (len : Nat) : Nat := (len + 7) / 8 * 8

/-- `ALIGNED_LEN`. -/
def alignedLen (addr len : Nat) : Nat := roundToLength (addr + len) - chopToLength addr

/-- `BYTE_SKEW`. -/
def byteSkew (len : Nat) : Nat := len % 8

/-- The eight bytes of a word as a number, the first byte lowest. -/
def wordValue (word : Nat → BitVec 8) : BitVec 64 :=
  ∑ j ∈ range 8, BitVec.ofNat 64 ((word j).toNat * 256 ^ j)

def zeroPadWord (word : Nat → BitVec 8) (addr : Nat) (leading : Bool) : BitVec 64 :=
  let skew := byteSkew addr
  wordValue fun j =>
    -- the loops run over `i = j + 1` from 7 down to 1, and over `i = j - 1` from 0 to 6
    if leading then if j < 7 ∧ j + 1 ≤ skew then 0 else word j
    else if 1 ≤ j ∧ skew ≤ j - 1 then 0 else word j

/-- `chk_sum` of the `len` bytes at `nvaddr`. -/
def chkSum (mem : Nat → BitVec 8) (nvaddr len : Nat) : BitVec 64 :=
  if len = 0 then 0
  else
    let base := fun i j => mem (chopToLength nvaddr + 8 * i + j)
    let length := alignedLen nvaddr len / 8 - 1
    let sum := zeroPadWord (base 0) nvaddr true
    let sum := if 2 ≤ length then sum + zeroPadWord (base length) (nvaddr + len - 1) false else sum
    if length ≤ 1 then sum else sum + ∑ i ∈ Ico 1 length, wordValue (base i)

/-- What `range_chk_sum` adds up when the buffer holds the range in pieces of these lengths. The
buffer is aligned, so that a byte has the skew in it that it has in the log. -/
def rangeChkSum (mem : Nat → BitVec 8) : Nat → List Nat → BitVec 64
  | _, [] => 0
  | addr, chkLength :: rest => chkSum mem addr chkLength + rangeChkSum mem (addr + chkLength) rest

/-! ### The bytes in a checksum -/

/-- What one byte adds. -/
def byteTerm (mem : Nat → BitVec 8) (a : Nat) : BitVec 64 :=
  BitVec.ofNat 64 ((mem a).toNat * 256 ^ (a % 8))

variable {mem : Nat → BitVec 8} {nvaddr len : Nat}

/-- A word of which the bytes `[lo, hi)` are kept. -/
theorem wordValue_eq {word : Nat → BitVec 8} (k lo : Nat) {hi : Nat} (hhi : hi ≤ 8)
    (hword : ∀ j < 8, word j = if lo ≤ j ∧ j < hi then mem (8 * k + j) else 0) :
    wordValue word = ∑ a ∈ Ico (8 * k + lo) (8 * k + hi), byteTerm mem a := by
  have hfilter : (range 8).filter (fun j => lo ≤ j ∧ j < hi) = Ico lo hi := by
    ext j
    simp only [mem_filter, mem_range, mem_Ico]
    omega
  rw [add_comm _ lo, add_comm _ hi, ← sum_Ico_add, ← hfilter, sum_filter]
  refine sum_congr rfl fun j hj => ?_
  have hj := mem_range.mp hj
  rw [hword j hj]
  split_ifs
  · rw [byteTerm, Nat.mul_add_mod, Nat.mod_eq_of_lt hj]
  · simp

/-- The full words between the first and the last one. -/
theorem sum_words (mem : Nat → BitVec 8) (k : Nat) {n : Nat} (hn : 1 ≤ n) :
    ∑ i ∈ Ico 1 n, wordValue (fun j => mem (8 * k + 8 * i + j)) =
      ∑ a ∈ Ico (8 * (k + 1)) (8 * (k + n)), byteTerm mem a := by
  induction n, hn using Nat.le_induction with
  | base => simp
  | succ n hn ih =>
    have hword : wordValue (fun j => mem (8 * k + 8 * n + j)) =
        ∑ a ∈ Ico (8 * (k + n)) (8 * (k + n) + 8), byteTerm mem a :=
      wordValue_eq (k + n) 0 le_rfl fun j hj => by rw [if_pos ⟨Nat.zero_le j, hj⟩, mul_add]
    rw [sum_Ico_succ_top hn, ih, hword, sum_Ico_consecutive _ (by omega) (by omega)]
    rfl

/-- The words that a range touches. -/
def words (nvaddr len : Nat) : Nat := alignedLen nvaddr len / 8

/-- Where the bytes in the checksum of a range end: with the range if it has three words, and
with its first word otherwise. -/
def sumEnd (nvaddr len : Nat) : Nat :=
  if 3 ≤ words nvaddr len then nvaddr + len else (nvaddr / 8 + 1) * 8

theorem chkSum_eq (h : 0 < len) :
    chkSum mem nvaddr len = ∑ a ∈ Ico nvaddr (sumEnd nvaddr len), byteTerm mem a := by
  obtain ⟨k, s, hs, rfl⟩ : ∃ k s, s < 8 ∧ nvaddr = 8 * k + s :=
    ⟨nvaddr / 8, nvaddr % 8, Nat.mod_lt _ (by decide), by omega⟩
  have hbase : chopToLength (8 * k + s) = 8 * k := by unfold chopToLength; omega
  have hwords : words (8 * k + s) len = (8 * k + s + len - 1) / 8 - k + 1 := by
    unfold words alignedLen roundToLength
    omega
  have hlead : zeroPadWord (fun j => mem (8 * k + 8 * 0 + j)) (8 * k + s) true =
      ∑ a ∈ Ico (8 * k + s) (8 * k + 8), byteTerm mem a := by
    refine wordValue_eq k s le_rfl fun j hj => ?_
    unfold byteSkew
    simp only [mul_zero]
    split_ifs <;> first | rfl | omega
  unfold chkSum sumEnd
  rw [if_neg (by omega)]
  simp only [hbase, ← words.eq_1, hwords, Nat.add_sub_cancel, hlead]
  generalize hn : (8 * k + s + len - 1) / 8 - k = n
  by_cases hthree : 2 ≤ n
  · rw [if_pos hthree, if_neg (by omega), if_pos (by omega), sum_words mem k (by omega)]
    have htrail : zeroPadWord (fun j => mem (8 * k + 8 * n + j)) (8 * k + s + len - 1) false =
        ∑ a ∈ Ico (8 * (k + n)) (8 * k + s + len), byteTerm mem a := by
      rw [show 8 * k + s + len = 8 * (k + n) + ((8 * k + s + len - 1) % 8 + 1) by omega]
      refine wordValue_eq (k + n) 0 (by omega) fun j hj => ?_
      unfold byteSkew
      simp only [Bool.false_eq_true, if_false, mul_add]
      split_ifs <;> first | rfl | omega
    rw [htrail, add_right_comm, ← Nat.mul_succ,
      sum_Ico_consecutive _ (by omega) (by omega), sum_Ico_consecutive _ (by omega) (by omega)]
  · rw [if_neg hthree, if_pos (by omega), if_neg (by omega)]
    congr 2
    omega

/-! ### Recovery -/

/-- The checksum of the piece has its bytes and no others. -/
def Whole (addr len : Nat) : Prop := sumEnd addr len = addr + len

/-- Each piece that starts at `addr` or after it is whole. -/
def AllWhole : Nat → List Nat → Prop
  | _, [] => True
  | addr, n :: rest => Whole addr n ∧ AllWhole (addr + n) rest

/-- Pieces are not empty, and all but the last one end with a word. -/
def Cut : Nat → List Nat → Prop
  | _, [] => True
  | addr, n :: rest => 0 < n ∧ (rest ≠ [] → (addr + n) % 8 = 0) ∧ Cut (addr + n) rest

/-- The byte is in the checksum of a piece. -/
def Summed : Nat → List Nat → Nat → Prop
  | _, [], _ => False
  | addr, n :: rest, a => (addr ≤ a ∧ a < sumEnd addr n) ∨ Summed (addr + n) rest a

section Pieces

variable {addr n a : Nat} {pieces rest : List Nat}

theorem lt_sumEnd (addr : Nat) (hn : 0 < n) : addr < sumEnd addr n := by
  unfold sumEnd
  split <;> omega

theorem sumEnd_le (hn : 0 < n) (hend : (addr + n) % 8 = 0) : sumEnd addr n ≤ addr + n := by
  unfold sumEnd
  split <;> omega

theorem Summed.le (h : Summed addr pieces a) : addr ≤ a := by
  induction pieces generalizing addr with
  | nil => cases h
  | cons n rest ih =>
    rcases h with h | h
    · exact h.1
    · exact (Nat.le_add_right _ _).trans (ih h)

theorem rangeChkSum_of_whole (mem : Nat → BitVec 8) (cut : Cut addr pieces)
    (whole : AllWhole addr pieces) :
    rangeChkSum mem addr pieces = ∑ a ∈ Ico addr (addr + pieces.sum), byteTerm mem a := by
  induction pieces generalizing addr with
  | nil => simp [rangeChkSum]
  | cons n rest ih =>
    rw [rangeChkSum, chkSum_eq cut.1, whole.1, ih cut.2.2 whole.2, List.sum_cons,
      ← add_assoc, sum_Ico_consecutive _ (by omega) (by omega)]

/-- Pieces that have just the bytes of the range are whole. -/
theorem allWhole_of_summed (cut : Cut addr pieces)
    (h : ∀ a, Summed addr pieces a ↔ addr ≤ a ∧ a < addr + pieces.sum) : AllWhole addr pieces := by
  induction pieces generalizing addr with
  | nil => trivial
  | cons n rest ih =>
    obtain ⟨hn, hword, cut⟩ := cut
    rw [List.sum_cons] at h
    have whole : Whole addr n := by
      rcases lt_trichotomy (sumEnd addr n) (addr + n) with lost | heq | extra
      · -- the next piece begins behind the byte
        obtain hfirst | hrest := (h (sumEnd addr n)).mpr ⟨(lt_sumEnd addr hn).le, by omega⟩
        · exact absurd hfirst.2 (lt_irrefl _)
        · exact absurd hrest.le (by omega)
      · exact heq
      · have hlast : rest = [] := by
          by_contra hrest
          exact absurd (sumEnd_le hn (hword hrest)) (by omega)
        rw [hlast, List.sum_nil] at h
        exact absurd ((h (addr + n)).mp (.inl ⟨Nat.le_add_right _ _, extra⟩)).2 (lt_irrefl _)
    refine ⟨whole, ih cut fun a => ⟨fun ha => ?_, fun ha => ?_⟩⟩
    · have hrange := ((h a).mp (.inr ha)).2
      exact ⟨ha.le, by omega⟩
    · obtain hfirst | hrest := (h a).mpr ⟨by omega, by omega⟩
      · rw [whole] at hfirst
        omega
      · exact hrest

end Pieces

/-! ### The bytes that a checksum depends on -/

/-- The checksum of a range changes with each byte of the range and with no other one. -/
def DependsExactly (nvaddr len : Nat) : Prop :=
  (∀ mem mem' : Nat → BitVec 8, ∀ a ∈ Ico nvaddr (nvaddr + len), mem a ≠ mem' a →
      (∀ b ≠ a, mem b = mem' b) → chkSum mem nvaddr len ≠ chkSum mem' nvaddr len) ∧
    ∀ mem mem' : Nat → BitVec 8, (∀ a ∈ Ico nvaddr (nvaddr + len), mem a = mem' a) →
      chkSum mem nvaddr len = chkSum mem' nvaddr len

/-- The memory that is zero but for one byte. -/
def byteAt (a : Nat) : Nat → BitVec 8 := fun b => if b = a then 1 else 0

theorem byteAt_self (a : Nat) : byteAt a a ≠ 0 := by simp [byteAt]

theorem byteAt_of_ne {a b : Nat} (h : b ≠ a) : byteAt a b = 0 := if_neg h

theorem chkSum_congr {mem' : Nat → BitVec 8} (h : 0 < len)
    (agree : ∀ a ∈ Ico nvaddr (sumEnd nvaddr len), mem a = mem' a) :
    chkSum mem nvaddr len = chkSum mem' nvaddr len := by
  rw [chkSum_eq h, chkSum_eq h]
  exact sum_congr rfl fun a ha => by rw [byteTerm, byteTerm, agree a ha]

/-- The bytes of a word do not overlap in the sum. -/
theorem byteTerm_ne {mem' : Nat → BitVec 8} {a : Nat} (ne : mem a ≠ mem' a) :
    byteTerm mem a ≠ byteTerm mem' a := by
  have hpos : 0 < 256 ^ (a % 8) := Nat.pow_pos (by decide)
  have hsmall (x : BitVec 8) : x.toNat * 256 ^ (a % 8) < 2 ^ 64 :=
    calc x.toNat * 256 ^ (a % 8) < 256 * 256 ^ (a % 8) := Nat.mul_lt_mul_of_pos_right x.isLt hpos
      _ ≤ 256 * 256 ^ 7 :=
        Nat.mul_le_mul_left _ (Nat.pow_le_pow_right (by decide) (by omega))
  intro heq
  have heq := congrArg BitVec.toNat heq
  rw [byteTerm, byteTerm, BitVec.toNat_ofNat, BitVec.toNat_ofNat, Nat.mod_eq_of_lt (hsmall _),
    Nat.mod_eq_of_lt (hsmall _)] at heq
  exact ne (BitVec.eq_of_toNat_eq (Nat.eq_of_mul_eq_mul_right hpos heq))

theorem chkSum_ne {mem' : Nat → BitVec 8} {a : Nat} (h : 0 < len)
    (ha : a ∈ Ico nvaddr (sumEnd nvaddr len)) (ne : mem a ≠ mem' a)
    (others : ∀ b ≠ a, mem b = mem' b) : chkSum mem nvaddr len ≠ chkSum mem' nvaddr len := by
  have hrest : ∑ b ∈ (Ico nvaddr (sumEnd nvaddr len)).erase a, byteTerm mem b =
      ∑ b ∈ (Ico nvaddr (sumEnd nvaddr len)).erase a, byteTerm mem' b :=
    sum_congr rfl fun b hb => by rw [byteTerm, byteTerm, others b (ne_of_mem_erase hb)]
  rw [chkSum_eq h, chkSum_eq h, ← add_sum_erase _ _ ha, ← add_sum_erase _ _ ha, hrest]
  exact fun heq => byteTerm_ne ne (add_right_cancel heq)

/-- A checksum depends on exactly its range if the range has three words or ends with its first
word. -/
theorem dependsExactly_iff (h : 0 < len) :
    DependsExactly nvaddr len ↔ sumEnd nvaddr len = nvaddr + len := by
  constructor
  · rintro ⟨every, only⟩
    rcases lt_trichotomy (sumEnd nvaddr len) (nvaddr + len) with lost | heq | extra
    · refine absurd (chkSum_congr h fun a ha => ?_) (every _ _ (sumEnd nvaddr len)
        (mem_Ico.mpr ⟨(lt_sumEnd nvaddr h).le, lost⟩) (byteAt_self _) fun _ => byteAt_of_ne)
      exact byteAt_of_ne (mem_Ico.mp ha).2.ne
    · exact heq
    · refine absurd (only _ _ fun a ha => ?_) (chkSum_ne h
        (mem_Ico.mpr ⟨Nat.le_add_right _ _, extra⟩) (byteAt_self _) fun _ => byteAt_of_ne)
      exact byteAt_of_ne (mem_Ico.mp ha).2.ne
  · intro heq
    rw [DependsExactly, ← heq]
    exact ⟨fun _ _ _ ha => chkSum_ne h ha, fun _ _ => chkSum_congr h⟩

theorem dependsExactly_three_words : DependsExactly 3 47 :=
  (dependsExactly_iff (by decide)).mpr rfl

/-- Two words: the checksum is the one of the first word. -/
theorem not_dependsExactly_two_words : ¬ DependsExactly 0 16 := by
  intro h
  exact h.1 (fun a => if a = 8 then 1 else 0) 0 8 (by decide) (by decide)
    (fun b hb => if_neg hb) (by decide +kernel)

/-! ### Ranges in pieces -/

section Cuts

variable {addr a : Nat} {pieces : List Nat}

/-- The checksum of a single byte tells whether it is in it. -/
theorem chkSum_byteAt (h : 0 < len) : chkSum (byteAt a) nvaddr len =
    if nvaddr ≤ a ∧ a < sumEnd nvaddr len then byteTerm (byteAt a) a else 0 := by
  have hzero : ∀ b, b ≠ a → byteTerm (byteAt a) b = 0 := fun b hb => by
    simp [byteTerm, byteAt_of_ne hb]
  rw [chkSum_eq h]
  split_ifs with ha
  · exact sum_eq_single_of_mem a (mem_Ico.mpr ha) fun b _ hb => hzero b hb
  · exact sum_eq_zero fun b hb => hzero b fun heq => ha (mem_Ico.mp (heq ▸ hb))

theorem byteTerm_byteAt (a : Nat) : byteTerm (byteAt a) a ≠ 0 := by
  have hne := @byteTerm_ne (byteAt a) (fun _ => 0) a (byteAt_self a)
  simpa [byteTerm] using hne

open Classical in
theorem rangeChkSum_byteAt (cut : Cut addr pieces) : rangeChkSum (byteAt a) addr pieces =
    if Summed addr pieces a then byteTerm (byteAt a) a else 0 := by
  induction pieces generalizing addr with
  | nil => simp [rangeChkSum, Summed]
  | cons n rest ih =>
    obtain ⟨hn, hword, cut⟩ := cut
    rw [rangeChkSum, chkSum_byteAt hn, ih cut, Summed]
    by_cases hfirst : addr ≤ a ∧ a < sumEnd addr n
    · have hrest : ¬ Summed (addr + n) rest a := by
        intro hrest
        have hle := hrest.le
        have hend := sumEnd_le hn (hword (by rintro rfl; cases hrest))
        omega
      rw [if_pos hfirst, if_neg hrest, if_pos (.inl hfirst), add_zero]
    · simp only [hfirst, if_false, false_or, zero_add]

/-- Where an undamaged range passes whatever its data, the pieces have the bytes of the whole. -/
theorem summed_iff (cut : Cut addr pieces) (hpos : 0 < pieces.sum)
    (h : ∀ mem, rangeChkSum mem addr pieces = chkSum mem addr pieces.sum) (a : Nat) :
    Summed addr pieces a ↔ addr ≤ a ∧ a < sumEnd addr pieces.sum := by
  classical
  have heq := h (byteAt a)
  rw [rangeChkSum_byteAt cut, chkSum_byteAt hpos] at heq
  have hne := byteTerm_byteAt a
  by_cases hsummed : Summed addr pieces a
  · rw [if_pos hsummed] at heq
    refine iff_of_true hsummed (by_contra fun hout => ?_)
    rw [if_neg hout] at heq
    exact hne heq
  · rw [if_neg hsummed] at heq
    refine iff_of_false hsummed fun hin => ?_
    rw [if_pos hin] at heq
    exact hne heq.symm

/-- An undamaged range passes whatever its data exactly if it is not cut, or it and all of its pieces
have three words or end with their first word. -/
theorem rangeChkSum_eq_iff (addr : Nat) (pieces : List Nat) (cut : Cut addr pieces) :
    (∀ mem, rangeChkSum mem addr pieces = chkSum mem addr pieces.sum) ↔
      pieces.length ≤ 1 ∨ (Whole addr pieces.sum ∧ AllWhole addr pieces) := by
  match pieces, cut with
  | [], _ => exact iff_of_true (fun _ => rfl) (.inl (Nat.zero_le 1))
  | [n], _ => exact iff_of_true (fun mem => by simp [rangeChkSum]) (.inl le_rfl)
  | n₁ :: n₂ :: rest, cut =>
    have hn₁ := cut.1
    have hn₂ := cut.2.2.1
    have hword := cut.2.1 (by simp)
    have hpos : 0 < (n₁ :: n₂ :: rest).sum := by simp only [List.sum_cons]; omega
    constructor
    · intro h
      have hsummed := summed_iff cut hpos h
      have whole : Whole addr (n₁ :: n₂ :: rest).sum := by
        -- of two words the second one is in the checksum of the second piece
        have hsecond := ((hsummed (addr + n₁)).mp
          (.inr (.inl ⟨le_rfl, lt_sumEnd (addr + n₁) hn₂⟩))).2
        by_cases hthree : 3 ≤ words addr (n₁ :: n₂ :: rest).sum
        · exact if_pos hthree
        · rw [sumEnd, if_neg hthree] at hsecond
          omega
      refine .inr ⟨whole, allWhole_of_summed cut fun a => ?_⟩
      rw [hsummed, whole]
    · rintro (hone | ⟨whole, pieces_whole⟩) mem
      · simp at hone
      · rw [rangeChkSum_of_whole mem cut pieces_whole, chkSum_eq hpos, whole]

end Cuts

/-- A range in three pieces of three words and more. -/
theorem rangeChkSum_eq_three_pieces :
    rangeChkSum (BitVec.ofNat 8) 3 [21, 24, 26] = chkSum (BitVec.ofNat 8) 3 71 :=
  (rangeChkSum_eq_iff 3 [21, 24, 26] (by simp [Cut])).mpr
    (.inr ⟨rfl, rfl, rfl, rfl, trivial⟩) (BitVec.ofNat 8)

/-- A range with its header fills a buffer of 256 KB, and its last two words come with the next one:
the last word is lost. -/
theorem rangeChkSum_loses_word :
    rangeChkSum (byteAt (262032 + 8)) 0 [262032, 16] ≠ chkSum (byteAt (262032 + 8)) 0 262048 := by
  classical
  rw [rangeChkSum_byteAt (by simp [Cut]), chkSum_byteAt (by decide)]
  have hwhole : sumEnd 0 262048 = 262048 := rfl
  have hsummed : ¬ Summed 0 [262032, 16] (262032 + 8) := by
    rintro (h | h | h)
    · exact absurd h.2 (by decide)
    · exact absurd h.2 (by decide)
    · exact h
  rw [if_neg hsummed, if_pos (by rw [hwhole]; decide)]
  exact (byteTerm_byteAt _).symm

end Coda.Rvm
