import Coda.Lib.Bits

/-!
Bit masks over a window of packets (`sftp.h`, `sftp5.c`).

A mask is two words; the leftmost position is 1, the rightmost 64. Positions outside are not in the
array, and nothing is said about them.
-/

namespace Coda.Sftp

open Coda.Lib

/-- An `unsigned int [BITMASKWIDTH]`. -/
structure Mask where
  word0 : BitVec 32
  word1 : BitVec 32
deriving DecidableEq, Repr

namespace Mask

def zero : Mask := ⟨0, 0⟩

/-- `BITOFFSET`, counted from the right end of the word: `32 - BITOFFSET(pos)`. -/
def place (pos : Nat) : Nat := 31 - (pos - 1) % 32

/-- `TESTBIT`. -/
def testBit (m : Mask) (pos : Nat) : Bool :=
  if (pos - 1) / 32 = 0 then m.word0.getLsbD (place pos) else m.word1.getLsbD (place pos)

/-- `SETBIT`. -/
def setBit (m : Mask) (pos : Nat) : Mask :=
  if (pos - 1) / 32 = 0 then { m with word0 := m.word0 ||| BitVec.twoPow 32 (place pos) }
  else { m with word1 := m.word1 ||| BitVec.twoPow 32 (place pos) }

/-- `B_ShiftLeft`: the loop over the words, by where `first` points to at the start. -/
def shiftLeft (m : Mask) (bShift : Nat) : Mask :=
  let shift := bShift % 32
  if bShift / 32 = 0 then
    ⟨if shift = 0 then m.word0 else m.word0 <<< shift ||| m.word1 >>> (32 - shift), m.word1 <<< shift⟩
  else if bShift / 32 = 1 then ⟨m.word1 <<< shift, 0⟩
  else ⟨0, 0⟩

theorem testBit_zero (pos : Nat) : zero.testBit pos = false := by
  unfold testBit zero
  split_ifs <;> exact BitVec.getLsbD_zero

theorem place_lt (pos : Nat) : place pos < 32 := by
  unfold place
  omega

theorem testBit_setBit (m : Mask) {pos q : Nat} (hpos : 1 ≤ pos ∧ pos ≤ 64) (hq : 1 ≤ q ∧ q ≤ 64) :
    (m.setBit pos).testBit q = if q = pos then true else m.testBit q := by
  have hplace : (q - 1) / 32 = (pos - 1) / 32 → (place q = place pos ↔ q = pos) := by
    unfold place
    omega
  unfold setBit testBit
  by_cases hword : (pos - 1) / 32 = 0
  · rw [if_pos hword]
    by_cases hq0 : (q - 1) / 32 = 0
    · simp only [if_pos hq0, getLsbD_or_twoPow (place_lt pos), hplace (hq0.trans hword.symm)]
    · rw [if_neg hq0, if_neg hq0, if_neg (by omega)]
  · rw [if_neg hword]
    by_cases hq0 : (q - 1) / 32 = 0
    · rw [if_pos hq0, if_pos hq0, if_neg (by omega)]
    · simp only [if_neg hq0, getLsbD_or_twoPow (place_lt pos), hplace (by omega)]

/-- A bit of a word shifted left. -/
theorem getLsbD_shiftLeft_word (w : BitVec 32) {i s : Nat} (hi : i < 32) :
    (w <<< s).getLsbD i = if s ≤ i then w.getLsbD (i - s) else false := by
  rw [BitVec.getLsbD_shiftLeft, decide_eq_true hi, Bool.true_and]
  by_cases h : s ≤ i
  · rw [if_pos h, decide_eq_false (by omega)]
    rfl
  · rw [if_neg h, decide_eq_true (by omega)]
    rfl

/-- What is shifted out of a word on the left comes back in the word to the left. -/
theorem testBit_shiftLeft_within (m : Mask) {s q : Nat} (hs : s < 32) (hq : 1 ≤ q ∧ q ≤ 64) :
    (m.shiftLeft s).testBit q = if q + s ≤ 64 then m.testBit (q + s) else false := by
  have hmod : s % 32 = s := Nat.mod_eq_of_lt hs
  unfold shiftLeft testBit
  rw [if_pos (show s / 32 = 0 by omega), hmod]
  by_cases hword : (q - 1) / 32 = 0
  · have hplace : place q = 32 - q := by
      unfold place
      omega
    rw [if_pos hword, if_pos (show q + s ≤ 64 by omega), hplace]
    by_cases hzero : s = 0
    · subst hzero
      rw [if_pos rfl, add_zero, if_pos hword, hplace]
    · rw [if_neg hzero, BitVec.getLsbD_or, getLsbD_shiftLeft_word _ (by omega),
        BitVec.getLsbD_ushiftRight]
      by_cases hstay : q + s ≤ 32
      · have hplace' : place (q + s) = 32 - q - s := by
          unfold place
          omega
        rw [if_pos (by omega), if_pos (by omega), hplace',
          BitVec.getLsbD_of_ge m.word1 (32 - s + (32 - q)) (by omega), Bool.or_false]
      · have hplace' : place (q + s) = 32 - s + (32 - q) := by
          unfold place
          omega
        rw [if_neg (by omega), if_neg (by omega), hplace', Bool.false_or]
  · have hplace : place q = 64 - q := by
      unfold place
      omega
    rw [if_neg hword, hplace, getLsbD_shiftLeft_word _ (by omega)]
    by_cases hstay : q + s ≤ 64
    · have hplace' : place (q + s) = 64 - q - s := by
        unfold place
        omega
      rw [if_pos (by omega), if_pos hstay, if_neg (by omega), hplace']
    · rw [if_neg (by omega), if_neg hstay]

theorem testBit_shiftLeft (m : Mask) (s : Nat) {q : Nat} (hq : 1 ≤ q ∧ q ≤ 64) :
    (m.shiftLeft s).testBit q = if q + s ≤ 64 then m.testBit (q + s) else false := by
  by_cases hs : s < 32
  · exact testBit_shiftLeft_within m hs hq
  · unfold shiftLeft testBit
    rw [if_neg (show ¬s / 32 = 0 by omega)]
    by_cases hone : s / 32 = 1
    · rw [if_pos hone]
      by_cases hword : (q - 1) / 32 = 0
      · have hplace : place q = 32 - q := by
          unfold place
          omega
        rw [if_pos hword, hplace, getLsbD_shiftLeft_word _ (by omega)]
        by_cases hstay : q + s ≤ 64
        · have hplace' : place (q + s) = 32 - q - s % 32 := by
            unfold place
            omega
          rw [if_pos (by omega), if_pos hstay, if_neg (by omega), hplace']
        · rw [if_neg (by omega), if_neg hstay]
      · rw [if_neg hword, if_neg (by omega)]
        exact BitVec.getLsbD_zero
    · rw [if_neg hone, if_neg (show ¬q + s ≤ 64 by omega)]
      exact testBit_zero q

/-- The number of ones in a row from position `pos` on, at most `fuel`. -/
def leadingFrom (m : Mask) : (fuel pos : Nat) → Nat
  | 0, _ => 0
  | fuel + 1, pos => if m.testBit pos then leadingFrom m fuel (pos + 1) + 1 else 0

/-- The number of leading ones, at most `limit`. -/
def leadingOnes (m : Mask) (limit : Nat) : Nat := m.leadingFrom limit 1

theorem leadingFrom_spec (m : Mask) (fuel pos : Nat) :
    m.leadingFrom fuel pos ≤ fuel ∧
      (∀ i < m.leadingFrom fuel pos, m.testBit (pos + i) = true) ∧
      (m.leadingFrom fuel pos < fuel → m.testBit (pos + m.leadingFrom fuel pos) = false) := by
  induction fuel generalizing pos with
  | zero => exact ⟨le_refl 0, fun i hi => absurd hi (Nat.not_lt_zero i), fun h => absurd h (lt_irrefl 0)⟩
  | succ fuel ih =>
    obtain ⟨hle, hones, hend⟩ := ih (pos + 1)
    rw [leadingFrom]
    cases hbit : m.testBit pos with
    | false => exact ⟨Nat.zero_le _, fun i hi => absurd hi (Nat.not_lt_zero i), fun _ => hbit⟩
    | true =>
      rw [if_pos rfl]
      refine ⟨by omega, fun i hi => ?_, fun hlt => ?_⟩
      · cases i with
        | zero => exact hbit
        | succ i =>
          rw [add_comm i 1, ← add_assoc]
          exact hones i (by omega)
      · rw [add_comm _ 1, ← Nat.add_assoc]
        exact hend (by omega)

theorem leadingOnes_le (m : Mask) (limit : Nat) : m.leadingOnes limit ≤ limit :=
  (m.leadingFrom_spec limit 1).1

theorem testBit_of_le_leadingOnes (m : Mask) {limit i : Nat} (hpos : 1 ≤ i)
    (h : i ≤ m.leadingOnes limit) : m.testBit i = true := by
  have hones := (m.leadingFrom_spec limit 1).2.1 (i - 1) (by unfold leadingOnes at h; omega)
  rwa [Nat.add_sub_cancel' hpos] at hones

theorem le_leadingOnes (m : Mask) {limit k : Nat} (hk : k ≤ limit)
    (h : ∀ i, 1 ≤ i → i ≤ k → m.testBit i = true) : k ≤ m.leadingOnes limit := by
  by_contra hlt
  have hend := (m.leadingFrom_spec limit 1).2.2
  unfold leadingOnes at hlt
  rw [h (1 + m.leadingFrom limit 1) (by omega) (by omega)] at hend
  exact absurd (hend (by omega)) (by decide)

end Mask

end Coda.Sftp
