import Mathlib

/-!
How much of its log a volume reintegrates at once (`vol_cml.cc`).

The time limit is an unsigned number. The first record is taken whatever its time, and where that is
more than the limit, the limit wraps around and ends nothing any more.
-/

namespace Coda.Venus

/-- What `GetReintegrateable` asks of a record: whether it is a store, whether it is ready
(`ReintReady`), how long it takes at a bandwidth (`ReintTime`) and whether it can be frozen. -/
structure Cmlent where
  isStore : Bool
  reintReady : Bool
  reintTime : BitVec 64 → BitVec 64
  freeze : Bool

/-- What it asks of the volume. -/
structure ReintState where
  allowBackfetch : Bool
  isSync : Bool
  bw : BitVec 64

/-- `ClientModifyLog::GetReintegrateable`, once `nrecs` records are marked: the records marked from
here on, `*reint_time` and the result. -/
def getReintegrateable (v : ReintState) :
    (nrecs : Nat) → (reintTime : BitVec 64) → List Cmlent → List Cmlent × BitVec 64 × Bool
  | _, reintTime, [] => ([], reintTime, true)
  | nrecs, reintTime, m :: log =>
    if !v.allowBackfetch ∧ m.isStore then ([], reintTime, false)
    else if !m.reintReady then ([], reintTime, true)
    else if !v.isSync ∧ nrecs ≠ 0 ∧ m.reintTime v.bw > reintTime then ([], reintTime, true)
    else if !m.freeze then ([], reintTime, true)
    else if nrecs + 1 = 100 then ([m], reintTime - m.reintTime v.bw, false)
    else
      let out := getReintegrateable v (nrecs + 1) (reintTime - m.reintTime v.bw) log
      (m :: out.1, out.2)

/-- The time that records take together. -/
def ReintState.total (v : ReintState) (log : List Cmlent) : Nat :=
  (log.map fun m => (m.reintTime v.bw).toNat).sum

section Limit

variable {v : ReintState} {n : Nat} {t : BitVec 64} (log : List Cmlent)

theorem ReintState.total_cons (v : ReintState) (m : Cmlent) (log : List Cmlent) :
    v.total (m :: log) = (m.reintTime v.bw).toNat + v.total log :=
  List.sum_cons

/-- After the first record, records are marked only as long as there is time, and what is left is
what they do not take. -/
theorem getReintegrateable_fits (async : v.isSync = false) (pos : n ≠ 0) :
    v.total (getReintegrateable v n t log).1 ≤ t.toNat ∧
      (getReintegrateable v n t log).2.1.toNat =
        t.toNat - v.total (getReintegrateable v n t log).1 := by
  fun_induction getReintegrateable v n t log with
  | case1 | case2 | case3 | case4 | case5 => exact ⟨Nat.zero_le _, rfl⟩
  | case6 n t m log _ _ hlimit =>
    rw [async] at hlimit
    have hle := BitVec.not_lt.mp fun hlong => hlimit ⟨rfl, pos, hlong⟩
    exact ⟨hle, BitVec.toNat_sub_of_le hle⟩
  | case7 n t m log _ _ hlimit _ _ out ih =>
    rw [async] at hlimit
    have hle := BitVec.not_lt.mp fun hlong => hlimit ⟨rfl, pos, hlong⟩
    obtain ⟨hrest, hleft⟩ := ih (Nat.succ_ne_zero n)
    rw [BitVec.toNat_sub_of_le hle] at hrest hleft
    rw [ReintState.total_cons, ← Nat.sub_sub]
    exact ⟨Nat.add_le_of_le_sub' hle hrest, hleft⟩

/-- The record is marked if there is time for it. -/
def Cmlent.Ready (v : ReintState) (m : Cmlent) : Prop :=
  (¬ v.allowBackfetch → ¬ m.isStore) ∧ m.reintReady ∧ m.freeze

/-- The first record takes more than the limit, and the second one has time in what the limit has
wrapped around to. -/
def Wraps (v : ReintState) (t : BitVec 64) : List Cmlent → Prop
  | m₁ :: m₂ :: _ => m₁.Ready v ∧ m₂.Ready v ∧ t < m₁.reintTime v.bw ∧
    (m₁.reintTime v.bw).toNat + (m₂.reintTime v.bw).toNat ≤ t.toNat + 2 ^ 64
  | _ => False

theorem getReintegrateable_first (v : ReintState) (t : BitVec 64) (m : Cmlent) :
    getReintegrateable v 0 t (m :: log) =
        (m :: (getReintegrateable v 1 (t - m.reintTime v.bw) log).1,
          (getReintegrateable v 1 (t - m.reintTime v.bw) log).2) ∧ m.Ready v ∨
      (getReintegrateable v 0 t (m :: log)).1 = [] ∧
        (getReintegrateable v 0 t (m :: log)).2.1 = t ∧ ¬ m.Ready v := by
  rw [getReintegrateable]
  split_ifs <;> simp_all [Cmlent.Ready]

theorem getReintegrateable_eq_nil_iff (async : v.isSync = false) (pos : n ≠ 0) (m : Cmlent) :
    (getReintegrateable v n t (m :: log)).1 = [] ↔ ¬ (m.Ready v ∧ m.reintTime v.bw ≤ t) := by
  rw [getReintegrateable]
  split_ifs <;> simp_all [Cmlent.Ready]

/-- The records marked take no more than the time there is, or are one record at most, exactly if
the limit does not wrap around and leave time for a second record; and what they leave is not
wrapped around. -/
theorem getReintegrateable_within (async : v.isSync = false) :
    ((getReintegrateable v 0 t log).1.length ≤ 1 ∨
        v.total (getReintegrateable v 0 t log).1 ≤ t.toNat ↔ ¬ Wraps v t log) ∧
    (v.total (getReintegrateable v 0 t log).1 ≤ t.toNat →
      (getReintegrateable v 0 t log).2.1.toNat =
        t.toNat - v.total (getReintegrateable v 0 t log).1) := by
  cases log with
  | nil => simp [getReintegrateable, ReintState.total, Wraps]
  | cons m log =>
  obtain ⟨heq, ready⟩ | ⟨hnil, htime, notReady⟩ := getReintegrateable_first log v t m
  case inr =>
    have hwraps : ¬ Wraps v t (m :: log) := by
      cases log with
      | nil => exact id
      | cons m₂ log => exact fun h => notReady h.1
    simp [hnil, htime, hwraps, ReintState.total]
  obtain ⟨hrest, hleft⟩ := getReintegrateable_fits (t := t - m.reintTime v.bw) log async Nat.one_ne_zero
  rw [heq]
  simp only [ReintState.total_cons]
  by_cases hle : m.reintTime v.bw ≤ t
  · rw [BitVec.toNat_sub_of_le hle] at hrest hleft
    have hwraps : ¬ Wraps v t (m :: log) := by
      cases log with
      | nil => exact id
      | cons m₂ log => exact fun h => BitVec.not_lt.mpr hle h.2.2.1
    have hle' := BitVec.le_def.mp hle
    exact ⟨iff_of_true (.inr (by omega)) hwraps, fun _ => by omega⟩
  · have hlt := BitVec.lt_def.mp (BitVec.not_le.mp hle)
    refine ⟨?_, fun hfits => by omega⟩
    rw [or_iff_left (by omega), List.length_cons, Nat.succ_le_iff, Nat.lt_one_iff, List.length_eq_zero_iff]
    cases log with
    | nil => simp [getReintegrateable, Wraps]
    | cons m₂ log =>
      have hwrapped : (t - m.reintTime v.bw).toNat = t.toNat + 2 ^ 64 - (m.reintTime v.bw).toNat := by
        rw [BitVec.toNat_sub]
        omega
      rw [getReintegrateable_eq_nil_iff log async Nat.one_ne_zero, not_iff_not, Wraps, BitVec.le_def,
        hwrapped]
      constructor
      · exact fun ⟨ready₂, htime⟩ => ⟨ready, ready₂, BitVec.not_le.mp hle, by omega⟩
      · exact fun ⟨_, ready₂, _, htime⟩ => ⟨ready₂, by omega⟩

end Limit

/-- A record that is ready and takes some milliseconds. -/
def readyRecord (time : BitVec 64) : Cmlent := ⟨false, true, fun _ => time, true⟩

/-- Records of 2 and of 3 milliseconds are marked where there are 5, and a third one is not. -/
theorem getReintegrateable_within_five :
    let out := getReintegrateable ⟨true, false, 0⟩ 0 5 [readyRecord 2, readyRecord 3, readyRecord 1]
    out.1.map (fun m => m.reintTime 0) = [2, 3] ∧
      (out.1.length ≤ 1 ∨ ReintState.total ⟨true, false, 0⟩ out.1 ≤ 5) ∧ out.2.1.toNat = 5 - 5 := by
  have h := getReintegrateable_within (v := ⟨true, false, 0⟩) (t := 5)
    [readyRecord 2, readyRecord 3, readyRecord 1] rfl
  exact ⟨by decide, h.1.mpr fun wraps => absurd wraps.2.2.1 (by decide), h.2 (by decide)⟩

/-- Records of 6 and of 1000 milliseconds are marked where there are 5. -/
theorem getReintegrateable_wraps :
    ((getReintegrateable ⟨true, false, 0⟩ 0 5 [readyRecord 6, readyRecord 1000]).1.map
      fun m => m.reintTime 0) = [6, 1000] ∧
    (getReintegrateable ⟨true, false, 0⟩ 0 5 [readyRecord 6, readyRecord 1000]).2.1.toNat =
      2 ^ 64 - 1001 := by
  decide

end Coda.Venus
