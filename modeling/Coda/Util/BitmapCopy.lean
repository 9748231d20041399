import Coda.Util.Bitmap7

/-!
Copies between bitmaps: `CopyRange` of the older class in `coda-src/util/bitmap.cc`, and the
assignment of `bitmap7`.

The older class has the bit functions of `bitmap7` and no `indexsize`, so its maps are `Bitmap7`
values whose `indexsize` nothing here reads. Its `CopyRange` writes a range without a whole byte
back to its own map. The assignment keeps the old `indexsize` when the two maps have equally many
bytes.
-/

namespace Coda.Bitmap

variable {a b : Bitmap7} {start : Nat}

/-! ### The older class -/

namespace Legacy

/-- `bitmap::CopyRange(start, len, b)` of `a`: both maps afterwards. -/
def copyRange (a : Bitmap7) (start : Nat) (len : Int) (b : Bitmap7) :
    Option (Bitmap7 × Bitmap7) :=
  let bitEnd := endBit (a.mapsize <<< 3) start len
  let byteStart := (start + 7) >>> 3
  let byteEnd := bitEnd >>> 3
  if a.map = [] then some (a, b)
  else if byteEnd ≤ byteStart then
    -- `SetValue(i, Value(i))`, without `b.`
    (setLoop a (value a) start bitEnd).map fun a => (a, b)
  else Option.map (fun b => (a, b)) do
    let b ← bulkBytes b (fun k => a.map.getD k 0#8) byteStart byteEnd
    let b ← setLoop b (value a) start (byteStart <<< 3)
    setLoop b (value a) (byteEnd <<< 3) bitEnd

/-- Writing its own values back leaves a map as it was. -/
theorem setLoop_self {stop : Nat} (start : Nat) (h : stop ≤ 8 * a.mapsize) :
    setLoop a (value a) start stop = some a := by
  obtain ⟨a', run, p⟩ := setLoop_spec (value a) start h
  rw [run, eq_of_bit p.indexsize p.mapsize fun i => ?_]
  rw [p.bit]
  split_ifs with hi
  · rw [Bool.eq_iff_iff, decide_eq_true_iff, value_ne_zero_iff (by omega)]
  · rfl

/-- A range is copied exactly when it has a whole byte, or there was nothing to copy. -/
theorem copyRange_iff (a b : Bitmap7) (start len : Nat) (same : a.mapsize = b.mapsize)
    (h : start + len ≤ 8 * a.mapsize) :
    (∃ b', copyRange a start len b = some (a, b') ∧ Patched b b' a.bit start (start + len)) ↔
      (start + 7) / 8 < (start + len) / 8 ∨
        ∀ i, start ≤ i → i < start + len → b.bit i = a.bit i := by
  have hstop : endBit (a.mapsize * 8) start (len : Int) = start + len := by simp [endBit]
  unfold copyRange
  simp only [Nat.shiftRight_eq_div_pow, Nat.shiftLeft_eq, hstop]
  by_cases hbulk : (start + len) / 8 ≤ (start + 7) / 8
  · rw [if_pos hbulk, setLoop_self start h, Option.map_some, ite_self]
    constructor
    · rintro ⟨b', run, p⟩
      cases run
      exact .inr fun i lo hi => by rw [p.bit, if_pos ⟨lo, hi⟩]
    · intro agree
      refine ⟨b, rfl, rfl, rfl, fun i => ?_⟩
      split_ifs with hi
      · exact agree.resolve_left (by omega) i hi.1 hi.2
      · rfl
  · have hmap : a.map ≠ [] := by
      intro hnil
      simp only [Bitmap7.mapsize, hnil, List.length_nil] at h
      omega
    obtain ⟨b', run, p⟩ := range_spec (fun k => a.map.getD k 0#8) (value a) start (same ▸ h)
      (fun i hi => by rw [Bool.eq_iff_iff, decide_eq_true_iff, value_ne_zero_iff (by omega)])
      (f := a.bit) fun _ _ => rfl
    rw [if_neg hbulk] at run
    rw [if_neg hmap, if_neg hbulk, run]
    exact iff_of_true ⟨b', rfl, p⟩ (.inl (by omega))

theorem copyRange_iff_whole_byte :
    ∃ b', copyRange (bitmap7 24) 5 13 (bitmap7 20) = some (bitmap7 24, b') ∧
      Patched (bitmap7 20) b' (bitmap7 24).bit 5 18 :=
  (copyRange_iff (bitmap7 24) (bitmap7 20) 5 13 rfl (by decide)).mpr (.inl (by decide))

/-- One set bit, copied to a clear map. -/
theorem copyRange_drops_bit :
    copyRange ⟨8, [0x80#8]⟩ 0 1 (bitmap7 8) = some (⟨8, [0x80#8]⟩, bitmap7 8) := by
  decide

end Legacy

/-! ### Assignment -/

/-- `class bitmap7` with its map pointer; a map of no bytes need not be null. -/
structure Mapped where
  isNull : Bool
  bits : Bitmap7

namespace Mapped

/-- What every bitmap keeps: no map, no bytes; and the index fits the map. -/
structure Ok (m : Mapped) : Prop where
  null : m.isNull = true → m.bits.map = []
  indexsize : m.bits.indexsize ≤ 8 * m.bits.mapsize

/-- `bitmap7::operator=`. The map is kept if it is as long as that of `b`. -/
def assign (a b : Mapped) : Mapped :=
  if a.bits.mapsize ≠ b.bits.mapsize then ⟨false, b.bits⟩
  else { a with bits.map := b.bits.map }

/-- `SetRangeValue`; a map of no bytes that is not null fails on the first write. -/
def setRangeValue (m : Mapped) (start : Nat) (len : Int) (val : Bool) : Option Mapped :=
  if m.isNull ∨ m.bits.map ≠ [] then
    (Bitmap.setRangeValue m.bits start len val).map fun b => { m with bits := b }
  else if start < endBit m.bits.indexsize start len then none else some m

/-- `CopyRange(start, len, dst)`; a map of no bytes that is not null has `Value` -1. -/
def copyRange (m : Mapped) (start : Nat) (len : Int) (dst : Bitmap7) : Option Bitmap7 :=
  let stop := endBit m.bits.indexsize start len
  if m.isNull ∨ m.bits.map ≠ [] then Bitmap.copyRange m.bits start len dst
  else if stop >>> 3 ≠ 0 then none else setLoop dst (value m.bits) start stop

/-- `bitmap7::Resize`. -/
def resize (m : Mapped) (newsize : Nat) : Option Mapped :=
  let newmapsize := max 1 ((newsize + 7) >>> 3)
  if ¬ m.isNull ∧ ¬ 0 < m.bits.mapsize then none
  else
    let old := if newsize = 0 then [] else m.bits.map.take newmapsize
    let newmap := old ++ List.replicate (newmapsize - old.length) 0#8
    (setLoop ⟨newsize, newmap⟩ (fun _ => 0) newsize (newmapsize <<< 3)).map fun b => ⟨false, b⟩

inductive Op where
  | setIndex (index : Nat)
  | freeIndex (index : Nat)
  | setRange (start : Nat) (len : Int)
  | freeRange (start : Nat) (len : Int)
  | copyRange (start : Nat) (len : Int) (dst : Bitmap7)
  | copyRangeFrom (src : Mapped) (start : Nat) (len : Int)
  | resize (newsize : Nat)
  | count
  | value (index : Nat)

/-- What a caller sees of a call: a number, or the bitmap copied to. -/
inductive Seen where
  | nothing
  | number (n : Int)
  | target (dst : Bitmap7)

def step (m : Mapped) : Op → Option (Mapped × Seen)
  | .setIndex i => (setValue m.bits i 1).map fun b => ({ m with bits := b }, .nothing)
  | .freeIndex i => (setValue m.bits i 0).map fun b => ({ m with bits := b }, .nothing)
  | .setRange start len => (m.setRangeValue start len true).map (·, .nothing)
  | .freeRange start len => (m.setRangeValue start len false).map (·, .nothing)
  | .copyRange start len dst => (m.copyRange start len dst).map (m, .target ·)
  | .copyRangeFrom src start len =>
    (src.copyRange start len m.bits).map fun b => ({ m with bits := b }, .nothing)
  | .resize n => (m.resize n).map (·, .nothing)
  | .count => some (m, .number (count m.bits))
  | .value i => some (m, .number (Bitmap.value m.bits i))

/-- What a sequence of calls shows; `none` after a failed assertion. -/
def results (m : Mapped) : List Op → Option (List Seen)
  | [] => some []
  | op :: ops => do
    let (m, seen) ← m.step op
    return seen :: (← results m ops)

/-- A set range of negative length shows the index size. -/
theorem results_probe {m : Mapped} (ok : m.Ok) (hmap : m.bits.map ≠ []) {k : Nat}
    (hk : k < 8 * m.bits.mapsize) :
    ∃ v, m.results [.freeRange 0 (8 * m.bits.mapsize : Nat), .setRange 0 (-1), .value k] =
      some [.nothing, .nothing, .number v] ∧ (v ≠ 0 ↔ k < m.bits.indexsize) := by
  have hend : endBit m.bits.indexsize 0 (8 * m.bits.mapsize : Nat) = 8 * m.bits.mapsize := by
    unfold endBit
    rw [if_neg (by omega), Nat.zero_add, Int.toNat_natCast]
  obtain ⟨b₁, run₁, p₁⟩ := setRangeValue_spec 0 (8 * m.bits.mapsize : Nat) false hend.le
  have hmap₁ : b₁.map ≠ [] := by
    rw [ne_eq, ← List.length_eq_zero_iff] at hmap ⊢
    have hsize : b₁.map.length = m.bits.map.length := p₁.mapsize
    rwa [hsize]
  have hend₁ : endBit b₁.indexsize 0 (-1) = m.bits.indexsize := p₁.indexsize
  obtain ⟨b₂, run₂, p₂⟩ := setRangeValue_spec (b := b₁) 0 (-1) true
    (by rw [hend₁, p₁.mapsize]; exact ok.indexsize)
  have step₁ : m.step (.freeRange 0 (8 * m.bits.mapsize : Nat)) =
      some ({ m with bits := b₁ }, .nothing) := by
    rw [step, setRangeValue, if_pos (.inr hmap), run₁]
    rfl
  have step₂ : step { m with bits := b₁ } (.setRange 0 (-1)) =
      some ({ m with bits := b₂ }, .nothing) := by
    rw [step, setRangeValue, if_pos (.inr hmap₁), run₂]
    rfl
  refine ⟨value b₂ k, ?_, ?_⟩
  · simp only [results, step₁, step₂, Option.bind_eq_bind, Option.bind_some]
    rfl
  · rw [value_ne_zero_iff (by rwa [p₂.mapsize, p₁.mapsize]), p₂.bit, p₁.bit, hend₁, hend]
    simp [hk]

/-- `Resize` asserts that a map has bytes. -/
theorem results_resize {m : Mapped} (hmap : m.bits.map = []) :
    m.results [.resize 8] = none ↔ m.isNull = false := by
  obtain ⟨isNull, n, map⟩ := m
  cases hmap
  cases isNull
  · exact iff_of_true rfl rfl
  · exact iff_of_false nofun nofun

/-- Maps of equal length have the same index size and pointer; otherwise `b` has a map. -/
def AssignMet (a b : Mapped) : Prop :=
  if a.bits.mapsize = b.bits.mapsize then
    a.bits.indexsize = b.bits.indexsize ∧ a.isNull = b.isNull
  else b.isNull = false

theorem assign_eq_iff (a b : Mapped) : assign a b = b ↔ AssignMet a b := by
  obtain ⟨isNull, n, map⟩ := b
  unfold AssignMet assign
  by_cases hsize : a.bits.mapsize = (Bitmap7.mk n map).mapsize
  · rw [if_pos hsize, if_neg (not_not_intro hsize)]
    simp [and_comm]
  · rw [if_neg hsize, if_pos hsize]
    simp [eq_comm]

/-- The assignment gives a copy in exactly the cases of `AssignMet`. -/
theorem assign_copies_iff (a b : Mapped) (oka : a.Ok) (okb : b.Ok) :
    (∀ ops, (assign a b).results ops = b.results ops) ↔ AssignMet a b := by
  rw [← assign_eq_iff]
  constructor
  · intro same
    have hmap : (assign a b).bits.map = b.bits.map := by
      unfold assign
      split_ifs <;> rfl
    have ok : (assign a b).Ok := by
      unfold assign
      split_ifs with hsize
      · exact ⟨nofun, okb.indexsize⟩
      · have hsize := not_not.mp hsize
        refine ⟨fun h => ?_, hsize ▸ oka.indexsize⟩
        rw [← List.length_eq_zero_iff]
        exact hsize.symm.trans (List.length_eq_zero_iff.mpr (oka.null h))
    generalize assign a b = c at same hmap ok
    have hsize : c.bits.mapsize = b.bits.mapsize := congrArg List.length hmap
    have hnull : c.isNull = b.isNull := by
      by_cases hnil : b.bits.map = []
      · have hres := results_resize (hmap.trans hnil)
        rw [same, results_resize hnil] at hres
        cases hc : c.isNull <;> cases hb : b.isNull <;> simp_all
      · rw [Bool.eq_false_iff.mpr fun h => hnil (okb.null h),
          Bool.eq_false_iff.mpr fun h => hnil (hmap ▸ ok.null h)]
    have hindex : c.bits.indexsize = b.bits.indexsize := by
      by_contra hne
      have hc := ok.indexsize
      have hb := okb.indexsize
      have hnil : b.bits.map ≠ [] := by
        intro hnil
        have : b.bits.mapsize = 0 := List.length_eq_zero_iff.mpr hnil
        omega
      obtain ⟨v, run, hv⟩ := @results_probe c ok (hmap ▸ hnil)
        (min c.bits.indexsize b.bits.indexsize) (by omega)
      obtain ⟨w, run', hw⟩ := @results_probe b okb hnil
        (min c.bits.indexsize b.bits.indexsize) (by omega)
      rw [same, hsize, run'] at run
      cases run
      omega
    obtain ⟨null, n, map⟩ := c
    obtain ⟨null', n', map'⟩ := b
    cases hmap
    cases hnull
    cases hindex
    rfl
  · intro heq ops
    rw [heq]

theorem assign_copies_iff_longer :
    (assign ⟨true, bitmap7 0⟩ ⟨false, bitmap7 9⟩).results [.setRange 0 (-1), .count] =
        results ⟨false, bitmap7 9⟩ [.setRange 0 (-1), .count] ∧
      results ⟨false, bitmap7 9⟩ [.setRange 0 (-1), .count] = some [.nothing, .number 9] :=
  ⟨(assign_copies_iff ⟨true, bitmap7 0⟩ ⟨false, bitmap7 9⟩ ⟨fun _ => rfl, by decide⟩
    ⟨nofun, by decide⟩).mpr rfl _, rfl⟩

/-- Seven bits assigned from four: a later `SetRange(0, -1)` sets seven. -/
theorem assign_keeps_indexsize :
    (assign ⟨false, bitmap7 7⟩ ⟨false, bitmap7 4⟩).results [.setRange 0 (-1), .count] =
      some [.nothing, .number 7] ∧
    results ⟨false, bitmap7 4⟩ [.setRange 0 (-1), .count] = some [.nothing, .number 4] := by
  exact ⟨rfl, rfl⟩

end Mapped

end Coda.Bitmap
