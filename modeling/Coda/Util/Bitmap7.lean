import Coda.Lib.Bits

/-!
The bitmap class of `coda-src/util/bitmap7.cc`: one bit for each element, packed
eight to a `char` with the lowest index in the highest bit.

`SetRangeValue` and `CopyRange` treat whole bytes in bulk and the ragged ends bit by
bit. A failed `CODA_ASSERT`, or a bulk write outside the map, is `none`.
-/

namespace Coda.Bitmap

open Coda.Lib List

/-- `class bitmap7` without its allocation flags; `mapsize` is the length of `map`. -/
structure Bitmap7 where
  indexsize : Nat
  map : List (BitVec 8)
deriving DecidableEq, Repr

/-- The constructor: enough bytes even when the size is not a multiple of 8. -/
def bitmap7 (inputmapsize : Nat) : Bitmap7 where
  indexsize := inputmapsize
  map := List.replicate ((inputmapsize + 7) >>> 3) 0#8

def Bitmap7.mapsize (b : Bitmap7) : Nat := b.map.length

/-- `1 << (7 - (index & 7))`. -/
def maskOf (index : Nat) : BitVec 8 := 1#8 <<< (7 - index % 8)

/-- `bitmap7::Value`; `-1` for an index outside the map, else the masked byte. -/
def value (b : Bitmap7) (index : Nat) : Int :=
  match b.map[index >>> 3]? with
  | none => -1
  | some byte => ((byte &&& maskOf index).toNat : Int)

/-- `bitmap7::SetValue`. -/
def setValue (b : Bitmap7) (index : Nat) (val : Int) : Option Bitmap7 :=
  let set : BitVec 8 → BitVec 8 := fun byte =>
    if val ≠ 0 then byte ||| maskOf index else byte &&& ~~~(maskOf index)
  if index >>> 3 < b.mapsize then some { b with map := b.map.modify (index >>> 3) set } else none

/-- `for (i = from; i < to; i++) SetValue(i, f(i))`. -/
def setLoop (b : Bitmap7) (f : Nat → Int) (start stop : Nat) : Option Bitmap7 :=
  (List.range' start (stop - start)).foldlM (fun b i => setValue b i (f i)) b

/-- `memset` or `memcpy` on the bytes `[first, last)` of the map. -/
def bulkBytes (b : Bitmap7) (f : Nat → BitVec 8) (first last : Nat) : Option Bitmap7 :=
  if last ≤ b.mapsize then
    some { b with map := b.map.mapIdx fun k byte => if first ≤ k ∧ k < last then f k else byte }
  else none

/-- `end_bit`: a negative length means up to `indexsize`. -/
def endBit (indexsize start : Nat) (len : Int) : Nat :=
  if len < 0 then indexsize else start + len.toNat

/-- `bitmap7::SetRangeValue`. The second loop runs while `i & 7`, that is up to the
first copied byte. -/
def setRangeValue (b : Bitmap7) (start : Nat) (len : Int) (val : Bool) : Option Bitmap7 :=
  let stop := endBit b.indexsize start len
  let startByte := (start + 7) >>> 3
  let endByte := stop >>> 3
  let bit : Nat → Int := fun _ => if val then 1 else 0
  if b.map = [] then some b
  else if endByte ≤ startByte then setLoop b bit start stop
  else do
    let b ← bulkBytes b (fun _ => if val then 0xFF#8 else 0#8) startByte endByte
    let b ← setLoop b bit start (startByte <<< 3)
    setLoop b bit (endByte <<< 3) stop

/-- `bitmap7::SetRange`. -/
def setRange (b : Bitmap7) (start : Nat) (len : Int) : Option Bitmap7 :=
  setRangeValue b start len true

/-- `bitmap7::FreeRange`. -/
def freeRange (b : Bitmap7) (start : Nat) (len : Int) : Option Bitmap7 :=
  setRangeValue b start len false

/-- `bitmap7::SetIndex`. -/
def setIndex (b : Bitmap7) (index : Nat) : Option Bitmap7 := setValue b index 1

/-- `bitmap7::CopyRange(start, len, dst)` of `src`. -/
def copyRange (src : Bitmap7) (start : Nat) (len : Int) (dst : Bitmap7) : Option Bitmap7 :=
  let stop := endBit src.indexsize start len
  let startByte := (start + 7) >>> 3
  let endByte := stop >>> 3
  if src.map = [] then some dst
  else if ¬ (endByte ≤ src.mapsize ∧ endByte ≤ dst.mapsize) then none
  else if endByte ≤ startByte then setLoop dst (value src) start stop
  else do
    let dst ← bulkBytes dst (fun k => src.map.getD k 0#8) startByte endByte
    let dst ← setLoop dst (value src) start (startByte <<< 3)
    setLoop dst (value src) (endByte <<< 3) stop

/-- `bitmap7::Count`. -/
def count (b : Bitmap7) : Nat :=
  (b.map.map fun byte => ((List.range 8).filter fun j => byte &&& 1#8 <<< j ≠ 0#8).length).sum

/-! ### Bits -/

/-- Bit `i` of the map; clear outside it. -/
def Bitmap7.bit (b : Bitmap7) (i : Nat) : Bool :=
  (b.map.getD (i / 8) 0#8).getLsbD (7 - i % 8)

theorem maskOf_eq (i : Nat) : maskOf i = BitVec.twoPow 8 (7 - i % 8) := rfl

variable {b : Bitmap7} {i stop start : Nat}

/-- Inside the map `Value` is nonzero exactly on the set bits. -/
theorem value_ne_zero_iff (h : i < 8 * b.mapsize) : value b i ≠ 0 ↔ b.bit i = true := by
  have hbyte : i / 8 < b.map.length := by unfold Bitmap7.mapsize at h; omega
  unfold value Bitmap7.bit
  rw [Nat.shiftRight_eq_div_pow, getD_eq_getElem _ _ hbyte, List.getElem?_eq_getElem hbyte,
    maskOf_eq, ← and_twoPow_ne_zero (by omega)]
  simp only [ne_eq, Int.natCast_eq_zero, BitVec.toNat_eq, BitVec.toNat_ofNat]

theorem bit_eq_false_of_le (h : 8 * b.mapsize ≤ i) : b.bit i = false := by
  have hbyte : b.map.length ≤ i / 8 := by unfold Bitmap7.mapsize at h; omega
  simp [Bitmap7.bit, List.getElem?_eq_none hbyte]

theorem bit_bitmap7 (n i : Nat) : (bitmap7 n).bit i = false := by
  simp only [Bitmap7.bit, bitmap7, getD_eq_getElem?_getD, List.getElem?_replicate]
  split <;> simp

/-- A bitmap is its two sizes and its bits. -/
theorem eq_of_bit {b' : Bitmap7} (hindex : b'.indexsize = b.indexsize)
    (hmap : b'.mapsize = b.mapsize) (hbit : ∀ i, b'.bit i = b.bit i) : b' = b := by
  rw [Bitmap7.mk.injEq]
  refine ⟨hindex, ext_getElem hmap fun k hk' hk => BitVec.eq_of_getLsbD_eq fun j hj => ?_⟩
  have h := hbit (8 * k + (7 - j))
  simp only [Bitmap7.bit, show (8 * k + (7 - j)) / 8 = k by omega,
    show 7 - (8 * k + (7 - j)) % 8 = j by omega] at h
  rwa [getD_eq_getElem _ _ hk', getD_eq_getElem _ _ hk] at h

/-! ### Single bits and loops -/

/-- `b'` is `b` except that each bit of `[start, stop)` holds `f`. -/
structure Patched (b b' : Bitmap7) (f : Nat → Bool) (start stop : Nat) : Prop where
  indexsize : b'.indexsize = b.indexsize
  mapsize : b'.mapsize = b.mapsize
  bit : ∀ i, b'.bit i = if start ≤ i ∧ i < stop then f i else b.bit i

theorem setValue_spec (h : i < 8 * b.mapsize) (val : Int) :
    ∃ b', setValue b i val = some b' ∧ Patched b b' (fun _ => decide (val ≠ 0)) i (i + 1) := by
  have hbyte : i >>> 3 < b.mapsize := by rw [Nat.shiftRight_eq_div_pow]; omega
  refine ⟨_, if_pos hbyte, rfl, length_modify .., fun k => ?_⟩
  simp only [Bitmap7.bit, getD_eq_getElem?_getD, List.getElem?_modify,
    Nat.shiftRight_eq_div_pow, Nat.reducePow, maskOf_eq]
  by_cases hk : i = k
  · subst hk
    have hin : i / 8 < b.map.length := by unfold Bitmap7.mapsize at h; omega
    by_cases hv : val = 0 <;> simp [hin, hv, show 7 - i % 8 < 8 by omega]
  · rw [if_neg (by omega)]
    by_cases hd : i / 8 = k / 8
    · have hm : 7 - i % 8 ≠ 7 - k % 8 := by omega
      cases hx : b.map[k / 8]? with
      | none => simp
      | some byte => by_cases hv : val = 0 <;> simp [hd, hv, hm.symm, show 7 - k % 8 < 8 by omega]
    · simp [hd]

theorem setLoop_spec (f : Nat → Int) (start : Nat) (h : stop ≤ 8 * b.mapsize) :
    ∃ b', setLoop b f start stop = some b' ∧
      Patched b b' (fun i => decide (f i ≠ 0)) start stop := by
  unfold setLoop
  obtain ⟨n, hn⟩ : ∃ n, n = stop - start := ⟨_, rfl⟩
  rw [← hn]
  induction n generalizing b start with
  | zero =>
    refine ⟨b, rfl, rfl, rfl, fun i => ?_⟩
    rw [if_neg (by omega)]
  | succ n ih =>
    obtain ⟨b₁, set₁, p₁⟩ := setValue_spec (b := b) (i := start) (by omega) (f start)
    obtain ⟨b₂, loop₂, p₂⟩ := ih (start + 1) (by rw [p₁.mapsize]; exact h) (by omega)
    refine ⟨b₂, ?_, p₂.indexsize.trans p₁.indexsize, p₂.mapsize.trans p₁.mapsize, fun i => ?_⟩
    · rw [range'_succ, foldlM_cons, set₁]
      exact loop₂
    · rw [p₂.bit, p₁.bit]
      by_cases hi : i = start
      · subst hi
        rw [if_neg (by omega), if_pos (by omega), if_pos (by omega)]
      · by_cases hr : start ≤ i ∧ i < stop
        · rw [if_pos (by omega), if_pos hr]
        · rw [if_neg (by omega), if_neg (by omega), if_neg hr]

/-- A loop that ends without a failed assertion stayed inside the map. -/
theorem setLoop_inside {b' : Bitmap7} {f : Nat → Int} (run : setLoop b f start stop = some b') :
    b'.mapsize = b.mapsize ∧ (start < stop → stop ≤ 8 * b.mapsize) := by
  unfold setLoop at run
  obtain ⟨n, hn⟩ : ∃ n, n = stop - start := ⟨_, rfl⟩
  rw [← hn] at run
  induction n generalizing b start with
  | zero =>
    cases run
    exact ⟨rfl, fun h => by omega⟩
  | succ n ih =>
    rw [range'_succ, foldlM_cons] at run
    by_cases hin : start < 8 * b.mapsize
    · obtain ⟨b₁, set₁, p₁⟩ := setValue_spec hin (f start)
      rw [set₁] at run
      obtain ⟨size, stop_le⟩ := @ih b₁ (start + 1) run (by omega)
      rw [p₁.mapsize] at size stop_le
      exact ⟨size, fun _ => by omega⟩
    · have hbyte : ¬ start >>> 3 < b.mapsize := by rw [Nat.shiftRight_eq_div_pow]; omega
      rw [setValue, if_neg hbyte] at run
      cases run

theorem bulkBytes_spec (f : Nat → BitVec 8) (first : Nat) {last : Nat} (h : last ≤ b.mapsize) :
    ∃ b', bulkBytes b f first last = some b' ∧
      Patched b b' (fun i => (f (i / 8)).getLsbD (7 - i % 8)) (8 * first) (8 * last) := by
  refine ⟨_, if_pos h, rfl, length_mapIdx, fun i => ?_⟩
  unfold Bitmap7.mapsize at h
  simp only [Bitmap7.bit, getD_eq_getElem?_getD, List.getElem?_mapIdx]
  by_cases hr : 8 * first ≤ i ∧ i < 8 * last
  · have hin : i / 8 < b.map.length := by omega
    rw [if_pos hr, List.getElem?_eq_getElem hin]
    simp [show first ≤ i / 8 ∧ i / 8 < last by omega]
  · rw [if_neg hr]
    cases hx : b.map[i / 8]? with
    | none => simp
    | some byte => simp [show ¬ (first ≤ i / 8 ∧ i / 8 < last) by omega]

/-! ### Ranges -/

/-- Patching the bytes inside a range and then its two ragged ends patches the range. -/
theorem Patched.ends {b₁ b₂ b₃ : Bitmap7} {f : Nat → Bool}
    (mid : Patched b b₁ f (8 * ((start + 7) / 8)) (8 * (stop / 8)))
    (left : Patched b₁ b₂ f start (8 * ((start + 7) / 8)))
    (right : Patched b₂ b₃ f (8 * (stop / 8)) stop) (bulk : (start + 7) / 8 < stop / 8) :
    Patched b b₃ f start stop where
  indexsize := right.indexsize.trans (left.indexsize.trans mid.indexsize)
  mapsize := right.mapsize.trans (left.mapsize.trans mid.mapsize)
  bit i := by
    rw [right.bit, left.bit, mid.bit]
    split_ifs <;> first | rfl | omega

theorem Patched.congr {b' : Bitmap7} {f g : Nat → Bool} (p : Patched b b' f start stop)
    (h : ∀ i, start ≤ i → i < stop → f i = g i) :
    Patched b b' g start stop where
  indexsize := p.indexsize
  mapsize := p.mapsize
  bit i := by
    rw [p.bit]
    split_ifs with hi
    · exact h i hi.1 hi.2
    · rfl

theorem Patched.empty (b : Bitmap7) (f : Nat → Bool) (h : stop ≤ start) :
    Patched b b f start stop where
  indexsize := rfl
  mapsize := rfl
  bit i := by rw [if_neg (by omega)]

/-- The loops of the two range functions: whole bytes, and then the ragged ends. -/
theorem range_spec (byte : Nat → BitVec 8) (val : Nat → Int) {f : Nat → Bool} (start : Nat)
    (h : stop ≤ 8 * b.mapsize) (hval : ∀ i < stop, decide (val i ≠ 0) = f i)
    (hbyte : ∀ i < stop, (byte (i / 8)).getLsbD (7 - i % 8) = f i) :
    ∃ b', (if stop / 8 ≤ (start + 7) / 8 then setLoop b val start stop
      else do
        let b ← bulkBytes b byte ((start + 7) / 8) (stop / 8)
        let b ← setLoop b val start ((start + 7) / 8 * 8)
        setLoop b val (stop / 8 * 8) stop) = some b' ∧ Patched b b' f start stop := by
  by_cases hbulk : stop / 8 ≤ (start + 7) / 8
  · rw [if_pos hbulk]
    obtain ⟨b', run, p⟩ := setLoop_spec val start h
    exact ⟨b', run, p.congr fun i _ hi => hval i hi⟩
  · rw [if_neg hbulk]
    obtain ⟨b₁, run₁, p₁⟩ := bulkBytes_spec byte ((start + 7) / 8)
      (show stop / 8 ≤ b.mapsize by omega)
    obtain ⟨b₂, run₂, p₂⟩ := setLoop_spec val start
      (show (start + 7) / 8 * 8 ≤ 8 * b₁.mapsize by rw [p₁.mapsize]; omega)
    obtain ⟨b₃, run₃, p₃⟩ := setLoop_spec val (stop / 8 * 8)
      (show stop ≤ 8 * b₂.mapsize by rw [p₂.mapsize, p₁.mapsize]; exact h)
    rw [mul_comm] at p₂ p₃
    refine ⟨b₃, by simp only [run₁, run₂, run₃, Option.bind_eq_bind, Option.bind_some], ?_⟩
    exact Patched.ends (p₁.congr fun i _ _ => hbyte i (by omega))
      (p₂.congr fun i _ _ => hval i (by omega)) (p₃.congr fun i _ hi => hval i hi) (by omega)

/-- `SetRangeValue` gives every bit of the range the value, and no other bit. -/
theorem setRangeValue_spec (start : Nat) (len : Int) (val : Bool)
    (h : endBit b.indexsize start len ≤ 8 * b.mapsize) :
    ∃ b', setRangeValue b start len val = some b' ∧
      Patched b b' (fun _ => val) start (endBit b.indexsize start len) := by
  unfold setRangeValue
  simp only [Nat.shiftRight_eq_div_pow, Nat.shiftLeft_eq]
  by_cases hnil : b.map = []
  · rw [if_pos hnil]
    have hsize : b.mapsize = 0 := by simp [Bitmap7.mapsize, hnil]
    exact ⟨b, rfl, .empty b _ (by omega)⟩
  rw [if_neg hnil]
  refine range_spec _ _ start h (fun i _ => by cases val <;> rfl) fun i _ => ?_
  have hall : ∀ j < 8, (0xFF#8).getLsbD j = true := by decide
  cases val with
  | true => exact hall _ (by omega)
  | false => simp

/-- `CopyRange` makes the two bitmaps agree on the range and leaves the rest of the
target alone. -/
theorem copyRange_spec {src dst : Bitmap7} (start : Nat) (len : Int)
    (hsrc : endBit src.indexsize start len ≤ 8 * src.mapsize)
    (hdst : endBit src.indexsize start len ≤ 8 * dst.mapsize) :
    ∃ dst', copyRange src start len dst = some dst' ∧
      Patched dst dst' src.bit start (endBit src.indexsize start len) := by
  unfold copyRange
  simp only [Nat.shiftRight_eq_div_pow, Nat.shiftLeft_eq]
  by_cases hnil : src.map = []
  · rw [if_pos hnil]
    have hsize : src.mapsize = 0 := by simp [Bitmap7.mapsize, hnil]
    exact ⟨dst, rfl, .empty dst _ (by omega)⟩
  rw [if_neg hnil, if_neg (by omega)]
  refine range_spec _ _ start hdst (fun i hi => ?_) fun _ _ => rfl
  rw [Bool.eq_iff_iff, decide_eq_true_iff, value_ne_zero_iff (by omega)]

/-- The three range functions touch exactly the bits of the range, whichever of its
bytes they treat in bulk. -/
theorem ranges_exact (src dst : Bitmap7) (start : Nat) (len : Int)
    (hsrc : endBit src.indexsize start len ≤ 8 * src.mapsize) :
    (∃ b', setRange src start len = some b' ∧
      Patched src b' (fun _ => true) start (endBit src.indexsize start len)) ∧
    (∃ b', freeRange src start len = some b' ∧
      Patched src b' (fun _ => false) start (endBit src.indexsize start len)) ∧
    (endBit src.indexsize start len ≤ 8 * dst.mapsize →
      ∃ dst', copyRange src start len dst = some dst' ∧
        Patched dst dst' src.bit start (endBit src.indexsize start len)) :=
  ⟨setRangeValue_spec start len true hsrc, setRangeValue_spec start len false hsrc,
    copyRange_spec start len hsrc⟩

/-- A range of one byte and two ragged ends. -/
theorem ranges_exact_three_bytes :
    (∃ b', setRange (bitmap7 24) 5 13 = some b' ∧
      Patched (bitmap7 24) b' (fun _ => true) 5 18) ∧
    ∃ b', copyRange (bitmap7 24) 5 13 (bitmap7 20) = some b' ∧
      Patched (bitmap7 20) b' (bitmap7 24).bit 5 18 :=
  have exact := ranges_exact (bitmap7 24) (bitmap7 20) 5 13 (by decide)
  ⟨exact.1, exact.2.2 (by decide)⟩

/-- Conversely, a nonempty range that is copied fits the map it is copied to. -/
theorem copyRange_inside {src dst dst' : Bitmap7} {len : Nat} (hsrc : src.map ≠ [])
    (hlen : 0 < len) (run : copyRange src start (len : Int) dst = some dst') :
    start + len ≤ 8 * dst.mapsize := by
  have hstop : endBit src.indexsize start (len : Int) = start + len := by simp [endBit]
  unfold copyRange at run
  simp only [Nat.shiftRight_eq_div_pow, hstop, if_neg hsrc] at run
  split_ifs at run with hsize hbulk
  · exact (setLoop_inside run).2 (by omega)
  · obtain ⟨b₁, run₁, p₁⟩ := bulkBytes_spec (fun k => src.map.getD k 0#8)
      ((start + 7) / 8) (by omega : (start + len) / 8 ≤ dst.mapsize)
    simp only [run₁, Option.bind_eq_bind, Option.bind_some] at run
    obtain ⟨b₂, run₂, run₃⟩ := Option.bind_eq_some_iff.mp run
    have size := (setLoop_inside run₂).1
    have inside := (setLoop_inside run₃).2
    rw [size, p₁.mapsize] at inside
    omega

/-! ### `Count` -/

/-- The indices of the set bits. -/
def Bitmap7.marked (b : Bitmap7) : Finset Nat :=
  (Finset.range (8 * b.mapsize)).filter fun i => b.bit i = true

theorem mem_marked : i ∈ b.marked ↔ b.bit i = true := by
  simp only [Bitmap7.marked, Finset.mem_filter, Finset.mem_range, and_iff_right_iff_imp]
  intro hbit
  by_contra hge
  rw [bit_eq_false_of_le (by omega)] at hbit
  cases hbit

/-- `SetIndex` inside the map adds one index to the marked ones. -/
theorem setIndex_spec (h : i < 8 * b.mapsize) :
    ∃ b', setIndex b i = some b' ∧ b'.indexsize = b.indexsize ∧ b'.mapsize = b.mapsize ∧
      b'.marked = insert i b.marked := by
  obtain ⟨b', run, patched⟩ := setValue_spec h 1
  refine ⟨b', run, patched.indexsize, patched.mapsize, ?_⟩
  ext k
  rw [Finset.mem_insert, mem_marked, mem_marked, patched.bit]
  by_cases hk : k = i
  · subst hk
    simp
  · rw [if_neg (by omega)]
    simp [hk]

theorem countByte_eq (byte : BitVec 8) :
    ((List.range 8).filter fun j => byte &&& 1#8 <<< j ≠ 0#8).length =
      ∑ k ∈ Finset.range 8, if byte.getLsbD (7 - k) = true then 1 else 0 := by
  have hbit : ∀ j ∈ List.range 8, decide (byte &&& 1#8 <<< j ≠ 0#8) = byte.getLsbD j := by
    intro j hj
    rw [Bool.eq_iff_iff, decide_eq_true_iff]
    exact and_twoPow_ne_zero (mem_range.mp hj)
  rw [filter_congr hbit, length_filter_range, ← Finset.sum_range_reflect]

theorem count_eq_card (b : Bitmap7) : count b = b.marked.card := by
  obtain ⟨n, map⟩ := b
  unfold count Bitmap7.marked Bitmap7.bit Bitmap7.mapsize
  rw [Finset.card_filter]
  induction map using List.reverseRecOn with
  | nil => rfl
  | append_singleton map byte ih =>
    rw [map_append, sum_append, ih, length_append, length_singleton,
      mul_add, Finset.sum_range_add]
    congr 1
    · refine Finset.sum_congr rfl fun i hi => ?_
      rw [getD_append _ _ _ _ (by have := Finset.mem_range.mp hi; omega)]
    · rw [map_singleton, sum_singleton, countByte_eq]
      refine Finset.sum_congr rfl fun k hk => ?_
      have hk := Finset.mem_range.mp hk
      rw [show (8 * map.length + k) / 8 = map.length by omega,
        show (8 * map.length + k) % 8 = k by omega]
      simp

end Coda.Bitmap
