import Mathlib

/-!
Byte-addressed memory: stores, big-endian words and NUL-terminated strings.

A memory is a total function; what lies outside an object is arbitrary, and every lemma
about a read says which bytes it depends on.
-/

namespace Coda.Lib

open List

/-- Byte-addressed memory. -/
abbrev Mem := Nat → BitVec 8

namespace Mem

/-- `memcpy`: the bytes `bs` from address `a` on. -/
def store (m : Mem) (a : Nat) (bs : List (BitVec 8)) : Mem :=
  fun x => if a ≤ x then bs.getD (x - a) (m x) else m x

/-- `memset`: `n` bytes `v` from address `a` on. -/
def fill (m : Mem) (a n : Nat) (v : BitVec 8) : Mem :=
  fun x => if a ≤ x ∧ x < a + n then v else m x

/-- A 16-bit word in network byte order. -/
def load16 (m : Mem) (a : Nat) : Nat := (m a).toNat * 256 + (m (a + 1)).toNat

def store16 (m : Mem) (a v : Nat) : Mem :=
  m.store a [BitVec.ofNat 8 (v / 256), BitVec.ofNat 8 v]

/-- A 32-bit word in network byte order. -/
def load32 (m : Mem) (a : Nat) : Nat := m.load16 a * 65536 + m.load16 (a + 2)

def store32 (m : Mem) (a v : Nat) : Mem :=
  m.store a [BitVec.ofNat 8 (v / 16777216), BitVec.ofNat 8 (v / 65536), BitVec.ofNat 8 (v / 256),
    BitVec.ofNat 8 v]

/-- A 16-bit word with its least significant byte first. -/
def load16le (m : Mem) (a : Nat) : Nat := (m a).toNat + (m (a + 1)).toNat * 256

def store16le (m : Mem) (a v : Nat) : Mem :=
  m.store a [BitVec.ofNat 8 v, BitVec.ofNat 8 (v / 256)]

/-- A 32-bit word with its least significant byte first. -/
def load32le (m : Mem) (a : Nat) : Nat := m.load16le a + m.load16le (a + 2) * 65536

/-! ### Stores -/

section Stores

variable {m m' : Mem} {a x : Nat} {bs : List (BitVec 8)}

theorem store_of_lt (h : x < a) : m.store a bs x = m x := by
  rw [store, if_neg (by omega)]

theorem store_of_ge (h : a + bs.length ≤ x) : m.store a bs x = m x := by
  rw [store]
  split_ifs with ha
  · rw [getD_eq_default _ _ (by omega)]
  · rfl

theorem store_outside (h : x < a ∨ a + bs.length ≤ x) : m.store a bs x = m x :=
  h.elim store_of_lt store_of_ge

theorem store_add {i : Nat} (h : i < bs.length) : m.store a bs (a + i) = bs[i] := by
  rw [store, if_pos (by omega), Nat.add_sub_cancel_left, getD_eq_getElem _ _ h]

theorem store_singleton (m : Mem) (a : Nat) (v : BitVec 8) : m.store a [v] a = v :=
  @store_add m a [v] 0 (by simp)

/-- A loop that stores one byte after the other. -/
theorem foldl_store_singleton (c : Nat) (v : BitVec 8) (m : Mem) (i n x : Nat) :
    (List.range' i n).foldl (fun m k => m.store (c + k) [v]) m x =
      if c + i ≤ x ∧ x < c + i + n then v else m x := by
  induction n generalizing m i with
  | zero => exact (if_neg (by omega)).symm
  | succ n ih =>
    rw [range'_succ, foldl_cons, ih]
    by_cases hx : x = c + i
    · subst hx
      rw [if_neg (by omega), if_pos (by omega), store_singleton]
    · rw [store_outside (by rw [length_singleton]; omega)]
      by_cases hr : c + i ≤ x ∧ x < c + i + (n + 1)
      · rw [if_pos (by omega), if_pos hr]
      · rw [if_neg (by omega), if_neg hr]

theorem load16_congr (h₀ : m' a = m a) (h₁ : m' (a + 1) = m (a + 1)) :
    m'.load16 a = m.load16 a := by
  rw [load16, load16, h₀, h₁]

theorem load32_congr (h : ∀ x, a ≤ x → x < a + 4 → m' x = m x) : m'.load32 a = m.load32 a := by
  rw [load32, load32, load16_congr (h a (by omega) (by omega)) (h _ (by omega) (by omega)),
    load16_congr (h _ (by omega) (by omega)) (h _ (by omega) (by omega))]

theorem load16le_congr (h₀ : m' a = m a) (h₁ : m' (a + 1) = m (a + 1)) :
    m'.load16le a = m.load16le a := by
  rw [load16le, load16le, h₀, h₁]

theorem load32le_congr (h : ∀ x, a ≤ x → x < a + 4 → m' x = m x) :
    m'.load32le a = m.load32le a := by
  rw [load32le, load32le, load16le_congr (h a (by omega) (by omega)) (h _ (by omega) (by omega)),
    load16le_congr (h _ (by omega) (by omega)) (h _ (by omega) (by omega))]

theorem load16_lt (m : Mem) (a : Nat) : m.load16 a < 65536 := by
  rw [load16]
  omega

variable {v : Nat}

theorem store16_outside (h : x < a ∨ a + 2 ≤ x) : m.store16 a v x = m x :=
  store_outside h

theorem store32_outside (h : x < a ∨ a + 4 ≤ x) : m.store32 a v x = m x :=
  store_outside h

theorem load16_store16 (h : v < 65536) : (m.store16 a v).load16 a = v := by
  have h₀ : m.store16 a v a = BitVec.ofNat 8 (v / 256) := @store_add m a _ 0 (by simp)
  have h₁ : m.store16 a v (a + 1) = BitVec.ofNat 8 v := @store_add m a _ 1 (by simp)
  rw [load16, h₀, h₁, BitVec.toNat_ofNat, BitVec.toNat_ofNat]
  omega

theorem load16le_store16le (h : v < 65536) : (m.store16le a v).load16le a = v := by
  have h₀ : m.store16le a v a = BitVec.ofNat 8 v := @store_add m a _ 0 (by simp)
  have h₁ : m.store16le a v (a + 1) = BitVec.ofNat 8 (v / 256) := @store_add m a _ 1 (by simp)
  rw [load16le, h₀, h₁, BitVec.toNat_ofNat, BitVec.toNat_ofNat]
  omega

theorem load32_store32 (h : v < 4294967296) : (m.store32 a v).load32 a = v := by
  have h₀ : m.store32 a v a = BitVec.ofNat 8 (v / 16777216) := @store_add m a _ 0 (by simp)
  have h₁ : m.store32 a v (a + 1) = BitVec.ofNat 8 (v / 65536) := @store_add m a _ 1 (by simp)
  have h₂ : m.store32 a v (a + 2) = BitVec.ofNat 8 (v / 256) := @store_add m a _ 2 (by simp)
  have h₃ : m.store32 a v (a + 3) = BitVec.ofNat 8 v := @store_add m a _ 3 (by simp)
  rw [load32, load16, load16, h₀, h₁, h₂, h₃]
  simp only [BitVec.toNat_ofNat]
  omega

end Stores

/-! ### Strings -/

/-- The bytes `s` and a NUL byte stand at address `a`. -/
def CStr (m : Mem) : Nat → List (BitVec 8) → Prop
  | a, [] => m a = 0#8
  | a, c :: s => m a = c ∧ CStr m (a + 1) s

instance CStr.decidable (m : Mem) : (a : Nat) → (s : List (BitVec 8)) → Decidable (CStr m a s)
  | _, [] => inferInstanceAs (Decidable (_ = _))
  | a, _ :: s => have := CStr.decidable m (a + 1) s; inferInstanceAs (Decidable (_ ∧ _))

/-- `strlen`, looking at no more than `k` bytes. -/
def strlen (m : Mem) : Nat → Nat → Nat
  | 0, _ => 0
  | k + 1, a => if m a = 0#8 then 0 else strlen m k (a + 1) + 1

/-- The first `n` bytes at address `a`. -/
def bytes (m : Mem) (a : Nat) : Nat → List (BitVec 8)
  | 0 => []
  | n + 1 => m a :: bytes m (a + 1) n

section Strings

variable {m m' : Mem} {a : Nat} {s t : List (BitVec 8)}

theorem CStr.congr (h : ∀ x, a ≤ x → x ≤ a + s.length → m' x = m x) (c : CStr m a s) :
    CStr m' a s := by
  induction s generalizing a with
  | nil => exact (h a (Nat.le_refl a) (by simp)).trans c
  | cons b s ih =>
    refine ⟨(h a (Nat.le_refl a) (by simp)).trans c.1, ih (fun x h₁ h₂ => h x (by omega) ?_) c.2⟩
    simp only [length_cons]
    omega

/-- Without NUL bytes inside, the string at an address is unique. -/
theorem CStr.unique (c : CStr m a s) (d : CStr m a t) (hs : 0#8 ∉ s) (ht : 0#8 ∉ t) : s = t := by
  induction s generalizing a t with
  | nil =>
    cases t with
    | nil => rfl
    | cons b t => exact absurd (c.symm.trans d.1) fun h => ht (h ▸ (.head _))
  | cons b s ih =>
    cases t with
    | nil => exact absurd (d.symm.trans c.1) fun h => hs (h ▸ (.head _))
    | cons b' t =>
      rw [ih c.2 d.2 (fun h => hs (.tail _ h))
        (fun h => ht (.tail _ h)), ← c.1, ← d.1]

theorem CStr.strlen_eq (c : CStr m a s) (hs : 0#8 ∉ s) {k : Nat} (hk : s.length < k) :
    m.strlen k a = s.length := by
  induction s generalizing a k with
  | nil =>
    obtain ⟨k, rfl⟩ := Nat.exists_eq_succ_of_ne_zero (Nat.ne_of_gt hk)
    exact if_pos c
  | cons b s ih =>
    obtain ⟨k, rfl⟩ := Nat.exists_eq_succ_of_ne_zero (Nat.ne_zero_of_lt hk)
    have hb : m a ≠ 0#8 := fun h => hs (by rw [← h, c.1]; exact (.head _))
    rw [strlen, if_neg hb, ih c.2 (fun h => hs (.tail _ h))
      (by simp only [length_cons] at hk; omega), length_cons]

theorem bytes_eq_map (m : Mem) (a n : Nat) : m.bytes a n = (List.range n).map fun i => m (a + i) := by
  induction n generalizing a with
  | zero => rfl
  | succ n ih =>
    rw [bytes, ih, range_succ_eq_map, map_cons, map_map]
    refine congrArg (m a :: ·) (map_congr_left fun i _ => ?_)
    exact congrArg m (by omega)

theorem bytes_congr {n : Nat} (h : ∀ x, a ≤ x → x < a + n → m' x = m x) :
    m'.bytes a n = m.bytes a n := by
  rw [bytes_eq_map, bytes_eq_map]
  refine map_congr_left fun i hi => ?_
  have := mem_range.mp hi
  exact h _ (by omega) (by omega)

theorem getD_bytes {n i : Nat} (h : i < n) (d : BitVec 8) : (m.bytes a n).getD i d = m (a + i) := by
  rw [bytes_eq_map, getD_eq_getElem _ _ (by rwa [length_map, length_range]),
    getElem_map, getElem_range]

@[simp] theorem length_bytes (m : Mem) (a n : Nat) : (m.bytes a n).length = n := by
  induction n generalizing a with
  | zero => rfl
  | succ n ih => rw [bytes, length_cons, ih]

/-- What is stored right behind some bytes follows them. -/
theorem bytes_store_behind (m : Mem) (a n : Nat) (bs : List (BitVec 8)) :
    (m.store (a + n) bs).bytes a (n + bs.length) = m.bytes a n ++ bs := by
  rw [bytes_eq_map, bytes_eq_map, range_add, map_append, map_map]
  congr 1
  · refine map_congr_left fun i hi => store_of_lt ?_
    have := mem_range.mp hi
    omega
  · refine ext_getElem (by rw [length_map, length_range]) fun i h₁ h₂ => ?_
    rw [getElem_map, getElem_range, Function.comp_apply, ← Nat.add_assoc, store_add h₂]

/-- A part of what was stored. -/
theorem bytes_store_part (m : Mem) (a : Nat) (pre bs post : List (BitVec 8)) :
    (m.store a (pre ++ (bs ++ post))).bytes (a + pre.length) bs.length = bs := by
  rw [bytes_eq_map]
  refine ext_getElem (by rw [length_map, length_range]) fun i h₁ h₂ => ?_
  have hi : pre.length + i < (pre ++ (bs ++ post)).length := by
    simp only [length_append]
    omega
  rw [getElem_map, getElem_range, Nat.add_assoc, store_add hi,
    getElem_append_right (Nat.le_add_right _ _)]
  simp only [Nat.add_sub_cancel_left]
  exact getElem_append_left h₂

/-- A string whose end is found within `k` bytes. -/
theorem cstr_of_strlen_lt {k : Nat} (h : m.strlen k a < k) :
    CStr m a (m.bytes a (m.strlen k a)) ∧ 0#8 ∉ m.bytes a (m.strlen k a) := by
  induction k generalizing a with
  | zero => exact absurd h (Nat.not_lt_zero _)
  | succ k ih =>
    rw [strlen] at h ⊢
    split_ifs at h ⊢ with hz
    · exact ⟨hz, not_mem_nil⟩
    · obtain ⟨c, nonul⟩ := ih (by omega : m.strlen k (a + 1) < k)
      refine ⟨⟨rfl, c⟩, fun hmem => ?_⟩
      rcases mem_cons.mp hmem with h₀ | h₁
      · exact hz h₀.symm
      · exact nonul h₁

/-- `strcpy`. -/
theorem cstr_store (m : Mem) (a : Nat) (s : List (BitVec 8)) :
    CStr (m.store a (s ++ [0#8])) a s := by
  suffices h : ∀ t, CStr (m.store a (t ++ (s ++ [0#8]))) (a + t.length) s from h []
  induction s with
  | nil =>
    intro t
    have := @store_add m a (t ++ [0#8]) t.length (by simp)
    simpa [CStr] using this
  | cons b s ih =>
    intro t
    refine ⟨?_, ?_⟩
    · have := @store_add m a (t ++ (b :: s ++ [0#8])) t.length (by simp)
      simpa using this
    · have := ih (t ++ [b])
      simpa [Nat.add_assoc] using this

end Strings

/-! ### Vectors of bytes -/

/-- The `n` bytes at address `a`. -/
def vec (m : Mem) (a : Nat) {n : Nat} : Fin n → BitVec 8 := fun i => m (a + i)

def setVec (m : Mem) (a : Nat) {n : Nat} (v : Fin n → BitVec 8) : Mem :=
  fun x => if h : a ≤ x ∧ x < a + n then v ⟨x - a, by omega⟩ else m x

/-- `n` bytes at `a` and `k` bytes at `b` do not overlap. -/
def Apart (a n b k : Nat) : Prop := a + n ≤ b ∨ b + k ≤ a

instance Apart.decidable (a n b k : Nat) : Decidable (Apart a n b k) :=
  inferInstanceAs (Decidable (_ ∨ _))

section Vectors

variable {m m' : Mem} {a x n : Nat} {v : Fin n → BitVec 8}

theorem setVec_outside (h : x < a ∨ a + n ≤ x) : m.setVec a v x = m x := dif_neg (by omega)

@[simp] theorem vec_setVec : (m.setVec a v).vec a = v := by
  funext i
  rw [vec, setVec, dif_pos (by omega)]
  exact congrArg v (Fin.ext (Nat.add_sub_cancel_left a i))

theorem vec_congr (h : ∀ x, a ≤ x → x < a + n → m' x = m x) :
    (m'.vec a : Fin n → BitVec 8) = m.vec a := by
  funext i
  exact h _ (by omega) (by omega)

end Vectors

end Mem

/-- A C string: bytes without NUL. -/
structure CString where
  bytes : List (BitVec 8)
  nonul : 0#8 ∉ bytes
deriving DecidableEq

theorem CString.ext {s t : CString} (h : s.bytes = t.bytes) : s = t := by
  cases s
  cases t
  cases h
  rfl

end Coda.Lib
