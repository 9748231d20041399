import Coda.Lib.Memory

/-!
The stored form of a profile (`coda-src/al/pdbpack.c`, `coda-src/al/pdbarray.c`).

A profile is stored in words of network byte order. A string takes one word for its length and then
as many words as it has bytes, although its bytes are copied next to each other; the rest of those
words is what `malloc` left there. `Laid` says what stands in the block, piece by piece.

A function is `none` where an assertion fails, a word or byte outside the block is used, or a signed
sum does not fit an `int`.
-/

namespace Coda.Al.PdbPack

open Coda.Lib List Option

/-! ### The block and the numbers of C -/

/-- Memory of `words` words, at address 0 of `mem`. -/
structure Block where
  words : Nat
  mem : Mem

/-- The conversion of a number to `int`. -/
def toInt (n : Int) : Int := n.bmod 4294967296

def addInt (a b : Int) : Option Int :=
  if -2147483648 ≤ a + b ∧ a + b ≤ 2147483647 then some (a + b) else none

/-- `tmp[i] = htonl(v)`. -/
def Block.put (b : Block) (i : Int) (v : BitVec 32) : Option Block :=
  if 0 ≤ i ∧ i < b.words then
    some { b with mem := b.mem.store32 (4 * i.toNat) v.toNat }
  else none

/-- `memcpy((char *)&tmp[i], bytes, len)`. -/
def Block.memcpy (b : Block) (i : Int) (bytes : List (BitVec 8)) (len : Int) : Option Block :=
  if 0 ≤ i ∧ 0 ≤ len ∧ len ≤ bytes.length ∧ 4 * i + len ≤ 4 * b.words then
    some { b with mem := b.mem.store (4 * i.toNat) (bytes.take len.toNat) }
  else none

/-- `ntohl(tmp[i])`. -/
def Block.get (b : Block) (i : Nat) : Option (BitVec 32) :=
  if i < b.words then some (BitVec.ofNat 32 (b.mem.load32 (4 * i))) else none

/-- The `len` bytes from `(char *)&tmp[i]` on. -/
def Block.bytes (b : Block) (i len : Nat) : Option (List (BitVec 8)) :=
  if 4 * i + len ≤ 4 * b.words then some ((List.range len).map fun k => b.mem (4 * i + k)) else none

/-! ### Packing -/

/-- The ids of a `pdb_array`, as many as an `int` counts. -/
structure IdList where
  ids : List (BitVec 32)
  fits : ids.length ≤ 2147483647

/-- `PDB_profile`. A string that is NULL is `none`. -/
structure Profile where
  id : BitVec 32
  name : Option CString
  ownerId : BitVec 32
  ownerName : Option CString
  memberOf : IdList
  cps : IdList
  groupsOrMembers : IdList

/-- The loop of `pdb_array_pack`, from word `i` on. -/
def packLoop (b : Block) (i : Int) : List (BitVec 32) → Option Block
  | [] => some b
  | x :: xs => do
    let b ← b.put i x
    packLoop b (i + 1) xs

/-- `pdb_array_pack`. The offset goes on by the result. -/
def pdbArrayPack (b : Block) (off : Int) (l : IdList) : Option (Block × Int) := do
  let b ← b.put off (BitVec.ofNat 32 l.ids.length)
  let b ← packLoop b (off + 1) l.ids
  let count ← addInt l.ids.length 1
  let off ← addInt off count
  return (b, off)

/-- A string of `pdb_pack`: its length and its bytes. -/
def packString (b : Block) (off : Int) (s : Option CString) : Option (Block × Int) :=
  match s with
  | some s => do
    let len := toInt s.bytes.length
    let b ← b.put off (BitVec.ofInt 32 len)
    let off ← addInt off 1
    let b ← b.memcpy off s.bytes len
    let off ← addInt off len
    return (b, off)
  | none => do
    let b ← b.put off 0
    let off ← addInt off 1
    return (b, off)

/-- `tmpsize += strlen(s)`. The sum is one of `size_t`. -/
def addStrlen (tmpsize : Int) : Option CString → Int
  | some s => toInt (tmpsize + s.bytes.length)
  | none => tmpsize

/-- `pdb_pack`, into memory that has the contents `mem`: the block, and its size in bytes. -/
def pdbPack (mem : Mem) (r : Profile) : Option (Block × Nat) := do
  let tmpsize ← [(r.memberOf.ids.length : Int), 1, r.cps.ids.length, 1,
    r.groupsOrMembers.ids.length, 1].foldlM addInt 4
  let tmpsize := addStrlen (addStrlen tmpsize r.name) r.ownerName
  -- as a size_t, a negative number of words is more than malloc gives
  let b : Block ← (if 0 ≤ tmpsize then some ⟨tmpsize.toNat, mem⟩ else none)
  let b ← b.put 0 r.id
  let (b, off) ← packString b 1 r.name
  let b ← b.put off r.ownerId
  let off ← addInt off 1
  let (b, off) ← packString b off r.ownerName
  let (b, off) ← pdbArrayPack b off r.memberOf
  let (b, off) ← pdbArrayPack b off r.cps
  let (b, off) ← pdbArrayPack b off r.groupsOrMembers
  if off = tmpsize then some (b, 4 * tmpsize.toNat) else none

/-! ### Unpacking -/

structure UnpackedArray where
  size : Int
  data : List (BitVec 32)
deriving DecidableEq

/-- The profile that `pdb_unpack` fills in. -/
structure Unpacked where
  id : BitVec 32
  name : List (BitVec 8)
  ownerId : BitVec 32
  ownerName : List (BitVec 8)
  memberOf : UnpackedArray
  cps : UnpackedArray
  groupsOrMembers : UnpackedArray
deriving DecidableEq

/-- The sum of two `unsigned int`s. -/
def addUnsigned (a b : Nat) : Nat := (a + b) % 4294967296

/-- The loop of `pdb_array_unpack`, from word `i` on. -/
def unpackLoop (b : Block) (i : Nat) : Nat → Option (List (BitVec 32))
  | 0 => some []
  | k + 1 => do
    let x ← b.get i
    let xs ← unpackLoop b (i + 1) k
    return x :: xs

/-- `pdb_array_unpack`. -/
def pdbArrayUnpack (b : Block) (off : Nat) : Option (UnpackedArray × Nat) := do
  let size := (← b.get off).toInt
  let data ← unpackLoop b (off + 1) size.toNat
  let count ← addInt size 1
  return (⟨size, data⟩, addUnsigned off (BitVec.ofInt 32 count).toNat)

/-- A string of `pdb_unpack`. The buffer of `len + 1` bytes has room for the final NUL unless the
sum is 0. -/
def unpackString (b : Block) (off : Nat) : Option (List (BitVec 8) × Nat) := do
  let len := (← b.get off).toNat
  let off := addUnsigned off 1
  if addUnsigned len 1 = 0 then none
  else
    let bytes ← b.bytes off len
    return (bytes, addUnsigned off len)

/-- `pdb_unpack` of `size` bytes into `r`. -/
def pdbUnpack (r : Unpacked) (b : Block) (size : Nat) : Option Unpacked :=
  if size = 0 then some { r with id := 0 }
  else do
    let id ← b.get 0
    let (name, off) ← unpackString b 1
    let ownerId ← b.get off
    let (ownerName, off) ← unpackString b (addUnsigned off 1)
    let (memberOf, off) ← pdbArrayUnpack b off
    let (cps, off) ← pdbArrayUnpack b off
    let (groupsOrMembers, off) ← pdbArrayUnpack b off
    if off ≤ size then some ⟨id, name, ownerId, ownerName, memberOf, cps, groupsOrMembers⟩ else none

/-! ### The layout -/

inductive Piece where
  | word (v : BitVec 32)
  | text (bytes : List (BitVec 8))

/-- The words a piece takes. -/
def Piece.width : Piece → Nat
  | .word _ => 1
  | .text bytes => bytes.length

def width (ps : List Piece) : Nat := (ps.map Piece.width).sum

@[simp] theorem width_nil : width [] = 0 := rfl

@[simp] theorem width_cons (p : Piece) (ps : List Piece) : width (p :: ps) = p.width + width ps := by
  simp [width]

@[simp] theorem width_append (ps qs : List Piece) : width (ps ++ qs) = width ps + width qs := by
  simp [width]

theorem width_concat_word (ps : List Piece) (v : BitVec 32) :
    width (ps ++ [.word v]) = width ps + 1 := by
  rw [width_append, width_cons, width_nil]
  rfl

@[simp] theorem width_map_word (xs : List (BitVec 32)) : width (xs.map Piece.word) = xs.length := by
  induction xs with
  | nil => rfl
  | cons x xs ih =>
    rw [map_cons, width_cons, ih, length_cons, Nat.add_comm]
    rfl

/-- The piece stands at word `i`. -/
def Piece.At (m : Mem) (i : Nat) : Piece → Prop
  | .word v => m.load32 (4 * i) = v.toNat
  | .text bytes => ∀ (k : Nat) (h : k < bytes.length), m (4 * i + k) = bytes[k]

/-- The pieces stand one after the other from word `i` on. -/
def Laid (m : Mem) : Nat → List Piece → Prop
  | _, [] => True
  | i, p :: ps => p.At m i ∧ Laid m (i + p.width) ps

section Laid

variable {m m' : Mem} {i a : Nat} {p : Piece} {ps qs : List Piece}

theorem laid_append : Laid m i (ps ++ qs) ↔ Laid m i ps ∧ Laid m (i + width ps) qs := by
  induction ps generalizing i with
  | nil => simp [Laid]
  | cons p ps ih => simp [Laid, ih, and_assoc, Nat.add_assoc]

theorem Piece.At.mono (same : ∀ x < 4 * a, m' x = m x) (hi : i + p.width ≤ a) (h : p.At m i) :
    p.At m' i := by
  cases p with
  | word v =>
    have hi' : i + 1 ≤ a := hi
    exact (Mem.load32_congr fun x _ hx => same x (by omega)).trans h
  | text bytes =>
    have hi' : i + bytes.length ≤ a := hi
    intro k hk
    rw [same _ (by omega)]
    exact h k hk

theorem Laid.mono (same : ∀ x < 4 * a, m' x = m x) (hi : i + width ps ≤ a) (h : Laid m i ps) :
    Laid m' i ps := by
  induction ps generalizing i with
  | nil => trivial
  | cons p ps ih =>
    rw [width_cons] at hi
    exact ⟨h.1.mono same (by omega), ih (by omega) h.2⟩

/-- What was laid out stays when a piece is written behind it. -/
theorem Laid.concat (h : Laid m 0 ps) (same : ∀ x < 4 * width ps, m' x = m x)
    (new : p.At m' (width ps)) : Laid m' 0 (ps ++ [p]) := by
  refine laid_append.mpr ⟨h.mono same (Nat.le_of_eq (Nat.zero_add _)), ?_, trivial⟩
  rw [Nat.zero_add]
  exact new

end Laid

/-! ### Packing lays the pieces out -/

section Pack

variable {b : Block} {ps : List Piece} {n : Nat}

/-- The pieces stand at the start of a block of `n` words. -/
structure Filled (n : Nat) (b : Block) (ps : List Piece) : Prop where
  words : b.words = n
  laid : Laid b.mem 0 ps

theorem Filled.put (h : Filled n b ps) (v : BitVec 32) (room : width ps + 1 ≤ n) :
    ∃ b', b.put (width ps) v = some b' ∧ Filled n b' (ps ++ [.word v]) := by
  refine ⟨_, if_pos ⟨Int.natCast_nonneg _, by rw [h.words]; omega⟩, h.words, ?_⟩
  refine h.laid.concat (fun x hx => Mem.store32_outside (.inl hx)) ?_
  exact Mem.load32_store32 v.isLt

theorem Filled.memcpy (h : Filled n b ps) (bytes : List (BitVec 8))
    (room : width ps + bytes.length ≤ n) :
    ∃ b', b.memcpy (width ps) bytes bytes.length = some b' ∧
      Filled n b' (ps ++ [.text bytes]) := by
  refine ⟨_, if_pos ⟨Int.natCast_nonneg _, Int.natCast_nonneg _, Int.le_refl _,
    by rw [h.words]; omega⟩, h.words, ?_⟩
  rw [Int.toNat_natCast, Int.toNat_natCast, take_length]
  refine h.laid.concat (fun x hx => Mem.store_of_lt hx) ?_
  exact fun k hk => Mem.store_add hk

theorem Filled.packLoop (h : Filled n b ps) (xs : List (BitVec 32))
    (room : width ps + xs.length ≤ n) :
    ∃ b', packLoop b (width ps) xs = some b' ∧ Filled n b' (ps ++ xs.map .word) := by
  induction xs generalizing b ps with
  | nil => exact ⟨b, rfl, by rwa [map_nil, append_nil]⟩
  | cons x xs ih =>
    rw [length_cons] at room
    obtain ⟨b₁, hput, h₁⟩ := h.put x (by omega)
    have hwidth := width_concat_word ps x
    obtain ⟨b₂, hloop, h₂⟩ := ih h₁ (by omega)
    refine ⟨b₂, ?_, by rwa [append_assoc] at h₂⟩
    rw [hwidth] at hloop
    rw [PdbPack.packLoop, hput]
    exact hloop

theorem addInt_natCast {a b : Nat} (h : a + b ≤ 2147483647) :
    addInt a b = some ((a + b : Nat) : Int) := by
  rw [addInt, if_pos (by omega), Int.natCast_add]

theorem addInt_one {a : Nat} (h : a + 1 ≤ 2147483647) :
    addInt a 1 = some ((a + 1 : Nat) : Int) := by
  rw [addInt, if_pos (by omega), Int.natCast_succ]

/-- The pieces of an array. -/
def IdList.pieces (l : IdList) : List Piece :=
  .word (BitVec.ofNat 32 l.ids.length) :: l.ids.map .word

@[simp] theorem width_idList (l : IdList) : width l.pieces = l.ids.length + 1 := by
  rw [IdList.pieces, width_cons, width_map_word, Nat.add_comm]
  rfl

theorem Filled.pdbArrayPack (h : Filled n b ps) (hn : n ≤ 2147483647) (l : IdList)
    (room : width (ps ++ l.pieces) ≤ n) :
    ∃ b', pdbArrayPack b (width ps) l = some (b', (width (ps ++ l.pieces) : Int)) ∧
      Filled n b' (ps ++ l.pieces) := by
  have hroom := room
  rw [width_append, width_idList] at hroom
  obtain ⟨b₁, hput, h₁⟩ := h.put (BitVec.ofNat 32 l.ids.length) (by omega)
  have hwidth := width_concat_word ps (BitVec.ofNat 32 l.ids.length)
  obtain ⟨b₂, hloop, h₂⟩ := h₁.packLoop l.ids (by omega)
  rw [hwidth, Int.natCast_add, Int.natCast_one] at hloop
  rw [append_assoc] at h₂
  refine ⟨b₂, ?_, h₂⟩
  rw [PdbPack.pdbArrayPack, hput, bind_eq_bind, bind_some, hloop,
    bind_eq_bind, bind_some, addInt_one (by omega), bind_some,
    addInt_natCast (by omega), bind_some, width_append, width_idList]
  rfl

/-- The bytes of a string, none for NULL. -/
def textOf (s : Option CString) : List (BitVec 8) := (s.map CString.bytes).getD []

/-- The pieces of a string. -/
def stringPieces (s : Option CString) : List Piece :=
  [.word (BitVec.ofNat 32 (textOf s).length), .text (textOf s)]

@[simp] theorem width_stringPieces (s : Option CString) :
    width (stringPieces s) = (textOf s).length + 1 := by
  simp [stringPieces, Piece.width, Nat.add_comm]

theorem toInt_natCast {k : Nat} (h : k ≤ 2147483647) : toInt k = k := by
  rw [toInt, Int.bmod_eq_of_le] <;> omega

theorem Filled.packString (h : Filled n b ps) (hn : n ≤ 2147483647) (s : Option CString)
    (room : width (ps ++ stringPieces s) ≤ n) :
    ∃ b', packString b (width ps) s = some (b', (width (ps ++ stringPieces s) : Int)) ∧
      Filled n b' (ps ++ stringPieces s) := by
  have hroom := room
  rw [width_append, width_stringPieces] at hroom
  obtain ⟨b₁, hput, h₁⟩ := h.put (BitVec.ofNat 32 (textOf s).length) (by omega)
  have hwidth := width_concat_word ps (BitVec.ofNat 32 (textOf s).length)
  have hone : addInt (width ps) 1 = some ((width ps + 1 : Nat) : Int) := addInt_one (by omega)
  cases s with
  | none =>
    -- a NULL string is packed as an empty one, which has no bytes
    have hput₀ : b.put (width ps) 0 = some b₁ := hput
    refine ⟨b₁, ?_, h₁.words, ?_⟩
    · rw [PdbPack.packString]
      simp only [bind_eq_bind, hput₀, bind_some, hone]
      rw [width_append, width_stringPieces]
      rfl
    · refine laid_append.mpr ⟨(laid_append.mp h₁.laid).1, (laid_append.mp h₁.laid).2.1, ?_, trivial⟩
      exact fun k hk => absurd hk (Nat.not_lt_zero k)
  | some s =>
    have htext : textOf (some s) = s.bytes := rfl
    rw [htext] at hroom hput h₁ hwidth
    obtain ⟨b₂, hcopy, h₂⟩ := h₁.memcpy s.bytes (by omega)
    rw [hwidth] at hcopy
    rw [append_assoc] at h₂
    refine ⟨b₂, ?_, h₂⟩
    rw [PdbPack.packString, toInt_natCast (by omega), BitVec.ofInt_natCast]
    simp only [bind_eq_bind, hput, bind_some, hone, hcopy]
    rw [addInt_natCast (by omega), bind_some, width_append, width_stringPieces, htext,
      Nat.add_assoc, Nat.add_comm 1]
    rfl

end Pack

/-! ### Unpacking reads the pieces -/

section Unpack

variable {b : Block} {i : Nat} {ps : List Piece}

theorem laid_word {m : Mem} {v : BitVec 32} :
    Laid m i (.word v :: ps) ↔ m.load32 (4 * i) = v.toNat ∧ Laid m (i + 1) ps := Iff.rfl

theorem get_of_laid {v : BitVec 32} (h : Laid b.mem i (.word v :: ps)) (room : i < b.words) :
    b.get i = some v := by
  have hv : b.mem.load32 (4 * i) = v.toNat := h.1
  rw [Block.get, if_pos room, hv, BitVec.ofNat_toNat, BitVec.setWidth_eq]

theorem bytes_of_laid {bytes : List (BitVec 8)} (h : Laid b.mem i (.text bytes :: ps))
    (room : i + bytes.length ≤ b.words) : b.bytes i bytes.length = some bytes := by
  have hbytes : ∀ (k : Nat) (hk : k < bytes.length), b.mem (4 * i + k) = bytes[k] := h.1
  rw [Block.bytes, if_pos (by omega)]
  congr 1
  refine ext_getElem (by simp) fun k _ hk => ?_
  rw [getElem_map, getElem_range]
  exact hbytes k hk

theorem addUnsigned_of_le {a k : Nat} (h : a + k ≤ 2147483647) : addUnsigned a k = a + k :=
  Nat.mod_eq_of_lt (by omega)

theorem unpackString_of_laid {s : Option CString} (hmax : b.words ≤ 2147483647)
    (h : Laid b.mem i (stringPieces s)) (room : i + width (stringPieces s) ≤ b.words) :
    unpackString b i = some (textOf s, i + width (stringPieces s)) := by
  rw [width_stringPieces] at room
  have hlen : (BitVec.ofNat 32 (textOf s).length).toNat = (textOf s).length := by
    exact Nat.mod_eq_of_lt (by omega)
  have hbytes := bytes_of_laid (laid_word.mp h).2 (by omega)
  rw [unpackString, get_of_laid h (by omega)]
  simp only [bind_eq_bind, bind_some, hlen]
  rw [addUnsigned_of_le (by omega), addUnsigned_of_le (by omega), if_neg (by omega), hbytes,
    bind_some, addUnsigned_of_le (by omega), width_stringPieces, Nat.add_assoc,
    Nat.add_comm 1]
  rfl

theorem unpackLoop_of_laid {xs : List (BitVec 32)} (h : Laid b.mem i (xs.map .word))
    (room : i + xs.length ≤ b.words) : unpackLoop b i xs.length = some xs := by
  induction xs generalizing i with
  | nil => rfl
  | cons x xs ih =>
    rw [length_cons] at room
    rw [length_cons, unpackLoop, get_of_laid h (by omega)]
    rw [ih (laid_word.mp h).2 (by omega)]
    rfl

theorem pdbArrayUnpack_of_laid {l : IdList} (hmax : b.words ≤ 2147483647)
    (h : Laid b.mem i l.pieces) (room : i + width l.pieces ≤ b.words) :
    pdbArrayUnpack b i = some (⟨l.ids.length, l.ids⟩, i + width l.pieces) := by
  rw [width_idList] at room
  have hlen : (BitVec.ofNat 32 l.ids.length).toInt = l.ids.length := by
    rw [BitVec.toInt_eq_toNat_of_lt (by rw [BitVec.toNat_ofNat]; omega), BitVec.toNat_ofNat]
    omega
  have hcount : (BitVec.ofInt 32 ((l.ids.length + 1 : Nat) : Int)).toNat = l.ids.length + 1 := by
    rw [BitVec.ofInt_natCast, BitVec.toNat_ofNat]
    exact Nat.mod_eq_of_lt (by omega)
  rw [pdbArrayUnpack, get_of_laid h (by omega)]
  simp only [bind_eq_bind, bind_some, hlen, Int.toNat_natCast]
  rw [unpackLoop_of_laid (laid_word.mp h).2 (by omega), bind_some, addInt_one (by omega),
    bind_some, hcount, addUnsigned_of_le (by omega), width_idList]
  rfl

end Unpack

/-! ### The round trip -/

/-- The pieces of a profile, in the order they are stored. -/
def Profile.pieces (r : Profile) : List Piece :=
  .word r.id :: stringPieces r.name ++ .word r.ownerId :: stringPieces r.ownerName ++
    r.memberOf.pieces ++ r.cps.pieces ++ r.groupsOrMembers.pieces

/-- The words a profile needs. -/
def Profile.words (r : Profile) : Nat :=
  7 + (textOf r.name).length + (textOf r.ownerName).length + r.memberOf.ids.length +
    r.cps.ids.length + r.groupsOrMembers.ids.length

/-- The profile with its NULL strings empty. -/
def Profile.readBack (r : Profile) : Unpacked :=
  ⟨r.id, textOf r.name, r.ownerId, textOf r.ownerName, ⟨r.memberOf.ids.length, r.memberOf.ids⟩,
    ⟨r.cps.ids.length, r.cps.ids⟩, ⟨r.groupsOrMembers.ids.length, r.groupsOrMembers.ids⟩⟩

theorem width_pieces (r : Profile) : width r.pieces = r.words := by
  simp only [Profile.pieces, Profile.words, width_append, width_cons, width_stringPieces,
    width_idList, Piece.width]
  omega

theorem addStrlen_natCast {k : Nat} {s : Option CString} (h : k + (textOf s).length ≤ 2147483647) :
    addStrlen k s = ((k + (textOf s).length : Nat) : Int) := by
  cases s with
  | none => rfl
  | some s =>
    exact toInt_natCast h

theorem tmpsize_eq (r : Profile) (fits : r.words ≤ 2147483647) :
    [(r.memberOf.ids.length : Int), 1, r.cps.ids.length, 1, r.groupsOrMembers.ids.length, 1].foldlM
      addInt 4 = some ((4 + r.memberOf.ids.length + 1 + r.cps.ids.length + 1 +
        r.groupsOrMembers.ids.length + 1 : Nat) : Int) := by
  rw [Profile.words] at fits
  have hfour : addInt 4 r.memberOf.ids.length = some ((4 + r.memberOf.ids.length : Nat) : Int) := by
    rw [addInt, if_pos (by omega), Int.natCast_add]
    rfl
  simp only [foldlM_cons, foldlM_nil, bind_eq_bind]
  rw [hfour, bind_some, addInt_one (by omega), bind_some, addInt_natCast (by omega),
    bind_some, addInt_one (by omega), bind_some, addInt_natCast (by omega),
    bind_some, addInt_one (by omega), bind_some]
  rfl

theorem pdbPack_spec (mem : Mem) (r : Profile) (fits : r.words ≤ 2147483647) :
    ∃ b, pdbPack mem r = some (b, 4 * r.words) ∧ Filled r.words b r.pieces := by
  have hwords := width_pieces r
  have hwidth := Profile.words.eq_1 r
  have htmpsize : addStrlen (addStrlen ((4 + r.memberOf.ids.length + 1 + r.cps.ids.length + 1 +
      r.groupsOrMembers.ids.length + 1 : Nat) : Int) r.name) r.ownerName = (r.words : Int) := by
    rw [addStrlen_natCast (by omega), addStrlen_natCast (by omega)]
    congr 1
    omega
  -- the steps of the function, each of which adds its pieces
  have h₀ : Filled r.words ⟨r.words, mem⟩ [] := ⟨rfl, trivial⟩
  obtain ⟨b₁, hput₁, h₁⟩ := h₀.put r.id (by rw [width_nil]; omega)
  obtain ⟨b₂, hname, h₂⟩ := h₁.packString fits r.name (by simp [Piece.width]; omega)
  obtain ⟨b₃, hput₃, h₃⟩ := h₂.put r.ownerId (by simp [Piece.width]; omega)
  obtain ⟨b₄, howner, h₄⟩ := h₃.packString fits r.ownerName (by simp [Piece.width]; omega)
  obtain ⟨b₅, hmember, h₅⟩ := h₄.pdbArrayPack fits r.memberOf (by simp [Piece.width]; omega)
  obtain ⟨b₆, hcps, h₆⟩ := h₅.pdbArrayPack fits r.cps (by simp [Piece.width]; omega)
  obtain ⟨b₇, hgroups, h₇⟩ := h₆.pdbArrayPack fits r.groupsOrMembers
    (by simp [Piece.width]; omega)
  have hpieces : [] ++ [.word r.id] ++ stringPieces r.name ++ [.word r.ownerId] ++
      stringPieces r.ownerName ++ r.memberOf.pieces ++ r.cps.pieces ++ r.groupsOrMembers.pieces =
      r.pieces := by
    simp only [Profile.pieces, nil_append, cons_append, append_assoc]
  rw [hpieces] at hgroups h₇
  refine ⟨b₇, ?_, h₇⟩
  rw [width_nil, Int.natCast_zero] at hput₁
  rw [width_concat_word, width_nil, Int.natCast_one] at hname
  rw [width_concat_word] at howner
  rw [pdbPack, tmpsize_eq r fits, bind_eq_bind, bind_some]
  simp only [htmpsize]
  rw [if_pos (Int.natCast_nonneg _), bind_eq_bind, bind_some, Int.toNat_natCast,
    hput₁, bind_some, hname, bind_eq_bind, bind_some, hput₃, bind_some,
    addInt_one (by simp [Piece.width]; omega), bind_some, howner, bind_some, hmember,
    bind_some, hcps, bind_some, hgroups, bind_some, if_pos (by rw [hwords])]

theorem pdbUnpack_of_filled {r : Profile} {b : Block} (r₀ : Unpacked) (fits : r.words ≤ 2147483647)
    (h : Filled r.words b r.pieces) : pdbUnpack r₀ b (4 * r.words) = some r.readBack := by
  have hmax : b.words ≤ 2147483647 := h.words ▸ fits
  have hwords := h.words
  have hwidth := Profile.words.eq_1 r
  have hlaid := h.laid
  simp only [Profile.pieces, cons_append, append_assoc, laid_word, laid_append,
    width_stringPieces, width_idList, Nat.zero_add] at hlaid
  obtain ⟨hid, hname, hownerId, hownerName, hmember, hcps, hgroups⟩ := hlaid
  have hget : b.get 0 = some r.id := get_of_laid (laid_word.mpr ⟨hid, hname⟩) (by omega)
  have hname' := unpackString_of_laid hmax hname (by rw [width_stringPieces]; omega)
  have hget' := get_of_laid (laid_word.mpr ⟨hownerId, hownerName⟩) (by omega)
  have hownerName' := unpackString_of_laid hmax hownerName (by rw [width_stringPieces]; omega)
  have hmember' := pdbArrayUnpack_of_laid hmax hmember (by rw [width_idList]; omega)
  have hcps' := pdbArrayUnpack_of_laid hmax hcps (by rw [width_idList]; omega)
  have hgroups' := pdbArrayUnpack_of_laid hmax hgroups (by rw [width_idList]; omega)
  rw [width_stringPieces] at hname' hownerName'
  rw [width_idList] at hmember' hcps' hgroups'
  have hnext := addUnsigned_of_le (a := 1 + ((textOf r.name).length + 1)) (k := 1) (by omega)
  rw [pdbUnpack, if_neg (by omega)]
  simp only [bind_eq_bind, hget, bind_some, hname', hget', hnext, hownerName', hmember',
    hcps', hgroups']
  rw [if_pos (by omega)]
  rfl

/-- Packing stays within its allocation and passes its assertion, and unpacking gives the profile
back, whatever the memory held before. -/
theorem pdbUnpack_pdbPack (mem : Mem) (r : Profile) (r₀ : Unpacked) (fits : r.words ≤ 2147483647) :
    ∃ b, pdbPack mem r = some (b, 4 * r.words) ∧ b.words = r.words ∧
      pdbUnpack r₀ b (4 * r.words) = some r.readBack := by
  obtain ⟨b, hpack, filled⟩ := pdbPack_spec mem r fits
  exact ⟨b, hpack, filled.words, pdbUnpack_of_filled r₀ fits filled⟩

/-- A profile that has nothing but an id and a name. -/
def named (name : CString) : Profile := ⟨1, some name, 0, none, ⟨[], by simp⟩, ⟨[], by simp⟩, ⟨[], by simp⟩⟩

def nothing : Unpacked := ⟨0, [], 0, [], ⟨0, []⟩, ⟨0, []⟩, ⟨0, []⟩⟩

/-- A group with an owner, which is in a group and has two members. -/
def ownedGroup : Profile where
  id := 5
  name := some ⟨[97#8, 98#8, 99#8], by decide⟩
  ownerId := 7
  ownerName := some ⟨[117#8, 49#8], by decide⟩
  memberOf := ⟨[4], by simp⟩
  cps := ⟨[4, 5], by simp⟩
  groupsOrMembers := ⟨[7, 9], by simp⟩

theorem pdbUnpack_pdbPack_ownedGroup :
    ∃ b, pdbPack (fun _ => 0) ownedGroup = some (b, 68) ∧ b.words = 17 ∧
      pdbUnpack nothing b 68 = some ownedGroup.readBack :=
  pdbUnpack_pdbPack _ _ _ (by decide)

/-! ### A name that is too long -/

section Long

variable {s : CString} (long : s.bytes.length = 4294967296)
include long

theorem addStrlen_long (tmpsize : Int) :
    addStrlen tmpsize (some s) = addStrlen tmpsize (some ⟨[], not_mem_nil⟩) := by
  rw [addStrlen, addStrlen, long, length_nil, Int.natCast_zero, Int.add_zero, toInt, toInt]
  exact Int.add_bmod_right tmpsize 4294967296

theorem packString_long (b : Block) (off : Int) :
    packString b off (some s) = packString b off (some ⟨[], not_mem_nil⟩) := by
  have hlen : toInt s.bytes.length = 0 := by
    rw [long]
    exact Int.bmod_self
  have hcopy : ∀ (b : Block) (i : Int), b.memcpy i s.bytes 0 = b.memcpy i [] 0 := by
    intro b i
    rw [Block.memcpy, Block.memcpy]
    simp
  rw [packString, packString, hlen, length_nil, Int.natCast_zero, show toInt 0 = 0 from rfl]
  simp only [hcopy]

theorem pdbPack_long (mem : Mem) :
    pdbPack mem (named s) = pdbPack mem (named ⟨[], not_mem_nil⟩) := by
  rw [pdbPack, pdbPack, named, named]
  simp only [addStrlen_long long, packString_long long]

end Long

/-- Of a name of 2^32 bytes nothing is stored. -/
theorem pdbUnpack_pdbPack_loses : ¬ ∀ (mem : Mem) (r : Profile) (r₀ : Unpacked),
    ∃ b size, pdbPack mem r = some (b, size) ∧ pdbUnpack r₀ b size = some r.readBack := by
  intro h
  obtain ⟨s, long⟩ : ∃ s : CString, s.bytes.length = 4294967296 :=
    ⟨⟨List.replicate 4294967296 97#8, fun h => absurd (eq_of_mem_replicate h) (by decide)⟩,
      length_replicate⟩
  obtain ⟨b, size, hpack, hunpack⟩ := h (fun _ => 0) (named s) nothing
  have hfits : (named ⟨[], not_mem_nil⟩).words ≤ 2147483647 := by decide
  obtain ⟨b', hpack', filled⟩ := pdbPack_spec (fun _ => 0) _ hfits
  rw [pdbPack_long long, hpack'] at hpack
  cases hpack
  rw [pdbUnpack_of_filled nothing hfits filled] at hunpack
  have hname : [] = s.bytes := congrArg Unpacked.name (some.inj hunpack)
  rw [← hname] at long
  exact absurd long (by decide)

end Coda.Al.PdbPack
