import Coda.Dir.Body

/-!
The container file of a directory: records of `struct venus_dirent`, each reaching to the next.

The layout is the one on Linux: `d_fileno` (four bytes), `d_reclen` (two), `d_type`, `d_namlen`
and `d_name`, with words least significant byte first. A reader starts at offset 0 and steps by
`d_reclen`.
-/

namespace Coda.Dir

open Coda.Lib List

/-- A record and its place in the file; `d_namlen` is the length of the name. -/
structure Dirent where
  offset : Nat
  fileno : BitVec 32
  reclen : Nat
  type : BitVec 8
  name : List (BitVec 8)
deriving DecidableEq, Repr

/-- The record at an offset of a buffer. -/
def readDirent (buf : Mem) (offset : Nat) : Dirent where
  offset := offset
  fileno := BitVec.ofNat 32 (buf.load32le offset)
  reclen := buf.load16le (offset + 4)
  type := buf (offset + 6)
  name := buf.bytes (offset + 8) (buf (offset + 7)).toNat

/-- `vd->d_reclen += pad`. -/
def Dirent.lengthen (r : Dirent) (pad : Nat) : Dirent := { r with reclen := r.reclen + pad }

/-- The bytes of a record, up to the NUL behind its name. -/
def direntBytes (fileno : BitVec 32) (reclen : Nat) (type : BitVec 8) (name : List (BitVec 8)) :
    List (BitVec 8) :=
  [BitVec.ofNat 8 fileno.toNat, BitVec.ofNat 8 (fileno.toNat / 256),
    BitVec.ofNat 8 (fileno.toNat / 65536), BitVec.ofNat 8 (fileno.toNat / 16777216),
    BitVec.ofNat 8 reclen, BitVec.ofNat 8 (reclen / 256), type, BitVec.ofNat 8 name.length] ++
    (name ++ [0#8])

/-- `DIRSIZ`, of a record with the given `d_namlen`. -/
def dirsiz (namlen : Nat) : Nat := 8 + (namlen + 1 + 3) / 4 * 4

/-- A container file: the first `length` bytes of a buffer. -/
structure Container where
  buf : Mem
  length : Nat

/-- The records from an offset on. There are none when a record has no length or reaches beyond
the end of the file. -/
def Container.walkFrom (f : Container) : Nat → Nat → Option (List Dirent)
  | 0, offset => if offset = f.length then some [] else none
  | k + 1, offset =>
    if offset = f.length then some []
    else
      let r := readDirent f.buf offset
      if r.reclen = 0 ∨ f.length < offset + r.reclen then none
      else (f.walkFrom k (offset + r.reclen)).map (r :: ·)

/-- Stepping through the file by `d_reclen`. -/
def Container.walk (f : Container) : Option (List Dirent) := f.walkFrom f.length 0

/-! ### Records in a row -/

/-- The records `rs` stand in a row from one offset to another. -/
def Strung (buf : Mem) : Nat → List Dirent → Nat → Prop
  | offset, [], stop => offset = stop
  | offset, r :: rs, stop =>
    readDirent buf offset = r ∧ 9 + r.name.length ≤ r.reclen ∧ Strung buf (offset + r.reclen) rs stop

section Strung

variable {buf buf' : Mem} {offset stop : Nat} {r : Dirent} {rs : List Dirent}

theorem direntBytes_length (fileno : BitVec 32) (reclen : Nat) (type : BitVec 8)
    (name : List (BitVec 8)) : (direntBytes fileno reclen type name).length = 9 + name.length := by
  simp only [direntBytes, length_append, length_cons, length_nil]
  omega

/-- A record that was written is read back. -/
theorem readDirent_store (buf : Mem) (offset : Nat) (fileno : BitVec 32) {reclen : Nat}
    (type : BitVec 8)
    {name : List (BitVec 8)} (hreclen : reclen < 65536) (hname : name.length < 256) :
    readDirent (buf.store offset (direntBytes fileno reclen type name)) offset =
      ⟨offset, fileno, reclen, type, name⟩ := by
  have hlen := direntBytes_length fileno reclen type name
  have byte : ∀ i (hi : i < 8), buf.store offset (direntBytes fileno reclen type name) (offset + i) =
      (direntBytes fileno reclen type name).get ⟨i, by omega⟩ := fun i hi =>
    Mem.store_add (by omega)
  have b₀ := byte 0 (by omega)
  have b₁ := byte 1 (by omega)
  have b₂ := byte 2 (by omega)
  have b₃ := byte 3 (by omega)
  have b₄ := byte 4 (by omega)
  have b₅ := byte 5 (by omega)
  have b₆ := byte 6 (by omega)
  have b₇ := byte 7 (by omega)
  have hbytes := Mem.bytes_store_part buf offset
    [BitVec.ofNat 8 fileno.toNat, BitVec.ofNat 8 (fileno.toNat / 256),
      BitVec.ofNat 8 (fileno.toNat / 65536), BitVec.ofNat 8 (fileno.toNat / 16777216),
      BitVec.ofNat 8 reclen, BitVec.ofNat 8 (reclen / 256), type, BitVec.ofNat 8 name.length]
    name [0#8]
  unfold readDirent Mem.load32le Mem.load16le
  rw [b₆, b₇]
  rw [b₁, b₂, b₃, b₄, b₅]
  rw [Nat.add_zero] at b₀
  rw [b₀]
  simp only [direntBytes, get_eq_getElem, cons_append, getElem_cons_zero,
    getElem_cons_succ, BitVec.toNat_ofNat, Dirent.mk.injEq, true_and]
  refine ⟨?_, by omega, ?_⟩
  · apply BitVec.eq_of_toNat_eq
    rw [BitVec.toNat_ofNat]
    omega
  · rw [Nat.mod_eq_of_lt hname]
    exact hbytes

/-- A record is read from its own bytes. -/
theorem readDirent_congr (h : ∀ x, offset ≤ x → x < offset + 9 + (readDirent buf offset).name.length →
    buf' x = buf x) : readDirent buf' offset = readDirent buf offset := by
  have hlen : (readDirent buf offset).name.length = (buf (offset + 7)).toNat := Mem.length_bytes _ _ _
  have h₇ := h (offset + 7) (by omega) (by omega)
  unfold readDirent
  rw [h₇, h (offset + 6) (by omega) (by omega),
    Mem.load32le_congr fun x h₁ h₂ => h x h₁ (by omega),
    Mem.load16le_congr (h (offset + 4) (by omega) (by omega)) (h (offset + 4 + 1) (by omega) (by omega)),
    Mem.bytes_congr fun x h₁ h₂ => h x (by omega) (by omega)]

/-- Rewriting `d_reclen` changes that field only. -/
theorem readDirent_store16le (buf : Mem) (offset : Nat) {v : Nat} (hv : v < 65536) :
    readDirent (buf.store16le (offset + 4) v) offset = { readDirent buf offset with reclen := v } := by
  have same : ∀ x, x < offset + 4 ∨ offset + 6 ≤ x → buf.store16le (offset + 4) v x = buf x :=
    fun x hx => Mem.store_outside hx
  have name : (buf.store16le (offset + 4) v).bytes (offset + 8) (buf (offset + 7)).toNat =
      buf.bytes (offset + 8) (buf (offset + 7)).toNat :=
    Mem.bytes_congr fun x h₁ _ => same x (by omega)
  have fileno : (buf.store16le (offset + 4) v).load32le offset = buf.load32le offset :=
    Mem.load32le_congr fun x _ h₂ => same x (by omega)
  unfold readDirent
  rw [same (offset + 7) (by omega), same (offset + 6) (by omega), Mem.load16le_store16le hv, name,
    fileno]

theorem Strung.le (h : Strung buf offset rs stop) : offset ≤ stop := by
  induction rs generalizing offset with
  | nil => exact Nat.le_of_eq h
  | cons r rs ih => exact Nat.le_trans (Nat.le_add_right _ _) (ih h.2.2)

/-- Records before an offset do not depend on what is behind it. -/
theorem Strung.congr (h : Strung buf offset rs stop)
    (agree : ∀ x, offset ≤ x → x < stop → buf' x = buf x) : Strung buf' offset rs stop := by
  induction rs generalizing offset with
  | nil => exact h
  | cons r rs ih =>
    obtain ⟨hread, hsize, hrest⟩ := h
    have hle := hrest.le
    refine ⟨?_, hsize, ih hrest fun x h₁ h₂ => agree x (by omega) h₂⟩
    rw [← hread] at hsize hle
    rw [← hread]
    exact readDirent_congr fun x h₁ h₂ => agree x h₁ (by omega)

theorem strung_append {rs₁ rs₂ : List Dirent} :
    Strung buf offset (rs₁ ++ rs₂) stop ↔
      ∃ mid, Strung buf offset rs₁ mid ∧ Strung buf mid rs₂ stop := by
  induction rs₁ generalizing offset with
  | nil => exact ⟨fun h => ⟨offset, rfl, h⟩, fun ⟨_, heq, h⟩ => by cases heq; exact h⟩
  | cons r rs₁ ih =>
    simp only [cons_append, Strung, ih]
    constructor
    · rintro ⟨hread, hsize, mid, h₁, h₂⟩
      exact ⟨mid, ⟨hread, hsize, h₁⟩, h₂⟩
    · rintro ⟨mid, ⟨hread, hsize, h₁⟩, h₂⟩
      exact ⟨hread, hsize, mid, h₁, h₂⟩

/-- One more record behind the others. -/
theorem Strung.concat (h : Strung buf offset rs stop) (hread : readDirent buf stop = r)
    (hsize : 9 + r.name.length ≤ r.reclen) : Strung buf offset (rs ++ [r]) (stop + r.reclen) :=
  strung_append.mpr ⟨stop, h, hread, hsize, rfl⟩

/-- The last record is made longer. -/
theorem Strung.extend (h : Strung buf offset (rs ++ [r]) stop) {pad : Nat}
    (hpad : r.reclen + pad < 65536) :
    Strung (buf.store16le (r.offset + 4) (r.reclen + pad)) offset
      (rs ++ [r.lengthen pad]) (stop + pad) := by
  obtain ⟨mid, hrs, hread, hsize, rfl⟩ := strung_append.mp h
  have hmid : mid = r.offset := congrArg Dirent.offset hread
  subst hmid
  rw [Nat.add_assoc]
  refine strung_append.mpr ⟨r.offset, hrs.congr fun x _ hx => Mem.store_of_lt (by omega), ?_, ?_, rfl⟩
  · rw [readDirent_store16le _ _ hpad, hread]
    rfl
  · exact Nat.le_trans hsize (Nat.le_add_right _ _)

/-- Stepping through a row of records finds just them. -/
theorem Strung.walkFrom_eq {k : Nat} (h : Strung buf offset rs stop) (hk : stop ≤ offset + k) :
    Container.walkFrom ⟨buf, stop⟩ k offset = some rs := by
  induction rs generalizing offset k with
  | nil =>
    have hstop : offset = stop := h
    cases k with
    | zero => exact if_pos hstop
    | succ k => exact if_pos hstop
  | cons r rs ih =>
    obtain ⟨rfl, hsize, hrest⟩ := h
    have hle := hrest.le
    cases k with
    | zero => omega
    | succ k =>
      rw [Container.walkFrom, if_neg (by dsimp only; omega)]
      dsimp only
      rw [if_neg (by omega), ih hrest (by omega), Option.map_some]

theorem Strung.walk_eq (h : Strung buf 0 rs stop) : Container.walk ⟨buf, stop⟩ = some rs :=
  h.walkFrom_eq (Nat.le_of_eq (Nat.zero_add _).symm)

end Strung

end Coda.Dir
