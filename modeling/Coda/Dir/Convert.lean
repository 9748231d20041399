import Coda.Dir.Compare
import Coda.Dir.Dirent

/-!
`DIR_Convert`: a directory rewritten as the records of its container file.

Each entry is written where the last one ended, and written again at the next block boundary if it
touched that; the record before it is then made longer. The buffer is allocated beforehand, for a
directory of this length. `none` is a write beyond the end of the buffer.
-/

namespace Coda.Dir

open Coda.Lib List Option Entry

/-! ### The conversion -/

/-- `coda_f2i`. -/
def codaF2i (realm vol : BitVec 32) (fid : DirFid) : BitVec 32 :=
  fid.unique ^^^ (fid.vnode <<< 10) ^^^ (vol <<< 20) ^^^ realm

/-- `d_namlen`, for an entry name of the given length. The field has eight bits. -/
def namlen (length : Nat) : Nat := if 255 ≤ length % 256 then 254 else length % 256

/-- `dir_DirEntry2VDirent`: the bytes it writes and the length it returns. -/
def dirEntry2VDirent (m : Image) (vol realm : BitVec 32) (blob : Nat) : List (BitVec 8) × Nat :=
  let n := namlen (nameLength m blob)
  (direntBytes (codaF2i realm vol (fid m blob)) (dirsiz n) 0#8 (m.bytes (nameAddr blob) n), dirsiz n)

/-- `x & ~(DIRBLKSIZ - 1)`. -/
def blockOf (x : Nat) : Nat := x / 4096 * 4096

/-- The length of the buffer; `sizeof(struct venus_dirent)` is 264. -/
def convertLen (length : Nat) : Nat := blockOf (length + (length / 4096 + 1) * 264 + 4095)

/-- A write into a buffer of `len` bytes. -/
def put (len : Nat) (buf : Mem) (a : Nat) (bs : List (BitVec 8)) : Option Mem :=
  if a + bs.length ≤ len then some (buf.store a bs) else none

def put16 (len : Nat) (buf : Mem) (a v : Nat) : Option Mem :=
  if a + 2 ≤ len then some (buf.store16le a v) else none

/-- The variables of `DIR_Convert`. -/
structure Conversion where
  buf : Mem
  offset : Nat
  oldoffset : Nat

/-- One round of the loop. -/
def convertEntry (len : Nat) (m : Image) (vol realm : BitVec 32) (blob : Nat) (c : Conversion) :
    Option Conversion := do
  let (record, direntlen) := dirEntry2VDirent m vol realm blob
  let buf ← put len c.buf c.offset record
  if blockOf ((c.offset + direntlen) ^^^ c.offset) ≠ 0 then
    let pad := blockOf (c.offset + 4095) - c.offset
    let buf ← put16 len buf (c.oldoffset + 4) (buf.load16le (c.oldoffset + 4) + pad)
    let buf ← put len buf (c.offset + pad) record
    return ⟨buf, c.offset + pad + direntlen, c.offset + pad⟩
  else return ⟨buf, c.offset + direntlen, c.offset⟩

/-- The body of the loop as a hook: the loops of `DIR_Convert` are those of `DIR_EnumerateDir`. -/
def convertHook (len : Nat) (m : Image) (vol realm : BitVec 32) (blob : Nat) (c : Conversion) :
    Int × Conversion :=
  match convertEntry len m vol realm blob c with
  | some c' => (0, c')
  | none => (1, c)

/-- The final entry. What would be too small for a record is added to the one before. -/
def addFinal (len : Nat) (c : Conversion) : Option Container := do
  let buf ← put len c.buf c.offset [0#8, 0#8, 0#8, 0#8]
  let buf ← put16 len buf (c.offset + 4) (blockOf (c.offset + 4095) - c.offset)
  let buf ←
    if buf.load16le (c.offset + 4) < 12 then
      put16 len buf (c.oldoffset + 4)
        (buf.load16le (c.oldoffset + 4) + buf.load16le (c.offset + 4))
    else some buf
  return ⟨buf, c.offset + buf.load16le (c.offset + 4)⟩

/-- `DIR_Convert`, to the file it writes. -/
def dirConvert (m : Image) (vol realm : BitVec 32) : Option Container := do
  let len := convertLen (dirLength m)
  let (rc, c) ← dirEnumerateDir m (convertHook len m vol realm) ⟨fun _ => 0#8, 0, 0⟩
  if rc ≠ 0 then none else addFinal len c

/-! ### Room in the buffer -/

/-- What a record says, apart from its place. -/
def Dirent.content (r : Dirent) : BitVec 32 × BitVec 8 × List (BitVec 8) := (r.fileno, r.type, r.name)

/-- What the record of an entry says. -/
def Entry.content (vol realm : BitVec 32) (e : Entry) : BitVec 32 × BitVec 8 × List (BitVec 8) :=
  (codaF2i realm vol e.fid, 0#8, e.name.bytes.take 254)

/-- The length of the record of an entry, before any padding. -/
def Entry.size (e : Entry) : Nat := dirsiz (e.name.bytes.take 254).length

/-- The record does not cross a block boundary. -/
def Dirent.InBlock (r : Dirent) : Prop := r.offset / 4096 = (r.offset + r.reclen - 1) / 4096

section Room

variable {P : Nat} {ch : Nat → List Entry} {e : Entry}

theorem namlen_eq {n : Nat} (h : n ≤ 255) : namlen n = min n 254 := by
  unfold namlen
  split_ifs <;> omega

theorem add_le_dirsiz (n : Nat) : 9 + n ≤ dirsiz n := by
  unfold dirsiz
  omega

theorem Entry.size_le (e : Entry) : e.size ≤ 264 := by
  have : (e.name.bytes.take 254).length ≤ 254 := length_take_le _ _
  unfold size dirsiz
  omega

/-- A record takes no more bytes than the blobs of the entry. -/
theorem Entry.size_le_blobs (e : Entry) : e.size ≤ 32 * e.blobs := by
  have : (e.name.bytes.take 254).length ≤ e.name.bytes.length := length_take_le' _ _
  unfold size blobs dirsiz
  rw [dirNameBlobs_eq]
  omega

/-- The entries of a directory leave at least the page headers free. -/
theorem Layout.sum_blobs_le (l : Layout P ch noBlobs) :
    ((allEntries ch).map Entry.blobs).sum ≤ 63 * P := by
  let used := (allEntries ch).toFinset.biUnion fun e => Finset.Ico e.blob (e.blob + e.blobs)
  have hsum : ((allEntries ch).map blobs).sum = used.card := by
    rw [Finset.card_biUnion, ← sum_toFinset _ l.nodup_allEntries]
    · simp only [Nat.card_Ico, Nat.add_sub_cancel_left]
    · intro e he e' he' hne
      rw [Finset.mem_coe, List.mem_toFinset, mem_allEntries] at he he'
      refine Finset.disjoint_left.mpr fun b hb hb' => hne ?_
      exact l.apart e e' he he' b (Finset.mem_Ico.mp hb) (Finset.mem_Ico.mp hb')
  have hheaders : ((Finset.range P).image (64 * ·)).card = P := by
    rw [Finset.card_image_of_injective _ fun a b h => Nat.eq_of_mul_eq_mul_left (by omega) h,
      Finset.card_range]
  have hcovers : ∀ b ∈ used, ∃ e, Live ch e ∧ e.Covers b := by
    intro b hb
    obtain ⟨e, he, hb⟩ := Finset.mem_biUnion.mp hb
    rw [List.mem_toFinset, mem_allEntries] at he
    exact ⟨e, he, Finset.mem_Ico.mp hb⟩
  have hdisj : Disjoint used ((Finset.range P).image (64 * ·)) := by
    refine Finset.disjoint_left.mpr fun b hb hhead => ?_
    obtain ⟨e, he, hcov⟩ := hcovers b hb
    obtain ⟨p, -, rfl⟩ := Finset.mem_image.mp hhead
    exact (l.fits e he).covers_not_header hcov (.inr (Nat.mul_mod_right 64 p))
  have hsub : used ∪ ((Finset.range P).image (64 * ·)) ⊆ Finset.range (64 * P) := by
    refine Finset.union_subset (fun b hb => ?_) fun b hb => ?_
    · obtain ⟨e, he, hcov⟩ := hcovers b hb
      exact Finset.mem_range.mpr ((l.fits e he).covers_lt hcov)
    · obtain ⟨p, hp, rfl⟩ := Finset.mem_image.mp hb
      have := Finset.mem_range.mp hp
      exact Finset.mem_range.mpr (by omega)
  have hcard := Finset.card_le_card hsub
  rw [Finset.card_union_of_disjoint hdisj, Finset.card_range] at hcard
  omega

theorem sum_size_le (es : List Entry) :
    (es.map Entry.size).sum ≤ 32 * (es.map Entry.blobs).sum := by
  induction es with
  | nil => exact Nat.zero_le _
  | cons e es ih =>
    have := e.size_le_blobs
    simp only [map_cons, sum_cons]
    omega

/-- Records of `n` bytes, with less than one more record lost at each boundary, leave room. -/
def Roomy (len n : Nat) : Prop := ∀ offset, offset ≤ n + 264 * (offset / 4096) → offset + 8 ≤ len

/-- The length computed beforehand is enough for all entries of a directory. -/
theorem Layout.roomy (l : Layout P ch noBlobs) {n : Nat}
    (hn : n ≤ ((allEntries ch).map Entry.size).sum) : Roomy (convertLen (2048 * P)) n := by
  intro offset hoffset
  have hblobs := l.sum_blobs_le
  have hsize := sum_size_le (allEntries ch)
  unfold convertLen blockOf
  omega

/-- The test of `DIR_Convert` for a boundary. -/
theorem blockOf_xor_ne_zero_iff (a b : Nat) : blockOf (a ^^^ b) ≠ 0 ↔ a / 4096 ≠ b / 4096 := by
  have hdiv : (a ^^^ b) / 4096 = (a / 4096) ^^^ (b / 4096) := Nat.xor_div_two_pow (n := 12)
  unfold blockOf
  rw [hdiv]
  constructor
  · intro h heq
    rw [heq, Nat.xor_self] at h
    exact h rfl
  · intro h heq
    have hxor : (a / 4096) ^^^ (b / 4096) = 0 := by omega
    apply h
    rw [← Nat.xor_zero (a / 4096), ← Nat.xor_self (b / 4096), ← Nat.xor_assoc, hxor, Nat.zero_xor]

end Room

/-! ### The records so far -/

/-- The entries `es` have been written, as the records `rs`. -/
structure Recorded (vol realm : BitVec 32) (es : List Entry) (c : Conversion) (rs : List Dirent) :
    Prop where
  strung : Strung c.buf 0 rs c.offset
  content : rs.map Dirent.content = es.map (Entry.content vol realm)
  inBlock : ∀ r ∈ rs, r.InBlock
  start : rs = [] → c.oldoffset = 0
  last : ∀ rs' r, rs = rs' ++ [r] →
    r.offset = c.oldoffset ∧ r.reclen = dirsiz r.name.length ∧ c.offset % 4096 ≠ 0
  zero : ∀ x, c.offset ≤ x → c.buf x = 0#8
  bound : c.offset ≤ (es.map Entry.size).sum + 264 * (c.offset / 4096)

section Steps

variable {vol realm : BitVec 32} {es : List Entry} {c : Conversion} {rs : List Dirent} {len : Nat}
variable {m : Image} {P : Nat} {e : Entry}

theorem recorded_nil : Recorded vol realm [] ⟨fun _ => 0#8, 0, 0⟩ [] where
  strung := rfl
  content := rfl
  inBlock := by simp
  start _ := rfl
  last rs' r h := by simp at h
  zero _ _ := rfl
  bound := Nat.zero_le _

/-- Where the last record is. -/
theorem Recorded.concat {rs' : List Dirent} {r : Dirent} (w : Recorded vol realm es c (rs' ++ [r])) :
    r.offset = c.oldoffset ∧ c.offset = r.offset + r.reclen ∧ 9 + r.name.length ≤ r.reclen ∧
      c.offset % 4096 ≠ 0 ∧ r.offset / 4096 = c.offset / 4096 ∧
      c.buf.load16le (c.oldoffset + 4) = r.reclen := by
  obtain ⟨mid, -, hread, hsize, hstop⟩ := strung_append.mp w.strung
  obtain ⟨hold, -, hmod⟩ := w.last rs' r rfl
  have hmid : mid = r.offset := congrArg Dirent.offset hread
  have hblock : r.InBlock := w.inBlock r (by simp)
  unfold Dirent.InBlock at hblock
  have hstop : mid + r.reclen = c.offset := hstop
  refine ⟨hold, by omega, hsize, hmod, by omega, ?_⟩
  rw [← hold, ← hmid]
  exact congrArg Dirent.reclen hread

/-- The record of an entry in the image. -/
theorem EntryAt.dirEntry2VDirent_eq (hat : EntryAt m e) (fits : e.Fits P) :
    dirEntry2VDirent m vol realm e.blob =
      (direntBytes (codaF2i realm vol e.fid) e.size 0#8 (e.name.bytes.take 254), e.size) := by
  have hlen := hat.nameLength_eq fits
  have hname : m.bytes (nameAddr e.blob) e.name.bytes.length = e.name.bytes := by
    have := hat.nameAt_eq fits
    rwa [nameAt, hlen] at this
  have htake : m.bytes (nameAddr e.blob) (min e.name.bytes.length 254) = e.name.bytes.take 254 := by
    conv_rhs => rw [← hname]
    rw [Mem.bytes_eq_map, Mem.bytes_eq_map, ← map_take, take_range, Nat.min_comm]
  unfold dirEntry2VDirent size
  dsimp only
  rw [hlen, namlen_eq fits.name_le, htake, hat.fid, length_take, Nat.min_comm]

/-- The record of an entry behind the others, inside a block. What is in the way of its bytes is
overwritten. -/
theorem recorded_concat {buf : Mem} {offset : Nat} (strung : Strung buf 0 rs offset)
    (content : rs.map Dirent.content = es.map (Entry.content vol realm))
    (inBlock : ∀ r ∈ rs, r.InBlock) (zero : ∀ x, offset + e.size ≤ x → buf x = 0#8)
    (bound : offset ≤ (es.map Entry.size).sum + 264 * (offset / 4096))
    (hcross : (offset + e.size) / 4096 = offset / 4096) :
    Recorded vol realm (es ++ [e])
      ⟨buf.store offset (direntBytes (codaF2i realm vol e.fid) e.size 0#8 (e.name.bytes.take 254)),
        offset + e.size, offset⟩
      (rs ++ [⟨offset, codaF2i realm vol e.fid, e.size, 0#8, e.name.bytes.take 254⟩]) := by
  have hlen : (e.name.bytes.take 254).length ≤ 254 := length_take_le _ _
  have hname : 9 + (e.name.bytes.take 254).length ≤ e.size := add_le_dirsiz _
  have hread := readDirent_store buf offset (codaF2i realm vol e.fid) 0#8
    (by omega : e.size < 65536) (by omega : (e.name.bytes.take 254).length < 256)
  constructor
  · exact (strung.congr fun x _ hx => Mem.store_of_lt hx).concat hread hname
  · rw [map_append, content, map_append]
    rfl
  · refine forall_mem_append.mpr ⟨inBlock, forall_mem_singleton.mpr ?_⟩
    unfold Dirent.InBlock
    dsimp only
    omega
  · intro h
    simp at h
  · intro rs' r h
    obtain ⟨-, hr⟩ := append_inj' h rfl
    cases hr
    refine ⟨rfl, rfl, ?_⟩
    dsimp only
    omega
  · intro x hx
    dsimp only at hx ⊢
    rw [Mem.store_of_ge (by rw [direntBytes_length]; omega)]
    exact zero x hx
  · simp only [map_append, map_cons, map_nil, sum_append, sum_cons,
      sum_nil, hcross]
    omega

/-- The last record is made longer, up to the next boundary; what was already written behind it
stays inside the padding and the entry that will be written there. -/
theorem Recorded.padded {rs' : List Dirent} {r : Dirent} (w : Recorded vol realm es c (rs' ++ [r]))
    {buf : Mem} (agree : ∀ x, x < c.offset → buf x = c.buf x) :
    Strung (buf.store16le (c.oldoffset + 4) (buf.load16le (c.oldoffset + 4) +
        (blockOf (c.offset + 4095) - c.offset))) 0
      (rs' ++ [r.lengthen (blockOf (c.offset + 4095) - c.offset)])
      (blockOf (c.offset + 4095)) ∧
    Dirent.InBlock (r.lengthen (blockOf (c.offset + 4095) - c.offset)) := by
  obtain ⟨hold, hoffset, hsize, hmod, hblock, hload⟩ := w.concat
  have hload' : buf.load16le (c.oldoffset + 4) = r.reclen := by
    rw [← hload]
    exact Mem.load16le_congr (agree _ (by omega)) (agree _ (by omega))
  have hpad : blockOf (c.offset + 4095) = c.offset + (blockOf (c.offset + 4095) - c.offset) := by
    unfold blockOf
    omega
  have hlt : r.reclen + (blockOf (c.offset + 4095) - c.offset) < 65536 := by
    unfold blockOf
    omega
  constructor
  · have hstrung := (w.strung.congr fun x _ hx => agree x hx).extend hlt
    rw [hload', ← hold]
    rwa [← hpad] at hstrung
  · unfold Dirent.InBlock Dirent.lengthen
    dsimp only
    unfold blockOf
    omega

/-- One round of the loop. -/
theorem Recorded.convertEntry (w : Recorded vol realm es c rs) (hat : EntryAt m e) (fits : e.Fits P)
    (room : Roomy len ((es ++ [e]).map Entry.size).sum) :
    ∃ c' rs', convertEntry len m vol realm e.blob c = some c' ∧
      Recorded vol realm (es ++ [e]) c' rs' := by
  have hsize := e.size_le
  have hname : 9 + (e.name.bytes.take 254).length ≤ e.size := add_le_dirsiz _
  have hbound := w.bound
  have hsum : ((es ++ [e]).map size).sum = (es.map size).sum + e.size := by
    simp only [map_append, map_cons, map_nil, sum_append, sum_cons,
      sum_nil, add_zero]
  unfold Dir.convertEntry
  rw [hat.dirEntry2VDirent_eq fits]
  dsimp only
  let bytes := direntBytes (codaF2i realm vol e.fid) e.size 0#8 (e.name.bytes.take 254)
  by_cases hcross : (c.offset + e.size) / 4096 = c.offset / 4096
  · have hroom := room (c.offset + e.size) (by omega)
    have hput : c.offset + bytes.length ≤ len := by
      rw [direntBytes_length]
      omega
    rw [put, if_pos hput, bind_eq_bind, bind_some,
      if_neg (by rwa [blockOf_xor_ne_zero_iff, not_not])]
    exact ⟨_, _, rfl, recorded_concat w.strung w.content w.inBlock
      (fun x hx => w.zero x (by omega)) hbound hcross⟩
  · -- the entry moves to the next block; only a first entry has none before it, and fits
    have hne : rs ≠ [] := by
      rintro rfl
      have hzero : (0 : Nat) = c.offset := w.strung
      omega
    obtain ⟨rs', r, rfl⟩ := eq_nil_or_concat' rs |>.resolve_left hne
    obtain ⟨hold, hoffset, -, hmod, hblock, -⟩ := w.concat
    have hnext : blockOf (c.offset + 4095) = 4096 * (c.offset / 4096 + 1) := by
      unfold blockOf
      omega
    have hpad : c.offset + (blockOf (c.offset + 4095) - c.offset) = blockOf (c.offset + 4095) := by
      omega
    have hroom := room (blockOf (c.offset + 4095) + e.size) (by omega)
    have hput : ∀ a ≤ blockOf (c.offset + 4095), a + bytes.length ≤ len := by
      intro a ha
      rw [direntBytes_length]
      omega
    rw [put, if_pos (hput _ (by omega)), bind_eq_bind, bind_some,
      if_pos ((blockOf_xor_ne_zero_iff _ _).mpr hcross), put16, if_pos (by omega), bind_some,
      put, hpad, if_pos (hput _ (le_refl _)), bind_some]
    have hlow : ∀ x, x < c.offset → c.buf.store c.offset bytes x = c.buf x := fun x hx =>
      Mem.store_of_lt hx
    obtain ⟨hstrung, hin⟩ := w.padded hlow
    refine ⟨_, _, rfl, recorded_concat hstrung ?_ ?_ ?_ (by omega) (by omega)⟩
    · have hcontent := w.content
      rw [map_append] at hcontent
      rw [map_append, ← hcontent]
      rfl
    · exact forall_mem_append.mpr
        ⟨(forall_mem_append.mp w.inBlock).1, forall_mem_singleton.mpr hin⟩
    · intro x hx
      rw [Mem.store16le, Mem.store_of_ge (by simp only [length_cons, length_nil]; omega),
        Mem.store_of_ge (by rw [direntBytes_length]; omega)]
      exact w.zero x (by omega)

/-- The whole loop: what remains of the entries is written behind the others. -/
theorem Recorded.runHook {ch : Nat → List Entry} (r : Rep m P ch noBlobs) (rest : List Entry)
    (w : Recorded vol realm es c rs) (hall : es ++ rest = allEntries ch)
    (hlen : len = convertLen (2048 * P)) :
    ∃ c' rs', Dir.runHook (convertHook len m vol realm) (rest.map Entry.blob) c = (0, c') ∧
      Recorded vol realm (allEntries ch) c' rs' := by
  induction rest generalizing es c rs with
  | nil =>
    rw [append_nil] at hall
    exact ⟨c, rs, rfl, hall ▸ w⟩
  | cons e rest ih =>
    have hassoc : es ++ [e] ++ rest = allEntries ch := by
      rw [append_assoc]
      exact hall
    have live : Live ch e := mem_allEntries.mp (by rw [← hall]; simp)
    have hsum : ((es ++ [e]).map size).sum ≤ ((allEntries ch).map size).sum := by
      rw [← hassoc, @map_append _ _ _ _ rest, sum_append]
      exact Nat.le_add_right _ _
    have room : Roomy len ((es ++ [e]).map size).sum := hlen ▸ r.toLayout.roomy hsum
    obtain ⟨c₁, rs₁, hrun, w₁⟩ := w.convertEntry (r.entry e live) (r.fits e live) room
    obtain ⟨c₂, rs₂, hrest, w₂⟩ := ih w₁ hassoc
    refine ⟨c₂, rs₂, ?_, w₂⟩
    rw [map_cons, Dir.runHook, convertHook, hrun]
    exact hrest

theorem readDirent_zero {buf : Mem} {offset : Nat} (h : ∀ x, offset ≤ x → buf x = 0#8) :
    readDirent buf offset = ⟨offset, 0#32, 0, 0#8, []⟩ := by
  unfold readDirent Mem.load32le Mem.load16le
  simp only [h _ (le_refl _), h (offset + 1) (by omega), h (offset + 2) (by omega),
    h (offset + 2 + 1) (by omega), h (offset + 4) (by omega), h (offset + 4 + 1) (by omega),
    h (offset + 6) (by omega), h (offset + 7) (by omega)]
  rfl

/-- The file holds a record for every entry, in their order, inside its block; behind them stands
a record without a file, unless less than 12 bytes were left for it: then the last entry's record
takes them. -/
structure Holds (vol realm : BitVec 32) (es : List Entry) (f : Container) (rs last : List Dirent) :
    Prop where
  walk : f.walk = some (rs ++ last)
  length : f.length % 4096 = 0
  inBlock : ∀ r ∈ rs ++ last, r.InBlock
  content : rs.map Dirent.content = es.map (Entry.content vol realm)
  last : (last = [] ∧ ∀ r ∈ rs.getLast?, r.reclen < dirsiz r.name.length + 12) ∨
    ∃ r, last = [r] ∧ r.content = (0#32, 0#8, []) ∧ 12 ≤ r.reclen

/-- The end of `DIR_Convert`. -/
theorem Recorded.addFinal (w : Recorded vol realm es c rs) (room : c.offset + 8 ≤ len) :
    ∃ f rs' last, addFinal len c = some f ∧ Holds vol realm es f rs' last := by
  have hzero : ∀ x, c.offset ≤ x → c.buf.store c.offset [0#8, 0#8, 0#8, 0#8] x = 0#8 := by
    intro x hx
    rw [Mem.store, if_pos hx, w.zero x hx]
    generalize x - c.offset = n
    rcases n with _ | _ | _ | _ | n <;> rfl
  have hlow : ∀ x, x < c.offset → c.buf.store c.offset [0#8, 0#8, 0#8, 0#8] x = c.buf x :=
    fun x hx => Mem.store_of_lt hx
  unfold Dir.addFinal
  rw [put, if_pos (by simp only [length_cons, length_nil]; omega), bind_eq_bind,
    bind_some]
  generalize c.buf.store c.offset [0#8, 0#8, 0#8, 0#8] = buf at hzero hlow
  have hpad : blockOf (c.offset + 4095) - c.offset < 4096 := by
    unfold blockOf
    omega
  have hload := Mem.load16le_store16le (m := buf) (a := c.offset + 4)
    (by omega : blockOf (c.offset + 4095) - c.offset < 65536)
  rw [put16, if_pos (by omega), bind_some, hload]
  rcases eq_nil_or_concat' rs with rfl | ⟨rs', r, rfl⟩
  · -- an empty directory has an empty file
    have hoffset : 0 = c.offset := w.strung
    have hold : c.oldoffset = c.offset := (w.start rfl).trans hoffset
    have hnone : blockOf (c.offset + 4095) - c.offset = 0 := by
      rw [← hoffset]
      rfl
    rw [hnone] at hload
    rw [hnone, if_pos (by omega), put16, if_pos (by omega), bind_some, hold, hload]
    dsimp only
    rw [Mem.load16le_store16le (by omega), ← hoffset]
    refine ⟨_, [], [], rfl, Strung.walk_eq rfl, rfl, by simp, w.content, .inl ⟨rfl, by simp⟩⟩
  · obtain ⟨hold, hoffset, hsize, hmod, hblock, -⟩ := w.concat
    obtain ⟨-, hreclen, -⟩ := w.last rs' r rfl
    have hend : c.offset + (blockOf (c.offset + 4095) - c.offset) = blockOf (c.offset + 4095) := by
      unfold blockOf
      omega
    have hlow' : ∀ x, x < c.offset →
        buf.store16le (c.offset + 4) (blockOf (c.offset + 4095) - c.offset) x = c.buf x := by
      intro x hx
      rw [Mem.store16le, Mem.store_of_lt (by omega)]
      exact hlow x hx
    by_cases hfold : blockOf (c.offset + 4095) - c.offset < 12
    · obtain ⟨hstrung, hin⟩ := w.padded hlow'
      rw [if_pos hfold, put16, if_pos (by omega), bind_some]
      generalize hbuf : Mem.store16le (buf.store16le (c.offset + 4) _) (c.oldoffset + 4) _ = buf₂
      rw [hbuf] at hstrung
      have hload' : buf₂.load16le (c.offset + 4) = blockOf (c.offset + 4095) - c.offset := by
        rw [← hload, ← hbuf]
        exact Mem.load16le_congr (Mem.store_of_ge (by dsimp only [List.length]; omega))
          (Mem.store_of_ge (by dsimp only [List.length]; omega))
      dsimp only
      rw [hload', hend]
      refine ⟨_, rs' ++ [r.lengthen (blockOf (c.offset + 4095) - c.offset)], [], rfl, ?_,
        Nat.mul_mod_left _ _, ?_, ?_, .inl ⟨rfl, ?_⟩⟩
      · rw [append_nil]
        exact hstrung.walk_eq
      · rw [append_nil]
        exact forall_mem_append.mpr
          ⟨(forall_mem_append.mp w.inBlock).1, forall_mem_singleton.mpr hin⟩
      · rw [← w.content, map_append, map_append]
        rfl
      · intro r' hr'
        rw [List.getLast?_concat, mem_some_iff] at hr'
        cases hr'
        dsimp only [Dirent.lengthen]
        omega
    · have hread := readDirent_store16le buf c.offset
        (by omega : blockOf (c.offset + 4095) - c.offset < 65536)
      rw [readDirent_zero hzero] at hread
      rw [if_neg hfold, bind_some]
      dsimp only
      rw [hload, hend]
      have hstrung := (w.strung.congr fun x _ hx => hlow' x hx).concat hread
        (by dsimp only [length_nil]; omega)
      dsimp only at hstrung
      rw [hend] at hstrung
      refine ⟨_, _, [_], rfl, hstrung.walk_eq, ?_, ?_, w.content, .inr ⟨_, rfl, rfl, ?_⟩⟩
      · exact Nat.mul_mod_left _ _
      · refine forall_mem_append.mpr ⟨w.inBlock, forall_mem_singleton.mpr ?_⟩
        unfold Dirent.InBlock
        dsimp only
        rw [hend]
        unfold blockOf
        omega
      · exact Nat.le_of_not_lt hfold

end Steps

/-- `DIR_Convert` returns, and its file holds the directory. -/
theorem Directory.dirConvert_holds (d : Directory) (vol realm : BitVec 32) :
    ∃ f rs last, dirConvert d.image vol realm = some f ∧
      Holds vol realm (allEntries d.chains) f rs last := by
  obtain ⟨c, rs, hrun, w⟩ := (@recorded_nil vol realm).runHook d.rep
    (allEntries d.chains) rfl rfl
  have room := d.rep.toLayout.roomy (le_refl _) c.offset w.bound
  obtain ⟨f, rs', last, hfinal, holds⟩ := w.addFinal room
  refine ⟨f, rs', last, ?_, holds⟩
  unfold dirConvert
  dsimp only
  rw [d.rep.dirEnumerateDir_eq, d.rep.dirLength_eq, hrun, bind_eq_bind, bind_some]
  exact hfinal

/-- The file of a directory is walkable. `put` makes any write beyond the buffer a failure, so that
there is none. -/
theorem dirConvert_walkable (d : Directory) (vol realm : BitVec 32) :
    ∃ f rs last, dirConvert d.image vol realm = some f ∧ f.walk = some (rs ++ last) ∧
      f.length % 4096 = 0 ∧
      (∀ r ∈ rs ++ last, r.offset / 4096 = (r.offset + r.reclen - 1) / 4096) ∧
      rs.map Dirent.content = (allEntries d.chains).map (Entry.content vol realm) ∧
      ((last = [] ∧ ∀ r ∈ rs.getLast?, r.reclen < dirsiz r.name.length + 12) ∨
        ∃ r, last = [r] ∧ r.content = (0#32, 0#8, []) ∧ 12 ≤ r.reclen) := by
  obtain ⟨f, rs, last, hconvert, holds⟩ := d.dirConvert_holds vol realm
  exact ⟨f, rs, last, hconvert, holds.walk, holds.length, holds.inBlock, holds.content, holds.last⟩

/-! ### Names -/

/-- The names in a file; the final record has none. -/
def names (rs : List Dirent) : List (List (BitVec 8)) := (rs.map Dirent.name).filter (· ≠ [])

/-- The names in the file are those of the entries, cut to 254 bytes. -/
theorem Holds.names_eq {vol realm : BitVec 32} {d : Directory} {f : Container} {rs last : List Dirent}
    (holds : Holds vol realm (allEntries d.chains) f rs last) :
    names (rs ++ last) = (allEntries d.chains).map fun e => e.name.bytes.take 254 := by
  have hrs : rs.map Dirent.name = (allEntries d.chains).map fun e => e.name.bytes.take 254 := by
    have := congrArg (List.map fun content => content.2.2) holds.content
    rwa [List.map_map, List.map_map] at this
  have hlast : (last.map Dirent.name).filter (· ≠ []) = [] := by
    rcases holds.last with ⟨rfl, -⟩ | ⟨r, rfl, hcontent, -⟩
    · rfl
    · have hname : r.name = [] := congrArg (·.2.2) hcontent
      rw [map_singleton, hname]
      rfl
  unfold names
  rw [map_append, filter_append, hlast, append_nil, hrs, filter_eq_self]
  intro name hname
  obtain ⟨e, he, rfl⟩ := List.mem_map.mp hname
  have hpos := (d.rep.fits e (mem_allEntries.mp he)).name_pos
  rw [decide_eq_true_iff]
  intro hnil
  have := congrArg List.length hnil
  rw [length_take, length_nil] at this
  omega

/-- The names in the file are the names of the entries exactly when none has 255 bytes. -/
theorem dirConvert_names_iff (d : Directory) (vol realm : BitVec 32) :
    (∃ f rs, dirConvert d.image vol realm = some f ∧ f.walk = some rs ∧
        names rs = (allEntries d.chains).map fun e => e.name.bytes) ↔
      ∀ e, Live d.chains e → e.name.bytes.length ≤ 254 := by
  obtain ⟨f, rs, last, hconvert, holds⟩ := d.dirConvert_holds vol realm
  have hnames := holds.names_eq
  constructor
  · rintro ⟨f', rs', hconvert', hwalk, hsame⟩ e he
    cases some.inj (hconvert.symm.trans hconvert')
    cases some.inj (holds.walk.symm.trans hwalk)
    have := map_inj_left.mp (hnames.symm.trans hsame) e (mem_allEntries.mpr he)
    rw [← this]
    exact length_take_le _ _
  · intro hshort
    refine ⟨f, rs ++ last, hconvert, holds.walk, hnames.trans ?_⟩
    refine map_congr_left fun e he => ?_
    exact take_of_length_le (hshort e (mem_allEntries.mp he))

/-- A name of 255 bytes. -/
def longName (last : BitVec 8) (h : last ≠ 0#8) : CString where
  bytes := List.replicate 254 0x61#8 ++ [last]
  nonul hmem := by
    rcases mem_append.mp hmem with hmem | hmem
    · exact absurd (eq_of_mem_replicate hmem) (by decide)
    · exact h (mem_singleton.mp hmem).symm

/-- Two names of 255 bytes that differ in their last byte: `DIR_Create` makes both entries, and the
file has one name for them. -/
theorem dirConvert_merges_names :
    ∃ (m : Image) (d : Directory),
      dirCreate (dirHeader fun _ => 0#8) (longName 0x62#8 (by decide)) ⟨1#32, 1#32⟩ = some (.ok, m) ∧
      dirCreate m (longName 0x63#8 (by decide)) ⟨2#32, 2#32⟩ = some (.ok, d.image) ∧
      ∃ f rs, dirConvert d.image 1#32 1#32 = some f ∧ f.walk = some rs ∧
        ((allEntries d.chains).map fun e => e.name.bytes).Nodup ∧ ¬ (names rs).Nodup := by
  have hlen : ∀ (c : BitVec 8) (h : c ≠ 0#8), (longName c h).bytes.length = 255 := by
    intro c h
    rw [longName, length_append, length_replicate, length_singleton]
  have htake : ∀ (c : BitVec 8) (h : c ≠ 0#8),
      (longName c h).bytes.take 254 = List.replicate 254 0x61#8 := fun c h =>
    take_left' length_replicate
  have hne : longName 0x62#8 (by decide) ≠ longName 0x63#8 (by decide) := by decide +kernel
  obtain ⟨b₁, P₁, m₁, run₁, bound₁, -, rep₁⟩ :=
    (dirHeader_formatted fun _ => 0#8).rep.dirCreate_new (longName 0x62#8 (by decide))
      ⟨1#32, 1#32⟩ (by rw [hlen]; omega) (by rw [hlen]) (fun e ⟨_, _, he⟩ => by cases he) (by decide)
  obtain ⟨b₂, P₂, m₂, run₂, -, -, rep₂⟩ :=
    rep₁.dirCreate_new (longName 0x63#8 (by decide))
      ⟨2#32, 2#32⟩ (by rw [hlen]; omega) (by rw [hlen]) (fun e he => by
        rcases live_pushEntry.mp he with rfl | ⟨_, _, he⟩
        · exact hne
        · cases he) (by omega)
  refine ⟨m₁, ⟨m₂, P₂, _, rep₂⟩, run₁, run₂, ?_⟩
  obtain ⟨f, rs, last, hconvert, holds⟩ := Directory.dirConvert_holds ⟨m₂, P₂, _, rep₂⟩ 1#32 1#32
  refine ⟨f, rs ++ last, hconvert, holds.walk, ?_, ?_⟩
  · refine (nodup_map_iff_inj_on rep₂.nodup_allEntries).mpr fun e he e' he' hname => ?_
    exact rep₂.names e e' (mem_allEntries.mp he) (mem_allEntries.mp he') (CString.ext hname)
  · rw [holds.names_eq]
    intro hnodup
    have hinj := (nodup_map_iff_inj_on rep₂.nodup_allEntries).mp hnodup
    have hsame := hinj ⟨b₂, longName 0x63#8 (by decide), ⟨2#32, 2#32⟩⟩
      (mem_allEntries.mpr (live_pushEntry.mpr (.inl rfl)))
      ⟨b₁, longName 0x62#8 (by decide), ⟨1#32, 1#32⟩⟩
      (mem_allEntries.mpr (live_pushEntry.mpr (.inr (live_pushEntry.mpr (.inl rfl)))))
      ((htake 0x63#8 (by decide)).trans (htake 0x62#8 (by decide)).symm)
    exact hne (congrArg name hsame).symm

end Coda.Dir
