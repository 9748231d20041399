import Coda.Lib.Slice

/-!
The files of a constant database (`lib-src/rwcdb/rwcdb_file.c`, `rwcdb_pack.h`).

A file that is read does not change, so its cache is a range of positions; `db_file_mread`
moves `pos` only when it has to go to the disk. A file that is written collects pages of 4096
bytes. Reads fail (`none`) beyond the end of the file; there are no other I/O errors.
-/

namespace Coda.Rwcdb

open Coda.Lib List

abbrev Bytes := List (BitVec 8)

/-! ### Words -/

/-- A 32-bit word, least significant byte first. -/
def le32 (v : Nat) : Bytes :=
  [BitVec.ofNat 8 v, BitVec.ofNat 8 (v / 256), BitVec.ofNat 8 (v / 65536),
    BitVec.ofNat 8 (v / 16777216)]

def word (buf : Bytes) (i : Nat) : Nat :=
  (buf.getD i 0).toNat + 256 * (buf.getD (i + 1) 0).toNat + 65536 * (buf.getD (i + 2) 0).toNat +
    16777216 * (buf.getD (i + 3) 0).toNat

def packints (a b : Nat) : Bytes := le32 a ++ le32 b

def unpackints (buf : Bytes) : Nat × Nat := (word buf 0, word buf 4)

theorem length_packints (a b : Nat) : (packints a b).length = 8 := rfl

theorem unpackints_packints {a b : Nat} (ha : a < 4294967296) (hb : b < 4294967296) :
    unpackints (packints a b) = (a, b) := by
  simp only [unpackints, word, packints, le32, cons_append, nil_append,
    getD_cons_zero, getD_cons_succ, BitVec.toNat_ofNat, Prod.mk.injEq]
  omega

/-! ### Reading -/

/-- `struct db_file` of a file that is read: its contents, and the range of it that is in
memory. -/
structure DbFile where
  bytes : Bytes
  pos : Nat
  eod : Nat
  cachePos : Nat
  cacheLen : Nat

def cached (f : DbFile) (len pos : Nat) : Bool :=
  pos ≥ f.cachePos ∧ pos + len ≤ f.cachePos + f.cacheLen

/-- The file after the range was asked for. -/
def DbFile.touch (f : DbFile) (len pos : Nat) : DbFile :=
  if cached f len pos then f else { f with pos := pos + len, cachePos := pos, cacheLen := len }

def dbFileMread (f : DbFile) (len pos : Nat) : Option (Bytes × DbFile) :=
  if pos + len > f.bytes.length then none
  else some ((f.bytes.drop pos).take len, f.touch len pos)

def dbReadints (f : DbFile) (pos : Nat) : Option ((Nat × Nat) × DbFile) := do
  let (buf, f) ← dbFileMread f 8 pos
  return (unpackints buf, f)

/-- `db_file_open` for reading; `eod` is the first word of a file that is not empty. -/
def dbFileOpen (bytes : Bytes) : DbFile :=
  let f : DbFile := { bytes, pos := 0, eod := 2048, cachePos := bytes.length, cacheLen := 0 }
  if bytes.length = 0 then f
  else
    match dbReadints f 0 with
    | some ((eod, _), f) => { f with eod }
    | none => f

section Read

variable {f : DbFile} {p : Nat} {x : Bytes}

@[simp] theorem touch_bytes (f : DbFile) (len pos : Nat) : (f.touch len pos).bytes = f.bytes := by
  unfold DbFile.touch
  split_ifs <;> rfl

@[simp] theorem touch_eod (f : DbFile) (len pos : Nat) : (f.touch len pos).eod = f.eod := by
  unfold DbFile.touch
  split_ifs <;> rfl

variable {len pos : Nat}

theorem touch_of_cached (h : cached f len pos = true) : f.touch len pos = f :=
  if_pos h

theorem touch_of_not_cached (h : cached f len pos = false) :
    f.touch len pos = { f with pos := pos + len, cachePos := pos, cacheLen := len } :=
  if_neg (by rw [h]; exact Bool.false_ne_true)

theorem cached_eq_true :
    cached f len pos = true ↔ f.cachePos ≤ pos ∧ pos + len ≤ f.cachePos + f.cacheLen := by
  rw [cached, decide_eq_true_iff, ge_iff_le]

theorem cached_eq_false :
    cached f len pos = false ↔ ¬ (f.cachePos ≤ pos ∧ pos + len ≤ f.cachePos + f.cacheLen) := by
  rw [← cached_eq_true, Bool.not_eq_true]

theorem dbFileMread_slice (h : Slice f.bytes p x) :
    dbFileMread f x.length p = some (x, f.touch x.length p) := by
  have := h.le
  rw [dbFileMread, if_neg (by omega), h.read]

theorem dbReadints_slice {a b : Nat} (h : Slice f.bytes p (packints a b)) (ha : a < 4294967296)
    (hb : b < 4294967296) : dbReadints f p = some ((a, b), f.touch 8 p) := by
  have hread := dbFileMread_slice h
  rw [length_packints] at hread
  rw [dbReadints, hread, ← unpackints_packints ha hb]
  rfl

end Read

/-! ### Writing -/

/-- `struct db_file` of the file that is written: what has gone to the disk from position
2048 on, the page that is being filled, and the position. -/
structure OutFile where
  written : Bytes
  page : Bytes
  pos : Nat

/-- The file after `db_file_seek(f, 2048)`. -/
def OutFile.start : OutFile := ⟨[], [], 2048⟩

def dbFileWrite (f : OutFile) (data : Bytes) : OutFile :=
  if data.length = 0 then f
  else
    -- fill the rest of the page
    let blob := if data.length < 4096 - f.page.length then data.length else 4096 - f.page.length
    let page := f.page ++ data.take blob
    let rest := data.drop blob
    let (written, page) := if page.length = 4096 then (f.written ++ page, []) else (f.written, page)
    -- whole pages of the rest go out directly, what is left starts the next page
    let blob := rest.length / 4096 * 4096
    { written := written ++ rest.take blob, page := page ++ rest.drop blob
      pos := f.pos + data.length }

def dbFileFlush (f : OutFile) : OutFile := { f with written := f.written ++ f.page, page := [] }

/-- All that was written. -/
def OutFile.content (f : OutFile) : Bytes := f.written ++ f.page

/-- The page is never full between writes, and the position is where the next byte goes. -/
structure OutFile.OK (f : OutFile) : Prop where
  page : f.page.length < 4096
  pos : f.pos = 2048 + f.content.length

theorem dbFileWrite_spec {f : OutFile} (ok : f.OK) (data : Bytes) :
    (dbFileWrite f data).OK ∧ (dbFileWrite f data).content = f.content ++ data := by
  have hpage := ok.page
  have hpos := ok.pos
  rw [OutFile.content, length_append] at hpos
  unfold dbFileWrite
  by_cases hzero : data.length = 0
  · rw [if_pos hzero, length_eq_zero_iff.mp hzero, append_nil]
    exact ⟨ok, rfl⟩
  rw [if_neg hzero]
  by_cases hfit : data.length < 4096 - f.page.length
  · simp only [if_pos hfit, take_length, drop_length, length_append]
    rw [if_neg (by omega)]
    refine ⟨⟨?_, ?_⟩, ?_⟩
    · simp only [length_nil, drop_nil, append_nil, length_append]
      omega
    · simp only [OutFile.content, take_nil, drop_nil, append_nil, length_append]
      omega
    · simp only [OutFile.content, take_nil, drop_nil, append_nil, append_assoc]
  · have hfull : (f.page ++ data.take (4096 - f.page.length)).length = 4096 := by
      rw [length_append, length_take]
      omega
    simp only [if_neg hfit, if_pos hfull, nil_append]
    refine ⟨⟨?_, ?_⟩, ?_⟩
    · simp only [length_drop]
      omega
    · simp only [OutFile.content, append_assoc, length_append, take_append_drop]
      omega
    · simp only [OutFile.content, append_assoc, take_append_drop]

theorem OutFile.ok_start : OutFile.start.OK := ⟨by decide, rfl⟩

end Coda.Rwcdb
