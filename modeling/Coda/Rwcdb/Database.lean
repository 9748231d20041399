import Coda.Lib.Probe
import Coda.Rwcdb.File

/-!
A constant database with pending updates (`lib-src/rwcdb/rwcdb.c`).

Updates stay in memory, `removed` and 256 lists `added` by the low byte of the hash, until
`rwcdb_sync` writes a new file: the records of the old file that have no pending update, then
the added ones, then a hash table for every list, and a header that locates the tables.

Results are `none` where the source returns -1. The file is the only one's to write, memory
does not run out, and `rwcdb_sync` is `none` as well when the new file would have 2^32 bytes
or more, where the 32-bit positions of the source wrap around.
-/

namespace Coda.Rwcdb

open Coda.Lib

/-- `struct wrentry` with its key and data. -/
structure WrEntry where
  hash : BitVec 32
  pos : Nat
  key : Bytes
  data : Bytes
deriving DecidableEq

/-- `struct rwcdb`. `writing` stands for `wf.fd != -1`, and `pending` for a pointer to an
entry: its list and its place in it. -/
structure Db where
  rf : DbFile
  writing : Bool
  readonly : Bool
  hash : BitVec 32
  klen : Nat
  dlen : Nat
  dpos : Nat
  pending : Option (BitVec 8 × Nat)
  index : Nat
  hlens : BitVec 8 → Nat
  removed : List WrEntry
  added : BitVec 8 → List WrEntry

/-- The 256 lists in the order of the loops over them. -/
def tables : List (BitVec 8) := (List.range 256).map (BitVec.ofNat 8)

/-- `cdb_hash`. -/
def cdbHash (k : Bytes) : BitVec 32 :=
  k.foldl (fun hash b => ((hash <<< 5) + hash) ^^^ b.setWidth 32) 5381#32

/-- `hash & 0xff`. -/
def slot (hash : BitVec 32) : BitVec 8 := hash.setWidth 8

/-! ### Pending updates -/

/-- The comparison of `ispending`. -/
def WrEntry.isFor (k : Bytes) (hash : BitVec 32) (w : WrEntry) : Bool :=
  w.hash = hash ∧ k.length = w.key.length ∧ w.key = k

/-- The loop of `ispending` over an added list. -/
def pendingLoop (k : Bytes) (hash : BitVec 32) : Nat → List WrEntry → Option (WrEntry × Option Nat)
  | _, [] => none
  | idx, w :: ws => if w.isFor k hash then some (w, some idx) else pendingLoop k hash (idx + 1) ws

/-- `ispending`: the entry for a key and, for an added one, its number. -/
def ispending (c : Db) (k : Bytes) (hash : BitVec 32) : Option (WrEntry × Option Nat) :=
  match c.removed.find? (·.isFor k hash) with
  | some w => some (w, none)
  | none =>
    if c.hlens (slot hash) = 0 then none
    else
      let idx := ((List.range (slot hash).toNat).map fun i => c.hlens (BitVec.ofNat 8 i)).sum
      pendingLoop k hash idx (c.added (slot hash))

/-- The loop of `fromhash`. -/
def fromhashLoop (c : Db) : List (BitVec 8) → Nat → Option (BitVec 8 × Nat)
  | [], _ => none
  | i :: is, index =>
    if index ≥ c.hlens i then fromhashLoop c is (index - c.hlens i)
    else if index < (c.added i).length then some (i, index)
    else fromhashLoop c is (index - (c.added i).length)

/-- `fromhash`: the entry with a number. -/
def fromhash (c : Db) (index : Nat) : Option (BitVec 8 × Nat) := fromhashLoop c tables index

/-! ### Reading -/

/-- The loop of `rwcdb_find` over the slots of a table. -/
def findLoop (k : Bytes) (hash : BitVec 32) (hpos hlen : Nat) :
    Nat → Nat → Db → Option (Bool × Db)
  | 0, _, c => some (false, c)
  | loop + 1, curPos, c => do
    let ((hash2, pos), rf) ← dbReadints c.rf curPos
    if pos = 0 then return (false, { c with rf })
    else
      let curPos := if curPos + 8 = hpos + hlen * 8 then hpos else curPos + 8
      if hash.toNat ≠ hash2 then findLoop k hash hpos hlen loop curPos { c with rf }
      else do
        let ((keylen, dlen), rf) ← dbReadints rf pos
        if k.length ≠ keylen then findLoop k hash hpos hlen loop curPos { c with rf }
        else do
          let (buf, rf) ← dbFileMread rf (k.length + dlen) rf.pos
          if k = buf.take k.length then
            return (true, { c with rf, klen := k.length, dlen, dpos := rf.pos - dlen })
          else findLoop k hash hpos hlen loop curPos { c with rf }

/-- `rwcdb_find`. The number of a removed entry is not set; it has no data either. -/
def rwcdbFind (c : Db) (k : Bytes) : Option (Bool × Db) :=
  let hash := cdbHash k
  match ispending c k hash with
  | some (w, idx) =>
    if w.data.length = 0 then some (false, c)
    else idx.map fun loop =>
      (true, { c with klen := w.key.length, dlen := w.data.length, dpos := c.rf.eod + loop })
  | none => do
    let ((hpos, hlen), rf) ← dbReadints c.rf ((slot hash).toNat * 8)
    if hlen = 0 then return (false, { c with rf })
    else findLoop k hash hpos hlen hlen (hpos + (hash >>> 8).toNat % hlen * 8) { c with rf }

/-- `rwcdb_read`: the data. -/
def rwcdbRead (c : Db) (dlen dpos : Nat) : Option (Bytes × Db) :=
  if dpos < c.rf.eod then do
    let (buf, rf) ← dbFileMread c.rf dlen dpos
    return (buf, { c with rf })
  else do
    let (i, n) ← fromhash c (dpos - c.rf.eod)
    let w ← (c.added i)[n]?
    if dlen > w.data.length then none else return (w.data.take dlen, c)

/-! ### Updates -/

/-- `free_wrentry` of the pending entry for a key. -/
def freePending (c : Db) (k : Bytes) (hash : BitVec 32) : Db :=
  match ispending c k hash with
  | none => c
  | some (old, none) =>
    { c with
      hlens := if old.data.length = 0 then c.hlens
        else Function.update c.hlens (slot hash) (c.hlens (slot hash) - 1)
      removed := c.removed.eraseP (·.isFor k hash) }
  | some (old, some _) =>
    { c with
      hlens := if old.data.length = 0 then c.hlens
        else Function.update c.hlens (slot hash) (c.hlens (slot hash) - 1)
      added := Function.update c.added (slot hash) ((c.added (slot hash)).eraseP (·.isFor k hash)) }

/-- `rwcdb_insert`. Empty data removes the key. -/
def rwcdbInsert (c : Db) (k d : Bytes) : Db :=
  let c := if c.readonly then c else { c with writing := true }
  let hash := cdbHash k
  let w : WrEntry := { hash, pos := 0, key := k, data := d }
  let c := freePending c k hash
  if d.length = 0 then { c with removed := c.removed ++ [w] }
  else
    { c with
      hlens := Function.update c.hlens (slot hash) (c.hlens (slot hash) + 1)
      added := Function.update c.added (slot hash) (c.added (slot hash) ++ [w]) }

/-- `rwcdb_delete`. -/
def rwcdbDelete (c : Db) (k : Bytes) : Option Db := do
  let (found, c) ← rwcdbFind c k
  return if found then rwcdbInsert c k [] else c

/-! ### Writing a new file -/

/-- `rwcdb_next`, going on from `index`: the next record of the file that has no pending
update, or else the next added entry. -/
def rwcdbNext : Nat → Db → Option (Bool × Db)
  | 0, _ => none
  | fuel + 1, c =>
    if c.index < c.rf.eod then do
      let ((klen, dlen), rf) ← dbReadints c.rf c.index
      let (buf, rf) ← dbFileMread rf (klen + dlen) rf.pos
      let hash := cdbHash (buf.take klen)
      let old := ispending c (buf.take klen) hash
      let c := { c with rf, index := rf.pos }
      if old.isSome then rwcdbNext fuel c
      else return (true, { c with pending := none, hash, klen, dlen, dpos := rf.pos - dlen })
    else
      match fromhash c (c.index - c.rf.eod) with
      | none => some (false, { c with pending := none })
      | some (i, n) => do
        let w ← (c.added i)[n]?
        return (true, { c with
          pending := some (i, n), klen := w.key.length, dlen := w.data.length, dpos := c.index
          index := c.index + 1 })

/-- The loop of `dump_records`, with the list of the entries made for records of the file. -/
def dumpRecords : Nat → Db → List WrEntry → OutFile → Option (Db × List WrEntry × OutFile)
  | 0, _, _, _ => none
  | fuel + 1, c, old, wf => do
    let (more, c) ← rwcdbNext (c.rf.bytes.length + 1) c
    if ¬ more then return (c, old, wf)
    else
      match c.pending with
      | none => do
        let w : WrEntry := { hash := c.hash, pos := wf.pos, key := [], data := [] }
        let (buf, rf) ← dbFileMread c.rf (c.klen + c.dlen) (c.dpos - c.klen)
        let wf := dbFileWrite (dbFileWrite wf (packints c.klen c.dlen)) buf
        dumpRecords fuel { c with rf } (old ++ [w]) wf
      | some (i, n) => do
        let w ← (c.added i)[n]?
        let added := Function.update c.added i ((c.added i).set n { w with pos := wf.pos })
        let wf := dbFileWrite (dbFileWrite wf (packints c.klen c.dlen)) (w.key ++ w.data)
        dumpRecords fuel { c with added } old wf

/-- The entries made for old records go to the front of the added lists. -/
def moveRewrites (c : Db) (rewrites : List WrEntry) : Db :=
  rewrites.foldl (fun c w =>
    { c with
      added := Function.update c.added (slot w.hash) (w :: c.added (slot w.hash))
      hlens := Function.update c.hlens (slot w.hash) (c.hlens (slot w.hash) + 1) }) c

/-- One table of `write_hashchains`. A slot is taken for free when its hash is 0. -/
def hashChain (len : Nat) (ws : List WrEntry) : Option (List (Nat × Nat)) :=
  Probe.insertAll (fun h : Nat × Nat => h.1 ≠ 0) (fun w : WrEntry => (w.hash >>> 8).toNat)
    (fun w => (w.hash.toNat, w.pos)) (List.replicate len (0, 0)) ws

/-- The body of the loop of `write_hashchains`. -/
def writeTable (c : Db) (i : BitVec 8) (wf : OutFile) : Option OutFile :=
  if c.hlens i * 2 = 0 then some wf
  else do
    let h ← hashChain (c.hlens i * 2) (c.added i)
    return dbFileWrite wf (h.flatMap fun t => packints t.1 t.2)

/-- The loop of `write_hashchains`, with the offsets of the tables. -/
def writeTables (c : Db) : List (BitVec 8) → OutFile → Option (List Nat × OutFile)
  | [], wf => some ([], wf)
  | i :: is, wf => do
    let wf' ← writeTable c i wf
    let (hoffs, wf'') ← writeTables c is wf'
    return (wf.pos :: hoffs, wf'')

/-- `write_hashchains`: the new file. -/
def writeHashchains (c : Db) (wf : OutFile) : Option Bytes := do
  let (hoffs, wf) ← writeTables c tables wf
  let header := (hoffs.zip tables).flatMap fun (hoff, i) => packints hoff (c.hlens i * 2)
  return header ++ (dbFileFlush wf).written

/-- `rwcdb_sync`. -/
def rwcdbSync (c : Db) : Option Db :=
  if ¬ c.writing then some c
  else do
    let total := (tables.map c.hlens).sum
    let (c, rewrites, wf) ←
      dumpRecords (c.rf.bytes.length + total + 1) { c with index := 2048 } [] OutFile.start
    let c := moveRewrites c rewrites
    let bytes ← writeHashchains c wf
    if bytes.length ≥ 4294967296 then none
    else
      -- the new file is opened and the pending updates are discarded
      return { c with
        rf := dbFileOpen bytes, writing := false, index := 2048
        hlens := fun _ => 0, removed := [], added := fun _ => [] }

/-- `rwcdb_init` of a file that does not exist. -/
def rwcdbInit : Option Db :=
  rwcdbSync
    { rf := { bytes := [], pos := 0, eod := 2048, cachePos := 0, cacheLen := 0 }
      writing := true, readonly := false, hash := 0, klen := 0, dlen := 0, dpos := 0
      pending := none, index := 0, hlens := fun _ => 0, removed := [], added := fun _ => [] }

end Coda.Rwcdb
