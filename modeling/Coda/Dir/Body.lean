import Coda.Lib.Memory

/-!
Packed directories: the functions of `coda-src/dir/dirbody.c` on a byte image.

A directory is up to 128 pages (`DIR_MAXPAGES`) of 2048 bytes (`DIR_PAGESIZE`), each
page 64 blobs (`EPP`) of 32 bytes. Blob 0 of a page is its header (`struct PageHeader`):
the tag, a free count and the blob bitmap. Page 0 goes on with the allocation map, one
byte a page, and 128 hash chain heads (`NHASH`); these take the `DHE` = 12 blobs after
the page header. An entry (`struct DirEntry`) takes the blobs its name needs. Blobs are
numbered through the pages, and chains link blob numbers in network byte order.

`Option` results are `none` where the source fails an assertion, follows a null pointer
or walks a chain that never ends: a chain is followed for at most 65536 links, the number
of different 16-bit blob numbers. Addresses are relative to the start of the directory;
what lies beyond its last page is arbitrary.
-/

namespace Coda.Dir

open Coda.Lib

/-- A directory image. -/
abbrev Image := Mem

/-- `struct DirFid`. -/
structure DirFid where
  vnode : BitVec 32
  unique : BitVec 32
deriving DecidableEq, Repr

/-- Return codes. -/
inductive Code where
  | ok | eio | enametoolong | einval | eexist | efbig | enoent
deriving DecidableEq, Repr

/-! ### Fields -/

section Fields

variable (m : Image)

/-- `ntohl(DIR_Page(dir, page)->tag)`. -/
def tag (page : Nat) : Nat := m.load32 (2048 * page)

def freecount (page : Nat) : Int := (m (2048 * page + 4)).toInt

def freebitmap (page j : Nat) : BitVec 8 := m (2048 * page + 5 + j)

/-- `dirh_allomap[page]`, a signed `char`. -/
def allomap (page : Nat) : Int := (m (32 + page)).toInt

/-- `ntohs(dirh_hashTable[i])`. -/
def hashTable (i : Nat) : Nat := m.load16 (160 + 2 * i)

def flag (blob : Nat) : BitVec 8 := m (32 * blob)

/-- `ntohs(ep->next)`. -/
def next (blob : Nat) : Nat := m.load16 (32 * blob + 2)

/-- `fid_NFid2Fid(&ep->fid)`. -/
def fid (blob : Nat) : DirFid where
  vnode := BitVec.ofNat 32 (m.load32 (32 * blob + 4))
  unique := BitVec.ofNat 32 (m.load32 (32 * blob + 8))

/-- The address of `ep->name`. -/
def nameAddr (blob : Nat) : Nat := 32 * blob + 12

/-- `strlen(ep->name)`, within the largest directory. -/
def nameLength (blob : Nat) : Nat := m.strlen 262144 (nameAddr blob)

def setTag (page v : Nat) : Image := m.store32 (2048 * page) v

def setFreecount (page : Nat) (v : Int) : Image := m.store (2048 * page + 4) [BitVec.ofInt 8 v]

def setFreebitmap (page j : Nat) (v : BitVec 8) : Image := m.store (2048 * page + 5 + j) [v]

def setAllomap (page : Nat) (v : Int) : Image := m.store (32 + page) [BitVec.ofInt 8 v]

def setHashTable (i blob : Nat) : Image := m.store16 (160 + 2 * i) blob

def setNext (blob v : Nat) : Image := m.store16 (32 * blob + 2) v

end Fields

/-! ### Names -/

/-- `dir_NameBlobs`, of a name of the given length. -/
def dirNameBlobs (length : Nat) : Nat := 1 + ((length + 1 + 15) >>> 5)

/-- `DIR_Hash`, of the bytes before the NUL; `int` arithmetic wraps, and characters are
signed. -/
def dirHash (name : List (BitVec 8)) : Nat :=
  let hval : BitVec 32 := name.foldl (fun h c => h * 173#32 + c.signExtend 32) 0#32
  let tval := (hval &&& 127#32).toNat
  if tval = 0 then tval else if hval.toInt < 0 then 128 - tval else tval

/-! ### Blobs -/

/-- `DIR_Length`. -/
def dirLength (m : Image) : Nat :=
  ((List.range 128).filter fun i => allomap m i ≠ 64).length * 2048

/-- `dir_Extend`, without the limit on the size: a page of zeros is appended. -/
def dirExtend (m : Image) : Image := m.fill (dirLength m) 2048 0#8

/-- `dir_AddPage`; beyond 128 pages it changes nothing. -/
def dirAddPage (m : Image) : Image :=
  if (dirLength m + 2048) >>> 11 > 128 then m
  else
    let m := dirExtend m
    let page := dirLength m >>> 11
    let m := setAllomap m page 63
    let m := setTag m page 1234
    let m := setFreecount m page 63
    let m := setFreebitmap m page 0 0x01#8
    (List.range' 1 7).foldl (fun m i => setFreebitmap m page i 0#8) m

/-- `(pp->freebitmap[k >> 3] >> (k & 7)) & 1`. -/
def bitSet (m : Image) (page k : Nat) : Bool :=
  (freebitmap m page (k >>> 3) >>> (k &&& 7)) &&& 1#8 ≠ 0#8

/-- The first `nblobs` free blobs in a row of a page. -/
def firstFit (m : Image) (page nblobs : Nat) : Option Nat :=
  (List.range (64 - nblobs + 1)).find? fun j =>
    (List.range nblobs).all fun k => !bitSet m page (j + k)

/-- The bitmap loop of `dir_FindBlobs`. -/
def setBits (m : Image) (page j nblobs : Nat) : Image :=
  (List.range nblobs).foldl (fun m k =>
    setFreebitmap m page ((j + k) >>> 3)
      (freebitmap m page ((j + k) >>> 3) ||| 1#8 <<< ((j + k) % 8))) m

/-- The page loop of `dir_FindBlobs` over the pages still to be tried. The inner `none` is
the result `-1`. -/
def findBlobsLoop (nblobs : Nat) : List Nat → Image → Option (Option Nat × Image)
  | [], m => some (none, m)
  | i :: rest, m =>
    if allomap m i < nblobs then findBlobsLoop nblobs rest m
    else
      -- 64 free blobs: the page is not yet allocated
      let m := if allomap m i = 64 then setAllomap (dirAddPage m) i 63 else m
      match firstFit m i nblobs with
      | none => findBlobsLoop nblobs rest m
      | some j =>
        let m := setAllomap m i (allomap m i - nblobs)
        let m := setFreecount m i (freecount m i - nblobs)
        let m := setBits m i j nblobs
        if 12 < j + 64 * i then some (some (j + 64 * i), m) else none

/-- `dir_FindBlobs`. -/
def dirFindBlobs (m : Image) (nblobs : Nat) : Option (Option Nat × Image) :=
  if nblobs = 0 then none else findBlobsLoop nblobs (List.range 128) m

/-- The bitmap loop of `dir_FreeBlobs`. -/
def clearBits (m : Image) (page j nblobs : Nat) : Image :=
  (List.range nblobs).foldl (fun m i =>
    setFreebitmap m page ((j + i) >>> 3)
      (freebitmap m page ((j + i) >>> 3) &&& ~~~(1#8 <<< ((j + i) &&& 7)))) m

/-- `dir_FreeBlobs`. -/
def dirFreeBlobs (m : Image) (firstblob nblobs : Nat) : Option Image :=
  let page := firstblob >>> 6
  let firstblob := firstblob - 64 * page
  if ¬ firstblob + nblobs ≤ 64 then none
  else
    let m := setAllomap m page (allomap m page + nblobs)
    let m := setFreecount m page (freecount m page + nblobs)
    some (clearBits m page firstblob nblobs)

/-- `dir_GetBlob` gives an entry. A 16-bit number that is negative as a `short` is larger
than 8192 here. -/
def dirGetBlob (blobno : Nat) : Bool := 0 < blobno ∧ blobno ≤ 8192

/-! ### Lookup -/

/-- The chain walk of `dir_FindItem` from entry `tp` on, with the entry before it. -/
def findLoop (m : Image) (ename : CString) : Nat → Option Nat → Nat →
    Option (Option (Option Nat × Nat))
  | 0, _, _ => none
  | k + 1, lp, tp =>
    if m.CStr (nameAddr tp) ename.bytes then some (some (lp, tp))
    else
      let blobno := next m tp
      if blobno = 0 then some none
      else if dirGetBlob blobno then findLoop m ename k (some tp) blobno else some none

/-- `dir_FindItem` with `CLU_CASE_SENSITIVE`: the previous entry of the chain and the
blob number of the entry. -/
def dirFindItem (m : Image) (ename : CString) : Option (Option (Option Nat × Nat)) :=
  let blobno := hashTable m (dirHash ename.bytes)
  if blobno = 0 then some none
  else if dirGetBlob blobno then findLoop m ename 65536 none blobno else none

/-- `DIR_Lookup` with `CLU_CASE_SENSITIVE`. -/
def dirLookup (m : Image) (entry : CString) : Option (Code × Option DirFid) := do
  match ← dirFindItem m entry with
  | none => return (.enoent, none)
  | some (_, blob) => return (.ok, some (fid m blob))

section Enumerate

variable {σ : Type} (m : Image) (hookproc : Nat → σ → Int × σ)

/-- One hash chain of `DIR_EnumerateDir`. -/
def enumLoop : Nat → Nat → σ → Option (Int × σ)
  | 0, _, _ => none
  | k + 1, num, hook =>
    if num = 0 then some (0, hook)
    else if dirGetBlob num = false then some (0, hook)
    else
      let r := hookproc num hook
      if r.1 ≠ 0 then some r else enumLoop k (next m num) r.2

/-- The hash chains of `DIR_EnumerateDir` still to be walked. -/
def enumChains : List Nat → σ → Option (Int × σ)
  | [], hook => some (0, hook)
  | i :: rest, hook => do
    let r ← enumLoop m hookproc 65536 (hashTable m i) hook
    if r.1 ≠ 0 then return r else enumChains rest r.2

/-- `DIR_EnumerateDir`. The hook is given the blob number of the entry. -/
def dirEnumerateDir (hook : σ) : Option (Int × σ) := enumChains m hookproc (List.range 128) hook

end Enumerate

def dot : CString := ⟨[0x2e#8], by decide⟩

def dotdot : CString := ⟨[0x2e#8, 0x2e#8], by decide⟩

/-- One hash chain of `DIR_IsEmpty`. -/
def emptyLoop (m : Image) : Nat → Nat → Option Bool
  | 0, _ => none
  | k + 1, num =>
    if num = 0 then some true
    else if dirGetBlob num = false then some true
    else if ¬ m.CStr (nameAddr num) dotdot.bytes ∧ ¬ m.CStr (nameAddr num) dot.bytes then some false
    else emptyLoop m k (next m num)

/-- The hash chains of `DIR_IsEmpty` still to be walked. -/
def emptyChains (m : Image) : List Nat → Option Bool
  | [] => some true
  | i :: rest => do
    if ← emptyLoop m 65536 (hashTable m i) then emptyChains m rest else return false

/-- `DIR_IsEmpty`. -/
def dirIsEmpty (m : Image) : Option Bool := emptyChains m (List.range 128)

/-! ### The checker -/

/-- `fcount` of a page: every set bit of its bitmap counts down from 64. -/
def fcount (m : Image) (page : Nat) : Int :=
  64 - (((List.range 8).map fun j =>
    ([0x80#8, 0x40#8, 0x20#8, 0x10#8, 0x08#8, 0x04#8, 0x02#8, 0x01#8].filter fun mask =>
      freebitmap m page j &&& mask ≠ 0#8).length).sum : Nat)

/-- The entry allocation map before the chains are walked. -/
def eaMapInit (pages : Nat) : Nat → BitVec 8 := fun x =>
  if x = 0 then 0xff#8 else if x = 1 then 0x1f#8
  else if x % 8 = 0 ∧ x / 8 < pages then 0x01#8 else 0#8

/-- The bits of an entry are added to the map. -/
def markEntry (eaMap : Nat → BitVec 8) (entryno k : Nat) : Nat → BitVec 8 :=
  (List.range k).foldl (fun eaMap j =>
    Function.update eaMap ((entryno + j) >>> 3)
      (eaMap ((entryno + j) >>> 3) ||| 1#8 <<< ((entryno + j) &&& 7))) eaMap

/-- `ep->name`. -/
def nameAt (m : Image) (blob : Nat) : List (BitVec 8) := m.bytes (nameAddr blob) (nameLength m blob)

/-- The checks on one entry of chain `i`. -/
def entryOK (m : Image) (pages i entryno : Nat) : Bool :=
  entryno ≤ 64 * pages ∧ dirGetBlob entryno ∧ flag m entryno = 1#8 ∧
    nameLength m entryno ≤ 255 ∧ nameLength m entryno ≠ 0 ∧ dirHash (nameAt m entryno) = i

/-- The walk of chain `i` in `DIR_DirOK`; the inner `none` is the answer 0. -/
def okLoop (m : Image) (pages i : Nat) : Nat → Nat → (Nat → BitVec 8) →
    Option (Option (Nat → BitVec 8))
  | 0, _, _ => none
  | k + 1, entryno, eaMap =>
    if entryno = 0 then some (some eaMap)
    else if entryOK m pages i entryno then
      okLoop m pages i k (next m entryno)
        (markEntry eaMap entryno (dirNameBlobs (nameLength m entryno)))
    else some none

/-- The chains of `DIR_DirOK` still to be walked, with `k` rounds for each. -/
def okChains (k : Nat) (m : Image) (pages : Nat) : List Nat → (Nat → BitVec 8) →
    Option (Option (Nat → BitVec 8))
  | [], eaMap => some (some eaMap)
  | i :: rest, eaMap => do
    match ← okLoop m pages i k (hashTable m i) eaMap with
    | none => return none
    | some eaMap => okChains k m pages rest eaMap

/-- The final comparison of the map with the bitmaps of all pages. -/
def mapsAgree (m : Image) (pages : Nat) (eaMap : Nat → BitVec 8) : Bool :=
  decide (∀ i < pages, ∀ j < (8 : Nat), eaMap (8 * i + j) = freebitmap m i j)

/-- `DIR_DirOK`, with `k` rounds for each chain. -/
def dirDirOKWithin (k : Nat) (m : Image) : Option Bool :=
  let pages := dirLength m / 2048
  if tag m 0 ≠ 1234 then some false
  else if allomap m 0 < 0 ∨ allomap m 0 > 51 then some false
  else if ¬ ∀ i < pages, 1 ≤ i → 0 ≤ allomap m i ∧ allomap m i ≤ 63 then some false
  else if ¬ ∀ i < 128, pages ≤ i → allomap m i = 64 then some false
  else if ¬ ∀ i < pages, 1 ≤ i → tag m i = 1234 then some false
  else if ¬ ∀ i < pages, 1 ≤ i → fcount m i = allomap m i then some false
  else do
    match ← okChains k m pages (List.range 128) (eaMapInit pages) with
    | none => return false
    | some eaMap => return mapsAgree m pages eaMap

/-- `DIR_DirOK`. Blob numbers have 16 bits, so a longer walk would have been in a circle. -/
def dirDirOK (m : Image) : Option Bool := dirDirOKWithin 65536 m

/-! ### Create and delete -/

/-- Filling in the entry and threading it on its hash chain. -/
def threadEntry (m : Image) (firstblob : Nat) (entry : CString) (fid : DirFid) : Image :=
  let m := m.store (32 * firstblob) [1#8]
  let m := m.store32 (32 * firstblob + 4) fid.vnode.toNat
  let m := m.store32 (32 * firstblob + 8) fid.unique.toNat
  let m := m.store (nameAddr firstblob) (entry.bytes ++ [0#8])
  let i := dirHash entry.bytes
  let m := setNext m firstblob (hashTable m i)
  setHashTable m i firstblob

/-- `DIR_Create`. The check at the end only prints. -/
def dirCreate (m : Image) (entry : CString) (fid : DirFid) : Option (Code × Image) :=
  if entry.bytes.length > 255 then some (.enametoolong, m)
  else if entry.bytes.length = 0 then some (.einval, m)
  else do
    match ← dirFindItem m entry with
    | some _ => return (.eexist, m)
    | none =>
      match ← dirFindBlobs m (dirNameBlobs entry.bytes.length) with
      | (none, m) => return (.efbig, m)
      | (some firstblob, m) =>
        if dirGetBlob firstblob = false then return (.eio, m)
        else do
          let m := threadEntry m firstblob entry fid
          let _ ← dirDirOK m
          return (.ok, m)

/-- `DIR_Delete`. -/
def dirDelete (m : Image) (entry : CString) : Option (Code × Image) := do
  match ← dirFindItem m entry with
  | none => return (.enoent, m)
  | some (preventry, index) =>
    let m :=
      match preventry with
      | some prev => setNext m prev (next m index)
      | none => setHashTable m (dirHash entry.bytes) (next m index)
    let nitems := dirNameBlobs (nameLength m index)
    let m ← dirFreeBlobs m index nitems
    let _ ← dirDirOK m
    return (.ok, m)

/-- `DIR_Setpages`. -/
def dirSetpages (m : Image) (pages : Nat) : Image :=
  (List.range' pages (128 - pages)).foldl (fun m i => setAllomap m i 64) m

/-- The header that `DIR_MakeDir` writes, over a fresh page with arbitrary bytes. -/
def dirHeader (fresh : Image) : Image :=
  let m := fresh.fill 0 2048 0#8
  let m := setTag m 0 1234
  let m := setFreecount m 0 51
  let m := setFreebitmap m 0 0 0xff#8
  let m := setFreebitmap m 0 1 0x1f#8
  let m := (List.range' 2 6).foldl (fun m i => setFreebitmap m 0 i 0#8) m
  let m := setAllomap m 0 51
  let m := dirSetpages m 1
  (List.range 128).foldl (fun m i => setHashTable m i 0) m

/-- `DIR_MakeDir`. -/
def dirMakeDir (fresh : Image) (me parent : DirFid) : Option Image := do
  let (_, m) ← dirCreate (dirHeader fresh) dot me
  let (_, m) ← dirCreate m dotdot parent
  let _ ← dirDirOK m
  return m

end Coda.Dir
