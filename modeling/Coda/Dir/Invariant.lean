import Coda.Dir.Body
import Coda.Lib.Bits

/-!
What a directory image represents, and how the allocation primitives keep it.

The ghost state is the list of entries on each hash chain. `Layout` says where these
entries may lie, `Rep` that an image holds them: links, names and fids in the entries'
blobs, and the three records of free space in agreement with them. Both carry a set of
`reserved` blobs that are allocated but not on a chain; that is the state between the
two halves of `DIR_Create` and of `DIR_Delete`.
-/

namespace Coda.Dir

open Coda.Lib List

/-! ### Entries and chains -/

/-- An entry on a hash chain. -/
structure Entry where
  blob : Nat
  name : CString
  fid : DirFid
deriving DecidableEq

namespace Entry

/-- The number of blobs of the entry. -/
def blobs (e : Entry) : Nat := dirNameBlobs e.name.bytes.length

/-- Blob `b` belongs to the entry. -/
def Covers (e : Entry) (b : Nat) : Prop := e.blob ≤ b ∧ b < e.blob + e.blobs

/-- The entry lies in one of the first `P` pages, behind the header blobs, and its name is
a legal one. -/
structure Fits (P : Nat) (e : Entry) : Prop where
  name_pos : 1 ≤ e.name.bytes.length
  name_le : e.name.bytes.length ≤ 255
  page : e.blob / 64 < P
  inPage : e.blob % 64 + e.blobs ≤ 64
  offPageHeader : 1 ≤ e.blob % 64
  offDirHeader : 13 ≤ e.blob

end Entry

/-- The blobs `[b, b + n)`. -/
def Span (b n : Nat) : Nat → Prop := fun x => b ≤ x ∧ x < b + n

/-- No blobs. -/
def noBlobs : Nat → Prop := fun _ => False

/-- The image holds the entry; its link is left open. -/
structure EntryAt (m : Image) (e : Entry) : Prop where
  flag : flag m e.blob = 1#8
  fid : fid m e.blob = e.fid
  name : m.CStr (nameAddr e.blob) e.name.bytes

/-- The entries of `l` are linked from the blob number `h` on. -/
def Linked (m : Image) : Nat → List Entry → Prop
  | h, [] => h = 0
  | h, e :: l => h = e.blob ∧ Linked m (next m e.blob) l

/-- The header blobs: 13 in page 0 and one in every other page. -/
def IsHeader (b : Nat) : Prop := b < 13 ∨ b % 64 = 0

section Arithmetic

theorem dirNameBlobs_eq (n : Nat) : dirNameBlobs n = 1 + (n + 16) / 32 := by
  rw [dirNameBlobs, Nat.shiftRight_eq_div_pow]

/-- A name with its NUL fits the blobs of its entry. -/
theorem name_fits (n : Nat) : 12 + n < 32 * dirNameBlobs n := by
  rw [dirNameBlobs_eq]
  omega

theorem dirNameBlobs_pos (n : Nat) : 1 ≤ dirNameBlobs n := by
  rw [dirNameBlobs_eq]
  omega

theorem dirNameBlobs_le {n : Nat} (h : n ≤ 255) : dirNameBlobs n ≤ 9 := by
  rw [dirNameBlobs_eq]
  omega

theorem dirHash_lt (name : List (BitVec 8)) : dirHash name < 128 := by
  unfold dirHash
  dsimp only
  generalize name.foldl (fun (h : BitVec 32) c => h * 173#32 + c.signExtend 32) 0#32 = hval
  have hand : (hval &&& 127#32).toNat = hval.toNat % 128 := by
    exact Nat.and_two_pow_sub_one_eq_mod hval.toNat 7
  split_ifs <;> omega

variable {P b : Nat} {e : Entry}

theorem Entry.Fits.mono {P' : Nat} (h : e.Fits P) (hP : P ≤ P') : e.Fits P' :=
  { h with page := h.page.trans_le hP }

theorem Entry.Fits.covers_page (h : e.Fits P) (hb : e.Covers b) : b / 64 = e.blob / 64 := by
  have := h.inPage
  unfold Entry.Covers at hb
  omega

theorem Entry.Fits.covers_lt (h : e.Fits P) (hb : e.Covers b) : b < 64 * P := by
  have h₁ := h.covers_page hb
  have h₂ := h.page
  omega

theorem Entry.Fits.covers_not_header (h : e.Fits P) (hb : e.Covers b) : ¬ IsHeader b := by
  have h₁ := h.inPage
  have h₂ := h.offPageHeader
  have h₃ := h.offDirHeader
  unfold IsHeader
  unfold Entry.Covers at hb
  omega

theorem Entry.covers_self (e : Entry) : e.Covers e.blob := by
  have := dirNameBlobs_pos e.name.bytes.length
  unfold Entry.Covers Entry.blobs
  omega

end Arithmetic

/-! ### What entries and chains read -/

section Reads

variable {m m' : Image} {e : Entry}

/-- An entry is read from its own blobs, leaving out the link. -/
theorem EntryAt.congr (h : ∀ x, e.Covers (x / 32) → x ≠ 32 * e.blob + 2 → x ≠ 32 * e.blob + 3 →
    m' x = m x) (at_ : EntryAt m e) : EntryAt m' e := by
  have hfit := name_fits e.name.bytes.length
  have own : ∀ x, 32 * e.blob ≤ x → x ≤ 32 * e.blob + 12 + e.name.bytes.length →
      x ≠ 32 * e.blob + 2 → x ≠ 32 * e.blob + 3 → m' x = m x := by
    intro x h₁ h₂ h₃ h₄
    refine h x ?_ h₃ h₄
    unfold Entry.Covers Entry.blobs
    omega
  refine ⟨?_, ?_, ?_⟩
  · rw [Dir.flag, own _ (by omega) (by omega) (by omega) (by omega)]
    exact at_.flag
  · have hv : m'.load32 (32 * e.blob + 4) = m.load32 (32 * e.blob + 4) :=
      Mem.load32_congr fun x h₁ h₂ => own x (by omega) (by omega) (by omega) (by omega)
    have hu : m'.load32 (32 * e.blob + 8) = m.load32 (32 * e.blob + 8) :=
      Mem.load32_congr fun x h₁ h₂ => own x (by omega) (by omega) (by omega) (by omega)
    rw [← at_.fid, Dir.fid, Dir.fid, hv, hu]
  · refine at_.name.congr fun x h₁ h₂ => own x ?_ ?_ ?_ ?_ <;> (unfold nameAddr at h₁ h₂; omega)

theorem EntryAt.nameLength_eq {P : Nat} (at_ : EntryAt m e) (h : e.Fits P) :
    nameLength m e.blob = e.name.bytes.length := by
  have := h.name_le
  exact Mem.CStr.strlen_eq at_.name e.name.nonul (by omega)

theorem next_congr {b : Nat} (h₂ : m' (32 * b + 2) = m (32 * b + 2))
    (h₃ : m' (32 * b + 3) = m (32 * b + 3)) : next m' b = next m b :=
  Mem.load16_congr h₂ h₃

theorem Linked.congr {h : Nat} {l : List Entry} (links : ∀ e ∈ l, next m' e.blob = next m e.blob)
    (linked : Linked m h l) : Linked m' h l := by
  induction l generalizing h with
  | nil => exact linked
  | cons e l ih =>
    refine ⟨linked.1, ?_⟩
    rw [links e mem_cons_self]
    exact ih (fun e' he' => links e' (mem_cons_of_mem _ he')) linked.2

end Reads

/-! ### Bits of the blob bitmaps -/

/-- The bit of a blob, numbered through the pages. -/
def blobBit (m : Image) (b : Nat) : Bool := bitSet m (b / 64) (b % 64)

theorem bitSet_eq (m : Image) (page k : Nat) :
    bitSet m page k = (m (2048 * page + 5 + k / 8)).getLsbD (k % 8) := by
  have hand : k &&& 7 = k % 8 := Nat.and_two_pow_sub_one_eq_mod k 3
  unfold bitSet freebitmap
  rw [Nat.shiftRight_eq_div_pow, hand]
  generalize m (2048 * page + 5 + k / 2 ^ 3) = byte
  rw [Bool.eq_iff_iff, decide_eq_true_iff]
  exact ushiftRight_and_one_ne_zero byte (k % 8)

section Bits

variable {m m' : Image}

theorem blobBit_eq (m : Image) (b : Nat) :
    blobBit m b = (m (2048 * (b / 64) + 5 + b % 64 / 8)).getLsbD (b % 8) := by
  rw [blobBit, bitSet_eq, Nat.mod_mod_of_dvd b (show 8 ∣ 64 by decide)]

theorem bitSet_eq_blobBit {page k : Nat} (h : k < 64) :
    bitSet m page k = blobBit m (64 * page + k) := by
  congr 1 <;> omega

/-- The bits are read from the bitmap bytes of the page. -/
theorem blobBit_congr {b : Nat} (h : ∀ j < 8, m' (2048 * (b / 64) + 5 + j) = m (2048 * (b / 64) + 5 + j)) :
    blobBit m' b = blobBit m b := by
  rw [blobBit_eq, blobBit_eq, h _ (by omega)]

section Loops

variable (op : BitVec 8 → Nat → BitVec 8) (v : Bool)

/-- One round of a bitmap loop: bit `k` of the page becomes `v`. -/
theorem blobBit_setFreebitmap
    (hop : ∀ c k t, k < 8 → t < 8 → (op c k).getLsbD t = if t = k then v else c.getLsbD t)
    (m : Image) (page : Nat) {k : Nat} (hk : k < 64) (b : Nat) :
    blobBit (setFreebitmap m page (k >>> 3) (op (freebitmap m page (k >>> 3)) (k % 8))) b =
      if b = 64 * page + k then v else blobBit m b := by
  rw [blobBit_eq, blobBit_eq, setFreebitmap, freebitmap, Nat.shiftRight_eq_div_pow]
  by_cases haddr : 2048 * (b / 64) + 5 + b % 64 / 8 = 2048 * page + 5 + k / 2 ^ 3
  · rw [haddr, Mem.store_singleton, hop _ _ _ (by omega) (by omega)]
    have hiff : b % 8 = k % 8 ↔ b = 64 * page + k := by omega
    simp only [hiff]
  · rw [Mem.store_outside (by simp only [length_singleton]; omega), if_neg]
    omega

/-- A bitmap loop over `[j, j + n)` of a page. -/
theorem foldl_setFreebitmap
    (hop : ∀ c k t, k < 8 → t < 8 → (op c k).getLsbD t = if t = k then v else c.getLsbD t)
    (m : Image) (page : Nat) {j n : Nat} (hn : j + n ≤ 64) :
    (∀ x, (x < 2048 * page + 5 ∨ 2048 * page + 13 ≤ x) →
      (List.range n).foldl (fun m k => setFreebitmap m page ((j + k) >>> 3)
        (op (freebitmap m page ((j + k) >>> 3)) ((j + k) % 8))) m x = m x) ∧
    ∀ b, blobBit ((List.range n).foldl (fun m k => setFreebitmap m page ((j + k) >>> 3)
        (op (freebitmap m page ((j + k) >>> 3)) ((j + k) % 8))) m) b =
      if 64 * page + j ≤ b ∧ b < 64 * page + j + n then v else blobBit m b := by
  induction n with
  | zero => exact ⟨fun _ _ => rfl, fun b => (if_neg (by omega)).symm⟩
  | succ n ih =>
    obtain ⟨frame, bits⟩ := ih (by omega)
    rw [range_succ, foldl_append]
    constructor
    · intro x hx
      refine (Mem.store_outside ?_).trans (frame x hx)
      rw [length_singleton]
      omega
    · intro b
      rw [foldl_cons, foldl_nil, blobBit_setFreebitmap op v hop _ page (by omega), bits]
      by_cases hb : b = 64 * page + (j + n)
      · rw [if_pos hb, if_pos (by omega)]
      · rw [if_neg hb]
        by_cases hr : 64 * page + j ≤ b ∧ b < 64 * page + j + n
        · rw [if_pos hr, if_pos (by omega)]
        · rw [if_neg hr, if_neg (by omega)]

end Loops

theorem setBits_spec (m : Image) (page : Nat) {j n : Nat} (hn : j + n ≤ 64) :
    (∀ x, (x < 2048 * page + 5 ∨ 2048 * page + 13 ≤ x) → setBits m page j n x = m x) ∧
    ∀ b, blobBit (setBits m page j n) b =
      if 64 * page + j ≤ b ∧ b < 64 * page + j + n then true else blobBit m b := by
  exact foldl_setFreebitmap (fun c k => c ||| 1#8 <<< k) true
    (fun c k t hk _ => getLsbD_or_twoPow hk t) m page hn

theorem clearBits_spec (m : Image) (page : Nat) {j n : Nat} (hn : j + n ≤ 64) :
    (∀ x, (x < 2048 * page + 5 ∨ 2048 * page + 13 ≤ x) → clearBits m page j n x = m x) ∧
    ∀ b, blobBit (clearBits m page j n) b =
      if 64 * page + j ≤ b ∧ b < 64 * page + j + n then false else blobBit m b := by
  have hand : ∀ k, k &&& 7 = k % 8 := fun k => Nat.and_two_pow_sub_one_eq_mod k 3
  simp only [clearBits, hand]
  exact foldl_setFreebitmap (fun c k => c &&& ~~~(1#8 <<< k)) false
    (fun c k t _ _ => getLsbD_and_not_twoPow c k t) m page hn

/-- The number of free blobs of a page. -/
def freeBlobs (m : Image) (page : Nat) : Nat :=
  ((Finset.range 64).filter fun k => blobBit m (64 * page + k) = false).card

theorem freeBlobs_congr {page : Nat} (h : ∀ k < 64, blobBit m' (64 * page + k) = blobBit m (64 * page + k)) :
    freeBlobs m' page = freeBlobs m page := by
  unfold freeBlobs
  congr 1
  refine Finset.filter_congr fun k hk => ?_
  rw [h k (Finset.mem_range.mp hk)]

/-- Taking `n` free blobs leaves `n` fewer. -/
theorem freeBlobs_add {page j n : Nat} (hn : j + n ≤ 64)
    (set : ∀ b, blobBit m' b =
      if 64 * page + j ≤ b ∧ b < 64 * page + j + n then true else blobBit m b)
    (free : ∀ b, 64 * page + j ≤ b → b < 64 * page + j + n → blobBit m b = false) :
    freeBlobs m' page + n = freeBlobs m page := by
  have hsub : Finset.Ico j (j + n) ⊆
      (Finset.range 64).filter fun k => blobBit m (64 * page + k) = false := by
    intro k hk
    rw [Finset.mem_Ico] at hk
    exact Finset.mem_filter.mpr ⟨Finset.mem_range.mpr (by omega), free _ (by omega) (by omega)⟩
  have hset : ((Finset.range 64).filter fun k => blobBit m' (64 * page + k) = false) =
      ((Finset.range 64).filter fun k => blobBit m (64 * page + k) = false) \ Finset.Ico j (j + n) := by
    ext k
    simp only [Finset.mem_filter, Finset.mem_sdiff, Finset.mem_Ico, set]
    split_ifs with h
    · simp only [and_false, false_iff]
      omega
    · have : ¬ (j ≤ k ∧ k < j + n) := by omega
      simp [this]
  have hcard := Finset.card_sdiff_add_card_eq_card hsub
  rw [Nat.card_Ico, Nat.add_sub_cancel_left] at hcard
  unfold freeBlobs
  rw [hset]
  exact hcard

end Bits

/-! ### The invariant -/

/-- The entry is on one of the hash chains. -/
def Live (ch : Nat → List Entry) (e : Entry) : Prop := ∃ i < 128, e ∈ ch i

/-- Where the entries of a directory of `P` pages lie. -/
structure Layout (P : Nat) (ch : Nat → List Entry) (reserved : Nat → Prop) : Prop where
  pos : 1 ≤ P
  le : P ≤ 128
  fits : ∀ e, Live ch e → e.Fits P
  hash : ∀ i < 128, ∀ e ∈ ch i, dirHash e.name.bytes = i
  apart : ∀ e e', Live ch e → Live ch e' → ∀ b, e.Covers b → e'.Covers b → e = e'
  names : ∀ e e', Live ch e → Live ch e' → e.name = e'.name → e = e'
  nodup : ∀ i < 128, (ch i).Nodup
  free : ∀ b, reserved b → b < 64 * P ∧ ¬ IsHeader b ∧ ∀ e, Live ch e → ¬ e.Covers b

/-- The image holds the entries, and its records of free space agree with them. -/
structure Rep (m : Image) (P : Nat) (ch : Nat → List Entry) (reserved : Nat → Prop) : Prop
    extends Layout P ch reserved where
  tags : ∀ p < P, tag m p = 1234
  allo : ∀ p < P, allomap m p = freeBlobs m p
  beyond : ∀ p < 128, P ≤ p → allomap m p = 64
  linked : ∀ i < 128, Linked m (hashTable m i) (ch i)
  entry : ∀ e, Live ch e → EntryAt m e
  bit : ∀ b < 64 * P, blobBit m b = true ↔
    IsHeader b ∨ (∃ e, Live ch e ∧ e.Covers b) ∨ reserved b

/-- The bytes of the free counts, the bitmaps and the allocation map. -/
def Admin (x : Nat) : Prop := (4 ≤ x % 2048 ∧ x % 2048 < 13) ∨ (32 ≤ x ∧ x < 160)

section Frames

variable {m m' : Image} {P : Nat} {ch : Nat → List Entry} {reserved : Nat → Prop}

theorem allomap_congr {p : Nat} (h : m' (32 + p) = m (32 + p)) : allomap m' p = allomap m p := by
  rw [allomap, allomap, h]

theorem tag_congr {p : Nat} (h : ∀ x, 2048 * p ≤ x → x < 2048 * p + 4 → m' x = m x) :
    tag m' p = tag m p :=
  Mem.load32_congr h

theorem hashTable_congr {i : Nat} (h : ∀ x, 160 + 2 * i ≤ x → x < 160 + 2 * i + 2 → m' x = m x) :
    hashTable m' i = hashTable m i :=
  Mem.load16_congr (h _ (by omega) (by omega)) (h _ (by omega) (by omega))

/-- The bytes of an entry lie inside the pages, outside the administrative bytes and the
hash table. -/
theorem Entry.Fits.byte {e : Entry} (h : e.Fits P) {x : Nat} (hx : e.Covers (x / 32)) :
    x < 2048 * P ∧ ¬ Admin x ∧ 416 ≤ x ∧ ¬ x % 2048 < 4 := by
  have h₁ := h.covers_lt hx
  have h₂ := h.covers_not_header hx
  unfold IsHeader at h₂
  unfold Admin
  omega

/-- Changing the records of free space, possibly with more pages: entries and links are
carried over. -/
theorem Rep.carry {P' : Nat} {reserved' : Nat → Prop} (r : Rep m P ch reserved)
    (layout : Layout P' ch reserved')
    (agree : ∀ x < 2048 * P, ¬ Admin x → ¬ reserved (x / 32) → m' x = m x)
    (tags : ∀ p < P', P ≤ p → tag m' p = 1234)
    (allo : ∀ p < P', allomap m' p = freeBlobs m' p)
    (beyond : ∀ p < 128, P' ≤ p → allomap m' p = 64)
    (bit : ∀ b < 64 * P', blobBit m' b = true ↔
      IsHeader b ∨ (∃ e, Live ch e ∧ e.Covers b) ∨ reserved' b) :
    Rep m' P' ch reserved' := by
  have hpos := r.pos
  have header : ∀ x < 2048 * P, ¬ Admin x → IsHeader (x / 32) → m' x = m x := fun x hx hadmin hhead =>
    agree x hx hadmin fun hres => (r.free _ hres).2.1 hhead
  have own : ∀ e, Live ch e → ∀ x, e.Covers (x / 32) → m' x = m x := fun e he x hx =>
    agree x ((r.fits e he).byte hx).1 ((r.fits e he).byte hx).2.1 fun hres =>
      (r.free _ hres).2.2 e he hx
  refine { layout with
    tags := fun p hp => ?_, allo := allo, beyond := beyond,
    linked := fun i hi => ?_, entry := fun e he => ?_, bit := bit }
  · by_cases hold : p < P
    · rw [tag_congr fun x h₁ h₂ =>
        header x (by omega) (by unfold Admin; omega) (by unfold IsHeader; omega)]
      exact r.tags p hold
    · exact tags p hp (by omega)
  · rw [hashTable_congr fun x h₁ h₂ =>
      header x (by omega) (by unfold Admin; omega) (by unfold IsHeader; omega)]
    refine (r.linked i hi).congr fun e he => ?_
    have cov := e.covers_self
    exact next_congr (own e ⟨i, hi, he⟩ _ (by rwa [show (32 * e.blob + 2) / 32 = e.blob by omega]))
      (own e ⟨i, hi, he⟩ _ (by rwa [show (32 * e.blob + 3) / 32 = e.blob by omega]))
  · exact (r.entry e he).congr fun x hx _ _ => own e he x hx

/-- Nothing outside the headers and the live entries is read. -/
theorem Rep.of_agree (r : Rep m P ch reserved) (agree : ∀ x, ¬ reserved (x / 32) → m' x = m x) :
    Rep m' P ch reserved := by
  have header : ∀ x, IsHeader (x / 32) → m' x = m x := fun x hx =>
    agree x fun hres => (r.free _ hres).2.1 hx
  have bits : ∀ b, blobBit m' b = blobBit m b := fun b =>
    blobBit_congr fun j hj => header _ (by unfold IsHeader; omega)
  refine r.carry r.toLayout (fun x _ _ => agree x) (fun p hp hle => by omega) (fun p hp => ?_)
    (fun p hp hle => ?_) (fun b hb => ?_)
  · have := r.le
    rw [allomap_congr (header _ (by unfold IsHeader; omega)), freeBlobs_congr fun k _ => bits _]
    exact r.allo p hp
  · rw [allomap_congr (header _ (by unfold IsHeader; omega))]
    exact r.beyond p hp hle
  · rw [bits]
    exact r.bit b hb

end Frames

end Coda.Dir
