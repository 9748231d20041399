import Coda.Dir.Alloc

/-!
The directory checker `DIR_DirOK`.

`dirDirOK_eq_true_iff` says exactly which images it accepts (`Accepted`): the counts of
the allocation map on the pages after the first, the entries found on the chains, and
bitmaps that hold the header blobs and the blobs of these entries.
-/

namespace Coda.Dir

open Coda.Lib List Function

/-! ### Free counts -/

/-- The eight mask tests on a bitmap byte. -/
theorem length_filter_masks (c : BitVec 8) :
    ([0x80#8, 0x40#8, 0x20#8, 0x10#8, 0x08#8, 0x04#8, 0x02#8, 0x01#8].filter fun mask =>
      c &&& mask ≠ 0#8).length = ∑ t ∈ Finset.range 8, if c.getLsbD t = true then 1 else 0 := by
  have hmasks : [0x80#8, 0x40#8, 0x20#8, 0x10#8, 0x08#8, 0x04#8, 0x02#8, 0x01#8] =
      (List.range 8).reverse.map (BitVec.twoPow 8) := by decide
  have hbit : ∀ j ∈ List.range 8, decide (c &&& BitVec.twoPow 8 j ≠ 0#8) = c.getLsbD j := by
    intro j hj
    rw [Bool.eq_iff_iff, decide_eq_true_iff]
    exact and_twoPow_ne_zero (mem_range.mp hj)
  rw [hmasks, filter_map, length_map, filter_reverse, length_reverse,
    ← length_filter_range]
  exact congrArg List.length (filter_congr hbit)

theorem fcount_eq (m : Image) (p : Nat) : fcount m p = freeBlobs m p := by
  have hset : ((List.range 8).map fun j =>
      ([0x80#8, 0x40#8, 0x20#8, 0x10#8, 0x08#8, 0x04#8, 0x02#8, 0x01#8].filter fun mask =>
        freebitmap m p j &&& mask ≠ 0#8).length).sum =
      ((Finset.range 64).filter fun k => blobBit m (64 * p + k) = true).card := by
    rw [Finset.card_filter, show 64 = 8 * 8 from rfl, sum_range_mul, sum_map_range]
    refine Finset.sum_congr rfl fun j hj => ?_
    rw [length_filter_masks]
    refine Finset.sum_congr rfl fun t ht => ?_
    rw [Finset.mem_range] at hj ht
    rw [← bitSet_eq_blobBit (by omega), bitSet_eq, show (8 * j + t) / 8 = j by omega,
      show (8 * j + t) % 8 = t by omega]
    rfl
  have htotal := @Finset.card_filter_add_card_filter_not _ (Finset.range 64)
    (fun k => blobBit m (64 * p + k) = true) _ _
  simp only [Bool.not_eq_true, Finset.card_range] at htotal
  rw [fcount, freeBlobs]
  omega

/-! ### The entry allocation map -/

/-- The bit of a blob in the entry allocation map. -/
def eaBit (eaMap : Nat → BitVec 8) (b : Nat) : Bool := (eaMap (b / 8)).getLsbD (b % 8)

/-- The blobs of the entry at blob `x`, by the length of its name. -/
def blobsAt (m : Image) (x : Nat) : Nat := dirNameBlobs (nameLength m x)

theorem eaBit_markEntry (eaMap : Nat → BitVec 8) (entryno k b : Nat) :
    eaBit (markEntry eaMap entryno k) b = true ↔ eaBit eaMap b = true ∨ Span entryno k b := by
  induction k with
  | zero =>
    exact (or_iff_left fun h => by unfold Span at h; omega).symm
  | succ k ih =>
    have hand : (entryno + k) &&& 7 = (entryno + k) % 8 := Nat.and_two_pow_sub_one_eq_mod _ 3
    have hstep : markEntry eaMap entryno (k + 1) =
        Function.update (markEntry eaMap entryno k) ((entryno + k) / 8)
          (markEntry eaMap entryno k ((entryno + k) / 8) |||
            BitVec.twoPow 8 ((entryno + k) % 8)) := by
      rw [markEntry, range_succ, foldl_append, foldl_cons, foldl_nil, hand,
        Nat.shiftRight_eq_div_pow]
      rfl
    have hspan : Span entryno (k + 1) b ↔ Span entryno k b ∨ b = entryno + k := by
      unfold Span
      omega
    rw [hspan, ← or_assoc, ← ih, hstep]
    unfold eaBit
    by_cases hbyte : b / 8 = (entryno + k) / 8
    · rw [hbyte, update_self, getLsbD_or_twoPow (Nat.mod_lt _ (by omega))]
      split_ifs with hbit
      · exact iff_of_true rfl (.inr (by omega))
      · exact (or_iff_left fun h => hbit (by omega)).symm
    · rw [update_of_ne hbyte]
      exact (or_iff_left fun h => hbyte (by omega)).symm

theorem eaBit_foldl (m : Image) (l : List Nat) (eaMap : Nat → BitVec 8) (b : Nat) :
    eaBit (l.foldl (fun ea x => markEntry ea x (blobsAt m x)) eaMap) b = true ↔
      eaBit eaMap b = true ∨ ∃ x ∈ l, Span x (blobsAt m x) b := by
  induction l generalizing eaMap with
  | nil => simp
  | cons x l ih =>
    rw [foldl_cons, ih, eaBit_markEntry, or_assoc]
    simp only [mem_cons, exists_eq_or_imp]

/-- Before the chains are walked the map holds the header blobs. -/
theorem eaBit_eaMapInit {pages b : Nat} (h : b < 64 * pages) :
    eaBit (eaMapInit pages) b = true ↔ IsHeader b := by
  have hff : ∀ t < 8, (0xff#8).getLsbD t = true := by decide
  have h1f : ∀ t < 8, ((0x1f#8).getLsbD t = true ↔ t < 5) := by decide
  have h01 : ∀ t < 8, ((0x01#8).getLsbD t = true ↔ t = 0) := by decide
  have hmod : b % 8 < 8 := Nat.mod_lt _ (by omega)
  unfold eaBit eaMapInit IsHeader
  split_ifs with h₀ h₁ h₂
  · exact iff_of_true (hff _ hmod) (by omega)
  · rw [h1f _ hmod]
    omega
  · rw [h01 _ hmod]
    omega
  · refine iff_of_false (by simp) ?_
    omega

theorem mapsAgree_iff (m : Image) (pages : Nat) (eaMap : Nat → BitVec 8) :
    mapsAgree m pages eaMap = true ↔ ∀ b < 64 * pages, blobBit m b = eaBit eaMap b := by
  rw [mapsAgree, decide_eq_true_iff]
  have haddr : ∀ b, b / 8 = 8 * (b / 64) + b % 64 / 8 := fun b => by omega
  constructor
  · intro h b hb
    rw [blobBit_eq, eaBit, haddr b, h (b / 64) (by omega) (b % 64 / 8) (by omega)]
    rfl
  · intro h i hi j hj
    refine BitVec.eq_of_getLsbD_eq fun t ht => ?_
    have hb := h (64 * i + 8 * j + t) (by omega)
    rw [blobBit_eq, eaBit] at hb
    rw [show (64 * i + 8 * j + t) / 64 = i by omega, show (64 * i + 8 * j + t) % 64 / 8 = j by omega,
      show (64 * i + 8 * j + t) / 8 = 8 * i + j by omega,
      show (64 * i + 8 * j + t) % 8 = t by omega] at hb
    exact hb.symm

/-! ### Walking the chains -/

/-- The blob numbers `l` are linked from `h` on. -/
def LinkedBlobs (m : Image) : Nat → List Nat → Prop
  | h, [] => h = 0
  | h, b :: l => h = b ∧ b ≠ 0 ∧ LinkedBlobs m (next m b) l

/-- `l` is what a complete walk of chain `i` sees, and every entry passes its checks. -/
structure Walked (m : Image) (pages i : Nat) (l : List Nat) : Prop where
  finite : l.length < 65536
  linked : LinkedBlobs m (hashTable m i) l
  checked : ∀ b ∈ l, entryOK m pages i b = true

theorem okLoop_eq_some_iff (m : Image) (pages i k h : Nat) (ea ea' : Nat → BitVec 8) :
    okLoop m pages i k h ea = some (some ea') ↔
      ∃ l, l.length < k ∧ LinkedBlobs m h l ∧ (∀ b ∈ l, entryOK m pages i b = true) ∧
        l.foldl (fun ea x => markEntry ea x (blobsAt m x)) ea = ea' := by
  induction k generalizing h ea with
  | zero => simp [okLoop]
  | succ k ih =>
    rw [okLoop]
    by_cases hzero : h = 0
    · rw [if_pos hzero]
      constructor
      · intro heq
        exact ⟨[], Nat.succ_pos k, hzero, by simp, Option.some.inj (Option.some.inj heq)⟩
      · rintro ⟨l, -, linked, -, hea⟩
        cases l with
        | nil => rw [← hea]; rfl
        | cons b l => exact absurd (linked.1.symm.trans hzero) linked.2.1
    · rw [if_neg hzero]
      by_cases hok : entryOK m pages i h = true
      · rw [if_pos hok, ih]
        constructor
        · rintro ⟨l, hlen, linked, checked, hea⟩
          exact ⟨h :: l, Nat.succ_lt_succ hlen, ⟨rfl, hzero, linked⟩,
            forall_mem_cons.mpr ⟨hok, checked⟩, hea⟩
        · rintro ⟨l, hlen, linked, checked, hea⟩
          cases l with
          | nil => exact absurd linked hzero
          | cons b l =>
            obtain rfl := linked.1
            exact ⟨l, Nat.lt_of_succ_lt_succ hlen, linked.2.2,
              (forall_mem_cons.mp checked).2, hea⟩
      · rw [if_neg hok]
        refine iff_of_false (by simp) ?_
        rintro ⟨l, hlen, linked, checked, hea⟩
        cases l with
        | nil => exact hzero linked
        | cons b l =>
          obtain rfl := linked.1
          exact hok (forall_mem_cons.mp checked).1

theorem okChains_eq_some_iff (m : Image) (pages : Nat) (chains : List Nat) (nodup : chains.Nodup)
    (ea ea' : Nat → BitVec 8) :
    okChains 65536 m pages chains ea = some (some ea') ↔
      ∃ ch : Nat → List Nat, (∀ i ∈ chains, Walked m pages i (ch i)) ∧
        (chains.flatMap ch).foldl (fun ea x => markEntry ea x (blobsAt m x)) ea = ea' := by
  induction chains generalizing ea with
  | nil => simp [okChains]
  | cons i rest ih =>
    rw [nodup_cons] at nodup
    rw [okChains]
    constructor
    · intro run
      obtain ⟨r, run₁, run₂⟩ := Option.bind_eq_some_iff.mp run
      cases r with
      | none => simp at run₂
      | some ea₁ =>
        obtain ⟨l, hlen, linked, checked, rfl⟩ := (okLoop_eq_some_iff ..).mp run₁
        obtain ⟨ch, walked, hea⟩ := (ih nodup.2 _).mp run₂
        have hrest : ∀ j ∈ rest, Function.update ch i l j = ch j := by
          intro j hj
          refine update_of_ne ?_ _ _
          rintro rfl
          exact nodup.1 hj
        refine ⟨Function.update ch i l, forall_mem_cons.mpr ⟨?_, fun j hj => ?_⟩, ?_⟩
        · rw [update_self]
          exact ⟨hlen, linked, checked⟩
        · rw [hrest j hj]
          exact walked j hj
        · rw [flatMap_cons, update_self, foldl_append,
            flatMap_congr hrest]
          exact hea
    · rintro ⟨ch, walked, hea⟩
      obtain ⟨w, ws⟩ := forall_mem_cons.mp walked
      rw [flatMap_cons, foldl_append] at hea
      have run₁ := (okLoop_eq_some_iff m pages i 65536 (hashTable m i) ea _).mpr
        ⟨ch i, w.finite, w.linked, w.checked, rfl⟩
      rw [run₁]
      exact (ih nodup.2 _).mpr ⟨ch, ws, hea⟩

/-! ### What is accepted -/

/-- What `DIR_DirOK` establishes about an image whose chains are `ch`. Page 0's entry of
the allocation map is only checked to be in range. -/
structure Accepted (m : Image) (ch : Nat → List Nat) : Prop where
  tag_zero : tag m 0 = 1234
  allo_zero : 0 ≤ allomap m 0 ∧ allomap m 0 ≤ 51
  allo_range : ∀ i < dirLength m / 2048, 1 ≤ i → 0 ≤ allomap m i ∧ allomap m i ≤ 63
  beyond : ∀ i < 128, dirLength m / 2048 ≤ i → allomap m i = 64
  tags : ∀ i < dirLength m / 2048, 1 ≤ i → tag m i = 1234
  allo : ∀ i < dirLength m / 2048, 1 ≤ i → allomap m i = freeBlobs m i
  walked : ∀ i < 128, Walked m (dirLength m / 2048) i (ch i)
  bit : ∀ b < 64 * (dirLength m / 2048), blobBit m b = true ↔
    IsHeader b ∨ ∃ i < 128, ∃ x ∈ ch i, Span x (blobsAt m x) b

/-- The final comparison, in terms of the blobs on the chains. -/
theorem mapsAgree_foldl_iff (m : Image) (pages : Nat) (ch : Nat → List Nat) :
    mapsAgree m pages (((List.range 128).flatMap ch).foldl
        (fun ea x => markEntry ea x (blobsAt m x)) (eaMapInit pages)) = true ↔
      ∀ b < 64 * pages, blobBit m b = true ↔
        IsHeader b ∨ ∃ i < 128, ∃ x ∈ ch i, Span x (blobsAt m x) b := by
  rw [mapsAgree_iff]
  refine forall_congr' fun b => forall_congr' fun hb => ?_
  rw [Bool.eq_iff_iff, eaBit_foldl, eaBit_eaMapInit hb]
  simp only [mem_flatMap, mem_range]
  refine iff_congr .rfl (or_congr_right ?_)
  constructor
  · rintro ⟨x, ⟨i, hi, hx⟩, hspan⟩
    exact ⟨i, hi, x, hx, hspan⟩
  · rintro ⟨i, hi, x, hx, hspan⟩
    exact ⟨x, ⟨i, hi, hx⟩, hspan⟩

theorem dirDirOK_eq_true_iff (m : Image) : dirDirOK m = some true ↔ ∃ ch, Accepted m ch := by
  have hchains := okChains_eq_some_iff m (dirLength m / 2048) (List.range 128) nodup_range
    (eaMapInit (dirLength m / 2048))
  unfold dirDirOK dirDirOKWithin
  constructor
  · intro run
    dsimp only at run
    split_ifs at run with h₁ h₂ h₃ h₄ h₅ h₆
    -- only where all checks of the header are passed
    any_goals cases run
    obtain ⟨r, run₁, run₂⟩ := Option.bind_eq_some_iff.mp run
    cases r with
    | none => simp at run₂
    | some ea =>
      obtain ⟨ch, walked, rfl⟩ := (hchains ea).mp run₁
      have hbits := Option.some.inj run₂
      rw [mapsAgree_foldl_iff] at hbits
      simp only [fcount_eq] at h₆
      exact ⟨ch, not_not.mp h₁, by omega, h₃, h₄, h₅, fun i hi hle => (h₆ i hi hle).symm,
        fun i hi => walked i (mem_range.mpr hi), hbits⟩
  · rintro ⟨ch, acc⟩
    have hcounts : ∀ i < dirLength m / 2048, 1 ≤ i → fcount m i = allomap m i := fun i hi hle => by
      rw [fcount_eq, acc.allo i hi hle]
    have h₀ := acc.allo_zero
    rw [if_neg (not_not.mpr acc.tag_zero), if_neg (by omega), if_neg (not_not.mpr acc.allo_range),
      if_neg (not_not.mpr acc.beyond), if_neg (not_not.mpr acc.tags), if_neg (not_not.mpr hcounts)]
    have run := (hchains _).mpr ⟨ch, fun i hi => acc.walked i (mem_range.mp hi), rfl⟩
    rw [run]
    exact congrArg some ((mapsAgree_foldl_iff m _ ch).mpr acc.bit)

/-! ### Directories that satisfy the invariant are accepted -/

section Complete

variable {m : Image} {P : Nat} {ch : Nat → List Entry} {reserved : Nat → Prop}

theorem Linked.blobs {h : Nat} {l : List Entry} (pos : ∀ e ∈ l, e.blob ≠ 0)
    (linked : Linked m h l) : LinkedBlobs m h (l.map Entry.blob) := by
  induction l generalizing h with
  | nil => exact linked
  | cons e l ih =>
    obtain ⟨hpos, pos⟩ := forall_mem_cons.mp pos
    exact ⟨linked.1, hpos, ih pos linked.2⟩

/-- The bytes read as a name are the entry's name. -/
theorem EntryAt.nameAt_eq {e : Entry} (at_ : EntryAt m e) (h : e.Fits P) :
    nameAt m e.blob = e.name.bytes := by
  have hlen := at_.nameLength_eq h
  have hlt : m.strlen 262144 (nameAddr e.blob) < 262144 := by
    have := h.name_le
    change nameLength m e.blob < 262144
    omega
  obtain ⟨cstr, nonul⟩ := Mem.cstr_of_strlen_lt hlt
  exact cstr.unique at_.name nonul e.name.nonul

theorem Rep.pages_eq (r : Rep m P ch reserved) : dirLength m / 2048 = P := by
  rw [r.dirLength_eq, Nat.mul_div_cancel_left _ (by omega)]

/-- A chain has no more entries than there are blobs. -/
theorem Rep.length_chain (r : Rep m P ch reserved) {i : Nat} (hi : i < 128) :
    (ch i).length ≤ 8192 := by
  have hle := r.le
  have nodup : ((ch i).map Entry.blob).Nodup := by
    refine (nodup_map_iff_inj_on (r.nodup i hi)).mpr fun e he e' he' hblob => ?_
    exact r.apart e e' ⟨i, hi, he⟩ ⟨i, hi, he'⟩ e.blob e.covers_self (hblob ▸ e'.covers_self)
  have hsub : (ch i).map Entry.blob ⊆ List.range 8192 := by
    intro b hb
    obtain ⟨e, he, rfl⟩ := mem_map.mp hb
    have := (r.fits e ⟨i, hi, he⟩).page
    exact mem_range.mpr (by omega)
  have := (nodup.subperm hsub).length_le
  rwa [length_map, length_range] at this

theorem Rep.walked (r : Rep m P ch reserved) {i : Nat} (hi : i < 128) :
    Walked m P i ((ch i).map Entry.blob) := by
  have hle := r.le
  refine ⟨?_, (r.linked i hi).blobs fun e he => ?_, fun b hb => ?_⟩
  · have := r.length_chain hi
    rw [length_map]
    omega
  · have := (r.fits e ⟨i, hi, he⟩).offDirHeader
    omega
  · obtain ⟨e, he, rfl⟩ := mem_map.mp hb
    have fits := r.fits e ⟨i, hi, he⟩
    have at_ := r.entry e ⟨i, hi, he⟩
    have h₁ := fits.page
    have h₂ := fits.offDirHeader
    have h₃ := fits.name_le
    have h₄ := fits.name_pos
    have hblob : dirGetBlob e.blob = true := by
      rw [dirGetBlob, decide_eq_true_iff]
      omega
    have hhash : dirHash (nameAt m e.blob) = i := by
      rw [at_.nameAt_eq fits]
      exact r.hash i hi e he
    rw [entryOK, decide_eq_true_iff, at_.nameLength_eq fits]
    exact ⟨by omega, hblob, at_.flag, h₃, by omega, hhash⟩

/-- `DIR_DirOK` accepts every directory that satisfies the invariant. -/
theorem Rep.dirDirOK_eq (r : Rep m P ch noBlobs) : dirDirOK m = some true := by
  have hpos := r.pos
  have hpages := r.pages_eq
  refine (dirDirOK_eq_true_iff m).mpr ⟨fun i => (ch i).map Entry.blob, ?_⟩
  refine ⟨r.tags 0 hpos, ?_, ?_, ?_, ?_, ?_, ?_, ?_⟩
  · -- the 13 header blobs of page 0 are in use
    have hsub : ((Finset.range 64).filter fun k => blobBit m (64 * 0 + k) = false) ⊆
        Finset.Ico 13 64 := by
      intro k hk
      rw [Finset.mem_filter, Finset.mem_range] at hk
      refine Finset.mem_Ico.mpr ⟨?_, hk.1⟩
      by_contra hlt
      have := (r.bit (64 * 0 + k) (by omega)).mpr (.inl (by unfold IsHeader; omega))
      rw [hk.2] at this
      cases this
    have hcard := Finset.card_le_card hsub
    rw [Nat.card_Ico] at hcard
    rw [r.allo 0 hpos, freeBlobs]
    omega
  · intro i hi _
    rw [hpages] at hi
    have := r.freeBlobs_le hi
    rw [r.allo i hi]
    omega
  · rw [hpages]
    exact fun i hi hge => r.beyond i hi hge
  · rw [hpages]
    exact fun i hi _ => r.tags i hi
  · rw [hpages]
    exact fun i hi _ => r.allo i hi
  · rw [hpages]
    exact fun i hi => r.walked hi
  · rw [hpages]
    intro b hb
    rw [r.bit b hb]
    refine or_congr_right ?_
    constructor
    · rintro (⟨e, ⟨i, hi, he⟩, hcov⟩ | hres)
      · refine ⟨i, hi, e.blob, mem_map_of_mem he, ?_⟩
        rw [blobsAt, (r.entry e ⟨i, hi, he⟩).nameLength_eq (r.fits e ⟨i, hi, he⟩)]
        exact hcov
      · exact hres.elim
    · rintro ⟨i, hi, x, hx, hspan⟩
      obtain ⟨e, he, rfl⟩ := mem_map.mp hx
      rw [blobsAt, (r.entry e ⟨i, hi, he⟩).nameLength_eq (r.fits e ⟨i, hi, he⟩)] at hspan
      exact .inl ⟨e, ⟨i, hi, he⟩, hspan⟩

end Complete

end Coda.Dir
