import Coda.Dir.Invariant

/-!
Allocation of blobs: `dir_AddPage`, `dir_FindBlobs` and `dir_FreeBlobs`.

An allocation moves blobs from free to reserved, on a page added for it if need be. `Counts`
is the record the other functions do not look at: the free count in the page headers.
-/

namespace Coda.Dir

open Coda.Lib List

/-- The free count of every page header repeats the allocation map. -/
def Counts (m : Image) (P : Nat) : Prop := ∀ p < P, freecount m p = allomap m p

/-! ### Administrative fields -/

section Setters

variable (m : Image)

variable {v : Int} {p x : Nat}

theorem toInt_ofInt_char (h₁ : -128 ≤ v) (h₂ : v < 128) : (BitVec.ofInt 8 v).toInt = v := by
  rw [BitVec.toInt_ofInt]
  exact Int.bmod_eq_of_le (by omega) (by omega)

theorem allomap_setAllomap (p : Nat) (h₁ : -128 ≤ v) (h₂ : v < 128) :
    allomap (setAllomap m p v) p = v := by
  rw [allomap, setAllomap, Mem.store_singleton, toInt_ofInt_char h₁ h₂]

theorem freecount_setFreecount (p : Nat) (h₁ : -128 ≤ v) (h₂ : v < 128) :
    freecount (setFreecount m p v) p = v := by
  rw [freecount, setFreecount, Mem.store_singleton, toInt_ofInt_char h₁ h₂]

theorem setAllomap_outside (h : x ≠ 32 + p) : setAllomap m p v x = m x :=
  Mem.store_outside (by rw [length_singleton]; omega)

theorem setFreecount_outside (h : x ≠ 2048 * p + 4) : setFreecount m p v x = m x :=
  Mem.store_outside (by rw [length_singleton]; omega)

theorem setFreebitmap_outside {j : Nat} {v : BitVec 8} (h : x ≠ 2048 * p + 5 + j) :
    setFreebitmap m p j v x = m x :=
  Mem.store_outside (by rw [length_singleton]; omega)

theorem setFreebitmap_self (p j : Nat) (v : BitVec 8) :
    setFreebitmap m p j v (2048 * p + 5 + j) = v :=
  Mem.store_singleton _ _ _

theorem setTag_outside {v : Nat} (h : x < 2048 * p ∨ 2048 * p + 4 ≤ x) : setTag m p v x = m x :=
  Mem.store32_outside h

theorem tag_setTag (p : Nat) {v : Nat} (h : v < 4294967296) : tag (setTag m p v) p = v :=
  Mem.load32_store32 h

theorem freecount_congr {m m' : Image} (h : m' (2048 * p + 4) = m (2048 * p + 4)) :
    freecount m' p = freecount m p := by
  rw [freecount, freecount, h]

/-- `for (i = a; i < a + n; i++) ph->freebitmap[i] = v`. -/
theorem foldl_setFreebitmap_const (p a n : Nat) (v : BitVec 8) (x : Nat) :
    (List.range' a n).foldl (fun m i => setFreebitmap m p i v) m x =
      if 2048 * p + 5 + a ≤ x ∧ x < 2048 * p + 5 + a + n then v else m x :=
  Mem.foldl_store_singleton _ v m a n x

end Setters

/-! ### The number of pages -/

theorem length_filter_range_lt (n P : Nat) :
    ((List.range n).filter fun i => decide (i < P)).length = min n P := by
  induction n with
  | zero => rw [range_zero, filter_nil, length_nil, Nat.zero_min]
  | succ n ih =>
    rw [range_succ, filter_append, length_append]
    by_cases h : n < P
    · simp only [filter_cons, h, decide_true, if_true, filter_nil, length_singleton]
      omega
    · simp only [filter_cons, h, decide_false, Bool.false_eq_true, if_false, filter_nil,
        length_nil]
      omega

section Length

variable {m m' : Image} {P : Nat} {ch : Nat → List Entry} {reserved : Nat → Prop}

/-- Blob 0 of a page is never free. -/
theorem Rep.freeBlobs_le (r : Rep m P ch reserved) {p : Nat} (hp : p < P) : freeBlobs m p ≤ 63 := by
  have hzero : blobBit m (64 * p) = true :=
    (r.bit _ (by omega)).mpr (.inl (by unfold IsHeader; omega))
  have hsub : ((Finset.range 64).filter fun k => blobBit m (64 * p + k) = false) ⊆
      (Finset.range 64).erase 0 := by
    intro k hk
    rw [Finset.mem_filter] at hk
    refine Finset.mem_erase.mpr ⟨?_, hk.1⟩
    rintro rfl
    rw [add_zero, hzero] at hk
    cases hk.2
  exact (Finset.card_le_card hsub).trans (by simp)

theorem Rep.dirLength_eq (r : Rep m P ch reserved) : dirLength m = 2048 * P := by
  have hfilter : (List.range 128).filter (fun i => allomap m i ≠ 64) =
      (List.range 128).filter fun i => decide (i < P) := by
    refine filter_congr fun i hi => ?_
    rw [mem_range] at hi
    by_cases hP : i < P
    · have h₁ := r.allo i hP
      have h₂ := r.freeBlobs_le hP
      have h₃ : allomap m i ≠ 64 := by omega
      simp [hP, h₃]
    · simp [hP, r.beyond i hi (by omega)]
  have hle := r.le
  rw [dirLength, hfilter, length_filter_range_lt, min_eq_right hle, mul_comm]

end Length

/-! ### A new page -/

/-- The image after a page with nothing but its header was added behind `P` pages. -/
structure FreshPage (m m' : Image) (P : Nat) : Prop where
  low : ∀ x < 2048 * P, x ≠ 32 + P → m' x = m x
  allomap : allomap m' P = 63
  tag : tag m' P = 1234
  freecount : freecount m' P = 63
  bitmap : ∀ j < 8, m' (2048 * P + 5 + j) = if j = 0 then 1#8 else 0#8

section AddPage

variable {m m' : Image} {P : Nat} {ch : Nat → List Entry} {reserved : Nat → Prop}

theorem dirAddPage_fresh (hlen : dirLength m = 2048 * P) (hpos : 1 ≤ P) (hP : P < 128) :
    FreshPage m (setAllomap (dirAddPage m) P 63) P := by
  have hroom : ¬ (dirLength m + 2048) >>> 11 > 128 := by
    omega
  have hext : ∀ x < 2048 * P, dirExtend m x = m x := by
    intro x hx
    rw [dirExtend, Mem.fill, if_neg (by omega)]
  have hpage : dirLength (dirExtend m) >>> 11 = P := by
    have hsame : dirLength (dirExtend m) = dirLength m := by
      unfold dirLength
      congr 2
      refine filter_congr fun i hi => ?_
      rw [mem_range] at hi
      rw [allomap_congr (hext _ (by omega))]
    omega
  unfold dirAddPage
  rw [if_neg hroom]
  dsimp only
  rw [hpage]
  -- The image after each assignment, by what it changes.
  generalize hm₁ : setTag (setAllomap (dirExtend m) P 63) P 1234 = m₁
  generalize hm₂ : setFreecount m₁ P 63 = m₂
  generalize hm₃ : setFreebitmap m₂ P 0 1#8 = m₃
  generalize hm₄ : (List.range' 1 7).foldl (fun m i => setFreebitmap m P i 0#8) m₃ = m₄
  have h₁ : ∀ x < 2048 * P, x ≠ 32 + P → m₁ x = m x := by
    intro x hx hne
    rw [← hm₁, setTag_outside _ (by omega), setAllomap_outside _ hne, hext x hx]
  have h₂ : ∀ x, x ≠ 2048 * P + 4 → m₂ x = m₁ x := fun x hne => by
    rw [← hm₂, setFreecount_outside _ hne]
  have h₃ : ∀ x, x ≠ 2048 * P + 5 → m₃ x = m₂ x := fun x hne => by
    rw [← hm₃, setFreebitmap_outside _ hne]
  have h₄ : ∀ x, m₄ x = if 2048 * P + 5 + 1 ≤ x ∧ x < 2048 * P + 5 + 1 + 7 then 0#8 else m₃ x :=
    fun x => by rw [← hm₄, foldl_setFreebitmap_const]
  have h₅ : ∀ x, x ≠ 32 + P → setAllomap m₄ P 63 x = m₄ x := fun x => setAllomap_outside _
  refine ⟨fun x hx hne => ?_, allomap_setAllomap _ P (by omega) (by omega), ?_, ?_, fun j hj => ?_⟩
  · rw [h₅ x hne, h₄, if_neg (by omega), h₃ x (by omega), h₂ x (by omega), h₁ x hx hne]
  · have htag : tag m₁ P = 1234 := by rw [← hm₁, tag_setTag _ _ (by omega)]
    refine (tag_congr fun x hlo hhi => ?_).trans htag
    rw [h₅ x (by omega), h₄, if_neg (by omega), h₃ x (by omega), h₂ x (by omega)]
  · have hcount : freecount m₂ P = 63 := by
      rw [← hm₂, freecount_setFreecount _ _ (by omega) (by omega)]
    refine (freecount_congr ?_).trans hcount
    rw [h₅ _ (by omega), h₄, if_neg (by omega), h₃ _ (by omega)]
  · rw [h₅ _ (by omega), h₄]
    by_cases hj0 : j = 0
    · subst hj0
      rw [if_neg (by omega), ← hm₃]
      exact setFreebitmap_self _ _ _ _
    · rw [if_pos (by omega), if_neg hj0]

/-- Only the header blob of a fresh page is in use. -/
theorem FreshPage.blobBit_new (fresh : FreshPage m m' P) {k : Nat} (hk : k < 64) :
    blobBit m' (64 * P + k) = decide (k = 0) := by
  have hpage : (64 * P + k) / 64 = P := by omega
  have hk' : (64 * P + k) % 64 = k := by omega
  have hbit : (64 * P + k) % 8 = k % 8 := by omega
  rw [blobBit_eq, hpage, hk', hbit, fresh.bitmap _ (by omega)]
  by_cases h8 : k / 8 = 0
  · rw [if_pos h8]
    have hmod : k % 8 = 0 ↔ k = 0 := by omega
    simp [BitVec.getLsbD_one, hmod]
  · rw [if_neg h8, BitVec.getLsbD_zero, eq_comm, decide_eq_false_iff_not]
    omega

theorem FreshPage.freeBlobs_new (fresh : FreshPage m m' P) : freeBlobs m' P = 63 := by
  have hset : ((Finset.range 64).filter fun k => blobBit m' (64 * P + k) = false) =
      (Finset.range 64).erase 0 := by
    ext k
    rw [Finset.mem_filter, Finset.mem_erase, Finset.mem_range, and_comm]
    refine and_congr_left fun hk => ?_
    rw [fresh.blobBit_new hk, decide_eq_false_iff_not]
  rw [freeBlobs, hset]
  simp

theorem Layout.mono {P' : Nat} (l : Layout P ch reserved) (hP : P ≤ P') (hle : P' ≤ 128) :
    Layout P' ch reserved :=
  { l with
    pos := l.pos.trans hP
    le := hle
    fits := fun e he => (l.fits e he).mono hP
    free := fun b hb => ⟨(l.free b hb).1.trans_le (by omega), (l.free b hb).2⟩ }

theorem FreshPage.rep (fresh : FreshPage m m' P) (r : Rep m P ch reserved) (hP : P < 128) :
    Rep m' (P + 1) ch reserved := by
  have hpos := r.pos
  have oldBits : ∀ b < 64 * P, blobBit m' b = blobBit m b := fun b hb =>
    blobBit_congr fun j hj => fresh.low _ (by omega) (by omega)
  refine r.carry (r.toLayout.mono (by omega) (by omega)) (fun x hx hadmin _ => ?_)
    (fun p hp hle => ?_) (fun p hp => ?_) (fun p hp hle => ?_) (fun b hb => ?_)
  · exact fresh.low x hx (by unfold Admin at hadmin; omega)
  · obtain rfl : p = P := by omega
    exact fresh.tag
  · rcases Nat.lt_or_eq_of_le (Nat.le_of_lt_succ hp) with hlt | rfl
    · rw [allomap_congr (fresh.low _ (by omega) (by omega)),
        freeBlobs_congr fun k hk => oldBits _ (by omega)]
      exact r.allo p hlt
    · rw [fresh.allomap, fresh.freeBlobs_new]
      rfl
  · rw [allomap_congr (fresh.low _ (by omega) (by omega))]
    exact r.beyond p hp (by omega)
  · by_cases hold : b < 64 * P
    · rw [oldBits b hold]
      exact r.bit b hold
    · obtain ⟨k, rfl⟩ : ∃ k, b = 64 * P + k := ⟨b - 64 * P, by omega⟩
      rw [fresh.blobBit_new (by omega), decide_eq_true_iff]
      constructor
      · intro hk
        exact .inl (by unfold IsHeader; omega)
      · rintro (hhead | ⟨e, he, hcov⟩ | hres)
        · unfold IsHeader at hhead
          omega
        · have := (r.fits e he).covers_lt hcov
          omega
        · have := (r.free _ hres).1
          omega

end AddPage

/-! ### Taking and giving back blobs -/

section Blobs

variable {m m' : Image} {P : Nat} {ch : Nat → List Entry}

/-- The three assignments shared by allocation and release: the allocation map and the
free count of page `i` change by `d`, and its bitmap becomes that of `m₃`. -/
structure Adjusted (m m' : Image) (i : Nat) (d : Int) : Prop where
  frame : ∀ x, x ≠ 32 + i → (x < 2048 * i + 4 ∨ 2048 * i + 13 ≤ x) → m' x = m x
  allo : allomap m' i = allomap m i + d
  count : allomap m i = freecount m i → freecount m' i = allomap m i + d

variable {i j n : Nat} {d : Int}

theorem Adjusted.of_bits {f : Image → Image} {c : Nat → Prop} [DecidablePred c] {v : Bool}
    (hi : i < 128) (hlo : -128 ≤ allomap m i + d) (hhi : allomap m i + d < 128)
    (spec : ∀ m, (∀ x, (x < 2048 * i + 5 ∨ 2048 * i + 13 ≤ x) → f m x = m x) ∧
      ∀ b, blobBit (f m) b = if c b then v else blobBit m b)
    (heq : m' = f (setFreecount (setAllomap m i (allomap m i + d)) i
      (freecount (setAllomap m i (allomap m i + d)) i + d))) :
    Adjusted m m' i d ∧ ∀ b, blobBit m' b = if c b then v else blobBit m b := by
  subst heq
  generalize hm₁ : setAllomap m i (allomap m i + d) = m₁
  have h₁ : ∀ x, x ≠ 32 + i → m₁ x = m x := fun x hx => by rw [← hm₁, setAllomap_outside _ hx]
  have ha : allomap m₁ i = allomap m i + d := by rw [← hm₁, allomap_setAllomap _ _ hlo hhi]
  have hc : freecount m₁ i = freecount m i := freecount_congr (h₁ _ (by omega))
  generalize hm₂ : setFreecount m₁ i (freecount m₁ i + d) = m₂
  have h₂ : ∀ x, x ≠ 2048 * i + 4 → m₂ x = m₁ x := fun x hx => by
    rw [← hm₂, setFreecount_outside _ hx]
  obtain ⟨frame, bits⟩ := spec m₂
  refine ⟨⟨fun x hx hx' => ?_, ?_, fun heq => ?_⟩, fun b => ?_⟩
  · rw [frame x (by omega), h₂ x (by omega), h₁ x hx]
  · rw [← ha]
    refine allomap_congr ?_
    rw [frame _ (by omega), h₂ _ (by omega)]
  · have hcount : freecount m₂ i = freecount m₁ i + d := by
      rw [← hm₂, freecount_setFreecount] <;> omega
    rw [heq, ← hc, ← hcount]
    exact freecount_congr (frame _ (by omega))
  · have same : blobBit m₂ b = blobBit m b :=
      blobBit_congr fun k hk => by rw [h₂ _ (by omega), h₁ _ (by omega)]
    rw [bits, same]

/-- Other pages and the rest of the directory do not notice. -/
theorem Adjusted.counts (adj : Adjusted m m' i d) (hi : i < 128) (hP : P ≤ 128)
    (counts : Counts m P) : Counts m' P := by
  intro p hp
  by_cases hpi : p = i
  · subst hpi
    rw [adj.count (counts p hp).symm, adj.allo]
  · rw [freecount_congr (adj.frame _ (by omega) (by omega)),
      allomap_congr (adj.frame _ (by omega) (by omega))]
    exact counts p hp

/-- The counts are in the headers, outside the hash table. -/
theorem Counts.congr (counts : Counts m P) (hP : P ≤ 128)
    (frame : ∀ x, IsHeader (x / 32) → ¬ (160 ≤ x ∧ x < 416) → m' x = m x) : Counts m' P := by
  intro p hp
  rw [freecount_congr (frame _ (by unfold IsHeader; omega) (by omega)),
    allomap_congr (frame _ (by unfold IsHeader; omega) (by omega))]
  exact counts p hp

theorem Adjusted.admin (adj : Adjusted m m' i d) (hi : i < 128) {x : Nat} (hx : ¬ Admin x) :
    m' x = m x := by
  unfold Admin at hx
  exact adj.frame x (by omega) (by omega)

theorem Adjusted.allomap_other {p : Nat} (adj : Adjusted m m' i d) (hne : p ≠ i) (hp : p < 128) :
    allomap m' p = allomap m p :=
  allomap_congr (adj.frame _ (by omega) (by omega))

/-- Taking free blobs of a page turns them into reserved ones. -/
theorem take_rep (r : Rep m P ch noBlobs) (hi : i < P) (hfit : j + n ≤ 64)
    (free : ∀ b, Span (64 * i + j) n b → blobBit m b = false) (adj : Adjusted m m' i (-n))
    (bits : ∀ b, blobBit m' b = if 64 * i + j ≤ b ∧ b < 64 * i + j + n then true else blobBit m b) :
    Rep m' P ch (Span (64 * i + j) n) := by
  have hle := r.le
  have unused : ∀ b, Span (64 * i + j) n b → b < 64 * P ∧ ¬ IsHeader b ∧
      ∀ e, Live ch e → ¬ e.Covers b := by
    intro b hb
    have hlt : b < 64 * P := by unfold Span at hb; omega
    have hclear : ¬ (IsHeader b ∨ (∃ e, Live ch e ∧ e.Covers b) ∨ noBlobs b) := by
      rw [← r.bit b hlt, free b hb]
      exact Bool.false_ne_true
    exact ⟨hlt, fun h => hclear (.inl h), fun e he h => hclear (.inr (.inl ⟨e, he, h⟩))⟩
  refine r.carry { r.toLayout with free := unused } (fun x _ hx _ => adj.admin (by omega) hx)
    (fun p hp hge => by omega) (fun p hp => ?_) (fun p hp hge => ?_) (fun b hb => ?_)
  · by_cases hpi : p = i
    · subst hpi
      have hcard := freeBlobs_add hfit bits fun b h₁ h₂ => free b ⟨h₁, h₂⟩
      rw [adj.allo, r.allo p hp]
      omega
    · rw [adj.allomap_other hpi (by omega), freeBlobs_congr fun k hk => ?_]
      · exact r.allo p hp
      · rw [bits, if_neg (by omega)]
  · rw [adj.allomap_other (by omega) hp]
    exact r.beyond p hp hge
  · rw [bits]
    split_ifs with hspan
    · exact iff_of_true rfl (.inr (.inr hspan))
    · rw [r.bit b hb]
      refine or_congr_right (or_congr_right (iff_of_false id hspan))

/-- Giving reserved blobs back. -/
theorem give_rep (r : Rep m P ch (Span (64 * i + j) n)) (hi : i < P) (hfit : j + n ≤ 64)
    (adj : Adjusted m m' i n)
    (bits : ∀ b, blobBit m' b =
      if 64 * i + j ≤ b ∧ b < 64 * i + j + n then false else blobBit m b) :
    Rep m' P ch noBlobs := by
  have hle := r.le
  have used : ∀ b, Span (64 * i + j) n b → blobBit m b = true := fun b hb =>
    (r.bit b (r.free b hb).1).mpr (.inr (.inr hb))
  refine r.carry { r.toLayout with free := fun b hb => hb.elim }
    (fun x _ hx _ => adj.admin (by omega) hx)
    (fun p hp hge => by omega) (fun p hp => ?_) (fun p hp hge => ?_) (fun b hb => ?_)
  · by_cases hpi : p = i
    · subst hpi
      have hset : ∀ b, blobBit m b =
          if 64 * p + j ≤ b ∧ b < 64 * p + j + n then true else blobBit m' b := by
        intro b
        rw [bits]
        split_ifs with hspan
        · exact used b hspan
        · rfl
      have hcard := freeBlobs_add hfit hset fun b h₁ h₂ => by rw [bits, if_pos ⟨h₁, h₂⟩]
      rw [adj.allo, r.allo p hp]
      omega
    · rw [adj.allomap_other hpi (by omega), freeBlobs_congr fun k hk => ?_]
      · exact r.allo p hp
      · rw [bits, if_neg (by omega)]
  · rw [adj.allomap_other (by omega) hp]
    exact r.beyond p hp hge
  · rw [bits]
    split_ifs with hspan
    · have hfree := r.free b hspan
      refine iff_of_false not_false ?_
      rintro (h | ⟨e, he, h⟩ | h)
      · exact hfree.2.1 h
      · exact hfree.2.2 e he h
      · exact h
    · rw [r.bit b hb]
      refine or_congr_right (or_congr_right (iff_of_false hspan id))

theorem firstFit_some {page : Nat} (hn : n ≤ 64) (h : firstFit m page n = some j) :
    j + n ≤ 64 ∧ ∀ b, Span (64 * page + j) n b → blobBit m b = false := by
  have hmem := mem_of_find?_eq_some h
  have hall := List.find?_some h
  rw [mem_range] at hmem
  have hfit : j + n ≤ 64 := by omega
  refine ⟨hfit, fun b hb => ?_⟩
  unfold Span at hb
  rw [all_eq_true] at hall
  have hbit := hall (b - 64 * page - j) (mem_range.mpr (by omega))
  rw [bitSet_eq_blobBit (by omega), Bool.not_eq_true'] at hbit
  rwa [show 64 * page + (j + (b - 64 * page - j)) = b by omega] at hbit

/-- A fresh page has room for every entry. -/
theorem FreshPage.firstFit_ne_none (fresh : FreshPage m m' P) (hn : n ≤ 63) :
    firstFit m' P n ≠ none := by
  unfold firstFit
  intro h
  rw [List.find?_eq_none] at h
  refine h 1 (mem_range.mpr (by omega)) ?_
  rw [all_eq_true]
  intro k hk
  rw [mem_range] at hk
  rw [bitSet_eq_blobBit (by omega), fresh.blobBit_new (by omega), Bool.not_eq_true',
    decide_eq_false_iff_not]
  omega

/-- The outcome of an allocation of `n` blobs in a directory of `P` pages. -/
structure Allocated (m : Image) (P : Nat) (ch : Nat → List Entry) (n : Nat) (m' : Image)
    (P' b : Nat) : Prop where
  grown : P ≤ P'
  bound : P' ≤ P + 1
  page : b / 64 < P'
  inPage : b % 64 + n ≤ 64
  rep : Rep m' P' ch (Span b n)
  counts : Counts m P → Counts m' P'

/-- Taking the blobs that `firstFit` found. -/
theorem Rep.allocate (r : Rep m P ch noBlobs) (hi : i < P) (hpos : 1 ≤ n) (hn : n ≤ 64)
    (found : firstFit m i n = some j) :
    12 < j + 64 * i ∧
      Allocated m P ch n (setBits (setFreecount (setAllomap m i (allomap m i - n)) i
        (freecount (setAllomap m i (allomap m i - n)) i - n)) i j n) P (j + 64 * i) := by
  obtain ⟨hfit, free⟩ := firstFit_some hn found
  have hle := r.le
  have hallo := r.allo i hi
  have hmax := r.freeBlobs_le hi
  obtain ⟨adj, bits⟩ := Adjusted.of_bits (m := m) (d := -n)
    (by omega) (by omega) (by omega) (fun m => setBits_spec m i hfit) rfl
  have rep := take_rep r hi hfit free adj bits
  have hhead := (rep.free (64 * i + j) ⟨le_refl _, by omega⟩).2.1
  unfold IsHeader at hhead
  rw [add_comm j]
  exact ⟨by omega, le_refl _, Nat.le_succ _, by omega, by omega, rep, adj.counts (by omega) hle⟩

/-- The page loop from page `i` on: all pages before it are allocated. -/
theorem findBlobsLoop_spec (r : Rep m P ch noBlobs) (hpos : 1 ≤ n) (hn : n ≤ 9) (k i : Nat)
    (hk : i + k = 128) (hi : i ≤ P) :
    (findBlobsLoop n (List.range' i k) m = some (none, m) ∧ P = 128) ∨
    ∃ b m' P', findBlobsLoop n (List.range' i k) m = some (some b, m') ∧
      Allocated m P ch n m' P' b := by
  have hle := r.le
  have hP := r.pos
  induction k generalizing i with
  | zero => exact .inl ⟨rfl, by omega⟩
  | succ k ih =>
    rw [range'_succ, findBlobsLoop]
    by_cases halloc : i < P
    · -- an allocated page
      have hallo := r.allo i halloc
      have hmax := r.freeBlobs_le halloc
      by_cases hroom : allomap m i < n
      · rw [if_pos hroom]
        exact ih (i + 1) (by omega) (by omega)
      · rw [if_neg hroom]
        have hne : allomap m i ≠ 64 := by omega
        simp only [hne, if_false]
        cases hfit : firstFit m i n with
        | none => exact ih (i + 1) (by omega) (by omega)
        | some j =>
          obtain ⟨hdhe, alloc⟩ := r.allocate halloc hpos (by omega) hfit
          exact .inr ⟨_, _, _, by simp only [if_pos hdhe], alloc⟩
    · -- the first page that is not allocated yet
      obtain rfl : i = P := by omega
      have h64 : allomap m i = 64 := r.beyond i (by omega) (le_refl _)
      have fresh := dirAddPage_fresh r.dirLength_eq hP (by omega)
      have r' := fresh.rep r (by omega)
      simp only [h64, if_true]
      rw [if_neg (by omega)]
      cases hfit : firstFit (setAllomap (dirAddPage m) i 63) i n with
      | none => exact absurd hfit (fresh.firstFit_ne_none (by omega))
      | some j =>
        obtain ⟨hdhe, alloc⟩ := r'.allocate (by omega) hpos (by omega) hfit
        refine .inr ⟨_, _, _, by simp only [if_pos hdhe],
          ⟨by omega, le_refl _, alloc.page, alloc.inPage, alloc.rep,
            fun counts => alloc.counts ?_⟩⟩
        intro p hp
        rcases Nat.lt_or_eq_of_le (Nat.le_of_lt_succ hp) with hlt | rfl
        · rw [freecount_congr (fresh.low _ (by omega) (by omega)),
            allomap_congr (fresh.low _ (by omega) (by omega))]
          exact counts p hlt
        · rw [fresh.freecount, fresh.allomap]

/-- `dir_FindBlobs` reserves blobs, or the directory has all its pages and stays as it is. -/
theorem dirFindBlobs_spec (r : Rep m P ch noBlobs) (hpos : 1 ≤ n) (hn : n ≤ 9) :
    (dirFindBlobs m n = some (none, m) ∧ P = 128) ∨
    ∃ b m' P', dirFindBlobs m n = some (some b, m') ∧ Allocated m P ch n m' P' b := by
  rw [dirFindBlobs, if_neg (by omega)]
  exact findBlobsLoop_spec r hpos hn 128 0 rfl (Nat.zero_le _)

/-- `dir_FreeBlobs` gives the reserved blobs back. -/
theorem dirFreeBlobs_spec {b : Nat} (r : Rep m P ch (Span b n)) (hpage : b / 64 < P)
    (hfit : b % 64 + n ≤ 64) :
    ∃ m', dirFreeBlobs m b n = some m' ∧ Rep m' P ch noBlobs ∧ (Counts m P → Counts m' P) := by
  have hle := r.le
  have hpg : b >>> 6 = b / 64 := Nat.shiftRight_eq_div_pow b 6
  have hoff : b - 64 * (b / 64) = b % 64 := by omega
  have hb : 64 * (b / 64) + b % 64 = b := by omega
  unfold dirFreeBlobs
  simp only [hpg, hoff]
  rw [if_neg (by omega)]
  refine ⟨_, rfl, ?_⟩
  have hallo := r.allo _ hpage
  have hmax := r.freeBlobs_le hpage
  obtain ⟨adj, bits⟩ := Adjusted.of_bits (m := m)
    (d := n) (by omega) (by omega) (by omega) (fun m => clearBits_spec m (b / 64) hfit) rfl
  rw [← hb] at r
  exact ⟨give_rep r hpage hfit adj bits, adj.counts (by omega) hle⟩

end Blobs

end Coda.Dir
