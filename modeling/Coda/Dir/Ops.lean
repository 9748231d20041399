import Coda.Dir.Chains

/-!
One specification for each of `DIR_Create`, `DIR_Delete` and `DIR_MakeDir`: on a directory
that satisfies the invariant they return, and the directory they leave satisfies it again.
-/

namespace Coda.Dir

open Coda.Lib Option

/-! ### Create -/

section Create

variable {m : Image} {P : Nat} {ch : Nat → List Entry}

/-- The ways `DIR_Create` can end. -/
inductive Create (m : Image) (P : Nat) (ch : Nat → List Entry) (name : CString) (fid : DirFid) :
    Code → Image → Prop where
  | tooLong : 255 < name.bytes.length → Create m P ch name fid .enametoolong m
  | empty : name.bytes.length = 0 → Create m P ch name fid .einval m
  | exists (e : Entry) : 1 ≤ name.bytes.length → name.bytes.length ≤ 255 → Live ch e →
      e.name = name → Create m P ch name fid .eexist m
  | full : 1 ≤ name.bytes.length → name.bytes.length ≤ 255 → (∀ e, Live ch e → e.name ≠ name) →
      P = 128 → Create m P ch name fid .efbig m
  | ok (blob P' : Nat) (m' : Image) : 1 ≤ name.bytes.length → name.bytes.length ≤ 255 →
      (∀ e, Live ch e → e.name ≠ name) → P' ≤ P + 1 →
      Rep m' P' (pushEntry ch ⟨blob, name, fid⟩) noBlobs → (Counts m P → Counts m' P') →
      Create m P ch name fid .ok m'

/-- The name is on no chain exactly when its own chain does not have it. -/
theorem Layout.absent_iff {reserved : Nat → Prop} (l : Layout P ch reserved) (name : CString) :
    (∀ e, Live ch e → e.name ≠ name) ↔ ∀ e ∈ ch (dirHash name.bytes), e.name ≠ name := by
  constructor
  · exact fun h e he => h e ⟨_, dirHash_lt _, he⟩
  · rintro h e ⟨i, hi, he⟩ rfl
    obtain rfl := l.hash i hi e he
    exact h e he rfl

/-- Blobs reserved for a name make an entry that fits. -/
theorem Allocated.fits {name : CString} {m' : Image} {P' b : Nat} (fid : DirFid)
    (hpos : 1 ≤ name.bytes.length) (hle : name.bytes.length ≤ 255)
    (alloc : Allocated m P ch (dirNameBlobs name.bytes.length) m' P' b) :
    Entry.Fits P' ⟨b, name, fid⟩ := by
  have hblobs := dirNameBlobs_pos name.bytes.length
  have hfree := (alloc.rep.free b ⟨le_refl _, by omega⟩).2.1
  unfold IsHeader at hfree
  refine ⟨hpos, hle, alloc.page, alloc.inPage, ?_, ?_⟩ <;> (dsimp only; omega)

theorem Rep.dirCreate_spec (r : Rep m P ch noBlobs) (name : CString) (fid : DirFid) :
    ∃ code m', dirCreate m name fid = some (code, m') ∧ Create m P ch name fid code m' := by
  unfold dirCreate
  by_cases hlong : name.bytes.length > 255
  · exact ⟨_, _, if_pos hlong, .tooLong hlong⟩
  by_cases hempty : name.bytes.length = 0
  · exact ⟨_, _, (if_neg hlong).trans (if_pos hempty), .empty hempty⟩
  have hpos : 1 ≤ name.bytes.length := by omega
  have hle : name.bytes.length ≤ 255 := by omega
  rw [if_neg hlong, if_neg hempty, r.dirFindItem_eq]
  cases hfind : locate name none (ch (dirHash name.bytes)) with
  | some found =>
    obtain ⟨l₁, e, l₂, hch, hname, -, -⟩ := locate_eq_some hfind
    subst hname
    exact ⟨_, _, rfl, .exists e hpos hle (live_of_chain hch) rfl⟩
  | none =>
    have absent := (r.toLayout.absent_iff name).mpr ((locate_eq_none_iff ..).mp hfind)
    simp only [bind_eq_bind]
    rcases dirFindBlobs_spec r (dirNameBlobs_pos _) (dirNameBlobs_le hle) with
      ⟨hfull, hP⟩ | ⟨b, m₁, P', hfound, alloc⟩
    · rw [hfull]
      exact ⟨_, _, rfl, .full hpos hle absent hP⟩
    · have fits := alloc.fits fid hpos hle
      have rep : Rep (threadEntry m₁ b name fid) P' (pushEntry ch ⟨b, name, fid⟩) noBlobs :=
        @Rep.thread m₁ P' ch ⟨b, name, fid⟩ alloc.rep fits absent
      have counts : Counts m P → Counts (threadEntry m₁ b name fid) P' := fun h =>
        @Rep.thread_counts m₁ P' ch ⟨b, name, fid⟩ alloc.rep (alloc.counts h)
      have hvalid : dirGetBlob b = true := by
        have h₁ := fits.page
        have h₂ := fits.offDirHeader
        have h₃ := alloc.rep.le
        rw [dirGetBlob, decide_eq_true_iff]
        dsimp only at h₁ h₂
        omega
      rw [hfound]
      simp only [bind_some, hvalid, rep.dirDirOK_eq]
      exact ⟨_, _, rfl, .ok b P' _ hpos hle absent alloc.bound rep counts⟩

end Create

/-! ### Delete -/

section Delete

variable {m : Image} {P : Nat} {ch : Nat → List Entry}

/-- The ways `DIR_Delete` can end. -/
inductive Delete (m : Image) (P : Nat) (ch : Nat → List Entry) (name : CString) :
    Code → Image → Prop where
  | absent : (∀ e, Live ch e → e.name ≠ name) → Delete m P ch name .enoent m
  | ok (e : Entry) (ch' : Nat → List Entry) (m' : Image) : Live ch e → e.name = name →
      (∀ x, Live ch' x ↔ Live ch x ∧ x ≠ e) → Rep m' P ch' noBlobs →
      (Counts m P → Counts m' P) → Delete m P ch name .ok m'

theorem Rep.unlink_counts (r : Rep m P ch noBlobs) {name : CString} {prev : Option Nat} {b : Nat}
    (hprev : ∀ y, prev = some y → 13 ≤ y ∧ y % 64 ≠ 0) (counts : Counts m P) :
    Counts (unlinkEntry m name prev b) P := by
  have hi := dirHash_lt name.bytes
  refine counts.congr r.le fun x hx hhash => ?_
  unfold IsHeader at hx
  cases prev with
  | none => exact Mem.store16_outside (by omega)
  | some y =>
    have := hprev y rfl
    exact Mem.store16_outside (by omega)

theorem dirDelete_found {name : CString} {prev : Option Nat} {b : Nat}
    (h : dirFindItem m name = some (some (prev, b))) :
    dirDelete m name = (do
      let m' ← dirFreeBlobs (unlinkEntry m name prev b) b
        (dirNameBlobs (nameLength (unlinkEntry m name prev b) b))
      let _ ← dirDirOK m'
      return (.ok, m')) := by
  rw [dirDelete, h]
  cases prev <;> rfl

theorem Rep.dirDelete_spec (r : Rep m P ch noBlobs) (name : CString) :
    ∃ code m', dirDelete m name = some (code, m') ∧ Delete m P ch name code m' := by
  have hitem := r.dirFindItem_eq name
  cases hfind : locate name none (ch (dirHash name.bytes)) with
  | none =>
    have absent := (r.toLayout.absent_iff name).mpr ((locate_eq_none_iff ..).mp hfind)
    refine ⟨_, _, ?_, .absent absent⟩
    rw [dirDelete, hitem, hfind]
    rfl
  | some found =>
    obtain ⟨prev, b⟩ := found
    obtain ⟨l₁, e, l₂, hch, rfl, rfl, hprev⟩ := locate_eq_some hfind
    rw [hfind] at hitem
    have live := live_of_chain hch
    have fits := r.fits e live
    have rep := r.unlink hch hprev
    -- the name is read once more, from the entry that is no longer on a chain
    have hlen : nameLength (unlinkEntry m e.name prev e.blob) e.blob = e.name.bytes.length := by
      refine EntryAt.nameLength_eq ?_ fits
      refine (r.entry e live).congr fun x hx h₂ h₃ => ?_
      have hbyte := fits.byte hx
      have hi := dirHash_lt e.name.bytes
      rcases hprev with ⟨-, rfl⟩ | ⟨l₀, y, rfl, rfl⟩
      · exact Mem.store16_outside (by omega)
      · have hy : Live ch y := ⟨_, hi, by rw [hch]; simp⟩
        refine Mem.store16_outside ?_
        by_contra hin
        have hyx : y.Covers (x / 32) := by
          rw [show x / 32 = y.blob by omega]
          exact y.covers_self
        obtain rfl := r.apart e y live hy _ hx hyx
        omega
    obtain ⟨m', hfree, rep', counts'⟩ := dirFreeBlobs_spec rep fits.page fits.inPage
    refine ⟨.ok, m', ?_, .ok e _ m' live rfl (fun x => live_dropEntry r.toLayout hch) rep'
      fun counts => counts' (r.unlink_counts ?_ counts)⟩
    · rw [dirDelete_found hitem, hlen]
      change (dirFreeBlobs _ e.blob e.blobs).bind _ = _
      rw [hfree, bind_some, rep'.dirDirOK_eq]
      rfl
    · intro z hz
      rcases hprev with ⟨-, rfl⟩ | ⟨l₀, y, rfl, rfl⟩
      · cases hz
      · obtain rfl := some.inj hz
        have fitsY := r.fits y ⟨_, dirHash_lt _, by rw [hch]; simp⟩
        exact ⟨fitsY.offDirHeader, ne_of_gt fitsY.offPageHeader⟩

end Delete

/-! ### A new directory -/

section MakeDir

theorem foldl_setHashTable_zero (m : Image) (n x : Nat) :
    (List.range n).foldl (fun m i => setHashTable m i 0) m x =
      if 160 ≤ x ∧ x < 160 + 2 * n then 0#8 else m x := by
  induction n with
  | zero => exact (if_neg (by omega)).symm
  | succ n ih =>
    rw [List.range_succ, List.foldl_append, List.foldl_cons, List.foldl_nil]
    by_cases h : 160 + 2 * n ≤ x ∧ x < 160 + 2 * n + 2
    · obtain ⟨k, hk, rfl⟩ : ∃ k < 2, x = 160 + 2 * n + k := ⟨x - (160 + 2 * n), by omega, by omega⟩
      rw [if_pos (by omega), setHashTable, Mem.store16, Mem.store_add (by simpa using hk)]
      rcases Nat.lt_succ_iff_lt_or_eq.mp hk with h | rfl
      · obtain rfl : k = 0 := by omega
        rfl
      · rfl
    · rw [setHashTable, Mem.store16_outside (by omega), ih]
      by_cases hr : 160 ≤ x ∧ x < 160 + 2 * n
      · rw [if_pos hr, if_pos (by omega)]
      · rw [if_neg hr, if_neg (by omega)]

/-- What `DIR_MakeDir` has written before it creates the two entries. -/
structure Formatted (m : Image) : Prop where
  tag : tag m 0 = 1234
  freecount : freecount m 0 = 51
  allomap : allomap m 0 = 51
  beyond : ∀ p < 128, 1 ≤ p → Dir.allomap m p = 64
  bitmap : ∀ j < 8, m (5 + j) = if j = 0 then 0xff#8 else if j = 1 then 0x1f#8 else 0#8
  hash : ∀ i < 128, hashTable m i = 0

theorem dirHeader_formatted (fresh : Image) : Formatted (dirHeader fresh) := by
  unfold dirHeader
  dsimp only
  generalize hm₁ : setTag (fresh.fill 0 2048 0#8) 0 1234 = m₁
  generalize hm₂ : setFreecount m₁ 0 51 = m₂
  generalize hm₃ : setFreebitmap (setFreebitmap m₂ 0 0 0xff#8) 0 1 0x1f#8 = m₃
  generalize hm₄ : (List.range' 2 6).foldl (fun m i => setFreebitmap m 0 i 0#8) m₃ = m₄
  generalize hm₅ : setAllomap m₄ 0 51 = m₅
  have h₂ : ∀ x, x ≠ 4 → m₂ x = m₁ x := fun x hx => by rw [← hm₂, setFreecount_outside _ hx]
  have h₃ : ∀ x, x ≠ 5 → x ≠ 6 → m₃ x = m₂ x := fun x hx hx' => by
    rw [← hm₃, setFreebitmap_outside _ hx', setFreebitmap_outside _ hx]
  have h₄ : ∀ x, m₄ x = if 7 ≤ x ∧ x < 13 then 0#8 else m₃ x := fun x => by
    rw [← hm₄, foldl_setFreebitmap_const]
  have h₅ : ∀ x, x ≠ 32 → m₅ x = m₄ x := fun x hx => by rw [← hm₅, setAllomap_outside _ hx]
  have h₆ : ∀ x, dirSetpages m₅ 1 x = if 33 ≤ x ∧ x < 160 then 64#8 else m₅ x :=
    Mem.foldl_store_singleton 32 64#8 m₅ 1 127
  generalize dirSetpages m₅ 1 = m₆ at h₆
  have h₇ := foldl_setHashTable_zero m₆ 128
  generalize (List.range 128).foldl (fun m i => setHashTable m i 0) m₆ = m₇ at h₇
  have low : ∀ x < 32, m₇ x = m₄ x := fun x hx => by
    rw [h₇, if_neg (by omega), h₆, if_neg (by omega), h₅ x (by omega)]
  refine ⟨?_, ?_, ?_, fun p hp hpos => ?_, fun j hj => ?_, fun i hi => ?_⟩
  · have htag : tag m₁ 0 = 1234 := by rw [← hm₁, tag_setTag _ _ (by omega)]
    refine (tag_congr fun x hlo hhi => ?_).trans htag
    rw [low x (by omega), h₄, if_neg (by omega), h₃ x (by omega) (by omega), h₂ x (by omega)]
  · have hcount : freecount m₂ 0 = 51 := by
      rw [← hm₂, freecount_setFreecount _ _ (by omega) (by omega)]
    refine (freecount_congr ?_).trans hcount
    rw [low _ (by omega), h₄, if_neg (by omega), h₃ _ (by omega) (by omega)]
  · have hallo : allomap m₅ 0 = 51 := by
      rw [← hm₅, allomap_setAllomap _ _ (by omega) (by omega)]
    refine (allomap_congr ?_).trans hallo
    rw [h₇, if_neg (by omega), h₆, if_neg (by omega)]
  · rw [allomap, h₇, if_neg (by omega), h₆, if_pos (by omega)]
    rfl
  · rw [low _ (by omega), h₄]
    by_cases hj0 : j = 0
    · subst hj0
      rw [← hm₃, setFreebitmap_outside _ (by omega)]
      exact setFreebitmap_self _ 0 0 _
    · by_cases hj1 : j = 1
      · subst hj1
        rw [← hm₃]
        exact setFreebitmap_self _ 0 1 _
      · rw [if_pos (by omega), if_neg hj0, if_neg hj1]
  · rw [hashTable, Mem.load16, h₇, h₇, if_pos (by omega), if_pos (by omega)]
    rfl

variable {m : Image}

theorem Formatted.blobBit (h : Formatted m) {b : Nat} (hb : b < 64) :
    blobBit m b = decide (b < 13) := by
  have hbytes : ∀ t < 8, (0xff#8).getLsbD t = true ∧ (0x1f#8).getLsbD t = decide (t < 5) := by
    decide
  obtain ⟨h₁, h₂⟩ := hbytes (b % 8) (by omega)
  rw [blobBit_eq, show b / 64 = 0 by omega, mul_zero, zero_add,
    Nat.mod_eq_of_lt hb, h.bitmap _ (by omega)]
  by_cases h0 : b / 8 = 0
  · rw [if_pos h0, h₁, eq_comm, decide_eq_true_iff]
    omega
  · by_cases h1 : b / 8 = 1
    · rw [if_neg h0, if_pos h1, h₂, decide_eq_decide]
      omega
    · rw [if_neg h0, if_neg h1, BitVec.getLsbD_zero, eq_comm, decide_eq_false_iff_not]
      omega

theorem Formatted.freeBlobs (h : Formatted m) : freeBlobs m 0 = 51 := by
  have hset : ((Finset.range 64).filter fun k => Dir.blobBit m (64 * 0 + k) = false) =
      Finset.Ico 13 64 := by
    ext k
    rw [Finset.mem_filter, Finset.mem_range, Finset.mem_Ico, and_comm]
    refine and_congr_left fun hk => ?_
    rw [h.blobBit (by omega), decide_eq_false_iff_not]
    omega
  rw [Dir.freeBlobs, hset, Nat.card_Ico]

/-- The formatted directory holds no entries. -/
theorem Formatted.rep (h : Formatted m) : Rep m 1 (fun _ => []) noBlobs := by
  have none_live : ∀ e, ¬ Live (fun _ => []) e := by
    rintro e ⟨i, -, he⟩
    cases he
  refine { pos := le_refl 1, le := by omega, fits := fun e he => absurd he (none_live e),
           hash := fun i _ e he => absurd he List.not_mem_nil,
           apart := fun e _ he => absurd he (none_live e),
           names := fun e _ he => absurd he (none_live e),
           nodup := fun _ _ => List.nodup_nil, free := fun b hb => hb.elim,
           tags := fun p hp => ?_, allo := fun p hp => ?_, beyond := h.beyond,
           linked := h.hash, entry := fun e he => absurd he (none_live e),
           bit := fun b hb => ?_ }
  · obtain rfl : p = 0 := by omega
    exact h.tag
  · obtain rfl : p = 0 := by omega
    rw [h.allomap, h.freeBlobs]
    rfl
  · rw [h.blobBit (by omega), decide_eq_true_iff]
    constructor
    · exact fun hlt => .inl (.inl hlt)
    · rintro (hhead | ⟨e, he, -⟩ | hres)
      · unfold IsHeader at hhead
        omega
      · exact absurd he (none_live e)
      · exact hres.elim

theorem Formatted.counts (h : Formatted m) : Counts m 1 := by
  intro p hp
  obtain rfl : p = 0 := by omega
  rw [h.freecount, h.allomap]

theorem dirMakeDir_eq (fresh : Image) (me parent : DirFid) :
    dirMakeDir fresh me parent = (dirCreate (dirHeader fresh) dot me).bind fun r₁ =>
      (dirCreate r₁.2 dotdot parent).bind fun r₂ => (dirDirOK r₂.2).bind fun _ => some r₂.2 :=
  rfl

/-- A new name in a directory that has not all its pages. -/
theorem Rep.dirCreate_new {P : Nat} {ch : Nat → List Entry} (r : Rep m P ch noBlobs)
    (name : CString) (fid : DirFid) (hpos : 1 ≤ name.bytes.length) (hle : name.bytes.length ≤ 255)
    (absent : ∀ e, Live ch e → e.name ≠ name) (hP : P < 128) :
    ∃ blob P' m', dirCreate m name fid = some (.ok, m') ∧ P' ≤ P + 1 ∧
      (Counts m P → Counts m' P') ∧ Rep m' P' (pushEntry ch ⟨blob, name, fid⟩) noBlobs := by
  obtain ⟨code, m', run, create⟩ := r.dirCreate_spec name fid
  cases create with
  | tooLong h => omega
  | empty h => omega
  | «exists» e _ _ he hname => exact absurd hname (absent e he)
  | full _ _ _ h => omega
  | ok blob P' _ _ _ _ bound rep counts => exact ⟨blob, P', m', run, bound, counts, rep⟩

/-- `DIR_MakeDir` makes a directory with the entries `.` and `..`. -/
theorem dirMakeDir_spec (fresh : Image) (me parent : DirFid) :
    ∃ m P b₁ b₂, dirMakeDir fresh me parent = some m ∧ Counts m P ∧
      Rep m P (pushEntry (pushEntry (fun _ => []) ⟨b₁, dot, me⟩) ⟨b₂, dotdot, parent⟩) noBlobs := by
  have formatted := dirHeader_formatted fresh
  obtain ⟨b₁, P₁, m₁, run₁, bound₁, counts₁, rep₁⟩ := formatted.rep.dirCreate_new dot me
    (by decide) (by decide) (fun e ⟨_, _, he⟩ => by cases he) (by decide)
  obtain ⟨b₂, P₂, m₂, run₂, -, counts₂, rep₂⟩ := rep₁.dirCreate_new dotdot parent
    (by decide) (by decide) (fun e he => by
      rcases live_pushEntry.mp he with rfl | ⟨_, _, he⟩
      · exact show dot ≠ dotdot by decide
      · cases he) (by omega)
  refine ⟨m₂, P₂, b₁, b₂, ?_, counts₂ (counts₁ formatted.counts), rep₂⟩
  rw [dirMakeDir_eq, run₁, bind_some, run₂, bind_some, rep₂.dirDirOK_eq]
  rfl

end MakeDir

end Coda.Dir
