import Coda.Dir.Check

/-!
Hash chains: lookup and enumeration on a directory that satisfies the invariant, and the
two changes of the chains, threading a new entry and unlinking one.
-/

namespace Coda.Dir

open Coda.Lib List Function

/-! ### Lookup -/

/-- The search of `dir_FindItem` on the entries of a chain: the previous entry's blob and
the blob of the entry found. -/
def locate (name : CString) : Option Nat → List Entry → Option (Option Nat × Nat)
  | _, [] => none
  | lp, e :: l => if e.name = name then some (lp, e.blob) else locate name (some e.blob) l

section Lookup

variable {m : Image} {P : Nat} {ch : Nat → List Entry} {reserved : Nat → Prop}

theorem EntryAt.cstr_iff {e : Entry} (at_ : EntryAt m e) (name : CString) :
    m.CStr (nameAddr e.blob) name.bytes ↔ e.name = name := by
  constructor
  · intro h
    exact CString.ext (at_.name.unique h e.name.nonul name.nonul)
  · rintro rfl
    exact at_.name

/-- The entries of a list are in place and have valid blob numbers. -/
def Held (m : Image) (l : List Entry) : Prop :=
  ∀ e ∈ l, EntryAt m e ∧ dirGetBlob e.blob = true ∧ e.blob ≠ 0

theorem Rep.held (r : Rep m P ch reserved) {i : Nat} (hi : i < 128) : Held m (ch i) := by
  intro e he
  have fits := r.fits e ⟨i, hi, he⟩
  have h₁ := fits.page
  have h₂ := fits.offDirHeader
  have hle := r.le
  refine ⟨r.entry e ⟨i, hi, he⟩, ?_, by omega⟩
  rw [dirGetBlob, decide_eq_true_iff]
  omega

theorem findLoop_eq (name : CString) (k : Nat) (lp : Option Nat) (e : Entry) (l : List Entry)
    (held : Held m (e :: l)) (linked : Linked m (next m e.blob) l) (hk : l.length < k) :
    findLoop m name k lp e.blob = some (locate name lp (e :: l)) := by
  induction l generalizing k lp e with
  | nil =>
    obtain ⟨k, rfl⟩ := Nat.exists_eq_succ_of_ne_zero (ne_of_gt hk)
    obtain ⟨at_, -, -⟩ := held e (.head _)
    simp only [findLoop, locate, at_.cstr_iff]
    split_ifs with hname hnext
    · rfl
    · rfl
    · exact absurd linked hnext
    · exact absurd linked hnext
  | cons e' l ih =>
    obtain ⟨k, rfl⟩ := Nat.exists_eq_succ_of_ne_zero (Nat.ne_zero_of_lt hk)
    obtain ⟨at_, -, -⟩ := held e (.head _)
    obtain ⟨-, valid, pos⟩ := held e' (mem_cons_of_mem _ (.head _))
    rw [findLoop, locate]
    simp only [at_.cstr_iff]
    split_ifs with hname hnext hvalid
    · rfl
    · exact absurd (linked.1.symm.trans hnext) pos
    · rw [linked.1]
      exact ih k (some e.blob) e' (forall_mem_cons.mp held).2 linked.2
        (Nat.lt_of_succ_lt_succ hk)
    · rw [linked.1] at hvalid
      exact absurd valid hvalid

/-- `dir_FindItem` searches the entries of the name's chain. -/
theorem Rep.dirFindItem_eq (r : Rep m P ch reserved) (name : CString) :
    dirFindItem m name = some (locate name none (ch (dirHash name.bytes))) := by
  have hi := dirHash_lt name.bytes
  have linked := r.linked _ hi
  have held := r.held hi
  have hlen := r.length_chain hi
  unfold dirFindItem
  cases hch : ch (dirHash name.bytes) with
  | nil =>
    rw [hch] at linked
    exact if_pos linked
  | cons e l =>
    rw [hch] at linked held hlen
    obtain ⟨-, valid, pos⟩ := held e (.head _)
    simp only [linked.1, pos, valid]
    exact findLoop_eq name 65536 none e l held linked.2 (by
      simp only [length_cons] at hlen
      omega)

theorem locate_eq_none_iff (name : CString) (lp : Option Nat) (l : List Entry) :
    locate name lp l = none ↔ ∀ e ∈ l, e.name ≠ name := by
  induction l generalizing lp with
  | nil => simp [locate]
  | cons e l ih =>
    rw [locate, forall_mem_cons, ← ih (some e.blob)]
    split_ifs with h
    · simp [h]
    · simp [h]

/-- The entry found, its predecessors and its successors. -/
theorem locate_eq_some {name : CString} {lp prev : Option Nat} {l : List Entry} {b : Nat}
    (h : locate name lp l = some (prev, b)) :
    ∃ l₁ e l₂, l = l₁ ++ e :: l₂ ∧ e.name = name ∧ e.blob = b ∧
      ((l₁ = [] ∧ prev = lp) ∨ ∃ l₀ y, l₁ = l₀ ++ [y] ∧ prev = some y.blob) := by
  induction l generalizing lp with
  | nil => simp [locate] at h
  | cons e l ih =>
    rw [locate] at h
    split_ifs at h with hname
    · obtain ⟨rfl, rfl⟩ := Prod.mk.inj (Option.some.inj h)
      exact ⟨[], e, l, rfl, hname, rfl, .inl ⟨rfl, rfl⟩⟩
    · obtain ⟨l₁, x, l₂, rfl, hx, hb, hprev⟩ := ih h
      refine ⟨e :: l₁, x, l₂, rfl, hx, hb, .inr ?_⟩
      rcases hprev with ⟨rfl, rfl⟩ | ⟨l₀, y, rfl, rfl⟩
      · exact ⟨[], e, rfl, rfl⟩
      · exact ⟨e :: l₀, y, rfl, rfl⟩

end Lookup

/-! ### Enumeration -/

/-- All entries, chain by chain. -/
def allEntries (ch : Nat → List Entry) : List Entry := (List.range 128).flatMap ch

/-- The hook is called on one entry after the other until it returns nonzero. -/
def runHook {σ : Type} (hookproc : Nat → σ → Int × σ) : List Nat → σ → Int × σ
  | [], hook => (0, hook)
  | b :: l, hook =>
    let r := hookproc b hook
    if r.1 ≠ 0 then r else runHook hookproc l r.2

section Enumerate

variable {σ : Type} {hookproc : Nat → σ → Int × σ}
variable {m : Image} {P : Nat} {ch : Nat → List Entry} {reserved : Nat → Prop}

theorem runHook_append (l₁ l₂ : List Nat) (hook : σ) :
    runHook hookproc (l₁ ++ l₂) hook =
      if (runHook hookproc l₁ hook).1 ≠ 0 then runHook hookproc l₁ hook
      else runHook hookproc l₂ (runHook hookproc l₁ hook).2 := by
  induction l₁ generalizing hook with
  | nil => simp [runHook]
  | cons b l₁ ih =>
    rw [cons_append, runHook, runHook]
    by_cases h : (hookproc b hook).1 ≠ 0
    · simp only [if_pos h]
    · simp only [if_neg h]
      exact ih _

theorem enumLoop_eq (k h : Nat) (l : List Entry) (hook : σ) (held : Held m l)
    (linked : Linked m h l) (hk : l.length < k) :
    enumLoop m hookproc k h hook = some (runHook hookproc (l.map Entry.blob) hook) := by
  induction l generalizing k h hook with
  | nil =>
    obtain ⟨k, rfl⟩ := Nat.exists_eq_succ_of_ne_zero (ne_of_gt hk)
    exact if_pos linked
  | cons e l ih =>
    obtain ⟨k, rfl⟩ := Nat.exists_eq_succ_of_ne_zero (Nat.ne_zero_of_lt hk)
    obtain ⟨-, valid, pos⟩ := held e (.head _)
    rw [linked.1, enumLoop, if_neg pos, if_neg (by rw [valid]; exact Bool.noConfusion),
      map_cons, runHook]
    dsimp only
    split_ifs
    · rfl
    · exact ih k _ _ (forall_mem_cons.mp held).2 linked.2
        (Nat.lt_of_succ_lt_succ hk)

theorem Rep.enumChains_eq (r : Rep m P ch reserved) (chains : List Nat) (hook : σ)
    (h : ∀ i ∈ chains, i < 128) :
    enumChains m hookproc chains hook =
      some (runHook hookproc ((chains.flatMap ch).map Entry.blob) hook) := by
  induction chains generalizing hook with
  | nil => rfl
  | cons i rest ih =>
    obtain ⟨hi, hrest⟩ := forall_mem_cons.mp h
    have hlen := r.length_chain hi
    have hloop := @enumLoop_eq σ hookproc m 65536 (hashTable m i) (ch i) hook (r.held hi)
      (r.linked i hi) (by omega)
    simp only [enumChains, hloop, Option.bind_eq_bind, Option.bind_some, flatMap_cons,
      map_append, runHook_append, ih _ hrest]
    split_ifs <;> rfl

/-- `DIR_EnumerateDir` calls the hook on the entries of all chains in turn. -/
theorem Rep.dirEnumerateDir_eq (r : Rep m P ch reserved) (hook : σ) :
    dirEnumerateDir m hookproc hook =
      some (runHook hookproc ((allEntries ch).map Entry.blob) hook) :=
  r.enumChains_eq _ hook fun _ hi => mem_range.mp hi

theorem mem_allEntries {e : Entry} : e ∈ allEntries ch ↔ Live ch e := by
  simp [allEntries, Live, mem_flatMap]

/-- No entry occurs twice. -/
theorem Layout.nodup_allEntries (l : Layout P ch reserved) : (allEntries ch).Nodup := by
  rw [allEntries, nodup_flatMap]
  refine ⟨fun i hi => l.nodup i (mem_range.mp hi), ?_⟩
  refine (nodup_range.pairwise_of_forall_ne fun i hi j hj hne => ?_)
  rw [mem_range] at hi hj
  intro e he he'
  exact hne ((l.hash i hi e he).symm.trans (l.hash j hj e he'))

/-- The test of `DIR_IsEmpty` on one entry. -/
def isDot (e : Entry) : Bool := e.name = dotdot ∨ e.name = dot

theorem emptyLoop_eq (k h : Nat) (l : List Entry) (held : Held m l) (linked : Linked m h l)
    (hk : l.length < k) : emptyLoop m k h = some (l.all isDot) := by
  induction l generalizing k h with
  | nil =>
    obtain ⟨k, rfl⟩ := Nat.exists_eq_succ_of_ne_zero (ne_of_gt hk)
    exact if_pos linked
  | cons e l ih =>
    obtain ⟨k, rfl⟩ := Nat.exists_eq_succ_of_ne_zero (Nat.ne_zero_of_lt hk)
    obtain ⟨at_, valid, pos⟩ := held e (.head _)
    rw [linked.1, emptyLoop, if_neg pos, if_neg (by rw [valid]; exact Bool.noConfusion),
      all_cons]
    simp only [at_.cstr_iff, ← not_or]
    by_cases hdot : e.name = dotdot ∨ e.name = dot
    · rw [if_neg (not_not.mpr hdot), isDot, decide_eq_true hdot]
      exact ih k _ (forall_mem_cons.mp held).2 linked.2
        (Nat.lt_of_succ_lt_succ hk)
    · rw [if_pos hdot, isDot, decide_eq_false hdot, Bool.false_and]

theorem Rep.emptyChains_eq (r : Rep m P ch reserved) (chains : List Nat)
    (h : ∀ i ∈ chains, i < 128) :
    emptyChains m chains = some ((chains.flatMap ch).all isDot) := by
  induction chains with
  | nil => rfl
  | cons i rest ih =>
    obtain ⟨hi, hrest⟩ := forall_mem_cons.mp h
    have hlen := r.length_chain hi
    rw [emptyChains, emptyLoop_eq 65536 _ _ (r.held hi) (r.linked i hi) (by omega),
      flatMap_cons, all_append]
    cases hall : (ch i).all isDot with
    | false => rfl
    | true => exact ih hrest

/-- `DIR_IsEmpty` answers whether only `.` and `..` are there. -/
theorem Rep.dirIsEmpty_eq (r : Rep m P ch reserved) :
    dirIsEmpty m = some ((allEntries ch).all isDot) :=
  r.emptyChains_eq _ fun _ hi => mem_range.mp hi

end Enumerate

/-! ### Changing the chains -/

section Relink

variable {m m' : Image} {P : Nat} {ch ch' : Nat → List Entry} {reserved reserved' : Nat → Prop}

/-- Chain heads and links of live entries change; the entries on the new chains and the
reserved blobs together take up what they did before. -/
theorem Rep.relink (r : Rep m P ch reserved) (layout : Layout P ch' reserved')
    (agree : ∀ x, ¬ (160 ≤ x ∧ x < 416) →
      (∀ e, Live ch e → x ≠ 32 * e.blob + 2 ∧ x ≠ 32 * e.blob + 3) → m' x = m x)
    (linked : ∀ i < 128, Linked m' (hashTable m' i) (ch' i))
    (entry : ∀ e, Live ch' e → EntryAt m e)
    (distinct : ∀ e e', Live ch' e → Live ch e' → ∀ b, e.Covers b → e'.Covers b → e = e')
    (used : ∀ b, ((∃ e, Live ch' e ∧ e.Covers b) ∨ reserved' b) ↔
      ((∃ e, Live ch e ∧ e.Covers b) ∨ reserved b)) :
    Rep m' P ch' reserved' := by
  have hle := r.le
  -- the links of an entry are in its first blob
  have apart : ∀ {x b : Nat}, x / 32 ≠ b → x ≠ 32 * b + 2 ∧ x ≠ 32 * b + 3 := by omega
  have header : ∀ x, IsHeader (x / 32) → ¬ (160 ≤ x ∧ x < 416) → m' x = m x := by
    intro x hx hhash
    refine agree x hhash fun e he => apart fun heq => ?_
    exact (r.fits e he).covers_not_header e.covers_self (heq ▸ hx)
  have bits : ∀ b, blobBit m' b = blobBit m b := fun b =>
    blobBit_congr fun j hj => header _ (by unfold IsHeader; omega) (by omega)
  refine { layout with
    tags := fun p hp => ?_, allo := fun p hp => ?_, beyond := fun p hp hge => ?_,
    linked := linked, entry := fun e he => ?_, bit := fun b hb => ?_ }
  · rw [tag_congr fun x h₁ h₂ => header x (by unfold IsHeader; omega) (by omega)]
    exact r.tags p hp
  · rw [allomap_congr (header _ (by unfold IsHeader; omega) (by omega)),
      freeBlobs_congr fun k _ => bits _]
    exact r.allo p hp
  · rw [allomap_congr (header _ (by unfold IsHeader; omega) (by omega))]
    exact r.beyond p hp hge
  · -- a link byte inside the entry's blobs would be the entry's own
    refine (entry e he).congr fun x hx h₂ h₃ => ?_
    have hbyte := (layout.fits e he).byte hx
    refine agree x (by omega) fun e' he' => ?_
    by_cases own : x / 32 = e'.blob
    · obtain rfl := distinct e e' he he' _ hx (own ▸ e'.covers_self)
      exact ⟨h₂, h₃⟩
    · exact apart own
  · rw [bits, r.bit b hb, ← used b]

/-! ### Threading a new entry -/

/-- The image after the entry was filled in and its link set to `head`. -/
structure Written (m m' : Image) (e : Entry) (head : Nat) : Prop where
  frame : ∀ x, ¬ e.Covers (x / 32) → m' x = m x
  entry : EntryAt m' e
  next : next m' e.blob = head

theorem fid_store (m : Image) (b : Nat) (f : DirFid) :
    fid ((m.store32 (32 * b + 4) f.vnode.toNat).store32 (32 * b + 8) f.unique.toNat) b = f := by
  have hv : ((m.store32 (32 * b + 4) f.vnode.toNat).store32 (32 * b + 8) f.unique.toNat).load32
      (32 * b + 4) = f.vnode.toNat := by
    rw [Mem.load32_congr fun x h₁ h₂ => Mem.store32_outside (by omega)]
    exact Mem.load32_store32 f.vnode.isLt
  rw [fid, hv, Mem.load32_store32 f.unique.isLt, BitVec.ofNat_toNat, BitVec.ofNat_toNat,
    BitVec.setWidth_eq, BitVec.setWidth_eq]

/-- `DIR_Create` writes only to the blobs of the new entry before it threads it. -/
theorem threadEntry_eq (m : Image) (e : Entry) (hfree : ∀ b, e.Covers b → ¬ IsHeader b) :
    ∃ m', threadEntry m e.blob e.name e.fid =
        setHashTable m' (dirHash e.name.bytes) e.blob ∧
      Written m m' e (hashTable m (dirHash e.name.bytes)) := by
  have hi := dirHash_lt e.name.bytes
  have hfit := name_fits e.name.bytes.length
  have hcov : ∀ x, 32 * e.blob ≤ x → x ≤ 32 * e.blob + 12 + e.name.bytes.length →
      e.Covers (x / 32) := by
    unfold Entry.Covers Entry.blobs
    omega
  -- The image after each assignment, by what it changes.
  generalize hm₁ : m.store (32 * e.blob) [1#8] = m₁
  generalize hm₂ : (m₁.store32 (32 * e.blob + 4) e.fid.vnode.toNat).store32 (32 * e.blob + 8)
    e.fid.unique.toNat = m₂
  generalize hm₃ : m₂.store (nameAddr e.blob) (e.name.bytes ++ [0#8]) = m₃
  generalize hm₄ : setNext m₃ e.blob (hashTable m₃ (dirHash e.name.bytes)) = m₄
  have h₁ : ∀ x, x ≠ 32 * e.blob → m₁ x = m x := fun x hx => by
    rw [← hm₁]
    exact Mem.store_outside (by rw [length_singleton]; omega)
  have h₂ : ∀ x, (x < 32 * e.blob + 4 ∨ 32 * e.blob + 12 ≤ x) → m₂ x = m₁ x := fun x hx => by
    rw [← hm₂, Mem.store32_outside (by omega), Mem.store32_outside (by omega)]
  have h₃ : ∀ x, (x < 32 * e.blob + 12 ∨ 32 * e.blob + 12 + e.name.bytes.length < x) →
      m₃ x = m₂ x := fun x hx => by
    rw [← hm₃]
    refine Mem.store_outside ?_
    rw [length_append, length_singleton, nameAddr]
    omega
  have h₄ : ∀ x, x ≠ 32 * e.blob + 2 → x ≠ 32 * e.blob + 3 → m₄ x = m₃ x := fun x hx hx' => by
    rw [← hm₄]
    exact Mem.store16_outside (by omega)
  have frame₃ : ∀ x, ¬ e.Covers (x / 32) → m₃ x = m x := by
    intro x hx
    have hout : x < 32 * e.blob ∨ 32 * e.blob + 12 + e.name.bytes.length < x := by
      by_contra hin
      exact hx (hcov x (by omega) (by omega))
    rw [h₃ x (by omega), h₂ x (by omega), h₁ x (by omega)]
  have hhead : hashTable m₃ (dirHash e.name.bytes) = hashTable m (dirHash e.name.bytes) :=
    hashTable_congr fun x hlo hhi => frame₃ x fun hx => hfree _ hx (by unfold IsHeader; omega)
  refine ⟨m₄, ?_, ⟨fun x hx => ?_, ⟨?_, ?_, ?_⟩, ?_⟩⟩
  · simp only [threadEntry, hm₁, hm₂, hm₃, hm₄]
  · rw [h₄ x, frame₃ x hx]
    · rintro rfl
      exact hx (hcov _ (by omega) (by omega))
    · rintro rfl
      exact hx (hcov _ (by omega) (by omega))
  · rw [flag, h₄ _ (by omega) (by omega), h₃ _ (by omega), h₂ _ (by omega), ← hm₁,
      Mem.store_singleton]
  · have hsame : fid m₄ e.blob = fid m₂ e.blob := by
      have hv : m₄.load32 (32 * e.blob + 4) = m₂.load32 (32 * e.blob + 4) :=
        Mem.load32_congr fun x hlo hhi => by rw [h₄ x (by omega) (by omega), h₃ x (by omega)]
      have hu : m₄.load32 (32 * e.blob + 8) = m₂.load32 (32 * e.blob + 8) :=
        Mem.load32_congr fun x hlo hhi => by rw [h₄ x (by omega) (by omega), h₃ x (by omega)]
      rw [fid, fid, hv, hu]
    rw [hsame, ← hm₂, fid_store]
  · have hname : m₃.CStr (nameAddr e.blob) e.name.bytes := by
      rw [← hm₃]
      exact Mem.cstr_store _ _ _
    refine hname.congr fun x hlo hhi => h₄ x ?_ ?_ <;> (unfold nameAddr at hlo; omega)
  · rw [← hm₄, hhead]
    exact Mem.load16_store16 (Mem.load16_lt _ _)

/-- The chains with a new entry in front of its chain. -/
def pushEntry (ch : Nat → List Entry) (e : Entry) : Nat → List Entry :=
  Function.update ch (dirHash e.name.bytes) (e :: ch (dirHash e.name.bytes))

theorem mem_pushEntry {e x : Entry} {i : Nat} :
    x ∈ pushEntry ch e i ↔ (x = e ∧ i = dirHash e.name.bytes) ∨ x ∈ ch i := by
  unfold pushEntry
  by_cases hi : i = dirHash e.name.bytes
  · subst hi
    simp [update_self]
  · simp [hi]

theorem live_pushEntry {e x : Entry} : Live (pushEntry ch e) x ↔ x = e ∨ Live ch x := by
  unfold Live
  simp only [mem_pushEntry]
  constructor
  · rintro ⟨i, hi, ⟨rfl, -⟩ | hx⟩
    · exact .inl rfl
    · exact .inr ⟨i, hi, hx⟩
  · rintro (rfl | ⟨i, hi, hx⟩)
    · exact ⟨_, dirHash_lt _, .inl ⟨rfl, rfl⟩⟩
    · exact ⟨i, hi, .inr hx⟩

theorem Layout.push {e : Entry} (l : Layout P ch (Span e.blob e.blobs)) (fits : e.Fits P)
    (fresh : ∀ x, Live ch x → x.name ≠ e.name) : Layout P (pushEntry ch e) noBlobs := by
  have away : ∀ x, Live ch x → ∀ b, x.Covers b → ¬ e.Covers b := fun x hx b hxb heb =>
    (l.free b heb).2.2 x hx hxb
  refine { l with fits := ?_, hash := ?_, apart := ?_, names := ?_, nodup := ?_, free := ?_ }
  · intro x hx
    rcases live_pushEntry.mp hx with rfl | hx
    · exact fits
    · exact l.fits x hx
  · intro i hi x hx
    rcases mem_pushEntry.mp hx with ⟨rfl, rfl⟩ | hx
    · rfl
    · exact l.hash i hi x hx
  · intro x y hx hy b hxb hyb
    rcases live_pushEntry.mp hx with rfl | hx₁ <;> rcases live_pushEntry.mp hy with rfl | hy₁
    · rfl
    · exact absurd hxb (away y hy₁ b hyb)
    · exact absurd hyb (away x hx₁ b hxb)
    · exact l.apart x y hx₁ hy₁ b hxb hyb
  · intro x y hx hy hname
    rcases live_pushEntry.mp hx with rfl | hx₁ <;> rcases live_pushEntry.mp hy with rfl | hy₁
    · rfl
    · exact absurd hname.symm (fresh y hy₁)
    · exact absurd hname (fresh x hx₁)
    · exact l.names x y hx₁ hy₁ hname
  · intro i hi
    unfold pushEntry
    by_cases hie : i = dirHash e.name.bytes
    · subst hie
      rw [update_self, nodup_cons]
      exact ⟨fun he => fresh e ⟨_, hi, he⟩ rfl, l.nodup _ hi⟩
    · rw [update_of_ne hie]
      exact l.nodup i hi
  · exact fun b hb => hb.elim

/-- Filling in and threading an entry on its reserved blobs. -/
theorem Rep.thread {e : Entry} (r : Rep m P ch (Span e.blob e.blobs)) (fits : e.Fits P)
    (fresh : ∀ x, Live ch x → x.name ≠ e.name) :
    Rep (threadEntry m e.blob e.name e.fid) P (pushEntry ch e) noBlobs := by
  have hle := r.le
  have hpage := fits.page
  obtain ⟨m₁, hthread, written⟩ := threadEntry_eq m e fun b hb => (r.free b hb).2.1
  have r₁ : Rep m₁ P ch (Span e.blob e.blobs) := r.of_agree written.frame
  have hi := dirHash_lt e.name.bytes
  rw [hthread]
  generalize hm₂ : setHashTable m₁ (dirHash e.name.bytes) e.blob = m₂
  have frame : ∀ x, (x < 160 + 2 * dirHash e.name.bytes ∨ 160 + 2 * dirHash e.name.bytes + 2 ≤ x) →
      m₂ x = m₁ x := fun x hx => by
    rw [← hm₂]
    exact Mem.store16_outside hx
  have links : ∀ b, 13 ≤ b → next m₂ b = next m₁ b := fun b hb =>
    next_congr (frame _ (by omega)) (frame _ (by omega))
  have old : ∀ i < 128, ∀ x ∈ ch i, next m₂ x.blob = next m₁ x.blob := fun i hi x hx =>
    links _ (r.fits x ⟨i, hi, hx⟩).offDirHeader
  refine r₁.relink (r.toLayout.push fits fresh) (fun x hx _ => frame x (by omega))
    (fun i hi' => ?_) (fun x hx => ?_) (fun x y hx hy b hxb hyb => ?_) (fun b => ?_)
  · unfold pushEntry
    by_cases hie : i = dirHash e.name.bytes
    · subst hie
      have hhead : hashTable m₂ (dirHash e.name.bytes) = e.blob := by
        rw [← hm₂]
        exact Mem.load16_store16 (by omega)
      have hnext : next m₂ e.blob = hashTable m₁ (dirHash e.name.bytes) := by
        rw [links _ fits.offDirHeader, written.next]
        refine (hashTable_congr fun x h₁ h₂ => written.frame x fun hx => ?_).symm
        exact (r.free _ hx).2.1 (by unfold IsHeader; omega)
      rw [update_self]
      refine ⟨hhead, ?_⟩
      rw [hnext]
      exact (r₁.linked _ hi').congr (old _ hi')
    · rw [update_of_ne hie,
        hashTable_congr fun x h₁ h₂ => frame x (by omega)]
      exact (r₁.linked i hi').congr (old i hi')
  · rcases live_pushEntry.mp hx with rfl | hx
    · exact written.entry
    · exact r₁.entry x hx
  · rcases live_pushEntry.mp hx with rfl | hx
    · exact absurd hyb ((r.free b hxb).2.2 y hy)
    · exact r.apart x y hx hy b hxb hyb
  · simp only [live_pushEntry]
    constructor
    · rintro (⟨x, rfl | hx, hxb⟩ | h)
      · exact .inr hxb
      · exact .inl ⟨x, hx, hxb⟩
      · exact h.elim
    · rintro (⟨x, hx, hxb⟩ | h)
      · exact .inl ⟨x, .inr hx, hxb⟩
      · exact .inl ⟨e, .inl rfl, h⟩

/-- Threading an entry leaves the free counts alone. -/
theorem Rep.thread_counts {e : Entry} (r : Rep m P ch (Span e.blob e.blobs))
    (counts : Counts m P) : Counts (threadEntry m e.blob e.name e.fid) P := by
  have hi := dirHash_lt e.name.bytes
  obtain ⟨m₁, hthread, written⟩ := threadEntry_eq m e fun b hb => (r.free b hb).2.1
  refine counts.congr r.le fun x hx hhash => ?_
  rw [hthread, ← written.frame x fun hcov => (r.free _ hcov).2.1 hx]
  exact Mem.store16_outside (by omega)

/-! ### Unlinking an entry -/

/-- The chains without entry `e`, which stood between `l₁` and `l₂`. -/
def dropEntry (ch : Nat → List Entry) (e : Entry) (l₁ l₂ : List Entry) : Nat → List Entry :=
  Function.update ch (dirHash e.name.bytes) (l₁ ++ l₂)

section Drop

variable {e x : Entry} {l₁ l₂ : List Entry}

section

variable (l : Layout P ch reserved) (hch : ch (dirHash e.name.bytes) = l₁ ++ e :: l₂)
include l hch

theorem mem_dropEntry {i : Nat} (hi : i < 128) : x ∈ dropEntry ch e l₁ l₂ i ↔ x ∈ ch i ∧ x ≠ e := by
  unfold dropEntry
  by_cases hie : i = dirHash e.name.bytes
  · subst hie
    have nodup := l.nodup _ hi
    rw [update_self, hch]
    rw [hch, nodup_middle, nodup_cons] at nodup
    rw [mem_append, mem_append, mem_cons]
    constructor
    · intro hx
      refine ⟨?_, ?_⟩
      · exact hx.imp id .inr
      · rintro rfl
        exact nodup.1 (mem_append.mpr hx)
    · rintro ⟨h₁ | rfl | h₂, hne⟩
      · exact .inl h₁
      · exact absurd rfl hne
      · exact .inr h₂
  · rw [update_of_ne hie, iff_self_and]
    rintro hx rfl
    exact hie (l.hash i hi x hx).symm

theorem live_dropEntry : Live (dropEntry ch e l₁ l₂) x ↔ Live ch x ∧ x ≠ e := by
  constructor
  · rintro ⟨i, hi, hx⟩
    obtain ⟨hx, hne⟩ := (mem_dropEntry l hch hi).mp hx
    exact ⟨⟨i, hi, hx⟩, hne⟩
  · rintro ⟨⟨i, hi, hx⟩, hne⟩
    exact ⟨i, hi, (mem_dropEntry l hch hi).mpr ⟨hx, hne⟩⟩

end

theorem live_of_chain (hch : ch (dirHash e.name.bytes) = l₁ ++ e :: l₂) : Live ch e :=
  ⟨_, dirHash_lt _, by rw [hch]; exact mem_append_right _ (.head _)⟩

theorem Layout.drop (l : Layout P ch noBlobs) (hch : ch (dirHash e.name.bytes) = l₁ ++ e :: l₂) :
    Layout P (dropEntry ch e l₁ l₂) (Span e.blob e.blobs) := by
  have live := live_of_chain hch
  have fits := l.fits e live
  refine { l with fits := ?_, hash := ?_, apart := ?_, names := ?_, nodup := ?_, free := ?_ }
  · exact fun x hx => l.fits x ((live_dropEntry l hch).mp hx).1
  · exact fun i hi x hx => l.hash i hi x ((mem_dropEntry l hch hi).mp hx).1
  · exact fun x y hx hy => l.apart x y ((live_dropEntry l hch).mp hx).1
      ((live_dropEntry l hch).mp hy).1
  · exact fun x y hx hy => l.names x y ((live_dropEntry l hch).mp hx).1
      ((live_dropEntry l hch).mp hy).1
  · intro i hi
    unfold dropEntry
    by_cases hie : i = dirHash e.name.bytes
    · subst hie
      have nodup := l.nodup _ hi
      rw [hch, nodup_middle, nodup_cons] at nodup
      rw [update_self]
      exact nodup.2
    · rw [update_of_ne hie]
      exact l.nodup i hi
  · intro b hb
    refine ⟨fits.covers_lt hb, fits.covers_not_header hb, fun x hx hxb => ?_⟩
    obtain ⟨hx, hne⟩ := (live_dropEntry l hch).mp hx
    exact hne (l.apart x e hx live b hxb hb)

/-- Bypassing `e` behind `y`. -/
theorem Linked.bypass {h : Nat} {y : Entry} {l₀ : List Entry}
    (links : ∀ z ∈ l₀ ++ l₂, Dir.next m' z.blob = Dir.next m z.blob)
    (hy : Dir.next m' y.blob = Dir.next m e.blob) (linked : Linked m h (l₀ ++ y :: e :: l₂)) :
    Linked m' h (l₀ ++ y :: l₂) := by
  induction l₀ generalizing h with
  | nil =>
    obtain ⟨hh, he, rest⟩ := linked
    refine ⟨hh, ?_⟩
    rw [hy]
    exact rest.congr fun z hz => links z (mem_append_right _ hz)
  | cons z l₀ ih =>
    refine ⟨linked.1, ?_⟩
    rw [links z (.head _)]
    exact ih (forall_mem_cons.mp links).2 linked.2

/-- What the unlinking half of `DIR_Delete` does to the image. -/
def unlinkEntry (m : Image) (entry : CString) (preventry : Option Nat) (index : Nat) : Image :=
  match preventry with
  | some prev => setNext m prev (next m index)
  | none => setHashTable m (dirHash entry.bytes) (next m index)

/-- The entry leaves its chain; its blobs stay reserved. -/
theorem Rep.unlink {prev : Option Nat} (r : Rep m P ch noBlobs)
    (hch : ch (dirHash e.name.bytes) = l₁ ++ e :: l₂)
    (hprev : (l₁ = [] ∧ prev = none) ∨ ∃ l₀ y, l₁ = l₀ ++ [y] ∧ prev = some y.blob) :
    Rep (unlinkEntry m e.name prev e.blob) P (dropEntry ch e l₁ l₂) (Span e.blob e.blobs) := by
  have hi := dirHash_lt e.name.bytes
  have live := live_of_chain hch
  have linked := r.linked _ hi
  rw [hch] at linked
  have hnext : next m e.blob < 65536 := Mem.load16_lt _ _
  have layout := r.toLayout.drop hch
  have used : ∀ b, ((∃ x, Live (dropEntry ch e l₁ l₂) x ∧ x.Covers b) ∨ Span e.blob e.blobs b) ↔
      ((∃ x, Live ch x ∧ x.Covers b) ∨ noBlobs b) := by
    intro b
    simp only [live_dropEntry r.toLayout hch]
    constructor
    · rintro (⟨x, ⟨hx, -⟩, hxb⟩ | hb)
      · exact .inl ⟨x, hx, hxb⟩
      · exact .inl ⟨e, live, hb⟩
    · rintro (⟨x, hx, hxb⟩ | hb)
      · by_cases hxe : x = e
        · exact .inr (hxe ▸ hxb)
        · exact .inl ⟨x, ⟨hx, hxe⟩, hxb⟩
      · exact hb.elim
  -- Only the byte pair that is written changes; all other links are as they were.
  suffices h : (∀ x, ¬ (160 ≤ x ∧ x < 416) →
      (∀ z, Live ch z → x ≠ 32 * z.blob + 2 ∧ x ≠ 32 * z.blob + 3) →
      unlinkEntry m e.name prev e.blob x = m x) ∧
      ∀ i < 128, Linked (unlinkEntry m e.name prev e.blob)
        (hashTable (unlinkEntry m e.name prev e.blob) i) (dropEntry ch e l₁ l₂ i) from
    r.relink layout h.1 h.2 (fun x hx => r.entry x ((live_dropEntry r.toLayout hch).mp hx).1)
      (fun x y hx hy => r.apart x y ((live_dropEntry r.toLayout hch).mp hx).1 hy) used
  rcases hprev with ⟨rfl, rfl⟩ | ⟨l₀, y, rfl, rfl⟩
  · -- the entry is the first of its chain
    have frame : ∀ x, (x < 160 + 2 * dirHash e.name.bytes ∨
        160 + 2 * dirHash e.name.bytes + 2 ≤ x) → unlinkEntry m e.name none e.blob x = m x :=
      fun x hx => Mem.store16_outside hx
    have links : ∀ i < 128, ∀ z ∈ ch i,
        next (unlinkEntry m e.name none e.blob) z.blob = next m z.blob := fun i hi z hz => by
      have := (r.fits z ⟨i, hi, hz⟩).offDirHeader
      exact next_congr (frame _ (by omega)) (frame _ (by omega))
    refine ⟨fun x hx _ => frame x (by omega), fun i hi' => ?_⟩
    unfold dropEntry
    by_cases hie : i = dirHash e.name.bytes
    · subst hie
      have hhead : hashTable (unlinkEntry m e.name none e.blob) (dirHash e.name.bytes) =
          next m e.blob := Mem.load16_store16 hnext
      rw [update_self, hhead]
      exact linked.2.congr fun z hz => links _ hi z (by rw [hch]; exact mem_cons_of_mem _ hz)
    · rw [update_of_ne hie, hashTable_congr fun x h₁ h₂ => frame x (by omega)]
      exact (r.linked i hi').congr (links i hi')
  · -- the entry follows `y`
    rw [append_assoc, singleton_append] at hch linked
    have hy : y ∈ ch (dirHash e.name.bytes) := by
      rw [hch]
      exact mem_append_right _ (.head _)
    have hyoff := (r.fits y ⟨_, hi, hy⟩).offDirHeader
    have frame : ∀ x, x ≠ 32 * y.blob + 2 → x ≠ 32 * y.blob + 3 →
        unlinkEntry m e.name (some y.blob) e.blob x = m x :=
      fun x h₁ h₂ => Mem.store16_outside (by omega)
    have links : ∀ z, Live ch z → z ≠ y →
        next (unlinkEntry m e.name (some y.blob) e.blob) z.blob = next m z.blob := by
      intro z hz hne
      have hblob : z.blob ≠ y.blob := fun h =>
        hne (r.apart z y hz ⟨_, hi, hy⟩ z.blob z.covers_self (h ▸ y.covers_self))
      exact next_congr (frame _ (by omega) (by omega)) (frame _ (by omega) (by omega))
    have heads : ∀ i < 128, hashTable (unlinkEntry m e.name (some y.blob) e.blob) i =
        hashTable m i := fun i hi =>
      hashTable_congr fun x h₁ h₂ => frame x (by omega) (by omega)
    refine ⟨fun x _ hx => frame x (hx y ⟨_, hi, hy⟩).1 (hx y ⟨_, hi, hy⟩).2, fun i hi' => ?_⟩
    rw [heads i hi']
    unfold dropEntry
    by_cases hie : i = dirHash e.name.bytes
    · subst hie
      have nodup := r.nodup _ hi
      rw [hch, nodup_middle, nodup_cons] at nodup
      rw [update_self, append_assoc]
      refine linked.bypass (fun z hz => links z ⟨_, hi, ?_⟩ ?_) (Mem.load16_store16 hnext)
      · rw [hch]
        rcases mem_append.mp hz with h | h
        · exact mem_append_left _ h
        · exact mem_append_right _ (mem_cons_of_mem _ (.tail _ h))
      · rintro rfl
        refine nodup.1 ?_
        rcases mem_append.mp hz with h | h
        · exact mem_append_left _ h
        · exact mem_append_right _ (.tail _ h)
    · rw [update_of_ne hie]
      refine (r.linked i hi').congr fun z hz => links z ⟨i, hi', hz⟩ ?_
      rintro rfl
      exact hie ((r.hash i hi' z hz).symm.trans (r.hash _ hi z hy))

end Drop

end Relink

end Coda.Dir
