import Coda.Dir.Refinement

/-!
What an image that `DIR_DirOK` accepts may be relied on for.

The checker rebuilds the blob bitmap from the chains by or-ing the entries' bits, so it
cannot see that two entries share a blob; it does not compare names, it does not look at an
entry's position within its page, its bound on entry numbers lets in the first blob behind the
last page, and its loop over the counts starts at page 1. `Checked` is what acceptance does
establish. `Tallies` are the checks that are missing: with them, and only with them, an accepted
image satisfies the invariant of the operations.
-/

namespace Coda.Dir

open Coda.Lib List

/-- What `DIR_DirOK` establishes. -/
structure Checked (m : Image) : Prop where
  ends : ∀ i < 128, ∃ l, LinkedBlobs m (hashTable m i) l
  entry : ∀ i < 128, ∀ l, LinkedBlobs m (hashTable m i) l → ∀ b ∈ l,
    b ≤ 64 * (dirLength m / 2048) ∧ flag m b = 1#8 ∧
      1 ≤ nameLength m b ∧ nameLength m b ≤ 255 ∧ dirHash (nameAt m b) = i
  bitmap : BitmapExact m
  tags : ∀ p < dirLength m / 2048, tag m p = 1234
  allo : ∀ p < dirLength m / 2048, 1 ≤ p → allomap m p = freeBlobs m p
  beyond : ∀ p < 128, dirLength m / 2048 ≤ p → allomap m p = 64

/-- What else the operations need. -/
structure Regular (m : Image) : Prop extends Placed m where
  names : ∀ b b', OnChain m b → OnChain m b' → nameAt m b = nameAt m b' → b = b'
  allo_zero : allomap m 0 = freeBlobs m 0

/-- What an image that passed should be: the entries are apart, each inside a page, no two of them
have the same name, the counts of all pages are those of the bitmaps, and all directory functions
answer as a finite map, after any further calls. -/
structure Reliable (m : Image) : Prop extends Regular m where
  allo : ∀ p < dirLength m / 2048, allomap m p = freeBlobs m p
  answers : ∃ f, ∀ ops, Always Tracked.step (fun s => Answers s.image s.contents) ⟨m, f⟩ ops

/-! ### The checks that are missing -/

/-- The entries from blob `b` on, for at most `k` links. -/
def chainFrom (m : Image) : Nat → Nat → List Nat
  | 0, _ => []
  | k + 1, b => if b = 0 then [] else b :: chainFrom m k (next m b)

/-- The entries on all chains. -/
def chained (m : Image) : List Nat :=
  (List.range 128).flatMap fun i => chainFrom m 65536 (hashTable m i)

instance IsHeader.decidable (b : Nat) : Decidable (IsHeader b) :=
  inferInstanceAs (Decidable (_ ∨ _))

/-- The header blobs, and the blobs of one entry after the other. -/
def blobsInUse (m : Image) : List Nat :=
  (List.range (64 * (dirLength m / 2048))).filter (fun b => IsHeader b) ++
    (chained m).flatMap fun b => List.range' b (blobsAt m b)

/-- As many bits are set as there are blobs in use, no entry goes beyond the end of its page, no
name is there twice, and the count of page 0 is that of its bitmap. -/
structure Tallies (m : Image) : Prop where
  used : (blobsInUse m).length =
    ((Finset.range (64 * (dirLength m / 2048))).filter fun b => blobBit m b = true).card
  inPage : ∀ b ∈ chained m, b % 64 + blobsAt m b ≤ 64
  names : ((chained m).map (nameAt m)).Nodup
  allo_zero : allomap m 0 = freeBlobs m 0

/-! ### What acceptance establishes -/

section Accepted

variable {m : Image} {ch : Nat → List Nat}

theorem Accepted.onChain_iff (acc : Accepted m ch) (b : Nat) :
    OnChain m b ↔ ∃ i < 128, b ∈ ch i := by
  constructor
  · rintro ⟨i, hi, l, linked, hb⟩
    rw [linked.unique (acc.walked i hi).linked] at hb
    exact ⟨i, hi, hb⟩
  · rintro ⟨i, hi, hb⟩
    exact ⟨i, hi, _, (acc.walked i hi).linked, hb⟩

theorem Accepted.checks (acc : Accepted m ch) {i b : Nat} (hi : i < 128) (hb : b ∈ ch i) :
    b ≤ 64 * (dirLength m / 2048) ∧ flag m b = 1#8 ∧ 1 ≤ nameLength m b ∧ nameLength m b ≤ 255 ∧
      dirHash (nameAt m b) = i := by
  have hok := (acc.walked i hi).checked b hb
  rw [entryOK, decide_eq_true_iff, dirGetBlob, decide_eq_true_iff] at hok
  obtain ⟨hbound, -, hflag, hle, hpos, hhash⟩ := hok
  exact ⟨hbound, hflag, by omega, hle, hhash⟩

/-- At least page 0 is allocated. -/
theorem Accepted.pages_pos (acc : Accepted m ch) : 1 ≤ dirLength m / 2048 := by
  have hmem : 0 ∈ (List.range 128).filter fun i => allomap m i ≠ 64 := by
    have := acc.allo_zero
    simp only [mem_filter, mem_range, decide_eq_true_iff]
    omega
  have hpos := length_pos_of_mem hmem
  rw [dirLength, Nat.mul_div_cancel _ (by omega)]
  exact hpos

theorem pages_le (m : Image) : dirLength m / 2048 ≤ 128 := by
  have := length_filter_le (fun i => decide (allomap m i ≠ 64)) (List.range 128)
  rw [dirLength, Nat.mul_div_cancel _ (by omega)]
  exact this

theorem Accepted.checked (acc : Accepted m ch) : Checked m := by
  refine ⟨fun i hi => ⟨_, (acc.walked i hi).linked⟩, ?_, ?_, ?_, acc.allo, acc.beyond⟩
  · intro i hi l linked b hb
    rw [linked.unique (acc.walked i hi).linked] at hb
    exact acc.checks hi hb
  · intro x hx
    rw [acc.bit x hx]
    refine or_congr_right ?_
    simp only [acc.onChain_iff]
    constructor
    · rintro ⟨i, hi, b, hb, hspan⟩
      exact ⟨b, ⟨i, hi, hb⟩, hspan⟩
    · rintro ⟨b, ⟨i, hi, hb⟩, hspan⟩
      exact ⟨i, hi, b, hb, hspan⟩
  · intro p hp
    by_cases hp0 : p = 0
    · rw [hp0]
      exact acc.tag_zero
    · exact acc.tags p hp (by omega)

end Accepted

/-! ### Counting the blobs -/

section Count

variable {m : Image} {ch : Nat → List Nat}

/-- A chain that ends has no blob twice. -/
theorem LinkedBlobs.nodup {h : Nat} {l : List Nat} (linked : LinkedBlobs m h l) : l.Nodup := by
  induction l generalizing h with
  | nil => exact nodup_nil
  | cons b l ih =>
    refine nodup_cons.mpr ⟨fun hb => ?_, ih linked.2.2⟩
    -- the chain behind the second occurrence would be the one behind the first
    have tail : ∀ {h : Nat} {l : List Nat}, LinkedBlobs m h l → b ∈ l →
        ∃ t, LinkedBlobs m (next m b) t ∧ t.length < l.length := by
      intro h l linked hb
      induction l generalizing h with
      | nil => cases hb
      | cons c l ih =>
        rcases mem_cons.mp hb with rfl | hb
        · exact ⟨l, linked.2.2, Nat.lt_succ_self _⟩
        · obtain ⟨t, ht, hlen⟩ := ih linked.2.2 hb
          exact ⟨t, ht, Nat.lt_succ_of_lt hlen⟩
    obtain ⟨t, ht, hlen⟩ := tail linked.2.2 hb
    rw [ht.unique linked.2.2] at hlen
    exact lt_irrefl _ hlen

theorem LinkedBlobs.chainFrom_eq {h k : Nat} {l : List Nat} (linked : LinkedBlobs m h l)
    (hlen : l.length < k) : chainFrom m k h = l := by
  induction l generalizing h k with
  | nil =>
    obtain ⟨k, rfl⟩ := Nat.exists_eq_succ_of_ne_zero (ne_of_gt hlen)
    exact if_pos linked
  | cons b l ih =>
    obtain ⟨k, rfl⟩ := Nat.exists_eq_succ_of_ne_zero (Nat.ne_zero_of_lt hlen)
    obtain ⟨rfl, hne, linked⟩ := linked
    rw [chainFrom, if_neg hne, ih linked (Nat.lt_of_succ_lt_succ hlen)]

theorem Accepted.chained_eq (acc : Accepted m ch) : chained m = (List.range 128).flatMap ch := by
  refine flatMap_congr fun i hi => ?_
  have walked := acc.walked i (mem_range.mp hi)
  exact walked.linked.chainFrom_eq walked.finite

theorem Accepted.mem_chained (acc : Accepted m ch) (b : Nat) : b ∈ chained m ↔ OnChain m b := by
  rw [acc.chained_eq, acc.onChain_iff, mem_flatMap]
  simp only [mem_range]

/-- No chain has an entry twice, and an entry is on the chain of its name only. -/
theorem Accepted.nodup_chained (acc : Accepted m ch) : (chained m).Nodup := by
  rw [acc.chained_eq, nodup_flatMap]
  refine ⟨fun i hi => (acc.walked i (mem_range.mp hi)).linked.nodup,
    nodup_range.pairwise_of_forall_ne fun i hi j hj hne b hbi hbj => hne ?_⟩
  have hhash := (acc.checks (mem_range.mp hi) hbi).2.2.2.2
  exact hhash.symm.trans (acc.checks (mem_range.mp hj) hbj).2.2.2.2

theorem Accepted.mem_blobsInUse (acc : Accepted m ch) (x : Nat) : x ∈ blobsInUse m ↔
    (x < 64 * (dirLength m / 2048) ∧ IsHeader x) ∨
      ∃ b, OnChain m b ∧ Span b (blobsAt m b) x := by
  simp only [blobsInUse, mem_append, mem_filter, mem_range, decide_eq_true_iff, mem_flatMap,
    acc.mem_chained, mem_range'_1, Span]

/-- A list that has all members of a set is as long as the set is large if it has no others, and
none of them twice. -/
theorem length_eq_card_iff {l : List Nat} {s : Finset Nat} (h : s ⊆ l.toFinset) :
    l.length = s.card ↔ l.Nodup ∧ ∀ x ∈ l, x ∈ s := by
  constructor
  · intro hlen
    have heq : s = l.toFinset :=
      Finset.eq_of_subset_of_card_le h (hlen ▸ l.toFinset_card_le)
    have hcard : (l : Multiset Nat).toFinset.card = Multiset.card (l : Multiset Nat) := by
      change l.toFinset.card = l.length
      rw [hlen, heq]
    refine ⟨Multiset.toFinset_card_eq_card_iff_nodup.mp hcard, fun x hx => ?_⟩
    rw [heq]
    exact mem_toFinset.mpr hx
  · rintro ⟨nodup, hsub⟩
    rw [← toFinset_card_of_nodup nodup]
    exact congrArg Finset.card ((Finset.Subset.antisymm h fun x hx =>
      hsub x (mem_toFinset.mp hx)).symm)

/-- The blobs in use are as many as the bits exactly if none of them is used twice and all of them
are in the pages. -/
theorem Accepted.used_iff (acc : Accepted m ch) :
    (blobsInUse m).length =
        ((Finset.range (64 * (dirLength m / 2048))).filter fun b => blobBit m b = true).card ↔
      (blobsInUse m).Nodup ∧ ∀ x ∈ blobsInUse m, x < 64 * (dirLength m / 2048) := by
  have hbit : ∀ x < 64 * (dirLength m / 2048), x ∈ blobsInUse m ↔ blobBit m x = true := by
    intro x hx
    rw [acc.mem_blobsInUse, acc.checked.bitmap x hx, and_iff_right hx]
  rw [length_eq_card_iff]
  · refine and_congr_right fun _ => forall_congr' fun x => forall_congr' fun hmem => ?_
    rw [Finset.mem_filter, Finset.mem_range]
    exact and_iff_left_of_imp fun hx => (hbit x hx).mp hmem
  · intro x hx
    obtain ⟨hx, hset⟩ := Finset.mem_filter.mp hx
    exact mem_toFinset.mpr ((hbit x (Finset.mem_range.mp hx)).mpr hset)

theorem Accepted.nodup_blobsInUse_iff (acc : Accepted m ch) : (blobsInUse m).Nodup ↔
    (∀ b b', OnChain m b → OnChain m b' → b ≠ b' →
      ∀ x, ¬ (Span b (blobsAt m b) x ∧ Span b' (blobsAt m b') x)) ∧
    ∀ b, OnChain m b → ∀ x < 64 * (dirLength m / 2048), Span b (blobsAt m b) x → ¬ IsHeader x := by
  have hdisjoint : ∀ b b', Disjoint (range' b (blobsAt m b)) (range' b' (blobsAt m b')) ↔
      ∀ x, ¬ (Span b (blobsAt m b) x ∧ Span b' (blobsAt m b') x) := fun b b' => by
    simp only [List.Disjoint, mem_range'_1, Span]
    exact ⟨fun h x hx => h hx.1 hx.2, fun h x hx hx' => h x ⟨hx, hx'⟩⟩
  rw [blobsInUse, nodup_append', nodup_flatMap]
  constructor
  · rintro ⟨-, ⟨-, hpair⟩, hheader⟩
    refine ⟨fun b b' hb hb' hne => ?_, fun b hb x hx hspan hhead => ?_⟩
    · have : Std.Symm (Function.onFun List.Disjoint fun b => range' b (blobsAt m b)) :=
        ⟨fun _ _ h => h.symm⟩
      exact (hdisjoint b b').mp (hpair.forall
        ((acc.mem_chained b).mpr hb) ((acc.mem_chained b').mpr hb') hne)
    · exact hheader (mem_filter.mpr ⟨mem_range.mpr hx, decide_eq_true hhead⟩)
        (mem_flatMap.mpr ⟨b, (acc.mem_chained b).mpr hb, mem_range'_1.mpr hspan⟩)
  · rintro ⟨apart, offHeader⟩
    refine ⟨nodup_range.filter _, ⟨fun b _ => nodup_range', ?_⟩, fun x hx hmem => ?_⟩
    · exact acc.nodup_chained.pairwise_of_forall_ne fun b hb b' hb' hne => (hdisjoint b b').mpr
        (apart b b' ((acc.mem_chained b).mp hb) ((acc.mem_chained b').mp hb') hne)
    · obtain ⟨hx, hhead⟩ := mem_filter.mp hx
      obtain ⟨b, hb, hspan⟩ := mem_flatMap.mp hmem
      exact offHeader b ((acc.mem_chained b).mp hb) x (mem_range.mp hx) (mem_range'_1.mp hspan)
        (of_decide_eq_true hhead)

theorem span_self (m : Image) (b : Nat) : Span b (blobsAt m b) b :=
  ⟨le_refl b, Nat.lt_add_of_pos_right (dirNameBlobs_pos _)⟩

theorem Accepted.names_iff (acc : Accepted m ch) : ((chained m).map (nameAt m)).Nodup ↔
    ∀ b b', OnChain m b → OnChain m b' → nameAt m b = nameAt m b' → b = b' := by
  rw [nodup_map_iff_inj_on acc.nodup_chained]
  simp only [acc.mem_chained]
  exact ⟨fun h b b' hb hb' => h b hb b' hb', fun h b hb b' hb' => h b b' hb hb'⟩

theorem Accepted.regular_iff (acc : Accepted m ch) : Regular m ↔ Tallies m := by
  constructor
  · intro regular
    refine ⟨acc.used_iff.mpr ⟨acc.nodup_blobsInUse_iff.mpr ⟨regular.apart, ?_⟩, ?_⟩, ?_,
      acc.names_iff.mpr regular.names, regular.allo_zero⟩
    · exact fun b hb x _ => regular.offHeader b hb x
    · intro x hx
      rcases (acc.mem_blobsInUse x).mp hx with hhead | ⟨b, hb, hspan⟩
      · exact hhead.1
      · obtain ⟨hpage, hend⟩ := regular.inPage b hb
        unfold Span at hspan
        omega
    · exact fun b hb => (regular.inPage b ((acc.mem_chained b).mp hb)).2
  · intro tallies
    obtain ⟨nodup, hin⟩ := acc.used_iff.mp tallies.used
    obtain ⟨apart, offHeader⟩ := acc.nodup_blobsInUse_iff.mp nodup
    have hblob : ∀ b, OnChain m b → ∀ x, Span b (blobsAt m b) x →
        x < 64 * (dirLength m / 2048) := fun b hb x hspan =>
      hin x ((acc.mem_blobsInUse x).mpr (.inr ⟨b, hb, hspan⟩))
    refine { inPage := fun b hb => ⟨?_, ?_⟩, apart := apart, offHeader := ?_,
             names := acc.names_iff.mp tallies.names, allo_zero := tallies.allo_zero }
    · have := hblob b hb b (span_self m b)
      omega
    · exact tallies.inPage b ((acc.mem_chained b).mpr hb)
    · exact fun b hb x hspan => offHeader b hb x (hblob b hb x hspan) hspan

end Count

/-! ### Reading the entries back -/

/-- The entry at a blob. -/
def readEntry (m : Image) (b : Nat) : Entry where
  blob := b
  name := ⟨(nameAt m b).filter (· ≠ 0#8), by simp⟩
  fid := fid m b

section Read

variable {m : Image} {ch : Nat → List Nat}

theorem readEntry_at {b : Nat} (hflag : flag m b = 1#8) (hle : nameLength m b ≤ 255) :
    EntryAt m (readEntry m b) ∧ (readEntry m b).name.bytes = nameAt m b := by
  have hlt : m.strlen 262144 (nameAddr b) < 262144 := by
    change nameLength m b < 262144
    omega
  obtain ⟨cstr, nonul⟩ := Mem.cstr_of_strlen_lt hlt
  have hname : (readEntry m b).name.bytes = nameAt m b := by
    refine filter_eq_self.mpr fun c hc => ?_
    rw [decide_eq_true_iff]
    rintro rfl
    exact nonul hc
  refine ⟨⟨hflag, rfl, ?_⟩, hname⟩
  rw [hname]
  exact cstr

theorem LinkedBlobs.entries {h : Nat} {l : List Nat} (linked : LinkedBlobs m h l) :
    Linked m h (l.map (readEntry m)) := by
  induction l generalizing h with
  | nil => exact linked
  | cons b l ih => exact ⟨linked.1, ih linked.2.2⟩

theorem Accepted.live_iff (acc : Accepted m ch) {e : Entry} :
    Live (fun i => (ch i).map (readEntry m)) e ↔ ∃ b, OnChain m b ∧ e = readEntry m b := by
  simp only [acc.onChain_iff]
  constructor
  · rintro ⟨i, hi, he⟩
    obtain ⟨b, hb, rfl⟩ := mem_map.mp he
    exact ⟨b, ⟨i, hi, hb⟩, rfl⟩
  · rintro ⟨b, ⟨i, hi, hb⟩, rfl⟩
    exact ⟨i, hi, mem_map_of_mem hb⟩

theorem Accepted.entryAt (acc : Accepted m ch) {b : Nat} (hb : OnChain m b) :
    EntryAt m (readEntry m b) ∧ (readEntry m b).name.bytes = nameAt m b := by
  obtain ⟨i, hi, hb⟩ := (acc.onChain_iff b).mp hb
  obtain ⟨-, hflag, -, hle, -⟩ := acc.checks hi hb
  exact readEntry_at hflag hle

theorem Accepted.blobs_readEntry (acc : Accepted m ch) {b : Nat} (hb : OnChain m b) :
    (readEntry m b).blobs = blobsAt m b := by
  rw [Entry.blobs, (acc.entryAt hb).2, nameAt, Mem.length_bytes]
  rfl

theorem Accepted.covers_iff (acc : Accepted m ch) {b : Nat} (hb : OnChain m b) {x : Nat} :
    (readEntry m b).Covers x ↔ Span b (blobsAt m b) x := by
  rw [Entry.Covers, acc.blobs_readEntry hb]
  rfl

/-- An accepted image that is regular satisfies the invariant. -/
theorem Accepted.rep (acc : Accepted m ch) (regular : Regular m) :
    Rep m (dirLength m / 2048) (fun i => (ch i).map (readEntry m)) noBlobs := by
  have layout : Layout (dirLength m / 2048) (fun i => (ch i).map (readEntry m)) noBlobs := by
    refine ⟨acc.pages_pos, pages_le m, ?_, ?_, ?_, ?_, ?_, fun b hb => hb.elim⟩
    · intro e he
      obtain ⟨b, hb, rfl⟩ := acc.live_iff.mp he
      obtain ⟨i, hi, hbi⟩ := (acc.onChain_iff b).mp hb
      obtain ⟨-, -, hpos, hle, -⟩ := acc.checks hi hbi
      have hname : (readEntry m b).name.bytes.length = nameLength m b := by
        rw [(acc.entryAt hb).2, nameAt, Mem.length_bytes]
      obtain ⟨hpage, hin⟩ := regular.inPage b hb
      have hhead := regular.offHeader b hb b (span_self m b)
      refine ⟨by omega, by omega, hpage, ?_, ?_, ?_⟩
      · rw [acc.blobs_readEntry hb]
        exact hin
      · exact Nat.one_le_iff_ne_zero.mpr fun h => hhead (.inr h)
      · exact Nat.le_of_not_lt fun h => hhead (.inl h)
    · intro i hi e he
      obtain ⟨b, hb, rfl⟩ := mem_map.mp he
      rw [(acc.entryAt ((acc.onChain_iff b).mpr ⟨i, hi, hb⟩)).2]
      exact (acc.checks hi hb).2.2.2.2
    · intro e e' he he' x hx hx'
      obtain ⟨b, hb, rfl⟩ := acc.live_iff.mp he
      obtain ⟨b', hb', rfl⟩ := acc.live_iff.mp he'
      by_contra hne
      exact regular.apart b b' hb hb' (fun h => hne (congrArg _ h)) x
        ⟨(acc.covers_iff hb).mp hx, (acc.covers_iff hb').mp hx'⟩
    · intro e e' he he' hname
      obtain ⟨b, hb, rfl⟩ := acc.live_iff.mp he
      obtain ⟨b', hb', rfl⟩ := acc.live_iff.mp he'
      have hbytes := congrArg CString.bytes hname
      rw [(acc.entryAt hb).2, (acc.entryAt hb').2] at hbytes
      rw [regular.names b b' hb hb' hbytes]
    · intro i hi
      exact (acc.walked i hi).linked.nodup.map fun b b' h => congrArg Entry.blob h
  have checked := acc.checked
  refine { layout with tags := checked.tags, allo := ?_, beyond := acc.beyond,
                       linked := ?_, entry := ?_, bit := ?_ }
  · intro p hp
    by_cases hp0 : p = 0
    · rw [hp0]
      exact regular.allo_zero
    · exact acc.allo p hp (by omega)
  · exact fun i hi => (acc.walked i hi).linked.entries
  · intro e he
    obtain ⟨b, hb, rfl⟩ := acc.live_iff.mp he
    exact (acc.entryAt hb).1
  · intro x hx
    rw [checked.bitmap x hx]
    refine or_congr_right ?_
    constructor
    · rintro ⟨b, hb, hspan⟩
      exact .inl ⟨_, acc.live_iff.mpr ⟨b, hb, rfl⟩, (acc.covers_iff hb).mpr hspan⟩
    · rintro (⟨e, he, hcov⟩ | hres)
      · obtain ⟨b, hb, rfl⟩ := acc.live_iff.mp he
        exact ⟨b, hb, (acc.covers_iff hb).mp hcov⟩
      · exact hres.elim

end Read

/-! ### The contents of chains -/

section Contents

variable {ch : Nat → List Entry}

/-- The map that the entries on the chains make. -/
def contentsOf (ch : Nat → List Entry) : Contents := fun name =>
  ((allEntries ch).find? fun e => e.name = name).map Entry.fid

theorem Layout.denotes {P : Nat} {reserved : Nat → Prop} (l : Layout P ch reserved) :
    Denotes (contentsOf ch) ch := by
  intro name fid
  unfold contentsOf
  constructor
  · intro h
    obtain ⟨e, hfind, hfid⟩ := Option.map_eq_some_iff.mp h
    have hname := List.find?_some hfind
    exact ⟨e, mem_allEntries.mp (mem_of_find?_eq_some hfind), of_decide_eq_true hname, hfid⟩
  · rintro ⟨e, he, rfl, rfl⟩
    cases hfind : (allEntries ch).find? fun x => x.name = e.name with
    | none =>
      have := List.find?_eq_none.mp hfind e (mem_allEntries.mpr he)
      simp at this
    | some x =>
      have hname := List.find?_some hfind
      rw [l.names x e (mem_allEntries.mp (mem_of_find?_eq_some hfind)) he
        (of_decide_eq_true hname)]
      rfl

end Contents

/-- An accepted image is in order as far as `Checked` goes, and it is reliable exactly if it would
pass the missing checks too. -/
theorem dirOK_reliable_iff (m : Image) (ok : dirDirOK m = some true) :
    Checked m ∧ (Reliable m ↔ Tallies m) := by
  obtain ⟨ch, acc⟩ := (dirDirOK_eq_true_iff m).mp ok
  refine ⟨acc.checked, fun reliable => acc.regular_iff.mp reliable.toRegular, fun tallies => ?_⟩
  have regular := acc.regular_iff.mpr tallies
  have rep := acc.rep regular
  exact { regular with allo := rep.allo, answers := ⟨_, rep.always_answers rep.toLayout.denotes⟩ }

/-! ### Accepted images -/

/-- One page with the count, the bitmap and these entries, each put on its chain. -/
def onePage (count : Int) (bitmap : List (BitVec 8)) (entries : List (Nat × CString)) : Image :=
  let m := setTag (fun _ => 0#8) 0 1234
  let m := (m.fill 33 127 64#8).store 5 bitmap
  let m := setAllomap (setFreecount m 0 count) 0 count
  entries.foldl (fun m e => threadEntry m e.1 e.2 ⟨1, 1⟩) m

/-- A name of one byte. -/
def shortName : CString := ⟨[0x61#8], by decide⟩

/-- A name of 16 bytes, with which an entry takes two blobs. -/
def longerName : CString := ⟨List.replicate 16 0x61#8, by decide⟩

/-- A page with an entry of two blobs and one of one blob. -/
theorem dirOK_reliable_two_entries :
    chained (onePage 48 [0xff#8, 0xff#8] [(13, longerName), (15, shortName)]) = [13, 15] ∧
      Reliable (onePage 48 [0xff#8, 0xff#8] [(13, longerName), (15, shortName)]) :=
  ⟨by decide +kernel,
    (dirOK_reliable_iff _ (by decide +kernel)).2.mpr
      ⟨by decide +kernel, by decide +kernel, by decide +kernel, by decide +kernel⟩⟩

/-- Accepted: two entries on one blob, an entry with a blob behind its page, an entry behind the
last page, two entries with one name, and a wrong count for page 0. -/
theorem dirOK_accepts_unreliable :
    (∃ m, m = onePage 49 [0xff#8, 0x7f#8] [(13, longerName), (14, shortName)] ∧
      dirDirOK m = some true ∧ dirLength m = 2048 ∧ chained m = [13, 14] ∧
      Span 13 (blobsAt m 13) 14 ∧ Span 14 (blobsAt m 14) 14) ∧
    (∃ m, m = onePage 50 [0xff#8, 0x1f#8, 0#8, 0#8, 0#8, 0#8, 0#8, 0x80#8] [(63, longerName)] ∧
      dirDirOK m = some true ∧ dirLength m = 2048 ∧ chained m = [63] ∧
      Span 63 (blobsAt m 63) 64) ∧
    (∃ m, m = onePage 51 [0xff#8, 0x1f#8] [(64, shortName)] ∧
      dirDirOK m = some true ∧ dirLength m = 2048 ∧ chained m = [64]) ∧
    (∃ m, m = onePage 49 [0xff#8, 0x7f#8] [(13, shortName), (14, shortName)] ∧
      dirDirOK m = some true ∧ dirLength m = 2048 ∧ chained m = [14, 13] ∧
      nameAt m 13 = nameAt m 14) ∧
    ∃ m, m = onePage 40 [0xff#8, 0x3f#8] [(13, shortName)] ∧
      dirDirOK m = some true ∧ dirLength m = 2048 ∧ allomap m 0 = 40 ∧ freeBlobs m 0 = 50 := by
  unfold Span
  refine ⟨⟨_, rfl, ?_⟩, ⟨_, rfl, ?_⟩, ⟨_, rfl, ?_⟩, ⟨_, rfl, ?_⟩, ⟨_, rfl, ?_⟩⟩
  all_goals decide +kernel

end Coda.Dir
