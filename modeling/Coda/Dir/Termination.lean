import Coda.Dir.Check

/-!
Does `DIR_DirOK` return?

The walk of a chain follows the 16-bit links of entries that pass their checks, and nothing in
these checks says that an entry was not on the chain before. Here the walk is given any number
of rounds. It ends exactly when no chain that is reached runs in a circle, and then within the
65536 rounds of `dirDirOK`.
-/

namespace Coda.Dir

open Coda.Lib Relation List Function

/-! ### Walks of any length -/

/-- `DIR_DirOK` returns. -/
def Terminates (m : Image) : Prop := ∃ k, (dirDirOKWithin k m).isSome

/-- The image passes the checks that come before the walk of the chains. -/
def HeaderOK (m : Image) : Prop :=
  tag m 0 = 1234 ∧ ¬ (allomap m 0 < 0 ∨ allomap m 0 > 51) ∧
    (∀ i < dirLength m / 2048, 1 ≤ i → 0 ≤ allomap m i ∧ allomap m i ≤ 63) ∧
    (∀ i < 128, dirLength m / 2048 ≤ i → allomap m i = 64) ∧
    (∀ i < dirLength m / 2048, 1 ≤ i → tag m i = 1234) ∧
    ∀ i < dirLength m / 2048, 1 ≤ i → fcount m i = allomap m i

instance HeaderOK.decidable (m : Image) : Decidable (HeaderOK m) :=
  inferInstanceAs (Decidable (_ ∧ _))

/-- An image that fails the first checks is refused at once; otherwise it depends on the chains. -/
theorem isSome_dirDirOKWithin_iff (k : Nat) (m : Image) :
    (dirDirOKWithin k m).isSome = true ↔ (HeaderOK m →
      (okChains k m (dirLength m / 2048) (List.range 128)
        (eaMapInit (dirLength m / 2048))).isSome = true) := by
  unfold dirDirOKWithin
  dsimp only
  -- a check of the header that fails, and the chains when none does
  split_ifs with h₁ h₂ h₃ h₄ h₅ h₆
  · exact iff_of_true rfl fun h => absurd h.1 h₁
  · exact iff_of_true rfl fun h => absurd h₂ h.2.1
  · have header : HeaderOK m := ⟨not_not.mp h₁, h₂, h₃, h₄, h₅, h₆⟩
    rw [forall_prop_of_true header]
    cases okChains k m (dirLength m / 2048) (List.range 128)
        (eaMapInit (dirLength m / 2048)) with
    | none => exact .rfl
    | some r =>
      cases r with
      | none => exact .rfl
      | some eaMap => exact .rfl
  · exact iff_of_true rfl fun h => absurd h.2.2.2.2.2 h₆
  · exact iff_of_true rfl fun h => absurd h.2.2.2.2.1 h₅
  · exact iff_of_true rfl fun h => absurd h.2.2.2.1 h₄
  · exact iff_of_true rfl fun h => absurd h.2.2.1 h₃

/-! ### Circles -/

section Chain

variable (m : Image) (pages i : Nat)

/-- The walk of chain `i` goes on from an entry that passes its checks to the next. -/
def Link (a b : Nat) : Prop := entryOK m pages i a = true ∧ next m a = b

/-- From this entry the walk comes to one that leads back to itself. -/
def Circles (a : Nat) : Prop := ∃ b, ReflTransGen (Link m pages i) a b ∧ TransGen (Link m pages i) b b

/-- Chain `i` runs in a circle. -/
def Cyclic : Prop := Circles m pages i (hashTable m i)

/-- Chain `i` leads to an entry that does not pass its checks. -/
def Broken : Prop :=
  ∃ a, ReflTransGen (Link m pages i) (hashTable m i) a ∧ a ≠ 0 ∧ entryOK m pages i a = false

variable {m pages i}

theorem entryOK_zero : entryOK m pages i 0 = false := by
  simp [entryOK, dirGetBlob]

theorem Circles.next {a : Nat} (h : Circles m pages i a) :
    entryOK m pages i a = true ∧ Circles m pages i (next m a) := by
  obtain ⟨b, hab, hbb⟩ := h
  have step : ∃ c, Link m pages i a c ∧ Circles m pages i c := by
    cases hab.cases_head with
    | inl heq =>
      subst heq
      obtain ⟨c, hac, hca⟩ := TransGen.head'_iff.mp hbb
      exact ⟨c, hac, a, hca, hbb⟩
    | inr hstep =>
      obtain ⟨c, hac, hcb⟩ := hstep
      exact ⟨c, hac, b, hcb, hbb⟩
  obtain ⟨c, ⟨hok, rfl⟩, hc⟩ := step
  exact ⟨hok, hc⟩

/-- A walk in a circle has no end. -/
theorem Circles.okLoop_eq (k : Nat) {a : Nat} (h : Circles m pages i a) (eaMap : Nat → BitVec 8) :
    okLoop m pages i k a eaMap = none := by
  induction k generalizing a eaMap with
  | zero => rfl
  | succ k ih =>
    obtain ⟨hok, hnext⟩ := h.next
    have hne : a ≠ 0 := by
      rintro rfl
      cases hok
    rw [okLoop, if_neg hne, if_pos hok]
    exact ih hnext _

/-- The entries that a walk of any length visits. -/
theorem reflTransGen_iterate {n : Nat} {a : Nat}
    (h : ∀ j < n, entryOK m pages i ((Dir.next m)^[j] a) = true) :
    ReflTransGen (Link m pages i) a ((Dir.next m)^[n] a) := by
  induction n with
  | zero => exact .refl
  | succ n ih =>
    rw [iterate_succ_apply']
    exact (ih fun j hj => h j (by omega)).tail ⟨h n (by omega), rfl⟩

/-- A walk of 65536 entries has visited one of them twice. -/
theorem circles_of_long {a : Nat} (ha : a < 65536)
    (h : ∀ j < 65536, entryOK m pages i ((Dir.next m)^[j] a) = true) : Circles m pages i a := by
  have hlt : ∀ j, (Dir.next m)^[j] a < 65536 := by
    intro j
    cases j with
    | zero => exact ha
    | succ j =>
      rw [iterate_succ_apply']
      exact Mem.load16_lt _ _
  have hpos : ∀ j < 65536, (Dir.next m)^[j] a ≠ 0 := by
    intro j hj hzero
    have := h j hj
    rw [hzero] at this
    cases this
  obtain ⟨x, hx, y, hy, hne, heq⟩ := Finset.exists_ne_map_eq_of_card_lt_of_maps_to
    (by rw [Finset.card_range, Nat.card_Ico]; omega)
    (fun j hj => Finset.mem_Ico.mpr
      ⟨pos_of_ne_zero (hpos j (Finset.mem_range.mp hj)), hlt j⟩)
  -- the earlier of the two visits leads to the later one
  have back : ∀ x y, x < y → y < 65536 → (Dir.next m)^[x] a = (Dir.next m)^[y] a →
      Circles m pages i a := by
    intro x y hxy hy heq
    refine ⟨(Dir.next m)^[x] a, reflTransGen_iterate fun j hj => h j (by omega), ?_⟩
    have hrest := @reflTransGen_iterate m pages i (y - x - 1)
      ((Dir.next m)^[x + 1] a) fun j hj => by
        rw [← iterate_add_apply]
        exact h _ (by omega)
    rw [← iterate_add_apply, show y - x - 1 + (x + 1) = y by omega, ← heq,
      iterate_succ_apply'] at hrest
    exact TransGen.head' ⟨h x (by omega), rfl⟩ hrest
  rw [Finset.mem_range] at hx hy
  rcases Nat.lt_or_gt_of_ne hne with hlt | hlt
  · exact back x y hlt hy heq
  · exact back y x hlt hx heq.symm

/-- A walk comes to an end at the first entry that is not followed. -/
theorem okLoop_isSome {n k a : Nat} (hn : n < k)
    (hend : entryOK m pages i ((Dir.next m)^[n] a) = false) (eaMap : Nat → BitVec 8) :
    (okLoop m pages i k a eaMap).isSome = true := by
  induction n generalizing k a eaMap with
  | zero =>
    obtain ⟨k, rfl⟩ := Nat.exists_eq_succ_of_ne_zero (ne_of_gt hn)
    rw [iterate_zero_apply] at hend
    rw [okLoop, hend]
    split_ifs with hzero hok
    · rfl
    · cases hok
    · rfl
  | succ n ih =>
    obtain ⟨k, rfl⟩ := Nat.exists_eq_succ_of_ne_zero (Nat.ne_zero_of_lt hn)
    rw [okLoop]
    split_ifs
    · rfl
    · exact ih (Nat.lt_of_succ_lt_succ hn) hend _
    · rfl

/-- A chain that does not run in a circle is walked to its end. -/
theorem okLoop_isSome_of_not_cyclic (h : ¬ Cyclic m pages i) (eaMap : Nat → BitVec 8) :
    (okLoop m pages i 65536 (hashTable m i) eaMap).isSome = true := by
  by_contra hnone
  apply h
  apply circles_of_long (Mem.load16_lt _ _)
  intro j hj
  by_contra hend
  exact hnone (okLoop_isSome hj (Bool.eq_false_iff.mpr hend) eaMap)

/-- The walk says 0 only at an entry that does not pass its checks, and always there. -/
theorem okLoop_eq_some_none {k a : Nat} {eaMap : Nat → BitVec 8} :
    okLoop m pages i k a eaMap = some none →
      ∃ b, ReflTransGen (Link m pages i) a b ∧ b ≠ 0 ∧ entryOK m pages i b = false := by
  induction k generalizing a eaMap with
  | zero => exact nofun
  | succ k ih =>
    intro h
    rw [okLoop] at h
    split_ifs at h with hzero hok
    · cases h
    · obtain ⟨b, hab, hb⟩ := ih h
      exact ⟨b, hab.head ⟨hok, rfl⟩, hb⟩
    · exact ⟨a, .refl, hzero, Bool.eq_false_iff.mpr hok⟩

theorem okLoop_ne_some_some {k a b : Nat} {eaMap : Nat → BitVec 8} {r : Nat → BitVec 8}
    (hab : ReflTransGen (Link m pages i) a b) (hb : b ≠ 0) (hbad : entryOK m pages i b = false) :
    okLoop m pages i k a eaMap ≠ some (some r) := by
  induction hab using ReflTransGen.head_induction_on generalizing k eaMap with
  | refl =>
    cases k with
    | zero => exact fun h => by cases h
    | succ k =>
      rw [okLoop, if_neg hb, hbad]
      exact fun h => by cases h
  | head hac _ ih =>
    obtain ⟨hok, rfl⟩ := hac
    cases k with
    | zero => exact fun h => by cases h
    | succ k =>
      rw [okLoop]
      split_ifs with hzero
      · rw [hzero] at hok
        cases hok
      · exact ih

end Chain

/-! ### All chains -/

section Chains

variable {m : Image} {pages : Nat}

/-- Every chain of the list that is reached ends: no circle comes before the first broken one. -/
def ChainsEnd (m : Image) (pages : Nat) (l : List Nat) : Prop :=
  ∀ l₁ i l₂, l = l₁ ++ i :: l₂ → Cyclic m pages i → ∃ j ∈ l₁, Broken m pages j

theorem chainsEnd_cons {i : Nat} {l : List Nat} :
    ChainsEnd m pages (i :: l) ↔
      ¬ Cyclic m pages i ∧ (Broken m pages i ∨ ChainsEnd m pages l) := by
  constructor
  · intro h
    refine ⟨fun hcyc => ?_, ?_⟩
    · obtain ⟨j, hj, -⟩ := h [] i l rfl hcyc
      cases hj
    · by_cases hbroken : Broken m pages i
      · exact .inl hbroken
      · refine .inr fun l₁ i' l₂ hl hcyc => ?_
        obtain ⟨j, hj, hb⟩ := h (i :: l₁) i' l₂ (congrArg (i :: ·) hl) hcyc
        rcases mem_cons.mp hj with rfl | hj
        · exact absurd hb hbroken
        · exact ⟨j, hj, hb⟩
  · rintro ⟨hcyc, hrest⟩ l₁ i' l₂ hl hcyc'
    cases l₁ with
    | nil =>
      obtain ⟨rfl, -⟩ := List.cons.inj hl
      exact absurd hcyc' hcyc
    | cons x l₁ =>
      obtain ⟨rfl, htail⟩ := List.cons.inj hl
      rcases hrest with hbroken | hrest
      · exact ⟨i, mem_cons_self, hbroken⟩
      · obtain ⟨j, hj, hb⟩ := hrest l₁ i' l₂ htail hcyc'
        exact ⟨j, mem_cons_of_mem _ hj, hb⟩

/-- 65536 rounds are enough where any number is. -/
theorem okChains_isSome (l : List Nat) (eaMap : Nat → BitVec 8) :
    (ChainsEnd m pages l → (okChains 65536 m pages l eaMap).isSome = true) ∧
      ∀ k, (okChains k m pages l eaMap).isSome = true → ChainsEnd m pages l := by
  induction l generalizing eaMap with
  | nil => exact ⟨fun _ => rfl, fun _ _ l₁ i l₂ hl => by simp at hl⟩
  | cons i rest ih =>
    rw [chainsEnd_cons]
    constructor
    · rintro ⟨hcyc, hrest⟩
      have hsome := okLoop_isSome_of_not_cyclic hcyc eaMap
      rw [okChains]
      cases hloop : okLoop m pages i 65536 (hashTable m i) eaMap with
      | none =>
        rw [hloop] at hsome
        cases hsome
      | some r =>
        cases r with
        | none => rfl
        | some eaMap' =>
          rcases hrest with ⟨b, hab, hb, hbad⟩ | hrest
          · exact absurd hloop (okLoop_ne_some_some hab hb hbad)
          · exact (ih eaMap').1 hrest
    · intro k hsome
      rw [okChains] at hsome
      cases hloop : okLoop m pages i k (hashTable m i) eaMap with
      | none =>
        rw [hloop] at hsome
        cases hsome
      | some r =>
        have hcyc : ¬ Cyclic m pages i := by
          intro hcyc
          rw [hcyc.okLoop_eq k eaMap] at hloop
          cases hloop
        refine ⟨hcyc, ?_⟩
        cases r with
        | none => exact .inl (okLoop_eq_some_none hloop)
        | some eaMap' =>
          rw [hloop] at hsome
          exact .inr ((ih eaMap').2 k hsome)

theorem chainsEnd_range {n : Nat} :
    ChainsEnd m pages (List.range n) ↔
      ∀ i < n, Cyclic m pages i → ∃ j < i, Broken m pages j := by
  constructor
  · intro h i hi hcyc
    have hsplit : List.range n = List.range i ++ i :: List.range' (i + 1) (n - i - 1) := by
      have hlen : n = i + (n - i - 1 + 1) := by omega
      conv_lhs => rw [hlen, range_eq_range', ← range'_append_1, zero_add,
        range'_succ, ← range_eq_range']
    obtain ⟨j, hj, hb⟩ := h _ i _ hsplit hcyc
    exact ⟨j, mem_range.mp hj, hb⟩
  · intro h l₁ i l₂ hl hcyc
    have hlen : l₁.length < n := by
      have := congrArg List.length hl
      rw [length_range, length_append, length_cons] at this
      omega
    have hi : i = l₁.length := by
      have hget : (List.range n)[l₁.length]? = some i := by
        rw [hl, List.getElem?_append_right (le_refl _), Nat.sub_self]
        rfl
      rw [List.getElem?_range hlen] at hget
      exact (Option.some.inj hget).symm
    have hl₁ : l₁ = List.range i := by
      have htake : (List.range n).take l₁.length = l₁ := by rw [hl, take_left]
      rw [← htake, take_range, min_eq_left (by omega), hi]
    obtain ⟨j, hj, hb⟩ := h i (by omega) hcyc
    exact ⟨j, hl₁ ▸ mem_range.mpr hj, hb⟩

end Chains

/-- `DIR_DirOK` returns exactly on the images that fail the first checks, and those in which every
chain that runs in a circle comes after one that leads to a bad entry. -/
theorem dirDirOK_terminates_iff (m : Image) :
    Terminates m ↔ (HeaderOK m → ∀ i < 128, Cyclic m (dirLength m / 2048) i →
      ∃ j < i, Broken m (dirLength m / 2048) j) := by
  have hchains := @okChains_isSome m (dirLength m / 2048) (List.range 128)
    (eaMapInit (dirLength m / 2048))
  rw [chainsEnd_range] at hchains
  constructor
  · rintro ⟨k, hsome⟩ header
    exact hchains.2 k ((isSome_dirDirOKWithin_iff k m).mp hsome header)
  · intro h
    exact ⟨65536, (isSome_dirDirOKWithin_iff 65536 m).mpr fun header => hchains.1 (h header)⟩

/-- A directory of one page with the entry `a` in blob 13, whose link is 13 again. -/
def looped : Image := fun x =>
  if x = 2 then 0x04#8 else if x = 3 then 0xd2#8
  else if x = 32 then 51#8 else if 33 ≤ x ∧ x < 160 then 64#8
  else if x = 160 + 2 * 97 + 1 then 13#8
  else if x = 32 * 13 then 1#8 else if x = 32 * 13 + 3 then 13#8 else if x = 32 * 13 + 12 then 0x61#8
  else 0#8

/-- `DIR_DirOK` walks the chain of this image forever. -/
theorem looped_not_terminates : dirLength looped = 2048 ∧ ¬ Terminates looped := by
  have hlength : dirLength looped = 2048 := by decide +kernel
  have header : HeaderOK looped := by decide +kernel
  have hlink : Link looped 1 97 13 13 := by
    refine ⟨?_, ?_⟩ <;> decide +kernel
  have hcyc : Cyclic looped 1 97 := by
    have hhead : hashTable looped 97 = 13 := by decide +kernel
    unfold Cyclic
    exact ⟨13, .refl, .single hlink⟩
  have hfine : ∀ j < 97, hashTable looped j = 0 := by decide +kernel
  refine ⟨hlength, ?_⟩
  rintro ⟨k, hsome⟩
  have hchains := (okChains_isSome _ _).2 k ((isSome_dirDirOKWithin_iff k looped).mp hsome header)
  rw [chainsEnd_range, hlength] at hchains
  obtain ⟨j, hj, a, hreach, hne, -⟩ := hchains 97 (by omega) hcyc
  -- the chains before are empty
  rw [hfine j hj] at hreach
  rcases hreach.cases_head with rfl | ⟨c, ⟨hok, -⟩, -⟩
  · exact hne rfl
  · rw [entryOK_zero] at hok
    cases hok

end Coda.Dir
