import Mathlib.Data.List.Basic

/-!
Open addressing with linear probing. A table is a list of slots; an entry goes to the first
slot from its home on, around the end of the table, that is not `busy`.

The mark that makes a slot busy is part of what is stored, and nothing says that every entry
sets it: an entry whose value is not busy is stored all the same, and is overwritten by the
next one that comes along.
-/

namespace Coda.Lib.Probe

open List

variable {α β : Type*}

/-- The slot after `s` in a table of `n`. -/
def next (n s : Nat) : Nat := if s + 1 = n then 0 else s + 1

/-- The first slot from `s` on that is not busy, looking at no more than `fuel` slots. -/
def probe (busy : α → Bool) (h : List α) : Nat → Nat → Option Nat
  | 0, _ => none
  | fuel + 1, s =>
    match h[s]? with
    | none => none
    | some x => if busy x then probe busy h fuel (next h.length s) else some s

/-- Stores the entries one after the other. -/
def insertAll (busy : α → Bool) (home : β → Nat) (val : β → α) (h : List α) (es : List β) :
    Option (List α) :=
  es.foldlM (fun h e => (probe busy h h.length (home e % h.length)).map fun s => h.set s (val e)) h

/-! ### Probing -/

theorem next_mod {n s j : Nat} (hn : 0 < n) : next n ((s + j) % n) = (s + (j + 1)) % n := by
  have hlt := Nat.mod_lt (s + j) hn
  rw [next, ← Nat.add_assoc, Nat.add_mod (s + j) 1 n]
  by_cases h : (s + j) % n + 1 = n
  · rw [if_pos h]
    by_cases hone : n = 1
    · subst hone
      omega
    · rw [Nat.mod_eq_of_lt (show 1 < n by omega), h, Nat.mod_self]
  · rw [if_neg h, Nat.mod_eq_of_lt (show 1 < n by omega),
      Nat.mod_eq_of_lt (show (s + j) % n + 1 < n by omega)]

/-- Every slot is met on the way around. -/
theorem exists_add_mod_eq (s : Nat) {n t : Nat} (ht : t < n) : ∃ j < n, (s + j) % n = t := by
  have hn : 0 < n := by omega
  have hs := Nat.mod_lt s hn
  refine ⟨(t + n - s % n) % n, Nat.mod_lt _ hn, ?_⟩
  rw [Nat.add_mod_mod, Nat.add_mod, Nat.add_mod_mod, show s % n + (t + n - s % n) = t + n by omega,
    Nat.add_mod_right, Nat.mod_eq_of_lt ht]

/-- The `j` slots from `s` on are busy. -/
structure Path (busy : α → Bool) (h : List α) (s j : Nat) : Prop where
  lt : j < h.length
  before : ∀ i < j, ∃ x, h[(s + i) % h.length]? = some x ∧ busy x = true

variable {busy : α → Bool} {h : List α}

/-- If a slot is not busy, probing finds one with a path to it. -/
theorem probe_spec {s : Nat} (free : ∃ (t : Nat) (x : α), h[t]? = some x ∧ busy x = false) :
    ∃ j x, Path busy h s j ∧ h[(s + j) % h.length]? = some x ∧ busy x = false ∧
      probe busy h h.length (s % h.length) = some ((s + j) % h.length) := by
  obtain ⟨t, x, ht, hx⟩ := free
  have hlt : t < h.length := by
    obtain ⟨hlt, -⟩ := List.getElem?_eq_some_iff.mp ht
    exact hlt
  have hn : 0 < h.length := by omega
  -- from the `i`-th slot on, when all before it are busy
  have from_ : ∀ fuel i, fuel + i = h.length →
      (∀ i' < i, ∃ x, h[(s + i') % h.length]? = some x ∧ busy x = true) →
      ∃ j x, Path busy h s j ∧ h[(s + j) % h.length]? = some x ∧ busy x = false ∧
        probe busy h fuel ((s + i) % h.length) = some ((s + j) % h.length) := by
    intro fuel
    induction fuel with
    | zero =>
      intro i hi before
      -- the whole table would be busy
      obtain ⟨i', hi', heq⟩ := exists_add_mod_eq s hlt
      obtain ⟨x', hx', hbusy⟩ := before i' (by omega)
      rw [heq, ht] at hx'
      cases hx'
      exact absurd hbusy (by rw [hx]; exact Bool.false_ne_true)
    | succ fuel ih =>
      intro i hi before
      have hslot : (s + i) % h.length < h.length := Nat.mod_lt _ hn
      obtain ⟨y, hy⟩ : ∃ y, h[(s + i) % h.length]? = some y := ⟨_, List.getElem?_eq_getElem hslot⟩
      rw [probe, hy]
      dsimp only
      by_cases hbusy : busy y = true
      · rw [if_pos hbusy, next_mod hn]
        refine ih (i + 1) (by omega) fun i' hi' => ?_
        rcases Nat.lt_succ_iff_lt_or_eq.mp hi' with hi' | rfl
        · exact before i' hi'
        · exact ⟨y, hy, hbusy⟩
      · rw [if_neg hbusy]
        exact ⟨i, y, ⟨by omega, before⟩, hy, Bool.eq_false_iff.mpr hbusy, rfl⟩
  have := from_ h.length 0 rfl fun i hi => absurd hi (Nat.not_lt_zero i)
  rwa [Nat.add_zero] at this

/-! ### Inserting -/

section Insert

variable {home : β → Nat} {val : β → α} {empty : α}

/-- The entry is stored and all slots from its home to it are busy. -/
def Placed (busy : α → Bool) (home : β → Nat) (val : β → α) (h : List α) (e : β) : Prop :=
  ∃ j, Path busy h (home e) j ∧ h[(home e + j) % h.length]? = some (val e)

/-- Storing in a slot that is not busy leaves the paths to other entries as they are. -/
theorem Path.set {s j t : Nat} {x : α} (path : Path busy h s j) {y : α} (ht : h[t]? = some y)
    (hy : busy y = false) : Path busy (h.set t x) s j := by
  refine ⟨by rw [length_set]; exact path.lt, fun i hi => ?_⟩
  obtain ⟨z, hz, hbusy⟩ := path.before i hi
  refine ⟨z, ?_, hbusy⟩
  rw [length_set, List.getElem?_set_ne, hz]
  rintro rfl
  rw [ht] at hz
  cases hz
  exact absurd hbusy (by rw [hy]; exact Bool.false_ne_true)

theorem Placed.set {e : β} {t : Nat} {x : α} (placed : Placed busy home val h e)
    (he : busy (val e) = true) {y : α} (ht : h[t]? = some y) (hy : busy y = false) :
    Placed busy home val (h.set t x) e := by
  obtain ⟨j, path, hslot⟩ := placed
  refine ⟨j, path.set ht hy, ?_⟩
  rw [length_set, List.getElem?_set_ne, hslot]
  rintro rfl
  rw [ht] at hslot
  cases hslot
  exact absurd he (by rw [hy]; exact Bool.false_ne_true)

/-- A table that holds entries of `es` and is empty elsewhere. -/
structure Holds [DecidableEq α] (empty : α) (val : β → α) (n : Nat) (es : List β) (h : List α) :
    Prop where
  length : h.length = n
  slots : ∀ (s : Nat) (x : α), h[s]? = some x → x = empty ∨ ∃ e ∈ es, x = val e
  count : h.countP (· ≠ empty) ≤ es.length

variable [DecidableEq α] {n : Nat} {es : List β}

theorem Holds.exists_empty (holds : Holds empty val n es h) (hn : es.length < n) :
    ∃ s : Nat, s < n ∧ h[s]? = some empty := by
  by_contra hno
  push Not at hno
  have hall : ∀ x ∈ h, decide (x ≠ empty) = true := by
    intro x hx
    obtain ⟨s, hs⟩ := mem_iff_getElem?.mp hx
    refine decide_eq_true fun heq => hno s ?_ (heq ▸ hs)
    obtain ⟨hlt, -⟩ := List.getElem?_eq_some_iff.mp hs
    exact holds.length ▸ hlt
  have := countP_eq_length.mpr hall
  have := holds.count
  have := holds.length
  omega

theorem Holds.set {e : β} {t : Nat} (holds : Holds empty val n es h) :
    Holds empty val n (es ++ [e]) (h.set t (val e)) where
  length := by rw [length_set, holds.length]
  slots := by
    intro s x hs
    by_cases hst : t = s
    · subst hst
      rw [List.getElem?_set] at hs
      split_ifs at hs with h₁ h₂
      · exact .inr ⟨e, by simp, (Option.some.inj hs).symm⟩
      · exact absurd rfl h₁
    · rw [List.getElem?_set_ne hst] at hs
      refine (holds.slots s x hs).imp_right ?_
      rintro ⟨e', he', rfl⟩
      exact ⟨e', mem_append_left _ he', rfl⟩
  count := by
    have hcount := holds.count
    rw [length_append, length_singleton]
    by_cases ht : t < h.length
    · rw [countP_set ht]
      split_ifs <;> omega
    · rw [set_eq_of_length_le (by omega)]
      omega

theorem Holds.insertAll (home : β → Nat) {es₁ : List β} (es₂ : List β) (hempty : busy empty = false)
    (holds : Holds empty val n es₁ h) (hn : es₁.length + es₂.length ≤ n) :
    ∃ h', insertAll busy home val h es₂ = some h' ∧ Holds empty val n (es₁ ++ es₂) h' ∧
      ((∀ e ∈ es₁, Placed busy home val h e) →
        (∀ e ∈ (es₁ ++ es₂).dropLast, busy (val e) = true) →
          ∀ e ∈ es₁ ++ es₂, Placed busy home val h' e) := by
  induction es₂ generalizing es₁ h with
  | nil =>
    rw [append_nil]
    exact ⟨h, rfl, holds, fun placed _ => placed⟩
  | cons e es₂ ih =>
    rw [length_cons] at hn
    obtain ⟨t, -, ht⟩ := holds.exists_empty (by omega)
    obtain ⟨j, x, path, hx, hfree, hprobe⟩ := probe_spec ⟨t, empty, ht, hempty⟩
    obtain ⟨h', run, holds', placed'⟩ := ih (holds.set (e := e))
      (by rw [length_append, length_singleton]; omega)
    rw [append_assoc, singleton_append] at holds' placed'
    refine ⟨h', ?_, holds', fun placed busy' => placed' (fun e' he' => ?_) busy'⟩
    · rw [Probe.insertAll, foldlM_cons, hprobe]
      exact run
    · rcases mem_append.mp he' with he' | he'
      · -- an entry that is followed by another one
        refine (placed e' he').set (busy' e' ?_) hx hfree
        rw [dropLast_append_cons]
        exact mem_append_left _ he'
      · obtain rfl := mem_singleton.mp he'
        refine ⟨j, path.set hx hfree, ?_⟩
        rw [length_set, List.getElem?_set_self]
        exact Nat.mod_lt _ (by have := path.lt; omega)

theorem holds_replicate (empty : α) (val : β → α) (n : Nat) :
    Holds empty val n [] (List.replicate n empty) where
  length := length_replicate
  slots := fun s x hs => by
    obtain ⟨hlt, heq⟩ := List.getElem?_eq_some_iff.mp hs
    rw [getElem_replicate] at heq
    exact Or.inl heq.symm
  count := by
    simp

end Insert

end Coda.Lib.Probe
