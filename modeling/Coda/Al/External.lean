import Coda.Al.AccessText

/-!
Access lists between their two forms (`coda-src/al/alprocs.c`): what `AL_Internalize` has built
when it comes to its two sorts, and what `AL_Externalize` writes into the space it has allocated.

The counts of a text are signed, and only their sum is bounded. The second sort gets the `m`
entries from entry `m` on, although the minus entries start at entry `p`.

An external list has room for a name of `PRS_MAXNAMELEN` characters and two more for each entry,
but the tab, the rights and the newline take at least three.
-/

namespace Coda.Al

open Coda.Lib List

/-! ### AL_Internalize up to the sorts -/

/-- The list that `AL_Internalize` has built before it sorts it. -/
structure Internalized where
  totalNoOfEntries : Int
  plusEntriesInUse : Int
  minusEntriesInUse : Int
  actualEntries : List AccessEntry
deriving DecidableEq, Repr

/-- `AL_Internalize` up to the sorts. With a negative sum `AL_NewAlist` does not allocate as much
as it writes. -/
def internalize (nameToId : List Char → Int) (elist : List Char) : Except AlError Internalized := do
  let some (p, rest) ← scanInt elist | .error .einval
  let some (m, _) ← scanInt rest | .error .einval
  if p + m > 2147483647 then .error .undefined
  else if p + m > alMaxExtEntries then .error .e2big
  else if p + m < 0 then .error .undefined
  else do
    let some nextc := nextLine elist | .error .undefined
    let entries ← readEntries nameToId (p + m).toNat (nextLine nextc)
    return ⟨p + m, p, m, entries⟩

/-- A call of `qsort` for entries: the first one, and how many. -/
structure SortCall where
  first : Int
  nmemb : Nat
deriving DecidableEq, Repr

/-- An `int` that is passed as a `size_t`. -/
def sizeT (n : Int) : Nat := (n % 18446744073709551616).toNat

/-- The two sorts. -/
def Internalized.sorts (alist : Internalized) : List SortCall :=
  [⟨0, sizeT alist.plusEntriesInUse⟩, ⟨alist.minusEntriesInUse, sizeT alist.minusEntriesInUse⟩]

/-- The sort looks at an entry. A single entry is not looked at. -/
def SortCall.Touches (call : SortCall) (i : Int) : Prop :=
  1 < call.nmemb ∧ call.first ≤ i ∧ i < call.first + call.nmemb

structure Internalized.WellFormed (alist : Internalized) : Prop where
  plus : 0 ≤ alist.plusEntriesInUse
  minus : 0 ≤ alist.minusEntriesInUse
  total : alist.plusEntriesInUse + alist.minusEntriesInUse = alist.totalNoOfEntries
  bounded : alist.totalNoOfEntries ≤ alMaxExtEntries
  inside : ∀ call ∈ alist.sorts, ∀ i, call.Touches i → 0 ≤ i ∧ i < alist.totalNoOfEntries

section Internalize

variable {nameToId : List Char → Int} {elist : List Char} {alist : Internalized}

/-- The list has the counts of the text, and their sum is in bounds. -/
theorem internalize_counts (h : internalize nameToId elist = .ok alist) :
    alist.totalNoOfEntries = alist.plusEntriesInUse + alist.minusEntriesInUse ∧
      0 ≤ alist.totalNoOfEntries ∧ alist.totalNoOfEntries ≤ alMaxExtEntries ∧
      ∃ rest rest', scanInt elist = .ok (some (alist.plusEntriesInUse, rest)) ∧
        scanInt rest = .ok (some (alist.minusEntriesInUse, rest')) := by
  obtain ⟨_, hp, h⟩ := exists_of_bind_ok h
  split at h
  case h_2 => cases h
  obtain ⟨_, hm, h⟩ := exists_of_bind_ok h
  split at h
  case h_2 => cases h
  split_ifs at h with hbig hmax hneg
  split at h
  case h_2 => cases h
  obtain ⟨_, -, h⟩ := exists_of_bind_ok h
  cases h
  exact ⟨rfl, Int.not_lt.mp hneg, Int.not_lt.mp hmax, _, _, hp, hm⟩

theorem sizeT_of_nonneg {n : Int} (h : 0 ≤ n) (hn : n ≤ 2147483647) : (sizeT n : Int) = n := by
  unfold sizeT
  omega

/-- `readAlist` goes on to the sorts with counts that are not negative. -/
theorem readAlist_eq_internalize (nameToId : List Char → Int) (elist : List Char) :
    readAlist nameToId elist = (do
      let alist ← internalize nameToId elist
      if alist.plusEntriesInUse < 0 ∨ alist.minusEntriesInUse < 0 then .error .undefined
      else return (alist.plusEntriesInUse.toNat, alist.minusEntriesInUse.toNat,
        alist.actualEntries)) := by
  unfold readAlist internalize
  cases scanInt elist with
  | error e => rfl
  | ok o =>
  cases o with
  | none => rfl
  | some x =>
  obtain ⟨p, rest⟩ := x
  cases hm : scanInt rest with
  | error e => simp [hm, bind, Except.bind]
  | ok o =>
  cases o with
  | none => simp [hm, bind, Except.bind]
  | some x =>
  simp only [hm, bind, Except.bind]
  split_ifs with hbig hmax hneg hcount
  iterate 3 rfl
  all_goals
    cases nextLine elist with
    | none => rfl
    | some nextc =>
      dsimp only
      cases readEntries nameToId (p + x.1).toNat (nextLine nextc) with
      | error e => rfl
      | ok es => simp [pure, Except.pure, hcount]

end Internalize

/-- What `AL_Internalize` builds is well formed exactly if the two counts at the beginning of the
text are not negative, and there is at most one minus entry or there are at least as many plus
entries. -/
theorem internalize_wellFormed_iff (nameToId : List Char → Int) (elist rest rest' : List Char)
    (p m : Int) (hp : scanInt elist = .ok (some (p, rest)))
    (hm : scanInt rest = .ok (some (m, rest'))) (alist : Internalized)
    (h : internalize nameToId elist = .ok alist) :
    alist.WellFormed ↔ 0 ≤ p ∧ 0 ≤ m ∧ (m ≤ 1 ∨ m ≤ p) := by
  obtain ⟨htotal, -, hmax, rest₁, rest₂, hplus, hminus⟩ := internalize_counts h
  obtain ⟨rfl, rfl⟩ : p = alist.plusEntriesInUse ∧ rest = rest₁ := by simpa [hp] using hplus
  obtain ⟨rfl, -⟩ : m = alist.minusEntriesInUse ∧ rest' = rest₂ := by simpa [hm] using hminus
  rw [alMaxExtEntries] at hmax
  constructor
  · rintro ⟨hplus, hminus, -, -, inside⟩
    by_contra hout
    have hsize := sizeT_of_nonneg hminus (by omega)
    -- the last entry that the second sort gets
    have htouch : SortCall.Touches ⟨alist.minusEntriesInUse, sizeT alist.minusEntriesInUse⟩
        (2 * alist.minusEntriesInUse - 1) := by
      unfold SortCall.Touches
      dsimp only
      omega
    have hlast := inside _ (by simp [Internalized.sorts]) _ htouch
    omega
  · rintro ⟨hplus, hminus, hsort⟩
    refine ⟨hplus, hminus, htotal.symm, hmax, ?_⟩
    have hsize₁ := sizeT_of_nonneg hplus (by omega)
    have hsize₂ := sizeT_of_nonneg hminus (by omega)
    intro call hcall i htouch
    obtain ⟨hmany, hlow, hhigh⟩ := htouch
    simp only [Internalized.sorts, mem_cons, not_mem_nil, or_false] at hcall
    rcases hcall with rfl | rfl <;> dsimp only at hmany hlow hhigh <;> omega

/-- Three plus entries and two minus entries. -/
theorem internalize_wellFormed_five :
    (Internalized.mk 5 3 2 (List.replicate 5 ⟨7, 1⟩)).WellFormed :=
  (internalize_wellFormed_iff (fun _ => 7) "3\n2\nu\t1\nu\t1\nu\t1\nu\t1\nu\t1\n".toList _ _ 3 2
    rfl rfl _ (by decide +kernel)).mpr (by decide)

/-- Two minus entries and no plus entry: the second sort gets the two slots behind the list. -/
theorem internalize_not_wellFormed :
    internalize (fun _ => 7) "0\n2\nu\t1\nu\t1\n".toList = .ok ⟨2, 0, 2, [⟨7, 1⟩, ⟨7, 1⟩]⟩ ∧
      ¬ (Internalized.mk 2 0 2 [⟨7, 1⟩, ⟨7, 1⟩]).WellFormed := by
  refine ⟨by decide +kernel, fun well => ?_⟩
  have hlast := well.inside ⟨2, 2⟩ (by decide) 3 ⟨by decide, by decide, by decide⟩
  exact absurd hlast.2 (by decide)

/-! ### AL_Externalize -/

/-- `%d` of `sprintf`. -/
def printInt (n : Int) : List Char :=
  if n < 0 then '-' :: Nat.toDigits 10 n.natAbs else Nat.toDigits 10 n.natAbs

/-- `AL_IdToName`: names have at most `PRS_MAXNAMELEN` characters. -/
structure NameTable where
  name : Int → Option (List Char)
  bounded : ∀ id s, name id = some s → s.length ≤ prsMaxNameLen

/-- What stands for an id in the text: its name or the number. -/
def NameTable.printed (names : NameTable) (id : Int) : List Char :=
  (names.name id).getD (printInt id)

/-- One round of the loop of `AL_Externalize`. -/
def externalEntry (names : NameTable) (e : AccessEntry) : List Char :=
  names.printed e.id ++ ['\t'] ++ printInt e.rights.toInt ++ ['\n']

/-- The text that `AL_Externalize` writes, without the NUL at its end; `none` is the result -1. -/
def alExternalize (names : NameTable) (alist : AccessList) : Option (List Char) :=
  let n := alist.plusEntriesInUse + alist.minusEntriesInUse
  if (n : Int) > alMaxExtEntries then none
  else some (printInt alist.plusEntriesInUse ++ ['\n'] ++ printInt alist.minusEntriesInUse ++ ['\n']
    ++ (alist.actualEntries.take n).flatMap (externalEntry names))

/-- The bytes that `AL_NewExternalAlist` allocates. -/
def alNewExternalAlist (minNoOfEntries : Nat) : Nat := 20 + minNoOfEntries * (prsMaxNameLen + 2)

/-- The text with its NUL is inside what was allocated. -/
def Fits (alist : AccessList) (text : List Char) : Prop :=
  text.length + 1 ≤ alNewExternalAlist (alist.plusEntriesInUse + alist.minusEntriesInUse)

instance (alist : AccessList) (text : List Char) : Decidable (Fits alist text) :=
  inferInstanceAs (Decidable (_ ≤ _))

/-- The characters that names and rights of the entries take. -/
def entryChars (names : NameTable) (entries : List AccessEntry) : Nat :=
  (entries.map fun e => (names.printed e.id).length + (printInt e.rights.toInt).length).sum

theorem length_externalEntries (names : NameTable) (entries : List AccessEntry) :
    (entries.flatMap (externalEntry names)).length =
      entryChars names entries + 2 * entries.length := by
  induction entries with
  | nil => rfl
  | cons e entries ih =>
    simp only [flatMap_cons, length_append, ih, externalEntry, entryChars, map_cons,
      sum_cons, length_cons, length_nil]
    omega

/-- An access list with as many entries as it says, and no more than can be written. -/
structure ExternalizableAlist extends AccessList where
  slots : plusEntriesInUse + minusEntriesInUse ≤ actualEntries.length
  bounded : ((plusEntriesInUse + minusEntriesInUse : Nat) : Int) ≤ alMaxExtEntries

/-- The text fits exactly if the names and rights of the entries have on average 100 characters,
up to the 17 that are left over, from which the counts go off. -/
theorem alExternalize_fits_iff (names : NameTable) (alist : ExternalizableAlist) :
    (∃ text, alExternalize names alist.toAccessList = some text ∧
        Fits alist.toAccessList text) ↔
      entryChars names
          (alist.actualEntries.take (alist.plusEntriesInUse + alist.minusEntriesInUse)) +
        (printInt alist.plusEntriesInUse).length + (printInt alist.minusEntriesInUse).length ≤
      100 * (alist.plusEntriesInUse + alist.minusEntriesInUse) + 17 := by
  have hlen := length_externalEntries names
    (alist.actualEntries.take (alist.plusEntriesInUse + alist.minusEntriesInUse))
  rw [length_take_of_le alist.slots] at hlen
  rw [alExternalize, if_neg (Int.not_lt.mpr alist.bounded)]
  simp only [Option.some.injEq, exists_eq_left', Fits, alNewExternalAlist, prsMaxNameLen,
    length_append, length_cons, length_nil, hlen]
  omega

/-- A plus and a minus entry. -/
def twoEntries : ExternalizableAlist where
  toAccessList := ⟨2, 1, 1, [⟨1, 127⟩, ⟨2, 1⟩]⟩
  slots := le_rfl
  bounded := by decide

theorem alExternalize_fits_two_entries :
    ∃ text, alExternalize ⟨fun _ => some ['u'], fun _ s h => by cases h; decide⟩
        twoEntries.toAccessList = some text ∧ Fits twoEntries.toAccessList text :=
  (alExternalize_fits_iff _ twoEntries).mpr (by decide +kernel)

/-- Six plus entries with names of 100 characters and all seven rights. -/
theorem alExternalize_overflows :
    let names : NameTable := ⟨fun _ => some (List.replicate 100 'u'), fun _ s h => by
      cases h
      exact le_of_eq length_replicate⟩
    let alist : AccessList := ⟨6, 6, 0, List.replicate 6 ⟨1, 127⟩⟩
    ∃ text, alExternalize names alist = some text ∧ ¬ Fits alist text := by
  exact ⟨_, rfl, by decide +kernel⟩

end Coda.Al
