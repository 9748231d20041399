import Coda.Al.Rights

/-!
`AL_CheckRights` on any access list and CPS in ascending order (`coda-src/al/alprocs.c`).

Each round of a walk moves one of the two indices, so a walk ends after at most as many rounds as
there are entries on both sides.
-/

namespace Coda.Al

open List

/-- `PRS_InternalCPS`. -/
structure InternalCps where
  inclEntries : Nat
  exclEntries : Nat
  idList : List Int
deriving DecidableEq, Repr

/-- A loop of `AL_CheckRights`, over the entries below `top`. `none` is a read outside a list, or
that the fuel does not suffice. -/
def walk (alist : AccessList) (cps : InternalCps) (top : Nat) :
    Nat → Nat → Nat → BitVec 32 → Option (BitVec 32)
  | 0, _, _, _ => none
  | fuel + 1, a, c, rights =>
    if a < top ∧ c < cps.inclEntries then do
      let e ← alist.actualEntries[a]?
      let id ← cps.idList[c]?
      if e.id < id then walk alist cps top fuel (a + 1) c rights
      else if e.id = id then walk alist cps top fuel (a + 1) c (rights ||| e.rights)
      else walk alist cps top fuel a (c + 1) rights
    else some rights

/-- `AL_CheckRights`. -/
def checkRights (fuel : Nat) (alist : AccessList) (cps : InternalCps) : Option (BitVec 32) :=
  if alist.plusEntriesInUse = 0 ∨ cps.inclEntries = 0 then some 0
  else do
    let plusrights ← walk alist cps alist.plusEntriesInUse fuel 0 0 0
    let minusrights ← walk alist cps alist.totalNoOfEntries fuel alist.plusEntriesInUse 0 0
    return plusrights &&& ~~~minusrights

/-- An access list with its parts in ascending order. -/
structure OrderedAlist extends AccessList where
  total : totalNoOfEntries = plusEntriesInUse + minusEntriesInUse
  slots : actualEntries.length = totalNoOfEntries
  plus_le : (actualEntries.take plusEntriesInUse).Pairwise fun a b => a.id ≤ b.id
  minus_le : (actualEntries.drop plusEntriesInUse).Pairwise fun a b => a.id ≤ b.id

/-- A CPS with its included ids in ascending order. -/
structure AscendingCps extends InternalCps where
  slots : idList.length = inclEntries + exclEntries
  ascending : (idList.take inclEntries).Pairwise (· ≤ ·)

section Walk

variable {alist : AccessList} {cps : InternalCps} {top : Nat}

theorem take_drop_cons {α : Type*} {l : List α} {a n : Nat} (ha : a < n) (hn : n ≤ l.length) :
    ∃ x, l[a]? = some x ∧ (l.take n).drop a = x :: (l.take n).drop (a + 1) := by
  have hl : a < (l.take n).length := by
    rw [length_take_of_le hn]
    exact ha
  refine ⟨(l.take n)[a], ?_, drop_eq_getElem_cons hl⟩
  rw [getElem_take]
  exact List.getElem?_eq_getElem (Nat.lt_of_lt_of_le ha hn)

/-- A walk from `a` and `c` on collects what is left on both sides. -/
theorem walk_eq (htop : top ≤ alist.actualEntries.length)
    (hincl : cps.inclEntries ≤ cps.idList.length) {fuel a c : Nat} (rights : BitVec 32)
    (hfuel : (top - a) + (cps.inclEntries - c) < fuel) :
    walk alist cps top fuel a c rights =
      some (collectRights rights ((alist.actualEntries.take top).drop a)
        ((cps.idList.take cps.inclEntries).drop c)) := by
  induction fuel generalizing a c rights with
  | zero => exact absurd hfuel (Nat.not_lt_zero _)
  | succ fuel ih =>
    rw [walk]
    by_cases hmore : a < top ∧ c < cps.inclEntries
    · obtain ⟨ha, hc⟩ := hmore
      obtain ⟨e, he, hentries⟩ := take_drop_cons ha htop
      obtain ⟨id, hid, hids⟩ := take_drop_cons hc hincl
      rw [if_pos ⟨ha, hc⟩, he, hid, hentries, hids, collectRights]
      simp only [Option.bind_eq_bind, Option.bind_some]
      -- one of the two sides gets shorter
      have hentry : (top - (a + 1)) + (cps.inclEntries - c) < fuel := by omega
      have hid' : (top - a) + (cps.inclEntries - (c + 1)) < fuel := by omega
      split
      · rw [ih rights hentry, hids]
      · split
        · rw [ih (rights ||| e.rights) hentry, hids]
        · rw [ih rights hid', hentries]
    · rw [if_neg hmore]
      by_cases ha : a < top
      · have hc : cps.inclEntries ≤ c := Nat.le_of_not_lt fun hc => hmore ⟨ha, hc⟩
        obtain ⟨e, -, hentries⟩ := take_drop_cons ha htop
        have hnil : (cps.idList.take cps.inclEntries).drop c = [] :=
          drop_eq_nil_of_le ((length_take_le _ _).trans hc)
        rw [hentries, hnil, collectRights]
      · have hnil : (alist.actualEntries.take top).drop a = [] :=
          drop_eq_nil_of_le ((length_take_le _ _).trans (Nat.le_of_not_lt ha))
        rw [hnil, collectRights]

/-- With no plus entry or no id there is no right to give. -/
theorem rightsOf_eq_zero {es : List AccessEntry} {ids : List Int} (h : es = [] ∨ ids = []) :
    rightsOf es ids = 0 := by
  rcases h with rfl | rfl
  · rfl
  · simp [rightsOf]

end Walk

/-- `AL_CheckRights` ends, and gives what the walks over the lists collect. -/
theorem checkRights_eq_alCheckRights (alist : OrderedAlist) (cps : AscendingCps) {fuel : Nat}
    (hfuel : alist.totalNoOfEntries + cps.inclEntries < fuel) :
    checkRights fuel alist.toAccessList cps.toInternalCps =
      some (alCheckRights alist.toAccessList (cps.idList.take cps.inclEntries)) := by
  have htotal := alist.total
  have hslots := alist.slots
  have hincl : cps.inclEntries ≤ cps.idList.length := by
    rw [cps.slots]
    exact Nat.le_add_right _ _
  have hwalk₁ := @walk_eq alist.toAccessList cps.toInternalCps alist.plusEntriesInUse (by omega)
    hincl fuel 0 0 0 (by omega)
  have hwalk₂ := @walk_eq alist.toAccessList cps.toInternalCps alist.totalNoOfEntries (by omega)
    hincl fuel alist.plusEntriesInUse 0 0 (by omega)
  rw [checkRights, alCheckRights, length_take_of_le hincl, hwalk₁, hwalk₂]
  split <;> rfl

/-- `AL_CheckRights` ends, and gives the rights of the plus entries for ids of the CPS without
those of the minus entries for ids of the CPS. -/
theorem checkRights_exact (alist : OrderedAlist) (cps : AscendingCps) :
    ∃ n, ∀ fuel ≥ n, checkRights fuel alist.toAccessList cps.toInternalCps =
      some (rightsOf (alist.actualEntries.take alist.plusEntriesInUse)
          (cps.idList.take cps.inclEntries) &&&
        ~~~rightsOf (alist.actualEntries.drop alist.plusEntriesInUse)
          (cps.idList.take cps.inclEntries)) := by
  refine ⟨alist.totalNoOfEntries + cps.inclEntries + 1, fun fuel hfuel => ?_⟩
  rw [checkRights_eq_alCheckRights alist cps hfuel, alCheckRights,
    take_of_length_le (Nat.le_of_eq alist.slots),
    collectRights_eq_rightsOf (.refl _) alist.plus_le cps.ascending,
    collectRights_eq_rightsOf (.refl _) alist.minus_le cps.ascending]
  split
  next hnone =>
    have hempty : alist.actualEntries.take alist.plusEntriesInUse = [] ∨
        cps.idList.take cps.inclEntries = [] :=
      hnone.imp (fun h => by rw [h, take_zero]) eq_nil_of_length_eq_zero
    rw [rightsOf_eq_zero hempty]
    exact congrArg some BitVec.zero_and.symm
  · rfl

/-- Two users have rights, and one of them loses one. -/
def threeEntries : OrderedAlist where
  toAccessList := ⟨3, 2, 1, [⟨1, 5⟩, ⟨4, 2⟩, ⟨1, 4⟩]⟩
  total := rfl
  slots := rfl
  plus_le := by decide
  minus_le := by decide

def twoIds : AscendingCps where
  toInternalCps := ⟨2, 0, [1, 4]⟩
  slots := rfl
  ascending := by decide

theorem checkRights_exact_three_entries :
    ∃ n, ∀ fuel ≥ n, checkRights fuel threeEntries.toAccessList twoIds.toInternalCps = some 3 :=
  checkRights_exact threeEntries twoIds

end Coda.Al
