import Mathlib.Data.Fintype.Card
import Mathlib.Data.List.Sort

/-!
Checking the version vectors of the replicas (`coda-src/vv/inconsist.cc`).

The scan of `VV_Check_Real` clears the vectors that it finds dominated; at the first pair that is
inconsistent it leaves what is left of the array to `VV_BruteForceCheck`. `Pruned` is what holds of
the array throughout. The check is right for any comparison that agrees with a preorder
(`Compares`), and the version vectors are one.
-/

namespace Coda.Vv

open List Function

/-- `VV_Cmp_Result`. -/
inductive VvCmpResult where
  | eq
  | dom
  | sub
  | inc
deriving DecidableEq, Repr

section Check

variable {n : Nat} {V : Type*}

/-- The return value, and what is left in `*HowMany` and in `vvp`. -/
structure Check (n : Nat) (V : Type*) where
  ret : Bool
  howMany : Nat
  vvp : Fin n → Option V

/-- How a round of the outer loop of `VV_BruteForceCheck` ends. -/
inductive Round (n : Nat) (V : Type*) where
  | finished (vvp : Fin n → Option V) (howMany : Nat)
  | outerContinue (vvp : Fin n → Option V) (howMany : Nat)
  | stop (check : Check n V)

/-- The first vector that is not NULL. -/
def first (vvp : Fin n → Option V) : Option (Fin n) :=
  (List.finRange n).find? fun i => (vvp i).isSome

/-- The inner loop of `VV_BruteForceCheck`, `none` where a NULL pointer is compared. -/
def bruteInner (cmp : V → V → VvCmpResult) (eqReq : Bool) (i : Fin n) :
    (Fin n → Option V) → Nat → List (Fin n) → Option (Round n V)
  | vvp, howMany, [] => some (.finished vvp howMany)
  | vvp, howMany, j :: js =>
    if i = j then bruteInner cmp eqReq i vvp howMany js
    else match vvp j with
      | none => bruteInner cmp eqReq i vvp howMany js
      | some b =>
        match vvp i with
        | none => none
        | some a =>
          match cmp a b with
          | .eq => bruteInner cmp eqReq i vvp (howMany + 1) js
          | .dom =>
            if eqReq then some (.stop ⟨false, howMany, vvp⟩)
            else bruteInner cmp eqReq i (Function.update vvp j none) howMany js
          | .sub =>
            if eqReq then some (.stop ⟨false, howMany, vvp⟩)
            else some (.outerContinue (Function.update vvp i none) howMany)
          | .inc =>
            if eqReq then some (.stop ⟨false, howMany, vvp⟩)
            else some (.outerContinue vvp howMany)

/-- The outer loop of `VV_BruteForceCheck`. -/
def bruteOuter (cmp : V → V → VvCmpResult) (eqReq : Bool) :
    (Fin n → Option V) → Nat → List (Fin n) → Option (Check n V)
  | vvp, howMany, [] => some ⟨false, howMany, vvp⟩
  | vvp, howMany, i :: is =>
    match vvp i with
    | none => bruteOuter cmp eqReq vvp howMany is
    | some _ =>
      match bruteInner cmp eqReq i vvp 1 (List.finRange n) with
      | none => none
      | some (.finished vvp howMany) => some ⟨true, howMany, vvp⟩
      | some (.outerContinue vvp howMany) => bruteOuter cmp eqReq vvp howMany is
      | some (.stop check) => some check

/-- `VV_BruteForceCheck`. -/
def vvBruteForceCheck (cmp : V → V → VvCmpResult) (eqReq : Bool) (vvp : Fin n → Option V)
    (howMany : Nat) : Option (Check n V) :=
  match first vvp with
  | none => some ⟨true, 0, vvp⟩
  | some i => bruteOuter cmp eqReq vvp howMany ((List.finRange n).filter (i ≤ ·))

/-- The scan of `VV_Check_Real`, with the current dominator. -/
def checkLoop (cmp : V → V → VvCmpResult) (eqReq : Bool) :
    (Fin n → Option V) → Fin n → Nat → List (Fin n) → Option (Check n V)
  | vvp, _, howMany, [] => some ⟨true, howMany, vvp⟩
  | vvp, domIx, howMany, j :: js =>
    match vvp j with
    | none => checkLoop cmp eqReq vvp domIx howMany js
    | some b =>
      match vvp domIx with
      | none => none
      | some a =>
        match cmp a b with
        | .eq => checkLoop cmp eqReq vvp domIx (howMany + 1) js
        | .dom =>
          if eqReq then some ⟨false, howMany, vvp⟩
          else checkLoop cmp eqReq (Function.update vvp j none) domIx howMany js
        | .sub =>
          if eqReq then some ⟨false, howMany, vvp⟩
          else checkLoop cmp eqReq (fun k => if domIx ≤ k ∧ k < j then none else vvp k) j 1 js
        | .inc =>
          if eqReq then some ⟨false, howMany, vvp⟩
          else vvBruteForceCheck cmp eqReq vvp howMany

/-- `VV_Check_Real` with the comparison that it uses. -/
def vvCheckReal (cmp : V → V → VvCmpResult) (eqReq : Bool) (vvp : Fin n → Option V) :
    Option (Check n V) :=
  match first vvp with
  | none => some ⟨true, 0, vvp⟩
  | some i => checkLoop cmp eqReq vvp i 1 ((List.finRange n).filter (i < ·))

end Check

/-! ### Version vectors -/

/-- `ViceVersionVector`: the versions at the sites, and the flags. The store id is not compared. -/
structure VersionVector where
  versions : Fin 8 → Int
  flags : BitVec 32

/-- `IsIncon`. -/
def VersionVector.isIncon (v : VersionVector) : Bool := v.flags &&& 0x01#32 != 0#32

/-- The loop of `VV_Cmp_IgnoreInc`. -/
def cmpLoop (a b : Fin 8 → Int) : VvCmpResult → List (Fin 8) → VvCmpResult
  | res, [] => res
  | res, i :: is =>
    if a i = b i then cmpLoop a b res is
    else if a i > b i then
      if res ≠ .sub then cmpLoop a b .dom is else .inc
    else
      if res ≠ .dom then cmpLoop a b .sub is else .inc

/-- `VV_Cmp_IgnoreInc`. -/
def vvCmpIgnoreInc (a b : VersionVector) : VvCmpResult :=
  cmpLoop a.versions b.versions .eq (List.finRange 8)

/-- `VV_Cmp`. -/
def vvCmp (a b : VersionVector) : VvCmpResult :=
  if a.isIncon || b.isIncon then .inc else vvCmpIgnoreInc a b

/-- `VV_Check`. -/
def vvCheck (vvp : Fin 8 → Option VersionVector) (eqReq : Bool) : Option (Check 8 VersionVector) :=
  vvCheckReal vvCmp eqReq vvp

/-- `VV_Check_IgnoreInc`. -/
def vvCheckIgnoreInc (vvp : Fin 8 → Option VersionVector) (eqReq : Bool) :
    Option (Check 8 VersionVector) :=
  vvCheckReal vvCmpIgnoreInc eqReq vvp

/-! ### The check for a comparison that agrees with a preorder -/

section Preorder

variable {n : Nat} {V : Type*} [Preorder V]

/-- The comparison is that of the preorder. -/
structure Compares (cmp : V → V → VvCmpResult) : Prop where
  eq : ∀ {a b}, cmp a b = .eq → a ≤ b ∧ b ≤ a
  dom : ∀ {a b}, cmp a b = .dom → b < a
  sub : ∀ {a b}, cmp a b = .sub → a < b
  inc : ∀ {a b}, cmp a b = .inc → ¬ b ≤ a

/-- The vector at position `i` is at least every other one. -/
def AtMaximum (vvp : Fin n → Option V) (i : Fin n) : Prop :=
  ∃ a, vvp i = some a ∧ ∀ j b, vvp j = some b → b ≤ a

variable {orig cur cur' : Fin n → Option V} {i j k : Fin n} {a b : V} {js : List (Fin n)}
  {cmp : V → V → VvCmpResult} {howMany : Nat}

theorem not_atMaximum (hi : orig i = some a) (hj : orig j = some b) (h : ¬ b ≤ a) :
    ¬ AtMaximum orig i := by
  rintro ⟨a', ha', top⟩
  rw [hi] at ha'
  cases ha'
  exact h (top j b hj)

/-- What is left of an array from which only dominated vectors were removed. -/
structure Pruned (orig cur : Fin n → Option V) : Prop where
  sub : ∀ i a, cur i = some a → orig i = some a
  below : ∀ i a, orig i = some a → ∃ j b, cur j = some b ∧ a ≤ b
  beaten : ∀ i a, orig i = some a → cur i = none → ∃ j b, orig j = some b ∧ a < b

theorem Pruned.refl (orig : Fin n → Option V) : Pruned orig orig where
  sub _ _ h := h
  below i a h := ⟨i, a, h, le_refl a⟩
  beaten i a h h' := by
    rw [h] at h'
    cases h'

/-- Vectors below one that stays can be removed. -/
theorem Pruned.remove (h : Pruned orig cur) (sub : ∀ i a, cur' i = some a → cur i = some a)
    (stays : cur' k = some b) (beats : ∀ i a, cur i = some a → cur' i = none → a < b) :
    Pruned orig cur' where
  sub i a hi := h.sub i a (sub i a hi)
  below := by
    intro i a hi
    obtain ⟨j, c, hj, hle⟩ := h.below i a hi
    cases hj' : cur' j with
    | none => exact ⟨k, b, stays, hle.trans (beats j c hj hj').le⟩
    | some c' =>
      have hc := sub j c' hj'
      rw [hj] at hc
      cases hc
      exact ⟨j, c, hj', hle⟩
  beaten := by
    intro i a hi hi'
    cases hcur : cur i with
    | none => exact h.beaten i a hi hcur
    | some c =>
      have hc := h.sub i c hcur
      rw [hi] at hc
      cases hc
      exact ⟨k, b, h.sub k b (sub k b stays), beats i a hcur hi'⟩

theorem Pruned.update (h : Pruned orig cur) (hi : cur i = some a) (hj : cur j = some b)
    (hlt : b < a) : Pruned orig (update cur j none) := by
  have hne : i ≠ j := by
    rintro rfl
    rw [hi] at hj
    cases hj
    exact lt_irrefl _ hlt
  refine h.remove ?_ (by rw [update_of_ne hne, hi]) ?_
  · intro k c hk
    by_cases hkj : k = j
    · rw [hkj, update_self] at hk
      cases hk
    · rwa [update_of_ne hkj] at hk
  · intro k c hk hk'
    by_cases hkj : k = j
    · rw [hkj, hj] at hk
      cases hk
      exact hlt
    · rw [update_of_ne hkj, hk] at hk'
      cases hk'

/-- When the vectors that are left are all equal, they are the maximum. -/
theorem Pruned.atMaximum_iff (h : Pruned orig cur)
    (same : ∀ i b, cur i = some b → a ≤ b ∧ b ≤ a) (i : Fin n) :
    AtMaximum orig i ↔ ∃ b, cur i = some b := by
  constructor
  · rintro ⟨b, hi, top⟩
    cases hcur : cur i with
    | none =>
      obtain ⟨j, c, hj, hlt⟩ := h.beaten i b hi hcur
      exact absurd (top j c hj) (not_le_of_gt hlt)
    | some c => exact ⟨c, rfl⟩
  · rintro ⟨b, hi⟩
    refine ⟨b, h.sub i b hi, fun j c hj => ?_⟩
    obtain ⟨l, d, hl, hle⟩ := h.below j c hj
    exact hle.trans ((same l d hl).2.trans (same i b hi).1)

/-- The check succeeded and left exactly the maximum. -/
structure Dominant (orig : Fin n → Option V) (c : Check n V) : Prop where
  ret : c.ret = true
  nonempty : ∃ i, AtMaximum orig i
  kept : ∀ i, AtMaximum orig i → c.vvp i = orig i
  cleared : ∀ i, ¬ AtMaximum orig i → c.vvp i = none
  count : c.howMany = (Finset.univ.filter fun i => (c.vvp i).isSome).card

theorem Pruned.dominant (h : Pruned orig cur) (hk : cur k = some a)
    (same : ∀ i b, cur i = some b → a ≤ b ∧ b ≤ a)
    (count : howMany = (Finset.univ.filter fun i => (cur i).isSome).card) :
    Dominant orig ⟨true, howMany, cur⟩ where
  ret := rfl
  nonempty := ⟨k, (h.atMaximum_iff same k).mpr ⟨a, hk⟩⟩
  kept i hi := by
    obtain ⟨b, hb⟩ := (h.atMaximum_iff same i).mp hi
    rw [h.sub i b hb]
    exact hb
  cleared i hi := by
    cases hcur : cur i with
    | none => exact hcur
    | some b => exact absurd ((h.atMaximum_iff same i).mpr ⟨b, hcur⟩) hi
  count := count

/-! ### The vectors that were looked at -/

/-- The vectors that are left among those already compared with the one at `i`, and that one. -/
def seen (cur : Fin n → Option V) (i : Fin n) (js : List (Fin n)) : Finset (Fin n) :=
  Finset.univ.filter fun k => (k ∉ js ∨ k = i) ∧ (cur k).isSome

omit [Preorder V] in
theorem seen_skip (h : j = i ∨ cur j = none) : seen cur i (j :: js) = seen cur i js := by
  refine Finset.filter_congr fun k _ => ?_
  by_cases hkj : k = j
  · subst hkj
    rcases h with rfl | h
    · simp
    · simp [h]
  · simp [hkj]

omit [Preorder V] in
theorem card_seen_add (hne : j ≠ i) (hj : cur j = some b) (hmem : j ∉ js) :
    (seen cur i js).card = (seen cur i (j :: js)).card + 1 := by
  have hnot : j ∉ seen cur i (j :: js) := by simp [seen, hne]
  rw [← Finset.card_insert_of_notMem hnot]
  congr 1
  ext k
  by_cases hkj : k = j
  · subst hkj
    simp [seen, hj, hmem]
  · simp [seen, hkj]

omit [Preorder V] in
theorem seen_remove (hne : j ≠ i) :
    seen (update cur j none) i js = seen cur i (j :: js) := by
  refine Finset.filter_congr fun k _ => ?_
  by_cases hkj : k = j
  · subst hkj
    simp [hne]
  · simp [hkj]

omit [Preorder V] in
theorem seen_nil : seen cur i [] = Finset.univ.filter fun k => (cur k).isSome := by
  simp [seen]

omit [Preorder V] in
theorem card_seen_one (hi : cur i = some a) (only : ∀ k ∉ js, ∀ b, cur k = some b → k = i) :
    1 = (seen cur i js).card := by
  have hseen : seen cur i js = {i} := by
    ext k
    rw [seen, Finset.mem_filter, Finset.mem_singleton]
    constructor
    · rintro ⟨-, hk, hsome⟩
      obtain ⟨b, hb⟩ := Option.isSome_iff_exists.mp hsome
      exact hk.elim (fun hk => only k hk b hb) id
    · rintro rfl
      exact ⟨Finset.mem_univ k, .inr rfl, by rw [hi]; rfl⟩
  rw [hseen, Finset.card_singleton]

/-- The vectors that are left before `js` are equal to `a`. -/
def Same (cur : Fin n → Option V) (a : V) (js : List (Fin n)) : Prop :=
  ∀ j ∉ js, ∀ b, cur j = some b → a ≤ b ∧ b ≤ a

theorem Same.tail (same : Same cur a (j :: js)) (hj : ∀ b, cur j = some b → a ≤ b ∧ b ≤ a) :
    Same cur a js := by
  intro k hk b hb
  by_cases hkj : k = j
  · exact hj b (hkj ▸ hb)
  · exact same k (by simp [hkj, hk]) b hb

theorem Same.clear (same : Same cur a (j :: js)) : Same (update cur j none) a js := by
  intro k hk c hc
  by_cases hkj : k = j
  · rw [hkj, update_self] at hc
    cases hc
  · rw [update_of_ne hkj] at hc
    exact same k (by simp [hkj, hk]) c hc

/-! ### The brute-force check -/

/-- What a round of the outer loop leaves. -/
def RoundSpec (orig : Fin n → Option V) (i : Fin n) : Round n V → Prop
  | .finished vvp howMany => Dominant orig ⟨true, howMany, vvp⟩
  | .outerContinue vvp _ => Pruned orig vvp ∧ ¬ AtMaximum orig i
  | .stop _ => False

theorem bruteInner_spec (ok : Compares cmp) (pruned : Pruned orig cur) (hi : cur i = some a)
    (same : Same cur a js) (nodup : js.Nodup)
    (count : howMany = (seen cur i js).card) :
    ∃ r, bruteInner cmp false i cur howMany js = some r ∧ RoundSpec orig i r := by
  induction js generalizing cur howMany with
  | nil =>
    rw [seen_nil] at count
    exact ⟨_, rfl, pruned.dominant hi (fun j => same j not_mem_nil) count⟩
  | cons j js ih =>
    obtain ⟨hmem, nodup⟩ := nodup_cons.mp nodup
    rw [bruteInner]
    by_cases hij : i = j
    · rw [if_pos hij]
      refine ih pruned hi (same.tail fun b hb => ?_) nodup (by rw [count, seen_skip (.inl hij.symm)])
      rw [← hij, hi] at hb
      cases hb
      exact ⟨le_refl a, le_refl a⟩
    · rw [if_neg hij]
      have hji : j ≠ i := fun h => hij h.symm
      cases hj : cur j with
      | none =>
        refine ih pruned hi (same.tail fun b hb => ?_) nodup (by rw [count, seen_skip (.inr hj)])
        rw [hj] at hb
        cases hb
      | some b =>
        simp only [hi]
        cases hcmp : cmp a b with
        | eq =>
          refine ih pruned hi (same.tail fun c hc => ?_) nodup ?_
          · rw [hj] at hc
            cases hc
            exact ok.eq hcmp
          · rw [count, card_seen_add hji hj hmem]
        | dom =>
          have hupdate : update cur j none i = some a := by
            rw [update_of_ne hij, hi]
          exact ih (pruned.update hi hj (ok.dom hcmp)) hupdate same.clear nodup
            (by rw [count, seen_remove hji])
        | sub =>
          have hlt := ok.sub hcmp
          refine ⟨_, rfl, pruned.update hj hi hlt, ?_⟩
          exact not_atMaximum (pruned.sub i a hi) (pruned.sub j b hj) (not_le_of_gt hlt)
        | inc =>
          refine ⟨_, rfl, pruned, ?_⟩
          exact not_atMaximum (pruned.sub i a hi) (pruned.sub j b hj) (ok.inc hcmp)

/-- The check found the maximum, or there is none. -/
def CheckSpec (orig : Fin n → Option V) (c : Check n V) : Prop :=
  Dominant orig c ∨ c.ret = false ∧ ∀ i, ¬ AtMaximum orig i

theorem bruteOuter_spec (ok : Compares cmp) (pruned : Pruned orig cur) (is : List (Fin n))
    (passed : ∀ i ∉ is, ¬ AtMaximum orig i) :
    ∃ c, bruteOuter cmp false cur howMany is = some c ∧ CheckSpec orig c := by
  induction is generalizing cur howMany with
  | nil => exact ⟨_, rfl, .inr ⟨rfl, fun i => passed i not_mem_nil⟩⟩
  | cons i is ih =>
    rw [bruteOuter]
    have tail : ¬ AtMaximum orig i → ∀ k ∉ is, ¬ AtMaximum orig k := by
      intro hi k hk
      by_cases hki : k = i
      · exact hki ▸ hi
      · exact passed k (by simp [hki, hk])
    cases hi : cur i with
    | none =>
      refine ih pruned (tail ?_)
      rintro ⟨a, ha, top⟩
      obtain ⟨j, b, hj, hlt⟩ := pruned.beaten i a ha hi
      exact absurd (top j b hj) (not_le_of_gt hlt)
    | some a =>
      have hone : 1 = (seen cur i (List.finRange n)).card :=
        card_seen_one hi fun k hk => absurd (mem_finRange k) hk
      obtain ⟨r, hrun, hr⟩ := bruteInner_spec ok pruned hi
        (fun j hj => absurd (mem_finRange j) hj) (nodup_finRange n) hone
      rw [hrun]
      cases r with
      | finished vvp howMany => exact ⟨_, rfl, .inl hr⟩
      | outerContinue vvp howMany => exact ih hr.1 (tail hr.2)
      | stop c => exact hr.elim

omit [Preorder V] in
theorem first_eq_none (h : first cur = none) (i : Fin n) : cur i = none := by
  have := List.find?_eq_none.mp h i (mem_finRange i)
  simpa using this

omit [Preorder V] in
theorem first_eq_some (h : first cur = some i) :
    (∃ a, cur i = some a) ∧ ∀ k < i, cur k = none := by
  obtain ⟨hi, before, after, hsplit, hbefore⟩ := List.find?_eq_some_iff_append.mp h
  refine ⟨Option.isSome_iff_exists.mp hi, fun k hk => ?_⟩
  have hmem : k ∈ before ++ i :: after := hsplit ▸ mem_finRange k
  have sorted := (sortedLT_finRange n).pairwise
  rw [hsplit, pairwise_append, pairwise_cons] at sorted
  rcases mem_append.mp hmem with hmem | hmem
  · simpa using hbefore k hmem
  · rcases mem_cons.mp hmem with rfl | hmem
    · exact absurd hk (lt_irrefl k)
    · exact absurd (sorted.2.1.1 k hmem) (lt_asymm hk)

theorem vvBruteForceCheck_spec (ok : Compares cmp) (pruned : Pruned orig cur)
    (hk : cur k = some a) :
    ∃ c, vvBruteForceCheck cmp false cur howMany = some c ∧ CheckSpec orig c := by
  rw [vvBruteForceCheck]
  cases hfirst : first cur with
  | none =>
    rw [first_eq_none hfirst k] at hk
    cases hk
  | some i =>
    refine bruteOuter_spec ok pruned _ fun j hj => ?_
    have hlt : j < i := by simpa using hj
    rintro ⟨b, hb, top⟩
    obtain ⟨l, c, hl, hbeats⟩ := pruned.beaten j b hb ((first_eq_some hfirst).2 j hlt)
    exact absurd (top l c hl) (not_le_of_gt hbeats)

/-! ### The scan -/

/-- The rest of an array: increasing, and behind everything else. -/
def Upper (js : List (Fin n)) : Prop := js.Pairwise (· < ·) ∧ ∀ i ∉ js, ∀ j ∈ js, i < j

theorem Upper.tail (h : Upper (j :: js)) : Upper js := by
  obtain ⟨hj, hjs⟩ := pairwise_cons.mp h.1
  refine ⟨hjs, fun i hi k hk => ?_⟩
  by_cases hij : i = j
  · exact hij ▸ hj k hk
  · exact h.2 i (by simp [hij, hi]) k (.tail j hk)

theorem Upper.head_notMem (h : Upper (j :: js)) : j ∉ js :=
  fun hmem => lt_irrefl j ((pairwise_cons.mp h.1).1 j hmem)

/-- The state of the scan: up to here the vectors that are left are equal to the dominator. -/
structure Scan (orig cur : Fin n → Option V) (domIx : Fin n) (howMany : Nat) (js : List (Fin n))
    (a : V) : Prop where
  pruned : Pruned orig cur
  dominator : cur domIx = some a
  out : domIx ∉ js
  before : ∀ i < domIx, cur i = none
  same : ∀ j ∉ js, ∀ b, cur j = some b → a ≤ b ∧ b ≤ a
  count : howMany = (seen cur domIx js).card
  upper : Upper js

section Scan

variable {domIx : Fin n} (scan : Scan orig cur domIx howMany (j :: js) a)
include scan

theorem Scan.ne_domIx : j ≠ domIx := fun h => scan.out (h ▸ (.head _))

theorem Scan.out_tail : domIx ∉ js := fun h => scan.out (.tail j h)

theorem Scan.skip (hj : cur j = none) : Scan orig cur domIx howMany js a where
  __ := scan
  out := scan.out_tail
  same := Same.tail scan.same fun b hb => by
    rw [hj] at hb
    cases hb
  count := by rw [scan.count, seen_skip (.inr hj)]
  upper := scan.upper.tail

theorem Scan.equal (hj : cur j = some b) (heq : a ≤ b ∧ b ≤ a) :
    Scan orig cur domIx (howMany + 1) js a where
  __ := scan
  out := scan.out_tail
  same := Same.tail scan.same fun c hc => by
    rw [hj] at hc
    cases hc
    exact heq
  count := by rw [scan.count, card_seen_add scan.ne_domIx hj scan.upper.head_notMem]
  upper := scan.upper.tail

theorem Scan.clear (hj : cur j = some b) (hlt : b < a) :
    Scan orig (update cur j none) domIx howMany js a where
  pruned := scan.pruned.update scan.dominator hj hlt
  dominator := by rw [update_of_ne scan.ne_domIx.symm, scan.dominator]
  out := scan.out_tail
  before := by
    intro k hk
    by_cases hkj : k = j
    · rw [hkj, update_self]
    · rw [update_of_ne hkj, scan.before k hk]
  same := Same.clear scan.same
  count := by rw [scan.count, seen_remove scan.ne_domIx]
  upper := scan.upper.tail

/-- A vector before the rest that is not cleared when `j` takes over is the one at `j`. -/
theorem Scan.eq_of_left (hk : k ∉ js)
    (left : (if domIx ≤ k ∧ k < j then none else cur k) = some b) : k = j := by
  by_contra hkj
  have hlt : k < j := scan.upper.2 k (by simp [hkj, hk]) j (.head _)
  by_cases hdom : domIx ≤ k
  · rw [if_pos ⟨hdom, hlt⟩] at left
    cases left
  · rw [if_neg fun h => hdom h.1, scan.before k (lt_of_not_ge hdom)] at left
    cases left

theorem Scan.supersede (hj : cur j = some b) (hlt : a < b) :
    Scan orig (fun k => if domIx ≤ k ∧ k < j then none else cur k) j 1 js b := by
  have hnew : (if domIx ≤ j ∧ j < j then none else cur j) = some b := by
    rw [if_neg fun h => lt_irrefl j h.2, hj]
  refine ⟨scan.pruned.remove ?_ hnew ?_, hnew, scan.upper.head_notMem, ?_, ?_,
    card_seen_one hnew fun _ hk _ => scan.eq_of_left hk, scan.upper.tail⟩
  · intro k c hk
    split_ifs at hk
    exact hk
  · intro k c hk hk'
    split_ifs at hk' with hrange
    · -- between the dominators there are only vectors equal to the old one
      have hout : k ∉ j :: js := by
        intro hmem
        rcases mem_cons.mp hmem with rfl | hmem
        · exact lt_irrefl k hrange.2
        · exact lt_asymm hrange.2 ((pairwise_cons.mp scan.upper.1).1 k hmem)
      exact lt_of_le_of_lt (scan.same k hout c hk).2 hlt
    · rw [hk] at hk'
      cases hk'
  · intro k hk
    split_ifs with hrange
    · rfl
    · exact scan.before k (lt_of_not_ge fun h => hrange ⟨h, hk⟩)
  · intro k hk c hc
    have hkj := scan.eq_of_left hk hc
    subst hkj
    rw [hnew] at hc
    cases hc
    exact ⟨le_refl b, le_refl b⟩

end Scan

theorem checkLoop_spec {domIx : Fin n} (ok : Compares cmp)
    (scan : Scan orig cur domIx howMany js a) :
    ∃ c, checkLoop cmp false cur domIx howMany js = some c ∧ CheckSpec orig c := by
  induction js generalizing cur domIx howMany a with
  | nil =>
    have count := scan.count
    rw [seen_nil] at count
    exact ⟨_, rfl, .inl
      (scan.pruned.dominant scan.dominator (fun j => scan.same j not_mem_nil) count)⟩
  | cons j js ih =>
    rw [checkLoop]
    cases hj : cur j with
    | none => exact ih (scan.skip hj)
    | some b =>
      simp only [scan.dominator]
      cases hcmp : cmp a b with
      | eq => exact ih (scan.equal hj (ok.eq hcmp))
      | dom => exact ih (scan.clear hj (ok.dom hcmp))
      | sub => exact ih (scan.supersede hj (ok.sub hcmp))
      | inc => exact vvBruteForceCheck_spec ok scan.pruned scan.dominator

theorem scan_start {vvp : Fin n → Option V} (hi : vvp i = some a) (before : ∀ k < i, vvp k = none) :
    Scan vvp vvp i 1 ((List.finRange n).filter (i < ·)) a := by
  have hout : ∀ k, k ∉ (List.finRange n).filter (i < ·) ↔ k ≤ i := by simp
  have honly : ∀ k ≤ i, ∀ b, vvp k = some b → k = i := by
    intro k hk b hb
    by_contra hne
    rw [before k (lt_of_le_of_ne hk hne)] at hb
    cases hb
  refine ⟨Pruned.refl vvp, hi, (hout i).mpr (le_refl i), before, ?_,
    card_seen_one hi fun k hk => honly k ((hout k).mp hk), ?_, ?_⟩
  · intro k hk b hb
    have hki := honly k ((hout k).mp hk) b hb
    rw [hki, hi] at hb
    cases hb
    exact ⟨le_refl a, le_refl a⟩
  · exact (sortedLT_finRange n).pairwise.filter _
  · intro k hk l hl
    exact lt_of_le_of_lt ((hout k).mp hk) (by simpa using hl)

theorem vvCheckReal_spec (ok : Compares cmp) (vvp : Fin n → Option V) :
    ∃ c, vvCheckReal cmp false vvp = some c ∧
      (CheckSpec vvp c ∧ (∃ i, vvp i ≠ none) ∨ c.ret = true ∧ ∀ i, vvp i = none) := by
  rw [vvCheckReal]
  cases hfirst : first vvp with
  | none => exact ⟨_, rfl, .inr ⟨rfl, first_eq_none hfirst⟩⟩
  | some i =>
    obtain ⟨⟨a, hi⟩, before⟩ := first_eq_some hfirst
    obtain ⟨c, hrun, hc⟩ := checkLoop_spec ok (scan_start hi before)
    exact ⟨c, hrun, .inl ⟨hc, i, by rw [hi]; exact nofun⟩⟩

/-! ### Equality required -/

/-- The scan goes on over vectors that are equal to the first one. -/
theorem checkLoop_eqReq {domIx : Fin n} (ok : Compares cmp) (hdom : cur domIx = some a)
    (js : List (Fin n)) (howMany : Nat) :
    ∃ c, checkLoop cmp true cur domIx howMany js = some c ∧
      (c.ret = true ↔ ∀ j ∈ js, ∀ b, cur j = some b → a ≤ b ∧ b ≤ a) := by
  induction js generalizing howMany with
  | nil => exact ⟨_, rfl, by simp⟩
  | cons j js ih =>
    -- a vector that is not equal ends the scan
    have stops : ∀ b, cur j = some b → ¬ (a ≤ b ∧ b ≤ a) →
        (false = true ↔ ∀ k ∈ j :: js, ∀ b, cur k = some b → a ≤ b ∧ b ≤ a) := by
      intro b hb hne
      constructor
      · exact nofun
      · exact fun h => absurd (h j (.head _) b hb) hne
    rw [checkLoop]
    cases hj : cur j with
    | none =>
      obtain ⟨c, hrun, hret⟩ := ih howMany
      refine ⟨c, hrun, hret.trans ?_⟩
      simp [hj]
    | some b =>
      simp only [hdom]
      cases hcmp : cmp a b with
      | eq =>
        obtain ⟨c, hrun, hret⟩ := ih (howMany + 1)
        refine ⟨c, hrun, hret.trans ?_⟩
        rw [forall_mem_cons]
        refine ⟨fun h => ⟨fun b' hb' => ?_, h⟩, And.right⟩
        rw [hj] at hb'
        cases hb'
        exact ok.eq hcmp
      | dom => exact ⟨_, rfl, stops b hj fun h => not_le_of_gt (ok.dom hcmp) h.1⟩
      | sub => exact ⟨_, rfl, stops b hj fun h => not_le_of_gt (ok.sub hcmp) h.2⟩
      | inc => exact ⟨_, rfl, stops b hj fun h => ok.inc hcmp h.2⟩

theorem vvCheckReal_eqReq (ok : Compares cmp) (vvp : Fin n → Option V) :
    ∃ c, vvCheckReal cmp true vvp = some c ∧
      (c.ret = true ↔ ∀ i j a b, vvp i = some a → vvp j = some b → a ≤ b) := by
  rw [vvCheckReal]
  cases hfirst : first vvp with
  | none =>
    refine ⟨_, rfl, iff_of_true rfl fun i j a b hi => ?_⟩
    rw [first_eq_none hfirst i] at hi
    cases hi
  | some i =>
    obtain ⟨⟨a, hi⟩, before⟩ := first_eq_some hfirst
    obtain ⟨c, hrun, hret⟩ := checkLoop_eqReq ok hi ((List.finRange n).filter (i < ·)) 1
    refine ⟨c, hrun, hret.trans ⟨fun h => ?_, fun h j _ b hj => ⟨h i j a b hi hj, h j i b a hj hi⟩⟩⟩
    have all : ∀ j b, vvp j = some b → a ≤ b ∧ b ≤ a := by
      intro j b hj
      rcases lt_trichotomy i j with hlt | rfl | hlt
      · exact h j (by simpa using hlt) b hj
      · rw [hi] at hj
        cases hj
        exact ⟨le_refl a, le_refl a⟩
      · rw [before j hlt] at hj
        cases hj
    exact fun j k b c hj hk => (all j b hj).2.trans (all k c hk).1

end Preorder

/-! ### The order of version vectors -/

instance : Preorder VersionVector where
  le a b := ∀ i, a.versions i ≤ b.versions i
  le_refl a i := Int.le_refl _
  le_trans a b c hab hbc i := Int.le_trans (hab i) (hbc i)

/-- What the loop has seen: a greater site makes it `dom`, a smaller one `sub`, both `inc`. -/
def outcome (greater smaller : Prop) [Decidable greater] [Decidable smaller] : VvCmpResult :=
  if greater then if smaller then .inc else .dom else if smaller then .sub else .eq

theorem cmpLoop_eq (a b : Fin 8 → Int) (is : List (Fin 8)) (res : VvCmpResult)
    (hres : res ≠ .inc) :
    cmpLoop a b res is =
      outcome (res = .dom ∨ ∃ i ∈ is, b i < a i) (res = .sub ∨ ∃ i ∈ is, a i < b i) := by
  induction is generalizing res with
  | nil => cases res <;> simp_all [cmpLoop, outcome]
  | cons i is ih =>
    rw [cmpLoop]
    rcases lt_trichotomy (a i) (b i) with hlt | heq | hgt
    · rw [if_neg hlt.ne, if_neg (not_lt_of_gt hlt)]
      by_cases hdom : res = .dom
      · rw [if_neg (not_not_intro hdom), outcome, if_pos (.inl hdom),
          if_pos (.inr ⟨i, .head _, hlt⟩)]
      · rw [ih .sub nofun]
        simp [outcome, hdom, hlt, not_lt_of_gt hlt]
    · rw [ih res hres]
      simp [heq]
    · rw [if_neg hgt.ne', if_pos hgt]
      by_cases hsub : res = .sub
      · rw [if_neg (not_not_intro hsub), outcome, if_pos (.inr ⟨i, .head _, hgt⟩),
          if_pos (.inl hsub)]
      · rw [ih .dom nofun]
        simp [outcome, hsub, hgt, not_lt_of_gt hgt]

theorem vvCmpIgnoreInc_eq (a b : VersionVector) :
    vvCmpIgnoreInc a b = outcome (∃ s, b.versions s < a.versions s)
      (∃ s, a.versions s < b.versions s) := by
  rw [vvCmpIgnoreInc, cmpLoop_eq _ _ _ .eq nofun]
  simp [mem_finRange]

theorem not_le_iff {a b : VersionVector} : ¬ a ≤ b ↔ ∃ s, b.versions s < a.versions s := by
  change ¬ (∀ s, a.versions s ≤ b.versions s) ↔ _
  push Not
  exact .rfl

theorem compares_vvCmpIgnoreInc : Compares vvCmpIgnoreInc where
  eq := by
    intro a b h
    rw [vvCmpIgnoreInc_eq, outcome] at h
    split_ifs at h with hgreater _ hsmaller
    exact ⟨not_not.mp fun h' => hgreater (not_le_iff.mp h'),
      not_not.mp fun h' => hsmaller (not_le_iff.mp h')⟩
  dom := by
    intro a b h
    rw [vvCmpIgnoreInc_eq, outcome] at h
    split_ifs at h with hgreater hsmaller
    exact lt_of_le_not_ge (not_not.mp fun h' => hsmaller (not_le_iff.mp h'))
      (not_le_iff.mpr hgreater)
  sub := by
    intro a b h
    rw [vvCmpIgnoreInc_eq, outcome] at h
    split_ifs at h with hgreater _ hsmaller
    exact lt_of_le_not_ge (not_not.mp fun h' => hgreater (not_le_iff.mp h'))
      (not_le_iff.mpr hsmaller)
  inc := by
    intro a b h
    rw [vvCmpIgnoreInc_eq, outcome] at h
    split_ifs at h with hgreater hsmaller
    exact not_le_iff.mpr hsmaller

/-- Without regard to the inconsistency flags: the check succeeds exactly when there is no vector or
one that is at least every other, and then leaves exactly those and their number; with equality
required it succeeds exactly when the versions are all equal. -/
theorem vvCheckIgnoreInc_exact (vvp : Fin 8 → Option VersionVector) :
    (∃ c, vvCheckIgnoreInc vvp false = some c ∧
      (c.ret = true ↔ (∀ i, vvp i = none) ∨
        ∃ i a, vvp i = some a ∧ ∀ j b, vvp j = some b → ∀ s, b.versions s ≤ a.versions s) ∧
      (c.ret = true → (∃ i, vvp i ≠ none) →
        (∀ i v, c.vvp i = some v ↔ vvp i = some v ∧
          ∀ j b, vvp j = some b → ∀ s, b.versions s ≤ v.versions s) ∧
        c.howMany = (Finset.univ.filter fun i => (c.vvp i).isSome).card)) ∧
    ∃ c, vvCheckIgnoreInc vvp true = some c ∧
      (c.ret = true ↔ ∀ i j a b, vvp i = some a → vvp j = some b → a.versions = b.versions) := by
  constructor
  · obtain ⟨c, hrun, hc⟩ := vvCheckReal_spec compares_vvCmpIgnoreInc vvp
    refine ⟨c, hrun, ?_⟩
    rcases hc with ⟨dominant | ⟨hret, hnone⟩, i, hi⟩ | ⟨hret, hempty⟩
    · refine ⟨iff_of_true dominant.ret (.inr dominant.nonempty), fun _ _ => ⟨fun i v => ?_,
        dominant.count⟩⟩
      constructor
      · intro hv
        have hmax : AtMaximum vvp i := by
          by_contra hmax
          rw [dominant.cleared i hmax] at hv
          cases hv
        obtain ⟨a, ha, top⟩ := hmax
        rw [dominant.kept i ⟨a, ha, top⟩, ha] at hv
        cases hv
        exact ⟨ha, top⟩
      · rintro ⟨hv, top⟩
        rw [dominant.kept i ⟨v, hv, top⟩, hv]
    · refine ⟨iff_of_false (by simp [hret]) ?_, fun h => absurd h (by simp [hret])⟩
      rintro (hempty | ⟨j, hmax⟩)
      · exact hi (hempty i)
      · exact hnone j hmax
    · exact ⟨iff_of_true hret (.inl hempty), fun _ ⟨i, hi⟩ => absurd (hempty i) hi⟩
  · obtain ⟨c, hrun, hret⟩ := vvCheckReal_eqReq compares_vvCmpIgnoreInc vvp
    refine ⟨c, hrun, hret.trans ⟨fun h i j a b hi hj => ?_, fun h i j a b hi hj => ?_⟩⟩
    · exact le_antisymm (h i j a b hi hj) (h j i b a hj hi)
    · exact fun s => le_of_eq (congrFun (h i j a b hi hj) s)

end Coda.Vv
