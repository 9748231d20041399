import Coda.Al.PdbArray
import Coda.Lib.Run

/-!
The id arrays in memory (`coda-src/al/pdbarray.c`): a sorted part of allocated cells.

An operation is `none` where C leaves the result open: a cell read that was not written or that is
not one of the first `size` ones, a cell written outside what was allocated, and a size or the sum
of two indices that does not fit an `int`. `Rep` relates an array to the list of its ids.

`pdb_array_search` adds two indices, and `pdb_array_copy` takes a new block before it copies the old
one, so the results hold for arrays of up to 2^30 ids that are not copied onto themselves.
-/

namespace Coda.Al

open Coda.Lib List Option Function

/-- `pdb_array`. A cell that was not written is `none`. -/
structure IdArray where
  size : Nat
  memsize : Nat
  data : List (Option Int)
deriving DecidableEq, Repr

/-- The result of an `int` computation that is not negative. -/
def fitsInt (n : Nat) : Option Nat := if n ≤ 2147483647 then some n else none

/-! ### Memory -/

/-- `l->data[i]`. -/
def IdArray.read (l : IdArray) (i : Int) : Option Int :=
  if 0 ≤ i ∧ i < l.size then (l.data[i.toNat]?).join else none

/-- `l->data[i] = x`. -/
def storeCell (data : List (Option Int)) (i : Nat) (x : Int) : Option (List (Option Int)) :=
  if i < data.length then some (data.set i (some x)) else none

def memmove (data : List (Option Int)) (dst src n : Nat) : Option (List (Option Int)) :=
  if dst + n ≤ data.length ∧ src + n ≤ data.length then
    some (data.take dst ++ (data.drop src).take n ++ data.drop (dst + n))
  else none

/-! ### The operations -/

/-- `pdb_array_init`. -/
def idArrayInit : IdArray := ⟨0, 0, []⟩

/-- The loop of `pdb_array_search`; `some none` is the result -1. -/
def idSearchLoop (l : IdArray) (x : Int) : Nat → Int → Int → Option (Option Nat)
  | 0, _, _ => none
  | k + 1, b, t => do
    let sum ← if b + t ≤ 2147483647 then some (b + t) else none
    let m := sum.tdiv 2
    let v ← l.read m
    if v = x then return some m.toNat
    else if b ≥ t then return none
    else if v > x then idSearchLoop l x k b (m - 1)
    else idSearchLoop l x k (m + 1) t

/-- `pdb_array_search`. The loop ends after at most `size` rounds. -/
def idArraySearch (l : IdArray) (x : Int) : Option (Option Nat) :=
  if l.size = 0 then some none else idSearchLoop l x l.size 0 (l.size - 1)

/-- The room for one more id in `pdb_array_add`. -/
def idArrayGrow (l : IdArray) : Option IdArray :=
  if l.size = l.memsize then
    if l.memsize ≠ 0 then do
      let memsize ← fitsInt (l.memsize + 16)
      return { l with memsize, data := l.data ++ List.replicate 16 none }
    else some { l with memsize := 16, data := List.replicate 16 none }
  else some l

/-- The loop of `pdb_array_add`: the first entry that is not smaller. -/
def idAddLoop (l : IdArray) (x : Int) : Nat → Nat → Option Nat
  | 0, i => some i
  | k + 1, i => do
    let v ← l.read i
    if v ≥ x then return i else idAddLoop l x k (i + 1)

/-- `pdb_array_add`. -/
def idArrayAdd (l : IdArray) (x : Int) : Option IdArray := do
  let l ← idArrayGrow l
  let i ← idAddLoop l x l.size 0
  if i < l.size then do
    let v ← l.read i
    if v = x then return l
    else do
      let data ← memmove l.data (i + 1) i (l.size - i)
      let data ← storeCell data i x
      let size ← fitsInt (l.size + 1)
      return { l with size, data }
  else do
    let data ← storeCell l.data i x
    let size ← fitsInt (l.size + 1)
    return { l with size, data }

/-- `pdb_array_del`. -/
def idArrayDel (l : IdArray) (x : Int) : Option IdArray := do
  match ← idArraySearch l x with
  | none => return l
  | some i =>
    let size := l.size - 1
    let data ← (if size - i > 0 then memmove l.data i (i + 1) (size - i) else some l.data)
    let data ← storeCell data size 0
    return { l with size, data }

/-- The copy that `pdb_array_copy` makes of another array. -/
def idArrayCopy (s : IdArray) : IdArray := ⟨s.size, s.size, s.data.take s.size⟩

/-- `pdb_array_copy` of an array onto itself: the block that is copied is the new one. -/
def idArrayCopySelf (s : IdArray) : IdArray := ⟨s.size, s.size, List.replicate s.size none⟩

/-- The loop of `pdb_array_merge`, with what was written so far. -/
def idMergeLoop (d s : IdArray) : Nat → Nat → Nat → List Int → Option (List Int)
  | 0, _, _, new => some new
  | k + 1, di, si, new =>
    if si = s.size ∧ di = d.size then some new
    else if si = s.size then do
      let x ← d.read di
      idMergeLoop d s k (di + 1) si (new ++ [x])
    else if di = d.size then do
      let y ← s.read si
      idMergeLoop d s k di (si + 1) (new ++ [y])
    else do
      let y ← s.read si
      let x ← d.read di
      if y < x then idMergeLoop d s k di (si + 1) (new ++ [y])
      else idMergeLoop d s k (di + 1) (if y = x then si + 1 else si) (new ++ [x])

/-- `pdb_array_merge` of `s` into `d`. -/
def idArrayMerge (d s : IdArray) : Option IdArray := do
  let memsize ← fitsInt (s.size + d.size)
  let new ← idMergeLoop d s memsize 0 0 []
  return ⟨new.length, memsize, new.map some ++ List.replicate (memsize - new.length) none⟩

/-! ### Sequences of operations on several arrays -/

inductive IdOp where
  | add (l : Nat) (x : Int)
  | del (l : Nat) (x : Int)
  | merge (d s : Nat)
  | copy (d s : Nat)
deriving DecidableEq, Repr

/-- The arrays, and the sets they should be. -/
structure IdWorld where
  arrays : Nat → IdArray
  sets : Nat → Finset Int

def IdWorld.start : IdWorld := ⟨fun _ => idArrayInit, fun _ => ∅⟩

/-- An array gets new contents. -/
def IdWorld.put (w : IdWorld) (l : Nat) (a : IdArray) (ids : Finset Int) : IdWorld :=
  ⟨Function.update w.arrays l a, Function.update w.sets l ids⟩

def idStep (w : IdWorld) : IdOp → Option IdWorld
  | .add l x => (idArrayAdd (w.arrays l) x).map fun a => w.put l a (insert x (w.sets l))
  | .del l x => (idArrayDel (w.arrays l) x).map fun a => w.put l a ((w.sets l).erase x)
  | .merge d s =>
    (idArrayMerge (w.arrays d) (w.arrays s)).map fun a => w.put d a (w.sets d ∪ w.sets s)
  | .copy d s =>
    some (w.put d (if d = s then idArrayCopySelf (w.arrays s) else idArrayCopy (w.arrays s))
      (w.sets s))

/-- The first `size` cells are increasing and hold the ids of the set, and they are found. -/
structure IdArray.Denotes (l : IdArray) (ids : Finset Int) : Prop where
  cells : ∃ values : List Int, l.data.take l.size = values.map some ∧ values.length = l.size ∧
    values.Pairwise (· < ·) ∧ ∀ x, x ∈ values ↔ x ∈ ids
  found : ∀ x ∈ ids, ∃ i, idArraySearch l x = some (some i) ∧ i < l.size ∧ l.data[i]? = some (some x)
  missing : ∀ x ∉ ids, idArraySearch l x = some none

/-- The sets stay within 2^30 ids, the sizes of two that are merged add up in an `int`, and no
array that has ids is copied onto itself. -/
def HasRoom (w : IdWorld) : IdOp → Prop
  | .add l x => (insert x (w.sets l)).card ≤ 1073741824
  | .del _ _ => True
  | .merge d s => (w.sets d ∪ w.sets s).card ≤ 1073741824 ∧
      (w.sets d).card + (w.sets s).card ≤ 2147483647
  | .copy d s => d ≠ s ∨ w.sets s = ∅

instance (w : IdWorld) (op : IdOp) : Decidable (HasRoom w op) := by
  cases op <;> unfold HasRoom <;> infer_instance

/-! ### Arrays and lists -/

/-- The array holds the ids `values`, and what was allocated is what it says. -/
structure Rep (l : IdArray) (values : PdbArray) : Prop where
  size : l.size = values.length
  memsize : l.memsize = l.data.length
  data : ∃ rest, l.data = values.map some ++ rest

section Rep

variable {l : IdArray} {values : PdbArray} {x : Int}

theorem Rep.init : Rep idArrayInit [] := ⟨rfl, rfl, [], rfl⟩

section

variable (rep : Rep l values)
include rep

theorem Rep.getElem? {i : Nat} (hi : i < values.length) : l.data[i]? = some (some values[i]) := by
  obtain ⟨rest, hdata⟩ := rep.data
  rw [hdata, List.getElem?_append_left (by simpa using hi), List.getElem?_map,
    List.getElem?_eq_getElem hi]
  rfl

theorem Rep.read {i : Nat} (hi : i < values.length) : l.read i = some values[i] := by
  rw [IdArray.read, if_pos ⟨Int.natCast_nonneg i, by rw [rep.size]; exact Int.ofNat_lt.mpr hi⟩,
    Int.toNat_natCast, rep.getElem? hi]
  rfl

theorem Rep.read_of {i : Nat} {v : Int} (h : values[i]? = some v) : l.read i = some v := by
  obtain ⟨hi, rfl⟩ := List.getElem?_eq_some_iff.mp h
  exact rep.read hi

theorem Rep.take : l.data.take l.size = values.map some := by
  obtain ⟨rest, hdata⟩ := rep.data
  rw [hdata, rep.size]
  exact take_left' (length_map _)

/-- Both searches look at the same entries. -/
theorem Rep.idSearchLoop (hmax : values.length ≤ 1073741824) (hlen : 0 < values.length) {k : Nat}
    {b t : Int} (hb : 0 ≤ b) (ht : t < values.length) (hbt : b ≤ t + 1) (hk : t - b < k) :
    idSearchLoop l x k b t = some (searchLoop values x k b t) ∨ k = 0 := by
  induction k generalizing b t with
  | zero => exact .inr rfl
  | succ k ih =>
    refine .inl ?_
    rw [Al.idSearchLoop, searchLoop, if_pos (by omega)]
    simp only [bind_eq_bind, bind_some]
    generalize hm : (b + t).tdiv 2 = m
    obtain ⟨hm₀, hm₁, hm₂⟩ := mid_bounds hlen hb ht hbt hm
    have hlt : m.toNat < values.length := by omega
    have hread : l.read m = some (values.getD m.toNat 0) := by
      rw [getD_eq_getElem _ _ hlt, ← rep.read hlt, Int.toNat_of_nonneg hm₀]
    rw [hread, bind_some]
    split
    · rfl
    · split
      · rfl
      · next hfound hdone =>
        obtain ⟨hbm, hmt⟩ := hm₂ (by omega)
        -- the remaining part is shorter, and if it is empty there is a round left to see it
        have hk₀ : k ≠ 0 := by omega
        split
        · exact (ih hb (by omega) (by omega) (by omega)).resolve_right hk₀
        · exact (ih (by omega) ht (by omega) (by omega)).resolve_right hk₀

theorem Rep.search (hmax : values.length ≤ 1073741824) :
    idArraySearch l x = some (pdbArraySearch values x) := by
  rw [idArraySearch, pdbArraySearch, rep.size]
  split
  · rfl
  · next hlen =>
    have := rep.idSearchLoop (x := x) hmax (Nat.pos_of_ne_zero hlen) (k := values.length)
      (b := 0) (t := values.length - 1) (by omega) (by omega) (by omega) (by omega)
    exact this.resolve_right hlen

omit rep in
/-- `pdb_array_add` in terms of the smaller ids and the others. -/
theorem pdbArrayAdd_eq (values : PdbArray) (x : Int) :
    pdbArrayAdd values x =
      match values.dropWhile (· < x) with
      | [] => values ++ [x]
      | v :: rest => if v = x then values else values.takeWhile (· < x) ++ x :: v :: rest := by
  induction values with
  | nil => rfl
  | cons a values ih =>
    rw [pdbArrayAdd]
    by_cases hlt : a < x
    · rw [if_neg (by omega), ih, dropWhile_cons_of_pos (by simpa using hlt),
        takeWhile_cons_of_pos (by simpa using hlt)]
      split
      · rfl
      · split <;> rfl
    · rw [if_pos (by omega), dropWhile_cons_of_neg (by simpa using hlt),
        takeWhile_cons_of_neg (by simpa using hlt)]
      rfl

theorem Rep.idAddLoop {before after : PdbArray} (h : values = before ++ after) :
    idAddLoop l x after.length before.length =
      some (before.length + (after.takeWhile (· < x)).length) := by
  induction after generalizing before with
  | nil => rfl
  | cons v after ih =>
    have hv : values[before.length]? = some v := by
      rw [h]
      simp
    rw [length_cons, Al.idAddLoop, rep.read_of hv]
    simp only [bind_eq_bind, bind_some]
    by_cases hge : v ≥ x
    · rw [if_pos hge, takeWhile_cons_of_neg (by simpa using hge)]
      rfl
    · rw [if_neg hge, takeWhile_cons_of_pos (by simpa using hge)]
      have hsplit : values = (before ++ [v]) ++ after := by
        rw [h, append_assoc]
        rfl
      have := ih hsplit
      rw [length_append, length_singleton] at this
      rw [this, length_cons]
      congr 1
      omega

theorem Rep.grow (hmax : values.length ≤ 1073741824) :
    ∃ l', idArrayGrow l = some l' ∧ Rep l' values ∧ l'.size < l'.data.length := by
  obtain ⟨rest, hdata⟩ := rep.data
  have hsize := rep.size
  have hmem := rep.memsize
  rw [idArrayGrow]
  by_cases hfull : l.size = l.memsize
  · rw [if_pos hfull]
    by_cases hzero : l.memsize ≠ 0
    · rw [if_pos hzero, fitsInt, if_pos (by omega)]
      refine ⟨_, rfl, ⟨hsize, ?_, rest ++ List.replicate 16 none, ?_⟩, ?_⟩
      · simp [hmem]
      · simp [hdata]
      · simp only [length_append, length_replicate]
        omega
    · have hnil : values = [] := length_eq_zero_iff.mp (by omega)
      subst hnil
      rw [if_neg hzero]
      refine ⟨_, rfl, ⟨hsize, rfl, _, rfl⟩, ?_⟩
      rw [hsize]
      decide
  · rw [if_neg hfull]
    refine ⟨l, rfl, rep, ?_⟩
    have hle : values.length ≤ l.data.length := by
      rw [hdata]
      simp
    omega

omit rep in
/-- Making room between two parts, and writing there. -/
theorem memmove_up (before after : List (Option Int)) (r : Option Int) (rest : List (Option Int))
    (x : Int) :
    (memmove (before ++ after ++ r :: rest) (before.length + 1) before.length after.length).bind
        (fun data => storeCell data before.length x) =
      some (before ++ some x :: after ++ rest) := by
  let data := before ++ after ++ r :: rest
  have hdata : data = before ++ (after ++ r :: rest) := append_assoc _ _ _
  have htake : data.take (before.length + 1) = before ++ (after ++ r :: rest).take 1 := by
    rw [hdata, take_length_add_append]
  have hdrop : (data.drop before.length).take after.length = after := by
    rw [hdata, drop_left, take_left]
  have hrest : data.drop (before.length + 1 + after.length) = rest := by
    have hlen : before.length + 1 + after.length = (before ++ after).length + 1 := by
      rw [length_append]
      omega
    rw [hlen, drop_length_add_append]
    rfl
  obtain ⟨c, hc⟩ : ∃ c, (after ++ r :: rest).take 1 = [c] := by
    cases after <;> exact ⟨_, rfl⟩
  have hfit : before.length + 1 + after.length ≤ data.length ∧
      before.length + after.length ≤ data.length := by
    simp only [data, length_append, length_cons]
    omega
  rw [memmove, if_pos hfit, htake, hrest, hc, bind_some, storeCell]
  simp

theorem Rep.add (hmax : values.length ≤ 1073741824) :
    ∃ l', idArrayAdd l x = some l' ∧ Rep l' (pdbArrayAdd values x) := by
  obtain ⟨l₁, hgrow, rep₁, hroom⟩ := rep.grow hmax
  have hloop := rep₁.idAddLoop (x := x) (nil_append values).symm
  have hsize := rep₁.size
  obtain ⟨rest, hdata⟩ := rep₁.data
  have hparts : values.takeWhile (· < x) ++ values.dropWhile (· < x) = values :=
    takeWhile_append_dropWhile
  obtain ⟨r, rest, rfl⟩ : ∃ r rest', rest = r :: rest' := by
    cases rest with
    | nil =>
      rw [hdata, append_nil, length_map] at hroom
      omega
    | cons r rest => exact ⟨r, rest, rfl⟩
  rw [length_nil, Nat.zero_add, ← hsize] at hloop
  rw [idArrayAdd, hgrow, pdbArrayAdd_eq]
  simp only [bind_eq_bind, bind_some, hloop]
  have hfits : fitsInt (l₁.size + 1) = some (l₁.size + 1) := if_pos (by omega)
  cases hdrop : values.dropWhile (· < x) with
  | nil =>
    -- all ids are smaller
    rw [hdrop, append_nil] at hparts
    rw [hparts, if_neg (by omega), hdata, storeCell, if_pos (by simp), hfits]
    refine ⟨_, rfl, ?_, ?_, rest, ?_⟩
    · simp [hsize]
    · simp [rep₁.memsize, hdata]
    · simp
  | cons v after =>
    rw [hdrop] at hparts
    have hcount : (values.takeWhile (· < x)).length + (v :: after).length = values.length := by
      rw [← length_append, hparts]
    have hlt : (values.takeWhile (· < x)).length < l₁.size := by
      rw [hsize, ← hcount]
      exact Nat.lt_add_of_pos_right (Nat.zero_lt_succ _)
    have hv : (values.takeWhile (· < x) ++ v :: after)[(values.takeWhile (· < x)).length]? =
        some v := by simp
    rw [hparts] at hv
    dsimp only
    rw [if_pos hlt, rep₁.read_of hv, bind_some]
    by_cases heq : v = x
    · rw [if_pos heq, if_pos heq]
      exact ⟨l₁, rfl, rep₁⟩
    · rw [if_neg heq, if_neg heq]
      have hmove := memmove_up ((values.takeWhile (· < x)).map some) ((v :: after).map some) r rest x
      rw [← map_append, hparts, ← hdata] at hmove
      simp only [length_map] at hmove
      have hrest : l₁.size - (values.takeWhile (· < x)).length = (v :: after).length := by omega
      rw [hrest, ← bind_assoc, hmove, hfits]
      have hlen : l₁.data.length = values.length + (rest.length + 1) := by
        rw [hdata]
        simp
      rw [length_cons] at hcount
      refine ⟨_, rfl, ?_, ?_, rest, ?_⟩
      · simp only [length_append, length_cons]
        omega
      · simp only [rep₁.memsize, length_append, length_cons, length_map]
        omega
      · simp

omit rep in
/-- Closing the gap that an entry leaves. -/
theorem memmove_down (before : List (Option Int)) (y : Option Int) (after rest : List (Option Int)) :
    ∃ c, memmove (before ++ y :: after ++ rest) before.length (before.length + 1) after.length =
      some (before ++ after ++ c :: rest) := by
  let data := before ++ y :: after ++ rest
  have hfit : before.length + after.length ≤ data.length ∧
      before.length + 1 + after.length ≤ data.length := by
    simp only [data, length_append, length_cons]
    omega
  have hdata : data = before ++ (y :: after ++ rest) := append_assoc _ _ _
  have htake : data.take before.length = before := by rw [hdata, take_left]
  have hmiddle : (data.drop (before.length + 1)).take after.length = after := by
    rw [hdata, drop_length_add_append, cons_append, drop_succ_cons, drop_zero, take_left]
  -- behind the part that was moved is the last entry of the old list
  obtain ⟨c, hc⟩ : ∃ c, (y :: after ++ rest).drop after.length = c :: rest := by
    have hlt : after.length < (y :: after ++ rest).length := by
      rw [cons_append, length_cons, length_append]
      omega
    refine ⟨(y :: after ++ rest)[after.length], ?_⟩
    rw [drop_eq_getElem_cons hlt]
    exact congrArg (List.cons _) drop_left
  have hend : data.drop (before.length + after.length) = c :: rest := by
    rw [hdata, drop_length_add_append, hc]
  exact ⟨c, by rw [memmove, if_pos hfit, htake, hmiddle, hend]⟩

theorem Rep.del (sorted : values.Sorted) (hmax : values.length ≤ 1073741824) :
    ∃ l', idArrayDel l x = some l' ∧ Rep l' (pdbArrayDel values x) := by
  rw [idArrayDel, rep.search hmax, pdbArrayDel]
  cases hsearch : pdbArraySearch values x with
  | none => exact ⟨l, rfl, rep⟩
  | some i =>
    obtain ⟨hi, -⟩ := (pdbArraySearch_spec sorted x).1 i hsearch
    obtain ⟨rest, hdata⟩ := rep.data
    have hsize := rep.size
    have hmem := rep.memsize
    have hparts : values = values.take i ++ values[i] :: values.drop (i + 1) := by
      rw [← drop_eq_getElem_cons hi, take_append_drop]
    have hbefore : (values.take i).length = i := length_take_of_le (le_of_lt hi)
    have hafter : (values.drop (i + 1)).length = l.size - 1 - i := by
      rw [length_drop]
      omega
    have hcells : l.data = (values.take i).map some ++
        some values[i] :: (values.drop (i + 1)).map some ++ rest := by
      rw [hdata]
      conv_lhs => rw [hparts]
      rw [map_append, map_cons]
    -- in both cases there is one cell behind the ids that are left
    obtain ⟨c, hmove⟩ : ∃ c, (if l.size - 1 - i > 0
        then memmove l.data i (i + 1) (l.size - 1 - i) else some l.data) =
        some ((values.eraseIdx i).map some ++ c :: rest) := by
      rw [eraseIdx_eq_take_drop_succ, map_append]
      by_cases hmore : l.size - 1 - i > 0
      · obtain ⟨c, hc⟩ := memmove_down ((values.take i).map some) (some values[i])
          ((values.drop (i + 1)).map some) rest
        rw [← hcells, length_map, length_map, hbefore, hafter] at hc
        exact ⟨c, by rw [if_pos hmore, hc]⟩
      · have hnil : values.drop (i + 1) = [] := length_eq_zero_iff.mp (by omega)
        rw [if_neg hmore, hcells, hnil]
        simp
    have herase : (values.eraseIdx i).length = l.size - 1 := by
      rw [length_eraseIdx_of_lt hi, hsize]
    simp only [bind_eq_bind, bind_some, hmove]
    rw [storeCell, if_pos (by simp [herase])]
    refine ⟨_, rfl, herase.symm, ?_, some 0 :: rest, ?_⟩
    · have hlen := congrArg List.length hdata
      rw [length_append, length_map] at hlen
      simp only [length_set, length_append, length_map, length_cons]
      omega
    · have hlen : l.size - 1 = ((values.eraseIdx i).map some).length := by
        rw [length_map, herase]
      simp only [hlen]
      rw [set_append_right _ _ (le_refl _), Nat.sub_self, set_cons_zero]

theorem Rep.copy : Rep (idArrayCopy l) values := by
  refine ⟨rep.size, ?_, [], ?_⟩
  · change l.size = (l.data.take l.size).length
    rw [rep.take, length_map, rep.size]
  · rw [append_nil]
    exact rep.take

end

/-- The merging loop goes on with what is left of both arrays. -/
theorem Rep.idMergeLoop {d s : IdArray} {dv sv : PdbArray} (hd : Rep d dv) (hs : Rep s sv)
    {k di si : Nat} (new : List Int) (hdi : di ≤ dv.length) (hsi : si ≤ sv.length)
    (hk : (dv.length - di) + (sv.length - si) ≤ k) :
    idMergeLoop d s k di si new = some (new ++ pdbArrayMerge (dv.drop di) (sv.drop si)) := by
  induction k generalizing di si new with
  | zero =>
    have hdnil : dv.drop di = [] := drop_eq_nil_of_le (by omega)
    have hsnil : sv.drop si = [] := drop_eq_nil_of_le (by omega)
    rw [Al.idMergeLoop, hdnil, hsnil, pdbArrayMerge, append_nil]
  | succ k ih =>
    rw [Al.idMergeLoop, hd.size, hs.size]
    by_cases hsend : si = sv.length
    · have hsnil : sv.drop si = [] := drop_eq_nil_of_le (by omega)
      by_cases hdend : di = dv.length
      · have hdnil : dv.drop di = [] := drop_eq_nil_of_le (by omega)
        rw [if_pos ⟨hsend, hdend⟩, hdnil, hsnil, pdbArrayMerge, append_nil]
      · have hlt : di < dv.length := by omega
        rw [if_neg fun h => hdend h.2, if_pos hsend, hd.read hlt]
        simp only [bind_eq_bind, bind_some]
        rw [ih _ (by omega) hsi (by omega), hsnil, pdbArrayMerge, pdbArrayMerge,
          drop_eq_getElem_cons hlt, append_assoc]
        rfl
    · have hslt : si < sv.length := by omega
      rw [if_neg fun h => hsend h.1, if_neg hsend]
      by_cases hdend : di = dv.length
      · have hdnil : dv.drop di = [] := drop_eq_nil_of_le (by omega)
        have hnil : ∀ l : PdbArray, pdbArrayMerge [] l = l := by
          intro l
          cases l <;> rw [pdbArrayMerge]
          simp
        rw [if_pos hdend, hs.read hslt]
        simp only [bind_eq_bind, bind_some]
        rw [ih _ hdi (by omega) (by omega), hdnil, hnil, hnil, drop_eq_getElem_cons hslt,
          append_assoc]
        rfl
      · have hdlt : di < dv.length := by omega
        rw [if_neg hdend, hs.read hslt, hd.read hdlt]
        simp only [bind_eq_bind, bind_some]
        rw [drop_eq_getElem_cons hslt, drop_eq_getElem_cons hdlt, pdbArrayMerge]
        by_cases hlt : sv[si] < dv[di]
        · rw [if_pos hlt, if_pos hlt, ih _ hdi (by omega) (by omega),
            drop_eq_getElem_cons hdlt, append_assoc]
          rfl
        · rw [if_neg hlt, if_neg hlt]
          by_cases heq : sv[si] = dv[di]
          · rw [if_pos heq, if_pos heq, ih _ (by omega) (by omega) (by omega), append_assoc]
            rfl
          · rw [if_neg heq, if_neg heq, ih _ (by omega) hsi (by omega),
              drop_eq_getElem_cons hslt, append_assoc]
            rfl

theorem length_pdbArrayMerge_le (d s : PdbArray) :
    (pdbArrayMerge d s).length ≤ d.length + s.length := by
  fun_induction pdbArrayMerge d s <;> simp_all <;> omega

theorem Rep.merge {d s : IdArray} {dv sv : PdbArray} (hd : Rep d dv) (hs : Rep s sv)
    (hmax : dv.length + sv.length ≤ 2147483647) :
    ∃ l', idArrayMerge d s = some l' ∧ Rep l' (pdbArrayMerge dv sv) := by
  have hfits : fitsInt (s.size + d.size) = some (s.size + d.size) :=
    if_pos (by rw [hs.size, hd.size]; omega)
  have hloop := hd.idMergeLoop hs (k := s.size + d.size) [] (Nat.zero_le _) (Nat.zero_le _)
    (by rw [hs.size, hd.size]; omega)
  rw [drop_zero, drop_zero, nil_append] at hloop
  rw [idArrayMerge, hfits]
  simp only [bind_eq_bind, bind_some, hloop]
  refine ⟨_, rfl, rfl, ?_, _, rfl⟩
  have hle := length_pdbArrayMerge_le dv sv
  have hsize₁ := hd.size
  have hsize₂ := hs.size
  simp only [length_append, length_map, length_replicate]
  omega

end Rep

/-! ### Runs -/

/-- Every array is sorted, holds its set, and has at most 2^30 ids. -/
def IdInv (w : IdWorld) : Prop :=
  ∀ l, ∃ values : PdbArray, Rep (w.arrays l) values ∧ values.Sorted ∧
    values.length ≤ 1073741824 ∧ ∀ x, x ∈ values ↔ x ∈ w.sets l

variable {l : IdArray} {values : PdbArray} {ids : Finset Int} {w : IdWorld}

theorem Rep.denotes (rep : Rep l values) (sorted : values.Sorted)
    (hmax : values.length ≤ 1073741824) (mem : ∀ x, x ∈ values ↔ x ∈ ids) :
    l.Denotes ids where
  cells := ⟨values, rep.take, rep.size.symm, sorted, mem⟩
  found := by
    intro x hx
    cases hsearch : pdbArraySearch values x with
    | none => exact absurd ((mem x).mpr hx) ((pdbArraySearch_spec sorted x).2 hsearch)
    | some i =>
      obtain ⟨hi, hxi⟩ := (pdbArraySearch_spec sorted x).1 i hsearch
      rw [getD_eq_getElem _ _ hi] at hxi
      refine ⟨i, by rw [rep.search hmax, hsearch], rep.size ▸ hi, ?_⟩
      rw [rep.getElem? hi, hxi]
  missing := by
    intro x hx
    rw [rep.search hmax, (pdbArraySearch_eq_none_iff sorted x).mpr fun h => hx ((mem x).mp h)]

theorem IdInv.put (inv : IdInv w) {l : Nat} {a : IdArray} (rep : Rep a values)
    (sorted : values.Sorted) (hmax : values.length ≤ 1073741824) (mem : ∀ x, x ∈ values ↔ x ∈ ids) :
    IdInv (w.put l a ids) := by
  intro k
  unfold IdWorld.put
  by_cases heq : k = l
  · subst heq
    simp only [update_self]
    exact ⟨values, rep, sorted, hmax, mem⟩
  · simp only [update_of_ne heq]
    exact inv k

theorem length_eq_card (sorted : values.Sorted) (mem : ∀ x, x ∈ values ↔ x ∈ ids) :
    values.length = ids.card := by
  have hids : values.toFinset = ids := Finset.ext fun x => mem_toFinset.trans (mem x)
  rw [← hids, toFinset_card_of_nodup (sorted.imp Int.ne_of_lt)]

theorem IdInv.step {op : IdOp} (inv : IdInv w) (room : HasRoom w op) :
    ∃ w', idStep w op = some w' ∧ IdInv w' := by
  cases op with
  | add l x =>
    obtain ⟨values, rep, sorted, hmax, mem⟩ := inv l
    obtain ⟨a, hadd, rep'⟩ := rep.add hmax
    have sorted' := sorted_pdbArrayAdd sorted x
    have mem' : ∀ y, y ∈ pdbArrayAdd values x ↔ y ∈ insert x (w.sets l) := by
      intro y
      rw [mem_pdbArrayAdd, Finset.mem_insert, mem]
    refine ⟨_, by rw [idStep, hadd]; rfl, inv.put rep' sorted' ?_ mem'⟩
    rw [length_eq_card sorted' mem']
    exact room
  | del l x =>
    obtain ⟨values, rep, sorted, hmax, mem⟩ := inv l
    obtain ⟨a, hdel, rep'⟩ := rep.del sorted hmax
    have sorted' := sorted_pdbArrayDel sorted x
    have mem' : ∀ y, y ∈ pdbArrayDel values x ↔ y ∈ (w.sets l).erase x := by
      intro y
      rw [mem_pdbArrayDel sorted, Finset.mem_erase, mem, and_comm]
    refine ⟨_, by rw [idStep, hdel]; rfl, inv.put rep' sorted' ?_ mem'⟩
    rw [length_eq_card sorted mem] at hmax
    rw [length_eq_card sorted' mem']
    exact le_trans (Finset.card_le_card (Finset.erase_subset x _)) hmax
  | merge d s =>
    obtain ⟨dv, hd, dsorted, -, dmem⟩ := inv d
    obtain ⟨sv, hs, ssorted, -, smem⟩ := inv s
    obtain ⟨hunion, hsum⟩ := room
    rw [← length_eq_card dsorted dmem, ← length_eq_card ssorted smem] at hsum
    obtain ⟨a, hmerge, rep'⟩ := hd.merge hs hsum
    have sorted' := sorted_pdbArrayMerge dsorted ssorted
    have mem' : ∀ y, y ∈ pdbArrayMerge dv sv ↔ y ∈ w.sets d ∪ w.sets s := by
      intro y
      rw [mem_pdbArrayMerge, Finset.mem_union, dmem, smem]
    refine ⟨_, by rw [idStep, hmerge]; rfl, inv.put rep' sorted' ?_ mem'⟩
    rw [length_eq_card sorted' mem']
    exact hunion
  | copy d s =>
    obtain ⟨values, rep, sorted, hmax, mem⟩ := inv s
    refine ⟨_, rfl, inv.put ?_ sorted hmax mem⟩
    by_cases heq : d = s
    · have hempty : w.sets s = ∅ := room.resolve_left (not_not_intro heq)
      have hnil : values = [] :=
        length_eq_zero_iff.mp (by rw [length_eq_card sorted mem, hempty, Finset.card_empty])
      subst hnil
      rw [if_pos heq, idArrayCopySelf, rep.size]
      exact Rep.init
    · rw [if_neg heq]
      exact rep.copy

theorem idInv_start : IdInv IdWorld.start := by
  intro l
  exact ⟨[], Rep.init, List.Pairwise.nil, Nat.zero_le _, by simp [IdWorld.start]⟩

/-- Every sequence of operations with room completes, and the arrays are then the sorted arrays of
the sets. -/
theorem idArrays_refine (ops : List IdOp) (room : Guarded idStep HasRoom IdWorld.start ops) :
    ∃ w, ops.foldlM idStep IdWorld.start = some w ∧ ∀ l, (w.arrays l).Denotes (w.sets l) := by
  obtain ⟨w, run, inv⟩ := run_of_guarded (fun w op inv room => IdInv.step inv room) idInv_start room
  refine ⟨w, run, fun l => ?_⟩
  obtain ⟨values, rep, sorted, hmax, mem⟩ := inv l
  exact rep.denotes sorted hmax mem

/-- A deletion, a merge and a copy. -/
theorem idArrays_refine_some :
    ∃ w, [IdOp.add 0 5, .add 0 3, .add 1 4, .merge 0 1, .del 0 3, .copy 2 0].foldlM idStep
        IdWorld.start = some w ∧ ∀ l, (w.arrays l).Denotes (w.sets l) :=
  idArrays_refine _ (by decide +kernel)

/-! ### Arrays that are too large -/

/-- The search for the last of more than 2^30 ids goes up until the indices no longer add up. -/
theorem idSearchLoop_last {x : Int} (large : 1073741824 < l.size)
    (smaller : ∀ i : Nat, i + 1 < l.size → ∃ v, l.read i = some v ∧ v < x) {k : Nat} {b : Int}
    (hb : 0 ≤ b) (hbt : b ≤ l.size - 1) : idSearchLoop l x k b (l.size - 1) = none := by
  induction k generalizing b with
  | zero => rfl
  | succ k ih =>
    rw [idSearchLoop]
    by_cases hfits : b + (l.size - 1 : Int) ≤ 2147483647
    · rw [if_pos hfits]
      simp only [bind_eq_bind, bind_some]
      generalize hm : (b + (l.size - 1 : Int)).tdiv 2 = m
      rw [Int.tdiv_eq_ediv_of_nonneg (by omega)] at hm
      obtain ⟨v, hread, hv⟩ := smaller m.toNat (by omega)
      rw [Int.toNat_of_nonneg (by omega)] at hread
      rw [hread, bind_some, if_neg (by omega), if_neg (by omega), if_neg (by omega)]
      exact ih (by omega) (by omega)
    · rw [if_neg hfits]
      rfl

theorem IdArray.Denotes.card_le (h : l.Denotes ids) : ids.card ≤ 1073741824 := by
  obtain ⟨values, hcells, hlen, sorted, mem⟩ := h.cells
  by_contra hlarge
  have hsize : 1073741824 < l.size := by
    rw [← hlen, length_eq_card sorted mem]
    omega
  have hread : ∀ (i : Nat) (hi : i < values.length), l.read i = some values[i] := by
    intro i hi
    have hcell : (l.data.take l.size)[i]? = some (some values[i]) := by
      rw [hcells, List.getElem?_map, List.getElem?_eq_getElem hi]
      rfl
    rw [List.getElem?_take_of_lt (hlen ▸ hi)] at hcell
    rw [IdArray.read, if_pos (by omega), Int.toNat_natCast, hcell]
    rfl
  have hlast : l.size - 1 < values.length := by omega
  obtain ⟨i, hsearch, -⟩ := h.found _ ((mem _).mp (getElem_mem hlast))
  rw [idArraySearch, if_neg (by omega), idSearchLoop_last hsize ?_ (by omega) (by omega)] at hsearch
  · cases hsearch
  · intro i hi
    exact ⟨values[i], hread i (by omega), pairwise_iff_getElem.mp sorted _ _ _ _ (by omega)⟩

theorem sets_foldlM_add {xs : List Int} {w' : IdWorld} {l : Nat}
    (run : (xs.map (IdOp.add l)).foldlM idStep w = some w') :
    w'.sets l = xs.toFinset ∪ w.sets l := by
  induction xs generalizing w with
  | nil =>
    cases run
    simp
  | cons x xs ih =>
    obtain ⟨w₁, step₁, run₁⟩ := bind_eq_some_iff.mp run
    obtain ⟨a, -, rfl⟩ := map_eq_some_iff.mp step₁
    have hset : (w.put l a (insert x (w.sets l))).sets l = insert x (w.sets l) :=
      update_self ..
    rw [ih run₁, hset, toFinset_cons, Finset.union_insert, Finset.insert_union]

/-- An array copied onto itself has lost its ids, and in an array of 2^30 + 1 ids not every one is
found. -/
theorem idArrays_not_refine :
    (¬ ∃ w, [IdOp.add 0 1, .copy 0 0].foldlM idStep IdWorld.start = some w ∧
      ∀ l, (w.arrays l).Denotes (w.sets l)) ∧
    ¬ ∃ w, (((List.range 1073741825).map Int.ofNat).map (IdOp.add 0)).foldlM idStep
      IdWorld.start = some w ∧ ∀ l, (w.arrays l).Denotes (w.sets l) := by
  constructor
  · rintro ⟨w, run, denotes⟩
    have hdata : (w.arrays 0).data.take (w.arrays 0).size = [none] := by
      have : (([IdOp.add 0 1, .copy 0 0].foldlM idStep IdWorld.start).map fun w =>
          (w.arrays 0).data.take (w.arrays 0).size) = some [none] := by decide +kernel
      rw [run] at this
      exact some.inj this
    obtain ⟨values, hcells, -⟩ := (denotes 0).cells
    rw [hdata] at hcells
    cases values <;> cases hcells
  · rintro ⟨w, run, denotes⟩
    have hle := (denotes 0).card_le
    have hnodup : ((List.range 1073741825).map Int.ofNat).Nodup :=
      nodup_range.map fun _ _ => Int.ofNat.inj
    rw [sets_foldlM_add run, IdWorld.start, Finset.union_empty, toFinset_card_of_nodup hnodup,
      length_map, length_range] at hle
    omega

end Coda.Al
