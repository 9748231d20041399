import Coda.Lib.Bits
import Coda.Resolve.Log

/-!
Incremental dumps of a volume (`vol-dump.cc`, `vvlist.cc`).

A dump of level 0 has every vnode. A dump of a higher level has what was modified and removal
records, both found by comparison with the list that the dump before it, of whatever level, left
behind. The list gives for every vnode the level at which it was last dumped. Here is the dump
of one of the two vnode indexes; the large and the small one are dumped in the same way.

Uniquifiers are written to the list with `%d` and read back into an `int`, while the vnode's own,
an unsigned number, is passed as a `long` of 64 bits.
-/

namespace Coda.Volutil

open List
open Coda.Lib (toNat_eq_toInt_iff)
open Coda.Resolve (StoreId)

/-- What a dump compares of a vnode. -/
structure Vnode where
  uniquifier : BitVec 32
  storeId : StoreId
deriving DecidableEq, Repr

/-- A vnode index: for every bit number a list of vnodes with different uniquifiers. -/
structure Index where
  slots : List (List Vnode)
  nodup : ∀ s ∈ slots, (s.map Vnode.uniquifier).Nodup

def Index.nLists (ix : Index) : Nat := ix.slots.length

def Index.slot (ix : Index) (i : Nat) : List Vnode := ix.slots.getD i []

/-- The version of a vnode, by bit number and uniquifier. -/
def Index.find (ix : Index) (i : Nat) (u : BitVec 32) : Option StoreId :=
  ((ix.slot i).find? fun v => v.uniquifier = u).map Vnode.storeId

/-- A line of the list, which is also an entry of `vvtable`. -/
structure Vvent where
  index : Nat
  unique : Int
  storeId : StoreId
  dumplevel : Nat
deriving DecidableEq, Repr

/-- A list as `ListVV` writes it. No line has a bit number outside the table that is made of it. -/
structure VvList where
  nlists : Nat
  lines : List Vvent
  fits : ∀ l ∈ lines, l.index < nlists

/-- `vvlist[i]`: each line was put in front of those before it. -/
def VvList.slot (vv : VvList) (i : Nat) : List Vvent :=
  (vv.lines.filter fun l => l.index = i).reverse

/-- `vvtable::IsModified`, with `last_dumplevel`. -/
def isModified (vv : VvList) (vnodeIndex : Nat) (unique : Int) (storeId : StoreId)
    (currentDumplevel : Nat) : Bool × Nat :=
  if vv.nlists ≤ vnodeIndex then (true, currentDumplevel)
  else
    match (vv.slot vnodeIndex).find? fun e => e.unique = unique with
    | none => (true, currentDumplevel)
    | some e =>
      if e.storeId = storeId ∧ e.dumplevel < currentDumplevel then (false, e.dumplevel)
      else (true, currentDumplevel)

/-- A record of a dump. -/
inductive Record where
  | vnode (index : Nat) (v : Vnode)
  | rmvnode (index : Nat) (unique : BitVec 32)
deriving DecidableEq, Repr

/-- The test of an incremental dump on one vnode. -/
def modified (level : Nat) (ancient : VvList) (i : Nat) (v : Vnode) : Bool × Nat :=
  isModified ancient i v.uniquifier.toNat v.storeId level

/-- The entry was marked by `IsModified`. -/
def isThere (ancient : VvList) (i : Nat) (vnodes : List Vnode) (e : Vvent) : Bool :=
  vnodes.any fun v =>
    (ancient.slot i).find? (fun e => e.unique = (v.uniquifier.toNat : Int)) = some e

/-- The records of one list of vnodes in an incremental dump. -/
def dumpSlot (level : Nat) (ancient : VvList) (i : Nat) (vnodes : List Vnode) : List Record :=
  (vnodes.filter fun v => (modified level ancient i v).1).map (Record.vnode i) ++
    ((ancient.slot i).filter fun e => !isThere ancient i vnodes e).map fun e =>
      Record.rmvnode i (BitVec.ofInt 32 e.unique)

/-- `ListVV`. -/
def listVV (i : Nat) (v : Vnode) (dumplevel : Nat) : Vvent :=
  ⟨i, v.uniquifier.toInt, v.storeId, dumplevel⟩

/-- The records of `DumpVnodeIndex`. -/
def dumpRecords (level : Nat) (ancient : Option VvList) (ix : Index) : List Record :=
  (List.range ix.nLists).flatMap fun i =>
    match ancient with
    | some ancient =>
      if level ≠ 0 then dumpSlot level ancient i (ix.slot i) else (ix.slot i).map (Record.vnode i)
    | none => (ix.slot i).map (Record.vnode i)

/-- The level that `DumpVnodeIndex` lists a vnode with. -/
def listLevel (level : Nat) (ancient : Option VvList) (i : Nat) (v : Vnode) : Nat :=
  match ancient with
  | some ancient => if level ≠ 0 then (modified level ancient i v).2 else 0
  | none => 0

/-- The list that `DumpVnodeIndex` writes. -/
def dumpList (level : Nat) (ancient : Option VvList) (ix : Index) : VvList where
  nlists := ix.nLists
  lines := (List.range ix.nLists).flatMap fun i =>
    (ix.slot i).map fun v => listVV i v (listLevel level ancient i v)
  fits := by
    intro l hl
    obtain ⟨i, hi, hl⟩ := mem_flatMap.mp hl
    obtain ⟨v, -, rfl⟩ := List.mem_map.mp hl
    exact mem_range.mp hi

/-! ### Sequences of dumps -/

/-- A dump: its level, and the vnodes of the volume at that time. -/
structure Dump where
  level : Nat
  index : Index

/-- The list that is the ancient one after these dumps, the latest first. -/
def ancientAfter : List Dump → Option VvList
  | [] => none
  | d :: older => some (dumpList d.level (ancientAfter older) d.index)

/-- The records of the latest of these dumps. -/
def recordsOf : List Dump → List Record
  | [] => []
  | d :: older => dumpRecords d.level (ancientAfter older) d.index

/-- The dumps to be restored, each with those before it: the latest, and from each one the most
recent before it with a lower level. -/
def chain : List Dump → Option Nat → List (List Dump)
  | [], _ => []
  | d :: older, bound =>
    if bound.all fun b => d.level < b then (d :: older) :: chain older (some d.level)
    else chain older bound

/-- What is restored, by bit number and uniquifier. -/
abbrev Restored := Nat → BitVec 32 → Option StoreId

def apply (x : Restored) : Record → Restored
  | .vnode i v => fun j u => if j = i ∧ u = v.uniquifier then some v.storeId else x j u
  | .rmvnode i unique => fun j u => if j = i ∧ u = unique then none else x j u

/-- The dumps are applied, oldest first. -/
def restoreChain : List (List Dump) → Restored
  | [] => fun _ _ => none
  | h :: rest => (recordsOf h).foldl apply (restoreChain rest)

def restore (dumps : List Dump) : Restored := restoreChain (chain dumps none)

/-! ### The records of one dump -/

section Apply

variable {x : Restored} {i j : Nat} {u : BitVec 32}

theorem apply_vnodes {vs : List Vnode} (nodup : (vs.map Vnode.uniquifier).Nodup) :
    (vs.map (Record.vnode i)).foldl apply x i u =
      ((vs.find? fun v => v.uniquifier = u).map Vnode.storeId).or (x i u) := by
  induction vs generalizing x with
  | nil => rfl
  | cons v vs ih =>
    obtain ⟨hnew, hrest⟩ := nodup_cons.mp nodup
    rw [map_cons, foldl_cons, ih hrest, List.find?_cons]
    by_cases hv : v.uniquifier = u
    · have hnone : vs.find? (fun v => v.uniquifier = u) = none := by
        rw [List.find?_eq_none]
        intro w hw heq
        rw [decide_eq_true_iff] at heq
        exact hnew (mem_map.mpr ⟨w, hw, heq.trans hv.symm⟩)
      rw [hnone]
      simp [apply, hv]
    · have hv' : ¬u = v.uniquifier := fun h => hv h.symm
      rw [decide_eq_false hv]
      simp [apply, hv']

theorem apply_rmvnodes (us : List (BitVec 32)) :
    (us.map (Record.rmvnode i)).foldl apply x i u = if u ∈ us then none else x i u := by
  induction us generalizing x with
  | nil => simp
  | cons w us ih =>
    rw [map_cons, foldl_cons, ih]
    by_cases hin : u ∈ us
    · simp [hin]
    · by_cases hw : u = w
      · simp [apply, hw]
      · simp [apply, hw, hin]

/-- A record is about one bit number. -/
def Record.index : Record → Nat
  | .vnode i _ => i
  | .rmvnode i _ => i

theorem apply_of_ne {rs : List Record} (h : ∀ r ∈ rs, r.index ≠ i) :
    rs.foldl apply x i u = x i u := by
  induction rs generalizing x with
  | nil => rfl
  | cons r rs ih =>
    obtain ⟨hr, hrs⟩ := forall_mem_cons.mp h
    rw [foldl_cons, ih hrs]
    cases r with
    | vnode k v | rmvnode k w => exact if_neg fun hk => hr hk.1.symm

theorem apply_congr {y : Restored} (h : x i u = y i u) (rs : List Record) :
    rs.foldl apply x i u = rs.foldl apply y i u := by
  induction rs generalizing x y with
  | nil => exact h
  | cons r rs ih =>
    apply ih
    cases r with
    | vnode k v => simp only [apply, h]
    | rmvnode k w => simp only [apply, h]

/-- Only the records of a bit number change what is restored for it. -/
theorem apply_flatMap_range {f : Nat → List Record} (hf : ∀ k, ∀ r ∈ f k, r.index = k) (n : Nat) :
    ((List.range n).flatMap f).foldl apply x i u =
      if i < n then (f i).foldl apply x i u else x i u := by
  induction n with
  | zero => rfl
  | succ n ih =>
    rw [range_succ, flatMap_append, foldl_append, flatMap_singleton]
    by_cases hi : i = n
    · subst hi
      rw [if_pos (Nat.lt_succ_self i)]
      apply apply_congr
      rw [ih, if_neg (lt_irrefl i)]
    · rw [apply_of_ne fun r hr => (hf n r hr).trans_ne fun h => hi h.symm, ih]
      by_cases hlt : i < n
      · rw [if_pos hlt, if_pos (by omega)]
      · rw [if_neg hlt, if_neg (by omega)]

end Apply

/-! ### The list -/

section Key

variable {α κ : Type} [DecidableEq κ] {key : α → κ} {l : List α} {k : κ}

theorem find?_key_eq_some_iff (nodup : (l.map key).Nodup) {a : α} :
    l.find? (fun b => key b = k) = some a ↔ a ∈ l ∧ key a = k := by
  constructor
  · intro h
    exact ⟨mem_of_find?_eq_some h, by simpa using List.find?_some h⟩
  · rintro ⟨ha, hk⟩
    cases hb : l.find? (fun b => key b = k) with
    | none => exact absurd (decide_eq_true hk) (List.find?_eq_none.mp hb a ha)
    | some b =>
      have hkb : key b = k := by simpa using List.find?_some hb
      have hab : b = a := inj_on_of_nodup_map nodup (mem_of_find?_eq_some hb) ha
        (hkb.trans hk.symm)
      rw [hab]

theorem find?_filter_key (nodup : (l.map key).Nodup) (p : α → Bool) :
    (l.filter p).find? (fun b => key b = k) = (l.find? fun b => key b = k).filter p := by
  have hsub : ((l.filter p).map key).Nodup := nodup.sublist (filter_sublist.map key)
  ext a
  rw [find?_key_eq_some_iff hsub, mem_filter, Option.filter_eq_some_iff,
    find?_key_eq_some_iff nodup]
  tauto

end Key

theorem Index.slot_nodup (ix : Index) (i : Nat) :
    ((ix.slot i).map Vnode.uniquifier).Nodup := by
  rw [slot, getD_eq_getElem?_getD]
  cases h : ix.slots[i]? with
  | none => exact nodup_nil
  | some s => exact ix.nodup s (mem_of_getElem? h)

theorem Index.slot_of_le {ix : Index} {i : Nat} (h : ix.nLists ≤ i) : ix.slot i = [] := by
  rw [slot, getD_eq_getElem?_getD, List.getElem?_eq_none h]
  rfl

theorem Index.find_eq_some_iff {ix : Index} {i : Nat} {u : BitVec 32} {s : StoreId} :
    ix.find i u = some s ↔ (⟨u, s⟩ : Vnode) ∈ ix.slot i := by
  rw [find, Option.map_eq_some_iff]
  constructor
  · rintro ⟨v, hv, rfl⟩
    obtain ⟨hin, rfl⟩ := (find?_key_eq_some_iff (ix.slot_nodup i)).mp hv
    exact hin
  · intro h
    exact ⟨⟨u, s⟩, (find?_key_eq_some_iff (ix.slot_nodup i)).mpr ⟨h, rfl⟩, rfl⟩

theorem Index.find_isSome_iff {ix : Index} {i : Nat} {u : BitVec 32} :
    (ix.find i u).isSome ↔ ∃ v ∈ ix.slot i, v.uniquifier = u := by
  rw [Option.isSome_iff_exists]
  constructor
  · rintro ⟨s, hs⟩
    exact ⟨_, find_eq_some_iff.mp hs, rfl⟩
  · rintro ⟨v, hv, rfl⟩
    exact ⟨v.storeId, find_eq_some_iff.mpr hv⟩

theorem filter_flatMap_range {α : Type} {f : Nat → List α} {index : α → Nat}
    (hf : ∀ k, ∀ a ∈ f k, index a = k) (n i : Nat) :
    ((List.range n).flatMap f).filter (fun a => index a = i) = if i < n then f i else [] := by
  induction n with
  | zero => rfl
  | succ n ih =>
    rw [range_succ, flatMap_append, flatMap_singleton, filter_append, ih]
    by_cases hi : i = n
    · subst hi
      rw [if_neg (lt_irrefl i), if_pos (Nat.lt_succ_self i), nil_append,
        filter_eq_self]
      intro a ha
      exact decide_eq_true (hf i a ha)
    · have hnil : (f n).filter (fun a => index a = i) = [] := by
        rw [filter_eq_nil_iff]
        intro a ha h
        exact hi ((of_decide_eq_true h).symm.trans (hf n a ha))
      rw [hnil, append_nil]
      by_cases hlt : i < n
      · rw [if_pos hlt, if_pos (by omega)]
      · rw [if_neg hlt, if_neg (by omega)]

section Listed

variable {level : Nat} {ancient : Option VvList} {ix : Index} {i : Nat}

theorem slot_dumpList :
    (dumpList level ancient ix).slot i =
      ((ix.slot i).map fun v => listVV i v (listLevel level ancient i v)).reverse := by
  rw [VvList.slot, dumpList, filter_flatMap_range]
  · by_cases hi : i < ix.nLists
    · rw [if_pos hi]
    · rw [if_neg hi, Index.slot_of_le (Nat.le_of_not_lt hi)]
      rfl
  · intro k a ha
    obtain ⟨v, -, rfl⟩ := mem_map.mp ha
    rfl

theorem mem_slot_dumpList {e : Vvent} :
    e ∈ (dumpList level ancient ix).slot i ↔
      ∃ v ∈ ix.slot i, e = listVV i v (listLevel level ancient i v) := by
  rw [slot_dumpList, mem_reverse, mem_map]
  exact exists_congr fun v => and_congr_right fun _ => eq_comm

theorem slot_dumpList_nodup :
    (((dumpList level ancient ix).slot i).map Vvent.unique).Nodup := by
  have hmap : (ix.slot i).map (fun v => v.uniquifier.toInt) =
      ((ix.slot i).map Vnode.uniquifier).map BitVec.toInt := by
    rw [map_map]
    rfl
  rw [slot_dumpList, map_reverse, nodup_reverse, map_map]
  change ((ix.slot i).map fun v => v.uniquifier.toInt).Nodup
  rw [hmap]
  exact (ix.slot_nodup i).map fun a b h => BitVec.eq_of_toInt_eq h

theorem find_dumpList {u : BitVec 32} {e : Vvent} :
    ((dumpList level ancient ix).slot i).find? (fun e => e.unique = (u.toNat : Int)) = some e ↔
      u.msb = false ∧ ∃ v ∈ ix.slot i, v.uniquifier = u ∧
        e = listVV i v (listLevel level ancient i v) := by
  rw [find?_key_eq_some_iff slot_dumpList_nodup, mem_slot_dumpList]
  constructor
  · rintro ⟨⟨v, hv, rfl⟩, hu⟩
    obtain ⟨hsmall, rfl⟩ := toNat_eq_toInt_iff.mp hu.symm
    exact ⟨hsmall, v, hv, rfl, rfl⟩
  · rintro ⟨hsmall, v, hv, rfl, rfl⟩
    exact ⟨⟨v, hv, rfl⟩, (toNat_eq_toInt_iff.mpr ⟨hsmall, rfl⟩).symm⟩

/-- A vnode is found unmodified if the dump before had this version, on a lower level. -/
theorem modified_dumpList (current : Nat) (v : Vnode) :
    modified current (dumpList level ancient ix) i v =
      if v.uniquifier.msb = false ∧ v ∈ ix.slot i ∧ listLevel level ancient i v < current then
        (false, listLevel level ancient i v)
      else (true, current) := by
  rw [modified, isModified]
  by_cases hi : (dumpList level ancient ix).nlists ≤ i
  · have hnil : ix.slot i = [] := Index.slot_of_le hi
    rw [if_pos hi, if_neg]
    rintro ⟨-, hv, -⟩
    rw [hnil] at hv
    exact not_mem_nil hv
  rw [if_neg hi]
  cases he : ((dumpList level ancient ix).slot i).find?
      (fun e => e.unique = (v.uniquifier.toNat : Int)) with
  | none =>
    rw [if_neg]
    rintro ⟨hsmall, hv, -⟩
    rw [find_dumpList.mpr ⟨hsmall, v, hv, rfl, rfl⟩] at he
    exact nomatch he
  | some e =>
    obtain ⟨hsmall, w, hw, hu, rfl⟩ := find_dumpList.mp he
    change (if w.storeId = v.storeId ∧ listLevel level ancient i w < current then _ else _) = _
    by_cases hs : w.storeId = v.storeId
    · have hwv : w = v := by
        cases w
        simp_all
      subst hwv
      simp [listVV, hsmall, hw]
    · rw [if_neg fun h => hs h.1, if_neg]
      rintro ⟨-, hv, -⟩
      have hwv : w = v := inj_on_of_nodup_map (ix.slot_nodup i) hw hv hu
      exact hs (by rw [hwv])

/-- The removals of a dump are the vnodes of the list that it does not find. -/
theorem mem_removals {vnodes : List Vnode} {u : BitVec 32} :
    u ∈ (((dumpList level ancient ix).slot i).filter fun e =>
        !isThere (dumpList level ancient ix) i vnodes e).map (fun e => BitVec.ofInt 32 e.unique) ↔
      (∃ w ∈ ix.slot i, w.uniquifier = u) ∧
        (u.msb = true ∨ ¬∃ v ∈ vnodes, v.uniquifier = u) := by
  have hthere : ∀ w ∈ ix.slot i,
      isThere (dumpList level ancient ix) i vnodes
        (listVV i w (listLevel level ancient i w)) = true ↔
      w.uniquifier.msb = false ∧ ∃ v ∈ vnodes, v.uniquifier = w.uniquifier := by
    intro w hw
    rw [isThere, any_eq_true]
    constructor
    · rintro ⟨v, hv, hfind⟩
      obtain ⟨hsmall, w', -, hu, heq⟩ := find_dumpList.mp (of_decide_eq_true hfind)
      have huu : w.uniquifier = w'.uniquifier :=
        BitVec.eq_of_toInt_eq (congrArg Vvent.unique heq)
      rw [huu, hu]
      exact ⟨hsmall, v, hv, rfl⟩
    · rintro ⟨hsmall, v, hv, hu⟩
      refine ⟨v, hv, decide_eq_true (find_dumpList.mpr ⟨?_, w, hw, hu.symm, rfl⟩)⟩
      rw [hu]
      exact hsmall
  rw [mem_map]
  constructor
  · rintro ⟨e, he, rfl⟩
    obtain ⟨hin, hnot⟩ := mem_filter.mp he
    obtain ⟨w, hw, rfl⟩ := mem_slot_dumpList.mp hin
    have hnot' := mt (hthere w hw).mpr (by simpa using hnot)
    simp only [listVV, BitVec.ofInt_toInt]
    refine ⟨⟨w, hw, rfl⟩, ?_⟩
    by_cases hsmall : w.uniquifier.msb = false
    · exact .inr fun h => hnot' ⟨hsmall, h⟩
    · exact .inl (eq_true_of_ne_false hsmall)
  · rintro ⟨⟨w, hw, rfl⟩, hgone⟩
    refine ⟨_, mem_filter.mpr ⟨mem_slot_dumpList.mpr ⟨w, hw, rfl⟩, ?_⟩, ?_⟩
    · have hnot : ¬isThere (dumpList level ancient ix) i vnodes
          (listVV i w (listLevel level ancient i w)) = true := by
        rw [hthere w hw]
        rintro ⟨hsmall, h⟩
        cases hgone with
        | inl hmsb =>
          rw [hsmall] at hmsb
          exact nomatch hmsb
        | inr habsent => exact habsent h
      simpa using hnot
    · exact BitVec.ofInt_toInt

end Listed

end Coda.Volutil
