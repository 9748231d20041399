import Coda.Volutil.Backup

/-!
What the dumps of a volume restore.

A vnode is restored as long as it exists, because the list says how far down the chain its
version was last dumped. A removal is not handed on in that way: it is recorded by the one dump
that comes directly after one with the vnode, and if that dump is not in the chain the vnode
stays.
-/

namespace Coda.Volutil

open List Index
open Coda.Resolve (StoreId)

/-- The vnodes of the volume at the latest of these dumps. -/
def present : List Dump → Nat → BitVec 32 → Option StoreId
  | [], _, _ => none
  | d :: _, i, u => d.index.find i u

/-- The dumps succeeded, the first was a full one, and no index got smaller. The table made from
the ancient list has at least one slot. -/
def Taken : List Dump → Prop
  | [] => True
  | [d] => d.level = 0
  | d :: p :: older =>
    p.index.nLists ≤ d.index.nLists ∧ (d.level ≠ 0 → 0 < p.index.nLists) ∧ Taken (p :: older)

/-- The dumps of a volume, the latest first. -/
structure History where
  dumps : List Dump
  taken : Taken dumps

theorem Taken.tail {d : Dump} {older : List Dump} (h : Taken (d :: older)) : Taken older := by
  cases older with
  | nil => trivial
  | cons p older => exact h.2.2

/-- The level that the latest of these dumps lists a vnode with. -/
def levelOf : List Dump → Nat → Vnode → Nat
  | [], _, _ => 0
  | d :: older, i, v => listLevel d.level (ancientAfter older) i v

theorem listLevel_zero (ancient : Option VvList) (i : Nat) (v : Vnode) :
    listLevel 0 ancient i v = 0 := by
  cases ancient <;> rfl

/-- A vnode that a dump of this level leaves out. -/
def Unmodified (older : List Dump) (level i : Nat) (v : Vnode) : Prop :=
  v.uniquifier.msb = false ∧ present older i v.uniquifier = some v.storeId ∧
    levelOf older i v < level

theorem modified_cons {p : Dump} {rest : List Dump} {level i : Nat} {v : Vnode} :
    (Unmodified (p :: rest) level i v ∧
      modified level (dumpList p.level (ancientAfter rest) p.index) i v =
        (false, levelOf (p :: rest) i v)) ∨
    (¬Unmodified (p :: rest) level i v ∧
      modified level (dumpList p.level (ancientAfter rest) p.index) i v = (true, level)) := by
  rw [modified_dumpList]
  by_cases h : Unmodified (p :: rest) level i v
  · exact .inl ⟨h, if_pos ⟨h.1, find_eq_some_iff.mp h.2.1, h.2.2⟩⟩
  · refine .inr ⟨h, if_neg ?_⟩
    rintro ⟨hsmall, hin, hlow⟩
    exact h ⟨hsmall, find_eq_some_iff.mpr hin, hlow⟩

/-! ### What one dump changes -/

section Effect

variable {x : Restored} {i : Nat} {u : BitVec 32}

theorem Record.index_vnodes (k : Nat) (vs : List Vnode) :
    ∀ r ∈ vs.map (Record.vnode k), r.index = k := by
  intro r hr
  obtain ⟨v, -, rfl⟩ := mem_map.mp hr
  rfl

theorem index_dumpSlot (level : Nat) (ancient : VvList) (k : Nat) (vs : List Vnode) :
    ∀ r ∈ dumpSlot level ancient k vs, r.index = k := by
  intro r hr
  cases mem_append.mp hr with
  | inl h => exact Record.index_vnodes k _ r h
  | inr h =>
    obtain ⟨e, -, rfl⟩ := mem_map.mp h
    rfl

theorem full_apply (ix : Index) :
    ((List.range ix.nLists).flatMap fun k => (ix.slot k).map (Record.vnode k)).foldl apply x i u =
      (ix.find i u).or (x i u) := by
  rw [apply_flatMap_range fun k => Record.index_vnodes k _]
  by_cases hi : i < ix.nLists
  · rw [if_pos hi, apply_vnodes (ix.slot_nodup i)]
    rfl
  · rw [if_neg hi, find, slot_of_le (not_lt.mp hi)]
    rfl

variable {d : Dump} {older : List Dump}

theorem recordsOf_full (h : d.level = 0) :
    (recordsOf (d :: older)).foldl apply x i u = (d.index.find i u).or (x i u) := by
  rw [← full_apply, recordsOf, dumpRecords]
  cases ancientAfter older with
  | none => rfl
  | some ancient => simp only [h, ne_eq, not_true_eq_false, if_false]

/-- What an incremental dump does to one vnode: a removal record comes after the vnode's own. -/
theorem recordsOf_incremental {p : Dump} {rest : List Dump} (hlevel : d.level ≠ 0)
    (grows : p.index.nLists ≤ d.index.nLists) :
    (recordsOf (d :: p :: rest)).foldl apply x i u =
      if (p.index.find i u).isSome ∧ (u.msb = true ∨ d.index.find i u = none) then none
      else (((d.index.slot i).find? fun v => v.uniquifier = u).filter fun v =>
        (modified d.level (dumpList p.level (ancientAfter rest) p.index) i v).1).map
          Vnode.storeId |>.or (x i u) := by
  rw [recordsOf, dumpRecords, ancientAfter]
  simp only [hlevel, ne_eq, not_false_eq_true, if_true]
  rw [apply_flatMap_range fun k => index_dumpSlot _ _ k _]
  by_cases hi : i < d.index.nLists
  · have hrm : ∀ es : List Vvent, (es.map fun e => Record.rmvnode i (BitVec.ofInt 32 e.unique)) =
        (es.map fun e => BitVec.ofInt 32 e.unique).map (Record.rmvnode i) := by
      intro es
      rw [map_map]
      rfl
    have hsub := (d.index.slot_nodup i).sublist
      ((filter_sublist (p := fun v =>
        (modified d.level (dumpList p.level (ancientAfter rest) p.index) i v).1)).map
          Vnode.uniquifier)
    rw [if_pos hi, dumpSlot, foldl_append, hrm, apply_rmvnodes, apply_vnodes hsub,
      find?_filter_key (d.index.slot_nodup i)]
    refine if_congr ?_ rfl rfl
    rw [mem_removals, ← find_isSome_iff, ← find_isSome_iff,
      Option.not_isSome_iff_eq_none]
  · have hd : d.index.slot i = [] := slot_of_le (not_lt.mp hi)
    have hp : p.index.find i u = none := by
      rw [find, slot_of_le (le_trans grows (not_lt.mp hi))]
      rfl
    rw [if_neg hi, hp, hd]
    simp

/-- The latest dump does not have the vnode: it stays as it was, or its removal is recorded. -/
theorem recordsOf_absent (taken : Taken (d :: older)) (habsent : d.index.find i u = none) :
    (recordsOf (d :: older)).foldl apply x i u =
      if d.level ≠ 0 ∧ (present older i u).isSome then none else x i u := by
  by_cases hlevel : d.level = 0
  · rw [recordsOf_full hlevel, habsent, if_neg fun h => h.1 hlevel]
    rfl
  cases older with
  | nil => exact absurd taken hlevel
  | cons p rest =>
    have hslot : (d.index.slot i).find? (fun v => v.uniquifier = u) = none :=
      Option.map_eq_none_iff.mp habsent
    rw [recordsOf_incremental hlevel taken.1, habsent, hslot]
    simp [hlevel, present]

/-- The latest dump is an incremental one and does not recognise the vnode in the list. -/
def Misread (dumps : List Dump) (i : Nat) (u : BitVec 32) : Prop :=
  u.msb = true ∧ (∃ d ∈ dumps.head?, d.level ≠ 0) ∧ (present dumps.tail i u).isSome

/-- The latest dump has the vnode. -/
theorem recordsOf_present (taken : Taken (d :: older)) {s : StoreId}
    (hpresent : d.index.find i u = some s) :
    (Misread (d :: older) i u ∧ (recordsOf (d :: older)).foldl apply x i u = none) ∨
    (¬Misread (d :: older) i u ∧ d.level ≠ 0 ∧ Unmodified older d.level i ⟨u, s⟩ ∧
      levelOf (d :: older) i ⟨u, s⟩ = levelOf older i ⟨u, s⟩ ∧
      (recordsOf (d :: older)).foldl apply x i u = x i u) ∨
    (¬Misread (d :: older) i u ∧ levelOf (d :: older) i ⟨u, s⟩ = d.level ∧
      (recordsOf (d :: older)).foldl apply x i u = some s) := by
  by_cases hlevel : d.level = 0
  · refine .inr (.inr ⟨?_, ?_, ?_⟩)
    · rintro ⟨-, ⟨d', hd', hne⟩, -⟩
      cases hd'
      exact hne hlevel
    · rw [levelOf, hlevel, listLevel_zero]
    · rw [recordsOf_full hlevel, hpresent]
      rfl
  cases older with
  | nil => exact absurd taken hlevel
  | cons p rest =>
    have hslot : (d.index.slot i).find? (fun v => v.uniquifier = u) = some ⟨u, s⟩ :=
      (find?_key_eq_some_iff (d.index.slot_nodup i)).mpr ⟨find_eq_some_iff.mp hpresent, rfl⟩
    have hlist : levelOf (d :: p :: rest) i ⟨u, s⟩ =
        (modified d.level (dumpList p.level (ancientAfter rest) p.index) i ⟨u, s⟩).2 := by
      simp only [levelOf, listLevel, ancientAfter, ne_eq, hlevel, not_false_eq_true, if_true]
    have hmis : Misread (d :: p :: rest) i u ↔ u.msb = true ∧ (p.index.find i u).isSome := by
      simp [Misread, present, hlevel]
    rw [recordsOf_incremental hlevel taken.1, hpresent, hslot]
    by_cases hm : u.msb = true ∧ (p.index.find i u).isSome
    · exact .inl ⟨hmis.mpr hm, if_pos ⟨hm.2, .inl hm.1⟩⟩
    have hkeep : ¬((p.index.find i u).isSome = true ∧ (u.msb = true ∨ some s = none)) := by
      rintro ⟨hp, hor⟩
      cases hor with
      | inl hmsb => exact hm ⟨hmsb, hp⟩
      | inr h => cases h
    rw [if_neg hkeep]
    cases @modified_cons p rest d.level i ⟨u, s⟩ with
    | inl h =>
      refine .inr (.inl ⟨mt hmis.mp hm, hlevel, h.1, ?_, ?_⟩)
      · rw [hlist, h.2]
      · simp [Option.filter, h.2]
    | inr h =>
      refine .inr (.inr ⟨mt hmis.mp hm, ?_, ?_⟩)
      · rw [hlist, h.2]
      · simp [h.2]

end Effect

/-! ### What a chain restores -/

theorem chain_zero : ∀ dumps : List Dump, chain dumps (some 0) = []
  | [] => rfl
  | d :: older => by
    rw [chain, if_neg (by simp)]
    exact chain_zero older

section Chain

variable {i : Nat} {u : BitVec 32}

variable {dumps : List Dump}

/-- A vnode listed with a level below the bound is restored by the chain below the bound: the
dump that has its version is there, and none after it takes it away. -/
theorem restoreChain_listed (taken : Taken dumps) {bound : Option Nat} {s : StoreId}
    (small : u.msb = false) (hpresent : present dumps i u = some s)
    (hlow : bound.all fun b => levelOf dumps i ⟨u, s⟩ < b) :
    restoreChain (chain dumps bound) i u = some s := by
  induction dumps generalizing bound with
  | nil => cases hpresent
  | cons d older ih =>
    have hread : ¬Misread (d :: older) i u := by
      rintro ⟨hmsb, -⟩
      rw [small] at hmsb
      cases hmsb
    by_cases hin : bound.all fun b => d.level < b
    · rw [chain, if_pos hin, restoreChain]
      obtain ⟨h, -⟩ | ⟨-, -, hunmod, -, heq⟩ | ⟨-, -, heq⟩ := recordsOf_present taken hpresent
      · exact absurd h hread
      · rw [heq]
        apply ih taken.tail hunmod.2.1
        simpa using hunmod.2.2
      · exact heq
    · -- The dump is not in the chain, so that the version was already in an earlier one.
      rw [chain, if_neg hin]
      obtain ⟨h, -⟩ | ⟨-, -, hunmod, hlist, -⟩ | ⟨-, hlist, -⟩ :=
        @recordsOf_present (fun _ _ => none) i u d older taken s hpresent
      · exact absurd h hread
      · rw [hlist] at hlow
        exact ih taken.tail hunmod.2.1 hlow
      · rw [hlist] at hlow
        exact absurd hlow hin

/-- A dump of the chain has the vnode and the later ones of the chain neither have it nor record
its removal. -/
def LeftBehind (c : List (List Dump)) (i : Nat) (u : BitVec 32) : Prop :=
  ∃ newer h rest, c = newer ++ h :: rest ∧ (present h i u).isSome ∧ ¬Misread h i u ∧
    ∀ g ∈ newer, present g i u = none ∧ present g.tail i u = none

theorem leftBehind_cons {h : List Dump} {c : List (List Dump)} :
    LeftBehind (h :: c) i u ↔
      ((present h i u).isSome ∧ ¬Misread h i u) ∨
      (present h i u = none ∧ present h.tail i u = none ∧ LeftBehind c i u) := by
  constructor
  · rintro ⟨newer, g, rest, heq, hhas, hread, hnewer⟩
    cases newer with
    | nil =>
      cases heq
      exact .inl ⟨hhas, hread⟩
    | cons f newer =>
      cases heq
      obtain ⟨hf, hnewer⟩ := forall_mem_cons.mp hnewer
      exact .inr ⟨hf.1, hf.2, newer, g, rest, rfl, hhas, hread, hnewer⟩
  · rintro (⟨hhas, hread⟩ | ⟨hnone, htail, newer, g, rest, rfl, hhas, hread, hnewer⟩)
    · exact ⟨[], h, c, rfl, hhas, hread, nofun⟩
    · exact ⟨h :: newer, g, rest, rfl, hhas, hread,
        forall_mem_cons.mpr ⟨⟨hnone, htail⟩, hnewer⟩⟩

theorem not_leftBehind_nil : ¬LeftBehind [] i u := by
  rintro ⟨newer, h, rest, heq, -⟩
  exact absurd heq (by simp)

/-- The vnodes that a chain restores. -/
theorem restoreChain_isSome_iff (taken : Taken dumps) (bound : Option Nat) :
    (restoreChain (chain dumps bound) i u).isSome ↔ LeftBehind (chain dumps bound) i u := by
  induction dumps generalizing bound with
  | nil => simp [chain, restoreChain, not_leftBehind_nil]
  | cons d older ih =>
    by_cases hin : bound.all fun b => d.level < b
    · rw [chain, if_pos hin, restoreChain, leftBehind_cons]
      cases hd : present (d :: older) i u with
      | none =>
        rw [recordsOf_absent taken hd]
        by_cases hlevel : d.level = 0
        · rw [hlevel, chain_zero]
          simp [restoreChain, not_leftBehind_nil]
        · cases hp : present older i u with
          | none => simpa [hlevel, hp] using ih taken.tail (some d.level)
          | some s => simp [hlevel, hp]
      | some s =>
        obtain ⟨hmis, heq⟩ | ⟨hread, -, hunmod, -, heq⟩ | ⟨hread, -, heq⟩ :=
          @recordsOf_present (restoreChain (chain older (some d.level))) i u d older taken s hd
        · simp [heq, hmis]
        · have hrest : restoreChain (chain older (some d.level)) i u = some s := by
            apply restoreChain_listed taken.tail hunmod.1 hunmod.2.1
            simpa using hunmod.2.2
          simp [heq, hrest, hread]
        · simp [heq, hread]
    · rw [chain, if_neg hin]
      exact ih taken.tail bound

theorem restore_present (taken : Taken dumps) {s : StoreId}
    (hpresent : present dumps i u = some s) : restore dumps i u = some s ↔ ¬Misread dumps i u := by
  cases dumps with
  | nil => cases hpresent
  | cons d older =>
    rw [restore, chain, if_pos (by rfl), restoreChain]
    obtain ⟨hmis, heq⟩ | ⟨hread, -, hunmod, -, heq⟩ | ⟨hread, -, heq⟩ :=
      @recordsOf_present (restoreChain (chain older (some d.level))) i u d older taken s hpresent
    · simp [heq, hmis]
    · have hrest : restoreChain (chain older (some d.level)) i u = some s := by
        apply restoreChain_listed taken.tail hunmod.1 hunmod.2.1
        simpa using hunmod.2.2
      simp [heq, hrest, hread]
    · simp [heq, hread]

end Chain

/-- The chain of the last dump restores the volume as it was then if and only if no vnode that is
gone was left behind in it, and none that is there was misread. -/
theorem restore_eq_present_iff (h : History) :
    (∀ i u, restore h.dumps i u = present h.dumps i u) ↔
      ∀ i u, (present h.dumps i u = none → ¬LeftBehind (chain h.dumps none) i u) ∧
        ((present h.dumps i u).isSome → ¬Misread h.dumps i u) := by
  refine forall_congr' fun i => forall_congr' fun u => ?_
  cases hp : present h.dumps i u with
  | none =>
    have hsome := restoreChain_isSome_iff h.taken none (i := i) (u := u)
    rw [← Option.not_isSome_iff_eq_none, restore, hsome]
    simp
  | some s =>
    rw [restore_present h.taken hp]
    simp

/-! ### A removal that no restored dump records -/

/-- One bit number, with these vnodes. -/
def oneSlot (vs : List Vnode) (nodup : (vs.map Vnode.uniquifier).Nodup) : Index :=
  ⟨[vs], forall_mem_singleton.mpr nodup⟩

/-- A volume with one vnode is dumped at level 0, the vnode is deleted, and dumps at level 2 and
then level 1 follow. -/
def weekly : History where
  dumps := [⟨1, oneSlot [] nodup_nil⟩, ⟨2, oneSlot [] nodup_nil⟩,
    ⟨0, oneSlot [⟨7, 1, 1⟩] (nodup_singleton _)⟩]
  taken := ⟨Nat.le_refl 1, fun _ => Nat.one_pos, Nat.le_refl 1, fun _ => Nat.one_pos, rfl⟩

/-- The dump of level 1 does not record the removal, which the one of level 2 has recorded. -/
theorem restore_weekly :
    present weekly.dumps 0 7 = none ∧ restore weekly.dumps 0 7 = some ⟨1, 1⟩ := by
  decide

end Coda.Volutil
