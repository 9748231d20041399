import Coda.Rwcdb.Database

/-!
The pending updates: at most one for a key, in the list that its hash and data call for.
`Update c k v` says what is pending for a key, and `rwcdbInsert_spec` what an insertion makes
of it.
-/

namespace Coda.Rwcdb

open Coda.Lib List Function

/-- The lists of pending updates. -/
structure Pending (c : Db) : Prop where
  removed : ∀ w ∈ c.removed, w.hash = cdbHash w.key ∧ w.data = []
  added : ∀ i, ∀ w ∈ c.added i, w.hash = cdbHash w.key ∧ slot w.hash = i ∧ w.data ≠ []
  hlens : ∀ i, c.hlens i = (c.added i).length
  removed_nodup : (c.removed.map WrEntry.key).Nodup
  added_nodup : ∀ i, ((c.added i).map WrEntry.key).Nodup
  disjoint : ∀ w ∈ c.removed, ∀ i, ∀ w' ∈ c.added i, w.key ≠ w'.key

/-- The update that is pending for a key: removal or new data. -/
def Update (c : Db) (k : Bytes) : Option Bytes → Prop
  | none => ∃ w ∈ c.removed, w.key = k
  | some d => ∃ w ∈ c.added (slot (cdbHash k)), w.key = k ∧ w.data = d

/-- The added entries in the tables before table `i`. -/
def before (c : Db) (i : BitVec 8) : Nat :=
  ((List.range i.toNat).map fun j => c.hlens (BitVec.ofNat 8 j)).sum

variable {c : Db} {k : Bytes}

theorem isFor_iff {hash : BitVec 32} {w : WrEntry} :
    w.isFor k hash = true ↔ w.hash = hash ∧ w.key = k := by
  rw [WrEntry.isFor, decide_eq_true_iff]
  refine and_congr_right fun _ => ⟨And.right, fun h => ⟨by rw [h], h⟩⟩

/-- An entry without its position. -/
def WrEntry.shape (w : WrEntry) : BitVec 32 × Bytes × Bytes := (w.hash, w.key, w.data)

variable {c' : Db}

/-- Positions do not matter. -/
theorem Pending.congr (pend : Pending c) (hremoved : c'.removed = c.removed)
    (hhlens : c'.hlens = c.hlens)
    (hadded : ∀ i, (c'.added i).map WrEntry.shape = (c.added i).map WrEntry.shape) :
    Pending c' := by
  have mem : ∀ i, ∀ w' ∈ c'.added i, ∃ w ∈ c.added i, w.hash = w'.hash ∧ w.key = w'.key ∧
      w.data = w'.data := by
    intro i w' hw'
    have := mem_map_of_mem (f := WrEntry.shape) hw'
    rw [hadded] at this
    obtain ⟨w, hw, heq⟩ := mem_map.mp this
    obtain ⟨hhash, hrest⟩ := Prod.mk.inj heq
    exact ⟨w, hw, hhash, Prod.mk.inj hrest⟩
  refine ⟨hremoved ▸ pend.removed, fun i w' hw' => ?_, fun i => ?_, hremoved ▸ pend.removed_nodup,
    fun i => ?_, fun w hw i w' hw' => ?_⟩
  · obtain ⟨w, hw, hhash, hkey, hdata⟩ := mem i w' hw'
    rw [← hhash, ← hkey, ← hdata]
    exact pend.added i w hw
  · rw [hhlens, pend.hlens, ← length_map, ← hadded, length_map]
  · have := congrArg (List.map fun s : BitVec 32 × Bytes × Bytes => s.2.1) (hadded i)
    rw [map_map, map_map] at this
    exact this ▸ pend.added_nodup i
  · rw [hremoved] at hw
    obtain ⟨w₀, hw₀, -, hkey, -⟩ := mem i w' hw'
    exact hkey ▸ pend.disjoint w hw i w₀ hw₀

theorem shape_setPos {i : BitVec 8} {n : Nat} {w : WrEntry} (hw : (c.added i)[n]? = some w) (q : Nat)
    (j : BitVec 8) :
    (update c.added i ((c.added i).set n { w with pos := q }) j).map WrEntry.shape =
      (c.added j).map WrEntry.shape := by
  by_cases hj : j = i
  · subst hj
    obtain ⟨hn, rfl⟩ := List.getElem?_eq_some_iff.mp hw
    rw [update_self, map_set]
    refine ext_getElem (by rw [length_set]) fun m hm hm' => ?_
    rw [getElem_set]
    split_ifs with hnm
    · subst hnm
      rw [getElem_map]
      rfl
    · rfl
  · rw [update_of_ne hj]

/-! ### Looking for an entry -/

/-- What `ispending` finds. -/
inductive Found (c : Db) (k : Bytes) : Option (WrEntry × Option Nat) → Prop where
  | removed (w : WrEntry) (hw : w ∈ c.removed) (hk : w.key = k) : Found c k (some (w, none))
  | added (w : WrEntry) (n : Nat) (hw : (c.added (slot (cdbHash k)))[n]? = some w) (hk : w.key = k) :
      Found c k (some (w, some (before c (slot (cdbHash k)) + n)))
  | none (hremoved : ∀ w ∈ c.removed, w.key ≠ k)
      (hadded : ∀ w ∈ c.added (slot (cdbHash k)), w.key ≠ k) : Found c k none

theorem pendingLoop_spec {hash : BitVec 32} (idx : Nat) (ws : List WrEntry)
    (hashed : ∀ w ∈ ws, w.key = k → w.hash = hash) :
    (pendingLoop k hash idx ws = none ∧ ∀ w ∈ ws, w.key ≠ k) ∨
      ∃ w n, ws[n]? = some w ∧ w.key = k ∧ pendingLoop k hash idx ws = some (w, some (idx + n)) := by
  induction ws generalizing idx with
  | nil => exact .inl ⟨rfl, nofun⟩
  | cons w ws ih =>
    rw [pendingLoop]
    by_cases hw : w.isFor k hash = true
    · rw [if_pos hw]
      exact .inr ⟨w, 0, rfl, (isFor_iff.mp hw).2, rfl⟩
    · rw [if_neg hw]
      rcases ih (idx + 1) fun w' hw' => hashed w' (.tail w hw') with
        ⟨heq, hno⟩ | ⟨w', n, hn, hk, heq⟩
      · refine .inl ⟨heq, forall_mem_cons.mpr ⟨fun hk => hw ?_, hno⟩⟩
        exact isFor_iff.mpr ⟨hashed w (.head _) hk, hk⟩
      · refine .inr ⟨w', n + 1, by rw [List.getElem?_cons_succ, hn], hk, ?_⟩
        rw [heq, Nat.add_assoc, Nat.add_comm 1]

theorem ispending_spec (pend : Pending c) (k : Bytes) : Found c k (ispending c k (cdbHash k)) := by
  unfold ispending
  cases hfind : c.removed.find? (·.isFor k (cdbHash k)) with
  | some w =>
    have hfor : w.isFor k (cdbHash k) = true := by simpa using List.find?_some hfind
    exact .removed w (mem_of_find?_eq_some hfind) (isFor_iff.mp hfor).2
  | none =>
    have hremoved : ∀ w ∈ c.removed, w.key ≠ k := by
      intro w hw hk
      have := List.find?_eq_none.mp hfind w hw
      exact this (isFor_iff.mpr ⟨(pend.removed w hw).1.trans (by rw [hk]), hk⟩)
    by_cases hlen : c.hlens (slot (cdbHash k)) = 0
    · rw [if_pos hlen]
      rw [pend.hlens, length_eq_zero_iff] at hlen
      exact .none hremoved fun w hw => absurd hw (by rw [hlen]; exact not_mem_nil)
    · rw [if_neg hlen]
      have hashed : ∀ w ∈ c.added (slot (cdbHash k)), w.key = k → w.hash = cdbHash k :=
        fun w hw hk => (pend.added _ w hw).1.trans (by rw [hk])
      rcases pendingLoop_spec (before c (slot (cdbHash k))) _ hashed with
        ⟨heq, hno⟩ | ⟨w, n, hn, hk, heq⟩
      · rw [before] at heq
        rw [heq]
        exact .none hremoved hno
      · rw [before] at heq
        rw [heq]
        exact .added w n hn hk

/-! ### Numbers of entries -/

/-- The added entries in the order of their numbers. -/
def flat (c : Db) : List WrEntry := tables.flatMap c.added

theorem mem_tables (i : BitVec 8) : i ∈ tables :=
  mem_map.mpr ⟨i.toNat, mem_range.mpr i.isLt, BitVec.ofNat_toNat 8 i⟩

theorem nodup_tables : tables.Nodup := by
  refine pairwise_map.mpr (nodup_range.imp_of_mem fun hx hy hne heq => hne ?_)
  have hnat := congrArg BitVec.toNat heq
  rw [mem_range] at hx hy
  rwa [BitVec.toNat_ofNat, BitVec.toNat_ofNat, Nat.mod_eq_of_lt hx, Nat.mod_eq_of_lt hy] at hnat

theorem tables_split (i : BitVec 8) :
    ∃ is, tables = (List.range i.toNat).map (BitVec.ofNat 8) ++ i :: is := by
  have hlt := i.isLt
  refine ⟨tables.drop (i.toNat + 1), ?_⟩
  have htake : tables.take i.toNat = (List.range i.toNat).map (BitVec.ofNat 8) := by
    rw [tables, ← map_take, take_range, Nat.min_eq_left (by omega)]
  have hget : tables[i.toNat]? = some i := by
    rw [tables, List.getElem?_map, List.getElem?_range hlt, Option.map_some, BitVec.ofNat_toNat,
      BitVec.setWidth_eq]
  obtain ⟨hlt', heq⟩ := List.getElem?_eq_some_iff.mp hget
  rw [← htake]
  nth_rewrite 1 [← take_append_drop i.toNat tables]
  rw [drop_eq_getElem_cons hlt', heq]

section Numbers

variable (pend : Pending c)
include pend

variable {i : BitVec 8} {n : Nat}

theorem fromhashLoop_append (hn : n < (c.added i).length) (is is' : List (BitVec 8)) :
    fromhashLoop c (is ++ i :: is') ((is.map c.hlens).sum + n) = some (i, n) := by
  induction is with
  | nil =>
    rw [nil_append, map_nil, sum_nil, Nat.zero_add, fromhashLoop, pend.hlens,
      if_neg (by omega), if_pos hn]
  | cons j is ih =>
    rw [cons_append, map_cons, sum_cons, fromhashLoop, if_pos (by omega),
      Nat.add_assoc, Nat.add_sub_cancel_left, ih]

/-- An added entry is found under its number. -/
theorem fromhash_before (hn : n < (c.added i).length) :
    fromhash c (before c i + n) = some (i, n) := by
  obtain ⟨is, hsplit⟩ := tables_split i
  have := fromhashLoop_append pend hn ((List.range i.toNat).map (BitVec.ofNat 8)) is
  rw [← hsplit, map_map] at this
  exact this

theorem fromhashLoop_spec (is : List (BitVec 8)) (t : Nat) :
    (fromhashLoop c is t = none ∧ (is.flatMap c.added).length ≤ t) ∨
    ∃ i n w, i ∈ is ∧ fromhashLoop c is t = some (i, n) ∧ (c.added i)[n]? = some w ∧
      (is.flatMap c.added)[t]? = some w := by
  induction is generalizing t with
  | nil => exact .inl ⟨rfl, Nat.zero_le t⟩
  | cons j is ih =>
    rw [fromhashLoop, flatMap_cons, pend.hlens]
    by_cases ht : t ≥ (c.added j).length
    · rw [if_pos ht]
      rcases ih (t - (c.added j).length) with ⟨hnone, hle⟩ | ⟨i, n, w, hi, hsome, hw, hget⟩
      · refine .inl ⟨hnone, ?_⟩
        rw [length_append]
        omega
      · refine .inr ⟨i, n, w, .tail j hi, hsome, hw, ?_⟩
        rw [List.getElem?_append_right ht]
        exact hget
    · rw [if_neg ht, if_pos (Nat.lt_of_not_ge ht)]
      obtain ⟨w, hw⟩ : ∃ w, (c.added j)[t]? = some w :=
        ⟨_, List.getElem?_eq_getElem (Nat.lt_of_not_ge ht)⟩
      refine .inr ⟨j, t, w, .head _, rfl, hw, ?_⟩
      rw [List.getElem?_append_left (Nat.lt_of_not_ge ht), hw]

/-- The order of the numbers is that of `flat`. -/
theorem fromhash_spec (t : Nat) :
    (fromhash c t = none ∧ (flat c).length ≤ t) ∨
    ∃ i n w, fromhash c t = some (i, n) ∧ (c.added i)[n]? = some w ∧ (flat c)[t]? = some w := by
  rcases fromhashLoop_spec pend tables t with h | ⟨i, n, w, -, h⟩
  · exact .inl h
  · exact .inr ⟨i, n, w, h⟩

/-- Changing an entry changes the one with its number. -/
theorem flatMap_update (w : WrEntry) (is : List (BitVec 8)) (nodup : is.Nodup) (t : Nat)
    (h : fromhashLoop c is t = some (i, n)) :
    is.flatMap (update c.added i ((c.added i).set n w)) = (is.flatMap c.added).set t w := by
  induction is generalizing t with
  | nil => exact absurd h.symm nofun
  | cons j is ih =>
    rw [nodup_cons] at nodup
    rw [fromhashLoop, pend.hlens] at h
    rw [flatMap_cons, flatMap_cons]
    by_cases ht : t ≥ (c.added j).length
    · rw [if_pos ht] at h
      have hij : j ≠ i := by
        rintro rfl
        rcases fromhashLoop_spec pend is (t - (c.added j).length) with ⟨hnone, -⟩ | ⟨i, n', w', hi, hsome, -⟩
        · exact Option.some_ne_none _ (h.symm.trans hnone)
        · obtain ⟨rfl, -⟩ := Prod.mk.inj (Option.some.inj (h.symm.trans hsome))
          exact nodup.1 hi
      rw [update_of_ne hij, ih nodup.2 _ h, set_append_right _ _ ht]
    · rw [if_neg ht, if_pos (Nat.lt_of_not_ge ht)] at h
      obtain ⟨rfl, rfl⟩ := Prod.mk.inj (Option.some.inj h)
      rw [update_self, set_append_left _ _ (Nat.lt_of_not_ge ht)]
      congr 1
      refine flatMap_congr fun i hi => ?_
      rw [update_of_ne]
      rintro rfl
      exact nodup.1 hi

theorem flat_update {t : Nat} (w : WrEntry) (h : fromhash c t = some (i, n)) :
    flat { c with added := update c.added i ((c.added i).set n w) } = (flat c).set t w :=
  flatMap_update pend w tables nodup_tables t h

end Numbers

/-- The lists are the parts of `flat` by slot. -/
theorem filter_flat (hslot : ∀ i, ∀ w ∈ c.added i, slot w.hash = i) (i : BitVec 8) :
    (flat c).filter (fun w => slot w.hash = i) = c.added i := by
  have part : ∀ is : List (BitVec 8), is.Nodup →
      (is.flatMap c.added).filter (fun w => slot w.hash = i) = if i ∈ is then c.added i else [] := by
    intro is
    induction is with
    | nil => exact fun _ => (if_neg not_mem_nil).symm
    | cons j is ih =>
      intro nodup
      rw [nodup_cons] at nodup
      rw [flatMap_cons, filter_append, ih nodup.2]
      by_cases hij : i = j
      · subst hij
        rw [if_neg nodup.1, if_pos (.head _), append_nil]
        exact filter_eq_self.mpr fun w hw => decide_eq_true (hslot i w hw)
      · have hnone : (c.added j).filter (fun w => slot w.hash = i) = [] :=
          filter_eq_nil_iff.mpr fun w hw => by
            rw [decide_eq_true_iff, hslot j w hw]
            exact fun h => hij h.symm
        rw [hnone]
        simp [hij]
  exact (part tables nodup_tables).trans (if_pos (mem_tables i))

/-! ### Freeing an entry -/

/-- Erasing the entry for a key, when there is at most one. -/
theorem eraseP_isFor {ws : List WrEntry} (hashed : ∀ w ∈ ws, w.hash = cdbHash w.key)
    (nodup : (ws.map WrEntry.key).Nodup) :
    ws.eraseP (·.isFor k (cdbHash k)) = ws.filter (·.key ≠ k) := by
  induction ws with
  | nil => rfl
  | cons w ws ih =>
    rw [map_cons, nodup_cons] at nodup
    by_cases hk : w.key = k
    · have hfor : w.isFor k (cdbHash k) = true :=
        isFor_iff.mpr ⟨(hashed w (.head _)).trans (by rw [hk]), hk⟩
      rw [eraseP_cons_of_pos hfor, filter_cons_of_neg (by simpa using hk),
        filter_eq_self.mpr]
      intro w' hw'
      refine decide_eq_true fun hk' => nodup.1 ?_
      rw [hk, ← hk']
      exact mem_map_of_mem hw'
    · rw [eraseP_cons_of_neg fun hfor => hk (isFor_iff.mp hfor).2,
        filter_cons_of_pos (by simpa using hk),
        ih (fun w' hw' => hashed w' (.tail w hw')) nodup.2]

theorem filter_key_eq_self {ws : List WrEntry} (h : ∀ w ∈ ws, w.key ≠ k) :
    ws.filter (·.key ≠ k) = ws :=
  filter_eq_self.mpr fun w hw => decide_eq_true (h w hw)

/-- No key is in the list of another key's slot. -/
theorem Pending.key_ne (pend : Pending c) {i : BitVec 8} (hi : i ≠ slot (cdbHash k)) :
    ∀ w ∈ c.added i, w.key ≠ k := by
  rintro w hw rfl
  obtain ⟨hhash, hslot, -⟩ := pend.added i w hw
  exact hi (by rw [← hslot, hhash])

/-- After `free_wrentry`: only the lists change, and they lose the key. -/
structure Freed (c c' : Db) (k : Bytes) : Prop where
  frame : c' = { c with hlens := c'.hlens, removed := c'.removed, added := c'.added }
  removed : c'.removed = c.removed.filter (·.key ≠ k)
  added : ∀ i, c'.added i = (c.added i).filter (·.key ≠ k)
  hlens : ∀ i, c'.hlens i = (c'.added i).length

theorem freePending_spec (pend : Pending c) (k : Bytes) :
    Freed c (freePending c k (cdbHash k)) k := by
  unfold freePending
  have found := ispending_spec pend k
  cases hcase : ispending c k (cdbHash k) with
  | none =>
    rw [hcase] at found
    cases found with
    | none hremoved hadded =>
      refine ⟨rfl, (filter_key_eq_self hremoved).symm, fun i => ?_, pend.hlens⟩
      by_cases hi : i = slot (cdbHash k)
      · exact (filter_key_eq_self (hi ▸ hadded)).symm
      · exact (filter_key_eq_self (pend.key_ne hi)).symm
  | some res =>
    rw [hcase] at found
    cases found with
    | removed w hw hk =>
      have hdata : w.data.length = 0 := by rw [(pend.removed w hw).2]; rfl
      refine ⟨rfl, eraseP_isFor (fun w' hw' => (pend.removed w' hw').1) pend.removed_nodup, fun i => ?_,
        fun i => ?_⟩
      · exact (filter_key_eq_self fun w' hw' => hk ▸ (pend.disjoint w hw i w' hw').symm).symm
      · dsimp only
        rw [if_pos hdata]
        exact pend.hlens i
    | added w n hw hk =>
      have hmem := mem_of_getElem? hw
      have hdata : w.data.length ≠ 0 := by
        rw [ne_eq, length_eq_zero_iff]
        exact (pend.added _ w hmem).2.2
      have herase := eraseP_isFor (k := k) (fun w' hw' => (pend.added _ w' hw').1)
        (pend.added_nodup (slot (cdbHash k)))
      refine ⟨rfl, (filter_key_eq_self fun w' hw' => hk ▸ pend.disjoint w' hw' _ w hmem).symm,
        fun i => ?_, fun i => ?_⟩
      · dsimp only
        by_cases hi : i = slot (cdbHash k)
        · subst hi
          rw [update_self, herase]
        · rw [update_of_ne hi]
          exact (filter_key_eq_self (pend.key_ne hi)).symm
      · dsimp only
        rw [if_neg hdata]
        by_cases hi : i = slot (cdbHash k)
        · subst hi
          have hfor : w.isFor k (cdbHash k) = true :=
            isFor_iff.mpr ⟨(pend.added _ w hmem).1.trans (by rw [hk]), hk⟩
          rw [update_self, update_self, pend.hlens,
            length_eraseP_of_mem hmem hfor]
        · rw [update_of_ne hi, update_of_ne hi]
          exact pend.hlens i

theorem Freed.pending (freed : Freed c c' k) (pend : Pending c) : Pending c' where
  removed := by
    rw [freed.removed]
    exact fun w hw => pend.removed w (mem_filter.mp hw).1
  added := by
    intro i
    rw [freed.added]
    exact fun w hw => pend.added i w (mem_filter.mp hw).1
  hlens := freed.hlens
  removed_nodup := by
    rw [freed.removed]
    exact pend.removed_nodup.sublist (filter_sublist.map _)
  added_nodup := by
    intro i
    rw [freed.added]
    exact (pend.added_nodup i).sublist (filter_sublist.map _)
  disjoint := by
    intro w hw i w' hw'
    rw [freed.removed] at hw
    rw [freed.added] at hw'
    exact pend.disjoint w (mem_filter.mp hw).1 i w' (mem_filter.mp hw').1

theorem Freed.update_iff (freed : Freed c c' k) (k' : Bytes) (v : Option Bytes) :
    Update c' k' v ↔ k' ≠ k ∧ Update c k' v := by
  have mem : ∀ (ws : List WrEntry) (P : WrEntry → Prop),
      (∃ w ∈ ws.filter (·.key ≠ k), w.key = k' ∧ P w) ↔ k' ≠ k ∧ ∃ w ∈ ws, w.key = k' ∧ P w := by
    intro ws P
    constructor
    · rintro ⟨w, hw, rfl, hP⟩
      obtain ⟨hw, hk⟩ := mem_filter.mp hw
      exact ⟨of_decide_eq_true hk, w, hw, rfl, hP⟩
    · rintro ⟨hk, w, hw, rfl, hP⟩
      exact ⟨w, mem_filter.mpr ⟨hw, decide_eq_true hk⟩, rfl, hP⟩
  cases v with
  | none =>
    have := mem c.removed fun _ => True
    simp only [and_true] at this
    rw [Update, Update, freed.removed, this]
  | some d =>
    rw [Update, Update, freed.added, mem]

/-! ### Inserting -/

section Insert

variable {c' : Db} {w : WrEntry} (pend : Pending c) (fresh : ∀ v, ¬ Update c w.key v)
  (hashed : w.hash = cdbHash w.key)
include pend fresh hashed

omit pend hashed in
theorem fresh_removed : ∀ w' ∈ c.removed, w'.key ≠ w.key := fun w' hw' hk =>
  fresh none ⟨w', hw', hk⟩

omit hashed in
theorem fresh_added (i : BitVec 8) : ∀ w' ∈ c.added i, w'.key ≠ w.key := by
  intro w' hw' hk
  obtain ⟨hhash, hslot, -⟩ := pend.added i w' hw'
  refine fresh (some w'.data) ⟨w', ?_, hk, rfl⟩
  rw [← hk, ← hhash, hslot]
  exact hw'

omit pend fresh hashed in
theorem nodup_append_key {ws : List WrEntry} (nodup : (ws.map WrEntry.key).Nodup)
    (hws : ∀ w' ∈ ws, w'.key ≠ w.key) : ((ws ++ [w]).map WrEntry.key).Nodup := by
  rw [map_append, nodup_append]
  refine ⟨nodup, List.Pairwise.cons (by simp) List.Pairwise.nil, ?_⟩
  rintro x hx y hy rfl
  obtain ⟨w', hw', rfl⟩ := mem_map.mp hx
  exact hws w' hw' (mem_singleton.mp hy)

/-- A removal goes to the end of its list. -/
theorem Pending.append_removed (hdata : w.data = []) (hremoved : c'.removed = c.removed ++ [w])
    (hadded : c'.added = c.added) (hhlens : c'.hlens = c.hlens) : Pending c' := by
  have mem : ∀ w', w' ∈ c'.removed ↔ w' ∈ c.removed ∨ w' = w := fun w' => by
    rw [hremoved, mem_append, mem_singleton]
  refine ⟨fun w' hw' => ?_, hadded ▸ pend.added, hadded ▸ hhlens ▸ pend.hlens, ?_,
    hadded ▸ pend.added_nodup, fun w' hw' i w'' hw'' => ?_⟩
  · rcases (mem w').mp hw' with hw' | rfl
    · exact pend.removed w' hw'
    · exact ⟨hashed, hdata⟩
  · rw [hremoved]
    exact nodup_append_key pend.removed_nodup (fresh_removed fresh)
  · rw [hadded] at hw''
    rcases (mem w').mp hw' with hw' | rfl
    · exact pend.disjoint w' hw' i w'' hw''
    · exact (fresh_added pend fresh i w'' hw'').symm

/-- And new data to the end of the list of its hash. -/
theorem Pending.append_added (hdata : w.data ≠ []) (hremoved : c'.removed = c.removed)
    (hadded : c'.added = update c.added (slot w.hash) (c.added (slot w.hash) ++ [w]))
    (hhlens : c'.hlens = update c.hlens (slot w.hash) (c.hlens (slot w.hash) + 1)) :
    Pending c' := by
  have self : c'.added (slot w.hash) = c.added (slot w.hash) ++ [w] := by
    rw [hadded, update_self]
  have other : ∀ {i}, i ≠ slot w.hash → c'.added i = c.added i := fun hi => by
    rw [hadded, update_of_ne hi]
  have mem : ∀ i w', w' ∈ c'.added i → w' ∈ c.added i ∨ (i = slot w.hash ∧ w' = w) := by
    intro i w' hw'
    by_cases hi : i = slot w.hash
    · subst hi
      rw [self, mem_append, mem_singleton] at hw'
      exact hw'.imp_right fun h => ⟨rfl, h⟩
    · exact .inl (other hi ▸ hw')
  refine ⟨hremoved ▸ pend.removed, fun i w' hw' => ?_, fun i => ?_, hremoved ▸ pend.removed_nodup,
    fun i => ?_, fun w' hw' i w'' hw'' => ?_⟩
  · rcases mem i w' hw' with hw' | ⟨rfl, rfl⟩
    · exact pend.added i w' hw'
    · exact ⟨hashed, rfl, hdata⟩
  · by_cases hi : i = slot w.hash
    · subst hi
      rw [hhlens, update_self, self, pend.hlens, length_append, length_singleton]
    · rw [hhlens, update_of_ne hi, other hi]
      exact pend.hlens i
  · by_cases hi : i = slot w.hash
    · subst hi
      rw [self]
      exact nodup_append_key (pend.added_nodup _) (fresh_added pend fresh _)
    · rw [other hi]
      exact pend.added_nodup i
  · rw [hremoved] at hw'
    rcases mem i w'' hw'' with hw'' | ⟨-, rfl⟩
    · exact pend.disjoint w' hw' i w'' hw''
    · exact fresh_removed fresh w' hw'

end Insert

/-- Nothing but the lists and the write flag changes, and the key has the new data, or is
removed if they are empty. -/
theorem rwcdbInsert_spec (pend : Pending c) (k d : Bytes) :
    Pending (rwcdbInsert c k d) ∧ (rwcdbInsert c k d).rf = c.rf ∧
    (rwcdbInsert c k d).readonly = c.readonly ∧
    (c.readonly = false → (rwcdbInsert c k d).writing = true) ∧
    ∀ k' v, Update (rwcdbInsert c k d) k' v ↔
      if k' = k then v = (if d = [] then none else some d) else Update c k' v := by
  generalize hc₁ : (if c.readonly then c else { c with writing := true }) = c₁
  have pend₁ : Pending c₁ := by
    subst hc₁
    split_ifs
    · exact pend
    · exact { pend with }
  have update₁ : ∀ k v, Update c₁ k v ↔ Update c k v := by
    subst hc₁
    intro k v
    split_ifs
    · exact .rfl
    · cases v <;> exact .rfl
  have freed := freePending_spec pend₁ k
  generalize hc₂ : freePending c₁ k (cdbHash k) = c₂ at freed
  have pend₂ := freed.pending pend₁
  have fresh : ∀ v, ¬ Update c₂ k v := fun v h => ((freed.update_iff k v).mp h).1 rfl
  have frame : c₂.rf = c.rf ∧ c₂.readonly = c.readonly ∧ (c.readonly = false → c₂.writing = true) := by
    rw [freed.frame]
    subst hc₁
    cases hro : c.readonly <;> exact ⟨rfl, by simp [hro], by simp⟩
  have hinsert : rwcdbInsert c k d = if d.length = 0 then
      { c₂ with removed := c₂.removed ++ [⟨cdbHash k, 0, k, d⟩] }
    else
      { c₂ with
        hlens := update c₂.hlens (slot (cdbHash k)) (c₂.hlens (slot (cdbHash k)) + 1)
        added := update c₂.added (slot (cdbHash k))
          (c₂.added (slot (cdbHash k)) ++ [⟨cdbHash k, 0, k, d⟩]) } := by
    rw [rwcdbInsert, hc₁, hc₂]
  rw [hinsert]
  -- what is pending for the other keys is pending in `c₂`
  have others : ∀ {k'} v, k' ≠ k → (Update c₂ k' v ↔ Update c k' v) := fun v hk => by
    rw [freed.update_iff, update₁]
    exact and_iff_right hk
  by_cases hd : d.length = 0
  · rw [if_pos hd]
    obtain rfl := length_eq_zero_iff.mp hd
    refine ⟨Pending.append_removed pend₂ fresh rfl rfl rfl rfl rfl,
      frame.1, frame.2.1, frame.2.2, fun k' v => ?_⟩
    by_cases hk : k' = k
    · subst hk
      rw [if_pos rfl]
      cases v with
      | none => exact iff_of_true ⟨⟨cdbHash k', 0, k', []⟩, by simp, rfl⟩ rfl
      | some d' => exact iff_of_false (fresh (some d')) (Option.some_ne_none d')
    · rw [if_neg hk, ← others v hk]
      cases v with
      | none =>
        simp only [Update, mem_append, mem_singleton]
        constructor
        · rintro ⟨w, hw | rfl, rfl⟩
          · exact ⟨w, hw, rfl⟩
          · exact absurd rfl hk
        · rintro ⟨w, hw, rfl⟩
          exact ⟨w, .inl hw, rfl⟩
      | some d' => exact .rfl
  · rw [if_neg hd]
    have hne : d ≠ [] := fun h => hd (length_eq_zero_iff.mpr h)
    refine ⟨Pending.append_added (w := ⟨cdbHash k, 0, k, d⟩) pend₂ fresh rfl hne rfl rfl rfl,
      frame.1, frame.2.1, frame.2.2, fun k' v => ?_⟩
    rw [if_neg hne]
    by_cases hk : k' = k
    · subst hk
      rw [if_pos rfl]
      cases v with
      | none => exact iff_of_false (fresh none) (Option.some_ne_none d).symm
      | some d' =>
        simp only [Update, update_self, mem_append, mem_singleton]
        constructor
        · rintro ⟨w, hw | rfl, hk, rfl⟩
          · exact absurd ⟨w, hw, hk, rfl⟩ (fresh (some w.data))
          · rfl
        · intro h
          cases h
          exact ⟨_, .inr rfl, rfl, rfl⟩
    · rw [if_neg hk, ← others v hk]
      cases v with
      | none => exact .rfl
      | some d' =>
        simp only [Update]
        by_cases hs : slot (cdbHash k') = slot (cdbHash k)
        · rw [hs, update_self]
          simp only [mem_append, mem_singleton]
          constructor
          · rintro ⟨w, hw | rfl, rfl, rfl⟩
            · exact ⟨w, hw, rfl, rfl⟩
            · exact absurd rfl hk
          · rintro ⟨w, hw, rfl, rfl⟩
            exact ⟨w, .inl hw, rfl, rfl⟩
        · rw [update_of_ne hs]

end Coda.Rwcdb
