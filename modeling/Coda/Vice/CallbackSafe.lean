import Coda.Vice.Callback

/-!
The counters of the callback table agree with the table at every yield point, and a broken callback
is broken at every client that has a callback connection.

`Counted` is the invariant of the table. `Keeps` is what a function that does not wait may do to it;
the invariant of the threads follows from it (`Ahead`).
-/

namespace Coda.Vice.Callback

open Coda.Lib List Function Server World

/-! ### The table -/

section Table

variable {l : List FileEntry} {e : FileEntry}

theorem exists_perm (nodup : (l.map (·.addr)).Nodup) (mem : e ∈ l) :
    ∃ rest, l.Perm (e :: rest) ∧ ∀ x ∈ rest, x.addr ≠ e.addr := by
  obtain ⟨l₁, l₂, rfl⟩ := append_of_mem mem
  have perm : (l₁ ++ e :: l₂).Perm (e :: (l₁ ++ l₂)) := perm_middle
  refine ⟨l₁ ++ l₂, perm, fun x hx heq => ?_⟩
  have nodup' := (perm.map (·.addr)).nodup_iff.mp nodup
  exact (nodup_cons.mp nodup').1 (mem_map.mpr ⟨x, hx, heq⟩)

/-- The counters of a table. -/
def Tally (l : List FileEntry) (fes ves cbes vcbes : Int) : Prop :=
  fes = l.length ∧ ves = (l.filter (·.theFid.isVolume)).length ∧
    cbes = (l.map (·.callBacks.length)).sum ∧
    vcbes = ((l.filter (·.theFid.isVolume)).map (·.callBacks.length)).sum

theorem tally_cons {fes ves cbes vcbes : Int} : Tally (e :: l) fes ves cbes vcbes ↔
    Tally l (fes - 1) (if e.theFid.isVolume then ves - 1 else ves) (cbes - e.callBacks.length)
      (if e.theFid.isVolume then vcbes - e.callBacks.length else vcbes) := by
  unfold Tally
  cases hvol : e.theFid.isVolume <;> simp [hvol] <;> omega

theorem Tally.perm {l' : List FileEntry} {fes ves cbes vcbes : Int}
    (tally : Tally l fes ves cbes vcbes) (p : l.Perm l') : Tally l' fes ves cbes vcbes := by
  unfold Tally
  rw [← p.length_eq, ← (p.filter _).length_eq, ← (p.map _).sum_eq, ← ((p.filter _).map _).sum_eq]
  exact tally

end Table

/-- The invariant of the table. -/
structure Counted (s : Server) : Prop where
  addrs : (s.hashTable.map (·.addr) ++ s.feFree).Nodup
  bound : ∀ a ∈ s.hashTable.map (·.addr) ++ s.feFree, a < fesPerBlock * s.feBlocks
  fids : (s.hashTable.map (·.theFid)).Nodup
  users : ∀ e ∈ s.hashTable, e.users = e.callBacks.length
  distinct : ∀ e ∈ s.hashTable, e.callBacks.reduceOption.Nodup
  fes : s.fes = s.hashTable.length
  ves : s.ves = (s.hashTable.filter (·.theFid.isVolume)).length
  cbes : s.cbes = (s.hashTable.map (·.callBacks.length)).sum
  vcbes : s.vcbes = ((s.hashTable.filter (·.theFid.isVolume)).map (·.callBacks.length)).sum

/-- The entry at an address has a callback for the client. -/
def Server.HoldsAt (s : Server) (a : Nat) (client : Host) : Prop :=
  ∃ e ∈ s.hashTable, e.addr = a ∧ some client ∈ e.callBacks

/-- What a function that does not wait does to the table. `new` are the clients that may get a
callback. -/
structure Keeps (new : Host → Prop) (s s' : Server) : Prop where
  cblock : s'.cblock = s.cblock
  stays : ∀ e ∈ s.hashTable, s.checkLock e.addr = true →
    ∃ e' ∈ s'.hashTable, e'.addr = e.addr ∧ e'.theFid = e.theFid
  origin : ∀ a client, s'.HoldsAt a client → s.HoldsAt a client ∨ new client

theorem Keeps.refl (new : Host → Prop) (s : Server) : Keeps new s s :=
  ⟨rfl, fun e he _ => ⟨e, he, rfl, rfl⟩, fun _ _ h => .inl h⟩

variable {new : Host → Prop}

theorem Keeps.trans {s₁ s₂ s₃ : Server} (h : Keeps new s₁ s₂) (h' : Keeps new s₂ s₃) :
    Keeps new s₁ s₃ where
  cblock := h'.cblock.trans h.cblock
  stays := by
    intro e he hlock
    obtain ⟨e₂, he₂, haddr, hfid⟩ := h.stays e he hlock
    have hlock₂ : s₂.checkLock e₂.addr = true := by
      rw [checkLock, h.cblock, haddr]
      exact hlock
    obtain ⟨e₃, he₃, haddr₃, hfid₃⟩ := h'.stays e₂ he₂ hlock₂
    exact ⟨e₃, he₃, haddr₃.trans haddr, hfid₃.trans hfid⟩
  origin := by
    intro a client held
    rcases h'.origin a client held with held | hnew
    · exact h.origin a client held
    · exact .inr hnew

def noOne : Host → Prop := fun _ => False

theorem Keeps.of_noOne {s s' : Server} (h : Keeps noOne s s') : Keeps new s s' :=
  ⟨h.cblock, h.stays, fun a client held => .inl ((h.origin a client held).resolve_right id)⟩

theorem Keeps.holdsAt {s s' : Server} (h : Keeps noOne s s') {a : Nat} {client : Host}
    (held : s'.HoldsAt a client) : s.HoldsAt a client :=
  (h.origin a client held).resolve_right id

namespace Counted

variable {s : Server} {e : FileEntry}

theorem addrs_table (h : Counted s) : (s.hashTable.map (·.addr)).Nodup :=
  (nodup_append.mp h.addrs).1

theorem eq_of_addr (h : Counted s) {e' : FileEntry} (mem : e ∈ s.hashTable)
    (mem' : e' ∈ s.hashTable) (heq : e'.addr = e.addr) : e' = e :=
  inj_on_of_nodup_map h.addrs_table mem' mem heq

theorem eq_of_fid (h : Counted s) {e' : FileEntry} (mem : e ∈ s.hashTable)
    (mem' : e' ∈ s.hashTable) (heq : e'.theFid = e.theFid) : e' = e :=
  inj_on_of_nodup_map h.fids mem' mem heq

theorem tally (h : Counted s) : Tally s.hashTable s.fes s.ves s.cbes s.vcbes :=
  ⟨h.fes, h.ves, h.cbes, h.vcbes⟩

/-- The order of the table does not matter. -/
theorem of_perm {l : List FileEntry} (perm : s.hashTable.Perm l)
    (addrs : (l.map (·.addr) ++ s.feFree).Nodup)
    (bound : ∀ a ∈ l.map (·.addr) ++ s.feFree, a < fesPerBlock * s.feBlocks)
    (fids : (l.map (·.theFid)).Nodup)
    (entries : ∀ e ∈ l, e.users = e.callBacks.length ∧ e.callBacks.reduceOption.Nodup)
    (tally : Tally l s.fes s.ves s.cbes s.vcbes) : Counted s := by
  have permAddrs := (perm.map (·.addr)).append_right s.feFree
  obtain ⟨fes, ves, cbes, vcbes⟩ := tally.perm perm.symm
  exact
    { addrs := permAddrs.nodup_iff.mpr addrs
      bound := fun a ha => bound a (permAddrs.mem_iff.mp ha)
      fids := (perm.map _).nodup_iff.mpr fids
      users := fun x hx => (entries x (perm.mem_iff.mp hx)).1
      distinct := fun x hx => (entries x (perm.mem_iff.mp hx)).2
      fes, ves, cbes, vcbes }

theorem entries (h : Counted s) :
    ∀ e ∈ s.hashTable, e.users = e.callBacks.length ∧ e.callBacks.reduceOption.Nodup :=
  fun e he => ⟨h.users e he, h.distinct e he⟩

/-- An entry is written, and the counters follow. -/
theorem write (h : Counted s) (mem : e ∈ s.hashTable) {f : FileEntry → FileEntry}
    (addr : (f e).addr = e.addr) (fid : (f e).theFid = e.theFid)
    (users : (f e).users = (f e).callBacks.length)
    (distinct : (f e).callBacks.reduceOption.Nodup) {c v : Int}
    (hc : c = s.cbes - e.callBacks.length + (f e).callBacks.length)
    (hv : v = if e.theFid.isVolume then s.vcbes - e.callBacks.length + (f e).callBacks.length
      else s.vcbes)
    (origin : ∀ client, some client ∈ (f e).callBacks → some client ∈ e.callBacks ∨ new client) :
    Counted ({ s with cbes := c, vcbes := v }.update e.addr f) ∧
      Keeps new s ({ s with cbes := c, vcbes := v }.update e.addr f) := by
  obtain ⟨rest, perm, apart⟩ := exists_perm h.addrs_table mem
  have same : rest.map (fun x => if x.addr = e.addr then f x else x) = rest := by
    conv_rhs => rw [← map_id rest]
    exact map_congr_left fun x hx => if_neg (apart x hx)
  have perm' : ({ s with cbes := c, vcbes := v }.update e.addr f).hashTable.Perm (f e :: rest) := by
    have := perm.map fun x => if x.addr = e.addr then f x else x
    rwa [map_cons, if_pos rfl, same] at this
  have permAddrs := (perm.map (·.addr)).append_right s.feFree
  have permFids := perm.map (·.theFid)
  rw [map_cons, ← addr] at permAddrs
  rw [map_cons, ← fid] at permFids
  constructor
  swap
  · refine ⟨rfl, fun x hx _ => ?_, ?_⟩
    · rcases mem_cons.mp (perm.mem_iff.mp hx) with rfl | hx
      · exact ⟨f x, perm'.mem_iff.mpr (.head _), addr, fid⟩
      · exact ⟨x, perm'.mem_iff.mpr (.tail _ hx), rfl, rfl⟩
    · rintro _ client ⟨x, hx, rfl, hconn⟩
      rcases mem_cons.mp (perm'.mem_iff.mp hx) with rfl | hx
      · exact (origin client hconn).imp_left fun hconn => ⟨e, mem, addr.symm, hconn⟩
      · exact .inl ⟨x, perm.mem_iff.mpr (.tail e hx), rfl, hconn⟩
  refine .of_perm perm' (permAddrs.nodup_iff.mp h.addrs)
    (fun a ha => h.bound a (permAddrs.mem_iff.mpr ha)) (permFids.nodup_iff.mp h.fids)
    (forall_mem_cons.mpr ⟨⟨users, distinct⟩, fun x hx => ?_⟩) (tally_cons.mpr ?_)
  · exact h.entries x (perm.mem_iff.mpr (.tail e hx))
  · have tally := tally_cons.mp (h.tally.perm perm)
    change Tally rest (s.fes - 1) (if (f e).theFid.isVolume then s.ves - 1 else s.ves)
      (c - (f e).callBacks.length)
      (if (f e).theFid.isVolume then v - (f e).callBacks.length else v)
    rw [hc, hv, fid, Int.add_sub_cancel]
    convert tally using 1
    split <;> omega

/-- An entry is taken out of the table, and its callback entries are freed. -/
theorem remove (h : Counted s) (mem : e ∈ s.hashTable) :
    Counted ((s.freeCBEs e.callBacks.length e.theFid).deleteFileStruct e) := by
  obtain ⟨rest, perm, apart⟩ := exists_perm h.addrs_table mem
  have hany : s.hashTable.any (fun e' => e'.addr = e.addr) = true :=
    any_eq_true.mpr ⟨e, mem, by simp⟩
  have perm' : (s.hashTable.filter fun e' => e'.addr ≠ e.addr).Perm rest := by
    have := perm.filter fun e' => e'.addr ≠ e.addr
    rwa [filter_cons_of_neg (by simp), filter_eq_self.mpr
      fun x hx => decide_eq_true (apart x hx)] at this
  have permAddrs : (s.hashTable.map (·.addr) ++ s.feFree).Perm
      (rest.map (·.addr) ++ e.addr :: s.feFree) :=
    ((perm.map (·.addr)).append_right s.feFree).trans perm_middle.symm
  change Counted (if s.hashTable.any _ = true then _ else _)
  rw [if_pos hany]
  refine .of_perm perm' (permAddrs.nodup_iff.mp h.addrs)
    (fun a ha => h.bound a (permAddrs.mem_iff.mpr ha)) ?_ (fun x hx => ?_)
    (tally_cons.mp (h.tally.perm perm))
  · exact (nodup_cons.mp ((perm.map (·.theFid)).nodup_iff.mp h.fids)).2
  · exact h.entries x (perm.mem_iff.mpr (.tail e hx))

end Counted

/-! ### The functions that do not wait -/

section Functions

variable {s s₁ : Server} {e : FileEntry} {new : Host → Prop}

theorem findEntry_some {fid : ViceFid} (h : s.findEntry fid = some e) :
    e ∈ s.hashTable ∧ e.theFid = fid :=
  ⟨mem_of_find?_eq_some h, by simpa using List.find?_some h⟩

theorem findEntry_none {fid : ViceFid} (h : s.findEntry fid = none) (mem : e ∈ s.hashTable) :
    e.theFid ≠ fid := by
  simpa using List.find?_eq_none.mp h e mem

variable {a : Nat} {l : List (Option Host)}

theorem entryAt_some (h : s.entryAt a = some e) : e ∈ s.hashTable ∧ e.addr = a :=
  ⟨mem_of_find?_eq_some h, by simpa using List.find?_some h⟩

theorem entryAt_none (h : s.entryAt a = none) (mem : e ∈ s.hashTable) : e.addr ≠ a := by
  simpa using List.find?_eq_none.mp h e mem

variable {f : FileEntry → FileEntry}

theorem mem_update {x : FileEntry} :
    x ∈ (s.update a f).hashTable ↔ ∃ y ∈ s.hashTable, (if y.addr = a then f y else y) = x :=
  mem_map

theorem mem_deleteFileStruct {x : FileEntry} (mem : e ∈ s.hashTable) :
    x ∈ (s.deleteFileStruct e).hashTable ↔ x ∈ s.hashTable ∧ x.addr ≠ e.addr := by
  have hany : s.hashTable.any (fun e' => e'.addr = e.addr) = true :=
    any_eq_true.mpr ⟨e, mem, by simp⟩
  rw [deleteFileStruct, if_pos hany]
  change x ∈ s.hashTable.filter _ ↔ _
  rw [mem_filter, decide_eq_true_iff]

theorem deleteFileStruct_cblock : (s.deleteFileStruct e).cblock = s.cblock := by
  rw [deleteFileStruct]
  split <;> rfl

/-- An entry that is not locked is taken out. -/
theorem keeps_delete (table : s₁.hashTable = s.hashTable) (cblock : s₁.cblock = s.cblock)
    (mem : e ∈ s.hashTable) (free : s.checkLock e.addr = false) :
    Keeps new s (s₁.deleteFileStruct e) where
  cblock := deleteFileStruct_cblock.trans cblock
  stays := by
    intro x hx hlock
    refine ⟨x, (mem_deleteFileStruct (table.symm ▸ mem)).mpr ⟨table.symm ▸ hx, ?_⟩, rfl, rfl⟩
    intro heq
    rw [heq, free] at hlock
    cases hlock
  origin := by
    rintro a client ⟨x, hx, haddr, hconn⟩
    have hx' := ((mem_deleteFileStruct (table.symm ▸ mem)).mp hx).1
    exact .inl ⟨x, table ▸ hx', haddr, hconn⟩

theorem reduceOption_erase_nodup (h : l.reduceOption.Nodup) (c : Option Host) :
    (l.erase c).reduceOption.Nodup :=
  h.sublist ((erase_sublist).filterMap _)

theorem reduceOption_replace_sublist (l : List (Option Host)) (c : Option Host) :
    (l.replace c none).reduceOption.Sublist l.reduceOption := by
  induction l with
  | nil => exact .refl _
  | cons x l ih =>
    rw [replace_cons]
    split
    · rw [reduceOption_cons_of_none]
      exact (sublist_cons_self x l).filterMap _
    · cases x with
      | none =>
        exact ih
      | some x =>
        exact ih.cons_cons x

/-- A client that is in the list once is not in it once it is marked dead. -/
theorem not_mem_replace {client : Host} (h : l.reduceOption.Nodup) :
    some client ∉ l.replace (some client) none := by
  induction l with
  | nil => exact not_mem_nil
  | cons x l ih =>
    rw [replace_cons]
    split
    · next heq =>
      obtain rfl : some client = x := by simpa using heq
      rw [reduceOption_cons_of_some, nodup_cons, reduceOption_mem_iff] at h
      simpa using h.1
    · next hne =>
      have hl : l.reduceOption.Nodup := h.sublist ((sublist_cons_self x l).filterMap _)
      intro hmem
      rcases mem_cons.mp hmem with heq | hmem
      · exact absurd heq (by simpa using hne)
      · exact ih hl hmem

theorem not_mem_erase {client : Host} (h : l.reduceOption.Nodup) :
    some client ∉ l.erase (some client) := by
  have once : l.count (some client) ≤ 1 := by
    have := nodup_iff_count_le_one.mp h client
    rwa [List.reduceOption, count_filterMap] at this
  rw [← count_eq_zero, count_erase_self]
  omega

namespace Counted

theorem getFE (h : Counted s) :
    (s.hashTable.map (·.addr) ++ s.getFE.1 :: s.getFE.2.feFree).Nodup ∧
      ∀ a ∈ s.hashTable.map (·.addr) ++ s.getFE.1 :: s.getFE.2.feFree,
        a < fesPerBlock * s.getFE.2.feBlocks := by
  cases hfree : s.feFree with
  | cons a rest =>
    have hget : s.getFE = (a, { s with feFree := rest, fes := s.fes + 1 }) := by
      simp [Server.getFE, hfree]
    rw [hget]
    have haddrs := h.addrs
    have hbound := h.bound
    rw [hfree] at haddrs hbound
    exact ⟨haddrs, hbound⟩
  | nil =>
    have hcons : ∀ l : List Nat, l ≠ [] → l.headD 0 :: l.tail = l := by
      intro l hl
      cases l with
      | nil => exact absurd rfl hl
      | cons a l => rfl
    have hget : s.getFE.1 :: s.getFE.2.feFree =
        List.range' (fesPerBlock * s.feBlocks) fesPerBlock := by
      simp only [Server.getFE, if_pos hfree]
      exact hcons _ (by simp [getFEBlock, fesPerBlock])
    have hblocks : s.getFE.2.feBlocks = s.feBlocks + 1 := by
      simp [Server.getFE, Server.getFEBlock, hfree]
    have hbound := h.bound
    rw [hfree, append_nil] at hbound
    rw [hget, hblocks]
    constructor
    · refine nodup_append.mpr ⟨h.addrs_table, nodup_range', fun a ha b hb heq => ?_⟩
      have hlt := hbound a ha
      have hle := (mem_range'_1.mp hb).1
      omega
    · intro a ha
      rcases mem_append.mp ha with ha | ha
      · exact Nat.lt_add_right _ (hbound a ha)
      · exact (mem_range'_1.mp ha).2

theorem getFE_same (s : Server) : s.getFE.2.hashTable = s.hashTable ∧
    s.getFE.2.cblock = s.cblock ∧ s.getFE.2.fes = s.fes + 1 ∧ s.getFE.2.ves = s.ves ∧
    s.getFE.2.cbes = s.cbes ∧ s.getFE.2.vcbes = s.vcbes := by
  by_cases hfree : s.feFree = [] <;> simp [Server.getFE, Server.getFEBlock, hfree]

theorem createEntry (h : Counted s) {fid : ViceFid} (fresh : s.findEntry fid = none) :
    Counted (s.createEntry fid).2 ∧ Keeps noOne s (s.createEntry fid).2 := by
  obtain ⟨htable, hcblock, hfes, hves, hcbes, hvcbes⟩ := getFE_same s
  obtain ⟨haddrs, hbound⟩ := h.getFE
  have htable' : (s.createEntry fid).2.hashTable = ⟨s.getFE.1, fid, 0, []⟩ :: s.hashTable :=
    congrArg _ htable
  have perm : (s.hashTable.map (·.addr) ++ s.getFE.1 :: s.getFE.2.feFree).Perm
      (s.getFE.1 :: s.hashTable.map (·.addr) ++ s.getFE.2.feFree) := perm_middle
  constructor
  · refine .of_perm (.of_eq htable') (perm.nodup_iff.mp haddrs)
      (fun a ha => hbound a (perm.mem_iff.mpr ha)) (nodup_cons.mpr ⟨fun hmem => ?_, h.fids⟩)
      (forall_mem_cons.mpr ⟨⟨rfl, nodup_nil⟩, h.entries⟩) (tally_cons.mpr ?_)
    · obtain ⟨x, hx, heq⟩ := mem_map.mp hmem
      exact findEntry_none fresh hx heq
    · change Tally s.hashTable (s.getFE.2.fes - 1)
        (if fid.isVolume then (if fid.isVolume then s.getFE.2.ves + 1 else s.getFE.2.ves) - 1
          else if fid.isVolume then s.getFE.2.ves + 1 else s.getFE.2.ves)
        (s.getFE.2.cbes - 0) (if fid.isVolume then s.getFE.2.vcbes - 0 else s.getFE.2.vcbes)
      rw [hfes, hves, hcbes, hvcbes]
      cases fid.isVolume <;> simpa using h.tally
  · constructor
    · exact hcblock
    · intro x hx _
      exact ⟨x, htable'.symm ▸ .tail _ hx, rfl, rfl⟩
    · rintro a client ⟨x, hx, haddr, hconn⟩
      rw [htable'] at hx
      rcases mem_cons.mp hx with rfl | hx
      · cases hconn
      · exact .inl ⟨x, hx, haddr, hconn⟩

variable (h : Counted s)
include h

/-- The end of `AddCallBack`, with its entry in the table. -/
theorem pushCallBack (mem : e ∈ s.hashTable) {client : Host} (absent : some client ∉ e.callBacks) :
    let s' := (s.getCBE e.theFid).update e.addr fun e =>
      { e with users := e.users + 1, callBacks := some client :: e.callBacks }
    Counted s' ∧ Keeps (· = client) s s' := by
  refine h.write mem (f := fun e =>
    { e with users := e.users + 1, callBacks := some client :: e.callBacks }) rfl rfl ?_ ?_ ?_ ?_
    fun c hc => ?_
  · change e.users + 1 = _
    rw [h.users e mem]
    simp
  · rw [reduceOption_cons_of_some, nodup_cons, reduceOption_mem_iff]
    exact ⟨absent, h.distinct e mem⟩
  · simp
    omega
  · split <;> simp
    omega
  · rcases mem_cons.mp hc with heq | hc
    · exact .inr (Option.some.inj heq)
    · exact .inl hc

theorem addCallBack (client : Host) (fid : ViceFid) :
    Counted (s.addCallBack client fid).2 ∧ Keeps (· = client) s (s.addCallBack client fid).2 := by
  -- The entry is found or made, and then the callback is added to it.
  have added : ∀ (e : FileEntry) (s₁ : Server), Counted s₁ → e ∈ s₁.hashTable → e.theFid = fid →
      ∀ r : CallBackStatus × Server,
      r = (if s₁.checkLock e.addr then (.noCallBack, s₁)
        else if some client ∈ e.callBacks then (.callBackSet, s₁)
        else (.callBackSet, (s₁.getCBE fid).update e.addr fun e =>
          { e with users := e.users + 1, callBacks := some client :: e.callBacks })) →
      Counted r.2 ∧ Keeps (· = client) s₁ r.2 := by
    rintro e s₁ h₁ mem rfl r rfl
    split
    · exact ⟨h₁, .refl _ _⟩
    · split
      · exact ⟨h₁, .refl _ _⟩
      · next absent => exact h₁.pushCallBack mem absent
  cases hfind : s.findEntry fid with
  | some e =>
    obtain ⟨mem, hfid⟩ := findEntry_some hfind
    refine added e s h mem hfid _ ?_
    rw [Server.addCallBack, hfind]
  | none =>
    obtain ⟨h₁, keeps₁⟩ := h.createEntry hfind
    have := added (s.createEntry fid).1 (s.createEntry fid).2 h₁ (.head _) rfl
      (s.addCallBack client fid) (by rw [Server.addCallBack, hfind])
    exact ⟨this.1, keeps₁.of_noOne.trans this.2⟩

theorem dropCallBack (mem : e ∈ s.hashTable) (client : Host) :
    ∃ e' s', s.dropCallBack client e = (e', s') ∧ Counted s' ∧ Keeps noOne s s' ∧
      e' ∈ s'.hashTable ∧ e'.addr = e.addr ∧ some client ∉ e'.callBacks := by
  rw [Server.dropCallBack]
  split
  · next present =>
    have hpos : 0 < e.callBacks.length := length_pos_of_mem present
    have hlen := length_erase_of_mem present
    refine ⟨_, _, rfl, and_assoc.mp ⟨h.write mem (f := fun _ =>
      { e with users := e.users - 1, callBacks := e.callBacks.erase (some client) })
      rfl rfl ?_ (reduceOption_erase_nodup (h.distinct e mem) _) ?_ ?_ fun c hc =>
        .inl (mem_of_mem_erase hc),
      mem_update.mpr ⟨e, mem, if_pos rfl⟩, rfl, not_mem_erase (h.distinct e mem)⟩⟩
    · change e.users - 1 = ((e.callBacks.erase (some client)).length : Int)
      rw [h.users e mem]
      omega
    · rw [hlen]
      omega
    · rw [hlen]
      split <;> omega
  · next absent => exact ⟨e, s, rfl, h, .refl _ _, mem, rfl, absent⟩

theorem sDeleteCallBack (mem : e ∈ s.hashTable) (client : Host) :
    Counted (s.sDeleteCallBack client e) ∧ Keeps noOne s (s.sDeleteCallBack client e) ∧
      ¬ (s.sDeleteCallBack client e).HoldsAt e.addr client := by
  rw [Server.sDeleteCallBack]
  split
  · refine and_assoc.mp ⟨h.write mem (f := fun e =>
      { e with callBacks := e.callBacks.replace (some client) none }) rfl rfl ?_ ?_ ?_ ?_
      fun c hc => .inl ?_, ?_⟩
    · change e.users = _
      rw [h.users e mem, length_replace]
    · exact (h.distinct e mem).sublist (reduceOption_replace_sublist _ _)
    · simp
    · simp
    · have := (reduceOption_replace_sublist e.callBacks (some client)).subset
        (reduceOption_mem_iff.mpr hc)
      exact reduceOption_mem_iff.mp this
    · rintro ⟨x, hx, haddr, hconn⟩
      obtain ⟨y, hy, rfl⟩ := mem_update.mp hx
      split at haddr
      · next heq =>
        rw [if_pos heq] at hconn
        exact not_mem_replace (h.distinct y hy) hconn
      · next hne => exact hne haddr
  · next hlock =>
    obtain ⟨e₁, s₁, hdrop, h₁, keeps₁, mem₁, haddr₁, absent₁⟩ := h.dropCallBack mem client
    have free : s.checkLock e.addr = false := by simpa using hlock
    have free₁ : s₁.checkLock e₁.addr = false := by
      rw [checkLock, keeps₁.cblock, haddr₁]
      exact free
    rw [hdrop]
    dsimp only
    split
    · next hzero =>
      -- No user is left, so no callback entry is left to free.
      have hnil : e₁.callBacks.length = 0 := by
        have := h₁.users _ mem₁
        omega
      have hsame : s₁.freeCBEs e₁.callBacks.length e₁.theFid = s₁ := by
        simp [freeCBEs, hnil]
      have h₂ := h₁.remove mem₁
      rw [hsame] at h₂
      refine ⟨h₂, keeps₁.trans (keeps_delete rfl rfl mem₁ free₁), ?_⟩
      rintro ⟨x, hx, haddr, -⟩
      exact ((mem_deleteFileStruct mem₁).mp hx).2 (haddr.trans haddr₁.symm)
    · refine ⟨h₁, keeps₁, ?_⟩
      rintro ⟨x, hx, haddr, hconn⟩
      rw [h₁.eq_of_addr mem₁ hx (haddr.trans haddr₁.symm)] at hconn
      exact absent₁ hconn

theorem deleteCallBack (client : Host) (fid : ViceFid) :
    Counted (s.deleteCallBack client fid) ∧ Keeps noOne s (s.deleteCallBack client fid) := by
  rw [Server.deleteCallBack]
  split
  · next hfind =>
    obtain ⟨h', keeps, -⟩ := h.sDeleteCallBack (findEntry_some hfind).1 client
    exact ⟨h', keeps⟩
  · exact ⟨h, .refl _ _⟩

theorem deleteVenusAt (client : Host) (a : Nat) :
    Counted (s.deleteVenusAt client a) ∧ Keeps noOne s (s.deleteVenusAt client a) ∧
      ¬ (s.deleteVenusAt client a).HoldsAt a client := by
  rw [Server.deleteVenusAt]
  split
  · next hat =>
    obtain ⟨mem, rfl⟩ := entryAt_some hat
    exact h.sDeleteCallBack mem client
  · next hat =>
    refine ⟨h, .refl _ _, ?_⟩
    rintro ⟨x, hx, haddr, -⟩
    exact entryAt_none hat hx haddr

/-- `DeleteVenus` leaves the client no callback. -/
theorem deleteVenus (client : Host) :
    Counted (s.deleteVenus client) ∧ Keeps noOne s (s.deleteVenus client) ∧
      ∀ a, ¬ (s.deleteVenus client).HoldsAt a client := by
  have rounds : ∀ (as : List Nat) (s : Server), Counted s →
      let s' := as.foldl (Server.deleteVenusAt client) s
      Counted s' ∧ Keeps noOne s s' ∧ ∀ a ∈ as, ¬ s'.HoldsAt a client := by
    intro as
    induction as with
    | nil => exact fun s h => ⟨h, .refl _ _, nofun⟩
    | cons a as ih =>
      intro s h
      obtain ⟨h₁, keeps₁, gone₁⟩ := h.deleteVenusAt client a
      obtain ⟨h₂, keeps₂, gone₂⟩ := ih _ h₁
      exact ⟨h₂, keeps₁.trans keeps₂,
        forall_mem_cons.mpr ⟨fun held => gone₁ (keeps₂.holdsAt held), gone₂⟩⟩
  obtain ⟨h', keeps, gone⟩ := rounds (s.hashTable.map (·.addr)) s h
  refine ⟨h', keeps, fun a held => ?_⟩
  obtain ⟨x, hx, haddr, -⟩ := keeps.holdsAt held
  exact gone a (mem_map.mpr ⟨x, hx, haddr⟩) held

theorem deleteFile (fid : ViceFid) :
    Counted (s.deleteFile fid) ∧ Keeps noOne s (s.deleteFile fid) := by
  have dead : ∀ l : List (Option Host), (l.map fun _ => (none : Option Host)).reduceOption = [] := by
    intro l
    rw [map_const', reduceOption_replicate_none]
  rw [Server.deleteFile]
  split
  · exact ⟨h, .refl _ _⟩
  · next e hfind =>
    obtain ⟨mem, rfl⟩ := findEntry_some hfind
    split
    · refine h.write mem
        rfl rfl ?_ ?_ ?_ ?_ fun c hc => ?_
      · change e.users = _
        rw [h.users e mem, length_map]
      · rw [dead]
        exact nodup_nil
      · simp
      · simp
      · have := reduceOption_mem_iff.mpr hc
        rw [dead] at this
        cases this
    · next hlock => exact ⟨h.remove mem, keeps_delete rfl rfl mem (by simpa using hlock)⟩

/-- A client is at most once in the list of an entry. -/
theorem good_cases (mem : e ∈ s.hashTable) (client : Option Host) :
    e.callBacks.filter (fun conn => conn.isSome && conn == client) = [] ∨
      ∃ c, client = some c ∧
        e.callBacks.filter (fun conn => conn.isSome && conn == client) = [some c] := by
  cases client with
  | none =>
    refine .inl (filter_eq_nil_iff.mpr fun conn _ => ?_)
    cases conn <;> simp
  | some c =>
    set good := e.callBacks.filter fun conn => conn.isSome && conn == some c with hgood
    have all : good = List.replicate good.length (some c) := by
      refine eq_replicate_iff.mpr ⟨rfl, fun conn hconn => ?_⟩
      rw [mem_filter] at hconn
      simpa using (Bool.and_eq_true_iff.mp hconn.2).2
    have once : good.reduceOption.Nodup :=
      (h.distinct e mem).sublist ((filter_sublist).filterMap _)
    have hsome : id (some c) = some c := rfl
    rw [all, List.reduceOption, filterMap_replicate_of_some hsome, nodup_replicate]
      at once
    rcases Nat.le_one_iff_eq_zero_or_eq_one.mp once with hlen | hlen
    · exact .inl (eq_nil_of_length_eq_zero hlen)
    · rw [hlen] at all
      exact .inr ⟨c, rfl, all⟩

/-- The end of `BreakCallBack`: nobody but the client holds a callback. -/
theorem nuke (mem : e ∈ s.hashTable) (free : s.checkLock e.addr = false) (client : Option Host) :
    Counted (s.nuke client e) ∧ Keeps noOne s (s.nuke client e) ∧
      ∀ c ∈ (s.nuke client e).holders e.theFid, some c = client := by
  rw [Server.nuke]
  rcases h.good_cases mem client with hgood | ⟨c, rfl, hgood⟩
  · rw [hgood]
    refine ⟨h.remove mem, keeps_delete rfl rfl mem free, fun c hc => ?_⟩
    rw [holders] at hc
    split at hc
    · next x hfind =>
      obtain ⟨hx, hfid⟩ := findEntry_some hfind
      obtain ⟨hx, hne⟩ := (mem_deleteFileStruct (s := s.freeCBEs _ _) mem).mp hx
      exact absurd (congrArg _ (h.eq_of_fid mem hx hfid)) hne
    · cases hc
  · have present : some c ∈ e.callBacks := by
      have : some c ∈ [some c] := (.head _)
      rw [← hgood] at this
      exact (mem_filter.mp this).1
    have hpos : 0 < e.callBacks.length := length_pos_of_mem present
    rw [hgood]
    refine and_assoc.mp ⟨h.write mem (f := fun e => { e with users := 1, callBacks := [some c] })
      rfl rfl rfl (nodup_singleton c) ?_ ?_ fun d hd => .inl ?_, fun d hd => ?_⟩
    · simp
      omega
    · split <;> simp
      omega
    · rwa [mem_singleton.mp hd]
    · rw [holders] at hd
      split at hd
      · next x hfind =>
        obtain ⟨hx, hfid⟩ := findEntry_some hfind
        obtain ⟨y, hy, rfl⟩ := mem_update.mp hx
        split at hfid
        · next heq =>
          rw [if_pos heq] at hd
          rw [mem_singleton.mp hd]
        · next hne => exact absurd (congrArg _ (h.eq_of_fid mem hy hfid)) hne
      · cases hd

theorem entryAt_eq (mem : e ∈ s.hashTable) : s.entryAt e.addr = some e := by
  cases hat : s.entryAt e.addr with
  | none => exact absurd rfl (entryAt_none hat mem)
  | some x =>
    obtain ⟨hx, heq⟩ := entryAt_some hat
    rw [h.eq_of_addr mem hx heq]

end Counted

end Functions

/-! ### The threads -/

/-- The table is counted, and every client with a callback has a connection. -/
structure Sound (w : World) : Prop where
  counted : Counted w.server
  connected : ∀ a client, w.server.HoldsAt a client → w.id client = true

/-- What the other threads may do while a thread waits: a client that had a connection still has one
or was cleaned up. -/
structure Ahead (new : Host → Prop) (w w' : World) : Prop where
  server : Keeps new w.server w'.server
  cleaned : ∀ client, w.cleaned client ≤ w'.cleaned client
  id : ∀ client, w.id client = true →
    w'.id client = true ∨ w.cleaned client < w'.cleaned client

/-- A thread that has the lock of its file entry. -/
structure Breaking (w : World) (t : Tid) (b : Break) : Prop where
  lock : w.server.cblock b.tf = some t
  entry : ∃ e ∈ w.server.hashTable, e.addr = b.tf ∧ e.theFid = b.fid
  since : ∀ client, b.since client ≤ w.cleaned client
  helist : ∀ client ∈ b.helist, w.id client = true ∨ b.since client < w.cleaned client
  held : ∀ client ∈ b.held, client ∈ b.helist ∨ client ∈ b.locked ∨
    b.since client < w.cleaned client
  calling : b.phase = .calling → b.helist = []

/-- The invariant, except for what concerns the thread `t`. -/
structure Rest (t : Tid) (w : World) : Prop where
  sound : Sound w
  others : ∀ t' b, t' ≠ t → w.breaks t' = some b → b.phase ≠ .obtaining → Breaking w t' b
  returned : ∀ r ∈ w.returned, r.Kept

structure Inv (w : World) : Prop where
  sound : Sound w
  threads : ∀ t b, w.breaks t = some b → b.phase ≠ .obtaining → Breaking w t b
  returned : ∀ r ∈ w.returned, r.Kept

theorem Inv.rest {w : World} (inv : Inv w) (t : Tid) : Rest t w :=
  ⟨inv.sound, fun t' b _ => inv.threads t' b, inv.returned⟩

section Threads

variable {w w' : World} {t : Tid} {b : Break} {new : Host → Prop}

theorem Ahead.refl (new : Host → Prop) (w : World) : Ahead new w w :=
  ⟨.refl _ _, fun _ => Nat.le_refl _, fun _ h => .inl h⟩

theorem Ahead.trans {w'' : World} (h : Ahead new w w') (h' : Ahead new w' w'') :
    Ahead new w w'' where
  server := h.server.trans h'.server
  cleaned client := Nat.le_trans (h.cleaned client) (h'.cleaned client)
  id := by
    intro client hid
    rcases h.id client hid with hid | hlt
    · rcases h'.id client hid with hid | hlt
      · exact .inl hid
      · exact .inr (Nat.lt_of_le_of_lt (h.cleaned client) hlt)
    · exact .inr (Nat.lt_of_lt_of_le hlt (h'.cleaned client))

/-- Only what the table and the clients do not see has changed. -/
theorem Ahead.of_same (server : w'.server = w.server) (id : w'.id = w.id)
    (cleaned : w'.cleaned = w.cleaned) : Ahead noOne w w' :=
  ⟨server ▸ .refl _ _, fun _ => cleaned ▸ Nat.le_refl _, fun _ h => .inl (id ▸ h)⟩

variable {s : Server}

/-- A function on the table, while the clients stay as they are. -/
theorem Ahead.of_keeps (h : Keeps new w.server s) : Ahead new w { w with server := s } :=
  ⟨h, fun _ => Nat.le_refl _, fun _ hid => .inl hid⟩

theorem Breaking.ahead (h : Breaking w t b) (step : Ahead new w w') : Breaking w' t b where
  lock := by
    rw [step.server.cblock]
    exact h.lock
  entry := by
    obtain ⟨e, he, haddr, hfid⟩ := h.entry
    have hlock : w.server.checkLock e.addr = true := by
      rw [checkLock, haddr, h.lock]
      rfl
    obtain ⟨e', he', haddr', hfid'⟩ := step.server.stays e he hlock
    exact ⟨e', he', haddr'.trans haddr, hfid'.trans hfid⟩
  since client := Nat.le_trans (h.since client) (step.cleaned client)
  helist := by
    intro client hmem
    rcases h.helist client hmem with hid | hlt
    · rcases step.id client hid with hid | hlt
      · exact .inl hid
      · exact .inr (Nat.lt_of_le_of_lt (h.since client) hlt)
    · exact .inr (Nat.lt_of_lt_of_le hlt (step.cleaned client))
  held := by
    intro client hmem
    rcases h.held client hmem with hhe | hlocked | hlt
    · exact .inl hhe
    · exact .inr (.inl hlocked)
    · exact .inr (.inr (Nat.lt_of_lt_of_le hlt (step.cleaned client)))
  calling := h.calling

/-- The lock of another entry is taken or released. -/
theorem Breaking.setCblock (h : Breaking w t b) {a : Nat} (apart : b.tf ≠ a) (o : Option Tid) :
    Breaking (w.setCblock a o) t b :=
  ⟨(update_of_ne apart _ _).trans h.lock, h.entry, h.since, h.helist, h.held, h.calling⟩

theorem Sound.setCblock (h : Sound w) (a : Nat) (o : Option Tid) : Sound (w.setCblock a o) := by
  obtain ⟨counted, connected⟩ := h
  exact ⟨{ counted with }, connected⟩

theorem Sound.of_keeps (h : Sound w) (counted : Counted s) (keeps : Keeps noOne w.server s) :
    Sound { w with server := s } :=
  ⟨counted, fun a client held => h.connected a client (keeps.holdsAt held)⟩

theorem Sound.cleanUpHost (h : Sound w) (client : Host) :
    Sound (w.cleanUpHost client) ∧ Ahead noOne w (w.cleanUpHost client) := by
  obtain ⟨counted, keeps, gone⟩ := h.counted.deleteVenus client
  refine ⟨⟨counted, fun a c held => ?_⟩, keeps, fun c => ?_, fun c hid => ?_⟩
  · by_cases heq : c = client
    · subst heq
      exact absurd held (gone a)
    · exact (update_of_ne heq _ _).trans (h.connected a c (keeps.holdsAt held))
  · change _ ≤ update w.cleaned client (w.cleaned client + 1) c
    by_cases heq : c = client
    · subst heq
      rw [update_self]
      exact Nat.le_succ _
    · rewrite [update_of_ne heq]
      exact Nat.le_refl _
  · by_cases heq : c = client
    · subst heq
      refine .inr ?_
      change _ < update w.cleaned c (w.cleaned c + 1) c
      rw [update_self]
      exact Nat.lt_succ_self _
    · exact .inl ((update_of_ne heq _ _).trans hid)

theorem Sound.answered (h : Sound w) (fid : ViceFid) (failed : List Host) (client : Host) :
    Sound (w.answered fid failed client) ∧ Ahead noOne w (w.answered fid failed client) := by
  have volume : ∀ w₁, w₁ = (if fid.isVolume then w
      else { w with server := w.server.deleteCallBack client fid.vFid }) →
      Sound w₁ ∧ Ahead noOne w w₁ := by
    rintro w₁ rfl
    split
    · exact ⟨h, .refl _ _⟩
    · obtain ⟨counted, keeps⟩ := h.counted.deleteCallBack client fid.vFid
      exact ⟨h.of_keeps counted keeps, .of_keeps keeps⟩
  have cleanUp : ∀ w₁ w₂, Sound w₁ → w₂ = (if client ∈ failed then w₁.cleanUpHost client else w₁) →
      Sound w₂ ∧ Ahead noOne w₁ w₂ := by
    rintro w₁ w₂ h₁ rfl
    split
    · exact h₁.cleanUpHost client
    · exact ⟨h₁, .refl _ _⟩
  obtain ⟨h₁, ahead₁⟩ := volume _ rfl
  obtain ⟨h₂, ahead₂⟩ := cleanUp _ _ h₁ rfl
  have ahead := ahead₁.trans ahead₂
  exact ⟨⟨h₂.counted, h₂.connected⟩, ⟨ahead.server, ahead.cleaned, ahead.id⟩⟩

theorem answered_same (fid : ViceFid) (failed : List Host) (w : World) (client : Host) :
    (w.answered fid failed client).breaks = w.breaks ∧
      (w.answered fid failed client).returned = w.returned := by
  simp only [answered, setHostLock]
  split <;> split <;> exact ⟨rfl, rfl⟩

theorem Sound.allAnswered (h : Sound w) (fid : ViceFid) (failed hosts : List Host) :
    let w' := hosts.foldl (World.answered fid failed) w
    Sound w' ∧ Ahead noOne w w' ∧ w'.breaks = w.breaks ∧ w'.returned = w.returned := by
  induction hosts generalizing w with
  | nil => exact ⟨h, .refl _ _, rfl, rfl⟩
  | cons client hosts ih =>
    obtain ⟨h₁, ahead₁⟩ := h.answered fid failed client
    obtain ⟨hbreaks, hreturned⟩ := answered_same fid failed w client
    obtain ⟨h₂, ahead₂, hbreaks₂, hreturned₂⟩ := ih h₁
    exact ⟨h₂, ahead₁.trans ahead₂, hbreaks₂.trans hbreaks, hreturned₂.trans hreturned⟩

/-- A step that leaves the threads where they are. -/
theorem Inv.ahead (inv : Inv w) (sound : Sound w') (step : Ahead new w w')
    (breaks : w'.breaks = w.breaks) (returned : w'.returned = w.returned) : Inv w' where
  sound := sound
  threads t b hb hphase := (inv.threads t b (breaks ▸ hb) hphase).ahead step
  returned := returned ▸ inv.returned

theorem Rest.setBreak (rest : Rest t w) {o : Option Break}
    (own : ∀ b, o = some b → b.phase ≠ .obtaining → Breaking w t b) : Inv (w.setBreak t o) where
  sound := ⟨rest.sound.counted, rest.sound.connected⟩
  threads := by
    intro t' b hb hphase
    have step : Ahead noOne w (w.setBreak t o) := .of_same rfl rfl rfl
    by_cases heq : t' = t
    · subst heq
      change update w.breaks t' o t' = some b at hb
      rw [update_self] at hb
      exact (own b hb hphase).ahead step
    · have hb' : w.breaks t' = some b := (update_of_ne heq _ _).symm.trans hb
      exact (rest.others t' b heq hb' hphase).ahead step
  returned := rest.returned

/-- `BreakCallBack` returns. -/
theorem Rest.finish (rest : Rest t w) (own : Breaking w t b) (locked : b.helist = [])
    (failed : List Host) : Inv (w.finish t b failed) := by
  obtain ⟨sound₁, ahead₁, hbreaks, hreturned⟩ := rest.sound.allAnswered b.fid failed b.locked
  unfold World.finish
  set w₁ := b.locked.foldl (answered b.fid failed) w
  have own₁ := own.ahead ahead₁
  obtain ⟨e, mem, haddr, hfid⟩ := own₁.entry
  have sound₂ := sound₁.setCblock b.tf none
  have free : (w₁.setCblock b.tf none).server.checkLock e.addr = false := by
    rw [haddr]
    change (update w₁.server.cblock b.tf none b.tf).isSome = false
    rw [update_self]
    rfl
  have hat : (w₁.setCblock b.tf none).server.entryAt b.tf = some e :=
    haddr ▸ sound₂.counted.entryAt_eq mem
  obtain ⟨counted, keeps, only⟩ := sound₂.counted.nuke mem free b.client
  rw [hfid] at only
  simp only [hat]
  have rest₃ : Rest t
      { w₁.setCblock b.tf none with
        server := (w₁.setCblock b.tf none).server.nuke b.client e } := by
    refine ⟨sound₂.of_keeps counted keeps, fun t' b' hne hb' hphase => ?_, ?_⟩
    · have other := (rest.others t' b' hne (hbreaks ▸ hb') hphase).ahead ahead₁
      have apart : b'.tf ≠ b.tf := by
        intro heq
        have hlock := other.lock
        rw [heq, own₁.lock] at hlock
        exact hne (Option.some.inj hlock).symm
      exact (other.setCblock apart none).ahead (.of_keeps keeps)
    · exact fun r hr => rest.returned r (hreturned ▸ hr)
  have inv := rest₃.setBreak (o := none) fun _ h => nomatch h
  refine ⟨⟨inv.sound.counted, inv.sound.connected⟩, fun t' b' hb' hphase => ?_, fun r hr => ?_⟩
  · exact (inv.threads t' b' hb' hphase).ahead (.of_same rfl rfl rfl)
  · rcases mem_cons.mp hr with rfl | hr
    · refine ⟨fun client hheld => ?_, only⟩
      rcases own₁.held client hheld with hhe | hsent | hlt
      · rw [locked] at hhe
        cases hhe
      · exact .inl hsent
      · exact .inr (mem_filter.mpr ⟨hheld, decide_eq_true hlt⟩)
    · exact inv.returned r hr

theorem Rest.goOn (rest : Rest t w) (own : Breaking w t b) : Inv (w.goOn t b) := by
  rw [World.goOn]
  split
  · refine rest.setBreak fun b' hb' _ => ?_
    cases hb'
    exact own
  · next hlocked =>
    have hnil : b.helist = [] := not_not.mp hlocked
    split
    · refine rest.setBreak fun b' hb' _ => ?_
      cases hb'
      exact { own with calling := fun _ => hnil }
    · exact rest.finish own hnil []

/-- `BreakCallBack` obtains the entry: all the clients in its list have a connection. -/
theorem Rest.obtain (rest : Rest t w) (waits : b.phase = .obtaining) : Inv (w.obtain t b) := by
  have gone : Inv (w.setBreak t none) := rest.setBreak fun _ h => nomatch h
  rw [World.obtain]
  split
  · refine rest.setBreak fun b' hb' hphase => ?_
    cases hb'
    exact absurd waits hphase
  · next hlock =>
    have hfree : w.server.cblock b.tf = none := by
      rw [checkLock, Bool.not_eq_true, Option.isSome_eq_false_iff, Option.isNone_iff_eq_none]
        at hlock
      exact hlock
    split
    · next e hfind =>
      obtain ⟨mem, hfid⟩ := findEntry_some hfind
      split
      · next haddr =>
        have rest' : Rest t (w.setCblock b.tf (some t)) := by
          refine ⟨rest.sound.setCblock _ _, fun t' b' hne hb' hphase => ?_, rest.returned⟩
          have other := rest.others t' b' hne hb' hphase
          refine other.setCblock (fun heq => ?_) _
          have hlock' := other.lock
          rw [heq, hfree] at hlock'
          cases hlock'
        refine rest'.goOn ⟨?_, ⟨e, mem, haddr, hfid⟩, fun _ => Nat.le_refl _, ?_, ?_, ?_⟩
        · exact update_self _ _ _
        · intro client hmem
          have hconn := (mem_filter.mp (reduceOption_mem_iff.mp hmem)).1
          exact .inl (rest.sound.connected e.addr client ⟨e, mem, rfl, hconn⟩)
        · exact fun client hmem => .inl hmem
        · exact nofun
      · exact gone
    · exact gone

theorem mem_eraseIdx_or {l : List Host} {k : Nat} {client c : Host} (hk : l[k]? = some client)
    (mem : c ∈ l) : c = client ∨ c ∈ l.eraseIdx k := by
  obtain ⟨hlt, rfl⟩ := List.getElem?_eq_some_iff.mp hk
  have perm := getElem_cons_eraseIdx_perm hlt
  exact mem_cons.mp (perm.mem_iff.mpr mem)

/-- `BreakCallBack` gets the lock of a client: one that has no connection any more was cleaned
up. -/
theorem Inv.lockClient (inv : Inv w) (hb : w.breaks t = some b) (hphase : b.phase = .locking)
    {k : Nat} (run : w.lockClient t b k = some w') : Inv w' := by
  have own := inv.threads t b hb (by rw [hphase]; exact nofun)
  have hcalling : b.phase ≠ .calling := by
    rw [hphase]
    exact nofun
  rw [World.lockClient] at run
  split at run
  · cases run
  · next client hk =>
    -- whatever becomes of this client, the others stay where they are
    have keeps : ∀ locked, (∀ c ∈ b.locked, c ∈ locked) → (client ∈ locked ∨
        b.since client < w.cleaned client) →
        Breaking w t { b with helist := b.helist.eraseIdx k, locked := locked } := by
      intro locked hlocked hclient
      refine { own with
        helist := fun c hc => own.helist c (mem_of_mem_eraseIdx hc)
        held := fun c hc => ?_
        calling := fun h => absurd h hcalling }
      rcases own.held c hc with hhe | hin | hlt
      · rcases mem_eraseIdx_or hk hhe with rfl | hhe
        · exact .inr hclient
        · exact .inl hhe
      · exact .inr (.inl (hlocked c hin))
      · exact .inr (.inr hlt)
    split at run
    · cases run
    · split at run
      · cases run
        have rest : Rest t (w.setHostLock client (some (.breaker t))) := by
          refine ⟨⟨inv.sound.counted, inv.sound.connected⟩, fun t' b' _ hb' hphase' => ?_,
            inv.returned⟩
          exact (inv.threads t' b' hb' hphase').ahead (.of_same rfl rfl rfl)
        have own' := keeps (client :: b.locked) (fun c => mem_cons_of_mem _)
          (.inl (.head _))
        exact rest.goOn (own'.ahead (.of_same rfl rfl rfl))
      · next hid =>
        cases run
        have gone := (own.helist client (mem_of_getElem? hk)).resolve_left hid
        exact (inv.rest t).goOn (keeps b.locked (fun _ => id) (.inr gone))

theorem Inv.unlocked (inv : Inv w) (client : Host) {outcome : Outcome}
    (kept : outcome ≠ .unbound) : Inv (unlocked w client outcome) := by
  cases outcome with
  | keep => exact inv
  | bound =>
    have bound : ∀ c, w.id c = true → update w.id client true c = true := by
      intro c hc
      by_cases heq : c = client
      · rw [heq]
        exact update_self _ _ _
      · rw [update_of_ne heq]
        exact hc
    have step : Ahead noOne w { w with id := update w.id client true } :=
      ⟨.refl _ _, fun _ => Nat.le_refl _, fun c hc => .inl (bound c hc)⟩
    refine inv.ahead ⟨inv.sound.counted, fun a c held => ?_⟩ step rfl rfl
    exact bound c (inv.sound.connected a c held)
  | cleanedUp =>
    obtain ⟨sound, ahead⟩ := inv.sound.cleanUpHost client
    exact inv.ahead sound ahead rfl rfl
  | unbound => exact absurd rfl kept

/-- Somebody takes or releases the lock of a client. -/
theorem Inv.setHostLock (inv : Inv w) (client : Host) (o : Option Owner) :
    Inv (w.setHostLock client o) :=
  inv.ahead ⟨inv.sound.counted, inv.sound.connected⟩ (.of_same rfl rfl rfl) rfl rfl

/-- A function that takes callbacks away. -/
theorem Inv.of_keeps (inv : Inv w) (h : Counted s ∧ Keeps noOne w.server s) :
    Inv { w with server := s } :=
  inv.ahead (inv.sound.of_keeps h.1 h.2) (.of_keeps h.2) rfl rfl

theorem Inv.step (inv : Inv w) {a : Event} (conn : Connected w a) (run : step w a = some w') :
    Inv w' := by
  cases a with
  | addCallBack client fid =>
    cases run
    obtain ⟨counted, keeps⟩ := inv.sound.counted.addCallBack client fid
    refine inv.ahead ⟨counted, fun a c held => ?_⟩ (.of_keeps keeps) rfl rfl
    rcases keeps.origin a c held with held | rfl
    · exact inv.sound.connected a c held
    · exact conn
  | deleteCallBack client fid =>
    cases run
    exact inv.of_keeps (inv.sound.counted.deleteCallBack client fid)
  | deleteVenus client =>
    cases run
    obtain ⟨counted, keeps, -⟩ := inv.sound.counted.deleteVenus client
    exact inv.of_keeps ⟨counted, keeps⟩
  | deleteFile fid =>
    cases run
    exact inv.of_keeps (inv.sound.counted.deleteFile fid)
  | breakCallBack t client fid =>
    rw [Callback.step] at run
    split at run
    · cases run
    · split at run
      · cases run
        exact inv
      · cases run
        exact (inv.rest t).obtain rfl
  | run t k =>
    rw [Callback.step] at run
    split at run
    · cases run
    · next b hb =>
      split at run
      · next hphase =>
        cases run
        exact (inv.rest t).obtain hphase
      · next hphase => exact inv.lockClient hb hphase run
      · cases run
  | answer t failed =>
    rw [Callback.step] at run
    split at run
    · cases run
    · next b hb =>
      obtain ⟨hphase, ⟨⟩⟩ := Option.ite_none_right_eq_some.mp run
      have own := inv.threads t b hb (by rw [hphase]; exact nofun)
      exact (inv.rest t).finish own (own.calling hphase) failed
  | lockHost client =>
    rw [Callback.step] at run
    split at run
    · cases run
    · cases run
      exact inv.setHostLock client _
  | unlockHost client outcome =>
    obtain ⟨-, ⟨⟩⟩ := Option.ite_none_right_eq_some.mp run
    exact (inv.unlocked client conn).setHostLock client none

theorem inv_start : Inv start where
  sound :=
    { counted := ⟨nodup_nil, nofun, nodup_nil, nofun, nofun, rfl, rfl, rfl, rfl⟩
      connected := by
        rintro a client ⟨e, he, -⟩
        cases he }
  threads := nofun
  returned := nofun

theorem Inv.safe (inv : Inv w) : Safe w :=
  ⟨inv.returned, inv.sound.counted.users, inv.sound.counted.fes, inv.sound.counted.ves,
    inv.sound.counted.cbes, inv.sound.counted.vcbes⟩

end Threads

/-! ### Every run -/

/-- In every run that adds callbacks only for clients with a callback connection, and gives up a
connection only by cleaning up its client, a break that returns has reached every other holder, and
the counters agree with the table. -/
theorem callbacks_safe (as : List Event) (connected : Guarded step Connected start as) :
    Always step Safe start as :=
  always_of_guarded (fun _ _ _ inv conn run => Inv.step inv conn run) (fun _ inv => inv.safe)
    inv_start connected

/-- A client connects and gets a callback, which is broken. -/
theorem callbacks_safe_broken : Always step Safe start
    [.lockHost 1, .unlockHost 1 .bound, .addCallBack 1 ⟨7, 2, 2⟩, .breakCallBack 5 none ⟨7, 2, 2⟩,
      .run 5 0, .answer 5 [1]] :=
  callbacks_safe _ (by decide +kernel)

/-- A client that has no callback connection gets a callback from `AddCallBack`. `BreakCallBack`
passes over it, and returns without having sent it anything or cleaned it up. -/
theorem unconnected_not_told : ¬ Always step Safe start
    [.addCallBack 1 ⟨7, 2, 2⟩, .breakCallBack 5 (some 2) ⟨7, 2, 2⟩, .run 5 0] := by
  intro always
  have safe := always.reached rfl
  have kept : ∀ r ∈ [(⟨some 2, [1], [], [], []⟩ : Return)], r.Kept := safe.returned
  exact absurd (kept _ (.head _)) (by decide)

end Coda.Vice.Callback
