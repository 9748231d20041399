import Coda.Rwcdb.Dump

/-!
`write_hashchains`, and the layout of a file it makes: 256 headers, the records, and the
tables that the headers point to.

A slot counts as free while the hash in it is 0. So the record of a key that hashes to 0
keeps its slot only if no other record of its table comes after it.
-/

namespace Coda.Rwcdb

open Coda.Lib Coda.Lib.Probe List

/-- A slot as `write_hashchains` tests it. -/
def busy (t : Nat × Nat) : Bool := t.1 ≠ 0

/-- The slot where probing starts, before it is reduced to the table. -/
def home (hash : BitVec 32) : Nat := (hash >>> 8).toNat

/-- A key with hash 0 shares its table with no other key. -/
def Alone (R : List Record) : Prop :=
  ∀ r ∈ R, ∀ r' ∈ R, cdbHash r.1 = 0#32 → slot (cdbHash r'.1) = slot 0#32 → r'.1 = r.1

def encodeTable (h : List (Nat × Nat)) : Bytes := h.flatMap fun t => packints t.1 t.2

theorem length_encodeTable (h : List (Nat × Nat)) : (encodeTable h).length = 8 * h.length :=
  length_flatMap_width (f := fun t : Nat × Nat => packints t.1 t.2) (fun _ => rfl) h

/-! ### One table -/

/-- The table of the records whose hash has low byte `i`. -/
structure Chain (R : List Record) (i : BitVec 8) (h : List (Nat × Nat)) : Prop where
  slots : ∀ (s : Nat) (x : Nat × Nat), h[s]? = some x → x = (0, 0) ∨
    ∃ r p, RecordAt R p r ∧ slot (cdbHash r.1) = i ∧ x = ((cdbHash r.1).toNat, p)
  placed : ∀ r p, RecordAt R p r → slot (cdbHash r.1) = i → ∃ j, Path busy h (home (cdbHash r.1)) j ∧
    h[(home (cdbHash r.1) + j) % h.length]? = some ((cdbHash r.1).toNat, p)
  free : h.length = 0 ∨ ∃ s : Nat, s < h.length ∧ h[s]? = some (0, 0)

theorem map_fst_locate (p : Nat) (R : List Record) : (locate p R).map Prod.fst = R := by
  induction R generalizing p with
  | nil => rfl
  | cons r R ih => rw [locate, map_cons, ih]

theorem length_le_one_of_forall_eq {α : Type*} {l : List α} {a : α} (nodup : l.Nodup)
    (h : ∀ x ∈ l, x = a) : l.length ≤ 1 := by
  cases l with
  | nil => exact Nat.zero_le 1
  | cons x l =>
    cases l with
    | nil => exact Nat.le_refl 1
    | cons y l =>
      have hx := h x (.head _)
      have hy := h y (mem_cons_of_mem x (.head _))
      rw [nodup_cons] at nodup
      exact absurd (by rw [hx, hy]; exact (.head _)) nodup.1

/-- Two entries of one table, one of them with hash 0, would be records of two keys. -/
theorem Alone.length_le {R : List Record} (alone : Alone R) (nodup : (R.map Prod.fst).Nodup)
    {e : BitVec 32 × Nat} (he : e ∈ entries R) (hzero : e.1 = 0#32) :
    ((entries R).filter fun e' => slot e'.1 = slot 0#32).length ≤ 1 := by
  obtain ⟨r, hr, hhash⟩ := mem_entries.mp he
  rw [entries, filter_map, length_map,
    ← length_map (f := fun x : Record × Nat => x.1.1)]
  refine length_le_one_of_forall_eq (a := r.1) ?_ fun k hk => ?_
  · refine List.Nodup.sublist (filter_sublist.map _) ?_
    rwa [show (fun x : Record × Nat => x.1.1) = Prod.fst ∘ Prod.fst from rfl, ← map_map,
      map_fst_locate]
  · obtain ⟨⟨r', p⟩, hmem, rfl⟩ := mem_map.mp hk
    obtain ⟨hmem, hslot⟩ := mem_filter.mp hmem
    exact alone r hr.mem r' (mem_locate.mp hmem).mem (hhash.symm.trans hzero) (of_decide_eq_true hslot)

theorem hashChain_spec {R : List Record} (alone : Alone R) (nodup : (R.map Prod.fst).Nodup)
    {i : BitVec 8} {ws : List WrEntry}
    (perm : (ws.map fun w => (w.hash, w.pos)).Perm ((entries R).filter fun e => slot e.1 = i)) :
    ∃ h, hashChain (ws.length * 2) ws = some h ∧ h.length = ws.length * 2 ∧ Chain R i h := by
  have mem : ∀ {hash p}, (∃ w ∈ ws, w.hash = hash ∧ w.pos = p) ↔
      slot hash = i ∧ ∃ r, RecordAt R p r ∧ hash = cdbHash r.1 := by
    intro hash p
    have := perm.mem_iff (a := (hash, p))
    rw [mem_filter, mem_entries, decide_eq_true_iff, and_comm] at this
    rw [← this, mem_map]
    simp only [Prod.mk.injEq]
  obtain ⟨h, run, holds, placed⟩ := Holds.insertAll (fun w : WrEntry => home w.hash) ws
    (show busy (0, 0) = false from rfl)
    (holds_replicate (0, 0) (fun w : WrEntry => (w.hash.toNat, w.pos)) (ws.length * 2)) (by rw [length_nil]; omega)
  rw [nil_append] at holds placed
  have hbusy : ∀ w ∈ ws.dropLast, busy (w.hash.toNat, w.pos) = true := by
    intro w hw
    by_contra hfree
    have hzero : w.hash = 0#32 := by
      rw [busy, decide_eq_true_iff, not_not] at hfree
      exact BitVec.eq_of_toNat_eq hfree
    obtain ⟨hslot, r, hr, hhash⟩ := mem.mp ⟨w, dropLast_subset ws hw, rfl, rfl⟩
    have hle := alone.length_le (e := (w.hash, w.pos)) nodup (mem_entries.mpr ⟨r, hr, hhash⟩) hzero
    rw [← hzero, hslot, ← perm.length_eq, length_map] at hle
    have hlt := length_pos_of_mem hw
    rw [length_dropLast] at hlt
    omega
  have placed := placed nofun hbusy
  refine ⟨h, run, holds.length, ?_, ?_, ?_⟩
  · intro s x hs
    rcases holds.slots s x hs with hx | ⟨w, hw, rfl⟩
    · exact .inl hx
    · obtain ⟨hslot, r, hr, hhash⟩ := mem.mp ⟨w, hw, rfl, rfl⟩
      rw [hhash] at hslot ⊢
      exact .inr ⟨r, w.pos, hr, hslot, rfl⟩
  · intro r p hr hslot
    obtain ⟨w, hw, hhash, rfl⟩ := mem.mpr ⟨hslot, r, hr, rfl⟩
    obtain ⟨j, path, hj⟩ := placed w hw
    dsimp only at path hj
    rw [hhash] at path hj
    exact ⟨j, path, hj⟩
  · rcases Nat.eq_zero_or_pos ws.length with hzero | hpos
    · left
      rw [holds.length, hzero]
    · right
      rw [holds.length]
      exact holds.exists_empty (by omega)

/-! ### All tables -/

theorem sum_map_ite_eq_count {α : Type*} [DecidableEq α] (a : α) (l : List α) :
    (l.map fun i => if a = i then 1 else 0).sum = l.count a := by
  induction l with
  | nil => rfl
  | cons b l ih =>
    rw [map_cons, sum_cons, ih, count_cons, add_comm]
    by_cases hab : a = b
    · rw [if_pos hab, if_pos (beq_iff_eq.mpr hab.symm)]
    · rw [if_neg hab, if_neg (fun h => hab (beq_iff_eq.mp h).symm)]

/-- Every entry is in one table. -/
theorem sum_length_tables (es : List (BitVec 32 × Nat)) :
    (tables.map fun i => (es.filter fun e => slot e.1 = i).length).sum = es.length := by
  induction es with
  | nil => simp only [filter_nil, length_nil, map_const', sum_replicate,
      nsmul_zero]
  | cons e es ih =>
    have hcons : ∀ i, ((e :: es).filter fun e => slot e.1 = i).length =
        (if slot e.1 = i then 1 else 0) + (es.filter fun e => slot e.1 = i).length := by
      intro i
      by_cases hi : slot e.1 = i
      · rw [if_pos hi, filter_cons_of_pos (by simpa using hi), length_cons, add_comm]
      · rw [if_neg hi, filter_cons_of_neg (by simpa using hi), zero_add]
    simp only [hcons]
    rw [sum_map_add, ih, sum_map_ite_eq_count,
      count_eq_one_of_mem nodup_tables (mem_tables _), length_cons, add_comm]

section Layout

variable {c : Db} {wf : OutFile} {hs : BitVec 8 → List (Nat × Nat)} {R : List Record}

theorem writeTable_spec {i : BitVec 8} (ok : wf.OK)
    (chain : hashChain (c.hlens i * 2) (c.added i) = some (hs i))
    (hlen : (hs i).length = c.hlens i * 2) :
    ∃ wf', writeTable c i wf = some wf' ∧ wf'.OK ∧
      wf'.content = wf.content ++ encodeTable (hs i) := by
  unfold writeTable
  by_cases hzero : c.hlens i * 2 = 0
  · rw [if_pos hzero]
    rw [hzero, length_eq_zero_iff] at hlen
    rw [hlen]
    exact ⟨wf, rfl, ok, (append_nil _).symm⟩
  · rw [if_neg hzero, chain]
    obtain ⟨ok', content'⟩ := dbFileWrite_spec ok (encodeTable (hs i))
    exact ⟨_, rfl, ok', content'⟩

theorem writeTables_spec
    (chains : ∀ i, hashChain (c.hlens i * 2) (c.added i) = some (hs i) ∧
      (hs i).length = c.hlens i * 2) (is : List (BitVec 8)) (ok : wf.OK) :
    ∃ hoffs wf' T, writeTables c is wf = some (hoffs, wf') ∧ wf'.content = wf.content ++ T ∧
      T.length = (is.map fun i => 8 * (hs i).length).sum ∧ hoffs.length = is.length ∧
      ∀ n i, is[n]? = some i → ∃ p, hoffs[n]? = some (2048 + p) ∧ wf.content.length ≤ p ∧
        (n = 0 → p = wf.content.length) ∧ Slice wf'.content p (encodeTable (hs i)) := by
  induction is generalizing wf with
  | nil =>
    refine ⟨[], wf, [], rfl, (append_nil _).symm, rfl, rfl, fun n i hi => ?_⟩
    exact absurd hi (Option.some_ne_none i).symm
  | cons i is ih =>
    obtain ⟨wf₁, run₁, ok₁, content₁⟩ := writeTable_spec ok (chains i).1 (chains i).2
    obtain ⟨hoffs, wf', T, run, content, hT, hlen, slots⟩ := ih ok₁
    rw [content₁] at content slots
    refine ⟨wf.pos :: hoffs, wf', encodeTable (hs i) ++ T, ?_, ?_, ?_, ?_, fun n i' hi => ?_⟩
    · rw [writeTables, run₁, Option.bind_eq_bind, Option.bind_some, run]
      rfl
    · rw [content, append_assoc]
    · rw [length_append, length_encodeTable, hT, map_cons, sum_cons]
    · rw [length_cons, hlen, length_cons]
    · cases n with
      | zero =>
        obtain rfl : i = i' := by simpa using hi
        refine ⟨wf.content.length, ?_, Nat.le_refl _, fun _ => rfl, ?_⟩
        · rw [List.getElem?_cons_zero, ok.pos]
        · rw [content]
          exact (slice_append_left _ _).append T
      | succ n =>
        obtain ⟨p, hoff, hle, -, slice⟩ := slots n i' hi
        rw [length_append] at hle
        exact ⟨p, hoff, by omega, fun h => absurd h (Nat.succ_ne_zero n), slice⟩

/-- Table `i` of a file, and the header that locates it. -/
structure Table (f : DbFile) (R : List Record) (i : BitVec 8) (hpos : Nat) (h : List (Nat × Nat)) :
    Prop where
  header : Slice f.bytes (i.toNat * 8) (packints hpos h.length)
  table : Slice f.bytes hpos (encodeTable h)
  pos : f.eod ≤ hpos
  chain : Chain R i h

/-- A file that `rwcdb_sync` has written and opened. -/
structure Synced (f : DbFile) (R : List Record) : Prop where
  disk : Disk f R
  settled : Settled f R
  tables : ∀ i, ∃ hpos h, Table f R i hpos h

theorem dbFileOpen_spec {bytes : Bytes} {a b : Nat} (h : Slice bytes 0 (packints a b))
    (ha : a < 4294967296) (hb : b < 4294967296) :
    (dbFileOpen bytes).bytes = bytes ∧ (dbFileOpen bytes).eod = a ∧
    ∀ R, Settled (dbFileOpen bytes) R := by
  have hle := h.le
  rw [length_packints] at hle
  unfold dbFileOpen
  rw [if_neg (by omega)]
  have hread := dbReadints_slice
    (f := { bytes := bytes, pos := 0, eod := 2048, cachePos := bytes.length, cacheLen := 0 }) h ha hb
  rw [hread]
  refine ⟨touch_bytes _ _ _, rfl, fun R => ?_⟩
  refine settled_touch_header _ _ (fun p r _ => ?_)
    (by decide : 0 + 8 ≤ 2048)
  rw [cached_eq_false]
  dsimp only
  omega

theorem writeHashchains_spec
    (chains : ∀ i, hashChain (c.hlens i * 2) (c.added i) = some (hs i) ∧
      (hs i).length = c.hlens i * 2 ∧ Chain R i (hs i))
    (ok : wf.OK) (content : wf.content = encodeAll R) (data : ∀ r ∈ R, r.2 ≠ []) :
    ∃ bytes, writeHashchains c wf = some bytes ∧
      bytes.length = 2048 + (encodeAll R).length + (tables.map fun i => 8 * (hs i).length).sum ∧
      (bytes.length < 4294967296 → Synced (dbFileOpen bytes) R) := by
  obtain ⟨hoffs, wf', T, run, content', hT, hlen, slots⟩ :=
    writeTables_spec (show ∀ i, hashChain (c.hlens i * 2) (c.added i) = some (hs i) ∧
      (hs i).length = c.hlens i * 2 from fun i => ⟨(chains i).1, (chains i).2.1⟩) tables ok
  rw [content] at content' slots
  generalize hheader : ((hoffs.zip tables).flatMap fun x => packints x.1 (c.hlens x.2 * 2)) = header
  have hheaderlen : header.length = 2048 := by
    rw [← hheader, length_flatMap_width (w := 8) (fun _ => rfl), length_zip, hlen, Nat.min_self,
      tables, length_map, length_range]
  refine ⟨header ++ wf'.content, ?_, ?_, fun hsize => ?_⟩
  · rw [writeHashchains, run, ← hheader]
    rfl
  · rw [length_append, hheaderlen, content', length_append, hT, add_assoc]
  rw [length_append, hheaderlen] at hsize
  -- table `i`, with its header
  have located : ∀ i : BitVec 8, ∃ p, (encodeAll R).length ≤ p ∧ (i = 0 → p = (encodeAll R).length) ∧
      2048 + p < 4294967296 ∧ (hs i).length < 4294967296 ∧
      Slice (header ++ wf'.content) (i.toNat * 8) (packints (2048 + p) (hs i).length) ∧
      Slice (header ++ wf'.content) (2048 + p) (encodeTable (hs i)) := by
    intro i
    have hi : tables[i.toNat]? = some i := by
      rw [tables, List.getElem?_map, List.getElem?_range i.isLt, Option.map_some, BitVec.ofNat_toNat,
        BitVec.setWidth_eq]
    obtain ⟨p, hoff, hle, hfirst, slice⟩ := slots i.toNat i hi
    have hend := slice.le
    rw [length_encodeTable] at hend
    refine ⟨p, hle, fun h => hfirst (by rw [h]; rfl), by omega, by omega, ?_, ?_⟩
    · rw [← hheader, (chains i).2.1, mul_comm]
      refine Slice.append (slice_flatMap (f := fun x : Nat × BitVec 8 => packints x.1 (c.hlens x.2 * 2))
        (fun _ => rfl) (x := (2048 + p, i)) ?_) _
      rw [List.getElem?_zip_eq_some]
      exact ⟨hoff, hi⟩
    · have := slice.prepend header
      rwa [hheaderlen] at this
  obtain ⟨p₀, -, hfirst, hlt, hlt', hslice, -⟩ := located 0
  obtain ⟨hbytes, heod, hsettled⟩ := dbFileOpen_spec hslice hlt hlt'
  rw [hfirst rfl] at heod
  refine ⟨⟨?_, heod, fun p r hr => ?_, data⟩, hsettled R, fun i => ?_⟩
  · rw [hbytes, length_append, hheaderlen]
    exact hsize
  · obtain ⟨R₁, R₂, rfl, rfl⟩ := hr
    rw [hbytes, content', encodeAll_append, encodeAll_cons, ← hheaderlen, append_assoc,
      append_assoc, ← append_assoc, ← length_append]
    exact ⟨_, _, (append_assoc _ _ _).symm, rfl⟩
  · obtain ⟨p, hle, -, -, -, hheader, htable⟩ := located i
    refine ⟨2048 + p, hs i, ?_, ?_, ?_, (chains i).2.2⟩
    · rw [hbytes]
      exact hheader
    · rw [hbytes]
      exact htable
    · rw [heod]
      omega

end Layout

end Coda.Rwcdb
