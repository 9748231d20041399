import Coda.Lib.Run
import Coda.Rwcdb.Find

/-!
The database as a map from keys to data, over sequences of its operations.

`Keeps` relates a database to the map it stands for. Every operation keeps it, except that a
sync loses a key with hash 0 when another key of its table is written after it: the slot of
the first one still looks free then.
-/

namespace Coda.Rwcdb

open Coda.Lib Coda.Lib.Probe List Option Function

/-- `rwcdb_find`, and `rwcdb_read` of what was found. -/
def lookup (c : Db) (k : Bytes) : Option (Option Bytes × Db) := do
  let (found, c) ← rwcdbFind c k
  if found then do
    let (data, c) ← rwcdbRead c c.dlen c.dpos
    return (some data, c)
  else return (none, c)

/-- The bytes of a file with the records `R`. -/
def fileSize (R : List Record) : Nat := 2048 + (encodeAll R).length + 16 * R.length

/-- `c` stands for the map `m`; the records of its file are `R`. -/
structure Keeps (m : Bytes → Option Bytes) (R : List Record) (c : Db) : Prop where
  pend : Pending c
  synced : Synced c.rf R
  nodup : (R.map Prod.fst).Nodup
  updated : ∀ k v, Update c k v → m k = v
  recorded : ∀ k, (∀ v, ¬ Update c k v) → ∀ d, m k = some d ↔ (k, d) ∈ R
  clean : c.writing = false → ∀ k v, ¬ Update c k v
  readonly : c.readonly = false

variable {c : Db} {R : List Record} {k : Bytes} {m : Bytes → Option Bytes}

/-! ### Reading -/

theorem Synced.kept {c' : Db} (synced : Synced c.rf R) (kept : Kept R c c') : Synced c'.rf R where
  disk :=
    { size := by rw [kept.bytes]; exact synced.disk.size
      eod := by rw [kept.eod]; exact synced.disk.eod
      record := by rw [kept.bytes]; exact synced.disk.record
      data := synced.disk.data }
  settled := kept.settled
  tables := fun i => by
    obtain ⟨hpos, h, table⟩ := synced.tables i
    refine ⟨hpos, h, ?_, ?_, ?_, table.chain⟩
    · rw [kept.bytes]
      exact table.header
    · rw [kept.bytes]
      exact table.table
    · rw [kept.eod]
      exact table.pos

theorem SameLists.update_iff {c' : Db} (same : SameLists c c') (k : Bytes) (v : Option Bytes) :
    Update c' k v ↔ Update c k v := by
  cases v with
  | none => rw [Update, Update, same.removed]
  | some d => rw [Update, Update, same.added]

theorem Keeps.kept {c' : Db} (keeps : Keeps m R c) (kept : Kept R c c') : Keeps m R c' where
  pend := keeps.pend.congr kept.lists.removed kept.lists.hlens fun i => by rw [kept.lists.added]
  synced := keeps.synced.kept kept
  nodup := keeps.nodup
  updated := fun k v h => keeps.updated k v ((kept.lists.update_iff k v).mp h)
  recorded := fun k h => keeps.recorded k fun v h' => h v ((kept.lists.update_iff k v).mpr h')
  clean := fun hw k v h =>
    keeps.clean (kept.lists.writing ▸ hw) k v ((kept.lists.update_iff k v).mp h)
  readonly := kept.lists.readonly.trans keeps.readonly

/-- The search of the file, from the header on. -/
theorem rwcdbFind_file (synced : Synced c.rf R) (hnone : ispending c k (cdbHash k) = none) :
    ∃ found c', rwcdbFind c k = some (found, c') ∧ Kept R c c' ∧ Result R k found c' := by
  obtain ⟨hpos, h, table⟩ := synced.tables (slot (cdbHash k))
  have disk := synced.disk
  have hsize := disk.size
  have htable := table.table.le
  rw [length_encodeTable] at htable
  have hread := dbReadints_slice table.header (by omega) (by omega)
  have settled₁ := settled_touch_header 8 ((slot (cdbHash k)).toNat * 8) synced.settled
    (by omega)
  rw [rwcdbFind, hnone]
  rw [hread, bind_eq_bind, bind_some]
  dsimp only
  by_cases hzero : h.length = 0
  · rw [if_pos hzero]
    refine ⟨false, _, rfl, ⟨⟨rfl, rfl, rfl, rfl, rfl⟩, touch_bytes _ _ _, touch_eod _ _ _, settled₁⟩, ?_⟩
    intro r hr hk
    obtain ⟨p, hp⟩ := exists_recordAt hr
    obtain ⟨j, path, -⟩ := table.chain.placed r p hp (by rw [hk])
    have := path.lt
    omega
  · rw [if_neg hzero]
    obtain ⟨found, c', hrun, kept, result⟩ := findLoop_spec
      (c := { c with rf := c.rf.touch 8 ((slot (cdbHash k)).toNat * 8) })
      (table.touch _ _) (disk.touch _ _) settled₁.ready (Nat.pos_of_ne_zero hzero) (zero_add _)
      (fun n hn => absurd hn (Nat.not_lt_zero n))
    refine ⟨found, c', hrun, ⟨?_, ?_, ?_, kept.settled⟩, result⟩
    · exact ⟨kept.lists.removed, kept.lists.added, kept.lists.hlens, kept.lists.writing,
        kept.lists.readonly⟩
    · exact kept.bytes.trans (touch_bytes _ _ _)
    · exact kept.eod.trans (touch_eod _ _ _)

theorem rwcdbRead_added (pend : Pending c) {i : BitVec 8} {n : Nat} {w : WrEntry}
    (hw : (c.added i)[n]? = some w) :
    rwcdbRead c w.data.length (c.rf.eod + (before c i + n)) = some (w.data, c) := by
  obtain ⟨hn, -⟩ := List.getElem?_eq_some_iff.mp hw
  rw [rwcdbRead, if_neg (by omega), Nat.add_sub_cancel_left, fromhash_before pend hn,
    bind_eq_bind, bind_some]
  dsimp only
  rw [hw, bind_eq_bind, bind_some, if_neg (lt_irrefl _), take_length]
  rfl

/-- What `rwcdb_find` says of the map, and what `rwcdb_read` returns next. -/
theorem Keeps.find (keeps : Keeps m R c) (k : Bytes) :
    ∃ found c', rwcdbFind c k = some (found, c') ∧ Kept R c c' ∧
      ((found = false ∧ m k = none) ∨
        (found = true ∧ ∃ d c'', m k = some d ∧ rwcdbRead c' c'.dlen c'.dpos = some (d, c'') ∧
          Kept R c c'')) := by
  have hfound := ispending_spec keeps.pend k
  generalize hp : ispending c k (cdbHash k) = pending at hfound
  have settled := keeps.synced.settled
  cases hfound with
  | removed w hw hk =>
    refine ⟨false, c, ?_, ⟨⟨rfl, rfl, rfl, rfl, rfl⟩, rfl, rfl, settled⟩, .inl ⟨rfl, ?_⟩⟩
    · rw [rwcdbFind, hp]
      dsimp only
      rw [if_pos (by rw [(keeps.pend.removed w hw).2]; rfl)]
    · exact keeps.updated k none ⟨w, hw, hk⟩
  | added w n hw hk =>
    have hmem := mem_of_getElem? hw
    have hdata := length_pos_of_ne_nil (keeps.pend.added _ w hmem).2.2
    let c' : Db :=
      { c with
        klen := w.key.length, dlen := w.data.length
        dpos := c.rf.eod + (before c (slot (cdbHash k)) + n) }
    have kept : Kept R c c' := ⟨⟨rfl, rfl, rfl, rfl, rfl⟩, rfl, rfl, settled⟩
    refine ⟨true, c', ?_, kept, .inr ⟨rfl, w.data, c', ?_, ?_, kept⟩⟩
    · rw [rwcdbFind, hp]
      dsimp only
      rw [if_neg (by omega), map_some]
    · exact keeps.updated k (some w.data) ⟨w, hmem, hk, rfl⟩
    · exact rwcdbRead_added (keeps.kept kept).pend hw
  | none hremoved hadded =>
    obtain ⟨found, c', hrun, kept, result⟩ := rwcdbFind_file keeps.synced hp
    have habsent : ∀ v, ¬ Update c k v := by
      rintro (- | d) ⟨w, hw, h⟩
      · exact hremoved w hw h
      · exact hadded w hw h.1
    refine ⟨found, c', hrun, kept, ?_⟩
    cases found with
    | false =>
      left
      refine ⟨rfl, eq_none_iff_forall_ne_some.mpr fun d hd => ?_⟩
      exact result _ ((keeps.recorded k habsent d).mp hd) rfl
    | true =>
      right
      obtain ⟨r, p, hr, rfl, hdlen, hdpos⟩ := result
      have disk' := (keeps.synced.kept kept).disk
      have hlt := hr.le.2
      have hdata := length_pos_of_ne_nil (disk'.data r hr.mem)
      have heod := disk'.eod
      rw [length_encode] at hlt
      refine ⟨rfl, r.2, { c' with rf := c'.rf.touch r.2.length (p + 8 + r.1.length) },
        (keeps.recorded _ habsent r.2).mpr hr.mem, ?_, ?_⟩
      · rw [rwcdbRead, hdpos, hdlen, if_pos (by omega), disk'.mread_data hr]
        rfl
      · have settled' := settled_touch_body r.2.length (p + 8 + r.1.length) kept.settled hr
          (by omega) (by rw [length_encode]; omega)
        refine ⟨⟨kept.lists.removed, kept.lists.added, kept.lists.hlens, kept.lists.writing,
          kept.lists.readonly⟩, ?_, ?_, settled'⟩
        · exact (touch_bytes _ _ _).trans kept.bytes
        · exact (touch_eod _ _ _).trans kept.eod

theorem Keeps.lookup (keeps : Keeps m R c) (k : Bytes) :
    ∃ c', lookup c k = some (m k, c') ∧ Kept R c c' := by
  obtain ⟨found, c', hfind, kept, ⟨rfl, hm⟩ | ⟨rfl, d, c'', hm, hread, kept'⟩⟩ := keeps.find k
  · refine ⟨c', ?_, kept⟩
    rw [Coda.Rwcdb.lookup, hfind, hm]
    rfl
  · refine ⟨c'', ?_, kept'⟩
    rw [Coda.Rwcdb.lookup, hfind, bind_eq_bind, bind_some]
    dsimp only
    rw [if_pos rfl, hread, hm]
    rfl

/-! ### Updates -/

/-- The map after an insertion. -/
def put (m : Bytes → Option Bytes) (k d : Bytes) : Bytes → Option Bytes :=
  Function.update m k (if d = [] then none else some d)

theorem Keeps.insert (keeps : Keeps m R c) (k d : Bytes) : Keeps (put m k d) R (rwcdbInsert c k d) := by
  obtain ⟨pend, hrf, hro, hwriting, update_iff⟩ := rwcdbInsert_spec keeps.pend k d
  have other : ∀ {k'}, k' ≠ k → put m k d k' = m k' := fun hk => update_of_ne hk _ _
  have self : ∀ v, v = (if d = [] then none else some d) → put m k d k = v := fun v hv => by
    rw [put, update_self, hv]
  refine ⟨pend, hrf ▸ keeps.synced, keeps.nodup, fun k' v h => ?_, fun k' hno d' => ?_, fun hw => ?_,
    hro.trans keeps.readonly⟩
  · rw [update_iff] at h
    by_cases hk : k' = k
    · rw [if_pos hk] at h
      rw [hk]
      exact self v h
    · rw [if_neg hk] at h
      rw [other hk]
      exact keeps.updated k' v h
  · by_cases hk : k' = k
    · refine absurd ((update_iff k' _).mpr ?_) (hno (if d = [] then none else some d))
      rw [if_pos hk]
    · rw [other hk]
      refine keeps.recorded k' (fun v hv => hno v ?_) d'
      rwa [update_iff, if_neg hk]
  · rw [hwriting keeps.readonly] at hw
    exact absurd hw (by decide)

theorem Keeps.delete (keeps : Keeps m R c) (k : Bytes) :
    ∃ c', rwcdbDelete c k = some c' ∧ Keeps (put m k []) R c' := by
  obtain ⟨found, c', hfind, kept, ⟨rfl, hm⟩ | ⟨rfl, -⟩⟩ := keeps.find k
  · refine ⟨c', ?_, ?_⟩
    · rw [rwcdbDelete, hfind]
      rfl
    · rw [put, if_pos rfl, ← hm, update_eq_self]
      exact keeps.kept kept
  · refine ⟨rwcdbInsert c' k [], ?_, (keeps.kept kept).insert k []⟩
    rw [rwcdbDelete, hfind]
    rfl

/-! ### Sync -/

theorem live_iff (pend : Pending c) {r : Record} : live c r = true ↔ ∀ v, ¬ Update c r.1 v := by
  rw [live]
  have hfound := ispending_spec pend r.1
  generalize ispending c r.1 (cdbHash r.1) = pending at hfound
  cases hfound with
  | removed w hw hk => exact iff_of_false Bool.false_ne_true fun h => h none ⟨w, hw, hk⟩
  | added w n hw hk =>
    exact iff_of_false Bool.false_ne_true fun h =>
      h (some w.data) ⟨w, mem_of_getElem? hw, hk, rfl⟩
  | none hremoved hadded =>
    refine iff_of_true rfl ?_
    rintro (- | d) ⟨w, hw, h⟩
    · exact hremoved w hw h
    · exact hadded w hw h.1

theorem mem_flat (pend : Pending c) {w : WrEntry} : w ∈ flat c ↔ w ∈ c.added (slot (cdbHash w.key)) := by
  rw [flat, mem_flatMap]
  constructor
  · rintro ⟨i, -, hw⟩
    obtain ⟨hhash, hslot, -⟩ := pend.added i w hw
    rwa [← hhash, hslot]
  · exact fun hw => ⟨_, mem_tables _, hw⟩

theorem nodup_flat (pend : Pending c) : ((flat c).map WrEntry.key).Nodup := by
  rw [flat, map_flatMap, nodup_flatMap]
  refine ⟨fun i _ => pend.added_nodup i, nodup_tables.imp fun {i j} hij => ?_⟩
  intro k hi hj
  obtain ⟨w, hw, rfl⟩ := List.mem_map.mp hi
  obtain ⟨w', hw', hk⟩ := List.mem_map.mp hj
  obtain ⟨hhash, hslot, -⟩ := pend.added i w hw
  obtain ⟨hhash', hslot', -⟩ := pend.added j w' hw'
  rw [hhash', hk, ← hhash, hslot] at hslot'
  exact hij hslot'

theorem Keeps.mem_newRecords (keeps : Keeps m R c) (k d : Bytes) :
    (k, d) ∈ newRecords c R ↔ m k = some d := by
  rw [newRecords, mem_append, mem_filter, live_iff keeps.pend, List.mem_map]
  constructor
  · rintro (⟨hmem, hno⟩ | ⟨w, hw, heq⟩)
    · exact (keeps.recorded k hno d).mpr hmem
    · cases heq
      exact keeps.updated w.key (some w.data) ⟨w, (mem_flat keeps.pend).mp hw, rfl, rfl⟩
  · intro hm
    by_cases hno : ∀ v, ¬ Update c k v
    · exact .inl ⟨(keeps.recorded k hno d).mp hm, hno⟩
    · push Not at hno
      obtain ⟨v, hv⟩ := hno
      have := keeps.updated k v hv
      rw [hm] at this
      subst this
      obtain ⟨w, hw, rfl, rfl⟩ := hv
      exact .inr ⟨w, (mem_flat keeps.pend).mpr hw, rfl⟩

theorem nodup_newRecords (pend : Pending c) (nodup : (R.map Prod.fst).Nodup) :
    ((newRecords c R).map Prod.fst).Nodup := by
  rw [newRecords, map_append, List.map_map, nodup_append']
  refine ⟨nodup.sublist (filter_sublist.map _), nodup_flat pend, fun k hk hk' => ?_⟩
  obtain ⟨r, hr, rfl⟩ := List.mem_map.mp hk
  obtain ⟨w, hw, heq⟩ := List.mem_map.mp hk'
  refine (live_iff pend).mp (mem_filter.mp hr).2 (some w.data) ⟨w, ?_, heq, rfl⟩
  have : w.key = r.1 := heq
  rw [← this]
  exact (mem_flat pend).mp hw

theorem newRecords_data (pend : Pending c) (disk : Disk c.rf R) : ∀ r ∈ newRecords c R, r.2 ≠ [] := by
  intro r hr
  rw [newRecords, mem_append] at hr
  rcases hr with hr | hr
  · exact disk.data r (mem_filter.mp hr).1
  · obtain ⟨w, hw, rfl⟩ := List.mem_map.mp hr
    exact (pend.added _ w ((mem_flat pend).mp hw)).2.2

/-- The database right after a sync, with no pending update. -/
structure Fresh (R : List Record) (c : Db) : Prop where
  pend : Pending c
  synced : Synced c.rf R
  none : ∀ k v, ¬ Update c k v
  readonly : c.readonly = false

theorem sum_hlens (pend : Pending c) : (tables.map c.hlens).sum = (flat c).length := by
  rw [flat, length_flatMap]
  refine congrArg List.sum (map_congr_left fun i _ => pend.hlens i)

theorem pending_nil (hremoved : c.removed = []) (hadded : c.added = fun _ => [])
    (hhlens : c.hlens = fun _ => 0) : Pending c := by
  refine ⟨?_, ?_, fun i => ?_, ?_, fun i => ?_, ?_⟩
  · rw [hremoved]
    exact nofun
  · rw [hadded]
    exact fun i w hw => absurd hw not_mem_nil
  · rw [hhlens, hadded]
    rfl
  · rw [hremoved]
    exact nodup_nil
  · rw [hadded]
    exact nodup_nil
  · rw [hremoved]
    exact nofun

theorem newRecords_nil (pend : Pending c) (hadded : c.added = fun _ => []) : newRecords c [] = [] := by
  refine eq_nil_iff_forall_not_mem.mpr fun r hr => ?_
  obtain ⟨w, hw, -⟩ := List.mem_map.mp hr
  rw [mem_flat pend, hadded] at hw
  exact not_mem_nil hw

/-- The dump of a sync that writes a new file, and what it makes of it. -/
theorem rwcdbSync_dump (pend : Pending c) (disk : Disk c.rf R) (settled : Settled c.rf R)
    (hwriting : c.writing = true) :
    ∃ c₁, flat c₁ = assign (2048 + (encodeAll (R.filter (live c))).length) (flat c) ∧ Pending c₁ ∧
      c₁.readonly = c.readonly ∧
      rwcdbSync c = (writeHashchains (moveRewrites c₁ ((locate 2048 (R.filter (live c))).map rewrite))
          ((newRecords c R).foldl writeRecord OutFile.start)).bind fun bytes =>
        if bytes.length ≥ 4294967296 then none
        else some { moveRewrites c₁ ((locate 2048 (R.filter (live c))).map rewrite) with
          rf := dbFileOpen bytes, writing := false, index := 2048
          hlens := fun _ => 0, removed := [], added := fun _ => [] } := by
  have pend₀ : Pending { c with index := 2048 } := pend.congr rfl rfl fun _ => rfl
  obtain ⟨c₁, hdump, hflat, pend₁, hro⟩ := dumpRecords_spec pend₀ rfl disk settled
  refine ⟨c₁, hflat, pend₁, hro, ?_⟩
  have hfuel : c.rf.bytes.length + (tables.map c.hlens).sum + 1 =
      c.rf.bytes.length + (flat { c with index := 2048 }).length + 1 := by
    rw [sum_hlens pend]
    rfl
  rw [rwcdbSync, if_neg (by rw [hwriting]; decide)]
  dsimp only
  rw [hfuel, hdump, bind_eq_bind]
  rfl

/-- A sync that writes a new file. -/
theorem rwcdbSync_spec (pend : Pending c) (disk : Disk c.rf R) (settled : Settled c.rf R)
    (nodup : (R.map Prod.fst).Nodup) (alone : Alone (newRecords c R)) (hwriting : c.writing = true)
    (hro : c.readonly = false) (hsize : fileSize (newRecords c R) < 4294967296) :
    ∃ c', rwcdbSync c = some c' ∧ Fresh (newRecords c R) c' := by
  obtain ⟨c₁, hflat, pend₁, hro₁, hsync⟩ := rwcdbSync_dump pend disk settled hwriting
  obtain ⟨ok, content⟩ := write_records OutFile.ok_start (newRecords c R)
  have nodup' := nodup_newRecords pend nodup
  have perm i := moved_perm pend pend₁ hflat i rfl
  generalize hc₂ : moveRewrites c₁ ((locate 2048 (R.filter (live c))).map rewrite) = c₂ at perm hsync
  have hro₂ : c₂.readonly = false := by
    rw [← hc₂, (moveRewrites_spec _ _ 0).2.2, hro₁]
    exact hro
  have chain : ∀ i, ∃ h, hashChain (c₂.hlens i * 2) (c₂.added i) = some h ∧
      h.length = c₂.hlens i * 2 ∧ Chain (newRecords c R) i h := by
    intro i
    rw [(perm i).2]
    exact hashChain_spec alone nodup' (perm i).1
  choose hs chains using chain
  obtain ⟨bytes, hwrite, hlen, synced⟩ :=
    writeHashchains_spec chains ok content (newRecords_data pend disk)
  have htotal : (tables.map fun i => 8 * (hs i).length).sum = 16 * (newRecords c R).length := by
    have hone : ∀ i, 8 * (hs i).length =
        16 * ((entries (newRecords c R)).filter fun e => slot e.1 = i).length := by
      intro i
      have hperm := (perm i).1.length_eq
      rw [length_map] at hperm
      rw [(chains i).2.1, (perm i).2, hperm]
      exact (by omega : ∀ n, 8 * (n * 2) = 16 * n) _
    simp only [hone]
    rw [sum_map_mul_left, sum_length_tables, entries, length_map,
      ← length_map, map_fst_locate]
  rw [htotal] at hlen
  have hbound : bytes.length < 4294967296 := by
    rw [hlen]
    exact hsize
  refine ⟨{ c₂ with
    rf := dbFileOpen bytes, writing := false, index := 2048
    hlens := fun _ => 0, removed := [], added := fun _ => [] }, ?_, ?_, synced hbound, ?_, hro₂⟩
  · rw [hsync, hwrite, bind_some, if_neg (by omega)]
  · exact pending_nil rfl rfl rfl
  · rintro k (- | d) ⟨w, hw, -⟩
    · cases hw
    · cases hw

/-! ### Runs -/

/-- A key with hash 0 is the only key of its table. -/
def ZeroAlone (m : Bytes → Option Bytes) : Prop :=
  ∀ k k', m k ≠ none → m k' ≠ none → cdbHash k = 0#32 → slot (cdbHash k') = slot 0#32 → k' = k

/-- A file with the contents of the map has less than 2^32 bytes. -/
def Fits (m : Bytes → Option Bytes) : Prop :=
  ∃ R : List Record, (R.map Prod.fst).Nodup ∧ (∀ k d, (k, d) ∈ R ↔ m k = some d) ∧
    fileSize R < 4294967296

theorem fileSize_perm {R' : List Record} (perm : R.Perm R') : fileSize R = fileSize R' := by
  rw [fileSize, fileSize, perm.length_eq, encodeAll, encodeAll, (perm.flatMap_right encode).length_eq]

theorem Fits.fileSize_lt (fits : Fits m) (nodup : (R.map Prod.fst).Nodup)
    (hm : ∀ k d, (k, d) ∈ R ↔ m k = some d) : fileSize R < 4294967296 := by
  obtain ⟨R', nodup', hm', hsize⟩ := fits
  rwa [fileSize_perm ((perm_ext_iff_of_nodup nodup.of_map nodup'.of_map).mpr
    fun r => (hm r.1 r.2).trans (hm' r.1 r.2).symm)]

theorem Fresh.keeps (fresh : Fresh R c) (nodup : (R.map Prod.fst).Nodup)
    (hm : ∀ k d, (k, d) ∈ R ↔ m k = some d) : Keeps m R c where
  pend := fresh.pend
  synced := fresh.synced
  nodup := nodup
  updated := fun k v h => absurd h (fresh.none k v)
  recorded := fun k _ d => (hm k d).symm
  clean := fun _ => fresh.none
  readonly := fresh.readonly

theorem Keeps.sync (keeps : Keeps m R c) (alone : ZeroAlone m) (fits : Fits m) :
    ∃ c' R', rwcdbSync c = some c' ∧ Keeps m R' c' := by
  cases hw : c.writing with
  | false =>
    refine ⟨c, R, ?_, keeps⟩
    rw [rwcdbSync, if_pos (by rw [hw]; decide)]
  | true =>
    have nodup := nodup_newRecords keeps.pend keeps.nodup
    have hmem := keeps.mem_newRecords
    have some_of : ∀ r ∈ newRecords c R, m r.1 ≠ none := fun r hr h => by
      rw [(hmem r.1 r.2).mp hr] at h
      exact some_ne_none _ h
    obtain ⟨c', hsync, fresh⟩ := rwcdbSync_spec keeps.pend keeps.synced.disk keeps.synced.settled
      keeps.nodup (fun r hr r' hr' => alone r.1 r'.1 (some_of r hr) (some_of r' hr')) hw keeps.readonly
      (fits.fileSize_lt nodup hmem)
    exact ⟨c', _, hsync, fresh.keeps nodup hmem⟩

/-- `rwcdb_init` writes a file without records. -/
theorem rwcdbInit_spec : ∃ c, rwcdbInit = some c ∧ Keeps (fun _ => none) [] c := by
  have pend := pending_nil (c :=
    { rf := { bytes := [], pos := 0, eod := 2048, cachePos := 0, cacheLen := 0 }
      writing := true, readonly := false, hash := 0, klen := 0, dlen := 0, dpos := 0
      pending := none, index := 0, hlens := fun _ => 0, removed := [], added := fun _ => [] }) rfl rfl rfl
  have absent : ∀ p r, ¬ RecordAt [] p r := fun p r h => not_mem_nil h.mem
  have hnew := newRecords_nil pend rfl
  obtain ⟨c, hsync, fresh⟩ := rwcdbSync_spec pend
    ⟨by decide, rfl, fun p r h => absurd h (absent p r), nofun⟩
    (fun p r h => absurd h (absent p r)) nodup_nil
    (by rw [hnew]; exact nofun) rfl rfl (by rw [hnew]; decide)
  rw [hnew] at fresh
  refine ⟨c, hsync, fresh.keeps nodup_nil fun k d => ?_⟩
  exact iff_of_false not_mem_nil (some_ne_none d).symm

inductive RwcdbOp where
  | insert (k d : Bytes)
  | delete (k : Bytes)
  | find (k : Bytes)
  | sync

/-- A database, and the map that its operations should have made. -/
structure Store where
  db : Db
  contents : Bytes → Option Bytes

def RwcdbOp.run (s : Store) : RwcdbOp → Option Store
  | .insert k d => some ⟨rwcdbInsert s.db k d, put s.contents k d⟩
  | .delete k => (rwcdbDelete s.db k).map fun c => ⟨c, put s.contents k []⟩
  | .find k => (lookup s.db k).map fun x => ⟨x.2, s.contents⟩
  | .sync => (rwcdbSync s.db).map fun c => ⟨c, s.contents⟩

/-- What is asked of the contents at every sync. -/
def RwcdbOp.Safe (s : Store) : RwcdbOp → Prop
  | .sync => ZeroAlone s.contents ∧ Fits s.contents
  | _ => True

theorem RwcdbOp.run_spec {s : Store} {op : RwcdbOp} (keeps : ∃ R, Keeps s.contents R s.db)
    (safe : op.Safe s) : ∃ s', op.run s = some s' ∧ ∃ R, Keeps s'.contents R s'.db := by
  obtain ⟨R, keeps⟩ := keeps
  cases op with
  | insert k d => exact ⟨_, rfl, R, keeps.insert k d⟩
  | delete k =>
    obtain ⟨c', hrun, keeps'⟩ := keeps.delete k
    exact ⟨_, by rw [run, hrun]; rfl, R, keeps'⟩
  | find k =>
    obtain ⟨c', hrun, kept⟩ := keeps.lookup k
    exact ⟨⟨c', s.contents⟩, by rw [run, hrun]; rfl, R, keeps.kept kept⟩
  | sync =>
    obtain ⟨c', R', hrun, keeps'⟩ := keeps.sync safe.1 safe.2
    exact ⟨_, by rw [run, hrun]; rfl, R', keeps'⟩

/-- No key is lost or changed, if at every sync a key with hash 0 has its table for itself. -/
theorem rwcdb_lossless_of_zeroAlone (ops : List RwcdbOp) :
    ∃ c, rwcdbInit = some c ∧
      (Guarded (fun s op => op.run s) (fun s op => op.Safe s) ⟨c, fun _ => none⟩ ops →
        ∃ s, ops.foldlM (fun s op => op.run s) ⟨c, fun _ => none⟩ = some s ∧
          ∀ k, (lookup s.db k).map Prod.fst = some (s.contents k)) := by
  obtain ⟨c, hinit, keeps⟩ := rwcdbInit_spec
  refine ⟨c, hinit, fun guarded => ?_⟩
  obtain ⟨s, hrun, R, keeps'⟩ := run_of_guarded
    (fun s op => RwcdbOp.run_spec) ⟨[], keeps⟩ guarded
  refine ⟨s, hrun, fun k => ?_⟩
  obtain ⟨c', hlookup, -⟩ := keeps'.lookup k
  rw [hlookup]
  rfl

/-- The key "ootpwgq" has hash 0, and "a" is in another table. -/
theorem rwcdb_lossless_zero_key :
    ∃ c, rwcdbInit = some c ∧
      ∃ s, [RwcdbOp.insert [111#8, 111#8, 116#8, 112#8, 119#8, 103#8, 113#8] [120#8],
          .insert [97#8] [121#8], .sync].foldlM (fun s op => op.run s) ⟨c, fun _ => none⟩ = some s ∧
        ∀ k, (lookup s.db k).map Prod.fst = some (s.contents k) := by
  obtain ⟨c, hinit, hrun⟩ := rwcdb_lossless_of_zeroAlone
    [.insert [111#8, 111#8, 116#8, 112#8, 119#8, 103#8, 113#8] [120#8], .insert [97#8] [121#8], .sync]
  refine ⟨c, hinit, hrun ⟨trivial, fun s₁ hs₁ => ⟨trivial, fun s₂ hs₂ => ⟨?_, fun _ _ => trivial⟩⟩⟩⟩
  cases hs₁
  cases hs₂
  have hm : ∀ k d, (k, d) ∈ [([97#8], [121#8]),
      ([111#8, 111#8, 116#8, 112#8, 119#8, 103#8, 113#8], [120#8])] ↔
      put (put (fun _ => none) [111#8, 111#8, 116#8, 112#8, 119#8, 103#8, 113#8] [120#8]) [97#8]
        [121#8] k = some d := by
    intro k d
    simp only [put]
    by_cases ha : k = [97#8]
    · subst ha
      simp
      exact eq_comm
    · by_cases hz : k = [111#8, 111#8, 116#8, 112#8, 119#8, 103#8, 113#8]
      · subst hz
        simp
        exact eq_comm
      · simp [ha, hz]
  refine ⟨fun k k' hk hk' hzero hslot => ?_, _, by decide, hm, by decide⟩
  obtain ⟨d, hd⟩ := ne_none_iff_exists'.mp hk
  obtain ⟨d', hd'⟩ := ne_none_iff_exists'.mp hk'
  have hmem := (hm k d).mpr hd
  have hmem' := (hm k' d').mpr hd'
  simp only [mem_cons, not_mem_nil, or_false] at hmem hmem'
  rcases hmem' with ⟨rfl, -⟩ | ⟨rfl, -⟩
  · exact absurd hslot (by decide)
  · rcases hmem with ⟨rfl, -⟩ | ⟨rfl, -⟩
    · exact absurd hzero (by decide)
    · rfl

/-- "ootpwgq" and then "pu", which is in the same table and has the same home slot. -/
theorem rwcdb_sync_loses_key :
    ∃ c s, rwcdbInit = some c ∧
      [RwcdbOp.insert [111#8, 111#8, 116#8, 112#8, 119#8, 103#8, 113#8] [120#8],
          .insert [112#8, 117#8] [121#8], .sync].foldlM (fun s op => op.run s) ⟨c, fun _ => none⟩ = some s ∧
        s.contents [111#8, 111#8, 116#8, 112#8, 119#8, 103#8, 113#8] = some [120#8] ∧
        (lookup s.db [111#8, 111#8, 116#8, 112#8, 119#8, 103#8, 113#8]).map Prod.fst = some none := by
  have hend : ((rwcdbInit.bind fun c =>
      [RwcdbOp.insert [111#8, 111#8, 116#8, 112#8, 119#8, 103#8, 113#8] [120#8],
          .insert [112#8, 117#8] [121#8], .sync].foldlM (fun s op => op.run s) ⟨c, fun _ => none⟩).bind
        fun s => (lookup s.db [111#8, 111#8, 116#8, 112#8, 119#8, 103#8, 113#8]).map fun x =>
          (s.contents [111#8, 111#8, 116#8, 112#8, 119#8, 103#8, 113#8], x.1)) =
      some (some [120#8], none) := by
    decide +kernel
  obtain ⟨s, hs, hlookup⟩ := bind_eq_some_iff.mp hend
  obtain ⟨c, hc, hrun⟩ := bind_eq_some_iff.mp hs
  obtain ⟨x, hx, heq⟩ := map_eq_some_iff.mp hlookup
  obtain ⟨hcontents, hnone⟩ := Prod.mk.inj heq
  refine ⟨c, s, hc, hrun, hcontents, ?_⟩
  rw [hx, map_some, hnone]

end Coda.Rwcdb
