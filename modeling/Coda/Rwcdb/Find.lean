import Coda.Rwcdb.Tables

/-!
`rwcdb_find` on a file that `rwcdb_sync` has written.

The search starts at the home slot of the key and ends at a slot with position 0. Every record
stands on the path from its home slot, so a key that was not met before that slot has no record.
-/

namespace Coda.Rwcdb

open Coda.Lib Coda.Lib.Probe Option

/-- Slots behind the records are not cached together with the lengths of a record. -/
def Ready (f : DbFile) (R : List Record) : Prop :=
  ∀ q, f.eod ≤ q → cached f 8 q = true → Settled f R

/-- What a search leaves as it is. -/
structure Kept (R : List Record) (c c' : Db) : Prop where
  lists : SameLists c c'
  bytes : c'.rf.bytes = c.rf.bytes
  eod : c'.rf.eod = c.rf.eod
  settled : Settled c'.rf R

/-- What a search of the file for `k` says. -/
def Result (R : List Record) (k : Bytes) (found : Bool) (c : Db) : Prop :=
  if found then
    ∃ r p, RecordAt R p r ∧ r.1 = k ∧ c.dlen = r.2.length ∧ c.dpos = p + 8 + k.length
  else ∀ r ∈ R, r.1 ≠ k

section Walk

variable {f : DbFile} {R : List Record} {i : BitVec 8} {hpos : Nat} {h : List (Nat × Nat)}

theorem Table.touch (table : Table f R i hpos h) (len pos : Nat) :
    Table (f.touch len pos) R i hpos h where
  header := by rw [touch_bytes]; exact table.header
  table := by rw [touch_bytes]; exact table.table
  pos := by rw [touch_eod]; exact table.pos
  chain := table.chain

theorem Settled.ready (settled : Settled f R) : Ready f R := fun _ _ _ => settled

/-- Only the lengths of a record are cached then. -/
theorem ready_touch_lengths (disk : Disk f R) (settled : Settled f R) {p : Nat} {r : Record}
    (hr : RecordAt R p r) : Ready (f.touch 8 p) R := by
  intro q hq hc
  have heod := disk.eod
  have hle := hr.le.2
  rw [length_encode] at hle
  rw [touch_eod] at hq
  rw [touch_of_not_cached (settled p r hr), cached_eq_true] at hc
  dsimp only at hc
  omega

theorem Table.read_slot (table : Table f R i hpos h) (disk : Disk f R) (ready : Ready f R) {s : Nat}
    {x : Nat × Nat} (hs : h[s]? = some x) :
    dbReadints f (hpos + s * 8) = some (x, f.touch 8 (hpos + s * 8)) ∧
    Settled (f.touch 8 (hpos + s * 8)) R := by
  have hpos' := table.pos
  constructor
  · have hslice : Slice f.bytes (hpos + s * 8) (packints x.1 x.2) := by
      rw [mul_comm]
      exact table.table.trans
        (slice_flatMap (f := fun t : Nat × Nat => packints t.1 t.2) (fun _ => rfl) hs)
    have hsize := disk.size
    rcases table.chain.slots s x hs with rfl | ⟨r, p, hr, -, rfl⟩
    · exact dbReadints_slice hslice (by decide) (by decide)
    · have hle := (disk.record p r hr).le
      exact dbReadints_slice hslice (cdbHash r.1).isLt (by omega)
  · exact settled_touch_table disk (ready _ (by omega)) (by omega)

theorem next_pos (hpos n s : Nat) :
    (if hpos + s * 8 + 8 = hpos + n * 8 then hpos else hpos + s * 8 + 8) = hpos + next n s * 8 := by
  unfold next
  by_cases hs : s + 1 = n
  · rw [if_pos (by omega), if_pos hs, Nat.zero_mul, add_zero]
  · rw [if_neg (by omega), if_neg hs]
    omega

end Walk

/-! ### The loop over the slots -/

section Loop

variable {c : Db} {R : List Record} {k : Bytes} {hpos loop s : Nat} {h : List (Nat × Nat)}

/-- A slot with position 0 ends the search. -/
theorem findLoop_empty (loop : Nat) (table : Table c.rf R (slot (cdbHash k)) hpos h) (disk : Disk c.rf R)
    (ready : Ready c.rf R) (hs : h[s]? = some (0, 0)) :
    ∃ c', findLoop k (cdbHash k) hpos h.length (loop + 1) (hpos + s * 8) c = some (false, c') ∧
      Kept R c c' := by
  obtain ⟨hread, settled⟩ := table.read_slot disk ready hs
  refine ⟨{ c with rf := c.rf.touch 8 (hpos + s * 8) }, ?_,
    ⟨rfl, rfl, rfl, rfl, rfl⟩, touch_bytes _ _ _, touch_eod _ _ _, settled⟩
  rw [findLoop, hread]
  rfl

/-- The search ends at a record of the key, and goes on at any other record. -/
theorem findLoop_record (loop : Nat) (table : Table c.rf R (slot (cdbHash k)) hpos h) (disk : Disk c.rf R)
    (ready : Ready c.rf R) {r : Record} {p : Nat} (hr : RecordAt R p r)
    (hs : h[s]? = some ((cdbHash r.1).toNat, p)) :
    (r.1 = k ∧ ∃ c',
      findLoop k (cdbHash k) hpos h.length (loop + 1) (hpos + s * 8) c = some (true, c') ∧
      Kept R c c' ∧ Result R k true c') ∨
    (r.1 ≠ k ∧ ∃ f, findLoop k (cdbHash k) hpos h.length (loop + 1) (hpos + s * 8) c =
        findLoop k (cdbHash k) hpos h.length loop (hpos + next h.length s * 8) { c with rf := f } ∧
      f.bytes = c.rf.bytes ∧ f.eod = c.rf.eod ∧ Disk f R ∧ Ready f R ∧
      Table f R (slot (cdbHash k)) hpos h) := by
  obtain ⟨hread, settled⟩ := table.read_slot disk ready hs
  have hp : p ≠ 0 := by
    have := hr.le.1
    omega
  have table₁ := table.touch 8 (hpos + s * 8)
  have disk₁ := disk.touch 8 (hpos + s * 8)
  have hbytes₁ := touch_bytes c.rf 8 (hpos + s * 8)
  have heod₁ := touch_eod c.rf 8 (hpos + s * 8)
  rw [findLoop, hread, bind_eq_bind, bind_some]
  dsimp only
  rw [if_neg hp, next_pos]
  generalize c.rf.touch 8 (hpos + s * 8) = f₁ at settled table₁ disk₁ hbytes₁ heod₁
  by_cases hhash : (cdbHash k).toNat = (cdbHash r.1).toNat
  · rw [if_neg (not_not.mpr hhash), disk₁.readints hr, bind_some]
    by_cases hlen : k.length = r.1.length
    · rw [if_neg (not_not.mpr hlen)]
      obtain ⟨hpos₂, hpos₃, settled₃, -⟩ := Settled.read_record disk₁ settled hr
      have hbody := (disk₁.touch 8 p).mread_body hr
      rw [hpos₂, hlen, hbody, bind_eq_bind, bind_some]
      rw [List.take_left]
      by_cases hk : k = r.1
      · left
        refine ⟨hk.symm, _, if_pos hk, ⟨⟨rfl, rfl, rfl, rfl, rfl⟩, ?_, ?_, settled₃⟩, ?_⟩
        · dsimp only
          rw [touch_bytes, touch_bytes, hbytes₁]
        · dsimp only
          rw [touch_eod, touch_eod, heod₁]
        · refine ⟨r, p, hr, hk.symm, rfl, ?_⟩
          dsimp only
          rw [hpos₃, length_encode]
          omega
      · right
        refine ⟨Ne.symm hk, _, if_neg hk, ?_, ?_, (disk₁.touch _ _).touch _ _, settled₃.ready,
          (table₁.touch _ _).touch _ _⟩
        · rw [touch_bytes, touch_bytes, hbytes₁]
        · rw [touch_eod, touch_eod, heod₁]
    · right
      rw [if_pos hlen]
      refine ⟨fun hk => hlen (by rw [hk]), _, rfl, ?_, ?_, disk₁.touch _ _,
        ready_touch_lengths disk₁ settled hr, table₁.touch _ _⟩
      · rw [touch_bytes, hbytes₁]
      · rw [touch_eod, heod₁]
  · right
    rw [if_pos hhash]
    exact ⟨fun hk => hhash (by rw [hk]), f₁, rfl, hbytes₁, heod₁, disk₁, settled.ready, table₁⟩

/-- The search from slot `j` of the path on, when the slots before it are of other keys. -/
theorem findLoop_spec (table : Table c.rf R (slot (cdbHash k)) hpos h) (disk : Disk c.rf R)
    (ready : Ready c.rf R) (hpositive : 0 < h.length) {j : Nat} (hj : j + loop = h.length)
    (seen : ∀ n < j, ∃ r p, h[(home (cdbHash k) + n) % h.length]? = some ((cdbHash r.1).toNat, p) ∧
      RecordAt R p r ∧ r.1 ≠ k) :
    ∃ found c', findLoop k (cdbHash k) hpos h.length loop
        (hpos + (home (cdbHash k) + j) % h.length * 8) c = some (found, c') ∧
      Kept R c c' ∧ Result R k found c' := by
  induction loop generalizing c j with
  | zero =>
    -- the table has a free slot, which the search has not met
    obtain hzero | ⟨t, ht, hfree⟩ := table.chain.free
    · omega
    · obtain ⟨n, hn, rfl⟩ := exists_add_mod_eq (home (cdbHash k)) ht
      obtain ⟨r, p, hslot, hr, -⟩ := seen n (by omega)
      rw [hfree, some_inj, Prod.mk.injEq] at hslot
      have := hr.le.1
      omega
  | succ loop ih =>
    obtain ⟨x, hx⟩ : ∃ x, h[(home (cdbHash k) + j) % h.length]? = some x :=
      ⟨_, List.getElem?_eq_getElem (Nat.mod_lt _ hpositive)⟩
    rcases table.chain.slots _ x hx with rfl | ⟨r, p, hr, -, rfl⟩
    · obtain ⟨c', hrun, kept⟩ := findLoop_empty loop table disk ready hx
      refine ⟨false, c', hrun, kept, fun r hr hk => ?_⟩
      -- the path to a record of the key would end before this slot or pass through it
      obtain ⟨p, hp⟩ := exists_recordAt hr
      obtain ⟨n, path, hn⟩ := table.chain.placed r p hp (by rw [hk])
      rw [hk] at path hn
      rcases Nat.lt_trichotomy n j with hlt | rfl | hgt
      · obtain ⟨r', p', hslot, hr', hne⟩ := seen n hlt
        rw [hn, some_inj, Prod.mk.injEq] at hslot
        rw [← hslot.2] at hr'
        exact hne (hp.unique hr' ▸ hk)
      · rw [hx, some_inj, Prod.mk.injEq] at hn
        have := hp.le.1
        omega
      · obtain ⟨y, hy, hbusy⟩ := path.before j hgt
        rw [hx, some_inj] at hy
        rw [← hy] at hbusy
        exact absurd hbusy (by decide)
    · rcases findLoop_record loop table disk ready hr hx with
        ⟨-, c', hrun, kept, result⟩ | ⟨hne, f, hrun, hbytes, heod, disk', ready', table'⟩
      · exact ⟨true, c', hrun, kept, result⟩
      · rw [next_mod hpositive] at hrun
        obtain ⟨found, c', hrun', kept, result⟩ := ih (c := { c with rf := f }) (j := j + 1) table' disk'
          ready' (by omega) (fun n hn => by
            rcases Nat.lt_succ_iff_lt_or_eq.mp hn with hlt | rfl
            · exact seen n hlt
            · exact ⟨r, p, hx, hr, hne⟩)
        refine ⟨found, c', hrun.trans hrun', ⟨?_, ?_, ?_, kept.settled⟩, result⟩
        · exact ⟨kept.lists.removed, kept.lists.added, kept.lists.hlens, kept.lists.writing,
            kept.lists.readonly⟩
        · exact kept.bytes.trans hbytes
        · exact kept.eod.trans heod

end Loop

end Coda.Rwcdb
