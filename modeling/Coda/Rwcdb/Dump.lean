import Coda.Rwcdb.Pending
import Coda.Rwcdb.Records

/-!
`dump_records`: first the records of the old file that no update replaces, then the added
ones. What comes out is the file content, an entry with its position for every old record,
and the added entries with theirs.
-/

namespace Coda.Rwcdb

open Coda.Lib List Option Function OutFile

/-- No update is pending for the record. -/
def live (c : Db) (r : Record) : Bool := (ispending c r.1 (cdbHash r.1)).isNone

variable {c : Db} {R : List Record} {r : Record} {wf : OutFile}

/-! ### Records of the old file -/

/-- The state after `rwcdb_next` has found a record at `p`. -/
def Db.found (c : Db) (f : DbFile) (p : Nat) (r : Record) : Db :=
  { c with
    rf := f, index := p + (encode r).length, pending := none, hash := cdbHash r.1
    klen := r.1.length, dlen := r.2.length, dpos := p + 8 + r.1.length }

/-- One round of `rwcdb_next` over a record. -/
theorem rwcdbNext_record (disk : Disk c.rf R) (settled : Settled c.rf R)
    (h : RecordAt R c.index r) (fuel : Nat) :
    ∃ f, Disk f R ∧ Settled f R ∧ f.bytes = c.rf.bytes ∧
      cached f (r.1.length + r.2.length) (c.index + 8) = true ∧
      rwcdbNext (fuel + 1) c =
        if live c r then some (true, c.found f c.index r)
        else rwcdbNext fuel { c with rf := f, index := c.index + (encode r).length } := by
  obtain ⟨hpos₁, hpos₂, settled₂, hcached⟩ := settled.read_record disk h
  have hle := h.le.2
  have heod := disk.eod
  refine ⟨_, (disk.touch 8 c.index).touch _ _, settled₂, by simp, hcached, ?_⟩
  rw [rwcdbNext, if_pos (by rw [length_encode] at hle; omega), disk.readints h]
  simp only [bind_eq_bind, bind_some, hpos₁,
    (disk.touch 8 c.index).mread_body h, take_left]
  rw [hpos₂, live]
  cases hp : ispending c r.1 (cdbHash r.1) with
  | some w => rfl
  | none =>
    have hdpos : c.index + (encode r).length - r.2.length = c.index + 8 + r.1.length := by
      rw [length_encode]
      omega
    simp only [hdpos]
    rfl

/-- `rwcdb_next` goes to the next record that is live, or behind the last record. -/
theorem rwcdbNext_live {R₁ R₂ : List Record} (hR : R = R₁ ++ R₂) {fuel : Nat}
    (hfuel : R₂.length < fuel) (hindex : c.index = 2048 + (encodeAll R₁).length)
    (disk : Disk c.rf R) (settled : Settled c.rf R) :
    (∃ S r T f, R₂ = S ++ r :: T ∧ S.filter (live c) = [] ∧ live c r = true ∧ Disk f R ∧
      Settled f R ∧ f.bytes = c.rf.bytes ∧
      cached f (r.1.length + r.2.length) (2048 + (encodeAll (R₁ ++ S)).length + 8) = true ∧
      rwcdbNext fuel c = some (true, c.found f (2048 + (encodeAll (R₁ ++ S)).length) r)) ∨
    (R₂.filter (live c) = [] ∧ ∃ f fuel', Disk f R ∧ Settled f R ∧ f.bytes = c.rf.bytes ∧
      rwcdbNext fuel c = rwcdbNext (fuel' + 1) { c with rf := f, index := c.rf.eod }) := by
  induction R₂ generalizing c fuel R₁ with
  | nil =>
    right
    obtain ⟨fuel, rfl⟩ : ∃ n, fuel = n + 1 := ⟨fuel - 1, by rw [length_nil] at hfuel; omega⟩
    have heod := disk.eod
    rw [hR, append_nil, ← hindex] at heod
    exact ⟨rfl, c.rf, fuel, disk, settled, rfl, by rw [heod]⟩
  | cons r R₂ ih =>
    obtain ⟨fuel, rfl⟩ : ∃ n, fuel = n + 1 := ⟨fuel - 1, by omega⟩
    have hat : RecordAt R c.index r := ⟨R₁, R₂, hR, hindex⟩
    obtain ⟨f, disk', settled', hbytes, hcached, hnext⟩ := rwcdbNext_record disk settled hat fuel
    by_cases hlive : live c r = true
    · left
      rw [if_pos hlive, hindex] at hnext
      rw [hindex] at hcached
      exact ⟨[], r, R₂, f, rfl, rfl, hlive, disk', settled', hbytes,
        by rw [append_nil]; exact hcached, by rw [append_nil]; exact hnext⟩
    · rw [if_neg hlive] at hnext
      have hindex' : c.index + (encode r).length = 2048 + (encodeAll (R₁ ++ [r])).length := by
        rw [encodeAll_append, encodeAll_singleton, length_append, hindex, Nat.add_assoc]
      have heod : f.eod = c.rf.eod := by rw [disk'.eod, disk.eod]
      have hfuel' : R₂.length < fuel := by
        rw [length_cons] at hfuel
        omega
      rcases ih (c := { c with rf := f, index := c.index + (encode r).length })
        (by rw [hR, append_assoc, singleton_append]) hfuel' hindex' disk' settled' with
        ⟨S, s, T, f', hsplit, hS, hs, h₁, h₂, h₃, h₄, h₅⟩ | ⟨hnone, f', fuel', h₁, h₂, h₃, h₄⟩
      · left
        rw [append_assoc] at h₄ h₅
        refine ⟨r :: S, s, T, f', by rw [hsplit, cons_append], ?_, hs, h₁, h₂, h₃.trans hbytes, h₄,
          hnext.trans h₅⟩
        rw [filter_cons_of_neg hlive]
        exact hS
      · right
        refine ⟨?_, f', fuel', h₁, h₂, h₃.trans hbytes, ?_⟩
        · rw [filter_cons_of_neg hlive]
          exact hnone
        · rw [hnext, h₄]
          rw [heod]

/-- The same lists, in a state that may differ in everything else. -/
structure SameLists (c c' : Db) : Prop where
  removed : c'.removed = c.removed
  added : c'.added = c.added
  hlens : c'.hlens = c.hlens
  writing : c'.writing = c.writing
  readonly : c'.readonly = c.readonly

theorem SameLists.live {c' : Db} (same : SameLists c c') : live c' = live c := by
  funext r
  unfold Coda.Rwcdb.live ispending
  rw [same.removed, same.added, same.hlens]

/-- The entry that `dump_records` makes for a record of the old file. -/
def rewrite (r : Record × Nat) : WrEntry := ⟨cdbHash r.1.1, r.2, [], []⟩

/-- Two writes, as for every record. -/
def writeRecord (wf : OutFile) (r : Record) : OutFile :=
  dbFileWrite (dbFileWrite wf (packints r.1.length r.2.length)) (r.1 ++ r.2)

theorem write_record (ok : wf.OK) (r : Record) :
    (writeRecord wf r).OK ∧ (writeRecord wf r).content = wf.content ++ encode r ∧
    (writeRecord wf r).pos = wf.pos + (encode r).length := by
  obtain ⟨ok₁, content₁⟩ := dbFileWrite_spec ok (packints r.1.length r.2.length)
  obtain ⟨ok₂, content₂⟩ := dbFileWrite_spec ok₁ (r.1 ++ r.2)
  have content : (writeRecord wf r).content = wf.content ++ encode r := by
    rw [writeRecord, content₂, content₁, append_assoc, encode]
  refine ⟨ok₂, content, ?_⟩
  rw [writeRecord, ok₂.pos, ← writeRecord, content, length_append, ok.pos, Nat.add_assoc]

theorem write_records (ok : wf.OK) (R : List Record) :
    (R.foldl writeRecord wf).OK ∧ (R.foldl writeRecord wf).content = wf.content ++ encodeAll R := by
  induction R generalizing wf with
  | nil => exact ⟨ok, (append_nil _).symm⟩
  | cons r R ih =>
    obtain ⟨ok₁, content₁, -⟩ := write_record ok r
    obtain ⟨ok₂, content₂⟩ := ih ok₁
    exact ⟨ok₂, by rw [foldl_cons, content₂, content₁, encodeAll_cons, append_assoc]⟩

/-- After the records of the old file: what is left of it has updates, the others are written
and have entries. -/
theorem dumpRecords_disk {R₁ R₂ : List Record} (hR : R = R₁ ++ R₂)
    (hindex : c.index = 2048 + (encodeAll R₁).length) (disk : Disk c.rf R)
    (settled : Settled c.rf R) (ok : wf.OK) (old : List WrEntry) (fuel : Nat) :
    ∃ c' R₁' R₂', SameLists c c' ∧ R = R₁' ++ R₂' ∧ R₂'.filter (live c) = [] ∧
      c'.index = 2048 + (encodeAll R₁').length ∧ Disk c'.rf R ∧ Settled c'.rf R ∧
      dumpRecords (fuel + (R₂.filter (live c)).length) c old wf =
        dumpRecords fuel c' (old ++ (locate wf.pos (R₂.filter (live c))).map rewrite)
          ((R₂.filter (live c)).foldl writeRecord wf) := by
  induction hn : R₂.length using Nat.strongRecOn generalizing c R₁ R₂ wf old with
  | ind n ih =>
    subst hn
    have hfuel : R₂.length < c.rf.bytes.length + 1 := by
      have := disk.length_le
      rw [hR, length_append] at this
      omega
    rcases rwcdbNext_live hR hfuel hindex disk settled with
      ⟨S, r, T, f, rfl, hS, hr, disk', settled', -, hcached, hnext⟩ | ⟨hnone, -⟩
    · have hfilter : (S ++ r :: T).filter (live c) = r :: T.filter (live c) := by
        rw [filter_append, hS, nil_append, filter_cons_of_pos hr]
      have hat : RecordAt R (2048 + (encodeAll (R₁ ++ S)).length) r :=
        ⟨R₁ ++ S, T, by rw [hR, append_assoc], rfl⟩
      generalize hp : 2048 + (encodeAll (R₁ ++ S)).length = p at hcached hnext hat
      obtain ⟨ok₁, -, pos₁⟩ := write_record ok r
      -- one record written, with its entry
      have hstep : ∀ m, dumpRecords (m + 1) c old wf = dumpRecords m (c.found f p r)
          (old ++ [rewrite (r, wf.pos)]) (writeRecord wf r) := by
        intro m
        have hread := disk'.mread_body hat
        rw [touch_of_cached hcached] at hread
        have hpos : p + 8 + r.1.length - r.1.length = p + 8 := Nat.add_sub_cancel _ _
        rw [dumpRecords, hnext]
        simp only [bind_eq_bind, bind_some, Db.found, not_true_eq_false, if_false,
          hpos, hread]
        rfl
      have hindex' : (c.found f p r).index = 2048 + (encodeAll (R₁ ++ S ++ [r])).length := by
        rw [encodeAll_append, encodeAll_singleton, length_append, ← Nat.add_assoc, hp]
        rfl
      have same₁ : SameLists c (c.found f p r) := ⟨rfl, rfl, rfl, rfl, rfl⟩
      have hlen : T.length < (S ++ r :: T).length := by
        rw [length_append, length_cons]
        omega
      obtain ⟨c', R₁', R₂', same, hR', hnone, hindex'', disk'', settled'', hdump⟩ :=
        ih T.length hlen
          (by rw [hR]; simp only [append_assoc, singleton_append]) hindex' disk' settled' ok₁
          (old ++ [rewrite (r, wf.pos)]) rfl
      rw [same₁.live] at hnone hdump
      refine ⟨c', R₁', R₂', { same with }, hR', hnone, hindex'', disk'', settled'', ?_⟩
      rw [hfilter, length_cons, ← Nat.add_assoc, hstep, hdump, pos₁, locate, map_cons,
        append_assoc, singleton_append, foldl_cons]
    · rw [hnone]
      exact ⟨c, R₁, R₂, ⟨rfl, rfl, rfl, rfl, rfl⟩, hR, hnone, hindex, disk, settled,
        by rw [locate, map_nil, append_nil]; rfl⟩

/-! ### Added records -/

def WrEntry.record (w : WrEntry) : Record := (w.key, w.data)

/-- The entries with their positions, the first one at `p`. -/
def assign : Nat → List WrEntry → List WrEntry
  | _, [] => []
  | p, w :: ws => { w with pos := p } :: assign (p + (encode w.record).length) ws

theorem rwcdbNext_added {t : Nat} (hindex : c.index = c.rf.eod + t) (fuel : Nat) :
    rwcdbNext (fuel + 1) c = match fromhash c t with
      | none => some (false, { c with pending := none })
      | some (i, n) => do
        let w ← (c.added i)[n]?
        return (true, { c with
          pending := some (i, n), klen := w.key.length, dlen := w.data.length, dpos := c.index
          index := c.index + 1 }) := by
  rewrite [rwcdbNext, if_neg (by omega), show c.index - c.rf.eod = t by omega]
  rfl

/-- From the added entry with number `t` on. -/
theorem dumpRecords_added {t m : Nat} (pend : Pending c) (hindex : c.index = c.rf.eod + t)
    (hm : (flat c).length = t + m) (ok : wf.OK) (old : List WrEntry) (fuel : Nat) :
    ∃ c', dumpRecords (fuel + m + 1) c old wf =
        some (c', old, (((flat c).drop t).map WrEntry.record).foldl writeRecord wf) ∧
      flat c' = (flat c).take t ++ assign wf.pos ((flat c).drop t) ∧ Pending c' ∧
      c'.hlens = c.hlens ∧ c'.readonly = c.readonly := by
  induction m generalizing c t wf with
  | zero =>
    have hend : (flat c).drop t = [] := drop_of_length_le (by omega)
    have hnone : fromhash c t = none := by
      rcases fromhash_spec pend t with ⟨hnone, -⟩ | ⟨i, n, w, -, -, hget⟩
      · exact hnone
      · have := (List.getElem?_eq_some_iff.mp hget).1
        omega
    refine ⟨{ c with pending := none }, ?_, ?_, ?_, rfl, rfl⟩
    · rw [hend, dumpRecords, rwcdbNext_added hindex, hnone]
      rfl
    · rw [hend, assign, append_nil, take_of_length_le (by omega)]
      rfl
    · exact pend.congr rfl rfl fun _ => rfl
  | succ m ih =>
    rcases fromhash_spec pend t with ⟨-, hle⟩ | ⟨i, n, w, hfrom, hw, hget⟩
    · omega
    obtain ⟨hlt, hgetElem⟩ := List.getElem?_eq_some_iff.mp hget
    obtain ⟨ok₁, -, pos₁⟩ := write_record ok w.record
    -- the entry gets its position
    obtain ⟨c₁, hc₁⟩ : ∃ c₁ : Db, c₁ = { c with
        pending := some (i, n), klen := w.key.length, dlen := w.data.length, dpos := c.index
        index := c.index + 1
        added := update c.added i ((c.added i).set n { w with pos := wf.pos }) } := ⟨_, rfl⟩
    have hflat : flat c₁ = (flat c).set t { w with pos := wf.pos } := by
      rw [hc₁]
      exact flat_update pend _ hfrom
    have hstep : ∀ k, dumpRecords (k + 1) c old wf = dumpRecords k c₁ old (writeRecord wf w.record) := by
      intro k
      rw [dumpRecords, rwcdbNext_added hindex, hfrom]
      simp only [hw, bind_eq_bind, bind_some, Option.pure_def, not_true_eq_false]
      rw [hc₁]
      rfl
    have pend₁ : Pending c₁ := by
      rw [hc₁]
      exact pend.congr rfl rfl (shape_setPos hw wf.pos)
    have hlen : (flat c₁).length = t + 1 + m := by
      rw [hflat, length_set]
      omega
    obtain ⟨c', hdump, hflat', pend', hhlens, hro⟩ :=
      ih pend₁ (by rw [hc₁]; dsimp only; omega) hlen ok₁
    have hdrop : (flat c).drop t = w :: (flat c).drop (t + 1) := by
      rw [drop_eq_getElem_cons hlt, hgetElem]
    have hdrop₁ : (flat c₁).drop (t + 1) = (flat c).drop (t + 1) := by
      rw [hflat, drop_set_of_lt (Nat.lt_succ_self t)]
    have htake₁ : (flat c₁).take (t + 1) = (flat c).take t ++ [{ w with pos := wf.pos }] := by
      rw [take_add_one, hflat, take_set_of_le (Nat.le_refl t), List.getElem?_set_self hlt]
      rfl
    refine ⟨c', ?_, ?_, pend', ?_, ?_⟩
    · rw [show fuel + (m + 1) + 1 = fuel + m + 1 + 1 by omega, hstep, hdump, hdrop₁, hdrop,
        map_cons, foldl_cons]
    · rw [hflat', hdrop₁, htake₁, hdrop, assign, pos₁, append_assoc, singleton_append]
    · rw [hhlens, hc₁]
    · rw [hro, hc₁]

/-! ### The whole dump -/

/-- The records of the new file. -/
def newRecords (c : Db) (R : List Record) : List Record :=
  R.filter (live c) ++ (flat c).map WrEntry.record

/-- Nothing is left of the old file. -/
theorem dumpRecords_tail {R₁ R₂ : List Record} (hR : R = R₁ ++ R₂) (hnone : R₂.filter (live c) = [])
    (hindex : c.index = 2048 + (encodeAll R₁).length) (disk : Disk c.rf R)
    (settled : Settled c.rf R) (old : List WrEntry) (wf : OutFile) (fuel : Nat) :
    ∃ f, dumpRecords (fuel + 1) c old wf =
      dumpRecords (fuel + 1) { c with rf := f, index := f.eod } old wf := by
  have hfuel : R₂.length < c.rf.bytes.length + 1 := by
    have := disk.length_le
    rw [hR, length_append] at this
    omega
  rcases rwcdbNext_live hR hfuel hindex disk settled with
    ⟨S, r, T, f, rfl, hS, hr, -⟩ | ⟨-, f, fuel', disk', -, hbytes, hnext⟩
  · rw [filter_append, filter_cons_of_pos hr] at hnone
    exact absurd hnone (append_ne_nil_of_right_ne_nil _ (cons_ne_nil _ _))
  · refine ⟨f, ?_⟩
    have heod : c.rf.eod = f.eod := by rw [disk.eod, disk'.eod]
    rw [heod] at hnext
    rw [dumpRecords, dumpRecords, hnext, rwcdbNext_added (t := 0) rfl, rwcdbNext_added (t := 0) rfl]

theorem dumpRecords_spec (pend : Pending c) (hindex : c.index = 2048) (disk : Disk c.rf R)
    (settled : Settled c.rf R) :
    ∃ c', dumpRecords (c.rf.bytes.length + (flat c).length + 1) c [] OutFile.start =
        some (c', (locate 2048 (R.filter (live c))).map rewrite,
          (newRecords c R).foldl writeRecord OutFile.start) ∧
      flat c' = assign (2048 + (encodeAll (R.filter (live c))).length) (flat c) ∧ Pending c' ∧
      c'.readonly = c.readonly := by
  have hcount : (R.filter (live c)).length ≤ c.rf.bytes.length :=
    Nat.le_trans (length_filter_le _ _) disk.length_le
  obtain ⟨c₁, R₁, R₂, same, hR, hnone, hindex₁, disk₁, settled₁, hdump₁⟩ :=
    dumpRecords_disk (show R = [] ++ R from rfl) hindex disk settled ok_start []
      (c.rf.bytes.length - (R.filter (live c)).length + (flat c).length + 1)
  obtain ⟨ok₁, content₁⟩ := write_records ok_start (R.filter (live c))
  have hpos₁ : ((R.filter (live c)).foldl writeRecord start).pos =
      2048 + (encodeAll (R.filter (live c))).length := by
    rw [ok₁.pos, content₁]
    rfl
  rw [← same.live] at hnone
  obtain ⟨f, htail⟩ := dumpRecords_tail hR hnone hindex₁ disk₁ settled₁
    ([] ++ (locate start.pos (R.filter (live c))).map rewrite)
    ((R.filter (live c)).foldl writeRecord start)
    (c.rf.bytes.length - (R.filter (live c)).length + (flat c).length)
  have hflat : flat { c₁ with rf := f, index := f.eod } = flat c := by
    simp only [flat, same.added]
  have pend₁ : Pending { c₁ with rf := f, index := f.eod } :=
    pend.congr same.removed same.hlens fun i => by simp only [same.added]
  obtain ⟨c', hdump, hflat', pend', -, hro⟩ :=
    dumpRecords_added pend₁ rfl (by rw [hflat, Nat.zero_add]) ok₁
      ([] ++ (locate start.pos (R.filter (live c))).map rewrite)
      (c.rf.bytes.length - (R.filter (live c)).length)
  refine ⟨c', ?_, ?_, pend', hro.trans same.readonly⟩
  · rw [show c.rf.bytes.length + (flat c).length + 1 =
        c.rf.bytes.length - (R.filter (live c)).length + (flat c).length + 1 +
          (R.filter (live c)).length by omega, hdump₁, htail, hdump, hflat, drop_zero, newRecords,
      foldl_append]
    rfl
  · rw [hflat', hflat, hpos₁]
    rfl

/-! ### The lists that the tables are made from -/

theorem moveRewrites_spec (ws : List WrEntry) (c : Db) (i : BitVec 8) :
    (moveRewrites c ws).added i = (ws.filter fun w => slot w.hash = i).reverse ++ c.added i ∧
    (moveRewrites c ws).hlens i = (ws.filter fun w => slot w.hash = i).length + c.hlens i ∧
    (moveRewrites c ws).readonly = c.readonly := by
  induction ws generalizing c with
  | nil => exact ⟨rfl, (Nat.zero_add _).symm, rfl⟩
  | cons w ws ih =>
    obtain ⟨hadded, hhlens, hro⟩ := ih
      { c with
        added := update c.added (slot w.hash) (w :: c.added (slot w.hash))
        hlens := update c.hlens (slot w.hash) (c.hlens (slot w.hash) + 1) }
    refine ⟨hadded.trans ?_, hhlens.trans ?_, hro⟩
    · dsimp only
      by_cases hi : slot w.hash = i
      · subst hi
        rw [filter_cons_of_pos (by simp), reverse_cons, append_assoc,
          singleton_append, update_self]
      · rw [filter_cons_of_neg (by simpa using hi), update_of_ne (Ne.symm hi)]
    · dsimp only
      by_cases hi : slot w.hash = i
      · subst hi
        rw [filter_cons_of_pos (by simp), length_cons, update_self]
        omega
      · rw [filter_cons_of_neg (by simpa using hi), update_of_ne (Ne.symm hi)]

/-- The hashes and positions of the records. -/
def entries (R : List Record) : List (BitVec 32 × Nat) :=
  (locate 2048 R).map fun x => (cdbHash x.1.1, x.2)

theorem mem_entries {e : BitVec 32 × Nat} :
    e ∈ entries R ↔ ∃ r, RecordAt R e.2 r ∧ e.1 = cdbHash r.1 := by
  rw [entries, List.mem_map]
  constructor
  · rintro ⟨⟨r, p⟩, h, rfl⟩
    exact ⟨r, mem_locate.mp h, rfl⟩
  · rintro ⟨r, h, heq⟩
    exact ⟨(r, e.2), mem_locate.mpr h, Prod.ext heq.symm rfl⟩

theorem map_assign (p : Nat) (ws : List WrEntry) (hashed : ∀ w ∈ ws, w.hash = cdbHash w.key) :
    (assign p ws).map (fun w => (w.hash, w.pos)) =
      (locate p (ws.map WrEntry.record)).map fun x => (cdbHash x.1.1, x.2) := by
  induction ws generalizing p with
  | nil => rfl
  | cons w ws ih =>
    rw [assign, map_cons, map_cons, locate, map_cons,
      ih _ fun w' hw' => hashed w' (mem_cons_of_mem w hw')]
    rw [hashed w mem_cons_self]
    rfl

/-- Each list has the records of its slot, every one once. -/
theorem moved_perm {c' : Db} (pend : Pending c) (pend' : Pending c')
    (hflat : flat c' = assign (2048 + (encodeAll (R.filter (live c))).length) (flat c))
    (i : BitVec 8) {ws : List WrEntry} (hws : (locate 2048 (R.filter (live c))).map rewrite = ws) :
    (((moveRewrites c' ws).added i).map fun w => (w.hash, w.pos)).Perm
      ((entries (newRecords c R)).filter fun e => slot e.1 = i) ∧
    (moveRewrites c' ws).hlens i = ((moveRewrites c' ws).added i).length := by
  obtain ⟨hadded, hhlens, -⟩ := moveRewrites_spec ws c' i
  constructor
  · have hentries : entries (newRecords c R) = (ws ++ flat c').map fun w => (w.hash, w.pos) := by
      rw [entries, newRecords, locate_append, map_append, map_append, hflat, map_assign,
        ← hws, List.map_map]
      · rfl
      · intro w hw
        obtain ⟨j, -, hw⟩ := mem_flatMap.mp hw
        exact (pend.added j w hw).1
    rw [hadded, hentries, List.filter_map, filter_append]
    refine List.Perm.map _ ?_
    have hpart := filter_flat (fun j w hw => (pend'.added j w hw).2.1) i
    rw [show ((fun e : BitVec 32 × Nat => decide (slot e.1 = i)) ∘ fun w : WrEntry => (w.hash, w.pos)) =
      fun w => decide (slot w.hash = i) from rfl, hpart]
    exact (reverse_perm _).append_right _
  · rw [hhlens, hadded, length_append, length_reverse, pend'.hlens]

end Coda.Rwcdb
