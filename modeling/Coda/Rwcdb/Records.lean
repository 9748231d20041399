import Coda.Rwcdb.Database

/-!
The records of a file: where they stand, and that reading one after the other works.

`rwcdb_find` and `rwcdb_next` take the position after the two lengths of a record from
`rf.pos`, which `db_file_mread` sets only when the lengths were not in its cache. `Settled`
is what makes that right: between calls the cached range never holds the lengths of a record.
-/

namespace Coda.Rwcdb

open Coda.Lib List

/-- A key and its data. -/
abbrev Record := Bytes × Bytes

def encode (r : Record) : Bytes := packints r.1.length r.2.length ++ (r.1 ++ r.2)

def encodeAll (R : List Record) : Bytes := R.flatMap encode

theorem length_encode (r : Record) : (encode r).length = 8 + (r.1.length + r.2.length) := by
  rw [encode, length_append, length_append, length_packints]

theorem encodeAll_append (R R' : List Record) : encodeAll (R ++ R') = encodeAll R ++ encodeAll R' :=
  flatMap_append

theorem encodeAll_cons (r : Record) (R : List Record) : encodeAll (r :: R) = encode r ++ encodeAll R :=
  flatMap_cons

theorem encodeAll_singleton (r : Record) : encodeAll [r] = encode r := flatMap_singleton _ r

/-- Record `r` of `R` starts at `p`. -/
def RecordAt (R : List Record) (p : Nat) (r : Record) : Prop :=
  ∃ R₁ R₂, R = R₁ ++ r :: R₂ ∧ p = 2048 + (encodeAll R₁).length

section RecordAt

variable {R : List Record} {p q : Nat} {r r' : Record}

theorem RecordAt.mem (h : RecordAt R p r) : r ∈ R := by
  obtain ⟨R₁, R₂, rfl, -⟩ := h
  exact mem_append_right _ (.head _)

theorem exists_recordAt (h : r ∈ R) : ∃ p, RecordAt R p r := by
  obtain ⟨R₁, R₂, rfl⟩ := append_of_mem h
  exact ⟨_, R₁, R₂, rfl, rfl⟩

theorem RecordAt.le (h : RecordAt R p r) :
    2048 ≤ p ∧ p + (encode r).length ≤ 2048 + (encodeAll R).length := by
  obtain ⟨R₁, R₂, rfl, rfl⟩ := h
  rw [encodeAll_append, encodeAll_cons, length_append, length_append]
  omega

theorem RecordAt.apart (h : RecordAt R p r) (h' : RecordAt R q r') (hpq : p < q) :
    p + (encode r).length ≤ q := by
  obtain ⟨A, B, rfl, rfl⟩ := h
  obtain ⟨A', B', heq, rfl⟩ := h'
  rcases append_eq_append_iff.mp heq with ⟨C, rfl, hC⟩ | ⟨C, rfl, -⟩
  · cases C with
    | nil =>
      rw [append_nil] at hpq
      omega
    | cons s C =>
      obtain rfl : r = s := by
        exact (List.cons.inj hC).1
      rw [encodeAll_append, encodeAll_cons, length_append, length_append]
      omega
  · rw [encodeAll_append, length_append] at hpq
    omega

theorem RecordAt.unique (h : RecordAt R p r) (h' : RecordAt R p r') : r = r' := by
  obtain ⟨A, B, rfl, rfl⟩ := h
  obtain ⟨A', B', heq, hlen⟩ := h'
  have longer : ∀ A s C, (encodeAll A).length < (encodeAll (A ++ s :: C)).length := by
    intro A s C
    rw [encodeAll_append, encodeAll_cons, length_append, length_append, length_encode]
    omega
  rcases append_eq_append_iff.mp heq with ⟨C, rfl, hC⟩ | ⟨C, rfl, hC⟩
  · cases C with
    | nil => exact (List.cons.inj hC).1
    | cons s C =>
      have := longer A s C
      omega
  · cases C with
    | nil => exact (List.cons.inj hC).1.symm
    | cons s C =>
      have := longer A' s C
      omega

end RecordAt

/-- The records with their positions, the first one at `p`. -/
def locate : Nat → List Record → List (Record × Nat)
  | _, [] => []
  | p, r :: R => (r, p) :: locate (p + (encode r).length) R

theorem locate_append (p : Nat) (R R' : List Record) :
    locate p (R ++ R') = locate p R ++ locate (p + (encodeAll R).length) R' := by
  induction R generalizing p with
  | nil => rfl
  | cons r R ih =>
    rw [cons_append, locate, locate, ih, encodeAll_cons, length_append, ← Nat.add_assoc,
      cons_append]

theorem mem_locate {R : List Record} {p : Nat} {r : Record} :
    (r, p) ∈ locate 2048 R ↔ RecordAt R p r := by
  have from_ : ∀ q R, (r, p) ∈ locate q R ↔
      ∃ R₁ R₂, R = R₁ ++ r :: R₂ ∧ p = q + (encodeAll R₁).length := by
    intro q R
    induction R generalizing q with
    | nil =>
      refine iff_of_false not_mem_nil ?_
      rintro ⟨R₁, R₂, h, -⟩
      exact append_ne_nil_of_right_ne_nil R₁ (cons_ne_nil r R₂) h.symm
    | cons s R ih =>
      rw [locate, mem_cons, ih]
      constructor
      · rintro (h | ⟨R₁, R₂, rfl, rfl⟩)
        · obtain ⟨rfl, rfl⟩ := Prod.mk.inj h
          exact ⟨[], R, rfl, rfl⟩
        · refine ⟨s :: R₁, R₂, rfl, ?_⟩
          rw [encodeAll_cons, length_append, Nat.add_assoc]
      · rintro ⟨R₁, R₂, h, rfl⟩
        cases R₁ with
        | nil =>
          obtain ⟨rfl, rfl⟩ := List.cons.inj h
          exact .inl rfl
        | cons s' R₁ =>
          obtain ⟨rfl, rfl⟩ := List.cons.inj h
          refine .inr ⟨R₁, R₂, rfl, ?_⟩
          rw [encodeAll_cons, length_append, Nat.add_assoc]
  exact from_ 2048 R

/-! ### Files with records -/

/-- The records of `f` are `R`. -/
structure Disk (f : DbFile) (R : List Record) : Prop where
  size : f.bytes.length < 4294967296
  eod : f.eod = 2048 + (encodeAll R).length
  record : ∀ p r, RecordAt R p r → Slice f.bytes p (encode r)
  data : ∀ r ∈ R, r.2 ≠ []

/-- The lengths of no record are cached. -/
def Settled (f : DbFile) (R : List Record) : Prop := ∀ p r, RecordAt R p r → cached f 8 p = false

section Disk

variable {f : DbFile} {R : List Record} {p : Nat} {r : Record}

theorem Disk.touch (disk : Disk f R) (len pos : Nat) : Disk (f.touch len pos) R where
  size := by rw [touch_bytes]; exact disk.size
  eod := by rw [touch_eod]; exact disk.eod
  record := by rw [touch_bytes]; exact disk.record
  data := disk.data

theorem Disk.length_le (disk : Disk f R) : R.length ≤ f.bytes.length := by
  rcases eq_nil_or_concat R with rfl | ⟨R', r, rfl⟩
  · exact Nat.zero_le _
  · have hcount : ∀ R : List Record, R.length ≤ (encodeAll R).length := by
      intro R
      induction R with
      | nil => exact Nat.le_refl 0
      | cons r R ih =>
        rw [encodeAll_cons, length_append, length_encode, length_cons]
        omega
    have hlast := (disk.record _ r ⟨R', [], by rw [concat_eq_append], rfl⟩).le
    have hle := hcount R'
    rw [length_concat]
    omega

theorem settled_touch {len pos : Nat} (settled : cached f len pos = true → Settled f R)
    (outside : ∀ p r, RecordAt R p r → ¬ (pos ≤ p ∧ p + 8 ≤ pos + len)) :
    Settled (f.touch len pos) R := by
  intro p r h
  cases hc : cached f len pos with
  | true =>
    rw [touch_of_cached hc]
    exact settled hc p r h
  | false =>
    rw [touch_of_not_cached hc, cached_eq_false]
    exact outside p r h

/-- Reads before the first record. -/
theorem settled_touch_header (len pos : Nat) (settled : Settled f R) (h : pos + len ≤ 2048) :
    Settled (f.touch len pos) R :=
  settled_touch (fun _ => settled) fun p r hr => by
    have := hr.le.1
    omega

/-- Reads behind the last record. -/
theorem settled_touch_table (disk : Disk f R) {len pos : Nat}
    (settled : cached f len pos = true → Settled f R) (h : f.eod ≤ pos) :
    Settled (f.touch len pos) R :=
  settled_touch settled fun p r hr => by
    have hle := hr.le.2
    have heod := disk.eod
    rw [length_encode] at hle
    omega

/-- Reads inside one record, behind its lengths. -/
theorem settled_touch_body (len pos : Nat) (settled : Settled f R) (h : RecordAt R p r)
    (hpos : p + 8 ≤ pos) (hlen : pos + len ≤ p + (encode r).length) :
    Settled (f.touch len pos) R :=
  settled_touch (fun _ => settled) fun q r' hr' => by
    rcases Nat.lt_or_ge p q with hpq | hpq
    · have := h.apart hr' hpq
      omega
    · omega

section

variable (disk : Disk f R) (h : RecordAt R p r)
include disk h

/-- The lengths of a record, read from the disk. -/
theorem Disk.readints : dbReadints f p = some ((r.1.length, r.2.length), f.touch 8 p) := by
  have hslice := disk.record p r h
  have hle := hslice.le
  have hsize := disk.size
  rw [length_encode] at hle
  exact dbReadints_slice hslice.left (by omega) (by omega)

theorem Disk.mread_body :
    dbFileMread f (r.1.length + r.2.length) (p + 8) =
      some (r.1 ++ r.2, f.touch (r.1.length + r.2.length) (p + 8)) := by
  have := dbFileMread_slice (disk.record p r h).right
  rwa [length_append] at this

theorem Disk.mread_data :
    dbFileMread f r.2.length (p + 8 + r.1.length) =
      some (r.2, f.touch r.2.length (p + 8 + r.1.length)) :=
  dbFileMread_slice (disk.record p r h).right.right

end

/-- After the lengths and then the rest of a record were read. -/
theorem Settled.read_record (disk : Disk f R) (settled : Settled f R) (h : RecordAt R p r) :
    (f.touch 8 p).pos = p + 8 ∧
    ((f.touch 8 p).touch (r.1.length + r.2.length) (p + 8)).pos = p + (encode r).length ∧
    Settled ((f.touch 8 p).touch (r.1.length + r.2.length) (p + 8)) R ∧
    cached ((f.touch 8 p).touch (r.1.length + r.2.length) (p + 8)) (r.1.length + r.2.length) (p + 8)
      = true := by
  have hdata := length_pos_of_ne_nil (disk.data r h.mem)
  rw [touch_of_not_cached (settled p r h)]
  rw [touch_of_not_cached (cached_eq_false.mpr (by dsimp only; omega))]
  refine ⟨rfl, ?_, fun q r' hr' => ?_, ?_⟩
  · rw [length_encode, Nat.add_assoc]
  · rw [cached_eq_false]
    dsimp only
    rcases Nat.lt_or_ge p q with hpq | hpq
    · have := h.apart hr' hpq
      rw [length_encode] at this
      omega
    · omega
  · rw [cached_eq_true]
    exact ⟨Nat.le_refl _, Nat.le_refl _⟩

end Disk

end Coda.Rwcdb
