import Coda.Al.AccessText
import Mathlib.Data.List.Pairwise

/-!
When `AL_CheckRights` is right about a list that `AL_Internalize` made.

The walk collects the rights of the entries that no entry with a larger id precedes. The second
call of `qsort` sorts in descending order, and it starts at entry `m` where the minus entries
start at entry `p`: the text is `InOrder` if that call does no harm.
-/

namespace Coda.Al

open Coda.Lib List

/-! ### The walk -/

/-- `e` is an entry that no larger id precedes. -/
def Reached (es : List AccessEntry) (e : AccessEntry) : Prop :=
  ∃ xs ys, es = xs ++ e :: ys ∧ ∀ x ∈ xs, x.id ≤ e.id

variable {es xs ys : List AccessEntry} {e a : AccessEntry} {cps : List Int} {q : Qsort AccessEntry}
  {p m b : Nat}

theorem Reached.mem (h : Reached es e) : e ∈ es := by
  obtain ⟨xs, ys, rfl, -⟩ := h
  exact mem_append_right _ (.head _)

theorem reached_cons {as : List AccessEntry} :
    Reached (a :: as) e ↔ e = a ∨ a.id ≤ e.id ∧ Reached as e := by
  constructor
  · rintro ⟨xs, ys, heq, hle⟩
    cases xs with
    | nil => exact .inl (List.cons.inj heq).1.symm
    | cons x xs =>
      obtain ⟨rfl, rfl⟩ := List.cons.inj heq
      exact .inr ⟨hle a (.head _), xs, ys, rfl, fun y hy => hle y (.tail a hy)⟩
  · rintro (rfl | ⟨hle, xs, ys, rfl, hall⟩)
    · exact ⟨[], as, rfl, nofun⟩
    · exact ⟨a :: xs, ys, rfl, forall_mem_cons.mpr ⟨hle, hall⟩⟩

theorem not_reached_nil : ¬ Reached [] e := fun h => not_mem_nil h.mem

/-- Over a sorted CPS the walk collects the rights of the entries that are reached. -/
theorem collectRights_getLsbD (rights : BitVec 32) (es : List AccessEntry) (cps : List Int) (b : Nat)
    (sorted : cps.Pairwise (· ≤ ·)) :
    (collectRights rights es cps).getLsbD b = true ↔
      rights.getLsbD b = true ∨ ∃ e, Reached es e ∧ e.id ∈ cps ∧ e.rights.getLsbD b = true := by
  fun_induction collectRights rights es cps with
  | case1 rights cps =>
    refine (or_iff_left ?_).symm
    rintro ⟨e, he, -⟩
    exact not_reached_nil he
  | case2 rights a as =>
    refine (or_iff_left ?_).symm
    rintro ⟨e, -, he, -⟩
    exact not_mem_nil he
  | case3 rights a as c cs hlt ih =>
    -- the ids of the CPS from here on are larger than that of `a`
    have hge : ∀ x ∈ c :: cs, c ≤ x :=
      forall_mem_cons.mpr ⟨le_refl c, (pairwise_cons.mp sorted).1⟩
    rw [ih sorted]
    refine or_congr_right (exists_congr fun e => ?_)
    rw [reached_cons]
    constructor
    · rintro ⟨he, hid, hb⟩
      exact ⟨.inr ⟨(hlt.trans_le (hge _ hid)).le, he⟩, hid, hb⟩
    · rintro ⟨rfl | ⟨-, he⟩, hid, hb⟩
      · exact absurd (hge _ hid) (not_le.mpr hlt)
      · exact ⟨he, hid, hb⟩
  | case4 rights a as cs hlt ih =>
    have hge : ∀ x ∈ a.id :: cs, a.id ≤ x :=
      forall_mem_cons.mpr ⟨le_refl _, (pairwise_cons.mp sorted).1⟩
    rw [ih sorted, BitVec.getLsbD_or, Bool.or_eq_true, or_assoc]
    refine or_congr_right ?_
    constructor
    · rintro (hb | ⟨e, he, hid, hb⟩)
      · exact ⟨a, reached_cons.mpr (.inl rfl), .head _, hb⟩
      · exact ⟨e, reached_cons.mpr (.inr ⟨hge _ hid, he⟩), hid, hb⟩
    · rintro ⟨e, he, hid, hb⟩
      rcases reached_cons.mp he with rfl | ⟨-, he⟩
      · exact .inl hb
      · exact .inr ⟨e, he, hid, hb⟩
  | case5 rights a as c cs hlt hne ih =>
    rw [ih (pairwise_cons.mp sorted).2]
    refine or_congr_right (exists_congr fun e => and_congr_right fun he => and_congr_left fun _ => ?_)
    rw [mem_cons]
    refine (or_iff_right ?_).symm
    rcases reached_cons.mp he with rfl | ⟨hle, -⟩
    · exact hne
    · omega

theorem rightsOf_getLsbD (es : List AccessEntry) (cps : List Int) (b : Nat) :
    (rightsOf es cps).getLsbD b = true ↔ ∃ e ∈ es, e.id ∈ cps ∧ e.rights.getLsbD b = true := by
  have fold : ∀ l : List AccessEntry,
      (l.foldr (fun e rights => e.rights ||| rights) (0 : BitVec 32)).getLsbD b = true ↔
        ∃ e ∈ l, e.rights.getLsbD b = true := by
    intro l
    induction l with
    | nil => simp
    | cons e l ih =>
      rw [foldr_cons, BitVec.getLsbD_or, Bool.or_eq_true, ih]
      simp only [mem_cons, exists_eq_or_imp]
  rw [rightsOf, fold]
  simp only [mem_filter, decide_eq_true_iff, and_assoc]

theorem reached_of_sorted (sorted : es.Pairwise fun a b => a.id ≤ b.id) (he : e ∈ es) :
    Reached es e := by
  obtain ⟨xs, ys, rfl⟩ := append_of_mem he
  refine ⟨xs, ys, rfl, fun x hx => ?_⟩
  exact (pairwise_append.mp sorted).2.2 x hx e (.head _)

theorem sorted_of_reached (nodup : es.Nodup) (h : ∀ e ∈ es, Reached es e) :
    es.Pairwise fun a b => a.id ≤ b.id := by
  induction es with
  | nil => exact List.Pairwise.nil
  | cons a es ih =>
    rw [nodup_cons] at nodup
    have later : ∀ e ∈ es, a.id ≤ e.id ∧ Reached es e := by
      intro e he
      rcases reached_cons.mp (h e (.tail a he)) with rfl | hr
      · exact absurd he nodup.1
      · exact hr
    exact pairwise_cons.mpr ⟨fun e he => (later e he).1, ih nodup.2 fun e he => (later e he).2⟩

/-- A permutation in ascending order gives the rights of the entries. -/
theorem collectRights_eq_rightsOf {es' : List AccessEntry} (perm : es'.Perm es)
    (ascending : es'.Pairwise fun a b => a.id ≤ b.id) (sorted : cps.Pairwise (· ≤ ·)) :
    collectRights 0 es' cps = rightsOf es cps := by
  refine BitVec.eq_of_getLsbD_eq fun b _ => ?_
  rw [Bool.eq_iff_iff, collectRights_getLsbD 0 es' cps b sorted, rightsOf_getLsbD]
  constructor
  · rintro (hb | ⟨e, he, hid, hb⟩)
    · exact absurd hb (by simp)
    · exact ⟨e, perm.mem_iff.mp he.mem, hid, hb⟩
  · rintro ⟨e, he, hid, hb⟩
    exact .inr ⟨e, reached_of_sorted ascending (perm.mem_iff.mpr he), hid, hb⟩

/-! ### The two sorts -/

theorem cmpPlus_le {b : AccessEntry} : cmpPlus a b ≤ 0 ↔ a.id ≤ b.id := by
  unfold cmpPlus
  split_ifs <;> omega

theorem cmpMinus_le {b : AccessEntry} : cmpMinus a b ≤ 0 ↔ b.id ≤ a.id := by
  unfold cmpMinus
  split_ifs <;> omega

theorem comparison_cmpMinus : Comparison cmpMinus :=
  .of_le (fun e => -e.id) fun _ _ => cmpMinus_le.trans neg_le_neg_iff.symm

section Sorts

variable (q : Qsort AccessEntry) (l : List AccessEntry)

theorem sorted_cmpPlus : (q.sort cmpPlus l).Pairwise fun a b => a.id ≤ b.id :=
  q.sorted_le AccessEntry.id (fun _ _ => cmpPlus_le) l

theorem sorted_cmpMinus : (q.sort cmpMinus l).Pairwise fun a b => b.id ≤ a.id :=
  (q.sorted cmpMinus comparison_cmpMinus l).imp cmpMinus_le.mp

theorem map_id_cmpPlus :
    (q.sort cmpPlus l).map AccessEntry.id = (l.map AccessEntry.id).insertionSort (· ≤ ·) := by
  refine List.Perm.eq_of_pairwise' ?_ (pairwise_insertionSort _ _) ?_
  · exact pairwise_map.mpr (sorted_cmpPlus q l)
  · exact ((q.perm cmpPlus l).map _).trans (perm_insertionSort _ _).symm

end Sorts

/-- The ids of the plus entries among those that the second sort gets. -/
def plusRange (p m : Nat) (es : List AccessEntry) : List Int :=
  ((((es.take p).map AccessEntry.id).insertionSort (· ≤ ·)).drop m).take m

/-- The ids of the minus entries among those that the second sort gets. -/
def minusRange (p m : Nat) (es : List AccessEntry) : List Int :=
  ((es.drop p).map AccessEntry.id).take (m + m - p)

/-- With two or more minus entries, the second sort stays inside the list and gets equal plus
entries and equal, smaller minus entries; and the minus entries are in ascending order. -/
def InOrder (p m : Nat) (es : List AccessEntry) : Prop :=
  m ≤ 1 ∨ (m ≤ p ∧ ((es.drop p).map AccessEntry.id).Pairwise (· ≤ ·) ∧
    (∀ a ∈ plusRange p m es, ∀ b ∈ plusRange p m es, a = b) ∧
    (∀ a ∈ minusRange p m es, ∀ b ∈ minusRange p m es, a = b) ∧
    ∀ a ∈ plusRange p m es, ∀ b ∈ minusRange p m es, b < a)

instance (p m : Nat) (es : List AccessEntry) : Decidable (InOrder p m es) := by
  unfold InOrder
  infer_instance

/-- The list after both sorts, in parts: `D` is what the second sort made. -/
theorem sortEntries_eq (hlen : es.length = p + m) (hm : m ≤ p) :
    sortEntries q p m es = .ok
      ((q.sort cmpPlus (es.take p)).take m ++
        q.sort cmpMinus (((q.sort cmpPlus (es.take p)).drop m).take m ++ (es.drop p).take (m + m - p)) ++
        ((q.sort cmpPlus (es.take p)).drop (m + m) ++ (es.drop p).drop (m + m - p))) := by
  have hplus : (q.sort cmpPlus (es.take p)).length = p := by
    rw [q.length_sort, length_take]
    omega
  have htotal : (q.sort cmpPlus (es.take p) ++ es.drop p).length = p + m := by
    rw [length_append, length_drop]
    omega
  unfold sortEntries
  rw [if_neg (by rw [htotal]; omega)]
  rw [take_append_of_le_length (by omega), drop_append_of_le_length (by omega),
    take_append, length_drop, hplus, drop_append, hplus,
    show m - (p - m) = m + m - p by omega]

theorem plusRange_eq : plusRange p m es =
    (((q.sort cmpPlus (es.take p)).drop m).take m).map AccessEntry.id := by
  rw [plusRange, ← map_id_cmpPlus q, map_take, map_drop]

theorem minusRange_eq : minusRange p m es = ((es.drop p).take (m + m - p)).map AccessEntry.id := by
  rw [minusRange, map_take]

/-! ### Lists in order give the right rights -/

/-- The two parts of a list that was made from `es`. -/
structure Sorted (p : Nat) (es xs ys : List AccessEntry) : Prop where
  plus : xs.Perm (es.take p)
  minus : ys.Perm (es.drop p)
  plus_le : xs.Pairwise fun a b => a.id ≤ b.id
  minus_le : ys.Pairwise fun a b => a.id ≤ b.id

theorem perm_eq_of_forall_eq {α : Type*} {l l' : List α} (perm : l.Perm l')
    (h : ∀ a ∈ l', ∀ b ∈ l', a = b) : l = l' := by
  cases l' with
  | nil => exact perm_nil.mp perm
  | cons a l' =>
    have hrep : a :: l' = List.replicate (l'.length + 1) a :=
      eq_replicate_iff.mpr ⟨rfl, fun b hb => h b hb a (.head _)⟩
    rw [hrep] at perm ⊢
    exact perm_replicate.mp perm

/-- What the second sort makes of larger plus entries before smaller minus entries. -/
theorem sort_cmpMinus_append (q : Qsort AccessEntry) (xs ys : List AccessEntry)
    (h : ∀ x ∈ xs, ∀ y ∈ ys, y.id < x.id) :
    ∃ xs' ys', q.sort cmpMinus (xs ++ ys) = xs' ++ ys' ∧ xs'.Perm xs ∧ ys'.Perm ys := by
  have perm := q.perm cmpMinus (xs ++ ys)
  let above : AccessEntry → Bool := fun e => decide (∀ y ∈ ys, y.id < e.id)
  have hxs : ∀ x ∈ xs, above x = true := fun x hx => decide_eq_true (h x hx)
  have hys : ∀ y ∈ ys, ¬ above y = true := fun y hy hab =>
    absurd (of_decide_eq_true hab y hy) (lt_irrefl _)
  refine ⟨_, _, eq_filter_append_filter (q := above) (sorted_cmpMinus q _) ?_, ?_, ?_⟩
  · intro a b hba hb
    exact decide_eq_true fun y hy => (of_decide_eq_true hb y hy).trans_le hba
  · have := perm.filter above
    rwa [filter_append, filter_eq_self.mpr hxs, filter_eq_nil_iff.mpr hys,
      append_nil] at this
  · have hnone : xs.filter (fun a => !above a) = [] :=
      filter_eq_nil_iff.mpr fun x hx => by simp [hxs x hx]
    have hall : ys.filter (fun a => !above a) = ys :=
      filter_eq_self.mpr fun y hy => by simp [hys y hy]
    have := perm.filter fun a => !above a
    rwa [filter_append, hnone, hall, nil_append] at this

theorem take_append_take_drop {α : Type*} (l : List α) (m : Nat) :
    l.take m ++ ((l.drop m).take m ++ l.drop (m + m)) = l := by
  rw [← drop_drop, take_append_drop, take_append_drop]

theorem sortEntries_of_inOrder (q : Qsort AccessEntry) (hlen : es.length = p + m)
    (h : InOrder p m es) : ∃ xs ys, sortEntries q p m es = .ok (xs ++ ys) ∧ Sorted p es xs ys := by
  have hplus : (q.sort cmpPlus (es.take p)).length = p := by
    rw [q.length_sort, length_take]
    omega
  rcases h with hone | ⟨hm, hminus, hX, hY, hXY⟩
  · -- nothing is left to sort
    refine ⟨q.sort cmpPlus (es.take p), es.drop p, ?_, q.perm _ _, List.Perm.refl _,
      sorted_cmpPlus q _, ?_⟩
    · unfold sortEntries
      rw [if_neg (by omega), q.sort_of_length_le_one cmpMinus (by rw [length_take]; omega),
        append_assoc, take_append_take_drop]
    · have : (es.drop p).length ≤ 1 := by
        rw [length_drop]
        omega
      match es.drop p, this with
      | [], _ => exact List.Pairwise.nil
      | [a], _ => exact pairwise_singleton _ a
  · have hperm := q.perm cmpPlus (es.take p)
    have hsorted := sorted_cmpPlus q (es.take p)
    rw [plusRange_eq] at hX hXY
    rw [minusRange_eq] at hY hXY
    rw [sortEntries_eq hlen hm]
    generalize q.sort cmpPlus (es.take p) = P at hplus hX hXY hperm hsorted
    obtain ⟨X, Y, hD, permX, permY⟩ := sort_cmpMinus_append q ((P.drop m).take m)
      ((es.drop p).take (m + m - p)) fun x hx y hy =>
        hXY _ (mem_map_of_mem hx) _ (mem_map_of_mem hy)
    have hidX := perm_eq_of_forall_eq (permX.map AccessEntry.id) hX
    have hidY := perm_eq_of_forall_eq (permY.map AccessEntry.id) hY
    -- one of the two is empty
    have hcomm : Y ++ P.drop (m + m) = P.drop (m + m) ++ Y := by
      rcases le_total (m + m) p with hle | hle
      · rw [Nat.sub_eq_zero_of_le hle] at permY
        rw [perm_nil.mp permY, nil_append, append_nil]
      · rw [drop_eq_nil_of_le (by omega), nil_append, append_nil]
    refine ⟨P.take m ++ X ++ P.drop (m + m), Y ++ (es.drop p).drop (m + m - p), ?_, ?_, ?_, ?_, ?_⟩
    · rw [hD]
      simp only [append_assoc]
      rw [← append_assoc Y, hcomm, append_assoc]
    · have := ((List.Perm.refl (P.take m)).append permX).append_right (P.drop (m + m))
      rw [append_assoc (P.take m) ((P.drop m).take m), take_append_take_drop] at this
      exact this.trans hperm
    · have := permY.append_right ((es.drop p).drop (m + m - p))
      rwa [take_append_drop] at this
    · have hids : (P.take m ++ X ++ P.drop (m + m)).map AccessEntry.id = P.map AccessEntry.id := by
        rw [map_append, map_append, hidX, ← map_append, ← map_append,
          append_assoc, take_append_take_drop]
      rw [← pairwise_map, hids]
      exact pairwise_map.mpr hsorted
    · have hids : (Y ++ (es.drop p).drop (m + m - p)).map AccessEntry.id =
          (es.drop p).map AccessEntry.id := by
        rw [map_append, hidY, ← map_append, take_append_drop]
      rw [← pairwise_map, hids]
      exact hminus

theorem alCheckRights_of_sorted (hlen : es.length = p + m) (h : Sorted p es xs ys)
    (sorted : cps.Pairwise (· ≤ ·)) :
    alCheckRights ⟨p + m, p, m, xs ++ ys⟩ cps = grantedRights p es cps := by
  have hxs : xs.length = p := by
    rw [h.plus.length_eq, length_take]
    omega
  have hys : ys.length = m := by
    rw [h.minus.length_eq, length_drop]
    omega
  unfold alCheckRights grantedRights
  rw [take_of_length_le (i := p + m) (by rw [length_append]; omega), take_left' hxs,
    drop_left' hxs, collectRights_eq_rightsOf h.plus h.plus_le sorted,
    collectRights_eq_rightsOf h.minus h.minus_le sorted]
  by_cases hnone : p = 0 ∨ cps.length = 0
  · rw [if_pos hnone]
    have hzero : rightsOf (es.take p) cps = 0 := by
      rcases hnone with rfl | hnil
      · rw [take_zero]
        rfl
      · rw [length_eq_zero_iff.mp hnil, rightsOf, filter_eq_nil_iff.mpr (by simp)]
        rfl
    rw [hzero]
    exact BitVec.zero_and.symm
  · rw [if_neg hnone]

/-! ### Right rights come from lists in order -/

/-- Every plus entry has a right of its own; every minus entry takes one from all plus entries. -/
structure Tagged (P M : List AccessEntry) : Prop where
  nodup : (P ++ M).Nodup
  plus : ∀ e ∈ P, ∃ b < 32, e.rights.getLsbD b = true ∧
    ∀ e' ∈ P ++ M, e'.rights.getLsbD b = true → e' = e
  minus : ∀ e ∈ M, ∃ b < 32, e.rights.getLsbD b = true ∧
    (∀ e' ∈ M, e'.rights.getLsbD b = true → e' = e) ∧ ∀ e' ∈ P, e'.rights.getLsbD b = true

theorem alCheckRights_getLsbD (hp : 0 < p) (hxs : xs.length = p) (hys : ys.length = m)
    (sorted : cps.Pairwise (· ≤ ·)) (hcps : cps ≠ []) (hb : b < 32) :
    (alCheckRights ⟨p + m, p, m, xs ++ ys⟩ cps).getLsbD b = true ↔
      (∃ e, Reached xs e ∧ e.id ∈ cps ∧ e.rights.getLsbD b = true) ∧
      ¬ ∃ e, Reached ys e ∧ e.id ∈ cps ∧ e.rights.getLsbD b = true := by
  unfold alCheckRights
  dsimp only
  rw [take_of_length_le (i := p + m) (by rw [length_append]; omega), take_left' hxs,
    drop_left' hxs, if_neg (not_or.mpr ⟨by omega, fun h => hcps (length_eq_zero_iff.mp h)⟩),
    BitVec.getLsbD_and, BitVec.getLsbD_not, Bool.and_eq_true, Bool.and_eq_true, Bool.not_eq_true',
    ← Bool.not_eq_true, collectRights_getLsbD 0 xs cps b sorted, collectRights_getLsbD 0 ys cps b sorted]
  simp [hb]

theorem grantedRights_getLsbD (p : Nat) (es : List AccessEntry) (hb : b < 32) :
    (grantedRights p es cps).getLsbD b = true ↔
      (∃ e ∈ es.take p, e.id ∈ cps ∧ e.rights.getLsbD b = true) ∧
      ¬ ∃ e ∈ es.drop p, e.id ∈ cps ∧ e.rights.getLsbD b = true := by
  rw [grantedRights, BitVec.getLsbD_and, BitVec.getLsbD_not, Bool.and_eq_true, Bool.and_eq_true,
    Bool.not_eq_true', ← Bool.not_eq_true, rightsOf_getLsbD, rightsOf_getLsbD]
  simp [hb]

/-- Tagged entries tell by the rights of all their ids where each of them went. -/
theorem Tagged.sorted (tagged : Tagged (es.take p) (es.drop p)) (hlen : es.length = p + m)
    (hp : 0 < p) (perm : (xs ++ ys).Perm es) (hxs : xs.length = p)
    (cps_sorted : cps.Pairwise (· ≤ ·)) (hcps : ∀ e ∈ es, e.id ∈ cps)
    (right : alCheckRights ⟨p + m, p, m, xs ++ ys⟩ cps = grantedRights p es cps) :
    Sorted p es xs ys := by
  have hys : ys.length = m := by
    have := perm.length_eq
    rw [length_append] at this
    omega
  have cps_ne : cps ≠ [] := by
    obtain ⟨e, he⟩ := exists_mem_of_length_pos (l := es) (by omega)
    exact ne_nil_of_mem (hcps e he)
  have bit := fun b (hb : b < 32) => Iff.trans (alCheckRights_getLsbD hp hxs hys cps_sorted cps_ne hb).symm
    (Iff.trans (by rw [right]) (grantedRights_getLsbD p es hb))
  have nodup := nodup_append'.mp tagged.nodup
  have reached_plus : ∀ e ∈ es.take p, Reached xs e := by
    intro e he
    obtain ⟨b, hb, hbit, own⟩ := tagged.plus e he
    obtain ⟨⟨e', hreached, -, hbit'⟩, -⟩ := (bit b hb).mpr ⟨⟨e, he, hcps e (mem_of_mem_take he), hbit⟩, by
      rintro ⟨e', he', -, hbit'⟩
      have := own e' (mem_append_right _ he') hbit'
      exact nodup.2.2 he (this ▸ he')⟩
    have hmem : e' ∈ es := perm.mem_iff.mp (mem_append_left _ hreached.mem)
    rwa [own e' (by rwa [take_append_drop]) hbit'] at hreached
  have perm_plus : xs.Perm (es.take p) := by
    refine (List.Subperm.perm_of_length_le (nodup.1.subperm fun e he => (reached_plus e he).mem) ?_).symm
    rw [length_take]
    omega
  have perm_minus : ys.Perm (es.drop p) := by
    have hsplit : (xs ++ ys).Perm (es.take p ++ es.drop p) := by
      rwa [take_append_drop]
    exact (perm_append_left_iff _).mp ((perm_plus.append_right ys).symm.trans hsplit)
  have reached_minus : ∀ e ∈ es.drop p, Reached ys e := by
    intro e he
    obtain ⟨b, hb, hbit, own, taken⟩ := tagged.minus e he
    by_contra hno
    obtain ⟨e₀, he₀⟩ := exists_mem_of_length_pos (l := es.take p)
      (by rw [length_take]; omega)
    refine ((bit b hb).mp ⟨⟨e₀, reached_plus e₀ he₀, hcps e₀ (mem_of_mem_take he₀), taken e₀ he₀⟩,
      ?_⟩).2 ⟨e, he, hcps e (mem_of_mem_drop he), hbit⟩
    rintro ⟨e', hreached, -, hbit'⟩
    rw [own e' (perm_minus.mem_iff.mp hreached.mem) hbit'] at hreached
    exact hno hreached
  refine ⟨perm_plus, perm_minus, ?_, ?_⟩
  · exact sorted_of_reached (perm_plus.nodup_iff.mpr nodup.1) fun e he =>
      reached_plus e (perm_plus.mem_iff.mp he)
  · exact sorted_of_reached (perm_minus.nodup_iff.mpr nodup.2.1) fun e he =>
      reached_minus e (perm_minus.mem_iff.mp he)

theorem forall_eq_of_le_of_ge (up : es.Pairwise fun a b => a.id ≤ b.id)
    (down : es.Pairwise fun a b => b.id ≤ a.id) : ∀ a ∈ es, ∀ b ∈ es, a.id = b.id := by
  have heq : es.Pairwise fun a b => a.id = b.id := up.imp₂ (fun _ _ => le_antisymm) down
  intro a ha b hb
  exact List.Pairwise.forall_of_forall (R := fun a b : AccessEntry => a.id = b.id) (fun _ _ => rfl) heq
    ha hb

/-- A `qsort` that reverses equal entries leaves the parts in order only if `InOrder` holds. -/
theorem inOrder_of_sorted (hlen : es.length = p + m) (hm : m ≤ p)
    (nodup : (es.take p ++ es.drop p).Nodup) (hxs : xs.length = p)
    (hsort : sortEntries (Qsort.reversing _) p m es = .ok (xs ++ ys)) (sorted : Sorted p es xs ys) :
    InOrder p m es := by
  have hplusRange : plusRange p m es = _ := plusRange_eq (q := Qsort.reversing _)
  have hplus : ((Qsort.reversing _).sort cmpPlus (es.take p)).length = p := by
    rw [Qsort.length_sort, length_take]
    omega
  have hperm := (Qsort.reversing _).perm cmpPlus (es.take p)
  rw [sortEntries_eq hlen hm] at hsort
  generalize (Qsort.reversing AccessEntry).sort cmpPlus (es.take p) = P at hplusRange hplus hperm hsort
  have hminusRange : minusRange p m es = _ := minusRange_eq
  generalize hX : (P.drop m).take m = X at hplusRange hsort
  generalize hY : (es.drop p).take (m + m - p) = Y at hminusRange hsort
  have memX : ∀ {e}, e ∈ X → e ∈ es.take p := fun he => by
    rw [← hX] at he
    exact hperm.mem_iff.mp (mem_of_mem_drop (mem_of_mem_take he))
  have memY : ∀ {e}, e ∈ Y → e ∈ es.drop p := fun he => by
    rw [← hY] at he
    exact mem_of_mem_take he
  have apart : ∀ {e}, e ∈ es.take p → ¬ e ∈ es.drop p := fun he he' =>
    (nodup_append'.mp nodup).2.2 he he'
  have down := sorted_cmpMinus (Qsort.reversing _) (X ++ Y)
  have permD := (Qsort.reversing _).perm cmpMinus (X ++ Y)
  have pairD := fun a b => Qsort.reversing_pair comparison_cmpMinus (l := X ++ Y) (a := a) (b := b)
  generalize (Qsort.reversing AccessEntry).sort cmpMinus (X ++ Y) = D at hsort down permD pairD
  -- the sorted part `D` begins with the plus entries it got
  obtain ⟨D₁, D₂, hD, hxs', hys'⟩ : ∃ D₁ D₂, D = D₁ ++ D₂ ∧ xs = P.take m ++ D₁ ++ P.drop (m + m) ∧
      ys = D₂ ++ (es.drop p).drop (m + m - p) := by
    have hsplit := Except.ok.inj hsort
    have hDlen : D.length = m := by
      rw [permD.length_eq, ← hX, ← hY]
      simp only [length_append, length_take, length_drop]
      omega
    rcases le_total (m + m) p with hle | hle
    · have hleft : (P.take m ++ D ++ P.drop (m + m)).length = xs.length := by
        simp only [length_append, length_take, length_drop]
        omega
      rw [← append_assoc] at hsplit
      obtain ⟨h₁, h₂⟩ := append_inj hsplit hleft
      exact ⟨D, [], (append_nil D).symm, h₁.symm, h₂.symm⟩
    · have hleft : (P.take m ++ D.take (p - m)).length = xs.length := by
        simp only [length_append, length_take]
        omega
      have hnil : P.drop (m + m) = [] := drop_eq_nil_of_le (by omega)
      rw [hnil, nil_append, ← take_append_drop (p - m) D, ← append_assoc, append_assoc] at hsplit
      obtain ⟨h₁, h₂⟩ := append_inj hsplit hleft
      refine ⟨D.take (p - m), D.drop (p - m), (take_append_drop _ D).symm, ?_, h₂.symm⟩
      rw [hnil, append_nil]
      exact h₁.symm
  have memD₁ : ∀ {e}, e ∈ D₁ → e ∈ es.take p := fun he => sorted.plus.mem_iff.mp (by
    rw [hxs']
    exact mem_append_left _ (mem_append_right _ he))
  have memD₂ : ∀ {e}, e ∈ D₂ → e ∈ es.drop p := fun he => sorted.minus.mem_iff.mp (by
    rw [hys']
    exact mem_append_left _ he)
  rw [hD] at permD down pairD
  have splitD : (∀ e ∈ X, e ∈ D₁) ∧ ∀ e ∈ Y, e ∈ D₂ := by
    constructor
    · intro e he
      rcases mem_append.mp (permD.mem_iff.mpr (mem_append_left _ he)) with h | h
      · exact h
      · exact absurd (memD₂ h) (apart (memX he))
    · intro e he
      rcases mem_append.mp (permD.mem_iff.mpr (mem_append_right _ he)) with h | h
      · exact absurd (memY he) (apart (memD₁ h))
      · exact h
  have eqD₁ := forall_eq_of_le_of_ge
    (sorted.plus_le.sublist (by
      rw [hxs']
      exact (sublist_append_right _ _).trans (sublist_append_left _ _)))
    (down.sublist (sublist_append_left D₁ D₂))
  have upD₂ := sorted.minus_le
  rw [hys'] at upD₂
  have eqD₂ := forall_eq_of_le_of_ge (upD₂.sublist (sublist_append_left _ _))
    (down.sublist (sublist_append_right D₁ D₂))
  refine .inr ⟨hm, ?_, ?_, ?_, ?_⟩
  · rw [pairwise_map, ← take_append_drop (m + m - p) (es.drop p), hY, pairwise_append]
    obtain ⟨-, hrest, hcross⟩ := pairwise_append.mp upD₂
    refine ⟨?_, hrest, fun a ha b hb => hcross a (splitD.2 a ha) b hb⟩
    exact pairwise_of_forall_mem_list fun a ha b hb =>
      le_of_eq (eqD₂ a (splitD.2 a ha) b (splitD.2 b hb))
  · simp only [hplusRange, forall_mem_map]
    exact fun x hx y hy => eqD₁ x (splitD.1 x hx) y (splitD.1 y hy)
  · simp only [hminusRange, forall_mem_map]
    exact fun x hx y hy => eqD₂ x (splitD.2 x hx) y (splitD.2 y hy)
  · simp only [hplusRange, hminusRange, forall_mem_map]
    intro x hx y hy
    by_contra hle
    -- the minus entry would have come out before the plus entry
    have hpair : [y, x].Sublist (D₁ ++ D₂) := by
      refine pairD x y ?_ (cmpMinus_le.mpr (not_lt.mp hle))
      exact (singleton_sublist.mpr hx).append (singleton_sublist.mpr hy)
    obtain ⟨l₁, l₂, heq, h₁, h₂⟩ := sublist_append_iff.mp hpair
    cases l₁ with
    | nil =>
      have := h₂.subset (heq ▸ mem_cons_of_mem y (.head _))
      exact apart (memX hx) (memD₂ this)
    | cons z l₁ =>
      obtain ⟨rfl, -⟩ := List.cons.inj heq
      exact apart (memD₁ (h₁.subset (.head _))) (memY hy)

/-! ### Rights that tell the entries apart -/

/-- The rights of entry `i`: bit `i`, and for a plus entry those of all minus entries. -/
def tag (p m i : Nat) : Nat := if i < p then 2 ^ i ||| 2 ^ p * (2 ^ m - 1) else 2 ^ i

theorem testBit_tag {i : Nat} :
    (tag p m i).testBit b = true ↔ b = i ∨ i < p ∧ p ≤ b ∧ b < p + m := by
  unfold tag
  by_cases hi : i < p
  · rw [if_pos hi, Nat.testBit_or, Bool.or_eq_true, Nat.testBit_two_pow, Nat.testBit_two_pow_mul,
      Nat.testBit_two_pow_sub_one, Bool.and_eq_true, decide_eq_true_iff, decide_eq_true_iff,
      decide_eq_true_iff]
    omega
  · rw [if_neg hi, Nat.testBit_two_pow, decide_eq_true_iff]
    omega

theorem tag_lt {i : Nat} (hi : i < p + m) (hmax : p + m ≤ 20) : tag p m i < 2 ^ 20 := by
  refine Nat.lt_pow_two_of_testBit _ fun b hb => ?_
  rw [← Bool.not_eq_true, testBit_tag]
  omega

theorem getLsbD_tag {i : Nat} (hmax : p + m ≤ 20) (hi : i < p + m) :
    (BitVec.ofInt 32 (tag p m i : Nat)).getLsbD b = true ↔ b = i ∨ i < p ∧ p ≤ b ∧ b < p + m := by
  rw [BitVec.ofInt_natCast, BitVec.getLsbD_ofNat, Bool.and_eq_true, decide_eq_true_iff, testBit_tag]
  omega

/-- Entries with these rights are tagged. -/
theorem tagged_tag (hmax : p + m ≤ 20) (hlen : es.length = p + m)
    (hes : ∀ i e, es[i]? = some e → e.rights = BitVec.ofInt 32 (tag p m i : Nat)) :
    Tagged (es.take p) (es.drop p) := by
  have bit : ∀ {i b e}, es[i]? = some e → (e.rights.getLsbD b = true ↔ b = i ∨ i < p ∧ p ≤ b ∧ b < p + m) := by
    intro i b e he
    obtain ⟨hi, -⟩ := List.getElem?_eq_some_iff.mp he
    rw [hes i e he]
    exact getLsbD_tag hmax (by omega)
  have plus_mem : ∀ {e}, e ∈ es.take p → ∃ i < p, es[i]? = some e := by
    intro e he
    obtain ⟨i, hi⟩ := mem_iff_getElem?.mp he
    obtain ⟨hlt, -⟩ := List.getElem?_eq_some_iff.mp hi
    rw [length_take] at hlt
    exact ⟨i, by omega, by rwa [List.getElem?_take_of_lt (by omega)] at hi⟩
  have minus_mem : ∀ {e}, e ∈ es.drop p → ∃ i, p ≤ i ∧ i < p + m ∧ es[i]? = some e := by
    intro e he
    obtain ⟨i, hi⟩ := mem_iff_getElem?.mp he
    rw [List.getElem?_drop] at hi
    obtain ⟨hlt, -⟩ := List.getElem?_eq_some_iff.mp hi
    exact ⟨p + i, by omega, by omega, hi⟩
  have eq_of : ∀ {i j : Nat} {e e' : AccessEntry}, es[i]? = some e → es[j]? = some e' → i = j → e' = e := by
    rintro i j e e' hi hj rfl
    exact Option.some.inj (hj.symm.trans hi)
  refine ⟨?_, ?_, ?_⟩
  · rw [take_append_drop]
    refine nodup_iff_getElem?_ne_getElem?.mpr fun i j hij hj heq => ?_
    obtain ⟨e, he⟩ : ∃ e, es[i]? = some e := ⟨_, List.getElem?_eq_getElem (by omega)⟩
    have he' := heq.symm.trans he
    have h₁ := (bit he').mp ((bit he).mpr (.inl rfl))
    omega
  · intro e he
    obtain ⟨i, hi, hei⟩ := plus_mem he
    refine ⟨i, by omega, (bit hei).mpr (.inl rfl), fun e' he' hbit => ?_⟩
    rw [take_append_drop] at he'
    obtain ⟨j, hj⟩ := mem_iff_getElem?.mp he'
    have := (bit hj).mp hbit
    exact eq_of hei hj (by omega)
  · intro e he
    obtain ⟨i, hpi, hi, hei⟩ := minus_mem he
    refine ⟨i, by omega, (bit hei).mpr (.inl rfl), fun e' he' hbit => ?_, fun e' he' => ?_⟩
    · obtain ⟨j, hpj, hj, hej⟩ := minus_mem he'
      have := (bit hej).mp hbit
      exact eq_of hei hej (by omega)
    · obtain ⟨j, hj, hej⟩ := plus_mem he'
      exact (bit hej).mpr (.inr ⟨hj, hpi, hi⟩)

/-! ### Every text -/

theorem inOrder_congr {es' : List AccessEntry}
    (h : es'.map AccessEntry.id = es.map AccessEntry.id) : InOrder p m es' ↔ InOrder p m es := by
  unfold InOrder plusRange minusRange
  simp only [map_take, map_drop, h]

theorem alInternalize_eq {nameToId : List Char → Int} {elist : List Char}
    (hread : readAlist nameToId elist = .ok (p, m, es)) :
    alInternalize q nameToId elist =
      (sortEntries q p m es).map fun entries => ⟨p + m, p, m, entries⟩ := by
  rw [alInternalize, hread]
  rfl

/-- The list after both sorts is a permutation. -/
theorem sortEntries_perm {bs : List AccessEntry} (h : sortEntries q p m es = .ok bs) :
    bs.Perm es := by
  unfold sortEntries at h
  dsimp only at h
  split_ifs at h
  rw [← Except.ok.inj h]
  refine (((List.Perm.refl _).append (q.perm _ _)).append_right _).trans ?_
  rw [append_assoc, take_append_take_drop]
  have := (q.perm cmpPlus (es.take p)).append_right (es.drop p)
  rwa [take_append_drop] at this

/-- For whatever rights the entries of a text have, a list made from it gives the rights that
the plus entries give and the minus entries do not take, exactly if the text is in order. -/
theorem al_rights_right_iff_inOrder (nameToId : List Char → Int) (elist : List Char) (p m : Nat)
    (es : List AccessEntry) (hread : readAlist nameToId elist = .ok (p, m, es)) :
    (∀ elist' es', readAlist nameToId elist' = .ok (p, m, es') →
      es'.map AccessEntry.id = es.map AccessEntry.id →
      ∀ q, ∃ alist, alInternalize q nameToId elist' = .ok alist ∧
        ∀ cps : List Int, cps.Pairwise (· ≤ ·) →
          alCheckRights alist cps = grantedRights p es' cps) ↔
    InOrder p m es := by
  obtain ⟨hmax, hlen, names, hids, hvalid⟩ := readAlist_spec hread
  constructor
  · intro h
    by_cases hone : m ≤ 1
    · exact .inl hone
    -- the same names with rights that tell the entries apart, and a `qsort` that reverses equal ones
    have hcount : names.length = p + m := by
      rw [← length_map, ← hids, length_map, hlen]
    have hrights : names.length = ((List.range (p + m)).map (tag p m)).length := by
      rw [length_map, length_range, hcount]
    have hread' := readAlist_externalText hmax hcount hrights hvalid fun r hr => by
        obtain ⟨i, hi, rfl⟩ := mem_map.mp hr
        exact (tag_lt (mem_range.mp hi) hmax).trans (by decide)
    generalize hes' : List.zipWith (fun name (r : Nat) => (⟨nameToId name, BitVec.ofInt 32 r⟩ : AccessEntry))
      names ((List.range (p + m)).map (tag p m)) = es' at hread'
    have hids' : es'.map AccessEntry.id = es.map AccessEntry.id := by
      rw [hids, ← hes', map_id_zipWith hrights]
    have hlen' : es'.length = p + m := by
      rw [← length_map, hids', length_map, hlen]
    have htags : ∀ i e, es'[i]? = some e → e.rights = BitVec.ofInt 32 (tag p m i : Nat) := by
      intro i e he
      obtain ⟨hi, -⟩ := List.getElem?_eq_some_iff.mp he
      rw [← hes', List.getElem?_zipWith, List.getElem?_map, List.getElem?_range (by omega)] at he
      cases hname : names[i]? with
      | none => simp [hname] at he
      | some name =>
        rw [hname] at he
        rw [← Option.some.inj he]
    have tagged := tagged_tag hmax hlen' htags
    obtain ⟨alist, hint, hright⟩ := h _ es' hread' hids' (Qsort.reversing _)
    rw [alInternalize_eq hread'] at hint
    cases hsort : sortEntries (Qsort.reversing _) p m es' with
    | error e =>
      rw [hsort] at hint
      cases hint
    | ok bs =>
    rw [hsort] at hint
    obtain rfl := Except.ok.inj hint
    have hm : m ≤ p := by
      by_contra hlt
      unfold sortEntries at hsort
      rw [if_pos] at hsort
      · cases hsort
      · rw [length_append, Qsort.length_sort, ← length_append, take_append_drop]
        omega
    have perm := sortEntries_perm hsort
    have hlenbs := perm.length_eq
    rw [← take_append_drop p bs] at hsort perm hright
    have hxs : (bs.take p).length = p := by
      rw [length_take]
      omega
    have sorted := tagged.sorted hlen' (by omega) perm hxs
      (pairwise_insertionSort (· ≤ ·) (es'.map AccessEntry.id))
      (fun e he => (mem_insertionSort _).mpr (mem_map_of_mem he))
      (hright _ (pairwise_insertionSort _ _))
    exact (inOrder_congr hids').mp (inOrder_of_sorted hlen' hm tagged.nodup hxs hsort sorted)
  · intro h elist' es' hread' hids' q
    have hlen' := (readAlist_spec hread').2.1
    obtain ⟨xs, ys, hsort, sorted⟩ := sortEntries_of_inOrder q hlen' ((inOrder_congr hids').mpr h)
    refine ⟨⟨p + m, p, m, xs ++ ys⟩, ?_, fun cps hcps => alCheckRights_of_sorted hlen' sorted hcps⟩
    rw [alInternalize_eq hread', hsort]
    rfl

/-- Two names. -/
def idOfAB (name : List Char) : Int := if name = ['a'] then 1 else if name = ['b'] then 2 else 0

/-- Two minus entries for one id. -/
theorem al_rights_right_equal_minus :
    readAlist idOfAB "2\n2\nb\t7\na\t3\na\t1\na\t2\n".toList =
        .ok (2, 2, [⟨2, 7⟩, ⟨1, 3⟩, ⟨1, 1⟩, ⟨1, 2⟩]) ∧
    ∀ q, ∃ alist, alInternalize q idOfAB "2\n2\nb\t7\na\t3\na\t1\na\t2\n".toList = .ok alist ∧
      ∀ cps : List Int, cps.Pairwise (· ≤ ·) → alCheckRights alist cps =
        grantedRights 2 [⟨2, 7⟩, ⟨1, 3⟩, ⟨1, 1⟩, ⟨1, 2⟩] cps := by
  have hread : readAlist idOfAB "2\n2\nb\t7\na\t3\na\t1\na\t2\n".toList =
      .ok (2, 2, [⟨2, 7⟩, ⟨1, 3⟩, ⟨1, 1⟩, ⟨1, 2⟩]) := by
    decide +kernel
  exact ⟨hread, fun q => (al_rights_right_iff_inOrder idOfAB _ 2 2 _ hread).mpr (by decide) _ _ hread rfl q⟩

/-- The right that the first minus entry takes is given: the sort puts it behind the second,
whose id is larger, and the walk does not go back. -/
theorem al_rights_denied_right_given :
    readAlist idOfAB "2\n2\na\t1\nb\t0\na\t1\nb\t0\n".toList =
        .ok (2, 2, [⟨1, 1⟩, ⟨2, 0⟩, ⟨1, 1⟩, ⟨2, 0⟩]) ∧
      grantedRights 2 [⟨1, 1⟩, ⟨2, 0⟩, ⟨1, 1⟩, ⟨2, 0⟩] [1, 2] = 0 ∧
      ∃ alist, alInternalize (Qsort.reversing _) idOfAB "2\n2\na\t1\nb\t0\na\t1\nb\t0\n".toList =
          .ok alist ∧
        alCheckRights alist [1, 2] = 1 := by
  refine ⟨by decide +kernel, by decide, ⟨4, 2, 2, [⟨1, 1⟩, ⟨2, 0⟩, ⟨2, 0⟩, ⟨1, 1⟩]⟩, by decide +kernel, ?_⟩
  simp [alCheckRights, collectRights]

end Coda.Al
