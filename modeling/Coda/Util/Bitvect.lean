import Coda.Lib.Bits

/-!
The bit vector of `coda-src/util/bitvect.c`: `Bitv_new`, `Bitv_get`, `Bitv_put`,
`Bitv_set`, `Bitv_clear`, `Bitv_getfree` and `Bitv_count` on 64-bit words.

Every mask of the source is built as `1 << j` with an `int` one. ISO C gives that
expression a value only while it fits in 31 bits, so `intBit` is partial and an
operation that evaluates it outside its domain ends in `Fault.undefinedShift`.
`Bitv_get` is the one operation that shifts the `unsigned long` word instead.

`Spec` is the purpose of the component: a set of indices below `length`.
-/

namespace Coda.Bitvect

open Coda.Lib List

/-- `unsigned long`. -/
abbrev Word := BitVec 64

/-- `BPW`. -/
def bpw : Nat := 64

/-- `nwords(len)`: round up to a multiple of `BPW`, then divide. The mask
`~(BPW - 1)` clears the remainder. -/
def nwords (len : Nat) : Nat :=
  ((len + bpw - 1) - (len + bpw - 1) % bpw) / bpw

/-- `ALLOCMASK`. -/
def allocMask : Word := BitVec.allOnes 64

inductive Fault where
  | assertFailed
  | undefinedShift
deriving DecidableEq, Repr

/-- `struct Bitv_s` without its lock. The words are exactly those `calloc`ed. -/
structure Bitv where
  length : Nat
  words : List Word
  sized : words.length = nwords length

/-- `1 << j` on an `int`, converted to `unsigned long` by the operator around it. -/
def intBit (j : Nat) : Except Fault Word :=
  if j < 31 then .ok (1#64 <<< j) else .error .undefinedShift

/-- `Bitv_new`. -/
def bitvNew (len : Nat) : Bitv where
  length := len
  words := List.replicate (nwords len) 0#64
  sized := length_replicate

/-- `(b->words[n / BPW] >> (n % BPW)) & 1`, an `unsigned long` shift. -/
def Bitv.bit (b : Bitv) (n : Nat) : Bool :=
  ((b.words.getD (n / bpw) 0#64 >>> (n % bpw)) &&& 1#64) = 1#64

/-- Replace word `i` by its image under `f`. -/
def Bitv.modify (b : Bitv) (i : Nat) (f : Word → Word) : Bitv where
  length := b.length
  words := b.words.modify i f
  sized := by rw [length_modify, b.sized]

/-- `Bitv_get`. -/
def bitvGet (b : Bitv) (n : Nat) : Except Fault Bool :=
  if n < b.length then .ok (b.bit n) else .error .assertFailed

/-- `Bitv_put`: returns the previous value of the bit. -/
def bitvPut (b : Bitv) (n : Nat) (bit : Bool) : Except Fault (Bitv × Bool) := do
  if ¬ n < b.length then
    throw .assertFailed
  let previous := b.bit n
  let mask ← intBit (n % bpw)
  if bit then
    return (b.modify (n / bpw) (· ||| mask), previous)
  else
    return (b.modify (n / bpw) (· &&& ~~~mask), previous)

/-- `Bitv_set`. -/
def bitvSet (b : Bitv) (n : Nat) : Except Fault Bitv :=
  Prod.fst <$> bitvPut b n true

/-- `Bitv_clear`. -/
def bitvClear (b : Bitv) (n : Nat) : Except Fault Bitv :=
  Prod.fst <$> bitvPut b n false

/-- The inner scan of `Bitv_getfree`: the first `j` whose mask meets `availbits`,
with `left` positions still to try. Running off the word fails `CODA_ASSERT(j < BPW)`. -/
def firstAvail (availbits : Word) : (left j : Nat) → Except Fault Nat
  | 0, _ => .error .assertFailed
  | left + 1, j => do
      let mask ← intBit j
      if mask &&& availbits ≠ 0#64 then return j else firstAvail availbits left (j + 1)

/-- `Bitv_getfree`: the first word with a clear bit is scanned for it. -/
def bitvGetfree (b : Bitv) : Except Fault (Bitv × Int) :=
  match b.words.findIdx? (fun w => ~~~w &&& allocMask ≠ 0#64) with
  | none => .ok (b, -1)
  | some i => do
      let j ← firstAvail (~~~(b.words.getD i 0#64)) bpw 0
      let mask ← intBit j
      return (b.modify i (· ||| mask), ((i * 8 * 8 + j : Nat) : Int))

/-- The inner loop of `Bitv_count`. -/
def countWord (w : Word) : Except Fault Nat :=
  (List.range bpw).foldlM (fun count j => do
    let mask ← intBit j
    return if w &&& mask ≠ 0#64 then count + 1 else count) 0

/-- `Bitv_count`. -/
def bitvCount (b : Bitv) : Except Fault Nat :=
  b.words.foldlM (fun count w => (count + ·) <$> countWord w) 0

/-! ### Bits of a word -/

theorem nwords_eq (len : Nat) : nwords len = (len + 63) / 64 := by
  simp only [nwords, bpw]
  omega

theorem bit_eq (b : Bitv) (n : Nat) :
    b.bit n = (b.words.getD (n / bpw) 0#64).getLsbD (n % bpw) := by
  have key : ∀ (w : Word) (k : Nat), decide ((w >>> k) &&& 1#64 = 1#64) = w.getLsbD k := by
    intro w k
    have h : (w >>> k) &&& 1#64 = if w.getLsbD k then 1#64 else 0#64 := by
      have := BitVec.and_twoPow (w >>> k) 0
      simpa [BitVec.twoPow] using this
    rw [h]
    cases w.getLsbD k <;> simp
  exact key _ _

theorem intBit_ok {j : Nat} (h : j < 31) : intBit j = .ok (BitVec.twoPow 64 j) := by
  simp [intBit, h, BitVec.twoPow]

theorem intBit_undefined {j : Nat} (h : ¬ j < 31) : intBit j = .error .undefinedShift := by
  simp [intBit, h]

theorem twoPow_and_ne_zero {w : Word} {j : Nat} (h : j < 64) :
    BitVec.twoPow 64 j &&& w ≠ 0#64 ↔ w.getLsbD j = true := by
  rw [BitVec.and_comm]
  exact and_twoPow_ne_zero h

theorem bit_modify (b : Bitv) (i n : Nat) (f : Word → Word) (hi : i < b.words.length) :
    (b.modify i f).bit n =
      if n / bpw = i then (f (b.words.getD i 0#64)).getLsbD (n % bpw) else b.bit n := by
  rw [bit_eq, bit_eq]
  simp only [Bitv.modify, getD_eq_getElem?_getD, List.getElem?_modify]
  by_cases h : n / bpw = i
  · subst h
    rw [List.getElem?_eq_getElem hi]
    simp
  · have : ¬ i = n / bpw := fun e => h e.symm
    simp [h, this]

/-! ### The set a vector represents -/

/-- `b` holds the bits of `s` and nothing else: the bits of the last word that lie
beyond `length` are clear as well. -/
structure Represents (b : Bitv) (s : Finset Nat) : Prop where
  bit_iff : ∀ n, b.bit n = true ↔ n ∈ s
  below : ∀ n ∈ s, n < b.length

variable {b : Bitv} {s : Finset Nat}

theorem Represents.bit_eq_decide (h : Represents b s) (n : Nat) : b.bit n = decide (n ∈ s) := by
  rw [Bool.eq_iff_iff, h.bit_iff, decide_eq_true_iff]

theorem represents_bitvNew (len : Nat) : Represents (bitvNew len) ∅ where
  bit_iff n := by
    rw [bit_eq]
    simp [bitvNew, getD_eq_getElem?_getD, List.getElem?_replicate]
    split <;> simp
  below := by simp

theorem word_lt {n : Nat} (h : n < b.length) : n / bpw < b.words.length := by
  rw [b.sized, nwords_eq, bpw]
  omega

/-- Changing bit `n` alone moves the represented set to any `t` that differs from
`s` at `n` only. -/
theorem Represents.modify {t : Finset Nat} (h : Represents b s) {n : Nat} (hn : n < b.length)
    {f : Word → Word} (hit : (f (b.words.getD (n / bpw) 0#64)).getLsbD (n % bpw) = decide (n ∈ t))
    (rest : ∀ k < bpw, k ≠ n % bpw → (f (b.words.getD (n / bpw) 0#64)).getLsbD k = (b.words.getD (n / bpw) 0#64).getLsbD k)
    (agree : ∀ m, m ≠ n → (m ∈ t ↔ m ∈ s)) :
    Represents (b.modify (n / bpw) f) t where
  bit_iff m := by
    rw [bit_modify b _ m f (word_lt hn)]
    by_cases hm : m = n
    · subst hm
      rw [if_pos rfl, hit, decide_eq_true_iff]
    · rw [agree m hm, ← h.bit_iff]
      by_cases hw : m / bpw = n / bpw
      · have hk : m % bpw ≠ n % bpw := by
          intro hk
          exact hm (by rw [← Nat.div_add_mod m bpw, hw, hk, Nat.div_add_mod])
        rw [if_pos hw, rest _ (Nat.mod_lt _ (by decide)) hk, bit_eq, hw]
      · rw [if_neg hw]
  below m hm := by
    by_cases he : m = n
    · exact he ▸ hn
    · exact h.below m ((agree m he).mp hm)

/-- Setting a bit. -/
theorem Represents.insert (h : Represents b s) {n : Nat} (hn : n < b.length) :
    Represents (b.modify (n / bpw) (· ||| BitVec.twoPow 64 (n % bpw))) (insert n s) := by
  have hlt : n % bpw < 64 := Nat.mod_lt _ (by decide)
  refine h.modify hn ?_ ?_ ?_
  · simp [hlt]
  · intro k _ hk
    simp [hk.symm]
  · intro m hm
    simp [hm]

/-! ### The specification -/

inductive Call where
  | put (n : Nat) (bit : Bool)
  | set (n : Nat)
  | clear (n : Nat)
  | getfree
  | get (n : Nat)
  | count
deriving DecidableEq, Repr

inductive Answer where
  | done
  | bit (value : Bool)
  | index (loc : Int)
  | count (value : Nat)
deriving DecidableEq, Repr

/-- One call on the vector. -/
def step (b : Bitv) : Call → Except Fault (Bitv × Answer)
  | .put n bit => (fun out => (out.1, .bit out.2)) <$> bitvPut b n bit
  | .set n => (fun b' => (b', .done)) <$> bitvSet b n
  | .clear n => (fun b' => (b', .done)) <$> bitvClear b n
  | .getfree => (fun out => (out.1, .index out.2)) <$> bitvGetfree b
  | .get n => (fun value => (b, .bit value)) <$> bitvGet b n
  | .count => (fun value => (b, .count value)) <$> bitvCount b

/-- The index of a call is in `[0, length)`. -/
def Call.Valid (len : Nat) : Call → Prop
  | .put n _ | .set n | .clear n | .get n => n < len
  | .getfree | .count => True

/-- A set of indices below `len`, and what each call does to it and answers. -/
inductive Spec (len : Nat) (s : Finset Nat) : Call → Answer → Finset Nat → Prop where
  | putOne (n : Nat) : Spec len s (.put n true) (.bit (n ∈ s)) (insert n s)
  | putZero (n : Nat) : Spec len s (.put n false) (.bit (n ∈ s)) (s.erase n)
  | set (n : Nat) : Spec len s (.set n) .done (insert n s)
  | clear (n : Nat) : Spec len s (.clear n) .done (s.erase n)
  | getfree {n : Nat} : n < len → n ∉ s → Spec len s .getfree (.index n) (insert n s)
  | full : (∀ n < len, n ∈ s) → Spec len s .getfree (.index (-1)) s
  | get (n : Nat) : Spec len s (.get n) (.bit (n ∈ s)) s
  | count : Spec len s .count (.count s.card) s

/-- Every call of the sequence returns, with an answer the set allows. -/
def Behaves (b : Bitv) (s : Finset Nat) : List Call → Prop
  | [] => True
  | c :: cs => ∃ b' ans s', step b c = .ok (b', ans) ∧ Spec b.length s c ans s' ∧ Behaves b' s' cs

/-- The lowest index not in `s`. -/
def lowest (s : Finset Nat) : Nat :=
  Nat.find (Infinite.exists_notMem_finset s)

/-- The calls that reach no undefined shift and no bit beyond `length`. For
`Bitv_getfree` this speaks of the lowest unused index: it lies below `length`, in
the low 31 bits of its word, unless the words are all full. `Bitv_count` shifts by
up to 63 for every word there is. -/
def Met (len : Nat) (s : Finset Nat) : Call → Prop
  | .put n _ | .set n | .clear n => n % bpw < 31
  | .get _ => True
  | .getfree => if lowest s = len then bpw ∣ len else lowest s % bpw < 31
  | .count => len = 0

/-- The set after a call; `Bitv_getfree` takes the lowest unused index. -/
def after (len : Nat) (s : Finset Nat) : Call → Finset Nat
  | .put n true | .set n => insert n s
  | .put n false | .clear n => s.erase n
  | .getfree => if lowest s < len then insert (lowest s) s else s
  | .get _ | .count => s

/-- Every call of the sequence meets `Met` on the set it starts from. -/
def RunMet (len : Nat) (s : Finset Nat) : List Call → Prop
  | [] => True
  | c :: cs => Met len s c ∧ RunMet len (after len s c) cs

/-! ### `Bitv_put` -/

section Put

variable {b : Bitv} {s : Finset Nat} {n : Nat}

theorem bitvPut_one (h : Represents b s) (hn : n < b.length) (low : n % bpw < 31) :
    ∃ b', bitvPut b n true = .ok (b', decide (n ∈ s)) ∧ b'.length = b.length ∧
      Represents b' (insert n s) := by
  refine ⟨b.modify (n / bpw) (· ||| BitVec.twoPow 64 (n % bpw)), ?_, rfl, h.insert hn⟩
  simp [bitvPut, hn, intBit_ok low, h.bit_eq_decide, bind, Except.bind, pure, Except.pure]

theorem bitvPut_zero (h : Represents b s) (hn : n < b.length) (low : n % bpw < 31) :
    ∃ b', bitvPut b n false = .ok (b', decide (n ∈ s)) ∧ b'.length = b.length ∧
      Represents b' (s.erase n) := by
  refine ⟨b.modify (n / bpw) (· &&& ~~~(BitVec.twoPow 64 (n % bpw))), ?_, rfl, ?_⟩
  · simp [bitvPut, hn, intBit_ok low, h.bit_eq_decide, bind, Except.bind, pure, Except.pure]
  · refine h.modify hn ?_ ?_ ?_
    · simp [show n % bpw < 64 by omega]
    · intro k hk hne
      simp [show k < 64 from hk, hne]
    · intro m hm
      simp [hm]

theorem bitvPut_undefined (hn : n < b.length) (high : ¬ n % bpw < 31) (bit : Bool) :
    bitvPut b n bit = .error .undefinedShift := by
  simp [bitvPut, hn, intBit_undefined high, bind, Except.bind]

end Put

/-! ### `Bitv_getfree` -/

theorem lowest_notMem (s : Finset Nat) : lowest s ∉ s :=
  Nat.find_spec (Infinite.exists_notMem_finset s)

theorem mem_of_lt_lowest {k : Nat} (h : k < lowest s) : k ∈ s :=
  not_not.mp (Nat.find_min (Infinite.exists_notMem_finset s) h)

/-- The scan stops at the first available bit `k`, if it gets that far. -/
theorem firstAvail_eq {avail : Word} {k : Nat} (hk : k < bpw) (hit : avail.getLsbD k = true)
    (miss : ∀ j < k, avail.getLsbD j = false) :
    ∀ left j, left + j = bpw → j ≤ k →
      firstAvail avail left j = if k < 31 then .ok k else .error .undefinedShift := by
  intro left
  induction left with
  | zero => intro j hj hjk; omega
  | succ left ih =>
    intro j hj hjk
    rw [firstAvail]
    by_cases low : j < 31
    · rw [intBit_ok low]
      change (if BitVec.twoPow 64 j &&& avail ≠ 0#64 then _ else _) = _
      by_cases heq : j = k
      · subst heq
        rw [if_pos ((twoPow_and_ne_zero hk).mpr hit), if_pos low]
        rfl
      · have hlt : j < k := by omega
        rw [if_neg (by rw [twoPow_and_ne_zero (by omega), miss j hlt]; simp)]
        exact ih (j + 1) (by omega) (by omega)
    · rw [intBit_undefined low, if_neg (by omega)]
      rfl

section Getfree

variable {b : Bitv} {s : Finset Nat}

section

variable (h : Represents b s)
include h

theorem Represents.getLsbD_word (i : Nat) {k : Nat} (hk : k < bpw) :
    (b.words.getD i 0#64).getLsbD k = decide (i * bpw + k ∈ s) := by
  have hdiv : (i * bpw + k) / bpw = i := by simp only [bpw] at hk ⊢; omega
  have hmod : (i * bpw + k) % bpw = k := by simp only [bpw] at hk ⊢; omega
  rw [← h.bit_eq_decide, bit_eq, hdiv, hmod]

/-- A word has an available bit exactly when one of its 64 indices is unused. -/
theorem Represents.avail_iff (i : Nat) :
    ~~~(b.words.getD i 0#64) &&& allocMask ≠ 0#64 ↔ ∃ k < bpw, i * bpw + k ∉ s := by
  rw [allocMask, BitVec.and_allOnes]
  constructor
  · intro hne
    by_contra hall
    push Not at hall
    apply hne
    apply BitVec.eq_of_getLsbD_eq
    intro k hk
    rw [BitVec.getLsbD_not, h.getLsbD_word i hk, decide_eq_true (hall k hk)]
    simp
  · rintro ⟨k, hk, hkn⟩ h0
    have := congrArg (fun v : Word => v.getLsbD k) h0
    simp only [BitVec.getLsbD_not, h.getLsbD_word i hk, decide_eq_false hkn] at this
    simp [show k < 64 from hk] at this

/-- The first word with an available bit holds the lowest unused index, and there is
such a word exactly when that index lies inside the words. -/
theorem Represents.findIdx_eq :
    b.words.findIdx? (fun w => ~~~w &&& allocMask ≠ 0#64) =
      if lowest s / bpw < b.words.length then some (lowest s / bpw) else none := by
  have full : ∀ i, i < lowest s / bpw → ¬ (~~~(b.words.getD i 0#64) &&& allocMask ≠ 0#64) := by
    intro i hi
    rw [h.avail_iff]
    rintro ⟨k, hk, hkn⟩
    refine hkn (mem_of_lt_lowest ?_)
    simp only [bpw] at hi hk ⊢
    omega
  split
  · rename_i hlt
    rw [List.findIdx?_eq_some_iff_getElem]
    refine ⟨hlt, ?_, ?_⟩
    · have := (h.avail_iff (lowest s / bpw)).mpr ⟨lowest s % bpw, Nat.mod_lt _ (by decide), by
        rw [Nat.div_add_mod']; exact lowest_notMem s⟩
      rw [getD_eq_getElem _ _ hlt] at this
      simpa using this
    · intro j hj
      have := full j hj
      rw [getD_eq_getElem _ _ (by omega)] at this
      simpa using this
  · rename_i hge
    rw [List.findIdx?_eq_none_iff]
    intro w hw
    obtain ⟨i, hi, rfl⟩ := getElem_of_mem hw
    have := full i (by omega)
    rw [getD_eq_getElem _ _ hi] at this
    simpa using this

theorem Represents.lowest_le : lowest s ≤ b.length := by
  by_contra hlt
  exact absurd (h.below _ (mem_of_lt_lowest (Nat.lt_of_not_le hlt))) (lt_irrefl _)

/-- `Bitv_getfree` when the lowest unused index lies inside the words. -/
theorem bitvGetfree_inside (hin : lowest s / bpw < b.words.length) :
    bitvGetfree b = if lowest s % bpw < 31 then
      .ok (b.modify (lowest s / bpw) (· ||| BitVec.twoPow 64 (lowest s % bpw)), (lowest s : Int))
      else .error .undefinedShift := by
  have hbit : ∀ k < bpw, (~~~(b.words.getD (lowest s / bpw) 0#64)).getLsbD k =
      decide (lowest s / bpw * bpw + k ∉ s) := by
    intro k hk
    rw [BitVec.getLsbD_not, h.getLsbD_word _ hk]
    simp [show k < 64 from hk]
  have hmodlt : lowest s % bpw < bpw := Nat.mod_lt _ (by decide)
  have hit : (~~~(b.words.getD (lowest s / bpw) 0#64)).getLsbD (lowest s % bpw) = true := by
    rw [hbit _ hmodlt, Nat.div_add_mod']
    simpa using lowest_notMem s
  have miss : ∀ j < lowest s % bpw,
      (~~~(b.words.getD (lowest s / bpw) 0#64)).getLsbD j = false := by
    intro j hj
    have hmem : lowest s / bpw * bpw + j ∈ s :=
      mem_of_lt_lowest (by have := Nat.div_add_mod' (lowest s) bpw; omega)
    rw [hbit j (by omega)]
    simpa using hmem
  have hscan := firstAvail_eq hmodlt hit miss bpw 0 rfl (Nat.zero_le _)
  rw [bitvGetfree, h.findIdx_eq, if_pos hin]
  simp only [hscan]
  split
  · rename_i low
    have hloc : lowest s / bpw * 8 * 8 + lowest s % bpw = lowest s := by
      have := Nat.div_add_mod' (lowest s) bpw
      simp only [bpw] at this ⊢
      omega
    simp only [bind, Except.bind, intBit_ok low, hloc]
    rfl
  · rfl

/-- `Bitv_getfree` when every word is full. -/
theorem bitvGetfree_outside (hout : ¬ lowest s / bpw < b.words.length) :
    bitvGetfree b = .ok (b, -1) := by
  rw [bitvGetfree, h.findIdx_eq, if_neg hout]

theorem inside_iff :
    lowest s / bpw < b.words.length ↔ ¬ (lowest s = b.length ∧ bpw ∣ b.length) := by
  have := h.lowest_le
  rw [b.sized, nwords_eq]
  simp only [bpw]
  omega

end

end Getfree

/-! ### `Bitv_count` -/

/-- The scan of any word reaches `1 << 31`. -/
theorem countWord_undefined (w : Word) : ∃ e, countWord w = .error e := by
  have hsplit : List.range bpw = List.range 31 ++ 31 :: (List.range' 32 32) := by decide
  rw [countWord, hsplit, foldlM_append]
  cases hl : List.foldlM (fun count j => do
      let mask ← intBit j
      return if w &&& mask ≠ 0#64 then count + 1 else count) 0 (List.range 31) with
  | error e => exact ⟨e, rfl⟩
  | ok c => exact ⟨.undefinedShift, rfl⟩

theorem bitvCount_of_length_zero (h : b.length = 0) : bitvCount b = .ok 0 := by
  have : b.words = [] := eq_nil_of_length_eq_zero (by rw [b.sized, h]; rfl)
  rw [bitvCount, this]
  rfl

theorem bitvCount_undefined (h : b.length ≠ 0) : ∃ e, bitvCount b = .error e := by
  have hlen : b.words.length ≠ 0 := by rw [b.sized, nwords_eq]; omega
  cases hw : b.words with
  | nil => simp [hw] at hlen
  | cons w ws =>
    obtain ⟨e, he⟩ := countWord_undefined w
    refine ⟨e, ?_⟩
    rw [bitvCount, hw, foldlM_cons, he]
    rfl

/-! ### One call, and every sequence of calls -/

theorem exists_of_map_ok {β γ : Type} {f : β → γ} {x : Except Fault β} {y : γ}
    (h : f <$> x = .ok y) : ∃ z, x = .ok z := by
  cases x with
  | error e => cases h
  | ok z => exact ⟨z, rfl⟩

section Run

variable {b : Bitv} {s : Finset Nat} {c : Call}

section

variable (h : Represents b s) (valid : c.Valid b.length)
include h valid

/-- A call that meets `Met` returns, answers as the set does and leaves a vector that
represents the set after the call. -/
theorem step_of_met (met : Met b.length s c) :
    ∃ b' ans, step b c = .ok (b', ans) ∧ Spec b.length s c ans (after b.length s c) ∧
      b'.length = b.length ∧ Represents b' (after b.length s c) := by
  cases c with
  | put n bit =>
    cases bit with
    | true =>
      obtain ⟨b', run, len, rep⟩ := bitvPut_one h valid met
      exact ⟨b', _, by simp [step, run, Functor.map, Except.map], .putOne n, len, rep⟩
    | false =>
      obtain ⟨b', run, len, rep⟩ := bitvPut_zero h valid met
      exact ⟨b', _, by simp [step, run, Functor.map, Except.map], .putZero n, len, rep⟩
  | set n =>
    obtain ⟨b', run, len, rep⟩ := bitvPut_one h valid met
    exact ⟨b', _, by simp [step, bitvSet, run, Functor.map, Except.map], .set n, len, rep⟩
  | clear n =>
    obtain ⟨b', run, len, rep⟩ := bitvPut_zero h valid met
    exact ⟨b', _, by simp [step, bitvClear, run, Functor.map, Except.map], .clear n, len, rep⟩
  | get n =>
    refine ⟨b, _, ?_, .get n, rfl, h⟩
    simp only [step, bitvGet, if_pos (show n < b.length from valid), h.bit_eq_decide]
    rfl
  | count =>
    have hs : s = ∅ := by
      refine Finset.eq_empty_of_forall_notMem fun n hn => ?_
      have := h.below n hn
      rw [show b.length = 0 from met] at this
      omega
    refine ⟨b, .count 0, ?_, ?_, rfl, h⟩
    · simp [step, bitvCount_of_length_zero met, Functor.map, Except.map]
    · have spec : Spec b.length s .count (.count s.card) s := .count
      rwa [hs] at spec ⊢
  | getfree =>
    have hle := h.lowest_le
    by_cases hfull : lowest s = b.length
    · have hdvd : bpw ∣ b.length := by simpa [Met, hfull] using met
      have hout : ¬ lowest s / bpw < b.words.length := by
        rw [inside_iff h]
        exact fun hn => hn ⟨hfull, hdvd⟩
      have hafter : after b.length s .getfree = s := by simp [after, hfull]
      refine ⟨b, .index (-1), ?_, ?_, rfl, by rwa [hafter]⟩
      · simp [step, bitvGetfree_outside h hout, Functor.map, Except.map]
      · rw [hafter]
        exact .full fun n hn => mem_of_lt_lowest (hfull ▸ hn)
    · have hlow : lowest s % bpw < 31 := by simpa [Met, hfull] using met
      have hlt : lowest s < b.length := by omega
      have hafter : after b.length s .getfree = insert (lowest s) s := by simp [after, hlt]
      have run := bitvGetfree_inside h ((inside_iff h).mpr fun hn => hfull hn.1)
      rw [if_pos hlow] at run
      refine ⟨b.modify (lowest s / bpw) (· ||| BitVec.twoPow 64 (lowest s % bpw)),
        .index (lowest s), ?_, ?_, rfl, ?_⟩
      · simp [step, run, Functor.map, Except.map]
      · rw [hafter]
        exact .getfree hlt (lowest_notMem s)
      · rw [hafter]
        exact h.insert hlt

section

variable {b' : Bitv} {ans : Answer} {s' : Finset Nat} (run : step b c = .ok (b', ans))
  (spec : Spec b.length s c ans s')
include run spec

/-- A call that answers as the set does meets `Met`, and the answer determines the
set after it. -/
theorem met_of_step : Met b.length s c := by
  have undefined : ∀ {n : Nat} {bit : Bool} {out}, n < b.length → bitvPut b n bit = .ok out →
      n % bpw < 31 := by
    intro n bit out hn hout
    by_contra high
    rw [bitvPut_undefined hn high] at hout
    cases hout
  cases c with
  | put n bit =>
    obtain ⟨out, hout⟩ := exists_of_map_ok run
    exact undefined valid hout
  | set n | clear n =>
    obtain ⟨b₁, hset⟩ := exists_of_map_ok run
    obtain ⟨out, hout⟩ := exists_of_map_ok hset
    exact undefined valid hout
  | get n => trivial
  | count =>
    by_contra hlen
    obtain ⟨e, he⟩ := bitvCount_undefined hlen
    simp [step, he, Functor.map, Except.map] at run
  | getfree =>
    by_cases hin : lowest s / bpw < b.words.length
    · rw [step, bitvGetfree_inside h hin] at run
      split at run
      · rename_i low
        -- The call returns the lowest unused index: the set allows it only below `length`.
        have hans : ans = .index (lowest s) := by
          simp only [Functor.map, Except.map, Except.ok.injEq, Prod.mk.injEq] at run
          exact run.2.symm
        have hne : lowest s ≠ b.length := by
          rw [hans] at spec
          cases spec with
          | getfree hlt _ => omega
        simpa [Met, hne] using low
      · simp [Functor.map, Except.map] at run
    · obtain ⟨hfull, hdvd⟩ := not_not.mp ((not_congr (inside_iff h)).mp hin)
      simpa [Met, hfull] using hdvd

theorem after_unique : s' = after b.length s c := by
  obtain ⟨b'', ans', run', spec', -, -⟩ :=
    step_of_met h valid (met_of_step h valid run spec)
  rw [run, Except.ok.injEq] at run'
  obtain ⟨-, rfl⟩ := run'
  cases spec with
  | putOne | putZero | set | clear | get | count => rfl
  | getfree hlt hn =>
    generalize hset : after b.length s .getfree = t at spec'
    cases spec' with
    | getfree _ _ => rfl
  | full hall =>
    generalize hset : after b.length s .getfree = t at spec'
    cases spec' with
    | full _ => rfl

end

end

/-- From any vector that represents a set, a sequence of valid calls answers as the
set does exactly when each call meets `Met` on the set it starts from. -/
theorem behaves_iff (h : Represents b s) (calls : List Call)
    (valid : ∀ c ∈ calls, c.Valid b.length) :
    Behaves b s calls ↔ RunMet b.length s calls := by
  induction calls generalizing b s with
  | nil => exact .rfl
  | cons c cs ih =>
    have vc := valid c (by simp)
    constructor
    · rintro ⟨b', ans, s', run, spec, rest⟩
      have met := met_of_step h vc run spec
      obtain ⟨b'', ans', run', -, len, rep⟩ := step_of_met h vc met
      rw [run, Except.ok.injEq] at run'
      obtain ⟨rfl, -⟩ := run'
      rw [after_unique h vc run spec] at rest
      have tail := (ih rep fun c hc => len ▸ valid c (by simp [hc])).mp rest
      rw [len] at tail
      exact ⟨met, tail⟩
    · rintro ⟨met, rest⟩
      obtain ⟨b', ans, run, spec, len, rep⟩ := step_of_met h vc met
      refine ⟨b', ans, _, run, spec, ?_⟩
      refine (ih rep fun c hc => len ▸ valid c (by simp [hc])).mpr ?_
      rwa [len]

end Run

/-- A new vector answers a sequence of valid calls as a set of indices does exactly
when every call meets `Met`. -/
theorem bitv_behaves_iff_runMet (len : Nat) (calls : List Call)
    (valid : ∀ c ∈ calls, c.Valid len) :
    Behaves (bitvNew len) ∅ calls ↔ RunMet len ∅ calls :=
  behaves_iff (represents_bitvNew len) calls valid

theorem bitv_behaves_on_low_indices :
    Behaves (bitvNew 40) ∅ [.put 3 true, .getfree, .get 3] := by
  have hlow : lowest (insert 3 ∅) = 0 := (Nat.find_eq_zero _).mpr (by decide)
  have hfree : Met 40 (insert 3 ∅) .getfree := by
    unfold Met
    rw [hlow]
    decide
  exact (bitv_behaves_iff_runMet 40 _ (by simp [Call.Valid])).mpr
    ⟨show 3 % bpw < 31 by decide, hfree, trivial, trivial⟩

/-- The second `Bitv_getfree` on a vector of length 1 hands out index 1. -/
theorem bitv_getfree_past_length :
    (∀ c ∈ [Call.getfree, Call.getfree], c.Valid 1) ∧
      ¬ Behaves (bitvNew 1) ∅ [.getfree, .getfree] := by
  refine ⟨by simp [Call.Valid], ?_⟩
  rintro ⟨b₁, ans₁, s₁, run₁, -, b₂, ans₂, s₂, run₂, spec₂, -⟩
  have first : step (bitvNew 1) .getfree =
      .ok ((bitvNew 1).modify 0 (· ||| 1#64), .index 0) := rfl
  obtain ⟨rfl, -⟩ := run₁
  obtain ⟨-, rfl⟩ := run₂
  cases spec₂ with
  | getfree hlt _ =>
    change 1 < 1 at hlt
    omega

end Coda.Bitvect
