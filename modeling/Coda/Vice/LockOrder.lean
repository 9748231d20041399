import Coda.Lib.Qsort
import Coda.Vice.CallbackSafe

/-!
Threads of `BreakCallBack` that wait for the locks of clients (`vicecb.cc`).

`qsort` calls `order_helist` with the addresses of two slots of `helist`, so `id` is there the low
word of the pointer in the slot (64-bit pointers, low word first). The hosts are entries of
`hostTable`, 64 bytes each, so that these words tell them apart.
-/

namespace Coda.Vice

open Coda.Lib List Relation Callback

/-- What is read as the id of an entry of the table at `base`. -/
def seenId (base : Nat) (he : Host) : Int := (BitVec.ofNat 32 (base + 64 * he)).toInt

def orderHelist (base : Nat) (he₁ he₂ : Host) : Int :=
  if seenId base he₁ < seenId base he₂ then -1
  else if seenId base he₁ > seenId base he₂ then 1
  else 0

/-- A call of `BreakCallBack` that has found its file entry; all clients are in `hostTable`. -/
structure Breaker where
  server : Server
  counted : Counted server
  entry : FileEntry
  mem : entry ∈ server.hashTable
  hosts : ∀ he ∈ entry.callBacks.reduceOption, he < 1000
  client : Option Host

def Breaker.helist (b : Breaker) : List Host := (b.entry.callBacks.filter (· ≠ b.client)).reduceOption

/-- The list in the order in which the locks are obtained. -/
def Breaker.sorted (b : Breaker) (q : Qsort Host) (base : Nat) : List Host :=
  q.sort (orderHelist base) b.helist

/-- The call waits for the lock of client `i` of the list. Of those before, it has let go of the ones
that it found without a connection. -/
structure Waiter (q : Qsort Host) (base : Nat) extends Breaker where
  connected : Host → Bool
  i : Nat
  more : i < (toBreaker.sorted q base).length

variable {q : Qsort Host} {base : Nat} {x y : Nat}

def Waiter.held (w : Waiter q base) : List Host :=
  ((w.sorted q base).take w.i).filter w.connected

def Waiter.next (w : Waiter q base) : Host := (w.sorted q base).get ⟨w.i, w.more⟩

theorem seenId_inj (hx : x < 1000) (hy : y < 1000) (h : seenId base x = seenId base y) : x = y := by
  have := congrArg BitVec.toNat (BitVec.toInt_inj.mp h)
  simp only [BitVec.toNat_ofNat] at this
  omega

theorem orderHelist_le : orderHelist base x y ≤ 0 ↔ seenId base x ≤ seenId base y := by
  unfold orderHelist
  split_ifs <;> omega

/-- The ids that are seen of the list rise: `AddCallBack` adds a client once. -/
theorem Breaker.sorted_lt (b : Breaker) (base : Nat) :
    (b.sorted q base).Pairwise fun x y => seenId base x < seenId base y := by
  have perm := q.perm (orderHelist base) b.helist
  have sub : b.helist.Sublist b.entry.callBacks.reduceOption := filter_sublist.filterMap _
  have nodup : (b.sorted q base).Nodup :=
    perm.nodup_iff.mpr ((b.counted.distinct _ b.mem).sublist sub)
  have hosts : ∀ he ∈ b.sorted q base, he < 1000 := fun he hmem =>
    b.hosts he (sub.subset (perm.mem_iff.mp hmem))
  have sorted := q.sorted_le (seenId base) (fun _ _ => orderHelist_le) b.helist
  refine (sorted.and nodup).imp_of_mem fun hx hy h => h.1.lt_of_ne fun heq => h.2 ?_
  exact seenId_inj (hosts _ hx) (hosts _ hy) heq

/-- What a thread has comes before what it waits for. -/
theorem Waiter.lt (w : Waiter q base) (hx : x ∈ w.held) : seenId base x < seenId base w.next := by
  have hmem := (mem_filter.mp hx).1
  have hsplit := w.toBreaker.sorted_lt (q := q) base
  rw [← take_append_drop w.i (w.sorted q base), drop_eq_getElem_cons w.more] at hsplit
  exact (pairwise_append.mp hsplit).2.2 x hmem _ (.head _)

/-- However many threads break callbacks, they never wait for each other in a circle. -/
theorem waiters_acyclic (w : Waiter q base) :
    ¬ TransGen (fun w w' : Waiter q base => w.next ∈ w'.held) w w := by
  intro h
  have hlt := h.lift (fun w => seenId base w.next) fun _ w' hmem => w'.lt hmem
  rw [transGen_eq_self] at hlt
  exact lt_irrefl _ hlt

/-- Two clients have a callback on a file. The thread has locked the first and waits for the other. -/
def secondOfTwo : Waiter (Qsort.reversing Host) 4096 where
  server := ⟨[⟨0, ⟨7, 1, 1⟩, 2, [some 1, some 0]⟩], [], 1, 1, 0, 2, 0, fun _ => none⟩
  counted := by constructor <;> decide
  entry := ⟨0, ⟨7, 1, 1⟩, 2, [some 1, some 0]⟩
  mem := .head _
  hosts := by decide
  client := none
  connected := fun _ => true
  i := 1
  more := by decide +kernel

theorem waiters_acyclic_two : secondOfTwo.held = [0] ∧ secondOfTwo.next = 1 ∧
    ¬ TransGen (fun w w' => Waiter.next w ∈ Waiter.held w') secondOfTwo secondOfTwo :=
  ⟨by decide +kernel, by decide +kernel, waiters_acyclic secondOfTwo⟩

end Coda.Vice
