import Coda.Lib.Run

/-!
Locks of cooperative threads (`lwp/src/lock.c`).

A thread runs until it waits, so what happens between two waits is one step. Waiting threads are
told by a signal of their event that they may look again, at any later time; which of them looks
first is left open. The lists of the threads that hold a lock are not in the code: they are what
the lock stands for. A step is `none` when an assertion on `excl_locker` fails.
-/

namespace Coda.Lwp

open Coda.Lib List

/-- `enum lock_how`. -/
inductive LockHow where
  | read
  | write
  | shared
deriving DecidableEq, Repr

def readLock : BitVec 8 := 1
def writeLock : BitVec 8 := 2
def sharedLock : BitVec 8 := 4

/-- `EXCL_LOCKS`. -/
def exclLocks : BitVec 8 := writeLock ||| sharedLock

def LockHow.bits : LockHow → BitVec 8
  | .read => readLock
  | .write => writeLock
  | .shared => sharedLock

/-- The addresses that threads wait on. -/
inductive Event where
  | readersReading
  | exclLocked
deriving DecidableEq, Repr

def LockHow.event : LockHow → Event
  | .read => .readersReading
  | .write => .exclLocked
  | .shared => .exclLocked

/-- `struct Lock`. -/
structure Lock (T : Type*) where
  waitStates : BitVec 8
  exclLocked : BitVec 8
  readersReading : BitVec 8
  exclLocker : Option T

/-- The lock, the threads that wait for it (and whether they have been signalled), and the threads
that hold it. -/
structure State (T : Type*) where
  lock : Lock T
  waiting : T → Option (LockHow × Bool)
  readers : List T
  writers : List T
  sharers : List T

/-- `Lock_Init`. -/
def lockInit (T : Type*) : State T where
  lock := ⟨0, 0, 0, none⟩
  waiting _ := none
  readers := []
  writers := []
  sharers := []

section Code

variable {T : Type*}

/-- `LWP_NoYieldSignal`. -/
def signal (event : Event) (s : State T) : State T :=
  { s with waiting := fun t => (s.waiting t).map fun w => (w.1, w.2 || w.1.event == event) }

def setWaitStates (states : BitVec 8) (s : State T) : State T :=
  { s with lock := { s.lock with waitStates := states } }

variable [DecidableEq T]

/-- The thread waits (again). -/
def waitProcess (how : LockHow) (me : T) (s : State T) : State T :=
  { s with
    lock := { s.lock with waitStates := s.lock.waitStates ||| how.bits }
    waiting := Function.update s.waiting me (some (how, false)) }

/-- The conditions of the loops of `Lock_Obtain`. -/
def keepsWaiting (how : LockHow) (me : T) (lock : Lock T) : Bool :=
  match how with
  | .read => lock.exclLocker ≠ some me ∧ lock.exclLocked &&& writeLock ≠ 0
  | .write => (lock.exclLocked ≠ 0 ∧ lock.exclLocker ≠ some me) ∨ lock.readersReading ≠ 0
  | .shared => lock.exclLocked ≠ 0

/-- The thread gets the lock. -/
def obtained (how : LockHow) (me : T) (s : State T) : State T :=
  match how with
  | .read =>
    { s with
      lock := { s.lock with readersReading := s.lock.readersReading + 1 }
      readers := me :: s.readers }
  | .write =>
    { s with
      lock := { s.lock with exclLocked := writeLock, exclLocker := some me }
      writers := me :: s.writers }
  | .shared =>
    { s with
      lock := { s.lock with exclLocked := sharedLock }
      sharers := me :: s.sharers }

/-- `Lock_Obtain`, from the return of `LWP_WaitProcess` on. -/
def lockObtainWoken (how : LockHow) (me : T) (s : State T) : State T :=
  if keepsWaiting how me s.lock then waitProcess how me s
  else obtained how me { s with waiting := Function.update s.waiting me none }

/-- `ObtainReadLock`. -/
def obtainReadLock (me : T) (s : State T) : State T :=
  if s.lock.exclLocked &&& writeLock = 0 ∧ s.lock.waitStates = 0 then obtained .read me s
  else if s.lock.exclLocked &&& writeLock ≠ 0 ∧ s.lock.exclLocker = some me then obtained .read me s
  else waitProcess .read me s

/-- `ObtainWriteLock`. -/
def obtainWriteLock (me : T) (s : State T) : State T :=
  if s.lock.exclLocked = 0 ∧ s.lock.readersReading = 0 then obtained .write me s
  else if s.lock.exclLocked &&& writeLock ≠ 0 ∧ s.lock.exclLocker = some me then
    { s with writers := me :: s.writers }
  else waitProcess .write me s

/-- `ObtainSharedLock`. -/
def obtainSharedLock (me : T) (s : State T) : State T :=
  if s.lock.exclLocked = 0 ∧ s.lock.waitStates = 0 then obtained .shared me s
  else waitProcess .shared me s

/-- The head of `Lock_ReleaseR` and `Lock_ReleaseW`, with their assertion. -/
def dropLocker (me : T) (s : State T) : Option (State T) :=
  if s.lock.exclLocked &&& writeLock ≠ 0 then
    if s.lock.exclLocker = some me then
      some { s with lock := { s.lock with exclLocker := none } }
    else none
  else some s

/-- `Lock_ReleaseR`: preference to new readers. -/
def lockReleaseR (me : T) (s : State T) : Option (State T) :=
  (dropLocker me s).map fun s =>
    if s.lock.waitStates &&& readLock ≠ 0 then
      signal .readersReading (setWaitStates (s.lock.waitStates &&& ~~~readLock) s)
    else signal .exclLocked (setWaitStates (s.lock.waitStates &&& ~~~exclLocks) s)

/-- `Lock_ReleaseW`: preference to new writers. -/
def lockReleaseW (me : T) (s : State T) : Option (State T) :=
  (dropLocker me s).map fun s =>
    if s.lock.waitStates &&& exclLocks ≠ 0 then
      signal .exclLocked (setWaitStates (s.lock.waitStates &&& ~~~exclLocks) s)
    else signal .readersReading (setWaitStates (s.lock.waitStates &&& ~~~readLock) s)

/-- `ReleaseReadLock`. -/
def releaseReadLock (me : T) (s : State T) : Option (State T) :=
  let s := { s with
    lock := { s.lock with readersReading := s.lock.readersReading - 1 }
    readers := s.readers.erase me }
  if s.lock.readersReading = 0 ∧ s.lock.waitStates ≠ 0 then lockReleaseW me s else some s

/-- The end of `ReleaseWriteLock` and `ReleaseSharedLock`. -/
def clearExcl (flags : BitVec 8) (s : State T) : State T :=
  { s with lock := { s.lock with exclLocked := s.lock.exclLocked &&& ~~~flags } }

/-- `Lock_ReleaseR`, if somebody waits. -/
def wakeWaiters (me : T) (s : State T) : Option (State T) :=
  if s.lock.waitStates ≠ 0 then lockReleaseR me s else some s

/-- `ReleaseWriteLock`. -/
def releaseWriteLock (me : T) (s : State T) : Option (State T) :=
  (wakeWaiters me { s with writers := s.writers.erase me }).map (clearExcl writeLock)

/-- `ReleaseSharedLock`. -/
def releaseSharedLock (me : T) (s : State T) : Option (State T) :=
  (wakeWaiters me { s with sharers := s.sharers.erase me }).map (clearExcl (sharedLock ||| writeLock))

end Code

/-! ### Steps -/

/-- A thread calls one of the six functions, or comes back from a wait. -/
inductive Action (T : Type*) where
  | obtain (how : LockHow) (me : T)
  | release (how : LockHow) (me : T)
  | wake (me : T)

section Steps

variable {T : Type*} [DecidableEq T]

def State.holders (s : State T) : LockHow → List T
  | .read => s.readers
  | .write => s.writers
  | .shared => s.sharers

def step (s : State T) : Action T → Option (State T)
  | .obtain .read me => some (obtainReadLock me s)
  | .obtain .write me => some (obtainWriteLock me s)
  | .obtain .shared me => some (obtainSharedLock me s)
  | .release .read me => releaseReadLock me s
  | .release .write me => releaseWriteLock me s
  | .release .shared me => releaseSharedLock me s
  | .wake me =>
    match s.waiting me with
    | none => some s
    | some (how, _) => some (lockObtainWoken how me s)

/-- The thread is not waiting, does not obtain again a write or shared lock it holds, and releases
only what it holds; a waiting thread goes on after a signal. -/
def Allowed (s : State T) : Action T → Prop
  | .obtain how me => s.waiting me = none ∧ (how = .read ∨ me ∉ s.holders how)
  | .release how me => s.waiting me = none ∧ me ∈ s.holders how
  | .wake me => ∃ how, s.waiting me = some (how, true)

instance Allowed.decidable (s : State T) : (a : Action T) → Decidable (Allowed s a)
  | .obtain _ _ => inferInstanceAs (Decidable (_ ∧ (_ ∨ _)))
  | .release _ _ => inferInstanceAs (Decidable (_ ∧ _))
  | .wake me => decidable_of_iff ((s.waiting me).map Prod.snd = some true) (by
      rw [Option.map_eq_some_iff]
      constructor
      · rintro ⟨⟨how, _⟩, hwaiting, rfl⟩
        exact ⟨how, hwaiting⟩
      · rintro ⟨how, hwaiting⟩
        exact ⟨(how, true), hwaiting, rfl⟩)

/-- What has to hold in front of a step: there is room for one more reader; a writer that comes back
from its wait is not still recorded as the owner while the lock is taken; and the last read lock
inside a write lock is not released while others wait. -/
def Condition (s : State T) : Action T → Prop
  | .obtain .read _ => s.lock.readersReading ≠ 255
  | .wake me =>
    ∀ w ∈ s.waiting me,
      (w.1 = .read → s.lock.readersReading ≠ 255) ∧
      (w.1 = .write → s.lock.exclLocked = 0 ∨ s.lock.exclLocker ≠ some me)
  | .release .read _ => s.lock.exclLocked &&& writeLock = 0 ∨ s.lock.waitStates = 0 ∨
      s.lock.readersReading ≠ 1
  | _ => True

instance Condition.decidable (s : State T) : (a : Action T) → Decidable (Condition s a)
  | .obtain .read _ => inferInstanceAs (Decidable (_ ≠ _))
  | .obtain .write _ => inferInstanceAs (Decidable True)
  | .obtain .shared _ => inferInstanceAs (Decidable True)
  | .wake me => inferInstanceAs (Decidable (∀ w ∈ s.waiting me, _))
  | .release .read _ => inferInstanceAs (Decidable (_ ∨ _ ∨ _))
  | .release .write _ => inferInstanceAs (Decidable True)
  | .release .shared _ => inferInstanceAs (Decidable True)

end Steps

/-! ### The invariant -/

section Invariant

variable {T : Type*}

/-- Nobody else reads or shares while a thread writes, and at most one thread writes or shares. -/
structure Safe (s : State T) : Prop where
  alone : ∀ w ∈ s.writers, ∀ t, t ∈ s.readers ∨ t ∈ s.sharers → t = w
  one : ∀ t u, t ∈ s.writers ∨ t ∈ s.sharers → u ∈ s.writers ∨ u ∈ s.sharers → t = u

/-- What the exclusive flag stands for. -/
inductive Excl (s : State T) : Prop where
  | free (flag : s.lock.exclLocked = 0) (writers : s.writers = []) (sharers : s.sharers = [])
  | write (w : T) (flag : s.lock.exclLocked = writeLock) (locker : s.lock.exclLocker = some w)
      (writers : s.writers = [w]) (sharers : s.sharers = []) (nested : ∀ t ∈ s.readers, t = w)
  | shared (u : T) (flag : s.lock.exclLocked = sharedLock) (writers : s.writers = [])
      (sharers : s.sharers = [u])

/-- What the steps keep. -/
structure Ok (s : State T) : Prop where
  count : s.lock.readersReading.toNat = s.readers.length
  excl : Excl s

theorem lockInit_ok (T : Type*) : Ok (lockInit T) := ⟨rfl, .free rfl rfl rfl⟩

variable {s : State T}

theorem Ok.safe (h : Ok s) : Safe s := by
  cases h.excl with
  | free _ hw hs =>
    constructor
    · rw [hw]
      intro w hmem
      cases hmem
    · rw [hw, hs]
      rintro t u (ht | ht)
      · cases ht
      · cases ht
  | write w _ _ hw hs hnested =>
    constructor
    · rw [hw, hs]
      intro w' hw' t ht
      rw [mem_singleton.mp hw']
      cases ht with
      | inl hread => exact hnested t hread
      | inr hshare => cases hshare
    · rw [hw, hs]
      intro t u ht hu
      simp only [mem_singleton, not_mem_nil, or_false] at ht hu
      rw [ht, hu]
  | shared u _ hw hs =>
    constructor
    · rw [hw]
      intro w hmem
      cases hmem
    · rw [hw, hs]
      intro t u ht hu
      simp only [mem_singleton, not_mem_nil, false_or] at ht hu
      rw [ht, hu]

/-! ### What signals and waits leave alone -/

/-- Two states that differ only in who waits, and for what. -/
structure SameHolders (s s' : State T) : Prop where
  exclLocked : s'.lock.exclLocked = s.lock.exclLocked
  readersReading : s'.lock.readersReading = s.lock.readersReading
  exclLocker : s'.lock.exclLocker = s.lock.exclLocker
  readers : s'.readers = s.readers
  writers : s'.writers = s.writers
  sharers : s'.sharers = s.sharers

theorem Ok.congr {s' : State T} (same : SameHolders s s') (h : Ok s) : Ok s' := by
  obtain ⟨hflag, hcount, hlocker, hreaders, hwriters, hsharers⟩ := same
  constructor
  · rw [hcount, hreaders]
    exact h.count
  · cases h.excl with
    | free flag hw hs => exact .free (hflag.trans flag) (hwriters.trans hw) (hsharers.trans hs)
    | write w flag locker hw hs nested =>
      exact .write w (hflag.trans flag) (hlocker.trans locker) (hwriters.trans hw)
        (hsharers.trans hs) (hreaders ▸ nested)
    | shared u flag hw hs => exact .shared u (hflag.trans flag) (hwriters.trans hw) (hsharers.trans hs)

theorem signal_same (event : Event) (states : BitVec 8) (s : State T) :
    SameHolders s (signal event (setWaitStates states s)) := ⟨rfl, rfl, rfl, rfl, rfl, rfl⟩

/-- The tail of the two functions that release. -/
theorem release_same {event event' : Event} {states states' : BitVec 8} {p : Prop} [Decidable p]
    (s : State T) :
    SameHolders s (if p then signal event (setWaitStates states s)
      else signal event' (setWaitStates states' s)) := by
  split_ifs
  · exact signal_same event states s
  · exact signal_same event' states' s

/-! ### What a thread gets -/

theorem Ok.obtained_read (h : Ok s) {me : T} (room : s.lock.readersReading ≠ 255)
    (free : s.lock.exclLocked &&& writeLock = 0 ∨ s.lock.exclLocker = some me) :
    Ok (obtained .read me s) := by
  have hcount := h.count
  constructor
  · change (s.lock.readersReading + 1).toNat = s.readers.length + 1
    have hne : s.lock.readersReading.toNat ≠ 255 := fun he => room (BitVec.eq_of_toNat_eq he)
    change (s.lock.readersReading.toNat + 1) % 256 = _
    omega
  · cases h.excl with
    | free flag hw hs => exact .free flag hw hs
    | write w flag locker hw hs nested =>
      refine .write w flag locker hw hs fun t ht => ?_
      cases free with
      | inl hfree =>
        rw [flag] at hfree
        exact absurd hfree (by decide)
      | inr hmine =>
        cases mem_cons.mp ht with
        | inl heq =>
          rw [heq]
          exact Option.some.inj (hmine.symm.trans locker)
        | inr hold => exact nested t hold
    | shared u flag hw hs => exact .shared u flag hw hs

section

variable (h : Ok s) (free : s.lock.exclLocked = 0)
include h free

theorem Ok.unheld : s.writers = [] ∧ s.sharers = [] := by
  cases h.excl with
  | free flag hw hs => exact ⟨hw, hs⟩
  | write w flag | shared u flag => exact absurd (flag.symm.trans free) (by decide)

theorem Ok.obtained_write {me : T} (unread : s.lock.readersReading = 0) :
    Ok (obtained .write me s) := by
  have hreaders : s.readers = [] := by
    rw [← length_eq_zero_iff, ← h.count, unread]
    rfl
  have hempty := h.unheld free
  refine ⟨h.count, .write me rfl rfl (congrArg (me :: ·) hempty.1) hempty.2 fun t ht => ?_⟩
  change t ∈ s.readers at ht
  rw [hreaders] at ht
  cases ht

theorem Ok.obtained_shared {me : T} : Ok (obtained .shared me s) := by
  have hempty := h.unheld free
  exact ⟨h.count, .shared me rfl hempty.1 (congrArg (me :: ·) hempty.2)⟩

end

end Invariant

/-! ### One step -/

section OneStep

variable {T : Type*} [DecidableEq T]

theorem waitProcess_same (how : LockHow) (me : T) (s : State T) :
    SameHolders s (waitProcess how me s) := ⟨rfl, rfl, rfl, rfl, rfl, rfl⟩

variable {me : T} {s s' : State T}

theorem lockReleaseR_of_dropLocker (h : dropLocker me s = some s') :
    ∃ s'', lockReleaseR me s = some s'' ∧ SameHolders s' s'' := by
  unfold lockReleaseR
  rw [h]
  exact ⟨_, rfl, release_same s'⟩

theorem lockReleaseW_of_dropLocker (h : dropLocker me s = some s') :
    ∃ s'', lockReleaseW me s = some s'' ∧ SameHolders s' s'' := by
  unfold lockReleaseW
  rw [h]
  exact ⟨_, rfl, release_same s'⟩

theorem dropLocker_unlocked (me : T) (h : s.lock.exclLocked &&& writeLock = 0) :
    dropLocker me s = some s := if_neg (not_not.mpr h)

/-! ### Obtaining -/

theorem Ok.waits (h : Ok s) (how : LockHow) (me : T) : Ok (waitProcess how me s) :=
  h.congr (waitProcess_same how me s)

theorem Ok.obtainRead (h : Ok s) (room : s.lock.readersReading ≠ 255) :
    Ok (obtainReadLock me s) := by
  unfold obtainReadLock
  split_ifs with hfree hmine
  · exact h.obtained_read room (.inl hfree.1)
  · exact h.obtained_read room (.inr hmine.2)
  · exact h.waits .read me

theorem Ok.obtainWrite (h : Ok s) (new : me ∉ s.writers) : Ok (obtainWriteLock me s) := by
  unfold obtainWriteLock
  split_ifs with hfree hmine
  · exact h.obtained_write hfree.1 hfree.2
  · -- the thread would hold the write lock already
    cases h.excl with
    | free flag | shared u flag =>
      rw [flag] at hmine
      exact absurd hmine.1 (by decide)
    | write w flag locker hw =>
      rw [hw, Option.some.inj (hmine.2.symm.trans locker)] at new
      exact absurd mem_cons_self new
  · exact h.waits .write me

theorem Ok.obtainShared (h : Ok s) (me : T) : Ok (obtainSharedLock me s) := by
  unfold obtainSharedLock
  split_ifs with hfree
  · exact h.obtained_shared hfree.1
  · exact h.waits .shared me

theorem Ok.woken (h : Ok s) {how : LockHow} (room : how = .read → s.lock.readersReading ≠ 255)
    (fresh : how = .write → s.lock.exclLocked = 0 ∨ s.lock.exclLocker ≠ some me) :
    Ok (lockObtainWoken how me s) := by
  have hcalm : Ok { s with waiting := Function.update s.waiting me none } :=
    Ok.congr (s := s) ⟨rfl, rfl, rfl, rfl, rfl, rfl⟩ h
  unfold lockObtainWoken
  split_ifs with hwait
  · exact h.waits how me
  · cases how with
    | read =>
      simp only [keepsWaiting, decide_eq_true_eq, not_and_or, not_not] at hwait
      exact hcalm.obtained_read (room rfl) hwait.symm
    | write =>
      simp only [keepsWaiting, decide_eq_true_eq, not_or, not_and_or, not_not] at hwait
      have hfree : s.lock.exclLocked = 0 := by
        cases fresh rfl with
        | inl hzero => exact hzero
        | inr hother => exact hwait.1.resolve_right hother
      exact hcalm.obtained_write hfree hwait.2
    | shared =>
      simp only [keepsWaiting, decide_eq_true_eq, not_not] at hwait
      exact hcalm.obtained_shared hwait

/-! ### Releasing -/

theorem Ok.releaseRead (h : Ok s) (held : me ∈ s.readers)
    (last : s.lock.exclLocked &&& writeLock = 0 ∨ s.lock.waitStates = 0 ∨
      s.lock.readersReading ≠ 1) :
    ∃ s', releaseReadLock me s = some s' ∧ Ok s' := by
  have hlength : (s.readers.erase me).length + 1 = s.readers.length := by
    rw [length_erase_of_mem held]
    have := length_pos_of_mem held
    omega
  have hcount := h.count
  have hone : s.lock.readersReading - 1 = 0 → s.lock.readersReading = 1 := by
    intro hzero
    rw [BitVec.sub_eq_iff_eq_add] at hzero
    exact hzero
  have hfewer : Ok { s with
      lock := { s.lock with readersReading := s.lock.readersReading - 1 }
      readers := s.readers.erase me } := by
    constructor
    · change (s.lock.readersReading - 1).toNat = (s.readers.erase me).length
      change (256 - 1 + s.lock.readersReading.toNat) % 256 = _
      omega
    · cases h.excl with
      | free flag hw hs => exact .free flag hw hs
      | write w flag locker hw hs nested =>
        exact .write w flag locker hw hs fun t ht => nested t (mem_of_mem_erase ht)
      | shared u flag hw hs => exact .shared u flag hw hs
  unfold releaseReadLock
  by_cases hzero : s.lock.readersReading - 1 = 0 ∧ s.lock.waitStates ≠ 0
  · have hunlocked : s.lock.exclLocked &&& writeLock = 0 := by
      rcases last with hfree | hcalm | hmore
      · exact hfree
      · exact absurd hcalm hzero.2
      · exact absurd (hone hzero.1) hmore
    rw [if_pos hzero]
    obtain ⟨s', hrelease, same⟩ := lockReleaseW_of_dropLocker (dropLocker_unlocked me
      (s := { s with
        lock := { s.lock with readersReading := s.lock.readersReading - 1 }
        readers := s.readers.erase me }) hunlocked)
    exact ⟨s', hrelease, hfewer.congr same⟩
  · rw [if_neg hzero]
    exact ⟨_, rfl, hfewer⟩

/-- The way out of a write or a shared lock: it is free, whatever the recorded owner is. -/
theorem wakeWaiters_ok {flags : BitVec 8} (hdrop : dropLocker me s = some s')
    (count : s.lock.readersReading.toNat = s.readers.length)
    (flag : s.lock.exclLocked &&& ~~~flags = 0) (hw : s.writers = []) (hs : s.sharers = []) :
    ∃ s'', (wakeWaiters me s).map (clearExcl flags) = some s'' ∧ Ok s'' := by
  have hok : Ok (clearExcl flags s') := by
    unfold dropLocker at hdrop
    split_ifs at hdrop <;> cases hdrop <;> exact ⟨count, .free flag hw hs⟩
  unfold wakeWaiters
  split_ifs
  · obtain ⟨s'', hrelease, same⟩ := lockReleaseR_of_dropLocker hdrop
    rw [hrelease]
    exact ⟨_, rfl, Ok.congr (s := clearExcl flags s') ⟨congrArg (· &&& ~~~flags) same.exclLocked,
      same.readersReading, same.exclLocker, same.readers, same.writers, same.sharers⟩ hok⟩
  · exact ⟨_, rfl, count, .free flag hw hs⟩

theorem Ok.releaseWrite (h : Ok s) (held : me ∈ s.writers) :
    ∃ s', releaseWriteLock me s = some s' ∧ Ok s' := by
  cases h.excl with
  | free _ hw | shared _ _ hw =>
    rw [hw] at held
    cases held
  | write w flag locker hw hs nested =>
    rw [hw] at held
    obtain rfl : me = w := mem_singleton.mp held
    have hdrop : dropLocker me { s with writers := s.writers.erase me } =
        some { s with
          lock := { s.lock with exclLocker := none }
          writers := s.writers.erase me } := by
      unfold dropLocker
      rw [if_pos (by rw [flag]; decide), if_pos locker]
    have hflag : s.lock.exclLocked &&& ~~~writeLock = 0 := by
      rw [flag]
      decide
    have hnone : s.writers.erase me = [] := by
      rw [hw, erase_cons_head]
    exact wakeWaiters_ok hdrop h.count hflag hnone hs

theorem Ok.releaseShared (h : Ok s) (held : me ∈ s.sharers) :
    ∃ s', releaseSharedLock me s = some s' ∧ Ok s' := by
  cases h.excl with
  | free _ _ hs | write _ _ _ _ hs =>
    rw [hs] at held
    cases held
  | shared u flag hw hs =>
    rw [hs] at held
    obtain rfl : me = u := mem_singleton.mp held
    have hunlocked : s.lock.exclLocked &&& writeLock = 0 := by
      rw [flag]
      decide
    have hflag : s.lock.exclLocked &&& ~~~(sharedLock ||| writeLock) = 0 := by
      rw [flag]
      decide
    have hnone : s.sharers.erase me = [] := by
      rw [hs, erase_cons_head]
    exact wakeWaiters_ok
      (dropLocker_unlocked me hunlocked) h.count hflag hw hnone

theorem step_ok (h : Ok s) {a : Action T} (allowed : Allowed s a) (condition : Condition s a) :
    ∃ s', step s a = some s' ∧ Ok s' := by
  cases a with
  | obtain how me =>
    cases how with
    | read => exact ⟨_, rfl, h.obtainRead condition⟩
    | write => exact ⟨_, rfl, h.obtainWrite (allowed.2.resolve_left (by decide))⟩
    | shared => exact ⟨_, rfl, h.obtainShared me⟩
  | release how me =>
    cases how with
    | read => exact h.releaseRead allowed.2 condition
    | write => exact h.releaseWrite allowed.2
    | shared => exact h.releaseShared allowed.2
  | wake me =>
    obtain ⟨how, hwaiting⟩ := allowed
    obtain ⟨room, fresh⟩ := condition (how, true) hwaiting
    refine ⟨lockObtainWoken how me s, ?_, h.woken room fresh⟩
    rw [step, hwaiting]

end OneStep

/-! ### Runs -/

section Runs

variable {T : Type*} [DecidableEq T]

/-- No assertion fails and the lock excludes what it has to exclude, in every run of the threads in
which each step meets the condition. -/
theorem lock_safe {actions : List (Action T)}
    (h : Guarded step (fun s a => Allowed s a ∧ Condition s a) (lockInit T) actions) :
    ∃ s, actions.foldlM step (lockInit T) = some s ∧ Safe s := by
  have keep : ∀ (s : State T) a, Ok s → Allowed s a ∧ Condition s a → ∃ s', step s a = some s' ∧ Ok s' :=
    fun s a ok guard => step_ok ok guard.1 guard.2
  obtain ⟨s, run, ok⟩ := run_of_guarded keep (lockInit_ok T) h
  exact ⟨s, run, ok.safe⟩

end Runs

/-! ### Where it goes wrong -/

/-- Thread 0 nests a read lock in its write lock while thread 1 waits. -/
def contended : List (Action Nat) :=
  [.obtain .write 0, .obtain .read 0, .obtain .write 1, .release .write 0, .release .read 0, .wake 1]

/-- A run in which every step meets the condition: the write lock is released first. -/
theorem lock_safe_contended :
    Guarded step (fun s a => Allowed s a ∧ Condition s a) (lockInit Nat) contended ∧
      ∃ s, contended.foldlM step (lockInit Nat) = some s ∧ Safe s :=
  ⟨by decide, lock_safe (by decide)⟩

/-- Thread 0 gives up the nested read lock while thread 1 waits, and is no longer recorded as the
owner of its write lock. -/
def forgottenOwner : List (Action Nat) :=
  [.obtain .write 0, .obtain .read 0, .obtain .write 1, .release .read 0, .wake 1, .release .write 0]

/-- Thread 0 is still recorded as the owner when thread 1 has the shared lock. -/
def staleOwner : List (Action Nat) :=
  [.obtain .write 0, .release .write 0, .obtain .shared 1, .obtain .read 2, .obtain .write 0,
    .release .read 2, .wake 0]

/-- 256 threads read. -/
def manyReaders : List (Action Nat) :=
  (List.range 256).map (.obtain .read) ++ [.obtain .write 256]

theorem lock_unsafe :
    (Guarded step Allowed (lockInit Nat) forgottenOwner ∧
      ¬∃ s, forgottenOwner.foldlM step (lockInit Nat) = some s ∧ Safe s) ∧
    (Guarded step Allowed (lockInit Nat) staleOwner ∧
      ¬∃ s, staleOwner.foldlM step (lockInit Nat) = some s ∧ Safe s) ∧
    (Guarded step Allowed (lockInit Nat) manyReaders ∧
      ¬∃ s, manyReaders.foldlM step (lockInit Nat) = some s ∧ Safe s) := by
  refine ⟨⟨by decide, ?_⟩, ⟨by decide, ?_⟩, ⟨by decide +kernel, ?_⟩⟩
  · rintro ⟨s, run, -⟩
    have hnone : forgottenOwner.foldlM step (lockInit Nat) = none := rfl
    cases run
  · rintro ⟨s, run, safe⟩
    have hholders : (staleOwner.foldlM step (lockInit Nat)).map (fun s => (s.writers, s.sharers)) =
      some ([0], [1]) := by decide
    rw [run] at hholders
    obtain ⟨hw, hs⟩ := Prod.mk.inj (Option.some.inj hholders)
    have := safe.one 0 1 (.inl (by rw [hw]; exact mem_cons_self))
      (.inr (by rw [hs]; exact mem_cons_self))
    cases this
  · rintro ⟨s, run, safe⟩
    have hholders : (manyReaders.foldlM step (lockInit Nat)).map (fun s => (s.writers, s.readers.head?)) =
      some ([256], some 255) := by decide +kernel
    rw [run] at hholders
    obtain ⟨hw, hr⟩ := Prod.mk.inj (Option.some.inj hholders)
    have := safe.alone 256 (by rw [hw]; exact mem_cons_self) 255
      (.inl (mem_of_mem_head? hr))
    cases this

end Coda.Lwp
