import Coda.Rpc2.Exchange

/-!
Calls on several connections (`rpc2-src/multi1.c`).

`SetupConns` waits until all the connections of a `RPC2_MultiRPC` are idle. After a wait it looks at
them again, but not at the first one: `host = 0` is followed by the `host++` of its loop. Other
threads run while it waits, and where one of them has made a call on the first connection, the
`RPC2_MultiRPC` makes its own with the same sequence number.
-/

namespace Coda.Rpc2

open Coda.Lib Function

/-- A thread in `SetupConns` that waits on a connection. -/
structure Waiting (C : Type*) where
  hosts : List C
  failed : List C
  host : C
  signalled : Bool

/-- The connections of a client, and its threads in `SetupConns`. -/
structure World (C : Type*) where
  connection : C → Connection
  waiting : Nat → Option (Waiting C)

def initial {C : Type*} (start : C → BitVec 32) : World C where
  connection c := bound (start c)
  waiting _ := none

inductive Action (C : Type*) where
  | makeRpc (c : C)
  | multiRpc (thread : Nat) (hosts : List C)
  | dequeued (thread : Nat)
  | event (c : C) (event : Event)

section Code

variable {C : Type*}

/-- The first loop of `SetupConns`: the connections whose `retcode` is set, and the busy connection
it comes to. -/
def setupConns (state : C → ClientState) : List C → List C → List C × Option C
  | failed, [] => (failed, none)
  | failed, c :: hosts =>
    match state c with
    | .hardError => setupConns state (c :: failed) hosts
    | .think => setupConns state failed hosts
    | .awaitReply => (failed, some c)

def World.state (w : World C) (c : C) : ClientState :=
  (w.connection c).client.state

variable [DecidableEq C]

/-- `LWP_NoYieldSignal` on a connection. -/
def World.signal (c : C) (w : World C) : World C :=
  { w with
    waiting := fun t =>
      (w.waiting t).map fun m => if m.host = c then { m with signalled := true } else m }

/-- `RPC2_MultiRPC`, after the loop of `SetupConns` has stopped. -/
def World.multiRpc (thread : Nat) (hosts : List C) (w : World C) : List C × Option C → World C
  | (failed, some host) =>
    { w with waiting := Function.update w.waiting thread (some ⟨hosts, failed, host, false⟩) }
  | (failed, none) =>
    { connection := fun c =>
        if c ∈ hosts ∧ c ∉ failed then (w.connection c).startCall true else w.connection c
      waiting := Function.update w.waiting thread none }

/-- One step of a thread of the client or of a server, or of the network. The connections of a
`RPC2_MultiRPC` are different ones. -/
def step (w : World C) : Action C → Option (World C)
  | .makeRpc c =>
    some { w with connection := Function.update w.connection c (w.connection c).makeRpc }
  | .multiRpc thread hosts =>
    if (w.waiting thread).isNone then
      some (w.multiRpc thread hosts (setupConns w.state [] hosts))
    else none
  | .dequeued thread =>
    match w.waiting thread with
    | none => none
    | some m =>
      if m.signalled then
        -- `host = 0`, and then `host++`
        some (w.multiRpc thread m.hosts (setupConns w.state m.failed m.hosts.tail))
      else none
  | .event c event =>
    match (w.connection c).step event with
    | none => none
    | some (k, signals) =>
      let w := { w with connection := Function.update w.connection c k }
      some (if signals then w.signal c else w)

/-- No connection has had as many calls as there are numbers for. -/
def FewCalls (w : World C) : Prop :=
  ∀ c, (w.connection c).calls < 2 ^ 30

/-- A `RPC2_MultiRPC` is given no connection twice, and one that goes on after a wait, and waits no
more, finds its first connection idle or has given it up. -/
def FirstIdle (w : World C) : Action C → Prop
  | .multiRpc _ hosts => hosts.Nodup
  | .dequeued thread =>
    ∀ m ∈ w.waiting thread, (setupConns w.state m.failed m.hosts.tail).2 = none →
      ∀ c ∈ m.hosts.head?, c ∈ m.failed ∨ w.state c = .think
  | _ => True

end Code

section Invariant

variable {C : Type*}

/-- Where the loop does not stop, every connection it looked at is idle or has failed. -/
theorem setupConns_idle {state : C → ClientState} {failed hosts : List C}
    (all : (setupConns state failed hosts).2 = none) :
    (∀ c ∈ failed, c ∈ (setupConns state failed hosts).1) ∧
      ∀ c ∈ hosts, c ∈ (setupConns state failed hosts).1 ∨ state c = .think := by
  induction hosts generalizing failed with
  | nil => exact ⟨fun _ h => h, fun _ h => by cases h⟩
  | cons c hosts ih =>
    rw [setupConns] at all ⊢
    cases hstate : state c with
    | hardError =>
      rw [hstate] at all
      obtain ⟨hkept, hseen⟩ := ih all
      obtain ⟨hc, hkept⟩ := List.forall_mem_cons.mp hkept
      exact ⟨hkept, List.forall_mem_cons.mpr ⟨.inl hc, hseen⟩⟩
    | think =>
      rw [hstate] at all
      obtain ⟨hkept, hseen⟩ := ih all
      exact ⟨hkept, List.forall_mem_cons.mpr ⟨.inr hstate, hseen⟩⟩
    | awaitReply =>
      rw [hstate] at all
      cases all

theorem head_or_tail {c : C} {hosts : List C} (h : c ∈ hosts) : c ∈ hosts.head? ∨ c ∈ hosts.tail := by
  cases hosts with
  | nil => cases h
  | cons d hosts =>
    rcases List.mem_cons.mp h with rfl | h
    · exact .inl rfl
    · exact .inr h

/-- Every connection has told its calls apart so far. -/
def AllNumbered (start : C → BitVec 32) (w : World C) : Prop :=
  ∀ c, ∃ index nc ns late, Numbered (start c) index nc ns late (w.connection c)

variable {start : C → BitVec 32} {w w' : World C}

theorem allNumbered_initial (start : C → BitVec 32) : AllNumbered start (initial start) :=
  fun c => ⟨id, 0, 0, [], numbered_bound (start c)⟩

theorem AllNumbered.exact (inv : AllNumbered start w) (c : C) : Exact (w.connection c) := by
  obtain ⟨_, _, _, _, h⟩ := inv c
  exact h.exact

variable [DecidableEq C]

section

variable (inv : AllNumbered start w)
include inv

theorem AllNumbered.update {c : C} {k : Connection}
    (h : ∃ index nc ns late, Numbered (start c) index nc ns late k) :
    AllNumbered start { w with connection := update w.connection c k } := by
  intro d
  by_cases hd : d = c
  · subst hd
    simpa only [update_self] using h
  · simpa only [update_of_ne hd] using inv d

theorem AllNumbered.signal (c : C) : AllNumbered start (w.signal c) :=
  inv

theorem AllNumbered.multiRpc {thread : Nat} {hosts : List C} {seen : List C × Option C}
    (idle : seen.2 = none → ∀ c ∈ hosts, c ∈ seen.1 ∨ w.state c = .think) :
    AllNumbered start (w.multiRpc thread hosts seen) := by
  obtain ⟨failed, busy⟩ := seen
  cases busy with
  | some host => exact inv
  | none =>
    intro c
    obtain ⟨index, nc, ns, late, h⟩ := inv c
    rw [World.multiRpc]
    dsimp only
    split
    · next hc =>
      have hthink := (idle rfl c hc.1).resolve_left hc.2
      exact ⟨_, nc, ns, late, h.startCall true hthink⟩
    · exact ⟨index, nc, ns, late, h⟩

theorem step_allNumbered (few : FewCalls w) {action : Action C} (first : FirstIdle w action)
    (run : step w action = some w') : AllNumbered start w' := by
  cases action with
  | makeRpc c =>
    cases run
    obtain ⟨index, nc, ns, late, h⟩ := inv c
    apply inv.update
    unfold Connection.makeRpc
    split
    · next idle => exact ⟨_, nc, ns, late, h.startCall false idle⟩
    · exact ⟨index, nc, ns, late, h⟩
  | multiRpc thread hosts =>
    obtain ⟨-, ⟨⟩⟩ := Option.ite_none_right_eq_some.mp run
    exact inv.multiRpc fun all => (setupConns_idle all).2
  | dequeued thread =>
    rw [step] at run
    split at run
    · cases run
    next m hm =>
    obtain ⟨-, ⟨⟩⟩ := Option.ite_none_right_eq_some.mp run
    apply inv.multiRpc
    intro all c hc
    obtain ⟨hkept, hseen⟩ := setupConns_idle all
    -- the loop has looked at the tail only
    rcases head_or_tail hc with hhead | htail
    · rcases first m hm all c hhead with hfailed | hidle
      · exact .inl (hkept c hfailed)
      · exact .inr hidle
    · exact hseen c htail
  | event c event =>
    rw [step] at run
    split at run
    · cases run
    next k signals hstep =>
    cases run
    obtain ⟨index, nc, ns, late, h⟩ := inv c
    have hnext := inv.update ⟨index, h.step (few c) hstep⟩
    cases signals with
    | false => exact hnext
    | true => exact hnext.signal c

end

/-- Every connection keeps its promise in every run in which no `RPC2_MultiRPC` takes a first
connection that is busy again, whatever becomes of the packets and whatever times out. -/
theorem calls_exact (start : C → BitVec 32) (actions : List (Action C))
    (guarded : Guarded step (fun w action => FewCalls w ∧ FirstIdle w action) (initial start) actions) :
    Always step (fun w => ∀ c, Exact (w.connection c)) (initial start) actions :=
  always_of_guarded
    (fun _ _ _ inv guard run => step_allNumbered inv guard.1 guard.2 run)
    (fun _ inv => inv.exact) (allNumbered_initial start) guarded

end Invariant

/-! ### Runs -/

section Runs

instance {C : Type*} [Fintype C] (w : World C) : Decidable (FewCalls w) :=
  inferInstanceAs (Decidable (∀ c, (w.connection c).calls < 2 ^ 30))

instance {C : Type*} [DecidableEq C] (w : World C) (action : Action C) : Decidable (FirstIdle w action) :=
  match action with
  | .dequeued thread =>
    inferInstanceAs (Decidable (∀ m ∈ w.waiting thread,
      (setupConns w.state m.failed m.hosts.tail).2 = none →
        ∀ c ∈ m.hosts.head?, c ∈ m.failed ∨ w.state c = .think))
  | .multiRpc _ hosts => inferInstanceAs (Decidable hosts.Nodup)
  | .makeRpc _ | .event _ _ => inferInstanceAs (Decidable True)

/-- While a call is under way on the first of two connections, a second thread starts a
`RPC2_MultiRPC` on both and has to wait. -/
def busyFirst : List (Action Bool) :=
  [.makeRpc false, .event false (.request ⟨0, 0⟩ true), .event false (.sendResponse true),
    .multiRpc 1 [false, true], .event false (.reply ⟨1, 0⟩), .event false (.woken 0 false .quiet)]

/-- The `RPC2_MultiRPC` goes on when the call is over. -/
def idleFirst : List (Action Bool) :=
  busyFirst ++ [.dequeued 1]

theorem calls_exact_after_wait :
    (idleFirst.foldlM step (initial fun _ => 0)).isSome = true ∧
      Guarded step (fun w action => FewCalls w ∧ FirstIdle w action) (initial fun _ => 0) idleFirst ∧
      Always step (fun w => ∀ c, Exact (w.connection c)) (initial fun _ => 0) idleFirst := by
  have guarded : Guarded step (fun w action => FewCalls w ∧ FirstIdle w action)
      (initial fun _ => 0) idleFirst := by
    decide +kernel
  exact ⟨by decide +kernel, guarded, calls_exact _ _ guarded⟩

/-- The first thread makes its next call before the `RPC2_MultiRPC` goes on. The server is given the
second call (number 1) and answers it. -/
def takenFirst : List (Action Bool) :=
  busyFirst ++ [.makeRpc false, .dequeued 1, .event false (.request ⟨2, 1⟩ true),
    .event false (.sendResponse true), .event false (.reply ⟨3, 1⟩)]

theorem takenFirst_runs : (takenFirst.foldlM step (initial fun _ => 0)).isSome = true := by
  decide +kernel

/-- The `RPC2_MultiRPC`, the third call, accepts the reply to the second. -/
theorem reply_to_another_call :
    ¬ Exact (((takenFirst.foldlM step (initial fun _ => 0)).get takenFirst_runs).connection false) := by
  intro exact
  have haccepted : (2, 1) ∈
      (((takenFirst.foldlM step (initial fun _ => 0)).get takenFirst_runs).connection false).accepted := by
    decide +kernel
  exact absurd (exact.genuine _ haccepted).1 (by decide)

end Runs

end Coda.Rpc2
