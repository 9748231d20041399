import Coda.Tunnel.Isolation

/-!
Where `send_to_tcp_dest` aborts the daemon.

It asserts that the channel has a TLS session and is active. The handlers run on the loop; worker
threads may mark a channel failed (`async_free_dest`) at any time, also between a handler's look at
the state and its send. A failure before a handler's last look ends like one after the handler: all
that is left out is an error record for the peer.
-/

namespace Coda.Tunnel

open Coda.Lib List Option Function

variable {A F : Type*}

/-- The daemon with `my_tls_session` of its slots: a session is there from the beginning of a
handshake until the slot is cleared. -/
structure Threaded (A F : Type*) where
  daemon : Daemon A F
  session : Nat → Bool

inductive LoopEvent (A F : Type*) where
  | action (action : DaemonAction A F)
  /-- One round of the loop of `ct_redrive_cb`. -/
  | redriveOne (slot : Nat) (io : Nat → Io) (cookie : Nat)
  /-- A packet for a peer that has a slot (`recv_codatunnel_cb`). -/
  | packet (slot : Nat)

/-- An event of the loop, and the slots that workers mark failed while it is handled, before the last
send on them. -/
structure Event (A F : Type*) where
  event : LoopEvent A F
  failing : List Nat

namespace Threaded

variable [DecidableEq A] [DecidableEq F]

/-- What the event does, and the slots that are sent on. -/
def handle (σ : Daemon A F) : LoopEvent A F → Option (Daemon A F × List Nat)
  | .action action => (σ.step action).map (sendsOf σ)
  | .redriveOne slot io cookie => (σ.redriveOne slot io cookie).map (sendsOf σ)
  | .packet slot => some (σ, if (σ.dest slot).active then [slot] else [])
where
  sendsOf (σ σ' : Daemon A F) : Daemon A F × List Nat :=
    (σ', (σ'.sent.drop σ.sent.length).map fun s => s.slot)

/-- `gnutls_init` and `gnutls_deinit`. -/
def sessionAfter (t : Threaded A F) : LoopEvent A F → Nat → Bool
  | .action (.connected slot) => update t.session slot true
  | .action (.accepted a) =>
    match t.daemon.destFor a with
    | some (slot, _) => update t.session slot true
    | none => t.session
  | .action (.freeDestCb slot) => update t.session slot false
  | _ => t.session

/-- `async_free_dest` on some slots. -/
def fail (failing : List Nat) (σ : Daemon A F) : Daemon A F :=
  { σ with
    channels := fun slot =>
      if slot ∈ failing then { σ.channels slot with dest := { σ.dest slot with state := .tlsError } }
      else σ.channels slot }

def step (t : Threaded A F) (e : Event A F) : Option (Threaded A F) :=
  match handle t.daemon e.event with
  | none => none
  | some (σ, slots) =>
    if slots.all fun slot => t.session slot && slot ∉ e.failing then
      some ⟨fail e.failing σ, t.sessionAfter e.event⟩
    else none

def initial (files : F → File) : Threaded A F := ⟨Daemon.initial files, fun _ => false⟩

end Threaded

namespace Daemon

variable [DecidableEq A] [DecidableEq F] {σ σ' : Daemon A F} {slot s : Nat} {action : DaemonAction A F}

/-! ### What becomes active -/

omit [DecidableEq A] in
theorem active_of_update {channels : Nat → Channel A} {c : Channel A}
    (inactive : c.dest.active = false) (h : (update channels slot c s).dest.active = true) :
    (channels s).dest.active = true := by
  by_cases hs : s = slot
  · rw [hs, update_self, inactive] at h
    cases h
  · rwa [update_of_ne hs] at h

omit [DecidableEq A] [DecidableEq F] in
theorem setState_active {state : DestState} (hstate : state ≠ .tcpActive)
    (h : ((σ.setState slot state).dest s).active = true) : (σ.dest s).active = true :=
  active_of_update (decide_eq_false hstate) h

omit [DecidableEq A] in
theorem map_handled_active {e : Entry A F} {out : Option (Handled A F)}
    (run : out.map (σ.handled e slot) = some σ') (h : (σ'.dest s).active = true) :
    (σ.dest s).active = true := by
  obtain ⟨handled, -, rfl⟩ := map_eq_some_iff.mp run
  unfold Daemon.handled at h
  split at h
  · exact setState_active (by decide) h
  · exact h

theorem failDestTransfers_channels (σ : Daemon A F) (slot : Nat) :
    (σ.failDestTransfers slot).channels = σ.channels := by
  have hfold : ∀ (cookies : List Nat) (σ : Daemon A F),
      (cookies.foldl (failOne slot) σ).channels = σ.channels := by
    intro cookies
    induction cookies with
    | nil => exact fun _ => rfl
    | cons cookie cookies ih => exact fun σ => (ih _).trans (failOne_channels slot σ cookie)
  exact hfold _ σ

omit [DecidableEq F] in
theorem destFor_active {a : A} {out : Nat × Daemon A F} (run : σ.destFor a = some out)
    (h : (out.2.dest s).active = true) : (σ.dest s).active = true := by
  unfold destFor at run
  split at run
  · cases run
    exact h
  unfold createdest at run
  extract_lets slot hilimit at run
  split at run
  · cases run
  cases run
  exact active_of_update rfl h

/-- Only the end of a handshake makes a channel active. -/
theorem step_active (run : σ.step action = some σ') (h : (σ'.dest s).active = true) :
    (σ.dest s).active = true ∨ ∃ cap, action = .handshakeDone s cap := by
  have hkept {σ₁ : Daemon A F} (heq : σ'.channels = σ₁.channels) : (σ₁.dest s).active = true := by
    rwa [dest, ← heq]
  cases action with
  | handshakeDone slot cap =>
    cases run
    by_cases hs : s = slot
    · exact .inr ⟨cap, hs ▸ rfl⟩
    · unfold dest at h
      dsimp only at h
      rw [update_of_ne hs] at h
      exact .inl h
  | fileReg reg fd io => exact .inl (hkept (filereg_sends True run).2)
  | fileUnreg cookie =>
    cases run
    unfold fileunregHandler at h
    split at h <;> exact .inl h
  | peeloff slot m =>
    unfold step peeloff at run
    dsimp only at run
    split at run
    · cases run
      exact .inl h
    · cases run
  | fileAsync io =>
    unfold step fileAsyncCb at run
    dsimp only at run
    split at run
    · cases run
    next q rs hqueue =>
    split at run
    next m hop =>
      unfold messageArrived at run
      split at run
      · cases run
        split at h
        · exact .inl (setState_active (by decide) h)
        · exact .inl h
      · exact .inl (map_handled_active (σ := { σ with queue := rs }) run h)
    · cases run
      exact .inl (hkept (failDestTransfers_channels _ _))
  | sendStarts cookie | sendEnds cookie =>
    unfold step sendMoves at run
    dsimp only at run
    split at run
    · cases run
    · obtain ⟨r, -, rfl⟩ := map_eq_some_iff.mp run
      exact .inl h
  | armed cookie io =>
    unfold step armCb at run
    dsimp only at run
    split at run
    · cases run
    split at run
    · cases run
    split at run
    · exact .inl (map_handled_active run h)
    · cases run
  | init0 a =>
    obtain ⟨out, hout, rfl⟩ := map_eq_some_iff.mp run
    dsimp only at h
    split at h
    · exact .inl (destFor_active hout (setState_active (by decide) h))
    · exact .inl (destFor_active hout h)
  | accepted a =>
    obtain ⟨out, hout, rfl⟩ := map_eq_some_iff.mp run
    exact .inl (destFor_active hout (setState_active (by decide) h))
  | connected slot | tlsError slot =>
    cases run
    exact .inl (setState_active (by decide) h)
  | connectFails slot =>
    cases run
    exact .inl (setState_active (by decide) (hkept (failDestTransfers_channels _ _)))
  | handshakeFails slot =>
    cases run
    split at h
    · exact .inl h
    · exact .inl (setState_active (by decide) h)
  | redrive slot io => exact .inl (hkept (redrive_sends True _ run).2)
  | freeDest slot =>
    cases run
    unfold Daemon.freeDest at h
    split at h
    · exact .inl h
    · unfold dest at h
      dsimp only at h
      rw [failDestTransfers_channels] at h
      exact .inl (active_of_update rfl h)
  | freeDestCb slot =>
    unfold step freeDestCb at run
    dsimp only at run
    split at run
    · cases run
      exact .inl (active_of_update rfl h)
    · cases run

/-! ### Steps that do not abort -/

/-- A driver is started on an active channel. -/
theorem drive_some (active : (σ.dest slot).active = true) (io : Io) (e : Entry A F) :
    (σ.drive slot io e).isSome := by
  unfold Daemon.drive
  split
  next =>
    split
    all_goals
      obtain ⟨h, hrun, -⟩ := map_eq_some_iff.mp pumpDoStart_some
      rw [hrun]
      rfl
  next hrole =>
    rw [Tunnel.drive, hrole, if_pos active]
    rfl

theorem register_some (σ : Daemon A F) (e : Entry A F) (io : Io) : (σ.register e io).isSome := by
  unfold register
  dsimp only
  split_ifs
  · rfl
  · split
    · split_ifs with hactive
      · exact drive_some hactive io e
      · rfl
    · rfl
  · rfl

theorem redriveOne_some (active : (σ.dest slot).active = true) (io : Nat → Io) (cookie : Nat) :
    (σ.redriveOne slot io cookie).isSome := by
  unfold redriveOne
  split
  · rfl
  split
  · exact drive_some active _ _
  · rfl

theorem redrive_some (active : (σ.dest slot).active = true) (io : Nat → Io) (cookies : List Nat) :
    (cookies.foldlM (redriveOne slot io) σ).isSome := by
  induction cookies generalizing σ with
  | nil => rfl
  | cons cookie cookies ih =>
    obtain ⟨σ', hrun⟩ := isSome_iff_exists.mp (redriveOne_some active io cookie)
    rw [foldlM_cons, hrun]
    exact ih (by rw [dest, (redriveOne_sends True hrun).2]; exact active)

/-- What an event is about is there. -/
def due (σ : Daemon A F) : DaemonAction A F → Bool
  | .peeloff slot _ => (σ.dest slot).active
  | .fileAsync _ => !σ.queue.isEmpty
  | .sendStarts cookie => (σ.sendMoves Rec.sendStarts cookie).isSome
  | .sendEnds cookie => (σ.sendMoves Rec.sendEnds cookie).isSome
  | .armed cookie _ => ((σ.waiter cookie).bind fun e => e.pump).any fun p => p.hook = .posted
  | .init0 a | .accepted a => (σ.destFor a).isSome
  | .freeDestCb slot => (σ.channels slot).closing
  | _ => true

/-- A queued request is served, and drivers are started, on a channel that is still active. -/
def live (σ : Daemon A F) : DaemonAction A F → Bool
  | .fileAsync _ =>
    match σ.queue with
    | ⟨slot, _, .message m⟩ :: _ => !m.isRequest || (σ.dest slot).active
    | _ => true
  | .redrive slot _ => (σ.dest slot).active
  | _ => true

theorem step_some (σ : Daemon A F) (hdue : σ.due action = true) (hlive : σ.live action = true) :
    (σ.step action).isSome := by
  cases action with
  | fileReg reg fd io =>
    rw [step, fileregHandler]
    split
    · rfl
    · cases fd with
      | none => rfl
      | some file => exact register_some _ _ _
  | fileUnreg cookie | connected slot | connectFails slot | handshakeDone slot cap
  | handshakeFails slot | tlsError slot | freeDest slot => rfl
  | peeloff slot m =>
    rw [due] at hdue
    rw [step, peeloff, if_pos hdue]
    rfl
  | fileAsync io =>
    rw [step, fileAsyncCb]
    cases hqueue : σ.queue with
    | nil =>
      rw [due, hqueue] at hdue
      cases hdue
    | cons q rs =>
      obtain ⟨slot, origin, op⟩ := q
      cases op with
      | failDest => rfl
      | message m =>
        rw [live, hqueue] at hlive
        dsimp only at hlive ⊢
        unfold messageArrived
        split
        · rfl
        · rw [isSome_map]
          apply arrives_some
          intro hm
          rwa [hm, Bool.not_true, Bool.false_or] at hlive
  | sendStarts cookie | sendEnds cookie => exact hdue
  | armed cookie io =>
    obtain ⟨p, hpump, hposted⟩ := (any_eq_true _ _).mp hdue
    obtain ⟨e, hwaiter, hpump⟩ := bind_eq_some_iff.mp hpump
    rw [step, armCb, hwaiter]
    dsimp only
    rw [hpump]
    dsimp only
    rw [if_pos (of_decide_eq_true hposted), pumpArmCb]
    split
    · rfl
    next hgo =>
      split
      · rfl
      · obtain ⟨h, hrun, -⟩ := map_eq_some_iff.mp
          (pumpSendNext_some (by simp at hgo; exact hgo.2) p)
        rw [hrun]
        rfl
  | init0 a | accepted a => rw [step, isSome_map]; exact hdue
  | redrive slot io => exact redrive_some hlive io _
  | freeDestCb slot =>
    rw [due] at hdue
    rw [step, freeDestCb, if_pos hdue]
    rfl

end Daemon

namespace Threaded

variable [DecidableEq A] [DecidableEq F] {t : Threaded A F}

/-- Active channels have a session. -/
def Secured (t : Threaded A F) : Prop :=
  ∀ slot, (t.daemon.dest slot).active = true → t.session slot = true

/-- What the event is about is there. A queued request is served, and drivers are started, on a
channel that is still active, and the session of a handshake that ends is still there. Workers mark
no active channel failed while the loop handles the event. -/
def live (t : Threaded A F) (e : Event A F) : Bool :=
  (match e.event with
    | .action action => t.daemon.due action && t.daemon.live action && handshakeLive t action
    | .redriveOne slot _ _ => (t.daemon.dest slot).active
    | .packet _ => true) &&
  e.failing.all fun slot => !(t.daemon.dest slot).active
where
  handshakeLive (t : Threaded A F) : DaemonAction A F → Bool
    | .handshakeDone slot _ => t.session slot
    | _ => true

omit [DecidableEq A] [DecidableEq F] in
theorem fail_active {failing : List Nat} {σ : Daemon A F} {slot : Nat}
    (h : ((fail failing σ).dest slot).active = true) : (σ.dest slot).active = true := by
  unfold fail Daemon.dest at h
  dsimp only at h
  split at h
  · cases h
  · exact h

omit [DecidableEq A] [DecidableEq F] in
theorem sendsOf_active {own : Prop} {σ σ' : Daemon A F} (sends : Daemon.Sends own σ σ') :
    ∀ slot ∈ (handle.sendsOf σ σ').2, (σ.dest slot).active = true := by
  obtain ⟨new, heq, hnew⟩ := sends
  unfold handle.sendsOf
  rw [heq, drop_left]
  intro slot hslot
  obtain ⟨s, hs, rfl⟩ := mem_map.mp hslot
  exact (hnew s hs).1

/-- The handler does not abort, and what it sends on was active when it began. -/
theorem handle_some {e : Event A F} (hlive : t.live e = true) :
    ∃ σ slots, handle t.daemon e.event = some (σ, slots) ∧
      ∀ slot ∈ slots, (t.daemon.dest slot).active = true := by
  obtain ⟨event, failing⟩ := e
  have hlive := ((Bool.and_eq_true _ _).mp hlive).1
  cases event with
  | action action =>
    dsimp only at hlive
    rw [Bool.and_eq_true, Bool.and_eq_true] at hlive
    obtain ⟨σ, hrun⟩ := isSome_iff_exists.mp (t.daemon.step_some hlive.1.1 hlive.1.2)
    exact ⟨_, _, by rw [handle, hrun]; rfl, sendsOf_active (Daemon.step_sends hrun)⟩
  | redriveOne slot io cookie =>
    obtain ⟨σ, hrun⟩ := isSome_iff_exists.mp (Daemon.redriveOne_some hlive io cookie)
    exact ⟨_, _, by rw [handle, hrun]; rfl, sendsOf_active (Daemon.redriveOne_sends True hrun).1⟩
  | packet slot =>
    refine ⟨_, _, rfl, fun s hs => ?_⟩
    split at hs
    next active => exact mem_singleton.mp hs ▸ active
    · cases hs

/-- Active channels keep their sessions. -/
theorem handle_secured {e : Event A F} (secured : t.Secured) (hlive : t.live e = true) {σ : Daemon A F}
    {slots : List Nat} (run : handle t.daemon e.event = some (σ, slots)) {slot : Nat}
    (h : (σ.dest slot).active = true) : t.sessionAfter e.event slot = true := by
  obtain ⟨event, failing⟩ := e
  have hset {s : Nat} (hsession : t.session slot = true) : update t.session s true slot = true := by
    by_cases hs : slot = s
    · rw [hs, update_self]
    · rwa [update_of_ne hs]
  cases event with
  | redriveOne s io cookie =>
    obtain ⟨σ', hrun, heq⟩ := map_eq_some_iff.mp run
    cases heq
    rw [Daemon.dest, (Daemon.redriveOne_sends True hrun).2] at h
    exact secured slot h
  | packet s =>
    cases run
    exact secured slot h
  | action action =>
    obtain ⟨σ', hrun, heq⟩ := map_eq_some_iff.mp run
    cases heq
    obtain hactive | ⟨cap, rfl⟩ := Daemon.step_active hrun h
    · have hsession := secured slot hactive
      cases action with
      | connected s => exact hset hsession
      | accepted a =>
        unfold sessionAfter
        dsimp only
        cases t.daemon.destFor a with
        | none => exact hsession
        | some out => exact hset hsession
      | freeDestCb s =>
        unfold Daemon.step Daemon.freeDestCb at hrun
        dsimp only at hrun
        split at hrun
        · cases hrun
          by_cases hs : slot = s
          · unfold Daemon.dest at h
            dsimp only at h
            rw [hs, update_self] at h
            cases h
          · exact (update_of_ne hs _ _).trans hsession
        · cases hrun
      | _ => exact hsession
    · exact ((Bool.and_eq_true _ _).mp ((Bool.and_eq_true _ _).mp hlive).1).2

theorem step_some {e : Event A F} (secured : t.Secured) (hlive : t.live e = true) :
    ∃ t', t.step e = some t' ∧ t'.Secured := by
  obtain ⟨σ, slots, hrun, hactive⟩ := handle_some hlive
  have hfailing := all_eq_true.mp ((Bool.and_eq_true _ _).mp hlive).2
  have hall : (slots.all fun slot => t.session slot && slot ∉ e.failing) = true := by
    refine all_eq_true.mpr fun slot hslot => ?_
    have hfails : slot ∉ e.failing := by
      intro hfails
      have hinactive := hfailing slot hfails
      rw [hactive slot hslot] at hinactive
      cases hinactive
    rw [secured slot (hactive slot hslot), Bool.true_and, decide_eq_true_iff]
    exact hfails
  refine ⟨⟨fail e.failing σ, t.sessionAfter e.event⟩, ?_, fun slot h => ?_⟩
  · rw [step, hrun]
    exact if_pos hall
  · exact handle_secured secured hlive hrun (fail_active h)

/-- No run aborts the daemon if each channel is still active where that is not looked at, and no
active channel fails inside a handler. -/
theorem run_not_aborted (files : F → File) (events : List (Event A F))
    (live : Guarded step (fun t e => t.live e = true) (initial files) events) :
    (events.foldlM step (initial files)).isSome := by
  have start : (initial files : Threaded A F).Secured := by
    intro slot h
    cases h
  obtain ⟨t', hrun, -⟩ := run_of_guarded (fun t e secured h => step_some secured h) start live
  rw [hrun]
  rfl

/-- The file has one byte. -/
def oneByte : Unit → File := fun _ => ⟨1, fun _ => 65⟩

def quietly (action : DaemonAction Bool Unit) : Event Bool Unit := ⟨.action action, []⟩

/-- A passive source of one byte for the peer `true`. -/
def sourceReg : FileReg Bool := { Daemon.sinkReg with role := 0, length := 1 }

/-- The peer asks for the byte, and gets it while the channel of another peer fails. -/
def servedRun : List (Event Bool Unit) :=
  [quietly (.accepted true), quietly (.handshakeDone 0 1024), quietly (.accepted false),
    quietly (.fileReg sourceReg (some ()) (.upTo 0)), ⟨.packet 0, []⟩,
    quietly (.peeloff 0 (.request 7 0 1)), ⟨.action (.fileAsync (.upTo 1)), [1]⟩]

theorem run_not_aborted_served :
    (servedRun.foldlM step (initial oneByte)).isSome ∧
      (servedRun.foldlM step (initial oneByte)).map (fun t => t.daemon.sent.map fun s => s.message) =
        some [.data 7 0 [65], .eof 7] :=
  ⟨run_not_aborted _ _ (by decide +kernel), by decide +kernel⟩

/-- A queued request is served although its channel has failed, and a driver is started although its
channel fails after the test of its state. -/
theorem failed_channel_aborts :
    (∃ t : Threaded Bool Unit,
      [quietly (.accepted true), quietly (.handshakeDone 0 1024),
        quietly (.fileReg sourceReg (some ()) (.upTo 0)), quietly (.peeloff 0 (.request 7 0 1)),
        quietly (.tlsError 0)].foldlM step (initial oneByte) = some t ∧
        t.daemon.due (.fileAsync (.upTo 1)) = true ∧ t.step (quietly (.fileAsync (.upTo 1))) = none) ∧
    ∃ t : Threaded Bool Unit,
      [quietly (.accepted true), quietly (.handshakeDone 0 1024)].foldlM step (initial oneByte) =
        some t ∧ (t.daemon.dest 0).active = true ∧
        t.step ⟨.action (.fileReg { sourceReg with driver := true } (some ()) (.upTo 1)), [0]⟩ =
          none :=
  ⟨⟨_, rfl, by decide +kernel, by decide +kernel⟩, _, rfl, by decide +kernel, by decide +kernel⟩

end Threaded

end Coda.Tunnel
