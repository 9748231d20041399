import Coda.Tunnel.Lifecycle

/-!
What the records of one peer can do to the registrations and channels of another.

The handlers look a record's cookie up and never compare the registration's peer with the channel,
so a record whose cookie is registered for another peer is served. A slot that was given to another
peer while a queued record or a pump still referred to it has the same effect: the record may cost
the new peer its channel. A request on a channel that has failed aborts the daemon.
-/

namespace Coda.Tunnel

open Coda.Lib List Option Function

variable {A F : Type*}

def Message.isData : Message → Bool
  | .data _ _ _ => true
  | _ => false

def Message.isRequest : Message → Bool
  | .request _ _ _ => true
  | _ => false

/-- The handler of the message does something for the record. -/
def Message.concerns (m : Message) (r : Rec A F) : Bool :=
  match m with
  | .ready _ => false
  | .data _ _ _ | .eof _ | .error _ _ => r.role = .sink
  | .request _ _ _ => r.role = .source && !r.isDriver

/-! ### What the handlers do -/

section Handlers

variable {d : Dest} {io : Io} {r : Rec A F} {f : File} {h : Handled A F} {m : Message}

theorem arrives_ignored (d : Dest) (io : Io) (f : File) (hm : m.concerns r = false) :
    ∃ drop, arrives d m io r f = some (r.ignores f drop) := by
  cases m with
  | ready cookie => exact ⟨false, rfl⟩
  | data cookie offset payload | eof cookie
  | error cookie status => exact ⟨true, congrArg some (if_pos (of_decide_eq_false hm))⟩
  | request cookie offset len =>
    refine ⟨false, if_pos ?_⟩
    by_cases hrole : r.role = .source
    · right
      simpa [Message.concerns, hrole] using hm
    · exact .inl hrole

theorem served_some (active : d.active = true) (toApp : List Report) (toPeer : List Message) :
    (r.served d f toApp toPeer).isSome := by
  rw [Rec.served, if_pos active]
  rfl

/-- No assertion fails on a channel that is active, and only a request can make one fail. -/
theorem arrives_some (hm : m.isRequest = true → d.active = true) :
    (arrives d m io r f).isSome := by
  cases m with
  | ready cookie => rfl
  | data cookie offset payload => rfl
  | eof cookie => rfl
  | error cookie status => rfl
  | request cookie offset len =>
    have active := hm rfl
    rw [arrives, transferRequestArrived]
    split
    · rfl
    split
    · rfl
    split
    · exact served_some active _ _
    split
    · rfl
    · rfl
    rw [if_neg (by rw [active]; exact Bool.false_ne_true)]
    split
    · exact served_some active _ _
    · rfl

theorem arrives_file (hm : m.isData = false) (run : arrives d m io r f = some h) : h.file = f := by
  cases m with
  | ready cookie => exact some.inj run ▸ rfl
  | data cookie offset payload => cases hm
  | eof cookie | error cookie status =>
    cases run
    unfold transferFinishArrived
    split <;> rfl
  | request cookie offset len =>
    have hserved : ∀ {r' : Rec A F} {toApp toPeer}, r'.served d f toApp toPeer = some h →
        h.file = f := by
      intro r' toApp toPeer hrun
      unfold Rec.served at hrun
      split at hrun
      · exact some.inj hrun ▸ rfl
      · cases hrun
    rw [arrives, transferRequestArrived] at run
    split at run
    · exact some.inj run ▸ rfl
    split at run
    · exact some.inj run ▸ rfl
    split at run
    · exact hserved run
    split at run
    · exact some.inj run ▸ rfl
    · exact some.inj run ▸ rfl
    dsimp only at run
    split at run
    · cases run
    split at run
    · exact hserved run
    · exact some.inj run ▸ rfl

theorem errorTo_toPeer {cookie : Nat} {status : BitVec 32} {m' : Message}
    (hm' : m' ∈ errorTo d cookie status) : d.active = true ∧ m'.isData = false := by
  unfold errorTo at hm'
  split at hm'
  next active =>
    rw [mem_singleton.mp hm']
    exact ⟨active, rfl⟩
  · cases hm'

theorem served_active {toApp : List Report} {toPeer : List Message}
    (run : r.served d f toApp toPeer = some h) : d.active = true := by
  unfold Rec.served at run
  split at run
  · assumption
  · cases run

/-- Records are answered on active channels, and only a request is answered with data. -/
theorem arrives_toPeer (run : arrives d m io r f = some h) :
    ∀ m' ∈ h.toPeer, d.active = true ∧ (m.isRequest = false → m'.isData = false) := by
  intro m' hm'
  have herror : ∀ {cookie status}, m' ∈ errorTo d cookie status →
      d.active = true ∧ (m.isRequest = false → m'.isData = false) := fun hm' =>
    ⟨(errorTo_toPeer hm').1, fun _ => (errorTo_toPeer hm').2⟩
  cases m with
  | ready cookie =>
    cases run
    cases hm'
  | data cookie offset payload =>
    cases run
    unfold transferDataArrived at hm'
    split at hm'
    · cases hm'
    split at hm'
    · exact herror hm'
    split at hm'
    · exact herror hm'
    split at hm'
    · exact herror hm'
    split at hm'
    next hdriver =>
      rw [mem_singleton.mp hm']
      exact ⟨((Bool.and_eq_true _ _).mp hdriver).2, fun _ => rfl⟩
    · cases hm'
  | eof cookie | error cookie status =>
    cases run
    unfold transferFinishArrived at hm'
    split at hm' <;> cases hm'
  | request cookie offset len =>
    rw [arrives, transferRequestArrived] at run
    split at run
    · cases run
      cases hm'
    split at run
    · cases run
      exact herror hm'
    split at run
    · exact ⟨served_active run, nofun⟩
    split at run
    · cases run
      exact herror hm'
    · cases run
      exact herror hm'
    dsimp only at run
    split at run
    · cases run
    next hactive => exact ⟨by simpa using hactive, nofun⟩

theorem pumpSendNext_some (active : d.active = true) (p : Pump) :
    (pumpSendNext d io r f p).map (·.drop) = some false := by
  unfold pumpSendNext
  rw [active]
  split
  all_goals
    split
    all_goals rfl

theorem pumpDoStart_some : (pumpDoStart d io r f).map (·.drop) = some false := by
  unfold pumpDoStart
  split
  · rfl
  split
  · rfl
  next hactive =>
    rw [Option.map_map]
    exact pumpSendNext_some (by simpa using hactive) _

theorem pumpDoStart_toPeer (run : pumpDoStart d io r f = some h) :
    ∀ m' ∈ h.toPeer, d.active = true := by
  intro m' hm'
  unfold pumpDoStart at run
  split at run
  · cases run
    cases hm'
  split at run
  · cases run
    cases hm'
  next hactive => simpa using hactive

theorem pumpArmCb_toPeer {p : Pump} (run : pumpArmCb d io r f p = some h) :
    ∀ m' ∈ h.toPeer, d.active = true := by
  intro m' hm'
  unfold pumpArmCb at run
  split at run
  · cases run
    exact (errorTo_toPeer hm').1
  next hgo => simpa using (by simpa using hgo : _ ∧ _).2

end Handlers

namespace Daemon

open Ledger

variable [DecidableEq A] [DecidableEq F]

/-! ### The property -/

/-- Nothing of a registration has changed: its record, its file, and what the app was told of it. -/
def Untouched (σ σ' : Daemon A F) (e : Entry A F) : Prop :=
  e ∈ σ'.table ∧ σ'.files e.file = σ.files e.file ∧
    (σ'.toApp.filter fun x => x.1 = e.serial) = σ.toApp.filter fun x => x.1 = e.serial

/-- A record that arrives for the loop does not abort the daemon, and leaves the registrations and
the channels of all peers but the one it came from as they are. -/
def Isolated (σ : Daemon A F) : DaemonAction A F → Prop
  | .fileAsync io => ∀ r ∈ σ.queue.head?, ∀ m, r.op = .message m →
    ∃ σ', σ.step (.fileAsync io) = some σ' ∧
      (∀ e ∈ σ.table, r.origin ≠ some e.peer → σ.Untouched σ' e) ∧
      ∀ slot, (σ.channels slot).addr ≠ r.origin → σ'.channels slot = σ.channels slot
  | _ => True

/-- The bytes of a source went out on the channel of its peer only. -/
def Confined (σ : Daemon A F) : Prop :=
  ∀ s ∈ σ.sent, s.message.isData = true → s.channel = some s.peer

/-- The slot of a record or a pump is still its peer's. A record comes from the peer its cookie is
registered for, if its handler does anything for that registration; a file that is written is not
registered for another peer, and a request finds its channel active. -/
def own (σ : Daemon A F) : DaemonAction A F → Bool
  | .fileAsync _ =>
    match σ.queue with
    | ⟨slot, origin, .message m⟩ :: _ =>
      (σ.channels slot).addr = origin &&
        (σ.waiter m.cookie).all fun e =>
          !m.concerns e.toRec ||
            (origin = some e.peer &&
              (!m.isData || σ.table.all fun e' => e'.peer = e.peer || e'.file ≠ e.file) &&
              (!m.isRequest || (σ.dest slot).active))
    | _ => true
  | .armed cookie _ => (σ.waiter cookie).all fun e => (σ.channels e.slot).addr = some e.peer
  | _ => true

/-! ### Registrations of others -/

section Others

variable {σ : Daemon A F} {e₀ e : Entry A F} {slot : Nat} {h : Handled A F}

omit [DecidableEq A] in
theorem handled_files : (σ.handled e₀ slot h).files = update σ.files e₀.file h.file := by
  unfold handled
  split <;> rfl

omit [DecidableEq A] in
theorem handled_sent : (σ.handled e₀ slot h).sent =
    σ.sent ++ h.toPeer.map fun m => ⟨slot, (σ.channels slot).addr, e₀.peer, m⟩ := by
  unfold handled
  split <;> rfl

omit [DecidableEq A] in
theorem handled_channels {s : Nat} (hs : h.drop = true → s ≠ slot) :
    (σ.handled e₀ slot h).channels s = σ.channels s := by
  unfold handled
  split
  next hdrop => exact update_of_ne (hs hdrop) _ _
  · rfl

theorem filter_tag {serial s : Nat} (hne : s ≠ serial) (toApp : List (Nat × Report))
    (reports : List Report) :
    ((toApp ++ reports.map fun report => (s, report)).filter fun x => x.1 = serial) =
      toApp.filter fun x => x.1 = serial := by
  have hnone : ((reports.map fun report => (s, report)).filter fun x => x.1 = serial) = [] := by
    apply filter_eq_nil_iff.mpr
    intro x hx
    obtain ⟨report, -, rfl⟩ := mem_map.mp hx
    simpa using hne
  rw [filter_append, hnone, append_nil]

omit [DecidableEq A] in
/-- What is done for one registration leaves the others alone, but for a file they share. -/
theorem handled_other (tidy : σ.Tidy) (mem₀ : e₀ ∈ σ.table) (mem : e ∈ σ.table)
    (hne : e.cookie ≠ e₀.cookie) (fair : Fair e₀.toRec h)
    (hfile : e.file ≠ e₀.file ∨ h.file = σ.files e₀.file) :
    σ.Untouched (σ.handled e₀ slot h) e := by
  refine ⟨?_, ?_, ?_⟩
  · rw [handled_toLedger]
    exact mem_settle_of_ne fair.same mem hne
  · rw [handled_files]
    by_cases heq : e.file = e₀.file
    · rw [heq, update_self]
      exact hfile.resolve_left (not_not.mpr heq)
    · exact update_of_ne heq _ _
  · have hserial := tidy.serial_ne mem₀ mem hne.symm
    have htold : (σ.handled e₀ slot h).toApp =
        σ.toApp ++ h.toApp.map fun report => (e₀.serial, report) := by
      rw [handled_toLedger, Ledger.tell, settle_toApp]
    rw [htold]
    exact filter_tag hserial _ _

omit [DecidableEq A] in
/-- A record that is not concerned leaves every registration alone. -/
theorem ignored_other (tidy : σ.Tidy) (mem₀ : e₀ ∈ σ.table) (mem : e ∈ σ.table) (drop : Bool) :
    σ.Untouched (σ.handled e₀ slot (e₀.toRec.ignores (σ.files e₀.file) drop)) e := by
  by_cases heq : e.cookie = e₀.cookie
  · obtain rfl := tidy.unique mem mem₀ heq
    refine ⟨?_, ?_, ?_⟩
    · rw [handled_toLedger]
      exact mem_settle_self (.refl _) mem rfl
    · rw [handled_files, update_self]
      rfl
    · rw [handled_toLedger, Ledger.tell]
      exact congrArg _ (append_nil _)
  · exact handled_other tidy mem₀ mem heq (fair_ignores (tidy.pumped e₀ mem₀) _ drop) (.inr rfl)

end Others

variable {action : DaemonAction A F}

theorem isolated_of_own {σ : Daemon A F} (tidy : σ.Tidy) (own : σ.own action = true) :
    σ.Isolated action := by
  cases action with
  | fileAsync io =>
    rintro ⟨slot, origin, op⟩ hr m hop
    obtain rfl : op = .message m := hop
    obtain ⟨rs, hqueue⟩ : ∃ rs, σ.queue = ⟨slot, origin, .message m⟩ :: rs := List.head?_eq_some_iff.mp hr
    have hstep : σ.step (.fileAsync io) = { σ with queue := rs }.messageArrived slot m io := by
      unfold step fileAsyncCb
      rw [hqueue]
    rw [hstep]
    unfold Daemon.own at own
    rw [hqueue, Bool.and_eq_true] at own
    obtain ⟨hslot, own⟩ := own
    have hother : ∀ s, (σ.channels s).addr ≠ origin → s ≠ slot := by
      rintro s hne rfl
      exact hne (of_decide_eq_true hslot)
    unfold messageArrived
    cases hwaiter : σ.waiter m.cookie with
    | none =>
      refine ⟨_, rfl, fun e mem _ => ?_, fun s hne => ?_⟩
      · split
        · exact ⟨mem, rfl, rfl⟩
        · exact ⟨mem, rfl, rfl⟩
      · split
        · exact update_of_ne (hother s hne) _ _
        · rfl
    | some e₀ =>
      have mem₀ := (waiter_mem hwaiter).1
      dsimp only
      cases hconcerns : m.concerns e₀.toRec with
      | false =>
        obtain ⟨drop, hrun⟩ := arrives_ignored ({ σ with queue := rs }.dest slot) io
          (σ.files e₀.file) hconcerns
        rw [hrun]
        exact ⟨_, rfl, fun e mem _ => ignored_other (σ := { σ with queue := rs }) tidy mem₀ mem drop,
          fun s hne => handled_channels fun _ => hother s hne⟩
      | true =>
        rw [hwaiter, all_some, hconcerns, Bool.not_true, Bool.false_or, Bool.and_eq_true,
          Bool.and_eq_true] at own
        obtain ⟨⟨horigin, hfile⟩, hrequest⟩ := own
        have hpeer := of_decide_eq_true horigin
        have hsome : (arrives ({ σ with queue := rs }.dest slot) m io e₀.toRec
            (σ.files e₀.file)).isSome := by
          apply arrives_some
          intro hm
          rwa [hm, Bool.not_true, Bool.false_or] at hrequest
        obtain ⟨h, hrun⟩ := isSome_iff_exists.mp hsome
        rw [hrun]
        refine ⟨_, rfl, fun e mem hpeers => ?_, fun s hne => handled_channels fun _ => hother s hne⟩
        have hne : e.peer ≠ e₀.peer := fun heq => hpeers (hpeer.trans (congrArg some heq.symm))
        apply handled_other (σ := { σ with queue := rs }) tidy mem₀ mem
        · intro heq
          exact hne (congrArg (fun e : Entry A F => e.peer) (tidy.unique mem mem₀ heq))
        · exact arrives_fair (tidy.pumped e₀ mem₀) hrun
        · cases hdata : m.isData with
          | false => exact .inr (arrives_file hdata hrun)
          | true =>
            rw [hdata, Bool.not_true] at hfile
            have hall := all_eq_true.mp hfile e mem
            rw [Bool.or_eq_true] at hall
            exact .inl (of_decide_eq_true (hall.resolve_left fun h => hne (of_decide_eq_true h)))
  | _ => trivial

/-! ### What is sent -/

/-- What is sent on the way from `σ` to `σ'` goes out on active channels, and the bytes of a file on
the channel of its peer if `own` holds. -/
def Sends (own : Prop) (σ σ' : Daemon A F) : Prop :=
  ∃ new, σ'.sent = σ.sent ++ new ∧ ∀ s ∈ new, (σ.dest s.slot).active = true ∧
    (own → s.message.isData = true → s.channel = some s.peer)

section Sent

variable {σ σ' σ'' : Daemon A F} {e : Entry A F} {slot : Nat} {own : Prop}

omit [DecidableEq A] [DecidableEq F] in
theorem Sends.nothing (h : σ'.sent = σ.sent) : Sends own σ σ' :=
  ⟨[], by rw [h, append_nil], nofun⟩

omit [DecidableEq A] [DecidableEq F] in
theorem Sends.trans (h : Sends own σ σ') (same : σ'.channels = σ.channels) (h' : Sends own σ' σ'') :
    Sends own σ σ'' := by
  obtain ⟨new, heq, hnew⟩ := h
  obtain ⟨new', heq', hnew'⟩ := h'
  refine ⟨new ++ new', by rw [heq', heq, append_assoc], forall_mem_append.mpr ⟨hnew, ?_⟩⟩
  simpa only [dest, same] using hnew'

omit [DecidableEq A] in
theorem Sends.map_handled {out : Option (Handled A F)}
    (hactive : ∀ h, out = some h → ∀ m ∈ h.toPeer, (σ.dest slot).active = true)
    (hdata : ∀ h, out = some h → ∀ m ∈ h.toPeer, own → m.isData = true →
      (σ.channels slot).addr = some e.peer)
    (run : out.map (σ.handled e slot) = some σ') : Sends own σ σ' := by
  obtain ⟨h, hout, rfl⟩ := map_eq_some_iff.mp run
  refine ⟨_, handled_sent, fun s hs => ?_⟩
  obtain ⟨m, mem, rfl⟩ := mem_map.mp hs
  exact ⟨hactive h hout m mem, hdata h hout m mem⟩

omit [DecidableEq F] in
theorem getdest_addr {a : A} {s : Nat} (h : σ.getdest a = some s) :
    (σ.channels s).addr = some a := by
  have := List.find?_some h
  exact (of_decide_eq_true this).2

variable {io : Io}

/-- A driver is started without a change of the channels. -/
theorem drive_sends (own : Prop) (run : σ.drive slot io e = some σ') :
    Sends own σ σ' ∧ σ'.channels = σ.channels := by
  have hkept {e' s} {out : Option (Handled A F)} (hdrop : out.map (·.drop) = some false)
      (run : out.map (σ.handled e' s) = some σ') : σ'.channels = σ.channels := by
    obtain ⟨h, rfl, rfl⟩ := map_eq_some_iff.mp run
    funext s'
    exact handled_channels fun h' => by simp [h'] at hdrop
  unfold Daemon.drive at run
  split at run
  · split at run
    · next s hdest =>
      exact ⟨.map_handled (e := { e with slot := s }) (fun _ => pumpDoStart_toPeer)
        (fun _ _ _ _ _ _ => getdest_addr hdest) run, hkept pumpDoStart_some run⟩
    · have hnone : ∀ h, pumpDoStart ⟨.free, 0⟩ io e.toRec (σ.files e.file) = some h →
          ∀ m ∈ h.toPeer, False := fun h hout m hm =>
        absurd (pumpDoStart_toPeer hout m hm) (by decide)
      exact ⟨.map_handled (fun h hout m hm => (hnone h hout m hm).elim)
        (fun h hout m hm => (hnone h hout m hm).elim) run, hkept pumpDoStart_some run⟩
  · next hrole =>
    unfold Tunnel.drive at run
    rw [hrole] at run
    dsimp only at run
    split at run
    next active =>
      refine ⟨.map_handled (fun _ _ _ _ => active) (fun h hout m hm _ hdata => ?_) run, hkept rfl run⟩
      cases hout
      rw [mem_singleton.mp hm] at hdata
      cases hdata
    · cases run

theorem redriveOne_sends (own : Prop) {io : Nat → Io} {cookie : Nat}
    (run : σ.redriveOne slot io cookie = some σ') :
    Sends own σ σ' ∧ σ'.channels = σ.channels := by
  unfold redriveOne at run
  split at run
  · exact some.inj run ▸ ⟨.nothing rfl, rfl⟩
  split at run
  · exact drive_sends own run
  · exact some.inj run ▸ ⟨.nothing rfl, rfl⟩

theorem redrive_sends (own : Prop) {io : Nat → Io} (cookies : List Nat) :
    ∀ {σ : Daemon A F}, cookies.foldlM (redriveOne slot io) σ = some σ' →
      Sends own σ σ' ∧ σ'.channels = σ.channels := by
  induction cookies with
  | nil => exact fun run => some.inj run ▸ ⟨.nothing rfl, rfl⟩
  | cons cookie cookies ih =>
    intro σ run
    obtain ⟨σ₁, run₁, run'⟩ := bind_eq_some_iff.mp run
    obtain ⟨sends, same⟩ := redriveOne_sends own run₁
    obtain ⟨sends', same'⟩ := ih run'
    exact ⟨sends.trans same sends', same'.trans same⟩

theorem failDestTransfers_sent (σ : Daemon A F) (slot : Nat) :
    (σ.failDestTransfers slot).sent = σ.sent := by
  have hfold : ∀ (cookies : List Nat) (σ : Daemon A F),
      (cookies.foldl (failOne slot) σ).sent = σ.sent := by
    intro cookies
    induction cookies with
    | nil => exact fun _ => rfl
    | cons cookie cookies ih =>
      intro σ
      rw [foldl_cons, ih]
      unfold failOne
      split
      · rfl
      split
      · rw [handled_sent, map_nil, append_nil]
      · rfl
  exact hfold _ σ

theorem register_sends (own : Prop) (run : σ.register e io = some σ') :
    Sends own σ σ' ∧ σ'.channels = σ.channels := by
  unfold Daemon.register at run
  split at run
  · exact some.inj run ▸ ⟨.nothing rfl, rfl⟩
  dsimp only at run
  split at run
  · split at run
    · split at run
      · have sends := drive_sends own run
        exact sends
      · exact some.inj run ▸ ⟨.nothing rfl, rfl⟩
    · exact some.inj run ▸ ⟨.nothing rfl, rfl⟩
  · exact some.inj run ▸ ⟨.nothing rfl, rfl⟩

theorem filereg_sends (own : Prop) {reg : FileReg A} {fd : Option F}
    (run : σ.fileregHandler reg fd io = some σ') : Sends own σ σ' ∧ σ'.channels = σ.channels := by
  unfold fileregHandler at run
  extract_lets serial σ₁ σ₂ at run
  split at run
  · exact some.inj run ▸ ⟨.nothing rfl, rfl⟩
  split at run
  · exact some.inj run ▸ ⟨.nothing rfl, rfl⟩
  · have sends := register_sends own run
    exact sends

omit [DecidableEq F] in
theorem destFor_sent {a : A} {out : Nat × Daemon A F} (h : σ.destFor a = some out) :
    out.2.sent = σ.sent := by
  unfold destFor at h
  split at h
  · exact some.inj h ▸ rfl
  unfold createdest at h
  extract_lets slot hilimit at h
  split at h
  · cases h
  · exact some.inj h ▸ rfl

omit [DecidableEq A] in
theorem message_sends {m : Message}
    (hrequest : ∀ e, σ.waiter m.cookie = some e → m.concerns e.toRec = true → own →
      (σ.channels slot).addr = some e.peer) (run : σ.messageArrived slot m io = some σ') :
    Sends own σ σ' := by
  unfold messageArrived at run
  split at run
  · cases run
    split
    · exact .nothing rfl
    · exact .nothing rfl
  next e hwaiter =>
  refine .map_handled (fun h hout m' hm' => (arrives_toPeer hout m' hm').1) ?_ run
  intro h hout m' hm' hown hdata
  cases hm : m.isRequest with
  | false =>
    rw [(arrives_toPeer hout m' hm').2 hm] at hdata
    cases hdata
  | true =>
    cases hconcerns : m.concerns e.toRec with
    | false =>
      obtain ⟨drop, hignored⟩ := arrives_ignored (σ.dest slot) io
        (σ.files e.file) hconcerns
      rw [hignored] at hout
      cases hout
      cases hm'
    | true => exact hrequest e hwaiter hconcerns hown

end Sent

/-- Every step sends on active channels, and steps that are the registrations' own keep the bytes of
files on the channels of their peers. -/
theorem step_sends {σ σ' : Daemon A F} (run : σ.step action = some σ') :
    Sends (σ.own action = true) σ σ' := by
  cases action with
  | fileReg reg fd io => exact (filereg_sends _ run).1
  | fileUnreg cookie =>
    cases run
    unfold fileunregHandler
    split
    · exact .nothing rfl
    · exact .nothing rfl
  | peeloff slot m =>
    unfold step peeloff at run
    dsimp only at run
    split at run
    · exact some.inj run ▸ .nothing rfl
    · cases run
  | fileAsync io =>
    unfold step fileAsyncCb at run
    unfold Daemon.own
    dsimp only at run ⊢
    split at run
    · cases run
    next r rs hqueue =>
    obtain ⟨slot, origin, op⟩ := r
    rw [hqueue]
    cases op with
    | failDest =>
      cases run
      exact .nothing (failDestTransfers_sent _ slot)
    | message m =>
      refine message_sends (σ := { σ with queue := rs }) ?_ run
      intro e hwaiter hconcerns own
      have hwaiter' : σ.waiter m.cookie = some e := hwaiter
      dsimp only at own
      rw [hwaiter', all_some, hconcerns, Bool.not_true, Bool.false_or, Bool.and_eq_true,
        Bool.and_eq_true, Bool.and_eq_true] at own
      exact (of_decide_eq_true own.1).trans (of_decide_eq_true own.2.1.1)
  | sendStarts cookie | sendEnds cookie =>
    unfold step sendMoves at run
    dsimp only at run
    split at run
    · cases run
    · obtain ⟨r, -, rfl⟩ := map_eq_some_iff.mp run
      exact .nothing rfl
  | armed cookie io =>
    unfold step armCb at run
    unfold Daemon.own
    dsimp only at run ⊢
    split at run
    · cases run
    next e hwaiter =>
    rw [hwaiter]
    split at run
    · cases run
    split at run
    · exact .map_handled (fun _ => pumpArmCb_toPeer) (fun _ _ _ _ own _ => of_decide_eq_true own) run
    · cases run
  | init0 a =>
    obtain ⟨out, hout, rfl⟩ := map_eq_some_iff.mp run
    dsimp only
    split
    · exact .nothing (destFor_sent hout)
    · exact .nothing (destFor_sent hout)
  | connected slot | handshakeDone slot cap | tlsError slot => exact some.inj run ▸ .nothing rfl
  | connectFails slot =>
    cases run
    exact .nothing (failDestTransfers_sent _ slot)
  | accepted a =>
    obtain ⟨out, hout, rfl⟩ := map_eq_some_iff.mp run
    exact .nothing (destFor_sent hout)
  | handshakeFails slot =>
    cases run
    split
    · exact .nothing rfl
    · exact .nothing rfl
  | redrive slot io => exact (redrive_sends _ _ run).1
  | freeDest slot =>
    cases run
    unfold Daemon.freeDest
    split
    · exact .nothing rfl
    · exact .nothing (failDestTransfers_sent _ slot)
  | freeDestCb slot =>
    unfold step freeDestCb at run
    dsimp only at run
    split at run
    · exact some.inj run ▸ .nothing rfl
    · cases run

omit [DecidableEq A] [DecidableEq F] in
theorem Confined.sends {σ σ' : Daemon A F} {own : Prop} (confined : σ.Confined)
    (sends : Sends own σ σ') (hown : own) : σ'.Confined := by
  obtain ⟨new, heq, hnew⟩ := sends
  unfold Confined
  rw [heq]
  exact forall_mem_append.mpr ⟨confined, fun s hs => (hnew s hs).2 hown⟩

/-- In every run whose records are all their registrations' own, no record does anything to the
registrations and channels of another peer, and no bytes of a file leave on another peer's channel. -/
theorem records_isolated (files : F → File) (actions : List (DaemonAction A F))
    (own : Guarded step (fun σ action => σ.own action = true) (initial files) actions) :
    Guarded step Isolated (initial files) actions ∧ Always step Confined (initial files) actions := by
  have keep : ∀ (σ : Daemon A F) action σ', σ.Tidy ∧ σ.Confined → σ.own action = true →
      σ.step action = some σ' → σ'.Tidy ∧ σ'.Confined := fun σ action σ' inv own run =>
    ⟨(step_ledger inv.1 action).1 σ' run, inv.2.sends (step_sends run) own⟩
  have start : (initial files : Daemon A F).Tidy ∧ (initial files : Daemon A F).Confined :=
    ⟨initial_tidy files, nofun⟩
  constructor
  · exact guarded_of_guarded keep (fun σ action inv own => isolated_of_own inv.1 own) start own
  · exact always_of_guarded keep (fun σ inv => inv.2) start own

/-- A store of one byte at the peer `true`. -/
def sinkReg : FileReg Bool where
  bodylen := 168
  cookie := 7
  role := 1
  driver := false
  peerlen := 16
  offset := 0
  length := 0
  peer := true

/-- The channels of both peers are up, `true` has the registration, and the peer in `slot` sends the
byte and the end of the file. -/
def sinkRun (slot : Nat) : List (DaemonAction Bool Unit) :=
  [.accepted true, .handshakeDone 0 1024, .accepted false, .handshakeDone 1 1024,
    .fileReg sinkReg (some ()) (.upTo 0), .peeloff slot (.data 7 0 [66]), .peeloff slot (.eof 7),
    .fileAsync (.upTo 1), .fileAsync (.upTo 1)]

theorem records_isolated_own :
    Guarded step (fun σ action => σ.own action = true)
        (initial fun _ => ⟨1, fun _ => 65⟩ : Daemon Bool Unit) (sinkRun 0) ∧
      Guarded step Isolated (initial fun _ => ⟨1, fun _ => 65⟩ : Daemon Bool Unit) (sinkRun 0) ∧
      Always step Confined (initial fun _ => ⟨1, fun _ => 65⟩ : Daemon Bool Unit) (sinkRun 0) :=
  have own : Guarded step (fun σ action => σ.own action = true)
      (initial fun _ => ⟨1, fun _ => 65⟩ : Daemon Bool Unit) (sinkRun 0) := by decide +kernel
  ⟨own, records_isolated _ _ own⟩

/-- The peer `false` writes the file that is registered for `true`. -/
theorem written_by_another_peer :
    ∃ σ : Daemon Bool Unit,
      ((sinkRun 1).take 7).foldlM step (initial fun _ => ⟨1, fun _ => 65⟩) = some σ ∧
        ¬ σ.Isolated (.fileAsync (.upTo 1)) := by
  refine ⟨_, rfl, fun isolated => ?_⟩
  obtain ⟨σ', hstep, spared, -⟩ := isolated _ rfl (.data 7 0 [66]) rfl
  obtain ⟨-, hfile, -⟩ := spared _ (.head _) (by decide)
  cases hstep
  exact absurd (congrArg (fun f => f.byte 0) hfile) (by decide)

end Daemon

end Coda.Tunnel
