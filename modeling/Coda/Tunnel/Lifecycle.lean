import Coda.Lib.Run
import Coda.Tunnel.Ledger

/-!
Registrations from their `CT_FILEREG` to their `CT_FILEDONE`, over every run of the daemon.

Every event settles entries fairly, but for two. A `CT_FILEREG` that finds the table full is dropped
without an answer. And where a channel fails whose pump is running, the app is told of the end while
the pump keeps the record: the pump's callback then tells of it once more, or never comes since its
send was dropped with the queue.
-/

namespace Coda.Tunnel

open Coda.Lib List Option Function Rec

variable {A F : Type*}

namespace Daemon

open Ledger

variable {σ σ' : Daemon A F} {cookie slot : Nat} {e : Entry A F} {io : Io} {reg : FileReg A}
  {fd : Option F}

/-- A send of a pump changes nothing but its hook. -/
theorem sendMoves_step (tidy : σ.Tidy) {move : Rec A F → Option (Rec A F)}
    (hmove : ∀ r r', move r = some r' → ∃ p hook, r.pump = some p ∧ r' = r.setHook p hook)
    (run : σ.sendMoves move cookie = some σ') : σ.toLedger.Step σ'.toLedger := by
  unfold sendMoves at run
  split at run
  · cases run
  next e hwaiter =>
  have mem := (waiter_mem hwaiter).1
  obtain ⟨r, hr, rfl⟩ := map_eq_some_iff.mp run
  obtain ⟨p, hook, hpump, rfl⟩ := hmove _ _ hr
  have pumped := tidy.pumped e mem (by rw [hpump]; rfl)
  have hfair : Fair e.toRec ⟨some (e.toRec.setHook p hook), σ.files e.file, [], [], false⟩ :=
    fair_goes rfl ⟨rfl, rfl, rfl, rfl, rfl⟩ (fun _ => pumped) rfl
  have hstep := Ledger.Step.handled mem rfl hfair
  rwa [show ∀ l : Ledger A F, l.tell e.serial [] = l by
    intro l; rw [Ledger.tell, map_nil, append_nil]] at hstep

@[simp] theorem setState_toLedger (slot : Nat) (state : DestState) (σ : Daemon A F) :
    (σ.setState slot state).toLedger = σ.toLedger :=
  rfl

theorem initial_tidy (files : F → File) : (initial files : Daemon A F).Tidy where
  cookies := nodup_nil
  serials := nodup_nil
  fresh _ mem := absurd mem not_mem_nil
  pumped _ mem := absurd mem not_mem_nil
  told _ hx := absurd hx not_mem_nil
  unregistered _ hs := absurd hs not_mem_nil
  orphans _ hs := absurd hs not_mem_nil

theorem initial_accounted (files : F → File) : (initial files : Daemon A F).Accounted where
  once _ := Nat.zero_le _
  stays _ hs := absurd hs not_mem_nil
  leaves _ mem := absurd mem not_mem_nil
  orphaned _ mem := absurd mem not_mem_nil

/-! ### Channels that are drained -/

/-- No entry for the peer of a channel has a pump. -/
def Unpumped (σ : Daemon A F) (slot : Nat) : Prop :=
  ∀ e ∈ σ.table, some e.peer = (σ.channels slot).addr → e.pump = none

/-- Draining a channel's queue leaves the table in order, and its pumps where they are. -/
theorem drain_tidy (tidy : σ.Tidy) (slot : Nat) : (σ.drainOutboundQueues slot).Tidy :=
  tidy.remap (fun e _ => drain_same slot e) fun e mem => drain_pumped slot (tidy.pumped e mem)

theorem drain_accounted (tidy : σ.Tidy) (acc : σ.Accounted) (slot : Nat) :
    (σ.drainOutboundQueues slot).Accounted :=
  acc.remap tidy (fun e _ => drain_same slot e) fun e mem => drain_pumped slot (tidy.pumped e mem)

theorem drain_unpumped : (σ.drainOutboundQueues slot).Unpumped slot ↔ σ.Unpumped slot := by
  constructor
  · intro unpumped e mem hpeer
    have hsome := drain_isSome slot e
    rw [unpumped _ (mem_map_of_mem mem) (by rw [(drain_same slot e).peer]; exact hpeer)] at hsome
    exact not_isSome_iff_eq_none.mp (by rw [← hsome]; exact Bool.false_ne_true)
  · intro unpumped e mem hpeer
    obtain ⟨e₀, mem₀, rfl⟩ := mem_map.mp mem
    rw [(drain_same slot e₀).peer] at hpeer
    have hsome := drain_isSome slot e₀
    rw [unpumped e₀ mem₀ hpeer] at hsome
    exact not_isSome_iff_eq_none.mp (by rw [hsome]; exact Bool.false_ne_true)

/-- `free_dest` up to `ct_fail_dest_transfers`. -/
def closingDest (slot : Nat) (σ : Daemon A F) : Daemon A F :=
  { σ with
    channels := Function.update σ.channels slot
      ⟨(σ.channels slot).addr, { σ.dest slot with state := .tcpClosing }, true⟩ }.drainOutboundQueues
    slot

theorem closingDest_addr (slot : Nat) (σ : Daemon A F) :
    ((σ.closingDest slot).channels slot).addr = (σ.channels slot).addr := by
  unfold closingDest drainOutboundQueues
  dsimp only
  rw [update_self]

/-! ### Registrations taken back -/

theorem fileunregHandler_tidy (tidy : σ.Tidy) (cookie : Nat) :
    (σ.fileunregHandler cookie).Tidy := by
  unfold fileunregHandler
  split
  · exact tidy
  next e hwaiter =>
  have mem := (waiter_mem hwaiter).1
  exact tidy.unregister mem (fun r hr => ((tidy.pumped e mem).cancelled hr).1)
    fun r hr => ((tidy.pumped e mem).cancelled hr).2

theorem fileunregHandler_accounted (tidy : σ.Tidy) (acc : σ.Accounted) (cookie : Nat) :
    (σ.fileunregHandler cookie).Accounted := by
  unfold fileunregHandler
  split
  · exact acc
  next e hwaiter =>
  have mem := (waiter_mem hwaiter).1
  exact acc.unregister tidy mem (fun r hr => ((tidy.pumped e mem).cancelled hr).1)
    fun r hr => ((tidy.pumped e mem).cancelled hr).2

/-! ### Steps that settle entries fairly -/

variable [DecidableEq F]

theorem handled_toLedger (e : Entry A F) (slot : Nat) (h : Handled A F) (σ : Daemon A F) :
    (σ.handled e slot h).toLedger = (σ.toLedger.settle e h.record).tell e.serial h.toApp := by
  unfold handled
  split <;> rfl

theorem handled_step {e₀ : Entry A F} (mem : e₀ ∈ σ.table) (same : e.toRec = e₀.toRec)
    {h : Handled A F} (fair : Fair e.toRec h) (slot : Nat) :
    σ.toLedger.Step (σ.handled e slot h).toLedger := by
  rw [handled_toLedger]
  exact .handled mem same fair

theorem map_handled_step {e₀ : Entry A F} (mem : e₀ ∈ σ.table) (same : e.toRec = e₀.toRec)
    {out : Option (Handled A F)} (fair : ∀ h, out = some h → Fair e.toRec h)
    (run : out.map (σ.handled e slot) = some σ') : σ.toLedger.Step σ'.toLedger := by
  obtain ⟨h, hout, rfl⟩ := map_eq_some_iff.mp run
  exact handled_step mem same (fair h hout) slot

theorem messageArrived_steps (tidy : σ.Tidy) {m : Message}
    (run : σ.messageArrived slot m io = some σ') : Steps σ.toLedger σ'.toLedger := by
  unfold messageArrived at run
  split at run
  · cases run
    split
    · exact .refl
    · exact .refl
  next e hwaiter =>
  have mem := (waiter_mem hwaiter).1
  exact .single (map_handled_step mem rfl (fun h hout => arrives_fair (tidy.pumped e mem) hout) run)

theorem armCb_step (tidy : σ.Tidy) (run : σ.armCb cookie io = some σ') :
    σ.toLedger.Step σ'.toLedger := by
  unfold armCb at run
  split at run
  · cases run
  next e hwaiter =>
  have mem := (waiter_mem hwaiter).1
  split at run
  · cases run
  next p hpump =>
  obtain ⟨source, driver⟩ := tidy.pumped e mem (by rw [hpump]; rfl)
  split at run
  · exact map_handled_step mem rfl (fun h hout => pumpArmCb_fair source driver hout) run
  · cases run

variable [DecidableEq A]

theorem drive_step (tidy : σ.Tidy) (mem : e ∈ σ.table) (driver : e.isDriver = true)
    (run : σ.drive slot io e = some σ') : σ.toLedger.Step σ'.toLedger := by
  have pumped := tidy.pumped e mem
  unfold Daemon.drive at run
  split at run
  · split at run
    · next s _ =>
      exact map_handled_step (e := { e with slot := s }) mem rfl
        (fun h hout => pumpDoStart_fair pumped driver hout) run
    · exact map_handled_step mem rfl (fun h hout => pumpDoStart_fair pumped driver hout) run
  · exact map_handled_step mem rfl (fun h hout => drive_fair pumped driver hout) run

theorem redriveOne_steps (tidy : σ.Tidy) {io : Nat → Io}
    (run : σ.redriveOne slot io cookie = some σ') : Steps σ.toLedger σ'.toLedger := by
  unfold redriveOne at run
  split at run
  · cases run
    exact .refl
  next e hwaiter =>
  split at run
  · next hgo =>
    have driver : e.isDriver = true := by
      rw [Bool.and_eq_true, Bool.and_eq_true, Bool.and_eq_true] at hgo
      exact hgo.1.1.1
    exact .single (drive_step tidy (waiter_mem hwaiter).1 driver run)
  · cases run
    exact .refl

theorem redrive_steps {io : Nat → Io} :
    ∀ (cookies : List Nat) {σ σ' : Daemon A F}, σ.Tidy →
      cookies.foldlM (redriveOne slot io) σ = some σ' → Steps σ.toLedger σ'.toLedger := by
  intro cookies
  induction cookies with
  | nil =>
    intro σ σ' _ run
    cases run
    exact .refl
  | cons cookie cookies ih =>
    intro σ σ' tidy run
    obtain ⟨σ₁, run₁, run'⟩ := bind_eq_some_iff.mp run
    have hfirst := redriveOne_steps tidy run₁
    exact Relation.ReflTransGen.trans hfirst (ih (hfirst.tidy tidy) run')

/-! ### Channels that fail -/

theorem failOne_channels (slot : Nat) (σ : Daemon A F) (cookie : Nat) :
    (σ.failOne slot cookie).channels = σ.channels := by
  unfold failOne
  split
  · rfl
  split
  · rfl
  · rfl

/-- `ct_fail_one` passes a cookie over, or tells the app of the end of its entry and frees it. -/
theorem failOne_cases (slot : Nat) (σ : Daemon A F) (cookie : Nat) :
    ((σ.failOne slot cookie).toLedger = σ.toLedger ∧
      ∀ e ∈ σ.table, e.cookie = cookie → σ.Tidy → some e.peer ≠ (σ.channels slot).addr) ∨
    ∃ e ∈ σ.table, e.cookie = cookie ∧ some e.peer = (σ.channels slot).addr ∧
      (σ.failOne slot cookie).toLedger = (σ.toLedger.settle e e.toRec.freeNow).tell e.serial
        [.fileDone statusTimeout e.toRec.moved] := by
  unfold failOne
  split
  · next hwaiter => exact .inl ⟨rfl, fun e mem heq => absurd heq (waiter_none hwaiter mem)⟩
  next e hwaiter =>
  obtain ⟨mem, hcookie⟩ := waiter_mem hwaiter
  split
  · next hpeer => exact .inr ⟨e, mem, hcookie, hpeer, handled_toLedger _ _ _ _⟩
  · next hpeer =>
    refine .inl ⟨rfl, fun e' mem' heq tidy => ?_⟩
    rw [tidy.unique mem' mem (heq.trans hcookie.symm)]
    exact hpeer

theorem failOne_tidy (tidy : σ.Tidy) (cookie : Nat) : (σ.failOne slot cookie).Tidy := by
  rcases failOne_cases slot σ cookie with ⟨hsame, -⟩ | ⟨e, mem, -, -, hfailed⟩
  · rw [hsame]
    exact tidy
  · rw [hfailed]
    apply (tidy.settle mem rfl (fun r hr => ?_) fun r hr => ?_).tell
    · rw [settle_serials]
      exact tidy.fresh e mem
    · rw [freeNow_eq_some hr]
      exact .refl _
    · rw [freeNow_eq_some hr]
      exact tidy.pumped e mem

theorem failOne_steps (unpumped : σ.Unpumped slot) (cookie : Nat) :
    Steps σ.toLedger (σ.failOne slot cookie).toLedger := by
  rcases failOne_cases slot σ cookie with ⟨hsame, -⟩ | ⟨e, mem, -, hpeer, hfailed⟩
  · rw [hsame]
    exact .refl
  · have hfair : Fair e.toRec
        ⟨e.toRec.freeNow, σ.files e.file, [.fileDone statusTimeout e.toRec.moved], [], false⟩ :=
      fair_ends (freeNow_of_none (unpumped e mem hpeer)) rfl
    rw [hfailed]
    exact .single (.handled mem rfl hfair)

theorem failOne_mem (h : e ∈ (σ.failOne slot cookie).table) : e ∈ σ.table := by
  rcases failOne_cases slot σ cookie with ⟨hsame, -⟩ | ⟨e', mem', -, -, hfailed⟩
  · rw [hsame] at h
    exact h
  · rw [hfailed] at h
    rcases mem_settle (fun r hr => freeNow_eq_some hr ▸ .refl _) h with ⟨mem, -⟩ | ⟨r, hr, rfl⟩
    · exact mem
    · rw [freeNow_eq_some hr]
      exact mem'

theorem failOne_unpumped (unpumped : σ.Unpumped slot) (cookie : Nat) :
    (σ.failOne slot cookie).Unpumped slot := by
  intro e mem hpeer
  rw [failOne_channels] at hpeer
  exact unpumped e (failOne_mem mem) hpeer

/-- An entry that a pump holds stays in the table; so does the entry of another cookie. -/
theorem mem_failOne (tidy : σ.Tidy) (mem : e ∈ σ.table) (h : e.cookie ≠ cookie ∨ e.pump.isSome) :
    e ∈ (σ.failOne slot cookie).table := by
  rcases failOne_cases slot σ cookie with ⟨hsame, -⟩ | ⟨e', mem', hcookie, -, hfailed⟩
  · rw [hsame]
    exact mem
  · rw [hfailed]
    by_cases heq : e.cookie = e'.cookie
    · obtain rfl := tidy.unique mem mem' heq
      have hpump := h.resolve_left (not_not.mpr hcookie)
      have hfree : e.toRec.freeNow = some e.toRec := if_pos hpump
      rw [hfree]
      exact mem_settle_self (.refl _) mem rfl
    · exact mem_settle_of_ne (fun r hr => freeNow_eq_some hr ▸ .refl _) mem heq

theorem answers_le_failOne (slot : Nat) (σ : Daemon A F) (cookie serial : Nat) :
    σ.answers serial ≤ (σ.failOne slot cookie).answers serial := by
  rcases failOne_cases slot σ cookie with ⟨hsame, -⟩ | ⟨e, -, -, -, hfailed⟩
  · rewrite [hsame]
    exact Nat.le_refl _
  · rw [hfailed, answers_tell, answers, answers, settle_toApp]
    exact Nat.le_add_right _ _

theorem failOne_answers (tidy : σ.Tidy) (mem : e ∈ σ.table)
    (hpeer : some e.peer = (σ.channels slot).addr) :
    0 < (σ.failOne slot e.cookie).answers e.serial := by
  rcases failOne_cases slot σ e.cookie with ⟨-, hother⟩ | ⟨e', mem', hcookie, -, hfailed⟩
  · exact absurd hpeer (hother e mem rfl tidy)
  · rw [hfailed, answers_tell, tidy.unique mem' mem hcookie, if_pos rfl]
    exact Nat.lt_add_left _ Nat.zero_lt_one

section Fold

variable {slot : Nat}

section

variable (cookies : List Nat)
include cookies

theorem foldl_failOne_tidy :
    ∀ {σ : Daemon A F}, σ.Tidy → (cookies.foldl (failOne slot) σ).Tidy := by
  induction cookies with
  | nil => exact id
  | cons cookie cookies ih => exact fun tidy => ih (failOne_tidy tidy cookie)

theorem foldl_failOne_steps :
    ∀ {σ : Daemon A F}, σ.Unpumped slot →
      Steps σ.toLedger (cookies.foldl (failOne slot) σ).toLedger := by
  induction cookies with
  | nil => exact fun _ => .refl
  | cons cookie cookies ih =>
    intro σ unpumped
    exact (failOne_steps unpumped cookie).trans (ih (failOne_unpumped unpumped cookie))

theorem answers_le_foldl (serial : Nat) :
    ∀ σ : Daemon A F, σ.answers serial ≤ (cookies.foldl (failOne slot) σ).answers serial := by
  induction cookies with
  | nil => exact fun _ => Nat.le_refl _
  | cons cookie cookies ih => exact fun σ => Nat.le_trans (answers_le_failOne slot σ cookie serial) (ih _)

theorem foldl_failOne_answers :
    ∀ {σ : Daemon A F}, σ.Tidy → e ∈ σ.table → some e.peer = (σ.channels slot).addr →
      e.cookie ∈ cookies → 0 < (cookies.foldl (failOne slot) σ).answers e.serial := by
  induction cookies with
  | nil => exact fun _ _ _ hmem => absurd hmem not_mem_nil
  | cons cookie cookies ih =>
    intro σ tidy mem hpeer hmem
    by_cases heq : e.cookie = cookie
    · rw [← heq]
      exact Nat.lt_of_lt_of_le (failOne_answers tidy mem hpeer) (answers_le_foldl _ _ _)
    · refine ih (failOne_tidy tidy cookie) (mem_failOne tidy mem (.inl heq)) ?_
        ((mem_cons.mp hmem).resolve_left heq)
      rw [failOne_channels]
      exact hpeer

theorem mem_foldl_failOne (hpump : e.pump.isSome) :
    ∀ {σ : Daemon A F}, σ.Tidy → e ∈ σ.table → e ∈ (cookies.foldl (failOne slot) σ).table := by
  induction cookies with
  | nil => exact fun _ mem => mem
  | cons cookie cookies ih =>
    exact fun tidy mem => ih (failOne_tidy tidy cookie) (mem_failOne tidy mem (.inr hpump))

end

end Fold

theorem failDestTransfers_tidy (tidy : σ.Tidy) (slot : Nat) : (σ.failDestTransfers slot).Tidy :=
  foldl_failOne_tidy _ tidy

theorem failDestTransfers_answers (slot : Nat) (tidy : σ.Tidy) (mem : e ∈ σ.table)
    (hpeer : some e.peer = (σ.channels slot).addr) :
    0 < (σ.failDestTransfers slot).answers e.serial :=
  foldl_failOne_answers _ tidy mem hpeer (mem_map_of_mem mem)

/-- The transfers of a channel are failed in good order exactly when no pump runs on it. -/
theorem failDestTransfers_accounted (tidy : σ.Tidy) (acc : σ.Accounted) (slot : Nat) :
    (σ.failDestTransfers slot).Accounted ↔ σ.Unpumped slot := by
  constructor
  · intro acc' e mem hpeer
    by_contra hpump
    have hsome := isSome_iff_ne_none.mpr hpump
    have hstays : e ∈ (σ.failDestTransfers slot).table := mem_foldl_failOne _ hsome tidy mem
    have htold := failDestTransfers_answers slot tidy mem hpeer
    rw [acc'.leaves e hstays] at htold
    cases htold
  · intro unpumped
    exact (foldl_failOne_steps _ unpumped).accounted tidy acc

theorem freeDest_open (h : (σ.dest slot).state ≠ .tcpClosing) :
    (σ.freeDest slot).toLedger =
      { ((σ.closingDest slot).failDestTransfers slot).toLedger with
        orphans := ((σ.closingDest slot).failDestTransfers slot).orphans ++
          (σ.table.filter fun e => some e.peer = (σ.channels slot).addr).map fun e => e.serial } := by
  unfold freeDest
  rw [if_neg h]
  rfl

theorem freeDest_tidy (tidy : σ.Tidy) (slot : Nat) : (σ.freeDest slot).Tidy := by
  by_cases hclosing : (σ.dest slot).state = .tcpClosing
  · unfold freeDest
    rw [if_pos hclosing]
    exact tidy
  have tidy₁ : (σ.closingDest slot).Tidy := drain_tidy (tidy) slot
  have tidy₂ := failDestTransfers_tidy tidy₁ slot
  rw [freeDest_open hclosing]
  refine { tidy₂ with orphans := forall_mem_append.mpr ⟨tidy₂.orphans, fun s hs => ?_⟩ }
  obtain ⟨e, hmem, rfl⟩ := mem_map.mp hs
  obtain ⟨mem, hpeer⟩ := mem_filter.mp hmem
  have hsame := drain_same slot e
  have htold := failDestTransfers_answers slot tidy₁ (mem_map_of_mem mem)
    (by rw [hsame.peer, closingDest_addr]; exact of_decide_eq_true hpeer)
  rw [hsame.serial] at htold
  exact htold

theorem freeDest_accounted (tidy : σ.Tidy) (acc : σ.Accounted) (slot : Nat) :
    (σ.freeDest slot).Accounted ↔
      ((σ.dest slot).state ≠ .tcpClosing → σ.Unpumped slot) := by
  by_cases hclosing : (σ.dest slot).state = .tcpClosing
  · have hsame : σ.freeDest slot = σ := by
      unfold freeDest
      rw [if_pos hclosing]
    rw [hsame]
    exact ⟨fun _ hopen => absurd hclosing hopen, fun _ => acc⟩
  have tidy₁ : (σ.closingDest slot).Tidy := drain_tidy (tidy) slot
  have acc₁ : (σ.closingDest slot).Accounted := drain_accounted (tidy) (acc) slot
  have hfail := failDestTransfers_accounted tidy₁ acc₁ slot
  have hunpumped : (σ.closingDest slot).Unpumped slot ↔ σ.Unpumped slot := by
    unfold closingDest
    rw [drain_unpumped]
    unfold Unpumped
    dsimp only
    rw [update_self]
  have tidy' := freeDest_tidy tidy slot
  constructor
  · intro acc' _
    rw [freeDest_open hclosing] at acc'
    apply hunpumped.mp
    apply hfail.mp
    exact (failDestTransfers_tidy tidy₁ slot).accounted acc'.once acc'.stays acc'.leaves
  · intro unpumped
    have acc₂ := hfail.mpr (hunpumped.mpr (unpumped hclosing))
    apply tidy'.accounted
    · rw [freeDest_open hclosing]
      exact acc₂.once
    · rw [freeDest_open hclosing]
      exact acc₂.stays
    · rw [freeDest_open hclosing]
      exact acc₂.leaves

/-! ### `CT_FILEREG` -/

theorem register_steps (free : σ.waiter e.cookie = none) (room : σ.table.length < cookieMax)
    (tidy : { σ.toLedger with table := σ.table ++ [e] }.Tidy) (run : σ.register e io = some σ') :
    Steps { σ.toLedger with table := σ.table ++ [e] } σ'.toLedger := by
  unfold register at run
  rw [if_neg (by rw [free]; simp [Nat.not_le_of_lt room])] at run
  dsimp only at run
  split at run
  · next driver =>
    split at run
    · split at run
      · exact .single (drive_step tidy (mem_append_right _ (mem_singleton_self e)) driver run)
      · cases run
        exact .refl
    · cases run
      exact .refl
  · cases run
    exact .refl

theorem register_refused (h : (σ.waiter e.cookie).isSome ∨ cookieMax ≤ σ.table.length)
    (run : σ.register e io = some σ') : σ' = σ := by
  unfold register at run
  rw [if_pos h] at run
  exact (some.inj run).symm

/-- A `CT_FILEREG` is malformed, comes without a file, is refused, or is entered. -/
theorem fileregHandler_cases (tidy : σ.Tidy) (run : σ.fileregHandler reg fd io = some σ') :
    reg.wellFormed = false ∧
        σ'.toLedger = { σ.toLedger with serials := σ.serials + 1, asked := σ.asked } ∨
      reg.wellFormed = true ∧ fd = none ∧
        σ'.toLedger = Ledger.tell σ.serials [.fileDone statusIoerr 0]
          { σ.toLedger with serials := σ.serials + 1, asked := askedAfter reg σ.toLedger } ∨
      reg.wellFormed = true ∧ fd.isSome ∧
        ((σ.waiter reg.cookie).isSome ∨ cookieMax ≤ σ.table.length) ∧
        σ'.toLedger =
          { σ.toLedger with serials := σ.serials + 1, asked := askedAfter reg σ.toLedger } ∨
      ∃ file, σ.waiter reg.cookie = none ∧ σ.table.length < cookieMax ∧
        Steps
          { σ.toLedger with
            serials := σ.serials + 1
            asked := askedAfter reg σ.toLedger
            table := σ.table ++ [newEntry reg file σ.serials] }
          σ'.toLedger := by
  unfold fileregHandler at run
  dsimp only at run
  split at run
  · next hbad =>
    cases run
    exact .inl ⟨(Bool.not_eq_eq_eq_not ..).mp hbad, rfl⟩
  next hgood =>
  have hwell : reg.wellFormed = true := by simpa using hgood
  right
  split at run
  · cases run
    exact .inl ⟨hwell, rfl, rfl⟩
  next file =>
  right
  by_cases hrefused : (σ.waiter reg.cookie).isSome ∨ cookieMax ≤ σ.table.length
  · obtain rfl := register_refused (hrefused) run
    exact .inl ⟨hwell, rfl, hrefused, rfl⟩
  · have hfree := not_isSome_iff_eq_none.mp fun h => hrefused (.inl h)
    have hroom := Nat.lt_of_not_le fun h => hrefused (.inr h)
    exact .inr ⟨file, hfree, hroom,
      register_steps
        (σ := { σ with serials := σ.serials + 1, asked := askedAfter reg σ.toLedger })
        hfree hroom (tidy.entered _ hfree rfl rfl) run⟩

theorem fileregHandler_tidy (tidy : σ.Tidy) (run : σ.fileregHandler reg fd io = some σ') :
    σ'.Tidy := by
  rcases fileregHandler_cases tidy run with
    ⟨-, h⟩ | ⟨-, -, h⟩ | ⟨-, -, -, h⟩ | ⟨file, free, -, steps⟩
  · rw [h]
    exact tidy.next _
  · rw [h]
    exact (tidy.next _).tell (Nat.lt_succ_self _) _
  · rw [h]
    exact tidy.next _
  · exact steps.tidy (tidy.entered _ free rfl rfl)

/-- A `CT_FILEREG` is accounted for exactly when it finds room. -/
theorem fileregHandler_accounted (tidy : σ.Tidy) (acc : σ.Accounted) :
    (∀ σ', σ.fileregHandler reg fd io = some σ' → σ'.Accounted) ↔
      (reg.wellFormed → fd.isSome → σ.waiter reg.cookie = none → σ.table.length < cookieMax) := by
  constructor
  · intro hall hwell hfd hfree
    by_contra hfull
    obtain ⟨file, rfl⟩ := isSome_iff_exists.mp hfd
    have hrun : σ.fileregHandler reg (some file) io =
        some { σ with serials := σ.serials + 1, asked := askedAfter reg σ.toLedger } := by
      unfold fileregHandler
      rw [if_neg (by rw [hwell]; exact Bool.false_ne_true)]
      exact if_pos (.inr (Nat.le_of_not_lt hfull))
    have acc' := hall _ hrun
    have hasks : askedAfter reg σ.toLedger = σ.asked ++ [σ.serials] := by
      unfold askedAfter
      rw [hfree]
      rfl
    rcases acc'.stays σ.serials (by
      rw [hasks]
      exact mem_append_right _ (mem_singleton_self _)) tidy.answers_fresh
      with hun | ⟨e, mem, heq⟩
    · exact Nat.lt_irrefl _ (tidy.unregistered _ hun)
    · exact absurd heq (Nat.ne_of_lt (tidy.fresh e mem))
  · intro hroom σ' run
    rcases fileregHandler_cases tidy run with
      ⟨-, h⟩ | ⟨-, -, h⟩ | ⟨hwell, hfd, hrefused, h⟩ | ⟨file, free, -, steps⟩
    · rw [h]
      exact acc.next
    · rw [h]
      exact acc.refused tidy mem_askedAfter _
    · have hheld : (σ.waiter reg.cookie).isSome := by
        by_contra hnot
        have hlt := hroom hwell hfd (not_isSome_iff_eq_none.mp hnot)
        exact hrefused.elim hnot (Nat.not_le_of_lt hlt)
      have hasked : askedAfter reg σ.toLedger = σ.asked := if_neg fun hnone =>
        isSome_iff_ne_none.mp hheld (isNone_iff_eq_none.mp hnone)
      rw [h, hasked]
      exact acc.next
    · exact steps.accounted (tidy.entered _ free rfl rfl)
        (acc.entered tidy mem_askedAfter free rfl rfl)

/-! ### Runs -/

omit [DecidableEq F] in
theorem destFor_toLedger {a : A} {out : Nat × Daemon A F} (h : σ.destFor a = some out) :
    out.2.toLedger = σ.toLedger := by
  unfold destFor at h
  split at h
  · exact some.inj h ▸ rfl
  unfold createdest at h
  extract_lets slot hilimit at h
  split at h
  · cases h
  · exact some.inj h ▸ rfl

/-- A registration finds room, and a channel that fails has no pump. -/
def Orderly (σ : Daemon A F) : DaemonAction A F → Prop
  | .fileReg reg fd _ =>
    reg.wellFormed → fd.isSome → σ.waiter reg.cookie = none → σ.table.length < cookieMax
  | .connectFails slot => σ.Unpumped slot
  | .freeDest slot => (σ.dest slot).state ≠ .tcpClosing → σ.Unpumped slot
  | .fileAsync _ => ∀ r ∈ σ.queue.head?, r.op = .failDest → σ.Unpumped r.slot
  | _ => True

/-- What a step does to the ledger: it registers, takes back, fails the transfers of a channel, or
leaves the table to fair handlers. -/
theorem step_ledger (tidy : σ.Tidy) (action : DaemonAction A F) :
    (∀ σ', σ.step action = some σ' → σ'.Tidy) ∧
      (σ.Accounted →
        ((∀ σ', σ.step action = some σ' → σ'.Accounted) ↔ σ.Orderly action)) := by
  have hplain : (∀ σ', σ.step action = some σ' → Steps σ.toLedger σ'.toLedger) → σ.Orderly action →
      (∀ σ', σ.step action = some σ' → σ'.Tidy) ∧
        (σ.Accounted → ((∀ σ', σ.step action = some σ' → σ'.Accounted) ↔ σ.Orderly action)) := by
    intro hsteps horderly
    refine ⟨fun σ' run => (hsteps σ' run).tidy tidy, fun acc => ⟨fun _ => horderly, fun _ σ' run => ?_⟩⟩
    exact (hsteps σ' run).accounted tidy acc
  cases action with
  | fileReg reg fd io =>
    exact ⟨fun σ' run => fileregHandler_tidy tidy run, fun acc => fileregHandler_accounted tidy acc⟩
  | fileUnreg cookie =>
    refine ⟨fun σ' run => some.inj run ▸ fileunregHandler_tidy tidy cookie,
      fun acc => ⟨fun _ => trivial, fun _ σ' run => ?_⟩⟩
    exact some.inj run ▸ fileunregHandler_accounted tidy acc cookie
  | connectFails slot =>
    refine ⟨fun σ' run => some.inj run ▸ failDestTransfers_tidy (by exact tidy) slot,
      fun acc => ?_⟩
    have hiff := failDestTransfers_accounted (σ := σ.setState slot .allocated) tidy acc slot
    have hsame : (σ.setState slot .allocated).Unpumped slot ↔ σ.Unpumped slot := by
      unfold Unpumped setState
      dsimp only
      rw [update_self]
    constructor
    · exact fun hall => hsame.mp (hiff.mp (hall _ rfl))
    · exact fun unpumped σ' run => some.inj run ▸ hiff.mpr (hsame.mpr unpumped)
  | freeDest slot =>
    refine ⟨fun σ' run => some.inj run ▸ freeDest_tidy tidy slot, fun acc => ?_⟩
    have hiff := freeDest_accounted tidy acc slot
    exact ⟨fun hall => hiff.mp (hall _ rfl),
      fun horderly σ' run => some.inj run ▸ hiff.mpr horderly⟩
  | fileAsync io =>
    cases hqueue : σ.queue with
    | nil =>
      have hnone : ∀ σ', σ.step (.fileAsync io) ≠ some σ' := by
        intro σ' run
        unfold step fileAsyncCb at run
        rw [hqueue] at run
        cases run
      refine ⟨fun σ' run => absurd run (hnone σ'), fun _ => ⟨fun _ r hr => ?_, fun _ σ' run =>
        absurd run (hnone σ')⟩⟩
      rw [hqueue] at hr
      cases hr
    | cons r rs =>
      cases hop : r.op with
      | message m =>
        apply hplain
        · intro σ' run
          unfold step fileAsyncCb at run
          rw [hqueue] at run
          dsimp only at run
          rw [hop] at run
          exact messageArrived_steps (σ := { σ with queue := rs }) tidy run
        · intro r' hr' hfail
          rw [hqueue] at hr'
          cases hr'
          rw [hop] at hfail
          cases hfail
      | failDest =>
        have hrun : σ.step (.fileAsync io) =
            some ({ σ with queue := rs }.failDestTransfers r.slot) := by
          unfold step fileAsyncCb
          rw [hqueue]
          dsimp only
          rw [hop]
        have hiff := failDestTransfers_accounted (σ := { σ with queue := rs }) tidy
        rw [hrun]
        refine ⟨fun σ' run => some.inj run ▸ failDestTransfers_tidy (by exact tidy) r.slot,
          fun acc => ⟨fun hall r' hr' _ => ?_, fun horderly σ' run => ?_⟩⟩
        · rw [hqueue] at hr'
          cases hr'
          exact (hiff acc r.slot).mp (hall _ rfl)
        · have hunpumped := horderly r (by rw [hqueue]; rfl) hop
          exact some.inj run ▸ (hiff acc r.slot).mpr hunpumped
  | peeloff slot m =>
    refine hplain (fun σ' run => ?_) trivial
    unfold step peeloff at run
    dsimp only at run
    split at run
    · cases run
      exact .refl
    · cases run
  | sendStarts cookie =>
    exact hplain (fun σ' run => .single (sendMoves_step tidy sendStarts_setHook run)) trivial
  | sendEnds cookie =>
    exact hplain (fun σ' run => .single (sendMoves_step tidy sendEnds_setHook run)) trivial
  | armed cookie io => exact hplain (fun σ' run => .single (armCb_step tidy run)) trivial
  | init0 a =>
    refine hplain (fun σ' run => ?_) trivial
    obtain ⟨out, hout, rfl⟩ := map_eq_some_iff.mp run
    have hsame := destFor_toLedger hout
    dsimp only
    split
    · rw [setState_toLedger, hsame]
      exact .refl
    · rw [hsame]
      exact .refl
  | connected slot | handshakeDone slot cap | tlsError slot =>
    exact hplain (fun σ' run => some.inj run ▸ .refl) trivial
  | accepted a =>
    refine hplain (fun σ' run => ?_) trivial
    obtain ⟨out, hout, rfl⟩ := map_eq_some_iff.mp run
    rw [setState_toLedger, destFor_toLedger hout]
    exact .refl
  | handshakeFails slot =>
    refine hplain (fun σ' run => ?_) trivial
    cases run
    split
    · exact .refl
    · exact .refl
  | redrive slot io => exact hplain (fun σ' run => redrive_steps _ tidy run) trivial
  | freeDestCb slot =>
    refine hplain (fun σ' run => ?_) trivial
    unfold step freeDestCb at run
    dsimp only at run
    split at run
    · cases run
      exact .refl
    · cases run

/-- In every run of the daemon, every registration is accounted for in every state reached exactly
when every registration finds room and no channel fails while one of its pumps runs. -/
theorem registrations_accounted (files : F → File) (actions : List (DaemonAction A F)) :
    Always step (fun σ : Daemon A F => σ.Accounted) (initial files) actions ↔
      Guarded step Orderly (initial files) actions := by
  apply always_iff_guarded
  · exact fun σ action σ' tidy _ run => (step_ledger tidy action).1 σ' run
  · exact fun σ action tidy acc _ => (step_ledger tidy action).2 acc
  · exact initial_tidy files
  · exact initial_accounted files
  · exact guarded_of_forall (fun _ _ _ => trivial) _

/-- A fetch of one byte for the peer of slot 0, whose channel fails while the byte is on its way. -/
def fetchReg : FileReg Unit where
  bodylen := 168
  cookie := 7
  role := 0
  driver := true
  peerlen := 16
  offset := 0
  length := 1
  peer := ()

def fetchFails : List (DaemonAction Unit Unit) :=
  [.accepted (), .handshakeDone 0 1024, .fileReg fetchReg (some ()) (.upTo 1), .sendStarts 7,
    .freeDest 0, .sendEnds 7, .armed 7 (.upTo 1)]

def fetchFails_end : Option (Daemon Unit Unit) :=
  fetchFails.foldlM step (initial fun _ => ⟨1, fun _ => 65⟩)

/-- The app is told twice of the end of its one registration. -/
theorem answered_twice : (fetchFails_end.map fun σ => σ.toApp) =
    some [(0, .progress 1), (0, .fileDone statusTimeout 1), (0, .fileDone statusTimeout 1)] := by
  decide +kernel

end Daemon

end Coda.Tunnel
