import Coda.Tunnel.Daemon

/-!
The table of registrations and what the app is told of them.

A handler is fair to a record when it keeps the record and tells the app of no end, or releases the
record and tells of one. All handlers are, for the records they can meet, but `ct_fail_one`: it tells
the app of the end of a record that a pump still holds, and keeps the record.
-/

namespace Coda.Tunnel

open List

variable {A F : Type*}

/-! ### Fair handlers -/

/-- What no handler changes. -/
structure Rec.Same (r r' : Rec A F) : Prop where
  cookie : r'.cookie = r.cookie
  serial : r'.serial = r.serial
  peer : r'.peer = r.peer
  role : r'.role = r.role
  isDriver : r'.isDriver = r.isDriver

theorem Rec.Same.refl (r : Rec A F) : r.Same r :=
  ⟨rfl, rfl, rfl, rfl, rfl⟩

/-- Only a source that drives has a pump. -/
def Rec.Pumped (r : Rec A F) : Prop :=
  r.pump.isSome → r.role = .source ∧ r.isDriver = true

variable {r : Rec A F}

theorem Rec.Pumped.of_none (h : r.pump = none) : r.Pumped := by
  intro hsome
  rw [h] at hsome
  cases hsome

theorem Rec.freeNow_of_none (h : r.pump = none) : r.freeNow = none := by
  rw [freeNow, h]
  rfl

/-- The record stays and the app is told of no end, or it goes and the app is told of one. -/
structure Fair (r : Rec A F) (h : Handled A F) : Prop where
  same : ∀ r', h.record = some r' → r.Same r'
  pumped : ∀ r', h.record = some r' → r'.Pumped
  told : h.toApp.countP Report.isDone = if h.record.isSome then 0 else 1

theorem fair_ends {h : Handled A F} (record : h.record = none)
    (told : h.toApp.countP Report.isDone = 1) : Fair r h where
  same r' hr' := by rw [record] at hr'; cases hr'
  pumped r' hr' := by rw [record] at hr'; cases hr'
  told := by rw [told, record]; rfl

theorem fair_goes {r' : Rec A F} {h : Handled A F} (record : h.record = some r')
    (same : r.Same r') (pumped : r'.Pumped) (told : h.toApp.countP Report.isDone = 0) :
    Fair r h where
  same _ hr := Option.some.inj (record.symm.trans hr) ▸ same
  pumped _ hr := Option.some.inj (record.symm.trans hr) ▸ pumped
  told := by rw [told, record]; rfl

theorem fair_ignores (pumped : r.Pumped) (f : File) (drop : Bool) : Fair r (r.ignores f drop) :=
  fair_goes rfl (Rec.Same.refl r) pumped rfl

section Handlers

variable {d : Dest} {io : Io} {r : Rec A F} {f : File} {h : Handled A F}

theorem fair_fails (idle : r.pump = none) (status : BitVec 32) (drop : Bool) :
    Fair r (r.fails d f status drop) :=
  fair_ends (Rec.freeNow_of_none idle) rfl

theorem idle_of_sink (pumped : r.Pumped) (sink : r.role = .sink) : r.pump = none := by
  cases hpump : r.pump with
  | none => rfl
  | some p =>
    have hsource := (pumped (by rw [hpump]; rfl)).1
    rw [sink] at hsource
    cases hsource

theorem idle_of_passive (pumped : r.Pumped) (passive : r.isDriver = false) : r.pump = none := by
  cases hpump : r.pump with
  | none => rfl
  | some p =>
    have hdriver := (pumped (by rw [hpump]; rfl)).2
    rw [passive] at hdriver
    cases hdriver

theorem transferDataArrived_fair (pumped : r.Pumped) (offset : Nat) (payload : List UInt8) :
    Fair r (transferDataArrived d offset payload io r f) := by
  unfold transferDataArrived
  split
  · exact fair_ignores pumped f true
  next hrole =>
  have idle := idle_of_sink pumped (not_not.mp hrole)
  split
  · exact fair_fails idle _ _
  split
  · exact fair_fails idle _ _
  split
  · exact fair_fails idle _ _
  exact fair_goes rfl ⟨rfl, rfl, rfl, rfl, rfl⟩ (.of_none idle) rfl

theorem transferFinishArrived_fair (pumped : r.Pumped) (status : BitVec 32) :
    Fair r (transferFinishArrived status r f) := by
  unfold transferFinishArrived
  split
  · exact fair_ignores pumped f true
  next hrole =>
  exact fair_ends (Rec.freeNow_of_none (idle_of_sink pumped (not_not.mp hrole))) rfl

theorem served_fair {toApp : List Report} {toPeer : List Message} {r' : Rec A F}
    (idle : r'.pump = none) (told : toApp.countP Report.isDone = 0)
    (run : r'.served d f toApp toPeer = some h) : Fair r h := by
  unfold Rec.served at run
  split at run
  · cases run
    apply fair_ends (Rec.freeNow_of_none idle)
    rw [countP_append, told]
    rfl
  · cases run

theorem transferRequestArrived_fair (pumped : r.Pumped) {offset len : Nat}
    (run : transferRequestArrived d offset len io r f = some h) : Fair r h := by
  unfold transferRequestArrived at run
  split at run
  · cases run
    exact fair_ignores pumped f false
  next hpassive =>
  have idle := idle_of_passive pumped (Bool.eq_false_iff.mpr fun hd => hpassive (.inr hd))
  split at run
  · cases run
    exact fair_fails idle _ _
  split at run
  · exact served_fair idle rfl run
  split at run
  · cases run
    exact fair_fails idle _ _
  · cases run
    exact fair_fails idle _ _
  dsimp only at run
  split at run
  · cases run
  split at run
  · exact served_fair (by exact idle) rfl run
  · cases run
    exact fair_goes rfl ⟨rfl, rfl, rfl, rfl, rfl⟩ (.of_none idle) rfl

theorem arrives_fair (pumped : r.Pumped) {m : Message} (run : arrives d m io r f = some h) :
    Fair r h := by
  cases m with
  | ready cookie =>
    cases run
    exact fair_ignores pumped f false
  | data cookie offset payload =>
    cases run
    exact transferDataArrived_fair pumped offset payload
  | eof cookie | error cookie status =>
    cases run
    exact transferFinishArrived_fair pumped _
  | request cookie offset len => exact transferRequestArrived_fair pumped run

theorem pumpFinish_fair (p : Pump) (status : BitVec 32) (toPeer : List Message) :
    Fair r (pumpFinish r f p status toPeer) :=
  fair_ends rfl rfl

theorem pumpSendNext_fair (source : r.role = .source) (driver : r.isDriver = true) {p : Pump}
    (run : pumpSendNext d io r f p = some h) : Fair r h := by
  unfold pumpSendNext at run
  split at run
  · split at run
    · cases run
      exact fair_ignores (fun _ => ⟨source, driver⟩) f false
    split at run
    · cases run
    · cases run
      exact fair_goes rfl ⟨rfl, rfl, rfl, rfl, rfl⟩ (fun _ => ⟨source, driver⟩) rfl
  split at run
  · cases run
    exact pumpFinish_fair _ _ _
  · cases run
    exact pumpFinish_fair _ _ _
  split at run
  · cases run
  · cases run
    exact fair_goes rfl ⟨rfl, rfl, rfl, rfl, rfl⟩ (fun _ => ⟨source, driver⟩) rfl

theorem pumpArmCb_fair (source : r.role = .source) (driver : r.isDriver = true) {p : Pump}
    (run : pumpArmCb d io r f p = some h) : Fair r h := by
  unfold pumpArmCb at run
  split at run
  · cases run
    exact pumpFinish_fair _ _ _
  split at run
  · cases run
    exact pumpFinish_fair _ _ _
  · exact pumpSendNext_fair source driver run

theorem pumpDoStart_fair (pumped : r.Pumped) (driver : r.isDriver = true)
    (run : pumpDoStart d io r f = some h) : Fair r h := by
  unfold pumpDoStart at run
  split at run
  · cases run
    exact fair_ignores pumped f false
  next hstart =>
  push Not at hstart
  have idle : r.pump = none := Option.not_isSome_iff_eq_none.mp hstart.2
  split at run
  · cases run
    exact fair_ends (Rec.freeNow_of_none idle) rfl
  obtain ⟨h', run', rfl⟩ := Option.map_eq_some_iff.mp run
  have hfair := pumpSendNext_fair (by exact hstart.1) (by exact driver) run'
  exact ⟨fun r' hr' => { hfair.same r' hr' with }, hfair.pumped, hfair.told⟩

theorem drive_fair (pumped : r.Pumped) (driver : r.isDriver = true)
    (run : Tunnel.drive d io r f = some h) : Fair r h := by
  unfold Tunnel.drive at run
  split at run
  · exact pumpDoStart_fair pumped driver run
  split at run
  · cases run
    exact fair_goes rfl (Rec.Same.refl r) pumped rfl
  · cases run

end Handlers

/-! ### The sends of a pump -/

theorem Rec.sendStarts_setHook (r r' : Rec A F) (h : r.sendStarts = some r') :
    ∃ p hook, r.pump = some p ∧ r' = r.setHook p hook := by
  unfold sendStarts at h
  split at h
  · next p hpump =>
    split at h
    · exact ⟨p, _, hpump, (Option.some.inj h).symm⟩
    · cases h
  · cases h

theorem Rec.sendEnds_setHook (r r' : Rec A F) (h : r.sendEnds = some r') :
    ∃ p hook, r.pump = some p ∧ r' = r.setHook p hook := by
  unfold sendEnds at h
  split at h
  · next p hpump =>
    split at h
    · exact ⟨p, _, hpump, (Option.some.inj h).symm⟩
    · cases h
  · cases h

theorem Rec.drained_same (r : Rec A F) : r.Same r.drained := by
  unfold drained
  split
  · split
    · exact ⟨rfl, rfl, rfl, rfl, rfl⟩
    · exact .refl r
  · exact .refl r

theorem Rec.drained_isSome (r : Rec A F) : r.drained.pump.isSome = r.pump.isSome := by
  unfold drained
  split
  · next hpump =>
    split
    · rw [hpump]
      rfl
    · rfl
  · rfl

theorem Rec.Pumped.drained (pumped : r.Pumped) : r.drained.Pumped := by
  intro hsome
  rw [Rec.drained_isSome] at hsome
  have hsame := r.drained_same
  rw [hsame.role, hsame.isDriver]
  exact pumped hsome

/-- The record after a `CT_FILEUNREG`, if a pump holds it. -/
theorem Rec.Pumped.cancelled {r' : Rec A F} (pumped : r.Pumped)
    (h : (if r.pump.isSome then some { r with cancel := true } else none) = some r') :
    r.Same r' ∧ r'.Pumped := by
  split at h
  · cases h
    exact ⟨⟨rfl, rfl, rfl, rfl, rfl⟩, pumped⟩
  · cases h

/-- The entry after `drain_outbound_queues`. -/
theorem drain_same (slot : Nat) (e : Entry A F) :
    e.toRec.Same (if e.slot = slot then { e with toRec := e.toRec.drained } else e).toRec := by
  split
  · exact e.toRec.drained_same
  · exact .refl _

theorem drain_isSome (slot : Nat) (e : Entry A F) :
    (if e.slot = slot then { e with toRec := e.toRec.drained } else e).pump.isSome =
      e.pump.isSome := by
  split
  · exact e.toRec.drained_isSome
  · rfl

theorem drain_pumped (slot : Nat) {e : Entry A F} (pumped : e.toRec.Pumped) :
    (if e.slot = slot then { e with toRec := e.toRec.drained } else e).toRec.Pumped := by
  split
  · exact pumped.drained
  · exact pumped

/-! ### The ledger -/

namespace Ledger

/-- How often the app was told of the end of a registration. -/
def answers (l : Ledger A F) (serial : Nat) : Nat :=
  l.toApp.countP fun x => x.1 = serial ∧ x.2.isDone

variable {l l' : Ledger A F} {e e' : Entry A F} {record : Option (Rec A F)}

theorem waiter_mem {cookie : Nat} (h : l.waiter cookie = some e) :
    e ∈ l.table ∧ e.cookie = cookie :=
  ⟨mem_of_find?_eq_some h, of_decide_eq_true (List.find?_some (p := fun e : Entry A F =>
    decide (e.cookie = cookie)) h)⟩

theorem waiter_none {cookie : Nat} (h : l.waiter cookie = none) (mem : e ∈ l.table) :
    e.cookie ≠ cookie := by
  intro heq
  exact List.find?_eq_none.mp h e mem (decide_eq_true heq)

theorem countP_tag (serial s : Nat) (reports : List Report) :
    (reports.map fun report => (s, report)).countP (fun x => x.1 = serial ∧ x.2.isDone) =
      if s = serial then reports.countP Report.isDone else 0 := by
  rw [countP_map]
  split
  · next heq =>
    apply countP_congr
    simp [heq]
  · next hne =>
    apply countP_eq_zero.mpr
    simp [hne]

theorem answers_tell (l : Ledger A F) (s : Nat) (reports : List Report) (serial : Nat) :
    (l.tell s reports).answers serial =
      l.answers serial + if s = serial then reports.countP Report.isDone else 0 := by
  rw [answers, tell, countP_append, countP_tag]
  rfl

@[simp] theorem settle_toApp : (l.settle e record).toApp = l.toApp := by
  cases record <;> rfl

@[simp] theorem settle_serials : (l.settle e record).serials = l.serials := by
  cases record <;> rfl

@[simp] theorem settle_asked : (l.settle e record).asked = l.asked := by
  cases record <;> rfl

@[simp] theorem settle_unregistered : (l.settle e record).unregistered = l.unregistered := by
  cases record <;> rfl

@[simp] theorem settle_orphans : (l.settle e record).orphans = l.orphans := by
  cases record <;> rfl

/-- What is in the table after an entry was settled. -/
theorem mem_settle (same : ∀ r, record = some r → e.toRec.Same r)
    (h : e' ∈ (l.settle e record).table) :
    (e' ∈ l.table ∧ e'.cookie ≠ e.cookie) ∨
      ∃ r, record = some r ∧ e' = { e with toRec := r } := by
  cases record with
  | none =>
    obtain ⟨mem, hne⟩ := mem_filter.mp h
    exact .inl ⟨mem, of_decide_eq_true hne⟩
  | some r =>
    obtain ⟨e₀, mem, rfl⟩ := mem_map.mp h
    split
    · exact .inr ⟨r, rfl, rfl⟩
    · next hne => exact .inl ⟨mem, fun heq => hne (heq.trans (same r rfl).cookie.symm)⟩

theorem mem_settle_of_ne (same : ∀ r, record = some r → e.toRec.Same r) (mem : e' ∈ l.table)
    (hne : e'.cookie ≠ e.cookie) : e' ∈ (l.settle e record).table := by
  cases record with
  | none => exact mem_filter.mpr ⟨mem, decide_eq_true hne⟩
  | some r =>
    refine mem_map.mpr ⟨e', mem, if_neg fun heq => hne ?_⟩
    exact heq.trans (same r rfl).cookie

theorem mem_settle_self (same : e.toRec.Same r) (mem : e' ∈ l.table)
    (heq : e'.cookie = e.cookie) : { e with toRec := r } ∈ (l.settle e (some r)).table :=
  mem_map.mpr ⟨e', mem, if_pos (heq.trans same.cookie.symm)⟩

/-- Serial numbers and cookies tell the registrations apart, and every registration whose channel was
freed was answered. -/
structure Tidy (l : Ledger A F) : Prop where
  cookies : (l.table.map fun e => e.cookie).Nodup
  serials : (l.table.map fun e => e.serial).Nodup
  fresh : ∀ e ∈ l.table, e.serial < l.serials
  pumped : ∀ e ∈ l.table, e.toRec.Pumped
  told : ∀ x ∈ l.toApp, x.1 < l.serials
  unregistered : ∀ s ∈ l.unregistered, s < l.serials
  orphans : ∀ s ∈ l.orphans, 0 < l.answers s

theorem Tidy.unique (tidy : l.Tidy) (mem : e ∈ l.table) (mem' : e' ∈ l.table)
    (h : e.cookie = e'.cookie) : e = e' :=
  inj_on_of_nodup_map tidy.cookies mem mem' h

theorem Tidy.serial_ne (tidy : l.Tidy) (mem : e ∈ l.table) (mem' : e' ∈ l.table)
    (h : e.cookie ≠ e'.cookie) : e.serial ≠ e'.serial := by
  intro heq
  have := inj_on_of_nodup_map tidy.serials mem mem' heq
  exact h (congrArg (fun e : Entry A F => e.cookie) this)

/-- Settling an entry keeps the serials of the table, or drops one. -/
theorem Tidy.settle (tidy : l.Tidy) {e₀ : Entry A F} (mem : e₀ ∈ l.table)
    (hrec : e.toRec = e₀.toRec) (same : ∀ r, record = some r → e.toRec.Same r)
    (pumped : ∀ r, record = some r → r.Pumped) : (l.settle e record).Tidy := by
  have hkeys : ∀ key : Entry A F → Nat,
      (∀ r, record = some r → key { e with toRec := r } = key e₀) → (l.table.map key).Nodup →
      ((l.settle e record).table.map key).Nodup := by
    intro key hkey hnodup
    cases record with
    | none => exact hnodup.sublist (filter_sublist.map key)
    | some r =>
      have hmap : (l.settle e (some r)).table.map key = l.table.map key := by
        rw [Ledger.settle, replace, map_map]
        apply map_congr_left
        intro e' mem'
        rw [Function.comp_apply]
        split
        · next heq =>
          have hcookie : e'.cookie = e₀.cookie := by
            rw [← hrec]
            exact heq.trans (same r rfl).cookie
          rw [hkey r rfl, tidy.unique mem' mem hcookie]
        · rfl
      rw [hmap]
      exact hnodup
  constructor
  · apply hkeys _ _ tidy.cookies
    intro r hr
    rw [← hrec]
    exact (same r hr).cookie
  · apply hkeys _ _ tidy.serials
    intro r hr
    rw [← hrec]
    exact (same r hr).serial
  · intro e' mem'
    rw [settle_serials]
    rcases mem_settle same mem' with ⟨hold, -⟩ | ⟨r, hr, rfl⟩
    · exact tidy.fresh e' hold
    · dsimp only
      rw [(same r hr).serial, hrec]
      exact tidy.fresh e₀ mem
  · intro e' mem'
    rcases mem_settle same mem' with ⟨hold, -⟩ | ⟨r, hr, rfl⟩
    · exact tidy.pumped e' hold
    · exact pumped r hr
  · rw [settle_toApp, settle_serials]
    exact tidy.told
  · rw [settle_unregistered, settle_serials]
    exact tidy.unregistered
  · rw [settle_orphans]
    intro s hs
    rw [answers, settle_toApp]
    exact tidy.orphans s hs

theorem Tidy.tell (tidy : l.Tidy) {s : Nat} (hs : s < l.serials) (reports : List Report) :
    (l.tell s reports).Tidy := by
  refine { tidy with
    told := forall_mem_append.mpr ⟨tidy.told, forall_mem_map.mpr fun _ _ => hs⟩
    orphans := fun s' hs' => ?_ }
  rw [answers_tell]
  exact Nat.lt_of_lt_of_le (tidy.orphans s' hs') (Nat.le_add_right _ _)

/-- The app is told once of the end of a registration, in the step in which the record leaves the
table; a record leaves without that only for a `CT_FILEUNREG`; and a record whose channel was freed
stays only until a callback that is pending. -/
structure Accounted (l : Ledger A F) : Prop where
  once : ∀ serial, l.answers serial ≤ 1
  stays : ∀ serial ∈ l.asked, l.answers serial = 0 →
    serial ∈ l.unregistered ∨ ∃ e ∈ l.table, e.serial = serial
  leaves : ∀ e ∈ l.table, l.answers e.serial = 0
  orphaned : ∀ e ∈ l.table, e.serial ∈ l.orphans →
    ∃ p, e.pump = some p ∧ (p.hook = .running ∨ p.hook = .posted)

theorem Tidy.accounted (tidy : l.Tidy) (once : ∀ serial, l.answers serial ≤ 1)
    (stays : ∀ serial ∈ l.asked, l.answers serial = 0 →
      serial ∈ l.unregistered ∨ ∃ e ∈ l.table, e.serial = serial)
    (leaves : ∀ e ∈ l.table, l.answers e.serial = 0) : l.Accounted where
  once := once
  stays := stays
  leaves := leaves
  orphaned e mem orphan := by
    have := tidy.orphans _ orphan
    rw [leaves e mem] at this
    cases this

/-- One entry is handled, fairly. -/
inductive Step (l : Ledger A F) : Ledger A F → Prop where
  | handled {e₀ e : Entry A F} (mem : e₀ ∈ l.table) (same : e.toRec = e₀.toRec) {h : Handled A F}
      (fair : Fair e.toRec h) : Step l ((l.settle e h.record).tell e.serial h.toApp)

theorem Step.tidy (step : l.Step l') (tidy : l.Tidy) : l'.Tidy := by
  cases step with
  | handled mem hrec fair =>
    apply (tidy.settle mem hrec fair.same fair.pumped).tell
    rw [settle_serials, hrec]
    exact tidy.fresh _ mem

theorem Step.accounted (step : l.Step l') (tidy : l.Tidy) (acc : l.Accounted) : l'.Accounted := by
  have tidy' := step.tidy tidy
  cases step with
  | @handled e₀ e mem hrec h fair =>
    have hanswers : ∀ serial, ((l.settle e h.record).tell e.serial h.toApp).answers serial =
        l.answers serial + if e.serial = serial then if h.record.isSome then 0 else 1 else 0 := by
      intro serial
      rw [answers_tell, fair.told, answers, settle_toApp, ← answers]
    have hserial : e.serial = e₀.serial := by rw [hrec]
    have hcookie : e.cookie = e₀.cookie := by rw [hrec]
    have hopen : l.answers e.serial = 0 := by rw [hserial]; exact acc.leaves e₀ mem
    apply tidy'.accounted
    · intro serial
      rw [hanswers]
      have honce := acc.once serial
      split
      · next heq =>
        rw [← heq]
        split <;> omega
      · exact honce
    · intro serial hasked hzero
      rw [hanswers] at hzero
      have hasked' : serial ∈ l.asked := by simpa only [tell, settle_asked] using hasked
      rcases acc.stays serial hasked' (by omega) with hun | ⟨e', mem', hserial'⟩
      · left
        simpa only [tell, settle_unregistered] using hun
      right
      by_cases heq : e'.cookie = e.cookie
      · have he' := tidy.unique mem' mem (heq.trans hcookie)
        cases hr : h.record with
        | none =>
          rw [hr, if_pos (hserial.trans ((congrArg (fun e => e.serial) he').symm.trans hserial'))]
            at hzero
          exact absurd hzero (by simp)
        | some r =>
          refine ⟨{ e with toRec := r }, mem_settle_self (fair.same r hr) mem' heq, ?_⟩
          rw [(fair.same r hr).serial, hserial, ← he', hserial']
      · exact ⟨e', mem_settle_of_ne fair.same mem' heq, hserial'⟩
    · intro e' mem'
      rw [hanswers]
      rcases mem_settle fair.same mem' with ⟨hold, hne⟩ | ⟨r, hr, rfl⟩
      · have := tidy.serial_ne mem hold (by rw [← hcookie]; exact fun h => hne h.symm)
        rw [acc.leaves e' hold, if_neg (by rw [hserial]; exact this)]
      · dsimp only
        rw [(fair.same r hr).serial, hopen, if_pos rfl, hr]
        rfl

/-- Entries are handled, fairly, one after the other. -/
def Steps : Ledger A F → Ledger A F → Prop :=
  Relation.ReflTransGen Step

theorem Steps.tidy (steps : Steps l l') (tidy : l.Tidy) : l'.Tidy := by
  induction steps with
  | refl => exact tidy
  | tail _ step ih => exact step.tidy ih

theorem Steps.accounted (steps : Steps l l') (tidy : l.Tidy) (acc : l.Accounted) :
    l'.Accounted := by
  induction steps with
  | refl => exact acc
  | tail steps step ih => exact step.accounted (Steps.tidy steps tidy) ih

/-! ### New registrations, and those taken back -/

theorem Tidy.answers_fresh (tidy : l.Tidy) : l.answers l.serials = 0 := by
  apply countP_eq_zero.mpr
  intro x hx hdone
  exact absurd (tidy.told x hx) (by rw [(of_decide_eq_true hdone).1]; exact Nat.lt_irrefl _)

/-- The serials that asked, after a well-formed `CT_FILEREG`. -/
def askedAfter (reg : FileReg A) (l : Ledger A F) : List Nat :=
  if (l.waiter reg.cookie).isNone then l.asked ++ [l.serials] else l.asked

theorem mem_askedAfter {reg : FileReg A} : ∀ s ∈ askedAfter reg l, s ∈ l.asked ∨ s = l.serials := by
  intro s hs
  unfold askedAfter at hs
  split at hs
  · rcases mem_append.mp hs with hs | hs
    · exact .inl hs
    · exact .inr (mem_singleton.mp hs)
  · exact .inl hs

/-- A serial number is given out. -/
theorem Tidy.next (tidy : l.Tidy) (asked : List Nat) :
    { l with serials := l.serials + 1, asked := asked }.Tidy where
  __ := tidy
  fresh e mem := Nat.lt_succ_of_lt (tidy.fresh e mem)
  told x hx := Nat.lt_succ_of_lt (tidy.told x hx)
  unregistered s hs := Nat.lt_succ_of_lt (tidy.unregistered s hs)

theorem Accounted.next (acc : l.Accounted) :
    { l with serials := l.serials + 1, asked := l.asked }.Accounted := { acc with }

section

variable (tidy : l.Tidy)
include tidy

/-- The new registration is refused with its answer. -/
theorem Accounted.refused (acc : l.Accounted) {asked : List Nat}
    (hasked : ∀ s ∈ asked, s ∈ l.asked ∨ s = l.serials) (status : BitVec 32) :
    (Ledger.tell l.serials [.fileDone status 0]
      { l with serials := l.serials + 1, asked := asked }).Accounted := by
  have tidy' := (tidy.next asked).tell (Nat.lt_succ_self _) [.fileDone status 0]
  have hanswers : ∀ serial, (Ledger.tell l.serials [.fileDone status 0]
      { l with serials := l.serials + 1, asked := asked }).answers serial =
        l.answers serial + if l.serials = serial then 1 else 0 := fun serial => answers_tell _ _ _ _
  apply tidy'.accounted
  · intro serial
    rw [hanswers]
    split
    · next heq =>
      rewrite [← heq, tidy.answers_fresh]
      exact Nat.le_refl _
    · exact acc.once serial
  · intro serial hserial hzero
    rw [hanswers] at hzero
    rcases hasked serial hserial with hold | rfl
    · exact acc.stays serial hold (by omega)
    · rw [if_pos rfl] at hzero
      omega
  · intro e mem
    rw [hanswers, acc.leaves e mem, if_neg (Nat.ne_of_gt (tidy.fresh e mem))]

/-- The new registration is entered. -/
theorem Tidy.entered (asked : List Nat) (free : l.waiter e.cookie = none)
    (hserial : e.serial = l.serials) (idle : e.pump = none) :
    { l with serials := l.serials + 1, asked := asked, table := l.table ++ [e] }.Tidy where
  __ := tidy.next asked
  cookies := by
    rw [map_append]
    refine tidy.cookies.append (nodup_singleton _) ?_
    intro cookie hold hnew
    obtain ⟨e', mem, rfl⟩ := mem_map.mp hold
    exact waiter_none free mem (mem_singleton.mp hnew)
  serials := by
    rw [map_append]
    refine tidy.serials.append (nodup_singleton _) ?_
    intro serial hold hnew
    obtain ⟨e', mem, rfl⟩ := mem_map.mp hold
    have hlt := tidy.fresh e' mem
    rw [← hserial] at hlt
    exact absurd (mem_singleton.mp hnew) (Nat.ne_of_lt hlt)
  fresh := forall_mem_append.mpr ⟨(tidy.next asked).fresh,
    forall_mem_singleton.mpr (hserial ▸ Nat.lt_succ_self _)⟩
  pumped := forall_mem_append.mpr ⟨tidy.pumped, forall_mem_singleton.mpr (.of_none idle)⟩

theorem Accounted.entered (acc : l.Accounted) {asked : List Nat}
    (hasked : ∀ s ∈ asked, s ∈ l.asked ∨ s = l.serials) (free : l.waiter e.cookie = none)
    (hserial : e.serial = l.serials) (idle : e.pump = none) :
    { l with serials := l.serials + 1, asked := asked, table := l.table ++ [e] }.Accounted := by
  apply (tidy.entered asked free hserial idle).accounted acc.once
  · intro serial hs hzero
    rcases hasked serial hs with hold | rfl
    · rcases acc.stays serial hold hzero with hun | ⟨e', mem, heq⟩
      · exact .inl hun
      · exact .inr ⟨e', mem_append_left _ mem, heq⟩
    · exact .inr ⟨e, mem_append_right _ (mem_singleton_self e), hserial⟩
  · refine forall_mem_append.mpr ⟨acc.leaves, forall_mem_singleton.mpr ?_⟩
    rw [hserial]
    exact tidy.answers_fresh

/-- The app takes a registration back. -/
theorem Tidy.unregister (mem : e ∈ l.table) (same : ∀ r, record = some r → e.toRec.Same r)
    (pumped : ∀ r, record = some r → r.Pumped) :
    (Ledger.settle e record { l with unregistered := l.unregistered ++ [e.serial] }).Tidy := by
  have tidy' : { l with unregistered := l.unregistered ++ [e.serial] }.Tidy :=
    { tidy with
      unregistered := forall_mem_append.mpr
        ⟨tidy.unregistered, forall_mem_singleton.mpr (tidy.fresh e mem)⟩ }
  exact tidy'.settle mem rfl same pumped

theorem Accounted.unregister (acc : l.Accounted) (mem : e ∈ l.table)
    (same : ∀ r, record = some r → e.toRec.Same r) (pumped : ∀ r, record = some r → r.Pumped) :
    (Ledger.settle e record { l with unregistered := l.unregistered ++ [e.serial] }).Accounted := by
  have hanswers : ∀ serial, (Ledger.settle e record
      { l with unregistered := l.unregistered ++ [e.serial] }).answers serial = l.answers serial := by
    intro serial
    rw [answers, settle_toApp, answers]
  apply (tidy.unregister mem same pumped).accounted
  · intro serial
    rw [hanswers]
    exact acc.once serial
  · intro serial hasked hzero
    rw [hanswers] at hzero
    rw [settle_asked] at hasked
    rw [settle_unregistered]
    rcases acc.stays serial hasked hzero with hun | ⟨e', mem', rfl⟩
    · exact .inl (mem_append_left _ hun)
    · by_cases heq : e'.cookie = e.cookie
      · rw [tidy.unique mem' mem heq]
        exact .inl (mem_append_right _ (mem_singleton_self _))
      · exact .inr ⟨e', mem_settle_of_ne same mem' heq, rfl⟩
  · intro e' mem'
    rw [hanswers]
    rcases mem_settle same mem' with ⟨hold, -⟩ | ⟨r, hr, rfl⟩
    · exact acc.leaves e' hold
    · dsimp only
      rw [(same r hr).serial]
      exact acc.leaves e mem

end

variable {f : Entry A F → Entry A F}

/-- Every entry is changed in what no other entry depends on. -/
theorem Tidy.remap (tidy : l.Tidy) (same : ∀ e ∈ l.table, e.toRec.Same (f e).toRec)
    (pumped : ∀ e ∈ l.table, (f e).toRec.Pumped) :
    { l with table := l.table.map f }.Tidy where
  __ := tidy
  cookies := by
    rw [map_map]
    exact map_congr_left (fun e mem => (same e mem).cookie) ▸ tidy.cookies
  serials := by
    rw [map_map]
    exact map_congr_left (fun e mem => (same e mem).serial) ▸ tidy.serials
  fresh := forall_mem_map.mpr fun e mem => by
    rw [(same e mem).serial]
    exact tidy.fresh e mem
  pumped := forall_mem_map.mpr pumped

theorem Accounted.remap (tidy : l.Tidy) (acc : l.Accounted)
    (same : ∀ e ∈ l.table, e.toRec.Same (f e).toRec) (pumped : ∀ e ∈ l.table, (f e).toRec.Pumped) :
    { l with table := l.table.map f }.Accounted := by
  apply (tidy.remap same pumped).accounted acc.once
  · intro serial hasked hzero
    rcases acc.stays serial hasked hzero with hun | ⟨e, mem, rfl⟩
    · exact .inl hun
    · exact .inr ⟨f e, mem_map_of_mem mem, (same e mem).serial⟩
  · refine forall_mem_map.mpr fun e mem => ?_
    rw [(same e mem).serial]
    exact acc.leaves e mem

end Ledger

end Coda.Tunnel
