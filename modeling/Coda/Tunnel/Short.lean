import Coda.Tunnel.Transfer

/-!
Transfers that succeed at both ends and are not whole.

The registered length counts bytes from `SeekOffset` on. `ct_pump_send_next` compares it with offsets
from the start of the file, so that a pump with a `SeekOffset` stops early. `ct_transfer_request_arrived`
adds the two, but takes a chunk that may hold nothing for the end of the file.
-/

namespace Coda.Tunnel

open Coda.Lib List Option Transfer

/-- What the registered length needs in order to be kept: a pump starts at the beginning of the file,
or has nothing to send, or fails since its channel carries no payload; a request server has a channel
that carries some, or nothing to send. -/
def Job.Kept (j : Job) : Prop :=
  match j.driver with
  | .source => j.seek = 0 ∨ j.reglen = 0 ∨ j.maxDataPayload = 0 ∧ j.seek < j.reglen
  | .sink => 0 < j.maxDataPayload ∨ j.reglen = 0

section Stalled

variable {j : Job}

/-- A pump whose channel carries no payload fails at its first chunk. -/
structure Stalled (j : Job) (t : Transfer) : Prop where
  record : ∀ r, t.source.record = some r →
    r.role = .source ∧ r.offset = j.seek ∧ r.length = j.reglen ∧ r.isDriver = true ∧ r.pump = none
  cap : t.source.dest.maxDataPayload = 0
  told : ∀ n, .fileDone statusSuccess n ∉ t.source.told

variable {t t' : Transfer}

theorem Stalled.setSource (stalled : Stalled j t)
    (record : ∀ r, t'.source.record = some r → t.source.record = some r)
    (cap : t'.source.dest.maxDataPayload = t.source.dest.maxDataPayload)
    (told : ∀ n, .fileDone statusSuccess n ∈ t'.source.told → .fileDone statusSuccess n ∈ t.source.told) :
    Stalled j t' where
  record r hr := stalled.record r (record r hr)
  cap := cap.trans stalled.cap
  told n hn := stalled.told n (told n hn)

variable {h : Handled Unit Unit}

theorem pumpSendNext_stalled {d : Dest} (cap : d.maxDataPayload = 0) {r : Rec Unit Unit}
    {p : Pump} (left : p.off < r.length) {io : Io} {f : File}
    (run : pumpSendNext d io r f p = some h) :
    h.record = none ∧ ∀ n, .fileDone statusSuccess n ∉ h.toApp := by
  have hwant : pumpWant d r p = 0 := by rw [pumpWant]; omega
  have hfinish : ∀ status toPeer, status ≠ statusSuccess →
      (pumpFinish r f p status toPeer).record = none ∧
        ∀ n, .fileDone statusSuccess n ∉ (pumpFinish r f p status toPeer).toApp := by
    intro status toPeer failure
    refine ⟨rfl, fun n hn => ?_⟩
    obtain ⟨hstatus, -⟩ := Report.fileDone.inj (mem_singleton.mp hn)
    exact failure hstatus.symm
  unfold pumpSendNext at run
  rw [if_neg (Nat.not_le_of_lt left), hwant] at run
  cases io with
  | fail errno =>
    cases run
    exact hfinish _ _ (errnoToStatus_ne_success errno)
  | upTo count =>
    have hread : pread f 0 p.off (.upTo count) = .ok [] := by
      rw [pread, Nat.min_zero, File.read]
      rfl
    rw [hread] at run
    cases run
    exact hfinish _ _ (by decide)

theorem Stalled.sourceHandled (stalled : Stalled j t) {toSource : List Message}
    (record : ∀ r, h.record = some r → t.source.record = some r)
    (told : ∀ n, .fileDone statusSuccess n ∉ h.toApp) :
    Stalled j ({ t with toSource }.sourceDoes (t.source.handled h, h.toPeer)) := by
  apply stalled.setSource
  · exact record
  · unfold sourceDoes Endpoint.handled
    split <;> rfl
  · intro n hn
    rcases mem_append.mp hn with hn | hn
    · exact hn
    · exact absurd hn (told n)

theorem Stalled.drives (short : j.seek < j.reglen) (stalled : Stalled j t) {io : Io}
    (run : t.step (.drive .source io) = some t') : Stalled j t' := by
  obtain ⟨⟨e, out⟩, hdrives, rfl⟩ := map_eq_some_iff.mp run
  unfold Endpoint.drives at hdrives
  split at hdrives
  · cases hdrives
  next r hr =>
  obtain ⟨-, hdrives⟩ := ite_none_right_eq_some.mp hdrives
  obtain ⟨h, hdrive, hout⟩ := map_eq_some_iff.mp hdrives
  cases hout
  obtain ⟨hrole, hoffset, hlength, -, hpump⟩ := stalled.record r hr
  unfold drive at hdrive
  rw [hrole] at hdrive
  dsimp only [pumpDoStart] at hdrive
  split at hdrive
  · cases hdrive
    exact stalled.sourceHandled (fun r' h => some.inj h ▸ hr) fun n hn => by cases hn
  split at hdrive
  · cases hdrive
    refine stalled.sourceHandled (fun r' h => Rec.freeNow_eq_some h ▸ hr) fun n hn => ?_
    obtain ⟨hstatus, -⟩ := Report.fileDone.inj (mem_singleton.mp hn)
    exact absurd hstatus (by decide)
  · obtain ⟨h', hnext, rfl⟩ := map_eq_some_iff.mp hdrive
    have hleft : r.offset < r.length := by rwa [hoffset, hlength]
    obtain ⟨hnone, htold⟩ := pumpSendNext_stalled stalled.cap hleft hnext
    exact stalled.sourceHandled (fun r' h => absurd (hnone.symm.trans h) (by simp)) htold

theorem Stalled.sourceReceives (stalled : Stalled j t) {io : Io}
    (run : t.step (.sourceReceives io) = some t') : Stalled j t' := by
  rw [step] at run
  split at run
  · cases run
  next m ms hqueue =>
  obtain ⟨⟨e, out⟩, hreceive, rfl⟩ := map_eq_some_iff.mp run
  unfold Endpoint.receive at hreceive
  split at hreceive
  · obtain ⟨rfl, rfl⟩ := Prod.mk.inj (some.inj hreceive)
    apply stalled.setSource
    · intro r hr
      split at hr <;> exact hr
    · unfold sourceDoes
      split <;> rfl
    · intro n hn
      split at hn <;> exact hn
  · next r hr =>
    obtain ⟨h, harrives, hout⟩ := map_eq_some_iff.mp hreceive
    cases hout
    obtain ⟨hrole, -, -, hdriver, -⟩ := stalled.record r hr
    -- a driver source is not concerned by anything that arrives
    have hignores : ∃ drop, h = r.ignores t.source.file drop := by
      cases m with
      | ready c => exact ⟨false, (some.inj harrives).symm⟩
      | data c offset payload | eof c | error c status =>
        cases harrives
        exact ⟨true, if_pos (by rw [hrole]; decide)⟩
      | request c offset len =>
        have hserves : transferRequestArrived t.source.dest offset len io r t.source.file =
            some (r.ignores t.source.file false) := if_pos (.inr hdriver)
        exact ⟨false, some.inj (harrives.symm.trans hserves)⟩
    obtain ⟨drop, rfl⟩ := hignores
    exact stalled.sourceHandled (fun r' h => some.inj h ▸ hr) fun n hn => by cases hn

theorem step_stalled (short : j.seek < j.reglen) (stalled : Stalled j t) {action : TransferAction}
    (run : t.step action = some t') : Stalled j t' := by
  cases action with
  | drive role io =>
    cases role with
    | source => exact stalled.drives short run
    | sink =>
      obtain ⟨out, -, rfl⟩ := map_eq_some_iff.mp run
      exact { stalled with }
  | sinkReceives io =>
    rw [step] at run
    split at run
    · cases run
    · obtain ⟨out, -, rfl⟩ := map_eq_some_iff.mp run
      exact { stalled with }
  | sourceReceives io => exact stalled.sourceReceives run
  | sendStarts =>
    obtain ⟨e, hstarts, rfl⟩ := map_eq_some_iff.mp run
    obtain ⟨r', h, rfl⟩ := map_eq_some_iff.mp hstarts
    obtain ⟨r, hr, h⟩ := bind_eq_some_iff.mp h
    rw [Rec.sendStarts, (stalled.record r hr).2.2.2.2] at h
    cases h
  | sendEnds =>
    obtain ⟨e, hends, rfl⟩ := map_eq_some_iff.mp run
    obtain ⟨r', h, rfl⟩ := map_eq_some_iff.mp hends
    obtain ⟨r, hr, h⟩ := bind_eq_some_iff.mp h
    rw [Rec.sendEnds, (stalled.record r hr).2.2.2.2] at h
    cases h
  | armed io =>
    obtain ⟨out, harmed, rfl⟩ := map_eq_some_iff.mp run
    unfold Endpoint.armed at harmed
    split at harmed
    · cases harmed
    next r hr =>
    rw [(stalled.record r hr).2.2.2.2] at harmed
    cases harmed
  | unreg role =>
    cases role with
    | source =>
      cases run
      apply stalled.setSource
      · intro r' h
        obtain ⟨r, hr, h⟩ := bind_eq_some_iff.mp h
        rw [(stalled.record r hr).2.2.2.2] at h
        cases h
      · rfl
      · exact fun n hn => hn
    | sink =>
      cases run
      exact { stalled with }
  | tlsError role =>
    cases role with
    | source =>
      cases run
      exact stalled.setSource (fun r hr => hr) rfl fun n hn => hn
    | sink =>
      cases run
      exact { stalled with }
  | freeDest role =>
    cases role with
    | source =>
      cases run
      unfold Endpoint.freeDest
      split
      · exact stalled
      split
      · exact stalled.setSource (fun r hr => hr) rfl fun n hn => hn
      · next r hr =>
        apply stalled.setSource
        · intro r' h
          unfold Rec.drained at h
          rw [(stalled.record r hr).2.2.2.2] at h
          exact Rec.freeNow_eq_some h ▸ hr
        · rfl
        · exact fun n hn => success_of_mem_timeout hn
    | sink =>
      cases run
      exact { stalled with }

theorem stalled_faithful (drives : j.driver = .source) (cap : j.maxDataPayload = 0)
    (short : j.seek < j.reglen) (sinkFile : File) (actions : List TransferAction) :
    Always Transfer.step (Faithful j) (.initial j sinkFile) actions := by
  apply always_of_invariant (fun _ _ _ inv run => step_stalled short inv run)
  · exact fun t stalled n m hn => absurd hn (stalled.told n)
  · refine ⟨fun r hr => ?_, cap, fun n hn => by cases hn⟩
    cases hr
    exact ⟨rfl, rfl, rfl, decide_eq_true drives, rfl⟩

end Stalled

/-! ### Runs that succeed -/

section Succeeds

variable {j : Job}

def Reaches (t u : Transfer) : Prop :=
  ∃ actions : List TransferAction, actions.foldlM Transfer.step t = some u

theorem Reaches.refl (t : Transfer) : Reaches t t :=
  ⟨[], rfl⟩

variable {t u : Transfer} {off : Nat}

theorem Reaches.step {v : Transfer} (action : TransferAction) (run : t.step action = some u)
    (h : Reaches u v) : Reaches t v := by
  obtain ⟨actions, run'⟩ := h
  refine ⟨action :: actions, ?_⟩
  rw [foldlM_cons, run]
  exact run'

/-- Both ends tell of success, with `n` bytes. -/
def Succeeded (n : Nat) (t : Transfer) : Prop :=
  .fileDone statusSuccess n ∈ t.source.told ∧ .fileDone statusSuccess n ∈ t.sink.told

/-- The source when everything before `off` has been sent. -/
def Job.sending (j : Job) (off : Nat) (eofSent : Bool) (hook : Hook) : Rec Unit Unit :=
  { j.record .source with next := off, pump := some ⟨off, eofSent, hook⟩ }

/-- The sink when it has written everything before `off`. -/
def Job.taking (j : Job) (off : Nat) : Rec Unit Unit :=
  { j.record .sink with next := off }

/-- The pump waits for its last send to go out, and the sink has written everything before `off`. -/
structure Pumping (j : Job) (off : Nat) (eofSent : Bool) (toSink : List Message) (t : Transfer) :
    Prop where
  source : t.source.record = some (j.sending off eofSent .queued)
  sourceDest : t.source.dest = ⟨.tcpActive, j.maxDataPayload⟩
  sourceFile : t.source.file = j.file
  sink : t.sink.record = some (j.taking off)
  sinkDest : t.sink.dest = ⟨.tcpActive, j.maxDataPayload⟩
  toSink : t.toSink = toSink

def Transfer.setSource (r : Rec Unit Unit) (t : Transfer) : Transfer :=
  { t with source := { t.source with record := some r } }

/-- The last send goes out. -/
theorem Reaches.posts {eofSent : Bool}
    (source : t.source.record = some (j.sending off eofSent .queued))
    (rest : Reaches (t.setSource (j.sending off eofSent .posted)) u) : Reaches t u := by
  apply Reaches.step .sendStarts
  · rw [Transfer.step, Endpoint.sendStarts, source]
    rfl
  · exact Reaches.step .sendEnds rfl rest

theorem sink_moved (low : j.seek ≤ off) (high : off < 2 ^ 64) :
    (j.taking off).moved = off - j.seek :=
  sub64_of_le low high

/-- The end of the file goes out and arrives. -/
theorem Pumping.ends (h : Pumping j off true [.eof 1] t) (low : j.seek ≤ off)
    (high : off < 2 ^ 64) (all : j.reglen ≤ off) :
    ∃ u, Reaches t u ∧ Succeeded (off - j.seek) u := by
  obtain ⟨t₁, run₁, hsource, htold⟩ : ∃ t₁, t.step (.sinkReceives (.upTo 0)) = some t₁ ∧
      t₁.source = t.source ∧ .fileDone statusSuccess (off - j.seek) ∈ t₁.sink.told := by
    rw [step, h.toSink]
    dsimp only [Endpoint.receive]
    rw [h.sink]
    refine ⟨_, rfl, rfl, mem_append_right _ ?_⟩
    rw [← sink_moved low high]
    exact mem_singleton_self _
  have hposted : (t₁.setSource (j.sending off true .posted)).step (.armed (.upTo 0)) =
      some ((t₁.setSource (j.sending off true .posted)).sourceDoes
        (t₁.source.handled (pumpFinish (j.sending off true .posted) t₁.source.file
          ⟨off, true, .posted⟩ statusSuccess []), [])) := by
    have hactive : t₁.source.dest.active = true := by
      rw [hsource, h.sourceDest]
      rfl
    have hcb : pumpArmCb t₁.source.dest (.upTo 0) (j.sending off true .posted) t₁.source.file
        ⟨off, true, .posted⟩ = some (pumpFinish (j.sending off true .posted) t₁.source.file
          ⟨off, true, .posted⟩ statusSuccess []) := by
      rw [pumpArmCb, hactive, if_neg (by exact Bool.false_ne_true), if_pos ⟨all, rfl⟩]
    rw [step, Endpoint.armed]
    dsimp only [setSource, Job.sending] at hcb ⊢
    rw [hcb]
    rfl
  refine ⟨_, Reaches.step _ run₁ (Reaches.posts (hsource ▸ h.source)
    (Reaches.step _ hposted (Reaches.refl _))), ?_, htold⟩
  apply mem_append_right
  rw [← sink_moved low high]
  exact mem_singleton_self _

/-- The pump at the end of its length. -/
theorem pumpSendNext_eof (all : j.reglen ≤ off) (hook : Hook) (io : Io) :
    pumpSendNext ⟨.tcpActive, j.maxDataPayload⟩ io (j.sending off false hook) j.file
        ⟨off, false, hook⟩ =
      some ⟨some (j.sending off true .queued), j.file, [], [.eof 1], false⟩ := by
  rw [pumpSendNext, if_pos (by exact all)]
  rfl

/-- The pump before the end of its length. -/
theorem pumpSendNext_chunk (left : off < j.reglen) (cap : 0 < j.maxDataPayload) (hook : Hook) :
    ∃ bytes toApp, 0 < bytes.length ∧ off + bytes.length ≤ j.reglen ∧
      pumpSendNext ⟨.tcpActive, j.maxDataPayload⟩ (.upTo chunkMax) (j.sending off false hook) j.file
          ⟨off, false, hook⟩ =
        some ⟨some (j.sending (off + bytes.length) false .queued), j.file, toApp,
          [.data 1 off bytes], false⟩ := by
  have hreglen := j.reglen_le
  have hsize := j.size_lt
  have hwant : pumpWant ⟨.tcpActive, j.maxDataPayload⟩ (j.sending off false hook) ⟨off, false, hook⟩ =
      min (j.reglen - off) (min j.maxDataPayload chunkMax) := rfl
  rw [pumpSendNext, if_neg (by exact Nat.not_le_of_lt left), hwant]
  dsimp only [pread]
  have hlen := File.length_read j.file off
    (min chunkMax (min (j.reglen - off) (min j.maxDataPayload chunkMax)))
  generalize j.file.read off
    (min chunkMax (min (j.reglen - off) (min j.maxDataPayload chunkMax))) = bytes at hlen ⊢
  have hchunk : 0 < chunkMax := by decide
  cases bytes with
  | nil =>
    rw [length_nil] at hlen
    omega
  | cons b bs =>
    refine ⟨b :: bs, [.progress (sub64 (add64 off (b :: bs).length) j.seek)], Nat.zero_lt_succ _,
      by omega, ?_⟩
    have hadd : add64 off (b :: bs).length = off + (b :: bs).length := add64_of_lt (by omega)
    dsimp only
    rw [hadd]
    rfl

/-- The sink takes a chunk that follows what it has. -/
theorem sink_takes {bytes : List UInt8} (sink : t.sink.record = some (j.taking off))
    (toSink : t.toSink = [.data 1 off bytes]) (drives : j.driver = .source)
    (high : off + bytes.length < 2 ^ 64) :
    ∃ u, t.step (.sinkReceives (.upTo bytes.length)) = some u ∧ u.source = t.source ∧
      u.sink.record = some (j.taking (off + bytes.length)) ∧
      u.sink.dest = t.sink.dest ∧ u.toSink = [] := by
  have hpassive : (j.taking off).isDriver = false := decide_eq_false (by rw [drives]; decide)
  have harrives : arrives t.sink.dest (.data 1 off bytes) (.upTo bytes.length)
      (j.taking off) t.sink.file =
      some ⟨some (j.taking (off + bytes.length)),
        t.sink.file.write off (bytes.take bytes.length),
        [.progress (j.taking (off + bytes.length)).moved], [], false⟩ := by
    rw [arrives, transferDataArrived, if_neg (by exact not_not.mpr rfl),
      if_neg (by exact not_not.mpr rfl)]
    dsimp only [pwrite]
    have hasks : ¬((j.taking off).isDriver && t.sink.dest.active) = true := by
      rw [hpassive]
      exact Bool.false_ne_true
    rw [if_neg (not_not.mpr (Nat.min_self _)), add64_of_lt high, if_neg hasks]
    rfl
  rw [step, toSink]
  dsimp only [Endpoint.receive]
  rw [sink]
  dsimp only
  rw [harrives]
  exact ⟨_, rfl, rfl, rfl, rfl, rfl⟩

variable {out : Handled Unit Unit}

/-- The callback sends what `pumpSendNext` does. -/
theorem Pumping.armed (h : Pumping j off false [] t) {io : Io}
    (send : pumpSendNext ⟨.tcpActive, j.maxDataPayload⟩ io (j.sending off false .posted) j.file
      ⟨off, false, .posted⟩ = some out) :
    (t.setSource (j.sending off false .posted)).step (.armed io) =
      some (t.sourceDoes (t.source.handled out, out.toPeer)) := by
  have hcb : pumpArmCb t.source.dest io (j.sending off false .posted) t.source.file
      ⟨off, false, .posted⟩ = some out := by
    rw [pumpArmCb, h.sourceDest, h.sourceFile, if_neg (by exact Bool.false_ne_true),
      if_neg fun hall => Bool.false_ne_true hall.2, send]
  rw [step, Endpoint.armed]
  dsimp only [setSource, Job.sending] at hcb ⊢
  rw [hcb]
  rfl

/-- One chunk goes out and arrives. -/
theorem Pumping.pumps (h : Pumping j off false [] t) (drives : j.driver = .source)
    (left : off < j.reglen) (cap : 0 < j.maxDataPayload) :
    ∃ n u, 0 < n ∧ off + n ≤ j.reglen ∧ Pumping j (off + n) false [] u ∧
      ∀ v, Reaches u v → Reaches t v := by
  have hreglen := j.reglen_le
  have hsize := j.size_lt
  obtain ⟨bytes, toApp, hpos, hle, hsend⟩ := pumpSendNext_chunk left cap .posted
  have hposted := h.armed hsend
  generalize hsent : t.sourceDoes _ = sent at hposted
  have hqueue : sent.toSink = [.data 1 off bytes] := by
    rw [← hsent, sourceDoes, h.toSink, nil_append]
  obtain ⟨u, hrun, hsource, hsink, hdest, hqueue⟩ := sink_takes
    (hsent ▸ h.sink) hqueue drives (by omega)
  refine ⟨bytes.length, u, hpos, hle, ⟨?_, ?_, ?_, hsink, ?_, hqueue⟩, ?_⟩
  · rw [hsource, ← hsent]
    rfl
  · rw [hsource, ← hsent]
    exact h.sourceDest
  · rw [hsource, ← hsent]
    rfl
  · rw [hdest, ← hsent]
    exact h.sinkDest
  · exact fun v hv => Reaches.posts h.source (Reaches.step _ hposted (Reaches.step _ hrun hv))

/-- From any offset the pump comes to the end of its length. -/
theorem Pumping.completes (drives : j.driver = .source) :
    ∀ left {off : Nat} {t : Transfer}, Pumping j off false [] t → j.reglen - off = left →
      (off < j.reglen → 0 < j.maxDataPayload) → j.seek ≤ off → off < 2 ^ 63 →
      ∃ u, Reaches t u ∧ Succeeded (max off j.reglen - j.seek) u := by
  intro left
  induction left using Nat.strongRecOn with
  | ind left ih =>
    intro off t h hleft cap low high
    by_cases all : j.reglen ≤ off
    · have hended : Pumping j off true [.eof 1]
          (t.sourceDoes (t.source.handled ⟨some (j.sending off true .queued), j.file, [], [.eof 1],
            false⟩, [.eof 1])) :=
        ⟨rfl, h.sourceDest, rfl, h.sink, h.sinkDest, by
          rw [sourceDoes, h.toSink, nil_append]⟩
      obtain ⟨u, hu, hsucceeded⟩ := hended.ends low (by omega) all
      refine ⟨u, Reaches.posts h.source (Reaches.step _ (h.armed
        (pumpSendNext_eof all .posted (.upTo 0))) hu), ?_⟩
      rw [Nat.max_eq_left all]
      exact hsucceeded
    · have hlt := Nat.lt_of_not_le all
      have hstop := j.stop_lt
      unfold Job.stop at hstop
      obtain ⟨n, u, hpos, hle, hu, hreach⟩ := h.pumps drives hlt (cap hlt)
      obtain ⟨v, hv, hsucceeded⟩ := ih (j.reglen - (off + n)) (by omega) hu rfl
        (fun _ => cap hlt) (Nat.le_add_right_of_le low) (by omega)
      refine ⟨v, hreach v hv, ?_⟩
      rw [Nat.max_eq_right (Nat.le_of_lt hlt), ← Nat.max_eq_right hle]
      exact hsucceeded

/-- The pump starts with `CT_TRANSFER_READY`. -/
theorem pump_starts (drives : j.driver = .source) (sinkFile : File) {io : Io}
    (send : pumpSendNext ⟨.tcpActive, j.maxDataPayload⟩ io (j.sending j.seek false .queued) j.file
      ⟨j.seek, false, .queued⟩ = some out) :
    (Transfer.initial j sinkFile).step (.drive .source io) =
      some ((Transfer.initial j sinkFile).sourceDoes
        ((Transfer.initial j sinkFile).source.handled out, .ready 1 :: out.toPeer)) := by
  have hdriver : (j.record .source).isDriver = true := decide_eq_true drives
  have hstart : drive ⟨.tcpActive, j.maxDataPayload⟩ io (j.record .source) j.file =
      some { out with toPeer := .ready 1 :: out.toPeer } := by
    exact congrArg (Option.map fun h : Handled Unit Unit =>
      { h with toPeer := .ready 1 :: h.toPeer }) send
  have hgo : ((j.record .source).isDriver && !(j.record .source).cancel &&
      (j.record .source).pump.isNone) = true := by
    rw [hdriver]
    rfl
  rw [step, Endpoint.drives]
  dsimp only [initial, Endpoint.registered]
  rw [if_pos hgo, hstart]
  rfl

theorem ready_arrives (r : Rec Unit Unit) (rest : List Message) (sink : t.sink.record = some r)
    (toSink : t.toSink = .ready 1 :: rest) :
    ∃ u, t.step (.sinkReceives (.upTo 0)) = some u ∧ u.source = t.source ∧
      u.sink.record = some r ∧ u.sink.dest = t.sink.dest ∧ u.toSink = rest := by
  rw [step, toSink]
  dsimp only [Endpoint.receive]
  rw [sink]
  exact ⟨_, rfl, rfl, rfl, rfl, rfl⟩

/-- A pump that can send ends with success at both ends. -/
theorem pump_succeeds (drives : j.driver = .source) (cap : j.seek < j.reglen → 0 < j.maxDataPayload)
    (sinkFile : File) :
    ∃ u, Reaches (.initial j sinkFile) u ∧ Succeeded (max j.seek j.reglen - j.seek) u := by
  have hseek := j.seek_lt
  by_cases all : j.reglen ≤ j.seek
  · have hrun := pump_starts drives sinkFile (pumpSendNext_eof all .queued (.upTo 0))
    obtain ⟨t, hready, hsource, hsink, hdest, hqueue⟩ := ready_arrives (j.record .sink)
      [.eof 1] (t := (initial j sinkFile).sourceDoes
        ((initial j sinkFile).source.handled ⟨some (j.sending j.seek true .queued), j.file,
          [], [.eof 1], false⟩, [.ready 1, .eof 1])) rfl rfl
    have hended : Pumping j j.seek true [.eof 1] t :=
      ⟨by rw [hsource]; rfl, by rw [hsource]; rfl, by rw [hsource]; rfl, hsink, hdest, hqueue⟩
    obtain ⟨u, hu, hsucceeded⟩ := hended.ends (Nat.le_refl _) (by omega) all
    refine ⟨u, Reaches.step _ hrun (Reaches.step _ hready hu), ?_⟩
    rw [Nat.max_eq_left all]
    exact hsucceeded
  · have hlt := Nat.lt_of_not_le all
    have hstop := j.stop_lt
    unfold Job.stop at hstop
    obtain ⟨bytes, toApp, hpos, hle, hsend⟩ := pumpSendNext_chunk hlt (cap hlt) .queued
    have hrun := pump_starts drives sinkFile hsend
    generalize hsent : sourceDoes _ _ = sent at hrun
    obtain ⟨t, hready, hsource, hsink, hdest, hqueue⟩ := ready_arrives (j.taking j.seek)
      [.data 1 j.seek bytes] (t := sent) (by rw [← hsent]; rfl) (by rw [← hsent]; rfl)
    obtain ⟨t', htake, hsource', hsink', hdest', hqueue'⟩ :=
      sink_takes hsink hqueue drives (by omega)
    have hpumping : Pumping j (j.seek + bytes.length) false [] t' := by
      refine ⟨?_, ?_, ?_, hsink', ?_, hqueue'⟩
      · rw [hsource', hsource, ← hsent]
        rfl
      · rw [hsource', hsource, ← hsent]
        rfl
      · rw [hsource', hsource, ← hsent]
        rfl
      · rw [hdest', hdest, ← hsent]
        rfl
    obtain ⟨u, hu, hsucceeded⟩ := hpumping.completes drives _ rfl (fun _ => cap hlt)
      (Nat.le_add_right _ _) (by omega)
    refine ⟨u, Reaches.step _ hrun (Reaches.step _ hready (Reaches.step _ htake hu)), ?_⟩
    rw [Nat.max_eq_right (Nat.le_of_lt hlt), ← Nat.max_eq_right hle]
    exact hsucceeded

/-- A request over a channel that carries no payload is answered with the end of the file. -/
theorem pull_succeeds (drives : j.driver = .sink) (cap : j.maxDataPayload = 0) (sinkFile : File) :
    ∃ u, Reaches (.initial j sinkFile) u ∧ Succeeded 0 u := by
  have hseek := j.seek_lt
  have hmoved : ∀ role, (j.record role).moved = 0 := fun role =>
    (sub64_of_le (Nat.le_refl _) (by exact Nat.lt_trans hseek (by decide))).trans (Nat.sub_self _)
  have hasks : (initial j sinkFile).step (.drive .sink (.upTo 0)) =
      some { initial j sinkFile with toSource := [.request 1 j.seek chunkMax] } := by
    have hgo : ((j.record .sink).isDriver && !(j.record .sink).cancel &&
        (j.record .sink).pump.isNone) = true := by
      rw [show (j.record .sink).isDriver = true from decide_eq_true drives]
      rfl
    rw [step, Endpoint.drives]
    dsimp only [initial, Endpoint.registered]
    rw [if_pos hgo]
    rfl
  have hserved : arrives ⟨.tcpActive, j.maxDataPayload⟩ (.request 1 j.seek chunkMax) (.upTo 0)
      (j.record .source) j.file =
      some ⟨none, j.file, [.fileDone statusSuccess 0], [.eof 1], false⟩ := by
    have hpassive : ¬((j.record .source).role ≠ .source ∨ (j.record .source).isDriver = true) := by
      rw [show (j.record .source).isDriver = false from decide_eq_false (by rw [drives]; decide)]
      simp [Job.record]
    have hwant : requestWant ⟨.tcpActive, j.maxDataPayload⟩ j.seek chunkMax (j.record .source) = 0 := by
      rw [requestWant, cap, Nat.min_zero]
    rw [arrives, transferRequestArrived, if_neg hpassive, if_neg (by exact not_not.mpr rfl),
      if_pos hwant, Rec.served, if_pos (by rfl), hmoved]
    rfl
  have hanswers : { initial j sinkFile with
      toSource := [.request 1 j.seek chunkMax] }.step (.sourceReceives (.upTo 0)) =
      some ((initial j sinkFile).sourceDoes ((initial j sinkFile).source.handled
        ⟨none, j.file, [.fileDone statusSuccess 0], [.eof 1], false⟩, [.eof 1])) := by
    rw [step]
    dsimp only [Endpoint.receive, initial, Endpoint.registered]
    rw [hserved]
    rfl
  refine ⟨_, Reaches.step _ hasks (Reaches.step _ hanswers
    (Reaches.step (.sinkReceives (.upTo 0)) rfl (Reaches.refl _))), mem_singleton_self _, ?_⟩
  rw [← hmoved .sink]
  exact mem_singleton_self _

/-- What success at both ends says of the count, if every run is faithful. -/
theorem Reaches.count {n : Nat} {sinkFile : File}
    (always : ∀ actions, Always Transfer.step (Faithful j) (.initial j sinkFile) actions)
    (reaches : Reaches (.initial j sinkFile) u) (succeeded : Succeeded n u) : n = j.reglen := by
  obtain ⟨actions, run⟩ := reaches
  exact ((always actions).reached run n n succeeded.1 succeeded.2).1

end Succeeds

/-! ### The registered length -/

/-- Success at both ends means the registered length, with the bytes of the source, in every run of a
transfer, exactly when it is kept. -/
theorem registered_length_iff (j : Job) :
    (∀ sinkFile actions, Always Transfer.step (Faithful j) (.initial j sinkFile) actions) ↔
      j.Kept := by
  constructor
  · intro always
    unfold Job.Kept
    split
    · next drives =>
      by_contra hnot
      obtain ⟨u, reaches, succeeded⟩ := pump_succeeds drives (by omega) j.file
      have hcount := reaches.count (always j.file) succeeded
      omega
    · next drives =>
      by_contra hnot
      obtain ⟨u, reaches, succeeded⟩ := pull_succeeds drives (by omega) j.file
      have hcount := reaches.count (always j.file) succeeded
      omega
  · intro kept sinkFile actions
    unfold Job.Kept at kept
    split at kept
    · next drives =>
      have honest : j.seek = 0 ∨ j.reglen = 0 → Honest j := fun h =>
        ⟨fun _ => h, fun hsink => absurd (drives.symm.trans hsink) (by decide)⟩
      rcases kept with start | empty | ⟨cap, short⟩
      · exact honest_faithful (honest (.inl start)) sinkFile actions
      · exact honest_faithful (honest (.inr empty)) sinkFile actions
      · exact stalled_faithful drives cap short sinkFile actions
    · next drives =>
      have honest : Honest j :=
        ⟨fun hsource => absurd (drives.symm.trans hsource) (by decide), fun _ => kept⟩
      exact honest_faithful honest sinkFile actions

/-- A fetch of a file of four bytes from the second on. -/
def jobFetch : Job where
  file := ⟨4, fun i => UInt8.ofNat (i + 65)⟩
  size_lt := by decide
  seek := 1
  seek_lt := by decide
  byteQuota := -1
  maxDataPayload := 1024
  driver := .source

def runFetch : List TransferAction :=
  [.drive .source (.upTo 4), .sinkReceives (.upTo 0), .sinkReceives (.upTo 4), .sendStarts, .sendEnds,
    .armed (.upTo 4), .sinkReceives (.upTo 0), .sendStarts, .sendEnds, .armed (.upTo 4)]

/-- Three bytes are registered; both ends report two and success, and the last byte of the file is
missing at the sink. -/
theorem fetch_short : jobFetch.reglen = 3 ∧
    ∃ t, runFetch.foldlM Transfer.step (.initial jobFetch ⟨0, fun _ => 0⟩) = some t ∧
      .fileDone statusSuccess 2 ∈ t.source.told ∧ .fileDone statusSuccess 2 ∈ t.sink.told ∧
      t.sink.file.size = 3 := by
  refine ⟨by decide, _, rfl, ?_, ?_, ?_⟩ <;> decide +kernel

end Coda.Tunnel
