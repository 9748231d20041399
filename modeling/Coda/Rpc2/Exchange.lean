import Coda.Rpc2.Connection

/-!
Why the numbers of a connection tell its calls apart.

The client's number only grows, and it grows between two calls that are made on an idle connection,
so the `i`-th call has a number of its own. A client thread can advance the number twice for one call
(the reply has come, and then its time is found to be over), so that the ends no longer agree; the
server then answers nothing, but what it has answered is still told apart.
-/

namespace Coda.Rpc2

open Coda.Lib List Option Function Connection Client

theorem eq_of_step {a b : Connection} {s s' : Bool} (run : some (a, s) = some (b, s')) : a = b :=
  (Prod.mk.inj (some.inj run)).1

theorem eq_of_map_step {o : Option Connection} {k : Connection} {s s' : Bool}
    (run : (o.map fun k => (k, s)) = some (k, s')) : o = some k := by
  obtain ⟨k₁, run₁, heq⟩ := map_eq_some_iff.mp run
  rw [run₁, (Prod.mk.inj heq).1]

/-- The sequence number after `i` advances. -/
def number (start : BitVec 32) (i : Nat) : BitVec 32 :=
  start + BitVec.ofNat 32 (2 * i)

theorem number_zero (start : BitVec 32) : number start 0 = start := by
  simp [number]

theorem incrementSeqNumber_number (start : BitVec 32) (i : Nat) :
    incrementSeqNumber (number start i) = number start (i + 1) := by
  rw [incrementSeqNumber, number, number, BitVec.add_assoc]
  apply BitVec.eq_of_toNat_eq
  simp [BitVec.toNat_add]
  omega

theorem number_inj {start : BitVec 32} {i j : Nat} (hi : i < 2 ^ 31) (hj : j < 2 ^ 31)
    (h : number start i = number start j) : i = j := by
  have hsame := congrArg BitVec.toNat (BitVec.add_right_inj start |>.mp h)
  simp only [BitVec.toNat_ofNat] at hsame
  omega

/-- The reply to the last request carries the number between that of the request and the next. -/
theorem number_succ_sub_one (start : BitVec 32) (i : Nat) :
    number start (i + 1) - 1 = number start i + 1 := by
  rw [← incrementSeqNumber_number, incrementSeqNumber]
  bv_omega

theorem length_le_of_nodup {l : List Nat} {n : Nat} (nodup : l.Nodup) (below : ∀ i ∈ l, i < n) :
    l.length ≤ n := by
  rw [← toFinset_card_of_nodup nodup, ← Finset.card_range n]
  apply Finset.card_le_card
  intro i hi
  exact Finset.mem_range.mpr (below i (mem_toFinset.mp hi))

/-- The state of a connection whose calls were all made while it was idle. The `i`-th call was made
after `index i` advances, `nc` and `ns` are the advances of the client and the server so far, and
`late` are the calls for which a client thread advanced the number itself. -/
structure Numbered (start : BitVec 32) (index : Nat → Nat) (nc ns : Nat) (late : List Nat)
    (k : Connection) : Prop where
  clientNumber : k.client.nextSeqNumber = number start nc
  serverNumber : k.server.nextSeqNumber = number start ns
  rising : ∀ i j, i < j → j < k.calls → index i < index j
  atMost : ∀ i, i < k.calls → index i ≤ nc
  thinking : k.client.state = .think → ∀ i, i < k.calls → index i < nc
  awaiting : k.client.state = .awaitReply → ∃ i, k.calls = i + 1 ∧ index i = nc
  newest : ∀ id, k.client.mySl = some id → k.calls = id + 1
  entry : ∀ id e, k.client.entries id = some e →
    id < k.calls ∧ e.request = ⟨number start (index id), id⟩ ∧ (e.multi = false → e.pending = true)
  requests : ∀ r ∈ k.requests, r.call < k.calls ∧ r.seqNumber = number start (index r.call)
  notAhead : ns ≤ nc + 1
  handedIn : k.handed.Pairwise (· < ·)
  handedBelow : ∀ call ∈ k.handed, call < k.calls ∧ index call < ns
  queued : ∀ r, k.server.holdQueue = some r →
    (k.server.state = .reqInQueue ∨ k.server.state = .hardError) ∧
      r.call < k.calls ∧ index r.call + 1 = ns ∧ ∀ call ∈ k.handed, call < r.call
  worker : k.server.state = .process → ∀ call, k.server.worker = some call →
    call ∈ k.handed ∧ index call + 1 = ns
  replies : ∀ r ∈ k.replies, r.call ∈ k.handed ∧ r.seqNumber = number start (index r.call) + 1
  held : ∀ r, k.server.heldPacket = some r → r ∈ k.replies
  accepted : ∀ a ∈ k.accepted, a.1 = a.2 ∧ a.2 ∈ k.handed ∧ index a.1 < nc
  acceptedOnce : (k.accepted.map Prod.fst).Nodup
  lateOnce : late.Nodup
  lateBelow : ∀ id ∈ late, id < k.calls ∧ ∀ e, k.client.entries id = some e → e.pending = false
  count : nc = k.accepted.length + late.length

section Invariant

variable {start : BitVec 32} {index : Nat → Nat} {nc ns : Nat} {late : List Nat} {k : Connection}

theorem numbered_bound (start : BitVec 32) : Numbered start id 0 0 [] (bound start) where
  clientNumber := (number_zero start).symm
  serverNumber := (number_zero start).symm
  rising _ _ _ hj := absurd hj (Nat.not_lt_zero _)
  atMost _ hi := absurd hi (Nat.not_lt_zero _)
  thinking _ _ hi := absurd hi (Nat.not_lt_zero _)
  awaiting h := by cases h
  newest _ h := by cases h
  entry _ _ h := by cases h
  requests _ h := by cases h
  notAhead := Nat.le_succ 0
  handedIn := .nil
  handedBelow _ h := by cases h
  queued _ h := by cases h
  worker h := by cases h
  replies _ h := by cases h
  held _ h := by cases h
  accepted _ h := by cases h
  acceptedOnce := .nil
  lateOnce := .nil
  lateBelow _ h := by cases h
  count := rfl

variable (inv : Numbered start index nc ns late k)

include inv

theorem Numbered.exact : Exact k where
  handed := inv.handedIn
  made call h := (inv.handedBelow call h).1
  genuine a h := ⟨(inv.accepted a h).1, (inv.accepted a h).2.1⟩
  once := inv.acceptedOnce

/-- Every call advances the client's number at most twice. -/
theorem Numbered.client_le : nc ≤ 2 * k.calls := by
  have haccepted : (k.accepted.map Prod.fst).length ≤ k.calls := by
    apply length_le_of_nodup inv.acceptedOnce
    intro i hi
    obtain ⟨a, ha, rfl⟩ := mem_map.mp hi
    obtain ⟨heq, hhanded, -⟩ := inv.accepted a ha
    exact heq ▸ (inv.handedBelow _ hhanded).1
  have hlate : late.length ≤ k.calls :=
    length_le_of_nodup inv.lateOnce fun i hi => (inv.lateBelow i hi).1
  rw [length_map] at haccepted
  have := inv.count
  omega

theorem Numbered.lt_of_index_lt {i j : Nat} (hi : i < k.calls) (h : index i < index j) : i < j := by
  by_contra hle
  rcases Nat.lt_or_eq_of_le (not_lt.mp hle) with hlt | heq
  · exact absurd (inv.rising j i hlt hi) (lt_asymm h)
  · exact absurd (heq ▸ h) (lt_irrefl _)

theorem Numbered.eq_of_index_eq {i j : Nat} (hi : i < k.calls) (hj : j < k.calls)
    (h : index i = index j) : i = j := by
  rcases Nat.lt_trichotomy i j with hlt | heq | hgt
  · exact absurd h (inv.rising i j hlt hj).ne
  · exact heq
  · exact absurd h (inv.rising j i hgt hi).ne'

/-! ### Calls -/

/-- A call that is made on an idle connection gets a number of its own. -/
theorem Numbered.startCall (multi : Bool) (idle : k.client.state = .think) :
    Numbered start (update index k.calls nc) nc ns late (k.startCall multi) := by
  have hnew : update index k.calls nc k.calls = nc := update_self ..
  have hold : ∀ i, i < k.calls → update index k.calls nc i = index i :=
    fun i hi => update_of_ne hi.ne _ _
  have hlt := inv.thinking idle
  constructor
  case clientNumber => exact inv.clientNumber
  case serverNumber => exact inv.serverNumber
  case rising =>
    intro i j hij hj
    rcases Nat.lt_succ_iff_lt_or_eq.mp hj with hj | rfl
    · rw [hold i (hij.trans hj), hold j hj]
      exact inv.rising i j hij hj
    · rw [hold i hij, hnew]
      exact hlt i hij
  case atMost =>
    intro i hi
    rcases Nat.lt_succ_iff_lt_or_eq.mp hi with hi | rfl
    · rw [hold i hi]
      exact inv.atMost i hi
    · exact hnew.le
  case thinking => intro h; cases h
  case awaiting => exact fun _ => ⟨k.calls, rfl, hnew⟩
  case newest =>
    intro id h
    exact congrArg (· + 1) (some.inj h)
  case entry =>
    intro id e he
    rw [startCall_entries] at he
    split at he
    · next hid =>
      cases he
      refine ⟨hid ▸ Nat.lt_succ_self _, ?_, fun _ => rfl⟩
      rw [hid, hnew, ← inv.clientNumber]
    · obtain ⟨hlt, hreq, hpending⟩ := inv.entry id e he
      exact ⟨Nat.lt_succ_of_lt hlt, by rw [hold id hlt, hreq], hpending⟩
  case requests =>
    refine forall_mem_cons.mpr
      ⟨⟨Nat.lt_succ_self _, by rw [hnew, ← inv.clientNumber]⟩, fun r hr => ?_⟩
    obtain ⟨hlt, hseq⟩ := inv.requests r hr
    exact ⟨Nat.lt_succ_of_lt hlt, by rw [hold _ hlt, hseq]⟩
  case notAhead => exact inv.notAhead
  case handedIn => exact inv.handedIn
  case handedBelow =>
    intro call hcall
    obtain ⟨hlt, hns⟩ := inv.handedBelow call hcall
    exact ⟨Nat.lt_succ_of_lt hlt, by rwa [hold _ hlt]⟩
  case queued =>
    intro r hr
    obtain ⟨hstate, hlt, hns, hafter⟩ := inv.queued r hr
    exact ⟨hstate, Nat.lt_succ_of_lt hlt, by rwa [hold _ hlt], hafter⟩
  case worker =>
    intro hstate call hcall
    obtain ⟨hmem, hns⟩ := inv.worker hstate call hcall
    exact ⟨hmem, by rwa [hold _ (inv.handedBelow call hmem).1]⟩
  case replies =>
    intro r hr
    obtain ⟨hmem, hseq⟩ := inv.replies r hr
    exact ⟨hmem, by rw [hold _ (inv.handedBelow _ hmem).1, hseq]⟩
  case held => exact inv.held
  case accepted =>
    intro a ha
    obtain ⟨heq, hmem, hnc⟩ := inv.accepted a ha
    exact ⟨heq, hmem, by rwa [hold _ (heq ▸ (inv.handedBelow _ hmem).1)]⟩
  case acceptedOnce => exact inv.acceptedOnce
  case lateOnce => exact inv.lateOnce
  case lateBelow =>
    intro id hid
    obtain ⟨hlt, hpending⟩ := inv.lateBelow id hid
    refine ⟨Nat.lt_succ_of_lt hlt, fun e he => hpending e ?_⟩
    rwa [startCall_entries, if_neg hlt.ne] at he
  case count => exact inv.count

/-! ### The client -/

variable {id : Nat} {e : SlEntry} {k' : Connection} {signals : Bool} {r : Request}

theorem Numbered.setEntry {f : SlEntry} (he : k.client.entries id = some e)
    (request : f.request = e.request)
    (pending : f.multi = e.multi ∧ f.pending = e.pending ∨ f.multi = true ∧ f.pending = false) :
    Numbered start index nc ns late { k with client := k.client.setEntry id f } := by
  refine { inv with entry := ?_, lateBelow := ?_ }
  · intro i g hg
    rw [setEntry_entries] at hg
    split at hg
    · next hi =>
      subst hi
      cases hg
      obtain ⟨hlt, hreq, hpending⟩ := inv.entry i e he
      refine ⟨hlt, request.trans hreq, fun hmulti => ?_⟩
      rcases pending with ⟨hm, hp⟩ | ⟨hm, -⟩
      · exact hp.trans (hpending (hm ▸ hmulti))
      · exact absurd (hm.symm.trans hmulti) (by decide)
    · exact inv.entry i g hg
  · intro i hi
    obtain ⟨hlt, hdone⟩ := inv.lateBelow i hi
    refine ⟨hlt, fun g hg => ?_⟩
    rw [setEntry_entries] at hg
    split at hg
    · next hid =>
      subst hid
      cases hg
      rcases pending with ⟨-, hp⟩ | ⟨-, hp⟩
      · exact hp.trans (hdone e he)
      · exact hp
    · exact hdone g hg

theorem Numbered.freeSle (id : Nat) :
    Numbered start index nc ns late { k with client := k.client.freeSle id } := by
  have hentries : ∀ i f, (k.client.freeSle id).entries i = some f → k.client.entries i = some f := by
    intro i f hf
    rw [freeSle_entries] at hf
    split at hf
    · cases hf
    · exact hf
  refine { inv with newest := ?_, entry := ?_, lateBelow := ?_ }
  · intro i h
    cases h
  · exact fun i f hf => inv.entry i f (hentries i f hf)
  · exact fun i hi => ⟨(inv.lateBelow i hi).1, fun f hf => (inv.lateBelow i hi).2 f (hentries i f hf)⟩

theorem Numbered.setConnError :
    Numbered start index nc ns late { k with client := k.client.setConnError } :=
  { inv with
    thinking := nofun
    awaiting := nofun }

/-- A client thread advances the number for a call it is done with. -/
theorem Numbered.think (below : id < k.calls) (fresh : id ∉ late)
    (done : ∀ e, k.client.entries id = some e → e.pending = false) :
    Numbered start index (nc + 1) ns (id :: late) { k with client := k.client.think } :=
  { inv with
    clientNumber := by
      rw [← incrementSeqNumber_number, ← inv.clientNumber]
      rfl
    atMost := fun i hi => (inv.atMost i hi).trans (Nat.le_succ nc)
    thinking := fun _ i hi => Nat.lt_succ_of_le (inv.atMost i hi)
    awaiting := nofun
    notAhead := inv.notAhead.trans (Nat.le_succ _)
    accepted := fun a ha =>
      ⟨(inv.accepted a ha).1, (inv.accepted a ha).2.1, Nat.lt_succ_of_lt (inv.accepted a ha).2.2⟩
    lateOnce := nodup_cons.mpr ⟨fresh, inv.lateOnce⟩
    lateBelow := forall_mem_cons.mpr ⟨⟨below, done⟩, inv.lateBelow⟩
    count := by
      rw [length_cons, ← Nat.add_assoc, ← inv.count] }

omit inv in
theorem listening_eq_some {c : Client} (h : c.listening = some (id, e)) :
    c.mySl = some id ∧ c.entries id = some e := by
  unfold listening at h
  split at h
  · cases h
  · next i hsl =>
    split at h
    · cases h
    · next f hf =>
      split at h
      · obtain ⟨rfl, rfl⟩ := Prod.mk.inj (some.inj h)
        exact ⟨hsl, hf⟩
      · cases h

/-- The reply that the newest call waits for is the one that was produced for it. -/
theorem Numbered.replyArrives (few : k.calls < 2 ^ 30) {r : Reply} (sent : r ∈ k.replies) :
    ∃ nc', Numbered start index nc' ns late (k.replyArrives r) := by
  unfold Connection.replyArrives
  split
  · exact ⟨nc, inv⟩
  next hstate =>
  split
  · exact ⟨nc, inv⟩
  next hseq =>
  split
  · exact ⟨nc, inv⟩
  next id e hlisten =>
  obtain ⟨hsl, he⟩ := listening_eq_some hlisten
  obtain ⟨hmem, hnumber⟩ := inv.replies r sent
  obtain ⟨i, hcalls, hindex⟩ := inv.awaiting (not_not.mp hstate)
  have hid : id = i := Nat.succ.inj ((inv.newest id hsl).symm.trans hcalls)
  have hcall := inv.handedBelow _ hmem
  have hle := inv.client_le
  have hsame : index r.call = nc := by
    have hrange := inv.atMost _ hcall.1
    apply number_inj (by omega) (by omega)
    rw [← inv.clientNumber, not_not.mp hseq, hnumber, BitVec.add_sub_cancel]
  have heq : r.call = id := by
    apply inv.eq_of_index_eq hcall.1 (by omega)
    rw [hsame, hid, hindex]
  have hset := inv.setEntry he (f := { e with returnCode := .arrived }) rfl (.inl ⟨rfl, rfl⟩)
  refine ⟨nc + 1, { hset with
    clientNumber := ?_, atMost := ?_, thinking := ?_, awaiting := ?_, notAhead := ?_,
    accepted := ?_, acceptedOnce := ?_, count := ?_ }⟩
  · rw [← incrementSeqNumber_number, ← inv.clientNumber]
    rfl
  · exact fun i hi => (inv.atMost i hi).trans (Nat.le_succ nc)
  · exact fun _ i hi => Nat.lt_succ_of_le (inv.atMost i hi)
  · intro h
    cases h
  · exact inv.notAhead.trans (Nat.le_succ _)
  · intro a ha
    rcases mem_cons.mp ha with rfl | ha
    · exact ⟨heq.symm, hmem, by rw [← heq, hsame]; exact Nat.lt_succ_self nc⟩
    · obtain ⟨hgenuine, hhanded, hbelow⟩ := inv.accepted a ha
      exact ⟨hgenuine, hhanded, Nat.lt_succ_of_lt hbelow⟩
  · rw [map_cons, nodup_cons]
    refine ⟨fun hdup => ?_, inv.acceptedOnce⟩
    obtain ⟨a, ha, hfst⟩ := mem_map.mp hdup
    have hbelow := (inv.accepted a ha).2.2
    rw [hfst, ← heq, hsame] at hbelow
    exact lt_irrefl _ hbelow
  · rw [length_cons, inv.count]
    omega

theorem Numbered.busyArrives (seqNumber : BitVec 32) :
    Numbered start index nc ns late (k.busyArrives seqNumber) := by
  unfold Connection.busyArrives
  split
  · exact inv
  split
  · exact inv
  split
  · exact inv
  · next id e hlisten => exact inv.setEntry (listening_eq_some hlisten).2 rfl (.inl ⟨rfl, rfl⟩)

theorem Numbered.nakArrives : Numbered start index nc ns late k.nakArrives.1 := by
  unfold Connection.nakArrives
  split
  · exact inv
  split
  · exact inv
  · next id e hlisten =>
    exact (inv.setEntry (f := { e with returnCode := .naked }) (listening_eq_some hlisten).2 rfl
      (.inl ⟨rfl, rfl⟩)).setConnError

theorem Numbered.expires (run : k.expires id = some k') : Numbered start index nc ns late k' := by
  unfold Connection.expires at run
  split at run
  · cases run
  next e he =>
  split at run
  · cases run
    exact inv.setEntry he rfl (.inl ⟨rfl, rfl⟩)
  · cases run

theorem Numbered.waitOn (he : k.client.entries id = some e) (retry : Retry) :
    Numbered start index nc ns late (k.waitOn id e retry) := by
  have hset := inv.setEntry (f := { e with returnCode := .waiting }) he rfl (.inl ⟨rfl, rfl⟩)
  refine { hset with requests := ?_ }
  intro r hr
  unfold Connection.waitOn at hr
  split at hr
  · rcases mem_cons.mp hr with rfl | hr
    · obtain ⟨hlt, hreq, -⟩ := inv.entry id e he
      rw [hreq]
      exact ⟨hlt, rfl⟩
    · exact inv.requests r hr
  · exact inv.requests r hr

/-- A thread gives up a call it still waits for. -/
theorem Numbered.giveUp (he : k.client.entries id = some e) (pending : e.pending = true)
    {c : Client} (done : Numbered start index nc ns late { k with client := c })
    (closed : ∀ f, c.entries id = some f → f.pending = false) :
    Numbered start index (nc + 1) ns (id :: late) { k with client := c.think } := by
  apply done.think (inv.entry id e he).1 _ closed
  intro hlate
  exact absurd (pending.symm.trans ((inv.lateBelow id hlate).2 e he)) (by decide)

theorem Numbered.woken {timeBomb : Bool} {retry : Retry}
    (run : k.woken id timeBomb retry = some (k', signals)) :
    ∃ nc' late', Numbered start index nc' ns late' k' := by
  unfold Connection.woken at run
  split at run
  · cases run
  next e he =>
  split at run
  · cases run
  next hmulti =>
  split at run
  · obtain rfl := eq_of_step run
    have hpending := (inv.entry id e he).2.2 (by simpa using (not_or.mp hmulti).1)
    refine ⟨nc + 1, id :: late, inv.giveUp he hpending (inv.freeSle id) ?_⟩
    intro f hf
    rw [freeSle_entries, if_pos rfl] at hf
    cases hf
  split at run
  · cases run
  · exact ⟨nc, late, eq_of_step run ▸ inv.freeSle id⟩
  · exact ⟨nc, late, eq_of_step run ▸ (inv.freeSle id).setConnError⟩
  · split at run
    · exact ⟨nc, late, eq_of_step run ▸ (inv.freeSle id).setConnError⟩
    · exact ⟨nc, late, eq_of_step run ▸ inv.waitOn he retry⟩
  · split at run
    · cases run
    · exact ⟨nc, late, eq_of_step run ▸ inv.waitOn he retry⟩

theorem Numbered.multiWoken {retry : Retry} (run : k.multiWoken id retry = some (k', signals)) :
    Numbered start index nc ns late k' := by
  unfold Connection.multiWoken at run
  split at run
  · cases run
  next e he =>
  obtain ⟨hmulti, run⟩ := ite_none_right_eq_some.mp run
  have hclosed := inv.setEntry (f := { e with pending := false }) he rfl
    (.inr ⟨(Bool.and_eq_true_iff.mp hmulti).1, rfl⟩)
  split at run
  · exact eq_of_step run ▸ inv
  · exact eq_of_step run ▸ hclosed
  · exact eq_of_step run ▸ hclosed.setConnError
  · split at run
    · exact eq_of_step run ▸ hclosed.setConnError
    · exact eq_of_step run ▸ inv.waitOn he retry
  · split at run
    · exact eq_of_step run ▸ hclosed.setConnError
    · exact eq_of_step run ▸ inv.waitOn he retry

theorem Numbered.multiCleanup (run : k.multiCleanup id = some k') :
    Numbered start index (nc + 1) ns (id :: late) k' := by
  unfold Connection.multiCleanup at run
  split at run
  · cases run
  next e he =>
  obtain ⟨hmulti, ⟨⟩⟩ := ite_none_right_eq_some.mp run
  obtain ⟨hmulti, hpending⟩ := Bool.and_eq_true_iff.mp hmulti
  have hclosed := inv.setEntry (f := { e with pending := false }) he rfl (.inr ⟨hmulti, rfl⟩)
  apply inv.giveUp he hpending hclosed
  intro f hf
  rw [setEntry_entries, if_pos rfl] at hf
  exact some.inj hf ▸ rfl

theorem Numbered.freeMultiCon (run : k.freeMultiCon id = some k') :
    Numbered start index nc ns late k' := by
  unfold Connection.freeMultiCon at run
  split at run
  · cases run
  split at run
  · cases run
    exact inv.freeSle id
  · cases run

/-! ### The server -/

/-- What the server does to its own entries, apart from its state and number. -/
theorem Numbered.setServer {s : Server}
    (state : s.state = k.server.state ∨ (k.server.state = .process ∧ s.state = .awaitRequest) ∨
      s.state = .hardError)
    (next : s.nextSeqNumber = k.server.nextSeqNumber) (queue : s.holdQueue = k.server.holdQueue)
    (worker : s.worker = k.server.worker ∨ s.worker = none)
    (held : ∀ r, s.heldPacket = some r → r ∈ k.replies) :
    Numbered start index nc ns late { k with server := s } := by
  refine { inv with
    serverNumber := next.trans inv.serverNumber, queued := ?_, worker := ?_, held := held }
  · intro r hr
    obtain ⟨hstate, hrest⟩ := inv.queued r (queue ▸ hr)
    refine ⟨?_, hrest⟩
    rcases state with h | ⟨h, -⟩ | h
    · exact h.symm ▸ hstate
    · rw [h] at hstate
      rcases hstate with h' | h' <;> cases h'
    · exact .inr h
  · intro hstate call hcall
    rcases worker with hw | hw
    · rcases state with h | ⟨-, h⟩ | h
      · exact inv.worker (h ▸ hstate) call (hw ▸ hcall)
      · exact absurd (h.symm.trans hstate) (by decide)
      · exact absurd (h.symm.trans hstate) (by decide)
    · exact absurd (hw.symm.trans hcall) (by simp)

theorem Numbered.outOfOrder (r : Request) : Numbered start index nc ns late (k.outOfOrder r) := by
  unfold Connection.outOfOrder
  split
  · exact { inv with }
  · exact inv

theorem Numbered.handleOldRequest : Numbered start index nc ns late k.handleOldRequest := by
  unfold Connection.handleOldRequest
  split
  · exact inv
  next reply hheld =>
  have hsent := inv.held reply hheld
  refine { inv with replies := ?_, held := ?_ }
  · exact forall_mem_cons.mpr ⟨inv.replies reply hsent, inv.replies⟩
  · exact fun r hr => mem_cons_of_mem _ (inv.held r hr)

/-- A request that is newer than all that were handed over may be handed over. -/
theorem Numbered.handOver (free : k.server.holdQueue = none) (made : r.call < k.calls)
    (last : index r.call + 1 = ns) (newer : ∀ call ∈ k.handed, call < r.call) :
    Numbered start index nc ns late (k.handOver r) := by
  refine { inv with
    handedIn := ?_, handedBelow := ?_, queued := ?_, worker := ?_, replies := ?_, accepted := ?_ }
  · apply pairwise_append.mpr
    refine ⟨inv.handedIn, pairwise_singleton _ _, fun a ha b hb => ?_⟩
    rw [mem_singleton.mp hb]
    exact newer a ha
  · exact forall_mem_append.mpr ⟨inv.handedBelow,
      forall_mem_singleton.mpr ⟨made, last ▸ Nat.lt_succ_self _⟩⟩
  · intro q hq
    cases free.symm.trans hq
  · intro _ call hcall
    cases hcall
    exact ⟨mem_append_right _ (mem_singleton_self _), last⟩
  · intro q hq
    exact ⟨mem_append_left _ (inv.replies q hq).1, (inv.replies q hq).2⟩
  · intro a ha
    obtain ⟨heq, hmem, hlt⟩ := inv.accepted a ha
    exact ⟨heq, mem_append_left _ hmem, hlt⟩

omit inv in
theorem newRequest_heldPacket {s : Server} {r : Reply} (h : s.newRequest.heldPacket = some r) :
    s.heldPacket = some r := by
  unfold Server.newRequest Server.freeHeld at h
  split at h
  · cases h
  · exact h

omit inv in
theorem newRequest_nextSeqNumber (s : Server) :
    s.newRequest.nextSeqNumber = incrementSeqNumber s.nextSeqNumber := by
  unfold Server.newRequest Server.freeHeld
  split
  · rfl
  · rfl

omit inv in
theorem newRequest_holdQueue (s : Server) : s.newRequest.holdQueue = s.holdQueue := by
  unfold Server.newRequest Server.freeHeld
  split
  · rfl
  · rfl

theorem Numbered.handleNewRequest (few : k.calls < 2 ^ 30) (sent : r ∈ k.requests)
    (idle : k.server.state = .awaitRequest) (next : k.server.nextSeqNumber = r.seqNumber)
    (recipient : Bool) :
    Numbered start index nc (ns + 1) late (k.handleNewRequest recipient r) := by
  obtain ⟨hmade, hnumber⟩ := inv.requests r sent
  have hle := inv.client_le
  have hindex := inv.atMost _ hmade
  have hsame : index r.call = ns := by
    have hahead := inv.notAhead
    apply number_inj (by omega) (by omega)
    rw [← hnumber, ← next, inv.serverNumber]
  have hnewer : ∀ call ∈ k.handed, call < r.call := by
    intro call hcall
    obtain ⟨hlt, hns⟩ := inv.handedBelow call hcall
    exact inv.lt_of_index_lt hlt (hsame ▸ hns)
  have hnext : k.server.newRequest.nextSeqNumber = number start (ns + 1) := by
    rw [newRequest_nextSeqNumber, inv.serverNumber, incrementSeqNumber_number]
  have hbelow : ∀ call ∈ k.handed, call < k.calls ∧ index call < ns + 1 := fun call hcall =>
    ⟨(inv.handedBelow call hcall).1, Nat.lt_succ_of_lt (inv.handedBelow call hcall).2⟩
  have hempty : ∀ q, k.server.holdQueue ≠ some q := by
    intro q hq
    rcases (inv.queued q hq).1 with h | h
    · cases idle.symm.trans h
    · cases idle.symm.trans h
  -- in both cases the server's state is set next, so the middle state is taken to be queued
  have hqueue : ∀ queue, queue = some r ∨ queue = none → Numbered start index nc (ns + 1) late
      { k with server :=
        { k.server.newRequest with state := .reqInQueue, holdQueue := queue } } := by
    intro queue hqueue
    refine { inv with
      serverNumber := hnext, notAhead := ?_, handedBelow := hbelow, queued := ?_, worker := ?_
      held := fun q hq => inv.held q (newRequest_heldPacket hq) }
    · omega
    · intro q hq
      rcases hqueue with rfl | rfl
      · cases hq
        exact ⟨.inl rfl, hmade, by rw [hsame], hnewer⟩
      · cases hq
    · intro h
      cases h
  cases recipient with
  | false => exact hqueue _ (.inl rfl)
  | true =>
    have hover := (hqueue none (.inr rfl)).handOver rfl hmade (by rw [hsame]) hnewer
    refine { hover with queued := fun q hq => absurd ?_ (hempty q) }
    rw [← newRequest_holdQueue]
    exact hq

theorem Numbered.requestArrives (few : k.calls < 2 ^ 30) (sent : r ∈ k.requests)
    (recipient : Bool) :
    ∃ ns', Numbered start index nc ns' late (k.requestArrives recipient r) := by
  unfold Connection.requestArrives
  split
  · exact ⟨ns, { inv with }⟩
  next idle =>
    split
    · next hnext => exact ⟨ns + 1, inv.handleNewRequest few sent idle hnext recipient⟩
    split
    · exact ⟨ns, inv.handleOldRequest⟩
    · exact ⟨ns, inv.outOfOrder r⟩
  · split
    · exact ⟨ns, { inv with }⟩
    · exact ⟨ns, inv.outOfOrder r⟩
  · split
    · exact ⟨ns, { inv with }⟩
    · exact ⟨ns, inv.outOfOrder r⟩

theorem Numbered.getRequest (run : k.getRequest = some k') :
    Numbered start index nc ns late k' := by
  unfold Connection.getRequest at run
  split at run
  · next r hqueue =>
    cases run
    obtain ⟨-, hmade, hlast, hnewer⟩ := inv.queued r hqueue
    have hfree : Numbered start index nc ns late
        { k with server := { k.server with holdQueue := none } } := { inv with queued := nofun }
    exact hfree.handOver rfl hmade hlast hnewer
  · cases run

theorem Numbered.sendResponse {withReply : Bool} (run : k.sendResponse withReply = some k') :
    Numbered start index nc ns late k' := by
  unfold Connection.sendResponse at run
  split at run
  · next call hstate hworker =>
    obtain ⟨hmem, hlast⟩ := inv.worker hstate call hworker
    cases withReply with
    | false =>
      cases run
      exact inv.setServer (.inr (.inl ⟨hstate, rfl⟩)) rfl rfl (.inr rfl) inv.held
    | true =>
      cases run
      -- the reply is sent first, and then the server's entry may hold it
      have hsent : Numbered start index nc ns late
          { k with replies := ⟨k.server.nextSeqNumber - 1, call⟩ :: k.replies } := by
        refine { inv with replies := ?_, held := ?_ }
        · refine forall_mem_cons.mpr ⟨⟨hmem, ?_⟩, inv.replies⟩
          rw [inv.serverNumber, ← hlast, number_succ_sub_one]
        · exact fun r hr => mem_cons_of_mem _ (inv.held r hr)
      refine hsent.setServer (.inr (.inl ⟨hstate, rfl⟩)) rfl rfl (.inr rfl) ?_
      intro r hr
      exact some.inj hr ▸ (.head _)
  · cases run

theorem Numbered.serverExpires (run : k.serverExpires = some k') :
    Numbered start index nc ns late k' := by
  unfold Connection.serverExpires at run
  split at run
  · cases run
  · cases run
    have hserver := inv.setServer (.inl rfl) rfl rfl (.inl rfl)
      inv.held
    exact { hserver with }
  · cases run
    exact inv.setServer (.inl rfl) rfl rfl (.inl rfl) fun r hr => by cases hr

/-- What one event keeps. -/
theorem Numbered.step (few : k.calls < 2 ^ 30) {event : Event}
    (run : k.step event = some (k', signals)) :
    ∃ nc' ns' late', Numbered start index nc' ns' late' k' := by
  cases event with
  | request r recipient =>
    obtain ⟨sent, run⟩ := ite_none_right_eq_some.mp run
    obtain rfl := eq_of_step run
    obtain ⟨ns', inv'⟩ := inv.requestArrives few sent recipient
    exact ⟨nc, ns', late, inv'⟩
  | reply r =>
    obtain ⟨sent, run⟩ := ite_none_right_eq_some.mp run
    obtain rfl := eq_of_step run
    obtain ⟨nc', inv'⟩ := inv.replyArrives few sent
    exact ⟨nc', ns, late, inv'⟩
  | busy seqNumber =>
    obtain ⟨-, run⟩ := ite_none_right_eq_some.mp run
    obtain rfl := eq_of_step run
    exact ⟨nc, ns, late, inv.busyArrives seqNumber⟩
  | nak =>
    obtain ⟨-, run⟩ := ite_none_right_eq_some.mp run
    obtain rfl := eq_of_step run
    exact ⟨nc, ns, late, inv.nakArrives⟩
  | expires id => exact ⟨nc, ns, late, inv.expires (eq_of_map_step run)⟩
  | woken id timeBomb retry =>
    obtain ⟨nc', late', inv'⟩ := inv.woken run
    exact ⟨nc', ns, late', inv'⟩
  | multiWoken id retry => exact ⟨nc, ns, late, inv.multiWoken run⟩
  | multiCleanup id => exact ⟨nc + 1, ns, id :: late, inv.multiCleanup (eq_of_map_step run)⟩
  | freeMultiCon id => exact ⟨nc, ns, late, inv.freeMultiCon (eq_of_map_step run)⟩
  | getRequest => exact ⟨nc, ns, late, inv.getRequest (eq_of_map_step run)⟩
  | sendResponse withReply => exact ⟨nc, ns, late, inv.sendResponse (eq_of_map_step run)⟩
  | serverExpires => exact ⟨nc, ns, late, inv.serverExpires (eq_of_map_step run)⟩
  | serverError =>
    obtain rfl := eq_of_step run
    exact ⟨nc, ns, late, inv.setServer (.inr (.inr rfl)) rfl rfl (.inl rfl) inv.held⟩

end Invariant

end Coda.Rpc2
