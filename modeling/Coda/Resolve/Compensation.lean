import Coda.Resolve.CompOps

/-!
What `ComputeCompOps` returns, over all the logs that were shipped.

Two things can go wrong. The duplicate removal begins with the null store id as the one seen
last, so that an entry with that id is dropped. And this host looks for its own log under its
address as an unsigned number, while the logs are kept under the address as an `int`: from
128.0.0.0 on the two differ.
-/

namespace Coda.Resolve

open List Option

/-- The logs of all hosts, as `ParseRemoteLogs` files them. -/
structure Shipped where
  hosts : List He
  server : ∀ h ∈ hosts, ∀ l ∈ h.vlist, ∀ r ∈ l.slelist, r.serverid = h.server
  storeids : ∀ h ∈ hosts, ∀ l ∈ h.vlist, (l.slelist.map Rsle.storeid).Nodup
  seqnos : ∀ h ∈ hosts, ∀ l ∈ h.vlist, l.slelist.Pairwise fun a b => a.seqno < b.seqno

/-- The log of a directory at a server. -/
def Shipped.logOf (s : Shipped) (server : BitVec 32) (fid : Fid) : Option (List Rsle) :=
  extractLog s.hosts server.toInt fid

/-- The logs of a directory at the servers other than this one. -/
def Shipped.remoteLogs (s : Shipped) (thisHost : BitVec 32) (fid : Fid) : List (List Rsle) :=
  s.hosts.filterMap fun h => if h.server = thisHost then none else s.logOf h.server fid

instance Common.decidable (llog : List Rsle) (y : Rsle) : Decidable (Common llog y) :=
  inferInstanceAs (Decidable (_ ∧ ∃ x ∈ llog, _))

/-- The entries of a log that lie behind the last one it has in common with the local log. -/
def behind (llog : List Rsle) : List Rsle → Option (List Rsle)
  | [] => none
  | r :: rest =>
    match behind llog rest with
    | some tail => some tail
    | none => if Common llog r then some rest else none

/-- The compensating operations: the entries that lie behind the last common one in some remote
log and that the local log does not have, one for each store id, by server and sequence number. -/
structure Compensates (llog : List Rsle) (rlogs : List (List Rsle)) (ops : List Rsle) : Prop where
  ordered : ops.Pairwise fun a b => a.index < b.index ∨ a.index = b.index ∧ a.seqno < b.seqno
  once : (ops.map Rsle.storeid).Nodup
  sound : ∀ r ∈ ops, (∃ log ∈ rlogs, ∃ tail, behind llog log = some tail ∧ r ∈ tail) ∧
    ∀ l ∈ llog, l.storeid ≠ r.storeid
  complete : ∀ log ∈ rlogs, ∀ tail, behind llog log = some tail → ∀ r ∈ tail,
    (∀ l ∈ llog, l.storeid ≠ r.storeid) → ∃ r' ∈ ops, r'.storeid = r.storeid

/-! ### Common points -/

section Behind

variable {llog log tail : List Rsle}

theorem behind_eq_none_iff : behind llog log = none ↔ ∀ r ∈ log, ¬ Common llog r := by
  induction log with
  | nil => simp [behind]
  | cons r rest ih =>
    rw [behind, forall_mem_cons, ← ih]
    cases behind llog rest with
    | none => simp
    | some tail => simp

theorem behind_append {pre : List Rsle} {c : Rsle} (hc : Common llog c)
    (h : ∀ x ∈ tail, ¬ Common llog x) : behind llog (pre ++ c :: tail) = some tail := by
  induction pre with
  | nil =>
    rw [nil_append, behind, behind_eq_none_iff.mpr h]
    exact if_pos hc
  | cons r pre ih => rw [cons_append, behind, ih]

theorem behind_subset (h : behind llog log = some tail) : ∀ r ∈ tail, r ∈ log := by
  induction log with
  | nil => cases h
  | cons x rest ih =>
    rw [behind] at h
    cases hrest : behind llog rest with
    | some tail' =>
      rw [hrest] at h
      cases h
      exact fun r hr => mem_cons_of_mem _ (ih hrest r hr)
    | none =>
      rw [hrest] at h
      split_ifs at h
      cases h
      exact fun r hr => mem_cons_of_mem _ hr

theorem common_sortLog {y : Rsle} : Common (sortLog llog) y ↔ Common llog y := by
  simp only [Common, sortLog, mem_qsort]

theorem opsAfter_append {pre : List Rsle} {c : Rsle} (h : c ∉ pre) :
    opsAfter c (pre ++ c :: tail) = some tail := by
  induction pre with
  | nil => exact if_pos rfl
  | cons r pre ih =>
    rw [mem_cons, not_or] at h
    rw [cons_append, opsAfter, if_neg fun heq => h.1 heq.symm, ih h.2]

/-- With sequence numbers that increase, the latest common entry is the last one. -/
theorem latestCommonPoint_behind (unique : (llog.map Rsle.storeid).Nodup)
    (unique' : (log.map Rsle.storeid).Nodup) (seqnos : log.Pairwise fun a b => a.seqno < b.seqno)
    (share : ∃ c ∈ log, Common llog c) :
    ∃ c tail, latestCommonPoint (sortLog llog) (sortLog log) none = some c ∧
      behind llog log = some tail ∧ opsAfter c log = some tail := by
  have spec := latestCommonPoint_spec (sortLog llog) (sortLog log) none (sortLog_ascending unique)
    (sortLog_ascending unique')
  have hcand : ∀ y, (none = some y ∨ y ∈ sortLog log ∧ Common (sortLog llog) y) ↔
      y ∈ log ∧ Common llog y := by
    intro y
    rw [common_sortLog, sortLog, mem_qsort]
    simp
  have spec := spec.congr hcand
  obtain ⟨c₀, hc₀⟩ := share
  obtain ⟨c, hc⟩ := isSome_iff_exists.mp (spec.isSome c₀ hc₀)
  obtain ⟨hmem, hcommon⟩ := spec.mem c hc
  obtain ⟨pre, tail, rfl⟩ := append_of_mem hmem
  obtain ⟨-, htail, hpre⟩ := pairwise_append.mp seqnos
  refine ⟨c, tail, hc, behind_append hcommon fun x hx hx' => ?_, opsAfter_append fun hin => ?_⟩
  · have h₁ := spec.latest c hc x ⟨by simp [hx], hx'⟩
    have h₂ := (pairwise_cons.mp htail).1 x hx
    omega
  · exact Int.lt_irrefl _ (hpre c hin c mem_cons_self)

end Behind

section FindRemoteOps

theorem nul_notMem_nil : 0#8 ∉ ([] : List (BitVec 8)) := not_mem_nil

/-- An entry whose operands are left blank. -/
def entry (serverid : BitVec 32) (seqno : Int) (storeid : StoreId) (opcode : Nat) : Rsle where
  serverid := serverid
  seqno := seqno
  storeid := storeid
  opcode := opcode
  u := ⟨⟨0#32, 0#32⟩, ⟨.replicate 8 0, nullSid, 0#32⟩, ⟨[], nul_notMem_nil⟩, ⟨0#32, 0#32⟩,
    ⟨.replicate 8 0, nullSid, 0#32⟩, ⟨[], nul_notMem_nil⟩⟩

theorem mapM_eq_map {α β : Type} {f : α → Option β} {g : α → β} {l : List α}
    (h : ∀ x ∈ l, f x = some (g x)) : l.mapM f = some (l.map g) := by
  induction l with
  | nil => rfl
  | cons x l ih =>
    obtain ⟨hx, hl⟩ := forall_mem_cons.mp h
    rw [mapM_cons, hx, bind_eq_bind, ih hl]
    rfl

/-- `FindRemoteOps` finds what lies behind the common points. -/
theorem findRemoteOps_eq {llog : List Rsle} {rlogs : List (List Rsle)}
    (unique : (llog.map Rsle.storeid).Nodup)
    (uniques : ∀ log ∈ rlogs, (log.map Rsle.storeid).Nodup)
    (seqnos : ∀ log ∈ rlogs, log.Pairwise fun a b => a.seqno < b.seqno)
    (share : ∀ log ∈ rlogs, ∃ c ∈ log, Common llog c) :
    findRemoteOps (sortLog llog) rlogs =
      some (some (rlogs.map fun log => (behind llog log).getD [])) := by
  have point : ∀ log ∈ rlogs, ∃ c tail,
      latestCommonPoint (sortLog llog) (sortLog log) none = some c ∧
        behind llog log = some tail ∧ opsAfter c log = some tail := fun log hlog =>
    latestCommonPoint_behind unique (uniques log hlog) (seqnos log hlog) (share log hlog)
  have hfirst : (rlogs.mapM fun log => latestCommonPoint (sortLog llog) (sortLog log) none) =
      some (rlogs.map fun log =>
        (latestCommonPoint (sortLog llog) (sortLog log) none).getD (entry 0#32 0 nullSid 0)) := by
    apply mapM_eq_map
    intro log hlog
    obtain ⟨c, tail, hc, -, -⟩ := point log hlog
    rw [hc]
    rfl
  unfold findRemoteOps
  rw [hfirst]
  dsimp only
  rw [← map_prod_right_eq_zip, mapM_eq_map (g := fun p => (behind llog p.2).getD [])]
  · rw [List.map_map]
    rfl
  · intro p hp
    obtain ⟨log, hlog, rfl⟩ := List.mem_map.mp hp
    obtain ⟨c, tail, hc, hbehind, hops⟩ := point log hlog
    rw [hc, hbehind]
    exact hops

end FindRemoteOps

/-! ### All logs -/

section Shipped

variable (s : Shipped) {thisHost : BitVec 32} {fid : Fid} {llog : List Rsle}

variable {log : List Rsle}

/-- Where a log comes from. -/
theorem extractLog_eq_some {hosts : List He} {hid : Int} (h : extractLog hosts hid fid = some log) :
    ∃ host ∈ hosts, host.hid = hid ∧ ∃ l ∈ host.vlist, l.slelist = log := by
  unfold extractLog at h
  cases hfind : hosts.find? fun h => h.hid = hid with
  | none =>
    rw [hfind] at h
    cases h
  | some host =>
    rw [hfind, bind_eq_bind, bind_some] at h
    cases hlist : host.vlist.find? fun l => l.vnode = fid.vnode ∧ l.unique = fid.unique with
    | none =>
      rw [hlist] at h
      cases h
    | some l =>
      rw [hlist] at h
      cases h
      have hid := List.find?_some hfind
      exact ⟨host, mem_of_find?_eq_some hfind, by simpa using hid, l,
        mem_of_find?_eq_some hlist, rfl⟩

/-- What is known of each log. -/
theorem Shipped.extracted {hid : Int} (h : extractLog s.hosts hid fid = some log) :
    (log.map Rsle.storeid).Nodup ∧ (log.Pairwise fun a b => a.seqno < b.seqno) ∧
      ∀ r ∈ log, r.index = hid := by
  obtain ⟨host, hhost, rfl, l, hl, rfl⟩ := extractLog_eq_some h
  refine ⟨s.storeids host hhost l hl, s.seqnos host hhost l hl, fun r hr => ?_⟩
  rw [Rsle.index, s.server host hhost l hl r hr, He.hid]

theorem Shipped.mem_remoteLogs (h : log ∈ s.remoteLogs thisHost fid) :
    ∃ hid, extractLog s.hosts hid fid = some log := by
  obtain ⟨host, -, hlog⟩ := mem_filterMap.mp h
  split_ifs at hlog
  exact ⟨_, hlog⟩

/-- Below 128.0.0.0 the remote logs are all but the local one. -/
theorem Shipped.extractRemoteLogs_eq (haddr : thisHost.toNat < 2147483648) :
    extractRemoteLogs thisHost.toNat s.hosts fid = s.remoteLogs thisHost fid := by
  have hint : (thisHost.toNat : Int) = thisHost.toInt := by
    rw [BitVec.toInt_eq_toNat_of_lt (by omega)]
  refine filterMap_congr fun h _ => ?_
  have hiff : h.hid = (thisHost.toNat : Int) ↔ h.server = thisHost := by
    rw [hint, He.hid, BitVec.toInt_inj]
  simp only [hiff]
  rfl

/-- What `ComputeCompOps` returns where it finds the local log. -/
theorem Shipped.computeCompOps_eq (haddr : thisHost.toNat < 2147483648)
    (hlocal : s.logOf thisHost fid = some llog)
    (share : ∀ log ∈ s.remoteLogs thisHost fid, ∃ c ∈ log, Common llog c) :
    computeCompOps thisHost s.hosts fid = some (some (qsort cmpCompEntries
      (missing (sortLog llog) (mergeRemoteOps
        ((s.remoteLogs thisHost fid).map fun log => (behind llog log).getD []))))) := by
  have hextract : extractLog s.hosts thisHost.toNat fid = some llog := by
    rw [← hlocal, Shipped.logOf, BitVec.toInt_eq_toNat_of_lt (by omega)]
  obtain ⟨unique, -, -⟩ := s.extracted hlocal
  have known : ∀ log ∈ s.remoteLogs thisHost fid, (log.map Rsle.storeid).Nodup ∧
      log.Pairwise fun a b => a.seqno < b.seqno := by
    intro log hlog
    obtain ⟨hid, h⟩ := s.mem_remoteLogs hlog
    exact ⟨(s.extracted h).1, (s.extracted h).2.1⟩
  have hfind := findRemoteOps_eq unique (fun log hlog => (known log hlog).1)
    (fun log hlog => (known log hlog).2) share
  have hremove := removeLocalOps_eq
    (mergeRemoteOps_spec ((s.remoteLogs thisHost fid).map fun log => (behind llog log).getD [])).1
    (sortLog_ascending unique)
  unfold computeCompOps
  rw [hextract]
  dsimp only
  rw [s.extractRemoteLogs_eq haddr, hfind, bind_eq_bind, bind_some]
  dsimp only
  rewrite [hremove]
  rfl

/-- From 128.0.0.0 on this host does not find its own log. -/
theorem Shipped.computeCompOps_unsigned (haddr : ¬ thisHost.toNat < 2147483648) :
    computeCompOps thisHost s.hosts fid = some none := by
  have hnone : extractLog s.hosts thisHost.toNat fid = none := by
    rw [eq_none_iff_forall_ne_some]
    intro log hlog
    obtain ⟨host, -, hid, -⟩ := extractLog_eq_some hlog
    have hlt := host.server.toInt_lt
    rw [← He.hid] at hlt
    omega
  unfold computeCompOps
  rw [hnone]

/-- The entries that are compensated lie behind a common point. -/
theorem mem_mergeRemoteOps {rlogs : List (List Rsle)} {r : Rsle}
    (h : r ∈ mergeRemoteOps (rlogs.map fun log => (behind llog log).getD [])) :
    ∃ log ∈ rlogs, ∃ tail, behind llog log = some tail ∧ r ∈ tail := by
  obtain ⟨l, hl, hr⟩ := (mergeRemoteOps_spec _).2.1 r h
  obtain ⟨log, hlog, rfl⟩ := List.mem_map.mp hl
  cases hbehind : behind llog log with
  | none =>
    rw [hbehind] at hr
    cases hr
  | some tail =>
    rw [hbehind] at hr
    exact ⟨log, hlog, tail, hbehind, hr⟩

/-- An entry that lies behind a common point, by server and sequence number. -/
theorem Shipped.eq_of_index_seqno {a b : Rsle} {log' : List Rsle}
    (hlog : log ∈ s.remoteLogs thisHost fid) (ha : a ∈ log)
    (hlog' : log' ∈ s.remoteLogs thisHost fid) (hb : b ∈ log') (hindex : a.index = b.index)
    (hseqno : a.seqno = b.seqno) : a = b := by
  obtain ⟨hid, h⟩ := s.mem_remoteLogs hlog
  obtain ⟨hid', h'⟩ := s.mem_remoteLogs hlog'
  have hsame : log = log' := by
    have h₁ := (s.extracted h).2.2 a ha
    have h₂ := (s.extracted h').2.2 b hb
    rw [← h₁, hindex, h₂, h'] at h
    exact (some.inj h).symm
  subst hsame
  have nodup : (log.map Rsle.seqno).Nodup :=
    pairwise_map.mpr ((s.extracted h).2.1.imp Int.ne_of_lt)
  exact inj_on_of_nodup_map nodup ha hb hseqno

/-- The compensating operations, if no entry with the null store id has to be among them. -/
theorem Shipped.compensates
    (hnull : ∀ log ∈ s.remoteLogs thisHost fid, ∀ tail, behind llog log = some tail → ∀ r ∈ tail,
      r.storeid = nullSid → ∃ l ∈ llog, l.storeid = nullSid) :
    Compensates llog (s.remoteLogs thisHost fid) (qsort cmpCompEntries
      (missing (sortLog llog) (mergeRemoteOps
        ((s.remoteLogs thisHost fid).map fun log => (behind llog log).getD [])))) := by
  set tails := (s.remoteLogs thisHost fid).map fun log => (behind llog log).getD []
  obtain ⟨hasc, hfrom, hnonnull, hall⟩ := mergeRemoteOps_spec tails
  have hmem : ∀ r, r ∈ qsort cmpCompEntries (missing (sortLog llog) (mergeRemoteOps tails)) ↔
      r ∈ mergeRemoteOps tails ∧ ∀ l ∈ llog, l.storeid ≠ r.storeid := by
    intro r
    simp only [mem_qsort, mem_missing, sortLog]
  have honce : ((qsort cmpCompEntries (missing (sortLog llog) (mergeRemoteOps tails))).map
      Rsle.storeid).Nodup := by
    rw [((qsort_perm _ _).map _).nodup_iff]
    refine pairwise_map.mpr ((hasc.filter _).imp fun h heq => ?_)
    rw [heq] at h
    exact lt_irrefl _ h
  refine ⟨?_, honce, ?_, ?_⟩
  · refine List.Pairwise.imp_of_mem ?_ ((qsort_cmpCompEntries _).and (pairwise_map.mp honce))
    rintro a b ha hb ⟨hle, hne⟩
    rcases hle with hlt | ⟨heq, hle⟩
    · exact .inl hlt
    · refine .inr ⟨heq, lt_of_le_of_ne hle fun hseq => hne ?_⟩
      obtain ⟨log, hlog, tail, hbehind, ha⟩ := mem_mergeRemoteOps ((hmem a).mp ha).1
      obtain ⟨log', hlog', tail', hbehind', hb⟩ := mem_mergeRemoteOps ((hmem b).mp hb).1
      rw [s.eq_of_index_seqno hlog (behind_subset hbehind a ha) hlog'
        (behind_subset hbehind' b hb) heq hseq]
  · intro r hr
    obtain ⟨hr, hnew⟩ := (hmem r).mp hr
    exact ⟨mem_mergeRemoteOps hr, hnew⟩
  · intro log hlog tail hbehind r hr hnew
    have hne : r.storeid ≠ nullSid := by
      intro h
      obtain ⟨l, hl, hl'⟩ := hnull log hlog tail hbehind r hr h
      exact hnew l hl (hl'.trans h.symm)
    obtain ⟨r', hr', heq⟩ := hall tail
      (List.mem_map.mpr ⟨log, hlog, by rw [hbehind]; rfl⟩) r hr hne
    exact ⟨r', (hmem r').mpr ⟨hr', fun l hl => heq ▸ hnew l hl⟩, heq⟩

end Shipped

/-- `ComputeCompOps` returns the compensating operations exactly when this host's address is below
128.0.0.0 and no entry with the null store id has to be compensated. -/
theorem computeCompOps_iff (s : Shipped) (thisHost : BitVec 32) (fid : Fid) (llog : List Rsle)
    (hlocal : s.logOf thisHost fid = some llog)
    (share : ∀ log ∈ s.remoteLogs thisHost fid, ∃ c ∈ log, Common llog c) :
    (∃ ops, computeCompOps thisHost s.hosts fid = some (some ops) ∧
        Compensates llog (s.remoteLogs thisHost fid) ops) ↔
      thisHost.toNat < 2147483648 ∧
        ∀ log ∈ s.remoteLogs thisHost fid, ∀ tail, behind llog log = some tail → ∀ r ∈ tail,
          r.storeid = nullSid → ∃ l ∈ llog, l.storeid = nullSid := by
  constructor
  · rintro ⟨ops, hrun, comp⟩
    have haddr : thisHost.toNat < 2147483648 := by
      by_contra haddr
      rw [s.computeCompOps_unsigned haddr] at hrun
      cases hrun
    refine ⟨haddr, fun log hlog tail hbehind r hr hnull => ?_⟩
    by_contra hnew
    push Not at hnew
    obtain ⟨r', hr', heq⟩ := comp.complete log hlog tail hbehind r hr
      fun l hl => hnull ▸ hnew l hl
    rw [s.computeCompOps_eq haddr hlocal share] at hrun
    cases hrun
    exact (mergeRemoteOps_spec _).2.2.1 r' (mem_missing.mp (mem_qsort.mp hr')).1 (heq.trans hnull)
  · rintro ⟨haddr, hnull⟩
    exact ⟨_, s.computeCompOps_eq haddr hlocal share, s.compensates hnull⟩

/-- A directory made at both of two hosts, in which one of them then creates a file. -/
def twoLogs (thisHost : BitVec 32) (sid : StoreId) : List He :=
  [⟨thisHost, [⟨1#32, 1#32, [entry thisHost 1 ⟨7#32, 1#32⟩ 9]⟩]⟩,
    ⟨2#32, [⟨1#32, 1#32, [entry 2#32 1 ⟨7#32, 1#32⟩ 9, entry 2#32 2 sid 5]⟩]⟩]

def twoShipped (thisHost : BitVec 32) (sid : StoreId) (hsid : sid ≠ ⟨7#32, 1#32⟩) : Shipped where
  hosts := twoLogs thisHost sid
  server := by simp [twoLogs, entry]
  storeids := by simpa [twoLogs, entry] using hsid.symm
  seqnos := by simp [twoLogs, entry]

theorem computeCompOps_two_hosts :
    (∃ ops, computeCompOps 1#32 (twoLogs 1#32 ⟨7#32, 2#32⟩) ⟨1#32, 1#32⟩ = some (some ops) ∧
      Compensates [entry 1#32 1 ⟨7#32, 1#32⟩ 9]
        ((twoShipped 1#32 ⟨7#32, 2#32⟩ (by decide)).remoteLogs 1#32 ⟨1#32, 1#32⟩) ops) :=
  (computeCompOps_iff (twoShipped 1#32 ⟨7#32, 2#32⟩ (by decide)) 1#32 ⟨1#32, 1#32⟩
    [entry 1#32 1 ⟨7#32, 1#32⟩ 9] (by decide +kernel) (by decide +kernel)).mpr (by decide +kernel)

/-- An operation with the null store id is lost; and at 192.168.0.1 there is no local log. -/
theorem computeCompOps_loses :
    (computeCompOps 1#32 (twoLogs 1#32 nullSid) ⟨1#32, 1#32⟩ = some (some []) ∧
      behind [entry 1#32 1 ⟨7#32, 1#32⟩ 9] [entry 2#32 1 ⟨7#32, 1#32⟩ 9, entry 2#32 2 nullSid 5] =
        some [entry 2#32 2 nullSid 5]) ∧
    computeCompOps 0xc0a80001#32 (twoLogs 0xc0a80001#32 ⟨7#32, 2#32⟩) ⟨1#32, 1#32⟩ = some none := by
  decide +kernel

end Coda.Resolve
