import Coda.Resolve.Log

/-!
`ComputeCompOps`: the operations of the other replicas that this one still has to perform.

The local log and each remote log are sorted by store id. A merge finds the latest entry that a
remote log shares with the local one; what lies behind it is collected from all remote logs,
sorted, rid of duplicates, and rid of what the local log has. An outer `none` is a failed
assertion, an inner one the result `NULL`.
-/

namespace Coda.Resolve

open List

/-! ### The loops -/

/-- `ExtractLog`. -/
def extractLog (logs : List He) (hostid : Int) (fid : Fid) : Option (List Rsle) := do
  let hep ← logs.find? fun h => h.hid = hostid
  let rllp ← hep.vlist.find? fun l => l.vnode = fid.vnode ∧ l.unique = fid.unique
  return rllp.slelist

/-- `ExtractRemoteLogs`. -/
def extractRemoteLogs (thisHost : Int) (logs : List He) (fid : Fid) : List (List Rsle) :=
  logs.filterMap fun hoste =>
    if hoste.hid = thisHost then none else extractLog logs hoste.hid fid

def sortLog (log : List Rsle) : List Rsle := qsort cmpSleEntries log

/-- The inner loop of `LatestCommonPoint`, on what remains of the second log. -/
def advance (astid : StoreId) : List Rsle → List Rsle
  | b :: b' :: rest =>
    if compareStoreId astid b.storeid > 0 then advance astid (b' :: rest) else b :: b' :: rest
  | bs => bs

/-- `!LatestCommonEntry || IsLater(b, LatestCommonEntry)`. -/
def laterThan (b : Rsle) : Option Rsle → Bool
  | none => true
  | some latest => isLater b latest

/-- `LatestCommonPoint`, on what remains of the two logs. -/
def latestCommonPoint : List Rsle → List Rsle → Option Rsle → Option Rsle
  | [], _, latest => latest
  | a :: as, bs, latest =>
    match advance a.storeid bs with
    | [] => latest
    | b :: rest =>
      if compareStoreId a.storeid b.storeid = 0 ∧ laterThan b latest ∧ isNonResolveOp a.opcode ∧
          isNonResolveOp b.opcode then
        latestCommonPoint as (b :: rest) (some b)
      else latestCommonPoint as (b :: rest) latest

/-- The entries behind a common point. Entries of one log differ in their store ids, so that equal
ones are the same. -/
def opsAfter (commonPoint : Rsle) : List Rsle → Option (List Rsle)
  | [] => none
  | r :: rest => if r = commonPoint then some rest else opsAfter commonPoint rest

/-- `FindRemoteOps`. -/
def findRemoteOps (sllog : List Rsle) (rlogs : List (List Rsle)) :
    Option (Option (List (List Rsle))) :=
  match rlogs.mapM fun log => latestCommonPoint sllog (sortLog log) none with
  | none => some none
  | some commonPoints => do
    let ops ← (commonPoints.zip rlogs).mapM fun p => opsAfter p.1 p.2
    return some ops

/-- The loop of `MergeRemoteOps` over the sorted entries. -/
def removeDuplicates : StoreId → List Rsle → List Rsle
  | _, [] => []
  | prev, r :: rest =>
    if r.storeid = prev then removeDuplicates prev rest else r :: removeDuplicates r.storeid rest

/-- `MergeRemoteOps`. -/
def mergeRemoteOps (rmtops : List (List Rsle)) : List Rsle :=
  removeDuplicates nullSid (qsort cmpSleEntries rmtops.flatten)

/-- What a scan over a list does: the entries it passes, the one it stops at, the rest of the list
and the last comparison. -/
structure Scan where
  passed : List Rsle
  stop : Option Rsle
  rest : List Rsle
  res : Int

/-- The entries of `ops` are passed as long as they come before `lrsle`. -/
def scanOps (lrsle : Rsle) : List Rsle → Int → Scan
  | [], res => ⟨[], none, [], res⟩
  | orsle :: os, _ =>
    let res := compareStoreId orsle.storeid lrsle.storeid
    if res < 0 then
      let s := scanOps lrsle os res
      { s with passed := orsle :: s.passed }
    else ⟨[], some orsle, os, res⟩

/-- The entries of the local log are passed as long as `orsle` comes after them. -/
def scanLocal (orsle : Rsle) : List Rsle → Int → Scan
  | [], res => ⟨[], none, [], res⟩
  | lrsle :: ls, _ =>
    let res := compareStoreId orsle.storeid lrsle.storeid
    if res > 0 then
      let s := scanLocal orsle ls res
      { s with passed := lrsle :: s.passed }
    else ⟨[], some lrsle, ls, res⟩

/-- The loop of `RemoveLocalOps`, with the entries that the two iterators have still to give. The
entries come first among `ls` that were put back (`gotnextl`). -/
def removeLoop : Nat → List Rsle → List Rsle → Int → List Rsle → Option (List Rsle)
  | 0, _, _, _, _ => none
  | _ + 1, [], os, _, newlist => some (newlist ++ os)
  | k + 1, lrsle :: ls, os, res, newlist =>
    let s := scanOps lrsle os res
    let newlist := newlist ++ s.passed
    if s.res = 0 then removeLoop k ls s.rest s.res newlist
    else
      match s.stop with
      | none => some (newlist ++ s.rest)
      | some orsle =>
        let t := scanLocal orsle ls s.res
        match t.stop with
        | none => some (newlist ++ [orsle] ++ s.rest)
        | some lrsle =>
          if t.res = 0 then removeLoop k t.rest s.rest t.res newlist
          else if t.res < 0 then removeLoop k (lrsle :: t.rest) s.rest t.res (newlist ++ [orsle])
          else removeLoop k t.rest s.rest t.res newlist

/-- `RemoveLocalOps`. Each round uses up an entry of one of the lists. -/
def removeLocalOps (ops sllog : List Rsle) : Option (List Rsle) :=
  removeLoop (ops.length + sllog.length + 1) sllog ops (-1) []

/-- `ComputeCompOps`. `ThisHostAddr` is an `unsigned long`. -/
def computeCompOps (thisHostAddr : BitVec 32) (allLogs : List He) (fid : Fid) :
    Option (Option (List Rsle)) :=
  match extractLog allLogs thisHostAddr.toNat fid with
  | none => some none
  | some llog => do
    let sllog := sortLog llog
    match ← findRemoteOps sllog (extractRemoteLogs thisHostAddr.toNat allLogs fid) with
    | none => return none
    | some remoteOps =>
      let compOps ← removeLocalOps (mergeRemoteOps remoteOps) sllog
      return some (qsort cmpCompEntries compOps)

/-! ### Sorted logs -/

/-- The entries come in the order of their store ids, all of them different. -/
def Ascending (l : List Rsle) : Prop := l.Pairwise fun a b => a.storeid.key < b.storeid.key

theorem sortLog_ascending {log : List Rsle} (unique : (log.map Rsle.storeid).Nodup) :
    Ascending (sortLog log) := by
  have nodup : ((sortLog log).map Rsle.storeid).Nodup :=
    ((qsort_perm _ _).map _).nodup_iff.mpr unique
  have sorted := qsort_cmpSleEntries log
  refine (pairwise_map.mp nodup).imp₂ (fun a b hne hle => ?_) sorted
  have : a.storeid.key ≠ b.storeid.key := fun h => hne (StoreId.key_inj.mp h)
  omega

theorem Ascending.head_le {a x : Rsle} {l : List Rsle} (h : Ascending (a :: l)) (hx : x ∈ a :: l) :
    a.storeid.key ≤ x.storeid.key := by
  rcases mem_cons.mp hx with rfl | hx
  · exact le_rfl
  · exact le_of_lt ((pairwise_cons.mp h).1 x hx)

/-- The inner loop of `LatestCommonPoint` passes entries that come before the store id, and stops
at the first that does not, or at the last. -/
theorem advance_spec (s : StoreId) (b : Rsle) (bs : List Rsle) :
    ∃ passed b' rest, b :: bs = passed ++ b' :: rest ∧ advance s (b :: bs) = b' :: rest ∧
      (∀ x ∈ passed, x.storeid.key < s.key) ∧ (s.key ≤ b'.storeid.key ∨ rest = []) := by
  induction bs generalizing b with
  | nil => exact ⟨[], b, [], rfl, rfl, by simp, .inr rfl⟩
  | cons b₂ bs ih =>
    rw [advance]
    split_ifs with hcmp
    · obtain ⟨passed, b', rest, hsplit, hadv, hpassed, hstop⟩ := ih b₂
      refine ⟨b :: passed, b', rest, by rw [hsplit]; rfl, hadv, ?_, hstop⟩
      exact forall_mem_cons.mpr ⟨(compareStoreId_pos _ _).mp hcmp, hpassed⟩
    · refine ⟨[], b, b₂ :: bs, rfl, rfl, by simp, .inl ?_⟩
      rw [gt_iff_lt, compareStoreId_pos] at hcmp
      omega

/-- `y` is an operation of a client that the other log has as well. -/
def Common (llog : List Rsle) (y : Rsle) : Prop :=
  isNonResolveOp y.opcode = true ∧
    ∃ x ∈ llog, x.storeid = y.storeid ∧ isNonResolveOp x.opcode = true

/-- What `LatestCommonPoint` finds: the latest of the common entries and the one it began with. -/
structure Latest (candidate : Rsle → Prop) (r : Option Rsle) : Prop where
  isSome : ∀ y, candidate y → r.isSome = true
  mem : ∀ y, r = some y → candidate y
  latest : ∀ y, r = some y → ∀ z, candidate z → z.seqno ≤ y.seqno

theorem Latest.congr {p q : Rsle → Prop} {r : Option Rsle} (h : Latest p r) (hpq : ∀ y, p y ↔ q y) :
    Latest q r := by
  have : p = q := funext fun y => propext (hpq y)
  exact this ▸ h

/-- Nothing is common yet but the entry found before. -/
theorem Latest.start {candidate : Rsle → Prop} {latest : Option Rsle}
    (h : ∀ y, candidate y ↔ latest = some y) : Latest candidate latest where
  isSome y hy := by
    rw [(h y).mp hy]
    rfl
  mem y hy := (h y).mpr hy
  latest y hy z hz := by
    cases Option.some.inj (hy.symm.trans ((h z).mp hz))
    exact Int.le_refl _

/-- One round of `LatestCommonPoint`: what is common with the first entry can only be the entry at
which the inner loop stopped, and what it passed is common with none of the others. -/
theorem common_cons_iff {a b' : Rsle} {as passed rest : List Rsle} (ha : Ascending (a :: as))
    (hb : Ascending (b' :: rest)) (hpassed : ∀ x ∈ passed, x.storeid.key < a.storeid.key)
    (hstop : a.storeid.key ≤ b'.storeid.key ∨ rest = []) (y : Rsle) :
    (y ∈ passed ++ b' :: rest ∧ Common (a :: as) y) ↔
      (y = b' ∧ compareStoreId a.storeid b'.storeid = 0 ∧ isNonResolveOp a.opcode = true ∧
        isNonResolveOp b'.opcode = true) ∨ (y ∈ b' :: rest ∧ Common as y) := by
  have habove := (pairwise_cons.mp ha).1
  have hfirst : y ∈ passed ++ b' :: rest → a.storeid = y.storeid → y = b' := by
    intro hy heq
    rcases mem_append.mp hy with hy | hy
    · have := hpassed y hy
      rw [heq] at this
      omega
    · rcases mem_cons.mp hy with rfl | hy
      · rfl
      · have h₁ := (pairwise_cons.mp hb).1 y hy
        rcases hstop with hle | rfl
        · rw [heq] at hle
          omega
        · cases hy
  have hothers : y ∈ passed → ¬ Common as y := by
    rintro hy ⟨-, x, hx, heq, -⟩
    have h₁ := habove x hx
    have h₂ := hpassed y hy
    rw [heq] at h₁
    omega
  constructor
  · rintro ⟨hy, hop, x, hx, heq, hxop⟩
    rcases mem_cons.mp hx with rfl | hx
    · cases hfirst hy heq
      exact .inl ⟨rfl, (compareStoreId_zero _ _).mpr heq, hxop, hop⟩
    · have hc : Common as y := ⟨hop, x, hx, heq, hxop⟩
      rcases mem_append.mp hy with hy | hy
      · exact absurd hc (hothers hy)
      · exact .inr ⟨hy, hc⟩
  · rintro (⟨rfl, hcmp, hxop, hop⟩ | ⟨hy, hop, x, hx, heq, hxop⟩)
    · exact ⟨by simp, hop, a, .head _, (compareStoreId_zero _ _).mp hcmp, hxop⟩
    · exact ⟨mem_append_right _ hy, hop, x, .tail _ hx, heq, hxop⟩

theorem latestCommonPoint_spec (as bs : List Rsle) (latest : Option Rsle) (ha : Ascending as)
    (hb : Ascending bs) :
    Latest (fun y => latest = some y ∨ y ∈ bs ∧ Common as y) (latestCommonPoint as bs latest) := by
  induction as generalizing bs latest with
  | nil =>
    rw [latestCommonPoint]
    exact Latest.start fun y => by simp [Common]
  | cons a as ih =>
    have has : Ascending as := ha.of_cons
    cases bs with
    | nil =>
      rw [latestCommonPoint, advance]
      · exact Latest.start fun y => by simp
      · simp
    | cons b bs =>
      obtain ⟨passed, b', rest, hsplit, hadv, hpassed, hstop⟩ := advance_spec a.storeid b bs
      rw [hsplit] at hb hadv ⊢
      have hrest : Ascending (b' :: rest) := (pairwise_append.mp hb).2.1
      have hcommon := common_cons_iff ha hrest hpassed hstop
      rw [latestCommonPoint, hadv]
      dsimp only
      split_ifs with hcond
      · obtain ⟨hcmp, hlater, hxop, hop⟩ := hcond
        have step := ih (b' :: rest) (some b') has hrest
        refine ⟨fun _ _ => step.isSome b' (.inl rfl), ?_, ?_⟩
        · intro y hy
          rcases step.mem y hy with h | h
          · cases h
            exact .inr ((hcommon b').mpr (.inl ⟨rfl, hcmp, hxop, hop⟩))
          · exact .inr ((hcommon y).mpr (.inr h))
        · rintro y hy z (rfl | hz)
          · have h₁ := step.latest y hy b' (.inl rfl)
            have h₂ : z.seqno < b'.seqno := by simpa [laterThan, isLater] using hlater
            omega
          · rcases (hcommon z).mp hz with ⟨rfl, -⟩ | h
            · exact step.latest y hy z (.inl rfl)
            · exact step.latest y hy z (.inr h)
      · have step := ih (b' :: rest) latest has hrest
        -- a common `b'` is not taken only because there is a later one already
        have hkept : compareStoreId a.storeid b'.storeid = 0 ∧ isNonResolveOp a.opcode = true ∧
            isNonResolveOp b'.opcode = true → ∃ l, latest = some l ∧ b'.seqno ≤ l.seqno := by
          rintro ⟨hcmp, hxop, hop⟩
          cases latest with
          | none => exact absurd ⟨hcmp, rfl, hxop, hop⟩ hcond
          | some l =>
            have hnot : laterThan b' (some l) ≠ true := fun h => hcond ⟨hcmp, h, hxop, hop⟩
            simpa [laterThan, isLater] using hnot
        refine ⟨?_, ?_, ?_⟩
        · rintro y (hy | hy)
          · exact step.isSome y (.inl hy)
          · rcases (hcommon y).mp hy with ⟨rfl, h⟩ | h
            · obtain ⟨l, hl, -⟩ := hkept h
              exact step.isSome l (.inl hl)
            · exact step.isSome y (.inr h)
        · intro y hy
          rcases step.mem y hy with h | h
          · exact .inl h
          · exact .inr ((hcommon y).mpr (.inr h))
        · rintro y hy z (hz | hz)
          · exact step.latest y hy z (.inl hz)
          · rcases (hcommon z).mp hz with ⟨rfl, h⟩ | h
            · obtain ⟨l, hl, hle⟩ := hkept h
              exact Int.le_trans hle (step.latest y hy l (.inl hl))
            · exact step.latest y hy z (.inr h)

/-! ### Duplicates -/

/-- Among sorted entries the loop of `MergeRemoteOps` keeps the first of each store id other than
the one it begins with. -/
theorem removeDuplicates_spec (prev : StoreId) (l : List Rsle)
    (sorted : l.Pairwise fun a b => a.storeid.key ≤ b.storeid.key)
    (above : ∀ r ∈ l, prev.key ≤ r.storeid.key) :
    (removeDuplicates prev l).Sublist l ∧ Ascending (removeDuplicates prev l) ∧
      (∀ r ∈ removeDuplicates prev l, prev.key < r.storeid.key) ∧
      ∀ r ∈ l, r.storeid ≠ prev → ∃ r' ∈ removeDuplicates prev l, r'.storeid = r.storeid := by
  induction l generalizing prev with
  | nil => exact ⟨.slnil, .nil, by simp [removeDuplicates], by simp⟩
  | cons r rest ih =>
    obtain ⟨hle, hrest⟩ := pairwise_cons.mp sorted
    obtain ⟨hr, habove⟩ := forall_mem_cons.mp above
    rw [removeDuplicates]
    split_ifs with heq
    · obtain ⟨hsub, hasc, hgt, hall⟩ := ih prev hrest habove
      refine ⟨hsub.cons r, hasc, hgt, ?_⟩
      exact forall_mem_cons.mpr ⟨fun hne => absurd heq hne, hall⟩
    · obtain ⟨hsub, hasc, hgt, hall⟩ := ih r.storeid hrest hle
      have hlt : prev.key < r.storeid.key := by
        have : prev.key ≠ r.storeid.key := fun h => heq (StoreId.key_inj.mp h).symm
        omega
      refine ⟨hsub.cons_cons r, pairwise_cons.mpr ⟨hgt, hasc⟩, ?_, ?_⟩
      · exact forall_mem_cons.mpr ⟨hlt, fun x hx => lt_trans hlt (hgt x hx)⟩
      · intro x hx _
        by_cases hsame : x.storeid = r.storeid
        · exact ⟨r, .head _, hsame.symm⟩
        · rcases mem_cons.mp hx with rfl | hx
          · exact absurd rfl hsame
          · obtain ⟨x', hx', heq'⟩ := hall x hx hsame
            exact ⟨x', .tail _ hx', heq'⟩

/-- `MergeRemoteOps`: one entry for each store id among the operations, except the null one. -/
theorem mergeRemoteOps_spec (rmtops : List (List Rsle)) :
    Ascending (mergeRemoteOps rmtops) ∧ (∀ r ∈ mergeRemoteOps rmtops, ∃ l ∈ rmtops, r ∈ l) ∧
      (∀ r ∈ mergeRemoteOps rmtops, r.storeid ≠ nullSid) ∧
      ∀ l ∈ rmtops, ∀ r ∈ l, r.storeid ≠ nullSid →
        ∃ r' ∈ mergeRemoteOps rmtops, r'.storeid = r.storeid := by
  have sorted : (qsort cmpSleEntries rmtops.flatten).Pairwise fun a b =>
      a.storeid.key ≤ b.storeid.key :=
    (qsort_cmpSleEntries _).imp fun h => by omega
  obtain ⟨hsub, hasc, hgt, hall⟩ :=
    removeDuplicates_spec nullSid _ sorted fun r _ => Nat.zero_le _
  refine ⟨hasc, fun r hr => ?_, fun r hr h => ?_, fun l hl r hr hne => ?_⟩
  · exact mem_flatten.mp (mem_qsort.mp (hsub.subset hr))
  · have := hgt r hr
    rw [h] at this
    omega
  · exact hall r (mem_qsort.mpr (mem_flatten.mpr ⟨l, hl, hr⟩)) hne

/-! ### Subtraction -/

/-- The entries whose store id the local log does not have. -/
def missing (llog ops : List Rsle) : List Rsle :=
  ops.filter fun o => ∀ l ∈ llog, l.storeid ≠ o.storeid

theorem mem_missing {llog ops : List Rsle} {r : Rsle} :
    r ∈ missing llog ops ↔ r ∈ ops ∧ ∀ l ∈ llog, l.storeid ≠ r.storeid := by
  simp [missing]

/-- A scan that passes the entries below `key` ends, or stops at the first that is not below. -/
def Scanned (key : Nat) (cmp : Rsle → Int) (xs : List Rsle) (res : Int) (s : Scan) : Prop :=
  (∃ r, s = ⟨xs, none, [], r⟩ ∧ (r = 0 → xs = [] ∧ res = 0) ∧ ∀ x ∈ xs, x.storeid.key < key) ∨
    ∃ passed x rest, xs = passed ++ x :: rest ∧ s = ⟨passed, some x, rest, cmp x⟩ ∧
      (∀ y ∈ passed, y.storeid.key < key) ∧ key ≤ x.storeid.key

theorem Scanned.cons {key : Nat} {cmp : Rsle → Int} {x : Rsle} {xs : List Rsle} {res : Int} {s : Scan}
    (hlt : x.storeid.key < key) (hne : cmp x ≠ 0) (h : Scanned key cmp xs (cmp x) s) :
    Scanned key cmp (x :: xs) res { s with passed := x :: s.passed } := by
  rcases h with ⟨r, rfl, hr, hall⟩ | ⟨passed, y, rest, rfl, rfl, hpassed, hle⟩
  · exact .inl ⟨r, rfl, fun hzero => absurd (hr hzero).2 hne, forall_mem_cons.mpr ⟨hlt, hall⟩⟩
  · exact .inr ⟨x :: passed, y, rest, rfl, rfl, forall_mem_cons.mpr ⟨hlt, hpassed⟩, hle⟩

theorem scanned_scanOps (l : Rsle) (os : List Rsle) (res : Int) :
    Scanned l.storeid.key (fun o => compareStoreId o.storeid l.storeid) os res (scanOps l os res) := by
  induction os generalizing res with
  | nil => exact .inl ⟨res, rfl, fun h => ⟨rfl, h⟩, by simp⟩
  | cons o os ih =>
    rw [scanOps]
    split_ifs with hcmp
    · exact .cons ((compareStoreId_neg _ _).mp hcmp) hcmp.ne (ih _)
    · rw [compareStoreId_neg] at hcmp
      exact .inr ⟨[], o, os, rfl, rfl, by simp, Nat.le_of_not_lt hcmp⟩

theorem scanned_scanLocal (o : Rsle) (ls : List Rsle) (res : Int) :
    Scanned o.storeid.key (fun l => compareStoreId o.storeid l.storeid) ls res
      (scanLocal o ls res) := by
  induction ls generalizing res with
  | nil => exact .inl ⟨res, rfl, fun h => ⟨rfl, h⟩, by simp⟩
  | cons l ls ih =>
    rw [scanLocal]
    split_ifs with hcmp
    · exact .cons ((compareStoreId_pos _ _).mp hcmp) hcmp.ne' (ih _)
    · rw [gt_iff_lt, compareStoreId_pos] at hcmp
      exact .inr ⟨[], l, ls, rfl, rfl, by simp, Nat.le_of_not_lt hcmp⟩

section Missing

variable {llog ops : List Rsle}

theorem missing_append (llog os os' : List Rsle) :
    missing llog (os ++ os') = missing llog os ++ missing llog os' :=
  filter_append os os'

/-- Operations that come before or after every local entry are all missing. -/
theorem missing_eq_self (h : ∀ o ∈ ops, ∀ l ∈ llog, l.storeid.key ≠ o.storeid.key) :
    missing llog ops = ops := by
  apply filter_eq_self.mpr
  intro o ho
  rw [decide_eq_true_iff]
  intro l hl heq
  exact h o ho l hl (by rw [heq])

/-- Local entries that come before every operation do not matter. -/
theorem missing_drop (passed : List Rsle)
    (h : ∀ o ∈ ops, ∀ l ∈ passed, l.storeid.key ≠ o.storeid.key) :
    missing (passed ++ llog) ops = missing llog ops := by
  apply filter_congr
  intro o ho
  rw [decide_eq_decide]
  constructor
  · exact fun hall l hl => hall l (mem_append_right _ hl)
  · intro hall l hl
    rcases mem_append.mp hl with hl | hl
    · exact fun heq => h o ho l hl (by rw [heq])
    · exact hall l hl

/-- An operation that is the first local entry is not missing; neither matters further. -/
theorem missing_cons_cons {l o : Rsle} (h : o.storeid = l.storeid) (ho : Ascending (o :: ops)) :
    missing (l :: llog) (o :: ops) = missing llog ops := by
  have hfirst : missing (l :: llog) (o :: ops) = missing (l :: llog) ops := by
    apply filter_cons_of_neg
    rw [decide_eq_true_iff]
    exact fun hall => hall l (.head _) h.symm
  rw [hfirst]
  refine missing_drop [l] fun o' ho' l' hl' => ?_
  rw [mem_singleton.mp hl', ← h]
  exact ne_of_lt ((pairwise_cons.mp ho).1 o' ho')

end Missing

/-- The loop of `RemoveLocalOps` adds what is missing from the local log. -/
theorem removeLoop_eq (k : Nat) (ls os : List Rsle) (res : Int) (newlist : List Rsle)
    (hls : Ascending ls) (hos : Ascending os) (hk : os.length + ls.length < k) :
    removeLoop k ls os res newlist = some (newlist ++ missing ls os) := by
  induction k generalizing ls os res newlist with
  | zero => omega
  | succ k ih =>
    cases ls with
    | nil =>
      rw [removeLoop, missing_eq_self (by simp)]
    | cons l ls =>
      have hls' : Ascending ls := hls.of_cons
      rw [removeLoop]
      rcases scanned_scanOps l os res with
        ⟨r, hscan, hr, hall⟩ | ⟨passed, o, rest, rfl, hscan, hpassed, hle⟩
      · -- no more operations
        have hself : missing (l :: ls) os = os := by
          refine missing_eq_self fun o ho l' hl' => ?_
          have h₁ := hall o ho
          have h₂ := hls.head_le hl'
          omega
        rw [hscan, hself]
        split_ifs with hzero
        · cases (hr hzero).1
          rw [append_nil, ih ls [] r newlist hls' .nil (by simp at hk ⊢; omega),
            missing_eq_self (by simp), append_nil]
        · rw [append_nil]
      · obtain ⟨-, horest, hbefore⟩ := pairwise_append.mp hos
        have hrest : Ascending rest := horest.of_cons
        have hpass : missing (l :: ls) passed = passed := by
          refine missing_eq_self fun x hx l' hl' => ?_
          have h₁ := hpassed x hx
          have h₂ := hls.head_le hl'
          omega
        simp only [length_append, length_cons] at hk
        rw [hscan, missing_append, hpass]
        dsimp only
        by_cases hzero : compareStoreId o.storeid l.storeid = 0
        · -- the operation is the local entry
          have heq := (compareStoreId_zero _ _).mp hzero
          rw [if_pos hzero, missing_cons_cons heq horest, ih ls rest _ _ hls' hrest (by omega),
            append_assoc]
        · rw [if_neg hzero]
          have hlt : l.storeid.key < o.storeid.key := by
            have : o.storeid.key ≠ l.storeid.key := fun h =>
              hzero ((compareStoreId_zero _ _).mpr (StoreId.key_inj.mp h))
            omega
          rcases scanned_scanLocal o ls (compareStoreId o.storeid l.storeid) with
            ⟨r, hscan', -, hall⟩ | ⟨passed', l', rest', rfl, hscan', hpassed', hle'⟩
          · -- no more local entries
            have hbelow : ∀ y ∈ l :: ls, y.storeid.key < o.storeid.key :=
              forall_mem_cons.mpr ⟨hlt, hall⟩
            have hself : missing (l :: ls) (o :: rest) = o :: rest := by
              refine missing_eq_self fun x hx y hy => ?_
              have h₁ := hbelow y hy
              have h₂ := Ascending.head_le horest hx
              omega
            rw [hscan', hself]
            simp only [append_assoc, singleton_append]
          · have hls'' : Ascending (l' :: rest') := (pairwise_append.mp hls').2.1
            have hbelow : ∀ y ∈ l :: passed', y.storeid.key < o.storeid.key :=
              forall_mem_cons.mpr ⟨hlt, hpassed'⟩
            have hdrop : missing (l :: (passed' ++ l' :: rest')) (o :: rest) =
                missing (l' :: rest') (o :: rest) := by
              refine missing_drop (l :: passed') fun x hx y hy => ?_
              have h₁ := hbelow y hy
              have h₂ := Ascending.head_le horest hx
              omega
            simp only [length_append, length_cons] at hk
            rw [hscan', hdrop]
            dsimp only
            split_ifs with hzero' hneg
            · rw [compareStoreId_zero] at hzero'
              rw [missing_cons_cons hzero' horest,
                ih rest' rest _ _ hls''.of_cons hrest (by omega), append_assoc]
            · have hlt' := (compareStoreId_neg _ _).mp hneg
              have hkeep : missing (l' :: rest') (o :: rest) = o :: missing (l' :: rest') rest := by
                apply filter_cons_of_pos
                rw [decide_eq_true_iff]
                intro y hy heq
                have := hls''.head_le hy
                rw [heq] at this
                omega
              rw [hkeep, ih (l' :: rest') rest _ _ hls'' hrest (by
                simp only [length_cons]
                omega)]
              simp only [append_assoc, singleton_append]
            · rw [compareStoreId_neg] at hneg
              rw [compareStoreId_zero] at hzero'
              exact absurd (StoreId.key_inj.mp (by omega)) hzero'

/-- `RemoveLocalOps` subtracts the local log. -/
theorem removeLocalOps_eq {ops sllog : List Rsle} (hops : Ascending ops) (hlog : Ascending sllog) :
    removeLocalOps ops sllog = some (missing sllog ops) := by
  rw [removeLocalOps, removeLoop_eq _ _ _ _ _ hlog hops (by omega), nil_append]

end Coda.Resolve
