import Coda.Al.PdbOps

/-!
`PDB_changeId`. The profile moves to its new key, its parents and, for a group, its owner
come to list the new id, and at last the profiles that refer to the old id are changed and
their cps computed again. Between these steps the members of a renamed group are not good;
the last step makes them so.
-/

namespace Coda.Al

open Coda.Lib Option Function Graph

variable {db db' : Pdb} {rank : Int → Nat} {fuel : Nat} {a b : Int} {r : PdbProfile}

/-! ### The profile under its new key -/

/-- The database after the profile of `a` was written under `b`. -/
structure Moved (rank : Int → Nat) (a b : Int) (db db' : Pdb) : Prop where
  ok : AllOK (Function.update rank b (rank a)) db'
  bounded : Bounded db'
  graph : db'.graph = db.graph.move a b
  own : Good db' b
  good : ∀ x, x ≠ b → ¬ db.graph.memberOf x a → Good db' x

theorem graph_moved (hr : db.profiles a = some r) (hrok : ProfileOK rank a r) :
    ((pdbDeleteProfile db r).put { r with id := b }).graph = db.graph.move a b := by
  obtain rfl := hrok.id
  refine ext_iffs (fun x => ?_) (fun x g => ?_) (fun g x => ?_) (fun x w => ?_)
  · rw [dom_put, dom_deleted]
    exact .rfl
  · rw [memberOf_put, memberOf_deleted, ← memberOf_read hr]
    simp only [move]
    tauto
  · rw [lists_put, lists_deleted, ← lists_read hr]
    simp only [move]
    tauto
  · rw [owner_put, owner_deleted, ← owner_read hr]
    simp only [move]
    tauto

section Sign

variable (inv : PdbInv rank db) (fresh : ¬ db.graph.dom b)
include inv fresh

omit inv in
theorem update_rank {x : Int} (hx : db.graph.dom x) :
    update rank b (rank a) x = rank x := by
  refine update_of_ne ?_ _ _
  rintro rfl
  exact fresh hx

theorem AllOK.moved_rank : AllOK (update rank b (rank a)) db := by
  refine inv.ok.rerank inv.symm fun x g h => ?_
  obtain ⟨hx, hg⟩ := inv.symm.dom_of_memberOf inv.ok.wellFormed h
  rw [update_rank fresh hx, update_rank fresh hg]
  obtain ⟨p, hp, hmem⟩ := h
  exact ((inv.ok x p hp).parent g hmem).2

/-- The parents of `a` stay below it under its new id. -/
theorem update_rank_parent {g : Int} (h : db.graph.memberOf a g) :
    update rank b (rank a) g < update rank b (rank a) b := by
  rw [update_rank fresh (inv.symm.dom_of_memberOf inv.ok.wellFormed h).2, update_self]
  obtain ⟨p, hp, hg⟩ := h
  exact ((inv.ok a p hp).parent g hg).2

/-- And the members of `a` above it. -/
theorem update_rank_member {x : Int} (h : db.graph.memberOf x a) :
    update rank b (rank a) b < update rank b (rank a) x := by
  rw [update_rank fresh (inv.ok.wellFormed.memberOf x a h).1, update_self]
  obtain ⟨p, hp, ha⟩ := h
  exact ((inv.ok x p hp).parent a ha).2

theorem pdbUpdateCps_moved (sign : SameSign a b) (hr : db.profiles a = some r)
    (run : pdbUpdateCps fuel (pdbDeleteProfile db r) { r with id := b } = some db') :
    Moved rank a b db db' := by
  have hrok := inv.ok a r hr
  have wf := inv.ok.wellFormed
  have okr : ProfileOK (update rank b (rank a)) b { r with id := b } := by
    refine { hrok with id := rfl, nonzero := ?_, parent := fun g hg => ?_, member := fun c hc => ?_,
                       user := fun h => hrok.user ?_, owner := fun h => hrok.owner ?_ }
    · rcases sign with h | h <;> omega
    · exact ⟨(hrok.parent g hg).1, update_rank_parent inv fresh ⟨r, hr, hg⟩⟩
    · refine ⟨(hrok.member c hc).1, fun hb => update_rank_member inv fresh ?_⟩
      exact (inv.symm a c (by rcases sign with h | h <;> omega)).mpr ⟨r, hr, hc⟩
    · rcases sign with h | h <;> omega
    · rcases sign with h | h <;> omega
  have ok := (AllOK.moved_rank inv fresh).deleted (r := r) |>.put okr
  have graph := graph_moved (b := b) hr hrok
  have updated := pdbUpdateCps_spec fuel _ _ _ ok inv.bounded.deleted run
  refine ⟨updated.ok, updated.bounded, updated.shape.graph_eq.trans graph, updated.own, ?_⟩
  intro x hx hxa
  refine updated.keep x ?_ (Good.put_new hx ?_ ((inv.good x).deleted (hrok.id.symm ▸ hxa)))
  · rw [known_iff, graph]
    rintro g (⟨rfl, -⟩ | ⟨hxa', -, h⟩) hg
    · exact absurd rfl hx
    · have hgb : g ≠ b := fun heq => fresh (heq ▸ (inv.symm.dom_of_memberOf wf h).2)
      have hga := (hg.resolve_left hgb).1
      exact .inr ⟨hga, hgb, (inv.symm g x (wf.memberOf x g h).2).mp h⟩
  · rw [memberOf_deleted]
    exact fun h => fresh (inv.symm.dom_of_memberOf wf h.2).2

end Sign

/-! ### The lists that name the old id -/

/-- What `PDB_changeId` makes of a profile that lists the old id. -/
def relisted (a b : Int) (p : PdbProfile) : PdbProfile := (p.delMember a).addMember b

theorem relistAll_spec {ids : List Int} (ok : AllOK rank db) (nodup : ids.Nodup) (hb : b ≠ 0)
    (hrank : ∀ g ∈ ids, g < 0 → rank g < rank b) (run : editAll (relisted a b) ids db = some db') :
    AllOK rank db' ∧ (Bounded db → Bounded db') ∧ (∀ x, Good db x → Good db' x) ∧
      db'.graph = db.graph.relist (· ∈ ids) a b := by
  obtain ⟨-, bounded, hfinal⟩ := editAll_spec (f := relisted a b) (fun _ => rfl) nodup
    (fun x p hp => (ok x p hp).id) run
  refine ⟨?_, bounded, fun x => editAll_good (f := relisted a b) (fun _ => rfl) (fun _ => rfl) hfinal, ?_⟩
  · exact ok.edited hfinal fun g hg p hp => ((ok g p hp).delMember a).addMember hb (hrank g hg)
  · rw [graph_edited hfinal (fun _ => rfl) fun _ => rfl]
    refine ext_iffs (fun _ => .rfl) (fun _ _ => .rfl) (fun g y => ?_) (fun _ _ => .rfl)
    refine or_congr_left (and_congr_right fun _ => ?_)
    constructor
    · rintro ⟨p, hp, hy⟩
      refine ⟨⟨p, hp⟩, ((mem_pdbArrayAdd _ _ _).mp hy).imp_right fun hy => ?_⟩
      obtain ⟨hy, hne⟩ := (mem_pdbArrayDel (ok g p hp).members_sorted a y).mp hy
      exact ⟨⟨p, hp, hy⟩, hne⟩
    · rintro ⟨⟨p, hp⟩, hy⟩
      refine ⟨p, hp, (mem_pdbArrayAdd _ _ _).mpr (hy.imp_right ?_)⟩
      rintro ⟨hy, hne⟩
      exact (mem_pdbArrayDel (ok g p hp).members_sorted a y).mpr ⟨(lists_read hp y).mp hy, hne⟩

/-- One profile is edited as a list of one. -/
theorem editAll_singleton (f : PdbProfile → PdbProfile) (x : Int) (db : Pdb) :
    editAll f [x] db = (pdbReadProfile db x).bind fun p => pdbWriteProfile db (f p) := by
  rw [editAll, List.foldlM_cons]
  simp only [List.foldlM_nil, bind_pure]
  rfl

/-- The database when all lists have the new id: only the profiles that have `a` as a parent
or as their owner are left to be changed. -/
structure Linked (rank : Int → Nat) (a b : Int) (db : Pdb) (H : Graph) (db' : Pdb) : Prop where
  ok : AllOK (Function.update rank b (rank a)) db'
  bounded : Bounded db'
  graph : db'.graph = H.relist (db.graph.memberOf a) a b
  known : ∀ x, Known db' x
  own : Good db' b
  good : ∀ x, x ≠ b → ¬ db.graph.memberOf x a → Good db' x

section Linked

variable (inv : PdbInv rank db) (fresh : ¬ db.graph.dom b) (hb : b ≠ 0) (hr : db.profiles a = some r)
include inv fresh hb hr

/-- The parents of a user. -/
theorem Moved.link_user {db₁ db₂ : Pdb} {uid gid : Int} (moved : Moved rank a b db db₁)
    (run₁ : pdbDbUpdateMaxids db₁ uid gid = some db₂)
    (run₂ : editAll (relisted a b) r.memberOf db₂ = some db') :
    Linked rank a b db (db.graph.move a b) db' := by
  have hprof := (pdbDbUpdateMaxids_eq run₁).1
  have hrok := inv.ok a r hr
  obtain ⟨ok, bounded, good, graph⟩ := relistAll_spec (moved.ok.of_profiles hprof)
    hrok.memberOf_sorted.nodup hb (fun g hg _ => update_rank_parent inv fresh ⟨r, hr, hg⟩) run₂
  have graph' : db'.graph = (db.graph.move a b).relist (db.graph.memberOf a) a b := by
    rw [graph, graph_of_profiles hprof, moved.graph]
    simp only [← memberOf_read hr]
  refine ⟨ok, bounded (pdbDbUpdateMaxids_bounded moved.bounded run₁), graph', fun x => ?_,
    good b (moved.own.of_profiles hprof), fun x hx hxa => good x ((moved.good x hx hxa).of_profiles hprof)⟩
  rw [known_iff, graph']
  exact fun g h hg => inv.symm.known_moved inv.ok.wellFormed fresh rfl rfl (fun _ _ _ h => h) h hg

/-- The owner and the parents of a group. -/
theorem Moved.link_group {db₁ db₂ db₃ : Pdb} {u uid gid : Int} (moved : Moved rank a b db db₁)
    (hu : 0 < u) (run₁ : editAll (relisted a b) [u] db₁ = some db₂)
    (run₂ : pdbDbUpdateMaxids db₂ uid gid = some db₃)
    (run₃ : editAll (relisted a b) r.memberOf db₃ = some db') :
    Linked rank a b db ((db.graph.move a b).relist (· = u) a b) db' := by
  have hprof := (pdbDbUpdateMaxids_eq run₂).1
  have hrok := inv.ok a r hr
  obtain ⟨ok₂, bounded₂, good₂, graph₂⟩ := relistAll_spec moved.ok (List.nodup_singleton u) hb
    (fun g hg hneg => by rw [List.mem_singleton.mp hg] at hneg; omega) run₁
  obtain ⟨ok, bounded, good, graph⟩ := relistAll_spec (ok₂.of_profiles hprof)
    hrok.memberOf_sorted.nodup hb (fun g hg _ => update_rank_parent inv fresh ⟨r, hr, hg⟩) run₃
  have graph' : db'.graph =
      ((db.graph.move a b).relist (· = u) a b).relist (db.graph.memberOf a) a b := by
    rw [graph, graph_of_profiles hprof, graph₂, moved.graph]
    simp only [← memberOf_read hr, List.mem_singleton]
  have keep : ∀ x, Good db₁ x → Good db' x := fun x h => good x ((good₂ x h).of_profiles hprof)
  refine ⟨ok, bounded (pdbDbUpdateMaxids_bounded (bounded₂ moved.bounded) run₂), graph', fun x => ?_,
    keep b moved.own, fun x hx hxa => keep x (moved.good x hx hxa)⟩
  rw [known_iff, graph']
  exact fun g h hg => inv.symm.known_moved (H := (db.graph.move a b).relist (· = u) a b)
    inv.ok.wellFormed fresh rfl rfl (fun g x hneg h => .inr ⟨by omega, h⟩) h hg

end Linked

/-! ### The profiles that refer to the old id -/

theorem renamed_user (ha : 0 < a) : renamed a b = fun p =>
    if p.id < 0 ∧ p.ownerId = a then { p with ownerId := b } else p := by
  funext p
  simp only [renamed, pdbIsGroup, decide_eq_true_eq]
  rw [if_neg (by omega)]

theorem renamed_group (ha : a < 0) : renamed a b = fun p => (p.delParent a).addParent b := by
  funext p
  simp only [renamed, pdbIsGroup, decide_eq_true_eq]
  rw [if_pos ha]

theorem shape_renamed (a b : Int) (p : PdbProfile) : (renamed a b p).shape = renamed a b p.shape := by
  unfold renamed
  by_cases ha : pdbIsGroup a
  · rw [if_pos ha, if_pos ha]
    rfl
  · rw [if_neg ha, if_neg ha]
    by_cases hp : pdbIsGroup p.id ∧ p.ownerId = a
    · rw [if_pos hp, if_pos (show pdbIsGroup p.shape.id ∧ p.shape.ownerId = a from hp)]
      rfl
    · rw [if_neg hp, if_neg (show ¬ (pdbIsGroup p.shape.id ∧ p.shape.ownerId = a) from hp)]

section Renamed

variable {H : Graph} (inv : PdbInv rank db) (fresh : ¬ db.graph.dom b) (hr : db.profiles a = some r)
include inv fresh hr

theorem Linked.rename_user {db₁ : Pdb} (linked : Linked rank a b db (db.graph.move a b) db₁)
    (ha : 0 < a) (hb : 0 < b)
    (run : updateAll fuel (renamed a b) r.groupsOrMembers db₁ = some db') :
    PdbInv (update rank b (rank a)) db' ∧ db'.graph = db.graph.renameUser a b := by
  have hrok := inv.ok a r hr
  have wf := inv.ok.wellFormed
  have hshape : ∀ p p' : PdbProfile, p'.shape = p.shape →
      (renamed a b p').shape = (renamed a b p).shape := fun p p' h => by
    rw [shape_renamed, shape_renamed, h]
  have heq := renamed_user (b := b) ha
  have same : ∀ p, (renamed a b p).id = p.id ∧ (renamed a b p).cps = p.cps ∧
      (renamed a b p).memberOf = p.memberOf ∧
      (renamed a b p).groupsOrMembers = p.groupsOrMembers := by
    intro p
    rw [heq]
    dsimp only
    split_ifs <;> exact ⟨rfl, rfl, rfl, rfl⟩
  have change : Changeable (update rank b (rank a)) (renamed a b) r.groupsOrMembers db₁ := by
    refine ⟨fun x _ p hp => ?_, fun x _ p hp g hg q hq => ?_⟩
    · have hpok := linked.ok x p hp
      rw [heq]
      dsimp only
      split_ifs with h
      · rw [hpok.id] at h
        exact { hpok with user := fun hx => by omega, owner := fun _ => hb }
      · exact hpok
    · rw [(same p).2.2.1] at hg
      exact linked.known x p hp g hg q hq
  have updated := updateAll_spec (fun p => (same p).1) (fun p => (same p).2.1)
    (fun p => (same p).2.2.2) hshape hrok.members_sorted.nodup linked.ok linked.bounded linked.known
    change run
  have graph : db'.graph = db.graph.renameUser a b := by
    rw [updated.graph_eq, graph_edited_owners (fun _ => rfl) (fun p => (same p).2.2.2)
      (fun p => (same p).2.2.1), renameUser, ← linked.graph]
    refine ext_iffs (fun _ => .rfl) (fun _ _ => .rfl) (fun _ _ => .rfl) (fun x w => ?_)
    simp only [reown, lists_read hr]
    cases hp : db₁.profiles x with
    | none => simp [Pdb.graph, hp]
    | some p =>
      obtain rfl := (linked.ok x p hp).id
      simp only [owner_read hp, heq, Option.some.injEq, exists_eq_left']
      by_cases hx : p.id ∈ r.groupsOrMembers
      · by_cases hcase : p.id < 0 ∧ p.ownerId = a
        · simp [hx, hcase, eq_comm]
        · simp only [hcase]
          tauto
      · simp [hx]
  refine ⟨⟨updated.ok, updated.bounded, graph ▸ inv.symm.renameUser wf ha hb fresh, fun x => ?_⟩, graph⟩
  by_cases hx : x ∈ r.groupsOrMembers
  · exact updated.done x hx
  · refine updated.keep x hx ?_
    by_cases hxb : x = b
    · exact hxb ▸ linked.own
    · exact linked.good x hxb (wf.not_memberOf ha)

theorem Linked.rename_group {db₁ : Pdb} {u : Int}
    (linked : Linked rank a b db ((db.graph.move a b).relist (· = u) a b) db₁)
    (ha : a < 0) (hb : b < 0) (hu : 0 < u)
    (run : updateAll fuel (renamed a b) r.groupsOrMembers db₁ = some db') :
    PdbInv (update rank b (rank a)) db' ∧ db'.graph = db.graph.renameGroup a b u := by
  have hrok := inv.ok a r hr
  have wf := inv.ok.wellFormed
  rw [renamed_group ha] at run
  have member : ∀ x ∈ r.groupsOrMembers, db.graph.memberOf x a := fun x hx =>
    (inv.symm a x ha).mpr ⟨r, hr, hx⟩
  have change : Changeable (update rank b (rank a)) (fun p => (p.delParent a).addParent b)
      r.groupsOrMembers db₁ := by
    refine ⟨fun x hx p hp => ?_, fun x hx p hp g hg q hq => ?_⟩
    · exact ((linked.ok x p hp).delParent a).addParent hb (update_rank_member inv fresh (member x hx))
    · rcases (mem_pdbArrayAdd _ _ g).mp hg with rfl | hg
      · -- the renamed group has kept its members
        rw [← lists_read hq, linked.graph]
        refine .inr ⟨fun h => fresh (inv.symm.dom_of_memberOf wf h).2, .inr ⟨by omega, .inl ⟨rfl, ?_⟩⟩⟩
        exact ⟨r, hr, hx⟩
      · have := (mem_pdbArrayDel (linked.ok x p hp).memberOf_sorted a g).mp hg
        exact linked.known x p hp g this.1 q hq
  have updated := updateAll_spec (f := fun p => (p.delParent a).addParent b) (fun _ => rfl)
    (fun _ => rfl) (fun _ => rfl) (fun p p' h => congrArg (fun p => (p.delParent a).addParent b) h)
    hrok.members_sorted.nodup linked.ok linked.bounded linked.known change run
  have graph : db'.graph = db.graph.renameGroup a b u := by
    rw [updated.graph_eq, graph_edited_parents (f := fun p => (p.delParent a).addParent b)
      (fun _ => rfl) (fun _ => rfl) (fun _ => rfl), renameGroup, ← linked.graph]
    refine ext_iffs (fun _ => .rfl) (fun x g => ?_) (fun _ _ => .rfl) (fun _ _ => .rfl)
    simp only [regroup, lists_read hr]
    refine or_congr_left (and_congr_right fun _ => ?_)
    constructor
    · rintro ⟨p, hp, hg⟩
      refine ⟨⟨p, hp⟩, ((mem_pdbArrayAdd _ _ _).mp hg).imp_right fun hg => ?_⟩
      obtain ⟨hg, hne⟩ := (mem_pdbArrayDel (linked.ok x p hp).memberOf_sorted a g).mp hg
      exact ⟨⟨p, hp, hg⟩, hne⟩
    · rintro ⟨⟨p, hp⟩, hg⟩
      refine ⟨p, hp, (mem_pdbArrayAdd _ _ _).mpr (hg.imp_right ?_)⟩
      rintro ⟨hg, hne⟩
      exact (mem_pdbArrayDel (linked.ok x p hp).memberOf_sorted a g).mpr
        ⟨(memberOf_read hp g).mp hg, hne⟩
  have irrefl : ¬ db.graph.memberOf a a := by
    rintro ⟨p, hp, h⟩
    exact absurd ((inv.ok a p hp).parent a h).2 (lt_irrefl _)
  refine ⟨⟨updated.ok, updated.bounded, graph ▸ inv.symm.renameGroup wf ha hu irrefl fresh, fun x => ?_⟩,
    graph⟩
  by_cases hx : x ∈ r.groupsOrMembers
  · exact updated.done x hx
  · refine updated.keep x hx ?_
    by_cases hxb : x = b
    · exact hxb ▸ linked.own
    · exact linked.good x hxb fun h => hx ((lists_read hr x).mp ((inv.symm a x ha).mp h))

end Renamed

/-- An id is changed to an unused one of the same sign; all references follow. -/
theorem pdbChangeId_spec (inv : PdbInv rank db) (sign : SameSign a b)
    (run : pdbChangeId fuel db a b = some db') :
    db' = db ∨ (¬ db.graph.dom b ∧ db.graph.dom a ∧ (∃ rank', PdbInv rank' db') ∧
      ((0 < a ∧ 0 < b ∧ db'.graph = db.graph.renameUser a b) ∨
        (a < 0 ∧ b < 0 ∧ ∃ u, 0 < u ∧ db.graph.owner a u ∧
          db'.graph = db.graph.renameGroup a b u))) := by
  unfold pdbChangeId at run
  by_cases hab : a = b
  · rw [if_pos hab] at run
    exact .inl (some.inj run).symm
  rw [if_neg hab] at run
  by_cases hused : (pdbReadProfile db b).isSome
  · rw [if_pos hused] at run
    exact absurd run.symm (some_ne_none _)
  rw [if_neg hused] at run
  have fresh : ¬ db.graph.dom b := by
    rintro ⟨p, hp⟩
    exact hused (by rw [pdbReadProfile, hp]; rfl)
  obtain ⟨r, hr, run⟩ := bind_eq_some_iff.mp run
  obtain ⟨db₁, run₁, run⟩ := bind_eq_some_iff.mp run
  have hrok := inv.ok a r hr
  have moved := pdbUpdateCps_moved inv fresh sign hr run₁
  -- both branches go on with the same two loops
  have loops : ∀ {db₂}, (do
      let db ← editAll (relisted a b) (pdbArrayIds r.memberOf) db₂
      updateAll fuel (renamed a b) (pdbArrayIds r.groupsOrMembers) db) = some db' →
      ∃ db₃, editAll (relisted a b) r.memberOf db₂ = some db₃ ∧
        updateAll fuel (renamed a b) r.groupsOrMembers db₃ = some db' := by
    intro db₂ h
    rw [hrok.ids_memberOf, hrok.ids_members] at h
    exact bind_eq_some_iff.mp h
  refine .inr ⟨fresh, ⟨r, hr⟩, ?_⟩
  rcases sign with ⟨ha, hb⟩ | ⟨ha, hb⟩
  · dsimp only at run
    rw [if_neg (by simp [pdbIsGroup]; omega)] at run
    obtain ⟨db₂, run₂, run⟩ := bind_eq_some_iff.mp run
    obtain ⟨db₃, run₃, run₄⟩ := loops run
    have linked := moved.link_user inv fresh (Int.ne_of_gt hb) hr run₂ run₃
    obtain ⟨inv', graph⟩ := linked.rename_user inv fresh hr ha hb run₄
    exact ⟨⟨_, inv'⟩, .inl ⟨ha, hb, graph⟩⟩
  · dsimp only at run
    rw [if_pos (by simpa [pdbIsGroup] using ha)] at run
    obtain ⟨p, hp, run⟩ := bind_eq_some_iff.mp run
    obtain ⟨db₀, run₀, run⟩ := bind_eq_some_iff.mp run
    obtain ⟨db₂, run₂, run⟩ := bind_eq_some_iff.mp run
    obtain ⟨db₃, run₃, run₄⟩ := loops run
    have hu := hrok.owner ha
    have run₀ : editAll (relisted a b) [r.ownerId] db₁ = some db₀ := by
      rw [editAll_singleton]
      exact bind_eq_some_iff.mpr ⟨p, hp, run₀⟩
    have linked := moved.link_group inv fresh (Int.ne_of_lt hb) hr hu run₀ run₂ run₃
    obtain ⟨inv', graph⟩ := linked.rename_group inv fresh hr ha hb hu run₄
    exact ⟨⟨_, inv'⟩, .inr ⟨ha, hb, r.ownerId, hu, ⟨r, hr, rfl⟩, graph⟩⟩

end Coda.Al
