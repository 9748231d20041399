import Coda.Dir.Ops
import Coda.Lib.Run

/-!
A packed directory is a finite map from names to fids.

`Op.run_spec` is the step: a call returns, keeps the invariant `Rep` and does to the
entries what it says it does to the map. What holds of all reachable directories follows by
induction over the calls.
-/

namespace Coda.Dir

open Coda.Lib Function

/-! ### The abstract directory -/

/-- The calls that change a directory. -/
inductive Op where
  | create (name : CString) (fid : DirFid)
  | delete (name : CString)

/-- What a directory stands for. -/
abbrev Contents := CString → Option DirFid

/-- What a successful call does to the contents. -/
def Op.apply (f : Contents) : Op → Contents
  | .create name fid => Function.update f name (some fid)
  | .delete name => Function.update f name none

/-- The contents of a new directory. -/
def newContents (me parent : DirFid) : Contents :=
  Function.update (Function.update (fun _ => none) dot (some me)) dotdot (some parent)

/-- The call on an image. -/
def Op.run (m : Image) : Op → Option (Code × Image)
  | .create name fid => dirCreate m name fid
  | .delete name => dirDelete m name

/-- The chains hold exactly the pairs of the map. -/
def Denotes (f : Contents) (ch : Nat → List Entry) : Prop :=
  ∀ name fid, f name = some fid ↔ ∃ e, Live ch e ∧ e.name = name ∧ e.fid = fid

section Denotes

variable {m : Image} {P : Nat} {f : Contents} {ch ch' : Nat → List Entry} {reserved : Nat → Prop}

theorem Denotes.eq_none_iff (d : Denotes f ch) (name : CString) :
    f name = none ↔ ∀ e, Live ch e → e.name ≠ name := by
  constructor
  · rintro hnone e he rfl
    have := (d e.name e.fid).mpr ⟨e, he, rfl, rfl⟩
    rw [hnone] at this
    cases this
  · intro absent
    cases hf : f name with
    | none => rfl
    | some fid =>
      obtain ⟨e, he, hname, -⟩ := (d name fid).mp hf
      exact absurd hname (absent e he)

theorem Denotes.live (d : Denotes f ch) {e : Entry} (he : Live ch e) : f e.name = some e.fid :=
  (d _ _).mpr ⟨e, he, rfl, rfl⟩

theorem Denotes.push (d : Denotes f ch) {e : Entry} (absent : ∀ x, Live ch x → x.name ≠ e.name) :
    Denotes (update f e.name (some e.fid)) (pushEntry ch e) := by
  intro name fid
  simp only [live_pushEntry]
  by_cases hname : name = e.name
  · subst hname
    rw [update_self, Option.some.injEq]
    constructor
    · exact fun hfid => ⟨e, .inl rfl, rfl, hfid⟩
    · rintro ⟨x, rfl | hx, hname, hfid⟩
      · exact hfid
      · exact absurd hname (absent x hx)
  · rw [update_of_ne hname, d]
    constructor
    · rintro ⟨x, hx, h⟩
      exact ⟨x, .inr hx, h⟩
    · rintro ⟨x, rfl | hx, h⟩
      · exact absurd h.1.symm hname
      · exact ⟨x, hx, h⟩

theorem Denotes.drop (d : Denotes f ch) (l : Layout P ch reserved) {e : Entry} (he : Live ch e)
    (live : ∀ x, Live ch' x ↔ Live ch x ∧ x ≠ e) :
    Denotes (update f e.name none) ch' := by
  intro name fid
  simp only [live]
  by_cases hname : name = e.name
  · subst hname
    rw [update_self]
    refine iff_of_false (Option.some_ne_none fid).symm ?_
    rintro ⟨x, ⟨hx, hne⟩, hxname, -⟩
    exact hne (l.names x e hx he hxname)
  · rw [update_of_ne hname, d]
    constructor
    · rintro ⟨x, hx, hxname, hfid⟩
      refine ⟨x, ⟨hx, ?_⟩, hxname, hfid⟩
      rintro rfl
      exact hname hxname.symm
    · rintro ⟨x, ⟨hx, -⟩, h⟩
      exact ⟨x, hx, h⟩

/-! ### One call -/

/-- What a call leaves of a directory that satisfies the invariant. -/
structure Stepped (m : Image) (P : Nat) (ch : Nat → List Entry) (op : Op) (code : Code)
    (m' : Image) (P' : Nat) (ch' : Nat → List Entry) : Prop where
  rep : Rep m' P' ch' noBlobs
  counts : Counts m P → Counts m' P'
  failed : code ≠ .ok → m' = m
  denotes : ∀ f, Denotes f ch → Denotes (if code = .ok then op.apply f else f) ch'

theorem Stepped.unchanged (r : Rep m P ch noBlobs) (op : Op) {code : Code} (h : code ≠ .ok) :
    Stepped m P ch op code m P ch :=
  ⟨r, id, fun _ => rfl, fun f d => by rwa [if_neg h]⟩

theorem Op.run_spec (r : Rep m P ch noBlobs) (op : Op) :
    ∃ code m' P' ch', op.run m = some (code, m') ∧ Stepped m P ch op code m' P' ch' := by
  cases op with
  | create name fid =>
    obtain ⟨code, m', run, outcome⟩ := r.dirCreate_spec name fid
    cases outcome with
    | ok blob P' _ _ _ absent _ rep counts =>
      refine ⟨_, _, _, _, run, rep, counts, fun h => absurd rfl h, fun f d => ?_⟩
      exact @Denotes.push f ch d ⟨blob, name, fid⟩ absent
    | _ => exact ⟨_, _, _, _, run, .unchanged r _ (by decide)⟩
  | delete name =>
    obtain ⟨code, m', run, outcome⟩ := r.dirDelete_spec name
    cases outcome with
    | absent => exact ⟨_, _, _, _, run, .unchanged r _ (by decide)⟩
    | ok e ch' _ he hname live rep counts =>
      refine ⟨_, _, _, _, run, rep, counts, fun h => absurd rfl h, fun f d => ?_⟩
      subst hname
      exact d.drop r.toLayout he live

end Denotes

/-! ### The answers -/

/-- The codes `DIR_Create` may return. -/
def CreateCode (m : Image) (f : Contents) (name : CString) (code : Code) : Prop :=
  if 255 < name.bytes.length then code = .enametoolong
  else if name.bytes.length = 0 then code = .einval
  else if f name ≠ none then code = .eexist
  else code = .ok ∨ (code = .efbig ∧ dirLength m = 128 * 2048)

/-- The entries `l` are stored in the image and are those of the map, each once. -/
structure Listing (m : Image) (f : Contents) (l : List Entry) : Prop where
  stored : ∀ e ∈ l, EntryAt m e
  blobs : (l.map Entry.blob).Nodup
  names : (l.map Entry.name).Nodup
  mem : ∀ name fid, f name = some fid ↔ ∃ e ∈ l, e.name = name ∧ e.fid = fid

/-- The directory functions answer as the map does. -/
structure Answers (m : Image) (f : Contents) : Prop where
  lookup : ∀ name, dirLookup m name =
    some (match f name with
      | some fid => (.ok, some fid)
      | none => (.enoent, none))
  create : ∀ name fid, ∃ code m', dirCreate m name fid = some (code, m') ∧
    CreateCode m f name code ∧ (code ≠ .ok → m' = m)
  delete : ∀ name, ∃ m', dirDelete m name =
      some (if f name = none then .enoent else .ok, m') ∧ (f name = none → m' = m)
  enumerate : ∃ l, Listing m f l ∧ ∀ (σ : Type) (hookproc : Nat → σ → Int × σ) (hook : σ),
    dirEnumerateDir m hookproc hook = some (runHook hookproc (l.map Entry.blob) hook)
  isEmpty : ∃ b, dirIsEmpty m = some b ∧
    (b = true ↔ ∀ name, name ≠ dot → name ≠ dotdot → f name = none)

section Answers

variable {m : Image} {P : Nat} {f : Contents} {ch : Nat → List Entry}

section

variable (r : Rep m P ch noBlobs) (d : Denotes f ch)
include r d

theorem Rep.dirLookup_eq (name : CString) :
    dirLookup m name = some (match f name with
      | some fid => (.ok, some fid)
      | none => (.enoent, none)) := by
  rw [dirLookup, r.dirFindItem_eq]
  cases hfind : locate name none (ch (dirHash name.bytes)) with
  | none =>
    rw [(d.eq_none_iff name).mpr ((r.toLayout.absent_iff name).mpr ((locate_eq_none_iff ..).mp hfind))]
    rfl
  | some found =>
    obtain ⟨prev, b⟩ := found
    obtain ⟨l₁, e, l₂, hch, rfl, rfl, -⟩ := locate_eq_some hfind
    have live := live_of_chain hch
    rw [d.live live, ← (r.entry e live).fid]
    rfl

theorem Rep.createCode {name : CString} {fid : DirFid} {code : Code} {m' : Image}
    (outcome : Create m P ch name fid code m') :
    CreateCode m f name code ∧ (code ≠ .ok → m' = m) := by
  unfold CreateCode
  cases outcome with
  | tooLong h => exact ⟨by rw [if_pos h], fun _ => rfl⟩
  | empty h => exact ⟨by rw [if_neg (by omega), if_pos h], fun _ => rfl⟩
  | «exists» e hpos hle he hname =>
    have hf : f name ≠ none := by
      rw [← hname, d.live he]
      exact nofun
    exact ⟨by rw [if_neg (by omega), if_neg (by omega), if_pos hf], fun _ => rfl⟩
  | full hpos hle absent hP =>
    have hf := (d.eq_none_iff name).mpr absent
    refine ⟨?_, fun _ => rfl⟩
    rw [if_neg (by omega), if_neg (by omega), if_neg (not_not.mpr hf), r.dirLength_eq, hP]
    exact .inr ⟨rfl, rfl⟩
  | ok blob P' _ hpos hle absent =>
    have hf := (d.eq_none_iff name).mpr absent
    refine ⟨?_, fun h => absurd rfl h⟩
    rw [if_neg (by omega), if_neg (by omega), if_neg (not_not.mpr hf)]
    exact .inl rfl

theorem Rep.listing : Listing m f (allEntries ch) := by
  have nodup := r.toLayout.nodup_allEntries
  refine ⟨fun e he => r.entry e (mem_allEntries.mp he), ?_, ?_, fun name fid => ?_⟩
  · refine (List.nodup_map_iff_inj_on nodup).mpr fun e he e' he' hblob => ?_
    exact r.apart e e' (mem_allEntries.mp he) (mem_allEntries.mp he') e.blob e.covers_self
      (hblob ▸ e'.covers_self)
  · refine (List.nodup_map_iff_inj_on nodup).mpr fun e he e' he' hname => ?_
    exact r.names e e' (mem_allEntries.mp he) (mem_allEntries.mp he') hname
  · rw [d]
    simp only [mem_allEntries]

end

theorem Denotes.all_isDot_iff (d : Denotes f ch) :
    (allEntries ch).all isDot = true ↔ ∀ name, name ≠ dot → name ≠ dotdot → f name = none := by
  simp only [List.all_eq_true, mem_allEntries, isDot, decide_eq_true_iff]
  constructor
  · intro h name hdot hdotdot
    refine (d.eq_none_iff name).mpr ?_
    rintro e he rfl
    rcases h e he with hname | hname
    · exact hdotdot hname
    · exact hdot hname
  · intro h e he
    by_contra hne
    rw [not_or] at hne
    have hnone := h e.name hne.2 hne.1
    rw [d.live he] at hnone
    cases hnone

theorem Rep.answers (r : Rep m P ch noBlobs) (d : Denotes f ch) : Answers m f := by
  refine ⟨r.dirLookup_eq d, fun name fid => ?_, fun name => ?_, ?_, ?_⟩
  · obtain ⟨code, m', run, outcome⟩ := r.dirCreate_spec name fid
    exact ⟨code, m', run, r.createCode d outcome⟩
  · obtain ⟨code, m', run, outcome⟩ := r.dirDelete_spec name
    refine ⟨m', ?_⟩
    rw [run]
    cases outcome with
    | absent absent =>
      have hf := (d.eq_none_iff name).mpr absent
      exact ⟨by rw [if_pos hf], fun _ => rfl⟩
    | ok e _ _ he hname =>
      have hf : f name ≠ none := by
        rw [← hname, d.live he]
        exact nofun
      exact ⟨by rw [if_neg hf], fun h => absurd h hf⟩
  · exact ⟨allEntries ch, r.listing d, fun σ hookproc hook => r.dirEnumerateDir_eq hook⟩
  · exact ⟨_, r.dirIsEmpty_eq, d.all_isDot_iff⟩

end Answers

/-! ### Runs -/

/-- An image with the contents that the successful calls so far have made. -/
structure Tracked where
  image : Image
  contents : Contents

/-- A call; the contents change when it succeeds. -/
def Tracked.step (s : Tracked) (op : Op) : Option Tracked := do
  let (code, image) ← op.run s.image
  return ⟨image, if code = .ok then op.apply s.contents else s.contents⟩

section Runs

variable {m : Image} {P : Nat} {f : Contents} {ch : Nat → List Entry}

/-- From a directory that satisfies the invariant on, the answers stay those of the map. -/
theorem Rep.always_answers (r : Rep m P ch noBlobs) (d : Denotes f ch) (ops : List Op) :
    Always Tracked.step (fun s => Answers s.image s.contents) ⟨m, f⟩ ops := by
  refine always_of_invariant (I := fun s => ∃ P ch, Rep s.image P ch noBlobs ∧ Denotes s.contents ch)
    ?_ (fun s ⟨P, ch, r, d⟩ => r.answers d) ⟨P, ch, r, d⟩ ops
  rintro s op s' ⟨P, ch, r, d⟩ hstep
  obtain ⟨code, m', P', ch', run, stepped⟩ := Op.run_spec r op
  rw [Tracked.step, run] at hstep
  cases hstep
  exact ⟨P', ch', stepped.rep, stepped.denotes _ d⟩

/-- Every directory made by `DIR_MakeDir` and changed by `DIR_Create` and `DIR_Delete` in any
way answers as the map of its successful calls. -/
theorem dir_refines_map (fresh : Image) (me parent : DirFid) (ops : List Op) :
    ∃ m, dirMakeDir fresh me parent = some m ∧
      Always Tracked.step (fun s => Answers s.image s.contents) ⟨m, newContents me parent⟩ ops := by
  obtain ⟨m, P, b₁, b₂, run, -, rep⟩ := dirMakeDir_spec fresh me parent
  have none_live : ∀ e, ¬ Live (fun _ => []) e := by
    rintro e ⟨i, -, he⟩
    cases he
  have d₀ : Denotes (fun _ => none) (fun _ => []) := fun name fid =>
    iff_of_false (Option.some_ne_none fid).symm fun ⟨e, he, _⟩ => none_live e he
  have d₁ := @Denotes.push _ _ d₀ ⟨b₁, dot, me⟩ fun x hx => absurd hx (none_live x)
  have d₂ := @Denotes.push _ _ d₁ ⟨b₂, dotdot, parent⟩ fun x hx => by
    rcases live_pushEntry.mp hx with rfl | hx
    · exact show dot ≠ dotdot by decide
    · exact absurd hx (none_live x)
  exact ⟨m, run, rep.always_answers d₂ ops⟩

end Runs

/-! ### The image by itself -/

/-- The entry at blob `b` is on one of the hash chains. -/
def OnChain (m : Image) (b : Nat) : Prop :=
  ∃ i < 128, ∃ l, LinkedBlobs m (hashTable m i) l ∧ b ∈ l

/-- The entries on the chains lie where they may: each inside one allocated page, no two on
the same blob, none on a header blob. -/
structure Placed (m : Image) : Prop where
  inPage : ∀ b, OnChain m b → b / 64 < dirLength m / 2048 ∧ b % 64 + blobsAt m b ≤ 64
  apart : ∀ b b', OnChain m b → OnChain m b' → b ≠ b' →
    ∀ x, ¬ (Span b (blobsAt m b) x ∧ Span b' (blobsAt m b') x)
  offHeader : ∀ b, OnChain m b → ∀ x, Span b (blobsAt m b) x → ¬ IsHeader x

/-- The bits that are set are those of the headers and of the entries on the chains. -/
def BitmapExact (m : Image) : Prop :=
  ∀ x < 64 * (dirLength m / 2048), blobBit m x = true ↔
    IsHeader x ∨ ∃ b, OnChain m b ∧ Span b (blobsAt m b) x

/-- The chains and the three records of free space are in order. -/
structure Sound (m : Image) : Prop extends Placed m where
  dirOK : dirDirOK m = some true
  bitmap : BitmapExact m
  counts : ∀ p < dirLength m / 2048, allomap m p = freecount m p ∧ freecount m p = freeBlobs m p

section Sound

variable {m : Image} {P : Nat} {ch : Nat → List Entry} {reserved : Nat → Prop}

theorem LinkedBlobs.unique {h : Nat} {l l' : List Nat} (linked : LinkedBlobs m h l)
    (linked' : LinkedBlobs m h l') : l = l' := by
  induction l generalizing h l' with
  | nil =>
    cases l' with
    | nil => rfl
    | cons b' l' => exact absurd (linked'.1.symm.trans linked) linked'.2.1
  | cons b l ih =>
    cases l' with
    | nil => exact absurd (linked.1.symm.trans linked') linked.2.1
    | cons b' l' =>
      obtain rfl : b = b' := linked.1.symm.trans linked'.1
      rw [ih linked.2.2 linked'.2.2]

theorem Rep.onChain_iff (r : Rep m P ch reserved) (b : Nat) :
    OnChain m b ↔ ∃ e, Live ch e ∧ e.blob = b := by
  constructor
  · rintro ⟨i, hi, l, linked, hb⟩
    rw [linked.unique (r.walked hi).linked] at hb
    obtain ⟨e, he, rfl⟩ := List.mem_map.mp hb
    exact ⟨e, ⟨i, hi, he⟩, rfl⟩
  · rintro ⟨e, ⟨i, hi, he⟩, rfl⟩
    exact ⟨i, hi, _, (r.walked hi).linked, List.mem_map_of_mem he⟩

theorem Rep.blobsAt_eq (r : Rep m P ch reserved) {e : Entry} (he : Live ch e) :
    blobsAt m e.blob = e.blobs := by
  rw [blobsAt, (r.entry e he).nameLength_eq (r.fits e he)]
  rfl

theorem Rep.placed (r : Rep m P ch reserved) : Placed m := by
  refine ⟨?_, ?_, ?_⟩
  · intro b hb
    obtain ⟨e, he, rfl⟩ := (r.onChain_iff b).mp hb
    rw [r.pages_eq, r.blobsAt_eq he]
    exact ⟨(r.fits e he).page, (r.fits e he).inPage⟩
  · intro b b' hb hb' hne x
    obtain ⟨e, he, rfl⟩ := (r.onChain_iff b).mp hb
    obtain ⟨e', he', rfl⟩ := (r.onChain_iff b').mp hb'
    rw [r.blobsAt_eq he, r.blobsAt_eq he']
    rintro ⟨hx, hx'⟩
    exact hne (congrArg Entry.blob (r.apart e e' he he' x hx hx'))
  · intro b hb x
    obtain ⟨e, he, rfl⟩ := (r.onChain_iff b).mp hb
    rw [r.blobsAt_eq he]
    exact fun hx => (r.fits e he).covers_not_header hx

theorem Rep.bitmapExact (r : Rep m P ch noBlobs) : BitmapExact m := by
  intro x hx
  rw [r.pages_eq] at hx
  rw [r.bit x hx]
  refine or_congr_right ?_
  constructor
  · rintro (⟨e, he, hcov⟩ | hres)
    · refine ⟨e.blob, (r.onChain_iff _).mpr ⟨e, he, rfl⟩, ?_⟩
      rw [r.blobsAt_eq he]
      exact hcov
    · exact hres.elim
  · rintro ⟨b, hb, hspan⟩
    obtain ⟨e, he, rfl⟩ := (r.onChain_iff b).mp hb
    rw [r.blobsAt_eq he] at hspan
    exact .inl ⟨e, he, hspan⟩

theorem Rep.sound (r : Rep m P ch noBlobs) (counts : Counts m P) : Sound m := by
  refine { r.placed with dirOK := r.dirDirOK_eq, bitmap := r.bitmapExact, counts := ?_ }
  intro p hp
  rw [r.pages_eq] at hp
  exact ⟨(counts p hp).symm, (counts p hp).trans (r.allo p hp)⟩

/-- Every directory reachable from `DIR_MakeDir` is sound, and every further call on it
returns. -/
theorem dir_reachable_sound (fresh : Image) (me parent : DirFid) (ops : List Op) :
    ∃ m, dirMakeDir fresh me parent = some m ∧
      Always (fun m op => (Op.run m op).map Prod.snd)
        (fun m => Sound m ∧ ∀ op, (Op.run m op).isSome = true) m ops := by
  obtain ⟨m, P, b₁, b₂, run, counts, rep⟩ := dirMakeDir_spec fresh me parent
  refine ⟨m, run, always_of_invariant (I := fun m => ∃ P ch, Rep m P ch noBlobs ∧ Counts m P)
    ?_ ?_ ⟨P, _, rep, counts⟩ ops⟩
  · rintro m op m' ⟨P, ch, r, counts⟩ hstep
    obtain ⟨code, m'', P', ch', run, stepped⟩ := Op.run_spec r op
    rw [run] at hstep
    cases hstep
    exact ⟨P', ch', stepped.rep, stepped.counts counts⟩
  · rintro m ⟨P, ch, r, counts⟩
    refine ⟨r.sound counts, fun op => ?_⟩
    obtain ⟨code, m', P', ch', run, -⟩ := Op.run_spec r op
    rw [run]
    rfl

end Sound

end Coda.Dir
