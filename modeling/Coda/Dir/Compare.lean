import Coda.Dir.Soundness

/-!
`DIR_Compare`: two directories are equal when every entry of each is found in the other.

The images of two directories may differ in everything but their contents: in the pages of their
entries, the order of the chains and the bytes no entry uses.
-/

namespace Coda.Dir

open Coda.Lib

/-- A well-formed directory: an image, and the entries on its chains. -/
structure Directory where
  image : Image
  pages : Nat
  chains : Nat → List Entry
  rep : Rep image pages chains noBlobs

/-- The map from names to fids that a directory stands for. -/
def Directory.contents (d : Directory) : Contents := contentsOf d.chains

/-- There is one: the header that `DIR_MakeDir` writes. -/
def Directory.blank : Directory :=
  ⟨dirHeader fun _ => 0#8, 1, fun _ => [], (dirHeader_formatted fun _ => 0#8).rep⟩

/-- `ENOENT`, as a number. -/
def enoent : Int := 2

/-- `dir_HkCompare`, of the entry at a blob of `de` with the directory `dh`. -/
def dirHkCompare (dh de : Image) (blob : Nat) : Option Int := do
  match ← dirLookup dh (readEntry de blob).name with
  | (.ok, some dfid) => return if dfid = fid de blob then 0 else 1
  | _ => return enoent

/-- `dir_HkCompare` as a hook. A lookup that does not return ends the enumeration, and is
remembered. -/
def compareHook (dh de : Image) (blob : Nat) (returns : Bool) : Int × Bool :=
  match dirHkCompare dh de blob with
  | some rc => (rc, returns)
  | none => (1, false)

/-- `DIR_EnumerateDir(de, dir_HkCompare, dh)`. -/
def enumerateCompare (de dh : Image) : Option Int := do
  let (rc, returns) ← dirEnumerateDir de (compareHook dh de) true
  if returns then return rc else none

/-- `DIR_Compare`. -/
def dirCompare (d1 d2 : Image) : Option Int := do
  let rc ← enumerateCompare d1 d2
  if rc ≠ 0 then return rc
  let rc ← enumerateCompare d2 d1
  if rc ≠ 0 then return -rc
  return 0

section Compare

variable {m : Image} {P : Nat} {ch : Nat → List Entry} {f : Contents}

/-- The name of an entry as `ep->name` reads it. -/
theorem Rep.readEntry_name (r : Rep m P ch noBlobs) {e : Entry} (he : Live ch e) :
    (readEntry m e.blob).name = e.name := by
  have hat := r.entry e he
  have hname := hat.nameAt_eq (r.fits e he)
  apply CString.ext
  change (nameAt m e.blob).filter (· ≠ 0#8) = e.name.bytes
  rw [hname]
  apply List.filter_eq_self.mpr
  intro c hc
  rw [decide_eq_true_iff]
  rintro rfl
  exact e.name.nonul hc

/-- What `dir_HkCompare` returns for an entry, by the map of the other directory. -/
theorem dirHkCompare_eq {de : Image} {P' : Nat} {ch' : Nat → List Entry} (r : Rep m P ch noBlobs)
    (d : Denotes f ch) (r' : Rep de P' ch' noBlobs) {e : Entry} (he : Live ch' e) :
    ∃ rc, dirHkCompare m de e.blob = some rc ∧ (rc = 0 ↔ f e.name = some e.fid) := by
  unfold dirHkCompare
  rw [r'.readEntry_name he, r.dirLookup_eq d]
  cases hf : f e.name with
  | none => exact ⟨enoent, rfl, by simp [enoent]⟩
  | some dfid =>
    refine ⟨_, rfl, ?_⟩
    rw [(r'.entry e he).fid, Option.some.injEq]
    split
    · next heq => simp [heq]
    · next hne => simp [hne]

/-- A hook that never moves the state calls on until it returns nonzero. -/
theorem runHook_eq_zero_iff (hookproc : Nat → Bool → Int × Bool) (l : List Nat)
    (returns : ∀ b ∈ l, (hookproc b true).2 = true) :
    (runHook hookproc l true).2 = true ∧
      ((runHook hookproc l true).1 = 0 ↔ ∀ b ∈ l, (hookproc b true).1 = 0) := by
  induction l with
  | nil => simp [runHook]
  | cons b l ih =>
    obtain ⟨hb, hl⟩ := List.forall_mem_cons.mp returns
    rw [runHook]
    by_cases hrc : (hookproc b true).1 = 0
    · simp only [hrc, ne_eq, not_true, if_false, hb]
      refine ⟨(ih hl).1, (ih hl).2.trans ?_⟩
      rw [List.forall_mem_cons]
      exact (and_iff_right hrc).symm
    · rw [if_pos hrc]
      exact ⟨hb, iff_of_false hrc fun hall => hrc (hall b List.mem_cons_self)⟩

/-- One half of the comparison: every pair of one map is a pair of the other. -/
theorem enumerateCompare_eq {de : Image} {P' : Nat} {ch' : Nat → List Entry} {f' : Contents}
    (r : Rep m P ch noBlobs) (d : Denotes f ch) (r' : Rep de P' ch' noBlobs) (d' : Denotes f' ch') :
    ∃ rc, enumerateCompare de m = some rc ∧
      (rc = 0 ↔ ∀ name fid, f' name = some fid → f name = some fid) := by
  have hhook : ∀ e, Live ch' e → (compareHook m de e.blob true).2 = true ∧
      ((compareHook m de e.blob true).1 = 0 ↔ f e.name = some e.fid) := by
    intro e he
    obtain ⟨rc, hrc, hzero⟩ := dirHkCompare_eq r d r' he
    unfold compareHook
    rw [hrc]
    exact ⟨rfl, hzero⟩
  have hrun := runHook_eq_zero_iff (compareHook m de) ((allEntries ch').map Entry.blob)
    (by
      intro b hb
      obtain ⟨e, he, rfl⟩ := List.mem_map.mp hb
      exact (hhook e (mem_allEntries.mp he)).1)
  refine ⟨(runHook (compareHook m de) ((allEntries ch').map Entry.blob) true).1, ?_, ?_⟩
  · unfold enumerateCompare
    rw [r'.dirEnumerateDir_eq, Option.bind_eq_bind, Option.bind_some]
    dsimp only
    rw [hrun.1]
    rfl
  · rw [hrun.2]
    constructor
    · intro hall name fid hname
      obtain ⟨e, he, rfl, rfl⟩ := (d' name fid).mp hname
      exact (hhook e he).2.mp (hall _ (List.mem_map_of_mem (mem_allEntries.mpr he)))
    · intro hsub b hb
      obtain ⟨e, he, rfl⟩ := List.mem_map.mp hb
      have live := mem_allEntries.mp he
      exact (hhook e live).2.mpr (hsub _ _ (d'.live live))

end Compare

/-- `DIR_Compare` returns, and returns 0 exactly when the directories are the same map. -/
theorem dirCompare_eq_zero_iff (d1 d2 : Directory) :
    ∃ rc, dirCompare d1.image d2.image = some rc ∧ (rc = 0 ↔ d1.contents = d2.contents) := by
  have denotes₁ : Denotes d1.contents d1.chains := d1.rep.toLayout.denotes
  have denotes₂ : Denotes d2.contents d2.chains := d2.rep.toLayout.denotes
  obtain ⟨rc₁, run₁, zero₁⟩ := enumerateCompare_eq d2.rep denotes₂ d1.rep denotes₁
  obtain ⟨rc₂, run₂, zero₂⟩ := enumerateCompare_eq d1.rep denotes₁ d2.rep denotes₂
  have hsame : (∀ name fid, d1.contents name = some fid → d2.contents name = some fid) →
      (∀ name fid, d2.contents name = some fid → d1.contents name = some fid) →
      d1.contents = d2.contents := by
    intro sub₁ sub₂
    funext name
    apply Option.ext
    exact fun fid => ⟨sub₁ name fid, sub₂ name fid⟩
  unfold dirCompare
  rw [run₁, run₂]
  simp only [Option.bind_eq_bind, Option.bind_some]
  by_cases h₁ : rc₁ = 0
  · by_cases h₂ : rc₂ = 0
    · refine ⟨0, by rw [if_neg (not_not.mpr h₁), if_neg (not_not.mpr h₂)]; rfl, ?_⟩
      exact iff_of_true rfl (hsame (zero₁.mp h₁) (zero₂.mp h₂))
    · refine ⟨-rc₂, by rw [if_neg (not_not.mpr h₁), if_pos h₂]; rfl, ?_⟩
      refine iff_of_false (by omega) fun heq => h₂ (zero₂.mpr fun name fid h => ?_)
      rw [heq]
      exact h
  · refine ⟨rc₁, by rw [if_pos h₁]; rfl, ?_⟩
    refine iff_of_false h₁ fun heq => h₁ (zero₁.mpr fun name fid h => ?_)
    rw [← heq]
    exact h

end Coda.Dir
