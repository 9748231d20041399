import Mathlib

/-!
Runs of a partial step function. A run stops where `step` is `none`, so a property of
"every state reached" speaks of the states before that point only.

`always_of_guarded` is the induction of the safety results, `always_iff_guarded` its exact
form.
-/

namespace Coda.Lib

open List Option

variable {σ α : Type*}

/-- `P` holds at the start and in every state the actions reach. -/
def Always (step : σ → α → Option σ) (P : σ → Prop) : σ → List α → Prop
  | s, [] => P s
  | s, a :: as => P s ∧ ∀ s', step s a = some s' → Always step P s' as

/-- Every action that is taken is guarded in the state it starts from. -/
def Guarded (step : σ → α → Option σ) (G : σ → α → Prop) : σ → List α → Prop
  | _, [] => True
  | s, a :: as => G s a ∧ ∀ s', step s a = some s' → Guarded step G s' as

section Rules

variable {step : σ → α → Option σ} {P I : σ → Prop} {G : σ → α → Prop}
  {s : σ} {as : List α}

theorem Always.start (h : Always step P s as) : P s := by
  cases as with
  | nil => exact h
  | cons a as => exact h.1

theorem Always.mono {Q : σ → Prop} (imp : ∀ s, P s → Q s) (h : Always step P s as) :
    Always step Q s as := by
  induction as generalizing s with
  | nil => exact imp s h
  | cons a as ih => exact ⟨imp s h.1, fun s' run => ih (h.2 s' run)⟩

theorem Always.reached {s' : σ} (h : Always step P s as) (run : as.foldlM step s = some s') :
    P s' := by
  induction as generalizing s with
  | nil => exact some.inj run ▸ h
  | cons a as ih =>
    obtain ⟨s₁, step₁, run₁⟩ := bind_eq_some_iff.mp run
    exact ih (h.2 s₁ step₁) run₁

/-- An invariant that every guarded step keeps, and what it implies. -/
theorem always_of_guarded (keep : ∀ s a s', I s → G s a → step s a = some s' → I s')
    (holds : ∀ s, I s → P s) (inv : I s) (guarded : Guarded step G s as) : Always step P s as := by
  induction as generalizing s with
  | nil => exact holds s inv
  | cons a as ih =>
    refine ⟨holds s inv, fun s' run => ?_⟩
    exact ih (keep s a s' inv guarded.1 run) (guarded.2 s' run)

/-- A guard that follows from another in every state that keeps an invariant. -/
theorem guarded_of_guarded {H : σ → α → Prop}
    (keep : ∀ s a s', I s → G s a → step s a = some s' → I s') (imp : ∀ s a, I s → G s a → H s a)
    (inv : I s) (guarded : Guarded step G s as) : Guarded step H s as := by
  induction as generalizing s with
  | nil => trivial
  | cons a as ih =>
    refine ⟨imp s a inv guarded.1, fun s' run => ?_⟩
    exact ih (keep s a s' inv guarded.1 run) (guarded.2 s' run)

/-- Guarded steps that do not fail make a run that does not fail. -/
theorem run_of_guarded (keep : ∀ s a, I s → G s a → ∃ s', step s a = some s' ∧ I s') (inv : I s)
    (guarded : Guarded step G s as) : ∃ s', as.foldlM step s = some s' ∧ I s' := by
  induction as generalizing s with
  | nil => exact ⟨s, rfl, inv⟩
  | cons a as ih =>
    obtain ⟨s₁, step₁, inv₁⟩ := keep s a inv guarded.1
    obtain ⟨s', run, inv'⟩ := ih inv₁ (guarded.2 s₁ step₁)
    exact ⟨s', by rw [foldlM_cons, step₁, bind_eq_bind, bind_some, run], inv'⟩

/-- Valid steps that keep `I` and fail exactly when they are not guarded: the runs that do not fail
are the guarded ones, and they end in `P`. -/
theorem run_iff_guarded {W : σ → α → Prop} (holds : ∀ s, I s → P s)
    (keep : ∀ s a s', I s → W s a → step s a = some s' → I s')
    (sharp : ∀ s a, I s → W s a → ((∃ s', step s a = some s') ↔ G s a)) (inv : I s)
    (valid : Guarded step W s as) :
    (∃ s', as.foldlM step s = some s' ∧ P s') ↔ Guarded step G s as := by
  induction as generalizing s with
  | nil => exact ⟨fun _ => trivial, fun _ => ⟨s, rfl, holds s inv⟩⟩
  | cons a as ih =>
    constructor
    · rintro ⟨s', run, last⟩
      obtain ⟨s₁, step₁, run₁⟩ := bind_eq_some_iff.mp run
      refine ⟨(sharp s a inv valid.1).mp ⟨s₁, step₁⟩, fun s₂ step₂ => ?_⟩
      rw [step₁] at step₂
      cases step₂
      exact (ih (keep s a s₁ inv valid.1 step₁) (valid.2 s₁ step₁)).mp ⟨s', run₁, last⟩
    · rintro ⟨guard, rest⟩
      obtain ⟨s₁, step₁⟩ := (sharp s a inv valid.1).mpr guard
      have inv₁ := keep s a s₁ inv valid.1 step₁
      obtain ⟨s', run, last⟩ := (ih inv₁ (valid.2 s₁ step₁)).mpr (rest s₁ step₁)
      exact ⟨s', by rw [foldlM_cons, step₁, bind_eq_bind, bind_some, run], last⟩

theorem guarded_append {bs : List α} : Guarded step G s (as ++ bs) ↔
    Guarded step G s as ∧ ∀ s', as.foldlM step s = some s' → Guarded step G s' bs := by
  induction as generalizing s with
  | nil =>
    constructor
    · rintro h
      exact ⟨trivial, fun s' hs' => some.inj hs' ▸ h⟩
    · exact fun h => h.2 s rfl
  | cons a as ih =>
    constructor
    · rintro ⟨guard, rest⟩
      refine ⟨⟨guard, fun s' run => (ih.mp (rest s' run)).1⟩, fun s' run => ?_⟩
      obtain ⟨s₁, step₁, run₁⟩ := bind_eq_some_iff.mp run
      exact (ih.mp (rest s₁ step₁)).2 s' run₁
    · rintro ⟨⟨guard, rest⟩, last⟩
      refine ⟨guard, fun s₁ step₁ => ih.mpr ⟨rest s₁ step₁, fun s' run => last s' ?_⟩⟩
      rw [foldlM_cons, step₁]
      exact run

theorem guarded_concat {s' : σ} {a : α} (guarded : Guarded step G s as)
    (run : as.foldlM step s = some s') (guard : G s' a) : Guarded step G s (as ++ [a]) := by
  refine guarded_append.mpr ⟨guarded, fun s₁ run₁ => ⟨?_, fun _ _ => trivial⟩⟩
  rw [run] at run₁
  exact some.inj run₁ ▸ guard

theorem run_concat {s' : σ} (run : as.foldlM step s = some s') (a : α) :
    (as ++ [a]).foldlM step s = step s' a := by
  rw [foldlM_append, run, bind_eq_bind, bind_some, foldlM_cons]
  cases step s' a <;> rfl

/-- Guards that can be tested make runs that can be tested. -/
instance Guarded.decidable [∀ s a, Decidable (G s a)] : ∀ (as : List α) (s : σ),
    Decidable (Guarded step G s as)
  | [], _ => isTrue trivial
  | a :: as, s =>
    match hstep : step s a with
    | none => decidable_of_iff (G s a)
        ⟨fun h => ⟨h, fun s' h' => by rw [hstep] at h'; cases h'⟩, And.left⟩
    | some s' =>
      have := Guarded.decidable as s'
      decidable_of_iff (G s a ∧ Guarded step G s' as)
        ⟨fun h => ⟨h.1, fun s'' h' => by rw [hstep] at h'; cases h'; exact h.2⟩,
          fun h => ⟨h.1, h.2 s' hstep⟩⟩

theorem guarded_of_forall (h : ∀ a ∈ as, ∀ s, G s a) (s : σ) : Guarded step G s as := by
  induction as generalizing s with
  | nil => trivial
  | cons a as ih =>
    exact ⟨h a (.head _) s, fun s' _ => ih (fun b hb => h b (.tail a hb)) s'⟩

/-- An invariant that every step keeps, and what it implies. -/
theorem always_of_invariant (keep : ∀ s a s', I s → step s a = some s' → I s')
    (holds : ∀ s, I s → P s) (inv : I s) (as : List α) : Always step P s as :=
  always_of_guarded (fun s a s' h _ => keep s a s' h) holds inv
    (guarded_of_forall (fun _ _ _ => trivial) s)

/-- `I` is kept by every valid step, and a step that starts in `P` ends in `P` exactly
when it is guarded. Then `P` holds throughout exactly the guarded runs. -/
theorem always_iff_guarded {W : σ → α → Prop}
    (keep : ∀ s a s', I s → W s a → step s a = some s' → I s')
    (sharp : ∀ s a, I s → P s → W s a → ((∀ s', step s a = some s' → P s') ↔ G s a)) (inv : I s)
    (start : P s) (valid : Guarded step W s as) : Always step P s as ↔ Guarded step G s as := by
  induction as generalizing s with
  | nil => exact ⟨fun _ => trivial, fun _ => start⟩
  | cons a as ih =>
    obtain ⟨va, vs⟩ := valid
    constructor
    · rintro ⟨-, rest⟩
      refine ⟨(sharp s a inv start va).mp fun s' run => (rest s' run).start, fun s' run => ?_⟩
      exact (ih (keep s a s' inv va run) (rest s' run).start (vs s' run)).mp (rest s' run)
    · rintro ⟨guard, rest⟩
      refine ⟨start, fun s' run => ?_⟩
      have next := (sharp s a inv start va).mpr guard s' run
      exact (ih (keep s a s' inv va run) next (vs s' run)).mpr (rest s' run)

end Rules

end Coda.Lib
