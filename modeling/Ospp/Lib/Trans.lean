import Mathlib.Logic.Basic

/-!
# Runs of a labelled transition relation

`Run Step s as s'` is the run that performs the actions `as`. `Along Step P s as` says that the
predicate `P` on a state and the action about to be performed holds before every action of every
run of `as`; with a condition on single steps in the place of `P` it describes the runs all of
whose steps meet that condition.

Two rules derive facts about runs from facts about steps: `Run.invariant` for the states reached,
`Along.of_invariant` for the steps taken.
-/

namespace Trans

variable {σ α : Type*} {Step : σ → α → σ → Prop}

/-- The run performing the given actions in order. -/
inductive Run (Step : σ → α → σ → Prop) : σ → List α → σ → Prop
  | nil (s : σ) : Run Step s [] s
  | cons {s s' s'' : σ} {a : α} {as : List α} :
      Step s a s' → Run Step s' as s'' → Run Step s (a :: as) s''

/-- `P` holds before every action of every run of `as` from `s`. -/
def Along (Step : σ → α → σ → Prop) (P : σ → α → Prop) : σ → List α → Prop
  | _, [] => True
  | s, a :: as => P s a ∧ ∀ s', Step s a s' → Along Step P s' as

theorem run_cons_iff {s s'' : σ} {a : α} {as : List α} :
    Run Step s (a :: as) s'' ↔ ∃ s', Step s a s' ∧ Run Step s' as s'' := by
  constructor
  · intro h
    cases h with
    | cons hs hr => exact ⟨_, hs, hr⟩
  · rintro ⟨s', hs, hr⟩; exact .cons hs hr

theorem Run.append {s s' s'' : σ} {as bs : List α} (h : Run Step s as s')
    (h' : Run Step s' bs s'') : Run Step s (as ++ bs) s'' := by
  induction h with
  | nil s => exact h'
  | cons hs _ ih => exact .cons hs (ih h')

/-- **Invariants of states.** A predicate kept by every step that meets the condition `C` holds at
the end of every run whose steps all meet it. -/
theorem Run.invariant {I : σ → Prop} {C : σ → α → Prop}
    (hstep : ∀ s a s', I s → C s a → Step s a s' → I s') {s s' : σ} {as : List α}
    (hrun : Run Step s as s') (hC : Along Step C s as) (h0 : I s) : I s' := by
  induction hrun with
  | nil s => exact h0
  | cons hs _ ih => exact ih (hC.2 _ hs) (hstep _ _ _ h0 hC.1 hs)

/-- **Invariants of steps.** Where the invariant and the condition give `P` for the next step, `P`
holds along every run whose steps all meet the condition. -/
theorem Along.of_invariant {I : σ → Prop} {C P : σ → α → Prop}
    (hstep : ∀ s a s', I s → C s a → Step s a s' → I s')
    (hP : ∀ s a, I s → C s a → P s a) :
    ∀ {as : List α} {s : σ}, I s → Along Step C s as → Along Step P s as := by
  intro as
  induction as with
  | nil => intro s _ _; trivial
  | cons a as ih =>
    intro s h0 hC
    exact ⟨hP s a h0 hC.1, fun s' hs => ih (hstep s a s' h0 hC.1 hs) (hC.2 s' hs)⟩

/-- **Equal conditions.** Two conditions that agree wherever the invariant holds single out the same
runs; the invariant need only be kept by the steps that meet them. -/
theorem Along.iff_of_invariant {I : σ → Prop} {P Q : σ → α → Prop}
    (hstep : ∀ s a s', I s → P s a → Step s a s' → I s') (hPQ : ∀ s a, I s → (P s a ↔ Q s a)) :
    ∀ {as : List α} {s : σ}, I s → (Along Step P s as ↔ Along Step Q s as) := by
  intro as
  induction as with
  | nil => intro s _; exact Iff.rfl
  | cons a as ih =>
    intro s h0
    constructor
    · intro h
      exact ⟨(hPQ s a h0).1 h.1, fun s' hs => (ih (hstep s a s' h0 h.1 hs)).1 (h.2 s' hs)⟩
    · intro h
      have hP := (hPQ s a h0).2 h.1
      exact ⟨hP, fun s' hs => (ih (hstep s a s' h0 hP hs)).2 (h.2 s' hs)⟩

/-- Along a step with a single outcome. -/
theorem along_cons_iff {P : σ → α → Prop} {s s₁ : σ} {a : α} {as : List α} (hs : Step s a s₁)
    (hdet : ∀ s', Step s a s' → s' = s₁) :
    Along Step P s (a :: as) ↔ P s a ∧ Along Step P s₁ as := by
  constructor
  · intro h; exact ⟨h.1, h.2 _ hs⟩
  · intro h; exact ⟨h.1, fun s' hs' => by rw [hdet s' hs']; exact h.2⟩

theorem Along.mono {P Q : σ → α → Prop} (h : ∀ s a, P s a → Q s a) :
    ∀ {as : List α} {s : σ}, Along Step P s as → Along Step Q s as := by
  intro as
  induction as with
  | nil => intro s _; trivial
  | cons a as ih => intro s hP; exact ⟨h s a hP.1, fun s' hs => ih (hP.2 s' hs)⟩

/-- The unconditional predicate holds along every run. -/
theorem along_true : ∀ (as : List α) (s : σ), Along Step (fun _ _ => True) s as := by
  intro as
  induction as with
  | nil => intro s; trivial
  | cons a as ih => intro s; exact ⟨trivial, fun s' _ => ih s'⟩

/-- What holds along a run holds at each of its states for the action taken there. -/
theorem Along.of_run {P : σ → α → Prop} {s s' : σ} {as bs : List α} {a : α}
    (hrun : Run Step s as s') (h : Along Step P s (as ++ a :: bs)) : P s' a := by
  induction hrun with
  | nil s => exact h.1
  | cons hs _ ih => exact ih (h.2 _ hs)

/-- What holds along a run holds along the rest of it. -/
theorem Along.drop {P : σ → α → Prop} {s s' : σ} {as bs : List α}
    (h : Along Step P s (as ++ bs)) (hrun : Run Step s as s') : Along Step P s' bs := by
  induction hrun with
  | nil s => exact h
  | cons hs _ ih => exact ih (h.2 _ hs)

section

variable {τ : Type*} {Step' : τ → α → τ → Prop} {R : σ → τ → Prop}

/-- **Simulation.** Where every step that meets the condition `C` on the abstract states is one of
theirs, what `C` says for a step of the abstract run is what `P` says for one of the concrete run. -/
theorem Along.of_simulation {P : σ → α → Prop} {C : τ → α → Prop}
    (hstep : ∀ s t a s', R s t → C t a → Step s a s' → ∃ t', Step' t a t' ∧ R s' t')
    (hP : ∀ s t a, R s t → C t a → P s a) :
    ∀ {as : List α} {s : σ} {t : τ}, R s t → Along Step' C t as → Along Step P s as := by
  intro as
  induction as with
  | nil => intro s t _ _; trivial
  | cons a as ih =>
    intro s t h hC
    refine ⟨hP s t a h hC.1, fun s' hs => ?_⟩
    obtain ⟨t', ht, hR⟩ := hstep s t a s' h hC.1 hs
    exact ih hR (hC.2 t' ht)

end

/-! ## Steps given by a function -/

section

variable {f : σ → α → Option σ} (hf : ∀ s a s', Step s a s' ↔ f s a = some s')
include hf

/-- A run is an evaluation. -/
theorem run_of_foldlM : ∀ {as : List α} {s s' : σ}, as.foldlM f s = some s' → Run Step s as s' := by
  intro as
  induction as with
  | nil => intro s s' h; cases h; exact .nil _
  | cons a as ih =>
    intro s s' h
    rw [List.foldlM_cons, Option.bind_eq_bind, Option.bind_eq_some_iff] at h
    obtain ⟨s₁, h1, h2⟩ := h
    exact .cons ((hf _ _ _).2 h1) (ih h2)

/-- A run to a state that passes a test. -/
theorem run_of_any {as : List α} {s : σ} {t : σ → Bool} (h : (as.foldlM f s).any t = true) :
    ∃ s', Run Step s as s' ∧ t s' = true := by
  cases hr : as.foldlM f s with
  | none => rw [hr] at h; cases h
  | some s' => rw [hr] at h; exact ⟨s', run_of_foldlM hf hr, h⟩

omit hf

/-- Evaluate a condition on the steps of a run. -/
def check (f : σ → α → Option σ) (p : σ → α → Bool) : σ → List α → Bool
  | _, [] => true
  | s, a :: as => p s a && (f s a).all fun s' => check f p s' as

include hf

theorem along_of_check {p : σ → α → Bool} : ∀ {as : List α} {s : σ}, check f p s as = true →
    Along Step (fun s a => p s a = true) s as := by
  intro as
  induction as with
  | nil => intro s _; trivial
  | cons a as ih =>
    intro s h
    rw [check, Bool.and_eq_true] at h
    refine ⟨h.1, fun s' hs => ih ?_⟩
    have hall := h.2
    rw [(hf _ _ _).1 hs] at hall
    exact hall

end

end Trans
