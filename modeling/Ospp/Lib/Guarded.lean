import Mathlib.Logic.Function.Basic
import Mathlib.Tactic.Common
import Ospp.Lib.Trans

/-!
# Objects behind a lock

An `Object` is data with operations, each a list of small steps on the data and on a private
register. The guarded machine runs operations of any number of threads: an operation waits for the
lock, takes its steps one by one while the steps of the others go on, and gives the lock back.

`serial_run`: whatever the interleaving, the operations have the results, and leave the data, of running
them one after the other in the order in which they gave the lock back (`Replays`).
-/

namespace Guarded

open Trans

/-- Operations on data `D` with a register `ρ`. A step that is not possible is never taken. -/
structure Object (D ρ Op : Type) where
  entry : Op → ρ
  body : Op → List (D → ρ → Option (D × ρ))

variable {D ρ Op θ : Type} (O : Object D ρ Op)

/-- The steps, one after the other. -/
def finish (left : List (D → ρ → Option (D × ρ))) (x : D × ρ) : Option (D × ρ) :=
  left.foldlM (fun x f => f x.1 x.2) x

/-- An operation that is alone. -/
def Object.run (o : Op) (d : D) : Option (D × ρ) := finish (O.body o) (d, O.entry o)

/-- Where a thread is. -/
inductive Phase (D ρ Op : Type) where
  | idle
  | waiting (o : Op)
  | inside (o : Op) (left : List (D → ρ → Option (D × ρ))) (reg : ρ)

structure State (D ρ Op θ : Type) where
  data : D
  phase : θ → Phase D ρ Op
  holder : Option θ
  /-- The operations that have given the lock back, with the final registers, in this order. -/
  done : List (θ × Op × ρ)

inductive Act (Op θ : Type) where
  | call (t : θ) (o : Op)
  /-- The thread does not wait any longer. -/
  | giveUp (t : θ)
  | acquire (t : θ)
  | work (t : θ)
  | release (t : θ)
  deriving DecidableEq

namespace State

def start (d : D) : State D ρ Op θ := ⟨d, fun _ => .idle, none, []⟩

/-- The thread has the lock, and where it is in its operation. -/
def Inside (s : State D ρ Op θ) (t : θ) : Prop := ∃ o left r, s.phase t = .inside o left r

variable [DecidableEq θ]

def setPhase (s : State D ρ Op θ) (t : θ) (p : Phase D ρ Op) : State D ρ Op θ :=
  { s with phase := Function.update s.phase t p }

def step (s : State D ρ Op θ) : Act Op θ → Option (State D ρ Op θ)
  | .call t o =>
    match s.phase t with
    | .idle => some (s.setPhase t (.waiting o))
    | _ => none
  | .giveUp t =>
    match s.phase t with
    | .waiting _ => some (s.setPhase t .idle)
    | _ => none
  | .acquire t =>
    match s.phase t, s.holder with
    | .waiting o, none =>
      some { s.setPhase t (.inside o (O.body o) (O.entry o)) with holder := some t }
    | _, _ => none
  | .work t =>
    match s.phase t with
    | .inside o (f :: fs) r =>
      (f s.data r).map fun x => { s.setPhase t (.inside o fs x.2) with data := x.1 }
    | _ => none
  | .release t =>
    match s.phase t with
    | .inside o [] r =>
      some { s.setPhase t .idle with holder := none, done := s.done ++ [(t, o, r)] }
    | _ => none

end State

def Step [DecidableEq θ] (s : State D ρ Op θ) (a : Act Op θ) (s' : State D ρ Op θ) : Prop :=
  s.step O a = some s'

/-! ## Operations one after the other -/

/-- The operations take the data from `d` to `d'` with these final registers. -/
def Replays : D → List (θ × Op × ρ) → D → Prop
  | d, [], d' => d = d'
  | d, (_, o, r) :: xs, d' => ∃ d₁, O.run o d = some (d₁, r) ∧ Replays d₁ xs d'

theorem replays_append {xs ys : List (θ × Op × ρ)} {d d' : D} :
    Replays O d (xs ++ ys) d' ↔ ∃ d₁, Replays O d xs d₁ ∧ Replays O d₁ ys d' := by
  induction xs generalizing d with
  | nil =>
    constructor
    · intro h
      exact ⟨d, rfl, h⟩
    · rintro ⟨d₁, rfl, h⟩
      exact h
  | cons x xs ih =>
    obtain ⟨t, o, r⟩ := x
    constructor
    · rintro ⟨d₁, hrun, h⟩
      obtain ⟨d₂, h1, h2⟩ := ih.1 h
      exact ⟨d₂, ⟨d₁, hrun, h1⟩, h2⟩
    · rintro ⟨d₂, ⟨d₁, hrun, h1⟩, h2⟩
      exact ⟨d₁, hrun, ih.2 ⟨d₂, h1, h2⟩⟩

/-- One operation more. -/
theorem Replays.concat {xs : List (θ × Op × ρ)} {d d₁ d' : D} {t : θ} {o : Op} {r : ρ}
    (h : Replays O d xs d₁) (hrun : O.run o d₁ = some (d', r)) :
    Replays O d (xs ++ [(t, o, r)]) d' :=
  (replays_append O).2 ⟨d₁, h, d', hrun, rfl⟩

/-! ## The invariant -/

/-- The data is the outcome `d` of the operations that are done; or one thread is inside, and what is
left of its operation will complete it as if it had run on `d` alone. -/
def Open (s : State D ρ Op θ) (d : D) : Prop :=
  match s.holder with
  | none => s.data = d
  | some t => ∃ o left r, s.phase t = .inside o left r ∧ finish left (s.data, r) = O.run o d

/-- The lock and the data. -/
structure Serial (d₀ : D) (s : State D ρ Op θ) : Prop where
  mutex : ∀ t, s.Inside t ↔ s.holder = some t
  serial : ∃ d, Replays O d₀ s.done d ∧ Open O s d

theorem serial_start (d₀ : D) : Serial O d₀ (State.start d₀ : State D ρ Op θ) := by
  refine ⟨fun t => ?_, d₀, rfl, rfl⟩
  constructor
  · rintro ⟨o, left, r, h⟩
    cases h
  · intro h
    cases h

section

variable {O} [DecidableEq θ] {s s' : State D ρ Op θ} {d₀ d : D}

/-- What a step can do. -/
theorem step_cases {a : Act Op θ} (h : Step O s a s') :
    (∃ t o, a = .call t o ∧ s.phase t = .idle ∧ s' = s.setPhase t (.waiting o)) ∨
    (∃ t o, a = .giveUp t ∧ s.phase t = .waiting o ∧ s' = s.setPhase t .idle) ∨
    (∃ t o, a = .acquire t ∧ s.phase t = .waiting o ∧ s.holder = none ∧
      s' = { s.setPhase t (.inside o (O.body o) (O.entry o)) with holder := some t }) ∨
    (∃ t o f fs r d r', a = .work t ∧ s.phase t = .inside o (f :: fs) r ∧
      f s.data r = some (d, r') ∧ s' = { s.setPhase t (.inside o fs r') with data := d }) ∨
    (∃ t o r, a = .release t ∧ s.phase t = .inside o [] r ∧
      s' = { s.setPhase t .idle with holder := none, done := s.done ++ [(t, o, r)] }) := by
  unfold Step at h
  cases a with
  | call t o =>
    cases hp : s.phase t with
    | idle =>
      rw [State.step, hp] at h
      exact Or.inl ⟨t, o, rfl, hp, (Option.some.inj h).symm⟩
    | waiting _ => rw [State.step, hp] at h; cases h
    | inside _ _ _ => rw [State.step, hp] at h; cases h
  | giveUp t =>
    cases hp : s.phase t with
    | idle => rw [State.step, hp] at h; cases h
    | waiting o =>
      rw [State.step, hp] at h
      exact Or.inr (Or.inl ⟨t, o, rfl, hp, (Option.some.inj h).symm⟩)
    | inside _ _ _ => rw [State.step, hp] at h; cases h
  | acquire t =>
    cases hp : s.phase t with
    | idle => rw [State.step, hp] at h; cases h
    | waiting o =>
      cases hh : s.holder with
      | some _ => rw [State.step, hp, hh] at h; cases h
      | none =>
        rw [State.step, hp, hh] at h
        exact Or.inr (Or.inr (Or.inl ⟨t, o, rfl, hp, rfl, (Option.some.inj h).symm⟩))
    | inside _ _ _ => rw [State.step, hp] at h; cases h
  | work t =>
    cases hp : s.phase t with
    | idle => rw [State.step, hp] at h; cases h
    | waiting _ => rw [State.step, hp] at h; cases h
    | inside o left r =>
      cases left with
      | nil => rw [State.step, hp] at h; cases h
      | cons f fs =>
        rw [State.step, hp] at h
        obtain ⟨⟨d, r'⟩, hf, he⟩ := Option.map_eq_some_iff.1 h
        exact Or.inr (Or.inr (Or.inr (Or.inl ⟨t, o, f, fs, r, d, r', rfl, hp, hf, he.symm⟩)))
  | release t =>
    cases hp : s.phase t with
    | idle => rw [State.step, hp] at h; cases h
    | waiting _ => rw [State.step, hp] at h; cases h
    | inside o left r =>
      cases left with
      | nil =>
        rw [State.step, hp] at h
        exact Or.inr (Or.inr (Or.inr (Or.inr ⟨t, o, r, rfl, hp, (Option.some.inj h).symm⟩)))
      | cons _ _ => rw [State.step, hp] at h; cases h

theorem phase_setPhase_self (s : State D ρ Op θ) (t : θ) (p : Phase D ρ Op) :
    (s.setPhase t p).phase t = p := Function.update_self _ _ _

theorem phase_setPhase_ne (s : State D ρ Op θ) {t u : θ} (p : Phase D ρ Op) (h : u ≠ t) :
    (s.setPhase t p).phase u = s.phase u := Function.update_of_ne h _ _

/-- A thread that is not inside moves, and stays outside. -/
theorem Serial.outside (h : Serial O d₀ s) {t : θ} {p : Phase D ρ Op} (hout : ¬ s.Inside t)
    (hp : ∀ o left r, p ≠ .inside o left r) : Serial O d₀ (s.setPhase t p) := by
  have hne : ∀ u, s.holder = some u → u ≠ t := by
    rintro u hu rfl
    exact hout ((h.mutex u).2 hu)
  refine ⟨fun u => ?_, ?_⟩
  · rw [show (s.setPhase t p).holder = s.holder from rfl, ← h.mutex u]
    unfold State.Inside
    by_cases hu : u = t
    · subst hu
      rw [phase_setPhase_self]
      exact iff_of_false (fun ⟨o, left, r, e⟩ => hp o left r e) hout
    · rw [phase_setPhase_ne s p hu]
  · obtain ⟨d, hrep, hopen⟩ := h.serial
    refine ⟨d, hrep, ?_⟩
    unfold Open at hopen ⊢
    rw [show (s.setPhase t p).holder = s.holder from rfl]
    cases hh : s.holder with
    | none =>
      rw [hh] at hopen
      exact hopen
    | some u =>
      rw [hh] at hopen
      obtain ⟨o, left, r, hphase, hfin⟩ := hopen
      exact ⟨o, left, r, by rw [phase_setPhase_ne s p (hne u hh)]; exact hphase, hfin⟩

/-- **One step.** -/
theorem Serial.step (h : Serial O d₀ s) {a : Act Op θ} (hs : Step O s a s') : Serial O d₀ s' := by
  have hfree : ∀ {t : θ}, (∀ o left r, s.phase t ≠ .inside o left r) → ¬ s.Inside t :=
    fun hn ⟨o, left, r, e⟩ => hn o left r e
  rcases step_cases hs with ⟨t, o, -, hp, rfl⟩ | ⟨t, o, -, hp, rfl⟩ | ⟨t, o, -, hp, hh, rfl⟩ |
    ⟨t, o, f, fs, r, d', r', -, hp, hf, rfl⟩ | ⟨t, o, r, -, hp, rfl⟩
  · exact h.outside (hfree fun _ _ _ e => by rw [hp] at e; cases e) fun _ _ _ e => by cases e
  · exact h.outside (hfree fun _ _ _ e => by rw [hp] at e; cases e) fun _ _ _ e => by cases e
  · -- the lock is taken, and the whole operation is left
    obtain ⟨d, hrep, hopen⟩ := h.serial
    refine ⟨fun u => ?_, d, hrep, o, O.body o, O.entry o, phase_setPhase_self _ _ _, ?_⟩
    · by_cases hu : u = t
      · subst hu
        exact iff_of_true ⟨_, _, _, phase_setPhase_self _ _ _⟩ rfl
      · refine iff_of_false ?_ fun e => hu (Option.some.inj e).symm
        rintro ⟨o', left, r, e⟩
        have : s.Inside u := ⟨o', left, r, by rw [← e]; exact (phase_setPhase_ne s _ hu).symm⟩
        rw [h.mutex u, hh] at this
        cases this
    · unfold Open at hopen
      rw [hh] at hopen
      show finish (O.body o) (s.data, O.entry o) = _
      rw [hopen]
      rfl
  · have hholder := (h.mutex t).1 ⟨_, _, _, hp⟩
    obtain ⟨d, hrep, hopen⟩ := h.serial
    refine ⟨fun u => ?_, d, hrep, ?_⟩
    · show State.Inside _ u ↔ s.holder = some u
      rw [← h.mutex u]
      by_cases hu : u = t
      · subst hu
        exact iff_of_true ⟨_, _, _, phase_setPhase_self _ _ _⟩ ⟨_, _, _, hp⟩
      · refine exists_congr fun o' => exists_congr fun left => exists_congr fun r'' => ?_
        rw [show ({ s.setPhase t (.inside o fs r') with data := d' } : State D ρ Op θ).phase u =
          s.phase u from phase_setPhase_ne s _ hu]
    · unfold Open at hopen ⊢
      rw [show ({ s.setPhase t (.inside o fs r') with data := d' } : State D ρ Op θ).holder =
        some t from hholder]
      rw [hholder] at hopen
      obtain ⟨o', left, r₀, hphase, hfin⟩ := hopen
      rw [hp] at hphase
      cases hphase
      refine ⟨o, fs, r', phase_setPhase_self _ _ _, ?_⟩
      rw [← hfin]
      show finish fs (d', r') = finish (f :: fs) (s.data, r)
      unfold finish
      rw [List.foldlM_cons, hf]
      rfl
  · -- nothing is left, so the data is the outcome of one operation more
    have hholder := (h.mutex t).1 ⟨_, _, _, hp⟩
    obtain ⟨d, hrep, hopen⟩ := h.serial
    unfold Open at hopen
    rw [hholder] at hopen
    obtain ⟨o', left, r₀, hphase, hfin⟩ := hopen
    rw [hp] at hphase
    cases hphase
    refine ⟨fun u => ?_, s.data, hrep.concat O hfin.symm, rfl⟩
    refine iff_of_false ?_ fun e => by cases e
    rintro ⟨o', left, r', e⟩
    by_cases hu : u = t
    · subst hu
      rw [show ({ s.setPhase u .idle with holder := none, done := s.done ++ [(u, o, r)] } :
        State D ρ Op θ).phase u = .idle from phase_setPhase_self _ _ _] at e
      cases e
    · have hin : s.Inside u := ⟨o', left, r', by rw [← e]; exact (phase_setPhase_ne s _ hu).symm⟩
      rw [h.mutex u, hholder] at hin
      exact hu (Option.some.inj hin).symm

/-- **Operations behind a lock are atomic.** -/
theorem serial_run {as : List (Act Op θ)} (hrun : Run (Step O) (State.start d₀) as s) :
    Serial O d₀ s :=
  hrun.invariant (I := Serial O d₀) (C := fun _ _ => True) (fun _ _ _ hI _ hs => hI.step hs)
    (along_true _ _) (serial_start O d₀)

end

end Guarded
