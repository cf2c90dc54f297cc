import Ospp.Lib.Traced

/-!
# Stateful computations with a trace, and their weakest preconditions

A `Cmd σ τ ε α` starts from a state and returns a value and a new state, or stops with an `ε`; it
leaves a trace of events either way. `Wp ok err x Q s` says that `x`, run from `s`, performs only
events that are `ok`, and returns a value and a state related by `Q`; where it may stop instead,
`err` holds. With `False` for `err` it is total correctness, with `True` partial correctness, and a
statement with a variable `err` is both at once.

Proofs follow the text of the computation: `Wp.bind` for a sequence, one rule for each primitive,
`Wp.mono` to use what has been proved of a part.
-/

/-- A computation on a state. -/
def Cmd (σ τ ε α : Type) := σ → Traced τ ε (α × σ)

namespace Cmd

variable {σ τ ε α β : Type}

instance : Monad (Cmd σ τ ε) where
  pure a := fun s => pure (a, s)
  bind x f := fun s => x s >>= fun r => f r.1 r.2

/-- The state. -/
def get : Cmd σ τ ε σ := fun s => pure (s, s)

def modify (f : σ → σ) : Cmd σ τ ε Unit := fun s => pure ((), f s)

def emit (t : τ) : Cmd σ τ ε Unit := fun s => ⟨[t], .ok ((), s)⟩

def fail (e : ε) : Cmd σ τ ε α := fun _ => ⟨[], .error e⟩

/-- A computation that does not touch the state. -/
def lift (x : Except ε α) : Cmd σ τ ε α := fun s => ⟨[], x.map fun a => (a, s)⟩

/-- What a computation establishes. -/
def Wp (ok : τ → Prop) (err : Prop) (x : Cmd σ τ ε α) (Q : α → σ → Prop) (s : σ) : Prop :=
  (∀ t ∈ (x s).trace, ok t) ∧
    match (x s).result with
    | .ok (a, s') => Q a s'
    | .error _ => err

variable {ok : τ → Prop} {err : Prop} {x : Cmd σ τ ε α} {f : α → Cmd σ τ ε β}
  {Q Q' : α → σ → Prop} {R : β → σ → Prop} {s : σ}

/-! ## Rules -/

theorem Wp.pure {a : α} (h : Q a s) : Wp ok err (pure a : Cmd σ τ ε α) Q s :=
  ⟨fun _ ht => (by cases ht), h⟩

/-- A sequence. -/
theorem Wp.bind (h : Wp ok err x (fun a s' => Wp ok err (f a) R s') s) :
    Wp ok err (x >>= f) R s := by
  obtain ⟨hev, hpost⟩ := h
  show Wp ok err (fun s => x s >>= fun r => f r.1 r.2) R s
  constructor
  · intro t ht
    rw [Traced.mem_trace_bind] at ht
    rcases ht with ht | ⟨⟨a, s'⟩, hr, ht⟩
    · exact hev t ht
    · rw [hr] at hpost
      exact hpost.1 t ht
  · show match (Traced.bind (x s) fun r => f r.1 r.2).result with
      | .ok (b, s') => R b s'
      | .error _ => err
    unfold Traced.bind
    cases hr : (x s).result with
    | error e => rw [hr] at hpost; exact hpost
    | ok r =>
      obtain ⟨a, s'⟩ := r
      rw [hr] at hpost
      exact hpost.2

theorem Wp.get {Q : σ → σ → Prop} (h : Q s s) : Wp ok err (get : Cmd σ τ ε σ) Q s :=
  ⟨fun _ ht => (by cases ht), h⟩

theorem Wp.modify {Q : Unit → σ → Prop} {g : σ → σ} (h : Q () (g s)) :
    Wp ok err (modify g : Cmd σ τ ε Unit) Q s := ⟨fun _ ht => (by cases ht), h⟩

theorem Wp.emit {Q : Unit → σ → Prop} {t : τ} (ht : ok t) (h : Q () s) :
    Wp ok err (emit t : Cmd σ τ ε Unit) Q s := by
  refine ⟨fun u hu => ?_, h⟩
  rw [List.mem_singleton.1 hu]
  exact ht

theorem Wp.fail {e : ε} (h : err) : Wp ok err (fail e : Cmd σ τ ε α) Q s :=
  ⟨fun _ ht => (by cases ht), h⟩

theorem Wp.lift {y : Except ε α} (hok : ∀ a, y = .ok a → Q a s) (herr : ∀ e, y = .error e → err) :
    Wp ok err (lift y : Cmd σ τ ε α) Q s := by
  refine ⟨fun _ ht => (by cases ht), ?_⟩
  cases y with
  | ok a => exact hok a rfl
  | error e => exact herr e rfl

/-- **Consequence.** -/
theorem Wp.mono (h : Wp ok err x Q s) (hQ : ∀ a s', Q a s' → Q' a s') : Wp ok err x Q' s := by
  refine ⟨h.1, ?_⟩
  have hpost := h.2
  cases hr : (x s).result with
  | error e => rw [hr] at hpost; exact hpost
  | ok r => rw [hr] at hpost; exact hQ _ _ hpost

/-- A computation that does not fail does not fail without a reason. -/
theorem Wp.weaken (h : Wp ok False x Q s) : Wp ok err x Q s := by
  refine ⟨h.1, ?_⟩
  have hpost := h.2
  cases hr : (x s).result with
  | error e => rw [hr] at hpost; exact hpost.elim
  | ok r => rw [hr] at hpost; exact hpost

theorem Wp.ite {c : Prop} [Decidable c] {y : Cmd σ τ ε α} (ht : c → Wp ok err x Q s)
    (hf : ¬ c → Wp ok err y Q s) : Wp ok err (if c then x else y) Q s := by
  split_ifs with h
  · exact ht h
  · exact hf h

/-! ## Reading the result -/

/-- The events of a sequence. -/
theorem mem_trace_bind {t : τ} : t ∈ ((x >>= f) s).trace ↔
    t ∈ (x s).trace ∨ ∃ a s', (x s).result = .ok (a, s') ∧ t ∈ (f a s').trace := by
  show t ∈ (x s >>= fun r => f r.1 r.2).trace ↔ _
  rw [Traced.mem_trace_bind, Prod.exists]

/-- What holds of the result, if there is one. -/
theorem Wp.returns (h : Wp ok err x Q s) {a : α} {s' : σ} (hr : (x s).result = .ok (a, s')) :
    Q a s' := by
  have hpost := h.2
  rw [hr] at hpost
  exact hpost

/-- Total correctness: there is a result. -/
theorem Wp.total (h : Wp ok False x Q s) : ∃ a s', (x s).result = .ok (a, s') ∧ Q a s' := by
  have hpost := h.2
  cases hr : (x s).result with
  | error e => rw [hr] at hpost; exact hpost.elim
  | ok r => rw [hr] at hpost; exact ⟨r.1, r.2, rfl, hpost⟩

/-- Why a computation stops, if it does. -/
def halts (x : Cmd σ τ ε α) (s : σ) : Option ε :=
  match (x s).result with
  | .ok _ => none
  | .error e => some e

theorem result_ne_ok (h : (halts x s).isSome = true) {r : α × σ} : (x s).result ≠ .ok r := by
  intro hr
  unfold halts at h
  rw [hr] at h
  cases h

end Cmd
