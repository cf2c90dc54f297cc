import Mathlib.Data.List.Basic
import Mathlib.Tactic.Common

/-!
# Computations that leave a trace

A `Traced τ ε α` is a computation that returns a value or stops with an `ε`, together with the
events it has performed until then. The trace of a computation that stops is not lost, so what
holds of every event of a trace holds of every event there ever was.

Proofs take a sequence apart with `result_bind` for the outcome and `mem_trace_bind` for the
events. Where the events are known beforehand, `Performs` follows the structure of the computation
instead, and `Ensures` does where one property of all events is wanted.
-/

/-- Events, and the outcome. -/
structure Traced (τ ε α : Type) where
  trace : List τ
  result : Except ε α

namespace Traced

variable {τ ε α β : Type}

protected def pure (a : α) : Traced τ ε α := ⟨[], .ok a⟩

/-- Run `x`, then `f` on its value, if there is one. -/
protected def bind (x : Traced τ ε α) (f : α → Traced τ ε β) : Traced τ ε β :=
  match x.result with
  | .ok a => ⟨x.trace ++ (f a).trace, (f a).result⟩
  | .error e => ⟨x.trace, .error e⟩

instance : Monad (Traced τ ε) where
  pure := Traced.pure
  bind := Traced.bind

/-- A computation without events. -/
def lift (x : Except ε α) : Traced τ ε α := ⟨[], x⟩

def emit (t : τ) : Traced τ ε Unit := ⟨[t], .ok ()⟩

@[simp] theorem trace_pure (a : α) : (pure a : Traced τ ε α).trace = [] := rfl

@[simp] theorem result_pure (a : α) : (pure a : Traced τ ε α).result = .ok a := rfl

@[simp] theorem trace_lift (x : Except ε α) : (lift x : Traced τ ε α).trace = [] := rfl

@[simp] theorem result_lift (x : Except ε α) : (lift x : Traced τ ε α).result = x := rfl

@[simp] theorem trace_emit (t : τ) : (emit t : Traced τ ε Unit).trace = [t] := rfl

@[simp] theorem result_emit (t : τ) : (emit t : Traced τ ε Unit).result = .ok () := rfl

/-- A computation that has returned, and what follows. -/
theorem mk_bind (t : List τ) (a : α) (f : α → Traced τ ε β) :
    ((⟨t, .ok a⟩ : Traced τ ε α) >>= f) = ⟨t ++ (f a).trace, (f a).result⟩ := rfl

protected theorem bind_assoc {γ : Type} (x : Traced τ ε α) (f : α → Traced τ ε β)
    (g : β → Traced τ ε γ) : x >>= f >>= g = x >>= fun a => f a >>= g := by
  obtain ⟨t, r⟩ := x
  cases r with
  | error e => rfl
  | ok a =>
    rw [mk_bind, mk_bind]
    obtain ⟨t', r'⟩ := f a
    cases r' with
    | error e => rfl
    | ok b =>
      rw [mk_bind, mk_bind, List.append_assoc]

/-- The sequence returns when both parts do. -/
theorem result_bind {x : Traced τ ε α} {f : α → Traced τ ε β} {b : β} :
    (x >>= f).result = .ok b ↔ ∃ a, x.result = .ok a ∧ (f a).result = .ok b := by
  show (Traced.bind x f).result = .ok b ↔ _
  unfold Traced.bind
  cases x.result with
  | error e => exact ⟨fun h => (by cases h), fun ⟨a, h, _⟩ => (by cases h)⟩
  | ok a => exact ⟨fun h => ⟨a, rfl, h⟩, fun ⟨a', h, h'⟩ => (by cases h; exact h')⟩

/-- The sequence stops when one of the parts does. -/
theorem result_bind_error {x : Traced τ ε α} {f : α → Traced τ ε β} {e : ε} :
    (x >>= f).result = .error e ↔
      x.result = .error e ∨ ∃ a, x.result = .ok a ∧ (f a).result = .error e := by
  show (Traced.bind x f).result = .error e ↔ _
  unfold Traced.bind
  cases x.result with
  | error e' =>
    constructor
    · intro h
      cases h
      exact Or.inl rfl
    · rintro (h | ⟨a, ha, _⟩)
      · cases h
        rfl
      · cases ha
  | ok a =>
    refine ⟨fun h => Or.inr ⟨a, rfl, h⟩, fun h => ?_⟩
    rcases h with h | ⟨a', ha, h⟩
    · cases h
    · cases ha
      exact h

/-- Sequences with equal outcomes, whatever their events are. -/
theorem result_bind_congr {τ' : Type} {x : Traced τ ε α} {y : Traced τ' ε α}
    {f : α → Traced τ ε β} {g : α → Traced τ' ε β} (h : x.result = y.result)
    (hfg : ∀ a, x.result = .ok a → (f a).result = (g a).result) :
    (x >>= f).result = (y >>= g).result := by
  obtain ⟨t, r⟩ := x
  obtain ⟨t', r'⟩ := y
  cases h
  cases r with
  | error _ => rfl
  | ok a => exact hfg a rfl

/-- The events of a sequence whose first part returns. -/
theorem trace_bind {x : Traced τ ε α} {a : α} (h : x.result = .ok a) (f : α → Traced τ ε β) :
    (x >>= f).trace = x.trace ++ (f a).trace := by
  obtain ⟨t, r⟩ := x
  cases h
  rw [mk_bind]

/-- An event of a sequence is one of the first part, or one of the second after the first has
returned. -/
theorem mem_trace_bind {x : Traced τ ε α} {f : α → Traced τ ε β} {t : τ} :
    t ∈ (x >>= f).trace ↔ t ∈ x.trace ∨ ∃ a, x.result = .ok a ∧ t ∈ (f a).trace := by
  show t ∈ (Traced.bind x f).trace ↔ _
  unfold Traced.bind
  cases hx : x.result with
  | error e =>
    refine ⟨Or.inl, fun h => h.resolve_right ?_⟩
    rintro ⟨a, ha, _⟩
    cases ha
  | ok a =>
    dsimp only
    rw [List.mem_append]
    refine or_congr_right ⟨fun h => ⟨a, rfl, h⟩, ?_⟩
    rintro ⟨a', ha, h⟩
    cases ha
    exact h

/-! ## Computations with known events -/

/-- The events are those of `l`, up to the point where the computation stops; one that returns has
performed all of them, and its value satisfies `Q`. -/
structure Performs (x : Traced τ ε α) (l : List τ) (Q : α → Prop) : Prop where
  upTo : x.trace <+: l
  returns : ∀ a, x.result = .ok a → x.trace = l ∧ Q a

variable {x : Traced τ ε α} {f : α → Traced τ ε β} {P : α → Prop} {Q : β → Prop} {l l' : List τ}

theorem performs_pure {a : α} (h : P a) : Performs (pure a : Traced τ ε α) [] P :=
  ⟨List.prefix_refl _, fun _ h' => (by cases h'; exact ⟨rfl, h⟩)⟩

theorem performs_lift (y : Except ε α) :
    Performs (lift y : Traced τ ε α) [] fun a => y = .ok a :=
  ⟨List.prefix_refl _, fun _ h => ⟨rfl, h⟩⟩

theorem performs_emit (t : τ) : Performs (emit t : Traced τ ε Unit) [t] fun _ => True :=
  ⟨List.prefix_refl _, fun _ _ => ⟨rfl, trivial⟩⟩

theorem Performs.bind (hx : Performs x l P) (hf : ∀ a, P a → Performs (f a) l' Q) :
    Performs (x >>= f) (l ++ l') Q := by
  show Performs (Traced.bind x f) (l ++ l') Q
  unfold Traced.bind
  cases h : x.result with
  | error e =>
    exact ⟨hx.upTo.trans (List.prefix_append _ _), fun _ h' => (by cases h')⟩
  | ok a =>
    obtain ⟨htrace, hP⟩ := hx.returns a h
    have hfa := hf a hP
    dsimp only
    rw [htrace]
    refine ⟨(List.prefix_append_right_inj l).2 hfa.upTo, fun b hb => ?_⟩
    obtain ⟨htrace', hQ⟩ := hfa.returns b hb
    rw [htrace']
    exact ⟨rfl, hQ⟩

theorem Performs.mem (hx : Performs x l P) {t : τ} (ht : t ∈ x.trace) : t ∈ l :=
  hx.upTo.subset ht

/-- A computation that returns has performed every event. -/
theorem Performs.mem_trace (hx : Performs x l P) {a : α} (ha : x.result = .ok a) {t : τ}
    (ht : t ∈ l) : t ∈ x.trace := by
  rw [(hx.returns a ha).1]
  exact ht

/-! ## Known events and known reasons to stop -/

/-- The computation performs `l`, and what stops it satisfies `F`. -/
structure Finishes (x : Traced τ ε α) (l : List τ) (Q : α → Prop) (F : ε → Prop) : Prop where
  performs : Performs x l Q
  stops : ∀ e, x.result = .error e → F e

variable {F : ε → Prop}

theorem finishes_pure {a : α} (h : P a) : Finishes (pure a : Traced τ ε α) [] P F :=
  ⟨performs_pure h, fun _ h' => (by cases h')⟩

theorem finishes_lift {y : Except ε α} (h : ∀ a, y = .ok a → P a) (hF : ∀ e, y = .error e → F e) :
    Finishes (lift y : Traced τ ε α) [] P F :=
  ⟨⟨List.prefix_refl _, fun a ha => ⟨rfl, h a ha⟩⟩, hF⟩

theorem finishes_emit (t : τ) : Finishes (emit t : Traced τ ε Unit) [t] (fun _ => True) F :=
  ⟨performs_emit t, fun _ h => (by cases h)⟩

theorem Finishes.bind (hx : Finishes x l P F) (hf : ∀ a, P a → Finishes (f a) l' Q F) :
    Finishes (x >>= f) (l ++ l') Q F := by
  refine ⟨hx.performs.bind fun a ha => (hf a ha).performs, fun e he => ?_⟩
  rcases result_bind_error.1 he with h | ⟨a, ha, h⟩
  · exact hx.stops e h
  · exact (hf a (hx.performs.returns a ha).2).stops e h

/-! ## What holds of every event and of the value -/

/-- Every event satisfies `E`, also if the computation stops, and a value that is returned satisfies
`Q`. -/
structure Ensures (x : Traced τ ε α) (E : τ → Prop) (Q : α → Prop) : Prop where
  events : ∀ t ∈ x.trace, E t
  value : ∀ a, x.result = .ok a → Q a

variable {E E' : τ → Prop}

theorem ensures_pure {a : α} (h : P a) : Ensures (pure a : Traced τ ε α) E P :=
  ⟨fun _ ht => (by cases ht), fun _ h' => (by cases h'; exact h)⟩

theorem ensures_lift {y : Except ε α} (h : ∀ a, y = .ok a → P a) :
    Ensures (lift y : Traced τ ε α) E P :=
  ⟨fun _ ht => (by cases ht), h⟩

theorem ensures_emit {t : τ} (h : E t) : Ensures (emit t : Traced τ ε Unit) E fun _ => True :=
  ⟨fun _ ht => by rwa [List.mem_singleton.1 ht], fun _ _ => trivial⟩

theorem Ensures.bind (hx : Ensures x E P) (hf : ∀ a, P a → Ensures (f a) E Q) :
    Ensures (x >>= f) E Q := by
  refine ⟨fun t ht => ?_, fun b hb => ?_⟩
  · rcases mem_trace_bind.1 ht with ht | ⟨a, ha, ht⟩
    · exact hx.events t ht
    · exact (hf a (hx.value a ha)).events t ht
  · obtain ⟨a, ha, hb⟩ := result_bind.1 hb
    exact (hf a (hx.value a ha)).value b hb

theorem Ensures.mono {P' : α → Prop} (h : Ensures x E P) (hE : ∀ t, E t → E' t)
    (hP : ∀ a, P a → P' a) : Ensures x E' P' :=
  ⟨fun t ht => hE t (h.events t ht), fun a ha => hP a (h.value a ha)⟩

end Traced
