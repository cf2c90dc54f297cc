import Mathlib.Algebra.BigOperators.Group.Finset.Piecewise
import Mathlib.Data.Fintype.BigOperators

/-!
# Reference counts

Handles that point at blocks, some of them parts of an object that a block owns. When a handle `t`
lets go, the blocks that lose their last handle die, and with them the handles that are parts of
their objects; `Dies` is the least set of blocks closed under this. `Dies.trans` is what lets a
recursive release be followed one nested release at a time.

`card_update` counts the places at which a function has a value after one place has changed.
-/

namespace RefCount

variable {C B V : Type*} {points points' part part' : C → B → Prop} {t m : C} {b b₀ : B}

/-- Every handle of the block, and there is one, is `t` or a part of an object in `D`. -/
def Falls (points part : C → B → Prop) (t : C) (D : B → Prop) (b : B) : Prop :=
  (∃ x, points x b) ∧ ∀ x, points x b → x ≠ t → ∃ b', part x b' ∧ D b'

/-- The blocks that go when `t` lets go of its own: the least set of blocks with every handle either
`t` or a part of an object of that set. -/
def Dies (points part : C → B → Prop) (t : C) (b : B) : Prop :=
  ∀ D : B → Prop, (∀ b, Falls points part t D b → D b) → D b

theorem Dies.intro (h : Falls points part t (Dies points part t) b) : Dies points part t b := by
  intro D hD
  refine hD b ⟨h.1, fun x hx hne => ?_⟩
  obtain ⟨b', hb', hdies⟩ := h.2 x hx hne
  exact ⟨b', hb', hdies D hD⟩

/-- A block all of whose handles are `t`. -/
theorem Dies.of_last (hx : points t b) (h : ∀ x, points x b → x = t) : Dies points part t b :=
  .intro ⟨⟨t, hx⟩, fun x hx hne => absurd (h x hx) hne⟩

theorem Dies.exists_points (h : Dies points part t b) : ∃ x, points x b :=
  h (fun b => ∃ x, points x b) fun _ hb => hb.1

/-- A handle that is no part of an object keeps its block. -/
theorem not_dies_of_free {x : C} (hx : points x b) (hne : x ≠ t) (hfree : ∀ b, ¬ part x b) :
    ¬ Dies points part t b := by
  intro h
  refine h (fun b => ¬ (points x b ∧ x ≠ t)) (fun b hb hp => ?_) ⟨hx, hne⟩
  obtain ⟨b', hb', _⟩ := hb.2 x hp.1 hp.2
  exact hfree b' hb'

/-- **A release inside a release.** The handles that have gone so far are `t` and parts of objects
that die; then whatever dies when the part `m` of such an object lets go, dies. -/
theorem Dies.trans (hb₀ : Dies points part t b₀) (hm : part m b₀)
    (hpoints : ∀ x b, points' x b → points x b) (hpart : ∀ x b, part' x b → part x b)
    (hlost : ∀ x b, points x b → ¬ points' x b → x = t ∨ ∃ b', part x b' ∧ Dies points part t b')
    (h : Dies points' part' m b) : Dies points part t b := by
  refine h (Dies points part t) fun b hb => .intro ⟨?_, fun x hx hne => ?_⟩
  · obtain ⟨x, hx⟩ := hb.1
    exact ⟨x, hpoints x b hx⟩
  · by_cases hx' : points' x b
    · by_cases hxm : x = m
      · exact ⟨b₀, hxm ▸ hm, hb₀⟩
      · obtain ⟨b', hb', hdies⟩ := hb.2 x hx' hxm
        exact ⟨b', hpart x b' hb', hdies⟩
    · exact (hlost x b hx hx').resolve_left hne

/-! ## Counting -/

theorem card_update [Fintype C] [DecidableEq C] [DecidableEq V] (f : C → V) (c : C) (v w : V) :
    (Finset.univ.filter fun x => Function.update f c v x = w).card + (if f c = w then 1 else 0) =
      (Finset.univ.filter fun x => f x = w).card + (if v = w then 1 else 0) := by
  have hupd : ∀ x, (if Function.update f c v x = w then 1 else 0) =
      Function.update (fun x => if f x = w then 1 else 0) c (if v = w then 1 else 0) x := by
    intro x
    by_cases hx : x = c
    · rw [hx, Function.update_self, Function.update_self]
    · rw [Function.update_of_ne hx, Function.update_of_ne hx]
  rw [Finset.card_filter, Finset.card_filter, Finset.sum_congr rfl fun x _ => hupd x,
    Finset.sum_update_of_mem (Finset.mem_univ c),
    Finset.sum_eq_add_sum_sdiff_singleton_of_mem (Finset.mem_univ c)
      fun x => if f x = w then 1 else 0]
  omega

end RefCount
