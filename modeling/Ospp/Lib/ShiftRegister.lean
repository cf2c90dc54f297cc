import Mathlib.Tactic.Common
import Mathlib.Data.List.Basic

/-!
# Shift registers with feedback

A register of `w` bits is clocked: it is shifted to the right, and when the bit that falls out is
set, a polynomial is added. Addition is exclusive or, so a clock is linear (`clock_xor`), and what
`n` clocks do to a register is what they do to its low `n` bits, and a plain shift of the others
(`clocks_eq`).

Bits can be fed into the register one by one, each added to the one that falls out. Feeding `n` bits
is the same as adding them all at once to the low end before `n` clocks (`foldl_feed`).
-/

namespace ShiftRegister

variable {w : ℕ} (p : BitVec w)

def clock (c : BitVec w) : BitVec w := if c.getLsbD 0 then p ^^^ (c >>> 1) else c >>> 1

def clocks : ℕ → BitVec w → BitVec w
  | 0, c => c
  | n + 1, c => clocks n (clock p c)

/-- The bit at the low end. -/
def low (w : ℕ) (b : Bool) : BitVec w := (BitVec.ofBool b).setWidth w

/-- A bit is added to the one that falls out. -/
def feed (c : BitVec w) (b : Bool) : BitVec w := clock p (c ^^^ low w b)

theorem getLsbD_low (b : Bool) (i : ℕ) :
    (low w b).getLsbD i = (decide (i < w) && (decide (i = 0) && b)) := by
  unfold low
  rw [BitVec.getLsbD_setWidth]
  cases i <;> cases b <;> simp

theorem xor_xor_cancel (a b : BitVec w) : p ^^^ a ^^^ (p ^^^ b) = a ^^^ b := by
  rw [BitVec.xor_assoc, ← BitVec.xor_assoc a, BitVec.xor_comm a p, BitVec.xor_assoc p,
    ← BitVec.xor_assoc, BitVec.xor_self, BitVec.zero_xor]

/-- **Linearity.** -/
theorem clock_xor (x y : BitVec w) : clock p (x ^^^ y) = clock p x ^^^ clock p y := by
  unfold clock
  rw [BitVec.getLsbD_xor, BitVec.ushiftRight_xor_distrib]
  cases x.getLsbD 0 <;> cases y.getLsbD 0
  · rfl
  · exact (BitVec.xor_assoc _ _ _).symm.trans
      ((congrArg (· ^^^ _) (BitVec.xor_comm _ _)).trans (BitVec.xor_assoc _ _ _))
  · exact (BitVec.xor_assoc _ _ _).symm
  · exact (xor_xor_cancel p _ _).symm

theorem clocks_xor : ∀ (n : ℕ) (x y : BitVec w),
    clocks p n (x ^^^ y) = clocks p n x ^^^ clocks p n y := by
  intro n
  induction n with
  | zero => exact fun x y => rfl
  | succ n ih =>
    intro x y
    rw [clocks, clock_xor, ih]
    rfl

/-- Where zeros fall out nothing is added. -/
theorem clocks_of_low_zero : ∀ {n : ℕ} {y : BitVec w}, (∀ i < n, y.getLsbD i = false) →
    clocks p n y = y >>> n := by
  intro n
  induction n with
  | zero => exact fun _ => (BitVec.ushiftRight_zero _).symm
  | succ n ih =>
    intro y h
    have hshift : clock p y = y >>> 1 := by
      unfold clock
      rw [h 0 (Nat.succ_pos n)]
      exact if_neg Bool.false_ne_true
    rw [clocks, hshift, ih fun i hi => ?_, ← BitVec.shiftRight_add, Nat.add_comm]
    rw [BitVec.getLsbD_ushiftRight]
    exact h _ (by omega)

/-- **The low bits, and the others.** -/
theorem clocks_eq {n : ℕ} {x l : BitVec w}
    (hlow : ∀ i, l.getLsbD i = (decide (i < n) && x.getLsbD i)) :
    clocks p n x = clocks p n l ^^^ (x >>> n) := by
  have hhigh : ∀ i < n, (x ^^^ l).getLsbD i = false := by
    intro i hi
    rw [BitVec.getLsbD_xor, hlow, decide_eq_true hi, Bool.true_and, Bool.xor_self]
  have hl : l >>> n = 0 := by
    apply BitVec.eq_of_getLsbD_eq
    intro i _
    rw [BitVec.getLsbD_ushiftRight, hlow, decide_eq_false (by omega), Bool.false_and]
    exact BitVec.getLsbD_zero.symm
  calc clocks p n x = clocks p n (l ^^^ (x ^^^ l)) := by
        rw [BitVec.xor_comm x l, ← BitVec.xor_assoc, BitVec.xor_self, BitVec.zero_xor]
    _ = clocks p n l ^^^ ((x ^^^ l) >>> n) := by rw [clocks_xor, clocks_of_low_zero p hhigh]
    _ = clocks p n l ^^^ (x >>> n) := by
        rw [BitVec.ushiftRight_xor_distrib, hl]
        exact congrArg (clocks p n l ^^^ ·) BitVec.xor_zero

/-- **Feeding bits.** -/
theorem foldl_feed : ∀ {n : ℕ} {c y : BitVec w}, (∀ i, n ≤ i → y.getLsbD i = false) →
    ((List.range n).map y.getLsbD).foldl (feed p) c = clocks p n (c ^^^ y) := by
  intro n
  induction n with
  | zero =>
    intro c y h
    have hy : y = 0 := BitVec.eq_of_getLsbD_eq fun i _ => by
      rw [h i (Nat.zero_le i)]
      exact BitVec.getLsbD_zero.symm
    rw [hy]
    exact BitVec.xor_zero.symm
  | succ n ih =>
    intro c y h
    have htail : (List.range n).map (fun i => y.getLsbD (i + 1)) =
        (List.range n).map (y >>> 1).getLsbD :=
      List.map_congr_left fun i _ => by rw [BitVec.getLsbD_ushiftRight, Nat.add_comm]
    -- what is left of `y` when its lowest bit is gone
    have hrest : clock p (y ^^^ low w (y.getLsbD 0)) = y >>> 1 := by
      have hzero : (y ^^^ low w (y.getLsbD 0)).getLsbD 0 = false := by
        rw [BitVec.getLsbD_xor, getLsbD_low]
        cases w with
        | zero => rw [BitVec.getLsbD_of_ge _ _ (Nat.le_refl 0)]; rfl
        | succ w => simp
      unfold clock
      rw [hzero, if_neg Bool.false_ne_true]
      apply BitVec.eq_of_getLsbD_eq
      intro i _
      rw [BitVec.getLsbD_ushiftRight, BitVec.getLsbD_xor, getLsbD_low, BitVec.getLsbD_ushiftRight,
        decide_eq_false (show ¬ 1 + i = 0 by omega), Bool.false_and, Bool.and_false, Bool.xor_false]
    rw [List.range_succ_eq_map, List.map_cons, List.map_map, List.foldl_cons]
    show ((List.range n).map fun i => y.getLsbD (i + 1)).foldl (feed p) _ = _
    rw [htail, ih fun i hi => ?_]
    · rw [clocks, feed, ← hrest, ← clock_xor]
      congr 2
      rw [BitVec.xor_assoc, BitVec.xor_comm y, ← BitVec.xor_assoc (low w _), BitVec.xor_self,
        BitVec.zero_xor]
    · rw [BitVec.getLsbD_ushiftRight]
      exact h _ (by omega)

end ShiftRegister
