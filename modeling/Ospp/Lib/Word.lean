import Mathlib.Tactic
import Mathlib.Data.Nat.Bitwise

/-!
# Unsigned 32-bit arithmetic on naturals

A 32-bit machine word is a natural below `2 ^ 32`. The operations below reduce modulo `2 ^ 32`,
as the hardware does; the `_eq` lemmas say when no reduction takes place, so that a caller with
bounds at hand is left with plain arithmetic for `omega`.

`alignDown` and `alignUp` are the usual mask expressions, for an arbitrary (not only a power of
two) second argument: `alignUp_ge` needs no power of two, `alignUp_two_pow` gives the value when
there is one.
-/

namespace Word32

/-- Addition modulo `2 ^ 32`. -/
def add (a b : ℕ) : ℕ := (a + b) % 4294967296

/-- Subtraction modulo `2 ^ 32`. The large summand comes first: as the second one it would be
counted down in unary when the definition is unfolded on a variable. -/
def sub (a b : ℕ) : ℕ := (4294967296 - b % 4294967296 + a) % 4294967296

/-- Multiplication modulo `2 ^ 32`. -/
def mul (a b : ℕ) : ℕ := (a * b) % 4294967296

/-- The bitwise complement of a word. -/
def compl (a : ℕ) : ℕ := 4294967295 - a

theorem add_lt (a b : ℕ) : add a b < 4294967296 := Nat.mod_lt _ (by norm_num)

theorem sub_lt (a b : ℕ) : sub a b < 4294967296 := Nat.mod_lt _ (by norm_num)

theorem add_eq {a b : ℕ} (h : a + b < 4294967296) : add a b = a + b := Nat.mod_eq_of_lt h

theorem mul_eq {a b : ℕ} (h : a * b < 4294967296) : mul a b = a * b := Nat.mod_eq_of_lt h

theorem sub_eq {a b : ℕ} (ha : a < 4294967296) (h : b ≤ a) : sub a b = a - b := by
  unfold sub; omega

/-! ## Masks -/

theorem testBit_compl {m : ℕ} (hm : m < 4294967296) (i : ℕ) :
    (compl m).testBit i = (decide (i < 32) && !m.testBit i) := by
  have e : compl m = 2 ^ 32 - (m + 1) := by unfold compl; omega
  rw [e, Nat.testBit_two_pow_sub_succ (by omega)]

theorem testBit_of_lt {x i : ℕ} (hx : x < 4294967296) (hi : ¬ i < 32) : x.testBit i = false :=
  Nat.testBit_lt_two_pow (lt_of_lt_of_le hx (by
    have : (2 : ℕ) ^ 32 ≤ 2 ^ i := Nat.pow_le_pow_right (by norm_num) (by omega)
    norm_num at this ⊢; exact this))

/-- Words without a common bit add without carries. -/
theorem add_eq_or {a b : ℕ} (ha : a < 4294967296) (hb : b < 4294967296) (h : a &&& b = 0) :
    a + b = a ||| b := by
  have hz : BitVec.ofNat 32 a &&& BitVec.ofNat 32 b = 0#32 := by
    apply BitVec.eq_of_toNat_eq
    simp [Nat.mod_eq_of_lt ha, Nat.mod_eq_of_lt hb, h]
  have hadd := BitVec.toNat_add_of_and_eq_zero hz
  rw [BitVec.add_eq_or_of_and_eq_zero _ _ hz] at hadd
  simpa [Nat.mod_eq_of_lt ha, Nat.mod_eq_of_lt hb] using hadd.symm

/-- Masking the complement of `m` and masking `m` split a word into disjoint parts. -/
theorem and_compl_add_and {x m : ℕ} (hx : x < 4294967296) (hm : m < 4294967296) :
    (x &&& compl m) + (x &&& m) = x := by
  have hdisj : (x &&& compl m) &&& (x &&& m) = 0 := by
    apply Nat.eq_of_testBit_eq
    intro i
    simp only [Nat.testBit_and, testBit_compl hm, Nat.zero_testBit]
    cases x.testBit i <;> cases m.testBit i <;> simp
  rw [add_eq_or (lt_of_le_of_lt Nat.and_le_left hx) (lt_of_le_of_lt Nat.and_le_left hx) hdisj]
  apply Nat.eq_of_testBit_eq
  intro i
  simp only [Nat.testBit_or, Nat.testBit_and, testBit_compl hm]
  by_cases hi : i < 32
  · cases x.testBit i <;> cases m.testBit i <;> simp [hi]
  · simp [testBit_of_lt hx hi]

theorem and_compl_le (x m : ℕ) : x &&& compl m ≤ x := Nat.and_le_left

/-- Clearing the bits of `m` lowers a word by at most `m`. -/
theorem le_and_compl_add {x m : ℕ} (hx : x < 4294967296) (hm : m < 4294967296) :
    x ≤ (x &&& compl m) + m := by
  have h := and_compl_add_and hx hm
  have : x &&& m ≤ m := Nat.and_le_right
  omega

/-- Clearing the low `k` bits. -/
theorem and_compl_two_pow {x k : ℕ} (hx : x < 4294967296) (hk : k ≤ 32) :
    x &&& compl (2 ^ k - 1) = x / 2 ^ k * 2 ^ k := by
  have hle : (2 : ℕ) ^ k ≤ 4294967296 := by
    have : (2 : ℕ) ^ k ≤ 2 ^ 32 := Nat.pow_le_pow_right (by norm_num) hk
    norm_num at this ⊢; exact this
  have hpos : 0 < (2 : ℕ) ^ k := by positivity
  have h := and_compl_add_and hx (m := 2 ^ k - 1) (by omega)
  rw [Nat.and_two_pow_sub_one_eq_mod] at h
  have := Nat.div_add_mod' x (2 ^ k)
  omega

/-! ## Alignment -/

/-- `val & ~(align - 1)`. -/
def alignDown (val align : ℕ) : ℕ := val &&& compl (sub align 1)

/-- `(val + align - 1) & ~(align - 1)`. -/
def alignUp (val align : ℕ) : ℕ := sub (add val align) 1 &&& compl (sub align 1)

theorem alignUp_lt (val align : ℕ) : alignUp val align < 4294967296 :=
  lt_of_le_of_lt (and_compl_le _ _) (sub_lt _ _)

/-- Without a carry out of the addition, aligning up never goes down: no power of two needed. -/
theorem alignUp_ge {val align : ℕ} (ha : 0 < align) (h : val + align ≤ 4294967296) :
    val ≤ alignUp val align := by
  have hs : sub align 1 = align - 1 := by unfold sub; omega
  have hv : sub (add val align) 1 = val + align - 1 := by unfold sub add; omega
  have := le_and_compl_add (x := val + align - 1) (m := align - 1) (by omega) (by omega)
  unfold alignUp
  rw [hs, hv]
  omega

theorem alignDown_two_pow {val k : ℕ} (hv : val < 4294967296) (hk : k < 32) :
    alignDown val (2 ^ k) = val / 2 ^ k * 2 ^ k := by
  have hpos : 0 < (2 : ℕ) ^ k := by positivity
  have hle : (2 : ℕ) ^ k < 4294967296 := by
    have : (2 : ℕ) ^ k < 2 ^ 32 := Nat.pow_lt_pow_right (by norm_num) hk
    norm_num at this ⊢; exact this
  unfold alignDown
  rw [sub_eq hle hpos, and_compl_two_pow hv hk.le]

theorem alignUp_two_pow {val k : ℕ} (hk : k < 32) (h : val + 2 ^ k ≤ 4294967296) :
    alignUp val (2 ^ k) = (val + 2 ^ k - 1) / 2 ^ k * 2 ^ k := by
  have hpos : 0 < (2 : ℕ) ^ k := by positivity
  have hle : (2 : ℕ) ^ k < 4294967296 := by
    have : (2 : ℕ) ^ k < 2 ^ 32 := Nat.pow_lt_pow_right (by norm_num) hk
    norm_num at this ⊢; exact this
  have hv : sub (add val (2 ^ k)) 1 = val + 2 ^ k - 1 := by unfold sub add; omega
  unfold alignUp
  rw [sub_eq hle hpos, hv, and_compl_two_pow (by omega) hk.le]

/-- Also with a carry, aligning up gives a multiple. -/
theorem two_pow_dvd_alignUp (val : ℕ) {k : ℕ} (hk : k < 32) : 2 ^ k ∣ alignUp val (2 ^ k) := by
  have hpos : 0 < (2 : ℕ) ^ k := by positivity
  have hle : (2 : ℕ) ^ k < 4294967296 := by
    have : (2 : ℕ) ^ k < 2 ^ 32 := Nat.pow_lt_pow_right (by norm_num) hk
    norm_num at this ⊢; exact this
  unfold alignUp
  rw [sub_eq hle hpos, and_compl_two_pow (sub_lt _ _) hk.le]
  exact Nat.dvd_mul_left _ _

end Word32
