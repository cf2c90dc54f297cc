import Ospp.Klib.StaticArray

/-!
# Division of 64-bit words

`__udivdi3` and `__umoddi3` from `klibcpp/cstdlib.cpp`, which the compiler calls for the division of
64-bit words: a loop over the bits of the dividend, the highest one first.

After `n` rounds the highest `n` bits have been divided (`udivmodRounds_spec`). They are a number
below `2 ^ n`, and so is their remainder: only the last round can leave one of 64 bits, and there is
no shift behind it.
-/

namespace Ospp

/-- The body of the loop, for bit `i`; the state is the quotient and the remainder. -/
def udivmodRound (a b : UInt64) (i : ℕ) (s : UInt64 × UInt64) : UInt64 × UInt64 :=
  let rem := (s.2 <<< 1) ||| ((a >>> UInt64.ofNat i) &&& 1)
  if rem ≥ b then (s.1 ||| ((1 : UInt64) <<< UInt64.ofNat i), rem - b) else (s.1, rem)

/-- The first rounds of the loop, for the bits from 63 on downwards. -/
def udivmodRounds (a b : UInt64) : ℕ → UInt64 × UInt64
  | 0 => (0, 0)
  | n + 1 => udivmodRound a b (63 - n) (udivmodRounds a b n)

def udivmod64 (a b : UInt64) : K (UInt64 × UInt64) :=
  if b = 0 then .error (.panic "Division by zero in udivmod_64")
  else .ok (udivmodRounds a b 64)

def udivdi3 (a b : UInt64) : K UInt64 := do
  let (q, _) ← udivmod64 a b
  return q

def umoddi3 (a b : UInt64) : K UInt64 := do
  let (_, r) ← udivmod64 a b
  return r

/-- The highest bits of a word, without the lowest `k`. -/
def highBits (a : UInt64) (k : ℕ) : ℕ := a.toNat / 2 ^ k

theorem highBits_lt {a : UInt64} {n : ℕ} (hn : n ≤ 64) : highBits a (64 - n) < 2 ^ n := by
  unfold highBits
  rw [Nat.div_lt_iff_lt_mul (by positivity), ← pow_add, Nat.add_sub_cancel' hn]
  exact a.toNat_lt

/-- One bit more. -/
theorem highBits_succ (a : UInt64) (i : ℕ) :
    highBits a i = 2 * highBits a (i + 1) + highBits a i % 2 := by
  unfold highBits
  rw [pow_succ, ← Nat.div_div_eq_div_mul]
  omega

/-- The bit that a round shifts in. -/
theorem bit_eq (a : UInt64) {i : ℕ} (hi : i < 64) :
    ((a >>> UInt64.ofNat i) &&& 1).toNat = highBits a i % 2 := by
  rw [UInt64.toNat_and, UInt64.toNat_shiftRight,
    UInt64.toNat_ofNat_of_lt' (lt_trans hi (by decide)), Nat.mod_eq_of_lt hi,
    Nat.shiftRight_eq_div_pow]
  exact Nat.and_one_is_mod _

/-- The shift loses no bit of a remainder below `2 ^ 63`. -/
theorem shift_eq {r : UInt64} (hr : r.toNat < 2 ^ 63) : (r <<< 1).toNat = 2 * r.toNat := by
  rw [UInt64.toNat_shiftLeft, show (1 : UInt64).toNat % 64 = 1 from rfl, Nat.shiftLeft_eq, pow_one,
    Nat.mod_eq_of_lt (by omega), Nat.mul_comm]

theorem or_bit {x : ℕ} {y : ℕ} (hy : y < 2) : 2 * x ||| y = 2 * x + y := by
  have h := Nat.two_pow_add_eq_or_of_lt (i := 1) (b := y) (by simpa using hy) x
  rw [pow_one] at h
  exact h.symm

/-- The bit of the quotient is a new one. -/
theorem or_one_shift {q : UInt64} {x i : ℕ} (hi : i < 64) (hq : q.toNat = x * 2 ^ (i + 1)) :
    (q ||| ((1 : UInt64) <<< UInt64.ofNat i)).toNat = q.toNat + 2 ^ i := by
  have hone : ((1 : UInt64) <<< UInt64.ofNat i).toNat = 2 ^ i := by
    rw [UInt64.toNat_shiftLeft, UInt64.toNat_ofNat_of_lt' (lt_trans hi (by decide)),
      Nat.mod_eq_of_lt hi, UInt64.toNat_one, Nat.shiftLeft_eq, one_mul,
      Nat.mod_eq_of_lt (Nat.pow_lt_pow_right (by norm_num) hi)]
  rw [UInt64.toNat_or, hone, hq, Nat.mul_comm]
  have hlt : 2 ^ i < 2 ^ (i + 1) := Nat.pow_lt_pow_right (by norm_num) (Nat.lt_succ_self i)
  exact (Nat.two_pow_add_eq_or_of_lt hlt x).symm

/-- Long division by one bit more. -/
theorem div_step {p bit b : ℕ} (hb : 0 < b) (hbit : bit < 2) :
    if b ≤ 2 * (p % b) + bit then
      (2 * p + bit) / b = 2 * (p / b) + 1 ∧ (2 * p + bit) % b = 2 * (p % b) + bit - b
    else (2 * p + bit) / b = 2 * (p / b) ∧ (2 * p + bit) % b = 2 * (p % b) + bit := by
  have hmod := Nat.mod_lt p hb
  have hsum : 2 * p + bit = b * (2 * (p / b)) + (2 * (p % b) + bit) := by
    have := Nat.div_add_mod p b
    calc 2 * p + bit = 2 * (b * (p / b) + p % b) + bit := by rw [this]
      _ = b * (2 * (p / b)) + (2 * (p % b) + bit) := by ring
  split_ifs with hle
  · have hsum' : 2 * p + bit = b * (2 * (p / b) + 1) + (2 * (p % b) + bit - b) := by
      rw [Nat.mul_add, Nat.mul_one]
      omega
    have hlt : 2 * (p % b) + bit - b < b := by omega
    rw [hsum', Nat.mul_add_div hb, Nat.mul_add_mod, Nat.div_eq_of_lt hlt, Nat.mod_eq_of_lt hlt]
    exact ⟨rfl, rfl⟩
  · have hlt : 2 * (p % b) + bit < b := by omega
    rw [hsum, Nat.mul_add_div hb, Nat.mul_add_mod, Nat.div_eq_of_lt hlt, Nat.mod_eq_of_lt hlt]
    exact ⟨rfl, rfl⟩

/-- **The rounds.** -/
theorem udivmodRounds_spec (a : UInt64) {b : UInt64} (hb : 0 < b.toNat) : ∀ n ≤ 64,
    (udivmodRounds a b n).1.toNat = highBits a (64 - n) / b.toNat * 2 ^ (64 - n) ∧
      (udivmodRounds a b n).2.toNat = highBits a (64 - n) % b.toNat := by
  intro n
  induction n with
  | zero =>
    intro _
    have hnone : highBits a 64 = 0 := Nat.div_eq_of_lt a.toNat_lt
    rw [Nat.sub_zero, hnone, Nat.zero_div, Nat.zero_mod, Nat.zero_mul]
    exact ⟨rfl, rfl⟩
  | succ n ih =>
    intro hn
    obtain ⟨hq, hr⟩ := ih (by omega)
    obtain ⟨i, hi⟩ : ∃ i, 64 - n = i + 1 := ⟨63 - n, by omega⟩
    rw [hi] at hq hr
    rw [show 64 - (n + 1) = i by omega, udivmodRounds, show 63 - n = i by omega]
    have hsmall : (udivmodRounds a b n).2.toNat < 2 ^ 63 := by
      rw [hr]
      have hlt := highBits_lt (a := a) (show n ≤ 64 by omega)
      have hle : 2 ^ n ≤ 2 ^ 63 := Nat.pow_le_pow_right (by norm_num) (by omega)
      rw [hi] at hlt
      exact lt_of_le_of_lt (Nat.mod_le _ _) (lt_of_lt_of_le hlt hle)
    have hbit : highBits a i % 2 < 2 := Nat.mod_lt _ (by norm_num)
    have hrem : ((udivmodRounds a b n).2 <<< 1 ||| ((a >>> UInt64.ofNat i) &&& 1)).toNat =
        2 * (highBits a (i + 1) % b.toNat) + highBits a i % 2 := by
      rw [UInt64.toNat_or, shift_eq hsmall, bit_eq a (by omega), or_bit hbit, hr]
    have hstep := div_step (p := highBits a (i + 1)) hb hbit
    rw [← highBits_succ] at hstep
    unfold udivmodRound
    dsimp only
    by_cases hge : (udivmodRounds a b n).2 <<< 1 ||| ((a >>> UInt64.ofNat i) &&& 1) ≥ b
    · have hle := UInt64.le_iff_toNat_le.1 hge
      rw [if_pos (by rwa [hrem] at hle)] at hstep
      rw [if_pos hge, UInt64.toNat_sub_of_le _ _ hge, hrem, or_one_shift (by omega) hq, hq, hstep.1,
        hstep.2]
      refine ⟨?_, rfl⟩
      rw [pow_succ]
      ring
    · have hlt : ¬ b.toNat ≤ _ := fun h => hge (UInt64.le_iff_toNat_le.2 h)
      rw [hrem] at hlt
      rw [if_neg hlt] at hstep
      rw [if_neg hge, hrem, hq, hstep.1, hstep.2]
      refine ⟨?_, rfl⟩
      rw [pow_succ]
      ring

/-- The helpers divide, and no shift of the remainder loses a bit. -/
theorem udivmod_exact (a b : UInt64) (hb : b ≠ 0) :
    udivdi3 a b = .ok (a / b) ∧ umoddi3 a b = .ok (a % b) ∧
      ∀ n < 64, ((udivmodRounds a b n).2 <<< 1).toNat = 2 * (udivmodRounds a b n).2.toNat := by
  have hpos : 0 < b.toNat := Nat.pos_of_ne_zero fun h => hb (UInt64.toNat_inj.1 h)
  have hall : highBits a 0 = a.toNat := Nat.div_one _
  obtain ⟨hq, hr⟩ := udivmodRounds_spec a hpos 64 (le_refl _)
  rw [Nat.sub_self, hall, pow_zero, Nat.mul_one] at hq
  rw [Nat.sub_self, hall] at hr
  have hrun : udivmod64 a b = .ok (udivmodRounds a b 64) := if_neg hb
  refine ⟨?_, ?_, fun n hn => shift_eq ?_⟩
  · have hdiv : (udivmodRounds a b 64).1 = a / b :=
      UInt64.toNat_inj.1 (hq.trans (UInt64.toNat_div a b).symm)
    rw [udivdi3, hrun, ← hdiv]
    rfl
  · have hmod : (udivmodRounds a b 64).2 = a % b :=
      UInt64.toNat_inj.1 (hr.trans (UInt64.toNat_mod a b).symm)
    rw [umoddi3, hrun, ← hmod]
    rfl
  · rw [(udivmodRounds_spec a hpos n hn.le).2]
    have hlt := highBits_lt (a := a) hn.le
    have hle : 2 ^ n ≤ 2 ^ 63 := Nat.pow_le_pow_right (by norm_num) (by omega)
    exact lt_of_le_of_lt (Nat.mod_le _ _) (lt_of_lt_of_le hlt hle)

/-- A divisor above `2 ^ 63`. -/
theorem udivmod_exact_large : (0xFFFFFFFFFFFFFFFF : UInt64) ≠ 0 ∧
    udivdi3 0xFFFFFFFFFFFFFFFE 0xFFFFFFFFFFFFFFFF =
      .ok (0xFFFFFFFFFFFFFFFE / 0xFFFFFFFFFFFFFFFF) :=
  ⟨by decide, (udivmod_exact 0xFFFFFFFFFFFFFFFE 0xFFFFFFFFFFFFFFFF (by decide)).1⟩

end Ospp
