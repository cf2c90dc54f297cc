import Mathlib.Data.Nat.Digits.Lemmas
import Mathlib.Tactic

/-!
# Numerals

The numeral of a number in base `b` is the list of its digits, the most significant one first,
without leading zeros; zero has the numeral `[0]`. `isNumeral_iff` says that these conditions
determine it.

A loop that divides by the base until nothing is left meets the digits the other way round, the
lowest one first: `lowFirst` is what it writes.
-/

namespace Numeral

/-- The number that the digits stand for, by Horner's rule. -/
def value (b : ℕ) (ds : List ℕ) : ℕ := ds.foldl (fun v d => v * b + d) 0

/-- The digits of `n`, the lowest one first, and at least one. -/
def lowFirst (b n : ℕ) : List ℕ := n % b :: Nat.digits b (n / b)

/-- The numeral of `n`. -/
def numeral (b n : ℕ) : List ℕ := (lowFirst b n).reverse

/-- The digits are those of `n`, without leading zeros. -/
structure IsNumeral (b n : ℕ) (ds : List ℕ) : Prop where
  nonempty : ds ≠ []
  digit : ∀ d ∈ ds, d < b
  lead : ds.head? = some 0 → ds = [0]
  value : value b ds = n

variable {b n : ℕ} {ds : List ℕ}

theorem value_eq_ofDigits (b : ℕ) (ds : List ℕ) : value b ds = Nat.ofDigits b ds.reverse := by
  rw [value, Nat.ofDigits_eq_foldr, List.foldr_reverse]
  congr 1
  ext v d
  rw [Nat.cast_id]
  ring

/-- Horner's rule, one digit at the end. -/
theorem value_concat (b d : ℕ) (ds : List ℕ) : value b (ds ++ [d]) = value b ds * b + d := by
  rw [value, List.foldl_append]
  rfl

/-! ## The digits, the lowest one first -/

/-- A round of the loop: one digit, and the digits of the quotient. -/
theorem lowFirst_of_le (hb : 1 < b) (h : b ≤ n) :
    lowFirst b n = n % b :: lowFirst b (n / b) := by
  have hpos : 0 < n / b := Nat.div_pos h (by omega)
  rw [lowFirst, Nat.digits_def' hb hpos]
  rfl

theorem lowFirst_of_lt (h : n < b) : lowFirst b n = [n] := by
  rw [lowFirst, Nat.div_eq_of_lt h, Nat.mod_eq_of_lt h, Nat.digits_zero]

theorem lowFirst_of_ne_zero (hb : 1 < b) (h : n ≠ 0) : lowFirst b n = Nat.digits b n :=
  (Nat.digits_def' hb (Nat.pos_of_ne_zero h)).symm

theorem lowFirst_lt (hb : 1 < b) {d : ℕ} (h : d ∈ lowFirst b n) : d < b := by
  rw [lowFirst, List.mem_cons] at h
  obtain rfl | h := h
  · exact Nat.mod_lt _ (by omega)
  · exact Nat.digits_lt_base hb h

theorem ofDigits_lowFirst (b n : ℕ) : Nat.ofDigits b (lowFirst b n) = n := by
  rw [lowFirst, Nat.ofDigits_cons, Nat.ofDigits_digits]
  exact Nat.mod_add_div n b

theorem length_lowFirst_le (hb : 1 < b) {k : ℕ} (h : n < b ^ (k + 1)) :
    (lowFirst b n).length ≤ k + 1 := by
  have hdiv : n / b < b ^ k := by
    rw [Nat.div_lt_iff_lt_mul (by omega), ← pow_succ]
    exact h
  rw [lowFirst, List.length_cons]
  have := (Nat.digits_length_le_iff hb (n / b)).2 hdiv
  omega

/-! ## The numeral -/

@[simp] theorem length_numeral (b n : ℕ) : (numeral b n).length = (lowFirst b n).length :=
  List.length_reverse

theorem numeral_lt (hb : 1 < b) {d : ℕ} (h : d ∈ numeral b n) : d < b :=
  lowFirst_lt hb (List.mem_reverse.1 h)

theorem numeral_zero (hb : 1 < b) : numeral b 0 = [0] := by
  rw [numeral, lowFirst_of_lt (by omega)]
  rfl

theorem isNumeral_numeral (hb : 1 < b) (n : ℕ) : IsNumeral b n (numeral b n) where
  nonempty := by simp [numeral, lowFirst]
  digit _ h := numeral_lt hb h
  lead h := by
    by_cases hn : n = 0
    · rw [hn, numeral_zero hb]
    · have hne : Nat.digits b n ≠ [] := Nat.digits_ne_nil_iff_ne_zero.2 hn
      rw [numeral, lowFirst_of_ne_zero hb hn, List.head?_reverse,
        List.getLast?_eq_some_getLast hne, Option.some.injEq] at h
      exact absurd h (Nat.getLast_digit_ne_zero b hn)
  value := by rw [value_eq_ofDigits, numeral, List.reverse_reverse, ofDigits_lowFirst]

/-- The numeral is the only list of digits of its number without leading zeros. -/
theorem isNumeral_iff (hb : 1 < b) : IsNumeral b n ds ↔ ds = numeral b n := by
  refine ⟨fun h => ?_, fun h => h ▸ isNumeral_numeral hb n⟩
  by_cases hz : ds.head? = some 0
  · have hds := h.lead hz
    have hn : n = 0 := by rw [← h.value, hds]; simp [value]
    rw [hds, hn, numeral_zero hb]
  · have hlast : ∀ h : ds.reverse ≠ [], ds.reverse.getLast h ≠ 0 := by
      intro hne h0
      rw [List.getLast_reverse] at h0
      exact hz (by rw [← h0]; exact List.head?_eq_some_head _)
    have hdigits := Nat.digits_ofDigits b hb ds.reverse
      (fun d hd => h.digit d (List.mem_reverse.1 hd)) hlast
    rw [← value_eq_ofDigits, h.value] at hdigits
    have hn : n ≠ 0 := by
      rintro rfl
      rw [Nat.digits_zero] at hdigits
      exact h.nonempty (List.reverse_eq_nil_iff.1 hdigits.symm)
    rw [numeral, lowFirst_of_ne_zero hb hn, hdigits, List.reverse_reverse]

end Numeral
