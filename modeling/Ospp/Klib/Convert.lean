import Ospp.Klib.CString
import Ospp.Lib.Numeral

/-!
# Numbers as text

`klibcpp/cstring.cpp`: `_uvtoa` and `_vtoa`, which write the digits of a number the lowest one
first and turn them round in place, the three conversions made of them, `ftoa`, and the parser
`atou`.

A conversion writes through a pointer to memory, `Buf`, which remembers the addresses written.
`read8_uvtoa` says that the unsigned conversion leaves the numeral, `mem_written_uvtoa` where it
writes. No array goes round the end of the address space, so pointers are compared as naturals.
-/

namespace Ospp

open Numeral

/-! ## Memory that is written -/

/-- The memory, and the addresses written so far. -/
structure Buf where
  mem : Mem
  written : List ℕ

namespace Buf

variable (b : Buf)

def put (i : ℕ) (c : UInt8) : Buf := ⟨b.mem.write8 i c, i :: b.written⟩

/-- Write characters one after the other. -/
def puts (b : Buf) : ℕ → List UInt8 → Buf
  | _, [] => b
  | p, c :: cs => (b.put p c).puts (p + 1) cs

end Buf

/-! ## The source -/

def digitTable : List UInt8 := ascii "0123456789abcdefghijklmnopqrstuvwxyz"

/-- The table of `_vtoa`, with the digits of negative remainders before the zero. -/
def mirroredTable : List UInt8 :=
  ascii "zyxwvutsrqponmlkjihgfedcba9876543210123456789abcdefghijklmnopqrstuvwxyz"

/-- The loop that turns the characters round, `while (ptr1 < ptr)`. -/
def swapLoop : ℕ → ℕ → Buf → Buf
  | 0, _, b => b
  | ptr + 1, ptr1, b =>
    if ptr1 < ptr + 1 then
      let tmpChar := b.mem.read8 (ptr + 1)
      swapLoop ptr (ptr1 + 1) ((b.put (ptr + 1) (b.mem.read8 ptr1)).put ptr1 tmpChar)
    else b

/-- The `do` loop of `_uvtoa`: the array and `ptr` behind the digits. The first argument bounds
the rounds; a word has no more than 32 digits in any base. -/
def uvtoaLoop (base : UInt32) : ℕ → Buf → ℕ → UInt32 → Buf × ℕ
  | 0, b, ptr, _ => (b, ptr)
  | fuel + 1, b, ptr, value =>
    let tmpValue := value
    let value := value / base
    let b := b.put ptr (digitTable.getD (tmpValue - value * base).toNat 0)
    if value ≠ 0 then uvtoaLoop base fuel b (ptr + 1) value else (b, ptr + 1)

/-- `_uvtoa`. -/
def uvtoa (result : ℕ) (base value : UInt32) (b : Buf) : Buf :=
  if base < 2 ∨ 36 < base then b.put result 0
  else
    let (b, ptr) := uvtoaLoop base 32 b result value
    swapLoop (ptr - 1) result (b.put ptr 0)

/-- The `do` loop of `_vtoa`: as `uvtoaLoop`, with the last `tmp_value`. The base is unsigned, so
the quotient and the remainder are computed on words. -/
def vtoaLoop (base : UInt32) : ℕ → Buf → ℕ → Int32 → Buf × ℕ × Int32
  | 0, b, ptr, value => (b, ptr, value)
  | fuel + 1, b, ptr, value =>
    let tmpValue := value
    let value := (value.toUInt32 / base).toInt32
    let b := b.put ptr
      (mirroredTable.getD (35 + (tmpValue.toUInt32 - value.toUInt32 * base)).toNat 0)
    if value ≠ 0 then vtoaLoop base fuel b (ptr + 1) value else (b, ptr + 1, tmpValue)

/-- `_vtoa`. -/
def vtoa (result : ℕ) (base : UInt32) (value : Int32) (b : Buf) : Buf :=
  if base < 2 ∨ 36 < base then b.put result 0
  else
    let (b, ptr, tmpValue) := vtoaLoop base 32 b result value
    let (b, ptr) := if tmpValue < 0 then (b.put ptr 45, ptr + 1) else (b, ptr)
    swapLoop (ptr - 1) result (b.put ptr 0)

def itoa (n : Int32) (str : ℕ) (b : Buf) : Buf := vtoa str 10 n b

def utoa (n : UInt32) (str : ℕ) (b : Buf) : Buf := uvtoa str 10 n b

def htoa (n : UInt32) (str : ℕ) (b : Buf) : Buf := uvtoa str 16 n b

/-- The loop of `atou`. A pointer that has gone over `2 ^ 32` characters is back at its start. -/
def atouLoop (rd : ℕ → UInt8) : ℕ → ℕ → UInt32 → K UInt32
  | 0, _, _ => .error .diverged
  | fuel + 1, str, result =>
    if rd str ≠ 0 then atouLoop rd fuel (str + 1) (result * 10 + (charInt (rd str) - 48).toUInt32)
    else .ok result

/-- `atou`. -/
def atou (rd : ℕ → UInt8) (str : ℕ) : K UInt32 := atouLoop rd 4294967296 str 0

/-- What `ftoa` uses of the floating-point unit; `float` values are of an arbitrary type. -/
structure FloatUnit where
  F : Type
  /-- The `double` in two words of the argument list, as a `float`. -/
  ofDouble : UInt32 → UInt32 → F
  isNeg : F → Bool
  neg : F → F
  half : F
  div10 : F → F
  add : F → F → F
  sub : F → F → F
  mul10 : F → F
  toULong : F → UInt32
  ofULong : UInt32 → F
  toInt : F → Int32
  ofInt : Int32 → F

/-- The value of a `double` that is finite. -/
def doubleValue (lo hi : UInt32) : ℚ :=
  let exponent := hi.toNat / 1048576 % 2048
  let fraction := hi.toNat % 1048576 * 4294967296 + lo.toNat
  let magnitude : ℚ := if exponent = 0 then fraction * 2 / 2 ^ 1075
    else (2 ^ 52 + fraction) * 2 ^ exponent / 2 ^ 1075
  if hi.toNat < 2147483648 then magnitude else -magnitude

/-- A unit that computes without rounding. -/
def exactUnit : FloatUnit where
  F := ℚ
  ofDouble := doubleValue
  isNeg x := decide (x < 0)
  neg x := -x
  half := 1 / 2
  div10 x := x / 10
  add x y := x + y
  sub x y := x - y
  mul10 x := x * 10
  toULong x := UInt32.ofNat ⌊x⌋.toNat
  ofULong n := n.toNat
  toInt x := Int32.ofInt ⌊x⌋
  ofInt n := n.toInt

/-- `for (char* t = temp; *t; ++t) *p++ = *t`; `temp` has 20 characters. -/
def copyLoop (temp : ℕ → UInt8) : ℕ → ℕ → Buf → ℕ → Buf × ℕ
  | 0, _, b, p => (b, p)
  | fuel + 1, t, b, p =>
    if temp t ≠ 0 then copyLoop temp fuel (t + 1) (b.put p (temp t)) (p + 1) else (b, p)

/-- The loop over the digits behind the point. -/
def fracLoop (U : FloatUnit) : ℕ → U.F → Buf → ℕ → Buf × ℕ
  | 0, _, b, p => (b, p)
  | n + 1, fracPart, b, p =>
    let fracPart := U.mul10 fracPart
    let digit := U.toInt fracPart
    fracLoop U n (U.sub fracPart (U.ofInt digit)) (b.put p (48 + digit).toUInt32.toUInt8) (p + 1)

/-- The number as it is printed: without its sign, and rounded to the precision. -/
def ftoaRounded (U : FloatUnit) (x : U.F) (precision : UInt32) : U.F :=
  let x := if U.isNeg x then U.neg x else x
  if 0 < precision then U.add x (U.div10^[precision.toNat] U.half) else x

/-- `ftoa`. -/
def ftoa (U : FloatUnit) (x : U.F) (str : ℕ) (precision : UInt32) (b : Buf) : Buf :=
  let p := str
  let (b, p) := if U.isNeg x then (b.put p 45, p + 1) else (b, p)
  let x := ftoaRounded U x precision
  let intPart := U.toULong x
  let fracPart := U.sub x (U.ofULong intPart)
  let temp := utoa intPart 0 ⟨fun _ => 0, []⟩
  let (b, p) := copyLoop temp.mem.read8 20 0 b p
  let (b, p) :=
    if 0 < precision then fracLoop U precision.toNat fracPart (b.put p 46) (p + 1) else (b, p)
  b.put p 0

/-! ## Writing strings -/

namespace Buf

variable {b : Buf} {p i : ℕ} {cs : List UInt8}

theorem read8_put (c : UInt8) :
    (b.put p c).mem.read8 i = if Word32.sub i p = 0 then c else b.mem.read8 i :=
  Mem.read8_write8 _ _ _ _

theorem read8_puts : ∀ {cs : List UInt8} {b : Buf} {p : ℕ}, cs.length ≤ 4294967296 →
    (b.puts p cs).mem.read8 i =
      if Word32.sub i p < cs.length then cs.getD (Word32.sub i p) 0 else b.mem.read8 i := by
  intro cs
  induction cs with
  | nil => intro b p _; rw [puts, if_neg (by simp)]
  | cons c cs ih =>
    intro b p hlen
    rw [List.length_cons] at hlen
    rw [puts, ih (by omega), List.length_cons]
    by_cases hlt : Word32.sub i (p + 1) < cs.length
    · have hs : Word32.sub i p = Word32.sub i (p + 1) + 1 := by unfold Word32.sub at *; omega
      rw [if_pos hlt, if_pos (by omega), hs, List.getD_cons_succ]
    · rw [if_neg hlt, read8_put]
      by_cases heq : Word32.sub i p = 0
      · rw [if_pos heq, heq, if_pos (Nat.succ_pos _)]
        rfl
      · have hs : Word32.sub i p = Word32.sub i (p + 1) + 1 := by unfold Word32.sub at *; omega
        rw [if_neg heq, if_neg (by omega)]

theorem mem_written_puts : ∀ {cs : List UInt8} {b : Buf} {p : ℕ}, i ∈ (b.puts p cs).written ↔
    i ∈ b.written ∨ (p ≤ i ∧ i < p + cs.length) := by
  intro cs
  induction cs with
  | nil => intro b p; simp [puts]
  | cons c cs ih =>
    intro b p
    rw [puts, ih, put, List.mem_cons, List.length_cons]
    by_cases h : i ∈ b.written
    · simp [h]
    · simp only [h, or_false, false_or]
      omega

theorem puts_append : ∀ {cs : List UInt8} {b : Buf} {p : ℕ} {ds : List UInt8},
    b.puts p (cs ++ ds) = (b.puts p cs).puts (p + cs.length) ds := by
  intro cs
  induction cs with
  | nil => intro b p ds; rfl
  | cons c cs ih =>
    intro b p ds
    rw [List.cons_append, puts, ih, puts, List.length_cons, show p + 1 + cs.length =
      p + (cs.length + 1) by omega]

theorem end_puts : (b.puts p (cs ++ [0])).mem.read8 (p + cs.length) = 0 := by
  rw [puts_append, puts, puts, read8_put, if_pos (by unfold Word32.sub; omega)]

/-- A string that has been written can be read. -/
theorem spells_puts (h : cs.length < 4294967296) :
    Spells (b.puts p (cs ++ [0])).mem.read8 p cs := by
  rw [spells_iff]
  intro i hi
  have hsub : Word32.sub (p + i) p = i := by unfold Word32.sub; omega
  rw [read8_puts (by simp; omega), hsub, if_pos (by simp; omega)]
  by_cases hlt : i < cs.length
  · rw [List.getD_append _ _ _ _ hlt]
  · rw [show i = cs.length by omega, List.getD_append_right _ _ _ _ (le_refl _), Nat.sub_self,
      List.getD_eq_default cs 0 (le_refl _)]
    rfl

end Buf

theorem swapLoop_of_le {ptr ptr1 : ℕ} {b : Buf} (h : ptr ≤ ptr1) : swapLoop ptr ptr1 b = b := by
  cases ptr with
  | zero => rfl
  | succ ptr => rw [swapLoop, if_neg (by omega)]

/-- What a two-pointer exchange does: the characters between the pointers are turned round. -/
theorem read8_swapLoop (i : ℕ) : ∀ (ptr ptr1 : ℕ) (b : Buf), ptr1 ≤ ptr → ptr < ptr1 + 4294967296 →
    (swapLoop ptr ptr1 b).mem.read8 i =
      if Word32.sub i ptr1 ≤ ptr - ptr1 then b.mem.read8 (ptr - Word32.sub i ptr1)
      else b.mem.read8 i := by
  -- with one pointer at the other there is nothing to do
  have hsame : ∀ (ptr : ℕ) (b : Buf), b.mem.read8 i =
      if Word32.sub i ptr ≤ ptr - ptr then b.mem.read8 (ptr - Word32.sub i ptr)
      else b.mem.read8 i := by
    intro ptr b
    split_ifs with h
    · exact b.mem.read8_mod (by unfold Word32.sub at *; omega)
    · rfl
  intro ptr
  induction ptr with
  | zero =>
    intro ptr1 b hle _
    obtain rfl : ptr1 = 0 := by omega
    exact hsame 0 b
  | succ ptr ih =>
    intro ptr1 b hle hlen
    by_cases heq : ptr1 = ptr + 1
    · rw [swapLoop_of_le heq.ge, heq]
      exact hsame _ b
    · rw [swapLoop, if_pos (by omega)]
      -- the two ends are exchanged here, what lies between them in the rounds that follow
      obtain ⟨b', hb'⟩ : ∃ b', b' = (b.put (ptr + 1) (b.mem.read8 ptr1)).put ptr1
        (b.mem.read8 (ptr + 1)) := ⟨_, rfl⟩
      have hread : ∀ j, b'.mem.read8 j = if Word32.sub j ptr1 = 0 then b.mem.read8 (ptr + 1)
          else if Word32.sub j (ptr + 1) = 0 then b.mem.read8 ptr1 else b.mem.read8 j := by
        intro j
        rw [hb', Buf.read8_put, Buf.read8_put]
      have hrest : (swapLoop ptr (ptr1 + 1) b').mem.read8 i =
          if 0 < Word32.sub i ptr1 ∧ Word32.sub i ptr1 ≤ ptr - ptr1 then
            b.mem.read8 (ptr + 1 - Word32.sub i ptr1)
          else b'.mem.read8 i := by
        by_cases hlt : ptr1 < ptr
        · rw [ih _ _ (by omega) (by omega)]
          by_cases hin : 0 < Word32.sub i ptr1 ∧ Word32.sub i ptr1 ≤ ptr - ptr1
          · have hs : Word32.sub i (ptr1 + 1) = Word32.sub i ptr1 - 1 := by
              unfold Word32.sub at *; omega
            have hlo : Word32.sub (ptr - (Word32.sub i ptr1 - 1)) ptr1 ≠ 0 := by
              unfold Word32.sub at *; omega
            have hhi : Word32.sub (ptr - (Word32.sub i ptr1 - 1)) (ptr + 1) ≠ 0 := by
              unfold Word32.sub at *; omega
            rw [if_pos hin, hs, if_pos (by omega), hread, if_neg hlo, if_neg hhi]
            congr 1
            omega
          · rw [if_neg hin, if_neg (by unfold Word32.sub at *; omega)]
        · rw [swapLoop_of_le (by omega), if_neg (by omega)]
      show (swapLoop ptr (ptr1 + 1) _).mem.read8 i = _
      rw [← hb', hrest, hread]
      by_cases hlo : Word32.sub i ptr1 = 0
      · rw [if_neg (by omega), if_pos hlo, if_pos (by omega), hlo]
        rfl
      · rw [if_neg hlo]
        by_cases hhi : Word32.sub i (ptr + 1) = 0
        · have hs : Word32.sub i ptr1 = ptr + 1 - ptr1 := by unfold Word32.sub at *; omega
          rw [if_neg (by omega), if_pos hhi, if_pos (by omega)]
          congr 1
          omega
        · rw [if_neg hhi]
          by_cases hin : Word32.sub i ptr1 ≤ ptr - ptr1
          · rw [if_pos (by omega), if_pos (by omega)]
          · rw [if_neg (by omega), if_neg (by unfold Word32.sub at *; omega)]

theorem mem_written_swapLoop {i : ℕ} : ∀ (ptr ptr1 : ℕ) (b : Buf),
    i ∈ (swapLoop ptr ptr1 b).written → i ∈ b.written ∨ i ≤ ptr := by
  intro ptr
  induction ptr with
  | zero => intro ptr1 b h; exact Or.inl h
  | succ ptr ih =>
    intro ptr1 b h
    rw [swapLoop] at h
    split_ifs at h with hlt
    · obtain h | h := ih _ _ h
      · simp only [Buf.put, List.mem_cons] at h
        obtain rfl | rfl | h := h
        · exact Or.inr (by omega)
        · exact Or.inr (le_refl _)
        · exact Or.inl h
      · exact Or.inr (by omega)
    · exact Or.inl h

/-! ## Unsigned conversion -/

/-- The character of a digit. -/
def digitChar (d : ℕ) : UInt8 := digitTable.getD d 0

/-- The numeral of `n`, as text. -/
def numeralText (base n : ℕ) : List UInt8 := (numeral base n).map digitChar

@[simp] theorem length_numeralText (base n : ℕ) :
    (numeralText base n).length = (lowFirst base n).length := by
  rw [numeralText, List.length_map, length_numeral]

/-- A word has no more than ten digits in a base from ten on. -/
theorem length_numeralText_le {base n : ℕ} (hb : 10 ≤ base) (hn : n < 4294967296) :
    (numeralText base n).length ≤ 10 := by
  have hpow : 10 ^ 10 ≤ base ^ 10 := Nat.pow_le_pow_left hb 10
  rw [length_numeralText]
  exact length_lowFirst_le (by omega) (lt_of_lt_of_le (by omega) hpow)

section Uvtoa

variable {base value : UInt32} (hb : 1 < base.toNat)

theorem toNat_rem : (value - value / base * base).toNat = value.toNat % base.toNat := by
  have h := Nat.div_add_mod' value.toNat base.toNat
  have hlt := value.toNat_lt
  have hprod : (value / base * base).toNat = value.toNat / base.toNat * base.toNat := by
    rw [UInt32.toNat_mul, UInt32.toNat_div]
    omega
  rw [UInt32.toNat_sub, hprod]
  omega

/-- The round that writes the last digit. -/
theorem uvtoaLoop_of_lt {fuel ptr : ℕ} {b : Buf} (h : value.toNat < base.toNat) :
    uvtoaLoop base (fuel + 1) b ptr value =
      (b.puts ptr ((lowFirst base.toNat value.toNat).map digitChar),
        ptr + (lowFirst base.toNat value.toNat).length) := by
  have hq : ¬ value / base ≠ 0 := by
    rw [not_not, ← UInt32.toNat_inj, UInt32.toNat_div, Nat.div_eq_of_lt h]
    rfl
  simp only [uvtoaLoop, if_neg hq, toNat_rem]
  rw [lowFirst_of_lt h, Nat.mod_eq_of_lt h]
  rfl

/-- Every other round. -/
theorem uvtoaLoop_of_le {fuel ptr : ℕ} {b : Buf} (h0 : 0 < base.toNat)
    (h : base.toNat ≤ value.toNat) : uvtoaLoop base (fuel + 1) b ptr value =
      uvtoaLoop base fuel (b.put ptr (digitChar (value.toNat % base.toNat))) (ptr + 1)
        (value / base) := by
  have hq : value / base ≠ 0 := by
    rw [ne_eq, ← UInt32.toNat_inj, UInt32.toNat_div]
    exact (Nat.div_pos h h0).ne'
  simp only [uvtoaLoop, if_pos hq, toNat_rem]
  rfl

include hb in
/-- The digits come out the lowest one first. -/
theorem uvtoaLoop_eq : ∀ (fuel : ℕ) (b : Buf) (ptr : ℕ) (value : UInt32),
    value.toNat < base.toNat ^ (fuel + 1) → uvtoaLoop base (fuel + 1) b ptr value =
      (b.puts ptr ((lowFirst base.toNat value.toNat).map digitChar),
        ptr + (lowFirst base.toNat value.toNat).length) := by
  intro fuel
  induction fuel with
  | zero =>
    intro b ptr value hv
    have hlt : value.toNat < base.toNat := by rwa [Nat.zero_add, pow_one] at hv
    rw [uvtoaLoop_of_lt hlt]
  | succ fuel ih =>
    intro b ptr value hv
    by_cases hlt : value.toNat < base.toNat
    · rw [uvtoaLoop_of_lt hlt]
    · have hle : base.toNat ≤ value.toNat := by omega
      have h0 : 0 < base.toNat := by omega
      have hdiv : (value / base).toNat < base.toNat ^ (fuel + 1) := by
        rw [UInt32.toNat_div, Nat.div_lt_iff_lt_mul h0, ← pow_succ]
        exact hv
      rw [uvtoaLoop_of_le h0 hle, ih _ _ _ hdiv, UInt32.toNat_div,
        lowFirst_of_le hb hle, List.map_cons, Buf.puts, List.length_cons]
      congr 1
      omega

variable (h2 : 2 ≤ base.toNat) (h36 : base.toNat ≤ 36)

include h2 h36 in
/-- `_uvtoa` in steps: the digits and the terminator, and then the exchange. -/
theorem uvtoa_eq (p : ℕ) (b : Buf) : uvtoa p base value b =
    swapLoop (p + (lowFirst base.toNat value.toNat).length - 1) p
      (b.puts p ((lowFirst base.toNat value.toNat).map digitChar ++ [0])) := by
  have hbase : ¬ (base < 2 ∨ 36 < base) := by
    rw [UInt32.lt_iff_toNat_lt, UInt32.lt_iff_toNat_lt]
    exact not_or.2 ⟨not_lt.2 h2, not_lt.2 h36⟩
  have hv : value.toNat < base.toNat ^ (31 + 1) := by
    have hpow : 2 ^ 32 ≤ base.toNat ^ 32 := Nat.pow_le_pow_left h2 32
    exact lt_of_lt_of_le value.toNat_lt hpow
  rw [uvtoa, if_neg hbase, uvtoaLoop_eq h2 31 b p value hv, Buf.puts_append, List.length_map]
  rfl

include h2 in
/-- A word has no more than 32 digits. -/
theorem length_digits_le : (lowFirst base.toNat value.toNat).length ≤ 32 := by
  have hpow : 2 ^ 32 ≤ base.toNat ^ 32 := Nat.pow_le_pow_left h2 32
  exact length_lowFirst_le h2 (lt_of_lt_of_le value.toNat_lt hpow)

include h2 h36 in
/-- `_uvtoa` leaves the numeral, a terminator behind it, and everything else as it was. -/
theorem read8_uvtoa (p : ℕ) (b : Buf) (i : ℕ) : (uvtoa p base value b).mem.read8 i =
    (b.puts p (numeralText base.toNat value.toNat ++ [0])).mem.read8 i := by
  obtain ⟨low, hlow⟩ : ∃ low, low = (lowFirst base.toNat value.toNat).map digitChar := ⟨_, rfl⟩
  have hlen : low.length = (lowFirst base.toNat value.toNat).length := by
    rw [hlow, List.length_map]
  have hpos : 0 < low.length := by rw [hlen]; exact Nat.succ_pos _
  have hle : low.length ≤ 32 := hlen ▸ length_digits_le h2
  have htext : numeralText base.toNat value.toNat = low.reverse := by
    rw [numeralText, numeral, List.map_reverse, hlow]
  rw [uvtoa_eq h2 h36, ← hlow, ← hlen, htext,
    read8_swapLoop _ _ _ _ (by omega) (by omega), Buf.read8_puts (by simp; omega),
    Buf.read8_puts (by simp; omega), Buf.read8_puts (by simp; omega)]
  simp only [List.length_append, List.length_reverse, List.length_singleton]
  obtain ⟨d, hd⟩ : ∃ d, d = Word32.sub i p := ⟨_, rfl⟩
  rw [← hd]
  by_cases hin : d < low.length
  · have hs : Word32.sub (p + low.length - 1 - d) p = low.length - 1 - d := by
      unfold Word32.sub; omega
    rw [if_pos (by omega), hs, if_pos (by omega), if_pos (by omega),
      List.getD_append _ _ _ _ (by omega), List.getD_append _ _ _ _ (by simp; omega),
      List.getD_eq_getElem _ _ (by omega), List.getD_eq_getElem _ _ (by simp; omega),
      List.getElem_reverse]
  · rw [if_neg (by omega)]
    split_ifs with h
    · rw [List.getD_append_right _ _ _ _ (by omega), List.getD_append_right _ _ _ _ (by simp; omega),
        List.length_reverse]
    · rfl

include h2 h36 in
theorem spells_uvtoa (p : ℕ) (b : Buf) :
    Spells (uvtoa p base value b).mem.read8 p (numeralText base.toNat value.toNat) := by
  rw [funext (read8_uvtoa h2 h36 p b)]
  have : (lowFirst base.toNat value.toNat).length ≤ 32 := length_digits_le h2
  exact Buf.spells_puts (by rw [length_numeralText]; omega)

include h2 h36 in
/-- The last index written is that of the terminator. -/
theorem mem_written_uvtoa {p i : ℕ} {b : Buf} (h : i ∈ (uvtoa p base value b).written) :
    i ∈ b.written ∨ i ≤ p + (numeralText base.toNat value.toNat).length := by
  rw [uvtoa_eq h2 h36] at h
  rw [length_numeralText]
  obtain h | h := mem_written_swapLoop _ _ _ h
  · rw [Buf.mem_written_puts, List.length_append, List.length_map, List.length_singleton] at h
    exact h.imp_right fun h => by omega
  · exact Or.inr (by omega)

end Uvtoa

/-! ## Signed conversion -/

theorem mirroredTable_getD : ∀ d < 36, mirroredTable.getD (35 + d) 0 = digitChar d := by decide

theorem toInt_eq_of_lt {v : Int32} (h : v.toUInt32.toNat < 2147483648) :
    v.toInt = v.toUInt32.toNat := by
  have hcond := BitVec.toInt_eq_toNat_cond v.toBitVec
  have hnat : v.toUInt32.toNat = v.toBitVec.toNat := rfl
  have hint : v.toInt = v.toBitVec.toInt := rfl
  rw [hint, hcond]
  omega

theorem toInt32_ne_zero_iff {w : UInt32} : w.toInt32 ≠ 0 ↔ w ≠ 0 := by
  refine not_congr ⟨fun h => ?_, fun h => by rw [h]; rfl⟩
  rw [← UInt32.toUInt32_toInt32 w, h]
  rfl

section Vtoa

variable {base : UInt32} (h2 : 2 ≤ base.toNat) (h36 : base.toNat ≤ 36)

include h2 h36 in
/-- The mirrored table is never read before its zero: the remainder is unsigned. -/
theorem mirroredTable_rem (w : UInt32) :
    mirroredTable.getD (35 + (w - w / base * base)).toNat 0 =
      digitTable.getD (w - w / base * base).toNat 0 := by
  have hlt : (w - w / base * base).toNat < 36 := by
    rw [toNat_rem]
    exact lt_of_lt_of_le (Nat.mod_lt _ (by omega)) h36
  have hsum : (35 + (w - w / base * base)).toNat = 35 + (w - w / base * base).toNat := by
    rw [UInt32.toNat_add]
    exact Nat.mod_eq_of_lt (by simp only [UInt32.reduceToNat]; omega)
  rw [hsum]
  exact mirroredTable_getD _ hlt

include h2 h36 in
/-- The signed loop writes the digits of the word, and its last value is not negative. -/
theorem vtoaLoop_eq : ∀ (fuel : ℕ) (b : Buf) (ptr : ℕ) (value : Int32),
    value.toUInt32.toNat < base.toNat ^ (fuel + 1) →
      ∃ t : Int32, ¬ t < 0 ∧ vtoaLoop base (fuel + 1) b ptr value =
        ((uvtoaLoop base (fuel + 1) b ptr value.toUInt32).1,
          (uvtoaLoop base (fuel + 1) b ptr value.toUInt32).2, t) := by
  have hlast : ∀ (fuel : ℕ) (b : Buf) (ptr : ℕ) (value : Int32),
      value.toUInt32.toNat < base.toNat →
      ∃ t : Int32, ¬ t < 0 ∧ vtoaLoop base (fuel + 1) b ptr value =
        ((uvtoaLoop base (fuel + 1) b ptr value.toUInt32).1,
          (uvtoaLoop base (fuel + 1) b ptr value.toUInt32).2, t) := by
    intro fuel b ptr value hlt
    have hq : ¬ value.toUInt32 / base ≠ 0 := by
      rw [not_not, ← UInt32.toNat_inj, UInt32.toNat_div, Nat.div_eq_of_lt hlt]
      rfl
    refine ⟨value, ?_, ?_⟩
    · have hint := toInt_eq_of_lt (v := value) (by omega)
      rw [Int32.lt_iff_toInt_lt, hint]
      exact not_lt.2 (Int.natCast_nonneg _)
    · simp only [vtoaLoop, uvtoaLoop, UInt32.toUInt32_toInt32, mirroredTable_rem h2 h36,
        toInt32_ne_zero_iff, if_neg hq]
  intro fuel
  induction fuel with
  | zero =>
    intro b ptr value hv
    exact hlast 0 b ptr value (by rwa [Nat.zero_add, pow_one] at hv)
  | succ fuel ih =>
    intro b ptr value hv
    by_cases hlt : value.toUInt32.toNat < base.toNat
    · exact hlast _ b ptr value hlt
    · have h0 : 0 < base.toNat := by omega
      have hq : value.toUInt32 / base ≠ 0 := by
        rw [ne_eq, ← UInt32.toNat_inj, UInt32.toNat_div]
        exact (Nat.div_pos (by omega) h0).ne'
      have hdiv : (value.toUInt32 / base).toInt32.toUInt32.toNat < base.toNat ^ (fuel + 1) := by
        rw [UInt32.toUInt32_toInt32, UInt32.toNat_div, Nat.div_lt_iff_lt_mul h0, ← pow_succ]
        exact hv
      obtain ⟨t, ht, heq⟩ := ih (b.put ptr (digitTable.getD
        (value.toUInt32 - value.toUInt32 / base * base).toNat 0)) (ptr + 1) _ hdiv
      refine ⟨t, ht, ?_⟩
      rw [UInt32.toUInt32_toInt32] at heq
      rw [vtoaLoop, uvtoaLoop]
      simp only [UInt32.toUInt32_toInt32, mirroredTable_rem h2 h36, toInt32_ne_zero_iff, if_pos hq]
      exact heq

include h2 h36 in
/-- The signed conversion writes what the unsigned one does: it never sees a sign. -/
theorem vtoa_eq_uvtoa (p : ℕ) (value : Int32) (b : Buf) :
    vtoa p base value b = uvtoa p base value.toUInt32 b := by
  have hbase : ¬ (base < 2 ∨ 36 < base) := by
    rw [UInt32.lt_iff_toNat_lt, UInt32.lt_iff_toNat_lt]
    exact not_or.2 ⟨not_lt.2 h2, not_lt.2 h36⟩
  have hv : value.toUInt32.toNat < base.toNat ^ (31 + 1) := by
    have hpow : 2 ^ 32 ≤ base.toNat ^ 32 := Nat.pow_le_pow_left h2 32
    exact lt_of_lt_of_le value.toUInt32.toNat_lt hpow
  obtain ⟨t, ht, heq⟩ := vtoaLoop_eq h2 h36 31 b p value hv
  rw [vtoa, uvtoa, if_neg hbase, if_neg hbase, heq]
  simp only [if_neg ht]

end Vtoa

theorem itoa_eq_utoa (n : Int32) (str : ℕ) (b : Buf) : itoa n str b = utoa n.toUInt32 str b :=
  vtoa_eq_uvtoa (by decide) (by decide) str n b

theorem digitChar_ne_zero : ∀ d < 36, digitChar d ≠ 0 := by decide

theorem numeralText_noNul {base n : ℕ} (hb : 1 < base) (h36 : base ≤ 36) :
    0 ∉ numeralText base n := by
  rw [numeralText, List.mem_map]
  rintro ⟨d, hd, h⟩
  exact digitChar_ne_zero d (lt_of_lt_of_le (numeral_lt hb hd) h36) h

/-- The numeral as a string. -/
def numeralString (base n : ℕ) (hb : 1 < base) (h36 : base ≤ 36) : CString :=
  ⟨numeralText base n, numeralText_noNul hb h36⟩

/-- The string that `itoa` leaves. -/
theorem holds_itoa (n : Int32) (p : ℕ) (b : Buf) :
    HoldsString (itoa n p b).mem p
      (numeralString 10 n.toUInt32.toNat (by decide) (by decide)).bytes := by
  rw [itoa_eq_utoa]
  exact spells_read8.1 (spells_uvtoa (by decide) (by decide) p b)

/-- It is the only one there. -/
theorem text_of_itoa {n : Int32} {p : ℕ} {b : Buf} {s : List UInt8}
    (hs : HoldsString (itoa n p b).mem p s) (hnul : 0 ∉ s) : s = numeralText 10 n.toUInt32.toNat :=
  (spells_read8.2 hs).unique (spells_read8.2 (holds_itoa n p b)) hnul
    (numeralString 10 _ (by decide) (by decide)).noNul

/-! ## Floating point -/

theorem copyLoop_eq {temp : ℕ → UInt8} : ∀ {cs : List UInt8} {fuel t p : ℕ} {b : Buf},
    Spells temp t cs → 0 ∉ cs → cs.length < fuel →
      copyLoop temp fuel t b p = (b.puts p cs, p + cs.length) := by
  intro cs
  induction cs with
  | nil =>
    intro fuel t p b hs _ hfuel
    obtain ⟨fuel, rfl⟩ := Nat.exists_eq_succ_of_ne_zero (Nat.pos_iff_ne_zero.1 hfuel)
    have hend : temp t = 0 := hs
    rw [copyLoop, hend, if_neg (by simp)]
    rfl
  | cons c cs ih =>
    intro fuel t p b hs hnul hfuel
    rw [List.length_cons] at hfuel
    rw [List.mem_cons, not_or] at hnul
    obtain ⟨fuel, rfl⟩ := Nat.exists_eq_succ_of_ne_zero (show fuel ≠ 0 by omega)
    have hchar : temp t = c := hs.1
    rw [copyLoop, hchar, if_pos (Ne.symm hnul.1), ih hs.2 hnul.2 (by omega), Buf.puts,
      List.length_cons, show p + 1 + cs.length = p + (cs.length + 1) by omega]

theorem fracLoop_eq (U : FloatUnit) : ∀ (n : ℕ) (x : U.F), ∃ cs : List UInt8, cs.length = n ∧
    ∀ (b : Buf) (p : ℕ), fracLoop U n x b p = (b.puts p cs, p + n) := by
  intro n
  induction n with
  | zero => intro x; exact ⟨[], rfl, fun b p => rfl⟩
  | succ n ih =>
    intro x
    obtain ⟨cs, hlen, heq⟩ := ih (U.sub (U.mul10 x) (U.ofInt (U.toInt (U.mul10 x))))
    refine ⟨(48 + U.toInt (U.mul10 x)).toUInt32.toUInt8 :: cs, by rw [List.length_cons, hlen], ?_⟩
    intro b p
    rw [Buf.puts, show p + (n + 1) = p + 1 + n by omega]
    exact heq _ _

/-- The characters that `ftoa` writes, without the terminator: the sign, the digits of the integer
part, and a point with `precision` digits. -/
def ftoaLength (U : FloatUnit) (x : U.F) (precision : UInt32) : ℕ :=
  (if U.isNeg x then 1 else 0) +
    (numeral 10 (U.toULong (ftoaRounded U x precision)).toNat).length +
    if 0 < precision then 1 + precision.toNat else 0

/-- `ftoa` writes its characters one after the other, and a terminator. -/
theorem ftoa_eq (U : FloatUnit) (x : U.F) (str : ℕ) (precision : UInt32) (b : Buf) :
    ∃ cs : List UInt8, cs.length = ftoaLength U x precision ∧
      ftoa U x str precision b = b.puts str (cs ++ [0]) := by
  obtain ⟨n, hn⟩ : ∃ n, n = U.toULong (ftoaRounded U x precision) := ⟨_, rfl⟩
  obtain ⟨sign, hsign⟩ : ∃ sign : List UInt8, sign = if U.isNeg x then [45] else [] := ⟨_, rfl⟩
  have hputSign : (if U.isNeg x then (b.put str 45, str + 1) else (b, str)) =
      (b.puts str sign, str + sign.length) := by
    rw [hsign]; split_ifs <;> rfl
  have hcopy : ∀ (b : Buf) (p : ℕ), copyLoop (utoa n 0 ⟨fun _ => 0, []⟩).mem.read8 20 0 b p =
      (b.puts p (numeralText 10 n.toNat), p + (numeralText 10 n.toNat).length) := by
    intro b p
    have hlen := length_numeralText_le (le_refl 10) n.toNat_lt
    exact copyLoop_eq (spells_uvtoa (by decide) (by decide) 0 _)
      (numeralText_noNul (by omega) (by omega)) (by omega)
  obtain ⟨frac, hfrac, hputFrac⟩ : ∃ frac : List UInt8,
      frac.length = (if 0 < precision then 1 + precision.toNat else 0) ∧
      ∀ (b : Buf) (p : ℕ), (if 0 < precision then
        fracLoop U precision.toNat (U.sub (ftoaRounded U x precision) (U.ofULong n))
          (b.put p 46) (p + 1) else (b, p)) = (b.puts p frac, p + frac.length) := by
    by_cases hprec : 0 < precision
    · obtain ⟨cs, hlen, heq⟩ := fracLoop_eq U precision.toNat
        (U.sub (ftoaRounded U x precision) (U.ofULong n))
      refine ⟨46 :: cs, by rw [if_pos hprec, List.length_cons, hlen, Nat.add_comm], fun b p => ?_⟩
      rw [if_pos hprec, heq, Buf.puts, List.length_cons, hlen, Nat.add_assoc,
        Nat.add_comm 1 precision.toNat]
    · exact ⟨[], by rw [if_neg hprec]; rfl, fun b p => by rw [if_neg hprec]; rfl⟩
  refine ⟨sign ++ numeralText 10 n.toNat ++ frac, ?_, ?_⟩
  · rw [List.length_append, List.length_append, hfrac, ftoaLength, ← hn, hsign,
      numeralText, List.length_map]
    split_ifs <;> rfl
  · rw [ftoa, hputSign]
    simp only [← hn, hcopy, hputFrac]
    rw [List.append_assoc, List.append_assoc, Buf.puts_append, Buf.puts_append, Buf.puts_append]
    rfl

/-! ## Parsing -/

theorem charInt_digitChar : ∀ d < 10, (charInt (digitChar d) - 48).toUInt32 = UInt32.ofNat d := by
  decide

/-- The loop is Horner's rule modulo `2 ^ 32`. -/
theorem atouLoop_eq {rd : ℕ → UInt8} : ∀ (ds : List ℕ) (fuel p : ℕ) (result : UInt32),
    (∀ d ∈ ds, d < 10) → Spells rd p (ds.map digitChar) → ds.length < fuel →
      atouLoop rd fuel p result =
        .ok (ds.foldl (fun r d => r * 10 + UInt32.ofNat d) result) := by
  intro ds
  induction ds with
  | nil =>
    intro fuel p result _ hs hfuel
    obtain ⟨fuel, rfl⟩ := Nat.exists_eq_succ_of_ne_zero (Nat.pos_iff_ne_zero.1 hfuel)
    have hend : rd p = 0 := hs
    rw [atouLoop, hend, if_neg (by simp)]
    rfl
  | cons d ds ih =>
    intro fuel p result hds hs hfuel
    rw [List.length_cons] at hfuel
    obtain ⟨fuel, rfl⟩ := Nat.exists_eq_succ_of_ne_zero (show fuel ≠ 0 by omega)
    have hd : d < 10 := hds d List.mem_cons_self
    have hchar : rd p = digitChar d := hs.1
    rw [atouLoop, hchar, if_pos (digitChar_ne_zero d (by omega)), charInt_digitChar d hd,
      List.foldl_cons]
    exact ih _ _ _ (fun d hd => hds d (List.mem_cons_of_mem _ hd)) hs.2 (by omega)

theorem foldl_word (ds : List ℕ) :
    ds.foldl (fun r d => r * 10 + UInt32.ofNat d) (0 : UInt32) = UInt32.ofNat (value 10 ds) := by
  induction ds using List.reverseRecOn with
  | nil => rfl
  | append_singleton ds d ih =>
    rw [List.foldl_append, ih, value_concat, UInt32.ofNat_add, UInt32.ofNat_mul]
    rfl

/-- `atou` of decimal digits. -/
theorem atou_eq {rd : ℕ → UInt8} {p : ℕ} {ds : List ℕ} (hds : ∀ d ∈ ds, d < 10)
    (hs : Spells rd p (ds.map digitChar)) (hlen : ds.length < 4294967296) :
    atou rd p = .ok (UInt32.ofNat (value 10 ds)) := by
  rw [atou, atouLoop_eq ds _ _ _ hds hs hlen, foldl_word]

/-! ## Round trip -/

/-- The unsigned conversions leave the numeral of their argument, in base 10 and in base 16, and
`atou` reads a decimal numeral back. On any digits in memory `atou` returns their value, reduced
to a word. -/
theorem utoa_htoa_atou :
    (∀ (n : UInt32) (p : ℕ) (b : Buf),
      (∃ ds, IsNumeral 10 n.toNat ds ∧ HoldsString (utoa n p b).mem p (ds.map digitChar)) ∧
      (∃ ds, IsNumeral 16 n.toNat ds ∧ HoldsString (htoa n p b).mem p (ds.map digitChar)) ∧
      atou (utoa n p b).mem.read8 p = .ok n) ∧
    ∀ (m : Mem) (a : ℕ) (ds : List ℕ), (∀ d ∈ ds, d < 10) → HoldsString m a (ds.map digitChar) →
      atou m.read8 a = .ok (UInt32.ofNat (value 10 ds % 4294967296)) := by
  constructor
  · intro n p b
    have h10 : Spells (utoa n p b).mem.read8 p (numeralText 10 n.toNat) :=
      spells_uvtoa (by decide) (by decide) p b
    have h16 : Spells (htoa n p b).mem.read8 p (numeralText 16 n.toNat) :=
      spells_uvtoa (by decide) (by decide) p b
    refine ⟨⟨_, isNumeral_numeral (by omega) _, spells_read8.1 h10⟩,
      ⟨_, isNumeral_numeral (by omega) _, spells_read8.1 h16⟩, ?_⟩
    have hlen : (numeral 10 n.toNat).length < 4294967296 := by
      have := length_numeralText_le (le_refl 10) n.toNat_lt
      rw [length_numeralText, ← length_numeral] at this
      omega
    rw [atou_eq (fun d hd => numeral_lt (by omega) hd) h10 hlen,
      (isNumeral_numeral (by omega) _).value, UInt32.ofNat_toNat]
  · intro m a ds hds hs
    have hnul : 0 ∉ ds.map digitChar := by
      rw [List.mem_map]
      rintro ⟨d, hd, h⟩
      exact digitChar_ne_zero d (by have := hds d hd; omega) h
    have hlen := HoldsString.length_lt (s := ⟨ds.map digitChar, hnul⟩) hs
    rw [List.length_map] at hlen
    rw [atou_eq hds (spells_read8.2 hs) hlen]
    congr 1
    exact UInt32.toNat_inj.1 (by simp)

/-- The digits of `2 ^ 32 + 1`, from address 16 on. -/
def overlongText : Mem := fun x => if x < 16 then 0 else (ascii "4294967297").getD (x - 16) 0

theorem atou_overlongText : atou overlongText.read8 16 = .ok 1 :=
  utoa_htoa_atou.2 overlongText 16 [4, 2, 9, 4, 9, 6, 7, 2, 9, 7] (by decide) (by decide)

end Ospp
