import Ospp.Lib.Mem
import Ospp.Klib.StaticArray

/-!
# C strings

`klibcpp/cstring.cpp`: strings that end with a zero byte, in memory or in an array. Code that reads
a string gets the bytes as a function of the pointer: `Mem.read8` for an address, the contents of
the array for an index into it. `Spells rd p s` says that the string `s` stands at `p`.
-/

namespace Ospp

/-- The bytes of a C string, up to its terminator. -/
structure CString where
  bytes : List UInt8
  noNul : 0 ∉ bytes
  deriving DecidableEq

/-- The bytes of a literal. -/
def ascii (s : String) : List UInt8 := s.toList.map fun c => UInt8.ofNat c.toNat

/-- The value of a `char`, which is signed, as an `int`. -/
def charInt (c : UInt8) : Int32 := c.toInt8.toInt32

/-! ## Strings in memory -/

/-- The bytes stand at address `a`, with a terminator behind them. -/
def HoldsString (m : Mem) (a : ℕ) (s : List UInt8) : Prop := m.Holds a (s ++ [0])

instance (m : Mem) (a : ℕ) (s : List UInt8) : Decidable (HoldsString m a s) :=
  inferInstanceAs (Decidable (m.Holds a (s ++ [0])))

/-- A string is shorter than the address space: one that goes round it meets its terminator. -/
theorem HoldsString.length_lt {m : Mem} {s : CString} {a : ℕ} (h : HoldsString m a s.bytes) :
    s.bytes.length < 4294967296 := by
  by_contra hn
  have hlt : s.bytes.length % 4294967296 < s.bytes.length := by omega
  have hnul : s.bytes[s.bytes.length % 4294967296] = 0 := by
    obtain ⟨hbytes, hend, _⟩ := Mem.holds_append.1 h
    rw [← hbytes.read8 hlt, ← hend]
    unfold Mem.read8
    congr 1
    omega
  exact s.noNul (hnul ▸ List.getElem_mem hlt)

/-! ## Strings behind a pointer -/

section Spells

variable {rd : ℕ → UInt8} {p : ℕ} {s : List UInt8}

/-- The bytes stand at `p`, with a terminator behind them. -/
def Spells (rd : ℕ → UInt8) : ℕ → List UInt8 → Prop
  | p, [] => rd p = 0
  | p, c :: cs => rd p = c ∧ Spells rd (p + 1) cs

/-- The characters of a string, and its terminator. -/
theorem spells_iff : ∀ {p : ℕ},
    Spells rd p s ↔ ∀ i ≤ s.length, rd (p + i) = s.getD i 0 := by
  induction s with
  | nil => intro p; simp [Spells]
  | cons c cs ih =>
    intro p
    rw [Spells, ih, List.length_cons]
    constructor
    · rintro ⟨h0, h⟩ i hi
      cases i with
      | zero => exact h0
      | succ i =>
        rw [show p + (i + 1) = p + 1 + i by omega]
        exact h i (by omega)
    · intro h
      refine ⟨h 0 (by omega), fun i hi => ?_⟩
      rw [show p + 1 + i = p + (i + 1) by omega]
      exact h (i + 1) (by omega)

theorem spells_read8 {m : Mem} : ∀ {p : ℕ}, Spells m.read8 p s ↔ HoldsString m p s := by
  induction s with
  | nil => intro p; exact (and_iff_left trivial).symm
  | cons c cs ih => intro p; exact and_congr_right fun _ => ih

theorem Spells.end (h : Spells rd p s) : rd (p + s.length) = 0 := by
  rw [spells_iff.1 h _ (le_refl _), List.getD_eq_default _ _ (le_refl _)]

/-- A character of a string is not the terminator. -/
theorem Spells.ne_zero {s : CString} (h : Spells rd p s.bytes) {i : ℕ} (hi : i < s.bytes.length) :
    rd (p + i) ≠ 0 := by
  rw [spells_iff.1 h i hi.le, List.getD_eq_getElem _ _ hi]
  exact fun e => s.noNul (e ▸ List.getElem_mem hi)

/-- One string at most stands at a place. -/
theorem Spells.unique : ∀ {s s' : List UInt8} {p : ℕ}, Spells rd p s → Spells rd p s' → 0 ∉ s →
    0 ∉ s' → s = s' := by
  intro s
  induction s with
  | nil =>
    intro s' p h h' _ hnul'
    cases s' with
    | nil => rfl
    | cons c cs =>
      have hend : rd p = 0 := h
      exact absurd (by rw [← hend, h'.1]; exact List.mem_cons_self) hnul'
  | cons c cs ih =>
    intro s' p h h' hnul hnul'
    cases s' with
    | nil =>
      have hend : rd p = 0 := h'
      exact absurd (by rw [← hend, h.1]; exact List.mem_cons_self) hnul
    | cons c' cs' =>
      rw [List.mem_cons, not_or] at hnul hnul'
      rw [ih h.2 h'.2 hnul.2 hnul'.2, ← h.1, ← h'.1]

/-- What stands before a zero byte is a string. -/
theorem exists_spells : ∀ {n : ℕ} {p : ℕ}, rd (p + n) = 0 →
    ∃ s : CString, s.bytes.length ≤ n ∧ Spells rd p s.bytes := by
  intro n
  induction n with
  | zero => intro p h; exact ⟨⟨[], List.not_mem_nil⟩, le_refl _, h⟩
  | succ n ih =>
    intro p h
    by_cases h0 : rd p = 0
    · exact ⟨⟨[], List.not_mem_nil⟩, Nat.zero_le _, h0⟩
    · obtain ⟨s, hlen, hs⟩ := ih (p := p + 1) (by rw [show p + 1 + n = p + (n + 1) by omega]; exact h)
      refine ⟨⟨rd p :: s.bytes, ?_⟩, by simpa using hlen, rfl, hs⟩
      rw [List.mem_cons, not_or]
      exact ⟨fun e => h0 e.symm, s.noNul⟩

end Spells

/-! ## Length -/

/-- `strlen`, with the characters counted so far. After `2 ^ 32` of them the count is back at its
start. -/
def strlenFrom (rd : ℕ → UInt8) (str : ℕ) : ℕ → UInt32 → K UInt32
  | 0, _ => .error .diverged
  | fuel + 1, len =>
    if rd (str + len.toNat) ≠ 0 then strlenFrom rd str fuel (len + 1) else .ok (len + 1 - 1)

def strlen (rd : ℕ → UInt8) (str : ℕ) : K UInt32 := strlenFrom rd str 4294967296 0

theorem strlenFrom_eq {rd : ℕ → UInt8} {str : ℕ} {s : CString} (h : Spells rd str s.bytes)
    (hlen : s.bytes.length < 4294967296) : ∀ (fuel : ℕ) (len : UInt32),
    len.toNat ≤ s.bytes.length → s.bytes.length < len.toNat + fuel →
      strlenFrom rd str fuel len = .ok (UInt32.ofNat s.bytes.length) := by
  intro fuel
  induction fuel with
  | zero => intro len hle hlt; omega
  | succ fuel ih =>
    intro len hle hlt
    by_cases heq : len.toNat = s.bytes.length
    · rw [strlenFrom, heq, h.end, if_neg (by simp), ← heq, UInt32.ofNat_toNat, UInt32.add_sub_cancel]
    · have hlt' : len.toNat < s.bytes.length := by omega
      have hnext : (len + 1).toNat = len.toNat + 1 := by
        rw [UInt32.toNat_add, UInt32.toNat_one]
        omega
      rw [strlenFrom, if_pos (h.ne_zero hlt')]
      exact ih _ (by omega) (by omega)

/-- The length of a string. -/
theorem strlen_eq {rd : ℕ → UInt8} {str : ℕ} {s : CString} (h : Spells rd str s.bytes)
    (hlen : s.bytes.length < 4294967296) :
    strlen rd str = .ok (UInt32.ofNat s.bytes.length) :=
  strlenFrom_eq h hlen _ _ (Nat.zero_le _) (by simpa using hlen)

end Ospp
