import Mathlib.Tactic
import Mathlib.Data.Nat.Bitwise
import Ospp.Klib.StaticArray
import Ospp.Lib.Word

/-!
# The bitmap allocator

`FixedBitmapAllocator<BaseAddr, MaxUnits, UnitSize>` from `klibcpp/bitmap.hpp`. The bitmap is kept
as the array of 32-bit words the class has; unit numbers and the counter are 32-bit words, so the
range checks are those of the source, wrap-around included. An index beyond the array reads and
writes whatever lies behind it.

The lemmas below describe each operation through `testBit`; nothing later unfolds a word.
-/

namespace Ospp

/-- The template arguments. -/
structure BitmapSpec where
  baseAddr : ℕ
  maxUnits : ℕ
  unitSize : ℕ
  maxUnits_pos : 0 < maxUnits
  unitSize_pos : 0 < unitSize

structure Bitmap where
  words : ℕ → ℕ
  allocatedUnits : ℕ

namespace Bitmap

/-- The constructor. -/
def empty : Bitmap := ⟨fun _ => 0, 0⟩

def testBit (b : Bitmap) (bit : ℕ) : Bool := (b.words (bit / 32)).testBit (bit % 32)

def setBit (b : Bitmap) (bit : ℕ) : Bitmap :=
  { b with words := fun w =>
      if w = bit / 32 then b.words w ||| 2 ^ (bit % 32) else b.words w }

def clearBit (b : Bitmap) (bit : ℕ) : Bitmap :=
  { b with words := fun w =>
      if w = bit / 32 then b.words w &&& Word32.compl (2 ^ (bit % 32)) else b.words w }

/-- The first of the units `i`, …, `i + count - 1` that is in use, counted from `i`. -/
def firstUsed (b : Bitmap) (i count : ℕ) : Option ℕ :=
  (List.range count).find? fun j => b.testBit (i + j)

/-- The outer loop of `alloc_units`. A unit in use moves the search past it. -/
def allocSearch (b : Bitmap) (count last : ℕ) : ℕ → ℕ → Option ℕ
  | 0, _ => none
  | fuel + 1, i =>
    if i ≤ last then
      match b.firstUsed i count with
      | none => some i
      | some j => allocSearch b count last fuel (i + j + 1)
    else none

/-- `set_bit` on `count` units. -/
def setRun (b : Bitmap) (i : ℕ) : ℕ → Bitmap
  | 0 => b
  | count + 1 => (b.setRun i count).setBit (i + count)

/-- `alloc_units`. The search makes at most one step for each start. -/
def allocUnits (t : BitmapSpec) (b : Bitmap) (count : ℕ) : K (Bitmap × ℕ) :=
  if count = 0 then .ok (b, 0)
  else if t.maxUnits < count then .error (.panic "alloc_units: request too large")
  else
    match b.allocSearch count (t.maxUnits - count) (t.maxUnits - count + 1) 0 with
    | none => .error (.panic "alloc_units: out of memory")
    | some i =>
      let b' := b.setRun i count
      .ok ({ b' with allocatedUnits := Word32.add b'.allocatedUnits count },
        Word32.add t.baseAddr (Word32.mul i t.unitSize))

/-- The checks shared by `free_units`, `mark_units_free` and `mark_units_used`: the first unit. -/
def startUnit (t : BitmapSpec) (fn : String) (base count : ℕ) : K ℕ :=
  if base < t.baseAddr then .error (.panic (fn ++ ": address below base"))
  else
    let offset := base - t.baseAddr
    if offset % t.unitSize ≠ 0 then .error (.panic (fn ++ ": unaligned address"))
    else if t.maxUnits < Word32.add (offset / t.unitSize) count then
      .error (.panic (fn ++ ": invalid range"))
    else .ok (offset / t.unitSize)

/-- The loop of `free_units` over `n` units from unit `start + i` on. -/
def freeRun (b : Bitmap) (start : ℕ) : ℕ → ℕ → K Bitmap
  | 0, _ => .ok b
  | n + 1, i =>
    if b.testBit (Word32.add start i) then
      freeRun (b.clearBit (Word32.add start i)) start n (i + 1)
    else .error (.panic "free_units: double free")

def freeUnits (t : BitmapSpec) (b : Bitmap) (base count : ℕ) : K Bitmap :=
  if count = 0 then .ok b
  else do
    let start ← startUnit t "free_units" base count
    let b ← b.freeRun start count 0
    return { b with allocatedUnits := Word32.sub b.allocatedUnits count }

/-- One iteration of `mark_units_free` (`used` is false) or `mark_units_used`: a unit that is not
marked so already is changed and counted. -/
def markOne (used : Bool) (b : Bitmap) (bit : ℕ) : Bitmap :=
  if b.testBit bit = used then b
  else if used then { b.setBit bit with allocatedUnits := Word32.add b.allocatedUnits 1 }
  else { b.clearBit bit with allocatedUnits := Word32.sub b.allocatedUnits 1 }

/-- The loop of `mark_units_free` or `mark_units_used` over `n` units from unit `start + i` on. -/
def markRun (used : Bool) (b : Bitmap) (start : ℕ) : ℕ → ℕ → Bitmap
  | 0, _ => b
  | n + 1, i => markRun used (b.markOne used (Word32.add start i)) start n (i + 1)

def markUnitsFree (t : BitmapSpec) (b : Bitmap) (base count : ℕ) : K Bitmap :=
  if count = 0 then .ok b
  else do
    let start ← startUnit t "mark_units_free" base count
    return b.markRun false start count 0

def markUnitsUsed (t : BitmapSpec) (b : Bitmap) (base count : ℕ) : K Bitmap :=
  if count = 0 then .ok b
  else do
    let start ← startUnit t "mark_units_used" base count
    return b.markRun true start count 0

def contains (t : BitmapSpec) (addr : ℕ) : Bool :=
  if addr < t.baseAddr then false else decide ((addr - t.baseAddr) / t.unitSize < t.maxUnits)

def allocated (t : BitmapSpec) (b : Bitmap) (addr : ℕ) : Bool :=
  if !contains t addr then false
  else if (addr - t.baseAddr) % t.unitSize ≠ 0 then false
  else b.testBit ((addr - t.baseAddr) / t.unitSize)

/-! ## Bits -/

theorem testBit_withCount (b : Bitmap) (n k : ℕ) :
    ({ b with allocatedUnits := n } : Bitmap).testBit k = b.testBit k := rfl

@[simp] theorem testBit_setBit (b : Bitmap) (i k : ℕ) :
    (b.setBit i).testBit k = (decide (k = i) || b.testBit k) := by
  unfold testBit setBit
  by_cases hw : k / 32 = i / 32
  · simp only [hw, if_true, Nat.testBit_or, Nat.testBit_two_pow]
    have : (i % 32 = k % 32) ↔ (k = i) := by omega
    simp only [this]
    exact Bool.or_comm _ _
  · have : k ≠ i := fun h => hw (by rw [h])
    simp [hw, this]

@[simp] theorem testBit_clearBit (b : Bitmap) (i k : ℕ) :
    (b.clearBit i).testBit k = (b.testBit k && !decide (k = i)) := by
  unfold testBit clearBit
  by_cases hw : k / 32 = i / 32
  · have hpow : 2 ^ (i % 32) < 4294967296 := by
      calc 2 ^ (i % 32) < 2 ^ 32 := Nat.pow_lt_pow_right (by omega) (by omega)
        _ = 4294967296 := by norm_num
    simp only [hw, if_true, Nat.testBit_and, Word32.testBit_compl hpow, Nat.testBit_two_pow]
    have h1 : k % 32 < 32 := by omega
    have h2 : (i % 32 = k % 32) ↔ (k = i) := by omega
    simp [h1, h2]
  · have : k ≠ i := fun h => hw (by rw [h])
    simp [hw, this]

theorem testBit_setRun (b : Bitmap) (i k : ℕ) : ∀ count : ℕ,
    (b.setRun i count).testBit k = (b.testBit k || decide (i ≤ k ∧ k < i + count)) := by
  intro count
  induction count with
  | zero =>
    rw [setRun, decide_eq_false (by omega), Bool.or_false]
  | succ count ih =>
    rw [setRun, testBit_setBit, ih, Bool.eq_iff_iff]
    simp only [Bool.or_eq_true, decide_eq_true_eq]
    constructor
    · rintro (h | h | h)
      · right; omega
      · left; exact h
      · right; omega
    · rintro (h | h)
      · right; left; exact h
      · by_cases hk : k = i + count
        · left; exact hk
        · right; right; omega

/-! ## Allocation -/

theorem firstUsed_none {b : Bitmap} {i count : ℕ} (h : b.firstUsed i count = none) :
    ∀ j < count, b.testBit (i + j) = false := by
  intro j hj
  have := List.find?_eq_none.1 h j (List.mem_range.2 hj)
  simpa using this

theorem allocSearch_some {b : Bitmap} {count last : ℕ} : ∀ {fuel i k : ℕ},
    b.allocSearch count last fuel i = some k →
      k ≤ last ∧ ∀ j < count, b.testBit (k + j) = false := by
  intro fuel
  induction fuel with
  | zero => intro i k h; cases h
  | succ fuel ih =>
    intro i k h
    rw [allocSearch] at h
    split_ifs at h with hi
    cases hf : b.firstUsed i count with
    | none =>
      rw [hf] at h
      cases h
      exact ⟨hi, firstUsed_none hf⟩
    | some j =>
      rw [hf] at h
      exact ih h

/-- The search does not pass over a run of free units. -/
theorem allocSearch_complete {b : Bitmap} {count last k : ℕ} (hk : k ≤ last)
    (hfree : ∀ j < count, b.testBit (k + j) = false) : ∀ {fuel i : ℕ}, i ≤ k → last < i + fuel →
      ∃ i' ≤ k, b.allocSearch count last fuel i = some i' := by
  intro fuel
  induction fuel with
  | zero => intro i hi hfuel; omega
  | succ fuel ih =>
    intro i hi hfuel
    rw [allocSearch, if_pos (by omega)]
    cases hf : b.firstUsed i count with
    | none => exact ⟨i, hi, rfl⟩
    | some j =>
      have hused := List.find?_some (p := fun j => b.testBit (i + j)) hf
      have hj : j < count := List.mem_range.1 (List.mem_of_find?_eq_some hf)
      refine ih ?_ (by omega)
      by_contra hc
      have := hfree (i + j - k) (by omega)
      rw [show k + (i + j - k) = i + j by omega, hused] at this
      cases this

/-- Where a run of free units starts at `k`, the allocation succeeds, at `k` or before. -/
theorem exists_allocUnits {t : BitmapSpec} {b : Bitmap} {count k : ℕ} (hpos : 0 < count)
    (hk : k + count ≤ t.maxUnits) (hfree : ∀ j < count, b.testBit (k + j) = false) :
    ∃ b', ∃ i ≤ k,
      b.allocUnits t count = .ok (b', Word32.add t.baseAddr (Word32.mul i t.unitSize)) := by
  obtain ⟨i, hik, hi⟩ : ∃ i ≤ k,
      b.allocSearch count (t.maxUnits - count) (t.maxUnits - count + 1) 0 = some i :=
    allocSearch_complete (by omega) hfree (Nat.zero_le k) (by omega)
  unfold allocUnits
  rw [if_neg (by omega), if_neg (by omega), hi]
  exact ⟨_, i, hik, rfl⟩

/-- **`alloc_units`.** The units returned were free, and exactly they are marked. -/
theorem allocUnits_eq_ok {t : BitmapSpec} {b b' : Bitmap} {count addr : ℕ}
    (h : b.allocUnits t count = .ok (b', addr)) :
    (count = 0 ∧ b' = b ∧ addr = 0) ∨
      (0 < count ∧ ∃ i, i + count ≤ t.maxUnits ∧
        addr = Word32.add t.baseAddr (Word32.mul i t.unitSize) ∧
        (∀ j < count, b.testBit (i + j) = false) ∧
        ∀ k, b'.testBit k = (b.testBit k || decide (i ≤ k ∧ k < i + count))) := by
  unfold allocUnits at h
  split_ifs at h with h0 hmax
  · cases h; exact Or.inl ⟨h0, rfl, rfl⟩
  · cases hs : b.allocSearch count (t.maxUnits - count) (t.maxUnits - count + 1) 0 with
    | none => rw [hs] at h; cases h
    | some i =>
      rw [hs] at h
      cases h
      obtain ⟨hi, hfree⟩ := allocSearch_some hs
      refine Or.inr ⟨by omega, i, by omega, rfl, hfree, fun k => ?_⟩
      exact testBit_setRun b i k count

/-! ## Release and reservation -/

theorem startUnit_eq_ok {t : BitmapSpec} {fn : String} {base count start : ℕ}
    (h : startUnit t fn base count = .ok start) :
    t.baseAddr ≤ base ∧ (base - t.baseAddr) % t.unitSize = 0 ∧
      start = (base - t.baseAddr) / t.unitSize ∧ Word32.add start count ≤ t.maxUnits := by
  unfold startUnit at h
  dsimp only at h
  split_ifs at h with h1 h2 h3
  cases h
  exact ⟨by omega, by omega, rfl, by omega⟩

theorem freeRun_eq_ok {start : ℕ} : ∀ {n i : ℕ} {b b' : Bitmap}, start + i + n ≤ 4294967296 →
    b.freeRun start n i = .ok b' →
      (∀ k, start + i ≤ k → k < start + i + n → b.testBit k = true) ∧
      ∀ k, b'.testBit k = (b.testBit k && !decide (start + i ≤ k ∧ k < start + i + n)) := by
  intro n
  induction n with
  | zero =>
    intro i b b' _ h
    cases h
    refine ⟨fun k h1 h2 => absurd h2 (by omega), fun k => ?_⟩
    rw [decide_eq_false (by omega)]
    simp
  | succ n ih =>
    intro i b b' hlt h
    rw [freeRun, Word32.add_eq (by omega)] at h
    split_ifs at h with hbit
    obtain ⟨hset, hread⟩ := ih (by omega) h
    constructor
    · intro k h1 h2
      by_cases hk : k = start + i
      · rw [hk]; exact hbit
      · have := hset k (by omega) (by omega)
        rw [testBit_clearBit, Bool.and_eq_true] at this
        exact this.1
    · intro k
      rw [hread, testBit_clearBit, Bool.and_assoc, Bool.eq_iff_iff]
      simp only [Bool.and_eq_true, Bool.not_eq_true', decide_eq_false_iff_not]
      constructor
      · rintro ⟨h1, h2, h3⟩; exact ⟨h1, by omega⟩
      · rintro ⟨h1, h2⟩; exact ⟨h1, by omega, by omega⟩

/-- **`free_units`.** The units released were in use, and exactly they are cleared. -/
theorem freeUnits_eq_ok {t : BitmapSpec} {b b' : Bitmap} {base count : ℕ}
    (hlt : (base - t.baseAddr) / t.unitSize + count ≤ 4294967296)
    (h : b.freeUnits t base count = .ok b') :
    (count = 0 ∧ b' = b) ∨
      (0 < count ∧ t.baseAddr ≤ base ∧ (base - t.baseAddr) % t.unitSize = 0 ∧
        let start := (base - t.baseAddr) / t.unitSize
        Word32.add start count ≤ t.maxUnits ∧ (∀ j < count, b.testBit (start + j) = true) ∧
        ∀ k, b'.testBit k = (b.testBit k && !decide (start ≤ k ∧ k < start + count))) := by
  unfold freeUnits at h
  split_ifs at h with h0
  · cases h; exact Or.inl ⟨h0, rfl⟩
  · simp only [K.bind_eq_ok] at h
    obtain ⟨start, hstart, b₁, hrun, hb⟩ := h
    cases hb
    obtain ⟨hbase, hmod, rfl, hrange⟩ := startUnit_eq_ok hstart
    obtain ⟨hset, hread⟩ := freeRun_eq_ok (by omega) hrun
    simp only [Nat.add_zero] at hset hread
    exact Or.inr ⟨by omega, hbase, hmod, hrange, fun j hj => hset _ (by omega) (by omega), hread⟩

theorem testBit_markOne (used : Bool) (b : Bitmap) (bit k : ℕ) :
    (b.markOne used bit).testBit k = if k = bit then used else b.testBit k := by
  unfold markOne
  by_cases hbit : b.testBit bit = used
  · rw [if_pos hbit]
    split_ifs with hk
    · rw [hk, hbit]
    · rfl
  · rw [if_neg hbit]
    cases used with
    | true =>
      rw [if_pos rfl, testBit_withCount, testBit_setBit]
      by_cases hk : k = bit <;> simp [hk]
    | false =>
      rw [if_neg Bool.false_ne_true, testBit_withCount, testBit_clearBit]
      by_cases hk : k = bit <;> simp [hk]

theorem testBit_markRun (used : Bool) (start : ℕ) : ∀ {n i : ℕ} (b : Bitmap) (k : ℕ),
    start + i + n ≤ 4294967296 →
      (b.markRun used start n i).testBit k =
        if start + i ≤ k ∧ k < start + i + n then used else b.testBit k := by
  intro n
  induction n with
  | zero =>
    intro i b k _
    have hout : ¬ (start + i ≤ k ∧ k < start + i + 0) := by omega
    rw [markRun, if_neg hout]
  | succ n ih =>
    intro i b k hlt
    rw [markRun, ih _ _ (by omega), Word32.add_eq (by omega), testBit_markOne]
    by_cases hin : start + (i + 1) ≤ k ∧ k < start + (i + 1) + n
    · have hin' : start + i ≤ k ∧ k < start + i + (n + 1) := by omega
      rw [if_pos hin, if_pos hin']
    · rw [if_neg hin]
      by_cases hk : k = start + i
      · have hin' : start + i ≤ k ∧ k < start + i + (n + 1) := by omega
        rw [if_pos hk, if_pos hin']
      · have hin' : ¬ (start + i ≤ k ∧ k < start + i + (n + 1)) := by omega
        rw [if_neg hk, if_neg hin']

end Bitmap

end Ospp
