import Ospp.Klib.BitmapCount

/-!
# Which units a call touches

`alloc_units` takes the first run of free units, although its search does not try every start: a
unit in use moves it past that unit. The other three operations take a range from their caller and
check it in 32 bits, so a range that wraps may pass the check.
-/

namespace Ospp

namespace Bitmap

section

variable {t : BitmapSpec} {b b' : Bitmap} {count start base : ℕ}

/-! ## First fit -/

/-- The units `i`, …, `i + count - 1` are there and not in use. -/
def RunFree (t : BitmapSpec) (b : Bitmap) (count i : ℕ) : Prop :=
  i + count ≤ t.maxUnits ∧ ∀ j < count, b.testBit (i + j) = false

/-- The search finds a run if there is one, and none before it. -/
theorem allocUnit_eq_some_iff (hle : count ≤ t.maxUnits) {i : ℕ} :
    b.allocUnit t count = some i ↔ RunFree t b count i ∧ ∀ k < i, ¬ RunFree t b count k := by
  have hfound : ∀ k, RunFree t b count k → ∃ i ≤ k, b.allocUnit t count = some i := fun k hk =>
    allocSearch_complete (by have := hk.1; omega) hk.2 (Nat.zero_le k) (by omega)
  constructor
  · intro hi
    obtain ⟨hlast, hfree⟩ := allocSearch_some hi
    refine ⟨⟨by omega, hfree⟩, fun k hk hrun => ?_⟩
    obtain ⟨i', hik, hi'⟩ := hfound k hrun
    rw [hi] at hi'
    cases hi'
    omega
  · rintro ⟨hrun, hleast⟩
    obtain ⟨i', hik, hi'⟩ := hfound i hrun
    obtain ⟨hlast, hfree⟩ := allocSearch_some hi'
    have : ¬ i' < i := fun hlt => hleast i' hlt ⟨by omega, hfree⟩
    rw [hi', show i' = i by omega]

theorem allocUnits_eq (hpos : 0 < count) (hle : count ≤ t.maxUnits) :
    b.allocUnits t count = match b.allocUnit t count with
      | none => .error (.panic "alloc_units: out of memory")
      | some i => .ok ({ b.setRun i count with
            allocatedUnits := Word32.add (b.setRun i count).allocatedUnits count },
          Word32.add t.baseAddr (Word32.mul i t.unitSize)) := by
  unfold allocUnits
  rw [if_neg (by omega), if_neg (by omega)]
  rfl

/-- **First fit.** `alloc_units` takes the first run of free units and sets exactly its bits; it
panics exactly if there is no run. -/
theorem alloc_first_fit (hpos : 0 < count) (hle : count ≤ t.maxUnits) :
    (∀ i, RunFree t b count i → (∀ k < i, ¬ RunFree t b count k) →
      ∃ b', b.allocUnits t count =
          .ok (b', Word32.add t.baseAddr (Word32.mul i t.unitSize)) ∧
        ∀ k, b'.testBit k = (b.testBit k || decide (i ≤ k ∧ k < i + count))) ∧
    ((∃ msg, b.allocUnits t count = .error (.panic msg)) ↔ ∀ i, ¬ RunFree t b count i) := by
  constructor
  · intro i hrun hleast
    rw [allocUnits_eq hpos hle, (allocUnit_eq_some_iff hle).2 ⟨hrun, hleast⟩]
    exact ⟨_, rfl, fun k => testBit_setRun b i k count⟩
  · rw [allocUnits_eq hpos hle]
    constructor
    · rintro ⟨msg, herr⟩ i hrun
      obtain ⟨i', _, hi'⟩ := allocSearch_complete (by have := hrun.1; omega) hrun.2
        (Nat.zero_le i) (show t.maxUnits - count < 0 + (t.maxUnits - count + 1) by omega)
      have hsome : b.allocUnit t count = some i' := hi'
      rw [hsome] at herr
      cases herr
    · intro hnone
      cases hi : b.allocUnit t count with
      | none => exact ⟨_, rfl⟩
      | some i => exact absurd ((allocUnit_eq_some_iff hle).1 hi).1 (hnone i)

/-- Three units of eight are wanted, with the unit 2 in use. -/
theorem alloc_first_fit_sample :
    ∃ b', (empty.setBit 2).allocUnits ⟨0x800000, 8, 0x1000, by decide, by decide⟩ 3 =
        .ok (b', 0x803000) ∧
      ∀ k, b'.testBit k = ((empty.setBit 2).testBit k || decide (3 ≤ k ∧ k < 3 + 3)) := by
  have haddr : Word32.add 0x800000 (Word32.mul 3 0x1000) = 0x803000 := by decide
  rw [← haddr]
  refine (alloc_first_fit (t := ⟨0x800000, 8, 0x1000, by decide, by decide⟩) (b := empty.setBit 2)
    (by decide) (by decide)).1 3 ⟨by decide, by decide +kernel⟩ ?_
  intro k hk hrun
  have hbit := hrun.2 (2 - k) (by omega)
  rw [show k + (2 - k) = 2 by omega] at hbit
  exact absurd hbit (by decide +kernel)

/-! ## Ranges given by the caller -/

/-- The operations on a range. -/
inductive RangeOp where
  | freeUnits
  | markUnitsFree
  | markUnitsUsed
  deriving DecidableEq, Repr

def RangeOp.run (t : BitmapSpec) (b : Bitmap) (base count : ℕ) : RangeOp → K Bitmap
  | .freeUnits => b.freeUnits t base count
  | .markUnitsFree => b.markUnitsFree t base count
  | .markUnitsUsed => b.markUnitsUsed t base count

/-- The units that the loop of `free_units` passes to `test_bit` and `clear_bit`. -/
def freeTouches (b : Bitmap) (start : ℕ) : ℕ → ℕ → List ℕ
  | 0, _ => []
  | n + 1, i => Word32.add start i ::
    if b.testBit (Word32.add start i) then
      freeTouches (b.clearBit (Word32.add start i)) start n (i + 1)
    else []

/-- The units that the loops of `mark_units_free` and `mark_units_used` touch. -/
def markTouches (start : ℕ) (n : ℕ) : List ℕ := (List.range n).map fun i => Word32.add start i

def RangeOp.touches (b : Bitmap) (start count : ℕ) : RangeOp → List ℕ
  | .freeUnits => b.freeTouches start count 0
  | _ => markTouches start count

/-- The unit that an address stands for. -/
def unitOf (t : BitmapSpec) (base : ℕ) : ℕ := (base - t.baseAddr) / t.unitSize

/-- The call panics, or touches units of its range only, which lies in the allocator and in the words
of the bitmap; no other bit and no word behind the bitmap changes. -/
def StaysInRange (t : BitmapSpec) (b : Bitmap) (base count : ℕ) (op : RangeOp) : Prop :=
  (∃ msg, op.run t b base count = .error (.panic msg)) ∨
    ∃ b', op.run t b base count = .ok b' ∧ (count = 0 → b' = b) ∧
      (count ≠ 0 → unitOf t base + count ≤ t.maxUnits ∧
        ∀ k ∈ op.touches b (unitOf t base) count,
          unitOf t base ≤ k ∧ k < unitOf t base + count ∧ k / 32 < bitmapSize t) ∧
      (∀ k, k < unitOf t base ∨ unitOf t base + count ≤ k → b'.testBit k = b.testBit k) ∧
      ∀ w, bitmapSize t ≤ w → b'.words w = b.words w

/-- The checks of the call accept a range that is not empty; `free_units` gets to the end if every
unit on the way is in use. -/
def Accepted (t : BitmapSpec) (b : Bitmap) (base count : ℕ) (op : RangeOp) : Prop :=
  count ≠ 0 ∧ t.baseAddr ≤ base ∧ (base - t.baseAddr) % t.unitSize = 0 ∧
    Word32.add (unitOf t base) count ≤ t.maxUnits ∧
    (op = .freeUnits → ∀ i < count, b.testBit (Word32.add (unitOf t base) i) = true)

/-- The call is accepted although its range wraps around, or `BITMAP_SIZE` has wrapped to zero. -/
def AcceptedWrapped (t : BitmapSpec) (b : Bitmap) (base count : ℕ) (op : RangeOp) : Prop :=
  Accepted t b base count op ∧
    (4294967296 ≤ unitOf t base + count ∨ 4294967296 ≤ t.maxUnits + 31)

theorem setBit_words {i w : ℕ} (h : w ≠ i / 32) : (b.setBit i).words w = b.words w := if_neg h

theorem clearBit_words {i w : ℕ} (h : w ≠ i / 32) : (b.clearBit i).words w = b.words w := if_neg h

theorem markOne_words {used : Bool} {i w : ℕ} (h : w ≠ i / 32) :
    (b.markOne used i).words w = b.words w := by
  unfold markOne
  split_ifs
  · rfl
  · exact setBit_words h
  · exact clearBit_words h

theorem markRun_words {used : Bool} {w : ℕ} : ∀ {n i : ℕ} (b : Bitmap),
    start + i + n ≤ 4294967296 → (start + i + n + 31) / 32 ≤ w →
      (b.markRun used start n i).words w = b.words w := by
  intro n
  induction n with
  | zero => intro i b _ _; rfl
  | succ n ih =>
    intro i b hlt hw
    rw [markRun, ih _ (by omega) (by omega), Word32.add_eq (by omega)]
    exact markOne_words (by omega)

theorem freeRun_words {w : ℕ} : ∀ {n i : ℕ} {b b' : Bitmap}, start + i + n ≤ 4294967296 →
    (start + i + n + 31) / 32 ≤ w → b.freeRun start n i = .ok b' → b'.words w = b.words w := by
  intro n
  induction n with
  | zero => intro i b b' _ _ h; cases h; rfl
  | succ n ih =>
    intro i b b' hlt hw h
    rw [freeRun, Word32.add_eq (by omega)] at h
    split_ifs at h
    rw [ih (by omega) (by omega) h]
    exact clearBit_words (by omega)

theorem freeTouches_bounds : ∀ {n i : ℕ} {b : Bitmap}, start + i + n ≤ 4294967296 →
    ∀ k ∈ b.freeTouches start n i, start + i ≤ k ∧ k < start + i + n := by
  intro n
  induction n with
  | zero => intro i b _ k hk; cases hk
  | succ n ih =>
    intro i b hlt k hk
    rw [freeTouches, Word32.add_eq (by omega)] at hk
    rcases List.mem_cons.1 hk with rfl | hk
    · omega
    · split_ifs at hk
      · have := ih (by omega) k hk
        omega
      · cases hk

theorem markTouches_bounds (h : start + count ≤ 4294967296) :
    ∀ k ∈ markTouches start count, start ≤ k ∧ k < start + count := by
  intro k hk
  obtain ⟨i, hi, rfl⟩ := List.mem_map.1 hk
  have := List.mem_range.1 hi
  rw [Word32.add_eq (by omega)]
  omega

/-- `free_units` gets through if every unit on the way is in use. -/
theorem freeRun_ok_iff : ∀ {n i : ℕ} {b : Bitmap}, i + n ≤ 4294967296 →
    ((∃ b', b.freeRun start n i = .ok b') ↔
      ∀ j < n, b.testBit (Word32.add start (i + j)) = true) := by
  intro n
  induction n with
  | zero => intro i b _; exact ⟨fun _ j hj => by omega, fun _ => ⟨b, rfl⟩⟩
  | succ n ih =>
    intro i b hlt
    rw [freeRun]
    by_cases hbit : b.testBit (Word32.add start i) = true
    · rw [if_pos hbit, ih (by omega)]
      -- the units on the way are different, so clearing one does not matter for the others
      have hkeep : ∀ j < n, (b.clearBit (Word32.add start i)).testBit
          (Word32.add start (i + 1 + j)) = b.testBit (Word32.add start (i + (j + 1))) := by
        intro j hj
        rw [testBit_clearBit, show i + 1 + j = i + (j + 1) by omega, decide_eq_false]
        · simp
        · unfold Word32.add
          omega
      constructor
      · intro h j hj
        cases j with
        | zero => exact hbit
        | succ j => rw [← hkeep j (by omega)]; exact h j (by omega)
      · intro h j hj
        rw [hkeep j hj]
        exact h (j + 1) (by omega)
    · rw [if_neg hbit]
      constructor
      · rintro ⟨_, h⟩
        cases h
      · intro h
        exact absurd (h 0 (by omega)) hbit

theorem freeRun_error {n i : ℕ} {b : Bitmap} {e : Halt} (h : b.freeRun start n i = .error e) :
    ∃ msg, e = .panic msg := by
  induction n generalizing i b with
  | zero => cases h
  | succ n ih =>
    rw [freeRun] at h
    split_ifs at h
    · exact ih h
    · cases h
      exact ⟨_, rfl⟩

/-- Units in use can be given back. -/
theorem exists_freeUnits (ht : t.maxUnits < 4294967296) (hbase : t.baseAddr ≤ base)
    (hal : (base - t.baseAddr) % t.unitSize = 0)
    (hfit : (base - t.baseAddr) / t.unitSize + count ≤ t.maxUnits)
    (hbits : ∀ j < count, b.testBit ((base - t.baseAddr) / t.unitSize + j) = true) :
    ∃ b', b.freeUnits t base count = .ok b' := by
  by_cases h0 : count = 0
  · rw [h0]
    exact ⟨b, rfl⟩
  have hstart : startUnit t "free_units" base count = .ok ((base - t.baseAddr) / t.unitSize) := by
    unfold startUnit
    dsimp only
    rw [if_neg (Nat.not_lt.2 hbase), if_neg (not_not.2 hal), Word32.add_eq (by omega),
      if_neg (Nat.not_lt.2 hfit)]
  have hcount : count ≤ t.maxUnits := (Nat.le_add_left _ _).trans hfit
  have hrun : ∃ b₁, b.freeRun ((base - t.baseAddr) / t.unitSize) count 0 = .ok b₁ := by
    refine (freeRun_ok_iff (by omega)).2 fun j hj => ?_
    rw [Nat.zero_add, Word32.add_eq (by omega)]
    exact hbits j hj
  obtain ⟨b₁, hb₁⟩ := hrun
  refine ⟨{ b₁ with allocatedUnits := Word32.sub b₁.allocatedUnits count }, ?_⟩
  unfold freeUnits
  rw [if_neg h0, hstart]
  exact K.bind_eq_ok.2 ⟨_, rfl, K.bind_eq_ok.2 ⟨b₁, hb₁, rfl⟩⟩

theorem startUnit_error {fn : String} {e : Halt} (h : startUnit t fn base count = .error e) :
    ∃ msg, e = .panic msg := by
  unfold startUnit at h
  dsimp only at h
  split_ifs at h <;> cases h <;> exact ⟨_, rfl⟩

/-- The loop behind the checks. -/
def RangeOp.loop (b : Bitmap) (start count : ℕ) : RangeOp → K Bitmap
  | .freeUnits => do
    let b ← b.freeRun start count 0
    return { b with allocatedUnits := Word32.sub b.allocatedUnits count }
  | .markUnitsFree => .ok (b.markRun false start count 0)
  | .markUnitsUsed => .ok (b.markRun true start count 0)

/-- The name in the messages. -/
def RangeOp.name : RangeOp → String
  | .freeUnits => "free_units"
  | .markUnitsFree => "mark_units_free"
  | .markUnitsUsed => "mark_units_used"

/-- The three operations are one check and a loop. -/
theorem run_eq (op : RangeOp) (hc : count ≠ 0) : op.run t b base count =
    (startUnit t op.name base count >>= fun start => op.loop b start count) := by
  cases op with
  | freeUnits => exact if_neg hc
  | markUnitsFree => exact if_neg hc
  | markUnitsUsed => exact if_neg hc

theorem run_zero (op : RangeOp) : op.run t b base 0 = .ok b := by
  cases op <;> rfl

/-- A loop over units that do not wrap. -/
theorem loop_keeps {op : RangeOp} (hlt : start + count ≤ 4294967296)
    (h : op.loop b start count = .ok b') :
    (∀ k, k < start ∨ start + count ≤ k → b'.testBit k = b.testBit k) ∧
      (∀ w, (start + count + 31) / 32 ≤ w → b'.words w = b.words w) ∧
      ∀ k ∈ op.touches b start count, start ≤ k ∧ k < start + count := by
  have hmark : ∀ used : Bool, (∀ k, k < start ∨ start + count ≤ k →
      (b.markRun used start count 0).testBit k = b.testBit k) ∧
      ∀ w, (start + count + 31) / 32 ≤ w → (b.markRun used start count 0).words w = b.words w := by
    intro used
    refine ⟨fun k hk => ?_, fun w hw => markRun_words b hlt hw⟩
    rw [testBit_markRun _ _ _ _ hlt, Nat.add_zero, if_neg (by omega)]
  cases op with
  | freeUnits =>
    obtain ⟨b₁, hrun, hb⟩ := K.bind_eq_ok.1 h
    cases hb
    have hwords : ∀ w, (start + count + 31) / 32 ≤ w → b₁.words w = b.words w :=
      fun w hw => freeRun_words hlt hw hrun
    refine ⟨fun k hk => ?_, hwords, fun k hk => ?_⟩
    · rw [testBit_withCount, (freeRun_eq_ok hlt hrun).2, Nat.add_zero, decide_eq_false (by omega)]
      simp
    · simpa using freeTouches_bounds hlt k hk
  | markUnitsFree =>
    cases h
    exact ⟨(hmark false).1, (hmark false).2, markTouches_bounds hlt⟩
  | markUnitsUsed =>
    cases h
    exact ⟨(hmark true).1, (hmark true).2, markTouches_bounds hlt⟩

/-- A loop returns, or panics because a unit on the way is free. -/
theorem loop_cases (op : RangeOp) (hc : count ≤ 4294967296) :
    (∃ b', op.loop b start count = .ok b') ∧
        (op = .freeUnits → ∀ i < count, b.testBit (Word32.add start i) = true) ∨
      (∃ msg, op.loop b start count = .error (.panic msg)) ∧
        ¬ (op = .freeUnits → ∀ i < count, b.testBit (Word32.add start i) = true) := by
  cases op with
  | freeUnits =>
    have hiff : (∃ b', b.freeRun start count 0 = .ok b') ↔
        ∀ j < count, b.testBit (Word32.add start (0 + j)) = true := freeRun_ok_iff (by omega)
    simp only [Nat.zero_add] at hiff
    unfold RangeOp.loop
    dsimp only
    cases hr : b.freeRun start count 0 with
    | ok b₁ => exact Or.inl ⟨⟨_, rfl⟩, fun _ => hiff.1 ⟨b₁, hr⟩⟩
    | error e =>
      obtain ⟨msg, rfl⟩ := freeRun_error hr
      refine Or.inr ⟨⟨msg, rfl⟩, fun h => ?_⟩
      obtain ⟨b₁, hb⟩ := hiff.2 (h rfl)
      rw [hr] at hb
      cases hb
  | markUnitsFree => exact Or.inl ⟨⟨_, rfl⟩, fun h => by cases h⟩
  | markUnitsUsed => exact Or.inl ⟨⟨_, rfl⟩, fun h => by cases h⟩

theorem startUnit_of_accepted {op : RangeOp} (h : Accepted t b base count op) :
    startUnit t op.name base count = .ok (unitOf t base) := by
  obtain ⟨_, h1, h2, h3, _⟩ := h
  unfold startUnit
  dsimp only
  rw [if_neg (by omega), if_neg (by omega), if_neg (by unfold unitOf at h3; omega)]
  rfl

/-- Every loop touches its first unit. -/
theorem first_touched (op : RangeOp) (hc : count ≠ 0) :
    Word32.add start 0 ∈ op.touches b start count := by
  obtain ⟨n, rfl⟩ := Nat.exists_eq_succ_of_ne_zero hc
  cases op with
  | freeUnits => exact List.mem_cons_self
  | markUnitsFree => exact List.mem_map.2 ⟨0, List.mem_range.2 n.succ_pos, rfl⟩
  | markUnitsUsed => exact List.mem_map.2 ⟨0, List.mem_range.2 n.succ_pos, rfl⟩

/-- **Range checks.** The three operations keep to their range, unless they accept one that wraps
around or the bitmap has no words. -/
theorem stays_in_range_iff (ht : t.maxUnits < 4294967296) (hbase : base < 4294967296)
    (hcount : count < 4294967296) (op : RangeOp) :
    StaysInRange t b base count op ↔ ¬ AcceptedWrapped t b base count op := by
  have hunit : unitOf t base < 4294967296 :=
    lt_of_le_of_lt (Nat.div_le_self _ _) (by omega)
  constructor
  · rintro hstay ⟨hacc, hwrap⟩
    have hc := hacc.1
    have hrun : op.run t b base count = op.loop b (unitOf t base) count := by
      rw [run_eq op hc, startUnit_of_accepted hacc]
      rfl
    rcases hstay with ⟨msg, herr⟩ | ⟨b', _, _, hrange, _⟩
    · rcases loop_cases (b := b) op hcount.le with ⟨⟨b', hok⟩, _⟩ | ⟨_, hfree⟩
      · rw [hrun, hok] at herr
        cases herr
      · exact hfree hacc.2.2.2.2
    · obtain ⟨hle, htouch⟩ := hrange hc
      rcases hwrap with hwrap | hsize
      · omega
      · have hword := (htouch _ (first_touched op hc)).2.2
        rw [bitmapSize_eq_zero ht hsize] at hword
        exact Nat.not_lt_zero _ hword
  · intro hwrap
    by_cases hc : count = 0
    · subst hc
      exact Or.inr ⟨b, run_zero op, fun _ => rfl, fun h => absurd rfl h, fun _ _ => rfl,
        fun _ _ => rfl⟩
    · cases hstart : startUnit t op.name base count with
      | error e =>
        obtain ⟨msg, rfl⟩ := startUnit_error hstart
        refine Or.inl ⟨msg, ?_⟩
        rw [run_eq op hc, hstart]
        rfl
      | ok start =>
        obtain ⟨h1, h2, rfl, h4⟩ := startUnit_eq_ok hstart
        change Word32.add (unitOf t base) count ≤ t.maxUnits at h4
        have hrun : op.run t b base count = op.loop b (unitOf t base) count := by
          rw [run_eq op hc, hstart]
          rfl
        rcases loop_cases (b := b) op hcount.le with ⟨⟨b', hok⟩, hused⟩ | ⟨⟨msg, herr⟩, _⟩
        · have hacc : Accepted t b base count op := ⟨hc, h1, h2, h4, hused⟩
          have hlt : unitOf t base + count < 4294967296 := by
            by_contra hge
            exact hwrap ⟨hacc, Or.inl (by omega)⟩
          have hsize : t.maxUnits + 31 < 4294967296 := by
            by_contra hge
            exact hwrap ⟨hacc, Or.inr (by omega)⟩
          rw [Word32.add_eq hlt] at h4
          obtain ⟨hbits, hwords, htouch⟩ := loop_keeps (by omega) hok
          refine Or.inr ⟨b', hrun.trans hok, fun h => absurd h hc, fun _ => ⟨h4, fun k hk => ?_⟩,
            hbits, fun w hw => hwords w ?_⟩
          · obtain ⟨hlo, hhi⟩ := htouch k hk
            exact ⟨hlo, hhi, word_lt hsize (by omega)⟩
          · unfold bitmapSize at hw
            rw [Word32.add_eq hsize] at hw
            omega
        · exact Or.inl ⟨msg, hrun.trans herr⟩

/-- Two units of eight. -/
theorem stays_in_range_sample :
    StaysInRange ⟨0x800000, 8, 0x1000, by decide, by decide⟩ .empty 0x802000 2 .markUnitsUsed := by
  refine (stays_in_range_iff (by decide) (by decide) (by decide) _).2 ?_
  rintro ⟨_, hwrap⟩
  exact absurd hwrap (by decide)

/-- Marking 4294967295 units from the second of eight on passes the check and touches the unit
behind the last. -/
theorem mark_wraps_past :
    ¬ StaysInRange ⟨0x800000, 8, 0x1000, by decide, by decide⟩ .empty 0x801000 0xFFFFFFFF
        .markUnitsUsed ∧
      8 ∈ RangeOp.touches .empty (unitOf ⟨0x800000, 8, 0x1000, by decide, by decide⟩ 0x801000)
        0xFFFFFFFF .markUnitsUsed := by
  have hunit : unitOf ⟨0x800000, 8, 0x1000, by decide, by decide⟩ 0x801000 = 1 := by decide
  rw [hunit]
  constructor
  · rintro (⟨msg, herr⟩ | ⟨b', _, _, hrange, _⟩)
    · rw [run_eq _ (by decide), show startUnit _ (RangeOp.name .markUnitsUsed) 0x801000 0xFFFFFFFF =
        .ok 1 by decide] at herr
      cases herr
    · have := (hrange (by decide)).1
      exact absurd this (by decide)
  · exact List.mem_map.2 ⟨7, List.mem_range.2 (by decide), by decide⟩

end

end Bitmap

end Ospp
