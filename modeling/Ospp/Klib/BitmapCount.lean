import Ospp.Klib.Bitmap
import Ospp.Lib.Trans

/-!
# The account of the bitmap allocator

The allocator keeps a counter beside its bits. Three styles of update have to agree with the bits:
`alloc_units` and `free_units` change the counter once for a whole run, `mark_units_free` and
`mark_units_used` once for every bit they change, and `set` and `clear` overwrite it, `set` also
filling the padding bits of the last word. `bitmap_accounting_iff` says for which template arguments
they do in every run, and a unit stays with whoever got it from `alloc_units` until it is released:
the number of words and the address of a unit are computed in 32 bits and must not wrap.

The condition on a run is that no range passed to it wraps: `start + count` is checked in 32 bits.
-/

namespace Ospp

open Trans

namespace Bitmap

/-! ## The other operations -/

/-- `BITMAP_SIZE`. -/
def bitmapSize (t : BitmapSpec) : ℕ := Word32.add t.maxUnits 31 / 32

/-- The allocator as it is constructed, with these words behind its array. -/
def constructed (t : BitmapSpec) (behind : ℕ → ℕ) : Bitmap where
  words w := if w < bitmapSize t then 0 else behind w
  allocatedUnits := 0

def clear (t : BitmapSpec) (b : Bitmap) : Bitmap where
  words w := if w < bitmapSize t then 0 else b.words w
  allocatedUnits := 0

def set (t : BitmapSpec) (b : Bitmap) : Bitmap where
  words w := if w < bitmapSize t then 0xFFFFFFFF else b.words w
  allocatedUnits := t.maxUnits

def allocatedUnitCount (b : Bitmap) : ℕ := b.allocatedUnits

def freeUnitCount (t : BitmapSpec) (b : Bitmap) : ℕ := Word32.sub t.maxUnits b.allocatedUnits

/-- The first of the units that `alloc_units(count)` returns. -/
def allocUnit (t : BitmapSpec) (b : Bitmap) (count : ℕ) : Option ℕ :=
  b.allocSearch count (t.maxUnits - count) (t.maxUnits - count + 1) 0

inductive Act where
  | allocUnits (count : UInt32)
  | freeUnits (base count : UInt32)
  | markUnitsFree (base count : UInt32)
  | markUnitsUsed (base count : UInt32)
  | set
  | clear

/-- The address of a unit. -/
def unitAddr (t : BitmapSpec) (k : ℕ) : ℕ := Word32.add t.baseAddr (Word32.mul k t.unitSize)

/-- The unit an address stands for. -/
def unitAt (t : BitmapSpec) (base : UInt32) : ℕ := (base.toNat - t.baseAddr) / t.unitSize

def step (t : BitmapSpec) (b : Bitmap) : Act → K Bitmap
  | .allocUnits count => do
    let (b, _) ← b.allocUnits t count.toNat
    return b
  | .freeUnits base count => b.freeUnits t base.toNat count.toNat
  | .markUnitsFree base count => b.markUnitsFree t base.toNat count.toNat
  | .markUnitsUsed base count => b.markUnitsUsed t base.toNat count.toNat
  | .set => .ok (b.set t)
  | .clear => .ok (b.clear t)

def Step (t : BitmapSpec) (b : Bitmap) (a : Act) (b' : Bitmap) : Prop := b.step t a = .ok b'

theorem step_allocUnits {t : BitmapSpec} {b b' : Bitmap} {count : UInt32}
    (h : b.Step t (.allocUnits count) b') :
    ∃ addr, b.allocUnits t count.toNat = .ok (b', addr) := by
  unfold Step at h
  simp only [step, K.bind_eq_ok] at h
  obtain ⟨⟨b₁, addr⟩, ha, h⟩ := h
  obtain rfl : b₁ = b' := Except.ok.inj h
  exact ⟨addr, ha⟩

/-! ## Statements -/

/-- The range of units of a call does not wrap. -/
def Act.NoWrap (t : BitmapSpec) : Act → Prop
  | .freeUnits base count => unitAt t base + count.toNat < 4294967296
  | .markUnitsFree base count => unitAt t base + count.toNat < 4294967296
  | .markUnitsUsed base count => unitAt t base + count.toNat < 4294967296
  | _ => True

/-- The call releases unit `k`. -/
def Act.Releases (t : BitmapSpec) (k : ℕ) : Act → Prop
  | .freeUnits base count => unitAt t base ≤ k ∧ k < unitAt t base + count.toNat
  | .markUnitsFree base count => unitAt t base ≤ k ∧ k < unitAt t base + count.toNat
  | .clear => True
  | _ => False

/-- The units in use. -/
def usedUnits (t : BitmapSpec) (b : Bitmap) : Finset ℕ :=
  (Finset.range t.maxUnits).filter fun k => b.testBit k = true

/-- The units not in use. -/
def freeUnitsOf (t : BitmapSpec) (b : Bitmap) : Finset ℕ :=
  (Finset.range t.maxUnits).filter fun k => b.testBit k = false

/-- The counter is the number of units in use. -/
structure Exact (t : BitmapSpec) (b : Bitmap) : Prop where
  allocated : b.allocatedUnitCount = (usedUnits t b).card
  free : b.freeUnitCount t = (freeUnitsOf t b).card

/-- The counter does not go below zero: `free_units` subtracts no more than it holds, and in the
loops of `mark_units_free` and `mark_units_used` it is exact after every iteration. -/
def NoUnderflow (t : BitmapSpec) (b : Bitmap) : Act → Prop
  | .freeUnits base count => ∀ b', b.freeUnits t base.toNat count.toNat = .ok b' →
      count.toNat ≤ b.allocatedUnits
  | .markUnitsFree base count => ∀ b', b.markUnitsFree t base.toNat count.toNat = .ok b' →
      ∀ n ≤ count.toNat, Exact t (b.markRun false (unitAt t base) n 0)
  | .markUnitsUsed base count => ∀ b', b.markUnitsUsed t base.toNat count.toNat = .ok b' →
      ∀ n ≤ count.toNat, Exact t (b.markRun true (unitAt t base) n 0)
  | _ => True

/-! ## The counter and the bits -/

section

variable {t : BitmapSpec} {b b' : Bitmap}

theorem mem_usedUnits {k : ℕ} : k ∈ usedUnits t b ↔ k < t.maxUnits ∧ b.testBit k = true := by
  unfold usedUnits
  rw [Finset.mem_filter, Finset.mem_range]

theorem card_usedUnits_le (t : BitmapSpec) (b : Bitmap) : (usedUnits t b).card ≤ t.maxUnits := by
  have := Finset.card_filter_le (Finset.range t.maxUnits) fun k => b.testBit k = true
  rwa [Finset.card_range] at this

theorem card_usedUnits_add (t : BitmapSpec) (b : Bitmap) :
    (usedUnits t b).card + (freeUnitsOf t b).card = t.maxUnits := by
  have h := Finset.card_filter_add_card_filter_not (s := Finset.range t.maxUnits)
    fun k => b.testBit k = true
  rw [Finset.card_range] at h
  simp only [Bool.not_eq_true] at h
  exact h

/-- One count is enough. -/
theorem exact_of_allocated (ht : t.maxUnits < 4294967296)
    (h : b.allocatedUnits = (usedUnits t b).card) : Exact t b := by
  refine ⟨h, ?_⟩
  have hle := card_usedUnits_le t b
  have hadd := card_usedUnits_add t b
  unfold freeUnitCount
  rw [h, Word32.sub_eq ht hle]
  omega

theorem allocatedUnits_setRun (b : Bitmap) (i : ℕ) :
    ∀ n, (b.setRun i n).allocatedUnits = b.allocatedUnits := by
  intro n
  induction n with
  | zero => rfl
  | succ n ih => exact ih

/-- `alloc_units` and the unit it finds. -/
theorem allocUnits_found {count addr : ℕ} (h : b.allocUnits t count = .ok (b', addr)) :
    (count = 0 ∧ b' = b) ∨ ∃ i, b.allocUnit t count = some i ∧ i + count ≤ t.maxUnits ∧
      addr = Word32.add t.baseAddr (Word32.mul i t.unitSize) ∧
      (∀ j < count, b.testBit (i + j) = false) ∧
      (∀ k, b'.testBit k = (b.testBit k || decide (i ≤ k ∧ k < i + count))) ∧
      b'.allocatedUnits = Word32.add b.allocatedUnits count := by
  unfold allocUnits at h
  split_ifs at h with h0 hmax
  · cases h
    exact Or.inl ⟨h0, rfl⟩
  · cases hs : b.allocSearch count (t.maxUnits - count) (t.maxUnits - count + 1) 0 with
    | none => rw [hs] at h; cases h
    | some i =>
      rw [hs] at h
      cases h
      obtain ⟨hi, hfree⟩ := allocSearch_some hs
      refine Or.inr ⟨i, hs, by omega, rfl, hfree, fun k => testBit_setRun b i k count, ?_⟩
      dsimp only
      rw [allocatedUnits_setRun]

theorem exact_allocUnits {count addr : ℕ} (ht : t.maxUnits < 4294967296) (h : Exact t b)
    (ha : b.allocUnits t count = .ok (b', addr)) : Exact t b' := by
  rcases allocUnits_found ha with ⟨_, rfl⟩ | ⟨i, _, hle, _, hfree, hread, hcount⟩
  · exact h
  refine exact_of_allocated ht ?_
  have hused : usedUnits t b' = usedUnits t b ∪ Finset.Ico i (i + count) := by
    ext k
    rw [Finset.mem_union, mem_usedUnits, mem_usedUnits, Finset.mem_Ico, hread, Bool.or_eq_true,
      decide_eq_true_eq]
    constructor
    · rintro ⟨h1, h2 | h2⟩
      · exact Or.inl ⟨h1, h2⟩
      · exact Or.inr h2
    · rintro (⟨h1, h2⟩ | h2)
      · exact ⟨h1, Or.inl h2⟩
      · exact ⟨by omega, Or.inr h2⟩
  have hdisj : Disjoint (usedUnits t b) (Finset.Ico i (i + count)) := by
    rw [Finset.disjoint_left]
    intro k hk hin
    rw [Finset.mem_Ico] at hin
    have := hfree (k - i) (by omega)
    rw [show i + (k - i) = k by omega, (mem_usedUnits.1 hk).2] at this
    cases this
  have hcard : (usedUnits t b').card = (usedUnits t b).card + count := by
    rw [hused, Finset.card_union_of_disjoint hdisj, Nat.card_Ico, Nat.add_sub_cancel_left]
  have hbound := card_usedUnits_le t b'
  have halloc : b.allocatedUnits = (usedUnits t b).card := h.allocated
  rw [hcount, halloc, Word32.add_eq (by omega), hcard]

theorem allocatedUnits_freeRun {start : ℕ} : ∀ {n i : ℕ} {b b' : Bitmap},
    b.freeRun start n i = .ok b' → b'.allocatedUnits = b.allocatedUnits := by
  intro n
  induction n with
  | zero => intro i b b' h; cases h; rfl
  | succ n ih =>
    intro i b b' h
    rw [freeRun] at h
    split_ifs at h
    rw [ih h]
    rfl

/-- `free_units`: the units are in use and are taken from the count. -/
theorem freeUnits_found {base count : UInt32} (hw : unitAt t base + count.toNat < 4294967296)
    (h : b.freeUnits t base.toNat count.toNat = .ok b') :
    (count.toNat = 0 ∧ b' = b) ∨
      (unitAt t base + count.toNat ≤ t.maxUnits ∧
        (∀ k, unitAt t base ≤ k → k < unitAt t base + count.toNat → b.testBit k = true) ∧
        (∀ k, b'.testBit k =
          (b.testBit k && !decide (unitAt t base ≤ k ∧ k < unitAt t base + count.toNat))) ∧
        b'.allocatedUnits = Word32.sub b.allocatedUnits count.toNat) := by
  unfold freeUnits at h
  split_ifs at h with h0
  · cases h
    exact Or.inl ⟨h0, rfl⟩
  · simp only [K.bind_eq_ok] at h
    obtain ⟨start, hstart, b₁, hrun, hb⟩ := h
    cases hb
    obtain ⟨_, _, rfl, hrange⟩ := startUnit_eq_ok hstart
    change Word32.add (unitAt t base) count.toNat ≤ t.maxUnits at hrange
    change b.freeRun (unitAt t base) count.toNat 0 = .ok b₁ at hrun
    rw [Word32.add_eq hw] at hrange
    obtain ⟨hset, hread⟩ := freeRun_eq_ok (by omega) hrun
    simp only [Nat.add_zero] at hset hread
    refine Or.inr ⟨hrange, hset, hread, ?_⟩
    dsimp only
    rw [allocatedUnits_freeRun hrun]

theorem card_Ico_le_used {i n : ℕ} (hle : i + n ≤ t.maxUnits)
    (hset : ∀ k, i ≤ k → k < i + n → b.testBit k = true) :
    Finset.Ico i (i + n) ⊆ usedUnits t b := by
  intro k hk
  rw [Finset.mem_Ico] at hk
  exact mem_usedUnits.2 ⟨by omega, hset k hk.1 hk.2⟩

theorem exact_freeUnits {base count : UInt32} (ht : t.maxUnits < 4294967296) (h : Exact t b)
    (hw : unitAt t base + count.toNat < 4294967296)
    (hf : b.freeUnits t base.toNat count.toNat = .ok b') :
    Exact t b' ∧ count.toNat ≤ b.allocatedUnits := by
  have halloc : b.allocatedUnits = (usedUnits t b).card := h.allocated
  rcases freeUnits_found hw hf with ⟨h0, rfl⟩ | ⟨hle, hset, hread, hcount⟩
  · exact ⟨h, by omega⟩
  have hsub := card_Ico_le_used hle hset
  have hused : usedUnits t b' =
      usedUnits t b \ Finset.Ico (unitAt t base) (unitAt t base + count.toNat) := by
    ext k
    rw [Finset.mem_sdiff, mem_usedUnits, mem_usedUnits, Finset.mem_Ico, hread, Bool.and_eq_true,
      Bool.not_eq_true', decide_eq_false_iff_not, and_assoc]
  have hcard := Finset.card_sdiff_add_card_eq_card hsub
  rw [Nat.card_Ico, Nat.add_sub_cancel_left, ← hused] at hcard
  have hbound := card_usedUnits_le t b
  refine ⟨exact_of_allocated ht ?_, by omega⟩
  rw [hcount, halloc, Word32.sub_eq (by omega) (by omega)]
  omega

theorem exact_markOne {used : Bool} {k : ℕ} (ht : t.maxUnits < 4294967296) (hk : k < t.maxUnits)
    (h : Exact t b) : Exact t (b.markOne used k) := by
  have halloc : b.allocatedUnits = (usedUnits t b).card := h.allocated
  have hread := testBit_markOne used b k
  have hbound := card_usedUnits_le t (b.markOne used k)
  by_cases hbit : b.testBit k = used
  · unfold markOne
    rw [if_pos hbit]
    exact h
  · refine exact_of_allocated ht ?_
    cases used with
    | true =>
      have hused : usedUnits t (b.markOne true k) = insert k (usedUnits t b) := by
        ext j
        rw [Finset.mem_insert, mem_usedUnits, mem_usedUnits, hread]
        split_ifs with hj
        · rw [hj]; simp [hk]
        · simp [hj]
      have hnot : k ∉ usedUnits t b := fun hm => hbit (mem_usedUnits.1 hm).2
      have hcount : (b.markOne true k).allocatedUnits = Word32.add b.allocatedUnits 1 := by
        unfold markOne
        rw [if_neg hbit, if_pos rfl]
      rw [hused, Finset.card_insert_of_notMem hnot] at hbound ⊢
      rw [hcount, halloc, Word32.add_eq (by omega)]
    | false =>
      have hbit' : b.testBit k = true := by simpa using hbit
      have hused : usedUnits t (b.markOne false k) = (usedUnits t b).erase k := by
        ext j
        rw [Finset.mem_erase, mem_usedUnits, mem_usedUnits, hread]
        split_ifs with hj
        · rw [hj]; simp
        · simp [hj]
      have hmem : k ∈ usedUnits t b := mem_usedUnits.2 ⟨hk, hbit'⟩
      have hcount : (b.markOne false k).allocatedUnits = Word32.sub b.allocatedUnits 1 := by
        unfold markOne
        rw [if_neg hbit, if_neg Bool.false_ne_true]
      have hpos := Finset.card_pos.2 ⟨k, hmem⟩
      have hle := card_usedUnits_le t b
      rw [hused, hcount, halloc, Word32.sub_eq (by omega) hpos, Finset.card_erase_of_mem hmem]

theorem exact_markRun {used : Bool} {start : ℕ} (ht : t.maxUnits < 4294967296) :
    ∀ {n i : ℕ} {b : Bitmap}, start + i + n ≤ t.maxUnits → Exact t b →
      Exact t (b.markRun used start n i) := by
  intro n
  induction n with
  | zero => intro i b _ h; exact h
  | succ n ih =>
    intro i b hle h
    rw [markRun, Word32.add_eq (by omega)]
    exact ih (by omega) (exact_markOne ht (by omega) h)

/-- `mark_units_free` (`used` is false) or `mark_units_used`. -/
theorem markUnits_found {used : Bool} {fn : String} {base count : UInt32}
    (hw : unitAt t base + count.toNat < 4294967296)
    (h : (if count.toNat = 0 then .ok b
      else do
        let start ← startUnit t fn base.toNat count.toNat
        return b.markRun used start count.toNat 0 : K Bitmap) = .ok b') :
    (count.toNat = 0 ∧ b' = b) ∨ (unitAt t base + count.toNat ≤ t.maxUnits ∧
      b' = b.markRun used (unitAt t base) count.toNat 0) := by
  split_ifs at h with h0
  · cases h
    exact Or.inl ⟨h0, rfl⟩
  · rw [K.bind_eq_ok] at h
    obtain ⟨start, hstart, h⟩ := h
    cases h
    obtain ⟨_, _, rfl, hrange⟩ := startUnit_eq_ok hstart
    change Word32.add (unitAt t base) count.toNat ≤ t.maxUnits at hrange
    rw [Word32.add_eq hw] at hrange
    exact Or.inr ⟨hrange, rfl⟩

/-- The counter is exact after every iteration of their loop. -/
theorem exact_markUnits {used : Bool} {fn : String} {base count : UInt32}
    (ht : t.maxUnits < 4294967296) (h : Exact t b)
    (hw : unitAt t base + count.toNat < 4294967296)
    (hm : (if count.toNat = 0 then .ok b
      else do
        let start ← startUnit t fn base.toNat count.toNat
        return b.markRun used start count.toNat 0 : K Bitmap) = .ok b') :
    (∀ n ≤ count.toNat, Exact t (b.markRun used (unitAt t base) n 0)) ∧ Exact t b' := by
  rcases markUnits_found hw hm with ⟨h0, rfl⟩ | ⟨hle, rfl⟩
  · refine ⟨fun n hn => ?_, h⟩
    obtain rfl : n = 0 := by omega
    exact h
  · exact ⟨fun n hn => exact_markRun ht (by omega) h, exact_markRun ht (by omega) h⟩

/-- A unit of the allocator lies in one of the words `set` and `clear` overwrite. -/
theorem word_lt {k : ℕ} (ht : t.maxUnits + 31 < 4294967296) (hk : k < t.maxUnits) :
    k / 32 < bitmapSize t := by
  unfold bitmapSize
  rw [Word32.add_eq ht]
  omega

/-- The words that `set` and `clear` are to overwrite: there are none. -/
theorem bitmapSize_eq_zero (ht : t.maxUnits < 4294967296) (h : 4294967296 ≤ t.maxUnits + 31) :
    bitmapSize t = 0 := by
  unfold bitmapSize Word32.add
  omega

theorem testBit_set {k : ℕ} (ht : t.maxUnits + 31 < 4294967296) (hk : k < t.maxUnits) :
    (b.set t).testBit k = true := by
  unfold testBit set
  dsimp only
  rw [if_pos (word_lt ht hk), show (0xFFFFFFFF : ℕ) = 2 ^ 32 - 1 by norm_num,
    Nat.testBit_two_pow_sub_one]
  simp
  omega

theorem testBit_clear {k : ℕ} (ht : t.maxUnits + 31 < 4294967296) (hk : k < t.maxUnits) :
    (b.clear t).testBit k = false := by
  unfold testBit clear
  dsimp only
  rw [if_pos (word_lt ht hk), Nat.zero_testBit]

theorem exact_set (ht : t.maxUnits + 31 < 4294967296) (b : Bitmap) : Exact t (b.set t) := by
  refine exact_of_allocated (Nat.lt_of_add_right_lt ht) ?_
  have hused : usedUnits t (b.set t) = Finset.range t.maxUnits := by
    ext k
    rw [mem_usedUnits, Finset.mem_range]
    exact ⟨fun h => h.1, fun h => ⟨h, testBit_set ht h⟩⟩
  rw [hused, Finset.card_range]
  rfl

theorem exact_clear (ht : t.maxUnits + 31 < 4294967296) (b : Bitmap) : Exact t (b.clear t) := by
  refine exact_of_allocated (Nat.lt_of_add_right_lt ht) ?_
  have hused : usedUnits t (b.clear t) = ∅ := by
    rw [Finset.eq_empty_iff_forall_notMem]
    intro k hk
    obtain ⟨hlt, hbit⟩ := mem_usedUnits.1 hk
    rw [testBit_clear ht hlt] at hbit
    cases hbit
  rw [hused]
  rfl

theorem exact_constructed (ht : t.maxUnits + 31 < 4294967296) (behind : ℕ → ℕ) :
    Exact t (constructed t behind) := exact_clear ht ⟨behind, 0⟩

/-- **The counter** over one call. -/
theorem exact_step {a : Act} (ht : t.maxUnits + 31 < 4294967296) (h : Exact t b) (hw : a.NoWrap t)
    (hs : b.Step t a b') : Exact t b' := by
  have hlt := Nat.lt_of_add_right_lt ht
  cases a with
  | allocUnits count =>
    obtain ⟨addr, ha⟩ := step_allocUnits hs
    exact exact_allocUnits hlt h ha
  | freeUnits base count => exact (exact_freeUnits hlt h hw hs).1
  | markUnitsFree base count => exact (exact_markUnits hlt h hw hs).2
  | markUnitsUsed base count => exact (exact_markUnits hlt h hw hs).2
  | set => cases hs; exact exact_set ht b
  | clear => cases hs; exact exact_clear ht b

theorem exact_run {as : List Act} (ht : t.maxUnits + 31 < 4294967296) (hrun : Run (Step t) b as b')
    (hw : ∀ a ∈ as, a.NoWrap t) (h : Exact t b) : Exact t b' := by
  induction hrun with
  | nil b => exact h
  | cons hs _ ih =>
    exact ih (fun a ha => hw a (List.mem_cons_of_mem _ ha))
      (exact_step ht h (hw _ List.mem_cons_self) hs)

theorem noUnderflow_of_exact {a : Act} (ht : t.maxUnits < 4294967296) (h : Exact t b)
    (hw : a.NoWrap t) : NoUnderflow t b a := by
  cases a with
  | freeUnits base count => exact fun b' hf => (exact_freeUnits ht h hw hf).2
  | markUnitsFree base count => exact fun b' hm => (exact_markUnits ht h hw hm).1
  | markUnitsUsed base count => exact fun b' hm => (exact_markUnits ht h hw hm).1
  | _ => exact trivial

/-! ## Exclusive use -/

/-- A unit in use stays so over a call that does not release it. -/
theorem used_step {a : Act} {k : ℕ} (ht : t.maxUnits + 31 < 4294967296) (hw : a.NoWrap t)
    (hs : b.Step t a b') (hk : k < t.maxUnits) (hbit : b.testBit k = true)
    (hno : ¬ a.Releases t k) : b'.testBit k = true := by
  cases a with
  | allocUnits count =>
    obtain ⟨addr, ha⟩ := step_allocUnits hs
    rcases allocUnits_found ha with ⟨_, rfl⟩ | ⟨i, _, _, _, _, hread, _⟩
    · exact hbit
    · rw [hread, hbit, Bool.true_or]
  | freeUnits base count =>
    rcases freeUnits_found hw hs with ⟨_, rfl⟩ | ⟨_, _, hread, _⟩
    · exact hbit
    · have hout : ¬ (unitAt t base ≤ k ∧ k < unitAt t base + count.toNat) := hno
      rw [hread, hbit, decide_eq_false hout]
      rfl
  | markUnitsFree base count =>
    rcases markUnits_found hw hs with ⟨_, rfl⟩ | ⟨_, rfl⟩
    · exact hbit
    · have hout : ¬ (unitAt t base ≤ k ∧ k < unitAt t base + count.toNat) := hno
      rw [testBit_markRun _ _ _ _ (show _ ≤ _ from le_of_lt hw), Nat.add_zero, if_neg hout, hbit]
  | markUnitsUsed base count =>
    rcases markUnits_found hw hs with ⟨_, rfl⟩ | ⟨_, rfl⟩
    · exact hbit
    · rw [testBit_markRun _ _ _ _ (show _ ≤ _ from le_of_lt hw), hbit, ite_self]
  | set => cases hs; exact testBit_set ht hk
  | clear => exact absurd trivial hno

theorem used_run {as : List Act} {k : ℕ} (ht : t.maxUnits + 31 < 4294967296)
    (hrun : Run (Step t) b as b')
    (hw : ∀ a ∈ as, a.NoWrap t) (hk : k < t.maxUnits) (hbit : b.testBit k = true)
    (hno : ∀ a ∈ as, ¬ a.Releases t k) : b'.testBit k = true := by
  induction hrun with
  | nil b => exact hbit
  | cons hs _ ih =>
    exact ih (fun a ha => hw a (List.mem_cons_of_mem _ ha))
      (used_step ht (hw _ List.mem_cons_self) hs hk hbit (hno _ List.mem_cons_self))
      fun a ha => hno a (List.mem_cons_of_mem _ ha)

/-! ## Addresses -/

theorem add_mul_unitAddr (t : BitmapSpec) (i j : ℕ) :
    Word32.add (unitAddr t i) (Word32.mul j t.unitSize) = unitAddr t (i + j) := by
  unfold unitAddr Word32.add Word32.mul
  rw [Nat.add_mul]
  omega

/-- The addresses repeat after so many units. -/
theorem unitAddr_period (t : BitmapSpec) :
    unitAddr t (4294967296 / Nat.gcd 4294967296 t.unitSize) = unitAddr t 0 := by
  obtain ⟨q, hq⟩ := Nat.gcd_dvd_right 4294967296 t.unitSize
  have hmul : 4294967296 / Nat.gcd 4294967296 t.unitSize * t.unitSize = 4294967296 * q := by
    calc 4294967296 / Nat.gcd 4294967296 t.unitSize * t.unitSize
        = 4294967296 / Nat.gcd 4294967296 t.unitSize * (Nat.gcd 4294967296 t.unitSize * q) :=
          congrArg _ hq
      _ = 4294967296 * q := by
          rw [← Nat.mul_assoc, Nat.div_mul_cancel (Nat.gcd_dvd_left 4294967296 t.unitSize)]
  unfold unitAddr Word32.add Word32.mul
  rw [hmul, Nat.mul_mod_right, Nat.zero_mul]

/-- Where they do not, a unit is known by its address. -/
theorem unitAddr_inj (hfit : t.maxUnits * Nat.gcd 4294967296 t.unitSize ≤ 4294967296) {k k' : ℕ}
    (hk : k < t.maxUnits) (hk' : k' < t.maxUnits) (h : unitAddr t k = unitAddr t k') : k = k' := by
  have hmod : k * t.unitSize ≡ k' * t.unitSize [MOD 4294967296] := by
    unfold unitAddr Word32.add Word32.mul at h
    show _ % _ = _ % _
    omega
  have hg : 0 < Nat.gcd 4294967296 t.unitSize := Nat.gcd_pos_of_pos_left _ (by norm_num)
  have hle : t.maxUnits ≤ 4294967296 / Nat.gcd 4294967296 t.unitSize :=
    (Nat.le_div_iff_mul_le hg).2 hfit
  exact (hmod.cancel_right_div_gcd (by norm_num)).eq_of_lt_of_lt (hk.trans_le hle)
    (hk'.trans_le hle)

/-- The address is that of a unit that the call releases. -/
def Act.ReleasesAt (t : BitmapSpec) (x : ℕ) (a : Act) : Prop :=
  ∃ k < t.maxUnits, unitAddr t k = x ∧ a.Releases t k

/-- Of the units at the addresses that one call returned, none is returned by a later call before it
is released. -/
def Exclusive (t : BitmapSpec) (b : Bitmap) : Prop :=
  ∀ (count : UInt32) b₁ addr, b.allocUnits t count.toNat = .ok (b₁, addr) →
    ∀ bs b₂, (∀ a ∈ bs, a.NoWrap t) → Run (Step t) b₁ bs b₂ →
      ∀ (count' : UInt32) b₃ addr', b₂.allocUnits t count'.toNat = .ok (b₃, addr') →
        ∀ j < count.toNat, ∀ j' < count'.toNat,
          Word32.add addr (Word32.mul j t.unitSize) = Word32.add addr' (Word32.mul j' t.unitSize) →
            ∃ a ∈ bs, a.ReleasesAt t (Word32.add addr (Word32.mul j t.unitSize))

theorem exclusive (ht : t.maxUnits + 31 < 4294967296)
    (hfit : t.maxUnits * Nat.gcd 4294967296 t.unitSize ≤ 4294967296) : Exclusive t b := by
  intro count b₁ addr ha bs b₂ hwb hbs count' b₃ addr' ha' j hj j' hj' haddr
  rcases allocUnits_found ha with ⟨h0, _⟩ | ⟨i, _, hle, rfl, _, hread, _⟩
  · omega
  rcases allocUnits_found ha' with ⟨h0, _⟩ | ⟨i', _, hle', rfl, hfree, _⟩
  · omega
  change Word32.add (unitAddr t i) _ = Word32.add (unitAddr t i') _ at haddr
  change ∃ a ∈ bs, a.ReleasesAt t (Word32.add (unitAddr t i) _)
  rw [add_mul_unitAddr] at haddr ⊢
  rw [add_mul_unitAddr] at haddr
  have hsame : i + j = i' + j' := unitAddr_inj hfit (by omega) (by omega) haddr
  by_contra hno
  have hbit : b₁.testBit (i + j) = true := by
    rw [hread, decide_eq_true ⟨by omega, by omega⟩, Bool.or_true]
  have hlater := used_run ht hbs hwb (by omega) hbit fun a hab hr =>
    hno ⟨a, hab, i + j, by omega, rfl, hr⟩
  have hunused := hfree j' hj'
  rw [← hsame, hlater] at hunused
  cases hunused

/-- Where a run of free units starts at `k` and every unit below is in use, it is the run that is
allocated next. -/
theorem exists_allocUnits_at {count k : ℕ} (hpos : 0 < count) (hk : k + count ≤ t.maxUnits)
    (hfree : ∀ j < count, b.testBit (k + j) = false) (hlow : ∀ j < k, b.testBit j = true) :
    ∃ b', b.allocUnits t count = .ok (b', unitAddr t k) ∧
      ∀ j, b'.testBit j = (b.testBit j || decide (k ≤ j ∧ j < k + count)) := by
  obtain ⟨i, hle, hi⟩ : ∃ i ≤ k,
      b.allocSearch count (t.maxUnits - count) (t.maxUnits - count + 1) 0 = some i :=
    allocSearch_complete (by omega) hfree (Nat.zero_le k) (by omega)
  have hik : i = k := by
    by_contra hc
    have hunused := (allocSearch_some hi).2 0 hpos
    rw [Nat.add_zero, hlow i (by omega)] at hunused
    cases hunused
  subst hik
  unfold allocUnits
  rw [if_neg (by omega), if_neg (by omega), hi]
  exact ⟨_, rfl, fun j => testBit_setRun b i j count⟩

end

/-- What is asked of the allocator with these template arguments: after any calls without a wrapping
range the counts are those of the bits, no call lets the counter go below zero, and a unit is not
handed out twice. -/
def Accounts (t : BitmapSpec) : Prop :=
  ∀ (behind : ℕ → ℕ) (as : List Act), (∀ a ∈ as, a.NoWrap t) →
    ∀ b, Run (Step t) (constructed t behind) as b →
      Exact t b ∧ (∀ a : Act, a.NoWrap t → NoUnderflow t b a) ∧ Exclusive t b

/-- `BITMAP_SIZE` is zero: `set` counts units whose bits it does not set. -/
theorem not_accounts_of_size {t : BitmapSpec} (ht : t.maxUnits < 4294967296)
    (h : 4294967296 ≤ t.maxUnits + 31) : ¬ Accounts t := by
  intro hacc
  have hrun : Run (Step t) (constructed t fun _ => 0) [.set] ((constructed t fun _ => 0).set t) :=
    .cons rfl (.nil _)
  obtain ⟨⟨hcount, _⟩, _⟩ := hacc (fun _ => 0) [.set] (by simp [Act.NoWrap]) _ hrun
  have hnone : usedUnits t ((constructed t fun _ => 0).set t) = ∅ := by
    rw [Finset.eq_empty_iff_forall_notMem]
    intro k hk
    obtain ⟨_, hbit⟩ := mem_usedUnits.1 hk
    unfold testBit set constructed at hbit
    simp [bitmapSize_eq_zero ht h] at hbit
  rw [hnone] at hcount
  exact t.maxUnits_pos.ne' hcount

/-- The unit behind a whole period of addresses has the address of the first one. -/
theorem not_accounts_of_repeat {t : BitmapSpec} (ht : t.maxUnits < 4294967296)
    (h : 4294967296 < t.maxUnits * Nat.gcd 4294967296 t.unitSize) : ¬ Accounts t := by
  intro hacc
  have hg : 0 < Nat.gcd 4294967296 t.unitSize := Nat.gcd_pos_of_pos_left _ (by norm_num)
  have hperiod := unitAddr_period t
  obtain ⟨P, hP⟩ : ∃ P, P = 4294967296 / Nat.gcd 4294967296 t.unitSize := ⟨_, rfl⟩
  rw [← hP] at hperiod
  have hlt : P < t.maxUnits := by
    rw [hP]
    exact Nat.div_lt_of_lt_mul (by rwa [Nat.mul_comm] at h)
  have hpos : 0 < P := by
    rw [hP]
    exact Nat.div_pos (Nat.le_of_dvd (by norm_num) (Nat.gcd_dvd_left _ _)) hg
  have hnat : (UInt32.ofNat P).toNat = P := by
    rw [UInt32.toNat_ofNat']
    omega
  obtain ⟨_, _, hexcl⟩ := hacc (fun _ => 0) [] (fun a ha => absurd ha List.not_mem_nil) _ (.nil _)
  have hempty : ∀ k, (constructed t fun _ => 0).testBit k = false := by
    intro k
    unfold testBit constructed
    simp
  obtain ⟨b₁, ha, hread⟩ := exists_allocUnits_at (t := t) (b := constructed t fun _ => 0) (k := 0)
    hpos (by omega) (fun j _ => hempty (0 + j)) fun j hj => absurd hj (Nat.not_lt_zero j)
  -- the first period is in use, so the next unit is the one behind it
  obtain ⟨b₂, ha', _⟩ := exists_allocUnits_at (t := t) (b := b₁) (k := P) one_pos
    (Nat.succ_le_of_lt hlt)
    (fun j hj => by
      rw [hread, hempty, decide_eq_false (by omega)]
      rfl)
    fun j hj => by
      rw [hread, decide_eq_true (by omega), Bool.or_true]
  rw [hperiod] at ha'
  rw [← hnat] at ha
  obtain ⟨a, ha, _⟩ := hexcl (UInt32.ofNat P) b₁ _ ha [] b₁
    (fun a ha => absurd ha List.not_mem_nil) (.nil _) 1 b₂ _ ha' 0 (by omega) 0 (by decide) rfl
  exact absurd ha List.not_mem_nil

/-- **Accounting and exclusive use.** They hold of the template arguments for which the number of
words does not wrap and no two units have the same address. -/
theorem bitmap_accounting_iff (t : BitmapSpec) (ht : t.maxUnits < 4294967296) :
    Accounts t ↔ t.maxUnits ≤ 0xFFFFFFE0 ∧
      t.maxUnits * Nat.gcd 4294967296 t.unitSize ≤ 4294967296 := by
  constructor
  · intro hacc
    refine ⟨?_, ?_⟩
    · by_contra hc
      exact not_accounts_of_size ht (by omega) hacc
    · by_contra hc
      exact not_accounts_of_repeat ht (by omega) hacc
  · rintro ⟨hsize, hfit⟩ behind as hw b hrun
    have hlt : t.maxUnits + 31 < 4294967296 := by omega
    have hexact := exact_run hlt hrun hw (exact_constructed hlt behind)
    exact ⟨hexact, fun a ha => noUnderflow_of_exact ht hexact ha, exclusive hlt hfit⟩

/-- Forty units: three are taken and two of them given back, then everything is set and a range
across the word boundary is marked free. -/
theorem bitmap_accounting_iff_sample :
    ∃ b, Run (Step ⟨0x1000, 40, 16, by decide, by decide⟩)
        (constructed ⟨0x1000, 40, 16, by decide, by decide⟩ fun _ => 7)
        [.allocUnits 3, .freeUnits 0x1000 2, .set, .markUnitsFree 0x11E0 4] b ∧
      b.allocatedUnitCount = 36 ∧ Exact ⟨0x1000, 40, 16, by decide, by decide⟩ b ∧
      Exclusive ⟨0x1000, 40, 16, by decide, by decide⟩ b := by
  obtain ⟨b, hw, hp⟩ := K.exists_of_holds
    (x := do
      let b ← step ⟨0x1000, 40, 16, by decide, by decide⟩
        (constructed ⟨0x1000, 40, 16, by decide, by decide⟩ fun _ => 7) (.allocUnits 3)
      let b ← step ⟨0x1000, 40, 16, by decide, by decide⟩ b (.freeUnits 0x1000 2)
      let b ← step ⟨0x1000, 40, 16, by decide, by decide⟩ b .set
      step ⟨0x1000, 40, 16, by decide, by decide⟩ b (.markUnitsFree 0x11E0 4))
    (p := fun b => b.allocatedUnitCount == 36) (by decide +kernel)
  simp only [K.bind_eq_ok] at hw
  obtain ⟨b₁, h₁, b₂, h₂, b₃, h₃, h₄⟩ := hw
  have hrun : Run (Step ⟨0x1000, 40, 16, by decide, by decide⟩)
      (constructed ⟨0x1000, 40, 16, by decide, by decide⟩ fun _ => 7)
      [.allocUnits 3, .freeUnits 0x1000 2, .set, .markUnitsFree 0x11E0 4] b :=
    .cons h₁ (.cons h₂ (.cons h₃ (.cons h₄ (.nil _))))
  have hacc := (bitmap_accounting_iff ⟨0x1000, 40, 16, by decide, by decide⟩ (by decide)).2
    ⟨by decide, by decide⟩
  obtain ⟨hexact, _, hexcl⟩ := hacc _ _ (by
    simp only [List.forall_mem_cons, List.not_mem_nil, false_implies, implies_true, and_true]
    unfold Act.NoWrap unitAt
    decide) b hrun
  exact ⟨b, hrun, by simpa using hp, hexact, hexcl⟩

/-- An array without words, and two million pages in an address space of one million. -/
theorem bitmap_accounting_fails : ¬ Accounts ⟨0, 0xFFFFFFE1, 1, by decide, by decide⟩ ∧
    ¬ Accounts ⟨0, 0x200000, 0x1000, by decide, by decide⟩ :=
  ⟨not_accounts_of_size (by decide) (by decide), not_accounts_of_repeat (by decide) (by decide)⟩

end Bitmap

end Ospp
