import Ospp.Klib.CString
import Ospp.Lib.Traced

/-!
# ACPI tables

`sys/acpi.hpp`: `init` looks for the root pointer (RSDP) in the memory of the BIOS, takes the root
table from it and checks both sums; `find_sdth` looks through the root table for a table with a
given signature.

The tables are in memory that does not change, and every access is an event, in order. The loops
are taken together to what they compute and read: `findRsdp_spec`, `validateChecksum_eq`,
`find_spec`. With these `findsRsdp_iff` says when the search and the check agree on a root pointer,
and `respectsInit_iff` when `find_sdth` looks where `init` has checked.
-/

namespace Ospp

/-- What the ACPI code does: it reads `len` bytes at an address, or an entry of the root table, and
it maps and unmaps pages. -/
inductive AcpiEvent where
  | read (addr len : ℕ)
  | entry (addr width : ℕ)
  | mapIdentityPage (addr : ℕ)
  | mapIdentitySpan (addr size : ℕ)
  | unmapPage (addr : ℕ)
  deriving DecidableEq

/-- The event is the read of an entry of the root table. -/
def AcpiEvent.isEntry : AcpiEvent → Bool
  | .entry _ _ => true
  | _ => false

/-- The event maps something. -/
def AcpiEvent.Maps : AcpiEvent → Prop
  | .mapIdentityPage _ | .mapIdentitySpan _ _ => True
  | _ => False

/-- The static members; a null pointer is 0. -/
structure Acpi where
  rsdp : ℕ
  rsdt : ℕ
  deriving DecidableEq

namespace Acpi

abbrev Run (α : Type) := Traced AcpiEvent Halt α

/-! ## The source -/

def acpiScanBase : ℕ := 0xE0000

def acpiScanEnd : ℕ := 0x100000

section Source

variable (m : Mem)

def read8 (a : ℕ) : Run UInt8 := do
  Traced.emit (.read a 1)
  return m.read8 a

def read32 (a : ℕ) : Run ℕ := do
  Traced.emit (.read a 4)
  return m.read32 a

/-- The low half of a 64-bit field. -/
def read64 (a : ℕ) : Run ℕ := do
  Traced.emit (.read a 8)
  return m.read32 a

/-- `strncmp(s1, s2, len)` for a literal `s2`, from character `i` on. -/
def strncmp (s1 : ℕ) (s2 : List UInt8) : ℕ → ℕ → Run ℤ
  | 0, _ => pure 0
  | len + 1, i => do
    let c1 ← read8 m (s1 + i)
    let c2 := s2.getD i 0
    if c1 ≠ c2 then return (c1.toNat : ℤ) - c2.toNat
    else if c1 = 0 then return 0
    else strncmp s1 s2 len (i + 1)

/-- `sum += ((uint8_t*)data)[i]`. -/
def sumLoop (data : ℕ) : ℕ → ℕ → UInt8 → Run UInt8
  | 0, _, sum => pure sum
  | n + 1, i, sum => do
    let b ← read8 m (data + i)
    sumLoop data n (i + 1) (sum + b)

def validateChecksum (data length : ℕ) : Run Bool := do
  let sum ← sumLoop m data length 0 0
  return sum == 0

/-- `validate_checksum` of a table, over the length in its header. -/
def validateHeader (hdr : ℕ) : Run Bool := do
  let length ← read32 m (hdr + 4)
  validateChecksum m hdr length

/-- The loop of `find_rsdp`. The first argument bounds its rounds. -/
def findRsdpFrom : ℕ → ℕ → Run ℕ
  | 0, _ => pure 0
  | n + 1, ptr =>
    if ptr < acpiScanEnd then do
      let c ← strncmp m ptr (ascii "RSD PTR ") 8 0
      if c = 0 then return ptr else findRsdpFrom n (ptr + 4)
    else pure 0

def findRsdp : Run ℕ := findRsdpFrom m ((acpiScanEnd - acpiScanBase) / 4 + 1) acpiScanBase

/-- `init`; both pointers are null before it. -/
def init : Run Acpi := do
  let rsdp ← findRsdp m
  if rsdp = 0 then return ⟨rsdp, 0⟩
  else do
    let revision ← read8 m (rsdp + 15)
    let valid ← validateChecksum m rsdp (if revision = 0 then 20 else 36)
    if !valid then return ⟨rsdp, 0⟩
    else do
      let revision ← read8 m (rsdp + 15)
      let rsdt ← (if revision = 0 then read32 m (rsdp + 16) else read64 m (rsdp + 24) : Run ℕ)
      if rsdt = 0 then return ⟨rsdp, rsdt⟩
      else do
        Traced.emit (.mapIdentityPage rsdt)
        let valid ← validateHeader m rsdt
        if !valid then do
          Traced.emit (.unmapPage rsdt)
          return ⟨rsdp, rsdt⟩
        else do
          let length ← read32 m (rsdt + 4)
          Traced.emit (.mapIdentitySpan rsdt length)
          return ⟨rsdp, rsdt⟩

/-- `root->other_sdts[i]`, for entries of `width` bytes. -/
def otherSdts (root width i : ℕ) : ℕ := m.read32 (root + 36 + width * i)

/-- The loop of `find_sdth` over the entries from `i` on, of `width` bytes each; there are `n`. -/
def find (signature width root : ℕ) : ℕ → ℕ → Run ℕ
  | 0, _ => pure 0
  | n + 1, i => do
    Traced.emit (.entry (root + 36 + width * i) width)
    let header := otherSdts m root width i
    let num ← read32 m header
    if num = signature then do
      let valid ← validateHeader m header
      if valid then return header else find signature width root n (i + 1)
    else find signature width root n (i + 1)

/-- `find_sdth`, for the word of a signature. -/
def findSdth (s : Acpi) (signature : ℕ) : Run ℕ :=
  if s.rsdp = 0 then pure 0
  else do
    let revision ← read8 m (s.rsdp + 15)
    let length ← read32 m (s.rsdt + 4)
    if 2 ≤ revision then find m signature 8 s.rsdt (Word32.sub length 36 / 8) 0
    else find m signature 4 s.rsdt (Word32.sub length 36 / 4) 0

end Source

/-! ## Sums and signatures -/

/-- The sum of the bytes is zero. -/
def SumOk (m : Mem) (a n : ℕ) : Prop := (List.range n).foldl (fun s i => s + m.read8 (a + i)) 0 = 0

instance (m : Mem) (a n : ℕ) : Decidable (SumOk m a n) :=
  inferInstanceAs (Decidable (_ = _))

/-- The reads of `n` bytes. -/
def byteReads (a n : ℕ) : List AcpiEvent := (List.range n).map fun i => .read (a + i) 1

/-- The length in the header of a table. -/
def tableLength (m : Mem) (a : ℕ) : ℕ := m.read32 (a + 4)

/-- The check of a table passes. -/
def TableOk (m : Mem) (a : ℕ) : Prop := SumOk m a (tableLength m a)

instance (m : Mem) (a : ℕ) : Decidable (TableOk m a) :=
  inferInstanceAs (Decidable (SumOk _ _ _))

/-- What `validate_checksum` reads of a table. -/
def tableReads (m : Mem) (a : ℕ) : List AcpiEvent :=
  .read (a + 4) 4 :: byteReads a (tableLength m a)

section Eq

variable {m : Mem}

theorem read8_eq (a : ℕ) : read8 m a = ⟨[.read a 1], .ok (m.read8 a)⟩ := rfl

theorem read32_eq (a : ℕ) : read32 m a = ⟨[.read a 4], .ok (m.read32 a)⟩ := rfl

theorem sumLoop_eq (data : ℕ) : ∀ (n i : ℕ) (sum : UInt8), sumLoop m data n i sum =
    ⟨(List.range' i n).map fun j => .read (data + j) 1,
      .ok ((List.range' i n).foldl (fun s j => s + m.read8 (data + j)) sum)⟩ := by
  intro n
  induction n with
  | zero => intro i sum; rfl
  | succ n ih =>
    intro i sum
    rw [sumLoop, read8_eq, Traced.mk_bind, ih, List.range'_succ]
    rfl

theorem validateChecksum_eq (data length : ℕ) : validateChecksum m data length =
    ⟨byteReads data length, .ok (decide (SumOk m data length))⟩ := by
  rw [validateChecksum, sumLoop_eq, Traced.mk_bind, ← List.range_eq_range', byteReads]
  show Traced.mk _ _ = Traced.mk _ _
  rw [Traced.trace_pure, List.append_nil]
  rfl

theorem validateHeader_eq (hdr : ℕ) : validateHeader m hdr =
    ⟨tableReads m hdr, .ok (decide (TableOk m hdr))⟩ := by
  rw [validateHeader, read32_eq, Traced.mk_bind, validateChecksum_eq]
  rfl

/-- The comparison with a literal, and what it reads. -/
theorem strncmp_spec {p : ℕ} {s : List UInt8} (hnul : 0 ∉ s) : ∀ (n i : ℕ), i + n = s.length →
    ∃ t v, strncmp m p s n i = ⟨t, .ok v⟩ ∧ (v = 0 ↔ m.Holds (p + i) (s.drop i)) ∧
      ∀ e ∈ t, ∃ j < s.length, e = .read (p + j) 1 := by
  intro n
  induction n with
  | zero =>
    intro i hi
    refine ⟨[], 0, rfl, ?_, fun e he => absurd he List.not_mem_nil⟩
    rw [List.drop_eq_nil_of_le (by omega)]
    exact iff_of_true rfl trivial
  | succ n ih =>
    intro i hi
    have hlt : i < s.length := by omega
    have hchar : s.getD i 0 = s[i] := List.getD_eq_getElem _ _ hlt
    rw [strncmp, read8_eq, Traced.mk_bind, List.drop_eq_getElem_cons hlt, hchar]
    by_cases hne : m.read8 (p + i) ≠ s[i]
    · refine ⟨[.read (p + i) 1], (m.read8 (p + i)).toNat - (s[i]).toNat, ?_, ?_, ?_⟩
      · rw [if_pos hne]
        rfl
      · refine iff_of_false (fun h => hne ?_) fun h => hne h.1
        apply UInt8.toNat_inj.1
        omega
      · intro e he
        exact ⟨i, hlt, List.mem_singleton.1 he⟩
    · have heq : m.read8 (p + i) = s[i] := not_not.1 hne
      have hzero : ¬ m.read8 (p + i) = 0 := by
        rw [heq]
        exact fun h => hnul (h ▸ List.getElem_mem hlt)
      obtain ⟨t, v, hrun, hv, ht⟩ := ih (i + 1) (by omega)
      refine ⟨.read (p + i) 1 :: t, v, ?_, ?_, ?_⟩
      · rw [if_neg hne, if_neg hzero, hrun]
        rfl
      · rw [hv]
        exact ⟨fun h => ⟨heq, h⟩, fun h => h.2⟩
      · intro e he
        obtain rfl | he := List.mem_cons.1 he
        · exact ⟨i, hlt, rfl⟩
        · exact ht e he

end Eq

/-! ## The root pointer -/

/-- The signature of a root pointer stands at `q`, where the search looks. -/
structure Match (m : Mem) (q : ℕ) : Prop where
  base : acpiScanBase ≤ q
  lt_end : q < acpiScanEnd
  aligned : q % 4 = 0
  holds : m.Holds q (ascii "RSD PTR ")

/-- The first one. -/
def FirstMatch (m : Mem) (q : ℕ) : Prop := Match m q ∧ ∀ q' < q, ¬ Match m q'

theorem FirstMatch.unique {m : Mem} {q q' : ℕ} (h : FirstMatch m q) (h' : FirstMatch m q') :
    q = q' := by
  by_contra hne
  obtain hlt | hlt := Nat.lt_or_gt_of_ne hne
  · exact h'.2 q hlt h.1
  · exact h.2 q' hlt h'.1

theorem exists_firstMatch {m : Mem} {q : ℕ} (h : Match m q) : ∃ q', FirstMatch m q' ∧ q' ≤ q := by
  induction q using Nat.strong_induction_on with
  | _ q ih =>
    by_cases hfirst : ∀ q' < q, ¬ Match m q'
    · exact ⟨q, ⟨h, hfirst⟩, le_refl q⟩
    · push Not at hfirst
      obtain ⟨q', hlt, hq'⟩ := hfirst
      obtain ⟨q'', hq'', hle⟩ := ih q' hlt hq'
      exact ⟨q'', hq'', by omega⟩

/-- Nothing but reads where the search looks. -/
def ScanReads (t : List AcpiEvent) : Prop :=
  ∀ e ∈ t, ∃ a, acpiScanBase ≤ a ∧ a < acpiScanEnd + 8 ∧ e = .read a 1

theorem findRsdpFrom_spec {m : Mem} : ∀ (n ptr : ℕ), acpiScanBase ≤ ptr → ptr % 4 = 0 →
    acpiScanEnd < ptr + 4 * n → (∀ q < ptr, ¬ Match m q) →
      ∃ t q, findRsdpFrom m n ptr = ⟨t, .ok q⟩ ∧ ScanReads t ∧
        (FirstMatch m q ∨ q = 0 ∧ ∀ q, ¬ Match m q) := by
  intro n
  induction n with
  | zero =>
    intro ptr _ _ hend hnone
    refine ⟨[], 0, rfl, fun e he => absurd he List.not_mem_nil, Or.inr ⟨rfl, fun q hq => ?_⟩⟩
    exact hnone q (by have := hq.lt_end; omega) hq
  | succ n ih =>
    intro ptr hbase halign hend hnone
    rw [findRsdpFrom]
    by_cases hlt : ptr < acpiScanEnd
    · obtain ⟨t, v, hcmp, hv, ht⟩ := strncmp_spec (m := m) (p := ptr) (s := ascii "RSD PTR ")
        (by decide) 8 0 rfl
      have hscan : ScanReads t := by
        intro e he
        obtain ⟨j, hj, rfl⟩ := ht e he
        have hj : j < 8 := hj
        exact ⟨ptr + j, by omega, by omega, rfl⟩
      rw [if_pos hlt, hcmp, Traced.mk_bind]
      by_cases hzero : v = 0
      · rw [if_pos hzero]
        refine ⟨t, ptr, by rw [Traced.trace_pure, List.append_nil]; rfl, hscan, Or.inl ⟨?_, hnone⟩⟩
        exact ⟨hbase, hlt, halign, hv.1 hzero⟩
      · rw [if_neg hzero]
        obtain ⟨t', q, hrun, hscan', hq⟩ := ih (ptr + 4) (by omega) (by omega) (by omega) (by
          intro q hq hmatch
          have halign' := hmatch.aligned
          obtain hq | rfl : q < ptr ∨ q = ptr := by omega
          · exact hnone q hq hmatch
          · exact hzero (hv.2 hmatch.holds))
        refine ⟨t ++ t', q, by rw [hrun], fun e he => ?_, hq⟩
        obtain he | he := List.mem_append.1 he
        · exact hscan e he
        · exact hscan' e he
    · rw [if_neg hlt]
      refine ⟨[], 0, rfl, fun e he => absurd he List.not_mem_nil, Or.inr ⟨rfl, fun q hq => ?_⟩⟩
      exact hnone q (by have := hq.lt_end; omega) hq

/-- `find_rsdp` returns the first occurrence of the signature, or null. -/
theorem findRsdp_spec (m : Mem) : ∃ t q, findRsdp m = ⟨t, .ok q⟩ ∧ ScanReads t ∧
    (FirstMatch m q ∨ q = 0 ∧ ∀ q, ¬ Match m q) :=
  findRsdpFrom_spec _ _ (le_refl _) (by decide) (by decide) fun q hq hmatch => by
    have := hmatch.base
    omega

/-- How much of the root pointer the check sums. -/
def rsdpSize (m : Mem) (q : ℕ) : ℕ := if m.read8 (q + 15) = 0 then 20 else 36

/-- The check of the root pointer passes. -/
def RsdpOk (m : Mem) (q : ℕ) : Prop := SumOk m q (rsdpSize m q)

instance (m : Mem) (q : ℕ) : Decidable (RsdpOk m q) :=
  inferInstanceAs (Decidable (SumOk _ _ _))

/-- The root table a root pointer selects. -/
def rootOf (m : Mem) (q : ℕ) : ℕ :=
  m.read32 (if m.read8 (q + 15) = 0 then q + 16 else q + 24)

/-- What `init` does with a root table. -/
def rootEvents (m : Mem) (r : ℕ) : List AcpiEvent :=
  .mapIdentityPage r :: tableReads m r ++
    if TableOk m r then [.read (r + 4) 4, .mapIdentitySpan r (tableLength m r)] else [.unmapPage r]

/-- What `init` does with a root pointer. -/
def rsdpEvents (m : Mem) (q : ℕ) : List AcpiEvent :=
  .read (q + 15) 1 :: byteReads q (rsdpSize m q) ++
    if RsdpOk m q then
      .read (q + 15) 1 :: (if m.read8 (q + 15) = 0 then .read (q + 16) 4 else .read (q + 24) 8) ::
        if rootOf m q = 0 then [] else rootEvents m (rootOf m q)
    else []

/-- `init` without a root pointer. -/
theorem init_none {m : Mem} (h : ∀ q, ¬ Match m q) :
    ∃ t, init m = ⟨t, .ok ⟨0, 0⟩⟩ ∧ ScanReads t := by
  obtain ⟨t, q, hrun, hscan, hq | ⟨rfl, _⟩⟩ := findRsdp_spec m
  · exact absurd hq.1 (h q)
  · refine ⟨t, ?_, hscan⟩
    rw [init, hrun, Traced.mk_bind, if_pos rfl, Traced.trace_pure, List.append_nil]
    rfl

/-- `init` with the first occurrence of the signature. -/
theorem init_some {m : Mem} {q : ℕ} (h : FirstMatch m q) :
    ∃ t, ScanReads t ∧
      init m = ⟨t ++ rsdpEvents m q, .ok ⟨q, if RsdpOk m q then rootOf m q else 0⟩⟩ := by
  obtain ⟨t, q', hrun, hscan, hq' | ⟨_, hnone⟩⟩ := findRsdp_spec m
  swap
  · exact absurd h.1 (hnone q)
  obtain rfl := hq'.unique h
  have hq0 : q' ≠ 0 := by
    have := h.1.base
    unfold acpiScanBase at this
    omega
  refine ⟨t, hscan, ?_⟩
  rw [init, hrun, Traced.mk_bind, if_neg hq0, read8_eq, Traced.mk_bind, validateChecksum_eq,
    Traced.mk_bind, rsdpEvents]
  change Traced.mk (t ++ (_ :: (byteReads q' (rsdpSize m q') ++
    (if (!decide (RsdpOk m q')) = true then _ else _ : Run Acpi).trace)))
    (if (!decide (RsdpOk m q')) = true then _ else _ : Run Acpi).result = _
  by_cases hok : RsdpOk m q'
  swap
  · rw [if_neg hok, if_neg hok, decide_eq_false hok]
    rfl
  rw [if_pos hok, if_pos hok, decide_eq_true hok, Bool.not_true, if_neg Bool.false_ne_true,
    Traced.mk_bind]
  have hroot : (if m.read8 (q' + 15) = 0 then read32 m (q' + 16) else read64 m (q' + 24)) =
      (⟨[if m.read8 (q' + 15) = 0 then .read (q' + 16) 4 else .read (q' + 24) 8],
        .ok (rootOf m q')⟩ : Run ℕ) := by
    unfold rootOf
    split_ifs <;> rfl
  rw [hroot, Traced.mk_bind]
  by_cases hzero : rootOf m q' = 0
  · rw [if_pos hzero, if_pos hzero]
    rfl
  rw [if_neg hzero, if_neg hzero, validateHeader_eq, rootEvents]
  by_cases htable : TableOk m (rootOf m q')
  · rw [if_pos htable, decide_eq_true htable]
    simp only [Traced.mk_bind, Traced.emit, read32_eq]
    rfl
  · rw [if_neg htable, decide_eq_false htable]
    simp only [Traced.mk_bind, Traced.emit]
    rfl

/-- The window holds a root pointer at `q` whose check passes. -/
structure ValidRsdp (m : Mem) (q : ℕ) : Prop where
  found : Match m q
  aligned : q % 16 = 0
  inside : q + rsdpSize m q ≤ acpiScanEnd
  ok : RsdpOk m q

/-- The first one. -/
def FirstRsdp (m : Mem) (v : ℕ) : Prop := ValidRsdp m v ∧ ∀ q < v, ¬ ValidRsdp m q

/-- `init` takes the first valid root pointer of the window; without one it maps nothing. -/
def FindsRsdp (m : Mem) : Prop :=
  ∃ t s, init m = ⟨t, .ok s⟩ ∧ (∀ v, FirstRsdp m v → s.rsdp = v) ∧
    ((∀ v, ¬ ValidRsdp m v) → s.rsdt = 0 ∧ ∀ e ∈ t, ¬ e.Maps)

theorem ScanReads.not_maps {t : List AcpiEvent} (h : ScanReads t) : ∀ e ∈ t, ¬ e.Maps := by
  intro e he
  obtain ⟨a, _, _, rfl⟩ := h e he
  exact not_false

theorem byteReads_not_maps (a n : ℕ) : ∀ e ∈ byteReads a n, ¬ e.Maps := by
  intro e he
  obtain ⟨i, _, rfl⟩ := List.mem_map.1 he
  exact not_false

/-- Without a root table the root pointer is only read. -/
theorem rsdpEvents_not_maps {m : Mem} {q : ℕ} (h : RsdpOk m q → rootOf m q = 0) :
    ∀ e ∈ rsdpEvents m q, ¬ e.Maps := by
  intro e he
  unfold rsdpEvents at he
  obtain he | he := List.mem_append.1 he
  · obtain rfl | he := List.mem_cons.1 he
    · exact not_false
    · exact byteReads_not_maps _ _ e he
  · by_cases hok : RsdpOk m q
    · rw [if_pos hok, if_pos (h hok)] at he
      obtain rfl | he := List.mem_cons.1 he
      · exact not_false
      · obtain rfl := List.mem_singleton.1 he
        split_ifs <;> exact not_false
    · rw [if_neg hok] at he
      exact absurd he List.not_mem_nil

/-- The search takes the first occurrence of the signature, and the check comes afterwards. So the
two find the first valid root pointer when no occurrence stands before it; and without a valid one
nothing is mapped unless the first occurrence, wherever it stands, passes the check. -/
theorem findsRsdp_iff (m : Mem) : FindsRsdp m ↔
    (∀ v, FirstRsdp m v → ∀ q < v, ¬ Match m q) ∧
      ((∀ v, ¬ ValidRsdp m v) → ∀ q, FirstMatch m q → RsdpOk m q → rootOf m q = 0) := by
  by_cases hmatch : ∃ q, Match m q
  swap
  · obtain ⟨t, hinit, hscan⟩ := init_none fun q hq => hmatch ⟨q, hq⟩
    refine iff_of_true ⟨t, ⟨0, 0⟩, hinit, fun v hv => ?_, fun _ => ⟨rfl, hscan.not_maps⟩⟩
      ⟨fun v hv => ?_, fun _ q hq => ?_⟩
    · exact absurd ⟨v, hv.1.found⟩ hmatch
    · exact absurd ⟨v, hv.1.found⟩ hmatch
    · exact absurd ⟨q, hq.1⟩ hmatch
  obtain ⟨q₀, hq₀⟩ := hmatch
  obtain ⟨q, hq, _⟩ := exists_firstMatch hq₀
  obtain ⟨t, hscan, hinit⟩ := init_some hq
  constructor
  · rintro ⟨t', s, hrun, hfirst, hnone⟩
    rw [hinit] at hrun
    obtain ⟨rfl, hs⟩ := Traced.mk.inj hrun
    obtain rfl := Except.ok.inj hs
    refine ⟨fun v hv => ?_, fun hno q' hq' hok => ?_⟩
    · obtain rfl : q = v := hfirst v hv
      exact hq.2
    · obtain rfl := hq.unique hq'
      have hzero : (if RsdpOk m q then rootOf m q else 0) = 0 := (hnone hno).1
      rwa [if_pos hok] at hzero
  · rintro ⟨hfirst, hnone⟩
    refine ⟨_, _, hinit, fun v hv => ?_, fun hno => ⟨?_, fun e he => ?_⟩⟩
    · exact hq.unique ⟨hv.1.found, hfirst v hv⟩
    · by_cases hok : RsdpOk m q
      · exact (if_pos hok).trans (hnone hno q hq hok)
      · exact if_neg hok
    · obtain he | he := List.mem_append.1 he
      · exact hscan.not_maps e he
      · exact rsdpEvents_not_maps (hnone hno q hq) e he

/-- The signature stands in the window on its own, in front of a root pointer. -/
def strayText : List UInt8 :=
  ascii "RSD PTR " ++ List.replicate 8 0 ++ ascii "RSD PTR " ++ [225]

/-- A memory with nothing but a text at the beginning of the window. -/
def textMem (s : List UInt8) : Mem :=
  fun a => if a < acpiScanBase then 0 else s.getD (a - acpiScanBase) 0

/-- `init` takes the signature for the root pointer. -/
theorem stray_hides_rsdp : ¬ FindsRsdp (textMem strayText) := by
  rintro ⟨t, s, hrun, hfirst, _⟩
  have hmatch : FirstMatch (textMem strayText) 0xE0000 := by
    refine ⟨⟨le_refl _, by decide, by decide, by decide⟩, fun q hlt hq => ?_⟩
    have := hq.base
    unfold acpiScanBase at this
    omega
  have hvalid : FirstRsdp (textMem strayText) 0xE0010 := by
    refine ⟨⟨⟨by decide, by decide, by decide, by decide⟩, by decide, by decide, by decide⟩, ?_⟩
    intro q hlt hq
    have hbase := hq.found.base
    have halign := hq.aligned
    unfold acpiScanBase at hbase
    obtain rfl : q = 0xE0000 := by omega
    exact absurd hq.ok (by decide)
  obtain ⟨t', _, hinit⟩ := init_some hmatch
  rw [hinit] at hrun
  obtain rfl := Except.ok.inj (Traced.mk.inj hrun).2
  exact absurd (hfirst _ hvalid) (by decide)

/-! ## Looking up a table -/

/-- There is a table with the signature at `a`, and its check passes. -/
def IsTable (m : Mem) (signature a : ℕ) : Prop := m.read32 a = signature ∧ TableOk m a

instance (m : Mem) (signature a : ℕ) : Decidable (IsTable m signature a) :=
  inferInstanceAs (Decidable (_ ∧ _))

/-- What `find_sdth` does at entry `i`. -/
def entryEvents (m : Mem) (signature root width i : ℕ) : List AcpiEvent :=
  .entry (root + 36 + width * i) width :: .read (otherSdts m root width i) 4 ::
    if m.read32 (otherSdts m root width i) = signature then tableReads m (otherSdts m root width i)
    else []

/-- A search through `n` entries examines the first `e` of them and returns `a`: the first table, or
null when there is none. -/
def SearchResult (m : Mem) (signature root width n e a : ℕ) : Prop :=
  e = n ∧ a = 0 ∧ (∀ i < n, ¬ IsTable m signature (otherSdts m root width i)) ∨
    ∃ i < n, e = i + 1 ∧ a = otherSdts m root width i ∧
      IsTable m signature (otherSdts m root width i) ∧
        ∀ j < i, ¬ IsTable m signature (otherSdts m root width j)

theorem SearchResult.pos {m : Mem} {signature root width n e a : ℕ}
    (h : SearchResult m signature root width n e a) (hn : 0 < n) : 0 < e := by
  obtain ⟨rfl, _⟩ | ⟨i, _, rfl, _⟩ := h
  · exact hn
  · exact Nat.succ_pos i

theorem find_succ (m : Mem) (signature root width n i : ℕ) :
    find m signature width root (n + 1) i =
      if IsTable m signature (otherSdts m root width i) then
        ⟨entryEvents m signature root width i, .ok (otherSdts m root width i)⟩
      else ⟨entryEvents m signature root width i ++ (find m signature width root n (i + 1)).trace,
        (find m signature width root n (i + 1)).result⟩ := by
  rw [find]
  dsimp only
  rw [read32_eq, Traced.mk_bind, entryEvents]
  by_cases hsig : m.read32 (otherSdts m root width i) = signature
  swap
  · rw [if_neg hsig, if_neg hsig, if_neg fun h => hsig h.1]
    rfl
  rw [if_pos hsig, if_pos hsig, validateHeader_eq, Traced.mk_bind]
  by_cases hok : TableOk m (otherSdts m root width i)
  · rw [if_pos (show IsTable m signature _ from ⟨hsig, hok⟩), decide_eq_true hok, if_pos rfl,
      Traced.trace_pure, List.append_nil]
    rfl
  · rw [if_neg (show ¬ IsTable m signature _ from fun h => hok h.2), decide_eq_false hok,
      if_neg Bool.false_ne_true]
    rfl

/-- `find` examines the entries in order. -/
theorem find_spec (m : Mem) (signature root width : ℕ) : ∀ (n i : ℕ),
    (∀ j < i, ¬ IsTable m signature (otherSdts m root width j)) →
      ∃ e a, find m signature width root n i =
        ⟨(List.range' i e).flatMap (entryEvents m signature root width), .ok a⟩ ∧
          SearchResult m signature root width (i + n) (i + e) a := by
  intro n
  induction n with
  | zero => exact fun i hi => ⟨0, 0, rfl, Or.inl ⟨rfl, rfl, hi⟩⟩
  | succ n ih =>
    intro i hi
    rw [find_succ]
    by_cases htable : IsTable m signature (otherSdts m root width i)
    · refine ⟨1, otherSdts m root width i, ?_, Or.inr ⟨i, by omega, rfl, rfl, htable, hi⟩⟩
      rw [if_pos htable, List.range'_one, List.flatMap_singleton]
    · obtain ⟨e, a, hrun, hres⟩ := ih (i + 1) (fun j hj => by
        obtain hj | rfl : j < i ∨ j = i := by omega
        · exact hi j hj
        · exact htable)
      refine ⟨e + 1, a, ?_, ?_⟩
      · rw [if_neg htable, hrun, List.range'_succ, List.flatMap_cons]
      · rwa [show i + (n + 1) = i + 1 + n by omega, show i + (e + 1) = i + 1 + e by omega]

/-- A search has examined `e` entries, in order, and has returned `a`. -/
def LooksUp (m : Mem) (signature root width n : ℕ) (t : List AcpiEvent) (a : ℕ) : Prop :=
  ∃ e, SearchResult m signature root width n e a ∧
    t.filter AcpiEvent.isEntry =
      (List.range e).map fun i => .entry (root + 36 + width * i) width

/-- `init` finds the root pointer at `q` valid, and its root table. -/
structure InitOk (m : Mem) (q : ℕ) : Prop where
  rsdp : RsdpOk m q
  root : rootOf m q ≠ 0
  table : TableOk m (rootOf m q)

/-- The entry width of the root table a root pointer selects. -/
def rootWidth (m : Mem) (q : ℕ) : ℕ := if m.read8 (q + 15) = 0 then 4 else 8

/-- The number of entries in a root table; a table shorter than its header has none. -/
def entryCount (m : Mem) (root width : ℕ) : ℕ := (tableLength m root - 36) / width

/-- After `init`, `find_sdth` returns null unless `init` has found both tables valid, and then it
looks through the root table that `init` has selected. -/
def RespectsInit (m : Mem) (signature : ℕ) : Prop :=
  ∃ t s t' a, init m = ⟨t, .ok s⟩ ∧ findSdth m s signature = ⟨t', .ok a⟩ ∧
    (a ≠ 0 → ∃ q, FirstMatch m q ∧ InitOk m q) ∧
      ∀ q, FirstMatch m q → InitOk m q →
        LooksUp m signature (rootOf m q) (rootWidth m q)
          (entryCount m (rootOf m q) (rootWidth m q)) t' a

/-- The root table `init` leaves behind for the root pointer at `q`. -/
def rsdtOf (m : Mem) (q : ℕ) : ℕ := if RsdpOk m q then rootOf m q else 0

/-- The entry width `find_sdth` uses, and the number of entries. -/
def sdthWidth (m : Mem) (q : ℕ) : ℕ := if 2 ≤ m.read8 (q + 15) then 8 else 4

def sdthCount (m : Mem) (q : ℕ) : ℕ :=
  Word32.sub (tableLength m (rsdtOf m q)) 36 / sdthWidth m q

theorem byteReads_entries (a n : ℕ) : (byteReads a n).filter AcpiEvent.isEntry = [] := by
  rw [List.filter_eq_nil_iff]
  intro e he
  obtain ⟨i, _, rfl⟩ := List.mem_map.1 he
  exact Bool.false_ne_true

theorem entryEvents_entries (m : Mem) (signature root width i : ℕ) :
    (entryEvents m signature root width i).filter AcpiEvent.isEntry =
      [.entry (root + 36 + width * i) width] := by
  have hreads : (if m.read32 (otherSdts m root width i) = signature then
      tableReads m (otherSdts m root width i) else []).filter AcpiEvent.isEntry = [] := by
    split_ifs
    · exact byteReads_entries _ _
    · rfl
  rw [entryEvents, List.filter_cons_of_pos rfl, List.filter_cons_of_neg Bool.false_ne_true, hreads]

/-- `find_sdth` after an `init` which has found a root pointer. -/
theorem findSdth_spec {m : Mem} {q : ℕ} (hq : q ≠ 0) (signature : ℕ) :
    ∃ e a, findSdth m ⟨q, rsdtOf m q⟩ signature =
        ⟨.read (q + 15) 1 :: .read (rsdtOf m q + 4) 4 ::
          (List.range e).flatMap (entryEvents m signature (rsdtOf m q) (sdthWidth m q)), .ok a⟩ ∧
      SearchResult m signature (rsdtOf m q) (sdthWidth m q) (sdthCount m q) e a := by
  obtain ⟨e, a, hrun, hres⟩ := find_spec m signature (rsdtOf m q) (sdthWidth m q)
    (sdthCount m q) 0 (fun j hj => absurd hj (Nat.not_lt_zero j))
  rw [Nat.zero_add, Nat.zero_add] at hres
  refine ⟨e, a, ?_, hres⟩
  have hfind : (if 2 ≤ m.read8 (q + 15) then
      find m signature 8 (rsdtOf m q) (Word32.sub (tableLength m (rsdtOf m q)) 36 / 8) 0
      else find m signature 4 (rsdtOf m q) (Word32.sub (tableLength m (rsdtOf m q)) 36 / 4) 0) =
      find m signature (sdthWidth m q) (rsdtOf m q) (sdthCount m q) 0 := by
    unfold sdthCount sdthWidth
    split_ifs <;> rfl
  rw [findSdth, if_neg hq, read8_eq, Traced.mk_bind, read32_eq, Traced.mk_bind]
  rw [List.range_eq_range']
  exact congrArg (fun x : Run ℕ => Traced.mk (.read (q + 15) 1 :: .read (rsdtOf m q + 4) 4 :: x.trace)
    x.result) (hfind.trans hrun)

theorem FirstMatch.ne_zero {m : Mem} {q : ℕ} (h : FirstMatch m q) : q ≠ 0 := by
  have := h.1.base
  unfold acpiScanBase at this
  omega

/-- The entries `find_sdth` examines. -/
theorem findSdth_entries (m : Mem) (q signature root width e : ℕ) :
    (AcpiEvent.read (q + 15) 1 :: .read (root + 4) 4 ::
      (List.range e).flatMap (entryEvents m signature root width)).filter AcpiEvent.isEntry =
        (List.range e).map fun i => .entry (root + 36 + width * i) width := by
  rw [List.filter_cons_of_neg Bool.false_ne_true, List.filter_cons_of_neg Bool.false_ne_true,
    List.filter_flatMap, List.map_eq_flatMap]
  congr 1
  funext i
  exact entryEvents_entries m signature root width i

/-- A long enough table has the same number of entries for both. -/
theorem sdthCount_eq {m : Mem} {q : ℕ} (h : InitOk m q) (hlen : 36 ≤ tableLength m (rootOf m q)) :
    sdthCount m q = entryCount m (rootOf m q) (sdthWidth m q) := by
  have hlt : tableLength m (rootOf m q) < 4294967296 := Mem.read32_lt _ _
  rw [sdthCount, rsdtOf, if_pos h.rsdp, entryCount]
  congr 1
  unfold Word32.sub
  omega

/-- A table shorter than its header wraps the count. -/
theorem sdthCount_pos {m : Mem} {q : ℕ} (h : InitOk m q) (hlen : tableLength m (rootOf m q) < 36) :
    0 < sdthCount m q := by
  rw [sdthCount, rsdtOf, if_pos h.rsdp]
  unfold Word32.sub sdthWidth
  split_ifs <;> omega

/-- The two widths differ for revision 1 only. -/
theorem sdthWidth_eq {m : Mem} {q : ℕ} (h : m.read8 (q + 15) ≠ 1) :
    sdthWidth m q = rootWidth m q := by
  unfold sdthWidth rootWidth
  have hne : (m.read8 (q + 15)).toNat ≠ 1 := fun h' => h (UInt8.toNat_inj.1 h')
  have hzero : m.read8 (q + 15) = 0 ↔ (m.read8 (q + 15)).toNat = 0 :=
    ⟨fun h => by rw [h]; rfl, fun h => UInt8.toNat_inj.1 h⟩
  have htwo : 2 ≤ m.read8 (q + 15) ↔ 2 ≤ (m.read8 (q + 15)).toNat := UInt8.le_iff_toNat_le
  simp only [hzero, htwo]
  split_ifs <;> omega

/-- When the search of `find_sdth` is a search of the selected root table. -/
theorem looksUp_iff {m : Mem} {q signature e a : ℕ} (h : InitOk m q)
    (hres : SearchResult m signature (rootOf m q) (sdthWidth m q) (sdthCount m q) e a)
    {t : List AcpiEvent} (ht : t.filter AcpiEvent.isEntry =
      (List.range e).map fun i => .entry (rootOf m q + 36 + sdthWidth m q * i) (sdthWidth m q)) :
    LooksUp m signature (rootOf m q) (rootWidth m q) (entryCount m (rootOf m q) (rootWidth m q)) t a ↔
      36 ≤ tableLength m (rootOf m q) ∧
        (m.read8 (q + 15) = 1 → tableLength m (rootOf m q) < 40) := by
  constructor
  · rintro ⟨e', hres', ht'⟩
    rw [ht] at ht'
    have hlen : e = e' := by simpa using congrArg List.length ht'
    refine ⟨?_, fun hrev => ?_⟩
    · by_contra hshort
      have hpos := hres.pos (sdthCount_pos h (by omega))
      -- the selected table has no entries
      have hcount : entryCount m (rootOf m q) (rootWidth m q) = 0 := by
        unfold entryCount
        rw [Nat.sub_eq_zero_of_le (by omega), Nat.zero_div]
      obtain ⟨rfl, _⟩ | ⟨i, hi, _⟩ := hres'
      · omega
      · omega
    · by_contra hlong
      have hwidth : sdthWidth m q = 4 ∧ rootWidth m q = 8 := by
        unfold sdthWidth rootWidth
        rw [hrev]
        decide
      have hcount : 0 < sdthCount m q := by
        rw [sdthCount_eq h (by omega), entryCount, hwidth.1]
        omega
      -- the first entry is read with another width
      obtain ⟨e, rfl⟩ : ∃ k, e = k + 1 := ⟨e - 1, by have := hres.pos hcount; omega⟩
      rw [← hlen, List.range_succ_eq_map, List.map_cons, List.map_cons] at ht'
      have hhead := (AcpiEvent.entry.inj (List.cons.inj ht').1).2
      omega
  · rintro ⟨hlong, hrev⟩
    by_cases hone : m.read8 (q + 15) = 1
    · have hwidth : sdthWidth m q = 4 ∧ rootWidth m q = 8 := by
        unfold sdthWidth rootWidth
        rw [hone]
        decide
      have hlen := hrev hone
      have hcount : sdthCount m q = 0 := by
        rw [sdthCount_eq h hlong, entryCount, hwidth.1]
        omega
      have hcount' : entryCount m (rootOf m q) (rootWidth m q) = 0 := by
        rw [entryCount, hwidth.2]
        omega
      rw [hcount] at hres
      rw [hcount']
      obtain ⟨rfl, rfl, _⟩ | ⟨i, hi, _⟩ := hres
      · exact ⟨0, Or.inl ⟨rfl, rfl, fun i hi => absurd hi (Nat.not_lt_zero i)⟩, ht⟩
      · exact absurd hi (Nat.not_lt_zero i)
    · rw [sdthCount_eq h hlong, sdthWidth_eq hone] at hres
      rw [sdthWidth_eq hone] at ht
      exact ⟨e, hres, ht⟩

/-- `find_sdth` reads the revision once more, does not look at what `init` has found, and counts
the entries without looking at the sign. So it respects `init` exactly when a valid root table is
not shorter than its header, has no entries under a root pointer of revision 1, and when what an
`init` that has failed leaves behind lists no table with the signature. -/
theorem respectsInit_iff (m : Mem) (signature : ℕ) : RespectsInit m signature ↔
    (∀ q, FirstMatch m q → InitOk m q → 36 ≤ tableLength m (rootOf m q) ∧
      (m.read8 (q + 15) = 1 → tableLength m (rootOf m q) < 40)) ∧
    ∀ q, FirstMatch m q → ¬ InitOk m q → ∀ i < sdthCount m q,
      IsTable m signature (otherSdts m (rsdtOf m q) (sdthWidth m q) i) →
        (∀ j < i, ¬ IsTable m signature (otherSdts m (rsdtOf m q) (sdthWidth m q) j)) →
          otherSdts m (rsdtOf m q) (sdthWidth m q) i = 0 := by
  by_cases hmatch : ∃ q, Match m q
  swap
  · obtain ⟨t, hinit, _⟩ := init_none fun q hq => hmatch ⟨q, hq⟩
    refine iff_of_true ⟨t, ⟨0, 0⟩, [], 0, hinit, rfl, fun h => absurd rfl h, fun q hq => ?_⟩
      ⟨fun q hq => ?_, fun q hq => ?_⟩
    all_goals exact absurd ⟨q, hq.1⟩ hmatch
  obtain ⟨q₀, hq₀⟩ := hmatch
  obtain ⟨q, hq, _⟩ := exists_firstMatch hq₀
  obtain ⟨t, _, hinit⟩ := init_some hq
  obtain ⟨e, a, hrun, hres⟩ := findSdth_spec (m := m) hq.ne_zero signature
  have hentries := findSdth_entries m q signature (rsdtOf m q) (sdthWidth m q) e
  -- what is left of the property when the two computations are known
  have hiff : RespectsInit m signature ↔ (a ≠ 0 → InitOk m q) ∧
      (InitOk m q → LooksUp m signature (rootOf m q) (rootWidth m q)
        (entryCount m (rootOf m q) (rootWidth m q)) (.read (q + 15) 1 :: .read (rsdtOf m q + 4) 4 ::
          (List.range e).flatMap (entryEvents m signature (rsdtOf m q) (sdthWidth m q))) a) := by
    constructor
    · rintro ⟨t', s, t'', a', hinit', hrun', hnull, hlook⟩
      rw [hinit] at hinit'
      obtain rfl := Except.ok.inj (Traced.mk.inj hinit').2
      rw [show (⟨q, if RsdpOk m q then rootOf m q else 0⟩ : Acpi) = ⟨q, rsdtOf m q⟩ from rfl,
        hrun] at hrun'
      obtain ⟨rfl, ha⟩ := Traced.mk.inj hrun'
      obtain rfl := Except.ok.inj ha
      refine ⟨fun ha => ?_, hlook q hq⟩
      obtain ⟨q', hq', hok⟩ := hnull ha
      rwa [hq.unique hq']
    · rintro ⟨hnull, hlook⟩
      refine ⟨_, _, _, a, hinit, hrun, fun ha => ⟨q, hq, hnull ha⟩, fun q' hq' hok => ?_⟩
      obtain rfl := hq.unique hq'
      exact hlook hok
  rw [hiff]
  by_cases hok : InitOk m q
  · have hroot : rsdtOf m q = rootOf m q := if_pos hok.rsdp
    rw [hroot] at hres hentries ⊢
    refine ⟨fun h => ⟨fun q' hq' _ => ?_, fun q' hq' hbad => ?_⟩, fun h => ⟨fun _ => hok, fun _ => ?_⟩⟩
    · obtain rfl := hq.unique hq'
      exact (looksUp_iff hok hres hentries).1 (h.2 hok)
    · obtain rfl := hq.unique hq'
      exact absurd hok hbad
    · exact (looksUp_iff hok hres hentries).2 (h.1 q hq hok)
  · refine ⟨fun h => ⟨fun q' hq' hgood => ?_, fun q' hq' _ i hi htable hbefore => ?_⟩,
      fun h => ⟨fun ha => ?_, fun hgood => absurd hgood hok⟩⟩
    · obtain rfl := hq.unique hq'
      exact absurd hgood hok
    · obtain rfl := hq.unique hq'
      obtain ⟨_, _, hnone⟩ | ⟨k, _, _, rfl, hk, hbefore'⟩ := hres
      · exact absurd htable (hnone i hi)
      · -- two first matches are one
        obtain hlt | rfl | hlt := Nat.lt_trichotomy i k
        · exact absurd htable (hbefore' i hlt)
        · by_contra ha
          exact hok (h.1 ha)
        · exact absurd hk (hbefore k hlt)
    · obtain ⟨_, rfl, _⟩ | ⟨k, hk, _, rfl, htable, hbefore⟩ := hres
      · exact absurd rfl ha
      · exact absurd (h.2 q hq hok k hk htable hbefore) ha

/-- A root pointer of revision 0 to a root table of length 0, at 0x1000. -/
def emptyRootText : List UInt8 := ascii "RSD PTR " ++ [209] ++ List.replicate 7 0 ++ [0, 16]

/-- `find_sdth` examines entries of a table without any. -/
theorem emptyRoot_examined : ¬ RespectsInit (textMem emptyRootText) 0 := by
  rintro ⟨t, s, t', a, hinit, hrun, _, hlook⟩
  have hmatch : FirstMatch (textMem emptyRootText) 0xE0000 := by
    refine ⟨⟨le_refl _, by decide, by decide, by decide⟩, fun q hlt hq => ?_⟩
    have := hq.base
    unfold acpiScanBase at this
    omega
  have hok : InitOk (textMem emptyRootText) 0xE0000 := ⟨by decide, by decide, by decide⟩
  obtain ⟨_, _, hinit'⟩ := init_some hmatch
  rw [hinit'] at hinit
  obtain rfl := Except.ok.inj (Traced.mk.inj hinit).2
  obtain ⟨e, a', hrun', hres⟩ := findSdth_spec (m := textMem emptyRootText) hmatch.ne_zero 0
  rw [show (⟨0xE0000, if RsdpOk (textMem emptyRootText) 0xE0000 then
      rootOf (textMem emptyRootText) 0xE0000 else 0⟩ : Acpi) =
      ⟨0xE0000, rsdtOf (textMem emptyRootText) 0xE0000⟩ from rfl, hrun'] at hrun
  obtain ⟨rfl, ha⟩ := Traced.mk.inj hrun
  obtain rfl := Except.ok.inj ha
  have hroot : rsdtOf (textMem emptyRootText) 0xE0000 = rootOf (textMem emptyRootText) 0xE0000 :=
    if_pos hok.rsdp
  have hentries := findSdth_entries (textMem emptyRootText) 0xE0000 0
    (rsdtOf (textMem emptyRootText) 0xE0000) (sdthWidth (textMem emptyRootText) 0xE0000) e
  have hlooks := hlook _ hmatch hok
  rw [hroot] at hres hentries hlooks
  exact absurd ((looksUp_iff hok hres hentries).1 hlooks).1 (by decide)

end Acpi

end Ospp
