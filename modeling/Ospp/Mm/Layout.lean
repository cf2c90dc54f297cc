import Mathlib.Tactic
import Ospp.Mm.HeapSpace
import Ospp.Mm.RecursiveWindow
import Ospp.Sys.ModuleSpace

/-!
# The virtual layout

`layout.hpp` divides the kernel's address space by a table of regions, and does not compile unless
`validate` accepts the table. Ends of regions are 64 bits wide, so a region may reach the end of the
address space, or lie beyond it in part.

`layout_validated` is what the check is worth, for any table: it accepts the tables of whole pages
in which no two regions share an address, and in those a look-up by address has one answer, the same
throughout a page and whatever the order of the table.
-/

namespace Ospp

namespace Layout

/-! ## The source -/

inductive RegionId where
  | bootstrapIdentity | kernelHeap | moduleSpace | recursivePageTables
  deriving DecidableEq

/-- `RegionDesc`, without the name and the kind, which nothing reads. -/
structure RegionDesc where
  id : RegionId
  base : UInt32
  size : UInt32
  deriving DecidableEq

namespace RegionDesc

/-- `end`. -/
def endAddr (r : RegionDesc) : UInt64 := r.base.toUInt64 + r.size.toUInt64

def contains (r : RegionDesc) (addr : UInt32) : Bool :=
  r.base ≤ addr && addr.toUInt64 < r.endAddr

/-- `contains`, for a span. -/
def containsSpan (r : RegionDesc) (addr span : UInt32) : Bool :=
  span ≤ r.size && r.base ≤ addr && addr.toUInt64 + span.toUInt64 ≤ r.endAddr

end RegionDesc

def isPageAligned (value : UInt32) : Bool := value &&& (4096 - 1) == 0

def overlaps (lhs rhs : RegionDesc) : Bool :=
  lhs.base.toUInt64 < rhs.endAddr && rhs.base.toUInt64 < lhs.endAddr

def validRegion (region : RegionDesc) : Bool :=
  0 < region.size && isPageAligned region.base && isPageAligned region.size &&
    region.base.toUInt64 < region.endAddr

/-- Each region is compared with those behind it. -/
def validate : List RegionDesc → Bool
  | [] => true
  | r :: rest => validRegion r && !rest.any (overlaps r) && validate rest

/-- `find_region`, by address. -/
def findRegion (regions : List RegionDesc) (addr : UInt32) : Option RegionDesc :=
  regions.find? fun r => r.contains addr

/-- `find_region`, by id. -/
def findRegionId (regions : List RegionDesc) (id : RegionId) : Option RegionDesc :=
  regions.find? fun r => r.id == id

/-- `REGIONS`. -/
def kernelRegions : List RegionDesc :=
  [⟨.bootstrapIdentity, 0x00000000, 0x00400000⟩, ⟨.kernelHeap, 0x01000000, 0x01000000⟩,
    ⟨.moduleSpace, 0x0A000000, 0x00080000⟩, ⟨.recursivePageTables, 0xFFC00000, 0x00400000⟩]

/-- `RegionIndex`. -/
def regionIndex : RegionId → ℕ
  | .bootstrapIdentity => 0
  | .kernelHeap => 1
  | .moduleSpace => 2
  | .recursivePageTables => 3

/-- `region<Id>`. -/
def region (id : RegionId) : Option RegionDesc := kernelRegions[regionIndex id]?

/-! ## Regions as sets of addresses -/

/-- What a region is, whole pages and at least one. -/
structure RegionDesc.Proper (r : RegionDesc) : Prop where
  size_pos : 0 < r.size.toNat
  base_aligned : r.base.toNat % 4096 = 0
  size_aligned : r.size.toNat % 4096 = 0

/-- No address is in both. -/
def Apart (r r' : RegionDesc) : Prop := ∀ a, ¬ (r.contains a = true ∧ r'.contains a = true)

section

variable {r r' : RegionDesc} {a b : UInt32}

theorem toNat_endAddr (r : RegionDesc) : r.endAddr.toNat = r.base.toNat + r.size.toNat := by
  have hb := r.base.toNat_lt
  have hs := r.size.toNat_lt
  unfold RegionDesc.endAddr
  rw [UInt64.toNat_add, UInt32.toNat_toUInt64, UInt32.toNat_toUInt64]
  exact Nat.mod_eq_of_lt (by omega)

theorem contains_iff :
    r.contains a = true ↔ r.base.toNat ≤ a.toNat ∧ a.toNat < r.base.toNat + r.size.toNat := by
  unfold RegionDesc.contains
  rw [Bool.and_eq_true, decide_eq_true_eq, decide_eq_true_eq, UInt32.le_iff_toNat_le,
    UInt64.lt_iff_toNat_lt, toNat_endAddr, UInt32.toNat_toUInt64]

theorem overlaps_iff : overlaps r r' = true ↔ r.base.toNat < r'.base.toNat + r'.size.toNat ∧
    r'.base.toNat < r.base.toNat + r.size.toNat := by
  unfold overlaps
  rw [Bool.and_eq_true, decide_eq_true_eq, decide_eq_true_eq, UInt64.lt_iff_toNat_lt,
    UInt64.lt_iff_toNat_lt, toNat_endAddr, toNat_endAddr, UInt32.toNat_toUInt64,
    UInt32.toNat_toUInt64]

theorem isPageAligned_iff {v : UInt32} : isPageAligned v = true ↔ v.toNat % 4096 = 0 := by
  unfold isPageAligned
  rw [beq_iff_eq, ← UInt32.toNat_inj, UInt32.toNat_and]
  show v.toNat &&& (2 ^ 12 - 1) = 0 ↔ _
  rw [Nat.and_two_pow_sub_one_eq_mod]

theorem validRegion_iff : validRegion r = true ↔ r.Proper := by
  unfold validRegion
  rw [Bool.and_eq_true, Bool.and_eq_true, Bool.and_eq_true, isPageAligned_iff, isPageAligned_iff,
    decide_eq_true_eq, decide_eq_true_eq, UInt32.lt_iff_toNat_lt, UInt64.lt_iff_toNat_lt,
    toNat_endAddr, UInt32.toNat_toUInt64]
  constructor
  · rintro ⟨⟨⟨h0, h1⟩, h2⟩, _⟩
    exact ⟨h0, h1, h2⟩
  · rintro ⟨h0, h1, h2⟩
    exact ⟨⟨⟨h0, h1⟩, h2⟩, by omega⟩

/-- Regions that overlap do so at the higher one of their bases, which is an address even where both
ends are not. -/
theorem overlaps_iff_not_apart (h : r.Proper) (h' : r'.Proper) :
    overlaps r r' = true ↔ ¬ Apart r r' := by
  have hpos := h.size_pos
  have hpos' := h'.size_pos
  unfold Apart
  rw [overlaps_iff, not_forall]
  constructor
  · rintro ⟨h1, h2⟩
    obtain hle | hle := Nat.le_total r.base.toNat r'.base.toNat
    · refine ⟨r'.base, not_not.2 ⟨contains_iff.2 ⟨hle, h2⟩, contains_iff.2 ⟨le_rfl, by omega⟩⟩⟩
    · refine ⟨r.base, not_not.2 ⟨contains_iff.2 ⟨le_rfl, by omega⟩, contains_iff.2 ⟨hle, h1⟩⟩⟩
  · rintro ⟨a, ha⟩
    obtain ⟨h1, h2⟩ := not_not.1 ha
    rw [contains_iff] at h1 h2
    omega

theorem Apart.symm (h : Apart r r') : Apart r' r := fun a ha => h a ha.symm

/-- A page is in a region as a whole, or not at all. -/
theorem contains_congr (h : r.Proper) (hab : a.toNat / 4096 = b.toNat / 4096) :
    r.contains a = r.contains b := by
  obtain ⟨_, h1, h2⟩ := h
  rw [Bool.eq_iff_iff, contains_iff, contains_iff]
  omega

theorem containsSpan_iff {span : UInt32} : r.containsSpan a span = true ↔
    span.toNat ≤ r.size.toNat ∧ r.base.toNat ≤ a.toNat ∧
      a.toNat + span.toNat ≤ r.base.toNat + r.size.toNat := by
  have hsum : (a.toUInt64 + span.toUInt64).toNat = a.toNat + span.toNat := by
    have ha := a.toNat_lt
    have hs := span.toNat_lt
    rw [UInt64.toNat_add, UInt32.toNat_toUInt64, UInt32.toNat_toUInt64]
    exact Nat.mod_eq_of_lt (by omega)
  unfold RegionDesc.containsSpan
  rw [Bool.and_eq_true, Bool.and_eq_true, decide_eq_true_eq, decide_eq_true_eq,
    decide_eq_true_eq, UInt32.le_iff_toNat_le, UInt32.le_iff_toNat_le, UInt64.le_iff_toNat_le,
    toNat_endAddr, hsum, and_assoc]

/-- A span is in a region of the address space when each of its addresses is. -/
theorem containsSpan_iff_forall (hr : r.base.toNat + r.size.toNat ≤ 4294967296) {span : UInt32}
    (hspan : 0 < span.toNat) : r.containsSpan a span = true ↔
      ∀ i < span.toNat, ∃ b : UInt32, b.toNat = a.toNat + i ∧ r.contains b = true := by
  rw [containsSpan_iff]
  constructor
  · rintro ⟨_, h2, h3⟩ i hi
    have hb : (UInt32.ofNat (a.toNat + i)).toNat = a.toNat + i := by
      rw [UInt32.toNat_ofNat']
      exact Nat.mod_eq_of_lt (by omega)
    exact ⟨UInt32.ofNat (a.toNat + i), hb, contains_iff.2 (by rw [hb]; omega)⟩
  · intro h
    obtain ⟨b, hb, hcb⟩ := h 0 hspan
    obtain ⟨c, hc, hcc⟩ := h (span.toNat - 1) (by omega)
    rw [contains_iff] at hcb hcc
    omega

end

/-! ## Tables -/

section

variable {regions : List RegionDesc}

/-- **The check.** -/
theorem validate_iff : validate regions = true ↔
    (∀ r ∈ regions, r.Proper) ∧ regions.Pairwise Apart := by
  induction regions with
  | nil => exact iff_of_true rfl ⟨fun r hr => absurd hr List.not_mem_nil, .nil⟩
  | cons r rest ih =>
    rw [validate, Bool.and_eq_true, Bool.and_eq_true, validRegion_iff, ih, List.pairwise_cons,
      Bool.not_eq_true', List.any_eq_false, List.forall_mem_cons]
    constructor
    · rintro ⟨⟨hr, hrest⟩, hp, hpair⟩
      refine ⟨⟨hr, hp⟩, fun r' hr' => ?_, hpair⟩
      exact not_not.1 ((overlaps_iff_not_apart hr (hp r' hr')).not.1 (hrest r' hr'))
    · rintro ⟨⟨hr, hp⟩, hapart, hpair⟩
      refine ⟨⟨hr, fun r' hr' => ?_⟩, hp, hpair⟩
      exact (overlaps_iff_not_apart hr (hp r' hr')).not.2 (not_not.2 (hapart r' hr'))

/-- One region at most contains an address. -/
theorem eq_of_contains (h : validate regions = true) {r r' : RegionDesc} (hr : r ∈ regions)
    (hr' : r' ∈ regions) {a : UInt32} (ha : r.contains a = true) (ha' : r'.contains a = true) :
    r = r' := by
  have : Std.Symm Apart := ⟨fun _ _ h => h.symm⟩
  by_contra hne
  exact (validate_iff.1 h).2.forall hr hr' hne a ⟨ha, ha'⟩

theorem findRegion_some {a : UInt32} {r : RegionDesc} (h : findRegion regions a = some r) :
    r ∈ regions ∧ r.contains a = true :=
  ⟨List.mem_of_find?_eq_some h, List.find?_some (p := fun r : RegionDesc => r.contains a) h⟩

theorem findRegion_iff (h : validate regions = true) {a : UInt32} {r : RegionDesc} :
    findRegion regions a = some r ↔ r ∈ regions ∧ r.contains a = true := by
  refine ⟨findRegion_some, fun ⟨hr, ha⟩ => ?_⟩
  obtain ⟨r', hf⟩ : ∃ r', findRegion regions a = some r' :=
    Option.isSome_iff_exists.1 (List.find?_isSome.2 ⟨r, hr, ha⟩)
  obtain ⟨hr', ha'⟩ := findRegion_some hf
  rw [hf, eq_of_contains h hr' hr ha' ha]

/-- Look-ups in a table, and the spans of its regions. -/
structure Table (regions : List RegionDesc) : Prop where
  find : ∀ a r, findRegion regions a = some r ↔ r ∈ regions ∧ r.contains a = true
  /-- A page is in one region as a whole, or in none. -/
  page : ∀ a b : UInt32, a.toNat / 4096 = b.toNat / 4096 →
    findRegion regions a = findRegion regions b
  order : ∀ regions', regions'.Perm regions →
    validate regions' = true ∧ ∀ a, findRegion regions' a = findRegion regions a
  inside : ∀ r ∈ regions, r.base.toNat + r.size.toNat ≤ 4294967296 → ∀ a span : UInt32,
    0 < span.toNat → (r.containsSpan a span = true ↔
      ∀ i < span.toNat, ∃ b : UInt32, b.toNat = a.toNat + i ∧ findRegion regions b = some r)
  /-- Spans in two regions share no address. -/
  spans : ∀ r ∈ regions, ∀ r' ∈ regions, r ≠ r' → ∀ a m b n : UInt32,
    r.containsSpan a m = true → r'.containsSpan b n = true →
      a.toNat + m.toNat ≤ b.toNat ∨ b.toNat + n.toNat ≤ a.toNat

theorem table_of_validate (h : validate regions = true) : Table regions := by
  obtain ⟨hproper, hapart⟩ := validate_iff.1 h
  refine ⟨fun a r => findRegion_iff h, fun a b hab => ?_, fun regions' hperm => ?_,
    fun r hr hend a span hspan => ?_, fun r hr r' hr' hne a m b n ha hb => ?_⟩
  · apply Option.ext
    intro r
    rw [findRegion_iff h, findRegion_iff h]
    exact and_congr_right fun hr => by rw [contains_congr (hproper r hr) hab]
  · have h' : validate regions' = true := validate_iff.2
      ⟨fun r hr => hproper r (hperm.mem_iff.1 hr), (hperm.pairwise_iff Apart.symm).2 hapart⟩
    refine ⟨h', fun a => ?_⟩
    apply Option.ext
    intro r
    rw [findRegion_iff h', findRegion_iff h, hperm.mem_iff]
  · rw [containsSpan_iff_forall hend hspan]
    refine forall_congr' fun i => forall_congr' fun _ => exists_congr fun b => ?_
    rw [findRegion_iff h, and_iff_right hr]
  · have hno : ¬ overlaps r r' = true := by
      rw [overlaps_iff_not_apart (hproper r hr) (hproper r' hr'), not_not]
      intro c hc
      exact hne (eq_of_contains h hr hr' hc.1 hc.2)
    rw [overlaps_iff] at hno
    rw [containsSpan_iff] at ha hb
    omega

/-- **The layout.** What `validate` accepts, and what that is worth. -/
theorem layout_validated (regions : List RegionDesc) :
    (validate regions = true ↔ (∀ r ∈ regions, r.Proper) ∧ regions.Pairwise Apart) ∧
      (validate regions = true → Table regions) :=
  ⟨validate_iff, table_of_validate⟩

end

/-- The kernel's table has the windows that the managers use. -/
example : validate kernelRegions = true ∧
    (region .kernelHeap).map (fun r => (r.base.toNat, r.endAddr.toNat)) =
      some (heapStart, heapMaxAddr) ∧
    (region .moduleSpace).map (fun r => (r.base.toNat, r.size.toNat)) =
      some (moduleSpaceBase, moduleSpacePageCount * pageSize) ∧
    (region .recursivePageTables).map RegionDesc.base = some VirtAddr.ptBase := by
  decide

example (id : RegionId) : findRegionId kernelRegions id = region id := by cases id <;> rfl

end Layout

end Ospp
