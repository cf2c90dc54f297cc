import Ospp.Mm.PageTables

/-!
# The recursive window

The addresses of page table entries, as `vmm.hpp` computes them: words of 32 bits, put together from
the two index fields of an address. The rest of the development has them as numbers; the lemmas
`toNat_*` say that these are the same, for every address.

The walk decodes what has been put together. `Reaches` is what it finds behind the three addresses
of an address `v`: `pde_entry` is a word of the directory, `pte_entry` one of the page table the
directory names for `v`, and `pt_virtual_base` that table as a page.
-/

namespace Ospp

namespace VirtAddr

structure AlignedResult where
  aligned : UInt32
  offset : UInt32
  deriving DecidableEq

def alignAddress (address : UInt32) : AlignedResult :=
  ⟨address &&& 0xFFFFF000, address &&& (4096 - 1)⟩

def pdeIndex (virtAddr : UInt32) : UInt32 := (virtAddr >>> 22) &&& 0x3FF

def pteIndex (virtAddr : UInt32) : UInt32 := (virtAddr >>> 12) &&& 0x3FF

/-- `RECURSIVE_PT_BASE`. -/
def ptBase : UInt32 := 0xFFC00000

/-- `RECURSIVE_PT_BASE + RECURSIVE_PT_SIZE - PAGE_SIZE`; the sum is 0. -/
def pdeBase : UInt32 := ptBase + 0x00400000 - 4096

def pdeEntry (virtAddr : UInt32) : UInt32 := pdeBase + pdeIndex virtAddr * 4

def pteEntry (virtAddr : UInt32) : UInt32 :=
  let ptVirt := ptBase + (pdeIndex virtAddr <<< 12)
  ptVirt + pteIndex virtAddr * 4

def ptVirtualBase (virtAddr : UInt32) : UInt32 := ptBase + (pdeIndex virtAddr <<< 12)

/-! ## As numbers -/

variable {v w : UInt32}

theorem toNat_aligned (v : UInt32) : (alignAddress v).aligned.toNat = v.toNat / 4096 * 4096 := by
  have hlt := v.toNat_lt
  have h := Entry.address_eq v.toNat
  unfold Entry.address at h
  unfold alignAddress
  rw [UInt32.toNat_and]
  exact h.trans (by omega)

theorem toNat_offset (v : UInt32) : (alignAddress v).offset.toNat = v.toNat % 4096 := by
  unfold alignAddress
  rw [UInt32.toNat_and]
  exact Entry.and_mask _

/-- An index field. -/
theorem toNat_field (v k : UInt32) :
    ((v >>> k) &&& 0x3FF).toNat = v.toNat / 2 ^ (k.toNat % 32) % 1024 := by
  rw [UInt32.toNat_and, UInt32.toNat_shiftRight, Nat.shiftRight_eq_div_pow]
  exact Nat.and_two_pow_sub_one_eq_mod _ 10

theorem toNat_pdeIndex (v : UInt32) : (pdeIndex v).toNat = Ospp.pdeIndex v.toNat := toNat_field v 22

theorem toNat_pteIndex (v : UInt32) : (pteIndex v).toNat = Ospp.pteIndex v.toNat := toNat_field v 12

theorem pdeIndex_lt (v : UInt32) : (pdeIndex v).toNat < 1024 := by
  rw [toNat_pdeIndex]
  exact Vmm.pdeIndex_lt _

theorem pteIndex_lt (v : UInt32) : (pteIndex v).toNat < 1024 := by
  rw [toNat_pteIndex]
  exact Vmm.pteIndex_lt _

/-- An index of a word, as an offset. -/
theorem toNat_mul_four {i : UInt32} (hi : i.toNat < 1024) : (i * 4).toNat = i.toNat * 4 := by
  rw [UInt32.toNat_mul, show (4 : UInt32).toNat = 4 from rfl]
  omega

theorem toNat_pdeEntry (v : UInt32) : (pdeEntry v).toNat = Ospp.pdeEntry v.toNat := by
  have hlt := pdeIndex_lt v
  unfold pdeEntry Ospp.pdeEntry
  rw [UInt32.toNat_add, toNat_mul_four hlt, ← toNat_pdeIndex,
    show pdeBase.toNat = 0xFFFFF000 from rfl]
  omega

theorem toNat_ptVirtualBase (v : UInt32) :
    (ptVirtualBase v).toNat = Ospp.ptVirtualBase v.toNat := by
  have hlt := pdeIndex_lt v
  unfold ptVirtualBase Ospp.ptVirtualBase
  rw [UInt32.toNat_add, UInt32.toNat_shiftLeft, ← toNat_pdeIndex,
    show ptBase.toNat = 0xFFC00000 from rfl, show (12 : UInt32).toNat % 32 = 12 from rfl,
    Nat.shiftLeft_eq]
  omega

theorem toNat_pteEntry (v : UInt32) : (pteEntry v).toNat = Ospp.pteEntry v.toNat := by
  have h1 := Vmm.pdeIndex_lt v.toNat
  have h2 := Vmm.pteIndex_lt v.toNat
  rw [show pteEntry v = ptVirtualBase v + pteIndex v * 4 from rfl, UInt32.toNat_add,
    toNat_mul_four (pteIndex_lt v), toNat_ptVirtualBase, toNat_pteIndex]
  unfold Ospp.pteEntry Ospp.ptVirtualBase
  omega

/-! ## Pages -/

theorem aligned_eq_iff : (alignAddress v).aligned = (alignAddress w).aligned ↔
    v.toNat / 4096 = w.toNat / 4096 := by
  rw [← UInt32.toNat_inj, toNat_aligned, toNat_aligned]
  omega

/-- The two indices are the page. -/
theorem aligned_eq_iff_index : (alignAddress v).aligned = (alignAddress w).aligned ↔
    pdeIndex v = pdeIndex w ∧ pteIndex v = pteIndex w := by
  have hv := v.toNat_lt
  have hw := w.toNat_lt
  rw [aligned_eq_iff, ← UInt32.toNat_inj, ← UInt32.toNat_inj, toNat_pdeIndex, toNat_pdeIndex,
    toNat_pteIndex, toNat_pteIndex]
  unfold Ospp.pdeIndex Ospp.pteIndex
  omega

/-- The window begins with its first page. -/
theorem lt_ptBase_iff : v < ptBase ↔ v.toNat / 4096 < Mm.windowPage := by
  rw [UInt32.lt_iff_toNat_lt, show ptBase.toNat = Mm.windowPage * 4096 from rfl,
    Nat.div_lt_iff_lt_mul (by decide)]

/-- Distinct pages have their entries at distinct addresses. -/
theorem aligned_eq_of_pteEntry (h : pteEntry v = pteEntry w) :
    (alignAddress v).aligned = (alignAddress w).aligned := by
  have h1 := pteIndex_lt v
  have h2 := pteIndex_lt w
  have hnat := congrArg UInt32.toNat h
  rw [toNat_pteEntry, toNat_pteEntry] at hnat
  unfold Ospp.pteEntry Ospp.ptVirtualBase at hnat
  rw [← toNat_pdeIndex, ← toNat_pdeIndex, ← toNat_pteIndex, ← toNat_pteIndex] at hnat
  rw [aligned_eq_iff_index, ← UInt32.toNat_inj, ← UInt32.toNat_inj]
  omega

end VirtAddr

open VirtAddr

/-! ## The walk -/

/-- The physical address of word `i` of frame `f`. -/
def wordAddr (f i : ℕ) : ℕ := f * 4096 + i * 4

theorem wordAddr_inj {f g i j : ℕ} (hi : i < 1024) (hj : j < 1024) :
    wordAddr f i = wordAddr g j ↔ f = g ∧ i = j := by
  unfold wordAddr
  omega

namespace Vmm

variable {m : Vmm} {v w : UInt32}

/-- The directory entry for the address is present. -/
def HasTable (m : Vmm) (v : UInt32) : Prop :=
  Entry.present (m.phys m.dir (VirtAddr.pdeIndex v).toNat) = true

instance (m : Vmm) (v : UInt32) : Decidable (m.HasTable v) := inferInstanceAs (Decidable (_ = _))

/-- The frame of the page table that the directory names for the address. -/
def tableOf (m : Vmm) (v : UInt32) : ℕ := Entry.frame (m.phys m.dir (VirtAddr.pdeIndex v).toNat)

/-- What the walk finds at the addresses computed for `v`. -/
structure Reaches (m : Vmm) (v : UInt32) : Prop where
  pde : m.translate (VirtAddr.pdeEntry v).toNat =
    some (wordAddr m.dir (VirtAddr.pdeIndex v).toNat)
  pte : m.translate (VirtAddr.pteEntry v).toNat =
    some (wordAddr (m.tableOf v) (VirtAddr.pteIndex v).toNat)
  words : ∀ i < 1024, m.translate (VirtAddr.ptVirtualBase v + UInt32.ofNat i * 4).toNat =
    some (wordAddr (m.tableOf v) i)
  covers : ∀ p, (∃ a, (alignAddress a).aligned = VirtAddr.ptVirtualBase v ∧
    m.translate a.toNat = some p) ↔ p / 4096 = m.tableOf v

/-- The walk leads to one word from the entry addresses of both. -/
def SharesPte (m : Vmm) (v w : UInt32) : Prop :=
  ∃ p, m.translate (VirtAddr.pteEntry v).toNat = some p ∧
    m.translate (VirtAddr.pteEntry w).toNat = some p

/-- The page at `pt_virtual_base` is the page table. -/
theorem translate_ptVirtualBase (h : m.SelfMapped) (hp : m.HasTable v) {a : UInt32}
    (ha : (alignAddress a).aligned = VirtAddr.ptVirtualBase v) :
    m.translate a.toNat = some (m.tableOf v * 4096 + a.toNat % 4096) := by
  have hbase := congrArg UInt32.toNat ha
  rw [toNat_aligned, toNat_ptVirtualBase] at hbase
  unfold Ospp.ptVirtualBase at hbase
  rw [← toNat_pdeIndex] at hbase
  have hsplit : a.toNat = 0xFFC00000 + (VirtAddr.pdeIndex v).toNat * 4096 + a.toNat % 4096 := by
    omega
  have hwalk := translate_window h (VirtAddr.pdeIndex_lt v) (Nat.mod_lt a.toNat (by norm_num)) hp
  rw [← hsplit] at hwalk
  exact hwalk

/-- An address of the page at `pt_virtual_base`. -/
theorem aligned_ptVirtualBase_add {o : ℕ} (ho : o < 4096) :
    (alignAddress (VirtAddr.ptVirtualBase v + UInt32.ofNat o)).aligned = VirtAddr.ptVirtualBase v ∧
      (VirtAddr.ptVirtualBase v + UInt32.ofNat o).toNat % 4096 = o := by
  have hlt := VirtAddr.pdeIndex_lt v
  have hbase := toNat_ptVirtualBase v
  unfold Ospp.ptVirtualBase at hbase
  rw [← toNat_pdeIndex] at hbase
  have hsum : (VirtAddr.ptVirtualBase v + UInt32.ofNat o).toNat =
      (VirtAddr.ptVirtualBase v).toNat + o := by
    rw [UInt32.toNat_add, UInt32.toNat_ofNat_of_lt' (ho.trans (by decide))]
    omega
  rw [← UInt32.toNat_inj, toNat_aligned, hsum]
  omega

theorem SelfMapped.reaches (h : m.SelfMapped) (hp : m.HasTable v) : m.Reaches v := by
  refine ⟨?_, ?_, fun i hi => ?_, fun p => ⟨?_, fun hpt => ?_⟩⟩
  · rw [toNat_pdeEntry, toNat_pdeIndex]
    exact translate_pdeEntry h v.toNat
  · unfold HasTable at hp
    unfold tableOf
    rw [toNat_pdeIndex] at hp ⊢
    rw [toNat_pteEntry, toNat_pteIndex]
    exact translate_pteEntry h hp
  · have hoff : UInt32.ofNat i * 4 = UInt32.ofNat (i * 4) := by
      rw [UInt32.ofNat_mul]
      rfl
    obtain ⟨hpage, ho⟩ := aligned_ptVirtualBase_add (v := v) (show i * 4 < 4096 by omega)
    rw [hoff, translate_ptVirtualBase h hp hpage, ho]
    rfl
  · rintro ⟨a, ha, hwalk⟩
    rw [translate_ptVirtualBase h hp ha, Option.some.injEq] at hwalk
    omega
  · obtain ⟨hpage, ho⟩ := aligned_ptVirtualBase_add (v := v) (Nat.mod_lt p (by norm_num))
    refine ⟨_, hpage, ?_⟩
    rw [translate_ptVirtualBase h hp hpage, ho, ← hpt]
    exact congrArg some (by omega)

/-- Who shares a word. -/
theorem Reaches.sharesPte_iff (hv : m.Reaches v) (hw : m.Reaches w) : m.SharesPte v w ↔
    VirtAddr.pteIndex v = VirtAddr.pteIndex w ∧ m.tableOf v = m.tableOf w := by
  have heq := wordAddr_inj (f := m.tableOf v) (g := m.tableOf w) (VirtAddr.pteIndex_lt v)
    (VirtAddr.pteIndex_lt w)
  unfold SharesPte
  rw [hv.pte, hw.pte, ← UInt32.toNat_inj, and_comm, ← heq]
  constructor
  · rintro ⟨p, h1, h2⟩
    exact Option.some.inj (h1.trans h2.symm)
  · intro he
    exact ⟨_, rfl, by rw [he]⟩

/-- **The recursive window.** Where entry 1023 of the directory names the directory, the walk of the
computed addresses reaches the entries they are computed for. Distinct pages have distinct entry
addresses, and share a word exactly if they have the same index in one page table that the directory
names for both. -/
theorem recursiveWindow (h : m.SelfMapped) : (∀ v, m.HasTable v → m.Reaches v) ∧
    ∀ v w, m.HasTable v → m.HasTable w → (alignAddress v).aligned ≠ (alignAddress w).aligned →
      VirtAddr.pteEntry v ≠ VirtAddr.pteEntry w ∧
      (m.SharesPte v w ↔
        VirtAddr.pteIndex v = VirtAddr.pteIndex w ∧ m.tableOf v = m.tableOf w) :=
  ⟨fun _ hv => h.reaches hv, fun _ _ hv hw hne => ⟨fun he => hne (aligned_eq_of_pteEntry he),
    (h.reaches hv).sharesPte_iff (h.reaches hw)⟩⟩

end Vmm

/-- **No sharing.** Where the page tables are distinct, as the operations of `vmm` keep them,
distinct pages below the window have distinct words. -/
theorem Mm.WF.not_sharesPte {s : Mm} (h : s.WF) {v w : UInt32} (hv : v < ptBase) (hw : w < ptBase)
    (hvt : s.vmm.HasTable v) (hwt : s.vmm.HasTable w)
    (hne : (alignAddress v).aligned ≠ (alignAddress w).aligned) : ¬ s.vmm.SharesPte v w := by
  have hlow : ∀ u : UInt32, u < ptBase → (VirtAddr.pdeIndex u).toNat < 1023 := by
    intro u hu
    have hlt := lt_ptBase_iff.1 hu
    unfold Mm.windowPage at hlt
    rw [toNat_pdeIndex]
    unfold Ospp.pdeIndex
    omega
  rw [(h.self.reaches hvt).sharesPte_iff (h.self.reaches hwt)]
  rintro ⟨hidx, htab⟩
  have hpde := h.table_inj _ (hlow v hv) _ (hlow w hw) _ (table_eq_some.2 ⟨hvt, rfl⟩)
    (table_eq_some.2 ⟨hwt, htab.symm⟩)
  exact hne (aligned_eq_iff_index.2 ⟨UInt32.toNat_inj.1 hpde, hidx⟩)

/-- A directory in frame 1 that names the page table in frame 2 twice. -/
def twiceNamed : Vmm where
  dir := 1
  phys f i :=
    if f = 1 then
      if i = 1023 then Entry.make 0x1000 3 else if i ≤ 1 then Entry.make 0x2000 3 else 0
    else 0

/-- The first pages of both ranges have one entry. -/
theorem twiceNamed_shares : twiceNamed.SelfMapped ∧ twiceNamed.HasTable 0 ∧
    twiceNamed.HasTable 0x00400000 ∧ (0x00400000 : UInt32) < ptBase ∧
    (alignAddress 0).aligned ≠ (alignAddress 0x00400000).aligned ∧
    twiceNamed.SharesPte 0 0x00400000 :=
  ⟨⟨by decide, by decide⟩, by decide, by decide, by decide, by decide, 0x2000, by decide, by decide⟩

/-- The directory and the page table of `vmm::init`. -/
theorem recursiveWindow_firstTables : (Mm.firstTables (fun _ _ => 0) 1 2).Reaches 0x00123456 ∧
    ¬ (Mm.firstTables (fun _ _ => 0) 1 2).SharesPte 0x00123456 0x00124000 := by
  obtain ⟨h1, h2⟩ := Vmm.recursiveWindow (m := Mm.firstTables (fun _ _ => 0) 1 2)
    ⟨by decide, by decide⟩
  have hv : (Mm.firstTables (fun _ _ => 0) 1 2).HasTable 0x00123456 := by decide
  refine ⟨h1 _ hv, fun hs => ?_⟩
  have hidx := ((h2 _ _ hv (by decide) (by decide)).2.1 hs).1
  exact absurd hidx (by decide)

end Ospp
