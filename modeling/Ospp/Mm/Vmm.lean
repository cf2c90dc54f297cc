import Ospp.Lib.Radix
import Ospp.Mm.Pmm

/-!
# The virtual memory manager

`mm::vmm`: two-level page tables that the kernel edits through the recursive window, entry 1023 of
the directory pointing to the directory itself. `translate` is the walk of the processor, and every
access to an entry goes through it: `pde_entry` and `pte_entry` are virtual addresses.

Physical memory is kept as words, by frame number and index. Only page tables are written here; the
contents of other frames do not matter to this module. Each change of an entry is followed by the
flush of its translation, so the walk is the translation in force.
-/

namespace Ospp

/-! ## Entries -/

/-- The flags `Present`, `Writable` and `User`. -/
def flagPresent : ℕ := 1

def flagWritable : ℕ := 2

def flagUser : ℕ := 4

namespace Entry

def address (w : ℕ) : ℕ := w &&& 0xFFFFF000

def setAddress (w physicalAddr : ℕ) : ℕ := (w &&& 0xFFF) ||| (physicalAddr &&& 0xFFFFF000)

def hasFlag (w flag : ℕ) : Bool := (w &&& 0xFFF &&& flag) == flag

def updateFlags (w flags : ℕ) : ℕ := w ||| (flags &&& 0xFFF)

/-- `invalidate`, `set_address` and `update_flags` in a row. -/
def make (physicalAddr flags : ℕ) : ℕ := updateFlags (setAddress 0 physicalAddr) flags

def present (w : ℕ) : Bool := hasFlag w flagPresent

/-- The frame an entry names. -/
def frame (w : ℕ) : ℕ := address w / 4096

theorem address_eq (w : ℕ) : address w = w / 4096 % 1048576 * 4096 := by
  apply Nat.eq_of_testBit_eq
  intro i
  have h1 : (0xFFFFF000 : ℕ) = (2 ^ 20 - 1) * 2 ^ 12 := by norm_num
  have h2 : w / 4096 % 1048576 * 4096 = w / 2 ^ 12 % 2 ^ 20 * 2 ^ 12 := by norm_num
  unfold address
  rw [h1, h2, Nat.testBit_and, Nat.testBit_mul_two_pow, Nat.testBit_two_pow_sub_one,
    Nat.testBit_mul_two_pow, Nat.testBit_mod_two_pow, Nat.testBit_div_two_pow]
  by_cases hi : 12 ≤ i
  · simp only [hi, decide_true, Bool.true_and, show i - 12 + 12 = i by omega]
    exact Bool.and_comm _ _
  · simp [hi]

theorem frame_eq (w : ℕ) : frame w = w / 4096 % 1048576 := by
  unfold frame; rw [address_eq]; omega

theorem address_eq_frame (w : ℕ) : address w = frame w * 4096 := by
  rw [frame_eq, address_eq]

theorem and_mask (w : ℕ) : w &&& 0xFFF = w % 4096 := Nat.and_two_pow_sub_one_eq_mod w 12

theorem present_eq (w : ℕ) : present w = decide (w % 2 = 1) := by
  unfold present hasFlag flagPresent
  rw [and_mask]
  have h : w % 4096 &&& 1 = w % 2 := by
    rw [Nat.and_one_is_mod]; omega
  rw [h]
  exact Bool.eq_iff_iff.2 (by simp)

theorem make_eq (physicalAddr flags : ℕ) :
    make physicalAddr flags = physicalAddr / 4096 % 1048576 * 4096 + flags % 4096 := by
  unfold make updateFlags setAddress
  have h := address_eq physicalAddr
  unfold address at h
  rw [Nat.zero_and, Nat.zero_or, h, and_mask]
  have hlt : flags % 4096 < 2 ^ 12 := Nat.mod_lt _ (by norm_num)
  have := Nat.two_pow_add_eq_or_of_lt hlt (physicalAddr / 4096 % 1048576)
  rw [Nat.mul_comm] at this
  norm_num at this
  exact this.symm

theorem frame_make (physicalAddr flags : ℕ) :
    frame (make physicalAddr flags) = physicalAddr / 4096 % 1048576 := by
  rw [frame_eq, make_eq]; omega

theorem present_make (physicalAddr flags : ℕ) :
    present (make physicalAddr flags) = decide (flags % 2 = 1) := by
  rw [present_eq, make_eq]
  congr 1
  apply propext
  omega

theorem frame_updateFlags (w flags : ℕ) : frame (updateFlags w flags) = frame w := by
  rw [frame_eq, frame_eq]
  unfold updateFlags
  have hlt : (flags &&& 0xFFF) / 2 ^ 12 = 0 := by
    rw [and_mask]; norm_num
  have h := Nat.or_div_two_pow (a := w) (b := flags &&& 0xFFF) (n := 12)
  rw [hlt, Nat.or_zero] at h
  norm_num at h
  rw [h]

theorem present_updateFlags {w : ℕ} (flags : ℕ) (h : present w = true) :
    present (updateFlags w flags) = true := by
  rw [present_eq, decide_eq_true_eq] at *
  have hbit : w.testBit 0 = true := by rw [Nat.testBit_zero]; simpa using h
  have : (updateFlags w flags).testBit 0 = true := by
    unfold updateFlags
    rw [Nat.testBit_or, hbit, Bool.true_or]
  rw [Nat.testBit_zero] at this
  simpa using this

theorem present_zero : present 0 = false := by decide

end Entry

/-! ## Translation -/

def pdeIndex (virtAddr : ℕ) : ℕ := virtAddr / 4194304 % 1024

def pteIndex (virtAddr : ℕ) : ℕ := virtAddr / 4096 % 1024

/-- The address `pde_entry` refers to. -/
def pdeEntry (virtAddr : ℕ) : ℕ := 0xFFFFF000 + pdeIndex virtAddr * 4

def ptVirtualBase (virtAddr : ℕ) : ℕ := 0xFFC00000 + pdeIndex virtAddr * 4096

/-- The address `pte_entry` refers to. -/
def pteEntry (virtAddr : ℕ) : ℕ := ptVirtualBase virtAddr + pteIndex virtAddr * 4

structure Vmm where
  /-- The words of physical memory, by frame and index. -/
  phys : ℕ → ℕ → ℕ
  /-- The frame of `kernel_dir_phys`, which `CR3` holds. -/
  dir : ℕ

namespace Vmm

/-- The two-level walk of the processor. -/
def translate (m : Vmm) (virtAddr : ℕ) : Option ℕ :=
  let pde := m.phys m.dir (pdeIndex virtAddr)
  if Entry.present pde then
    let pte := m.phys (Entry.frame pde) (pteIndex virtAddr)
    if Entry.present pte then some (Entry.address pte + virtAddr % 4096) else none
  else none

def readEntry (m : Vmm) (a : ℕ) : K ℕ :=
  match m.translate a with
  | none => .error (.pageFault a)
  | some p => .ok (m.phys (p / 4096) (p % 4096 / 4))

/-- The word `i` of frame `f` becomes `w`. -/
def set (m : Vmm) (f i w : ℕ) : Vmm :=
  { m with phys := fun f' i' => if f' = f ∧ i' = i then w else m.phys f' i' }

def writeEntry (m : Vmm) (a w : ℕ) : K Vmm :=
  match m.translate a with
  | none => .error (.pageFault a)
  | some p => .ok (m.set (p / 4096) (p % 4096 / 4) w)

/-- `memset(a, 0, PAGE_SIZE)` on a page. -/
def zeroPage (m : Vmm) (a : ℕ) : K Vmm :=
  match m.translate a with
  | none => .error (.pageFault a)
  | some p => .ok { m with phys := fun f i => if f = p / 4096 then 0 else m.phys f i }

end Vmm

/-- Physical and virtual memory management together. -/
structure Mm where
  pmm : Pmm
  vmm : Vmm

namespace Mm

/-- The two tables `vmm::init` writes, at their physical addresses since paging is off: the
directory in frame `pd`, and the table of the identity window in frame `pt`. -/
def firstTables (phys : ℕ → ℕ → ℕ) (pd pt : ℕ) : Vmm where
  dir := pd
  phys f i :=
    if f = pd then
      if i = 1023 then Entry.make (pd * pageSize) (flagPresent ||| flagWritable)
      else if i = 0 then Entry.make (pt * pageSize) (flagPresent ||| flagWritable)
      else 0
    else if f = pt then Entry.make (i * pageSize) (flagPresent ||| flagWritable)
    else phys f i

/-- `vmm::init`. -/
def init (pmm : Pmm) (phys : ℕ → ℕ → ℕ) : K Mm := do
  let (pmm, pdPhys) ← pmm.allocFrames 1
  let (pmm, ptPhys) ← pmm.allocFrames 1
  if pdPhys = 0 ∨ ptPhys = 0 then
    throw (.panic "vmm::init: out of physical memory")
  else
    return ⟨pmm, firstTables phys (pdPhys / pageSize) (ptPhys / pageSize)⟩

def ensurePageTable (s : Mm) (virtAddr flags : ℕ) : K Mm := do
  let pde ← s.vmm.readEntry (pdeEntry virtAddr)
  if Entry.present pde then
    let vmm ← s.vmm.writeEntry (pdeEntry virtAddr) (Entry.updateFlags pde flags)
    return { s with vmm := vmm }
  else
    let (pmm, ptPhys) ← s.pmm.allocFrames 1
    if ptPhys = 0 then throw (.panic "ensure_page_table: out of physical memory")
    else
      let vmm ← s.vmm.writeEntry (pdeEntry virtAddr)
        (Entry.make ptPhys (flagPresent ||| flagWritable ||| (flags &&& flagUser)))
      let vmm ← vmm.zeroPage (ptVirtualBase virtAddr)
      return ⟨pmm, vmm⟩

/-- `align_address(addr).aligned`. -/
def pageBase (addr : ℕ) : ℕ := addr &&& 0xFFFFF000

def mapPageLocked (s : Mm) (virtAddr physAddr flags : ℕ) : K Mm := do
  let virtAddr := pageBase virtAddr
  let s ← s.ensurePageTable virtAddr flags
  let vmm ← s.vmm.writeEntry (pteEntry virtAddr) (Entry.make (pageBase physAddr) flags)
  return { s with vmm := vmm }

def unmapPageLocked (s : Mm) (virtAddr : ℕ) : K Mm := do
  let virtAddr := pageBase virtAddr
  let pde ← s.vmm.readEntry (pdeEntry virtAddr)
  if !Entry.present pde then return s
  else
    let pte ← s.vmm.readEntry (pteEntry virtAddr)
    if !Entry.present pte then return s
    else
      let pmm ← s.pmm.freeFrames (Entry.address pte) 1
      let vmm ← s.vmm.writeEntry (pteEntry virtAddr) 0
      return ⟨pmm, vmm⟩

/-- The loop of `map_pages` from page `i` on. -/
def mapRun (virtAddr physAddr flags : ℕ) : ℕ → ℕ → Mm → K Mm
  | 0, _, s => .ok s
  | n + 1, i, s => do
    let s ← s.mapPageLocked (Word32.add virtAddr (Word32.mul i pageSize))
      (Word32.add physAddr (Word32.mul i pageSize)) flags
    mapRun virtAddr physAddr flags n (i + 1) s

def mapPages (s : Mm) (virtAddr physAddr pages flags : ℕ) : K Mm :=
  mapRun (pageBase virtAddr) (pageBase physAddr) flags pages 0 s

/-- The loop of `unmap_pages` from page `i` on. -/
def unmapRun (virtAddr : ℕ) : ℕ → ℕ → Mm → K Mm
  | 0, _, s => .ok s
  | n + 1, i, s => do
    let s ← s.unmapPageLocked (Word32.add virtAddr (Word32.mul i pageSize))
    unmapRun virtAddr n (i + 1) s

def unmapPages (s : Mm) (virtAddr pages : ℕ) : K Mm := unmapRun (pageBase virtAddr) pages 0 s

end Mm

/-! ## The recursive window -/

namespace Vmm

variable {m : Vmm}

/-- Entry 1023 of the directory points to the directory. -/
def SelfMapped (m : Vmm) : Prop :=
  Entry.present (m.phys m.dir 1023) = true ∧ Entry.frame (m.phys m.dir 1023) = m.dir

theorem pdeIndex_lt (v : ℕ) : pdeIndex v < 1024 := Nat.mod_lt _ (by norm_num)

theorem pteIndex_lt (v : ℕ) : pteIndex v < 1024 := Nat.mod_lt _ (by norm_num)

/-- The frame that a word of a frame names. -/
def next (m : Vmm) (f i : ℕ) : Option ℕ :=
  if Entry.present (m.phys f i) then some (Entry.frame (m.phys f i)) else none

theorem next_of_present {f i : ℕ} (hp : Entry.present (m.phys f i) = true) :
    m.next f i = some (Entry.frame (m.phys f i)) := if_pos hp

theorem translate_eq_walk (m : Vmm) (a : ℕ) : m.translate a =
    (Radix.walk m.next m.dir [pdeIndex a, pteIndex a]).map fun f => f * 4096 + a % 4096 := by
  have hwalk : Radix.walk m.next m.dir [pdeIndex a, pteIndex a] =
      (m.next m.dir (pdeIndex a)).bind fun f => m.next f (pteIndex a) := by
    rw [Radix.walk_cons]
    simp only [Radix.walk_singleton]
  rw [hwalk]
  unfold translate
  dsimp only
  by_cases hpde : Entry.present (m.phys m.dir (pdeIndex a)) = true
  · rw [if_pos hpde, next_of_present hpde, Option.bind_some]
    by_cases hpte : Entry.present (m.phys (Entry.frame (m.phys m.dir (pdeIndex a))) (pteIndex a)) =
        true
    · rw [if_pos hpte, next_of_present hpte, Option.map_some, Entry.address_eq_frame]
    · rw [if_neg hpte, next, if_neg hpte, Option.map_none]
  · rw [if_neg hpde, next, if_neg hpde, Option.bind_none, Option.map_none]

theorem SelfMapped.next_self (h : m.SelfMapped) : m.next m.dir 1023 = some m.dir := by
  rw [next_of_present h.1, h.2]

/-- Through entry 1023 the directory is one more page table. -/
theorem translate_window (h : m.SelfMapped) {i off : ℕ} (hi : i < 1024) (ho : off < 4096)
    (hp : Entry.present (m.phys m.dir i) = true) :
    m.translate (0xFFC00000 + i * 4096 + off) =
      some (Entry.frame (m.phys m.dir i) * 4096 + off) := by
  have h1 : pdeIndex (0xFFC00000 + i * 4096 + off) = 1023 := by unfold pdeIndex; omega
  have h2 : pteIndex (0xFFC00000 + i * 4096 + off) = i := by unfold pteIndex; omega
  have h3 : (0xFFC00000 + i * 4096 + off) % 4096 = off := by omega
  have hwalk : Radix.walk m.next m.dir [1023, i] = some (Entry.frame (m.phys m.dir i)) := by
    rw [← next_of_present hp, ← Radix.walk_singleton m.next]
    exact Radix.walk_replicate h.next_self 1 [i]
  rw [translate_eq_walk, h1, h2, h3, hwalk]
  rfl

/-- Through entry 1023 twice the directory is the page. -/
theorem translate_pdeEntry (h : m.SelfMapped) (v : ℕ) :
    m.translate (pdeEntry v) = some (m.dir * 4096 + pdeIndex v * 4) := by
  have hlt := pdeIndex_lt v
  have h1 : pdeIndex (pdeEntry v) = 1023 := by unfold pdeEntry; rw [pdeIndex]; omega
  have h2 : pteIndex (pdeEntry v) = 1023 := by unfold pdeEntry pteIndex; omega
  have h3 : pdeEntry v % 4096 = pdeIndex v * 4 := by unfold pdeEntry; omega
  have hwalk : Radix.walk m.next m.dir [1023, 1023] = some m.dir :=
    Radix.walk_replicate h.next_self 2 []
  rw [translate_eq_walk, h1, h2, h3, hwalk]
  rfl

theorem translate_pteEntry (h : m.SelfMapped) {v : ℕ}
    (hp : Entry.present (m.phys m.dir (pdeIndex v)) = true) :
    m.translate (pteEntry v) =
      some (Entry.frame (m.phys m.dir (pdeIndex v)) * 4096 + pteIndex v * 4) :=
  translate_window h (pdeIndex_lt v) (by have := pteIndex_lt v; omega) hp

/-- Reading a word through the walk. -/
theorem readEntry_word {a f i : ℕ} (h : m.translate a = some (f * 4096 + i * 4)) (hi : i < 1024) :
    m.readEntry a = .ok (m.phys f i) := by
  unfold readEntry
  rw [h]
  dsimp only
  rw [show (f * 4096 + i * 4) / 4096 = f by omega, show (f * 4096 + i * 4) % 4096 / 4 = i by omega]

theorem writeEntry_word {a f i : ℕ} (h : m.translate a = some (f * 4096 + i * 4)) (hi : i < 1024)
    (w : ℕ) : m.writeEntry a w = .ok (m.set f i w) := by
  unfold writeEntry
  rw [h]
  dsimp only
  rw [show (f * 4096 + i * 4) / 4096 = f by omega, show (f * 4096 + i * 4) % 4096 / 4 = i by omega]

theorem readEntry_pde (h : m.SelfMapped) (v : ℕ) :
    m.readEntry (pdeEntry v) = .ok (m.phys m.dir (pdeIndex v)) :=
  readEntry_word (translate_pdeEntry h v) (pdeIndex_lt v)

theorem writeEntry_pde (h : m.SelfMapped) (v w : ℕ) :
    m.writeEntry (pdeEntry v) w = .ok (m.set m.dir (pdeIndex v) w) :=
  writeEntry_word (translate_pdeEntry h v) (pdeIndex_lt v) w

theorem readEntry_pte (h : m.SelfMapped) {v : ℕ}
    (hp : Entry.present (m.phys m.dir (pdeIndex v)) = true) :
    m.readEntry (pteEntry v) =
      .ok (m.phys (Entry.frame (m.phys m.dir (pdeIndex v))) (pteIndex v)) :=
  readEntry_word (translate_pteEntry h hp) (pteIndex_lt v)

theorem writeEntry_pte (h : m.SelfMapped) {v : ℕ} (w : ℕ)
    (hp : Entry.present (m.phys m.dir (pdeIndex v)) = true) :
    m.writeEntry (pteEntry v) w =
      .ok (m.set (Entry.frame (m.phys m.dir (pdeIndex v))) (pteIndex v) w) :=
  writeEntry_word (translate_pteEntry h hp) (pteIndex_lt v) w

theorem zeroPage_pt (h : m.SelfMapped) {v : ℕ}
    (hp : Entry.present (m.phys m.dir (pdeIndex v)) = true) :
    m.zeroPage (ptVirtualBase v) =
      .ok { m with phys := fun f i =>
        if f = Entry.frame (m.phys m.dir (pdeIndex v)) then 0 else m.phys f i } := by
  have hw : m.translate (0xFFC00000 + pdeIndex v * 4096 + 0) =
      some (Entry.frame (m.phys m.dir (pdeIndex v)) * 4096 + 0) :=
    translate_window h (pdeIndex_lt v) (by norm_num) hp
  unfold zeroPage ptVirtualBase
  rw [show 0xFFC00000 + pdeIndex v * 4096 = 0xFFC00000 + pdeIndex v * 4096 + 0 by omega, hw]
  dsimp only
  rw [show ∀ t : ℕ, (t * 4096 + 0) / 4096 = t by intro t; omega]

end Vmm

end Ospp
