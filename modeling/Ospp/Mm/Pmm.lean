import Ospp.Klib.Bitmap

/-!
# The physical memory manager

`mm::pmm`: a bitmap with one bit for each 4 KiB frame below 4 GiB, and the two counters. `init`
starts from a bitmap of reserved frames, frees what the boot loader's memory map calls available,
and reserves the kernel image, the boot modules and everything below them again.

Entries of the memory map are 64-bit; `init` reads their address and length into `uint32_t`.
-/

namespace Ospp

/-- `PAGE_SIZE`. -/
def pageSize : ℕ := 4096

/-- `MAX_FRAMES`. -/
def maxFrames : ℕ := 1048576

theorem maxFrames_pos : 0 < maxFrames := by decide

theorem pageSize_pos : 0 < pageSize := by decide

/-- `mm::PMM`. -/
def pmmSpec : BitmapSpec := ⟨0, maxFrames, pageSize, maxFrames_pos, pageSize_pos⟩

/-- `layout::boot::LOW_USABLE_BASE`. -/
def lowUsableBase : ℕ := 0x100000

/-- `__kernel_start`, which the linker script places at 2 MiB. -/
def kernelStart : ℕ := 0x200000

/-- The end of the kernel image, `__kernel_end`. -/
structure KernelImage where
  kernelEnd : ℕ
  start_le : kernelStart ≤ kernelEnd
  end_le : kernelEnd ≤ 0xFFFFF000

/-- `multiboot_memory_map_t`. -/
structure MemoryMapEntry where
  addr : UInt64
  len : UInt64
  type : UInt32
  deriving DecidableEq, Repr

/-- `multiboot_module_t`. -/
structure BootModule where
  modStart : UInt32
  modEnd : UInt32
  deriving DecidableEq, Repr

/-- What `pmm::init` reads of `multiboot_info_t`: the flag that says there is a memory map, the
map, and the modules `for_each_module` visits. -/
structure Multiboot where
  hasMemMap : Bool
  mmap : List MemoryMapEntry
  modules : List BootModule

/-- `MULTIBOOT_MEMORY_AVAILABLE`. -/
def MemoryMapEntry.isAvailable (e : MemoryMapEntry) : Bool := e.type == 1

/-- `multiboot::max_module_end_aligned`. -/
def Multiboot.maxModuleEndAligned (mb : Multiboot) : ℕ :=
  mb.modules.foldl
    (fun e m =>
      let alignedEnd := Word32.alignUp m.modEnd.toNat pageSize
      if e < alignedEnd then alignedEnd else e) 0

/-- `PageRange`: a run of frames. -/
structure PageRange where
  base : ℕ
  frames : ℕ
  deriving DecidableEq, Repr

namespace PageRange

/-- The default `PageRange{}`. -/
def none : PageRange := ⟨0, 0⟩

def size (r : PageRange) : ℕ := Word32.mul r.frames pageSize

def isEmpty (r : PageRange) : Bool := r.frames == 0

/-- The frame lies in the range. -/
def Covers (r : PageRange) (f : ℕ) : Prop :=
  r.base / pageSize ≤ f ∧ f < r.base / pageSize + r.frames

end PageRange

/-- `freeable_page_range`: the frames that lie wholly in the region. The arithmetic is 64-bit;
`& ~(PAGE_SIZE - 1)` is written as a division. -/
def freeablePageRange (base size minBase : ℕ) : PageRange :=
  if size = 0 then .none
  else
    let stop := base + size
    let ceil := maxFrames * pageSize
    if stop ≤ minBase ∨ ceil ≤ base then .none
    else
      let start := if base < minBase then minBase else base
      let stop := if ceil < stop then ceil else stop
      let start := (start + pageSize - 1) / pageSize * pageSize
      let stop := stop / pageSize * pageSize
      if stop ≤ start then .none else ⟨start, (stop - start) / pageSize⟩

/-- `covered_page_range`: the frames that the region touches. -/
def coveredPageRange (base size : ℕ) : PageRange :=
  if size = 0 then .none
  else
    let start := Word32.alignDown base pageSize
    let stop := Word32.alignUp (Word32.add base size) pageSize
    let ceil := maxFrames * pageSize
    if ceil ≤ start then .none
    else
      let stop := if ceil < stop then ceil else stop
      if stop ≤ start then .none else ⟨start, (stop - start) / pageSize⟩

structure Pmm where
  memMngr : Bitmap
  availableFrames : ℕ
  usedFrames : ℕ

namespace Pmm

/-- The frame is marked as in use. -/
def used (p : Pmm) (f : ℕ) : Bool := p.memMngr.testBit f

def initRegion (p : Pmm) (base size : ℕ) : K Pmm :=
  let range := freeablePageRange base size 0
  if range.isEmpty then .ok p
  else do
    let b ← p.memMngr.markUnitsFree pmmSpec range.base range.frames
    return { p with memMngr := b }

def deinitRegion (p : Pmm) (base size : ℕ) : K Pmm :=
  let range := coveredPageRange base size
  if range.isEmpty then .ok p
  else do
    let usedBefore := (List.range range.frames).countP fun i =>
      p.memMngr.allocated pmmSpec (Word32.add range.base (Word32.mul i pageSize))
    let b ← p.memMngr.markUnitsUsed pmmSpec range.base range.frames
    return { p with
      memMngr := b
      usedFrames := Word32.add p.usedFrames (Word32.sub range.frames usedBefore) }

/-- One entry of the memory map. -/
def addEntry (p : Pmm) (e : MemoryMapEntry) : K Pmm :=
  let base := e.addr.toNat % 4294967296
  let length := e.len.toNat % 4294967296
  if e.isAvailable then
    let range := freeablePageRange base length lowUsableBase
    if range.isEmpty then .ok p
    else
      { p with availableFrames := Word32.add p.availableFrames range.frames }.initRegion
        range.base range.size
  else .ok p

/-- Reserve a kernel or module image: both pass the span of the covered pages on to
`deinit_region`. -/
def reserveImage (p : Pmm) (start stop : ℕ) : K Pmm :=
  p.deinitRegion start (coveredPageRange start (Word32.sub stop start)).size

/-- The end of the low bootstrap area. -/
def lowBootReservedEnd (img : KernelImage) (mb : Multiboot) : ℕ :=
  let lowEnd := Word32.alignUp img.kernelEnd pageSize
  if lowEnd < mb.maxModuleEndAligned then mb.maxModuleEndAligned else lowEnd

def init (img : KernelImage) (p : Pmm) (mb : Multiboot) : K Pmm :=
  if !mb.hasMemMap then .error (.panic "Bootloader can't store memory map!\n")
  else do
    let b ← p.memMngr.markUnitsUsed pmmSpec 0 maxFrames
    let p ← mb.mmap.foldlM addEntry ⟨b, 0, 0⟩
    let p ← p.reserveImage kernelStart img.kernelEnd
    let p ← mb.modules.foldlM (fun p m => p.reserveImage m.modStart.toNat m.modEnd.toNat) p
    let lowEnd := lowBootReservedEnd img mb
    if lowUsableBase < lowEnd then
      p.deinitRegion lowUsableBase (Word32.sub lowEnd lowUsableBase)
    else return p

def allocFrames (p : Pmm) (count : ℕ) : K (Pmm × ℕ) := do
  let (b, addr) ← p.memMngr.allocUnits pmmSpec count
  return ({ p with memMngr := b, usedFrames := Word32.add p.usedFrames count }, addr)

def freeFrames (p : Pmm) (base count : ℕ) : K Pmm := do
  let b ← p.memMngr.freeUnits pmmSpec base count
  return { p with memMngr := b, usedFrames := Word32.sub p.usedFrames count }

/-! ## Allocation and release -/

/-- **`alloc_frames`.** The frames returned were free, and exactly they are in use now. -/
theorem allocFrames_eq_ok {p p' : Pmm} {count addr : ℕ}
    (h : p.allocFrames count = .ok (p', addr)) :
    ∃ i, i + count ≤ maxFrames ∧ addr = i * 4096 ∧ (∀ j < count, p.used (i + j) = false) ∧
      ∀ k, p'.used k = (p.used k || decide (i ≤ k ∧ k < i + count)) := by
  unfold allocFrames at h
  rw [K.bind_eq_ok] at h
  obtain ⟨⟨b, a⟩, hb, h⟩ := h
  cases h
  rcases Bitmap.allocUnits_eq_ok hb with ⟨rfl, rfl, rfl⟩ | ⟨_, i, hi, rfl, hfree, hread⟩
  · refine ⟨0, Nat.zero_le _, rfl, fun j hj => absurd hj (Nat.not_lt_zero j), fun k => ?_⟩
    rw [decide_eq_false (by omega), Bool.or_false]
    rfl
  · refine ⟨i, hi, ?_, hfree, hread⟩
    have : i + count ≤ 1048576 := hi
    show Word32.add 0 (Word32.mul i 4096) = i * 4096
    rw [Word32.mul_eq (by omega), Word32.add_eq (by omega), Nat.zero_add]

/-- Where a run of free frames starts at `k` and every frame below is in use, it is the run that is
allocated next. -/
theorem exists_allocFrames {p : Pmm} {count k : ℕ} (hpos : 0 < count) (hk : k + count ≤ maxFrames)
    (hfree : ∀ j < count, p.used (k + j) = false) (hlow : ∀ j < k, p.used j = true) :
    ∃ p', p.allocFrames count = .ok (p', k * 4096) ∧
      ∀ j, p'.used j = (p.used j || decide (k ≤ j ∧ j < k + count)) := by
  obtain ⟨b, i, hi, hb⟩ := Bitmap.exists_allocUnits (t := pmmSpec) (b := p.memMngr) (k := k)
    hpos hk hfree
  have ha : p.allocFrames count = .ok (⟨b, p.availableFrames, Word32.add p.usedFrames count⟩,
      Word32.add pmmSpec.baseAddr (Word32.mul i pmmSpec.unitSize)) := by
    unfold allocFrames; rw [hb]; rfl
  obtain ⟨i', hi', haddr, hfree', hread⟩ := allocFrames_eq_ok ha
  have hik : i' = k := by
    have hge : k ≤ i' := by
      by_contra hc
      have := hfree' 0 hpos
      rw [Nat.add_zero, hlow i' (by omega)] at this
      cases this
    unfold maxFrames at hk hi'
    have hi0 : Word32.add pmmSpec.baseAddr (Word32.mul i pmmSpec.unitSize) = i * 4096 := by
      show Word32.add 0 (Word32.mul i 4096) = i * 4096
      rw [Word32.mul_eq (by omega), Word32.add_eq (by omega), Nat.zero_add]
    omega
  subst hik
  exact ⟨_, by rw [ha, haddr], hread⟩

/-- The frames below `k` are in use, those from there up to `n` are free. -/
def FilledTo (p : Pmm) (k n : ℕ) : Prop :=
  (∀ j < k, p.used j = true) ∧ ∀ j, k ≤ j → j < n → p.used j = false

theorem FilledTo.alloc {p p' : Pmm} {k n count : ℕ} (h : p.FilledTo k n)
    (hused : ∀ j, p'.used j = (p.used j || decide (k ≤ j ∧ j < k + count))) :
    p'.FilledTo (k + count) n := by
  refine ⟨fun j hj => ?_, fun j h1 h2 => ?_⟩
  · rw [hused, Bool.or_eq_true, decide_eq_true_eq]
    by_cases hj' : j < k
    · exact Or.inl (h.1 j hj')
    · exact Or.inr (by omega)
  · rw [hused, h.2 j (by omega) h2, decide_eq_false (by omega), Bool.or_false]

theorem FilledTo.exists_allocFrames {p : Pmm} {k n : ℕ} (h : p.FilledTo k n) (count : ℕ)
    (hpos : 0 < count) (hk : k + count ≤ n) (hn : n ≤ maxFrames) :
    ∃ p', p.allocFrames count = .ok (p', k * 4096) ∧ p'.FilledTo (k + count) n := by
  obtain ⟨p', ha, hused⟩ := Pmm.exists_allocFrames hpos (hk.trans hn)
    (fun j hj => h.2 _ (by omega) (by omega)) h.1
  exact ⟨p', ha, h.alloc hused⟩

/-- **`free_frames`.** The frames were in use, and exactly they are free now. -/
theorem freeFrames_eq_ok {p p' : Pmm} {base count : ℕ} (hlt : base / 4096 + count ≤ 4294967296)
    (h : p.freeFrames base count = .ok p') :
    (∀ j < count, p.used (base / 4096 + j) = true) ∧
      ∀ k, p'.used k =
        (p.used k && !decide (base / 4096 ≤ k ∧ k < base / 4096 + count)) := by
  unfold freeFrames at h
  rw [K.bind_eq_ok] at h
  obtain ⟨b, hb, h⟩ := h
  cases h
  rcases Bitmap.freeUnits_eq_ok (t := pmmSpec) hlt hb with ⟨rfl, rfl⟩ | ⟨_, _, _, _, hset, hread⟩
  · refine ⟨fun j hj => absurd hj (Nat.not_lt_zero j), fun k => ?_⟩
    have hout : ¬ (base / 4096 ≤ k ∧ k < base / 4096 + 0) := by omega
    rw [decide_eq_false hout, Bool.not_false, Bool.and_true]
    unfold used
    rfl
  · exact ⟨hset, hread⟩

/-! ## Page ranges -/

theorem covers_freeable (base size minBase f : ℕ) :
    (freeablePageRange base size minBase).Covers f ↔
      base ≤ 4096 * f ∧ minBase ≤ 4096 * f ∧ 4096 * (f + 1) ≤ base + size ∧ f < 1048576 := by
  unfold freeablePageRange PageRange.Covers maxFrames pageSize
  dsimp only
  split_ifs <;> simp only [PageRange.none] <;> omega

/-- A range of frames below 4 GiB is one that `mark_units_free` accepts. -/
theorem freeable_le (base size minBase : ℕ) :
    let r := freeablePageRange base size minBase
    r.base % 4096 = 0 ∧ r.base / 4096 + r.frames ≤ 1048576 ∧ (r.frames = 0 ∨ minBase ≤ r.base) := by
  unfold freeablePageRange maxFrames pageSize
  dsimp only
  split_ifs
  all_goals first
    | exact ⟨rfl, by decide, Or.inl rfl⟩
    | (dsimp only; omega)

/-- `align_up` to a page, carry included. -/
theorem alignUp_page (x : ℕ) : Word32.alignUp x 4096 = (x + 4095) % 4294967296 / 4096 * 4096 := by
  have h1 : Word32.sub (Word32.add x 4096) 1 = (x + 4095) % 4294967296 := by
    unfold Word32.sub Word32.add; omega
  have h2 : Word32.sub 4096 1 = 2 ^ 12 - 1 := by decide +kernel
  unfold Word32.alignUp
  rw [h1, h2, Word32.and_compl_two_pow (by omega) (by omega)]
  norm_num

theorem alignDown_page {x : ℕ} (h : x < 4294967296) :
    Word32.alignDown x 4096 = x / 4096 * 4096 :=
  Word32.alignDown_two_pow (k := 12) h (by norm_num)

/-- The covered range of a region, by the two ends it computes. -/
theorem coveredPageRange_eq {base : ℕ} (size : ℕ) (hb : base < 4294967296) :
    coveredPageRange base size =
      if size = 0 ∨ Word32.alignUp (Word32.add base size) 4096 ≤ base / 4096 * 4096 then .none
      else ⟨base / 4096 * 4096,
        (Word32.alignUp (Word32.add base size) 4096 - base / 4096 * 4096) / 4096⟩ := by
  have hlt := Word32.alignUp_lt (Word32.add base size) 4096
  unfold coveredPageRange maxFrames pageSize
  rw [alignDown_page hb]
  dsimp only
  by_cases h0 : size = 0
  · rw [if_pos h0, if_pos (Or.inl h0)]
  · rw [if_neg h0, if_neg (by omega), if_neg (by omega : ¬ 1048576 * 4096 < _)]
    by_cases hle : Word32.alignUp (Word32.add base size) 4096 ≤ base / 4096 * 4096
    · rw [if_pos hle, if_pos (Or.inr hle)]
    · rw [if_neg hle, if_neg (by omega)]

theorem covered_le {base : ℕ} (size : ℕ) (hb : base < 4294967296) :
    (coveredPageRange base size).base % 4096 = 0 ∧
      (coveredPageRange base size).base / 4096 + (coveredPageRange base size).frames ≤ 1048576 := by
  have hlt := Word32.alignUp_lt (Word32.add base size) 4096
  rw [coveredPageRange_eq size hb]
  split_ifs
  · exact ⟨rfl, by decide⟩
  · dsimp only; omega

/-- Reserving an image twice rounded reserves no frame beyond its end. -/
theorem covers_image {start stop f : ℕ} (hs : start < 4294967296) (hal : start % 4096 = 0)
    (he : stop < 4294967296)
    (h : (coveredPageRange start
      (coveredPageRange start (Word32.sub stop start)).size).Covers f) :
    4096 * f < Word32.alignUp stop 4096 := by
  have hstop : Word32.add start (Word32.sub stop start) = stop := by
    unfold Word32.add Word32.sub; omega
  have hup := alignUp_page stop
  rw [coveredPageRange_eq (Word32.sub stop start) hs, hstop] at h
  split_ifs at h with hin
  · have hzero : PageRange.none.size = 0 := by decide +kernel
    rw [hzero, coveredPageRange_eq _ hs, if_pos (Or.inl rfl)] at h
    exact absurd h.2 (Nat.not_lt.2 (Nat.zero_le _))
  · have hsize : PageRange.size ⟨start / 4096 * 4096,
        (Word32.alignUp stop 4096 - start / 4096 * 4096) / 4096⟩ =
          Word32.alignUp stop 4096 - start := by
      unfold PageRange.size pageSize
      rw [Word32.mul_eq (by dsimp only; omega)]
      dsimp only
      omega
    have hadd : Word32.add start (Word32.alignUp stop 4096 - start) = Word32.alignUp stop 4096 :=
      by unfold Word32.add; omega
    have hagain : Word32.alignUp (Word32.alignUp stop 4096) 4096 = Word32.alignUp stop 4096 := by
      rw [alignUp_page (Word32.alignUp stop 4096)]; omega
    rw [hsize, coveredPageRange_eq _ hs, hadd, hagain, if_neg (by omega)] at h
    unfold PageRange.Covers pageSize at h
    dsimp only at h
    omega

/-- The low bootstrap area. -/
theorem covers_low {stop f : ℕ} (hal : stop % 4096 = 0) (hlt : stop < 4294967296)
    (hlow : 1048576 < stop) :
    (coveredPageRange 1048576 (Word32.sub stop 1048576)).Covers f ↔
      256 ≤ f ∧ 4096 * f < stop := by
  have hstop : Word32.add 1048576 (Word32.sub stop 1048576) = stop := by
    unfold Word32.add Word32.sub; omega
  have hsub : Word32.sub stop 1048576 = stop - 1048576 := Word32.sub_eq hlt hlow.le
  have hup : Word32.alignUp stop 4096 = stop := by rw [alignUp_page]; omega
  rw [coveredPageRange_eq _ (by omega), hstop, hup, hsub, if_neg (by omega)]
  unfold PageRange.Covers pageSize
  dsimp only
  omega

/-! ## The steps of `init` -/

theorem startUnit_page {fn : String} {base count : ℕ} (hal : base % 4096 = 0)
    (hle : base / 4096 + count ≤ 1048576) :
    Bitmap.startUnit pmmSpec fn base count = .ok (base / 4096) := by
  unfold Bitmap.startUnit pmmSpec maxFrames pageSize
  dsimp only
  rw [if_neg (by omega), if_neg (by simpa using hal), Nat.sub_zero,
    if_neg (by rw [Word32.add_eq (by omega)]; omega)]

/-- A frame in use can be released. -/
theorem exists_freeFrame {p : Pmm} {k : ℕ} (hk : k < maxFrames) (hused : p.used k = true) :
    ∃ p', p.freeFrames (k * 4096) 1 = .ok p' := by
  unfold maxFrames at hk
  have hstart : Bitmap.startUnit pmmSpec "free_units" (k * 4096) 1 = .ok (k * 4096 / 4096) :=
    startUnit_page (Nat.mul_mod_left _ _) (by omega)
  rw [Nat.mul_div_cancel _ (by norm_num)] at hstart
  have hbit : p.memMngr.testBit (Word32.add k 0) = true := by
    rw [Word32.add_eq (by omega), Nat.add_zero]; exact hused
  have hrun : p.memMngr.freeRun k 1 0 = .ok (p.memMngr.clearBit (Word32.add k 0)) := by
    rw [Bitmap.freeRun, if_pos hbit, Bitmap.freeRun]
  unfold freeFrames Bitmap.freeUnits
  rw [if_neg one_ne_zero, hstart]
  simp only [K.bind_eq_ok]
  exact ⟨_, _, ⟨k, rfl, _, hrun, rfl⟩, rfl⟩

/-- `mark_units_free` and `mark_units_used` on a range of frames. -/
theorem exists_mark (used : Bool) (b : Bitmap) (base count : ℕ) (hal : base % 4096 = 0)
    (hle : base / 4096 + count ≤ 1048576) :
    ∃ b', (if used then b.markUnitsUsed pmmSpec base count
        else b.markUnitsFree pmmSpec base count) = .ok b' ∧
      ∀ k, b'.testBit k =
        if base / 4096 ≤ k ∧ k < base / 4096 + count then used else b.testBit k := by
  by_cases h0 : count = 0
  · subst h0
    refine ⟨b, ?_, fun k => ?_⟩
    · cases used <;> rfl
    · have hout : ¬ (base / 4096 ≤ k ∧ k < base / 4096 + 0) := by omega
      rw [if_neg hout]
  · refine ⟨b.markRun used (base / 4096) count 0, ?_, fun k => ?_⟩
    · unfold Bitmap.markUnitsUsed Bitmap.markUnitsFree
      rw [if_neg h0, startUnit_page hal hle, if_neg h0, startUnit_page hal hle]
      cases used <;> rfl
    · rw [Bitmap.testBit_markRun _ _ _ _ (by omega)]
      rfl

end Pmm

end Ospp
