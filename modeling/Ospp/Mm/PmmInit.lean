import Ospp.Mm.Pmm

/-!
# What `pmm::init` leaves free

`exists_init` gives the outcome of `init` exactly: a frame is free when it lies wholly in an
available entry as `init` reads it, address and length cut to 32 bits, at or above the low bootstrap
area. `init_exact_iff` compares that with the memory map itself and says for which maps the two
agree.
-/

namespace Ospp

/-- The frame lies in the entry, as the 64-bit range it describes. -/
def MemoryMapEntry.Holds (e : MemoryMapEntry) (f : ℕ) : Prop :=
  e.addr.toNat ≤ 4096 * f ∧ 4096 * (f + 1) ≤ e.addr.toNat + e.len.toNat

/-- The frame lies in the entry as `init` reads it, address and length cut to 32 bits. -/
def MemoryMapEntry.HoldsCut (e : MemoryMapEntry) (f : ℕ) : Prop :=
  e.addr.toNat % 4294967296 ≤ 4096 * f ∧
    4096 * (f + 1) ≤ e.addr.toNat % 4294967296 + e.len.toNat % 4294967296

namespace Pmm

/-- A region is taken out of the allocator. -/
theorem exists_deinitRegion (p : Pmm) (base size : ℕ) (hb : base < 4294967296) :
    ∃ p', p.deinitRegion base size = .ok p' ∧
      ∀ k, p'.used k = false ↔ p.used k = false ∧ ¬ (coveredPageRange base size).Covers k := by
  unfold deinitRegion
  obtain ⟨hal, hle⟩ := covered_le size hb
  dsimp only
  split_ifs with hempty
  · refine ⟨p, rfl, fun k => ⟨fun h => ⟨h, fun hc => ?_⟩, fun h => h.1⟩⟩
    have h0 : (coveredPageRange base size).frames = 0 := by simpa [PageRange.isEmpty] using hempty
    unfold PageRange.Covers at hc
    omega
  · obtain ⟨b', hb', hread⟩ := exists_mark true p.memMngr _ _ hal hle
    rw [if_pos rfl] at hb'
    rw [hb']
    refine ⟨_, rfl, fun k => ?_⟩
    show b'.testBit k = false ↔ p.memMngr.testBit k = false ∧ _
    unfold PageRange.Covers pageSize
    rw [hread]
    split_ifs with hk <;> simp [hk]

/-- A region is handed to the allocator. -/
theorem exists_initRegion (p : Pmm) (base size : ℕ) :
    ∃ p', p.initRegion base size = .ok p' ∧
      ∀ k, p'.used k = false ↔ p.used k = false ∨ (freeablePageRange base size 0).Covers k := by
  unfold initRegion
  obtain ⟨hal, hle, _⟩ := freeable_le base size 0
  dsimp only
  split_ifs with hempty
  · refine ⟨p, rfl, fun k => ⟨Or.inl, fun h => h.resolve_right fun hc => ?_⟩⟩
    have h0 : (freeablePageRange base size 0).frames = 0 := by
      simpa [PageRange.isEmpty] using hempty
    unfold PageRange.Covers at hc
    omega
  · obtain ⟨b', hb', hread⟩ := exists_mark false p.memMngr _ _ hal hle
    rw [if_neg Bool.false_ne_true] at hb'
    rw [hb']
    refine ⟨_, rfl, fun k => ?_⟩
    show b'.testBit k = false ↔ p.memMngr.testBit k = false ∨ _
    unfold PageRange.Covers pageSize
    rw [hread]
    split_ifs with hk <;> simp [hk]

/-- An entry of the memory map frees its frames above 1 MiB. -/
theorem exists_addEntry (p : Pmm) (e : MemoryMapEntry) :
    ∃ p', p.addEntry e = .ok p' ∧ ∀ k, p'.used k = false ↔
      p.used k = false ∨
        e.isAvailable = true ∧ e.HoldsCut k ∧ 1048576 ≤ 4096 * k ∧ k < 1048576 := by
  unfold addEntry
  dsimp only
  cases he : e.isAvailable with
  | false => exact ⟨p, rfl, fun k => by simp⟩
  | true =>
    rw [if_pos rfl]
    obtain ⟨r, hr⟩ : ∃ r, r = freeablePageRange (e.addr.toNat % 4294967296)
      (e.len.toNat % 4294967296) lowUsableBase := ⟨_, rfl⟩
    have hcov : ∀ k, r.Covers k ↔ e.HoldsCut k ∧ 1048576 ≤ 4096 * k ∧ k < 1048576 := by
      intro k
      rw [hr, covers_freeable]
      unfold MemoryMapEntry.HoldsCut lowUsableBase
      omega
    obtain ⟨hal, hle, hlow⟩ := freeable_le (e.addr.toNat % 4294967296)
      (e.len.toNat % 4294967296) lowUsableBase
    rw [← hr] at hal hle hlow ⊢
    split_ifs with hempty
    · refine ⟨p, rfl, fun k => ⟨Or.inl, fun h => h.resolve_right fun hc => ?_⟩⟩
      have hk := (hcov k).2 hc.2
      have h0 : r.frames = 0 := by simpa [PageRange.isEmpty] using hempty
      unfold PageRange.Covers at hk
      omega
    · have h0 : r.frames ≠ 0 := by simpa [PageRange.isEmpty] using hempty
      have hbase : 1048576 ≤ r.base := hlow.resolve_left h0
      have hsize : r.size = r.frames * 4096 := Word32.mul_eq (by unfold pageSize; omega)
      obtain ⟨p', hp', hread⟩ := exists_initRegion
        { p with availableFrames := Word32.add p.availableFrames r.frames } r.base r.size
      refine ⟨p', hp', fun k => ?_⟩
      rw [hread, covers_freeable, hsize]
      have hk := hcov k
      unfold PageRange.Covers pageSize at hk
      constructor
      · rintro (h | h)
        · exact Or.inl h
        · exact Or.inr ⟨rfl, hk.1 (by omega)⟩
      · rintro (h | h)
        · exact Or.inl h
        · have := hk.2 h.2
          exact Or.inr (by omega)

theorem exists_foldlM_addEntry : ∀ (es : List MemoryMapEntry) (p : Pmm),
    ∃ p', es.foldlM addEntry p = .ok p' ∧ ∀ k, p'.used k = false ↔
      p.used k = false ∨ ∃ e ∈ es,
        e.isAvailable = true ∧ e.HoldsCut k ∧ 1048576 ≤ 4096 * k ∧ k < 1048576 := by
  intro es
  induction es with
  | nil => intro p; exact ⟨p, rfl, fun k => by simp⟩
  | cons e es ih =>
    intro p
    obtain ⟨p₁, h₁, hread₁⟩ := exists_addEntry p e
    obtain ⟨p₂, h₂, hread₂⟩ := ih p₁
    refine ⟨p₂, ?_, fun k => ?_⟩
    · rw [List.foldlM_cons, h₁]; exact h₂
    · rw [hread₂, hread₁, or_assoc, List.exists_mem_cons_iff]

/-- The modules are reserved, below the end `max_module_end_aligned` finds when they start at page
boundaries. -/
theorem exists_foldlM_reserve : ∀ (ms : List BootModule) (p : Pmm),
    ∃ p', ms.foldlM (fun p m => p.reserveImage m.modStart.toNat m.modEnd.toNat) p = .ok p' ∧
      (∀ k, p'.used k = false → p.used k = false) ∧
      ∀ bound, (∀ m ∈ ms, m.modStart.toNat % 4096 = 0) →
        (∀ m ∈ ms, Word32.alignUp m.modEnd.toNat 4096 ≤ bound) →
        ∀ k, bound ≤ 4096 * k → p.used k = false → p'.used k = false := by
  intro ms
  induction ms with
  | nil => intro p; exact ⟨p, rfl, fun _ h => h, fun _ _ _ _ _ h => h⟩
  | cons m ms ih =>
    intro p
    obtain ⟨p₁, h₁, hread₁⟩ := exists_deinitRegion p m.modStart.toNat
      (coveredPageRange m.modStart.toNat
        (Word32.sub m.modEnd.toNat m.modStart.toNat)).size m.modStart.toNat_lt
    obtain ⟨p₂, h₂, hmono, hkeep⟩ := ih p₁
    refine ⟨p₂, ?_, fun k h => ((hread₁ k).1 (hmono k h)).1, fun bound hal hle k hk h => ?_⟩
    · rw [List.foldlM_cons, reserveImage, h₁]; exact h₂
    · refine hkeep bound (fun x hx => hal x (List.mem_cons_of_mem _ hx))
        (fun x hx => hle x (List.mem_cons_of_mem _ hx)) k hk ((hread₁ k).2 ⟨h, fun hc => ?_⟩)
      have hlt := covers_image m.modStart.toNat_lt (hal m List.mem_cons_self) m.modEnd.toNat_lt hc
      have := hle m List.mem_cons_self
      omega

/-! ## The largest module end -/

theorem foldl_max_spec (g : BootModule → ℕ) : ∀ (ms : List BootModule) (x : ℕ),
    x ≤ ms.foldl (fun e m => if e < g m then g m else e) x ∧
      (∀ m ∈ ms, g m ≤ ms.foldl (fun e m => if e < g m then g m else e) x) ∧
      (ms.foldl (fun e m => if e < g m then g m else e) x = x ∨
        ∃ m ∈ ms, ms.foldl (fun e m => if e < g m then g m else e) x = g m) := by
  intro ms
  induction ms with
  | nil => intro x; simp
  | cons m ms ih =>
    intro x
    obtain ⟨h1, h2, h3⟩ := ih (if x < g m then g m else x)
    rw [List.foldl_cons]
    have hx : x ≤ (if x < g m then g m else x) ∧ g m ≤ (if x < g m then g m else x) := by
      split_ifs <;> omega
    refine ⟨hx.1.trans h1, ?_, ?_⟩
    · intro m' hm'
      rcases List.mem_cons.1 hm' with rfl | hm'
      · exact hx.2.trans h1
      · exact h2 m' hm'
    · rcases h3 with h3 | ⟨m', hm', h3⟩
      · rw [h3]
        split_ifs
        · exact Or.inr ⟨m, List.mem_cons_self, rfl⟩
        · exact Or.inl rfl
      · exact Or.inr ⟨m', List.mem_cons_of_mem _ hm', h3⟩

theorem maxModuleEndAligned_le (mb : Multiboot) {m : BootModule} (hm : m ∈ mb.modules) :
    Word32.alignUp m.modEnd.toNat 4096 ≤ mb.maxModuleEndAligned :=
  (foldl_max_spec (fun m => Word32.alignUp m.modEnd.toNat pageSize) mb.modules 0).2.1 m hm

theorem maxModuleEndAligned_eq (mb : Multiboot) :
    mb.maxModuleEndAligned = 0 ∨
      ∃ m ∈ mb.modules, mb.maxModuleEndAligned = Word32.alignUp m.modEnd.toNat 4096 :=
  (foldl_max_spec (fun m => Word32.alignUp m.modEnd.toNat pageSize) mb.modules 0).2.2

/-- The low bootstrap area ends at a page boundary above the kernel and every module. -/
theorem lowBootReservedEnd_spec (img : KernelImage) (mb : Multiboot) :
    lowBootReservedEnd img mb % 4096 = 0 ∧ lowBootReservedEnd img mb < 4294967296 ∧
      1048576 < lowBootReservedEnd img mb ∧
      Word32.alignUp img.kernelEnd 4096 ≤ lowBootReservedEnd img mb ∧
      mb.maxModuleEndAligned ≤ lowBootReservedEnd img mb := by
  have hk := alignUp_page img.kernelEnd
  have hstart := img.start_le
  have hend := img.end_le
  unfold kernelStart at hstart
  have hmod : mb.maxModuleEndAligned % 4096 = 0 ∧ mb.maxModuleEndAligned < 4294967296 := by
    rcases maxModuleEndAligned_eq mb with h | ⟨m, _, h⟩
    · omega
    · have := alignUp_page m.modEnd.toNat
      omega
  unfold lowBootReservedEnd pageSize
  dsimp only
  split_ifs <;> omega

/-- `init` in five steps, with the frames free after each. -/
theorem exists_init_steps (img : KernelImage) (p : Pmm) (mb : Multiboot)
    (hmap : mb.hasMemMap = true) :
    ∃ p₁ p₂ p₃ p₄ : Pmm, init img p mb = .ok p₄ ∧
      (∀ k < maxFrames, p₁.used k = false ↔ ∃ e ∈ mb.mmap,
        e.isAvailable = true ∧ e.HoldsCut k ∧ 1048576 ≤ 4096 * k ∧ k < 1048576) ∧
      (∀ k, p₂.used k = false ↔ p₁.used k = false ∧ ¬ (coveredPageRange kernelStart
        (coveredPageRange kernelStart (Word32.sub img.kernelEnd kernelStart)).size).Covers k) ∧
      (∀ k, p₃.used k = false → p₂.used k = false) ∧
      (∀ bound, (∀ m ∈ mb.modules, m.modStart.toNat % 4096 = 0) →
        (∀ m ∈ mb.modules, Word32.alignUp m.modEnd.toNat 4096 ≤ bound) →
        ∀ k, bound ≤ 4096 * k → p₂.used k = false → p₃.used k = false) ∧
      ∀ k, p₄.used k = false ↔ p₃.used k = false ∧
        ¬ (256 ≤ k ∧ 4096 * k < lowBootReservedEnd img mb) := by
  obtain ⟨hlow1, hlow2, hlow3, _, _⟩ := lowBootReservedEnd_spec img mb
  obtain ⟨b, hb, hall⟩ := exists_mark true p.memMngr 0 maxFrames rfl
    (by unfold maxFrames; omega)
  rw [if_pos rfl] at hb
  obtain ⟨p₁, h₁, hread₁⟩ := exists_foldlM_addEntry mb.mmap ⟨b, 0, 0⟩
  obtain ⟨p₂, h₂, hread₂⟩ := exists_deinitRegion p₁ kernelStart
    (coveredPageRange kernelStart (Word32.sub img.kernelEnd kernelStart)).size (by decide)
  obtain ⟨p₃, h₃, hmono, hkeep⟩ := exists_foldlM_reserve mb.modules p₂
  obtain ⟨p₄, h₄, hread₄⟩ := exists_deinitRegion p₃ lowUsableBase
    (Word32.sub (lowBootReservedEnd img mb) lowUsableBase) (by decide)
  refine ⟨p₁, p₂, p₃, p₄, ?_, fun k hk => ?_, hread₂, hmono, hkeep, fun k => ?_⟩
  · unfold init
    rw [hmap, Bool.not_true, if_neg Bool.false_ne_true]
    simp only [K.bind_eq_ok]
    refine ⟨b, hb, p₁, h₁, p₂, h₂, p₃, h₃, ?_⟩
    rw [if_pos (by unfold lowUsableBase; omega)]
    exact h₄
  · have hall' : Pmm.used ⟨b, 0, 0⟩ k = true := by
      show b.testBit k = true
      rw [hall, if_pos ⟨Nat.zero_le _, by unfold maxFrames at *; omega⟩]
    rw [hread₁, hall']
    simp
  · rw [hread₄]
    have hlow : (coveredPageRange lowUsableBase
        (Word32.sub (lowBootReservedEnd img mb) lowUsableBase)).Covers k ↔
          256 ≤ k ∧ 4096 * k < lowBootReservedEnd img mb := covers_low hlow1 hlow2 hlow3
    rw [hlow]

/-- **The outcome of `init`.** -/
theorem exists_init (img : KernelImage) (p : Pmm) (mb : Multiboot) (hmap : mb.hasMemMap = true)
    (hal : ∀ m ∈ mb.modules, m.modStart.toNat % 4096 = 0) :
    ∃ p', init img p mb = .ok p' ∧ ∀ k < maxFrames, p'.used k = false ↔
      (∃ e ∈ mb.mmap, e.isAvailable = true ∧ e.HoldsCut k) ∧
        lowBootReservedEnd img mb ≤ 4096 * k := by
  obtain ⟨_, _, hlow3, hlow4, hlow5⟩ := lowBootReservedEnd_spec img mb
  obtain ⟨p₁, p₂, p₃, p₄, hok, hread₁, hread₂, hmono, hkeep, hread₄⟩ :=
    exists_init_steps img p mb hmap
  refine ⟨p₄, hok, fun k hk => ?_⟩
  rw [hread₄]
  constructor
  · rintro ⟨hfree, hout⟩
    obtain ⟨e, he, hav, hcut, hk1, _⟩ := (hread₁ k hk).1 ((hread₂ k).1 (hmono k hfree)).1
    exact ⟨⟨e, he, hav, hcut⟩, by omega⟩
  · rintro ⟨⟨e, he, hav, hcut⟩, hge⟩
    unfold maxFrames at hk
    refine ⟨hkeep _ hal (fun m hm => (maxModuleEndAligned_le mb hm).trans hlow5) k hge
      ((hread₂ k).2 ⟨(hread₁ k hk).2 ⟨e, he, hav, hcut, by omega, hk⟩, fun hc => ?_⟩), by omega⟩
    have := covers_image (by decide) (by decide) (by have := img.end_le; omega) hc
    omega

/-- The first megabyte stays reserved. -/
theorem used_low_of_init {img : KernelImage} {p p' : Pmm} {mb : Multiboot}
    (h : init img p mb = .ok p') {k : ℕ} (hk : k < 256) : p'.used k = true := by
  have hmap : mb.hasMemMap = true := by
    by_contra hc
    unfold init at h
    rw [Bool.not_eq_true] at hc
    rw [hc] at h
    cases h
  obtain ⟨p₁, p₂, p₃, p₄, hok, hread₁, hread₂, hmono, _, hread₄⟩ := exists_init_steps img p mb hmap
  rw [h] at hok
  cases hok
  by_contra hc
  rw [Bool.not_eq_true] at hc
  have h1 := ((hread₂ k).1 (hmono k ((hread₄ k).1 hc).1)).1
  obtain ⟨_, _, _, _, hlow, _⟩ := (hread₁ k (by unfold maxFrames; omega)).1 h1
  omega

end Pmm

/-! ## Against the memory map -/

/-- Round up to a page, without wrap-around. -/
def pageUp (x : ℕ) : ℕ := (x + 4095) / 4096 * 4096

def Multiboot.maxModuleEnd (mb : Multiboot) : ℕ :=
  (mb.modules.map fun m => m.modEnd.toNat).foldr max 0

/-- Where allocatable memory starts. -/
def Multiboot.floor (img : KernelImage) (mb : Multiboot) : ℕ :=
  max lowUsableBase (max (pageUp img.kernelEnd) (pageUp mb.maxModuleEnd))

/-- The frames that have to be free after `init`: those that lie in one available entry, taken as a
64-bit range, below 4 GiB, and at or above the floor. -/
def Multiboot.Usable (img : KernelImage) (mb : Multiboot) (f : ℕ) : Prop :=
  (∃ e ∈ mb.mmap, e.isAvailable = true ∧ e.Holds f) ∧ 4096 * (f + 1) ≤ 4294967296 ∧
    mb.floor img ≤ 4096 * f

/-- `init` returns, and exactly the usable frames are free. -/
def Pmm.InitExact (img : KernelImage) (p : Pmm) (mb : Multiboot) : Prop :=
  ∃ p', Pmm.init img p mb = .ok p' ∧ ∀ f < maxFrames, p'.used f = false ↔ mb.Usable img f

/-- A module ends in the last page of the address space: rounding its end up wraps to zero. -/
def Multiboot.ModuleEndWraps (mb : Multiboot) : Prop :=
  ∃ m ∈ mb.modules, 0xFFFFF000 < m.modEnd.toNat

/-- Reading the map with 32 bits does no harm. Where a module end wraps, no cut entry has a frame
above the low area; otherwise every frame that an entry above 4 GiB is mistaken for is in some
available entry anyway, and every frame that an entry of 4 GiB or more loses is in some other cut
entry. -/
structure Multiboot.CutHarmless (img : KernelImage) (mb : Multiboot) : Prop where
  wrapped : mb.ModuleEndWraps → ∀ e ∈ mb.mmap, e.isAvailable = true → ∀ f < maxFrames,
    Pmm.lowBootReservedEnd img mb ≤ 4096 * f → ¬ e.HoldsCut f
  high : ¬ mb.ModuleEndWraps → ∀ e ∈ mb.mmap, e.isAvailable = true → 4294967296 ≤ e.addr.toNat →
    ∀ f < maxFrames, mb.floor img ≤ 4096 * f → e.HoldsCut f →
      ∃ e' ∈ mb.mmap, e'.isAvailable = true ∧ e'.Holds f
  long : ¬ mb.ModuleEndWraps → ∀ e ∈ mb.mmap, e.isAvailable = true → 4294967296 ≤ e.len.toNat →
    ∀ f < maxFrames, mb.floor img ≤ 4096 * f → e.Holds f →
      ∃ e' ∈ mb.mmap, e'.isAvailable = true ∧ e'.HoldsCut f

theorem foldr_max_le_iff {l : List ℕ} {x : ℕ} : l.foldr max 0 ≤ x ↔ ∀ y ∈ l, y ≤ x := by
  induction l with
  | nil => simp
  | cons y l ih => simp [ih]

theorem pageUp_le_iff {x f : ℕ} : pageUp x ≤ 4096 * f ↔ x ≤ 4096 * f := by
  unfold pageUp; omega

theorem Multiboot.floor_le_iff {img : KernelImage} {mb : Multiboot} {f : ℕ} :
    mb.floor img ≤ 4096 * f ↔
      lowUsableBase ≤ 4096 * f ∧ img.kernelEnd ≤ 4096 * f ∧
        ∀ m ∈ mb.modules, m.modEnd.toNat ≤ 4096 * f := by
  unfold Multiboot.floor Multiboot.maxModuleEnd
  rw [max_le_iff, max_le_iff, pageUp_le_iff, pageUp_le_iff, foldr_max_le_iff]
  simp

/-- Where no module end wraps, the low area ends at the floor. -/
theorem Multiboot.lowBootReservedEnd_le_iff {img : KernelImage} {mb : Multiboot} {f : ℕ}
    (hw : ¬ mb.ModuleEndWraps) :
    Pmm.lowBootReservedEnd img mb ≤ 4096 * f ↔ mb.floor img ≤ 4096 * f := by
  have hend : ∀ m ∈ mb.modules, m.modEnd.toNat ≤ 4294963200 := fun m hm => by
    by_contra hc
    exact hw ⟨m, hm, by omega⟩
  have hk := Pmm.alignUp_page img.kernelEnd
  have hk1 := img.start_le
  have hk2 := img.end_le
  obtain ⟨_, _, hlow, hkle, hmle⟩ := Pmm.lowBootReservedEnd_spec img mb
  rw [Multiboot.floor_le_iff]
  unfold lowUsableBase
  unfold kernelStart at hk1
  constructor
  · intro h
    refine ⟨by omega, by omega, fun m hm => ?_⟩
    have h1 := hend m hm
    have h2 := Pmm.alignUp_page m.modEnd.toNat
    have h3 := Pmm.maxModuleEndAligned_le mb hm
    omega
  · rintro ⟨_, hke, hme⟩
    have hmax : mb.maxModuleEndAligned ≤ 4096 * f := by
      rcases Pmm.maxModuleEndAligned_eq mb with h | ⟨m, hm, h⟩
      · omega
      · have h1 := hme m hm
        have h2 := Pmm.alignUp_page m.modEnd.toNat
        have h3 := hend m hm
        omega
    unfold Pmm.lowBootReservedEnd pageSize
    dsimp only
    split_ifs <;> omega

theorem MemoryMapEntry.holds_of_holdsCut {e : MemoryMapEntry} {f : ℕ}
    (ha : e.addr.toNat < 4294967296) (h : e.HoldsCut f) : e.Holds f := by
  unfold MemoryMapEntry.HoldsCut at h
  unfold MemoryMapEntry.Holds
  omega

theorem MemoryMapEntry.holdsCut_of_holds {e : MemoryMapEntry} {f : ℕ} (hf : f < maxFrames)
    (hl : e.len.toNat < 4294967296) (h : e.Holds f) : e.HoldsCut f := by
  unfold MemoryMapEntry.Holds at h
  unfold MemoryMapEntry.HoldsCut
  unfold maxFrames at hf
  omega

/-- `InitExact` without the run of `init`. -/
theorem Pmm.initExact_iff_frames {img : KernelImage} {p : Pmm} {mb : Multiboot}
    (hmap : mb.hasMemMap = true) (hal : ∀ m ∈ mb.modules, m.modStart.toNat % 4096 = 0) :
    Pmm.InitExact img p mb ↔ ∀ f < maxFrames,
      ((∃ e ∈ mb.mmap, e.isAvailable = true ∧ e.HoldsCut f) ∧
        Pmm.lowBootReservedEnd img mb ≤ 4096 * f ↔ mb.Usable img f) := by
  obtain ⟨p', hp', hread⟩ := Pmm.exists_init img p mb hmap hal
  constructor
  · rintro ⟨p'', hp'', h⟩ f hf
    rw [hp'] at hp''
    cases hp''
    rw [← hread f hf, h f hf]
  · intro h
    exact ⟨p', hp', fun f hf => by rw [hread f hf, h f hf]⟩

/-- **PMM initialisation.** For every memory map and module list, `init` frees exactly the usable
frames if and only if cutting addresses and lengths to 32 bits does no harm. -/
theorem init_exact_iff (img : KernelImage) (p : Pmm) (mb : Multiboot)
    (hmap : mb.hasMemMap = true) (hal : ∀ m ∈ mb.modules, m.modStart.toNat % 4096 = 0) :
    Pmm.InitExact img p mb ↔ mb.CutHarmless img := by
  rw [Pmm.initExact_iff_frames hmap hal]
  by_cases hw : mb.ModuleEndWraps
  · -- nothing is usable above a module that ends in the last page
    have hnone : ∀ f < maxFrames, ¬ mb.Usable img f := by
      rintro f hf ⟨_, _, hfloor⟩
      obtain ⟨m, hm, hlast⟩ := hw
      have := (Multiboot.floor_le_iff.1 hfloor).2.2 m hm
      unfold maxFrames at hf
      omega
    constructor
    · intro h
      refine ⟨fun _ e he hav f hf hlow hcut => ?_, fun hn => absurd hw hn, fun hn => absurd hw hn⟩
      exact hnone f hf ((h f hf).1 ⟨⟨e, he, hav, hcut⟩, hlow⟩)
    · intro h f hf
      refine ⟨fun ⟨⟨e, he, hav, hcut⟩, hlow⟩ => ?_, fun hu => absurd hu (hnone f hf)⟩
      exact absurd hcut (h.wrapped hw e he hav f hf hlow)
  · have hbelow : ∀ f < maxFrames, 4096 * (f + 1) ≤ 4294967296 := by
      intro f hf; unfold maxFrames at hf; omega
    constructor
    · intro h
      refine ⟨fun hn => absurd hn hw, fun _ e he hav _ f hf hfloor hcut => ?_,
        fun _ e he hav _ f hf hfloor hh => ?_⟩
      · exact ((h f hf).1 ⟨⟨e, he, hav, hcut⟩,
          (Multiboot.lowBootReservedEnd_le_iff hw).2 hfloor⟩).1
      · exact ((h f hf).2 ⟨⟨e, he, hav, hh⟩, hbelow f hf, hfloor⟩).1
    · intro h f hf
      constructor
      · rintro ⟨⟨e, he, hav, hcut⟩, hlow⟩
        have hfloor := (Multiboot.lowBootReservedEnd_le_iff hw).1 hlow
        refine ⟨?_, hbelow f hf, hfloor⟩
        by_cases ha : e.addr.toNat < 4294967296
        · exact ⟨e, he, hav, MemoryMapEntry.holds_of_holdsCut ha hcut⟩
        · exact h.high hw e he hav (by omega) f hf hfloor hcut
      · rintro ⟨⟨e, he, hav, hh⟩, _, hfloor⟩
        refine ⟨?_, (Multiboot.lowBootReservedEnd_le_iff hw).2 hfloor⟩
        by_cases hl : e.len.toNat < 4294967296
        · exact ⟨e, he, hav, MemoryMapEntry.holdsCut_of_holds hf hl hh⟩
        · exact h.long hw e he hav (by omega) f hf hfloor hh

/-- A kernel that ends at 3 MiB. -/
def KernelImage.sample : KernelImage := ⟨0x300000, by decide, by decide⟩

/-- A machine with 1 GiB of memory and a 2 MiB module. -/
def Multiboot.small : Multiboot :=
  ⟨true, [⟨0, 0x9FC00, 1⟩, ⟨0x100000, 0x3FF00000, 1⟩], [⟨0x300000, 0x500000⟩]⟩

theorem init_exact_small : Pmm.InitExact .sample ⟨.empty, 0, 0⟩ .small := by
  refine (init_exact_iff .sample ⟨.empty, 0, 0⟩ .small rfl (by decide)).2
    ⟨fun hw => ?_, fun _ e he _ hbig => ?_, fun _ e he _ hbig => ?_⟩
  · obtain ⟨m, hm, hlast⟩ := hw
    have : ∀ m ∈ Multiboot.small.modules, m.modEnd.toNat ≤ 0xFFFFF000 := by decide
    have := this m hm
    omega
  · have : ∀ e ∈ Multiboot.small.mmap, e.addr.toNat < 4294967296 := by decide
    have := this e he
    omega
  · have : ∀ e ∈ Multiboot.small.mmap, e.len.toNat < 4294967296 := by decide
    have := this e he
    omega

/-- A machine with 3 GiB of memory below 4 GiB and 3.5 GiB above. -/
def Multiboot.large : Multiboot :=
  ⟨true, [⟨0, 0x9FC00, 1⟩, ⟨0x100000, 0xBFF00000, 1⟩, ⟨0x100000000, 0xE0000000, 1⟩], []⟩

/-- The memory above 4 GiB is taken for memory at the same distance above zero: the frame at
3 GiB, where there is no memory, is free. -/
theorem device_frame_free : ¬ Pmm.InitExact .sample ⟨.empty, 0, 0⟩ .large := by
  intro h
  have hmods : ∀ m ∈ Multiboot.large.modules, m.modStart.toNat % 4096 = 0 := by decide
  have hframes := (Pmm.initExact_iff_frames rfl hmods).1 h 0xC0000 (by decide)
  obtain ⟨⟨e, he, _, hh⟩, _⟩ := hframes.1 ⟨⟨⟨0x100000000, 0xE0000000, 1⟩, by decide, by decide,
    by unfold MemoryMapEntry.HoldsCut; decide⟩, by decide +kernel⟩
  have : ∀ e ∈ Multiboot.large.mmap,
      ¬ (e.addr.toNat ≤ 4096 * 0xC0000 ∧ 4096 * (0xC0000 + 1) ≤ e.addr.toNat + e.len.toNat) := by
    decide
  exact this e he hh

end Ospp
