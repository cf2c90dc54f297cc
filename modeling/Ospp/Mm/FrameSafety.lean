import Ospp.Lib.Trans
import Ospp.Mm.HeapSpace
import Ospp.Mm.PmmInit
import Ospp.Sys.ModuleSpace

/-!
# Frame safety

The kernel's memory as a system: clients that allocate and release frames, the heap, the linker's
regions, and the identity mappings that `acpi::init` and `apic::init` make on addresses the firmware
supplies. Two things must hold in every state: `alloc_frames` never returns a frame that `pmm::init`
left reserved, and no free frame is still referred to by a page table entry.

`unmap_page` gives the frame of an entry to the frame allocator whoever it belongs to. `frames_safe`
is the guarantee for the runs that unmap only pages with a frame of their own and map identity pages
onto reserved frames; `firmware_frame_allocated` is what becomes of the page of a firmware table.
-/

namespace Ospp

open Trans

structure MemWorld where
  space : ModuleSpace
  /-- `endAddr` of the heap, once it is constructed. -/
  heapEnd : Option ℕ
  /-- The regions of loaded modules. -/
  regions : List PageRun
  /-- The runs of frames that clients hold: address and count. -/
  blocks : List (ℕ × ℕ)

inductive MemAct where
  | allocFrames (count : ℕ)
  | freeFrames (addr count : ℕ)
  | heapInit
  | heapExpand (newSize : ℕ)
  | heapContract (newSize : ℕ)
  | mapRegion (pages : ℕ)
  | unmapRegion (r : PageRun)
  /-- `map_identity_page` or `map_identity_span`. -/
  | mapIdentity (addr pages : ℕ)
  | unmapPage (addr : ℕ)

namespace MemWorld

/-- The world with other memory managers. -/
def withMm (w : MemWorld) (mm : Mm) : MemWorld := { w with space := { w.space with mm := mm } }

def step (w : MemWorld) : MemAct → K MemWorld
  | .allocFrames count => do
    let (pmm, addr) ← w.space.mm.pmm.allocFrames count
    return { w.withMm ⟨pmm, w.space.mm.vmm⟩ with blocks := (addr, count) :: w.blocks }
  | .freeFrames addr count => do
    let pmm ← w.space.mm.pmm.freeFrames addr count
    return { w.withMm ⟨pmm, w.space.mm.vmm⟩ with blocks := w.blocks.erase (addr, count) }
  | .heapInit => do
    let (mm, e) ← w.space.mm.heapInit
    return { w.withMm mm with heapEnd := some e }
  | .heapExpand newSize =>
    match w.heapEnd with
    | none => .ok w
    | some e => do
      let (mm, e) ← w.space.mm.heapExpand e newSize
      return { w.withMm mm with heapEnd := some e }
  | .heapContract newSize =>
    match w.heapEnd with
    | none => .ok w
    | some e => do
      let (mm, e) ← w.space.mm.heapContract e newSize
      return { w.withMm mm with heapEnd := some e }
  | .mapRegion pages => do
    let (space, base) ← w.space.mapRegion pages
    return { w with
      space := space
      regions := match base with
        | none => w.regions
        | some b => ⟨(b - moduleSpaceBase) / pageSize, pages⟩ :: w.regions }
  | .unmapRegion r => do
    let space ← w.space.unmapRegion r.base r.pages
    return { w with space := space, regions := w.regions.erase r }
  | .mapIdentity addr pages => do
    let mm ← w.space.mm.mapPages addr addr pages (flagPresent ||| flagWritable)
    return w.withMm mm
  | .unmapPage addr => do
    let mm ← w.space.mm.unmapPageLocked addr
    return w.withMm mm

/-- The calls that are made: a release gives back what was handed out, the heap is constructed once
and then grows and shrinks, and only regions with pages are mapped. -/
def Enabled (w : MemWorld) : MemAct → Prop
  | .freeFrames addr count => (addr, count) ∈ w.blocks
  | .heapInit => w.heapEnd = none
  | .heapExpand _ => w.heapEnd ≠ none
  | .heapContract _ => w.heapEnd ≠ none
  | .mapRegion pages => 0 < pages
  | .unmapRegion r => r ∈ w.regions
  | _ => True

def Step (w : MemWorld) (a : MemAct) (w' : MemWorld) : Prop := w.Enabled a ∧ w.step a = .ok w'

/-- A page whose frame belongs to the heap or to a module. -/
def Owns (w : MemWorld) (v : ℕ) : Prop := Mm.heapHas w.heapEnd v ∨ ∃ r ∈ w.regions, r.Has v

/-- The world after `pmm::init` and `vmm::init`. -/
def boot (mm : Mm) : MemWorld := ⟨⟨.empty, mm⟩, none, [], []⟩

section

variable (res : ℕ → Prop)

/-- Reserved frames are not allocated, and free frames are not referred to: neither by an entry of
a page outside the identity window nor by an entry of the directory. -/
structure FrameSafe (w : MemWorld) : Prop where
  alloc : ∀ count pmm addr, w.space.mm.pmm.allocFrames count = .ok (pmm, addr) →
    ∀ j < count, ¬ res (addr / 4096 + j)
  page : ∀ k, w.space.mm.pmm.used k = false → ∀ v, Mm.identityPages ≤ v → v < 1048576 →
    w.space.mm.mapped v ≠ some k
  table : ∀ k, w.space.mm.pmm.used k = false → ∀ i < 1024, w.space.mm.table i ≠ some k

/-- Identity mappings are made outside the recursive window, the heap and the modules, onto reserved
frames (or in the identity window); `unmap_page` is called on pages that are not mapped or have a
frame of their own; the size the heap grows to does not wrap. -/
def Careful (w : MemWorld) : MemAct → Prop
  | .heapExpand newSize => newSize ≤ heapMaxAddr - heapStart
  | .mapIdentity addr pages => ∀ j < pages,
      (addr / 4096 + j) / 1024 < 1023 ∧ ¬ w.Owns (addr / 4096 + j) ∧
        (addr / 4096 + j < Mm.identityPages ∨ res (addr / 4096 + j))
  | .unmapPage addr => addr / 4096 / 1024 < 1023 ∧
      (w.space.mm.mapped (addr / 4096) = none ∨ w.Owns (addr / 4096))
  | _ => True

/-- The frame is in the block. -/
def blockHas (b : ℕ × ℕ) (k : ℕ) : Prop := b.1 / 4096 ≤ k ∧ k < b.1 / 4096 + b.2

/-- The account of all frames: reserved, held by clients, page tables, or owned by a page. -/
structure Inv (w : MemWorld) : Prop where
  space : w.space.Inv res (fun k => res k ∨ ∃ b ∈ w.blocks, blockHas b k)
    (Mm.heapHas w.heapEnd) w.regions
  heap : ∀ e, w.heapEnd = some e → HeapEndOk e
  block : ∀ b ∈ w.blocks, b.1 % 4096 = 0 ∧ b.1 / 4096 + b.2 ≤ maxFrames ∧
    ∀ k, blockHas b k → ¬ res k
  apart : w.blocks.Pairwise fun b b' => ∀ k, blockHas b k → ¬ blockHas b' k

end

variable {res : ℕ → Prop} {w w' : MemWorld}

/-! ## Safety of accounted states -/

theorem Inv.safe (h : Inv res w) : FrameSafe res w := by
  have ho := h.space.owned
  have htable : ∀ i < 1024, ∀ t, w.space.mm.table i = some t → w.space.mm.pmm.used t = true := by
    intro i hi t ht
    by_cases h1023 : i = 1023
    · subst h1023
      have := (Mm.table_eq_some.1 ht).2
      rw [ho.wf.self.2] at this
      rw [← this]
      exact ho.wf.dir_used
    · exact ho.wf.table_used i (by omega) t ht
  refine ⟨fun count pmm addr ha j hj hr => ?_, fun k hk v hid hv hm => ?_, fun k hk i hi ht => ?_⟩
  · obtain ⟨f, _, rfl, hfree, _⟩ := Pmm.allocFrames_eq_ok ha
    have := hfree j hj
    rw [Nat.mul_div_cancel _ (by norm_num)] at hr
    rw [ho.ext_used _ (ho.res_ext _ hr)] at this
    cases this
  · suffices hu : w.space.mm.pmm.used k = true by rw [hu] at hk; cases hk
    by_cases hwin : v / 1024 < 1023
    · by_cases hown : Mm.heapHas w.heapEnd v ∨ ∃ r ∈ w.regions, r.Has v
      · exact (ho.own_used v k hown hm).1
      · exact ho.ext_used k (ho.res_ext k (ho.foreign v k hwin hid hown hm))
    · -- a page of the recursive window is an entry of the directory
      have hv1 : v / 1024 = 1023 := by omega
      have hdir : w.space.mm.table (v / 1024) = some w.space.mm.vmm.dir := by
        rw [hv1]; exact Mm.table_eq_some.2 ⟨ho.wf.self.1, ho.wf.self.2⟩
      refine htable (v % 1024) (Nat.mod_lt _ (by norm_num)) k ?_
      unfold Mm.mapped at hm
      rw [Mm.pte_of_table hdir] at hm
      exact hm
  · rw [htable i hi k ht] at hk
    cases hk

/-! ## Steps -/

theorem Inv.allocFrames (h : Inv res w) {count : ℕ} (hs : w.step (.allocFrames count) = .ok w') :
    Inv res w' := by
  unfold step at hs
  rw [K.bind_eq_ok] at hs
  obtain ⟨⟨pmm, addr⟩, ha, hs⟩ := hs
  cases hs
  obtain ⟨f, rfl, hf, hfree, ho⟩ := h.space.owned.allocFrames ha
  have hdiv : f * 4096 / 4096 = f := Nat.mul_div_cancel _ (by norm_num)
  have hnew : ∀ k, blockHas (f * 4096, count) k ↔ f ≤ k ∧ k < f + count := by
    intro k; unfold blockHas; rw [hdiv]
  have hunused : ∀ k, blockHas (f * 4096, count) k → ¬ (res k ∨ ∃ b ∈ w.blocks, blockHas b k) := by
    intro k hk he
    have := hfree k ((hnew k).1 hk).1 ((hnew k).1 hk).2
    rw [h.space.owned.ext_used k he] at this
    cases this
  refine ⟨⟨ho.congr (fun k => ?_) (fun _ => Iff.rfl), h.space.outside, h.space.bits, h.space.fits,
    h.space.disjoint, h.space.zero⟩, h.heap, fun b hb => ?_, ?_⟩
  · show (res k ∨ ∃ b ∈ (f * 4096, count) :: w.blocks, blockHas b k) ↔ _
    rw [List.exists_mem_cons_iff, hnew, or_comm (a := f ≤ k ∧ k < f + count), or_assoc]
  · rcases List.mem_cons.1 hb with rfl | hb
    · refine ⟨Nat.mul_mod_left _ _, ?_, fun k hk hr => hunused k hk (Or.inl hr)⟩
      show f * 4096 / 4096 + count ≤ maxFrames
      rw [hdiv]
      exact hf
    · exact h.block b hb
  · exact List.pairwise_cons.2 ⟨fun b hb k hk hk' => hunused k hk (Or.inr ⟨b, hb, hk'⟩), h.apart⟩

theorem Inv.freeFrames (h : Inv res w) {addr count : ℕ} (hb : (addr, count) ∈ w.blocks)
    (hs : w.step (.freeFrames addr count) = .ok w') : Inv res w' := by
  unfold step at hs
  rw [K.bind_eq_ok] at hs
  obtain ⟨pmm, hf, hs⟩ := hs
  cases hs
  obtain ⟨hal, hfit, hnres⟩ := h.block _ hb
  have haddr : addr = addr / 4096 * 4096 := by dsimp only at hal; omega
  rw [haddr] at hf
  have ho := h.space.owned.freeFrames hfit
    (fun k h1 h2 => ⟨Or.inr ⟨_, hb, h1, h2⟩, hnres k ⟨h1, h2⟩⟩) hf
  have hperm := List.perm_cons_erase hb
  have hpw : ((addr, count) :: w.blocks.erase (addr, count)).Pairwise
      fun b b' => ∀ k, blockHas b k → ¬ blockHas b' k :=
    h.apart.perm hperm fun {b b'} hbb k hk hk' => hbb k hk' hk
  obtain ⟨hfirst, hrest⟩ := List.pairwise_cons.1 hpw
  refine ⟨⟨ho.congr (fun k => ?_) (fun _ => Iff.rfl), h.space.outside, h.space.bits, h.space.fits,
    h.space.disjoint, h.space.zero⟩, h.heap, fun b hb' => h.block b (List.mem_of_mem_erase hb'),
    hrest⟩
  show (res k ∨ ∃ b ∈ w.blocks.erase (addr, count), blockHas b k) ↔ _
  constructor
  · rintro (hr | ⟨b, hb', hk⟩)
    · exact ⟨Or.inl hr, fun hin => hnres k hin hr⟩
    · exact ⟨Or.inr ⟨b, List.mem_of_mem_erase hb', hk⟩, fun hin => hfirst b hb' k hin hk⟩
  · rintro ⟨hr | ⟨b, hb', hk⟩, hout⟩
    · exact Or.inl hr
    · refine Or.inr ⟨b, (List.mem_erase_of_ne ?_).2 hb', hk⟩
      rintro rfl
      exact hout hk

/-- The heap's pages move from `e` to `e'` with the account of its window. -/
theorem Inv.heapStep (h : Inv res w) {mm : Mm} (e' : ℕ) (hok : HeapEndOk e')
    (ho : Mm.Owned mm res (fun k => res k ∨ ∃ b ∈ w.blocks, blockHas b k)
      (fun v => Mm.heapHas (some e') v ∨ ∃ r ∈ w.regions, r.Has v)) :
    Inv res { w.withMm mm with heapEnd := some e' } := by
  refine ⟨⟨ho, fun v hv => ?_, h.space.bits, h.space.fits, h.space.disjoint, h.space.zero⟩,
    fun e he => by cases he; exact hok, h.block, h.apart⟩
  obtain ⟨x, hx, h1, h2⟩ := hv
  cases hx
  have := hok.2.2
  unfold heapMaxAddr at this
  unfold modulePage
  omega

/-- Pages of the heap window are in no region. -/
theorem not_region {v : ℕ} (hv : v * 4096 < heapMaxAddr) {r : PageRun} : ¬ r.Has v := by
  rintro ⟨h1, _⟩
  unfold modulePage at h1
  unfold heapMaxAddr at hv
  omega

theorem Inv.heapInit (h : Inv res w) (hnone : w.heapEnd = none)
    (hs : w.step .heapInit = .ok w') : Inv res w' := by
  unfold step Mm.heapInit at hs
  simp only [K.bind_eq_ok] at hs
  obtain ⟨⟨mm, e⟩, ⟨mm', hm, he⟩, hs⟩ := hs
  cases he
  cases hs
  have hsize : alignHeapSize heapMinSize = 0x100000 := by decide +kernel
  have hend : Word32.add heapStart (alignHeapSize heapMinSize) = 0x1100000 := by decide +kernel
  rw [hsize] at hm
  obtain ⟨ho, _⟩ := h.space.owned.mapHeapBacking (by decide) (by decide) (by decide) (by decide)
    (fun v h1 h2 hv => by
      rcases hv with ⟨x, hx, _⟩ | ⟨r, hr, hv⟩
      · rw [hnone] at hx; cases hx
      · exact not_region (by unfold heapStart at h2; unfold heapMaxAddr; omega) hv) hm
  rw [hend]
  refine h.heapStep 0x1100000 (by unfold HeapEndOk; decide)
    (ho.congr (fun _ => Iff.rfl) fun v => ?_)
  rw [hnone]
  unfold Mm.heapHas heapStart
  constructor
  · rintro (⟨x, hx, h1, h2⟩ | h1)
    · cases hx; exact Or.inr (by omega)
    · exact Or.inl (Or.inr h1)
  · rintro ((⟨x, hx, _⟩ | h1) | h1)
    · cases hx
    · exact Or.inr h1
    · exact Or.inl ⟨_, rfl, by omega⟩

/-- The account of a world with a heap, the regions first. -/
theorem Inv.owned_heap (h : Inv res w) {e : ℕ} (he : w.heapEnd = some e) :
    Mm.Owned w.space.mm res (fun k => res k ∨ ∃ b ∈ w.blocks, blockHas b k)
      fun v => (∃ r ∈ w.regions, r.Has v) ∨ Mm.heapHas (some e) v := by
  rw [← he]
  exact h.space.owned.congr (fun _ => Iff.rfl) fun _ => or_comm

/-- The heap has moved its end. -/
theorem Inv.heapMoved (h : Inv res w) {mm : Mm} {e' : ℕ}
    (hm : Mm.HeapMoved w.space.mm mm res (fun k => res k ∨ ∃ b ∈ w.blocks, blockHas b k)
      (fun v => ∃ r ∈ w.regions, r.Has v) e') :
    Inv res { w.withMm mm with heapEnd := some e' } :=
  h.heapStep e' hm.heapEnd (hm.owned.congr (fun _ => Iff.rfl) fun _ => or_comm)

theorem Inv.heapExpand (h : Inv res w) {n : ℕ} (hn : n ≤ heapMaxAddr - heapStart)
    (hs : w.step (.heapExpand n) = .ok w') : Inv res w' := by
  unfold step at hs
  cases he : w.heapEnd with
  | none => rw [he] at hs; cases hs; exact h
  | some e =>
    rw [he] at hs
    dsimp only at hs
    rw [K.bind_eq_ok] at hs
    obtain ⟨⟨mm, e₁⟩, hx, hs⟩ := hs
    cases hs
    have hlt : e < e₁ := by
      unfold Mm.heapExpand at hx
      simp only [K.bind_eq_ok] at hx
      obtain ⟨_, hend, _, _, hx⟩ := hx
      cases hx
      exact (expandEnd_eq_ok (h.heap e he) hn hend).2.1
    exact h.heapMoved ((h.owned_heap he).heapExpand (h.heap e he)
      (fun v ⟨_, _, hr⟩ hv => not_region hv.2 hr) hlt.le hx)

theorem Inv.heapContract (h : Inv res w) {n : ℕ} (hs : w.step (.heapContract n) = .ok w') :
    Inv res w' := by
  unfold step at hs
  cases he : w.heapEnd with
  | none => rw [he] at hs; cases hs; exact h
  | some e =>
    rw [he] at hs
    dsimp only at hs
    rw [K.bind_eq_ok] at hs
    obtain ⟨⟨mm, e₁⟩, hx, hs⟩ := hs
    cases hs
    exact h.heapMoved ((h.owned_heap he).heapContract (h.heap e he)
      (fun v ⟨_, _, hr⟩ hv => not_region hv.2 hr) hx)

theorem Inv.mapRegion (h : Inv res w) {pages : ℕ} (hpos : 0 < pages)
    (hs : w.step (.mapRegion pages) = .ok w') : Inv res w' := by
  unfold step at hs
  rw [K.bind_eq_ok] at hs
  obtain ⟨⟨space, base⟩, hm, hs⟩ := hs
  obtain ⟨i, rfl, hi, _⟩ := h.space.mapRegion hpos hm
  cases hs
  have hunit : ((modulePage + i) * 4096 - moduleSpaceBase) / pageSize = i := by
    unfold modulePage moduleSpaceBase pageSize
    omega
  refine ⟨?_, h.heap, h.block, h.apart⟩
  dsimp only
  rw [hunit]
  exact hi

theorem Inv.unmapRegion (h : Inv res w) {r : PageRun} (hr : r ∈ w.regions)
    (hs : w.step (.unmapRegion r) = .ok w') : Inv res w' := by
  unfold step at hs
  rw [K.bind_eq_ok] at hs
  obtain ⟨space, hm, hs⟩ := hs
  cases hs
  exact ⟨(h.space.unmapRegion hr hm).1, h.heap, h.block, h.apart⟩

/-- The account of frames moves to other page tables, with the same owners. -/
theorem Inv.withMm (h : Inv res w) {mm : Mm}
    (ho : Mm.Owned mm res (fun k => res k ∨ ∃ b ∈ w.blocks, blockHas b k) w.Owns) :
    Inv res (w.withMm mm) :=
  ⟨⟨ho, h.space.outside, h.space.bits, h.space.fits, h.space.disjoint, h.space.zero⟩, h.heap,
    h.block, h.apart⟩

theorem Inv.mapIdentity (h : Inv res w) {addr pages : ℕ}
    (hcare : Careful res w (.mapIdentity addr pages))
    (hs : w.step (.mapIdentity addr pages) = .ok w') : Inv res w' := by
  unfold step at hs
  rw [K.bind_eq_ok] at hs
  obtain ⟨mm, hm, hs⟩ := hs
  cases hs
  refine h.withMm ?_
  unfold Mm.mapPages at hm
  cases pages with
  | zero => cases hm; exact h.space.owned
  | succ n =>
    obtain ⟨hv, _⟩ := hcare 0 (Nat.succ_pos n)
    rw [Mm.pageBase_eq (by omega)] at hm
    refine h.space.owned.mapIdentityRun (i := 0) (by decide) (fun j _ hj => ?_) hm
    exact hcare j (by omega)

theorem Inv.unmapPage (h : Inv res w) {addr : ℕ} (hcare : Careful res w (.unmapPage addr))
    (hs : w.step (.unmapPage addr) = .ok w') : Inv res w' := by
  unfold step at hs
  rw [K.bind_eq_ok] at hs
  obtain ⟨mm, hm, hs⟩ := hs
  cases hs
  refine h.withMm ?_
  obtain ⟨hv, hnone | hown⟩ := hcare
  · rcases Mm.unmapPageLocked_spec h.space.owned.wf (by omega) hv
      (fun f hf => by rw [hnone] at hf; cases hf) hm with ⟨_, rfl⟩ | ⟨f, hf, _⟩
    · exact h.space.owned
    · rw [hnone] at hf; cases hf
  · have haddr : w.space.mm.unmapPageLocked addr =
        w.space.mm.unmapPageLocked (addr / 4096 * 4096) := by
      have hbase : Mm.pageBase addr = Mm.pageBase (addr / 4096 * 4096) := by
        rw [Mm.pageBase_eq (by omega), Mm.pageBase_eq (by omega),
          Nat.mul_div_cancel _ (by norm_num)]
      unfold Mm.unmapPageLocked
      rw [hbase]
    rw [haddr] at hm
    exact (h.space.owned.unmapOwned hown hm).1

/-- **Step.** -/
theorem inv_step {a : MemAct} (h : Inv res w) (hcare : Careful res w a) (hs : w.Step a w') :
    Inv res w' := by
  obtain ⟨hen, hs⟩ := hs
  cases a with
  | allocFrames count => exact h.allocFrames hs
  | freeFrames addr count => exact h.freeFrames hen hs
  | heapInit => exact h.heapInit hen hs
  | heapExpand n => exact h.heapExpand hcare hs
  | heapContract n => exact h.heapContract hs
  | mapRegion pages => exact h.mapRegion hen hs
  | unmapRegion r => exact h.unmapRegion hen hs
  | mapIdentity addr pages => exact h.mapIdentity hcare hs
  | unmapPage addr => exact h.unmapPage hcare hs

/-- After `pmm::init` and `vmm::init` the frames in use are the reserved ones and the two tables. -/
theorem inv_boot {p₀ : Pmm} {phys : ℕ → ℕ → ℕ} {mm : Mm} (hvmm : Mm.init p₀ phys = .ok mm)
    (hzero : p₀.used 0 = true) : Inv (fun k => p₀.used k = true) (boot mm) := by
  have hnone : ∀ v, ¬ Mm.heapHas none v := by
    rintro v ⟨x, hx, _⟩
    cases hx
  have ho : Mm.Owned mm (fun k => p₀.used k = true) (fun k => p₀.used k = true ∨
      ∃ b ∈ (boot mm).blocks, blockHas b k) (Mm.heapHas none) :=
    (Mm.owned_init hvmm).congr
      (fun k => or_iff_left fun ⟨b, hb, _⟩ => absurd hb List.not_mem_nil)
      (fun v => iff_false_intro (hnone v))
  exact ⟨ModuleSpace.inv_empty ho hzero fun v hv => absurd hv (hnone v), fun e he => (by cases he),
    fun b hb => absurd hb List.not_mem_nil, List.Pairwise.nil⟩

/-! ## Runs -/

/-- **Frame safety.** In every run whose identity mappings and whose calls of `unmap_page` are
careful, no reserved frame is allocated and no free frame is referred to, in any state reached. -/
theorem frames_safe (img : KernelImage) (p p₀ : Pmm) (mb : Multiboot) (phys : ℕ → ℕ → ℕ) (mm : Mm)
    (hpmm : Pmm.init img p mb = .ok p₀) (hvmm : Mm.init p₀ phys = .ok mm)
    (as : List MemAct) (w : MemWorld) (hrun : Run Step (boot mm) as w)
    (hcare : Along Step (Careful fun k => p₀.used k = true) (boot mm) as) :
    FrameSafe (fun k => p₀.used k = true) w := by
  have h0 := inv_boot hvmm (Pmm.used_low_of_init hpmm (by norm_num))
  exact (Run.invariant (fun _ _ _ h hc hs => inv_step h hc hs) hrun hcare h0).safe

/-- A machine with 1 GiB of memory, the last 128 KiB of which hold the tables of the firmware. -/
def firmwareTables : Multiboot :=
  ⟨true, [⟨0, 0x9FC00, 1⟩, ⟨0x100000, 0x3FEE0000, 1⟩, ⟨0x3FFE0000, 0x20000, 3⟩], []⟩

/-- It comes up with the frames from `0x302` to the tables free. -/
theorem exists_boot : ∃ p₀ mm, Pmm.init .sample ⟨.empty, 0, 0⟩ firmwareTables = .ok p₀ ∧
    Mm.init p₀ (fun _ _ => 0) = .ok mm ∧
    (∀ k < maxFrames, p₀.used k = false ↔ 0x300 ≤ k ∧ k < 0x3FFE0) ∧ mm.table 255 = none ∧
    ∀ k < maxFrames, mm.pmm.used k = false ↔ 0x302 ≤ k ∧ k < 0x3FFE0 := by
  obtain ⟨p₀, hp₀, hread⟩ := Pmm.exists_init .sample ⟨.empty, 0, 0⟩ firmwareTables rfl (by decide)
  have hfree₀ : ∀ k < maxFrames, p₀.used k = false ↔ 0x300 ≤ k ∧ k < 0x3FFE0 := by
    intro k hk
    rw [hread k hk, show Pmm.lowBootReservedEnd .sample firmwareTables = 0x300000 by decide +kernel]
    constructor
    · rintro ⟨⟨e, he, hav, hcut⟩, hlow⟩
      simp only [firmwareTables, List.mem_cons, List.not_mem_nil, or_false] at he
      unfold MemoryMapEntry.HoldsCut at hcut
      rcases he with rfl | rfl | rfl
      · simp only [UInt64.reduceToNat, Nat.reduceMod] at hcut; omega
      · simp only [UInt64.reduceToNat, Nat.reduceMod] at hcut; omega
      · cases hav
    · rintro ⟨h1, h2⟩
      refine ⟨⟨⟨0x100000, 0x3FEE0000, 1⟩, by decide, by decide, ?_⟩, by omega⟩
      unfold MemoryMapEntry.HoldsCut
      simp only [UInt64.reduceToNat, Nat.reduceMod]
      omega
  have hused₀ : ∀ k < 0x300, p₀.used k = true := by
    intro k hk
    have := hfree₀ k (by unfold maxFrames; omega)
    by_contra hc
    rw [Bool.not_eq_true, this] at hc
    omega
  obtain ⟨p₁, h₁, hread₁⟩ := Pmm.exists_allocFrames (p := p₀) (k := 0x300) one_pos (by decide)
    (fun j hj => (hfree₀ _ (by unfold maxFrames; omega)).2 (by omega)) hused₀
  obtain ⟨p₂, h₂, hread₂⟩ := Pmm.exists_allocFrames (p := p₁) (k := 0x301) one_pos (by decide)
    (fun j hj => by
      rw [hread₁, (hfree₀ _ (by unfold maxFrames; omega)).2 (by omega)]
      exact decide_eq_false (by omega))
    (fun j hj => by
      rw [hread₁, Bool.or_eq_true, decide_eq_true_eq]
      by_cases hj' : j < 0x300
      · exact Or.inl (hused₀ j hj')
      · exact Or.inr (by omega))
  refine ⟨p₀, ⟨p₂, Mm.firstTables (fun _ _ => 0) (0x300 * 4096 / pageSize)
    (0x301 * 4096 / pageSize)⟩, hp₀, ?_, hfree₀, ?_, fun k hk => ?_⟩
  · unfold Mm.init
    rw [h₁]
    simp only [K.bind_eq_ok, Except.ok.injEq, exists_eq_left']
    refine ⟨(p₂, 0x301 * 4096), h₂, ?_⟩
    rw [if_neg (by norm_num)]
    rfl
  · refine Mm.table_eq_none.2 ?_
    unfold Mm.firstTables
    dsimp only
    rw [if_pos rfl, if_neg (by norm_num), if_neg (by norm_num), Entry.present_zero]
  · show Pmm.used p₂ k = false ↔ _
    rw [hread₂, hread₁, Bool.or_eq_false_iff, Bool.or_eq_false_iff, hfree₀ k hk,
      decide_eq_false_iff_not, decide_eq_false_iff_not]
    omega

/-- An identity mapping of one page. -/
theorem step_mapIdentity {w : MemWorld} {a : ℕ} {mm : Mm} (ha : a < 4294967296)
    (h : w.space.mm.mapPageLocked (a / 4096 * 4096) (a / 4096 * 4096)
      (flagPresent ||| flagWritable) = .ok mm) : Step w (.mapIdentity a 1) (w.withMm mm) := by
  refine ⟨trivial, ?_⟩
  have hrun : w.space.mm.mapPages a a 1 (flagPresent ||| flagWritable) = .ok mm := by
    unfold Mm.mapPages
    have h0 := Mm.runAddr (v := a / 4096) (i := 0) (by omega)
    rw [Nat.add_zero] at h0
    rw [Mm.pageBase_eq ha, Mm.mapRun, h0, h]
    rfl
  simp only [step, K.bind_eq_ok]
  exact ⟨mm, hrun, rfl⟩

/-- The heap is constructed, with frames for its pages and page tables. -/
theorem exists_heapInit (h : Inv res w) (hnone : w.heapEnd = none) {k n : ℕ}
    (hfill : w.space.mm.pmm.FilledTo k n) (hk : 0 < k) (hn : n ≤ maxFrames) (hroom : k + 512 ≤ n) :
    ∃ mm, Step w .heapInit { w.withMm mm with heapEnd := some 0x1100000 } ∧
      ∃ k' ≤ k + 512, mm.pmm.FilledTo k' n ∧ 0 < k' := by
  have hsize : alignHeapSize heapMinSize = 0x100000 := by decide +kernel
  have hend : Word32.add heapStart (alignHeapSize heapMinSize) = 0x1100000 := by decide +kernel
  obtain ⟨mm, hmm, hfill'⟩ := h.space.owned.exists_mapHeapBacking heapStart
    0x100000 Mm.heapPerms (by decide) (by decide) (by decide) hfill hk hn hroom
  refine ⟨mm, ⟨hnone, ?_⟩, hfill'⟩
  simp only [step, Mm.heapInit, K.bind_eq_ok]
  exact ⟨(mm, 0x1100000), ⟨mm, by rw [hsize]; exact hmm, by rw [hend]; rfl⟩, rfl⟩

/-- The heap grows by a page. -/
theorem exists_heapExpand (h : Inv res w) (hend : w.heapEnd = some 0x1100000) {k n : ℕ}
    (hfill : w.space.mm.pmm.FilledTo k n) (hk : 0 < k) (hn : n ≤ maxFrames) (hroom : k + 2 ≤ n) :
    ∃ mm, Step w (.heapExpand 0x101000) { w.withMm mm with heapEnd := some 0x1101000 } ∧
      ∃ k' ≤ k + 2, mm.pmm.FilledTo k' n ∧ 0 < k' := by
  have he : expandEnd 0x1100000 0x101000 = .ok 0x1101000 := by decide +kernel
  obtain ⟨mm, hmm, hfill'⟩ := h.space.owned.exists_mapHeapBacking 0x1100000 4096
    Mm.heapPerms (by decide) (by decide) (by decide) hfill hk hn hroom
  have hsome : w.heapEnd ≠ none := by rw [hend]; exact Option.some_ne_none _
  refine ⟨mm, ⟨hsome, ?_⟩, hfill'⟩
  simp only [step, hend, Mm.heapExpand, he, K.bind_eq_ok]
  exact ⟨(mm, 0x1101000), ⟨_, rfl, mm, hmm, rfl⟩, rfl⟩

/-- A client allocates, the heap comes into being and grows, the local APIC's page is mapped (its
frame is reserved), and a page of the heap is unmapped. -/
def localApicRun : List MemAct :=
  [.allocFrames 2, .heapInit, .heapExpand 0x101000, .mapIdentity 0xFEE00000 1, .unmapPage 0x1100000]

theorem frames_safe_local_apic : ∃ p₀ mm w,
    Pmm.init .sample ⟨.empty, 0, 0⟩ firmwareTables = .ok p₀ ∧ Mm.init p₀ (fun _ _ => 0) = .ok mm ∧
    Run Step (boot mm) localApicRun w ∧ w.space.mm.mapped 0xFEE00 = some 0xFEE00 ∧
    FrameSafe (fun k => p₀.used k = true) w := by
  obtain ⟨p₀, mm, hp₀, hmm, hfree₀, _, hfree⟩ := exists_boot
  obtain ⟨res, hres⟩ : ∃ res, res = fun k => p₀.used k = true := ⟨_, rfl⟩
  have h₀ : Inv res (boot mm) := hres ▸ inv_boot hmm (Pmm.used_low_of_init hp₀ (by norm_num))
  have hn : 0x3FFE0 ≤ maxFrames := by decide
  have hfill : mm.pmm.FilledTo 0x302 0x3FFE0 := by
    refine ⟨fun j hj => ?_, fun j h1 h2 => (hfree j (by omega)).2 ⟨h1, h2⟩⟩
    by_contra hc
    rw [Bool.not_eq_true, hfree j (by omega)] at hc
    omega
  obtain ⟨p₁, ha, hfill₁⟩ := hfill.exists_allocFrames 2 (by decide) (by decide) hn
  obtain ⟨w₁, hw₁⟩ : ∃ w₁, w₁ =
    { (boot mm).withMm ⟨p₁, mm.vmm⟩ with blocks := [(0x302 * 4096, 2)] } := ⟨_, rfl⟩
  have hs₁ : Step (boot mm) (.allocFrames 2) w₁ := by
    refine ⟨trivial, ?_⟩
    simp only [step, K.bind_eq_ok]
    exact ⟨_, ha, by rw [hw₁]; rfl⟩
  have hI₁ := inv_step (a := .allocFrames 2) h₀ trivial hs₁
  obtain ⟨mm₂, hs₂, k₂, hk₂, hfill₂, hpos₂⟩ := exists_heapInit hI₁ (by rw [hw₁]; rfl)
    (by rw [hw₁]; exact hfill₁) (by decide) hn (by decide)
  have hI₂ := inv_step (a := .heapInit) hI₁ trivial hs₂
  obtain ⟨mm₃, hs₃, k₃, hk₃, hfill₃, hpos₃⟩ := exists_heapExpand hI₂ rfl hfill₂ hpos₂ hn (by omega)
  have hcare₃ : 0x101000 ≤ heapMaxAddr - heapStart := by decide
  have hI₃ := inv_step (a := .heapExpand _) hI₂ hcare₃ hs₃
  obtain ⟨w₃, hw₃⟩ : ∃ w₃, w₃ = ({ w₁.withMm mm₃ with heapEnd := some 0x1101000 } : MemWorld) :=
    ⟨_, rfl⟩
  have hs₃ : Step { w₁.withMm mm₂ with heapEnd := some 0x1100000 } (.heapExpand 0x101000) w₃ :=
    hw₃ ▸ hs₃
  have hI₃ : Inv res w₃ := hw₃ ▸ hI₃
  have hmm₃ : w₃.space.mm = mm₃ := by rw [hw₃]; rfl
  have howns : ∀ v, w₃.Owns v ↔ 0x1000 ≤ v ∧ v < 0x1101 := by
    intro v
    rw [hw₃, hw₁]
    unfold Owns Mm.heapHas heapStart
    constructor
    · rintro (⟨x, hx, h1, h2⟩ | ⟨r, hr, _⟩)
      · cases hx
        omega
      · exact absurd hr List.not_mem_nil
    · exact fun hv => Or.inl ⟨_, rfl, by omega, by omega⟩
  obtain ⟨mm₄, hmap, -⟩ : ∃ mm₄, w₃.space.mm.mapPageLocked (0xFEE00000 / 4096 * 4096)
      (0xFEE00000 / 4096 * 4096) (flagPresent ||| flagWritable) = .ok mm₄ ∧ _ :=
    Mm.exists_mapPageLocked (k := k₃) hI₃.space.owned.wf (by rw [hmm₃]; exact hfill₃.1 0 hpos₃)
      (by norm_num) (by norm_num) (by omega)
      (by rw [hmm₃]; exact hfill₃.2 k₃ (le_refl _) (by omega)) (by rw [hmm₃]; exact hfill₃.1)
  have hs₄ : Step w₃ (.mapIdentity 0xFEE00000 1) (w₃.withMm mm₄) :=
    step_mapIdentity (by norm_num) hmap
  have hcare₄ : Careful res w₃ (.mapIdentity 0xFEE00000 1) := by
    intro j hj
    obtain rfl : j = 0 := by omega
    refine ⟨by norm_num, fun hown => ?_, Or.inr ?_⟩
    · have := (howns _).1 hown
      omega
    · rw [hres]
      by_contra hc
      rw [Bool.not_eq_true, hfree₀ _ (by decide)] at hc
      norm_num at hc
  have hI₄ := inv_step hI₃ hcare₄ hs₄
  have hown : (w₃.withMm mm₄).Owns 0x1100 := (howns 0x1100).2 (by omega)
  obtain ⟨mm₅, hunmap⟩ := hI₄.space.owned.exists_unmapPage hown
  have hs₅ : Step (w₃.withMm mm₄) (.unmapPage 0x1100000) ((w₃.withMm mm₄).withMm mm₅) := by
    refine ⟨trivial, ?_⟩
    simp only [step, K.bind_eq_ok]
    exact ⟨mm₅, hunmap, rfl⟩
  have hcare₅ : Careful res (w₃.withMm mm₄) (.unmapPage 0x1100000) := ⟨by norm_num, Or.inr hown⟩
  refine ⟨p₀, mm, _, hp₀, hmm, .cons hs₁ (.cons hs₂ (.cons hs₃ (.cons hs₄ (.cons hs₅ (.nil _))))),
    ?_, ?_⟩
  · have hkeep := (hI₄.space.owned.unmapOwned hown hunmap).2.2.1 0xFEE00 (by norm_num) (by norm_num)
    refine hkeep.trans ?_
    exact (Mm.mapped_mapPageLocked hI₃.space.owned.wf (v := 0xFEE00) (by decide) (by decide)
      (by decide) hmap).2.2.2.1
  · subst hres
    refine frames_safe .sample ⟨.empty, 0, 0⟩ p₀ firmwareTables (fun _ _ => 0) mm hp₀ hmm
      localApicRun _ (.cons hs₁ (.cons hs₂ (.cons hs₃ (.cons hs₄ (.cons hs₅ (.nil _)))))) ?_
    have hdet : ∀ {w a w₁ w₂}, Step w a w₁ → Step w a w₂ → w₁ = w₂ := fun h h' =>
      Except.ok.inj (h.2.symm.trans h'.2)
    unfold localApicRun
    rw [along_cons_iff hs₁ fun _ h => hdet h hs₁, along_cons_iff hs₂ fun _ h => hdet h hs₂,
      along_cons_iff hs₃ fun _ h => hdet h hs₃, along_cons_iff hs₄ fun _ h => hdet h hs₄,
      along_cons_iff hs₅ fun _ h => hdet h hs₅]
    exact ⟨trivial, trivial, hcare₃, hcare₄, hcare₅, trivial⟩

/-- **A firmware table is given away.** `acpi::init` maps the page of a table to read it and unmaps
it again; with the memory otherwise in use, the next frame allocated is the frame of the table. -/
theorem firmware_frame_allocated : ¬ ∀ (img : KernelImage) (p p₀ : Pmm) (mb : Multiboot)
    (phys : ℕ → ℕ → ℕ) (mm : Mm), Pmm.init img p mb = .ok p₀ → Mm.init p₀ phys = .ok mm →
    ∀ (as : List MemAct) (w : MemWorld), Run Step (boot mm) as w →
      FrameSafe (fun k => p₀.used k = true) w := by
  intro hall
  obtain ⟨p₀, mm, hp₀, hmm, hfree₀, hnone, hfree⟩ := exists_boot
  have ho := Mm.owned_init hmm
  have hused : ∀ k < maxFrames, ¬ (0x302 ≤ k ∧ k < 0x3FFE0) → mm.pmm.used k = true := by
    intro k hk hout
    by_contra hc
    rw [Bool.not_eq_true, hfree k hk] at hc
    exact hout hc
  -- a client takes all frames but the last
  obtain ⟨p₁, h₁, hread₁⟩ := Pmm.exists_allocFrames (p := mm.pmm) (k := 0x302)
    (show 0 < 0x3FFDF - 0x302 by norm_num) (by decide)
    (fun j hj => (hfree _ (by unfold maxFrames; omega)).2 (by omega))
    (fun j hj => hused j (by unfold maxFrames; omega) (by omega))
  obtain ⟨w₁, hw₁⟩ : ∃ w₁, w₁ =
      { (boot mm).withMm ⟨p₁, mm.vmm⟩ with blocks := [(0x302 * 4096, 0x3FFDF - 0x302)] } := ⟨_, rfl⟩
  have hs₁ : Step (boot mm) (.allocFrames (0x3FFDF - 0x302)) w₁ := by
    refine ⟨trivial, ?_⟩
    simp only [step, K.bind_eq_ok]
    exact ⟨_, h₁, by rw [hw₁]; rfl⟩
  have hmm₁ : w₁.space.mm = ⟨p₁, mm.vmm⟩ := by rw [hw₁]; rfl
  have hfree₁ : ∀ k < maxFrames, w₁.space.mm.pmm.used k = false ↔ k = 0x3FFDF := by
    intro k hk
    rw [hmm₁]
    show Pmm.used p₁ k = false ↔ _
    rw [hread₁, Bool.or_eq_false_iff, hfree k hk, decide_eq_false_iff_not]
    omega
  have hres : p₀.used 0x3FFE0 = true := by
    by_contra hc
    rw [Bool.not_eq_true, hfree₀ _ (by decide)] at hc
    norm_num at hc
  have hinv₁ := inv_step (a := .allocFrames _)
    (inv_boot hmm (Pmm.used_low_of_init hp₀ (by norm_num))) trivial hs₁
  have hused₁ : ∀ k < 0x3FFDF, w₁.space.mm.pmm.used k = true := by
    intro k hk
    by_contra hc
    rw [Bool.not_eq_true, hfree₁ k (by unfold maxFrames; omega)] at hc
    omega
  -- the table is mapped, with the last frame as page table
  obtain ⟨mm₂, hmap, -⟩ : ∃ mm₂, w₁.space.mm.mapPageLocked (0x3FFE0000 / 4096 * 4096)
      (0x3FFE0000 / 4096 * 4096) (flagPresent ||| flagWritable) = .ok mm₂ ∧ _ :=
    Mm.exists_mapPageLocked (k := 0x3FFDF) hinv₁.space.owned.wf (hused₁ 0 (by norm_num))
      (by norm_num) (by norm_num) (by decide) ((hfree₁ _ (by decide)).2 rfl) hused₁
  have hs₂ : Step w₁ (.mapIdentity 0x3FFE0000 1) (w₁.withMm mm₂) :=
    step_mapIdentity (by norm_num) hmap
  have hcare₂ : Careful (fun k => p₀.used k = true) w₁ (.mapIdentity 0x3FFE0000 1) := by
    intro j hj
    rw [show j = 0 by omega, hw₁]
    refine ⟨by norm_num, ?_, Or.inr hres⟩
    rintro (⟨x, hx, _⟩ | ⟨r, hr, _⟩)
    · cases hx
    · exact absurd hr List.not_mem_nil
  have ho₂ : Mm.Owned mm₂ _ _ _ := (inv_step hinv₁ hcare₂ hs₂).space.owned
  obtain ⟨_, _, htab, hpage, _⟩ := Mm.mapped_mapPageLocked hinv₁.space.owned.wf (v := 0x3FFE0)
    (f := 0x3FFE0) (by decide) (by decide) (by decide) hmap
  have hused₂ : ∀ k < maxFrames, mm₂.pmm.used k = true := by
    intro k hk
    cases htab with
    | same _ htable =>
      have hnone₂ : mm₂.table (0x3FFE0 / 1024) = none := by
        rw [htable _ (by norm_num), hmm₁]
        exact hnone
      rw [Mm.mapped_zero (Mm.pte_of_none hnone₂)] at hpage
      cases hpage
    | fresh t ht hfree₂ hread₂ _ _ =>
      rw [hfree₁ t ht] at hfree₂
      rw [hread₂, Bool.or_eq_true, decide_eq_true_eq, hfree₂]
      by_contra hc
      rw [not_or, Bool.not_eq_true, hfree₁ k hk] at hc
      exact hc.2 hc.1
  -- unmapping it releases its frame, the only free one then
  obtain ⟨mm₃, hunmap⟩ := Mm.exists_unmapPageLocked ho₂.wf (a := 0x3FFE0000) (by norm_num) hpage
    (hused₂ _ (by decide))
  have hs₃ : Step (w₁.withMm mm₂) (.unmapPage 0x3FFE0000) (w₁.withMm mm₃) := by
    refine ⟨trivial, ?_⟩
    simp only [step, K.bind_eq_ok]
    exact ⟨mm₃, hunmap, rfl⟩
  have hread₃ : ∀ k, mm₃.pmm.used k = (mm₂.pmm.used k && !decide (k = 0x3FFE0)) := by
    rcases Mm.unmapPageLocked_spec ho₂.wf (by norm_num) (by norm_num) (fun f hf => by
      rw [show (0x3FFE0000 : ℕ) / 4096 = 0x3FFE0 by norm_num, hpage] at hf
      cases hf
      exact ⟨ho₂.ext_ne_dir _ (Or.inl hres), ho₂.ext_ne_table _ (Or.inl hres)⟩) hunmap with
      ⟨hn, _⟩ | ⟨f, hf, _, _, _, _, hread, _⟩
    · rw [show (0x3FFE0000 : ℕ) / 4096 = 0x3FFE0 by norm_num, hpage] at hn
      cases hn
    · rw [show (0x3FFE0000 : ℕ) / 4096 = 0x3FFE0 by norm_num, hpage] at hf
      cases hf
      exact hread
  obtain ⟨p₄, h₄, _⟩ := Pmm.exists_allocFrames (p := mm₃.pmm) (k := 0x3FFE0) one_pos (by decide)
    (fun j hj => by rw [hread₃, show 0x3FFE0 + j = 0x3FFE0 by omega]; exact Bool.and_false _)
    (fun j hj => by
      rw [hread₃, hused₂ j (by unfold maxFrames; omega), decide_eq_false (by omega)]
      rfl)
  have hsafe := hall _ _ p₀ _ _ mm hp₀ hmm _ _ (.cons hs₁ (.cons hs₂ (.cons hs₃ (.nil _))))
  exact hsafe.alloc 1 p₄ _ h₄ 0 one_pos hres

end MemWorld

end Ospp
