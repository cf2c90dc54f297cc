import Ospp.Mm.Access

/-!
# The module window

The linker's window of 128 pages: a bitmap allocator (`LMM`) hands out runs of pages, which are
backed by frames of their own. `mapRegion` and `unmapRegion` are the parts of `stage1` and
`unload_region_locked` that do this.

`ModuleSpace.Inv` says that the bitmap, the page tables and the frame bitmap agree on the regions
in use.
-/

namespace Ospp

/-- `MODULE_SPACE_BASE`. -/
def moduleSpaceBase : ℕ := 0x0A000000

/-- `MODULE_SPACE_PAGE_COUNT`. -/
def moduleSpacePageCount : ℕ := 128

/-- The first page of the window. -/
def modulePage : ℕ := 40960

theorem moduleSpacePageCount_pos : 0 < moduleSpacePageCount := by decide

/-- `LMM`. -/
def lmmSpec : BitmapSpec :=
  ⟨moduleSpaceBase, moduleSpacePageCount, pageSize, moduleSpacePageCount_pos, pageSize_pos⟩

/-- The linker's bitmap together with the memory managers. -/
structure ModuleSpace where
  lmm : Bitmap
  mm : Mm

/-- A run of pages of the window: the first one, counted from the window's base, and how many. -/
structure PageRun where
  unit : ℕ
  pages : ℕ
  deriving DecidableEq, Repr

namespace PageRun

/-- The page is in the region. -/
def Has (r : PageRun) (v : ℕ) : Prop :=
  modulePage + r.unit ≤ v ∧ v < modulePage + r.unit + r.pages

def base (r : PageRun) : ℕ := (modulePage + r.unit) * pageSize

/-- The regions have no page in common. -/
def Apart (r r' : PageRun) : Prop := r.unit + r.pages ≤ r'.unit ∨ r'.unit + r'.pages ≤ r.unit

instance : Std.Symm Apart := ⟨fun _ _ h => h.symm⟩

end PageRun

namespace ModuleSpace

/-- Reserve a run of pages and back it with frames. The result is the base address, `none` when
there is no memory (`stage1` then gives the run back). -/
def mapRegion (m : ModuleSpace) (pages : ℕ) : K (ModuleSpace × Option ℕ) := do
  let (lmm, base) ← m.lmm.allocUnits lmmSpec pages
  let (pmm, phys) ← m.mm.pmm.allocFrames pages
  if phys = 0 then
    let lmm ← lmm.freeUnits lmmSpec base pages
    return (⟨lmm, ⟨pmm, m.mm.vmm⟩⟩, none)
  else
    let mm ← Mm.mapPages ⟨pmm, m.mm.vmm⟩ base phys pages (flagPresent ||| flagWritable)
    return (⟨lmm, mm⟩, some base)

/-- `unload_region_locked` on a region that is mapped. -/
def unmapRegion (m : ModuleSpace) (base pages : ℕ) : K ModuleSpace := do
  let mm ← m.mm.unmapPages base pages
  let lmm ← m.lmm.freeUnits lmmSpec base pages
  return ⟨lmm, mm⟩

/-- The regions `rs` are in use: their pages own their frames, besides the pages `own`, and the
bitmap marks exactly them. -/
structure Inv (m : ModuleSpace) (res ext own : ℕ → Prop) (rs : List PageRun) : Prop where
  owned : Mm.Owned m.mm res ext (fun v => own v ∨ ∃ r ∈ rs, r.Has v)
  outside : ∀ v, own v → ¬ (modulePage ≤ v ∧ v < modulePage + moduleSpacePageCount)
  bits : ∀ k < moduleSpacePageCount,
    m.lmm.testBit k = true ↔ ∃ r ∈ rs, r.unit ≤ k ∧ k < r.unit + r.pages
  fits : ∀ r ∈ rs, 0 < r.pages ∧ r.unit + r.pages ≤ moduleSpacePageCount
  disjoint : rs.Pairwise PageRun.Apart
  zero : res 0

section

variable {m m' : ModuleSpace} {res ext own : ℕ → Prop} {rs : List PageRun}

/-- `alloc_units` on the linker's bitmap. -/
theorem lmm_alloc {b b' : Bitmap} {pages base : ℕ} (hpos : 0 < pages)
    (h : b.allocUnits lmmSpec pages = .ok (b', base)) :
    ∃ i, i + pages ≤ moduleSpacePageCount ∧ base = (modulePage + i) * 4096 ∧
      (∀ j < pages, b.testBit (i + j) = false) ∧
      ∀ k, b'.testBit k = (b.testBit k || decide (i ≤ k ∧ k < i + pages)) := by
  rcases Bitmap.allocUnits_eq_ok h with ⟨h0, _⟩ | ⟨_, i, hi, rfl, hfree, hread⟩
  · omega
  · refine ⟨i, hi, ?_, hfree, hread⟩
    have : i + pages ≤ 128 := hi
    show Word32.add 167772160 (Word32.mul i 4096) = (40960 + i) * 4096
    rw [Word32.mul_eq (by omega), Word32.add_eq (by omega)]
    omega

/-- `free_units` on the linker's bitmap. -/
theorem lmm_free {b b' : Bitmap} {i pages : ℕ} (hi : i + pages ≤ moduleSpacePageCount)
    (h : b.freeUnits lmmSpec ((modulePage + i) * 4096) pages = .ok b') :
    ∀ k, b'.testBit k = (b.testBit k && !decide (i ≤ k ∧ k < i + pages)) := by
  have hunit : ((modulePage + i) * 4096 - lmmSpec.baseAddr) / lmmSpec.unitSize = i := by
    show ((40960 + i) * 4096 - 167772160) / 4096 = i
    omega
  unfold moduleSpacePageCount at hi
  rcases Bitmap.freeUnits_eq_ok (by rw [hunit]; omega) h with ⟨rfl, rfl⟩ | ⟨_, _, _, hrest⟩
  · intro k
    rw [decide_eq_false (by omega), Bool.not_false, Bool.and_true]
  · rw [hunit] at hrest
    exact hrest.2.2

/-- What `mapRegion` does: a free run of units, frames, and the mappings of pages that are not in use.
It does not run out of memory, which would be a frame `0`. -/
theorem Inv.mapRegion_cases (h : Inv m res ext own rs) {pages : ℕ} {base : Option ℕ}
    (hpos : 0 < pages) (hmap : m.mapRegion pages = .ok (m', base)) :
    ∃ i pmm phys, base = some ((modulePage + i) * 4096) ∧ i + pages ≤ moduleSpacePageCount ∧
      m.lmm.allocUnits lmmSpec pages = .ok (m'.lmm, (modulePage + i) * 4096) ∧
      (∀ k, m'.lmm.testBit k = (m.lmm.testBit k || decide (i ≤ k ∧ k < i + pages))) ∧
      m.mm.pmm.allocFrames pages = .ok (pmm, phys) ∧
      Mm.mapPages ⟨pmm, m.mm.vmm⟩ ((modulePage + i) * 4096) phys pages
        (flagPresent ||| flagWritable) = .ok m'.mm ∧
      (∀ r ∈ rs, r.unit + r.pages ≤ i ∨ i + pages ≤ r.unit) ∧
      ∀ u, modulePage + i ≤ u → u < modulePage + i + pages → ¬ (own u ∨ ∃ r ∈ rs, r.Has u) := by
  unfold ModuleSpace.mapRegion at hmap
  rw [K.bind_eq_ok] at hmap
  obtain ⟨⟨lmm, b⟩, hl, hmap⟩ := hmap
  dsimp only at hmap
  rw [K.bind_eq_ok] at hmap
  obtain ⟨⟨pmm, phys⟩, hp, hmap⟩ := hmap
  obtain ⟨i, hi, rfl, hfree, hread⟩ := lmm_alloc hpos hl
  have hphys : phys ≠ 0 := by
    rintro rfl
    obtain ⟨f, _, hf0, hffree, _⟩ := Pmm.allocFrames_eq_ok hp
    have := hffree 0 hpos
    rw [show f + 0 = 0 by omega, h.owned.ext_used 0 (h.owned.res_ext 0 h.zero)] at this
    cases this
  dsimp only at hmap
  rw [if_neg hphys, K.bind_eq_ok] at hmap
  obtain ⟨mm, hmm, hmap⟩ := hmap
  cases hmap
  unfold moduleSpacePageCount at hi
  have hnew : ∀ r ∈ rs, r.unit + r.pages ≤ i ∨ i + pages ≤ r.unit := by
    intro r hr
    obtain ⟨hrp, hrf⟩ := h.fits r hr
    unfold moduleSpacePageCount at hrf
    by_contra hc
    have hbit := (h.bits (max r.unit i) (by unfold moduleSpacePageCount; omega)).2
      ⟨r, hr, by omega, by omega⟩
    have := hfree (max r.unit i - i) (by omega)
    rw [show i + (max r.unit i - i) = max r.unit i by omega, hbit] at this
    cases this
  refine ⟨i, pmm, phys, rfl, hi, hl, hread, hp, hmm, hnew, fun u h1 h2 hu => ?_⟩
  unfold modulePage at h1 h2
  rcases hu with hu | ⟨r, hr, hu⟩
  · exact h.outside u hu (by unfold modulePage moduleSpacePageCount; omega)
  · have := hnew r hr
    unfold PageRun.Has modulePage at hu
    omega

/-- **Mapping a region.** A new region is in use, disjoint from the others. -/
theorem Inv.mapRegion (h : Inv m res ext own rs) {pages : ℕ} {base : Option ℕ} (hpos : 0 < pages)
    (hmap : m.mapRegion pages = .ok (m', base)) :
    ∃ i, base = some ((modulePage + i) * 4096) ∧ Inv m' res ext own (⟨i, pages⟩ :: rs) ∧
      (∀ v, PageRun.Has ⟨i, pages⟩ v → ∃ f, m'.mm.mapped v = some f ∧ m.mm.pmm.used f = false) ∧
      (∀ v, v / 1024 < 1023 → ¬ PageRun.Has ⟨i, pages⟩ v → m'.mm.mapped v = m.mm.mapped v) ∧
      Mm.KeepsTables m.mm m'.mm := by
  obtain ⟨i, pmm, phys, rfl, hi, _, hread, hp, hmm, hnew, hfresh⟩ := h.mapRegion_cases hpos hmap
  unfold moduleSpacePageCount at hi
  obtain ⟨ho, hm, hkeep, htab⟩ := h.owned.mapFresh (v := modulePage + i) (by decide)
    (by unfold modulePage; omega) (by unfold modulePage Mm.identityPages; omega) hfresh hp hmm
  refine ⟨i, rfl, ⟨?_, h.outside, fun k hk => ?_, fun r hr => ?_, ?_, h.zero⟩,
    fun v hv => hm v hv.1 hv.2, fun v hv hn => hkeep v hv hn, htab⟩
  · refine ho.congr (fun _ => Iff.rfl) fun v => ?_
    constructor
    · rintro (h1 | ⟨r, hr, h1⟩)
      · exact Or.inl (Or.inl h1)
      · rcases List.mem_cons.1 hr with rfl | hr
        · exact Or.inr h1
        · exact Or.inl (Or.inr ⟨r, hr, h1⟩)
    · rintro ((h1 | ⟨r, hr, h1⟩) | h1)
      · exact Or.inl h1
      · exact Or.inr ⟨r, List.mem_cons_of_mem _ hr, h1⟩
      · exact Or.inr ⟨⟨i, pages⟩, List.mem_cons_self, h1⟩
  · rw [hread, Bool.or_eq_true, h.bits k hk, decide_eq_true_eq, List.exists_mem_cons_iff, or_comm]
  · rcases List.mem_cons.1 hr with rfl | hr
    · exact ⟨hpos, hi⟩
    · exact h.fits r hr
  · exact List.pairwise_cons.2 ⟨fun r hr => (hnew r hr).symm, h.disjoint⟩

/-- The contents of the other regions are kept. -/
theorem Inv.readByte_mapRegion (h : Inv m res ext own rs) {pages : ℕ} {base : Option ℕ}
    (hpos : 0 < pages) (hmap : m.mapRegion pages = .ok (m', base)) {x : ℕ}
    (hx : own (x / 4096) ∨ ∃ r ∈ rs, r.Has (x / 4096)) :
    m'.mm.vmm.readByte x = m.mm.vmm.readByte x := by
  obtain ⟨i, pmm, phys, _, hi, _, _, hp, hmm, _, hfresh⟩ := h.mapRegion_cases hpos hmap
  unfold moduleSpacePageCount at hi
  exact h.owned.readByte_mapFresh (v := modulePage + i) (by decide) (by unfold modulePage; omega)
    (by unfold modulePage Mm.identityPages; omega) hfresh hp hmm hx

/-- **Unmapping a region.** The region is not in use any more, and its pages are not mapped. -/
theorem Inv.unmapRegion (h : Inv m res ext own rs) {r : PageRun} (hr : r ∈ rs)
    (hunmap : m.unmapRegion r.base r.pages = .ok m') :
    Inv m' res ext own (rs.erase r) ∧ (∀ v, r.Has v → m'.mm.mapped v = none) ∧
      (∀ v, v / 1024 < 1023 → ¬ r.Has v → m'.mm.mapped v = m.mm.mapped v) ∧
      Mm.KeepsTables m.mm m'.mm := by
  unfold ModuleSpace.unmapRegion at hunmap
  rw [K.bind_eq_ok] at hunmap
  obtain ⟨mm, hmm, hunmap⟩ := hunmap
  rw [K.bind_eq_ok] at hunmap
  obtain ⟨lmm, hl, hunmap⟩ := hunmap
  cases hunmap
  obtain ⟨hpos, hfit⟩ := h.fits r hr
  have hread := lmm_free hfit hl
  unfold moduleSpacePageCount at hfit
  have hnodup : rs.Nodup := by
    refine h.disjoint.imp_of_mem fun {x y} hx _ hxy => ?_
    rintro rfl
    have := h.fits x hx
    unfold PageRun.Apart at hxy
    omega
  have hmem : ∀ x, x ∈ rs.erase r ↔ x ≠ r ∧ x ∈ rs := fun x => hnodup.mem_erase_iff
  have hapart : ∀ x ∈ rs, x ≠ r → PageRun.Apart x r := fun x hx hne => h.disjoint.forall hx hr hne
  obtain ⟨ho, hm, hkeep, htab⟩ := h.owned.unmapPages (v := modulePage + r.unit)
    (by unfold modulePage; omega) (fun u h1 h2 => Or.inr ⟨r, hr, h1, h2⟩) hmm
  refine ⟨⟨?_, h.outside, fun k hk => ?_, fun x hx => h.fits x ((hmem x).1 hx).2,
    h.disjoint.sublist List.erase_sublist, h.zero⟩, fun v hv => hm v hv.1 hv.2,
    fun v hv hn => hkeep v hv hn, htab⟩
  · refine ho.congr (fun _ => Iff.rfl) fun v => ?_
    constructor
    · rintro (h1 | ⟨x, hx, h1⟩)
      · refine ⟨Or.inl h1, fun hin => h.outside v h1 ?_⟩
        unfold modulePage at hin
        unfold modulePage moduleSpacePageCount
        omega
      · obtain ⟨hne, hx⟩ := (hmem x).1 hx
        have := hapart x hx hne
        unfold PageRun.Has at h1
        unfold PageRun.Apart at this
        exact ⟨Or.inr ⟨x, hx, h1⟩, by omega⟩
    · rintro ⟨h1 | ⟨x, hx, h1⟩, h2⟩
      · exact Or.inl h1
      · refine Or.inr ⟨x, (hmem x).2 ⟨?_, hx⟩, h1⟩
        rintro rfl
        exact h2 h1
  · rw [hread, Bool.and_eq_true, h.bits k hk, Bool.not_eq_true', decide_eq_false_iff_not]
    constructor
    · rintro ⟨⟨x, hx, h1⟩, h2⟩
      refine ⟨x, (hmem x).2 ⟨?_, hx⟩, h1⟩
      rintro rfl
      exact h2 h1
    · rintro ⟨x, hx, h1⟩
      obtain ⟨hne, hx⟩ := (hmem x).1 hx
      have := hapart x hx hne
      unfold PageRun.Apart at this
      exact ⟨⟨x, hx, h1⟩, by omega⟩

/-- A fresh bitmap: no region is in use. -/
theorem inv_empty {mm : Mm} (ho : Mm.Owned mm res ext own) (hzero : res 0)
    (hout : ∀ v, own v → ¬ (modulePage ≤ v ∧ v < modulePage + moduleSpacePageCount)) :
    Inv ⟨.empty, mm⟩ res ext own [] := by
  refine ⟨ho.congr (fun _ => Iff.rfl) fun v => ?_, hout, fun k _ => ?_, fun r hr => ?_,
    List.Pairwise.nil, hzero⟩
  · exact or_iff_left fun ⟨r, hr, _⟩ => absurd hr List.not_mem_nil
  · constructor
    · intro hbit
      have : Bitmap.empty.testBit k = false := by
        unfold Bitmap.testBit Bitmap.empty
        exact Nat.zero_testBit _
      rw [this] at hbit
      cases hbit
    · rintro ⟨r, hr, _⟩
      exact absurd hr List.not_mem_nil
  · exact absurd hr List.not_mem_nil

/-- The order of the regions does not matter. -/
theorem Inv.perm (h : Inv m res ext own rs) {rs' : List PageRun} (hp : rs.Perm rs') :
    Inv m res ext own rs' := by
  have hmem : ∀ r, r ∈ rs' ↔ r ∈ rs := fun r => hp.mem_iff.symm
  refine ⟨h.owned.congr (fun _ => Iff.rfl) fun v => ?_, h.outside, fun k hk => ?_,
    fun r hr => h.fits r ((hmem r).1 hr), h.disjoint.perm hp fun {_ _} hrr => hrr.symm, h.zero⟩
  · simp only [hmem]
  · simp only [hmem]; exact h.bits k hk

/-- Contents of memory do not matter. -/
theorem Inv.of_same (h : Inv m res ext own rs) {mm : Mm} (hs : Mm.SameTables m.mm mm) :
    Inv ⟨m.lmm, mm⟩ res ext own rs :=
  ⟨h.owned.of_same hs, h.outside, h.bits, h.fits, h.disjoint, h.zero⟩

end

end ModuleSpace

end Ospp
