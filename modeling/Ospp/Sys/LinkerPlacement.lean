import Ospp.Klib.BitmapRange
import Ospp.Sys.LinkerPlan

/-!
# Where sections are placed

What becomes of sizes and alignments when a load succeeds. `append` aligns the offset of a section
in its region, with 32-bit arithmetic: `align_up` may carry out, and then the section is placed at
the beginning of the region again. The region itself starts at a page, whichever is free, so an
alignment above the size of a page is honoured only where that page happens to have it.
-/

namespace Ospp

namespace Linker

open Trans

/-! ## Statements -/

/-- The addresses of a region that is mapped. -/
def Region.Covers (r : Region) (x : ℕ) : Prop := r.base ≠ 0 ∧ r.base ≤ x ∧ x < r.base + r.size

/-- The sections of the layout `L`, which is in slot `i`, have their places. -/
structure WellPlaced (s : Linker) (o : Object) (i : ℕ) (L : Layout) : Prop where
  inside : ∀ j wh sec, L.map j = some (wh, sec) → sec.regOff + sec.size ≤ (L.region wh).size
  apart : ∀ j j' wh sec sec', j < j' → L.map j = some (wh, sec) → L.map j' = some (wh, sec') →
    sec.regOff + sec.size ≤ sec'.regOff ∨ sec'.regOff + sec'.size ≤ sec.regOff
  window : ∀ wh, (L.region wh).base ≠ 0 → (L.region wh).base % 4096 = 0 ∧
    (L.region wh).size % 4096 = 0 ∧ moduleSpaceBase ≤ (L.region wh).base ∧
    (L.region wh).base + (L.region wh).size ≤ moduleSpaceBase + moduleSpacePageCount * 4096
  regions : ∀ x, L.rx.Covers x → ¬ L.rw.Covers x
  others : ∀ x wh, (L.region wh).Covers x → ∀ i' L', i' ≠ i → s.layouts.ptr i' = some L' →
    ∀ wh', ¬ (L'.region wh').Covers x
  aligned : ∀ j wh sec k, L.map j = some (wh, sec) → (o.secHdr j).addralign = 2 ^ k →
    2 ^ k ∣ (L.region wh).base + sec.regOff

/-- `align_up` carries out at header `i`. -/
def Carries (o : Object) (wh : Which) (i : ℕ) : Prop :=
  4294967296 < used o wh i + (o.secHdr i).align

/-- The first free run of pages in the bitmap. -/
def FirstRun (b : Bitmap) (pages u : ℕ) : Prop :=
  Bitmap.RunFree lmmSpec b pages u ∧ ∀ k < u, ¬ Bitmap.RunFree lmmSpec b pages k

/-- The number of pages of a region. -/
def regionPages (o : Object) (wh : Which) : ℕ := regionSize o wh / 4096

/-- The first free run for a region; the one for `rw` is looked for when `rx` has its own. -/
def Lands (b : Bitmap) (o : Object) : Which → ℕ → Prop
  | .rx, u => FirstRun b (regionPages o .rx) u
  | .rw, u => ∃ v, FirstRun b (regionPages o .rx) v ∧
      FirstRun (b.setRun v (regionPages o .rx)) (regionPages o .rw) u

/-- The sections of the object find their places in the state `s`. -/
structure Placeable (s : Linker) (o : Object) : Prop where
  fits : ∀ i < o.secHdrsNum.toNat, ∀ wh, (o.secHdr i).region = some wh → regionSize o wh ≠ 0
  clear : ∀ wh i k j, i < k → k ≤ j → j < o.secHdrsNum.toNat → (o.secHdr i).region = some wh →
    (o.secHdr k).region = some wh → (o.secHdr j).region = some wh → Carries o wh k →
    offset o wh i + (o.secHdr i).size ≤ offset o wh j ∨
      offset o wh j + (o.secHdr j).size ≤ offset o wh i
  aligned : ∀ wh u, Lands s.space.lmm o wh u → ∀ i < o.secHdrsNum.toNat,
    (o.secHdr i).region = some wh → ∀ k, (o.secHdr i).addralign = 2 ^ k →
      2 ^ k ∣ (modulePage + u) * 4096

/-- Only the bitmap of the state matters. -/
theorem Placeable.congr {s s' : Linker} {o : Object} (h : Placeable s o)
    (hlmm : s'.space.lmm = s.space.lmm) : Placeable s' o :=
  ⟨h.fits, h.clear, by rw [hlmm]; exact h.aligned⟩

/-! ## The pages of the regions -/

section

variable {res ext own : ℕ → Prop} {rs : List PageRun} {s s' : Linker} {o : Object}
  {m m' : ModuleSpace} {L L' : Layout} {wh : Which} {b b' : Bitmap} {pages u v : ℕ}

theorem runFree_congr (h : ∀ k, b'.testBit k = b.testBit k) (k : ℕ) :
    Bitmap.RunFree lmmSpec b' pages k ↔ Bitmap.RunFree lmmSpec b pages k := by
  unfold Bitmap.RunFree
  simp only [h]

theorem firstRun_congr (h : ∀ k, b'.testBit k = b.testBit k) :
    FirstRun b' pages u ↔ FirstRun b pages u := by
  unfold FirstRun
  simp only [runFree_congr h]

theorem FirstRun.unique (h : FirstRun b pages u) (h' : FirstRun b pages v) : u = v := by
  have h1 : ¬ u < v := fun hlt => h'.2 u hlt h.1
  have h2 : ¬ v < u := fun hlt => h.2 v hlt h'.1
  omega

theorem Lands.unique (h : Lands b o wh u) (h' : Lands b o wh v) : u = v := by
  cases wh with
  | rx => exact FirstRun.unique h h'
  | rw =>
    obtain ⟨w, hw, hu⟩ := h
    obtain ⟨w', hw', hv⟩ := h'
    rw [hw.unique hw'] at hu
    exact hu.unique hv

/-- The run that `alloc_units` takes. -/
theorem firstRun_of_allocUnits (hpos : 0 < pages) (hle : u + pages ≤ moduleSpacePageCount)
    (h : b.allocUnits lmmSpec pages = .ok (b', (modulePage + u) * 4096)) : FirstRun b pages u := by
  unfold moduleSpacePageCount at hle
  have hmax : pages ≤ lmmSpec.maxUnits := by
    show pages ≤ 128
    omega
  rw [Bitmap.allocUnits_eq hpos hmax] at h
  cases hi : b.allocUnit lmmSpec pages with
  | none => rw [hi] at h; cases h
  | some i =>
    obtain ⟨hrun, hleast⟩ := (Bitmap.allocUnit_eq_some_iff hmax).1 hi
    rw [hi] at h
    have haddr : Word32.add lmmSpec.baseAddr (Word32.mul i lmmSpec.unitSize) =
        (modulePage + u) * 4096 := (Prod.mk.inj (Except.ok.inj h)).2
    have hlt : i + pages ≤ 128 := hrun.1
    have hiu : i = u := by
      have h1 : Word32.add 167772160 (Word32.mul i 4096) = (40960 + u) * 4096 := haddr
      rw [Word32.mul_eq (by omega), Word32.add_eq (by omega)] at h1
      omega
    rw [← hiu]
    exact ⟨hrun, hleast⟩

/-- No run is wanted for a region without a size. -/
theorem firstRun_zero (b : Bitmap) : FirstRun b 0 0 :=
  ⟨⟨Nat.zero_le _, fun _ hj => absurd hj (Nat.not_lt_zero _)⟩,
    fun _ hk => absurd hk (Nat.not_lt_zero _)⟩

/-- `stage1` and the bitmap. -/
theorem stage1_units {ok : Bool} (h : m.Inv res ext own rs)
    (hsize : (L.region wh).size % 4096 = 0) (hbase : (L.region wh).base = 0)
    (hr : (stage1 m L wh).result = .ok (m', L', ok)) :
    ∃ u, FirstRun m.lmm ((L.region wh).size / 4096) u ∧
      (∀ k, m'.lmm.testBit k = (m.lmm.setRun u ((L.region wh).size / 4096)).testBit k) ∧
      ((L'.region wh).base ≠ 0 → (L'.region wh).base = (modulePage + u) * 4096) := by
  by_cases h0 : (L.region wh).size = 0
  · unfold stage1 at hr
    dsimp only at hr
    rw [if_pos h0] at hr
    cases hr
    rw [h0]
    exact ⟨0, firstRun_zero _, fun _ => rfl, fun hb => absurd hbase hb⟩
  · obtain ⟨m₁, x, hmap, rfl, hcopy⟩ := stage1_mapped h hsize h0 hr
    obtain ⟨u, _, _, hx, hu, halloc, hbits, _⟩ := h.mapRegion_cases (by omega) hmap
    cases hx
    obtain ⟨_, hb, hb0, hok, hinv, _⟩ := mapRegion_spec h hsize h0 hmap
    cases hb
    have hreg : (L.withBase wh ((modulePage + u) * 4096)).region wh =
        { L.region wh with base := (modulePage + u) * 4096 } := Layout.region_setRegion _ _ _
    obtain ⟨hlmm, _⟩ := copySections_spec hok (by rw [hreg]; exact hb0) (by rw [hreg]; exact h0)
      hinv hcopy
    refine ⟨u, firstRun_of_allocUnits (by omega) hu halloc, fun k => ?_, fun _ => by rw [hreg]⟩
    rw [hlmm, hbits, Bitmap.testBit_setRun]

/-- The pages that the regions of a new layout land on. -/
theorem Staged.lands (hI : s.space.Inv res ext own (runs s.layouts)) (hs : Staged s o m L)
    (hb : (L.region wh).base ≠ 0) :
    ∃ u, Lands s.space.lmm o wh u ∧ (L.region wh).base = (modulePage + u) * 4096 := by
  have hok := hs.stage0_ok
  obtain ⟨L₀, m₁, L₁, hs₀, h₁, h₂⟩ := hs
  have hplan : plan o = L₀ := by unfold plan; rw [hs₀]
  subst hplan
  obtain ⟨hp, _, hsize⟩ := stage0_spec o hs₀
  obtain ⟨hsizes, _, _⟩ := plan_spec hok
  have hl₀ := loading_start hI hp
  have hl₁ := hl₀.stage1 (hsize rfl .rx) (hp.base .rx) h₁
  obtain ⟨b₁, rfl, _⟩ := stage1_spec hl₀.space (hsize rfl .rx) (hp.base .rx) h₁
  have hrw : ((plan o).withBase .rx b₁).region .rw = (plan o).region .rw :=
    Layout.region_setRegion_ne _ _ (by decide)
  obtain ⟨v, hv, hbits, hbase₁⟩ := stage1_units hl₀.space (hsize rfl .rx) (hp.base .rx) h₁
  obtain ⟨b₂, rfl, _⟩ := stage1_spec hl₁.space (by rw [hrw]; exact hsize rfl .rw)
    (by rw [hrw]; exact hp.base .rw) h₂
  obtain ⟨u, hu, _, hbase₂⟩ := stage1_units hl₁.space (by rw [hrw]; exact hsize rfl .rw)
    (by rw [hrw]; exact hp.base .rw) h₂
  rw [hsizes .rx] at hv hbits
  rw [hrw, hsizes .rw, firstRun_congr hbits] at hu
  cases wh with
  | rx =>
    have hrx : (((plan o).withBase .rx b₁).withBase .rw b₂).region .rx =
        ((plan o).withBase .rx b₁).region .rx := Layout.region_setRegion_ne _ _ (by decide)
    rw [hrx] at hb ⊢
    exact ⟨v, hv, hbase₁ hb⟩
  | rw => exact ⟨u, ⟨v, hv, hu⟩, hbase₂ hb⟩

/-! ## Offsets -/

theorem used_le_offset {j : ℕ} (h : ¬ Carries o wh j) : used o wh j ≤ offset o wh j := by
  have halign : 0 < (o.secHdr j).align := by
    unfold SectionHeader.align
    split_ifs with h0
    · omega
    · norm_num
  exact Word32.alignUp_ge halign (by unfold Carries at h; omega)

/-- The offsets do not go down while nothing carries out. -/
theorem used_le_used {R : ℕ}
    (hend : ∀ i < o.secHdrsNum.toNat, (o.secHdr i).region = some wh →
      offset o wh i + (o.secHdr i).size ≤ R) (hR : R < 4294967296) {i : ℕ} : ∀ j,
    i ≤ j → j ≤ o.secHdrsNum.toNat →
      (∀ k, i ≤ k → k < j → (o.secHdr k).region = some wh → ¬ Carries o wh k) →
      used o wh i ≤ used o wh j := by
  intro j hij
  induction j, hij using Nat.le_induction with
  | base => intro _ _; exact le_rfl
  | succ j hij ih =>
    intro hj hcarry
    have hle := ih (by omega) fun k h1 h2 => hcarry k h1 (by omega)
    by_cases hreg : (o.secHdr j).region = some wh
    · have hge := used_le_offset (hcarry j hij (by omega) hreg)
      have hfit := hend j (by omega) hreg
      rw [used_succ_of hreg, Word32.add_eq (by omega)]
      omega
    · rw [used_succ_of_not hreg]
      exact hle

/-- A section before which nothing has carried out since an earlier one lies behind that. -/
theorem end_le_offset {R : ℕ}
    (hend : ∀ i < o.secHdrsNum.toNat, (o.secHdr i).region = some wh →
      offset o wh i + (o.secHdr i).size ≤ R) (hR : R < 4294967296) {i j : ℕ} (hij : i < j)
    (hj : j < o.secHdrsNum.toNat) (hi : (o.secHdr i).region = some wh)
    (hregj : (o.secHdr j).region = some wh)
    (hcarry : ∀ k, i < k → k ≤ j → (o.secHdr k).region = some wh → ¬ Carries o wh k) :
    offset o wh i + (o.secHdr i).size ≤ offset o wh j := by
  have hused := used_le_used hend hR (i := i + 1) j (by omega) (by omega)
    fun k h1 h2 => hcarry k (by omega) (by omega)
  have hfit := hend i (by omega) hi
  rw [used_succ_of hi, Word32.add_eq (by omega)] at hused
  exact hused.trans (used_le_offset (hcarry j hij le_rfl hregj))

/-! ## The result -/

section

variable {res ext own : ℕ → Prop} {s s' : Linker} {o : Object} {m : ModuleSpace} {L : Layout}
  {wh : Which}

/-- The runs of a live layout are among all. -/
theorem in_runs {t : StaticArray Layout 64} {i : ℕ} (hL : t.ptr i = some L) {v : ℕ}
    (hv : In L.runs v) : In (runs t) v := by
  obtain ⟨r, hr, hin⟩ := hv
  refine ⟨r, List.mem_flatMap.2 ⟨i, List.mem_range.2 (StaticArray.ptr_lt hL), ?_⟩, hin⟩
  unfold slotRuns
  rw [hL]
  exact hr

/-- A mapped region covers pages of its layout. -/
theorem Region.Covers.in_runs {x : ℕ} (hok : L.Ok) (h : (L.region wh).Covers x) :
    In (L.region wh).runs (x / 4096) ∧ In L.runs (x / 4096) := by
  obtain ⟨hb, hlo, hhi⟩ := h
  obtain ⟨r, hr, hin⟩ := in_region (hok.region wh) hb hlo hhi
  exact ⟨⟨r, hr, hin⟩, r, (L.runs_perm_region wh.other_ne).symm.subset (List.mem_append_left _ hr),
    hin⟩

/-- The regions of a new layout have pages of their own, whatever the sections. -/
theorem Loading.regions_apart (h : Loading res ext own s m L) {x : ℕ} (hx : L.rx.Covers x) :
    ¬ L.rw.Covers x := by
  intro hw
  obtain ⟨⟨r, hr, hin⟩, _⟩ := Region.Covers.in_runs h.ok (show (L.region .rx).Covers x from hx)
  obtain ⟨⟨r', hr', hin'⟩, _⟩ := Region.Covers.in_runs h.ok (show (L.region .rw).Covers x from hw)
  have hdisj := (List.pairwise_append.1 h.space.disjoint).1
  have hapart := (List.pairwise_append.1 hdisj).2.2 r' hr' r hr
  unfold PageRun.Has at hin hin'
  unfold PageRun.Apart at hapart
  omega

/-- Where the sections of a region are, and that they end in it. -/
theorem Ready.ends (h : Ready res ext own s o m L) (hok : (stage0 (Layout.new o)).2 = true)
    (h0 : regionSize o wh ≠ 0) :
    ∀ i < o.secHdrsNum.toNat, (o.secHdr i).region = some wh →
      offset o wh i + (o.secHdr i).size ≤ 0x80000 ∧
        offset o wh i + (o.secHdr i).size ≤ (L.region wh).size := by
  intro i hi hreg
  have hmap : L.map i = some (wh, placed o wh i) := by rw [h.map hok, if_pos hi, hreg]; rfl
  obtain ⟨hlo, hhi, hsec⟩ := h.fits hmap fun hb => h0 ((h.base_eq_zero hok).1 hb)
  have hsec' : offset o wh i + (o.secHdr i).size ≤ (L.region wh).size := hsec
  exact ⟨by omega, hsec'⟩

theorem mem_map_iff (h : Ready res ext own s o m L) (hok : (stage0 (Layout.new o)).2 = true) {i : ℕ}
    {sec : Section} : L.map i = some (wh, sec) ↔
      i < o.secHdrsNum.toNat ∧ (o.secHdr i).region = some wh ∧ sec = placed o wh i := by
  rw [h.map hok]
  by_cases hi : i < o.secHdrsNum.toNat
  · rw [if_pos hi, Option.map_eq_some_iff]
    constructor
    · rintro ⟨wh', hreg, he⟩
      cases he
      exact ⟨hi, hreg, rfl⟩
    · rintro ⟨_, hreg, rfl⟩
      exact ⟨wh, hreg, rfl⟩
  · rw [if_neg hi]
    exact iff_of_false (fun h => by cases h) fun h => hi h.1

/-- The alignment of an offset. -/
theorem two_pow_dvd_offset {i k : ℕ} (h : (o.secHdr i).addralign = 2 ^ k) :
    2 ^ k ∣ offset o wh i := by
  have hlt : (2 : ℕ) ^ k < 2 ^ 32 := by
    rw [← h]
    exact Mem.read32_lt _ _
  have hk : k < 32 := (Nat.pow_lt_pow_iff_right (by norm_num)).1 hlt
  unfold offset SectionHeader.align
  rw [h, if_pos (by positivity)]
  exact Word32.two_pow_dvd_alignUp _ hk

/-- The sections of a layout that has just been loaded. -/
theorem wellPlaced_iff {tab : List KexpEntry} {i : ℕ}
    (hinv : s.space.Inv res ext own (runs s.layouts))
    (hlive : ∀ i' L', s.layouts.ptr i' = some L' → L'.Ok)
    (hr : (s.load tab (some o)).result = .ok (s', some i)) (hL : s'.layouts.ptr i = some L) :
    WellPlaced s' o i L ↔ Placeable s o := by
  obtain ⟨m, L', hs, _, hL'⟩ := staged_of_load hr
  rw [hL] at hL'
  cases hL'
  have hok := hs.stage0_ok
  have hready := hs.ready hinv
  have hl := hready.loading
  have hrest : ∀ j, j ≠ i → s'.layouts.ptr j = s.layouts.ptr j := by
    rcases load_spec hinv hr with ⟨hn, _⟩ | ⟨i', _, hi', _, _, _, hrest, _⟩
    · cases hn
    · cases hi'
      exact hrest
  have hzero : ∀ wh, (L.region wh).size = 0 ↔ regionSize o wh = 0 := by
    obtain ⟨b, rfl, _⟩ := hready.plan
    intro wh
    rw [Layout.region_withBases, ← (plan_spec hok).1 wh]
  constructor
  · intro hw
    have hfits : ∀ i < o.secHdrsNum.toNat, ∀ wh, (o.secHdr i).region = some wh →
        regionSize o wh ≠ 0 := by
      intro j hj wh hreg h0
      have hin := hw.inside j wh _ ((mem_map_iff hready hok).2 ⟨hj, hreg, rfl⟩)
      have hsize : (placed o wh j).size = (o.secHdr j).size := rfl
      have hpos : (o.secHdr j).size ≠ 0 := by
        intro hz
        unfold SectionHeader.region at hreg
        rw [if_pos (Or.inr (Or.inr hz))] at hreg
        cases hreg
      rw [(hzero wh).2 h0, hsize] at hin
      omega
    refine ⟨hfits, fun wh j k j' hjk hkj' hj' hreg _ hreg' _ => ?_, fun wh u hu j hj hreg k hk => ?_⟩
    · exact hw.apart j j' wh _ _ (by omega) ((mem_map_iff hready hok).2 ⟨by omega, hreg, rfl⟩)
        ((mem_map_iff hready hok).2 ⟨hj', hreg', rfl⟩)
    · have hb : (L.region wh).base ≠ 0 :=
        fun hb => hfits j hj wh hreg ((hready.base_eq_zero hok).1 hb)
      obtain ⟨u', hu', hbase⟩ := hs.lands hinv hb
      have hal := hw.aligned j wh _ k ((mem_map_iff hready hok).2 ⟨hj, hreg, rfl⟩) hk
      rw [hbase, hu'.unique hu] at hal
      exact (Nat.dvd_add_left (two_pow_dvd_offset hk)).1 hal
  · intro hp
    refine ⟨fun j wh sec hm => ?_, fun j j' wh sec sec' hjj' hm hm' => ?_, fun wh hb => ?_,
      fun x hx => hl.regions_apart hx, fun x wh hx i' L' hi' hL' wh' hx' => ?_,
      fun j wh sec k hm hk => ?_⟩
    · obtain ⟨hj, hreg, rfl⟩ := (mem_map_iff hready hok).1 hm
      exact (hready.ends hok (hp.fits j hj wh hreg) j hj hreg).2
    · obtain ⟨hj, hreg, rfl⟩ := (mem_map_iff hready hok).1 hm
      obtain ⟨hj', hreg', rfl⟩ := (mem_map_iff hready hok).1 hm'
      have hends := hready.ends hok (hp.fits j hj wh hreg)
      by_cases hc : ∃ k, j < k ∧ k ≤ j' ∧ (o.secHdr k).region = some wh ∧ Carries o wh k
      · obtain ⟨k, h1, h2, hregk, hck⟩ := hc
        exact hp.clear wh j k j' h1 h2 hj' hreg hregk hreg' hck
      · exact Or.inl (end_le_offset (fun k hk hregk => (hends k hk hregk).1) (by norm_num) hjj' hj'
          hreg hreg' fun k h1 h2 hregk hck => hc ⟨k, h1, h2, hregk, hck⟩)
    · have hs0 : (L.region wh).size ≠ 0 :=
        fun h => hb ((hready.base_eq_zero hok).2 ((hzero wh).1 h))
      obtain ⟨hlo, hhi⟩ := hl.window hb hs0
      obtain ⟨_, hal, hsz⟩ := ((hl.ok.region wh).resolve_left hb).resolve_left hs0
      unfold moduleSpaceBase moduleSpacePageCount
      exact ⟨hal, hsz, hlo, by omega⟩
    · rw [hrest i' hi'] at hL'
      exact (hl.fresh (Region.Covers.in_runs hl.ok hx).2).1
        (in_runs hL' (Region.Covers.in_runs (hlive i' L' hL') hx').2)
    · obtain ⟨hj, hreg, rfl⟩ := (mem_map_iff hready hok).1 hm
      have hb : (L.region wh).base ≠ 0 :=
        fun hb => hp.fits j hj wh hreg ((hready.base_eq_zero hok).1 hb)
      obtain ⟨u, hu, hbase⟩ := hs.lands hinv hb
      rw [hbase]
      exact Nat.dvd_add (hp.aligned wh u hu j hj hreg k hk) (two_pow_dvd_offset hk)

end

/-- **Placement.** When a load succeeds, the regions are disjoint runs of pages of the window. The
sections lie in them one clear of the other, and where their alignment wants them, exactly when no
region wraps to size 0, every section that is placed after `align_up` has carried out comes to lie
clear of the earlier ones, and the first free run for a region is aligned for its sections. -/
theorem placement_iff (tab : List KexpEntry) (s₀ s s' : Linker) (h₀ : Init s₀) (as : List Act)
    (hrun : Run (Step tab) s₀ as s) (o : Object) (i : ℕ) (L : Layout)
    (hr : (s.load tab (some o)).result = .ok (s', some i)) (hL : s'.layouts.ptr i = some L) :
    WellPlaced s' o i L ↔ Placeable s o := by
  obtain ⟨res, ext, own, _, hI₀⟩ := inv_init h₀
  have hI := inv_run hI₀ hrun
  exact wellPlaced_iff hI.space hI.ok hr hL

end

instance (o : Object) (wh : Which) (i : ℕ) : Decidable (Carries o wh i) :=
  inferInstanceAs (Decidable (4294967296 < used o wh i + (o.secHdr i).align))

/-- Ordinary objects: no size wraps, nothing carries out, and no alignment is above the size of a
page. -/
theorem placeable_of_small {s : Linker} {o : Object}
    (hsize : ∀ i < o.secHdrsNum.toNat, ∀ wh ∈ (o.secHdr i).region, regionSize o wh ≠ 0)
    (hcarry : ∀ i < o.secHdrsNum.toNat, ∀ wh ∈ (o.secHdr i).region, ¬ Carries o wh i)
    (halign : ∀ i < o.secHdrsNum.toNat, ∀ wh ∈ (o.secHdr i).region,
      (o.secHdr i).addralign ∣ 4096 ∨ ∀ k, (o.secHdr i).addralign ≠ 2 ^ k) : Placeable s o := by
  refine ⟨hsize, fun wh i k j _ hkj hj _ hreg _ hc => ?_, fun wh u _ i hi hreg k hk => ?_⟩
  · exact absurd hc (hcarry k (by omega) wh hreg)
  · rcases halign i hi wh hreg with h | h
    · rw [hk] at h
      exact Dvd.dvd.mul_left h _
    · exact absurd hk (h k)

/-- The small object, which has alignments 1 and 8. -/
theorem placement_sample : ∃ s₀ s' L, Init s₀ ∧
    (s₀.load [] (some (sampleObject 0))).result = .ok (s', some 0) ∧ s'.layouts.ptr 0 = some L ∧
    L.map 2 ≠ none ∧ WellPlaced s' (sampleObject 0) 0 L := by
  obtain ⟨s₀, s', L, hinit, hr, hL, hp⟩ := exists_loaded [] (some (sampleObject 0))
    (p := fun L => (L.map 2).isSome) (by decide +kernel)
  refine ⟨s₀, s', L, hinit, hr, hL, fun hnone => ?_, (placement_iff [] _ _ s' hinit [] (.nil _) _ 0 L
    hr hL).2 (placeable_of_small (by decide +kernel) (by decide +kernel) ?_)⟩
  · rw [hnone] at hp
    cases hp
  · have h : ∀ i < (sampleObject 0).secHdrsNum.toNat, ∀ wh ∈ ((sampleObject 0).secHdr i).region,
        ((sampleObject 0).secHdr i).addralign ∣ 4096 := by decide +kernel
    exact fun i hi wh hwh => Or.inl (h i hi wh hwh)

/-- An object with a section of code, and one of data that is to be aligned to two pages. -/
def alignedObject : Object where
  image := sampleImage (headerWords 0x500428 ⟨shtProgbits, 6, 0x100, 4, 0, 4⟩ ++
    headerWords 0x500450 ⟨shtProgbits, 3, 0x110, 4, 0, 0x2000⟩)
  hdr := 0x500000
  shoff := 0x400
  secHdrsNum := 3
  symtab := 0
  strtab := 0

/-- The code takes the first page of the window, so the data starts at the second one. -/
theorem data_not_aligned : ∃ s₀ s' L, Init s₀ ∧
    (s₀.load [] (some alignedObject)).result = .ok (s', some 0) ∧ s'.layouts.ptr 0 = some L ∧
    ¬ WellPlaced s' alignedObject 0 L := by
  obtain ⟨s₀, s', L, hinit, hr, hL, hp⟩ := exists_loaded [] (some alignedObject)
    (p := fun L => (L.map 2).any fun (q : Which × Section) =>
      ((L.region q.1).base + q.2.regOff) == 0xA001000) (by decide +kernel)
  refine ⟨s₀, s', L, hinit, hr, hL, fun hw => ?_⟩
  obtain ⟨⟨wh, sec⟩, hmap, haddr⟩ := (Option.any_eq_true _ _).1 hp
  have hal := hw.aligned 2 wh sec 13 hmap (by decide +kernel)
  rw [beq_iff_eq.1 haddr] at hal
  exact absurd hal (by decide)

end Linker

end Ospp
