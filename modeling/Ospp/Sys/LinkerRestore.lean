import Ospp.Lib.Trans
import Ospp.Sys.LinkerAccount

/-!
# Loads and unloads

The invariant of the linker over any run of `load` and `unload`: the regions of the live layouts are
exactly the runs of pages in use in the module window. It is kept by every exit of `load`, since the
error exit gives back whatever regions the new layout has by then (`Loading`, `abort_spec`).
-/

namespace Ospp

namespace Linker

open Trans

/-! ## Statements -/

inductive Act where
  | load (o : Option Object)
  | unload (i : ℕ)

/-- Loads, and unloads of live layouts. -/
def Step (tab : List KexpEntry) (s : Linker) (a : Act) (s' : Linker) : Prop :=
  match a with
  | .load o => ∃ r, (s.load tab o).result = .ok (s', r)
  | .unload i => (∃ L, s.layouts.ptr i = some L) ∧ s.unloadLocked i = .ok s'

/-- A linker that has just been constructed, over memory in any state: what else is in use (the
heap, say) has its pages outside the module window, and frame `0` is reserved. -/
def Init (s : Linker) : Prop :=
  ∃ mm res ext own, s = ⟨⟨.empty, mm⟩, .empty⟩ ∧ Mm.Owned mm res ext own ∧ res 0 ∧
    ∀ v, own v → ¬ Window v

/-! ## During a load -/

section

variable {res ext own : ℕ → Prop} {tab : List KexpEntry} {s s' : Linker} {m m' : ModuleSpace}
  {L L' : Layout}

/-- The new layout `L` and the live ones are in use, and nothing else has changed since `s`. -/
structure Loading (res ext own : ℕ → Prop) (s : Linker) (m : ModuleSpace) (L : Layout) : Prop where
  space : m.Inv res ext own (L.runs ++ runs s.layouts)
  ok : L.Ok
  changes : ChangesOnly s.space m L.runs

theorem loading_start (h : s.space.Inv res ext own (runs s.layouts)) (hp : Planned L) :
    Loading res ext own s s.space L := by
  have hruns : L.runs = [] := by
    unfold Layout.runs
    rw [Layout.runs_of_base (show L.rw.base = 0 from hp.base .rw),
      Layout.runs_of_base (show L.rx.base = 0 from hp.base .rx), List.append_nil]
  refine ⟨?_, ⟨Or.inl (hp.base .rw), Or.inl (hp.base .rx)⟩, .refl _ _⟩
  rw [hruns]
  exact h

/-- The other region. -/
def Which.other : Which → Which
  | .rx => .rw
  | .rw => .rx

theorem Which.other_ne (wh : Which) : wh.other ≠ wh := by cases wh <;> decide

theorem Layout.Ok.region (h : L.Ok) (wh : Which) : (L.region wh).Ok := by
  cases wh
  · exact h.2
  · exact h.1

/-- A region that gets a base brings its pages. -/
theorem Layout.runs_withBase (L : Layout) {wh : Which} (hbase : (L.region wh).base = 0) (base : ℕ) :
    (L.withBase wh base).runs.Perm (((L.withBase wh base).region wh).runs ++ L.runs) := by
  have hother : (L.withBase wh base).region wh.other = L.region wh.other :=
    Layout.region_setRegion_ne _ _ wh.other_ne
  have hold := L.runs_perm_region wh.other_ne
  rw [Layout.runs_of_base hbase, List.nil_append] at hold
  have hnew := (L.withBase wh base).runs_perm_region wh.other_ne
  rw [hother] at hnew
  exact hnew.trans (hold.symm.append_left _)

/-- The pages of one more region come into use. -/
theorem Loading.extend (h : Loading res ext own s m L) {wh : Which} {base : ℕ}
    (hbase : (L.region wh).base = 0) (hok : ((L.withBase wh base).region wh).Ok)
    (hinv : m'.Inv res ext own
      (((L.withBase wh base).region wh).runs ++ (L.runs ++ runs s.layouts)))
    (hch : ChangesOnly m m' ((L.withBase wh base).region wh).runs) :
    Loading res ext own s m' (L.withBase wh base) := by
  have hother : (L.withBase wh base).region wh.other = L.region wh.other :=
    Layout.region_setRegion_ne _ _ wh.other_ne
  have hnew := (L.runs_withBase hbase base).symm
  refine ⟨?_, ?_, ?_⟩
  · rw [← List.append_assoc] at hinv
    exact hinv.perm (hnew.append_right _)
  · have ho := h.ok.region wh.other
    rw [← hother] at ho
    cases wh
    · exact ⟨ho, hok⟩
    · exact ⟨hok, ho⟩
  · refine (h.changes.trans hch).mono fun r hr => hnew.subset ?_
    rcases List.mem_append.1 hr with hr | hr
    · exact List.mem_append_right _ hr
    · exact List.mem_append_left _ hr

theorem Loading.mapRegion (h : Loading res ext own s m L) {wh : Which} {base : Option ℕ}
    (hsize : (L.region wh).size % 4096 = 0) (hbase : (L.region wh).base = 0)
    (h0 : (L.region wh).size ≠ 0)
    (hmap : m.mapRegion ((L.region wh).size / pageSize) = .ok (m', base)) :
    ∃ b, base = some b ∧ b ≠ 0 ∧ Loading res ext own s m' (L.withBase wh b) := by
  obtain ⟨b, hb, hb0, hok, hinv, hch, _⟩ := mapRegion_spec h.space hsize h0 hmap
  exact ⟨b, hb, hb0, h.extend hbase hok hinv hch⟩

theorem Loading.stage1 (h : Loading res ext own s m L) {wh : Which} {ok : Bool}
    (hsize : (L.region wh).size % 4096 = 0) (hbase : (L.region wh).base = 0)
    (hr : (stage1 m L wh).result = .ok (m', L', ok)) : Loading res ext own s m' L' := by
  obtain ⟨base, rfl, hok, hinv, hch, _⟩ := stage1_spec h.space hsize hbase hr
  exact h.extend hbase hok hinv hch

theorem Loading.of_same (h : Loading res ext own s m L) (hlmm : m'.lmm = m.lmm)
    (hs : Mm.SameTables m.mm m'.mm) : Loading res ext own s m' L := by
  have hinv := h.space.of_same hs
  rw [← hlmm] at hinv
  exact ⟨hinv, h.ok, (h.changes.trans (.of_same hs [])).mono (by simp)⟩

theorem Loading.low (h : Loading res ext own s m L) {v : ℕ} (hv : In L.runs v) : v / 1024 < 1023 := by
  obtain ⟨r, hr, hin⟩ := hv
  have hfit := (h.space.fits r (List.mem_append_left _ hr)).2
  unfold PageRun.Has modulePage at hin
  unfold moduleSpacePageCount at hfit
  omega

/-- A region that is mapped lies in the window. -/
theorem Loading.window (h : Loading res ext own s m L) {wh : Which}
    (hb : (L.region wh).base ≠ 0) (hs : (L.region wh).size ≠ 0) :
    0xA000000 ≤ (L.region wh).base ∧ (L.region wh).base + (L.region wh).size ≤ 0xA080000 := by
  have hinv := h.space.perm ((L.runs_perm_region wh.other_ne).append_right _)
  rw [List.append_assoc] at hinv
  exact region_window hinv (h.ok.region wh) hb hs

/-- A section of a mapped region that passes the checks. -/
theorem Loading.fits (h : Loading res ext own s m L) {wh : Which} {sec : Section}
    (hb : (L.region wh).base ≠ 0) (hs : (L.region wh).size ≠ 0)
    (hc : copyable L wh sec = true) : Fits L wh sec := by
  obtain ⟨hlo, hhi⟩ := h.window hb hs
  unfold copyable at hc
  rw [Bool.and_eq_true] at hc
  exact ⟨hlo, hhi, (validate_iff (by omega)).1 hc.1⟩

/-- **The error exit.** Whatever the new layout has in use is given back. -/
theorem abort_spec {o : Object} {layouts : StaticArray Layout 64} {i : ℕ} {r : Option ℕ}
    (h : Loading res ext own s m L) (hi : s.layouts.emplace (Layout.new o) = .ok (layouts, i))
    (ha : abort m layouts i L = .ok (s', r)) :
    r = none ∧ (∀ j, s'.layouts.ptr j = s.layouts.ptr j) ∧
      s'.space.Inv res ext own (runs s.layouts) ∧ ChangesOnly s.space s'.space L.runs ∧
      ∀ v, In L.runs v → s'.space.mm.mapped v = none := by
  obtain ⟨hlt, hnone, hsome, hrest, _⟩ := StaticArray.emplace_eq_ok hi
  have hptr : ∀ j, (layouts.modify i fun _ => L).ptr j = if j = i then some L else s.layouts.ptr j := by
    intro j
    rw [StaticArray.ptr_modify]
    split_ifs with hj
    · rw [hj, hsome]; rfl
    · exact hrest j hj
  unfold abort unloadLocked at ha
  dsimp only at ha
  rw [hptr, if_pos rfl] at ha
  simp only [K.bind_eq_ok] at ha
  obtain ⟨s₁, ⟨m₁, hu, hs₁⟩, ha⟩ := ha
  cases hs₁
  cases ha
  obtain ⟨hinv, hch, hgone⟩ := unloadRegions_spec h.space h.ok hu
  refine ⟨rfl, fun j => ?_, hinv, (h.changes.trans hch).mono (by simp), hgone⟩
  rw [StaticArray.ptr_erase, hptr]
  split_ifs with hj
  · rw [hj, hnone]
  · rfl

/-! ## The outcome of a load -/

/-- The sections of the map fit once both regions have been filled. -/
theorem mapFits_of_stages {L₀ L₁ L₂ : Layout} {m₁ m₂ : ModuleSpace} (hp : Planned L₀)
    (hsize : ∀ wh, (L₀.region wh).size % 4096 = 0) (h : Loading res ext own s m L₀)
    (h₁ : (stage1 m L₀ .rx).result = .ok (m₁, L₁, true))
    (h₂ : (stage1 m₁ L₁ .rw).result = .ok (m₂, L₂, true)) :
    Loading res ext own s m₂ L₂ ∧ MapFits L₂ := by
  obtain ⟨b₁, hset₁, _, _, _, hz₁, hc₁⟩ := stage1_spec h.space (hsize .rx) (hp.base .rx) h₁
  have hl₁ := h.stage1 (hsize .rx) (hp.base .rx) h₁
  have hrw : L₁.region .rw = L₀.region .rw := by
    rw [hset₁]; exact Layout.region_setRegion_ne _ _ (by decide)
  have hsz₁ : (L₁.region .rw).size % 4096 = 0 := by rw [hrw]; exact hsize .rw
  have hb₁ : (L₁.region .rw).base = 0 := by rw [hrw]; exact hp.base .rw
  obtain ⟨b₂, hset₂, _, _, _, hz₂, hc₂⟩ := stage1_spec hl₁.space hsz₁ hb₁ h₂
  have hl₂ := hl₁.stage1 hsz₁ hb₁ h₂
  have hrx : L₂.region .rx = L₁.region .rx := by
    rw [hset₂]; exact Layout.region_setRegion_ne _ _ (by decide)
  have hmap : L₂.map = L₀.map := by
    rw [hset₂, hset₁]; unfold Layout.withBase; rw [Layout.map_setRegion, Layout.map_setRegion]
  have hobj : L₂.obj = L₁.obj := by rw [hset₂]; exact Layout.obj_setRegion _ _ _
  refine ⟨hl₂, fun j wh sec hm hb => ?_⟩
  rw [hmap] at hm
  have hmem := hp.map j wh sec hm
  -- the region is not empty and the section has passed the checks
  have hgood : (L₂.region wh).size ≠ 0 ∧ copyable L₂ wh sec = true := by
    cases wh with
    | rx =>
      have hreg : L₂.region .rx = { L₀.region .rx with base := b₁ } := by
        rw [hrx, hset₁]; exact Layout.region_setRegion _ _ _
      rw [hreg] at hb ⊢
      refine ⟨hz₁ hb, ?_⟩
      have := hc₁ rfl hb sec hmem
      unfold copyable at this ⊢
      rw [hrx, hobj]
      exact this
    | rw =>
      have hreg : L₂.region .rw = { L₁.region .rw with base := b₂ } := by
        rw [hset₂]; exact Layout.region_setRegion _ _ _
      rw [hreg] at hb ⊢
      rw [← hrw] at hmem
      exact ⟨hz₂ hb, hc₂ rfl hb sec hmem⟩
  exact hl₂.fits hb hgood.1 hgood.2

/-- The pages of the new layout are pages of the window that no live layout has. -/
theorem Loading.fresh (h : Loading res ext own s m L) {v : ℕ} (hv : In L.runs v) :
    ¬ In (runs s.layouts) v ∧ Window v := by
  obtain ⟨r, hr, hin⟩ := hv
  constructor
  · rintro ⟨r', hr', hin'⟩
    have := (List.pairwise_append.1 h.space.disjoint).2.2 r hr r' hr'
    unfold PageRun.Has at hin hin'
    unfold PageRun.Apart at this
    omega
  · have := h.space.fits r (List.mem_append_left _ hr)
    unfold PageRun.Has at hin
    unfold Window
    omega

/-- The state after a load that has failed: up to page tables, and mappings of pages that no layout
has, it is the state before. -/
structure Failed (res ext own : ℕ → Prop) (s s' : Linker) : Prop where
  slots : ∀ j, s'.layouts.ptr j = s.layouts.ptr j
  space : s'.space.Inv res ext own (runs s.layouts)
  tables : Mm.KeepsTables s.space.mm s'.space.mm
  mapped : ∀ v, v / 1024 < 1023 → s'.space.mm.mapped v = s.space.mm.mapped v ∨
    (s'.space.mm.mapped v = none ∧ ¬ In (runs s.layouts) v ∧ Window v)

theorem failed_of_abort {o : Object} {layouts : StaticArray Layout 64} {i : ℕ} {r : Option ℕ}
    (h : Loading res ext own s m L) (hi : s.layouts.emplace (Layout.new o) = .ok (layouts, i))
    (ha : abort m layouts i L = .ok (s', r)) : r = none ∧ Failed res ext own s s' := by
  obtain ⟨hr, hslots, hinv, hch, hgone⟩ := abort_spec h hi ha
  refine ⟨hr, hslots, hinv, hch.tables, fun v hv => ?_⟩
  by_cases hin : In L.runs v
  · exact Or.inr ⟨hgone v hin, h.fresh hin⟩
  · exact Or.inl (hch.mapped v hv hin)

/-- **`load`.** It fails, or the new layout is in a slot that was free. -/
theorem load_spec (h : s.space.Inv res ext own (runs s.layouts)) {o : Option Object} {r : Option ℕ}
    (hr : (s.load tab o).result = .ok (s', r)) :
    (r = none ∧ Failed res ext own s s') ∨
    ∃ i L, r = some i ∧ i < 64 ∧ s.layouts.ptr i = none ∧ s'.layouts.ptr i = some L ∧
      (∀ j, j ≠ i → s'.layouts.ptr j = s.layouts.ptr j) ∧ Loading res ext own s s'.space L := by
  cases o with
  | none =>
    cases hr
    exact Or.inl ⟨rfl, fun _ => rfl, h, .refl _, fun _ _ => Or.inl rfl⟩
  | some o =>
    rw [load, Traced.result_bind, Traced.result_lift] at hr
    obtain ⟨⟨layouts, i⟩, hi, hr⟩ := hr
    dsimp only at hr
    obtain ⟨⟨L₀, ok₀⟩, hs₀⟩ : ∃ p, stage0 (Layout.new o) = p := ⟨_, rfl⟩
    rw [hs₀] at hr
    dsimp only at hr
    obtain ⟨hp, _, hsize⟩ := stage0_spec o hs₀
    have hl₀ := loading_start h hp
    cases ok₀ with
    | false => exact Or.inl (failed_of_abort hl₀ hi hr)
    | true =>
      rw [Bool.not_true, if_neg Bool.false_ne_true, Traced.result_bind] at hr
      obtain ⟨⟨m₁, L₁, ok₁⟩, h₁, hr⟩ := hr
      dsimp only at hr
      have hl₁ := hl₀.stage1 (hsize rfl .rx) (hp.base .rx) h₁
      cases ok₁ with
      | false => exact Or.inl (failed_of_abort hl₁ hi hr)
      | true =>
        rw [Bool.not_true, if_neg Bool.false_ne_true, Traced.result_bind] at hr
        obtain ⟨⟨m₂, L₂, ok₂⟩, h₂, hr⟩ := hr
        dsimp only at hr
        obtain ⟨b₁, hset₁, _⟩ := stage1_spec hl₀.space (hsize rfl .rx) (hp.base .rx) h₁
        have hrw : L₁.region .rw = L₀.region .rw := by
          rw [hset₁]; exact Layout.region_setRegion_ne _ _ (by decide)
        have hl₂ := hl₁.stage1 (by rw [hrw]; exact hsize rfl .rw) (by rw [hrw]; exact hp.base .rw) h₂
        cases ok₂ with
        | false => exact Or.inl (failed_of_abort hl₂ hi hr)
        | true =>
          rw [Bool.not_true, if_neg Bool.false_ne_true, Traced.result_bind] at hr
          obtain ⟨⟨m₃, ok₃⟩, h₃, hr⟩ := hr
          dsimp only at hr
          obtain ⟨_, hfits⟩ := mapFits_of_stages hp (hsize rfl) hl₀ h₁ h₂
          obtain ⟨hlmm, hsame⟩ := relocateSections_spec hfits hl₂.space h₃
          have hl₃ := hl₂.of_same hlmm hsame
          cases ok₃ with
          | false => exact Or.inl (failed_of_abort hl₃ hi hr)
          | true =>
            cases hr
            obtain ⟨hlt, hnone, hsome, hrest, _⟩ := StaticArray.emplace_eq_ok hi
            refine Or.inr ⟨i, L₂, rfl, hlt, hnone, ?_, fun j hj => ?_, hl₃⟩
            · show (layouts.modify i fun _ => L₂).ptr i = some L₂
              rw [StaticArray.ptr_modify, if_pos rfl, hsome]
              rfl
            · show (layouts.modify i fun _ => L₂).ptr j = s.layouts.ptr j
              rw [StaticArray.ptr_modify, if_neg hj]
              exact hrest j hj

/-! ## Runs -/

variable {s₀ : Linker}

/-- The state `s` of a run from `s₀`. -/
structure Inv (res ext own : ℕ → Prop) (s₀ s : Linker) : Prop where
  space : s.space.Inv res ext own (runs s.layouts)
  ok : ∀ i L, s.layouts.ptr i = some L → L.Ok
  tables : Mm.KeepsTables s₀.space.mm s.space.mm
  kept : ∀ v, v / 1024 < 1023 → ¬ Window v → s.space.mm.mapped v = s₀.space.mm.mapped v
  pages : ∀ v, Window v → ¬ In (runs s.layouts) v →
    s.space.mm.mapped v = none ∨ s.space.mm.mapped v = s₀.space.mm.mapped v

theorem Window.low {v : ℕ} (h : Window v) : v / 1024 < 1023 := by
  unfold Window modulePage moduleSpacePageCount at h
  omega

theorem inv_init (h : Init s₀) : ∃ res ext own, s₀.space.Inv res ext own [] ∧
    Inv res ext own s₀ s₀ := by
  obtain ⟨mm, res, ext, own, rfl, ho, hzero, hout⟩ := h
  have hinv : ModuleSpace.Inv ⟨.empty, mm⟩ res ext own [] := ModuleSpace.inv_empty ho hzero hout
  have hempty : ∀ i, (StaticArray.empty : StaticArray Layout 64).ptr i = none := by
    intro i
    unfold StaticArray.ptr StaticArray.empty
    split_ifs <;> rfl
  have hruns : runs (.empty : StaticArray Layout 64) = [] := by
    unfold runs
    rw [List.flatMap_eq_nil_iff]
    intro i _
    unfold slotRuns
    rw [hempty i]
  refine ⟨res, ext, own, hinv, ?_, fun i L hL => ?_, .refl _, fun _ _ _ => rfl,
    fun _ _ _ => Or.inr rfl⟩
  · show ModuleSpace.Inv ⟨.empty, mm⟩ res ext own (runs .empty)
    rw [hruns]
    exact hinv
  · rw [hempty i] at hL
    cases hL

/-- A load that fails. -/
theorem Inv.failed (h : Inv res ext own s₀ s) (hf : Failed res ext own s s') :
    Inv res ext own s₀ s' := by
  have hruns := runs_congr hf.slots
  refine ⟨by rw [hruns]; exact hf.space, fun i L hL => h.ok i L (by rw [← hf.slots i, hL]),
    h.tables.trans hf.tables, fun v hv hw => ?_, fun v hw hn => ?_⟩
  · rcases hf.mapped v hv with h1 | ⟨_, _, h3⟩
    · rw [h1, h.kept v hv hw]
    · exact absurd h3 hw
  · rw [hruns] at hn
    rcases hf.mapped v hw.low with h1 | ⟨h1, _⟩
    · rw [h1]; exact h.pages v hw hn
    · exact Or.inl h1

/-- A load that succeeds. -/
theorem Inv.loaded (h : Inv res ext own s₀ s) {i : ℕ} (hi : i < 64)
    (hnone : s.layouts.ptr i = none) (hsome : s'.layouts.ptr i = some L)
    (hrest : ∀ j, j ≠ i → s'.layouts.ptr j = s.layouts.ptr j)
    (hl : Loading res ext own s s'.space L) : Inv res ext own s₀ s' := by
  have hperm := runs_fill hi hnone hsome hrest
  refine ⟨hl.space.perm hperm.symm, fun j L' hL' => ?_, h.tables.trans hl.changes.tables,
    fun v hv hw => ?_, fun v hw hn => ?_⟩
  · by_cases hj : j = i
    · rw [hj, hsome] at hL'
      cases hL'
      exact hl.ok
    · exact h.ok j L' (by rw [← hrest j hj, hL'])
  · rw [hl.changes.mapped v hv fun hin => hw (hl.fresh hin).2, h.kept v hv hw]
  · have hn1 : ¬ In L.runs v := fun ⟨r, hr, hin⟩ =>
      hn ⟨r, hperm.symm.subset (List.mem_append_left _ hr), hin⟩
    have hn2 : ¬ In (runs s.layouts) v := fun ⟨r, hr, hin⟩ =>
      hn ⟨r, hperm.symm.subset (List.mem_append_right _ hr), hin⟩
    rw [hl.changes.mapped v hw.low hn1]
    exact h.pages v hw hn2

theorem Inv.load (h : Inv res ext own s₀ s) {o : Option Object} {r : Option ℕ}
    (hr : (s.load tab o).result = .ok (s', r)) : Inv res ext own s₀ s' := by
  rcases load_spec h.space hr with ⟨_, hf⟩ | ⟨i, L, _, hi, hnone, hsome, hrest, hl⟩
  · exact h.failed hf
  · exact h.loaded hi hnone hsome hrest hl

/-- **`unload`** of a live layout: its slot, its units and its pages are free afterwards. -/
theorem Inv.unload (h : Inv res ext own s₀ s) {i : ℕ} (hL : s.layouts.ptr i = some L)
    (hu : s.unloadLocked i = .ok s') :
    Inv res ext own s₀ s' ∧ s'.layouts.ptr i = none ∧
      (∀ j, j ≠ i → s'.layouts.ptr j = s.layouts.ptr j) ∧
      (∀ k < moduleSpacePageCount, InUnits L.runs k → s'.space.lmm.testBit k = false) ∧
      ∀ v, In L.runs v → s'.space.mm.mapped v = none := by
  unfold unloadLocked at hu
  rw [hL] at hu
  dsimp only at hu
  rw [K.bind_eq_ok] at hu
  obtain ⟨m, hm, hu⟩ := hu
  cases hu
  have hptr : ∀ j, (s.layouts.erase i).ptr j = if j = i then none else s.layouts.ptr j :=
    StaticArray.ptr_erase s.layouts i
  have hrest : ∀ j, j ≠ i → (s.layouts.erase i).ptr j = s.layouts.ptr j := by
    intro j hj; rw [hptr, if_neg hj]
  have hgone : (s.layouts.erase i).ptr i = none := by rw [hptr, if_pos rfl]
  have hperm : (runs s.layouts).Perm (L.runs ++ runs (s.layouts.erase i)) :=
    runs_fill (StaticArray.ptr_lt hL) hgone hL fun j hj => (hrest j hj).symm
  have hsp := h.space.perm hperm
  obtain ⟨hinv, hch, hnone⟩ := unloadRegions_spec hsp (h.ok i L hL) hm
  have hapart := (List.pairwise_append.1 hsp.disjoint).2.2
  have hwin : ∀ v, In L.runs v → Window v := by
    rintro v ⟨r, hr, hin⟩
    have := hsp.fits r (List.mem_append_left _ hr)
    unfold PageRun.Has at hin
    unfold Window
    omega
  refine ⟨⟨hinv, fun j L' hL' => ?_, h.tables.trans hch.tables, fun v hv hw => ?_,
    fun v hw hn => ?_⟩, hgone, hrest, fun k hk hin => ?_, hnone⟩
  · by_cases hj : j = i
    · rw [hj] at hL'
      exact absurd (hgone.symm.trans hL') (by simp)
    · exact h.ok j L' (by rw [← hrest j hj]; exact hL')
  · show m.mm.mapped v = _
    rw [hch.mapped v hv fun hin => hw (hwin v hin), h.kept v hv hw]
  · by_cases hin : In L.runs v
    · exact Or.inl (hnone v hin)
    · have hn' : ¬ In (runs s.layouts) v := by
        rintro ⟨r, hr, hv⟩
        rcases List.mem_append.1 (hperm.subset hr) with hr | hr
        · exact hin ⟨r, hr, hv⟩
        · exact hn ⟨r, hr, hv⟩
      show m.mm.mapped v = none ∨ m.mm.mapped v = _
      rw [hch.mapped v hw.low hin]
      exact h.pages v hw hn'
  · by_contra hbit
    rw [Bool.not_eq_false, hinv.bits k hk] at hbit
    obtain ⟨r', hr', h'⟩ := hbit
    obtain ⟨r, hr, h''⟩ := hin
    have := hapart r hr r' hr'
    unfold PageRun.Apart at this
    omega

theorem inv_step {a : Act} (h : Inv res ext own s₀ s) (hs : Step tab s a s') :
    Inv res ext own s₀ s' := by
  cases a with
  | load o => obtain ⟨r, hr⟩ := hs; exact h.load hr
  | unload i => obtain ⟨⟨L, hL⟩, hu⟩ := hs; exact (h.unload hL hu).1

theorem inv_run {as : List Act} (h : Inv res ext own s₀ s) (hrun : Run (Step tab) s as s') :
    Inv res ext own s₀ s' :=
  Run.invariant (I := Inv res ext own s₀) (C := fun _ _ => True)
    (fun _ _ _ hI _ hs => inv_step hI hs) hrun (along_true _ _) h

end

/-! ## A small object -/

/-- Memory given by some of its aligned words. -/
def sampleImage (ws : List (ℕ × ℕ)) : Mem := fun a =>
  Mem.byteOf ((ws.lookup (a / 4 * 4)).getD 0) (a % 4)

/-- The words of a section header at an address. -/
def headerWords (p : ℕ) (h : SectionHeader) : List (ℕ × ℕ) :=
  [(p + 4, h.type), (p + 8, h.flags), (p + 16, h.offset), (p + 20, h.size), (p + 28, h.info),
    (p + 32, h.addralign)]

/-- An object with two sections of code, of 6 and of 8 bytes, and one entry, at the given offset in
the second, for a symbol with the value `0x41414141`. -/
def sampleObject (offset : ℕ) : Object where
  image := sampleImage
    (headerWords 0x500428 ⟨shtProgbits, 6, 0x100, 6, 0, 1⟩ ++
      headerWords 0x500450 ⟨shtProgbits, 6, 0x110, 8, 0, 8⟩ ++
      headerWords 0x500478 ⟨shtRel, 0, 0x200, 8, 2, 4⟩ ++
      headerWords 0x5004A0 ⟨2, 0, 0x300, 16, 0, 4⟩ ++
      [(0x500200, offset), (0x500204, r386_32), (0x500304, 0x41414141), (0x50030C, 0xFFF10000)])
  hdr := 0x500000
  shoff := 0x400
  secHdrsNum := 5
  symtab := 0x5004A0
  strtab := 0

/-- The first 768 frames are in use. -/
def samplePmm : Pmm := ⟨⟨fun w => if w < 24 then 0xFFFFFFFF else 0, 0⟩, 0, 0⟩

theorem init_sample {mm : Mm} (h : Mm.init samplePmm (fun _ _ => 0) = .ok mm) :
    Init ⟨⟨.empty, mm⟩, .empty⟩ :=
  ⟨mm, _, _, _, rfl, Mm.owned_init h, by decide, fun _ hf => hf.elim⟩

/-- A load that succeeds, into the first slot of a linker that has just been constructed. -/
theorem exists_loaded (tab : List KexpEntry) (o : Option Object) {p : Layout → Bool}
    (h : ((do
      let mm ← Mm.init samplePmm (fun _ _ => 0)
      (load tab ⟨⟨.empty, mm⟩, .empty⟩ o).result).holds
        fun r => r.2 == some 0 && (r.1.layouts.ptr 0).any p) = true) :
    ∃ s₀ s₁ L, Init s₀ ∧ (s₀.load tab o).result = .ok (s₁, some 0) ∧
      s₁.layouts.ptr 0 = some L ∧ p L = true := by
  obtain ⟨⟨s₁, r⟩, hw, hp⟩ := K.exists_of_holds h
  rw [K.bind_eq_ok] at hw
  obtain ⟨mm, hmm, hl⟩ := hw
  simp only [Bool.and_eq_true, beq_iff_eq] at hp
  obtain ⟨hr, hL⟩ := hp
  cases hr
  obtain ⟨L, hptr, hpL⟩ := (Option.any_eq_true _ _).1 hL
  exact ⟨_, s₁, L, init_sample hmm, hl, hptr, hpL⟩

end Linker

end Ospp
