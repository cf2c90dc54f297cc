import Ospp.Klib.StaticArrayRuns
import Ospp.Mm.HeapRuns
import Ospp.Mm.Translation
import Ospp.Sys.LiveStages

/-!
# Loads, unloads and the heap

The invariant of the linker over runs of `load`, `unload` and other calls of the heap: the regions
of the live layouts are the pages in use in the module window, the heap has the pages up to its end,
and every frame in use belongs to one of them, is a page table, or was in use before.

`load_leaves_nothing` is the consequence for a load that fails, or whose layout is unloaded later:
nothing of it is left but page tables and pages of the heap. The heap may keep pages that it took
for a load: a chunk of a later load can lie behind those of an earlier one.
-/

namespace Ospp

namespace LiveLinker

open Linker Trans

/-! ## Statements -/

inductive Act where
  | load (o : Option Object) (calls : LoadCalls)
  | unload (i : ℕ) (release : List HeapEffect)
  /-- The heap is called by other code. -/
  | heap (as : List HeapEffect)

/-- Loads, unloads of live layouts, and other calls of the heap. -/
def Step (tab : List KexpEntry) (s : LiveLinker) (a : Act) (s' : LiveLinker) : Prop :=
  match a with
  | .load o calls => ∃ r, (load tab calls s o).result = .ok (s', r)
  | .unload i release =>
    (∃ L, s.linker.layouts.ptr i = some L) ∧ s.unloadLocked i release = .ok s'
  | .heap as =>
    ∃ m e, heapCall s.linker.space s.heapEnd as = .ok (m, e) ∧ s' = ⟨⟨m, s.linker.layouts⟩, e⟩

/-- A linker that has just been constructed, over memory in any state: the heap has its pages, what
else is in use has its pages outside the module window and the heap's, and frame `0` is reserved. -/
def Init (s : LiveLinker) : Prop :=
  ∃ mm e res ext own, s = ⟨⟨⟨.empty, mm⟩, .empty⟩, e⟩ ∧ Mm.Owned mm res ext (withHeap own e) ∧
    HeapEndOk e ∧ res 0 ∧ ∀ v, own v → ¬ Window v ∧ ¬ Mm.HeapWindow v

/-- The frame is behind a page of the heap. -/
def HeapFrame (s : LiveLinker) (k : ℕ) : Prop :=
  ∃ v, Mm.heapHas (some s.heapEnd) v ∧ s.linker.space.mm.mapped v = some k

/-- The state `s'` has what `s` has, and page tables; the heap may have other pages. A page that was
mapped for something else may have lost its mapping to the load. -/
structure Restored (s s' : LiveLinker) : Prop where
  slots : ∀ i, s'.linker.layouts.ptr i = s.linker.layouts.ptr i
  bitmap : ∀ k < moduleSpacePageCount,
    s'.linker.space.lmm.testBit k = s.linker.space.lmm.testBit k
  frames : ∀ k, s'.linker.space.mm.pmm.used k = true ↔
    (s.linker.space.mm.pmm.used k = true ∧ ¬ s.HeapFrame k) ∨
      (∃ j < 1023, s'.linker.space.mm.table j = some k) ∨ s'.HeapFrame k
  pages : ∀ v, Window v → s'.linker.space.mm.mapped v = s.linker.space.mm.mapped v ∨
    (s'.linker.space.mm.mapped v = none ∧ ¬ In (runs s.linker.layouts) v)

/-- Everything in `s` is accounted for: it was there at the beginning, belongs to a live layout or to
the heap, or is a page table. -/
structure Accounts (s₀ s : LiveLinker) : Prop where
  bitmap : ∀ k < moduleSpacePageCount,
    s.linker.space.lmm.testBit k = true ↔ InUnits (runs s.linker.layouts) k
  frames : ∀ k, s.linker.space.mm.pmm.used k = true ↔
    (s₀.linker.space.mm.pmm.used k = true ∧ ¬ s₀.HeapFrame k) ∨
      (∃ j < 1023, s.linker.space.mm.table j = some k) ∨ s.HeapFrame k ∨
      ∃ v, In (runs s.linker.layouts) v ∧ s.linker.space.mm.mapped v = some k
  pages : ∀ v, Window v → ¬ In (runs s.linker.layouts) v →
    s.linker.space.mm.mapped v = none ∨
      s.linker.space.mm.mapped v = s₀.linker.space.mm.mapped v

/-- The layout that was in slot `i` of `s₁` is gone from `s`. -/
structure Released (s₀ s₁ s : LiveLinker) (i : ℕ) : Prop where
  slot : s.linker.layouts.ptr i = none
  units : ∀ L, s₁.linker.layouts.ptr i = some L → ∀ k < moduleSpacePageCount,
    InUnits L.runs k → s.linker.space.lmm.testBit k = false
  pages : ∀ L, s₁.linker.layouts.ptr i = some L → ∀ v, In L.runs v →
    s.linker.space.mm.mapped v = none
  account : Accounts s₀ s

/-! ## The stages one after the other -/

section

variable {res ext own : ℕ → Prop} {tab : List KexpEntry} {s s' : LiveLinker} {l : Linker}
  {m m' : ModuleSpace} {e e' : ℕ} {L L' P : Layout} {b : Which → ℕ} {wh : Which}

/-- The region is mapped only if it has a size, and then all its sections have passed the checks. -/
def Filled (P : Layout) (b : Which → ℕ) (wh : Which) : Prop :=
  b wh ≠ 0 → (P.region wh).size ≠ 0 ∧ ∀ sec ∈ (P.region wh).sections, copyable P wh sec = true

theorem fits_of_copyable (hl : Loading res ext own l m (P.withBases b)) (hb : b wh ≠ 0)
    (h0 : (P.region wh).size ≠ 0) {sec : Section} (hc : copyable P wh sec = true) :
    Linker.Fits (P.withBases b) wh sec := by
  refine hl.fits ?_ ?_ (by rw [copyable_withBases]; exact hc)
  · rw [Layout.region_withBases]; exact hb
  · rw [Layout.region_withBases]; exact h0

/-- The sections of the map are in mapped regions. -/
theorem mapFits_of_filled (hp : Planned P) (hl : Loading res ext own l m (P.withBases b))
    (hf : ∀ wh, Filled P b wh) : MapFits (P.withBases b) := by
  intro j wh sec hm hb
  rw [Layout.region_withBases] at hb
  obtain ⟨h0, hc⟩ := hf wh hb
  exact fits_of_copyable hl hb h0 (hc sec (hp.map j wh sec hm))

/-- `stage1` in terms of the bases. -/
theorem stage1_bases (hl : Loading res ext own l m (P.withBases b)) (hb : b wh = 0)
    (hsize : (P.region wh).size % 4096 = 0) :
    (stage1 m (P.withBases b) wh).Ensures
      (fun ev => ∃ x m₁, Loading res ext own l m₁ (P.withBases (Function.update b wh x)) ∧
        x ≠ 0 ∧ (P.region wh).size ≠ 0 ∧ ∃ sec ∈ (P.region wh).sections,
          copyable P wh sec = true ∧
            ev = ⟨P.withBases (Function.update b wh x), wh, sec, .copy⟩)
      fun r => ∃ x, r.2.1 = P.withBases (Function.update b wh x) ∧
        Loading res ext own l r.1 (P.withBases (Function.update b wh x)) ∧
        (r.2.2 = true → Filled P (Function.update b wh x) wh) := by
  have hreg := P.region_withBases b wh
  have hsize' : ((P.withBases b).region wh).size % 4096 = 0 := by rw [hreg]; exact hsize
  have hst := stage1_ensures hl hsize' (by rw [hreg]; exact hb)
  rw [hreg, copyable_withBases] at hst
  simp only [withBase_withBases] at hst
  refine hst.mono (fun _ h => h) ?_
  rintro ⟨m', L', ok⟩ ⟨x, hL, hl', h0, hc⟩
  refine ⟨x, hL, hl', fun ht hx => ?_⟩
  rw [Function.update_self] at hx
  exact ⟨h0 hx, hc ht hx⟩

/-- The state of the new layout after `stage0`. -/
theorem loading_of_stage0 {rs : StaticArray Layout 64} {calls : LoadCalls} {o : Object} {ok : Bool}
    (h : m.Inv res ext (withHeap own e) (runs rs)) (he : HeapEndOk e)
    (hout : ∀ v, own v → ¬ Mm.HeapWindow v)
    (hr : stage0 calls m e (Layout.new o) = .ok (m', e', P, ok)) :
    Moved res ext own (runs rs) m m' e' ∧ Planned P ∧ P = P.withBases (fun _ => 0) ∧
      Loading res ext (withHeap own e') ⟨m', rs⟩ m' (P.withBases fun _ => 0) ∧
      (ok = true → ∀ wh, (P.region wh).size % 4096 = 0) := by
  obtain ⟨hmove, hp, _, hsize⟩ := stage0_spec h he hout hr
  refine ⟨hmove, hp, withBases_start hp, ?_, hsize⟩
  rw [← withBases_start hp]
  exact loading_start (s := ⟨m', rs⟩) hmove.space hp

/-! ## The error exit -/

/-- The state after a load that has failed: up to page tables, the pages of the heap, and mappings of
pages that no layout has, it is the state before. -/
structure Failed (res ext own : ℕ → Prop) (s s' : LiveLinker) : Prop where
  slots : ∀ j, s'.linker.layouts.ptr j = s.linker.layouts.ptr j
  space : s'.linker.space.Inv res ext (withHeap own s'.heapEnd) (runs s.linker.layouts)
  heap : HeapEndOk s'.heapEnd
  tables : Mm.KeepsTables s.linker.space.mm s'.linker.space.mm
  mapped : ∀ v, v / 1024 < 1023 → ¬ Mm.HeapWindow v →
    s'.linker.space.mm.mapped v = s.linker.space.mm.mapped v ∨
      (s'.linker.space.mm.mapped v = none ∧ ¬ In (runs s.linker.layouts) v ∧ Window v)

/-- A layout that is in the slot of the table is unloaded, and its objects are deleted. -/
theorem unloadLocked_spec {i : ℕ} {release : List HeapEffect} {rs : List PageRun}
    (h : s.linker.space.Inv res ext (withHeap own s.heapEnd) (L.runs ++ rs))
    (he : HeapEndOk s.heapEnd) (hout : ∀ v, own v → ¬ Mm.HeapWindow v) (hok : L.Ok)
    (hL : s.linker.layouts.ptr i = some L) (hu : s.unloadLocked i release = .ok s') :
    s'.linker.layouts = s.linker.layouts.erase i ∧
      s'.linker.space.Inv res ext (withHeap own s'.heapEnd) rs ∧ HeapEndOk s'.heapEnd ∧
      Mm.KeepsTables s.linker.space.mm s'.linker.space.mm ∧
      (∀ v, v / 1024 < 1023 → ¬ Mm.HeapWindow v → ¬ In L.runs v →
        s'.linker.space.mm.mapped v = s.linker.space.mm.mapped v) ∧
      ∀ v, In L.runs v → s'.linker.space.mm.mapped v = none := by
  unfold unloadLocked at hu
  rw [hL] at hu
  simp only [K.bind_eq_ok] at hu
  obtain ⟨m₁, h₁, ⟨m₂, e₂⟩, h₂, hu⟩ := hu
  cases hu
  obtain ⟨hinv, hch, hgone⟩ := unloadRegions_spec h hok h₁
  have hmove := heapCall_spec hinv he hout h₂
  refine ⟨rfl, hmove.space, hmove.heap, hch.tables.trans hmove.tables,
    fun v hv hw hn => (hmove.mapped v hv hw).trans (hch.mapped v hv hn), fun v hv => ?_⟩
  have hwin : Window v := by
    obtain ⟨r, hr, hin⟩ := hv
    exact window_of_has h ⟨r, List.mem_append_left _ hr, hin⟩
  exact (hmove.mapped v hwin.low (not_heapWindow hwin)).trans (hgone v hv)

theorem failed_of_abort {o : Object} {layouts : StaticArray Layout 64} {i : ℕ} {r : Option ℕ}
    {release : List HeapEffect} (hout : ∀ v, own v → ¬ Mm.HeapWindow v) {m₀ : ModuleSpace}
    (hmove : Moved res ext own (runs s.linker.layouts) s.linker.space m₀ e)
    (h : Loading res ext (withHeap own e) ⟨m₀, s.linker.layouts⟩ m L)
    (hi : s.linker.layouts.emplace (Layout.new o) = .ok (layouts, i))
    (ha : abort m e layouts i L release = .ok (s', r)) : r = none ∧ Failed res ext own s s' := by
  obtain ⟨_, hnone, hsome, hrest, _⟩ := StaticArray.emplace_eq_ok hi
  have hptr : ∀ j, (layouts.modify i fun _ => L).ptr j =
      if j = i then some L else s.linker.layouts.ptr j := by
    intro j
    rw [StaticArray.ptr_modify]
    split_ifs with hj
    · rw [hj, hsome]; rfl
    · exact hrest j hj
  unfold abort at ha
  rw [K.bind_eq_ok] at ha
  obtain ⟨s₁, hu, ha⟩ := ha
  cases ha
  obtain ⟨hlay, hinv, he', htab, hkeep, hgone⟩ :=
    unloadLocked_spec h.space hmove.heap hout h.ok (by rw [hptr, if_pos rfl]) hu
  refine ⟨rfl, fun j => ?_, hinv, he', (hmove.tables.trans h.changes.tables).trans htab,
    fun v hv hw => ?_⟩
  · rw [hlay, StaticArray.ptr_erase, hptr]
    split_ifs with hj
    · rw [hj, hnone]
    · rfl
  · by_cases hin : In L.runs v
    · exact Or.inr ⟨hgone v hin, h.fresh hin⟩
    · exact Or.inl (((hkeep v hv hw hin).trans (h.changes.mapped v hv hin)).trans
        (hmove.mapped v hv hw))

/-! ## The outcome of a load -/

/-- The new layout is in slot `i`, which was free. -/
structure Loaded (res ext own : ℕ → Prop) (s s' : LiveLinker) (i : ℕ) (L : Layout) : Prop where
  lt : i < 64
  none : s.linker.layouts.ptr i = none
  some : s'.linker.layouts.ptr i = some L
  rest : ∀ j, j ≠ i → s'.linker.layouts.ptr j = s.linker.layouts.ptr j
  space : s'.linker.space.Inv res ext (withHeap own s'.heapEnd) (L.runs ++ runs s.linker.layouts)
  heap : HeapEndOk s'.heapEnd
  ok : L.Ok
  fresh : ∀ v, In L.runs v → ¬ In (runs s.linker.layouts) v ∧ Window v
  tables : Mm.KeepsTables s.linker.space.mm s'.linker.space.mm
  mapped : ∀ v, v / 1024 < 1023 → ¬ Mm.HeapWindow v → ¬ In L.runs v →
    s'.linker.space.mm.mapped v = s.linker.space.mm.mapped v

/-- **`load`.** It fails, or the new layout is in a slot that was free. -/
theorem load_spec (h : s.linker.space.Inv res ext (withHeap own s.heapEnd) (runs s.linker.layouts))
    (he : HeapEndOk s.heapEnd) (hout : ∀ v, own v → ¬ Mm.HeapWindow v) {calls : LoadCalls}
    {o : Option Object} {r : Option ℕ} (hr : (load tab calls s o).result = .ok (s', r)) :
    (r = none ∧ Failed res ext own s s') ∨ ∃ i L, r = some i ∧ Loaded res ext own s s' i L := by
  cases o with
  | none =>
    cases hr
    exact Or.inl ⟨rfl, fun _ => rfl, h, he, .refl _, fun _ _ _ => Or.inl rfl⟩
  | some o =>
    rw [load, Traced.result_bind] at hr
    obtain ⟨⟨layouts, i⟩, hi, hr⟩ := hr
    rw [Traced.result_bind] at hr
    obtain ⟨⟨m₁, e₁, P, ok₀⟩, hs₀, hr⟩ := hr
    obtain ⟨hmove, hp, hP, hl₀, hsize⟩ := loading_of_stage0 h he hout hs₀
    dsimp only at hr
    rw [hP] at hr
    cases ok₀ with
    | false => exact Or.inl (failed_of_abort hout hmove hl₀ hi hr)
    | true =>
      rw [Bool.not_true, if_neg Bool.false_ne_true, Traced.result_bind] at hr
      obtain ⟨⟨m₂, L₁, ok₁⟩, h₁, hr⟩ := hr
      obtain ⟨x, rfl, hl₁, hf₁⟩ := (stage1_bases hl₀ rfl (hsize rfl .rx)).value _ h₁
      dsimp only at hr hf₁
      cases ok₁ with
      | false => exact Or.inl (failed_of_abort hout hmove hl₁ hi hr)
      | true =>
        rw [Bool.not_true, if_neg Bool.false_ne_true, Traced.result_bind] at hr
        obtain ⟨⟨m₃, L₂, ok₂⟩, h₂, hr⟩ := hr
        rw [update_rx] at h₂ hl₁ hf₁
        obtain ⟨y, rfl, hl₂, hf₂⟩ := (stage1_bases hl₁ rfl (hsize rfl .rw)).value _ h₂
        rw [update_rw] at hr hl₂ hf₂
        dsimp only at hr hf₂
        cases ok₂ with
        | false => exact Or.inl (failed_of_abort hout hmove hl₂ hi hr)
        | true =>
          rw [Bool.not_true, if_neg Bool.false_ne_true, Traced.result_bind] at hr
          obtain ⟨⟨m₄, ok₃⟩, h₃, hr⟩ := hr
          have hfits := mapFits_of_filled hp hl₂ fun wh => by
            cases wh
            · exact hf₁ rfl
            · exact hf₂ rfl
          obtain ⟨hlmm, hsame⟩ := (relocateSections_ensures hfits hl₂.space).value _ h₃
          have hl₃ := hl₂.of_same hlmm hsame
          dsimp only at hr
          cases ok₃ with
          | false => exact Or.inl (failed_of_abort hout hmove hl₃ hi hr)
          | true =>
            cases hr
            obtain ⟨hlt, hnone, hsome, hrest, _⟩ := StaticArray.emplace_eq_ok hi
            refine Or.inr ⟨i, _, rfl, hlt, hnone, ?_, fun j hj => ?_, hl₃.space, hmove.heap,
              hl₃.ok, fun v => hl₃.fresh, hmove.tables.trans hl₃.changes.tables,
              fun v hv hw hn => (hl₃.changes.mapped v hv hn).trans (hmove.mapped v hv hw)⟩
            · show (layouts.modify i fun _ => _).ptr i = _
              rw [StaticArray.ptr_modify, if_pos rfl, hsome]
              rfl
            · show (layouts.modify i fun _ => _).ptr j = _
              rw [StaticArray.ptr_modify, if_neg hj]
              exact hrest j hj

/-! ## Runs -/

variable {s₀ : LiveLinker}

/-- The state `s` of a run from `s₀`. -/
structure Inv (res ext own : ℕ → Prop) (s₀ s : LiveLinker) : Prop where
  space : s.linker.space.Inv res ext (withHeap own s.heapEnd) (runs s.linker.layouts)
  heap : HeapEndOk s.heapEnd
  ok : ∀ i L, s.linker.layouts.ptr i = some L → L.Ok
  tables : Mm.KeepsTables s₀.linker.space.mm s.linker.space.mm
  kept : ∀ v, v / 1024 < 1023 → ¬ Window v → ¬ Mm.HeapWindow v →
    s.linker.space.mm.mapped v = s₀.linker.space.mm.mapped v
  pages : ∀ v, Window v → ¬ In (runs s.linker.layouts) v →
    s.linker.space.mm.mapped v = none ∨ s.linker.space.mm.mapped v = s₀.linker.space.mm.mapped v

theorem inv_init (h : Init s₀) : ∃ res ext own, (∀ v, own v → ¬ Mm.HeapWindow v) ∧
    runs s₀.linker.layouts = [] ∧ Inv res ext own s₀ s₀ := by
  obtain ⟨mm, e, res, ext, own, rfl, ho, he, hzero, hout⟩ := h
  have hinv : ModuleSpace.Inv ⟨.empty, mm⟩ res ext (withHeap own e) [] := by
    refine ModuleSpace.inv_empty ho hzero fun v hv => ?_
    rcases hv with hv | hv
    · exact (hout v hv).1
    · rw [Mm.heapHas_some] at hv
      have := he.2.2
      unfold heapMaxAddr at this
      unfold modulePage
      omega
  have hruns : runs (.empty : StaticArray Layout 64) = [] := runs_of_slots StaticArray.ptr_empty
  refine ⟨res, ext, own, fun v hv => (hout v hv).2, hruns, ?_, he, fun i L hL => ?_, .refl _,
    fun _ _ _ _ => rfl, fun _ _ _ => Or.inr rfl⟩
  · show ModuleSpace.Inv ⟨.empty, mm⟩ res ext (withHeap own e) (runs .empty)
    rw [hruns]
    exact hinv
  · rw [show (StaticArray.empty : StaticArray Layout 64).ptr i = none from
      StaticArray.ptr_empty i] at hL
    cases hL

/-- A load that fails. -/
theorem Inv.failed (h : Inv res ext own s₀ s) (hf : Failed res ext own s s') :
    Inv res ext own s₀ s' := by
  have hruns := runs_congr hf.slots
  refine ⟨by rw [hruns]; exact hf.space, hf.heap,
    fun i L hL => h.ok i L (by rw [← hf.slots i, hL]), h.tables.trans hf.tables,
    fun v hv hw hh => ?_, fun v hw hn => ?_⟩
  · rcases hf.mapped v hv hh with h1 | ⟨_, _, h3⟩
    · rw [h1, h.kept v hv hw hh]
    · exact absurd h3 hw
  · rw [hruns] at hn
    rcases hf.mapped v hw.low (not_heapWindow hw) with h1 | ⟨h1, _⟩
    · rw [h1]; exact h.pages v hw hn
    · exact Or.inl h1

/-- A load that succeeds. -/
theorem Inv.loaded (h : Inv res ext own s₀ s) {i : ℕ} (hl : Loaded res ext own s s' i L) :
    Inv res ext own s₀ s' := by
  have hperm := runs_fill hl.lt hl.none hl.some hl.rest
  refine ⟨hl.space.perm hperm.symm, hl.heap, fun j L' hL' => ?_, h.tables.trans hl.tables,
    fun v hv hw hh => ?_, fun v hw hn => ?_⟩
  · by_cases hj : j = i
    · rw [hj, hl.some] at hL'
      cases hL'
      exact hl.ok
    · exact h.ok j L' (by rw [← hl.rest j hj, hL'])
  · rw [hl.mapped v hv hh fun hin => hw (hl.fresh v hin).2, h.kept v hv hw hh]
  · have hn1 : ¬ In L.runs v := fun ⟨r, hr, hin⟩ =>
      hn ⟨r, hperm.symm.subset (List.mem_append_left _ hr), hin⟩
    have hn2 : ¬ In (runs s.linker.layouts) v := fun ⟨r, hr, hin⟩ =>
      hn ⟨r, hperm.symm.subset (List.mem_append_right _ hr), hin⟩
    rw [hl.mapped v hw.low (not_heapWindow hw) hn1]
    exact h.pages v hw hn2

/-- **`unload`** of a live layout: its slot, its units and its pages are free afterwards. -/
theorem Inv.unload (h : Inv res ext own s₀ s) (hout : ∀ v, own v → ¬ Mm.HeapWindow v) {i : ℕ}
    {release : List HeapEffect} (hL : s.linker.layouts.ptr i = some L)
    (hu : s.unloadLocked i release = .ok s') :
    Inv res ext own s₀ s' ∧ s'.linker.layouts.ptr i = none ∧
      (∀ j, j ≠ i → s'.linker.layouts.ptr j = s.linker.layouts.ptr j) ∧
      (∀ k < moduleSpacePageCount, InUnits L.runs k →
        s'.linker.space.lmm.testBit k = false) ∧
      ∀ v, In L.runs v → s'.linker.space.mm.mapped v = none := by
  have hptr : ∀ j, (s.linker.layouts.erase i).ptr j =
      if j = i then none else s.linker.layouts.ptr j := StaticArray.ptr_erase s.linker.layouts i
  have hrest : ∀ j, j ≠ i → (s.linker.layouts.erase i).ptr j = s.linker.layouts.ptr j := by
    intro j hj; rw [hptr, if_neg hj]
  have hgone : (s.linker.layouts.erase i).ptr i = none := by rw [hptr, if_pos rfl]
  have hperm : (runs s.linker.layouts).Perm (L.runs ++ runs (s.linker.layouts.erase i)) :=
    runs_fill (StaticArray.ptr_lt hL) hgone hL fun j hj => (hrest j hj).symm
  have hsp := h.space.perm hperm
  obtain ⟨hlay, hinv, he', htab, hkeep, hnone⟩ :=
    unloadLocked_spec hsp h.heap hout (h.ok i L hL) hL hu
  have hapart := (List.pairwise_append.1 hsp.disjoint).2.2
  have hwin : ∀ v, In L.runs v → Window v := fun v ⟨r, hr, hin⟩ =>
    window_of_has hsp ⟨r, List.mem_append_left _ hr, hin⟩
  rw [hlay]
  refine ⟨⟨by rw [hlay]; exact hinv, he', fun j L' hL' => ?_, h.tables.trans htab,
    fun v hv hw hh => ?_, fun v hw hn => ?_⟩, hgone, hrest, fun k hk hin => ?_, hnone⟩
  · rw [hlay] at hL'
    by_cases hj : j = i
    · rw [hj, hgone] at hL'
      cases hL'
    · exact h.ok j L' (by rw [← hrest j hj]; exact hL')
  · rw [hkeep v hv hh fun hin => hw (hwin v hin), h.kept v hv hw hh]
  · by_cases hin : In L.runs v
    · exact Or.inl (hnone v hin)
    · rw [hlay] at hn
      have hn' : ¬ In (runs s.linker.layouts) v := by
        rintro ⟨r, hr, hv⟩
        rcases List.mem_append.1 (hperm.subset hr) with hr | hr
        · exact hin ⟨r, hr, hv⟩
        · exact hn ⟨r, hr, hv⟩
      rw [hkeep v hw.low (not_heapWindow hw) hin]
      exact h.pages v hw hn'
  · by_contra hbit
    rw [Bool.not_eq_false, hinv.bits k hk] at hbit
    obtain ⟨r', hr', h'⟩ := hbit
    obtain ⟨r, hr, h''⟩ := hin
    have := hapart r hr r' hr'
    unfold PageRun.Apart at this
    omega

/-- The heap's pages have moved. -/
theorem Inv.moved (h : Inv res ext own s₀ s)
    (hmove : Moved res ext own (runs s.linker.layouts) s.linker.space m e) :
    Inv res ext own s₀ ⟨⟨m, s.linker.layouts⟩, e⟩ := by
  refine ⟨hmove.space, hmove.heap, h.ok, h.tables.trans hmove.tables,
    fun v hv hw hh => (hmove.mapped v hv hh).trans (h.kept v hv hw hh), fun v hw hn => ?_⟩
  rw [show (⟨⟨m, s.linker.layouts⟩, e⟩ : LiveLinker).linker.space.mm.mapped v = _ from
    hmove.mapped v hw.low (not_heapWindow hw)]
  exact h.pages v hw hn

/-- The heap is called by other code. -/
theorem Inv.heapCall (h : Inv res ext own s₀ s) (hout : ∀ v, own v → ¬ Mm.HeapWindow v)
    {as : List HeapEffect} (hr : LiveLinker.heapCall s.linker.space s.heapEnd as = .ok (m, e)) :
    Inv res ext own s₀ ⟨⟨m, s.linker.layouts⟩, e⟩ :=
  h.moved (heapCall_spec h.space h.heap hout hr)

theorem Inv.load (h : Inv res ext own s₀ s) (hout : ∀ v, own v → ¬ Mm.HeapWindow v)
    {calls : LoadCalls} {o : Option Object} {r : Option ℕ}
    (hr : (load tab calls s o).result = .ok (s', r)) : Inv res ext own s₀ s' := by
  rcases load_spec h.space h.heap hout hr with ⟨_, hf⟩ | ⟨i, L, _, hl⟩
  · exact h.failed hf
  · exact h.loaded hl

theorem inv_step (hout : ∀ v, own v → ¬ Mm.HeapWindow v) {a : Act} (h : Inv res ext own s₀ s)
    (hs : Step tab s a s') : Inv res ext own s₀ s' := by
  cases a with
  | load o calls => obtain ⟨r, hr⟩ := hs; exact h.load hout hr
  | unload i release => obtain ⟨⟨L, hL⟩, hu⟩ := hs; exact (h.unload hout hL hu).1
  | heap as => obtain ⟨m, e, hr, rfl⟩ := hs; exact h.heapCall hout hr

theorem inv_run (hout : ∀ v, own v → ¬ Mm.HeapWindow v) {as : List Act}
    (h : Inv res ext own s₀ s) (hrun : Run (Step tab) s as s') : Inv res ext own s₀ s' :=
  Run.invariant (I := Inv res ext own s₀) (C := fun _ _ => True)
    (fun _ _ _ hI _ hs => inv_step hout hI hs) hrun (along_true _ _) h

/-- A layout stays in its slot until it is unloaded. -/
theorem ptr_run (hout : ∀ v, own v → ¬ Mm.HeapWindow v) {as : List Act} {i : ℕ}
    (hrun : Run (Step tab) s as s') : Inv res ext own s₀ s →
      s.linker.layouts.ptr i = some L → (∀ release, Act.unload i release ∉ as) →
        s'.linker.layouts.ptr i = some L := by
  induction hrun with
  | nil s => intro _ hL _; exact hL
  | @cons s s₁ s' a as hs _ ih =>
    intro h hL hnot
    refine ih (inv_step hout h hs) ?_ fun release hin =>
      hnot release (List.mem_cons_of_mem _ hin)
    cases a with
    | load o calls =>
      obtain ⟨r, hr⟩ := hs
      rcases load_spec h.space h.heap hout hr with ⟨_, hf⟩ | ⟨j, _, _, hl⟩
      · rw [hf.slots, hL]
      · rw [hl.rest i ?_, hL]
        rintro rfl
        rw [hl.none] at hL
        cases hL
    | unload j release =>
      obtain ⟨⟨L', hL'⟩, hu⟩ := hs
      rw [(h.unload hout hL' hu).2.2.1 i ?_, hL]
      rintro rfl
      exact hnot release List.mem_cons_self
    | heap as =>
      obtain ⟨m, e, _, rfl⟩ := hs
      exact hL

/-! ## What is left -/

/-- Pages of the module window are none of the heap's, and those of `own` are neither. -/
theorem own_not_heap {rs : List PageRun} (hout : ∀ v, own v → ¬ Mm.HeapWindow v)
    (hin : ∀ v, In rs v → Window v) (he : HeapEndOk e) {v : ℕ} (hv : own v ∨ In rs v) :
    ¬ Mm.heapHas (some e) v := by
  intro hh
  have hw := Mm.HeapWindow.of_has he hh
  rcases hv with hv | hv
  · exact hout v hv hw
  · exact not_heapWindow (hin v hv) hw

/-- The account of the linker's pages and the heap's. -/
theorem Inv.owned (h : Inv res ext own s₀ s) : Mm.Owned s.linker.space.mm res ext fun v =>
    (own v ∨ In (runs s.linker.layouts) v) ∨ Mm.heapHas (some s.heapEnd) v :=
  h.space.owned.congr (fun _ => Iff.rfl) fun _ => or_right_comm

/-- Where the linker has just been constructed, and where it has come to. -/
theorem Inv.accounts (h : Inv res ext own s₀ s) (hout : ∀ v, own v → ¬ Mm.HeapWindow v)
    (h₀ : Inv res ext own s₀ s₀) (hempty : runs s₀.linker.layouts = []) : Accounts s₀ s := by
  have hnil : ∀ v, ¬ In (runs s₀.linker.layouts) v := by
    rw [hempty]
    exact fun v ⟨r, hr, _⟩ => absurd hr List.not_mem_nil
  refine ⟨h.space.bits, fun k => ?_, h.pages⟩
  rw [h₀.owned.used_iff_moved h.owned h.tables
    (fun v hv => Or.inl (hv.resolve_right (hnil v)))
    (fun v => own_not_heap hout (fun v hv => window_of_has h₀.space hv) h₀.heap)
    (fun v hv => ?_) k]
  · refine or_congr_right (or_congr_right (or_congr_right ⟨?_, ?_⟩))
    · rintro ⟨v, hv, hn, hm⟩
      exact ⟨v, hv.resolve_left fun ho => hn (Or.inl ho), hm⟩
    · rintro ⟨v, hv, hm⟩
      refine ⟨v, Or.inr hv, ?_, hm⟩
      rintro (ho | hv')
      · exact h.space.outside v (Or.inl ho) (window_of_has h.space hv)
      · exact hnil v hv'
  · have ho := hv.resolve_right (hnil v)
    exact h.kept v (h₀.space.owned.own_high v (Or.inl (Or.inl ho))).2
      (h.space.outside v (Or.inl ho)) (hout v ho)

theorem Inv.restored (h : Inv res ext own s₀ s) (hout : ∀ v, own v → ¬ Mm.HeapWindow v)
    (hf : Failed res ext own s s') : Restored s s' := by
  have howned : Mm.Owned s'.linker.space.mm res ext fun v =>
      (own v ∨ In (runs s.linker.layouts) v) ∨ Mm.heapHas (some s'.heapEnd) v :=
    hf.space.owned.congr (fun _ => Iff.rfl) fun _ => or_right_comm
  have hwin : ∀ v, In (runs s.linker.layouts) v → Window v := fun v hv => window_of_has h.space hv
  refine ⟨hf.slots, fun k hk => ?_, fun k => ?_, fun v hw => ?_⟩
  · rw [Bool.eq_iff_iff, hf.space.bits k hk, h.space.bits k hk]
  · rw [h.owned.used_iff_moved howned hf.tables (fun _ hv => hv)
      (fun v => own_not_heap hout hwin h.heap) (fun v hv => ?_) k]
    · refine or_congr_right (or_congr_right ⟨fun hk => hk.resolve_right ?_, Or.inl⟩)
      rintro ⟨v, hv, hn, _⟩
      exact hn hv
    · have hnw : ¬ Mm.HeapWindow v := hv.elim (hout v) fun hv => not_heapWindow (hwin v hv)
      rcases hf.mapped v (h.owned.own_high v (Or.inl hv)).2 hnw with h1 | ⟨_, h2, h3⟩
      · exact h1
      · rcases hv with hv | hv
        · exact absurd h3 (h.space.outside v (Or.inl hv))
        · exact absurd hv h2
  · rcases hf.mapped v hw.low (not_heapWindow hw) with h1 | ⟨h1, h2, _⟩
    · exact Or.inl h1
    · exact Or.inr ⟨h1, h2⟩

end

/-- **Loads leave page tables and pages of the heap.** In every state the linker can reach: a load
that fails restores the rest of the state, and a load that succeeds is undone by the unload of its
layout, whatever other loads, unloads and calls of the heap there are in between. -/
theorem load_leaves_nothing (tab : List KexpEntry) (s₀ s : LiveLinker) (h₀ : Init s₀)
    (as : List Act) (hrun : Run (Step tab) s₀ as s) (o : Option Object) (calls : LoadCalls) :
    (∀ s', (load tab calls s o).result = .ok (s', none) → Restored s s') ∧
    ∀ s₁ i, (load tab calls s o).result = .ok (s₁, some i) →
      ∀ bs s₂, Run (Step tab) s₁ bs s₂ → (∀ release, Act.unload i release ∉ bs) →
        ∀ release s₃, s₂.unloadLocked i release = .ok s₃ → Released s₀ s₁ s₃ i := by
  obtain ⟨res, ext, own, hout, hempty, hI₀⟩ := inv_init h₀
  have hI := inv_run hout hI₀ hrun
  refine ⟨fun s' hr => ?_, fun s₁ i hr bs s₂ hbs hnot release s₃ hu => ?_⟩
  · rcases load_spec hI.space hI.heap hout hr with ⟨_, hf⟩ | ⟨i, L, hri, _⟩
    · exact hI.restored hout hf
    · cases hri
  · rcases load_spec hI.space hI.heap hout hr with ⟨hri, _⟩ | ⟨i', L, hri, hl⟩
    · cases hri
    · cases hri
      have hI₁ := hI.load hout hr
      have hL₂ := ptr_run hout hbs hI₁ hl.some hnot
      obtain ⟨hI₃, hslot, _, hunits, hpages⟩ := (inv_run hout hI₁ hbs).unload hout hL₂ hu
      refine ⟨hslot, fun L' hL' => ?_, fun L' hL' => ?_, hI₃.accounts hout hI₀ hempty⟩
      · rw [hl.some] at hL'
        cases hL'
        exact hunits
      · rw [hl.some] at hL'
        cases hL'
        exact hpages

/-- A frame behind a page of the heap is in use, and for nothing else. -/
theorem Inv.heapFrame_apart {res ext own : ℕ → Prop} {s₀ s : LiveLinker}
    (h : Inv res ext own s₀ s) {k : ℕ} (hk : s.HeapFrame k) :
    s.linker.space.mm.pmm.used k = true ∧ (∀ j < 1023, s.linker.space.mm.table j ≠ some k) ∧
      ∀ v, In (runs s.linker.layouts) v → s.linker.space.mm.mapped v ≠ some k := by
  obtain ⟨v, hv, hm⟩ := hk
  obtain ⟨hused, _, _, htab⟩ := h.owned.own_used v k (Or.inr hv) hm
  refine ⟨hused, htab, fun u hu hmu => ?_⟩
  have huv := h.owned.own_inj u v k (Or.inl (Or.inr hu)) (Or.inr hv) hmu hm
  rw [huv] at hu
  exact not_heapWindow (window_of_has h.space hu) (Mm.HeapWindow.of_has h.heap hv)

/-! ## A small object in memory -/

/-- Physical memory given by some of its words. -/
def sampleMemory (ws : List (ℕ × ℕ)) (f i : ℕ) : ℕ := (ws.lookup (f * 4096 + 4 * i)).getD 0

/-- The words of an object at `0x200000` with two sections of code, of 6 and of 8 bytes, and one
entry, at the given offset in the second, for a symbol with the value `0x41414141`. -/
def lowWords (offset : ℕ) : List (ℕ × ℕ) :=
  headerWords 0x200428 ⟨shtProgbits, 6, 0x100, 6, 0, 1⟩ ++
    headerWords 0x200450 ⟨shtProgbits, 6, 0x110, 8, 0, 8⟩ ++
    headerWords 0x200478 ⟨shtRel, 0, 0x200, 8, 2, 4⟩ ++
    headerWords 0x2004A0 ⟨2, 0, 0x300, 16, 0, 4⟩ ++
    [(0x200200, offset), (0x200204, r386_32), (0x200304, 0x41414141), (0x20030C, 0xFFF10000)]

/-- An object of five sections that memory holds at `0x200000`. -/
def lowObject (ws : List (ℕ × ℕ)) : Object where
  image := sampleImage ws
  hdr := 0x200000
  shoff := 0x400
  secHdrsNum := 5
  symtab := 0x2004A0
  strtab := 0

/-- Calls that find room in the heap. -/
def quietCalls : LoadCalls := ⟨[], fun _ => [], []⟩

/-- Calls of which the first lets the heap grow by a page. -/
def growingCalls : LoadCalls := ⟨[.expand 0x100030], fun _ => [], []⟩

/-- A linker that has just been constructed; no page of the heap is mapped yet. -/
def freshLinker (mm : Mm) : LiveLinker := ⟨⟨⟨.empty, mm⟩, .empty⟩, 0x1100000⟩

theorem init_fresh {phys : ℕ → ℕ → ℕ} {mm : Mm} (h : Mm.init samplePmm phys = .ok mm) :
    Init (freshLinker mm) := by
  have hend : HeapEndOk 0x1100000 := by unfold HeapEndOk heapStart heapMinSize heapMaxAddr; omega
  have hnew : ∀ v, withHeap (fun _ => False) 0x1100000 v → ¬ False →
      Mm.identityPages ≤ v ∧ v / 1024 < 1023 ∧ mm.mapped v = none := by
    intro v hv _
    have hin := Mm.heapHas_some.1 (hv.resolve_left id)
    unfold heapStart at hin
    have hlo : Mm.identityPages ≤ v := by unfold Mm.identityPages; omega
    have hhi : v / 1024 < 1023 := by omega
    exact ⟨hlo, hhi, Mm.mapped_zero ((Mm.sim_init h).pte v ⟨hlo, hhi⟩)⟩
  exact ⟨mm, _, _, _, _, rfl, (Mm.owned_init h).enlarge (fun _ hf => hf.elim) hnew, hend, by decide,
    fun _ hf => hf.elim⟩

/-- Two objects are loaded, and the first is unloaded. Its load has let the heap grow, and its unload
does not shrink it. -/
theorem exists_loads : ∃ s₀ s₁ s₂ s₃ k, Init s₀ ∧ s₀.heapEnd = 0x1100000 ∧
    (load [] growingCalls s₀ (some (lowObject (lowWords 0)))).result = .ok (s₁, some 0) ∧
    Run (Step []) s₁ [.load (some (lowObject (lowWords 0))) quietCalls] s₂ ∧
    s₂.unloadLocked 0 [] = .ok s₃ ∧ s₃.HeapFrame k ∧
    s₀.linker.space.mm.pmm.used k = false := by
  obtain ⟨⟨mm, s₁, s₂, s₃⟩, hw, hp⟩ := K.exists_of_holds
    (x := do
      let mm ← Mm.init samplePmm (sampleMemory (lowWords 0))
      let r₁ ← (load [] growingCalls (freshLinker mm) (some (lowObject (lowWords 0)))).result
      let r₂ ← (load [] quietCalls r₁.1 (some (lowObject (lowWords 0)))).result
      let s₃ ← r₂.1.unloadLocked 0 []
      return (mm, r₁, r₂, s₃))
    (p := fun r => r.2.1.2 == some 0 && r.2.2.2.heapEnd == 0x1101000 &&
      (r.2.2.2.linker.space.mm.mapped 0x1100).any fun k => !r.1.pmm.used k)
    (by decide +kernel)
  simp only [K.bind_eq_ok] at hw
  obtain ⟨_, hmm, ⟨s₁, r₁⟩, h₁, ⟨s₂, r₂⟩, h₂, _, hu, he⟩ := hw
  cases he
  simp only [Bool.and_eq_true, beq_iff_eq] at hp
  obtain ⟨⟨hr₁, hend⟩, hk⟩ := hp
  obtain ⟨k, hm, hfree⟩ := (Option.any_eq_true _ _).1 hk
  cases hr₁
  have hfree : mm.pmm.used k = false := by simpa using hfree
  refine ⟨freshLinker mm, s₁, s₂, s₃, k, init_fresh hmm, rfl, h₁, .cons ⟨r₂, h₂⟩ (.nil _), hu,
    ⟨0x1100, ?_, hm⟩, hfree⟩
  rw [hend, Mm.heapHas_some]
  unfold heapStart
  omega

theorem load_leaves_nothing_sample : ∃ s₀ s₁ s₂ s₃, Init s₀ ∧
    (load [] growingCalls s₀ (some (lowObject (lowWords 0)))).result = .ok (s₁, some 0) ∧
    Run (Step []) s₁ [.load (some (lowObject (lowWords 0))) quietCalls] s₂ ∧
    s₂.unloadLocked 0 [] = .ok s₃ ∧ Released s₀ s₁ s₃ 0 := by
  obtain ⟨s₀, s₁, s₂, s₃, _, h₀, _, h₁, h₂, hu, _⟩ := exists_loads
  refine ⟨s₀, s₁, s₂, s₃, h₀, h₁, h₂, hu, (load_leaves_nothing [] s₀ s₀ h₀ [] (.nil _) _ _).2
    s₁ 0 h₁ _ s₂ h₂ (fun release hin => ?_) [] s₃ hu⟩
  cases List.mem_singleton.1 hin

/-! ## What the heap keeps -/

/-- The heap is full but for a few bytes, and the first object is on it. -/
def beforeLoads : List HeapAct := [.alloc Heap.bareEnv 0xFFFBC, .alloc Heap.bareEnv 32]

/-- The section map and the two sections of the first object, and the second object with its own. -/
def duringLoads : List HeapAct :=
  [.alloc Heap.bareEnv 40, .alloc Heap.bareEnv 28, .alloc Heap.bareEnv 28,
    .alloc Heap.bareEnv 32, .alloc Heap.bareEnv 40, .alloc Heap.bareEnv 28,
    .alloc Heap.bareEnv 28]

/-- What belongs to the first layout. -/
def duringUnload : List HeapAct :=
  [.free Heap.bareEnv 17825776, .free Heap.bareEnv 17825736, .free Heap.bareEnv 17825824,
    .free Heap.bareEnv 17825856]

/-- The section map of the first object does not fit, and what the second needs lies behind it: the
heap grows by a page in the first load and keeps it when the first layout goes. -/
theorem exists_heap_run : ∃ c₁ c₂ c₃, Run HeapAct.Step startState beforeLoads c₁ ∧
    c₁.heap.endAddr = 0x1100000 ∧ Run HeapAct.Step c₁ duringLoads c₂ ∧
    c₂.heap.endAddr = 0x1101000 ∧ Run HeapAct.Step c₂ duringUnload c₃ ∧
    c₃.heap.endAddr = 0x1101000 := by
  have hrun : ((beforeLoads.foldlM HeapAct.next startState).bind fun c₁ =>
      (duringLoads.foldlM HeapAct.next c₁).bind fun c₂ =>
        (duringUnload.foldlM HeapAct.next c₂).map fun c₃ => (c₁, c₂, c₃)).any
      (fun c => decide (c.1.heap.endAddr = 0x1100000 ∧ c.2.1.heap.endAddr = 0x1101000 ∧
        c.2.2.heap.endAddr = 0x1101000)) = true := by decide +kernel
  obtain ⟨⟨c₁, c₂, c₃⟩, hc, hends⟩ := (Option.any_eq_true _ _).1 hrun
  simp only [Option.bind_eq_some_iff, Option.map_eq_some_iff] at hc
  obtain ⟨_, h₁, _, h₂, _, h₃, he⟩ := hc
  cases he
  obtain ⟨e₁, e₂, e₃⟩ := of_decide_eq_true hends
  have hstep : ∀ (c : Clients) (a : HeapAct) (c' : Clients),
      HeapAct.Step c a c' ↔ HeapAct.next c a = some c' := fun _ _ _ => Iff.rfl
  exact ⟨c₁, c₂, c₃, run_of_foldlM hstep h₁, e₁, run_of_foldlM hstep h₂, e₂,
    run_of_foldlM hstep h₃, e₃⟩

/-- A load lets the heap grow, and after the unload of its layout a frame is in use that was free
before: it is no page table, and no live layout has it. The calls of the heap are those of
`exists_heap_run`. -/
theorem heap_page_remains :
    (∃ c₁ c₂ c₃, Run HeapAct.Step startState beforeLoads c₁ ∧ c₁.heap.endAddr = 0x1100000 ∧
      Run HeapAct.Step c₁ duringLoads c₂ ∧ c₂.heap.endAddr = 0x1101000 ∧
      Run HeapAct.Step c₂ duringUnload c₃ ∧ c₃.heap.endAddr = 0x1101000) ∧
    ∃ s₀ s₁ s₂ s₃ k, Init s₀ ∧ s₀.heapEnd = 0x1100000 ∧
      (load [] growingCalls s₀ (some (lowObject (lowWords 0)))).result = .ok (s₁, some 0) ∧
      Run (Step []) s₁ [.load (some (lowObject (lowWords 0))) quietCalls] s₂ ∧
      s₂.unloadLocked 0 [] = .ok s₃ ∧ s₀.linker.space.mm.pmm.used k = false ∧
      s₃.linker.space.mm.pmm.used k = true ∧ (∀ j < 1023, s₃.linker.space.mm.table j ≠ some k) ∧
      ∀ v, In (runs s₃.linker.layouts) v → s₃.linker.space.mm.mapped v ≠ some k := by
  refine ⟨exists_heap_run, ?_⟩
  obtain ⟨s₀, s₁, s₂, s₃, k, h₀, hend, h₁, h₂, hu, hk, hfree⟩ := exists_loads
  obtain ⟨res, ext, own, hout, _, hI₀⟩ := inv_init h₀
  have hI₁ := hI₀.load hout h₁
  rcases load_spec hI₀.space hI₀.heap hout h₁ with ⟨hr, _⟩ | ⟨_, L, hr, hl⟩
  · cases hr
  cases hr
  have hL₂ := ptr_run hout h₂ hI₁ hl.some fun release hin => by
    cases List.mem_singleton.1 hin
  have hI₃ := ((inv_run hout hI₁ h₂).unload hout hL₂ hu).1
  obtain ⟨hused, htab, hmap⟩ := hI₃.heapFrame_apart hk
  exact ⟨s₀, s₁, s₂, s₃, k, h₀, hend, h₁, h₂, hu, hfree, hused, htab, hmap⟩

end LiveLinker

end Ospp
