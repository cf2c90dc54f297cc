import Ospp.Sys.Linker

/-!
# The stages of a load and the pages in use

Each stage of `load` in terms of the account of the module window: `stage0` plans, `stage1` puts the
pages of a region in use, the copying of sections and the relocations change contents of memory
only, and `unload_region_locked` gives the pages of a region back.
-/

namespace Ospp

namespace Linker

/-! ## The regions of a layout -/

/-- The pages of a region that is mapped. -/
def Region.runs (r : Region) : List PageRun :=
  if r.base = 0 ∨ r.size = 0 then []
  else [⟨(r.base - moduleSpaceBase) / pageSize, r.size / pageSize⟩]

/-- A region that is mapped starts at a page of the window and consists of whole pages. -/
def Region.Ok (r : Region) : Prop :=
  r.base = 0 ∨ r.size = 0 ∨
    (moduleSpaceBase ≤ r.base ∧ r.base % 4096 = 0 ∧ r.size % 4096 = 0)

namespace Layout

def runs (L : Layout) : List PageRun := L.rw.runs ++ L.rx.runs

def Ok (L : Layout) : Prop := L.rw.Ok ∧ L.rx.Ok

/-- A region without a base has no pages. -/
theorem runs_of_base {r : Region} (h : r.base = 0) : r.runs = [] := if_pos (Or.inl h)

@[simp] theorem region_setRegion (L : Layout) (r : Region) (wh : Which) :
    (L.setRegion r wh).region wh = r := by cases wh <;> rfl

theorem region_setRegion_ne (L : Layout) (r : Region) {wh wh' : Which} (h : wh' ≠ wh) :
    (L.setRegion r wh).region wh' = L.region wh' := by
  cases wh <;> cases wh' <;> first | rfl | exact absurd rfl h

@[simp] theorem obj_setRegion (L : Layout) (r : Region) (wh : Which) :
    (L.setRegion r wh).obj = L.obj := by cases wh <;> rfl

@[simp] theorem map_setRegion (L : Layout) (r : Region) (wh : Which) :
    (L.setRegion r wh).map = L.map := by cases wh <;> rfl

/-- The map does not matter to the regions. -/
theorem region_withMap (L : Layout) (f : ℕ → Option (Which × Section)) (wh : Which) :
    ({ L with map := f } : Layout).region wh = L.region wh := by cases wh <;> rfl

theorem region_append (L : Layout) (wh : Which) (s : Section) :
    (L.append wh s).region wh = (L.region wh).append s := by
  unfold append
  rw [region_withMap, region_setRegion]

theorem region_append_ne (L : Layout) {wh wh' : Which} (s : Section) (h : wh' ≠ wh) :
    (L.append wh s).region wh' = L.region wh' := by
  unfold append
  rw [region_withMap, region_setRegion_ne _ _ h]

theorem obj_append (L : Layout) (wh : Which) (s : Section) : (L.append wh s).obj = L.obj := by
  unfold append
  exact obj_setRegion _ _ _

/-- The runs of a layout are those of the two regions, in either order. -/
theorem runs_perm_region (L : Layout) {wh wh' : Which} (h : wh' ≠ wh) :
    L.runs.Perm ((L.region wh).runs ++ (L.region wh').runs) := by
  cases wh <;> cases wh' <;> first | exact absurd rfl h | exact List.perm_append_comm |
    exact List.Perm.refl _

end Layout

/-- The pages of the module window. -/
def Window (v : ℕ) : Prop := modulePage ≤ v ∧ v < modulePage + moduleSpacePageCount

/-- The page is in one of the runs. -/
def In (rs : List PageRun) (v : ℕ) : Prop := ∃ r ∈ rs, r.Has v

/-- The unit is in one of the runs. -/
def InUnits (rs : List PageRun) (k : ℕ) : Prop := ∃ r ∈ rs, r.unit ≤ k ∧ k < r.unit + r.pages

/-- The runs of a slot. -/
def slotRuns (t : StaticArray Layout 64) (i : ℕ) : List PageRun :=
  match t.ptr i with
  | none => []
  | some L => L.runs

/-- The runs of all live layouts. -/
def runs (t : StaticArray Layout 64) : List PageRun := (List.range 64).flatMap (slotRuns t)

/-- One slot and the others. -/
theorem runs_perm {t : StaticArray Layout 64} {i : ℕ} (hi : i < 64) :
    (runs t).Perm (slotRuns t i ++ ((List.range 64).erase i).flatMap (slotRuns t)) :=
  (List.perm_cons_erase (List.mem_range.2 hi)).flatMap_right _

/-- Tables that agree on all slots but `i` agree on the runs of the others. -/
theorem flatMap_erase_congr {t t' : StaticArray Layout 64} {i : ℕ}
    (h : ∀ j, j ≠ i → t'.ptr j = t.ptr j) :
    ((List.range 64).erase i).flatMap (slotRuns t') =
      ((List.range 64).erase i).flatMap (slotRuns t) := by
  refine List.flatMap_congr fun j hj => ?_
  have hne : j ≠ i := (List.nodup_range.mem_erase_iff.1 hj).1
  unfold slotRuns
  rw [h j hne]

/-- A slot is filled. -/
theorem runs_fill {t t' : StaticArray Layout 64} {i : ℕ} {L : Layout} (hi : i < 64)
    (hnone : t.ptr i = none) (hsome : t'.ptr i = some L) (h : ∀ j, j ≠ i → t'.ptr j = t.ptr j) :
    (runs t').Perm (L.runs ++ runs t) := by
  have h1 := runs_perm (t := t') hi
  have h2 := runs_perm (t := t) hi
  rw [flatMap_erase_congr h] at h1
  have e1 : slotRuns t' i = L.runs := by unfold slotRuns; rw [hsome]
  have e2 : slotRuns t i = [] := by unfold slotRuns; rw [hnone]
  rw [e1] at h1
  rw [e2, List.nil_append] at h2
  exact h1.trans (h2.symm.append_left _)

theorem runs_congr {t t' : StaticArray Layout 64} (h : ∀ j, t'.ptr j = t.ptr j) :
    runs t' = runs t := by
  unfold runs
  refine List.flatMap_congr fun j _ => ?_
  unfold slotRuns
  rw [h j]

theorem runs_of_slots {t : StaticArray Layout 64} (h : ∀ i, t.ptr i = none) : runs t = [] := by
  unfold runs
  rw [List.flatMap_eq_nil_iff]
  intro i _
  unfold slotRuns
  rw [h i]

/-! ## One region -/

section

variable {m m' : ModuleSpace} {res ext own : ℕ → Prop} {rs : List PageRun}

/-- The mappings of pages outside the runs, and the page tables, are kept. -/
structure ChangesOnly (m m' : ModuleSpace) (rs : List PageRun) : Prop where
  tables : Mm.KeepsTables m.mm m'.mm
  mapped : ∀ v, v / 1024 < 1023 → ¬ In rs v → m'.mm.mapped v = m.mm.mapped v

theorem ChangesOnly.refl (m : ModuleSpace) (rs : List PageRun) : ChangesOnly m m rs :=
  ⟨.refl _, fun _ _ _ => rfl⟩

theorem ChangesOnly.trans {m₁ : ModuleSpace} (h : ChangesOnly m m₁ rs) {rs' : List PageRun}
    (h' : ChangesOnly m₁ m' rs') : ChangesOnly m m' (rs ++ rs') := by
  refine ⟨h.tables.trans h'.tables, fun v hv hn => ?_⟩
  have hn1 : ¬ In rs v := fun ⟨r, hr, hv⟩ => hn ⟨r, List.mem_append_left _ hr, hv⟩
  have hn2 : ¬ In rs' v := fun ⟨r, hr, hv⟩ => hn ⟨r, List.mem_append_right _ hr, hv⟩
  rw [h'.mapped v hv hn2, h.mapped v hv hn1]

theorem ChangesOnly.of_same (hs : Mm.SameTables m.mm m'.mm) (rs : List PageRun) :
    ChangesOnly m m' rs := ⟨hs.keepsTables, fun v hv _ => hs.mapped v hv⟩

theorem ChangesOnly.mono {rs' : List PageRun} (h : ChangesOnly m m' rs) (hsub : rs ⊆ rs') :
    ChangesOnly m m' rs' :=
  ⟨h.tables, fun v hv hn => h.mapped v hv fun ⟨r, hr, hv⟩ => hn ⟨r, hsub hr, hv⟩⟩

/-- **`unload_region_locked`.** The pages of the region are given back. -/
theorem unloadRegionLocked_spec {reg : Region} (h : m.Inv res ext own (reg.runs ++ rs))
    (hok : reg.Ok) (hu : unloadRegionLocked m reg = .ok m') :
    m'.Inv res ext own rs ∧ ChangesOnly m m' reg.runs ∧
      ∀ v, In reg.runs v → m'.mm.mapped v = none := by
  unfold unloadRegionLocked at hu
  by_cases hz : reg.base = 0 ∨ reg.size = 0
  · rw [if_pos hz] at hu
    cases hu
    have hr : reg.runs = [] := if_pos hz
    rw [hr] at h ⊢
    exact ⟨h, .refl _ _, fun v ⟨r, hr, _⟩ => absurd hr List.not_mem_nil⟩
  · rw [if_neg hz] at hu
    obtain ⟨hlo, hal, hsz⟩ : moduleSpaceBase ≤ reg.base ∧ reg.base % 4096 = 0 ∧
        reg.size % 4096 = 0 := by
      rcases hok with h1 | h1 | h1
      · exact absurd (Or.inl h1) hz
      · exact absurd (Or.inr h1) hz
      · exact h1
    have hr : reg.runs = [⟨(reg.base - moduleSpaceBase) / pageSize, reg.size / pageSize⟩] :=
      if_neg hz
    obtain ⟨r, hrr⟩ : ∃ r : PageRun, r =
        ⟨(reg.base - moduleSpaceBase) / pageSize, reg.size / pageSize⟩ := ⟨_, rfl⟩
    rw [← hrr] at hr
    have hbase : r.base = reg.base := by
      rw [hrr]
      unfold PageRun.base modulePage moduleSpaceBase pageSize
      unfold moduleSpaceBase at hlo
      dsimp only
      omega
    have hpages : r.pages = reg.size / pageSize := by rw [hrr]
    rw [hr] at h ⊢
    rw [← hbase, ← hpages] at hu
    obtain ⟨hinv, hnone, hkeep, htab⟩ := h.unmapRegion (List.mem_cons_self) hu
    rw [List.singleton_append, List.erase_cons_head] at hinv
    refine ⟨hinv, ⟨htab, fun v hv hn => hkeep v hv fun hin => hn ⟨r, List.mem_singleton_self _, hin⟩⟩,
      fun v ⟨r', hr', hin⟩ => hnone v ?_⟩
    rwa [List.mem_singleton.1 hr'] at hin

/-- The two regions of a layout are given back. -/
theorem unloadRegions_spec {L : Layout} (h : m.Inv res ext own (L.runs ++ rs)) (hok : L.Ok)
    (hu : unloadRegions m L = .ok m') :
    m'.Inv res ext own rs ∧ ChangesOnly m m' L.runs ∧
      ∀ v, In L.runs v → m'.mm.mapped v = none := by
  unfold unloadRegions at hu
  rw [K.bind_eq_ok] at hu
  obtain ⟨m₁, h₁, hu⟩ := hu
  unfold Layout.runs at h ⊢
  rw [List.append_assoc] at h
  obtain ⟨hinv₁, hch₁, hnone₁⟩ := unloadRegionLocked_spec h hok.1 h₁
  obtain ⟨hinv₂, hch₂, hnone₂⟩ := unloadRegionLocked_spec hinv₁ hok.2 hu
  refine ⟨hinv₂, hch₁.trans hch₂, fun v hv => ?_⟩
  by_cases h2 : In L.rx.runs v
  · exact hnone₂ v h2
  · obtain ⟨r, hr, hin⟩ := hv
    have hr' := (List.mem_append.1 hr).resolve_right fun hr => h2 ⟨r, hr, hin⟩
    have hhigh := (h.owned.own_high v (Or.inr ⟨r, List.mem_append_left _ hr', hin⟩)).2
    rw [hch₂.mapped v hhigh h2, hnone₁ v ⟨r, hr', hin⟩]

/-! ## Writes in a region -/

/-- A mapped region lies in the module window. -/
theorem region_window {reg : Region} (h : m.Inv res ext own (reg.runs ++ rs)) (hok : reg.Ok)
    (hb : reg.base ≠ 0) (hs : reg.size ≠ 0) :
    0xA000000 ≤ reg.base ∧ reg.base + reg.size ≤ 0xA080000 := by
  have hz : ¬ (reg.base = 0 ∨ reg.size = 0) := fun hz => hz.elim hb hs
  obtain ⟨hlo, hal, hsz⟩ := (hok.resolve_left hb).resolve_left hs
  have hfit := h.fits ⟨(reg.base - moduleSpaceBase) / pageSize, reg.size / pageSize⟩
    (List.mem_append_left _ (by unfold Region.runs; rw [if_neg hz]; exact List.mem_singleton_self _))
  unfold moduleSpaceBase at hlo
  unfold moduleSpaceBase pageSize moduleSpacePageCount at hfit
  dsimp only at hfit
  omega

/-- What the bounds check of a section says where the region is in the window. -/
theorem validate_iff {reg : Region} {sec : Section} (hs : reg.size ≤ 0x80000) :
    validateRegionSectionBounds reg sec 0 = true ↔ sec.regOff + sec.size ≤ reg.size := by
  unfold validateRegionSectionBounds
  by_cases h1 : reg.size < sec.regOff
  · rw [if_pos h1]
    exact ⟨fun h => (by cases h), fun h => (by omega)⟩
  · by_cases h2 : reg.size < sec.size
    · rw [if_neg h1, if_pos h2]
      exact ⟨fun h => (by cases h), fun h => (by omega)⟩
    · rw [if_neg h1, if_neg h2, Word32.add_eq (by omega),
        if_neg (c := (0 : ℕ) ≠ 0 ∧ _) (fun h => h.1 rfl)]
      split_ifs with h3
      · exact ⟨fun h => (by cases h), fun h => (by omega)⟩
      · exact ⟨fun _ => (by omega), fun _ => rfl⟩

/-- Writing in the window. -/
theorem same_writeBytes (h : m.Inv res ext own rs) {a n : ℕ} {f : ℕ → UInt8} {vmm : Vmm}
    (hlo : 0x9000000 ≤ a) (hhi : a + n ≤ 0xB000000) (hw : m.mm.vmm.writeBytes a f n = .ok vmm) :
    Mm.SameTables m.mm (withVmm m vmm).mm :=
  h.owned.writeBytes (by unfold Mm.identityPages; omega) (by omega) hw

/-- One turn of the loop of `stage1`, where the section passes its checks. -/
theorem copySections_cons {L : Layout} {wh : Which} (hok : (L.region wh).Ok)
    (hb : (L.region wh).base ≠ 0) (hs : (L.region wh).size ≠ 0) {sec : Section}
    {secs : List Section} {ok : Bool} (h : m.Inv res ext own ((L.region wh).runs ++ rs))
    (hc : copyable L wh sec = true)
    (hr : (copySections L wh (sec :: secs) m).result = .ok (m', ok)) :
    sec.regOff + sec.size ≤ (L.region wh).size ∧
      ∃ vmm, m.mm.vmm.writeBytes ((L.region wh).base + sec.regOff) (contents L.obj sec) sec.size =
          .ok vmm ∧
        Mm.SameTables m.mm (withVmm m vmm).mm ∧
        (copySections L wh secs (withVmm m vmm)).result = .ok (m', ok) := by
  rw [copySections, hc, Bool.not_true, if_neg Bool.false_ne_true] at hr
  simp only [Traced.result_bind, Traced.result_emit, Traced.result_lift] at hr
  obtain ⟨_, _, vmm, hw, hr⟩ := hr
  obtain ⟨hlo, hhi⟩ := region_window h hok hb hs
  have hval : sec.regOff + sec.size ≤ (L.region wh).size := by
    unfold copyable at hc
    rw [Bool.and_eq_true] at hc
    exact (validate_iff (by omega)).1 hc.1
  rw [Word32.add_eq (by omega)] at hw
  exact ⟨hval, vmm, hw, same_writeBytes h (by omega) (by omega) hw, hr⟩

/-- **The loop of `stage1`.** The sections before the first that fails a check are copied. -/
theorem copySections_spec {L : Layout} {wh : Which} (hok : (L.region wh).Ok)
    (hb : (L.region wh).base ≠ 0) (hs : (L.region wh).size ≠ 0) :
    ∀ {secs : List Section} {m m' : ModuleSpace} {ok : Bool},
      m.Inv res ext own ((L.region wh).runs ++ rs) →
      (copySections L wh secs m).result = .ok (m', ok) →
      m'.lmm = m.lmm ∧ Mm.SameTables m.mm m'.mm ∧
        (ok = true → ∀ sec ∈ secs, copyable L wh sec = true) := by
  intro secs
  induction secs with
  | nil =>
    intro m m' ok h hr
    cases hr
    exact ⟨rfl, .refl _, fun _ sec hsec => absurd hsec List.not_mem_nil⟩
  | cons sec secs ih =>
    intro m m' ok h hr
    by_cases hc : copyable L wh sec = true
    · obtain ⟨_, vmm, _, hsame, hr⟩ := copySections_cons hok hb hs h hc hr
      obtain ⟨hlmm, hsame', hall⟩ := ih (h.of_same hsame) hr
      refine ⟨hlmm, hsame.trans hsame', fun htrue x hx => ?_⟩
      rcases List.mem_cons.1 hx with rfl | hx
      · exact hc
      · exact hall htrue x hx
    · rw [Bool.not_eq_true] at hc
      rw [copySections, hc, Bool.not_false, if_pos rfl] at hr
      cases hr
      exact ⟨rfl, .refl _, fun hf => by cases hf⟩

/-- The layout with a base for one of its regions. -/
def Layout.withBase (L : Layout) (wh : Which) (base : ℕ) : Layout :=
  L.setRegion { L.region wh with base := base } wh

/-- The first half of `stage1`: the pages of the region are in use. -/
theorem mapRegion_spec {L : Layout} {wh : Which} {base : Option ℕ} (h : m.Inv res ext own rs)
    (hsize : (L.region wh).size % 4096 = 0) (h0 : (L.region wh).size ≠ 0)
    (hmap : m.mapRegion ((L.region wh).size / pageSize) = .ok (m', base)) :
    ∃ b, base = some b ∧ b ≠ 0 ∧ ((L.withBase wh b).region wh).Ok ∧
      m'.Inv res ext own (((L.withBase wh b).region wh).runs ++ rs) ∧
      ChangesOnly m m' ((L.withBase wh b).region wh).runs ∧
      ∀ v, In ((L.withBase wh b).region wh).runs v → ∃ f, m'.mm.mapped v = some f := by
  unfold pageSize at hmap
  obtain ⟨i, rfl, hinv, hnew, hkeep, htab⟩ := h.mapRegion (by omega) hmap
  have hreg : (L.withBase wh ((modulePage + i) * 4096)).region wh =
      { L.region wh with base := (modulePage + i) * 4096 } := Layout.region_setRegion _ _ _
  have hruns : ((L.withBase wh ((modulePage + i) * 4096)).region wh).runs =
      [⟨i, (L.region wh).size / 4096⟩] := by
    rw [hreg]
    unfold Region.runs
    dsimp only
    rw [if_neg (by unfold modulePage; omega)]
    unfold modulePage moduleSpaceBase pageSize
    congr 2
    omega
  refine ⟨_, rfl, by unfold modulePage; omega, ?_, by rw [hruns]; exact hinv, ?_, ?_⟩
  · rw [hreg]
    unfold Region.Ok moduleSpaceBase modulePage
    dsimp only
    omega
  · rw [hruns]
    exact ⟨htab, fun v hv hn => hkeep v hv fun hin => hn ⟨_, List.mem_singleton_self _, hin⟩⟩
  · rw [hruns]
    rintro v ⟨r, hr, hin⟩
    rw [List.mem_singleton.1 hr] at hin
    obtain ⟨f, hf, _⟩ := hnew v hin
    exact ⟨f, hf⟩

/-- **`stage1`.** The region is mapped, whether the copying succeeds or not. -/
theorem stage1_spec {L L' : Layout} {wh : Which} {ok : Bool} (h : m.Inv res ext own rs)
    (hsize : (L.region wh).size % 4096 = 0) (hbase : (L.region wh).base = 0)
    (hr : (stage1 m L wh).result = .ok (m', L', ok)) :
    ∃ base, L' = L.withBase wh base ∧ (L'.region wh).Ok ∧
      m'.Inv res ext own ((L'.region wh).runs ++ rs) ∧ ChangesOnly m m' (L'.region wh).runs ∧
      (base ≠ 0 → (L.region wh).size ≠ 0) ∧
      (ok = true → base ≠ 0 → ∀ sec ∈ (L.region wh).sections, copyable L' wh sec = true) := by
  unfold stage1 at hr
  dsimp only at hr
  by_cases h0 : (L.region wh).size = 0
  · rw [if_pos h0] at hr
    cases hr
    have hset : L = L.withBase wh 0 := by
      unfold Layout.withBase
      rw [← hbase]
      cases wh <;> rfl
    refine ⟨0, hset, Or.inl hbase, ?_, .refl _ _, fun hb => absurd rfl hb, fun _ hb => absurd rfl hb⟩
    rw [Layout.runs_of_base hbase]
    exact h
  · rw [if_neg h0, Traced.result_bind, Traced.result_lift] at hr
    obtain ⟨⟨m₁, base⟩, hmap, hr⟩ := hr
    obtain ⟨b, rfl, hb, hok, hinv₁, hch, _⟩ := mapRegion_spec h hsize h0 hmap
    rw [Traced.result_bind] at hr
    obtain ⟨⟨m₂, ok₂⟩, hcopy, hr⟩ := hr
    cases hr
    have hcopy' : (copySections (L.withBase wh b) wh (L.region wh).sections m₁).result =
      .ok (m₂, ok₂) := hcopy
    have hreg : (L.withBase wh b).region wh = { L.region wh with base := b } :=
      Layout.region_setRegion _ _ _
    obtain ⟨hlmm, hsame, hall⟩ := copySections_spec hok (by rw [hreg]; exact hb)
      (by rw [hreg]; exact h0) hinv₁ hcopy'
    have hinv₂ := hinv₁.of_same hsame
    rw [← hlmm] at hinv₂
    have hch' : ChangesOnly m m₂ ((L.withBase wh b).region wh).runs :=
      (hch.trans (.of_same hsame [])).mono (by simp)
    exact ⟨b, rfl, hok, hinv₂, hch', fun _ => h0, fun ht _ => hall ht⟩

/-! ## Relocations -/

/-- The section lies in its region, and the region in the window. -/
structure Fits (L : Layout) (wh : Which) (sec : Section) : Prop where
  lo : 0xA000000 ≤ (L.region wh).base
  hi : (L.region wh).base + (L.region wh).size ≤ 0xA080000
  sec : sec.regOff + sec.size ≤ (L.region wh).size

/-- The address of an entry that passes the check on its offset: in the section, unless the offset
is one of the last four, which the check takes for 0 to 3. -/
theorem patchAddr_cases {L : Layout} {wh : Which} {sec : Section} {r : Rel} (hf : Fits L wh sec)
    (hr : r.offset < 4294967296) (hsz : ¬ sec.size < Word32.add r.offset 4) :
    (r.offset ≤ 0xFFFFFFFB ∧ r.offset + 4 ≤ sec.size ∧
        patchAddr L wh sec r = (L.region wh).base + sec.regOff + r.offset) ∨
      (0xFFFFFFFB < r.offset ∧
        patchAddr L wh sec r + 4294967296 = (L.region wh).base + sec.regOff + r.offset) := by
  obtain ⟨hlo, hhi, hsec⟩ := hf
  unfold Word32.add at hsz
  have hin : Word32.add (L.region wh).base sec.regOff = (L.region wh).base + sec.regOff :=
    Word32.add_eq (by omega)
  unfold patchAddr
  rw [hin]
  unfold Word32.add
  omega

/-- One entry. -/
theorem relocate_spec {tab : List KexpEntry} {L : Layout} {wh : Which} {sec : Section} {r : Rel}
    {ok : Bool} (h : m.Inv res ext own rs) (hf : Fits L wh sec) (hro : r.offset < 4294967296)
    (hr : (relocate tab L wh sec r m).result = .ok (m', ok)) :
    m'.lmm = m.lmm ∧ Mm.SameTables m.mm m'.mm := by
  unfold relocate at hr
  cases hsym : L.obj.symbolByIndex r.sym with
  | none => rw [hsym] at hr; cases hr; exact ⟨rfl, .refl _⟩
  | some sym =>
    rw [hsym] at hr
    dsimp only at hr
    by_cases hsz : sec.size < Word32.add r.offset 4
    · rw [if_pos hsz] at hr; cases hr; exact ⟨rfl, .refl _⟩
    · rw [if_neg hsz] at hr
      have hwrite : ∀ {w : ℕ} {vmm : Vmm},
          m.mm.vmm.write32 (patchAddr L wh sec r) w = .ok vmm →
            Mm.SameTables m.mm (withVmm m vmm).mm := by
        intro w vmm hw
        obtain ⟨hlo, hhi, hsec⟩ := id hf
        refine same_writeBytes h ?_ ?_ hw
        · rcases patchAddr_cases hf hro hsz with ⟨_, _, hp⟩ | ⟨_, hp⟩ <;> omega
        · rcases patchAddr_cases hf hro hsz with ⟨_, _, hp⟩ | ⟨_, hp⟩ <;> omega
      simp only [Traced.result_bind, Traced.result_lift] at hr
      obtain ⟨A, _, q, _, hr⟩ := hr
      cases q with
      | fail => cases hr; exact ⟨rfl, .refl _⟩
      | skip => cases hr; exact ⟨rfl, .refl _⟩
      | value S =>
        dsimp only at hr
        split_ifs at hr
        · simp only [Traced.result_bind, Traced.result_lift] at hr
          obtain ⟨_, _, vmm, hw, hr⟩ := hr
          cases hr
          exact ⟨rfl, hwrite hw⟩
        · simp only [Traced.result_bind, Traced.result_lift] at hr
          obtain ⟨_, _, vmm, hw, hr⟩ := hr
          cases hr
          exact ⟨rfl, hwrite hw⟩
        · cases hr; exact ⟨rfl, .refl _⟩

theorem relocateAll_spec {tab : List KexpEntry} {L : Layout} {wh : Which} {sec : Section}
    (hf : Fits L wh sec) : ∀ {rels : List Rel} {m m' : ModuleSpace} {ok : Bool},
      m.Inv res ext own rs → (∀ r ∈ rels, r.offset < 4294967296) →
      (relocateAll tab L wh sec rels m).result = .ok (m', ok) →
      m'.lmm = m.lmm ∧ Mm.SameTables m.mm m'.mm := by
  intro rels
  induction rels with
  | nil => intro m m' ok _ _ hr; cases hr; exact ⟨rfl, .refl _⟩
  | cons r rels ih =>
    intro m m' ok h hlt hr
    rw [relocateAll, Traced.result_bind] at hr
    obtain ⟨⟨m₁, ok₁⟩, h₁, hr⟩ := hr
    obtain ⟨hlmm, hsame⟩ := relocate_spec h hf (hlt r List.mem_cons_self) h₁
    dsimp only at hr
    cases ok₁ with
    | false => cases hr; exact ⟨hlmm, hsame⟩
    | true =>
      have h' := h.of_same hsame
      rw [← hlmm] at h'
      obtain ⟨hlmm', hsame'⟩ := ih h' (fun x hx => hlt x (List.mem_cons_of_mem _ hx)) hr
      exact ⟨hlmm'.trans hlmm, hsame.trans hsame'⟩

theorem rels_offset_lt {o : Object} {h : SectionHeader} {r : Rel} (hr : r ∈ o.rels h) :
    r.offset < 4294967296 := by
  unfold Object.rels at hr
  obtain ⟨j, _, rfl⟩ := List.mem_map.1 hr
  exact Mem.read32_lt _ _

/-- What `relTarget` has checked. -/
theorem relTarget_apply {L : Layout} {h : SectionHeader} {wh : Which} {sec : Section}
    (ht : relTarget L h = .apply wh sec) :
    L.map (h.info % 65536) = some (wh, sec) ∧ (L.region wh).base ≠ 0 := by
  unfold relTarget at ht
  by_cases htype : h.type ≠ shtRel
  · rw [if_pos htype] at ht; cases ht
  by_cases hnum : L.obj.secHdrsNum.toNat ≤ h.info % 65536
  · rw [if_neg htype, if_pos hnum] at ht; cases ht
  rw [if_neg htype, if_neg hnum] at ht
  cases hm : L.map (h.info % 65536) with
  | none => rw [hm] at ht; cases ht
  | some p =>
    rw [hm] at ht
    dsimp only at ht
    split_ifs at ht with hb hnull
    cases ht
    exact ⟨rfl, hb⟩

/-- The sections of the map that are mapped lie in their regions. -/
def MapFits (L : Layout) : Prop :=
  ∀ j wh sec, L.map j = some (wh, sec) → (L.region wh).base ≠ 0 → Fits L wh sec

/-- **`stage2`.** Relocations change contents of memory only. -/
theorem relocateSections_spec {tab : List KexpEntry} {L : Layout} (hf : MapFits L) :
    ∀ {hs : List SectionHeader} {m m' : ModuleSpace} {ok : Bool}, m.Inv res ext own rs →
      (relocateSections tab L hs m).result = .ok (m', ok) →
      m'.lmm = m.lmm ∧ Mm.SameTables m.mm m'.mm := by
  intro hs
  induction hs with
  | nil => intro m m' ok _ hr; cases hr; exact ⟨rfl, .refl _⟩
  | cons hd hs ih =>
    intro m m' ok h hr
    rw [relocateSections] at hr
    cases ht : relTarget L hd with
    | fail => rw [ht] at hr; cases hr; exact ⟨rfl, .refl _⟩
    | skip => rw [ht] at hr; exact ih h hr
    | apply wh sec =>
      rw [ht] at hr
      dsimp only at hr
      rw [Traced.result_bind] at hr
      obtain ⟨⟨m₁, ok₁⟩, h₁, hr⟩ := hr
      obtain ⟨hmap, hb⟩ := relTarget_apply ht
      obtain ⟨hlmm, hsame⟩ := relocateAll_spec (hf _ _ _ hmap hb) h (fun r => rels_offset_lt) h₁
      dsimp only at hr
      cases ok₁ with
      | false => cases hr; exact ⟨hlmm, hsame⟩
      | true =>
        have h' := h.of_same hsame
        rw [← hlmm] at h'
        obtain ⟨hlmm', hsame'⟩ := ih h' hr
        exact ⟨hlmm'.trans hlmm, hsame.trans hsame'⟩

/-! ## Placement -/

/-- What `stage0` leaves: regions without a base, and a map into their sections. -/
structure Planned (L : Layout) : Prop where
  base : ∀ wh, (L.region wh).base = 0
  map : ∀ j wh sec, L.map j = some (wh, sec) → sec ∈ (L.region wh).sections

theorem planned_new (o : Object) : Planned (Layout.new o) :=
  ⟨fun wh => by cases wh <;> rfl, fun _ _ _ h => by cases h⟩

theorem Planned.append {L : Layout} (h : Planned L) (wh : Which) (s : Section) :
    Planned (L.append wh s) := by
  have hold : ∀ wh', ∀ x ∈ (L.region wh').sections, x ∈ ((L.append wh s).region wh').sections := by
    intro wh' x hx
    by_cases hw : wh' = wh
    · subst hw
      rw [Layout.region_append]
      exact List.mem_append_left _ hx
    · rw [Layout.region_append_ne _ _ hw]
      exact hx
  refine ⟨fun wh' => ?_, fun j wh' sec hm => ?_⟩
  · by_cases hw : wh' = wh
    · subst hw
      rw [Layout.region_append]
      exact h.base wh'
    · rw [Layout.region_append_ne _ _ hw]
      exact h.base wh'
  · unfold Layout.append at hm
    dsimp only at hm
    split_ifs at hm with hj
    · cases hm
      rw [Layout.region_append]
      exact List.mem_append_right _ (List.mem_singleton_self _)
    · exact hold wh' sec (h.map j wh' sec hm)

/-- A header adds nothing, or its section to one of the regions. -/
theorem stage0Section_cases (L : Layout) (i : ℕ) (sec : SectionHeader) :
    stage0Section L i sec = L ∨ ∃ wh, stage0Section L i sec = L.append wh (newSection i sec) := by
  unfold stage0Section
  by_cases h1 : sec.flags &&& shfAlloc = 0
  · exact Or.inl (if_pos h1)
  by_cases h2 : sec.type = shtNull ∨ sec.size = 0
  · left; rw [if_neg h1, if_pos h2]
  rw [if_neg h1, if_neg h2]
  obtain ⟨s, hs⟩ : ∃ s, s = newSection i sec := ⟨_, rfl⟩
  rw [← hs]
  dsimp only
  cases s.access with
  | N => exact Or.inl rfl
  | R => exact Or.inr ⟨.rw, rfl⟩
  | W => exact Or.inl rfl
  | RW => exact Or.inr ⟨.rw, rfl⟩
  | X => exact Or.inl rfl
  | RX => exact Or.inr ⟨.rx, rfl⟩
  | WX => exact Or.inl rfl
  | RWX => exact Or.inl rfl

theorem planned_foldl (o : Object) : ∀ (is : List ℕ) {L : Layout}, Planned L →
    Planned (is.foldl (fun L i => stage0Section L i (o.secHdr i)) L) ∧
      (is.foldl (fun L i => stage0Section L i (o.secHdr i)) L).obj = L.obj := by
  intro is
  induction is with
  | nil => intro L h; exact ⟨h, rfl⟩
  | cons i is ih =>
    intro L h
    rw [List.foldl_cons]
    rcases stage0Section_cases L i (o.secHdr i) with he | ⟨wh, he⟩
    · rw [he]; exact ih h
    · rw [he]
      obtain ⟨h1, h2⟩ := ih (h.append wh (newSection i (o.secHdr i)))
      exact ⟨h1, h2.trans (Layout.obj_append _ _ _)⟩

/-- **`stage0`.** -/
theorem stage0_spec (o : Object) {L : Layout} {ok : Bool} (h : stage0 (Layout.new o) = (L, ok)) :
    Planned L ∧ L.obj = o ∧ (ok = true → ∀ wh, (L.region wh).size % 4096 = 0) := by
  unfold stage0 at h
  dsimp only at h
  split_ifs at h with h0
  · cases h
    exact ⟨planned_new o, rfl, fun h => by cases h⟩
  · obtain ⟨hp, hobj⟩ := planned_foldl o (List.range o.secHdrsNum.toNat) (planned_new o)
    obtain ⟨L₁, hL₁⟩ : ∃ L₁, L₁ = (List.range (Layout.new o).obj.secHdrsNum.toNat).foldl
      (fun L i => stage0Section L i ((Layout.new o).obj.secHdr i)) (Layout.new o) := ⟨_, rfl⟩
    rw [← hL₁] at h
    have hp₁ : Planned L₁ := by rw [hL₁]; exact hp
    have hobj₁ : L₁.obj = o := by rw [hL₁]; exact hobj
    cases h
    refine ⟨⟨fun wh => ?_, fun j wh sec hm => ?_⟩, hobj₁, fun _ wh => ?_⟩
    · have := hp₁.base wh
      cases wh <;> exact this
    · have := hp₁.map j wh sec hm
      cases wh <;> exact this
    · unfold pageSize
      cases wh
      · show Word32.alignUp L₁.rx.size 4096 % 4096 = 0
        rw [Pmm.alignUp_page]; omega
      · show Word32.alignUp L₁.rw.size 4096 % 4096 = 0
        rw [Pmm.alignUp_page]; omega

end

end Linker

end Ospp
