import Ospp.Lib.Layers
import Ospp.Sys.LinkerConfined

/-!
# Memory after `stage1`

What `stage2` starts from, when `stage0` and both calls of `stage1` have succeeded (`Staged`): the
pages of both regions are mapped, and the bytes of a region are those of the copied sections, one
laid over the other in the order of the section headers.

Mapping the second region does not change what was copied to the first one.
-/

namespace Ospp

namespace Linker

open Layer

/-! ## Statements -/

/-- `stage0` and both calls of `stage1` succeed. The relocations find the memory `m` and the layout
`L`. -/
def Staged (s : Linker) (o : Object) (m : ModuleSpace) (L : Layout) : Prop :=
  ∃ L₀ m₁ L₁, stage0 (Layout.new o) = (L₀, true) ∧
    (stage1 s.space L₀ .rx).result = .ok (m₁, L₁, true) ∧
    (stage1 m₁ L₁ .rw).result = .ok (m, L, true)

/-- The bytes of a section, at its place in a mapped region. -/
def copyLayer (L : Layout) (wh : Which) (sec : Section) : Layer (K UInt8) :=
  ⟨(L.region wh).base + sec.regOff, sec.size, fun k => .ok (contents L.obj sec k)⟩

/-- The bytes of the sections of a region. -/
def copyLayers (L : Layout) (wh : Which) : List (Layer (K UInt8)) :=
  (copied L wh).map (copyLayer L wh)

/-- The pages of the layout are mapped. -/
def Backed (m : ModuleSpace) (L : Layout) : Prop :=
  ∀ v, In L.runs v → ∃ f, m.mm.mapped v = some f

/-! ## One region -/

section

variable {res ext own : ℕ → Prop} {rs : List PageRun} {tab : List KexpEntry} {s s' : Linker}
  {m m' : ModuleSpace} {L L' : Layout} {b : Which → ℕ} {wh : Which}

/-- A successful `stage1` on a region with a size. -/
theorem stage1_mapped {ok : Bool} (h : m.Inv res ext own rs)
    (hsize : (L.region wh).size % 4096 = 0) (h0 : (L.region wh).size ≠ 0)
    (hr : (stage1 m L wh).result = .ok (m', L', ok)) :
    ∃ m₁ x, m.mapRegion ((L.region wh).size / 4096) = .ok (m₁, some x) ∧
      L' = L.withBase wh x ∧
      (copySections L' wh (L.region wh).sections m₁).result = .ok (m', ok) := by
  unfold stage1 at hr
  dsimp only at hr
  rw [if_neg h0, Traced.result_bind, Traced.result_lift] at hr
  obtain ⟨⟨m₁, base⟩, hmap, hr⟩ := hr
  obtain ⟨x, rfl, _⟩ := mapRegion_spec h hsize h0 hmap
  rw [Traced.result_bind] at hr
  obtain ⟨⟨m₂, ok₂⟩, hcopy, hr⟩ := hr
  cases hr
  exact ⟨m₁, x, hmap, rfl, hcopy⟩

/-- The sections are laid over the memory one after the other. -/
theorem copySections_reads (hok : (L.region wh).Ok) (hb : (L.region wh).base ≠ 0)
    (hs : (L.region wh).size ≠ 0) {x : ℕ} : ∀ {secs : List Section} {m m' : ModuleSpace},
      m.Inv res ext own ((L.region wh).runs ++ rs) →
      (own (x / 4096) ∨ In ((L.region wh).runs ++ rs) (x / 4096)) →
      (copySections L wh secs m).result = .ok (m', true) →
      m'.mm.vmm.readByte x = lay (secs.map (copyLayer L wh)) m.mm.vmm.readByte x := by
  intro secs
  induction secs with
  | nil =>
    intro m m' _ _ hr
    cases hr
    rfl
  | cons sec secs ih =>
    intro m m' h hx hr
    have hc : copyable L wh sec = true :=
      (copySections_spec hok hb hs h hr).2.2 rfl sec List.mem_cons_self
    obtain ⟨hval, vmm, hw, hsame, hr⟩ := copySections_cons hok hb hs h hc hr
    have hread := h.owned.readByte_writeBytes hx (fun k hk => Or.inr (by
      obtain ⟨r, hr', hin⟩ := in_region hok hb (x := (L.region wh).base + sec.regOff + k)
        (by omega) (by omega)
      exact ⟨r, List.mem_append_left _ hr', hin⟩)) hw
    rw [ih (h.of_same hsame) hx hr, List.map_cons, lay]
    exact lay_congr hread

/-- The pages of a region come into use with frames behind them. -/
theorem Backed.mapRegion {x : ℕ} (hl : Loading res ext own s m' (L.withBase wh x))
    (hbase : (L.region wh).base = 0) (hch : ChangesOnly m m' ((L.withBase wh x).region wh).runs)
    (hnew : ∀ v, In ((L.withBase wh x).region wh).runs v → ∃ f, m'.mm.mapped v = some f)
    (h : Backed m L) : Backed m' (L.withBase wh x) := by
  intro v hv
  by_cases hv' : In ((L.withBase wh x).region wh).runs v
  · exact hnew v hv'
  · rw [hch.mapped v (hl.low hv) hv']
    obtain ⟨r, hr, hin⟩ := hv
    refine h v ⟨r, ?_, hin⟩
    exact (List.mem_append.1 ((L.runs_withBase hbase x).subset hr)).resolve_left
      fun hr' => hv' ⟨r, hr', hin⟩

/-- **`stage1`.** The pages of the region are mapped, and the sections are in place. -/
theorem stage1_reads (wh : Which) (hl : Loading res ext own s m L) (hbase : (L.region wh).base = 0)
    (hsize : (L.region wh).size % 4096 = 0) {ok : Bool}
    (hr : (stage1 m L wh).result = .ok (m', L', ok)) :
    (Backed m L → Backed m' L') ∧ (ok = true → ∃ μ : ℕ → K UInt8,
      (∀ x, In (L.runs ++ runs s.layouts) (x / 4096) → μ x = m.mm.vmm.readByte x) ∧
      ∀ x, In (L'.runs ++ runs s.layouts) (x / 4096) →
        m'.mm.vmm.readByte x = lay (copyLayers L' wh) μ x) := by
  by_cases h0 : (L.region wh).size = 0
  · unfold stage1 at hr
    dsimp only at hr
    rw [if_pos h0] at hr
    cases hr
    refine ⟨id, fun _ => ⟨m.mm.vmm.readByte, fun _ _ => rfl, fun x _ => ?_⟩⟩
    unfold copyLayers copied
    rw [if_pos h0]
    rfl
  · obtain ⟨m₁, x, hmap, rfl, hcopy⟩ := stage1_mapped hl.space hsize h0 hr
    obtain ⟨_, hx, hx0, hok', hinv, hch, hnew⟩ := mapRegion_spec hl.space hsize h0 hmap
    cases hx
    have hreg : (L.withBase wh x).region wh = { L.region wh with base := x } :=
      Layout.region_setRegion _ _ _
    have hb₁ : ((L.withBase wh x).region wh).base ≠ 0 := by rw [hreg]; exact hx0
    have h0₁ : ((L.withBase wh x).region wh).size ≠ 0 := by rw [hreg]; exact h0
    have hsecs : (L.region wh).sections = ((L.withBase wh x).region wh).sections := by rw [hreg]
    rw [hsecs] at hcopy
    obtain ⟨_, hsame, hall⟩ := copySections_spec hok' hb₁ h0₁ hinv hcopy
    have hl₁ := hl.extend hbase hok' hinv hch
    refine ⟨fun hback v hv => ?_, ?_⟩
    · rw [hsame.mapped v (hl₁.low hv)]
      exact hback.mapRegion hl₁ hbase hch hnew v hv
    · rintro rfl
      have hcop : copied (L.withBase wh x) wh = ((L.withBase wh x).region wh).sections := by
        unfold copied
        rw [if_neg h0₁, List.takeWhile_eq_self_iff]
        exact hall rfl
      refine ⟨m₁.mm.vmm.readByte, fun y hy => ?_, fun y hy => ?_⟩
      · exact hl.space.readByte_mapRegion (by omega) hmap (Or.inr hy)
      · unfold copyLayers
        rw [hcop]
        refine copySections_reads hok' hb₁ h0₁ hinv (Or.inr ?_) hcopy
        obtain ⟨r, hr', hin⟩ := hy
        refine ⟨r, ?_, hin⟩
        rw [← List.append_assoc]
        exact ((L.runs_withBase hbase x).append_right _).subset hr'

/-! ## Both regions -/

/-- What the relocations find. -/
structure Ready (res ext own : ℕ → Prop) (s : Linker) (o : Object) (m : ModuleSpace)
    (L : Layout) : Prop where
  plan : ∃ b, L = (plan o).withBases b ∧ ∀ wh, b wh = 0 ↔ ((plan o).region wh).size = 0
  planned : Planned (Linker.plan o)
  obj : L.obj = o
  filled : ∀ wh, filled L wh = true
  loading : Loading res ext own s m L
  backed : Backed m L
  reads : ∃ μ : ℕ → K UInt8, ∀ x, In (L.runs ++ runs s.layouts) (x / 4096) →
    m.mm.vmm.readByte x = lay (copyLayers L .rx ++ copyLayers L .rw) μ x

theorem copyLayers_update {x : ℕ} {wh' : Which} (hne : wh' ≠ wh) :
    copyLayers (L.withBases (Function.update b wh x)) wh' = copyLayers (L.withBases b) wh' := by
  unfold copyLayers
  rw [copied_withBases, copied_withBases]
  refine List.map_congr_left fun sec _ => ?_
  unfold copyLayer
  rw [Layout.region_withBases, Layout.region_withBases, Function.update_of_ne hne]
  rfl

/-- The sections that are copied lie on the pages of their region. -/
theorem Loading.in_of_covers (hl : Loading res ext own s m (L.withBases b)) (wh : Which)
    (hb : b wh = 0 → (L.region wh).size = 0) {l : Layer (K UInt8)}
    (hmem : l ∈ copyLayers (L.withBases b) wh) {x : ℕ} (hx : l.Covers x) :
    In ((L.withBases b).region wh).runs (x / 4096) := by
  obtain ⟨sec, hsec, rfl⟩ := List.mem_map.1 hmem
  rw [copied_withBases] at hsec
  have hb0 : b wh ≠ 0 := fun h => (mem_of_copied hsec).1 (hb h)
  obtain ⟨hlo, hhi, hfit⟩ := hl.fits_copied hb0 hsec
  have h1 : ((L.withBases b).region wh).base + sec.regOff ≤ x := hx.1
  have h2 : x < ((L.withBases b).region wh).base + sec.regOff + sec.size := hx.2
  exact in_region (hl.ok.region wh) (by omega) (by omega) (by omega)

theorem Staged.ready (h : s.space.Inv res ext own (runs s.layouts)) {o : Object}
    (hs : Staged s o m L) : Ready res ext own s o m L := by
  obtain ⟨L₀, m₁, L₁, hs₀, h₁, h₂⟩ := hs
  have hplan : Linker.plan o = L₀ := by unfold Linker.plan; rw [hs₀]
  subst hplan
  obtain ⟨hp, hobj, hsize⟩ := stage0_spec o hs₀
  have hl₀ : Loading res ext own s s.space ((Linker.plan o).withBases fun _ => 0) := by
    rw [← withBases_start hp]; exact loading_start h hp
  have hback₀ : Backed s.space ((Linker.plan o).withBases fun _ => 0) := by
    rintro v ⟨r, hr, _⟩
    cases hr
  rw [withBases_start hp] at h₁
  obtain ⟨_, hret₁⟩ := stage1_events .rx hl₀ rfl (hsize rfl .rx)
  obtain ⟨hback₁, hread₁⟩ := stage1_reads .rx hl₀ rfl (hsize rfl .rx) h₁
  obtain ⟨x, rfl, hx, hf₁, hl₁, _⟩ := hret₁ _ _ _ h₁
  obtain ⟨_, hret₂⟩ := stage1_events .rw hl₁ rfl (hsize rfl .rw)
  obtain ⟨hback₂, hread₂⟩ := stage1_reads .rw hl₁ rfl (hsize rfl .rw) h₂
  obtain ⟨y, rfl, hy, hf₂, hl₂, _⟩ := hret₂ _ _ _ h₂
  obtain ⟨μ, _, hread₁⟩ := hread₁ rfl
  obtain ⟨ν, hν, hread₂⟩ := hread₂ rfl
  refine ⟨⟨_, rfl, fun wh => ?_⟩, hp, ?_, fun wh => ?_, hl₂, hback₂ (hback₁ hback₀), ?_⟩
  · rw [update_rx, update_rw]
    cases wh with
    | rx => exact hx
    | rw => exact hy
  · rw [Layout.obj_withBases]
    exact hobj
  · rw [filled_withBases]
    cases wh with
    | rx => exact hf₁.symm
    | rw => exact hf₂.symm
  · classical
    rw [update_rx] at hl₁ hread₁ hν
    rw [update_rx, update_rw] at hread₂ ⊢
    have hrx : copyLayers ((Linker.plan o).withBases (bases x y)) .rx =
        copyLayers ((Linker.plan o).withBases (bases x 0)) .rx := by
      rw [← update_rw]
      exact copyLayers_update (by decide)
    refine ⟨fun a => if In (((Linker.plan o).withBases (bases x 0)).runs ++ runs s.layouts)
      (a / 4096) then μ a else ν a, fun a ha => ?_⟩
    rw [hread₂ a ha, lay_append]
    refine (lay_congr ?_).symm
    by_cases hin : In (((Linker.plan o).withBases (bases x 0)).runs ++ runs s.layouts) (a / 4096)
    · rw [hν a hin, hread₁ a hin, hrx]
      refine lay_congr ?_
      rw [if_pos hin]
    · rw [hrx, lay_of_forall fun l hmem hc => hin ?_, if_neg hin]
      obtain ⟨r, hr, hin'⟩ := hl₁.in_of_covers .rx (fun hx0 => hx.1 hx0) hmem hc
      refine ⟨r, List.mem_append_left _ ?_, hin'⟩
      exact (Layout.runs_perm_region _ Which.rx.other_ne).symm.subset (List.mem_append_left _ hr)

/-- The sections of the map are in their regions, and on pages that are mapped. -/
theorem Ready.fits {o : Object} (h : Ready res ext own s o m L) {j : ℕ} {sec : Section}
    (hmap : L.map j = some (wh, sec)) (hb : (L.region wh).base ≠ 0) : Fits L wh sec := by
  obtain ⟨b, rfl, hb0⟩ := h.plan
  have hfill := h.filled wh
  rw [filled_withBases] at hfill
  rw [Layout.region_withBases] at hb
  exact h.loading.fits_copied hb
    (copied_of_filled hfill (fun h0 => hb ((hb0 wh).2 h0)) (h.planned.map j wh sec hmap))

theorem Ready.mapped {o : Object} (h : Ready res ext own s o m L) {x : ℕ}
    (hb : (L.region wh).base ≠ 0) (hlo : (L.region wh).base ≤ x)
    (hhi : x < (L.region wh).base + (L.region wh).size) :
    In L.runs (x / 4096) ∧ ∃ f, m.mm.mapped (x / 4096) = some f := by
  obtain ⟨r, hr, hin⟩ := in_region (h.loading.ok.region wh) hb hlo hhi
  have hmem : In L.runs (x / 4096) := ⟨r, (L.runs_perm_region wh.other_ne).symm.subset
    (List.mem_append_left _ hr), hin⟩
  exact ⟨hmem, h.backed _ hmem⟩

/-- **A load that succeeds** has gone through all stages. -/
theorem staged_of_load {o : Object} {i : ℕ}
    (hr : (s.load tab (some o)).result = .ok (s', some i)) :
    ∃ m L, Staged s o m L ∧ (stage2 tab m L).result = .ok (s'.space, true) ∧
      s'.layouts.ptr i = some L := by
  have habort : ∀ {m layouts i L} {r : Linker × Option ℕ}, abort m layouts i L = .ok r →
      r.2 = none := by
    intro m layouts i L r ha
    unfold abort at ha
    rw [K.bind_eq_ok] at ha
    obtain ⟨s₁, _, ha⟩ := ha
    cases ha
    rfl
  rw [load, Traced.result_bind, Traced.result_lift] at hr
  obtain ⟨⟨layouts, j⟩, hi, hr⟩ := hr
  dsimp only at hr
  obtain ⟨⟨L₀, ok₀⟩, hs₀⟩ : ∃ p, stage0 (Layout.new o) = p := ⟨_, rfl⟩
  rw [hs₀] at hr
  dsimp only at hr
  cases ok₀ with
  | false => cases habort hr
  | true =>
    rw [Bool.not_true, if_neg Bool.false_ne_true, Traced.result_bind] at hr
    obtain ⟨⟨m₁, L₁, ok₁⟩, h₁, hr⟩ := hr
    dsimp only at hr
    cases ok₁ with
    | false => cases habort hr
    | true =>
      rw [Bool.not_true, if_neg Bool.false_ne_true, Traced.result_bind] at hr
      obtain ⟨⟨m₂, L₂, ok₂⟩, h₂, hr⟩ := hr
      dsimp only at hr
      cases ok₂ with
      | false => cases habort hr
      | true =>
        rw [Bool.not_true, if_neg Bool.false_ne_true, Traced.result_bind] at hr
        obtain ⟨⟨m₃, ok₃⟩, h₃, hr⟩ := hr
        dsimp only at hr
        cases ok₃ with
        | false => cases habort hr
        | true =>
          cases hr
          obtain ⟨_, _, hsome, _⟩ := StaticArray.emplace_eq_ok hi
          refine ⟨m₂, L₂, ⟨L₀, m₁, L₁, hs₀, h₁, h₂⟩, h₃, ?_⟩
          show (layouts.modify i fun _ => L₂).ptr i = some L₂
          rw [StaticArray.ptr_modify, if_pos rfl, hsome]
          rfl

end

/-- An object goes through the stages in a linker that has just been constructed. -/
theorem exists_staged {o : Object} {p : ModuleSpace → Layout → Bool}
    (h : (do
      let mm ← Mm.init samplePmm (fun _ _ => 0)
      let r₁ ← (stage1 ⟨.empty, mm⟩ (stage0 (Layout.new o)).1 .rx).result
      let r₂ ← (stage1 r₁.1 r₁.2.1 .rw).result
      return ((stage0 (Layout.new o)).2 && r₁.2.2 && r₂.2.2 && p r₂.1 r₂.2.1) : K Bool).holds id =
        true) :
    ∃ s m L, Init s ∧ Staged s o m L ∧ p m L = true := by
  obtain ⟨v, hw, hv⟩ := K.exists_of_holds h
  simp only [K.bind_eq_ok] at hw
  obtain ⟨mm, hmm, ⟨m₁, L₁, ok₁⟩, h₁, ⟨m, L, ok₂⟩, h₂, he⟩ := hw
  cases he
  simp only [id, Bool.and_eq_true] at hv
  obtain ⟨⟨⟨h0, rfl⟩, rfl⟩, hp⟩ := hv
  refine ⟨_, m, L, init_sample hmm, ⟨_, m₁, L₁, ?_, h₁, h₂⟩, hp⟩
  rw [← h0]

end Linker

end Ospp
