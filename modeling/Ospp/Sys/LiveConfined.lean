import Ospp.Sys.LiveRestore

/-!
# Where a load writes in live memory

Every write in the module window is announced by an event, which holds what the load has read for
it: the layout, the section, and the entry of a relocation. A write is confined (`Confined`) exactly
when the load is clean up to it (`Event.Clean`): the section that is copied shares no offset with
another of its region, and the entry that is applied has an offset for which `r.offset + 4` does not
wrap. Whether an entry has is known only when it is read: the table it stands in may have been
changed by the entries before it.
-/

namespace Ospp

namespace LiveLinker

open Linker Trans

/-- The bytes that are written. -/
def Event.write (ev : Event) : Write :=
  match ev.cause with
  | .copy => copyWrite ev.layout ev.which ev.sec
  | .patch r => patchWrite ev.layout ⟨ev.which, ev.sec, r⟩

/-- A section that is copied shares no offset with another of its region, and the offset of an entry
is none of the last four. -/
def Event.Clean (ev : Event) : Prop :=
  match ev.cause with
  | .copy => ∀ sec' ∈ (ev.layout.region ev.which).sections, sec' ≠ ev.sec →
      ∀ x, ev.sec.Has x → ¬ sec'.Has x
  | .patch r => r.offset ≤ 0xFFFFFFFB

/-- Two sections share no offset. -/
theorem has_disjoint_iff {sec sec' : Section} : (∀ x, sec.Has x → ¬ sec'.Has x) ↔
    sec.size = 0 ∨ sec'.size = 0 ∨ sec.regOff + sec.size ≤ sec'.regOff ∨
      sec'.regOff + sec'.size ≤ sec.regOff := by
  unfold Section.Has
  constructor
  · intro h
    by_contra hno
    exact h (max sec.regOff sec'.regOff) (by omega) (by omega)
  · intro h x hx hx'
    omega

instance (ev : Event) : Decidable ev.Clean :=
  match hc : ev.cause with
  | .copy => decidable_of_iff (∀ sec' ∈ (ev.layout.region ev.which).sections, sec' ≠ ev.sec →
      ev.sec.size = 0 ∨ sec'.size = 0 ∨ ev.sec.regOff + ev.sec.size ≤ sec'.regOff ∨
        sec'.regOff + sec'.size ≤ ev.sec.regOff) (by
      unfold Event.Clean
      rw [hc]
      simp only [has_disjoint_iff])
  | .patch r => decidable_of_iff (r.offset ≤ 0xFFFFFFFB) (by unfold Event.Clean; rw [hc])

section

variable {res ext own : ℕ → Prop} {tab : List KexpEntry} {s : LiveLinker} {l : Linker}
  {m : ModuleSpace} {P : Layout} {b : Which → ℕ}

/-! ## What is known of a write -/

/-- The write is for a section of a mapped region that passes the checks, and the other region, if
it is mapped, has passed them altogether. -/
structure Begun (l : Linker) (P : Layout) (b : Which → ℕ) (ev : Event) : Prop where
  layout : ev.layout = P.withBases b
  loading : ∃ res ext own m₀ m, Loading res ext own ⟨m₀, l.layouts⟩ m (P.withBases b)
  base : b ev.which ≠ 0
  size : (P.region ev.which).size ≠ 0
  mem : ev.sec ∈ (P.region ev.which).sections
  passed : copyable P ev.which ev.sec = true
  other : Filled P b ev.which.other

theorem Begun.fits {ev : Event} (h : Begun l P b ev) : Linker.Fits ev.layout ev.which ev.sec := by
  obtain ⟨_, _, _, m₀, _, hl⟩ := h.loading
  rw [h.layout]
  exact fits_of_copyable hl h.base h.size h.passed

theorem Begun.sections {ev : Event} (h : Begun l P b ev) (wh : Which) :
    (ev.layout.region wh).sections = (P.region wh).sections := by
  rw [h.layout, Layout.region_withBases]

/-- A write in its own section is confined if no other section of the region shares an offset with
that one. -/
theorem Begun.confined {ev : Event} (h : Begun l P b ev)
    (hlay : ev.write.layout = ev.layout ∧ ev.write.which = ev.which ∧ ev.write.sec = ev.sec)
    (hown : ∀ x, ev.write.Touches x → Occupies ev.layout ev.which ev.sec x)
    (hapart : ∀ sec' ∈ (P.region ev.which).sections, sec' ≠ ev.sec →
      ∀ x, ev.sec.Has x → ¬ sec'.Has x) : Linker.Confined l ev.write := by
  obtain ⟨_, _, _, m₀, _, hl⟩ := h.loading
  obtain ⟨h1, h2, h3⟩ := hlay
  rw [← h.layout] at hl
  suffices hc : Linker.Confined ⟨m₀, l.layouts⟩ ev.write from ⟨hc.own, hc.neighbours, hc.others⟩
  refine confined_of_own (by rw [h1]; exact hl) (by rw [h1, h2, h3]; exact h.fits)
    (by rw [h1, h2, h3]; exact hown) ?_ ?_
  · rw [h1, h2, h3, h.sections]
    exact hapart
  · rw [h1, h2, h.sections]
    intro sec' hsec' hb
    rw [h.layout, Layout.region_withBases] at hb
    obtain ⟨h0, hc⟩ := h.other hb
    rw [h.layout] at hl ⊢
    exact fits_of_copyable hl hb h0 (hc sec' hsec')

/-- **The copy of a section.** -/
theorem Begun.copy_iff {ev : Event} (h : Begun l P b ev) (hcause : ev.cause = .copy) :
    Linker.Confined l ev.write ↔ ev.Clean := by
  have hw : ev.write = copyWrite ev.layout ev.which ev.sec := by unfold Event.write; rw [hcause]
  have hclean : ev.Clean ↔ ∀ sec' ∈ (P.region ev.which).sections, sec' ≠ ev.sec →
      ∀ x, ev.sec.Has x → ¬ sec'.Has x := by
    unfold Event.Clean
    rw [hcause, ← h.sections]
  have hmem : ev.sec ∈ (ev.layout.region ev.which).sections := by rw [h.sections]; exact h.mem
  rw [hclean]
  constructor
  · intro hc sec' hsec' hne x hx
    rw [hw, h.layout] at hc
    have hfit := h.fits
    rw [h.layout] at hfit
    exact apart_of_confined hfit h.base h.mem hsec' hne hc x hx
  · intro hapart
    refine h.confined (by rw [hw]; exact ⟨rfl, rfl, rfl⟩) (fun x hx => ?_) hapart
    rw [hw] at hx
    exact (copyWrite_own h.fits hmem x).1 hx

/-- **The word of an entry.** -/
theorem Begun.patch_iff {ev : Event} (h : Begun l P b ev) {r : Rel}
    (hcause : ev.cause = .patch r) (hlt : r.offset < 4294967296)
    (hsz : ¬ ev.sec.size < Word32.add r.offset 4)
    (hapart : ∀ sec' ∈ (P.region ev.which).sections, sec' ≠ ev.sec →
      ∀ x, ev.sec.Has x → ¬ sec'.Has x) : Linker.Confined l ev.write ↔ ev.Clean := by
  have hw : ev.write = patchWrite ev.layout ⟨ev.which, ev.sec, r⟩ := by
    unfold Event.write; rw [hcause]
  have hclean : ev.Clean ↔ r.offset ≤ 0xFFFFFFFB := by unfold Event.Clean; rw [hcause]
  have hmem : ev.sec ∈ (ev.layout.region ev.which).sections := by rw [h.sections]; exact h.mem
  have hpatch := patchWrite_own (p := ⟨ev.which, ev.sec, r⟩) h.fits hmem hlt hsz
  rw [hclean, ← hpatch]
  constructor
  · intro hc
    have := hc.own
    rw [hw] at this
    exact this
  · intro hown
    refine h.confined (by rw [hw]; exact ⟨rfl, rfl, rfl⟩) ?_ hapart
    rw [hw]
    exact hown

/-! ## The writes of a load -/

/-- An event of a load: the copy of a section, or an entry for a section that has been copied. -/
structure Announced (l : Linker) (trace : List Event) (ev : Event) : Prop where
  begun : ∃ P b, Begun l P b ev
  patch : ∀ r, ev.cause = .patch r → r.offset < 4294967296 ∧
    ¬ ev.sec.size < Word32.add r.offset 4 ∧
    ∃ ev' ∈ trace, ev'.cause = .copy ∧ ev'.which = ev.which ∧ ev'.sec = ev.sec ∧
      (ev'.layout.region ev.which).sections = (ev.layout.region ev.which).sections

/-- When both regions are mapped, each section of theirs has been copied. -/
theorem copied {m₁ m₂ m₃ : ModuleSpace} {P : Layout} {x y : ℕ} {wh : Which} {sec : Section}
    (h₁ : (stage1 m₁ (P.withBases fun _ => 0) .rx).result = .ok (m₂, P.withBases (bases x 0), true))
    (h₂ : (stage1 m₂ (P.withBases (bases x 0)) .rw).result =
      .ok (m₃, P.withBases (bases x y), true))
    (h0 : (P.region wh).size ≠ 0) (hmem : sec ∈ (P.region wh).sections) :
    ∃ ev, (ev ∈ (stage1 m₁ (P.withBases fun _ => 0) .rx).trace ∨
      ev ∈ (stage1 m₂ (P.withBases (bases x 0)) .rw).trace) ∧ ev.cause = .copy ∧ ev.which = wh ∧
      ev.sec = sec ∧ (ev.layout.region wh).sections = (P.region wh).sections := by
  have hsections : ∀ b, ((P.withBases b).region wh).sections = (P.region wh).sections := by
    intro b
    rw [Layout.region_withBases]
  have h0' : ∀ b, ((P.withBases b).region wh).size ≠ 0 := by
    intro b
    rw [Layout.region_withBases]
    exact h0
  cases wh with
  | rx =>
    have hin := stage1_complete (h0' _) h₁ sec (by rw [hsections]; exact hmem)
    exact ⟨_, Or.inl hin, rfl, rfl, rfl, hsections _⟩
  | rw =>
    have hin := stage1_complete (h0' _) h₂ sec (by rw [hsections]; exact hmem)
    exact ⟨_, Or.inr hin, rfl, rfl, rfl, hsections _⟩

/-- **Every write of a load**, as far as it gets. -/
theorem load_announced (h : s.linker.space.Inv res ext (withHeap own s.heapEnd)
      (runs s.linker.layouts)) (he : HeapEndOk s.heapEnd)
    (hout : ∀ v, own v → ¬ Mm.HeapWindow v) {calls : LoadCalls} {o : Option Object} {ev : Event}
    (hev : ev ∈ (load tab calls s o).trace) :
    Announced s.linker (load tab calls s o).trace ev := by
  cases o with
  | none => cases hev
  | some o =>
    rw [load] at hev ⊢
    rcases Traced.mem_trace_bind.1 hev with hev | ⟨⟨layouts, i⟩, hi, hev⟩
    · cases hev
    rcases Traced.mem_trace_bind.1 hev with hev | ⟨⟨m₁, e₁, P, ok₀⟩, hs₀, hev⟩
    · cases hev
    obtain ⟨hmove, hp, hP, hl₀, hsize⟩ := loading_of_stage0 h he hout hs₀
    cases ok₀ with
    | false => cases hev
    | true =>
      dsimp only at hev
      rw [Bool.not_true, if_neg Bool.false_ne_true, hP] at hev
      have hst₁ := stage1_bases hl₀ rfl (hsize rfl .rx)
      rcases Traced.mem_trace_bind.1 hev with hev | ⟨⟨m₂, L₁, ok₁⟩, h₁, hev⟩
      · obtain ⟨x, m, hl, hx, h0, sec, hsec, hc, rfl⟩ := hst₁.events _ hev
        rw [update_rx] at hl ⊢
        exact ⟨⟨P, _, rfl, ⟨_, _, _, _, _, hl⟩, hx, h0, hsec, hc, fun hb => absurd rfl hb⟩,
          fun r hr => by cases hr⟩
      obtain ⟨x, rfl, hl₁, hf₁⟩ := hst₁.value _ h₁
      rw [update_rx] at hl₁ hf₁ hev
      dsimp only at hev hf₁
      cases ok₁ with
      | false => cases hev
      | true =>
        rw [Bool.not_true, if_neg Bool.false_ne_true] at hev
        have hst₂ := stage1_bases hl₁ rfl (hsize rfl .rw)
        rcases Traced.mem_trace_bind.1 hev with hev | ⟨⟨m₃, L₂, ok₂⟩, h₂, hev⟩
        · obtain ⟨y, m, hl, hy, h0, sec, hsec, hc, rfl⟩ := hst₂.events _ hev
          rw [update_rw] at hl ⊢
          exact ⟨⟨P, _, rfl, ⟨_, _, _, _, _, hl⟩, hy, h0, hsec, hc, fun hb => hf₁ rfl hb⟩,
            fun r hr => by cases hr⟩
        obtain ⟨y, rfl, hl₂, hf₂⟩ := hst₂.value _ h₂
        rw [update_rw] at hl₂ hf₂ hev
        dsimp only at hev hf₂
        cases ok₂ with
        | false => cases hev
        | true =>
          rw [Bool.not_true, if_neg Bool.false_ne_true] at hev
          have hfill : ∀ wh, Filled P (bases x y) wh := by
            intro wh
            cases wh
            · exact hf₁ rfl
            · exact hf₂ rfl
          have hst₃ : (stage2 tab m₃ (P.withBases (bases x y))).Ensures
              (Applied (P.withBases (bases x y))) _ :=
            relocateSections_ensures (mapFits_of_filled hp hl₂ hfill) hl₂.space
          rcases Traced.mem_trace_bind.1 hev with hev | ⟨⟨m₄, ok₃⟩, _, hev⟩
          · obtain ⟨r, hcause, hlay, ⟨j, hmap⟩, hb, hlt, hsz⟩ := hst₃.events _ hev
            rw [Layout.region_withBases] at hb
            obtain ⟨h0, hc⟩ := hfill _ hb
            have hmem := hp.map j _ _ hmap
            refine ⟨⟨P, _, hlay, ⟨_, _, _, _, _, hl₂⟩, hb, h0, hmem, hc _ hmem, hfill _⟩,
              fun r' hr' => ?_⟩
            rw [hcause] at hr'
            cases hr'
            refine ⟨hlt, hsz, ?_⟩
            obtain ⟨ev', hin, hcopy, hwhich, hsec, hsecs⟩ := copied h₁ h₂ h0 hmem
            have hsecs' : (ev'.layout.region ev.which).sections =
                (ev.layout.region ev.which).sections := by
              rw [hsecs, hlay, Layout.region_withBases]
            refine ⟨ev', Traced.mem_trace_bind.2 (Or.inr ⟨_, hi,
              Traced.mem_trace_bind.2 (Or.inr ⟨_, hs₀, ?_⟩)⟩), hcopy, hwhich, hsec, hsecs'⟩
            dsimp only
            rw [Bool.not_true, if_neg Bool.false_ne_true, hP]
            refine Traced.mem_trace_bind.2 (hin.imp_right fun hin => ⟨_, h₁, ?_⟩)
            dsimp only
            rw [Bool.not_true, if_neg Bool.false_ne_true, update_rx]
            exact Traced.mem_trace_bind.2 (Or.inl hin)
          · dsimp only at hev
            split_ifs at hev <;> cases hev

/-- Where every section that is copied keeps clear of the others, a write is confined exactly when
the step is clean. -/
theorem Announced.confined_iff {trace : List Event} {ev : Event} (h : Announced l trace ev)
    (hcopies : ∀ ev' ∈ trace, ev'.cause = .copy → ev'.Clean) :
    Linker.Confined l ev.write ↔ ev.Clean := by
  obtain ⟨P, b, hbegun⟩ := h.begun
  cases hcause : ev.cause with
  | copy => exact hbegun.copy_iff hcause
  | patch r =>
    obtain ⟨hlt, hsz, ev', hin, hcopy, hwhich, hsec, hsecs⟩ := h.patch r hcause
    have hclean := hcopies ev' hin hcopy
    unfold Event.Clean at hclean
    rw [hcopy, hwhich, hsec, hsecs, hbegun.sections] at hclean
    exact hbegun.patch_iff hcause hlt hsz hclean

end

/-- **Loading is confined** exactly when every step is clean. In every state the linker can reach,
for every object and whatever memory holds where it lies: all writes of a load, also of one that
halts, are confined if and only if each section that is copied shares no offset with another of its
region, and each entry that is applied has, when it is read, none of the last four offsets. -/
theorem load_confined_iff (tab : List KexpEntry) (s₀ s : LiveLinker) (h₀ : Init s₀)
    (as : List Act) (hrun : Run (Step tab) s₀ as s) (o : Option Object) (calls : LoadCalls) :
    (∀ ev ∈ (load tab calls s o).trace, Linker.Confined s.linker ev.write) ↔
      ∀ ev ∈ (load tab calls s o).trace, ev.Clean := by
  obtain ⟨res, ext, own, hout, _, hI₀⟩ := inv_init h₀
  have hI := inv_run hout hI₀ hrun
  have hann : ∀ ev ∈ (load tab calls s o).trace, Announced s.linker (load tab calls s o).trace ev :=
    fun ev hev => load_announced hI.space hI.heap hout hev
  constructor
  · intro hall
    have hcopies : ∀ ev ∈ (load tab calls s o).trace, ev.cause = .copy → ev.Clean := by
      intro ev hev hcopy
      obtain ⟨P, b, hbegun⟩ := (hann ev hev).begun
      exact (hbegun.copy_iff hcopy).1 (hall ev hev)
    exact fun ev hev => ((hann ev hev).confined_iff hcopies).1 (hall ev hev)
  · intro hall ev hev
    exact ((hann ev hev).confined_iff fun ev' hev' _ => hall ev' hev').2 (hall ev hev)

/-- The small object with its entry at offset 0. -/
theorem load_confined_sample : ∃ s, Init s ∧
    (load [] quietCalls s (some (lowObject (lowWords 0)))).trace ≠ [] ∧
    ∀ ev ∈ (load [] quietCalls s (some (lowObject (lowWords 0)))).trace,
      Linker.Confined s.linker ev.write := by
  obtain ⟨mm, hmm, hp⟩ := K.exists_of_holds (x := Mm.init samplePmm (sampleMemory (lowWords 0)))
    (p := fun mm =>
      let t := (load [] quietCalls (freshLinker mm) (some (lowObject (lowWords 0)))).trace
      t.length == 3 && t.all fun ev => decide ev.Clean) (by decide +kernel)
  simp only [Bool.and_eq_true, List.all_eq_true, decide_eq_true_eq, beq_iff_eq] at hp
  refine ⟨_, init_fresh hmm, fun hnil => ?_,
    (load_confined_iff [] _ _ (init_fresh hmm) [] (.nil _) _ quietCalls).2 hp.2⟩
  rw [hnil] at hp
  cases hp.1

/-- With the offset `0xFFFFFFFC`, for which the check reads 0, the word before the second section is
patched: its last two bytes are those of the gap, its first two belong to the first section. -/
theorem word_before_section_patched : ∃ s, Init s ∧
    ∃ ev ∈ (load [] quietCalls s (some (lowObject (lowWords 0xFFFFFFFC)))).trace,
      ¬ Linker.Confined s.linker ev.write := by
  obtain ⟨mm, hmm, hp⟩ := K.exists_of_holds
    (x := Mm.init samplePmm (sampleMemory (lowWords 0xFFFFFFFC)))
    (p := fun mm =>
      (load [] quietCalls (freshLinker mm) (some (lowObject (lowWords 0xFFFFFFFC)))).trace.any
        fun ev => ev.write.addr == 0xA000004 && ev.write.len == 4 &&
          (ev.write.layout.region ev.write.which).base + ev.write.sec.regOff == 0xA000008)
    (by decide +kernel)
  obtain ⟨ev, hev, hp⟩ := List.any_eq_true.1 hp
  simp only [Bool.and_eq_true, beq_iff_eq] at hp
  obtain ⟨⟨ha, hl⟩, hs⟩ := hp
  refine ⟨_, init_fresh hmm, ev, hev, fun hc => ?_⟩
  have htouch : ev.write.Touches 0xA000004 := ⟨by omega, by omega⟩
  have := (hc.own _ htouch).lo
  omega

end LiveLinker

end Ospp
