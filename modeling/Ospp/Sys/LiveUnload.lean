import Ospp.Sys.LinkerUnload
import Ospp.Sys.LiveRestore

/-!
# The end of the linker

Unloading a live layout gives its pages and its units back without a panic, whatever has been loaded
and unloaded before; only the calls of the heap that delete the layout can stop it
(`Inv.unloadLocked_error`). So the destructor of the linker, which unloads the first live layout
until none is left, ends after one round for each of them, or in a call of the heap.
-/

namespace Ospp

namespace LiveLinker

open Linker Trans

/-! ## Unloading returns -/

section

variable {res ext own : ℕ → Prop} {tab : List KexpEntry} {s₀ s s' : LiveLinker} {m : ModuleSpace}
  {e : ℕ} {L : Layout} {calls : LoadCalls} {release : List HeapEffect}

/-- Only the calls of the heap stop an unload. -/
theorem Inv.unloadLocked_error (h : Inv res ext own s₀ s) {i : ℕ}
    (hL : s.linker.layouts.ptr i = some L) {err : Halt}
    (hu : s.unloadLocked i release = .error err) :
    ∃ m, LiveLinker.heapCall m s.heapEnd release = .error err := by
  have hgone : (s.linker.layouts.erase i).ptr i = none := by
    rw [StaticArray.ptr_erase, if_pos rfl]
  have hrest : ∀ j, j ≠ i → s.linker.layouts.ptr j = (s.linker.layouts.erase i).ptr j := by
    intro j hj
    rw [StaticArray.ptr_erase, if_neg hj]
  obtain ⟨m₁, h₁⟩ := exists_unloadRegions
    (h.space.perm (runs_fill (StaticArray.ptr_lt hL) hgone hL hrest)) (h.ok i L hL)
  unfold unloadLocked at hu
  rw [hL] at hu
  dsimp only at hu
  rw [h₁, K.bind_eq_error] at hu
  rcases hu with hu | ⟨a, ha, hu⟩
  · cases hu
  cases ha
  rw [K.bind_eq_error] at hu
  rcases hu with hu | ⟨p, _, hu⟩
  · exact ⟨m₁, hu⟩
  · cases hu

/-! ## The table of layouts -/

theorem layouts_unload {i : ℕ} (hL : s.linker.layouts.ptr i = some L)
    (hu : s.unloadLocked i release = .ok s') :
    s'.linker.layouts = s.linker.layouts.erase i := by
  unfold unloadLocked at hu
  rw [hL] at hu
  simp only [K.bind_eq_ok] at hu
  obtain ⟨_, _, _, _, hu⟩ := hu
  cases hu
  rfl

theorem counted_unload (h : s.linker.layouts.Counted) {i : ℕ}
    (hu : s.unloadLocked i release = .ok s') : s'.linker.layouts.Counted := by
  cases hL : s.linker.layouts.ptr i with
  | none =>
    unfold unloadLocked at hu
    rw [hL] at hu
    cases hu
    exact h
  | some L =>
    rw [layouts_unload hL hu]
    exact h.erase i

theorem slotted_abort {t layouts : StaticArray Layout 64} {x : Layout} {i : ℕ} {r : Option ℕ}
    (hi : t.emplace x = .ok (layouts, i)) (ha : abort m e layouts i L release = .ok (s', r)) :
    Slotted t s'.linker.layouts r := by
  unfold abort at ha
  rw [K.bind_eq_ok] at ha
  obtain ⟨s₁, hu, ha⟩ := ha
  cases ha
  exact ⟨fun hc => counted_unload ((hc.emplace hi).modify i fun _ => L) hu, fun j hj => by cases hj⟩

theorem slotted_load {o : Option Object} {r : Option ℕ}
    (hr : (load tab calls s o).result = .ok (s', r)) :
    Slotted s.linker.layouts s'.linker.layouts r := by
  cases o with
  | none =>
    cases hr
    exact ⟨fun hc => hc, fun i hi => by cases hi⟩
  | some o =>
    rw [load, Traced.result_bind] at hr
    obtain ⟨⟨layouts, i⟩, hi, hr⟩ := hr
    rw [Traced.result_bind] at hr
    obtain ⟨⟨m₁, e₁, P, ok₀⟩, _, hr⟩ := hr
    dsimp only at hr
    cases ok₀ with
    | false => exact slotted_abort hi hr
    | true =>
      rw [Bool.not_true, if_neg Bool.false_ne_true, Traced.result_bind] at hr
      obtain ⟨⟨m₂, L₁, ok₁⟩, _, hr⟩ := hr
      dsimp only at hr
      cases ok₁ with
      | false => exact slotted_abort hi hr
      | true =>
        rw [Bool.not_true, if_neg Bool.false_ne_true, Traced.result_bind] at hr
        obtain ⟨⟨m₃, L₂, ok₂⟩, _, hr⟩ := hr
        dsimp only at hr
        cases ok₂ with
        | false => exact slotted_abort hi hr
        | true =>
          rw [Bool.not_true, if_neg Bool.false_ne_true, Traced.result_bind] at hr
          obtain ⟨⟨m₄, ok₃⟩, _, hr⟩ := hr
          dsimp only at hr
          cases ok₃ with
          | false => exact slotted_abort hi hr
          | true =>
            cases hr
            exact ⟨fun hc => (hc.emplace hi).modify i _,
              fun j hj => by cases hj; exact StaticArray.findFreeSlot_of_emplace hi⟩

theorem counted_run {as : List Act} (h : s.linker.layouts.Counted)
    (hrun : Run (Step tab) s as s') : s'.linker.layouts.Counted := by
  refine Run.invariant (I := fun s : LiveLinker => s.linker.layouts.Counted) (C := fun _ _ => True)
    (fun s a s' hI _ hs => ?_) hrun (along_true _ _) h
  cases a with
  | load o calls =>
    obtain ⟨r, hr⟩ := hs
    exact (slotted_load hr).counted hI
  | unload i release => exact counted_unload hI hs.2
  | heap as =>
    obtain ⟨m, e, _, rfl⟩ := hs
    exact hI

theorem Init.counted (h : Init s) : s.linker.layouts.Counted := by
  obtain ⟨_, _, _, _, _, rfl, _⟩ := h
  exact StaticArray.counted_empty

/-! ## The destructor -/

/-- The loop of `~Linker`, with the number of rounds it may take, and what the calls of the heap do
that delete the layout of a slot. The inner loop looks for the first live layout, and unloads it. -/
def destruct (release : ℕ → List HeapEffect) : ℕ → LiveLinker → K LiveLinker
  | 0, _ => .error .diverged
  | fuel + 1, s =>
    if s.linker.layouts.isEmpty then .ok s
    else
      match (List.range 64).find? s.linker.layouts.occupied with
      | none => destruct release fuel s
      | some i => do
        let s ← s.unloadLocked i (release i)
        destruct release fuel s

/-- Nothing is left of what has been loaded since `s₀` but page tables and pages of the heap. -/
structure Emptied (s₀ s : LiveLinker) : Prop where
  slots : ∀ i, s.linker.layouts.ptr i = none
  bitmap : ∀ k < moduleSpacePageCount, s.linker.space.lmm.testBit k = false
  frames : ∀ k, s.linker.space.mm.pmm.used k = true ↔
    (s₀.linker.space.mm.pmm.used k = true ∧ ¬ s₀.HeapFrame k) ∨
      (∃ j < 1023, s.linker.space.mm.table j = some k) ∨ s.HeapFrame k
  pages : ∀ v, Window v → s.linker.space.mm.mapped v = none ∨
    s.linker.space.mm.mapped v = s₀.linker.space.mm.mapped v
  kept : ∀ v, v / 1024 < 1023 → ¬ Window v → ¬ Mm.HeapWindow v →
    s.linker.space.mm.mapped v = s₀.linker.space.mm.mapped v

theorem Inv.emptied (h : Inv res ext own s₀ s) (hout : ∀ v, own v → ¬ Mm.HeapWindow v)
    (h₀ : Inv res ext own s₀ s₀) (hempty : runs s₀.linker.layouts = [])
    (hslots : ∀ i, s.linker.layouts.ptr i = none) : Emptied s₀ s := by
  obtain ⟨hbits, hframes, hpages⟩ := h.accounts hout h₀ hempty
  rw [runs_of_slots hslots] at hbits hframes hpages
  have hnil : ∀ v, ¬ In [] v := fun v ⟨r, hr, _⟩ => absurd hr List.not_mem_nil
  refine ⟨hslots, fun k hk => ?_, fun k => ?_, fun v hv => hpages v hv (hnil v), h.kept⟩
  · rw [← Bool.not_eq_true, hbits k hk]
    rintro ⟨r, hr, _⟩
    exact absurd hr List.not_mem_nil
  · rw [hframes k]
    refine or_congr_right (or_congr_right (or_iff_left ?_))
    rintro ⟨v, hv, _⟩
    exact hnil v hv

/-- A call of the heap that deletes a layout has stopped the kernel. -/
def HeapStops (release : ℕ → List HeapEffect) (err : Halt) : Prop :=
  ∃ i m e, LiveLinker.heapCall m e (release i) = .error err

/-- Each round unloads one layout, which keeps the invariant. -/
theorem destruct_spec (release : ℕ → List HeapEffect) (hout : ∀ v, own v → ¬ Mm.HeapWindow v) :
    ∀ {fuel : ℕ} {s : LiveLinker}, Inv res ext own s₀ s → s.linker.layouts.Counted →
      s.linker.layouts.liveCount < fuel →
      (∀ s', s.destruct release fuel = .ok s' →
        Inv res ext own s₀ s' ∧ ∀ i, s'.linker.layouts.ptr i = none) ∧
      ∀ err, s.destruct release fuel = .error err → HeapStops release err := by
  intro fuel
  induction fuel with
  | zero => intro s _ _ hlt; omega
  | succ fuel ih =>
    intro s h hc hlt
    rw [destruct]
    by_cases he : s.linker.layouts.isEmpty = true
    · rw [if_pos he]
      refine ⟨fun s' hs' => ?_, fun err herr => by cases herr⟩
      cases hs'
      refine ⟨h, fun i => ?_⟩
      rw [← StaticArray.occupied_eq_false]
      exact (hc.represents.empty_iff.1 he) i
    rw [if_neg he]
    obtain ⟨i, L, hf, hL, hpos⟩ := exists_live hc (by simpa using he)
    rw [hf]
    dsimp only
    have hnext : ∀ s₁, s.unloadLocked i (release i) = .ok s₁ →
        (∀ s', s₁.destruct release fuel = .ok s' →
          Inv res ext own s₀ s' ∧ ∀ i, s'.linker.layouts.ptr i = none) ∧
        ∀ err, s₁.destruct release fuel = .error err → HeapStops release err := by
      intro s₁ hu
      refine ih (h.unload hout hL hu).1 (counted_unload hc hu) ?_
      rw [layouts_unload hL hu,
        StaticArray.liveCount_erase (StaticArray.occupied_iff.2 ⟨L, hL⟩)]
      omega
    constructor
    · intro s' hs'
      rw [K.bind_eq_ok] at hs'
      obtain ⟨s₁, hu, hs'⟩ := hs'
      exact (hnext s₁ hu).1 s' hs'
    · intro err herr
      rw [K.bind_eq_error] at herr
      rcases herr with hu | ⟨s₁, hu, herr⟩
      · obtain ⟨m, hm⟩ := h.unloadLocked_error hL hu
        exact ⟨i, m, s.heapEnd, hm⟩
      · exact (hnext s₁ hu).2 err herr

end

/-- **The destructor of the linker.** Whatever has been loaded and unloaded before, it ends after at
most 64 unloads and leaves nothing but page tables and pages of the heap, unless a call of the heap
stops it. -/
theorem linker_destruct (tab : List KexpEntry) (s₀ s : LiveLinker) (h₀ : Init s₀) (as : List Act)
    (hrun : Run (Step tab) s₀ as s) (release : ℕ → List HeapEffect) :
    (∀ s', s.destruct release 65 = .ok s' → Emptied s₀ s') ∧
      ∀ err, s.destruct release 65 = .error err → HeapStops release err := by
  obtain ⟨res, ext, own, hout, hempty, hI₀⟩ := inv_init h₀
  have hc := counted_run h₀.counted hrun
  obtain ⟨hok, herr⟩ := destruct_spec release hout (inv_run hout hI₀ hrun) hc
    (Nat.lt_succ_of_le hc.le)
  refine ⟨fun s' hs' => ?_, herr⟩
  obtain ⟨hI, hslots⟩ := hok s' hs'
  exact hI.emptied hout hI₀ hempty hslots

/-- Two objects are loaded, and the linker is destroyed. -/
theorem linker_destruct_sample : ∃ s₀ s s', Init s₀ ∧
    Run (Step []) s₀ [.load (some (lowObject (lowWords 0))) growingCalls,
      .load (some (lowObject (lowWords 0))) quietCalls] s ∧ s.linker.layouts.liveCount = 2 ∧
    s.destruct (fun _ => []) 65 = .ok s' ∧ Emptied s₀ s' := by
  obtain ⟨⟨mm, s₁, s₂, s'⟩, hw, hp⟩ := K.exists_of_holds
    (x := do
      let mm ← Mm.init samplePmm (sampleMemory (lowWords 0))
      let r₁ ← (load [] growingCalls (freshLinker mm) (some (lowObject (lowWords 0)))).result
      let r₂ ← (load [] quietCalls r₁.1 (some (lowObject (lowWords 0)))).result
      let s' ← r₂.1.destruct (fun _ => []) 65
      return (mm, r₁.1, r₂.1, s'))
    (p := fun r => r.2.2.1.linker.layouts.liveCount == 2) (by decide +kernel)
  simp only [K.bind_eq_ok] at hw
  obtain ⟨_, hmm, ⟨s₁, r₁⟩, h₁, ⟨s₂, r₂⟩, h₂, _, hd, he⟩ := hw
  cases he
  have hrun : Run (Step []) (freshLinker mm)
      [.load (some (lowObject (lowWords 0))) growingCalls,
        .load (some (lowObject (lowWords 0))) quietCalls] s₂ :=
    .cons ⟨r₁, h₁⟩ (.cons ⟨r₂, h₂⟩ (.nil _))
  exact ⟨freshLinker mm, s₂, s', init_fresh hmm, hrun, eq_of_beq hp, hd,
    (linker_destruct [] _ s₂ (init_fresh hmm) _ hrun fun _ => []).1 s' hd⟩

end LiveLinker

end Ospp
