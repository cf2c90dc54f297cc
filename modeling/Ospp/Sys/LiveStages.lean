import Ospp.Sys.LinkerConfined
import Ospp.Sys.LiveLinker

/-!
# The stages of a load in live memory

Whatever `load` reads, what it does to the account of the pages is what the stages do to it: calls
of the heap move the heap's pages, `stage1` maps the pages of a region, and everything else changes
contents of memory, of frames that hold no tables.

The results are in two forms: what holds of the state after a stage, and what is known of every
write when it is made (`Started`), also if the load stops later.
-/

namespace Ospp

/-! ## Reading and copying -/

namespace Vmm

theorem read32_lt {m : Vmm} {a w : ℕ} (h : m.read32 a = .ok w) : w < 4294967296 := by
  unfold read32 at h
  simp only [K.bind_eq_ok] at h
  obtain ⟨b₀, _, b₁, _, b₂, _, b₃, _, h⟩ := h
  cases h
  have h0 := b₀.toNat_lt
  have h1 := b₁.toNat_lt
  have h2 := b₂.toNat_lt
  have h3 := b₃.toNat_lt
  omega

end Vmm

theorem Mm.Owned.copyBytes {s : Mm} {res ext own : ℕ → Prop} (h : s.Owned res ext own)
    {dst src : ℕ} : ∀ {n : ℕ} {vmm : Vmm}, identityPages * 4096 ≤ dst → dst + n ≤ 1047552 * 4096 →
      s.vmm.copyBytes dst src n = .ok vmm → SameTables s ⟨s.pmm, vmm⟩ := by
  intro n
  induction n with
  | zero => intro vmm _ _ hw; cases hw; exact .refl _
  | succ n ih =>
    intro vmm hlo hhi hw
    unfold identityPages at hlo
    simp only [Vmm.copyBytes, K.bind_eq_ok] at hw
    obtain ⟨vmm₁, h₁, b, _, hw⟩ := hw
    have hs₁ := ih (by unfold identityPages; omega) (by omega) h₁
    rw [Word32.add_eq (by omega)] at hw
    exact hs₁.trans ((h.of_same hs₁).writeByte (by unfold identityPages; omega) (by omega) hw)

/-! ## Calls of the heap -/

/-- The pages `own`, and those of a heap that ends at `e`. -/
def withHeap (own : ℕ → Prop) (e v : ℕ) : Prop := own v ∨ Mm.heapHas (some e) v

namespace LiveLinker

open Linker Trans

section

variable {res ext own : ℕ → Prop} {rs : List PageRun} {m m' : ModuleSpace} {e e' : ℕ}
  {L L' : Layout} {wh : Which} {tab : List KexpEntry}

/-- Pages of the module window are none of the heap. -/
theorem not_heapWindow {v : ℕ} (h : Window v) : ¬ Mm.HeapWindow v := by
  rintro ⟨_, h2⟩
  unfold heapMaxAddr at h2
  unfold Window modulePage at h
  omega

theorem window_of_has (h : m.Inv res ext own rs) {v : ℕ} (hv : In rs v) : Window v := by
  obtain ⟨r, hr, hin⟩ := hv
  have := h.fits r hr
  unfold PageRun.Has at hin
  unfold Window
  omega

/-- The heap's pages have moved between two states of the memory, and nothing else. -/
structure Moved (res ext own : ℕ → Prop) (rs : List PageRun) (m m' : ModuleSpace) (e' : ℕ) :
    Prop where
  space : m'.Inv res ext (withHeap own e') rs
  heap : HeapEndOk e'
  tables : Mm.KeepsTables m.mm m'.mm
  mapped : ∀ v, v / 1024 < 1023 → ¬ Mm.HeapWindow v → m'.mm.mapped v = m.mm.mapped v

theorem Moved.trans {m₁ : ModuleSpace} {e₁ : ℕ} (h : Moved res ext own rs m m₁ e₁)
    (h' : Moved res ext own rs m₁ m' e') : Moved res ext own rs m m' e' :=
  ⟨h'.space, h'.heap, h.tables.trans h'.tables,
    fun v hv hn => (h'.mapped v hv hn).trans (h.mapped v hv hn)⟩

theorem Moved.refl (h : m.Inv res ext (withHeap own e) rs) (he : HeapEndOk e) :
    Moved res ext own rs m m e := ⟨h, he, .refl _, fun _ _ _ => rfl⟩

theorem heapCall_spec (h : m.Inv res ext (withHeap own e) rs) (he : HeapEndOk e)
    (hout : ∀ v, own v → ¬ Mm.HeapWindow v) {as : List HeapEffect}
    (hr : heapCall m e as = .ok (m', e')) : Moved res ext own rs m m' e' := by
  unfold heapCall at hr
  rw [K.bind_eq_ok] at hr
  obtain ⟨⟨mm, e₁⟩, hc, hr⟩ := hr
  cases hr
  have hmove : Mm.HeapMoved m.mm mm res ext (fun v => own v ∨ ∃ r ∈ rs, r.Has v) e' :=
    Mm.Owned.heapCall
      (fun v hv => hv.elim (hout v) fun hv => not_heapWindow (window_of_has h hv))
      (h.owned.congr (fun _ => Iff.rfl) fun v => or_right_comm) he hc
  refine ⟨⟨hmove.owned.congr (fun _ => Iff.rfl) fun v => or_right_comm, fun v hv => ?_, h.bits,
    h.fits, h.disjoint, h.zero⟩, hmove.heapEnd, hmove.tables, hmove.mapped⟩
  rcases hv with hv | hv
  · exact h.outside v (Or.inl hv)
  · rw [Mm.heapHas_some] at hv
    have := hmove.heapEnd.2.2
    unfold heapMaxAddr at this
    unfold modulePage
    omega

/-! ## Planning -/

theorem place_cases (L : Layout) (s : Section) :
    place L s = L ∨ ∃ wh, place L s = L.append wh s := by
  unfold place
  cases s.access with
  | N => exact Or.inl rfl
  | R => exact Or.inr ⟨.rw, rfl⟩
  | W => exact Or.inl rfl
  | RW => exact Or.inr ⟨.rw, rfl⟩
  | X => exact Or.inl rfl
  | RX => exact Or.inr ⟨.rx, rfl⟩
  | WX => exact Or.inl rfl
  | RWX => exact Or.inl rfl

/-- A header is passed over, or there is a call of the heap for a section that is placed. -/
theorem stage0Section_cases {calls : LoadCalls} {i : ℕ}
    (hr : stage0Section calls m e L i = .ok (m', e', L')) :
    (m' = m ∧ e' = e ∧ L' = L) ∨
      heapCall m e (calls.sections i) = .ok (m', e') ∧ ∃ s, L' = place L s := by
  unfold stage0Section at hr
  dsimp only at hr
  rw [K.bind_eq_ok] at hr
  obtain ⟨flags, _, hr⟩ := hr
  split_ifs at hr
  · cases hr; exact Or.inl ⟨rfl, rfl, rfl⟩
  rw [K.bind_eq_ok] at hr
  obtain ⟨type, _, hr⟩ := hr
  split_ifs at hr
  · cases hr; exact Or.inl ⟨rfl, rfl, rfl⟩
  rw [K.bind_eq_ok] at hr
  obtain ⟨size, _, hr⟩ := hr
  split_ifs at hr
  · cases hr; exact Or.inl ⟨rfl, rfl, rfl⟩
  simp only [K.bind_eq_ok] at hr
  obtain ⟨⟨m₁, e₁⟩, hc, _, _, _, _, _, _, _, _, _, _, hr⟩ := hr
  cases hr
  exact Or.inr ⟨hc, _, rfl⟩

/-- A header moves the heap, and adds at most a section. -/
theorem stage0Section_spec {calls : LoadCalls} {i : ℕ} (h : m.Inv res ext (withHeap own e) rs)
    (he : HeapEndOk e) (hout : ∀ v, own v → ¬ Mm.HeapWindow v)
    (hr : stage0Section calls m e L i = .ok (m', e', L')) :
    Moved res ext own rs m m' e' ∧ (L' = L ∨ ∃ wh s, L' = L.append wh s) := by
  rcases stage0Section_cases hr with ⟨rfl, rfl, rfl⟩ | ⟨hc, s, hL⟩
  · exact ⟨.refl h he, Or.inl rfl⟩
  refine ⟨heapCall_spec h he hout hc, ?_⟩
  rcases place_cases L s with hp | ⟨wh, hp⟩
  · exact Or.inl (hL.trans hp)
  · exact Or.inr ⟨wh, s, hL.trans hp⟩

theorem stage0Sections_spec {calls : LoadCalls} (hout : ∀ v, own v → ¬ Mm.HeapWindow v) :
    ∀ {is : List ℕ} {m : ModuleSpace} {e : ℕ} {L : Layout}, m.Inv res ext (withHeap own e) rs →
      HeapEndOk e → Planned L → stage0Sections calls is m e L = .ok (m', e', L') →
      Moved res ext own rs m m' e' ∧ Planned L' ∧ L'.obj = L.obj := by
  intro is
  induction is with
  | nil => intro m e L h he hp hr; cases hr; exact ⟨.refl h he, hp, rfl⟩
  | cons i is ih =>
    intro m e L h he hp hr
    rw [stage0Sections, K.bind_eq_ok] at hr
    obtain ⟨⟨m₁, e₁, L₁⟩, h₁, hr⟩ := hr
    obtain ⟨hmove, hL⟩ := stage0Section_spec h he hout h₁
    have hp₁ : Planned L₁ ∧ L₁.obj = L.obj := by
      rcases hL with rfl | ⟨wh, s, rfl⟩
      · exact ⟨hp, rfl⟩
      · exact ⟨hp.append wh s, Layout.obj_append _ _ _⟩
    obtain ⟨hmove', hp', hobj⟩ := ih hmove.space hmove.heap hp₁.1 hr
    exact ⟨hmove.trans hmove', hp', hobj.trans hp₁.2⟩

/-- **`stage0`.** -/
theorem stage0_spec {calls : LoadCalls} {o : Object} {ok : Bool}
    (h : m.Inv res ext (withHeap own e) rs) (he : HeapEndOk e)
    (hout : ∀ v, own v → ¬ Mm.HeapWindow v)
    (hr : stage0 calls m e (Layout.new o) = .ok (m', e', L', ok)) :
    Moved res ext own rs m m' e' ∧ Planned L' ∧ L'.obj = o ∧
      (ok = true → ∀ wh, (L'.region wh).size % 4096 = 0) := by
  unfold stage0 at hr
  dsimp only at hr
  split_ifs at hr
  · cases hr
    exact ⟨.refl h he, planned_new o, rfl, fun h => by cases h⟩
  simp only [K.bind_eq_ok] at hr
  obtain ⟨⟨m₁, e₁⟩, hc, ⟨m₂, e₂, L₂⟩, hs, hr⟩ := hr
  cases hr
  have hmove := heapCall_spec h he hout hc
  obtain ⟨hmove', hp, hobj⟩ := stage0Sections_spec hout hmove.space hmove.heap (planned_new o) hs
  refine ⟨hmove.trans hmove', ⟨fun wh => ?_, fun j wh sec hm => ?_⟩, hobj, fun _ wh => ?_⟩
  · have := hp.base wh
    cases wh <;> exact this
  · have := hp.map j wh sec hm
    cases wh <;> exact this
  · unfold pageSize
    cases wh
    · show Word32.alignUp L₂.rx.size 4096 % 4096 = 0
      rw [Pmm.alignUp_page]; omega
    · show Word32.alignUp L₂.rw.size 4096 % 4096 = 0
      rw [Pmm.alignUp_page]; omega

/-! ## Copying -/

/-- Where the bytes of a section go. -/
theorem copy_bounds (h : m.Inv res ext own ((L.region wh).runs ++ rs)) (hok : (L.region wh).Ok)
    (hb : (L.region wh).base ≠ 0) (hs : (L.region wh).size ≠ 0) {sec : Section}
    (hc : copyable L wh sec = true) :
    Word32.add (L.region wh).base sec.regOff = (L.region wh).base + sec.regOff ∧
      0xA000000 ≤ (L.region wh).base ∧
      (L.region wh).base + sec.regOff + sec.size ≤ 0xA080000 := by
  obtain ⟨hlo, hhi⟩ := region_window h hok hb hs
  have hval : sec.regOff + sec.size ≤ (L.region wh).size := by
    unfold copyable at hc
    rw [Bool.and_eq_true] at hc
    exact (validate_iff (by omega)).1 hc.1
  exact ⟨Word32.add_eq (by omega), hlo, by omega⟩

theorem same_copy (h : m.Inv res ext own ((L.region wh).runs ++ rs)) (hok : (L.region wh).Ok)
    (hb : (L.region wh).base ≠ 0) (hs : (L.region wh).size ≠ 0) {sec : Section}
    (hc : copyable L wh sec = true) {vmm : Vmm}
    (hw : fill m.mm.vmm L.obj sec (Word32.add (L.region wh).base sec.regOff) = .ok vmm) :
    Mm.SameTables m.mm (withVmm m vmm).mm := by
  obtain ⟨hdst, hlo, hhi⟩ := copy_bounds h hok hb hs hc
  rw [hdst] at hw
  have hlow : Mm.identityPages * 4096 ≤ (L.region wh).base + sec.regOff := by
    unfold Mm.identityPages
    omega
  unfold fill at hw
  cases hk : sec.kind with
  | progbits => rw [hk] at hw; exact h.owned.copyBytes hlow (by omega) hw
  | nobits => rw [hk] at hw; exact h.owned.writeBytes hlow (by omega) hw
  | unknown => rw [hk] at hw; exact h.owned.writeBytes hlow (by omega) hw

/-- **The loop of `stage1`.** The sections before the first that fails a check are copied. -/
theorem copySections_ensures (hok : (L.region wh).Ok) (hb : (L.region wh).base ≠ 0)
    (hs : (L.region wh).size ≠ 0) : ∀ {secs : List Section} {m : ModuleSpace},
      m.Inv res ext own ((L.region wh).runs ++ rs) →
      (copySections L wh secs m).Ensures
        (fun ev => ∃ sec ∈ secs, copyable L wh sec = true ∧ ev = ⟨L, wh, sec, .copy⟩)
        fun r => r.1.lmm = m.lmm ∧ Mm.SameTables m.mm r.1.mm ∧
          (r.2 = true → ∀ sec ∈ secs, copyable L wh sec = true) := by
  intro secs
  induction secs with
  | nil =>
    intro m h
    exact Traced.ensures_pure ⟨rfl, .refl _, fun _ sec hsec => absurd hsec List.not_mem_nil⟩
  | cons sec secs ih =>
    intro m h
    rw [copySections]
    by_cases hc : copyable L wh sec = true
    · rw [hc, Bool.not_true, if_neg Bool.false_ne_true]
      refine (Traced.ensures_emit ⟨sec, List.mem_cons_self, hc, rfl⟩).bind fun _ _ =>
        (Traced.ensures_lift (P := fun vmm => Mm.SameTables m.mm (withVmm m vmm).mm)
          fun vmm hw => same_copy h hok hb hs hc hw).bind fun vmm hsame => ?_
      refine (ih (h.of_same hsame)).mono ?_ ?_
      · rintro ev ⟨sec', hsec', hc', rfl⟩
        exact ⟨sec', List.mem_cons_of_mem _ hsec', hc', rfl⟩
      · rintro ⟨m', ok⟩ ⟨hlmm, hsame', hall⟩
        exact ⟨hlmm, hsame.trans hsame', fun ht => List.forall_mem_cons.2 ⟨hc, hall ht⟩⟩
    · rw [Bool.not_eq_true] at hc
      rw [hc, Bool.not_false, if_pos rfl]
      exact Traced.ensures_pure ⟨rfl, .refl _, fun hf => by cases hf⟩

/-- A loop that ends well has copied every section. -/
theorem copySections_complete : ∀ {secs : List Section} {m : ModuleSpace},
    (copySections L wh secs m).result = .ok (m', true) →
      ∀ sec ∈ secs, ⟨L, wh, sec, .copy⟩ ∈ (copySections L wh secs m).trace := by
  intro secs
  induction secs with
  | nil => intro m _ sec hsec; cases hsec
  | cons sec secs ih =>
    intro m hr x hx
    rw [copySections] at hr ⊢
    by_cases hc : copyable L wh sec = true
    · rw [hc, Bool.not_true, if_neg Bool.false_ne_true] at hr ⊢
      rw [Traced.mem_trace_bind]
      rcases List.mem_cons.1 hx with rfl | hx
      · exact Or.inl (List.mem_singleton_self _)
      · rw [Traced.result_bind] at hr
        obtain ⟨u, hu, hr⟩ := hr
        rw [Traced.result_bind] at hr
        obtain ⟨vmm, hw, hr⟩ := hr
        exact Or.inr ⟨u, hu, Traced.mem_trace_bind.2 (Or.inr ⟨vmm, hw, ih hr x hx⟩)⟩
    · rw [Bool.not_eq_true] at hc
      rw [hc, Bool.not_false, if_pos rfl] at hr
      cases hr

/-- **`stage1`.** The region is mapped, whether the copying succeeds or not. -/
theorem stage1_ensures {s : Linker} (hl : Loading res ext own s m L)
    (hsize : (L.region wh).size % 4096 = 0) (hbase : (L.region wh).base = 0) :
    (stage1 m L wh).Ensures
      (fun ev => ∃ b m₁, Loading res ext own s m₁ (L.withBase wh b) ∧ b ≠ 0 ∧
        (L.region wh).size ≠ 0 ∧ ∃ sec ∈ (L.region wh).sections,
          copyable L wh sec = true ∧ ev = ⟨L.withBase wh b, wh, sec, .copy⟩)
      fun r => ∃ b, r.2.1 = L.withBase wh b ∧ Loading res ext own s r.1 (L.withBase wh b) ∧
        (b ≠ 0 → (L.region wh).size ≠ 0) ∧
        (r.2.2 = true → b ≠ 0 → ∀ sec ∈ (L.region wh).sections, copyable L wh sec = true) := by
  unfold stage1
  dsimp only
  by_cases h0 : (L.region wh).size = 0
  · rw [if_pos h0]
    have hset : L.withBase wh 0 = L := by
      unfold Layout.withBase
      rw [← hbase]
      cases wh <;> rfl
    exact Traced.ensures_pure ⟨0, hset.symm, by rw [hset]; exact hl, fun hb => absurd rfl hb,
      fun _ hb => absurd rfl hb⟩
  · rw [if_neg h0]
    refine (Traced.ensures_lift (P := fun p => m.mapRegion ((L.region wh).size / pageSize) = .ok p)
      fun _ hp => hp).bind fun ⟨m₁, base⟩ hmap => ?_
    obtain ⟨b, rfl, hb, hok, hinv, hch, _⟩ := mapRegion_spec hl.space hsize h0 hmap
    have hl₁ := hl.extend hbase hok hinv hch
    have hreg : (L.withBase wh b).region wh = { L.region wh with base := b } :=
      Layout.region_setRegion _ _ _
    have hcopy : (copySections (L.withBase wh b) wh (L.region wh).sections m₁).Ensures _ _ :=
      copySections_ensures hok (by rw [hreg]; exact hb) (by rw [hreg]; exact h0) hinv
    rw [copyable_withBase] at hcopy
    refine Traced.Ensures.bind (hcopy.mono ?_ fun _ h => h) ?_
    · rintro ev ⟨sec, hsec, hc, rfl⟩
      exact ⟨b, m₁, hl₁, hb, h0, sec, hsec, hc, rfl⟩
    · rintro ⟨m₂, ok⟩ ⟨hlmm, hsame, hall⟩
      exact Traced.ensures_pure ⟨b, rfl, hl₁.of_same hlmm hsame, fun _ => h0, fun ht _ => hall ht⟩

/-- A `stage1` that ends well has copied every section of the region. -/
theorem stage1_complete (h0 : (L.region wh).size ≠ 0)
    (hr : (stage1 m L wh).result = .ok (m', L', true)) :
    ∀ sec ∈ (L.region wh).sections, ⟨L', wh, sec, .copy⟩ ∈ (stage1 m L wh).trace := by
  unfold stage1 at hr ⊢
  dsimp only at hr ⊢
  rw [if_neg h0] at hr ⊢
  rw [Traced.result_bind] at hr
  obtain ⟨⟨m₁, base⟩, hmap, hr⟩ := hr
  intro sec hsec
  refine Traced.mem_trace_bind.2 (Or.inr ⟨_, hmap, ?_⟩)
  cases base with
  | none => cases hr
  | some b =>
    dsimp only at hr ⊢
    rw [Traced.result_bind] at hr
    obtain ⟨⟨m₂, ok⟩, hcopy, hr⟩ := hr
    cases hr
    exact Traced.mem_trace_bind.2 (Or.inl (copySections_complete hcopy sec hsec))

/-! ## Relocating -/

/-- What is known of the entry behind a write of `stage2`. -/
def Applied (L : Layout) (ev : Event) : Prop :=
  ∃ r, ev.cause = .patch r ∧ ev.layout = L ∧ (∃ j, L.map j = some (ev.which, ev.sec)) ∧
    (L.region ev.which).base ≠ 0 ∧ r.offset < 4294967296 ∧
    ¬ ev.sec.size < Word32.add r.offset 4

/-- The word of an entry that has passed the check on its offset lies near the window. -/
theorem patch_bounds {sec : Section} (hf : Linker.Fits L wh sec) {r : Rel}
    (hlt : r.offset < 4294967296) (hsz : ¬ sec.size < Word32.add r.offset 4) :
    0x9FFFFFC ≤ patchAddr L wh sec r ∧ patchAddr L wh sec r + 4 ≤ 0xA080000 := by
  obtain ⟨hlo, hhi, hsec⟩ := id hf
  have hcases := patchAddr_cases hf hlt hsz
  unfold Word32.add at hsz
  omega

theorem same_patch (h : m.Inv res ext own rs) {sec : Section} (hf : Linker.Fits L wh sec) {r : Rel}
    (hlt : r.offset < 4294967296) (hsz : ¬ sec.size < Word32.add r.offset 4) {w : ℕ} {vmm : Vmm}
    (hw : m.mm.vmm.write32 (patchAddr L wh sec r) w = .ok vmm) :
    Mm.SameTables m.mm (withVmm m vmm).mm := by
  obtain ⟨hlo, hhi⟩ := patch_bounds hf hlt hsz
  exact same_writeBytes h (by omega) (by omega) hw

theorem relocate_ensures {sec : Section} {rel : ℕ} (h : m.Inv res ext own rs)
    (hf : Linker.Fits L wh sec) (hmap : ∃ j, L.map j = some (wh, sec))
    (hb : (L.region wh).base ≠ 0) :
    (relocate tab L wh sec rel m).Ensures (Applied L)
      fun x => x.1.lmm = m.lmm ∧ Mm.SameTables m.mm x.1.mm := by
  have hstay : ∀ ok : Bool, (pure (m, ok) : Traced Event Halt (ModuleSpace × Bool)).Ensures
      (Applied L) fun x => x.1.lmm = m.lmm ∧ Mm.SameTables m.mm x.1.mm :=
    fun _ => Traced.ensures_pure ⟨rfl, .refl _⟩
  unfold relocate
  refine (Traced.ensures_lift (P := fun _ => True) fun _ _ => trivial).bind fun info _ => ?_
  by_cases hnull : L.obj.symtab = 0
  · rw [if_pos hnull]; exact hstay false
  rw [if_neg hnull]
  refine (Traced.ensures_lift (P := fun _ => True) fun _ _ => trivial).bind fun symtab _ => ?_
  dsimp only
  by_cases hsym : Word32.add (L.obj.headerOffset symtab) (16 * (info / 256)) = 0
  · rw [if_pos hsym]; exact hstay false
  rw [if_neg hsym]
  refine (Traced.ensures_lift (P := fun x => x < 4294967296)
    fun _ hx => Vmm.read32_lt hx).bind fun offset hlt => ?_
  by_cases hsz : sec.size < Word32.add offset 4
  · rw [if_pos hsz]; exact hstay false
  rw [if_neg hsz]
  refine (Traced.ensures_lift (P := fun _ => True) fun _ _ => trivial).bind fun A _ => ?_
  refine (Traced.ensures_lift (P := fun _ => True) fun _ _ => trivial).bind fun res _ => ?_
  -- the entry is applied with the word `w`
  have hwrite : ∀ w, (do
      Traced.emit ⟨L, wh, sec, .patch ⟨offset, info⟩⟩
      let vmm ← Traced.lift (m.mm.vmm.write32 (patchAddr L wh sec ⟨offset, info⟩) w)
      pure (withVmm m vmm, true) : Traced Event Halt (ModuleSpace × Bool)).Ensures (Applied L)
      fun x => x.1.lmm = m.lmm ∧ Mm.SameTables m.mm x.1.mm := fun w =>
    (Traced.ensures_emit ⟨_, rfl, rfl, hmap, hb, hlt, hsz⟩).bind fun _ _ =>
      (Traced.ensures_lift (P := fun vmm => Mm.SameTables m.mm (withVmm m vmm).mm)
        fun vmm hw => same_patch h hf hlt hsz hw).bind fun vmm hsame =>
          Traced.ensures_pure ⟨rfl, hsame⟩
  cases res with
  | fail => exact hstay false
  | skip => exact hstay true
  | value S =>
    dsimp only
    by_cases h32 : Rel.type ⟨offset, info⟩ = r386_32
    · rw [if_pos h32]; exact hwrite _
    by_cases hpc : Rel.type ⟨offset, info⟩ = r386_PC32
    · rw [if_neg h32, if_pos hpc]; exact hwrite _
    rw [if_neg h32, if_neg hpc]
    exact hstay false

theorem relocateAll_ensures {sec : Section} (hf : Linker.Fits L wh sec)
    (hmap : ∃ j, L.map j = some (wh, sec)) (hb : (L.region wh).base ≠ 0) :
    ∀ {n rel : ℕ} {m : ModuleSpace}, m.Inv res ext own rs →
      (relocateAll tab L wh sec n rel m).Ensures (Applied L)
        fun x => x.1.lmm = m.lmm ∧ Mm.SameTables m.mm x.1.mm := by
  intro n
  induction n with
  | zero => intro rel m _; exact Traced.ensures_pure ⟨rfl, .refl _⟩
  | succ n ih =>
    intro rel m h
    rw [relocateAll]
    refine (relocate_ensures h hf hmap hb).bind fun ⟨m₁, ok⟩ ⟨hlmm, hsame⟩ => ?_
    cases ok with
    | false => exact Traced.ensures_pure ⟨hlmm, hsame⟩
    | true =>
      have h₁ := h.of_same hsame
      rw [← hlmm] at h₁
      exact (ih h₁).mono (fun _ he => he) fun x hx => ⟨hx.1.trans hlmm, hsame.trans hx.2⟩

/-- What `relTarget` has checked. -/
theorem relTarget_apply {vmm : Vmm} {hdr : ℕ} {sec : Section} {rel n : ℕ}
    (h : relTarget L vmm hdr = .ok (.apply wh sec rel n)) :
    (∃ j, L.map j = some (wh, sec)) ∧ (L.region wh).base ≠ 0 := by
  unfold relTarget at h
  rw [K.bind_eq_ok] at h
  obtain ⟨type, _, h⟩ := h
  split_ifs at h with htype
  · cases h
  rw [K.bind_eq_ok] at h
  obtain ⟨info, _, h⟩ := h
  split_ifs at h with hnum
  · cases h
  cases hm : L.map (info % 65536) with
  | none => rw [hm] at h; cases h
  | some q =>
    rw [hm] at h
    dsimp only at h
    split_ifs at h with hb
    · cases h
    simp only [K.bind_eq_ok] at h
    obtain ⟨offset, _, size, _, h⟩ := h
    split_ifs at h
    · cases h
    · cases h
      exact ⟨⟨_, hm⟩, hb⟩

/-- **`stage2`.** Relocations change contents of memory only. -/
theorem relocateSections_ensures (hf : MapFits L) : ∀ {is : List ℕ} {m : ModuleSpace},
    m.Inv res ext own rs → (relocateSections tab L is m).Ensures (Applied L)
      fun x => x.1.lmm = m.lmm ∧ Mm.SameTables m.mm x.1.mm := by
  intro is
  induction is with
  | nil => intro m _; exact Traced.ensures_pure ⟨rfl, .refl _⟩
  | cons i is ih =>
    intro m h
    rw [relocateSections]
    refine (Traced.ensures_lift
      (P := fun t => relTarget L m.mm.vmm (secHdr L.obj i) = .ok t) fun _ ht => ht).bind
      fun target ht => ?_
    cases target with
    | fail => exact Traced.ensures_pure ⟨rfl, .refl _⟩
    | skip => exact ih h
    | apply wh sec rel n =>
      obtain ⟨⟨j, hmap⟩, hb⟩ := relTarget_apply ht
      refine (relocateAll_ensures (hf j wh sec hmap hb) ⟨j, hmap⟩ hb h).bind
        fun ⟨m₁, ok⟩ ⟨hlmm, hsame⟩ => ?_
      cases ok with
      | false => exact Traced.ensures_pure ⟨hlmm, hsame⟩
      | true =>
        have h₁ := h.of_same hsame
        rw [← hlmm] at h₁
        exact (ih h₁).mono (fun _ he => he) fun x hx => ⟨hx.1.trans hlmm, hsame.trans hx.2⟩

end

end LiveLinker

end Ospp
