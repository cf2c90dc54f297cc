import Ospp.Mm.Access
import Ospp.Mm.HeapSpace

/-!
# Calls of the heap, seen from outside

What a `new` or a `delete` does to the memory of the kernel: the heap moves its end, through
`expand_unlocked` and `contract_unlocked`, bytes are stored, or the kernel stops. Which of these a
call does, and in what order, is decided by the chunks of the heap; to code that only uses the heap
a call is a list of effects, and whatever is proved for every list holds for the calls there are.

A growth that wraps covers the page directory. Stores go anywhere but into page tables.
-/

namespace Ospp

inductive HeapEffect where
  | expand (newSize : ℕ)
  | contract (newSize : ℕ)
  | store (a : ℕ) (b : UInt8)
  | panic (text : String)

/-- What the effect stores, it stores on pages that the heap can have. -/
def HeapEffect.InHeap : HeapEffect → Prop
  | .store a _ => Mm.HeapWindow (a / 4096)
  | _ => True

namespace Mm

instance (s : Mm) (k : ℕ) : Decidable (s.IsTable k) :=
  inferInstanceAs (Decidable (k = s.vmm.dir ∨ ∃ j < 1023, s.table j = some k))

def storeByte (s : Mm) (a : ℕ) (b : UInt8) : K Mm :=
  match s.vmm.translate a with
  | none => .error (.pageFault a)
  | some p =>
    if s.IsTable (p / 4096) then .error (.corrupt "page table")
    else do
      let vmm ← s.vmm.writeByte a b
      return ⟨s.pmm, vmm⟩

/-- One effect of a call. The heap ends at `endAddr`. -/
def heapEffect (s : Mm) (endAddr : ℕ) : HeapEffect → K (Mm × ℕ)
  | .expand newSize => do
    let newEnd ← expandEnd endAddr newSize
    if newEnd < endAddr then .error (.corrupt "page directory")
    else s.heapExpand endAddr newSize
  | .contract newSize => s.heapContract endAddr newSize
  | .store a b => do
    let s ← s.storeByte a b
    return (s, endAddr)
  | .panic text => .error (.panic text)

def heapCall (s : Mm) (endAddr : ℕ) : List HeapEffect → K (Mm × ℕ)
  | [] => .ok (s, endAddr)
  | a :: as => do
    let (s, endAddr) ← s.heapEffect endAddr a
    heapCall s endAddr as

variable {s s' : Mm} {res ext own : ℕ → Prop} {e e' : ℕ}

theorem same_storeByte {a : ℕ} {b : UInt8} (h : s.storeByte a b = .ok s') : SameTables s s' := by
  unfold storeByte at h
  cases ht : s.vmm.translate a with
  | none => rw [ht] at h; cases h
  | some p =>
    rw [ht] at h
    dsimp only at h
    split_ifs at h with htab
    rw [K.bind_eq_ok] at h
    obtain ⟨vmm, hw, h⟩ := h
    cases h
    unfold Vmm.writeByte at hw
    rw [ht] at hw
    cases hw
    exact same_set (fun hd => htab (Or.inl hd)) (fun j hj hf => htab (Or.inr ⟨j, hj, hf⟩)) _ _

theorem HeapMoved.refl (h : Owned s res ext fun v => own v ∨ heapHas (some e) v)
    (he : HeapEndOk e) : HeapMoved s s res ext own e :=
  ⟨he, h, .refl _, fun _ _ _ => rfl, fun _ _ _ _ hm => hm⟩

theorem HeapMoved.trans {s₁ : Mm} {e₁ : ℕ} (h : HeapMoved s s₁ res ext own e₁)
    (h' : HeapMoved s₁ s' res ext own e') : HeapMoved s s' res ext own e' :=
  ⟨h'.heapEnd, h'.owned, h.tables.trans h'.tables,
    fun v hv hn => (h'.mapped v hv hn).trans (h.mapped v hv hn),
    fun v f hv hf hm => h.foreign v f hv hf (h'.foreign v f hv hf hm)⟩

/-- A growth moves the end up. -/
theorem heapEffect_expand {n : ℕ} (hr : s.heapEffect e (.expand n) = .ok (s', e')) :
    e ≤ e' ∧ s.heapExpand e n = .ok (s', e') := by
  unfold Mm.heapEffect at hr
  rw [K.bind_eq_ok] at hr
  obtain ⟨newEnd, hend, hr⟩ := hr
  split_ifs at hr with hlt
  refine ⟨?_, hr⟩
  unfold Mm.heapExpand at hr
  simp only [K.bind_eq_ok] at hr
  obtain ⟨_, hend', _, _, hr⟩ := hr
  cases hr
  have := Except.ok.inj (hend.symm.trans hend')
  omega

theorem Owned.heapEffect (h : Owned s res ext fun v => own v ∨ heapHas (some e) v)
    (he : HeapEndOk e) (hout : ∀ v, own v → ¬ HeapWindow v) {a : HeapEffect}
    (hr : s.heapEffect e a = .ok (s', e')) : HeapMoved s s' res ext own e' := by
  cases a with
  | expand newSize =>
    obtain ⟨hle, hx⟩ := heapEffect_expand hr
    exact h.heapExpand he hout hle hx
  | contract newSize => exact h.heapContract he hout hr
  | store a b =>
    unfold Mm.heapEffect at hr
    rw [K.bind_eq_ok] at hr
    obtain ⟨s₁, hs, hr⟩ := hr
    cases hr
    have hsame := same_storeByte hs
    exact ⟨he, h.of_same hsame, hsame.keepsTables, fun v hv _ => hsame.mapped v hv,
      fun v f hv _ hm => by rwa [← hsame.mapped v hv]⟩
  | panic text => cases hr

/-- **A call of the heap** moves its pages, and leaves every other mapping alone. -/
theorem Owned.heapCall (hout : ∀ v, own v → ¬ HeapWindow v) : ∀ {as : List HeapEffect} {s : Mm}
    {e : ℕ}, (Owned s res ext fun v => own v ∨ heapHas (some e) v) → HeapEndOk e →
      s.heapCall e as = .ok (s', e') → HeapMoved s s' res ext own e' := by
  intro as
  induction as with
  | nil => intro s e h he hr; cases hr; exact .refl h he
  | cons a as ih =>
    intro s e h he hr
    rw [Mm.heapCall, K.bind_eq_ok] at hr
    obtain ⟨⟨s₁, e₁⟩, ha, hr⟩ := hr
    have hstep := h.heapEffect he hout ha
    exact hstep.trans (ih hstep.owned hstep.heapEnd hr)

/-! ## What a call leaves alone -/

/-- Giving pages back leaves the frames of others alone. -/
theorem Owned.phys_unmapRun {v g : ℕ} (hg : ext g) : ∀ {n i : ℕ} {s s' : Mm}, Owned s res ext own →
    v + i + n ≤ 1047552 → (∀ u, v + i ≤ u → u < v + i + n → own u) →
    Mm.unmapRun (v * 4096) n i s = .ok s' → s'.vmm.phys g = s.vmm.phys g := by
  intro n
  induction n with
  | zero => intro i s s' _ _ _ hrun; cases hrun; rfl
  | succ n ih =>
    intro i s s' h hv hown hrun
    rw [Mm.unmapRun, K.bind_eq_ok] at hrun
    obtain ⟨s₁, h₁, hrun⟩ := hrun
    rw [runAddr (by omega)] at h₁
    have hown₁ := hown (v + i) (by omega) (by omega)
    have hlow := (h.own_high _ hown₁).2
    rw [ih (h.unmapOwned hown₁ h₁).1 (by omega) (fun u h1 h2 => hown u (by omega) (by omega)) hrun]
    rcases unmapPageLocked_cases h.wf (by omega) h₁ with ⟨_, rfl⟩ | ⟨t, pmm, ht, _, _, rfl⟩
    · rfl
    · rw [Nat.mul_div_cancel _ (by norm_num)] at ht
      have hgt : g ≠ t := by
        rintro rfl
        exact h.ext_ne_table g hg _ hlow ht
      funext k
      exact if_neg fun e => hgt e.1

/-- So does a run of pages that gets frames of its own. -/
theorem Owned.phys_mapFresh (h : Owned s res ext own) {pmm : Pmm} {v pages physAddr flags g : ℕ}
    (hv : v + pages ≤ 1047552) (ha : s.pmm.allocFrames pages = .ok (pmm, physAddr))
    (hmap : Mm.mapPages ⟨pmm, s.vmm⟩ (v * 4096) physAddr pages flags = .ok s') (hg : ext g) :
    s'.vmm.phys g = s.vmm.phys g := by
  obtain ⟨f, _, _, _, ho⟩ := h.allocFrames ha
  unfold Mm.mapPages at hmap
  by_cases h0 : pages = 0
  · subst h0
    cases hmap
    rfl
  · rw [pageBase_eq (by omega), Nat.mul_div_cancel _ (by norm_num)] at hmap
    exact phys_mapRun (s := ⟨pmm, s.vmm⟩) (i := 0) ho.wf (by omega) (ho.ext_used g (Or.inl hg))
      (h.ext_ne_dir g hg) (h.ext_ne_table g hg) hmap

theorem Owned.phys_heapExpand (h : Owned s res ext own) (he : HeapEndOk e) {n f : ℕ}
    (hle : e ≤ e') (hr : s.heapExpand e n = .ok (s', e')) (hf : ext f) :
    s'.vmm.phys f = s.vmm.phys f := by
  unfold Mm.heapExpand at hr
  simp only [K.bind_eq_ok] at hr
  obtain ⟨_, hend, mm, hm, hr⟩ := hr
  cases hr
  obtain ⟨hal, _, _⟩ := id he
  obtain ⟨_, _, hhi⟩ := expandEnd_ok_of_le he hle hend
  unfold heapMaxAddr at hhi
  rw [Word32.sub_eq (by omega) hle] at hm
  unfold Mm.mapHeapBacking at hm
  by_cases h0 : e' - e = 0
  · rw [if_pos h0] at hm
    cases hm
    rfl
  · rw [if_neg h0, K.bind_eq_ok] at hm
    obtain ⟨⟨pmm, phys⟩, hp, hm⟩ := hm
    unfold pageSize at hp hm
    have haddr : e / 4096 * 4096 = e := by omega
    exact h.phys_mapFresh (v := e / 4096) (by omega) hp (by rw [haddr]; exact hm) hf

theorem Owned.phys_heapContract (h : Owned s res ext fun v => own v ∨ heapHas (some e) v)
    (he : HeapEndOk e) {n f : ℕ} (hr : s.heapContract e n = .ok (s', e')) (hf : ext f) :
    s'.vmm.phys f = s.vmm.phys f := by
  obtain ⟨hal, _, hhi⟩ := id he
  unfold heapMaxAddr at hhi
  unfold Mm.heapContract at hr
  simp only [K.bind_eq_ok] at hr
  obtain ⟨newEnd, hend, hr⟩ := hr
  obtain ⟨⟨hal', hlo', _⟩, hle, _, _⟩ := contractEnd_eq_ok he hend
  unfold heapStart heapMinSize at hlo'
  rw [Word32.sub_eq (by omega) (by omega)] at hr
  by_cases h0 : e - newEnd = 0
  · rw [if_pos h0] at hr
    cases hr
    rfl
  · rw [if_neg h0, K.bind_eq_ok] at hr
    obtain ⟨mm, hm, hr⟩ := hr
    cases hr
    unfold Mm.unmapPages at hm
    rw [pageBase_eq (by omega)] at hm
    unfold pageSize at hm
    exact h.phys_unmapRun (v := e' / 4096) (i := 0) hf (by omega) (fun u h1 h2 =>
      Or.inr (heapHas_some.2 (by unfold heapStart; omega))) hm

/-- A store leaves every other frame alone. -/
theorem phys_storeByte {a f : ℕ} {b : UInt8} (ha : a < 4294967296)
    (hr : s.storeByte a b = .ok s') (hne : s.mapped (a / 4096) ≠ some f) :
    s'.vmm.phys f = s.vmm.phys f := by
  unfold Mm.storeByte at hr
  rw [translate_eq ha] at hr
  cases hm : s.mapped (a / 4096) with
  | none =>
    rw [hm] at hr
    cases hr
  | some g =>
    rw [hm, Option.map_some] at hr
    dsimp only at hr
    split_ifs at hr
    rw [K.bind_eq_ok] at hr
    obtain ⟨vmm, hw, hr⟩ := hr
    cases hr
    unfold Vmm.writeByte at hw
    rw [translate_eq ha, hm] at hw
    cases hw
    rw [show (g * 4096 + a % 4096) / 4096 = g by omega]
    have hgf : f ≠ g := by
      rintro rfl
      exact hne hm
    funext k
    exact if_neg fun e => hgf e.1

/-- **A call of the heap** that stores where the heap can be leaves alone what lies in the frames of
others that none of these pages leads to. -/
theorem Owned.phys_heapCall (hout : ∀ v, own v → ¬ HeapWindow v) {f : ℕ} (hf : ext f) :
    ∀ {as : List HeapEffect} {s : Mm} {e : ℕ},
      (Owned s res ext fun v => own v ∨ heapHas (some e) v) → HeapEndOk e →
      (∀ a ∈ as, a.InHeap) → (∀ v, HeapWindow v → s.mapped v ≠ some f) →
      s.heapCall e as = .ok (s', e') → s'.vmm.phys f = s.vmm.phys f := by
  intro as
  induction as with
  | nil => intro s e _ _ _ _ hr; cases hr; rfl
  | cons a as ih =>
    intro s e h he has hfree hr
    obtain ⟨hin, has⟩ := List.forall_mem_cons.1 has
    rw [Mm.heapCall, K.bind_eq_ok] at hr
    obtain ⟨⟨s₁, e₁⟩, ha, hr⟩ := hr
    have hmove := h.heapEffect he hout ha
    have hfree₁ : ∀ v, HeapWindow v → s₁.mapped v ≠ some f := fun v hv hm => by
      have hlow : v / 1024 < 1023 := by
        have := hv.2
        unfold heapMaxAddr at this
        omega
      exact hfree v hv (hmove.foreign v f hlow hf hm)
    rw [ih hmove.owned hmove.heapEnd has hfree₁ hr]
    cases a with
    | expand newSize =>
      obtain ⟨hle, hx⟩ := heapEffect_expand ha
      exact h.phys_heapExpand he hle hx hf
    | contract newSize => exact h.phys_heapContract he ha hf
    | store a b =>
      unfold Mm.heapEffect at ha
      rw [K.bind_eq_ok] at ha
      obtain ⟨s₂, hs, ha⟩ := ha
      cases ha
      have := hin.2
      unfold heapMaxAddr at this
      exact phys_storeByte (by omega) hs (hfree _ hin)
    | panic text => cases ha

end Mm

end Ospp
