import Ospp.Mm.Ownership

/-!
# The pages behind the heap

The address arithmetic of `Heap::expand_unlocked` and `Heap::contract_unlocked`, and the pages they
map and unmap. The kernel has one heap, constructed over the heap window.
-/

namespace Ospp

/-- `HEAP_START`. -/
def heapStart : ℕ := 0x01000000

/-- `HEAP_MIN_SIZE`. -/
def heapMinSize : ℕ := 0x00100000

/-- `HEAP_MAX_ADDR`. -/
def heapMaxAddr : ℕ := 0x02000000

def alignHeapSize (size : ℕ) : ℕ := Word32.alignUp size pageSize

/-- The new end of the heap in `expand_unlocked`. -/
def expandEnd (endAddr newSize : ℕ) : K ℕ := do
  kassert (decide (Word32.sub endAddr heapStart < newSize))
    "newSize > this->endAddr - this->startAddr"
  let newSize := alignHeapSize newSize
  kassert (decide (Word32.add heapStart newSize ≤ heapMaxAddr))
    "this->startAddr + newSize <= this->maxAddr"
  return Word32.add heapStart newSize

/-- The new end of the heap in `contract_unlocked`. -/
def contractEnd (endAddr newSize : ℕ) : K ℕ := do
  kassert (decide (newSize < Word32.sub endAddr heapStart))
    "newSize < this->endAddr - this->startAddr"
  let newSize := alignHeapSize newSize
  let newSize := if newSize < heapMinSize then heapMinSize else newSize
  return Word32.add heapStart newSize

/-- The end of the heap is a page boundary in the heap window, past the initial size. -/
def HeapEndOk (endAddr : ℕ) : Prop :=
  endAddr % 4096 = 0 ∧ heapStart + heapMinSize ≤ endAddr ∧ endAddr ≤ heapMaxAddr

theorem alignHeapSize_eq {n : ℕ} (h : n ≤ 4294963200) :
    alignHeapSize n = (n + 4095) / 4096 * 4096 :=
  Word32.alignUp_two_pow (k := 12) (by norm_num) (by omega)

/-- The heap grows by whole pages inside its window, unless the new size wraps. -/
theorem expandEnd_eq_ok {e e' n : ℕ} (he : HeapEndOk e) (hn : n ≤ heapMaxAddr - heapStart)
    (h : expandEnd e n = .ok e') :
    HeapEndOk e' ∧ e < e' ∧ heapStart + n ≤ e' ∧ e' < heapStart + n + 4096 := by
  unfold heapMaxAddr heapStart at hn
  unfold HeapEndOk heapStart heapMinSize heapMaxAddr at he
  unfold expandEnd at h
  rw [K.bind_eq_ok] at h
  obtain ⟨_, h1, h⟩ := h
  rw [kassert_eq_ok, decide_eq_true_eq] at h1
  dsimp only at h
  rw [K.bind_eq_ok] at h
  obtain ⟨_, h2, h⟩ := h
  rw [kassert_eq_ok, decide_eq_true_eq] at h2
  have hal := alignHeapSize_eq (n := n) (by omega)
  unfold heapStart at h1 h2
  rw [Word32.sub_eq (by omega) (by omega)] at h1
  rw [Word32.add_eq (by omega)] at h2
  cases h
  unfold HeapEndOk heapStart heapMinSize heapMaxAddr
  unfold heapMaxAddr at h2
  rw [Word32.add_eq (by omega)]
  omega

/-- The heap shrinks by whole pages, not below its initial size. -/
theorem contractEnd_eq_ok {e e' n : ℕ} (he : HeapEndOk e) (h : contractEnd e n = .ok e') :
    HeapEndOk e' ∧ e' ≤ e ∧ n < e - heapStart ∧ (e' = heapStart + heapMinSize ∨
      (heapStart + n ≤ e' ∧ e' < heapStart + n + 4096)) := by
  unfold HeapEndOk heapStart heapMinSize heapMaxAddr at he
  unfold contractEnd at h
  rw [K.bind_eq_ok] at h
  obtain ⟨_, h1, h⟩ := h
  rw [kassert_eq_ok, decide_eq_true_eq] at h1
  unfold heapStart at h1
  rw [Word32.sub_eq (by omega) (by omega)] at h1
  have hal := alignHeapSize_eq (n := n) (by omega)
  cases h
  unfold HeapEndOk heapStart heapMinSize heapMaxAddr
  split_ifs with hmin
  · rw [Word32.add_eq (by omega)]; omega
  · rw [Word32.add_eq (by omega)]; omega

namespace Mm

/-- `map_heap_backing`. -/
def mapHeapBacking (s : Mm) (virtAddr size perms : ℕ) : K Mm :=
  if size = 0 then .ok s
  else do
    let pages := size / pageSize
    let (pmm, phys) ← s.pmm.allocFrames pages
    Mm.mapPages ⟨pmm, s.vmm⟩ virtAddr phys pages (perms ||| flagPresent)

/-- The permissions the kernel constructs its heap with. -/
def heapPerms : ℕ := flagPresent ||| flagWritable

/-- The pages mapped when the heap is constructed. -/
def heapInit (s : Mm) : K (Mm × ℕ) := do
  let size := alignHeapSize heapMinSize
  let s ← s.mapHeapBacking heapStart size heapPerms
  return (s, Word32.add heapStart size)

def heapExpand (s : Mm) (endAddr newSize : ℕ) : K (Mm × ℕ) := do
  let newEnd ← expandEnd endAddr newSize
  let s ← s.mapHeapBacking endAddr (Word32.sub newEnd endAddr) heapPerms
  return (s, newEnd)

def heapContract (s : Mm) (endAddr newSize : ℕ) : K (Mm × ℕ) := do
  let newEnd ← contractEnd endAddr newSize
  let size := Word32.sub endAddr newEnd
  if size = 0 then return (s, newEnd)
  else
    let s ← s.unmapPages newEnd (size / pageSize)
    return (s, newEnd)

/-- The pages of a heap that ends at `e`. -/
def heapHas (e : Option ℕ) (v : ℕ) : Prop := ∃ x, e = some x ∧ heapStart ≤ v * 4096 ∧ v * 4096 < x

variable {s s' : Mm} {res ext own : ℕ → Prop}

/-- The pages the heap may have. -/
def HeapWindow (v : ℕ) : Prop := heapStart ≤ v * 4096 ∧ v * 4096 < heapMaxAddr

theorem heapHas_some {e v : ℕ} : heapHas (some e) v ↔ heapStart ≤ v * 4096 ∧ v * 4096 < e :=
  ⟨fun ⟨x, hx, h⟩ => (by cases hx; exact h), fun h => ⟨e, rfl, h⟩⟩

theorem HeapWindow.of_has {e v : ℕ} (he : HeapEndOk e) (h : heapHas (some e) v) : HeapWindow v := by
  rw [heapHas_some] at h
  exact ⟨h.1, lt_of_lt_of_le h.2 he.2.2⟩

/-- The pages of the heap have moved with its end from `e` to `e'`, and nothing else. -/
structure HeapMoved (s s' : Mm) (res ext own : ℕ → Prop) (e' : ℕ) : Prop where
  heapEnd : HeapEndOk e'
  owned : Owned s' res ext fun v => own v ∨ heapHas (some e') v
  tables : KeepsTables s s'
  mapped : ∀ v, v / 1024 < 1023 → ¬ HeapWindow v → s'.mapped v = s.mapped v
  foreign : ∀ v f, v / 1024 < 1023 → ext f → s'.mapped v = some f → s.mapped v = some f

/-- Backing a range of the heap window. -/
theorem Owned.mapHeapBacking (h : Owned s res ext own) {a size perms : ℕ}
    (ha : a % 4096 = 0) (hlo : heapStart ≤ a) (hhi : a + size ≤ heapMaxAddr)
    (hsize : size % 4096 = 0) (hown : ∀ v, a ≤ v * 4096 → v * 4096 < a + size → ¬ own v)
    (hmap : s.mapHeapBacking a size perms = .ok s') :
    Owned s' res ext (fun v => own v ∨ (a ≤ v * 4096 ∧ v * 4096 < a + size)) ∧
      KeepsTables s s' ∧
      ∀ v, v / 1024 < 1023 → ¬ (a ≤ v * 4096 ∧ v * 4096 < a + size) →
        s'.mapped v = s.mapped v := by
  unfold heapStart at hlo
  unfold heapMaxAddr at hhi
  unfold Mm.mapHeapBacking at hmap
  split_ifs at hmap with h0
  · cases hmap
    exact ⟨h.congr (fun _ => Iff.rfl) fun v => ⟨fun hv => hv.resolve_right (by omega), Or.inl⟩,
      .refl _, fun _ _ _ => rfl⟩
  · rw [K.bind_eq_ok] at hmap
    obtain ⟨⟨pmm, phys⟩, hp, hmap⟩ := hmap
    unfold pageSize at hp hmap
    have hflags : (perms ||| flagPresent) % 2 = 1 := by
      rw [Nat.or_mod_two_eq_one]; right; decide
    have haddr : a / 4096 * 4096 = a := by omega
    obtain ⟨ho, _, hkeep, htab⟩ := h.mapFresh (v := a / 4096) hflags (by omega)
      (by unfold identityPages; omega) (fun u h1 h2 => hown u (by omega) (by omega)) hp
      (by rw [haddr]; exact hmap)
    refine ⟨ho.congr (fun _ => Iff.rfl) fun v => ?_, htab,
      fun v hv hn => hkeep v hv fun hin => hn (by omega)⟩
    constructor
    · rintro (h1 | h1)
      · exact Or.inl h1
      · exact Or.inr (by omega)
    · rintro (h1 | h1)
      · exact Or.inl h1
      · exact Or.inr (by omega)

/-- A growth that does not move the end down stays in the window. -/
theorem expandEnd_ok_of_le {e e' n : ℕ} (he : HeapEndOk e) (hle : e ≤ e')
    (h : expandEnd e n = .ok e') : HeapEndOk e' := by
  unfold HeapEndOk heapStart heapMinSize heapMaxAddr at he ⊢
  unfold expandEnd at h
  rw [K.bind_eq_ok] at h
  obtain ⟨_, _, h⟩ := h
  dsimp only at h
  rw [K.bind_eq_ok] at h
  obtain ⟨_, h2, h⟩ := h
  rw [kassert_eq_ok, decide_eq_true_eq] at h2
  cases h
  unfold heapMaxAddr at h2
  have hal : alignHeapSize n % 4096 = 0 := by
    unfold alignHeapSize pageSize
    rw [Pmm.alignUp_page]
    omega
  refine ⟨?_, by omega, h2⟩
  unfold Word32.add heapStart
  omega

/-- **`expand_unlocked`.** -/
theorem Owned.heapExpand {e e' n : ℕ} (h : Owned s res ext fun v => own v ∨ heapHas (some e) v)
    (he : HeapEndOk e) (hout : ∀ v, own v → ¬ HeapWindow v) (hle : e ≤ e')
    (hx : s.heapExpand e n = .ok (s', e')) : HeapMoved s s' res ext own e' := by
  unfold Mm.heapExpand at hx
  simp only [K.bind_eq_ok] at hx
  obtain ⟨_, hend, mm, hm, hx⟩ := hx
  cases hx
  have hok' := expandEnd_ok_of_le he hle hend
  obtain ⟨hal, hlo, hhi⟩ := id he
  obtain ⟨hal', _, hhi'⟩ := id hok'
  unfold heapStart heapMinSize at hlo
  unfold heapMaxAddr at hhi hhi'
  rw [Word32.sub_eq (by omega) hle] at hm
  obtain ⟨ho, htab, hkeep⟩ := h.mapHeapBacking hal (by unfold heapStart; omega)
    (by unfold heapMaxAddr; omega) (by omega)
    (fun v h1 h2 hv => by
      rcases hv with hv | hv
      · exact hout v hv ⟨by unfold heapStart; omega, by unfold heapMaxAddr; omega⟩
      · rw [heapHas_some] at hv; omega) hm
  refine ⟨hok', ho.congr (fun _ => Iff.rfl) fun v => ?_, htab, fun v hv hn => hkeep v hv
    fun hin => hn ⟨by unfold heapStart; omega, by unfold heapMaxAddr; omega⟩, fun v f hv hf hm => ?_⟩
  swap
  · rwa [← hkeep v hv fun hin => (ho.own_used v f (Or.inr hin) hm).2.1 hf]
  rw [heapHas_some, heapHas_some, or_assoc]
  unfold heapStart
  exact or_congr_right (by omega)

/-- **`contract_unlocked`.** -/
theorem Owned.heapContract {e e' n : ℕ} (h : Owned s res ext fun v => own v ∨ heapHas (some e) v)
    (he : HeapEndOk e) (hout : ∀ v, own v → ¬ HeapWindow v)
    (hx : s.heapContract e n = .ok (s', e')) : HeapMoved s s' res ext own e' := by
  unfold Mm.heapContract at hx
  simp only [K.bind_eq_ok] at hx
  obtain ⟨newEnd, hend, hx⟩ := hx
  obtain ⟨hok', hle, _, _⟩ := contractEnd_eq_ok he hend
  obtain ⟨hal, hlo, hhi⟩ := id he
  obtain ⟨hal', hlo', _⟩ := id hok'
  unfold heapStart heapMinSize at hlo hlo'
  unfold heapMaxAddr at hhi
  rw [Word32.sub_eq (by omega) (by omega)] at hx
  split_ifs at hx with h0
  · cases hx
    obtain rfl : e' = e := by omega
    exact ⟨he, h, .refl _, fun _ _ _ => rfl, fun _ _ _ _ hm => hm⟩
  · rw [K.bind_eq_ok] at hx
    obtain ⟨mm, hm, hx⟩ := hx
    cases hx
    unfold pageSize at hm
    have haddr : e' / 4096 * 4096 = e' := by omega
    rw [← haddr] at hm
    obtain ⟨ho, hgone, hkeep, htab⟩ := h.unmapPages (v := e' / 4096) (by omega)
      (fun u h1 h2 => Or.inr (heapHas_some.2 (by unfold heapStart; omega))) hm
    rw [haddr] at ho hgone hkeep
    refine ⟨hok', ho.congr (fun _ => Iff.rfl) fun v => ?_, htab, fun v hv hn => hkeep v hv
      fun hin => hn ⟨by unfold heapStart; omega, by unfold heapMaxAddr; omega⟩,
      fun v f hv _ hm => ?_⟩
    swap
    · by_cases hin : e' / 4096 ≤ v ∧ v < e' / 4096 + (e - e') / 4096
      · rw [hgone v hin.1 hin.2] at hm
        cases hm
      · rwa [← hkeep v hv hin]
    have hown : own v → ¬ (e' / 4096 ≤ v ∧ v < e' / 4096 + (e - e') / 4096) := fun hv hin =>
      hout v hv ⟨by unfold heapStart; omega, by unfold heapMaxAddr; omega⟩
    rw [heapHas_some, heapHas_some]
    unfold heapStart
    constructor
    · rintro (h1 | h1)
      · exact ⟨Or.inl h1, hown h1⟩
      · exact ⟨Or.inr (by omega), by omega⟩
    · rintro ⟨h1 | h1, h2⟩
      · exact Or.inl h1
      · exact Or.inr (by omega)

/-- With frames for the range and for its page tables, it can be backed. -/
theorem Owned.exists_mapHeapBacking (h : Owned s res ext own) (a size perms : ℕ) {k n : ℕ}
    (ha : a % 4096 = 0) (hv : a / 4096 + size / 4096 ≤ 1047552) (hsize : 0 < size / 4096)
    (hfill : s.pmm.FilledTo k n) (hk : 0 < k) (hn : n ≤ maxFrames)
    (hroom : k + 2 * (size / 4096) ≤ n) :
    ∃ s', s.mapHeapBacking a size perms = .ok s' ∧
      ∃ k' ≤ k + 2 * (size / 4096), s'.pmm.FilledTo k' n ∧ 0 < k' := by
  obtain ⟨pmm, hp, hfill'⟩ := hfill.exists_allocFrames _ hsize (by omega) hn
  obtain ⟨_, _, _, _, ho⟩ := h.allocFrames hp
  have hlt : a < 4294967296 := by omega
  have hbase : pageBase a = a := by
    rw [pageBase_eq hlt]
    exact Nat.div_mul_cancel (Nat.dvd_of_mod_eq_zero ha)
  obtain ⟨s', hs', k', hk', hrest⟩ := exists_mapRun (a := a) (p := pageBase (k * 4096))
    (perms ||| flagPresent) (c := size / 4096) (i := 0) hn ho.wf ha (by omega) hfill' (by omega)
    (by omega)
  refine ⟨s', ?_, k', by omega, hrest⟩
  unfold Mm.mapHeapBacking pageSize
  rw [if_neg (by omega), K.bind_eq_ok]
  refine ⟨_, hp, ?_⟩
  unfold Mm.mapPages
  rw [hbase]
  exact hs'

end Mm

end Ospp
