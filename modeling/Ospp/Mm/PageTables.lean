import Ospp.Mm.Vmm

/-!
# What mapping and unmapping do

The page tables seen from outside: `pte` is the entry of a page, `table` the frame of the page table
for a range of 4 MiB. `WF` is what keeps the recursive window sound: the directory maps itself, page
tables are distinct frames, none of them the directory, and all are in use.

`mapPageLocked_spec` and `unmapPageLocked_spec` give the effect of the two operations on these views
and on the frame bitmap, for pages below the recursive window; loops and clients use nothing else.
-/

namespace Ospp

namespace Mm

/-- The frame of the page table number `i`. -/
def table (s : Mm) (i : ℕ) : Option ℕ :=
  if Entry.present (s.vmm.phys s.vmm.dir i) then some (Entry.frame (s.vmm.phys s.vmm.dir i))
  else none

/-- The entry of page `v`; zero when there is no page table. -/
def pte (s : Mm) (v : ℕ) : ℕ :=
  match s.table (v / 1024) with
  | some t => s.vmm.phys t (v % 1024)
  | none => 0

/-- The frame that page `v` is mapped to. -/
def mapped (s : Mm) (v : ℕ) : Option ℕ :=
  if Entry.present (s.pte v) then some (Entry.frame (s.pte v)) else none

/-- The first page of the recursive window. -/
def windowPage : ℕ := 1047552

structure WF (s : Mm) : Prop where
  self : s.vmm.SelfMapped
  dir_used : s.pmm.used s.vmm.dir = true
  table_used : ∀ i < 1023, ∀ t, s.table i = some t → s.pmm.used t = true
  table_ne_dir : ∀ i < 1023, ∀ t, s.table i = some t → t ≠ s.vmm.dir
  table_inj : ∀ i < 1023, ∀ j < 1023, ∀ t, s.table i = some t → s.table j = some t → i = j

section

variable {s s' : Mm}

theorem pte_of_table {v t : ℕ} (h : s.table (v / 1024) = some t) :
    s.pte v = s.vmm.phys t (v % 1024) := by
  unfold pte; rw [h]

theorem pte_of_none {v : ℕ} (h : s.table (v / 1024) = none) : s.pte v = 0 := by
  unfold pte; rw [h]

theorem table_eq_some {i t : ℕ} : s.table i = some t ↔
    Entry.present (s.vmm.phys s.vmm.dir i) = true ∧ Entry.frame (s.vmm.phys s.vmm.dir i) = t := by
  unfold table
  split_ifs with h
  · simp [h]
  · simp [h]

theorem table_eq_none {i : ℕ} :
    s.table i = none ↔ Entry.present (s.vmm.phys s.vmm.dir i) = false := by
  unfold table
  split_ifs with h
  · simp [h]
  · simpa using h

end

theorem pageBase_eq {a : ℕ} (ha : a < 4294967296) : pageBase a = a / 4096 * 4096 := by
  show Entry.address a = _
  rw [Entry.address_eq]
  omega

/-- Indices of an aligned address below 4 GiB. -/
theorem pdeIndex_pageBase {a : ℕ} (ha : a < 4294967296) :
    pdeIndex (pageBase a) = a / 4096 / 1024 := by
  unfold pdeIndex
  rw [pageBase_eq ha]
  omega

theorem pteIndex_pageBase {a : ℕ} (ha : a < 4294967296) :
    pteIndex (pageBase a) = a / 4096 % 1024 := by
  unfold pteIndex
  rw [pageBase_eq ha]
  omega

/-! ## Page tables -/

/-- The page tables are as before, or there is a new one for range `i` in a frame that was free. -/
inductive TableStep (s s' : Mm) (i : ℕ) : Prop
  | same (hused : ∀ k, s'.pmm.used k = s.pmm.used k) (htable : ∀ j < 1023, s'.table j = s.table j)
  | fresh (t : ℕ) (ht : t < maxFrames) (hfree : s.pmm.used t = false)
      (hused : ∀ k, s'.pmm.used k = (s.pmm.used k || decide (k = t)))
      (hnone : s.table i = none)
      (htable : ∀ j < 1023, s'.table j = if j = i then some t else s.table j)

/-- A word written in the directory below entry 1023 keeps the directory mapped to itself. -/
theorem selfMapped_set_dir {m : Vmm} (h : m.SelfMapped) {i w : ℕ} (hi : i ≠ 1023) :
    (m.set m.dir i w).SelfMapped := by
  unfold Vmm.SelfMapped Vmm.set
  have hne : ¬ ((1023 : ℕ) = i) := fun e => hi e.symm
  simp only [hne, and_false, if_false]
  exact h

/-- Writing entry `i` of the directory. -/
theorem table_set_dir (s : Mm) (pmm : Pmm) (i w j : ℕ) :
    table ⟨pmm, s.vmm.set s.vmm.dir i w⟩ j =
      if j = i then (if Entry.present w then some (Entry.frame w) else none) else s.table j := by
  unfold table Vmm.set
  by_cases hj : j = i
  · simp [hj]
  · simp [hj]

/-- Page entries depend on the page tables and on the words of their frames. -/
theorem pte_congr {s s' : Mm} {u : ℕ} (ht : s'.table (u / 1024) = s.table (u / 1024))
    (hp : ∀ t, s.table (u / 1024) = some t →
      s'.vmm.phys t (u % 1024) = s.vmm.phys t (u % 1024)) : s'.pte u = s.pte u := by
  cases htab : s.table (u / 1024) with
  | none => rw [pte_of_none htab, pte_of_none (ht.trans htab)]
  | some t => rw [pte_of_table htab, pte_of_table (ht.trans htab), hp t htab]

/-- The range has a page table: only flags are added to its entry. -/
theorem ensure_present {s s' : Mm} (hwf : s.WF) {i flags : ℕ} (hi : i < 1023) {t : ℕ}
    (ht : s.table i = some t)
    (hs' : s' = ⟨s.pmm, s.vmm.set s.vmm.dir i
      (Entry.updateFlags (s.vmm.phys s.vmm.dir i) flags)⟩) :
    s'.WF ∧ s'.vmm.dir = s.vmm.dir ∧ TableStep s s' i ∧
      (∃ t, s'.table i = some t) ∧ ∀ u, u / 1024 < 1023 → s'.pte u = s.pte u := by
  obtain ⟨hpres, hframe⟩ := table_eq_some.1 ht
  have htable : ∀ j, s'.table j = s.table j := by
    intro j
    rw [hs', table_set_dir]
    split_ifs with hj hw
    · rw [hj, ht, Entry.frame_updateFlags, hframe]
    · exact absurd (Entry.present_updateFlags flags hpres) hw
    · rfl
  have hphys : ∀ f k, f ≠ s.vmm.dir → s'.vmm.phys f k = s.vmm.phys f k := by
    intro f k hf
    rw [hs']
    show (if f = s.vmm.dir ∧ k = i then _ else _) = _
    rw [if_neg fun h => hf h.1]
  have hdir : s'.vmm.dir = s.vmm.dir := by rw [hs']; rfl
  have hused : ∀ k, s'.pmm.used k = s.pmm.used k := by intro k; rw [hs']
  refine ⟨⟨?_, ?_, ?_, ?_, ?_⟩, hdir, .same hused fun j _ => htable j,
    ⟨t, (htable i).trans ht⟩, fun u hu => ?_⟩
  · rw [hs']
    exact selfMapped_set_dir hwf.self (by omega)
  · rw [hused, hdir]; exact hwf.dir_used
  · intro j hj t' ht'
    rw [hused]
    exact hwf.table_used j hj t' (by rw [← htable, ht'])
  · intro j hj t' ht'
    rw [hdir]
    exact hwf.table_ne_dir j hj t' (by rw [← htable, ht'])
  · intro j hj k hk t' h1 h2
    exact hwf.table_inj j hj k hk t' (by rw [← htable, h1]) (by rw [← htable, h2])
  · exact pte_congr (htable _) fun t' ht' => hphys t' _ (hwf.table_ne_dir _ hu t' ht')

/-- A new page table, zeroed, in a frame that was free. -/
theorem ensure_fresh {s : Mm} (s' : Mm) (hwf : s.WF) {i t w : ℕ} (hi : i < 1023)
    (hnone : s.table i = none) (htlt : t < maxFrames) (hfree : s.pmm.used t = false)
    (hw : Entry.present w = true) (hwt : Entry.frame w = t)
    (hused : ∀ k, s'.pmm.used k = (s.pmm.used k || decide (k = t)))
    (hdir : s'.vmm.dir = s.vmm.dir)
    (hphys : ∀ f k, s'.vmm.phys f k =
      if f = t then 0 else (s.vmm.set s.vmm.dir i w).phys f k) :
    s'.WF ∧ TableStep s s' i ∧
      (∃ t, s'.table i = some t) ∧ ∀ u, u / 1024 < 1023 → s'.pte u = s.pte u := by
  have hne_dir : t ≠ s.vmm.dir := by
    rintro rfl
    rw [hwf.dir_used] at hfree
    cases hfree
  have hne_table : ∀ j < 1023, ∀ t', s.table j = some t' → t' ≠ t := by
    rintro j hj t' ht' rfl
    rw [hwf.table_used j hj _ ht'] at hfree
    cases hfree
  have htable : ∀ j, s'.table j = if j = i then some t else s.table j := by
    intro j
    have hword : s'.vmm.phys s'.vmm.dir j = (s.vmm.set s.vmm.dir i w).phys s.vmm.dir j := by
      rw [hdir, hphys, if_neg (fun e => hne_dir e.symm)]
    have heq : s'.table j = table ⟨s.pmm, s.vmm.set s.vmm.dir i w⟩ j := by
      unfold table
      rw [hword]
      rfl
    rw [heq, table_set_dir, if_pos hw, hwt]
  have hkeep : ∀ f k, f ≠ t → f ≠ s.vmm.dir → s'.vmm.phys f k = s.vmm.phys f k := by
    intro f k h1 h2
    rw [hphys, if_neg h1]
    show (if f = s.vmm.dir ∧ k = i then _ else _) = _
    rw [if_neg fun h => h2 h.1]
  have hmono : ∀ k, s.pmm.used k = true → s'.pmm.used k = true := by
    intro k hk; rw [hused, hk, Bool.true_or]
  refine ⟨⟨?_, ?_, ?_, ?_, ?_⟩, .fresh t htlt hfree hused hnone fun j _ => htable j,
    ⟨t, by rw [htable, if_pos rfl]⟩, fun u hu => ?_⟩
  · unfold Vmm.SelfMapped
    have hword : s'.vmm.phys s'.vmm.dir 1023 = s.vmm.phys s.vmm.dir 1023 := by
      rw [hdir, hphys, if_neg (fun e => hne_dir e.symm)]
      show (if s.vmm.dir = s.vmm.dir ∧ 1023 = i then _ else _) = _
      rw [if_neg (by omega)]
    rw [hword, hdir]
    exact hwf.self
  · rw [hdir]; exact hmono _ hwf.dir_used
  · intro j hj t' ht'
    rw [htable] at ht'
    split_ifs at ht' with hji
    · cases ht'; rw [hused]; simp
    · exact hmono _ (hwf.table_used j hj t' ht')
  · intro j hj t' ht'
    rw [hdir]
    rw [htable] at ht'
    split_ifs at ht' with hji
    · cases ht'; exact hne_dir
    · exact hwf.table_ne_dir j hj t' ht'
  · intro j hj k hk t' h1 h2
    rw [htable] at h1 h2
    split_ifs at h1 h2 with hji hki
    · omega
    · cases h1; exact absurd rfl (hne_table k hk _ h2)
    · cases h2; exact absurd rfl (hne_table j hj _ h1)
    · exact hwf.table_inj j hj k hk t' h1 h2
  · by_cases hui : u / 1024 = i
    · have h1 : s'.table (u / 1024) = some t := by rw [htable, if_pos hui]
      rw [pte_of_table h1, hphys, if_pos rfl, pte_of_none (by rw [hui]; exact hnone)]
    · exact pte_congr (by rw [htable, if_neg hui]) fun t' ht' =>
        hkeep t' _ (hne_table _ hu t' ht') (hwf.table_ne_dir _ hu t' ht')

/-- What `ensure_page_table` writes: flags into the directory entry that is there, or the entry of a
new page table, whose frame was free and is zeroed. -/
theorem ensurePageTable_cases {s s' : Mm} (hwf : s.WF) {a flags : ℕ} (ha : a < 4294967296)
    (hv : a / 4096 / 1024 < 1023) (h : s.ensurePageTable (pageBase a) flags = .ok s') :
    (Entry.present (s.vmm.phys s.vmm.dir (a / 4096 / 1024)) = true ∧
      s' = ⟨s.pmm, s.vmm.set s.vmm.dir (a / 4096 / 1024)
        (Entry.updateFlags (s.vmm.phys s.vmm.dir (a / 4096 / 1024)) flags)⟩) ∨
    (Entry.present (s.vmm.phys s.vmm.dir (a / 4096 / 1024)) = false ∧
      ∃ t w pmm, t < maxFrames ∧ s.pmm.used t = false ∧
        w = Entry.make (t * 4096) (flagPresent ||| flagWritable ||| (flags &&& flagUser)) ∧
        Entry.present w = true ∧ Entry.frame w = t ∧
        (∀ k, pmm.used k = (s.pmm.used k || decide (k = t))) ∧
        s' = ⟨pmm, { s.vmm with phys := fun f k =>
          if f = t then 0 else (s.vmm.set s.vmm.dir (a / 4096 / 1024) w).phys f k }⟩) := by
  obtain ⟨i, hi⟩ : ∃ i, i = a / 4096 / 1024 := ⟨_, rfl⟩
  have hidx : pdeIndex (pageBase a) = i := by rw [pdeIndex_pageBase ha, hi]
  rw [← hi] at hv ⊢
  unfold ensurePageTable at h
  rw [K.bind_eq_ok] at h
  obtain ⟨pde, hpde, h⟩ := h
  rw [Vmm.readEntry_pde hwf.self, hidx] at hpde
  cases hpde
  by_cases hp : Entry.present (s.vmm.phys s.vmm.dir i) = true
  · rw [if_pos hp, Vmm.writeEntry_pde hwf.self, hidx] at h
    cases h
    exact Or.inl ⟨hp, rfl⟩
  · rw [if_neg hp, K.bind_eq_ok] at h
    obtain ⟨⟨pmm, ptPhys⟩, halloc, h⟩ := h
    dsimp only at h
    split_ifs at h with h0
    rw [Vmm.writeEntry_pde hwf.self, hidx, K.bind_eq_ok] at h
    obtain ⟨m₁, hm₁, h⟩ := h
    cases hm₁
    obtain ⟨t, ht, rfl, hfree, hread⟩ := Pmm.allocFrames_eq_ok halloc
    obtain ⟨w, hw⟩ : ∃ w, w =
        Entry.make (t * 4096) (flagPresent ||| flagWritable ||| (flags &&& flagUser)) := ⟨_, rfl⟩
    have htlt : t < maxFrames := by omega
    have hpres : Entry.present w = true := by
      rw [hw, Entry.present_make, decide_eq_true_eq, Nat.or_mod_two_eq_one]
      left; decide
    have hframe : Entry.frame w = t := by
      unfold maxFrames at htlt
      rw [hw, Entry.frame_make]; omega
    have hentry : (s.vmm.set s.vmm.dir i w).phys (s.vmm.set s.vmm.dir i w).dir
        (pdeIndex (pageBase a)) = w := by
      rw [hidx]
      show (if s.vmm.dir = s.vmm.dir ∧ i = i then w else _) = w
      rw [if_pos ⟨rfl, rfl⟩]
    rw [← hw, K.bind_eq_ok] at h
    obtain ⟨m₂, hm₂, h⟩ := h
    rw [Vmm.zeroPage_pt (selfMapped_set_dir hwf.self (by omega)) (by rw [hentry]; exact hpres),
      hentry, hframe] at hm₂
    cases hm₂
    cases h
    refine Or.inr ⟨by simpa using hp, t, w, pmm, htlt, hfree 0 one_pos, hw, hpres, hframe,
      fun k => ?_, rfl⟩
    rw [hread]
    congr 1
    exact Bool.eq_iff_iff.2 (by simp; omega)

/-- **`ensure_page_table`.** Afterwards there is a page table; no page entry has changed. -/
theorem ensurePageTable_spec {s s' : Mm} (hwf : s.WF) {a flags : ℕ} (ha : a < 4294967296)
    (hv : a / 4096 / 1024 < 1023) (h : s.ensurePageTable (pageBase a) flags = .ok s') :
    s'.WF ∧ s'.vmm.dir = s.vmm.dir ∧ TableStep s s' (a / 4096 / 1024) ∧
      (∃ t, s'.table (a / 4096 / 1024) = some t) ∧ ∀ u, u / 1024 < 1023 → s'.pte u = s.pte u := by
  rcases ensurePageTable_cases hwf ha hv h with
    ⟨hp, hs'⟩ | ⟨hp, t, w, pmm, ht, hfree, _, hpres, hframe, hused, rfl⟩
  · exact ensure_present hwf hv (table_eq_some.2 ⟨hp, rfl⟩) hs'
  · obtain ⟨h1, h2, h3, h4⟩ := ensure_fresh ⟨pmm, { s.vmm with phys := fun f k =>
        if f = t then 0 else (s.vmm.set s.vmm.dir (a / 4096 / 1024) w).phys f k }⟩
      hwf hv (table_eq_none.2 hp) ht hfree hpres hframe hused rfl fun f k => rfl
    exact ⟨h1, rfl, h2, h3, h4⟩

/-! ## Pages -/

/-- Writing the entry of page `v` in its table. -/
theorem set_pte {s : Mm} (s' : Mm) (hwf : s.WF) {v t w : ℕ} (hv : v / 1024 < 1023)
    (ht : s.table (v / 1024) = some t)
    (hpmm : ∀ j < 1023, ∀ t', s.table j = some t' → s'.pmm.used t' = true)
    (hdirUsed : s'.pmm.used s.vmm.dir = true)
    (hs' : s'.vmm = s.vmm.set t (v % 1024) w) :
    s'.WF ∧ s'.vmm.dir = s.vmm.dir ∧ (∀ j, s'.table j = s.table j) ∧
      ∀ u, u / 1024 < 1023 → s'.pte u = if u = v then w else s.pte u := by
  have hne : t ≠ s.vmm.dir := hwf.table_ne_dir _ hv t ht
  have hdir : s'.vmm.dir = s.vmm.dir := by rw [hs']; rfl
  have hphys : ∀ f k, s'.vmm.phys f k = if f = t ∧ k = v % 1024 then w else s.vmm.phys f k := by
    intro f k; rw [hs']; rfl
  have hword : ∀ j, s'.vmm.phys s'.vmm.dir j = s.vmm.phys s.vmm.dir j := by
    intro j; rw [hdir, hphys, if_neg fun h => hne h.1.symm]
  have htable : ∀ j, s'.table j = s.table j := by
    intro j; unfold table; rw [hword]
  refine ⟨⟨?_, ?_, ?_, ?_, ?_⟩, hdir, htable, fun u hu => ?_⟩
  · unfold Vmm.SelfMapped; rw [hword, hdir]; exact hwf.self
  · rw [hdir]; exact hdirUsed
  · intro j hj t' ht'; exact hpmm j hj t' (by rw [← htable, ht'])
  · intro j hj t' ht'; rw [hdir]; exact hwf.table_ne_dir j hj t' (by rw [← htable, ht'])
  · intro j hj k hk t' h1 h2
    exact hwf.table_inj j hj k hk t' (by rw [← htable, h1]) (by rw [← htable, h2])
  · by_cases huv : u = v
    · rw [if_pos huv, huv, pte_of_table ((htable _).trans ht), hphys, if_pos ⟨rfl, rfl⟩]
    · rw [if_neg huv]
      refine pte_congr (htable _) fun t' ht' => ?_
      rw [hphys, if_neg]
      rintro ⟨rfl, hmod⟩
      have := hwf.table_inj _ hu _ hv t' ht' ht
      omega

/-- What `map_page_locked` does. -/
theorem mapPageLocked_cases {s s' : Mm} (hwf : s.WF) {a p flags : ℕ} (ha : a < 4294967296)
    (hv : a / 4096 / 1024 < 1023) (h : s.mapPageLocked a p flags = .ok s') :
    ∃ s₁ t, s.ensurePageTable (pageBase a) flags = .ok s₁ ∧
      s₁.table (a / 4096 / 1024) = some t ∧
      s' = ⟨s₁.pmm, s₁.vmm.set t (a / 4096 % 1024) (Entry.make (pageBase p) flags)⟩ := by
  unfold mapPageLocked at h
  dsimp only at h
  rw [K.bind_eq_ok] at h
  obtain ⟨s₁, h₁, h⟩ := h
  obtain ⟨hwf₁, _, _, ⟨t, ht⟩, _⟩ := ensurePageTable_spec hwf ha hv h₁
  obtain ⟨hpres, hframe⟩ := table_eq_some.1 ht
  rw [← pdeIndex_pageBase ha] at hpres hframe
  rw [Vmm.writeEntry_pte hwf₁.self _ hpres, hframe, pteIndex_pageBase ha] at h
  cases h
  exact ⟨s₁, t, h₁, ht, rfl⟩

/-- What `unmap_page_locked` does. -/
theorem unmapPageLocked_cases {s s' : Mm} (hwf : s.WF) {a : ℕ} (ha : a < 4294967296)
    (h : s.unmapPageLocked a = .ok s') :
    (s.mapped (a / 4096) = none ∧ s' = s) ∨
      ∃ t pmm, s.table (a / 4096 / 1024) = some t ∧ Entry.present (s.pte (a / 4096)) = true ∧
        s.pmm.freeFrames (Entry.address (s.pte (a / 4096))) 1 = .ok pmm ∧
        s' = ⟨pmm, s.vmm.set t (a / 4096 % 1024) 0⟩ := by
  unfold unmapPageLocked at h
  dsimp only at h
  rw [K.bind_eq_ok] at h
  obtain ⟨pde, hpde, h⟩ := h
  rw [Vmm.readEntry_pde hwf.self, pdeIndex_pageBase ha] at hpde
  cases hpde
  by_cases hp : Entry.present (s.vmm.phys s.vmm.dir (a / 4096 / 1024)) = true
  · rw [hp, Bool.not_true, if_neg Bool.false_ne_true, K.bind_eq_ok] at h
    obtain ⟨t, ht⟩ : ∃ t, s.table (a / 4096 / 1024) = some t := ⟨_, table_eq_some.2 ⟨hp, rfl⟩⟩
    obtain ⟨_, hframe⟩ := table_eq_some.1 ht
    obtain ⟨pte, hpte, h⟩ := h
    rw [← pdeIndex_pageBase ha] at hp hframe
    rw [Vmm.readEntry_pte hwf.self hp, hframe, pteIndex_pageBase ha] at hpte
    cases hpte
    rw [← pte_of_table ht] at h
    by_cases hpp : Entry.present (s.pte (a / 4096)) = true
    · rw [hpp, Bool.not_true, if_neg Bool.false_ne_true, K.bind_eq_ok] at h
      obtain ⟨pmm, hfree, h⟩ := h
      rw [Vmm.writeEntry_pte hwf.self _ hp, hframe, pteIndex_pageBase ha] at h
      cases h
      exact Or.inr ⟨t, pmm, ht, hpp, hfree, rfl⟩
    · rw [Bool.not_eq_true] at hpp
      rw [hpp, Bool.not_false, if_pos rfl] at h
      cases h
      exact Or.inl ⟨by unfold mapped; rw [hpp]; rfl, rfl⟩
  · rw [Bool.not_eq_true] at hp
    rw [hp, Bool.not_false, if_pos rfl] at h
    cases h
    refine Or.inl ⟨?_, rfl⟩
    unfold mapped
    rw [pte_of_none (table_eq_none.2 hp), Entry.present_zero]
    rfl

/-- **`map_page_locked`.** The entry of the page is written, whatever it was; no other page entry
changes. -/
theorem mapPageLocked_spec {s s' : Mm} (hwf : s.WF) {a p flags : ℕ} (ha : a < 4294967296)
    (hv : a / 4096 / 1024 < 1023) (h : s.mapPageLocked a p flags = .ok s') :
    s'.WF ∧ s'.vmm.dir = s.vmm.dir ∧ TableStep s s' (a / 4096 / 1024) ∧
      ∀ u, u / 1024 < 1023 → s'.pte u =
        if u = a / 4096 then Entry.make (pageBase p) flags else s.pte u := by
  obtain ⟨s₁, t, h₁, ht, rfl⟩ := mapPageLocked_cases hwf ha hv h
  obtain ⟨hwf₁, hdir₁, hstep, _, hpte₁⟩ := ensurePageTable_spec hwf ha hv h₁
  obtain ⟨hwf₂, hdir₂, htab₂, hpte₂⟩ := set_pte
    ⟨s₁.pmm, s₁.vmm.set t (a / 4096 % 1024) (Entry.make (pageBase p) flags)⟩ hwf₁ hv ht
    hwf₁.table_used hwf₁.dir_used rfl
  refine ⟨hwf₂, hdir₂.trans hdir₁, ?_, fun u hu => ?_⟩
  · cases hstep with
    | same hused htable => exact .same hused fun j hj => (htab₂ j).trans (htable j hj)
    | fresh t' ht' hfree hused hnone htable =>
      exact .fresh t' ht' hfree hused hnone fun j hj => (htab₂ j).trans (htable j hj)
  · rw [hpte₂ u hu]
    split_ifs
    · rfl
    · exact hpte₁ u hu

/-- **`unmap_page_locked`.** A page that is mapped loses its entry, and the frame in the entry is
released, whoever it belongs to; otherwise nothing happens. The released frame must not be a page
table for the tables to stay sound. -/
theorem unmapPageLocked_spec {s s' : Mm} (hwf : s.WF) {a : ℕ} (ha : a < 4294967296)
    (hv : a / 4096 / 1024 < 1023)
    (hsafe : ∀ f, s.mapped (a / 4096) = some f →
      f ≠ s.vmm.dir ∧ ∀ j < 1023, s.table j ≠ some f)
    (h : s.unmapPageLocked a = .ok s') :
    (s.mapped (a / 4096) = none ∧ s' = s) ∨
      ∃ f, s.mapped (a / 4096) = some f ∧ s'.WF ∧ s'.vmm.dir = s.vmm.dir ∧
        (∀ j, s'.table j = s.table j) ∧ s.pmm.used f = true ∧
        (∀ k, s'.pmm.used k = (s.pmm.used k && !decide (k = f))) ∧
        ∀ u, u / 1024 < 1023 → s'.pte u = if u = a / 4096 then 0 else s.pte u := by
  rcases unmapPageLocked_cases hwf ha h with hnone | ⟨t, pmm, ht, hpp, hfree, rfl⟩
  · exact Or.inl hnone
  · obtain ⟨f, hf⟩ : ∃ f, f = Entry.frame (s.pte (a / 4096)) := ⟨_, rfl⟩
    have hmap : s.mapped (a / 4096) = some f := by unfold mapped; rw [if_pos hpp, hf]
    rw [Entry.address_eq_frame, ← hf] at hfree
    have hlt : f < 1048576 := by rw [hf, Entry.frame_eq]; omega
    obtain ⟨hset, hread⟩ := Pmm.freeFrames_eq_ok (by omega) hfree
    rw [Nat.mul_div_cancel _ (by norm_num)] at hset hread
    have hused : ∀ k, pmm.used k = (s.pmm.used k && !decide (k = f)) := by
      intro k
      rw [hread]
      congr 2
      exact Bool.eq_iff_iff.2 (by simp; omega)
    obtain ⟨hnd, hnt⟩ := hsafe f hmap
    obtain ⟨h1, h2, h3, h4⟩ := set_pte
      ⟨pmm, s.vmm.set t (a / 4096 % 1024) 0⟩ hwf hv ht
      (fun j hj t' ht' => by
        have hne : t' ≠ f := fun e => hnt j hj (by rw [← e]; exact ht')
        rw [hused, hwf.table_used j hj t' ht', decide_eq_false hne]
        rfl)
      (by rw [hused, hwf.dir_used, decide_eq_false hnd.symm]; rfl) rfl
    exact Or.inr ⟨f, hmap, h1, h2, h3, hset 0 one_pos, hused, h4⟩

/-! ## When they succeed -/

/-- With a page table in place, or a frame for one, a page can be mapped. The frame for a page table
is the first that is free. -/
theorem exists_mapPageLocked {s : Mm} (hwf : s.WF) (h0 : s.pmm.used 0 = true) {a p flags : ℕ}
    (ha : a < 4294967296) (hv : a / 4096 / 1024 < 1023) {k : ℕ} (hk : k < maxFrames)
    (hfree : s.pmm.used k = false) (hlow : ∀ j < k, s.pmm.used j = true) :
    ∃ s', s.mapPageLocked a p flags = .ok s' ∧ (s'.pmm = s.pmm ∨
      ∀ j, s'.pmm.used j = (s.pmm.used j || decide (k ≤ j ∧ j < k + 1))) := by
  have hidx : pdeIndex (pageBase a) = a / 4096 / 1024 := pdeIndex_pageBase ha
  have hensure : ∃ s₁, s.ensurePageTable (pageBase a) flags = .ok s₁ ∧ (s₁.pmm = s.pmm ∨
      ∀ j, s₁.pmm.used j = (s.pmm.used j || decide (k ≤ j ∧ j < k + 1))) := by
    unfold ensurePageTable
    rw [Vmm.readEntry_pde hwf.self]
    simp only [K.bind_eq_ok, Except.ok.injEq, exists_eq_left']
    by_cases hp : Entry.present (s.vmm.phys s.vmm.dir (pdeIndex (pageBase a))) = true
    · rw [if_pos hp, Vmm.writeEntry_pde hwf.self]
      exact ⟨_, rfl, Or.inl rfl⟩
    · obtain ⟨pmm, halloc, hused⟩ := Pmm.exists_allocFrames one_pos (Nat.succ_le_of_lt hk)
        (fun j hj => by rw [show k + j = k by omega]; exact hfree) hlow
      have hk0 : k * 4096 ≠ 0 := by
        intro hc
        rw [show k = 0 by omega, h0] at hfree
        cases hfree
      rw [if_neg hp, halloc]
      simp only [K.bind_eq_ok, Except.ok.injEq, exists_eq_left']
      rw [if_neg hk0, Vmm.writeEntry_pde hwf.self]
      simp only [K.bind_eq_ok, Except.ok.injEq, exists_eq_left']
      have hentry : ∀ w, (s.vmm.set s.vmm.dir (pdeIndex (pageBase a)) w).phys
          (s.vmm.set s.vmm.dir (pdeIndex (pageBase a)) w).dir (pdeIndex (pageBase a)) = w :=
        fun w => if_pos ⟨rfl, rfl⟩
      rw [Vmm.zeroPage_pt (selfMapped_set_dir hwf.self (by omega))
        (by
          rw [hentry, Entry.present_make, decide_eq_true_eq, Nat.or_mod_two_eq_one]
          left; decide)]
      exact ⟨_, ⟨_, rfl, rfl⟩, Or.inr hused⟩
  obtain ⟨s₁, h₁, hused⟩ := hensure
  obtain ⟨hwf₁, _, _, ⟨t, ht⟩, _⟩ := ensurePageTable_spec hwf ha hv h₁
  obtain ⟨hpres, _⟩ := table_eq_some.1 ht
  rw [← hidx] at hpres
  unfold mapPageLocked
  dsimp only
  rw [h₁]
  simp only [K.bind_eq_ok, Except.ok.injEq, exists_eq_left']
  rw [Vmm.writeEntry_pte hwf₁.self _ hpres]
  exact ⟨_, ⟨_, rfl, rfl⟩, hused⟩

/-- As many pages as there are free frames can be mapped. -/
theorem exists_mapRun {a p : ℕ} (flags : ℕ) {n : ℕ} (hn : n ≤ maxFrames) : ∀ {c i k : ℕ} {s : Mm}, s.WF →
    a % 4096 = 0 → a / 4096 + i + c ≤ 1047552 → s.pmm.FilledTo k n → 0 < k → k + c ≤ n →
    ∃ s', mapRun a p flags c i s = .ok s' ∧ ∃ k' ≤ k + c, s'.pmm.FilledTo k' n ∧ 0 < k' := by
  intro c
  induction c with
  | zero => intro i k s _ _ _ h hk _; exact ⟨s, rfl, k, le_refl _, h, hk⟩
  | succ c ih =>
    intro i k s hwf hal hv h hk hc
    have haddr : Word32.add a (Word32.mul i pageSize) = a + i * 4096 := by
      unfold pageSize
      rw [Word32.mul_eq (by omega), Word32.add_eq (by omega)]
    obtain ⟨s₁, h₁, hused⟩ : ∃ s₁, s.mapPageLocked (a + i * 4096)
        (Word32.add p (Word32.mul i pageSize)) flags = .ok s₁ ∧ _ :=
      exists_mapPageLocked (k := k) hwf (h.1 0 hk) (by omega) (by omega) (by omega)
        (h.2 k (le_refl k) (by omega)) h.1
    obtain ⟨hwf₁, _⟩ := mapPageLocked_spec hwf (by omega) (by omega) h₁
    obtain ⟨k₁, hk₁, hfill, hpos⟩ : ∃ k₁ ≤ k + 1, s₁.pmm.FilledTo k₁ n ∧ 0 < k₁ := by
      obtain heq | hused := hused
      · exact ⟨k, by omega, by rwa [heq], hk⟩
      · exact ⟨k + 1, le_refl _, h.alloc hused, by omega⟩
    obtain ⟨s', h', k', hk', hrest⟩ := ih (i := i + 1) hwf₁ hal (by omega) hfill hpos (by omega)
    refine ⟨s', ?_, k', by omega, hrest⟩
    rw [mapRun, K.bind_eq_ok, haddr]
    exact ⟨s₁, h₁, h'⟩

/-- A page whose frame is in use can be unmapped. -/
theorem exists_unmapPageLocked {s : Mm} (hwf : s.WF) {a f : ℕ} (ha : a < 4294967296)
    (hf : s.mapped (a / 4096) = some f) (hused : s.pmm.used f = true) :
    ∃ s', s.unmapPageLocked a = .ok s' := by
  unfold mapped at hf
  split_ifs at hf with hpp
  cases hf
  cases ht : s.table (a / 4096 / 1024) with
  | none => rw [pte_of_none ht, Entry.present_zero] at hpp; cases hpp
  | some t =>
    obtain ⟨hp, hframe⟩ := table_eq_some.1 ht
    rw [← pdeIndex_pageBase ha] at hp hframe
    rw [pte_of_table ht] at hpp hused
    have hlt : Entry.frame (s.vmm.phys t (a / 4096 % 1024)) < maxFrames := by
      rw [Entry.frame_eq]; unfold maxFrames; omega
    obtain ⟨pmm, hfree⟩ := Pmm.exists_freeFrame hlt hused
    rw [← Entry.address_eq_frame] at hfree
    unfold unmapPageLocked
    dsimp only
    rw [Vmm.readEntry_pde hwf.self, Vmm.readEntry_pte hwf.self hp, Vmm.writeEntry_pte hwf.self _ hp,
      hframe, pteIndex_pageBase ha]
    simp only [K.bind_eq_ok, Except.ok.injEq, exists_eq_left', hp, hpp, Bool.not_true,
      Bool.false_eq_true, if_false, hfree]
    exact ⟨_, rfl⟩

end Mm

end Ospp
