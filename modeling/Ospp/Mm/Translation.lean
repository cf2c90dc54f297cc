import Ospp.Lib.Trans
import Ospp.Mm.Ownership

/-!
# What the page tables mean

A translation is a partial map from pages to frames with flags, and the four operations of `vmm` are
sequences of updates of it, one page each. The two-level page tables refine this: `Sim` relates a
state of the memory managers to the translation it stands for, every page step of `map_page_locked`
and `unmap_page_locked` keeps the relation, and `virt_to_phys`, `is_mapped` and the permissions of
the processor read the translation back (`translation_semantics`).

The directory entry of a range of 4 MiB is shared by 1024 pages, and flags are only ever added to
it. It is `Writable` from the beginning, and `User` as soon as one of its pages is; so what decides
is the entry of the page itself.
-/

namespace Ospp

open Trans

/-! ## Lookups -/

namespace Vmm

def virtToPhys (m : Vmm) (virtAddr : ℕ) : K ℕ := do
  let pde ← m.readEntry (pdeEntry virtAddr)
  if !Entry.hasFlag pde flagPresent then return 0xFFFFFFFF
  else
    let pte ← m.readEntry (pteEntry virtAddr)
    if !Entry.hasFlag pte flagPresent then return 0xFFFFFFFF
    else return Entry.address pte ||| (virtAddr &&& 0xFFF)

def isMapped (m : Vmm) (virtAddr : ℕ) : K Bool := do
  let pde ← m.readEntry (pdeEntry virtAddr)
  if !Entry.hasFlag pde flagPresent then return false
  else
    let pte ← m.readEntry (pteEntry virtAddr)
    return Entry.hasFlag pte flagPresent

/-- The permission the processor grants on a page: both entries of its walk have to have the flag. -/
def allows (m : Vmm) (virtAddr flag : ℕ) : Bool :=
  let pde := m.phys m.dir (pdeIndex virtAddr)
  Entry.hasFlag pde flag && Entry.hasFlag (m.phys (Entry.frame pde) (pteIndex virtAddr)) flag

end Vmm

/-! ## Translations -/

/-- What pages are mapped to: a frame, and the flags asked for. -/
abbrev Translation := ℕ → Option (ℕ × ℕ)

inductive PageOp where
  | map (page frame flags : ℕ)
  | unmap (page : ℕ)

def PageOp.page : PageOp → ℕ
  | .map v _ _ => v
  | .unmap v => v

namespace Translation

def apply (A : Translation) : PageOp → Translation
  | .map v f flags => Function.update A v (some (f, flags))
  | .unmap v => Function.update A v none

def applyAll (A : Translation) (ops : List PageOp) : Translation := ops.foldl apply A

/-- The physical address of an address, as `virt_to_phys` reports it. -/
def phys (A : Translation) (a : ℕ) : ℕ :=
  match A (a / 4096) with
  | none => 0xFFFFFFFF
  | some (f, _) => f * 4096 + a % 4096

theorem apply_map (A : Translation) (v f flags u : ℕ) :
    A.apply (.map v f flags) u = if u = v then some (f, flags) else A u :=
  Function.update_apply _ _ _ _

theorem apply_unmap (A : Translation) (v u : ℕ) :
    A.apply (.unmap v) u = if u = v then none else A u :=
  Function.update_apply _ _ _ _

theorem apply_of_ne (A : Translation) {op : PageOp} {v : ℕ} (h : v ≠ op.page) :
    A.apply op v = A v := by
  cases op with
  | map w f flags => exact Function.update_of_ne h _ _
  | unmap w => exact Function.update_of_ne h _ _

theorem applyAll_of_ne : ∀ {ops : List PageOp} (A : Translation) {v : ℕ},
    (∀ op ∈ ops, v ≠ op.page) → A.applyAll ops v = A v := by
  intro ops
  induction ops with
  | nil => intro A v _; rfl
  | cons op ops ih =>
    intro A v h
    show (A.apply op).applyAll ops v = A v
    rw [ih _ fun o ho => h o (List.mem_cons_of_mem _ ho), apply_of_ne _ (h op List.mem_cons_self)]

end Translation

namespace Mm

/-- One page. -/
def PageStep (s : Mm) (op : PageOp) (s' : Mm) : Prop :=
  match op with
  | .map v f flags => s.mapPageLocked (v * 4096) (f * 4096) flags = .ok s'
  | .unmap v => s.unmapPageLocked (v * 4096) = .ok s'

/-! ## Calls -/

/-- The operations of `vmm` on translations. -/
inductive Call where
  | mapPage (virtAddr physAddr flags : UInt32)
  | mapPages (virtAddr physAddr pages flags : UInt32)
  | unmapPage (virtAddr : UInt32)
  | unmapPages (virtAddr pages : UInt32)

def call (s : Mm) : Call → K Mm
  | .mapPage virtAddr physAddr flags =>
    s.mapPageLocked virtAddr.toNat physAddr.toNat flags.toNat
  | .mapPages virtAddr physAddr pages flags =>
    s.mapPages virtAddr.toNat physAddr.toNat pages.toNat flags.toNat
  | .unmapPage virtAddr => s.unmapPageLocked virtAddr.toNat
  | .unmapPages virtAddr pages => s.unmapPages virtAddr.toNat pages.toNat

def CallStep (s : Mm) (c : Call) (s' : Mm) : Prop := s.call c = .ok s'

/-- The pages a call works on, in order. -/
def Call.ops : Call → List PageOp
  | .mapPage virtAddr physAddr flags =>
    [.map (virtAddr.toNat / 4096) (physAddr.toNat / 4096) flags.toNat]
  | .mapPages virtAddr physAddr pages flags => (List.range pages.toNat).map fun i =>
    .map ((virtAddr.toNat / 4096 + i) % 1048576) ((physAddr.toNat / 4096 + i) % 1048576) flags.toNat
  | .unmapPage virtAddr => [.unmap (virtAddr.toNat / 4096)]
  | .unmapPages virtAddr pages => (List.range pages.toNat).map fun i =>
    .unmap ((virtAddr.toNat / 4096 + i) % 1048576)

/-! ## Statements -/

/-- The page is below the recursive window and above the boot identity window. -/
def Ordinary (v : ℕ) : Prop := identityPages ≤ v ∧ v / 1024 < 1023

/-- The condition on a step: an ordinary page; `Present` and other flags among the first five; a
frame that is not a page table or the directory, which the recursive window maps already; and a page
table, if the step makes one, in a frame that is not in use otherwise. -/
def PageOk (s : Mm) : PageOp → Prop
  | .map v f flags => Ordinary v ∧ flags < 32 ∧ flags % 2 = 1 ∧ f < maxFrames ∧ f ≠ s.vmm.dir ∧
    (∀ j < 1023, s.table j ≠ some f) ∧
    (s.table (v / 1024) = none → ∀ s', s.PageStep (.map v f flags) s' →
      ∀ t, s'.table (v / 1024) = some t → t ≠ f ∧ ∀ u, Ordinary u → s.mapped u ≠ some t)
  | .unmap v => Ordinary v

/-- Lookups and permissions of every ordinary address are those of the translation. -/
def Reads (s : Mm) (A : Translation) : Prop :=
  ∀ a < 4294967296, Ordinary (a / 4096) →
    s.vmm.virtToPhys a = .ok (A.phys a) ∧ s.vmm.isMapped a = .ok (A (a / 4096)).isSome ∧
    ∀ f flags, A (a / 4096) = some (f, flags) →
      s.vmm.allows a flagUser = Entry.hasFlag flags flagUser ∧
      s.vmm.allows a flagWritable = Entry.hasFlag flags flagWritable

/-! ## Flags -/

theorem hasFlag_two_pow (w : ℕ) {k : ℕ} (hk : k < 12) :
    Entry.hasFlag w (2 ^ k) = w.testBit k := by
  unfold Entry.hasFlag
  have hbit : (w &&& 0xFFF).testBit k = w.testBit k := by
    rw [Entry.and_mask, show (4096 : ℕ) = 2 ^ 12 by norm_num, Nat.testBit_mod_two_pow,
      decide_eq_true hk, Bool.true_and]
  rw [Nat.and_two_pow, hbit]
  cases w.testBit k with
  | true => simp
  | false =>
    have := Nat.two_pow_pos k
    simp
    omega

theorem testBit_make (p flags : ℕ) {k : ℕ} (hk : k < 12) :
    (Entry.make p flags).testBit k = flags.testBit k := by
  have hlow : (p / 4096 % 1048576 * 4096 + flags % 4096) % 2 ^ 12 = flags % 2 ^ 12 := by omega
  have h1 := Nat.testBit_mod_two_pow (Entry.make p flags) 12 k
  have h2 := Nat.testBit_mod_two_pow flags 12 k
  rw [Entry.make_eq, hlow] at h1
  rw [decide_eq_true hk, Bool.true_and] at h1 h2
  rw [Entry.make_eq, ← h1, h2]

theorem testBit_updateFlags (w flags : ℕ) {k : ℕ} (hk : k < 12) :
    (Entry.updateFlags w flags).testBit k = (w.testBit k || flags.testBit k) := by
  unfold Entry.updateFlags
  rw [Nat.testBit_or, Entry.and_mask, show (4096 : ℕ) = 2 ^ 12 by norm_num,
    Nat.testBit_mod_two_pow, decide_eq_true hk, Bool.true_and]

/-! ## Directory entries -/

/-- The directory entry number `i`. -/
def pde (s : Mm) (i : ℕ) : ℕ := s.vmm.phys s.vmm.dir i

section

variable {s s' : Mm}

/-- `ensure_page_table` and the directory: flags are added to an entry that is present; another
one gets a page table and the flags for it. -/
theorem ensurePageTable_pde (hwf : s.WF) {a flags : ℕ} (ha : a < 4294967296)
    (hv : a / 4096 / 1024 < 1023) (h : s.ensurePageTable (pageBase a) flags = .ok s') :
    (∀ j, j ≠ a / 4096 / 1024 → s'.pde j = s.pde j) ∧
      ((∃ t, s.table (a / 4096 / 1024) = some t) →
        s'.pde (a / 4096 / 1024) = Entry.updateFlags (s.pde (a / 4096 / 1024)) flags) ∧
      (s.table (a / 4096 / 1024) = none → ∃ p, s'.pde (a / 4096 / 1024) =
        Entry.make p (flagPresent ||| flagWritable ||| (flags &&& flagUser))) := by
  obtain ⟨i, hi⟩ : ∃ i, i = a / 4096 / 1024 := ⟨_, rfl⟩
  have hset : ∀ w j, (s.vmm.set s.vmm.dir i w).phys s.vmm.dir j =
      if j = i then w else s.vmm.phys s.vmm.dir j := by
    intro w j
    show (if s.vmm.dir = s.vmm.dir ∧ j = i then w else _) = _
    simp only [true_and]
  have hcases := ensurePageTable_cases hwf ha hv h
  rw [← hi] at hcases ⊢
  rcases hcases with ⟨hp, rfl⟩ | ⟨hp, t, w, pmm, _, hfree, hw, _, _, _, rfl⟩
  · refine ⟨fun j hj => ?_, fun _ => ?_, fun hn => ?_⟩
    · show (s.vmm.set s.vmm.dir i _).phys s.vmm.dir j = _
      rw [hset, if_neg hj]
      rfl
    · show (s.vmm.set s.vmm.dir i _).phys s.vmm.dir i = _
      rw [hset, if_pos rfl]
      rfl
    · rw [table_eq_none.1 hn] at hp
      cases hp
  · have hne : s.vmm.dir ≠ t := by
      intro he
      rw [← he, hwf.dir_used] at hfree
      cases hfree
    have hword : ∀ j, (if s.vmm.dir = t then 0 else (s.vmm.set s.vmm.dir i w).phys s.vmm.dir j) =
        if j = i then w else s.vmm.phys s.vmm.dir j := by
      intro j
      rw [if_neg hne, hset]
    refine ⟨fun j hj => (hword j).trans (if_neg hj), fun ⟨t', ht'⟩ => ?_, fun _ => ⟨t * 4096, ?_⟩⟩
    · rw [table_eq_none.2 hp] at ht'
      cases ht'
    · exact ((hword i).trans (if_pos rfl)).trans hw

/-- `map_page_locked` and the directory. -/
theorem mapPageLocked_pde (hwf : s.WF) {a p flags : ℕ} (ha : a < 4294967296)
    (hv : a / 4096 / 1024 < 1023) (h : s.mapPageLocked a p flags = .ok s') :
    (∀ j, j ≠ a / 4096 / 1024 → s'.pde j = s.pde j) ∧
      ((∃ t, s.table (a / 4096 / 1024) = some t) →
        s'.pde (a / 4096 / 1024) = Entry.updateFlags (s.pde (a / 4096 / 1024)) flags) ∧
      (s.table (a / 4096 / 1024) = none → ∃ p, s'.pde (a / 4096 / 1024) =
        Entry.make p (flagPresent ||| flagWritable ||| (flags &&& flagUser))) := by
  obtain ⟨s₁, t, h₁, ht, rfl⟩ := mapPageLocked_cases hwf ha hv h
  have hne := (ensurePageTable_spec hwf ha hv h₁).1.table_ne_dir _ hv t ht
  have hword : ∀ j, Mm.pde ⟨s₁.pmm,
      s₁.vmm.set t (a / 4096 % 1024) (Entry.make (pageBase p) flags)⟩ j = s₁.pde j := by
    intro j
    show (if s₁.vmm.dir = t ∧ j = a / 4096 % 1024 then _ else _) = _
    rw [if_neg fun e => hne e.1.symm]
    rfl
  simp only [hword]
  exact ensurePageTable_pde hwf ha hv h₁

/-- `unmap_page_locked` leaves the directory alone. -/
theorem unmapPageLocked_pde (hwf : s.WF) {a : ℕ} (ha : a < 4294967296)
    (hv : a / 4096 / 1024 < 1023) (h : s.unmapPageLocked a = .ok s') (j : ℕ) :
    s'.pde j = s.pde j := by
  rcases unmapPageLocked_cases hwf ha h with ⟨_, rfl⟩ | ⟨t, pmm, ht, _, _, rfl⟩
  · rfl
  · show (if s.vmm.dir = t ∧ j = a / 4096 % 1024 then _ else _) = _
    rw [if_neg fun e => hwf.table_ne_dir _ hv t ht e.1.symm]
    rfl

/-! ## The simulation -/

/-- The entry of a page with a translation. -/
def entryOf : Option (ℕ × ℕ) → ℕ
  | none => 0
  | some (f, flags) => Entry.make (f * 4096) flags

/-- **The state stands for the translation.** -/
structure Sim (s : Mm) (A : Translation) : Prop where
  wf : s.WF
  pte : ∀ v, Ordinary v → s.pte v = entryOf (A v)
  ordinary : ∀ v f flags, A v = some (f, flags) → Ordinary v
  frame : ∀ v f flags, A v = some (f, flags) → f < maxFrames ∧ flags % 2 = 1 ∧ f ≠ s.vmm.dir ∧
    ∀ j < 1023, s.table j ≠ some f
  writable : ∀ i, 0 < i → i < 1023 → ∀ t, s.table i = some t → (s.pde i).testBit 1 = true
  user : ∀ v f flags, A v = some (f, flags) → flags.testBit 2 = true →
    (s.pde (v / 1024)).testBit 2 = true

theorem Ordinary.lt {v : ℕ} (h : Ordinary v) : v * 4096 < 4294967296 := by
  have := h.2
  omega

theorem Ordinary.pos {v : ℕ} (h : Ordinary v) : 0 < v / 1024 := by
  have := h.1
  unfold identityPages at this
  omega

theorem Sim.mapped {A : Translation} (h : Sim s A) {v f flags : ℕ}
    (hA : A v = some (f, flags)) : s.mapped v = some f := by
  have hv := h.ordinary v f flags hA
  obtain ⟨hf, hfl, _⟩ := h.frame v f flags hA
  refine mapped_make hf hfl ?_
  unfold maxFrames at hf
  rw [h.pte v hv, hA, pageBase_eq (by omega), Nat.mul_div_cancel _ (by norm_num)]
  rfl

/-- The page table of a page that is mapped. -/
theorem Sim.table {A : Translation} (h : Sim s A) {v f flags : ℕ}
    (hA : A v = some (f, flags)) : ∃ t, s.table (v / 1024) = some t := by
  have hm := h.mapped hA
  cases ht : s.table (v / 1024) with
  | some t => exact ⟨t, rfl⟩
  | none => rw [mapped_zero (pte_of_none ht)] at hm; cases hm

theorem Sim.map {A : Translation} (h : Sim s A) {v f flags : ℕ} (hok : s.PageOk (.map v f flags))
    (hs : s.PageStep (.map v f flags) s') : Sim s' (A.apply (.map v f flags)) := by
  obtain ⟨hv, hlt, hodd, hf, hdir, htab, hfresh⟩ := hok
  have hs' : s.mapPageLocked (v * 4096) (f * 4096) flags = .ok s' := hs
  have hpage : v * 4096 / 4096 = v := Nat.mul_div_cancel _ (by norm_num)
  have hidx : v * 4096 / 4096 / 1024 < 1023 := by rw [hpage]; exact hv.2
  obtain ⟨hwf, hdir', hstep, hpte⟩ := mapPageLocked_spec h.wf hv.lt hidx hs'
  obtain ⟨hother, hold, hnew⟩ := mapPageLocked_pde h.wf hv.lt hidx hs'
  rw [hpage] at hstep hpte hother hold hnew
  -- a frame in the translation does not become a page table
  have hnt : ∀ g, (∀ j < 1023, s.table j ≠ some g) →
      (s.table (v / 1024) = none → s'.table (v / 1024) ≠ some g) →
      ∀ j < 1023, s'.table j ≠ some g := by
    intro g hg hn j hj
    cases hstep with
    | same _ htable => rw [htable j hj]; exact hg j hj
    | fresh t _ _ _ hnone htable =>
      by_cases hjv : j = v / 1024
      · rw [hjv]; exact hn hnone
      · rw [htable j hj, if_neg hjv]; exact hg j hj
  refine ⟨hwf, fun u hu => ?_, fun u g fl hA => ?_, fun u g fl hA => ?_, fun i hi0 hi t ht => ?_,
    fun u g fl hA hfl => ?_⟩
  · rw [hpte u hu.2, Translation.apply_map]
    split_ifs with huv
    · unfold maxFrames at hf
      rw [pageBase_eq (by omega), Nat.mul_div_cancel _ (by norm_num)]
      rfl
    · exact h.pte u hu
  · rw [Translation.apply_map] at hA
    split_ifs at hA with huv
    · rw [huv]; exact hv
    · exact h.ordinary u g fl hA
  · rw [Translation.apply_map] at hA
    rw [hdir']
    split_ifs at hA with huv
    · cases hA
      exact ⟨hf, hodd, hdir, hnt f htab fun hn ht => (hfresh hn s' hs f ht).1 rfl⟩
    · obtain ⟨h1, h2, h3, h4⟩ := h.frame u g fl hA
      exact ⟨h1, h2, h3, hnt g h4 fun hn ht =>
        (hfresh hn s' hs g ht).2 u (h.ordinary u g fl hA) (h.mapped hA)⟩
  · by_cases hiv : i = v / 1024
    · subst hiv
      cases hst : s.table (v / 1024) with
      | some t' =>
        rw [hold ⟨t', hst⟩, testBit_updateFlags _ _ (by norm_num),
          h.writable _ hi0 hi t' hst, Bool.true_or]
      | none =>
        obtain ⟨p, hp⟩ := hnew hst
        rw [hp, testBit_make _ _ (by norm_num), Nat.testBit_or, Nat.testBit_or,
          show flagWritable.testBit 1 = true by decide, Bool.or_true, Bool.true_or]
    · have hti : s.table i = some t := by
        rw [← ht]
        unfold Mm.table
        have := hother i hiv
        unfold Mm.pde at this
        rw [this]
      rw [hother i hiv]
      exact h.writable i hi0 hi t hti
  · rw [Translation.apply_map] at hA
    by_cases huv : u / 1024 = v / 1024
    · rw [huv]
      cases hst : s.table (v / 1024) with
      | some t' =>
        rw [hold ⟨t', hst⟩, testBit_updateFlags _ _ (by norm_num), Bool.or_eq_true]
        split_ifs at hA with he
        · cases hA
          exact Or.inr hfl
        · rw [← huv]
          exact Or.inl (h.user u g fl hA hfl)
      | none =>
        -- no other page of the range is mapped
        split_ifs at hA with he
        · cases hA
          obtain ⟨p, hp⟩ := hnew hst
          rw [hp, testBit_make _ _ (by norm_num), Nat.testBit_or, Nat.testBit_and, hfl,
            show flagUser.testBit 2 = true by decide, Bool.and_self, Bool.or_true]
        · obtain ⟨t, ht⟩ := h.table hA
          rw [huv, hst] at ht
          cases ht
    · rw [if_neg fun he => huv (by rw [he])] at hA
      rw [hother _ huv]
      exact h.user u g fl hA hfl

theorem Sim.unmap {A : Translation} (h : Sim s A) {v : ℕ} (hv : Ordinary v)
    (hs : s.PageStep (.unmap v) s') : Sim s' (A.apply (.unmap v)) := by
  have hs' : s.unmapPageLocked (v * 4096) = .ok s' := hs
  have hpage : v * 4096 / 4096 = v := Nat.mul_div_cancel _ (by norm_num)
  have hidx : v * 4096 / 4096 / 1024 < 1023 := by rw [hpage]; exact hv.2
  have hpde := unmapPageLocked_pde h.wf hv.lt hidx hs'
  have hentry : ∀ f, s.mapped v = some f → ∃ flags, A v = some (f, flags) := by
    intro f hm
    cases hA : A v with
    | none => rw [mapped_zero (by rw [h.pte v hv, hA]; rfl)] at hm; cases hm
    | some q =>
      obtain ⟨g, flags⟩ := q
      rw [h.mapped hA] at hm
      cases hm
      exact ⟨flags, rfl⟩
  have hspec := unmapPageLocked_spec h.wf hv.lt hidx (fun f hm => by
    rw [hpage] at hm
    obtain ⟨flags, hA⟩ := hentry f hm
    exact (h.frame v f flags hA).2.2) hs'
  rw [hpage] at hspec
  -- the view of the translation does not depend on which of the two cases holds
  obtain ⟨hwf, hdir, htab, hpte⟩ : s'.WF ∧ s'.vmm.dir = s.vmm.dir ∧
      (∀ j, s'.table j = s.table j) ∧
      ∀ u, u / 1024 < 1023 → s'.pte u = if u = v then 0 else s.pte u := by
    rcases hspec with ⟨hnone, rfl⟩ | ⟨f, _, h1, h2, h3, _, _, h4⟩
    · refine ⟨h.wf, rfl, fun _ => rfl, fun u _ => ?_⟩
      split_ifs with huv
      · subst huv
        cases hA : A u with
        | none => rw [h.pte u hv, hA]; rfl
        | some q => rw [h.mapped hA] at hnone; cases hnone
      · rfl
    · exact ⟨h1, h2, h3, h4⟩
  have hAu : ∀ u g fl, A.apply (.unmap v) u = some (g, fl) → u ≠ v ∧ A u = some (g, fl) := by
    intro u g fl hA
    rw [Translation.apply_unmap] at hA
    split_ifs at hA with huv
    exact ⟨huv, hA⟩
  refine ⟨hwf, fun u hu => ?_, fun u g fl hA => h.ordinary u g fl (hAu u g fl hA).2,
    fun u g fl hA => ?_, fun i hi0 hi t ht => ?_, fun u g fl hA hfl => ?_⟩
  · rw [hpte u hu.2, Translation.apply_unmap]
    split_ifs
    · rfl
    · exact h.pte u hu
  · obtain ⟨h1, h2, h3, h4⟩ := h.frame u g fl (hAu u g fl hA).2
    rw [hdir]
    exact ⟨h1, h2, h3, fun j hj => by rw [htab]; exact h4 j hj⟩
  · rw [hpde]
    exact h.writable i hi0 hi t (by rw [← htab, ht])
  · rw [hpde]
    exact h.user u g fl (hAu u g fl hA).2 hfl

theorem Sim.step {A : Translation} (h : Sim s A) {op : PageOp} (hok : s.PageOk op)
    (hs : s.PageStep op s') : Sim s' (A.apply op) := by
  cases op with
  | map v f flags => exact h.map hok hs
  | unmap v => exact h.unmap hok hs

/-- A run of page steps. -/
theorem Sim.run {A : Translation} {ops : List PageOp} (h : Sim s A) (hrun : Run PageStep s ops s')
    (hok : Along PageStep PageOk s ops) : Sim s' (A.applyAll ops) := by
  induction hrun generalizing A with
  | nil s => exact h
  | cons hs _ ih => exact ih (h.step hok.1 hs) (hok.2 _ hs)

/-- After `vmm::init` no ordinary page is mapped. -/
theorem sim_init {p : Pmm} {phys : ℕ → ℕ → ℕ} (h : Mm.init p phys = .ok s) :
    Sim s fun _ => none := by
  have hwf := (owned_init h).wf
  have hnone : ∀ i, 0 < i → i < 1023 → s.table i = none := by
    unfold Mm.init at h
    rw [K.bind_eq_ok] at h
    obtain ⟨⟨p₁, pdPhys⟩, _, h⟩ := h
    dsimp only at h
    rw [K.bind_eq_ok] at h
    obtain ⟨⟨p₂, ptPhys⟩, _, h⟩ := h
    dsimp only at h
    split_ifs at h
    cases h
    intro i hi0 hi
    refine table_eq_none.2 ?_
    unfold firstTables
    dsimp only
    rw [if_pos rfl, if_neg (by omega), if_neg (by omega), Entry.present_zero]
  refine ⟨hwf, fun v hv => pte_of_none (hnone _ hv.pos hv.2), fun _ _ _ hA => (by cases hA),
    fun _ _ _ hA => (by cases hA), fun i hi0 hi t ht => ?_, fun _ _ _ hA => (by cases hA)⟩
  rw [hnone i hi0 hi] at ht
  cases ht

/-! ## Reading the translation back -/

theorem pdeIndex_eq {a : ℕ} (ha : a < 4294967296) : pdeIndex a = a / 4096 / 1024 := by
  unfold pdeIndex
  omega

theorem pteIndex_eq (a : ℕ) : pteIndex a = a / 4096 % 1024 := rfl

/-- The lookups of a page without a page table. -/
theorem lookup_of_none (hwf : s.WF) {a : ℕ} (ha : a < 4294967296)
    (ht : s.table (a / 4096 / 1024) = none) :
    s.vmm.virtToPhys a = .ok 0xFFFFFFFF ∧ s.vmm.isMapped a = .ok false := by
  have hp := table_eq_none.1 ht
  unfold Entry.present at hp
  unfold Vmm.virtToPhys Vmm.isMapped
  rw [Vmm.readEntry_pde hwf.self, pdeIndex_eq ha]
  simp only [bind, Except.bind, hp, Bool.not_false, if_true]
  exact ⟨rfl, rfl⟩

/-- The lookups of a page with a page table. -/
theorem lookup_of_table (hwf : s.WF) {a t : ℕ} (ha : a < 4294967296)
    (ht : s.table (a / 4096 / 1024) = some t) :
    s.vmm.virtToPhys a = .ok (if Entry.present (s.pte (a / 4096)) then
        Entry.frame (s.pte (a / 4096)) * 4096 + a % 4096 else 0xFFFFFFFF) ∧
      s.vmm.isMapped a = .ok (Entry.present (s.pte (a / 4096))) ∧
      ∀ flag, s.vmm.allows a flag =
        (Entry.hasFlag (s.pde (a / 4096 / 1024)) flag && Entry.hasFlag (s.pte (a / 4096)) flag) := by
  obtain ⟨hp, hframe⟩ := table_eq_some.1 ht
  have hpte := pte_of_table ht
  rw [← pdeIndex_eq ha] at hp hframe
  have hread := Vmm.readEntry_pte hwf.self hp
  rw [hframe, pteIndex_eq, ← hpte] at hread
  have hor : Entry.address (s.pte (a / 4096)) ||| (a &&& 0xFFF) =
      Entry.frame (s.pte (a / 4096)) * 4096 + a % 4096 := by
    have hlt : a % 4096 < 2 ^ 12 := Nat.mod_lt _ (by norm_num)
    have := Nat.two_pow_add_eq_or_of_lt hlt (Entry.frame (s.pte (a / 4096)))
    rw [Nat.mul_comm] at this
    norm_num at this
    rw [Entry.address_eq_frame, Entry.and_mask, this]
  unfold Entry.present at hp
  unfold Vmm.virtToPhys Vmm.isMapped
  rw [Vmm.readEntry_pde hwf.self, hread]
  simp only [bind, Except.bind, hp, Bool.not_true, hor]
  refine ⟨?_, rfl, fun flag => ?_⟩
  · show (if (!Entry.present _) = true then _ else _) = _
    cases Entry.present (s.pte (a / 4096)) <;> rfl
  · unfold Vmm.allows
    dsimp only
    rw [hframe, pteIndex_eq, ← hpte, pdeIndex_eq ha]
    rfl

theorem Sim.reads {A : Translation} (h : Sim s A) : Reads s A := by
  intro a ha hord
  have hpte := h.pte _ hord
  cases hA : A (a / 4096) with
  | none =>
    rw [hA] at hpte
    have hphys : A.phys a = 0xFFFFFFFF := by unfold Translation.phys; rw [hA]
    rw [hphys]
    have hlook : s.vmm.virtToPhys a = .ok 0xFFFFFFFF ∧ s.vmm.isMapped a = .ok false := by
      cases ht : s.table (a / 4096 / 1024) with
      | none => exact lookup_of_none h.wf ha ht
      | some t =>
        obtain ⟨h1, h2, _⟩ := lookup_of_table h.wf ha ht
        rw [hpte] at h1 h2
        exact ⟨h1, h2⟩
    exact ⟨hlook.1, hlook.2, fun f flags he => (by cases he)⟩
  | some q =>
    obtain ⟨f, flags⟩ := q
    obtain ⟨hf, hodd, _⟩ := h.frame _ f flags hA
    obtain ⟨t, ht⟩ := h.table hA
    obtain ⟨h1, h2, h3⟩ := lookup_of_table h.wf ha ht
    rw [hA] at hpte
    have hpres : Entry.present (s.pte (a / 4096)) = true := by
      rw [hpte]
      exact (Entry.present_make _ _).trans (by simpa using hodd)
    have hfr : Entry.frame (s.pte (a / 4096)) = f := by
      unfold maxFrames at hf
      rw [hpte]
      refine (Entry.frame_make _ _).trans ?_
      omega
    have hphys : A.phys a = f * 4096 + a % 4096 := by unfold Translation.phys; rw [hA]
    have hbit : ∀ k, k < 12 → Entry.hasFlag (s.pte (a / 4096)) (2 ^ k) =
        Entry.hasFlag flags (2 ^ k) := by
      intro k hk
      rw [hasFlag_two_pow _ hk, hasFlag_two_pow _ hk, hpte]
      exact testBit_make _ _ hk
    rw [hpres, if_pos rfl, hfr] at h1
    rw [hphys]
    refine ⟨h1, by rw [h2, hpres]; rfl, fun g fl he => ?_⟩
    cases he
    have hw : Entry.hasFlag (s.pde (a / 4096 / 1024)) (2 ^ 1) = true := by
      rw [hasFlag_two_pow _ (by norm_num)]
      exact h.writable _ hord.pos hord.2 t ht
    have hu : Entry.hasFlag flags (2 ^ 2) = true →
        Entry.hasFlag (s.pde (a / 4096 / 1024)) (2 ^ 2) = true := by
      rw [hasFlag_two_pow _ (by norm_num), hasFlag_two_pow _ (by norm_num)]
      exact h.user _ f flags hA
    have hwflag : flagWritable = 2 ^ 1 := rfl
    have huflag : flagUser = 2 ^ 2 := rfl
    rw [h3, h3, hwflag, huflag, hbit 1 (by norm_num), hbit 2 (by norm_num), hw, Bool.true_and]
    refine ⟨?_, rfl⟩
    cases hfl : Entry.hasFlag flags (2 ^ 2) with
    | false => rw [Bool.and_false]
    | true => rw [hu hfl, Bool.and_self]

/-! ## Calls as runs of page steps -/

/-- Only the page of an address and of a frame matter. -/
theorem mapPageLocked_page {a p flags : ℕ} (ha : a < 4294967296) (hp : p < 4294967296) :
    s.mapPageLocked a p flags = s.mapPageLocked (a / 4096 * 4096) (p / 4096 * 4096) flags := by
  have hbase : ∀ x < 4294967296, pageBase (x / 4096 * 4096) = pageBase x := by
    intro x hx
    rw [pageBase_eq hx, pageBase_eq (by omega)]
    omega
  unfold mapPageLocked
  rw [hbase a ha, hbase p hp]

theorem unmapPageLocked_page {a : ℕ} (ha : a < 4294967296) :
    s.unmapPageLocked a = s.unmapPageLocked (a / 4096 * 4096) := by
  have hbase : pageBase (a / 4096 * 4096) = pageBase a := by
    rw [pageBase_eq ha, pageBase_eq (by omega)]
    omega
  unfold unmapPageLocked
  rw [hbase]

/-- The address of page `i` of a loop. -/
theorem loopAddr {a i : ℕ} (ha : a < 4294967296) :
    Word32.add (pageBase a) (Word32.mul i pageSize) = (a / 4096 + i) % 1048576 * 4096 := by
  rw [pageBase_eq ha]
  unfold Word32.add Word32.mul pageSize
  omega

theorem run_mapRun {a p flags : ℕ} (ha : a < 4294967296) (hp : p < 4294967296) :
    ∀ {n i : ℕ} {s : Mm}, mapRun (pageBase a) (pageBase p) flags n i s = .ok s' →
      Run PageStep s ((List.range' i n).map fun i =>
        .map ((a / 4096 + i) % 1048576) ((p / 4096 + i) % 1048576) flags) s' := by
  intro n
  induction n with
  | zero => intro i s h; cases h; exact .nil _
  | succ n ih =>
    intro i s h
    rw [mapRun, loopAddr ha, loopAddr hp, K.bind_eq_ok] at h
    obtain ⟨s₁, h₁, h⟩ := h
    rw [List.range'_succ, List.map_cons]
    exact .cons h₁ (ih h)

theorem run_unmapRun {a : ℕ} (ha : a < 4294967296) :
    ∀ {n i : ℕ} {s : Mm}, unmapRun (pageBase a) n i s = .ok s' →
      Run PageStep s ((List.range' i n).map fun i => .unmap ((a / 4096 + i) % 1048576)) s' := by
  intro n
  induction n with
  | zero => intro i s h; cases h; exact .nil _
  | succ n ih =>
    intro i s h
    rw [unmapRun, loopAddr ha, K.bind_eq_ok] at h
    obtain ⟨s₁, h₁, h⟩ := h
    rw [List.range'_succ, List.map_cons]
    exact .cons h₁ (ih h)

theorem run_call {c : Call} (h : s.CallStep c s') : Run PageStep s c.ops s' := by
  unfold CallStep at h
  cases c with
  | mapPage virtAddr physAddr flags =>
    refine .cons ?_ (.nil _)
    rw [call, mapPageLocked_page (UInt32.toNat_lt _) (UInt32.toNat_lt _)] at h
    exact h
  | mapPages virtAddr physAddr pages flags =>
    rw [Call.ops, List.range_eq_range']
    exact run_mapRun (UInt32.toNat_lt _) (UInt32.toNat_lt _) h
  | unmapPage virtAddr =>
    refine .cons ?_ (.nil _)
    rw [call, unmapPageLocked_page (UInt32.toNat_lt _)] at h
    exact h
  | unmapPages virtAddr pages =>
    rw [Call.ops, List.range_eq_range']
    exact run_unmapRun (UInt32.toNat_lt _) h

theorem run_calls {cs : List Call} (hrun : Run CallStep s cs s') :
    Run PageStep s (cs.flatMap Call.ops) s' := by
  induction hrun with
  | nil s => exact .nil _
  | cons hs _ ih => exact (run_call hs).append ih

end

/-- **The meaning of the page tables.** After any calls from `vmm::init` on whose page steps meet
the condition, every lookup and permission of an ordinary address is what the last operation on its
page asked for; and the next call changes the translation of none but its own pages. -/
theorem translation_semantics {p : Pmm} {phys : ℕ → ℕ → ℕ} {s₀ : Mm}
    (h₀ : Mm.init p phys = .ok s₀) (cs : List Call) (s : Mm) (hrun : Run CallStep s₀ cs s)
    (hok : Along PageStep PageOk s₀ (cs.flatMap Call.ops)) :
    Reads s (Translation.applyAll (fun _ => none) (cs.flatMap Call.ops)) ∧
    ∀ c s', s.CallStep c s' → Along PageStep PageOk s c.ops →
      ∀ a < 4294967296, Ordinary (a / 4096) → (∀ op ∈ c.ops, a / 4096 ≠ op.page) →
        s'.vmm.virtToPhys a = s.vmm.virtToPhys a ∧ s'.vmm.isMapped a = s.vmm.isMapped a := by
  have hsim := (sim_init h₀).run (run_calls hrun) hok
  refine ⟨hsim.reads, fun c s' hs hc a ha hord hne => ?_⟩
  have hkept := Translation.applyAll_of_ne
    (Translation.applyAll (fun _ => none) (cs.flatMap Call.ops)) hne
  obtain ⟨h1, h2, _⟩ := hsim.reads a ha hord
  obtain ⟨h1', h2', _⟩ := (hsim.run (run_call hs) hc).reads a ha hord
  unfold Translation.phys at h1 h1'
  rw [hkept] at h1' h2'
  rw [h1, h1', h2, h2']
  exact ⟨rfl, rfl⟩

/-- Two pages are mapped and the first is unmapped again. -/
def sampleCalls : List Call := [.mapPages 0xA000123 0x200000 2 7, .unmapPage 0xA000000]

theorem PageStep.det {s s₁ s₂ : Mm} {op : PageOp} (h₁ : s.PageStep op s₁) (h₂ : s.PageStep op s₂) :
    s₂ = s₁ := by
  cases op with
  | map v f flags => exact Except.ok.inj ((Eq.symm h₂).trans h₁)
  | unmap v => exact Except.ok.inj ((Eq.symm h₂).trans h₁)

theorem translation_semantics_sample : ∃ s₀ s,
    Mm.init ⟨⟨fun w => if w < 24 then 0xFFFFFFFF else 0, 0⟩, 0, 0⟩ (fun _ _ => 0x12345678) =
      .ok s₀ ∧ Run CallStep s₀ sampleCalls s ∧
    s.vmm.virtToPhys 0xA001234 = .ok 0x201234 ∧ s.vmm.virtToPhys 0xA000000 = .ok 0xFFFFFFFF ∧
    Reads s (Translation.applyAll (fun _ => none) (sampleCalls.flatMap Call.ops)) := by
  obtain ⟨⟨s₀, s₁, s₂, s₃⟩, hw, hp⟩ := K.exists_of_holds
    (x := do
      let s₀ ← Mm.init ⟨⟨fun w => if w < 24 then 0xFFFFFFFF else 0, 0⟩, 0, 0⟩
        (fun _ _ => 0x12345678)
      let s₁ ← s₀.mapPageLocked (0xA000 * 4096) (512 * 4096) 7
      let s₂ ← s₁.mapPageLocked (0xA001 * 4096) (513 * 4096) 7
      let s₃ ← s₂.unmapPageLocked (0xA000 * 4096)
      return (s₀, s₁, s₂, s₃))
    (p := fun r => r.1.vmm.dir != 512 && r.2.1.vmm.dir != 513 && (r.2.1.table 40).isSome &&
      (r.2.1.table 40 != some 512) &&
      ((List.range 1023).all fun j => r.1.table j != some 512) &&
      ((List.range 1023).all fun j => r.2.1.table j != some 513)) (by decide +kernel)
  simp only [K.bind_eq_ok] at hw
  obtain ⟨s₀', h₀, s₁', h₁, s₂', h₂, s₃', h₃, he⟩ := hw
  cases he
  simp only [Bool.and_eq_true, bne_iff_ne, List.all_eq_true, List.mem_range] at hp
  obtain ⟨⟨⟨⟨⟨hd₀, hd₁⟩, hsome⟩, hne⟩, htab₀⟩, htab₁⟩ := hp
  have hord : ∀ v, v = 0xA000 ∨ v = 0xA001 → Ordinary v := by
    rintro v (rfl | rfl)
    · exact ⟨by decide, by decide⟩
    · exact ⟨by decide, by decide⟩
  have hops : sampleCalls.flatMap Call.ops =
      [.map 0xA000 512 7, .map 0xA001 513 7, .unmap 0xA000] := rfl
  have hrun : Run CallStep s₀ sampleCalls s₃ := by
    refine .cons (show s₀.mapPages 0xA000123 0x200000 2 7 = .ok s₂ from ?_)
      (.cons (?_ : CallStep s₂ _ s₃) (.nil _))
    · show s₀.mapPages 0xA000123 0x200000 2 7 = .ok s₂
      unfold mapPages
      rw [mapRun, K.bind_eq_ok]
      refine ⟨s₁, h₁, ?_⟩
      rw [mapRun, K.bind_eq_ok]
      exact ⟨s₂, h₂, rfl⟩
    · exact h₃
  have hstep : s₀.PageStep (.map 0xA000 512 7) s₁ := h₁
  have hok : Along PageStep PageOk s₀ (sampleCalls.flatMap Call.ops) := by
    rw [hops]
    refine ⟨⟨hord _ (Or.inl rfl), by decide, by decide, by decide, hd₀.symm, htab₀,
      fun _ s' hs t ht => ⟨?_, fun u hu hm => ?_⟩⟩, fun s' hs => ?_⟩
    · rintro rfl
      rw [hstep.det hs] at ht
      exact hne ht
    · rw [mapped_zero ((sim_init h₀).pte u hu)] at hm
      cases hm
    · obtain rfl := hstep.det hs
      refine ⟨⟨hord _ (Or.inr rfl), by decide, by decide, by decide, hd₁.symm, htab₁, fun hn => ?_⟩,
        fun s'' _ => ⟨hord _ (Or.inl rfl), fun _ _ => trivial⟩⟩
      rw [show (0xA001 : ℕ) / 1024 = 40 by norm_num] at hn
      rw [hn] at hsome
      cases hsome
  have hreads := (translation_semantics h₀ sampleCalls s₃ hrun hok).1
  refine ⟨s₀, s₃, h₀, hrun, ?_, ?_, hreads⟩
  · exact (hreads 0xA001234 (by decide) (hord _ (Or.inr rfl))).1
  · exact (hreads 0xA000000 (by decide) (hord _ (Or.inl rfl))).1

end Mm

end Ospp
