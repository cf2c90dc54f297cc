import Ospp.Sys.Ioapic

/-!
# Where the interrupts go

`apic::configure` as a whole. The I/O APICs of a system do not overlap, so the first loop is the sum
of what it does for each of them, and the last loop adds one entry for each legacy interrupt that is
not taken. `configure_entry` is what is left in every redirection entry, and `routes_iff` says when
that is what the overrides ask for.
-/

namespace Ospp

open Madt

namespace Apic

variable {d : IoapicRegs} {ioapic ioapic' : Ent1} {gsi : UInt32} {k k' : ℕ}

section

variable (lapicId : UInt8)

/-! ## All of them -/

/-- The I/O APICs of a system: their windows are apart, their tables fit the registers of a window,
and their GSIs are apart and cover the legacy interrupts. -/
structure Wired (d : IoapicRegs) (ioapics : List Ent1) : Prop where
  windows : ioapics.Pairwise fun a b => a.ioapic ≠ b.ioapic
  table : ∀ ioapic ∈ ioapics, lastIndex d ioapic < 120
  ranges : ioapics.Pairwise fun a b => ∀ g, ¬ (InRange d a g ∧ InRange d b g)
  legacy : ∀ g < 16, ∃ ioapic ∈ ioapics, InRange d ioapic g

namespace Wired

variable {ioapics : List Ent1} (w : Wired d ioapics) {a b : Ent1}

include w

theorem eq_of_inRange (ha : a ∈ ioapics) (hb : b ∈ ioapics) {g : ℕ} (hga : InRange d a g)
    (hgb : InRange d b g) : a = b := by
  have : Std.Symm fun a b : Ent1 => ∀ g, ¬ (InRange d a g ∧ InRange d b g) :=
    ⟨fun _ _ h g hg => h g hg.symm⟩
  by_contra hne
  exact w.ranges.forall ha hb hne g ⟨hga, hgb⟩

theorem eq_of_window (ha : a ∈ ioapics) (hb : b ∈ ioapics) (h : a.ioapic = b.ioapic) : a = b := by
  have : Std.Symm fun a b : Ent1 => a.ioapic ≠ b.ioapic := ⟨fun _ _ h => h.symm⟩
  by_contra hne
  exact w.windows.forall ha hb hne h

/-- The sum for the last GSI does not wrap where there are legacy interrupts. -/
theorem gsiEnd_of_legacy (ha : a ∈ ioapics) {g : ℕ} (hg : g < 16) (hbase : a.gsiBase.toNat ≤ g) :
    (gsiEnd d a).toNat = a.gsiBase.toNat + lastIndex d a := by
  have := w.table a ha
  rw [gsiEnd_toNat this]
  omega

/-- `find_valid_ioapic` finds the I/O APIC of a legacy interrupt. -/
theorem findValidIoapic_eq (ha : a ∈ ioapics) {d' : IoapicRegs} (hver : ∀ b, d' b 1 = d b 1) {g : ℕ}
    (hg : g < 16) (hin : InRange d a g) : findValidIoapic d' ioapics (.ofNat g) = some a := by
  have hnat : (UInt32.ofNat g).toNat = g := by
    rw [UInt32.toNat_ofNat']
    omega
  have hcond : ∀ c ∈ ioapics, (c.gsiBase ≤ UInt32.ofNat g ∧ UInt32.ofNat g ≤ gsiEnd d' c) ↔
      InRange d c g := by
    intro c hc
    rw [UInt32.le_iff_toNat_le, UInt32.le_iff_toNat_le, hnat, gsiEnd_congr hver, InRange]
    refine and_congr_right fun hbase => ?_
    rw [w.gsiEnd_of_legacy hc hg hbase]
  cases hfind : findValidIoapic d' ioapics (.ofNat g) with
  | none =>
    have := List.find?_eq_none.1 hfind a ha
    exact absurd (decide_eq_true ((hcond a ha).2 hin)) this
  | some c =>
    have hc := List.mem_of_find?_eq_some hfind
    have hcond' := List.find?_some (show ioapics.find? (fun c =>
      decide (c.gsiBase ≤ UInt32.ofNat g ∧ UInt32.ofNat g ≤ gsiEnd d' c)) = some c from hfind)
    have hrange := (hcond c hc).1 (of_decide_eq_true hcond')
    rw [w.eq_of_inRange hc ha hrange hin]

end Wired

/-- The first loop. -/
theorem configureIoapics_spec (irqOverrides : List Ent2) :
    ∀ (ioapics : List Ent1) (s : Routing), (∀ b, s.regs b 1 = d b 1) →
      ioapics.Pairwise (fun a b => a.ioapic ≠ b.ioapic) →
      ioapics.Pairwise (fun a b => ∀ g, ¬ (InRange d a g ∧ InRange d b g)) →
      (∀ ioapic ∈ ioapics, lastIndex d ioapic < 120) →
      ∀ s', ioapics.foldl (configureIoapic lapicId irqOverrides) s = s' →
        (∀ b, s'.regs b 1 = d b 1) ∧
        (∀ x, x ∈ s'.indices ↔ x ∈ s.indices ∨ ∃ ioapic ∈ ioapics, ∃ irq ∈ irqOverrides,
          Below d ioapic irq.gsi.toNat ∧ x = irq.gsi.toNat) ∧
        ((∀ ioapic ∈ ioapics, ∀ irq ∈ irqOverrides, Below d ioapic irq.gsi.toNat →
            irq.gsi.toNat < 16) →
          (∀ ioapic ∈ ioapics, ∀ g < 16, InRange d ioapic g → s.legacyMappedIrqs g = false) →
          (∀ g, s'.legacyMappedIrqs g = true ↔ s.legacyMappedIrqs g = true ∨
            (overrideAt irqOverrides g).isSome ∧ ∃ ioapic ∈ ioapics, Below d ioapic g) ∧
          (∀ ioapic' k, k < 120 → (∀ ioapic ∈ ioapics, ioapic'.ioapic ≠ ioapic.ioapic) →
            tableEntry s'.regs ioapic' k = tableEntry s.regs ioapic' k) ∧
          ∀ ioapic ∈ ioapics, ∀ k, k < 120 → tableEntry s'.regs ioapic k =
            if Below d ioapic (ioapic.gsiBase.toNat + k) then
              routedEntry lapicId irqOverrides (ioapic.gsiBase.toNat + k) (tableEntry s.regs ioapic k)
            else tableEntry s.regs ioapic k) := by
  intro ioapics
  induction ioapics with
  | nil =>
    rintro s hver _ _ _ s' rfl
    exact ⟨hver, fun x => by simp, fun _ _ => ⟨fun g => by simp, fun _ _ _ _ => rfl,
      fun _ h => absurd h List.not_mem_nil⟩⟩
  | cons ioapic ioapics ih =>
    rintro s hver hwin hrange htable s' rfl
    obtain ⟨hwin₀, hwin⟩ := List.pairwise_cons.1 hwin
    obtain ⟨hrange₀, hrange⟩ := List.pairwise_cons.1 hrange
    have hlast := htable ioapic List.mem_cons_self
    have htable := fun ioapic' h => htable ioapic' (List.mem_cons_of_mem ioapic h)
    obtain ⟨hver₁, hlog₁, hstep⟩ := configureIoapic_spec lapicId hlast irqOverrides hver _ rfl
    obtain ⟨hver₂, hlog₂, hrest⟩ := ih _ hver₁ hwin hrange htable _ rfl
    rw [List.foldl_cons]
    refine ⟨hver₂, fun x => ?_, fun hlegacy hfree => ?_⟩
    · rw [hlog₂, hlog₁, List.exists_mem_cons_iff, or_assoc]
    obtain ⟨hmapped₁, hother₁, hentry₁⟩ := hstep (hlegacy ioapic List.mem_cons_self)
    have hfree₁ : ∀ ioapic' ∈ ioapics, ∀ g < 16, InRange d ioapic' g →
        (configureIoapic lapicId irqOverrides s ioapic).legacyMappedIrqs g = false := by
      intro ioapic' h' g hg hin
      rw [hmapped₁, hfree ioapic' (List.mem_cons_of_mem _ h') g hg hin, Bool.false_or]
      exact decide_eq_false fun h => hrange₀ ioapic' h' g ⟨h.1.inRange hlast, hin⟩
    obtain ⟨hmapped₂, hother₂, hentry₂⟩ :=
      hrest (fun ioapic' h' => hlegacy ioapic' (List.mem_cons_of_mem _ h')) hfree₁
    refine ⟨fun g => ?_, fun ioapic' k hk hne => ?_, fun ioapic' hmem k hk => ?_⟩
    · rw [hmapped₂, hmapped₁, List.exists_mem_cons_iff]
      simp only [Bool.or_eq_true, decide_eq_true_eq]
      tauto
    · rw [hother₂ ioapic' k hk fun a ha => hne a (List.mem_cons_of_mem _ ha),
        hother₁ ioapic' k hk (hne ioapic List.mem_cons_self)]
    · obtain rfl | hmem := List.mem_cons.1 hmem
      · rw [hother₂ ioapic' k hk hwin₀]
        refine hentry₁ k hk fun hused hlow hbelow => ?_
        have := hfree ioapic' List.mem_cons_self _ hlow (hbelow.inRange hlast)
        rw [this] at hused
        exact absurd hused (by decide)
      · rw [hentry₂ ioapic' hmem k hk, hother₁ ioapic' k hk (hwin₀ ioapic' hmem).symm]

/-- The last loop. -/
theorem remaps_spec {ioapics : List Ent1} (w : Wired d ioapics) :
    ∀ (l : List ℕ) (s : Routing), (∀ b, s.regs b 1 = d b 1) → (∀ i ∈ l, i < 16) →
      ∀ s', l.foldl (remap lapicId ioapics) s = s' →
        (∀ x, x ∈ s'.indices ↔ x ∈ s.indices ∨ x ∈ l) ∧
        ∀ ioapic ∈ ioapics, ∀ k ≤ lastIndex d ioapic, tableEntry s'.regs ioapic k =
          if ioapic.gsiBase.toNat + k ∈ l ∧
              s.legacyMappedIrqs (ioapic.gsiBase.toNat + k) = false then
            redirection (.ofNat (ioapic.gsiBase.toNat + k)) 0 lapicId
          else tableEntry s.regs ioapic k := by
  intro l
  induction l with
  | nil =>
    rintro s _ _ s' rfl
    refine ⟨fun x => by simp, fun ioapic _ k _ => ?_⟩
    rw [if_neg fun h => absurd h.1 List.not_mem_nil]
    rfl
  | cons i l ih =>
    rintro s hver hlt s' rfl
    have hi := hlt i List.mem_cons_self
    have hlt := fun j h => hlt j (List.mem_cons_of_mem i h)
    obtain ⟨a, ha, hin⟩ := w.legacy i hi
    have hnat : a.gsiBase.toNat + (i - a.gsiBase.toNat) = (UInt32.ofNat i).toNat := by
      rw [UInt32.toNat_ofNat']
      have := hin.1
      omega
    have hk : i - a.gsiBase.toNat < 120 := by omega
    rw [List.foldl_cons]
    by_cases hmapped : s.legacyMappedIrqs i = true
    · have hstep : remap lapicId ioapics s i = { s with indices := s.indices ++ [i] } := by
        rw [remap, if_pos hmapped]
      rw [hstep]
      obtain ⟨hlog, hentry⟩ := ih { s with indices := s.indices ++ [i] } hver hlt _ rfl
      refine ⟨fun x => ?_, fun ioapic hmem k hkl => ?_⟩
      · rw [hlog, List.mem_cons]
        simp [or_assoc]
      · rw [hentry ioapic hmem k hkl]
        refine if_congr ?_ rfl rfl
        refine ⟨fun h => ⟨List.mem_cons_of_mem _ h.1, h.2⟩, fun h => ⟨?_, h.2⟩⟩
        obtain rfl | h' := List.mem_cons.1 h.1
        · exact absurd hmapped (by rw [h.2]; decide)
        · exact h'
    · have hstep : remap lapicId ioapics s i = ⟨(writeRedirectionTable s.regs (some a) (.ofNat i)
          (redirection (.ofNat i) 0 lapicId)).1, s.legacyMappedIrqs, s.indices ++ [i]⟩ := by
        rw [remap, if_neg hmapped]
        dsimp only
        rw [w.findValidIoapic_eq ha hver hi hin, redirectGsi]
      rw [hstep]
      obtain ⟨hlog, hentry⟩ := ih ⟨(writeRedirectionTable s.regs (some a) (.ofNat i)
          (redirection (.ofNat i) 0 lapicId)).1, s.legacyMappedIrqs, s.indices ++ [i]⟩
          (fun b => (write_version hnat hk _ b).trans (hver b)) hlt _ rfl
      refine ⟨fun x => ?_, fun ioapic hmem k hkl => ?_⟩
      · rw [hlog, List.mem_cons]
        simp [or_assoc]
      · have hlast := w.table ioapic hmem
        rw [hentry ioapic hmem k hkl, tableEntry_write hnat hk (by omega)]
        by_cases hg : ioapic.gsiBase.toNat + k = i
        · -- the entry of this interrupt
          have hrange : InRange d ioapic i := ⟨by omega, by omega⟩
          obtain rfl := w.eq_of_inRange ha hmem hin hrange
          rw [if_pos (show a.ioapic = a.ioapic ∧ k = i - a.gsiBase.toNat from ⟨rfl, by omega⟩), hg,
            ite_self, if_pos ⟨List.mem_cons_self, by simpa using hmapped⟩]
        · rw [if_neg (show ¬ (ioapic.ioapic = a.ioapic ∧ k = i - a.gsiBase.toNat) from ?_)]
          · refine if_congr (and_congr_left fun _ => ?_) rfl rfl
            rw [List.mem_cons, or_iff_right hg]
          · rintro ⟨hwin, rfl⟩
            obtain rfl := w.eq_of_window hmem ha hwin
            have := hin.1
            omega

/-- What `configure` leaves in an entry. -/
def configuredEntry (d : IoapicRegs) (irqOverrides : List Ent2) (ioapic : Ent1) (k : ℕ) : UInt64 :=
  let g := ioapic.gsiBase.toNat + k
  if g < 16 ∧ ¬ (Below d ioapic g ∧ (overrideAt irqOverrides g).isSome) then
    redirection (.ofNat g) 0 lapicId
  else if Below d ioapic g then routedEntry lapicId irqOverrides g (tableEntry d ioapic k)
  else tableEntry d ioapic k

variable {s : Apic} (frame : ℕ → Bool) (w : Wired d s.ioapics.items)

include w

/-- `legacy_mapped_irqs` is accessed inside when the overrides `configure` looks at are legacy
interrupts. -/
theorem configure_indices :
    (∀ x ∈ (configure lapicId frame d s).indices, x < 16) ↔
      ∀ ioapic ∈ s.ioapics.items, ∀ irq ∈ s.irqOverrides.items, Below d ioapic irq.gsi.toNat →
        irq.gsi.toNat < 16 := by
  obtain ⟨hver, hlog, _⟩ := configureIoapics_spec lapicId s.irqOverrides.items s.ioapics.items
    ⟨d, fun i => if i < 16 then false else frame i, []⟩ (fun b => rfl) w.windows w.ranges w.table
    _ rfl
  obtain ⟨hlog', _⟩ := remaps_spec lapicId w (List.range 16) _ hver (fun i hi => List.mem_range.1 hi)
    _ rfl
  constructor
  · intro h ioapic hmem irq hirq hbelow
    exact h _ ((hlog' _).2 (Or.inl ((hlog _).2 (Or.inr ⟨ioapic, hmem, irq, hirq, hbelow, rfl⟩))))
  · intro h x hx
    obtain hx | hx := (hlog' x).1 hx
    · obtain hx | ⟨ioapic, hmem, irq, hirq, hbelow, rfl⟩ := (hlog x).1 hx
      · exact absurd hx List.not_mem_nil
      · exact h ioapic hmem irq hirq hbelow
    · exact List.mem_range.1 hx

theorem configure_entry
    (hlegacy : ∀ ioapic ∈ s.ioapics.items, ∀ irq ∈ s.irqOverrides.items,
      Below d ioapic irq.gsi.toNat → irq.gsi.toNat < 16)
    {ioapic : Ent1} (hmem : ioapic ∈ s.ioapics.items) {k : ℕ} (hk : k ≤ lastIndex d ioapic) :
    tableEntry (configure lapicId frame d s).regs ioapic k =
      configuredEntry lapicId d s.irqOverrides.items ioapic k := by
  have hlast := w.table ioapic hmem
  obtain ⟨hver, _, hrest⟩ := configureIoapics_spec lapicId s.irqOverrides.items s.ioapics.items
    ⟨d, fun i => if i < 16 then false else frame i, []⟩ (fun b => rfl) w.windows w.ranges w.table
    _ rfl
  obtain ⟨hmapped, _, hentry⟩ := hrest hlegacy fun _ _ g hg _ => if_pos hg
  obtain ⟨_, hentry'⟩ := remaps_spec lapicId w (List.range 16) _ hver
    (fun i hi => List.mem_range.1 hi) _ rfl
  rw [configure, hentry' ioapic hmem k hk, configuredEntry, hentry ioapic hmem k (by omega)]
  refine if_congr ?_ rfl rfl
  rw [List.mem_range]
  refine and_congr_right fun hg => ?_
  rw [← Bool.not_eq_true, hmapped]
  refine not_congr ⟨fun h => ?_, fun h => Or.inr ⟨h.2, ioapic, hmem, h.1⟩⟩
  obtain h | ⟨hsome, a, ha, hbelow⟩ := h
  · exact absurd ((if_pos hg).symm.trans h) (by decide)
  · have hin : InRange d ioapic (ioapic.gsiBase.toNat + k) := ⟨by omega, by omega⟩
    obtain rfl := w.eq_of_inRange ha hmem (hbelow.inRange (w.table a ha)) hin
    exact ⟨hbelow, hsome⟩

end

/-! ## Routing -/

/-- The override of a legacy interrupt. -/
def overrideOf (irqOverrides : List Ent2) (i : ℕ) : Option Ent2 :=
  irqOverrides.find? fun irq => irq.irqSrc.toNat = i

/-- The GSI of a legacy interrupt: the one its override names, or its own number. -/
def irqGsi (irqOverrides : List Ent2) (i : ℕ) : ℕ :=
  match overrideOf irqOverrides i with
  | some irq => irq.gsi.toNat
  | none => i

def irqFlags (irqOverrides : List Ent2) (i : ℕ) : UInt16 :=
  match overrideOf irqOverrides i with
  | some irq => irq.flags
  | none => 0

/-- Overrides of different legacy interrupts, with different GSIs of the system. -/
structure Named (d : IoapicRegs) (ioapics : List Ent1) (irqOverrides : List Ent2) : Prop where
  legacy : ∀ irq ∈ irqOverrides, irq.irqSrc.toNat < 16
  irqs : (irqOverrides.map fun irq => irq.irqSrc.toNat).Nodup
  gsis : (irqOverrides.map fun irq => irq.gsi.toNat).Nodup
  inRange : ∀ irq ∈ irqOverrides, ∃ ioapic ∈ ioapics, InRange d ioapic irq.gsi.toNat

/-- Every legacy interrupt has one entry, that of its GSI, and all other entries are masked; and the
array of the mapped interrupts is accessed inside. -/
structure Routes (d : IoapicRegs) (s : Apic) (lapicId : UInt8) (r : Routing) : Prop where
  routed : ∀ i < 16, ∃ ioapic ∈ s.ioapics.items, ∃ k ≤ lastIndex d ioapic,
    ioapic.gsiBase.toNat + k = irqGsi s.irqOverrides.items i ∧
      Routed (tableEntry r.regs ioapic k) (32 + i) (irqFlags s.irqOverrides.items i) lapicId
  only : ∀ i < 16, ∀ ioapic ∈ s.ioapics.items, ∀ k ≤ lastIndex d ioapic,
    ¬ Masked (tableEntry r.regs ioapic k) → (tableEntry r.regs ioapic k).toNat % 256 = 32 + i →
      ioapic.gsiBase.toNat + k = irqGsi s.irqOverrides.items i
  masked : ∀ ioapic ∈ s.ioapics.items, ∀ k ≤ lastIndex d ioapic,
    (∀ i < 16, ioapic.gsiBase.toNat + k ≠ irqGsi s.irqOverrides.items i) →
      Masked (tableEntry r.regs ioapic k)
  indices : ∀ x ∈ r.indices, x < 16

theorem find?_key {α : Type} {f : α → ℕ} {l : List α} (h : (l.map f).Nodup) {a : α} (ha : a ∈ l) :
    l.find? (fun b => f b = f a) = some a := by
  cases hfind : l.find? (fun b => f b = f a) with
  | none => exact absurd (decide_eq_true rfl) (List.find?_eq_none.1 hfind a ha)
  | some b =>
    have hkey := List.find?_some hfind
    have hkey : f b = f a := of_decide_eq_true hkey
    rw [List.inj_on_of_nodup_map h (List.mem_of_find?_eq_some hfind) ha hkey]

namespace Named

variable {ioapics : List Ent1} {irqOverrides : List Ent2} (n : Named d ioapics irqOverrides)

include n

theorem overrideAt_eq {irq : Ent2} (h : irq ∈ irqOverrides) :
    overrideAt irqOverrides irq.gsi.toNat = some irq :=
  find?_key n.gsis h

theorem overrideOf_eq {irq : Ent2} (h : irq ∈ irqOverrides) :
    overrideOf irqOverrides irq.irqSrc.toNat = some irq :=
  find?_key n.irqs h

theorem irqGsi_eq {irq : Ent2} (h : irq ∈ irqOverrides) :
    irqGsi irqOverrides irq.irqSrc.toNat = irq.gsi.toNat := by
  rw [irqGsi, n.overrideOf_eq h]

theorem irqFlags_eq {irq : Ent2} (h : irq ∈ irqOverrides) :
    irqFlags irqOverrides irq.irqSrc.toNat = irq.flags := by
  rw [irqFlags, n.overrideOf_eq h]

end Named

theorem overrideOf_none (irqOverrides : List Ent2) (i : ℕ)
    (h : ∀ irq ∈ irqOverrides, irq.irqSrc.toNat ≠ i) :
    irqGsi irqOverrides i = i ∧ irqFlags irqOverrides i = 0 := by
  have hnone : overrideOf irqOverrides i = none := by
    rw [overrideOf, List.find?_eq_none]
    exact fun irq hirq => by simpa using h irq hirq
  rw [irqGsi, irqFlags, hnone]
  exact ⟨rfl, rfl⟩

/-- The overrides permute legacy interrupts, the ones with the last GSI of an I/O APIC change nothing,
and the entries `configure` does not reach are masked already. -/
structure Compatible (d : IoapicRegs) (s : Apic) : Prop where
  permuted : ∀ irq ∈ s.irqOverrides.items, irq.gsi.toNat < 16 ∧
    ∃ irq' ∈ s.irqOverrides.items, irq'.irqSrc.toNat = irq.gsi.toNat
  last : ∀ irq ∈ s.irqOverrides.items, ∀ ioapic ∈ s.ioapics.items,
    InRange d ioapic irq.gsi.toNat → ¬ Below d ioapic irq.gsi.toNat →
      irq.irqSrc.toNat = irq.gsi.toNat ∧ irq.flags.toNat.testBit 1 = false ∧
        irq.flags.toNat.testBit 3 = false
  unreached : ∀ ioapic ∈ s.ioapics.items, ∀ k ≤ lastIndex d ioapic, 16 ≤ ioapic.gsiBase.toNat + k →
    ¬ Below d ioapic (ioapic.gsiBase.toNat + k) → Masked (tableEntry d ioapic k)

/-- A function from `n` numbers onto them is a permutation. -/
theorem bij_of_onto {n : ℕ} {f : ℕ → ℕ} (h : ∀ j < n, ∃ i < n, f i = j) :
    (∀ i < n, f i < n) ∧ ∀ i < n, ∀ j < n, f i = f j → i = j := by
  have hsub : Finset.range n ⊆ (Finset.range n).image f := by
    intro j hj
    obtain ⟨i, hi, rfl⟩ := h j (Finset.mem_range.1 hj)
    exact Finset.mem_image_of_mem f (Finset.mem_range.2 hi)
  have heq := Finset.eq_of_subset_of_card_le hsub Finset.card_image_le
  have hinj := Finset.card_image_iff.1 (congrArg Finset.card heq.symm)
  refine ⟨fun i hi => ?_, fun i hi j hj hij => ?_⟩
  · rw [← Finset.mem_range, heq]
    exact Finset.mem_image_of_mem f (Finset.mem_range.2 hi)
  · exact hinj (by simpa using hi) (by simpa using hj) hij

section

variable {s : Apic} {lapicId : UInt8} (frame : ℕ → Bool)

/-- The entries of the legacy GSIs are all in use afterwards. -/
theorem configuredEntry_unmasked (n : Named d s.ioapics.items s.irqOverrides.items)
    (hg : ioapic.gsiBase.toNat + k < 16) :
    ¬ Masked (configuredEntry lapicId d s.irqOverrides.items ioapic k) := by
  have hnat : (UInt8.ofNat (ioapic.gsiBase.toNat + k)).toNat = ioapic.gsiBase.toNat + k := by
    rw [UInt8.toNat_ofNat']
    omega
  unfold configuredEntry
  dsimp only
  by_cases hover : Below d ioapic (ioapic.gsiBase.toNat + k) ∧
      (overrideAt s.irqOverrides.items (ioapic.gsiBase.toNat + k)).isSome
  · obtain ⟨irq, hirq⟩ := Option.isSome_iff_exists.1 hover.2
    rw [if_neg fun h => h.2 hover, if_pos hover.1, routedEntry, hirq]
    exact (redirection_routed (n.legacy irq (List.mem_of_find?_eq_some hirq)) _ _).unmasked
  · rw [if_pos ⟨hg, hover⟩]
    exact (redirection_routed (by omega) _ _).unmasked

/-- When configured entries are what the overrides ask for, the legacy interrupts are permuted. -/
theorem Routes.gsi_perm (w : Wired d s.ioapics.items)
    (n : Named d s.ioapics.items s.irqOverrides.items)
    (hr : Routes d s lapicId (configure lapicId frame d s)) :
    (∀ i < 16, irqGsi s.irqOverrides.items i < 16) ∧
      ∀ i < 16, ∀ j < 16, irqGsi s.irqOverrides.items i = irqGsi s.irqOverrides.items j → i = j := by
  have hlegacy := (configure_indices lapicId frame w).1 hr.indices
  refine bij_of_onto fun g hg => ?_
  obtain ⟨ioapic, hmem, hin⟩ := w.legacy g hg
  obtain ⟨k, rfl⟩ : ∃ k, g = ioapic.gsiBase.toNat + k :=
    ⟨g - ioapic.gsiBase.toNat, by have := hin.1; omega⟩
  have hk : k ≤ lastIndex d ioapic := by
    have := hin.2
    omega
  by_contra hnone
  push Not at hnone
  have hmasked := hr.masked ioapic hmem k hk fun i hi => (hnone i hi).symm
  rw [configure_entry lapicId frame w hlegacy hmem hk] at hmasked
  exact configuredEntry_unmasked n hg hmasked

theorem configuredEntry_last (hg : ioapic.gsiBase.toNat + k < 16)
    (hbelow : ¬ Below d ioapic (ioapic.gsiBase.toNat + k)) (irqOverrides : List Ent2) :
    configuredEntry lapicId d irqOverrides ioapic k =
      redirection (.ofNat (ioapic.gsiBase.toNat + k)) 0 lapicId :=
  if_pos ⟨hg, fun h => hbelow h.1⟩

theorem ofNat_toNat {g : ℕ} (hg : g < 16) : (UInt8.ofNat g).toNat = g := by
  rw [UInt8.toNat_ofNat']
  omega

/-- A legacy interrupt that keeps its number. -/
theorem redirection_self {g : ℕ} (hg : g < 16) (lapicId : UInt8) :
    Routed (redirection (.ofNat g) 0 lapicId) (32 + g) 0 lapicId := by
  have hnat := ofNat_toNat hg
  have h := redirection_routed (by rwa [hnat]) 0 lapicId
  rwa [hnat] at h

theorem Routes.compatible (w : Wired d s.ioapics.items)
    (n : Named d s.ioapics.items s.irqOverrides.items)
    (hr : Routes d s lapicId (configure lapicId frame d s)) : Compatible d s := by
  have hlegacy := (configure_indices lapicId frame w).1 hr.indices
  obtain ⟨hlt, hinj⟩ := hr.gsi_perm frame w n
  have hgsi : ∀ irq ∈ s.irqOverrides.items, irq.gsi.toNat < 16 := fun irq hirq => by
    rw [← n.irqGsi_eq hirq]
    exact hlt _ (n.legacy irq hirq)
  refine ⟨fun irq hirq => ⟨hgsi irq hirq, ?_⟩, fun irq hirq ioapic hmem hin hbelow => ?_,
    fun ioapic hmem k hk hg hbelow => ?_⟩
  · by_contra hnone
    push Not at hnone
    -- the legacy interrupt of that number has the same GSI
    have heq := hinj irq.irqSrc.toNat (n.legacy irq hirq) irq.gsi.toNat (hgsi irq hirq)
      ((n.irqGsi_eq hirq).trans (overrideOf_none _ _ hnone).1.symm)
    exact hnone irq hirq heq
  · have hi := n.legacy irq hirq
    obtain ⟨a, ha, k, hk, hak, hrouted⟩ := hr.routed irq.irqSrc.toNat hi
    rw [n.irqGsi_eq hirq] at hak
    obtain rfl := w.eq_of_inRange ha hmem (g := irq.gsi.toNat) ⟨by omega, by omega⟩ hin
    have hg : a.gsiBase.toNat + k < 16 := by
      rw [hak]
      exact hgsi irq hirq
    rw [configure_entry lapicId frame w hlegacy ha hk,
      configuredEntry_last hg (by rwa [hak]), n.irqFlags_eq hirq] at hrouted
    have hid := redirection_self hg lapicId
    have hvector := hid.vector.symm.trans hrouted.vector
    refine ⟨by omega, ?_, ?_⟩
    · rw [← hrouted.polarity, hid.polarity]
      rfl
    · rw [← hrouted.trigger, hid.trigger]
      rfl
  · have hmasked := hr.masked ioapic hmem k hk fun i hi => by
      have := hlt i hi
      omega
    rwa [configure_entry lapicId frame w hlegacy hmem hk, configuredEntry,
      if_neg fun h => absurd h.1 (by omega), if_neg hbelow] at hmasked

/-- Overrides that stay among their own interrupts permute them. -/
theorem Compatible.onto (n : Named d s.ioapics.items s.irqOverrides.items) (h : Compatible d s)
    {irq : Ent2} (hirq : irq ∈ s.irqOverrides.items) :
    ∃ irq' ∈ s.irqOverrides.items, irq'.gsi.toNat = irq.irqSrc.toNat := by
  have hsub : s.irqOverrides.items.map (fun irq => irq.gsi.toNat) ⊆
      s.irqOverrides.items.map fun irq => irq.irqSrc.toNat := by
    intro g hg
    obtain ⟨irq', hirq', rfl⟩ := List.mem_map.1 hg
    obtain ⟨irq'', hirq'', heq⟩ := (h.permuted irq' hirq').2
    exact List.mem_map.2 ⟨irq'', hirq'', heq⟩
  have hperm := (n.gsis.subperm hsub).perm_of_length_le (by rw [List.length_map, List.length_map])
  exact List.mem_map.1 (hperm.mem_iff.2 (List.mem_map_of_mem hirq))

/-- The entry of a legacy GSI is the one of the interrupt that has it. -/
theorem Compatible.routed (lapicId : UInt8)
    (n : Named d s.ioapics.items s.irqOverrides.items) (h : Compatible d s)
    (hmem : ioapic ∈ s.ioapics.items) (hk : k ≤ lastIndex d ioapic)
    (hg : ioapic.gsiBase.toNat + k < 16) :
    ∃ i < 16, irqGsi s.irqOverrides.items i = ioapic.gsiBase.toNat + k ∧
      Routed (configuredEntry lapicId d s.irqOverrides.items ioapic k) (32 + i)
        (irqFlags s.irqOverrides.items i) lapicId := by
  have hid := redirection_self hg lapicId
  by_cases hover : ∃ irq ∈ s.irqOverrides.items, irq.gsi.toNat = ioapic.gsiBase.toNat + k
  · obtain ⟨irq, hirq, heq⟩ := hover
    have hi := n.legacy irq hirq
    refine ⟨irq.irqSrc.toNat, hi, (n.irqGsi_eq hirq).trans heq, ?_⟩
    rw [n.irqFlags_eq hirq]
    by_cases hbelow : Below d ioapic (ioapic.gsiBase.toNat + k)
    · have hat := n.overrideAt_eq hirq
      rw [heq] at hat
      rw [configuredEntry, if_neg fun h => h.2 ⟨hbelow, by rw [hat]; rfl⟩, if_pos hbelow, routedEntry,
        hat]
      exact redirection_routed hi _ _
    · -- the last GSI: its override changes nothing
      obtain ⟨hsame, hpol, htrig⟩ := h.last irq hirq ioapic hmem
        (by rw [heq]; exact ⟨by omega, by omega⟩) (by rwa [heq])
      rw [configuredEntry_last hg hbelow]
      rw [hsame, heq]
      exact ⟨hid.unmasked, hid.vector, hid.polarity.trans hpol.symm, hid.trigger.trans htrig.symm,
        hid.destination⟩
  · have hat : overrideAt s.irqOverrides.items (ioapic.gsiBase.toNat + k) = none := by
      rw [overrideAt, List.find?_eq_none]
      exact fun irq hirq heq => hover ⟨irq, hirq, by simpa using heq⟩
    obtain ⟨hgsi, hflags⟩ := overrideOf_none s.irqOverrides.items
      (ioapic.gsiBase.toNat + k) fun irq hirq heq => by
        obtain ⟨irq', hirq', heq'⟩ := h.onto n hirq
        exact hover ⟨irq', hirq', heq'.trans heq⟩
    refine ⟨_, hg, hgsi, ?_⟩
    rw [hflags, configuredEntry, if_pos ⟨hg, fun h => by rw [hat] at h; exact absurd h.2 (by decide)⟩]
    exact hid

/-- The other entries are masked. -/
theorem Compatible.masked (h : Compatible d s) (hmem : ioapic ∈ s.ioapics.items)
    (hk : k ≤ lastIndex d ioapic) (hg : 16 ≤ ioapic.gsiBase.toNat + k) :
    Masked (configuredEntry lapicId d s.irqOverrides.items ioapic k) := by
  rw [configuredEntry, if_neg fun h => absurd h.1 (by omega)]
  by_cases hbelow : Below d ioapic (ioapic.gsiBase.toNat + k)
  · have hat : overrideAt s.irqOverrides.items (ioapic.gsiBase.toNat + k) = none := by
      rw [overrideAt, List.find?_eq_none]
      intro irq hirq heq
      have heq : irq.gsi.toNat = ioapic.gsiBase.toNat + k := by simpa using heq
      have := (h.permuted irq hirq).1
      omega
    rw [if_pos hbelow, routedEntry, hat]
    exact masked_or _
  · rw [if_neg hbelow]
    exact h.unreached ioapic hmem k hk hg hbelow

/-- `configure` masks all entries of an I/O APIC but the last, and looks for overrides there, while
the last loop includes the last one; and it takes note of the GSI of an override, not of its legacy
interrupt. So it does what the overrides ask for exactly when they permute legacy interrupts, when
those of a last GSI change nothing, and when the entries it does not reach are masked before. -/
theorem routes_iff (d : IoapicRegs) (s : Apic) (lapicId : UInt8) (frame : ℕ → Bool)
    (w : Wired d s.ioapics.items) (n : Named d s.ioapics.items s.irqOverrides.items) :
    Routes d s lapicId (configure lapicId frame d s) ↔ Compatible d s := by
  refine ⟨fun hr => hr.compatible frame w n, fun h => ?_⟩
  have hlegacy : ∀ ioapic ∈ s.ioapics.items, ∀ irq ∈ s.irqOverrides.items,
      Below d ioapic irq.gsi.toNat → irq.gsi.toNat < 16 :=
    fun _ _ irq hirq _ => (h.permuted irq hirq).1
  have hplace : ∀ g < 16, ∃ ioapic ∈ s.ioapics.items, ∃ k ≤ lastIndex d ioapic,
      ioapic.gsiBase.toNat + k = g := by
    intro g hg
    obtain ⟨ioapic, hmem, hin⟩ := w.legacy g hg
    have h1 := hin.1
    have h2 := hin.2
    exact ⟨ioapic, hmem, g - ioapic.gsiBase.toNat, by omega, by omega⟩
  obtain ⟨hlt, hinj⟩ := bij_of_onto (n := 16) (f := irqGsi s.irqOverrides.items) fun g hg => by
    obtain ⟨ioapic, hmem, k, hk, rfl⟩ := hplace g hg
    obtain ⟨i, hi, hgsi, _⟩ := h.routed lapicId n hmem hk hg
    exact ⟨i, hi, hgsi⟩
  constructor
  · intro i hi
    obtain ⟨ioapic, hmem, k, hk, hg⟩ := hplace _ (hlt i hi)
    obtain ⟨i', hi', hgsi, hrouted⟩ := h.routed lapicId n hmem hk (hg ▸ hlt i hi)
    obtain rfl := hinj i' hi' i hi (hgsi.trans hg)
    refine ⟨ioapic, hmem, k, hk, hg, ?_⟩
    rwa [configure_entry lapicId frame w hlegacy hmem hk]
  · intro i hi ioapic hmem k hk hunmasked hvector
    rw [configure_entry lapicId frame w hlegacy hmem hk] at hunmasked hvector
    obtain hg | hg := Nat.lt_or_ge (ioapic.gsiBase.toNat + k) 16
    · obtain ⟨i', hi', hgsi, hrouted⟩ := h.routed lapicId n hmem hk hg
      have := hrouted.vector
      obtain rfl : i' = i := by omega
      exact hgsi.symm
    · exact absurd (h.masked hmem hk hg) hunmasked
  · intro ioapic hmem k hk hnone
    rw [configure_entry lapicId frame w hlegacy hmem hk]
    obtain hg | hg := Nat.lt_or_ge (ioapic.gsiBase.toNat + k) 16
    · obtain ⟨i, hi, hgsi, _⟩ := h.routed lapicId n hmem hk hg
      exact absurd hgsi.symm (hnone i hi)
    · exact h.masked hmem hk hg
  · exact (configure_indices lapicId frame w).2 hlegacy

end

/-! ## A system with one I/O APIC -/

/-- An I/O APIC with 24 entries, which are all `lo`. -/
def oneRegs (lo : UInt32) : IoapicRegs := fun _ r => if r = 1 then 0x170011 else lo

def oneIoapic : Ent1 := ⟨⟨1, 12⟩, 0, 0, 0xFEC00000, 0⟩

/-- The system control interrupt is level triggered. -/
def oneOverride : Ent2 := ⟨⟨2, 10⟩, 0, 9, 9, 0xD⟩

def oneApic : Apic := Lists.toApic ⟨[], [oneIoapic], [oneOverride], [], [], 0xFEE00000⟩

theorem oneApic_ioapics : oneApic.ioapics.items = [oneIoapic] :=
  StaticArray.items_ofList (l := [oneIoapic]) (by decide)

theorem oneApic_irqOverrides : oneApic.irqOverrides.items = [oneOverride] :=
  StaticArray.items_ofList (l := [oneOverride]) (by decide)

theorem oneRegs_last (lo : UInt32) : lastIndex (oneRegs lo) oneIoapic = 23 := by
  rw [lastIndex, oneRegs, if_pos rfl]
  rfl

theorem oneRegs_wired (lo : UInt32) : Wired (oneRegs lo) oneApic.ioapics.items := by
  rw [oneApic_ioapics]
  refine ⟨List.pairwise_singleton _ _, fun ioapic h => ?_, List.pairwise_singleton _ _,
    fun g hg => ⟨oneIoapic, List.mem_singleton_self _, Nat.zero_le _, ?_⟩⟩
  · rw [List.mem_singleton.1 h, oneRegs_last]
    decide
  · rw [oneRegs_last]
    show g ≤ 0 + 23
    omega

theorem oneRegs_named (lo : UInt32) :
    Named (oneRegs lo) oneApic.ioapics.items oneApic.irqOverrides.items := by
  rw [oneApic_ioapics, oneApic_irqOverrides]
  refine ⟨fun irq h => ?_, by decide, by decide, fun irq h => ⟨oneIoapic, ?_⟩⟩
  · rw [List.mem_singleton.1 h]
    decide
  · rw [List.mem_singleton.1 h]
    refine ⟨List.mem_singleton_self _, Nat.zero_le _, ?_⟩
    rw [oneRegs_last]
    decide

/-- With all entries masked before, the interrupts are routed. -/
theorem routes_iff_masked : Routes (oneRegs 0x10000) oneApic 0
    (configure 0 (fun _ => false) (oneRegs 0x10000) oneApic) := by
  refine (routes_iff _ _ _ _ (oneRegs_wired _) (oneRegs_named _)).2 ⟨fun irq h => ?_,
    fun irq h ioapic h' _ hbelow => ?_, fun ioapic h k hk _ _ => ?_⟩
  · rw [oneApic_irqOverrides] at h ⊢
    rw [List.mem_singleton.1 h]
    exact ⟨by decide, oneOverride, List.mem_singleton_self _, rfl⟩
  · rw [oneApic_irqOverrides] at h
    rw [oneApic_ioapics] at h'
    rw [List.mem_singleton.1 h, List.mem_singleton.1 h'] at hbelow
    exact absurd (by decide) hbelow
  · rw [oneApic_ioapics] at h
    rw [List.mem_singleton.1 h] at hk ⊢
    have hk : k ≤ 23 := hk
    interval_cases k <;> rfl

/-- The last entry of an I/O APIC stays as it was. -/
theorem last_not_masked : Wired (oneRegs 0) oneApic.ioapics.items ∧
    Named (oneRegs 0) oneApic.ioapics.items oneApic.irqOverrides.items ∧
      ¬ Routes (oneRegs 0) oneApic 0 (configure 0 (fun _ => false) (oneRegs 0) oneApic) := by
  refine ⟨oneRegs_wired 0, oneRegs_named 0, fun hr => ?_⟩
  have hmem : oneIoapic ∈ oneApic.ioapics.items := by
    rw [oneApic_ioapics]
    exact List.mem_singleton_self _
  have hmasked := (hr.compatible _ (oneRegs_wired 0) (oneRegs_named 0)).unreached oneIoapic hmem 23
    (le_of_eq rfl) (by decide) (by decide)
  exact absurd hmasked (by unfold Masked; decide)

end Apic

end Ospp
