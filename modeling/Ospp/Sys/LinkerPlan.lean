import Ospp.Sys.LinkerStages

/-!
# The plan of a load, header by header

Where `stage0` puts the section of each header, computed from the section headers alone: the region
it goes to (`SectionHeader.region`), and the offset there, which depends on the sections before it
(`used`, `offset`). `plan_spec` says that this is what the loop of `stage0` and the two `append`s
have done to the layout.
-/

namespace Ospp

/-- The region that the section of a header goes to; `none` when it is not loaded. -/
def SectionHeader.region (h : SectionHeader) : Option Linker.Which :=
  if h.flags &&& shfAlloc = 0 ∨ h.type = shtNull ∨ h.size = 0 then none
  else if h.flags &&& shfExecinstr = shfExecinstr then some .rx
  else some .rw

/-- The alignment that `append` uses. -/
def SectionHeader.align (h : SectionHeader) : ℕ := if h.addralign ≠ 0 then h.addralign else 1

namespace Linker

/-! ## Offsets -/

/-- The size of a region before the section of header `i`. -/
def used (o : Object) (wh : Which) : ℕ → ℕ
  | 0 => 0
  | i + 1 =>
    if (o.secHdr i).region = some wh then
      Word32.add (Word32.alignUp (used o wh i) (o.secHdr i).align) (o.secHdr i).size
    else used o wh i

/-- The offset of the section of header `i`. -/
def offset (o : Object) (wh : Which) (i : ℕ) : ℕ :=
  Word32.alignUp (used o wh i) (o.secHdr i).align

/-- The section of header `i`, in its place. -/
def placed (o : Object) (wh : Which) (i : ℕ) : Section :=
  { newSection i (o.secHdr i) with regOff := offset o wh i }

/-- The headers whose sections go to a region. -/
def members (o : Object) (wh : Which) (n : ℕ) : List ℕ :=
  (List.range n).filter fun i => (o.secHdr i).region = some wh

/-- The size of a region, rounded up to pages. -/
def regionSize (o : Object) (wh : Which) : ℕ :=
  Word32.alignUp (used o wh o.secHdrsNum.toNat) pageSize

section

variable {o : Object} {wh : Which} {n : ℕ}

theorem used_succ_of {i : ℕ} (h : (o.secHdr i).region = some wh) :
    used o wh (i + 1) = Word32.add (offset o wh i) (o.secHdr i).size := if_pos h

theorem used_succ_of_not {i : ℕ} (h : (o.secHdr i).region ≠ some wh) :
    used o wh (i + 1) = used o wh i := if_neg h

theorem members_succ_of {i : ℕ} (h : (o.secHdr i).region = some wh) :
    members o wh (i + 1) = members o wh i ++ [i] := by
  unfold members
  rw [List.range_succ, List.filter_append, List.filter_singleton, decide_eq_true h]
  rfl

theorem members_succ_of_not {i : ℕ} (h : (o.secHdr i).region ≠ some wh) :
    members o wh (i + 1) = members o wh i := by
  unfold members
  rw [List.range_succ, List.filter_append, List.filter_singleton, decide_eq_false h]
  exact List.append_nil _

/-! ## The loop of `stage0` -/

/-- What a header adds. -/
theorem stage0Section_eq (L : Layout) (i : ℕ) (h : SectionHeader) :
    stage0Section L i h = match h.region with
      | none => L
      | some wh => L.append wh (newSection i h) := by
  unfold stage0Section SectionHeader.region
  by_cases h1 : h.flags &&& shfAlloc = 0
  · rw [if_pos h1, if_pos (Or.inl h1)]
  by_cases h2 : h.type = shtNull ∨ h.size = 0
  · rw [if_neg h1, if_pos h2, if_pos (Or.inr h2)]
  rw [if_neg h1, if_neg h2, if_neg (not_or.2 ⟨h1, h2⟩)]
  by_cases hx : h.flags &&& shfExecinstr = shfExecinstr
  · have ha : (newSection i h).access = .RX := by
      unfold newSection Section.hasFlag
      dsimp only
      rw [if_pos (beq_iff_eq.2 hx)]
    rw [if_pos hx]
    dsimp only
    rw [ha]
    rfl
  · have hx' : ¬ ((h.flags &&& shfExecinstr) == shfExecinstr) = true := fun hb => hx (beq_iff_eq.1 hb)
    rw [if_neg hx]
    by_cases hw : ((h.flags &&& shfWrite) == shfWrite) = true
    · have ha : (newSection i h).access = .RW := by
        unfold newSection Section.hasFlag
        dsimp only
        rw [if_neg hx', if_pos hw]
      dsimp only
      rw [ha]
      rfl
    · have ha : (newSection i h).access = .R := by
        unfold newSection Section.hasFlag
        dsimp only
        rw [if_neg hx', if_neg hw]
      dsimp only
      rw [ha]
      rfl

/-- The layout after the first `n` headers. -/
structure PlannedTo (o : Object) (n : ℕ) (L : Layout) : Prop where
  size : ∀ wh, (L.region wh).size = used o wh n
  sections : ∀ wh, (L.region wh).sections = (members o wh n).map (placed o wh)
  map : ∀ i, L.map i = if i < n then (o.secHdr i).region.map fun wh => (wh, placed o wh i) else none

theorem PlannedTo.step {L : Layout} (h : PlannedTo o n L) :
    PlannedTo o (n + 1) (stage0Section L n (o.secHdr n)) := by
  rw [stage0Section_eq]
  cases hreg : (o.secHdr n).region with
  | none =>
    have hne : ∀ wh, (o.secHdr n).region ≠ some wh := fun wh he => by rw [hreg] at he; cases he
    refine ⟨fun wh => ?_, fun wh => ?_, fun i => ?_⟩
    · rw [used_succ_of_not (hne wh)]
      exact h.size wh
    · rw [members_succ_of_not (hne wh)]
      exact h.sections wh
    · dsimp only
      rw [h.map i]
      by_cases hi : i = n
      · rw [hi, if_neg (by omega), if_pos (by omega), hreg]
        rfl
      · by_cases hlt : i < n
        · rw [if_pos hlt, if_pos (by omega)]
        · rw [if_neg hlt, if_neg (by omega)]
  | some wh₀ =>
    have hplace : (L.region wh₀).place (newSection n (o.secHdr n)) = placed o wh₀ n := by
      unfold Region.place placed offset
      rw [h.size]
      rfl
    refine ⟨fun wh => ?_, fun wh => ?_, fun i => ?_⟩
    · by_cases hw : wh = wh₀
      · subst hw
        rw [Layout.region_append, used_succ_of hreg]
        unfold Region.append
        rw [hplace]
        rfl
      · rw [Layout.region_append_ne _ _ hw, used_succ_of_not (by rw [hreg]; simpa using Ne.symm hw)]
        exact h.size wh
    · by_cases hw : wh = wh₀
      · subst hw
        rw [Layout.region_append, members_succ_of hreg, List.map_append, ← h.sections wh]
        unfold Region.append
        rw [hplace]
        rfl
      · rw [Layout.region_append_ne _ _ hw,
          members_succ_of_not (by rw [hreg]; simpa using Ne.symm hw)]
        exact h.sections wh
    · unfold Layout.append
      dsimp only
      rw [hplace]
      show (if i = n then some (wh₀, placed o wh₀ n) else L.map i) = _
      by_cases hi : i = n
      · rw [if_pos hi, hi, if_pos (by omega), hreg]
        rfl
      · rw [if_neg hi, h.map i]
        by_cases hlt : i < n
        · rw [if_pos hlt, if_pos (by omega)]
        · rw [if_neg hlt, if_neg (by omega)]

theorem plannedTo_foldl (o : Object) : ∀ n, PlannedTo o n
    ((List.range n).foldl (fun L i => stage0Section L i (o.secHdr i)) (Layout.new o)) := by
  intro n
  induction n with
  | zero =>
    refine ⟨fun wh => ?_, fun wh => ?_, fun i => rfl⟩
    · cases wh <;> rfl
    · cases wh <;> rfl
  | succ n ih =>
    rw [List.range_succ, List.foldl_append]
    exact ih.step

/-- **The plan**, in terms of the headers. -/
theorem plan_spec (h : (stage0 (Layout.new o)).2 = true) :
    (∀ wh, ((plan o).region wh).size = regionSize o wh) ∧
    (∀ wh, ((plan o).region wh).sections =
      (members o wh o.secHdrsNum.toNat).map (placed o wh)) ∧
    ∀ i, (plan o).map i = if i < o.secHdrsNum.toNat then
      (o.secHdr i).region.map fun wh => (wh, placed o wh i) else none := by
  obtain ⟨hsize, hsecs, hmap⟩ := plannedTo_foldl o o.secHdrsNum.toNat
  unfold plan
  unfold stage0 at h ⊢
  dsimp only at h ⊢
  split_ifs at h ⊢ with h0
  refine ⟨fun wh => ?_, fun wh => ?_, hmap⟩
  · unfold regionSize
    rw [← hsize wh]
    cases wh <;> rfl
  · rw [← hsecs wh]
    cases wh <;> rfl

/-! ## The layout of a load -/

variable {res ext own : ℕ → Prop} {s : Linker} {m : ModuleSpace} {L : Layout}

theorem Staged.stage0_ok (h : Staged s o m L) : (stage0 (Layout.new o)).2 = true := by
  obtain ⟨L₀, _, _, hs₀, _⟩ := h
  rw [hs₀]

/-- The layout, header by header. -/
theorem Ready.map (h : Ready res ext own s o m L) (hok : (stage0 (Layout.new o)).2 = true) (i : ℕ) :
    L.map i = if i < o.secHdrsNum.toNat then
      (o.secHdr i).region.map fun wh => (wh, placed o wh i) else none := by
  obtain ⟨b, rfl, _⟩ := h.plan
  rw [Layout.map_withBases]
  exact (plan_spec hok).2.2 i

theorem Ready.base_eq_zero (h : Ready res ext own s o m L)
    (hok : (stage0 (Layout.new o)).2 = true) : (L.region wh).base = 0 ↔ regionSize o wh = 0 := by
  obtain ⟨b, rfl, hb⟩ := h.plan
  rw [Layout.region_withBases, ← (plan_spec hok).1 wh]
  exact hb wh

end

end Linker

end Ospp
